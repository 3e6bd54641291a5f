import ScriptLang.Eval.Class
import ScriptLang.Proofs.Eval.Call

/-! Members, classes and new instances go in step. -/
namespace ScriptLang

variable {L : Difference} {m n : Machine} {c d : Context}
  {span span' : Span} {trace trace' : Trace} {v w v' w' : Value} {args args' : List Value} {i j : Class}

namespace Store.Alike

variable {s t : Store}

variable (hs : Alike L s t)

include hs

theorem member? {i j : Instance} (h : Instance.Alike L i j) (name : String) :
    Option.Rel (Member.Alike L) (s.member? i name) (t.member? j name) := by
  rw [Store.member?, Store.member?, h.id_eq]
  exact Table.Alike.get? (hs.members.getD _ .nil) name

theorem putMember {i j : Instance} (h : Instance.Alike L i j) (name : String) {a b : Member}
    (hab : Member.Alike L a b) : Alike L (s.putMember i name a) (t.putMember j name b) := by
  rw [Store.putMember, Store.putMember, h.id_eq]
  exact { hs with members := hs.members.modify _ fun _ _ ht => ht.put name hab }

section

variable (h : Class.Alike L i j)

include h

theorem ownStatic? (name : String) : Option.Rel (Member.Alike L) (s.ownStatic? i name) (t.ownStatic? j name) := by
  rw [Store.ownStatic?, Store.ownStatic?, h.id_eq]
  exact Table.Alike.get? (hs.statics.getD _ .nil) name

theorem static? (name : String) : Option.Rel (Member.Alike L) (s.static? i name) (t.static? j name) :=
  forall₂_findSome? h.lineage fun _ _ howner => hs.ownStatic? howner name

theorem putStatic (name : String) {a b : Member} (hab : Member.Alike L a b) :
    Alike L (s.putStatic i name a) (t.putStatic j name b) := by
  rw [Store.putStatic, Store.putStatic, h.id_eq]
  exact { hs with statics := hs.statics.modify _ fun _ _ ht => ht.put name hab }

theorem addInstance :
    Instance.Alike L (s.addInstance i).1 (t.addInstance j).1 ∧ Alike L (s.addInstance i).2 (t.addInstance j).2 := by
  refine ⟨?_, { hs with members := hs.members.push .nil }⟩
  rw [Store.addInstance, Store.addInstance, hs.members.size_eq]
  exact .mk _ h

end

theorem addClass {i j : ClassDef Node} (h : ClassDef.Alike L.spans 0 (SameCode L) i j) {p q : Option Class}
    (hparent : Option.Rel (Class.Alike L) p q) {scope scope' : Scope} (hscope : Scope.Alike L scope scope') :
    Class.Alike L (s.addClass i p scope).1 (t.addClass j q scope').1 ∧
      Alike L (s.addClass i p scope).2 (t.addClass j q scope').2 := by
  refine ⟨?_, { hs with statics := hs.statics.push .nil }⟩
  rw [Store.addClass, Store.addClass, hs.statics.size_eq]
  cases hparent with
  | none => exact .root _ h hscope
  | some hparent => exact .child _ h hparent hscope

end Store.Alike

theorem Context.Alike.checkAccess (hc : Context.Alike L c d) (h : Class.Alike L i j) (visibility : Visibility)
    (name : String) :
    Eval.Alike L Eq (c.checkAccess span i visibility name) (d.checkAccess span' j visibility name) := by
  rw [Context.checkAccess, Context.checkAccess, h.permits_eq visibility hc.classScope, h.name_eq]
  split
  · exact Eval.fail_alike _
  · exact .pure rfl

namespace Machine.Alike

variable {o p : Instance}

variable (hm : Alike L m n) (hc : Context.Alike L c d)

include hm hc

theorem method (h : Class.Alike L i j) (ho : Instance.Alike L o p) (name : String) :
    Eval.SameValue L (m.method i o name span c) (n.method j p name span' d) := by
  unfold Machine.method
  rw [h.name_eq]
  have hmethod := h.method? .method name
  generalize i.method? .method name = a, j.method? .method name = b at hmethod
  cases hmethod with
  | some hfound =>
    obtain ⟨owner, name, flags, function, span⟩ := hfound
    refine .bind (hc.checkAccess owner _ _) fun _ _ _ => .pure (.function ?_)
    exact owner.bind (.mk name flags function span) (.some ho)
  | none =>
    have hgetter := h.method? .getter name
    generalize i.method? .getter name = a, j.method? .getter name = b at hgetter
    cases hgetter with
    | some hfound =>
      obtain ⟨owner, name, flags, function, span⟩ := hfound
      refine .bind (hc.checkAccess owner _ _) fun _ _ _ => ?_
      exact hm.call (owner.bind (.mk name flags function span) (.some ho)) .nil
    | none => exact Eval.fail_alike _

theorem readMember (ho : Instance.Alike L o p) (name : String) :
    Eval.SameValue L (m.readMember o name span c) (n.readMember p name span' d) := by
  refine .bind .get fun s t hs => ?_
  have hmember := hs.member? ho name
  generalize s.member? o name = a, t.member? p name = b at hmember
  cases hmember with
  | some hfound =>
    obtain ⟨visibility, value, owner⟩ := hfound
    exact .bind (hc.checkAccess owner _ _) fun _ _ _ => .pure value
  | none => exact hm.method hc ho.cls ho name

theorem readProperty (hv : Value.Alike L v w) (name : String) :
    Eval.SameValue L (m.readProperty v name span c) (n.readProperty w name span' d) := by
  unfold Machine.readProperty
  cases hv with
  | object same => exact hm.readMember hc same name
  | dict id =>
    refine .bind .get fun s t hs => ?_
    have hget := (hs.heap.dict id).get? name
    generalize (s.heap.dict id).get? name = a, (t.heap.dict id).get? name = b at hget
    cases hget with
    | none => exact Eval.fail_alike _
    | some hab => exact .pure hab
  | cls same =>
    dsimp only
    rw [same.name_eq]
    exact Eval.fail_alike _
  | _ => exact Eval.fail_alike _

theorem writeMember (ho : Instance.Alike L o p) (name : String) (hv : Value.Alike L v w) :
    Eval.Alike L Eq (m.writeMember o name v span c) (n.writeMember p name w span' d) := by
  refine .bind .get fun s t hs => ?_
  have hmember := hs.member? ho name
  generalize s.member? o name = a, t.member? p name = b at hmember
  cases hmember with
  | some hfound =>
    obtain ⟨visibility, value, owner⟩ := hfound
    refine .bind (hc.checkAccess owner _ _) fun _ _ _ => .modify fun s t hs => ?_
    exact hs.putMember ho name (.mk visibility hv owner)
  | none =>
    dsimp only
    rw [ho.cls.name_eq]
    have hsetter := ho.cls.method? .setter name
    generalize o.cls.method? .setter name = a, p.cls.method? .setter name = b at hsetter
    cases hsetter with
    | some hfound =>
      obtain ⟨owner, name, flags, function, span⟩ := hfound
      refine .bind (hc.checkAccess owner _ _) fun _ _ _ => ?_
      exact (hm.call (owner.bind (.mk name flags function span) (.some ho)) (.cons hv .nil)).discard
    | none => exact Eval.fail_alike _

theorem writeProperty (hv : Value.Alike L v w) (name : String) (hv' : Value.Alike L v' w') :
    Eval.Alike L Eq (m.writeProperty v name v' span c) (n.writeProperty w name w' span' d) := by
  unfold Machine.writeProperty
  cases hv with
  | object same => exact hm.writeMember hc same name hv'
  | dict id =>
    refine .modify fun s t hs => { hs with heap := ?_ }
    exact hs.heap.updateDict id fun _ _ hd => hd.insert name hv'
  | _ => exact Eval.fail_alike _

end Machine.Alike

namespace Context.Alike

theorem staticTarget (hv : Value.Alike L v w) :
    Eval.Alike L (Class.Alike L) (c.staticTarget v span) (d.staticTarget w span') := by
  cases hv with
  | cls same => exact .pure same
  | object same => exact .pure same.cls
  | _ => exact Eval.fail_alike _

variable (hc : Context.Alike L c d)

include hc

variable (hv : Value.Alike L v w)

include hv

theorem static (name : String) : Eval.Alike L (Member.Alike L) (c.static v name span) (d.static w name span') := by
  refine .bind (staticTarget hv) fun i j h => ?_
  refine .bind .get fun s t hs => ?_
  have hstatic := hs.static? h name
  generalize s.static? i name = a, t.static? j name = b at hstatic
  cases hstatic with
  | some hfound =>
    obtain ⟨visibility, value, owner⟩ := hfound
    refine .bind (hc.checkAccess owner _ _) fun _ _ _ => ?_
    exact .pure (.mk visibility value owner)
  | none =>
    dsimp only
    rw [h.name_eq]
    exact Eval.fail_alike _

theorem readStatic (name : String) : Eval.SameValue L (c.readStatic v name span) (d.readStatic w name span') := by
  refine .bind (hc.static hv name) ?_
  rintro _ _ ⟨_, value, _⟩
  exact .pure value

theorem writeStatic (name : String) (hv' : Value.Alike L v' w') :
    Eval.Alike L Eq (c.writeStatic v name v' span) (d.writeStatic w name w' span') := by
  refine .bind (hc.static hv name) ?_
  rintro _ _ ⟨_, _, owner⟩
  refine .bind .get fun s t hs => ?_
  dsimp only
  have hheld := hs.ownStatic? owner name
  generalize Store.ownStatic? s _ name = a, Store.ownStatic? t _ name = b at hheld
  cases hheld with
  | none => exact .pure rfl
  | some hheld =>
    obtain ⟨visibility, _, howner⟩ := hheld
    exact .modify fun s t hs => hs.putStatic owner name (.mk visibility hv' howner)

end Context.Alike

end ScriptLang
