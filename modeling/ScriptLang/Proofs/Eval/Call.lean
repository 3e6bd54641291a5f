import ScriptLang.Eval.Builtin
import ScriptLang.Proofs.Eval.Alike
import ScriptLang.Proofs.Value.Operation

/-! Calls go in step: neither the place of a call nor its caller has an effect on it, but for where a
failure is reported. -/
namespace ScriptLang

variable {L : Difference} {m n : Machine} {c d : Context}
  {span span' : Span} {trace trace' : Trace} {v w : Value} {args args' : List Value}
  {p q : List (Param Node)}

namespace Context.Alike

theorem declare (h : Alike L c d) (name : String) (hv : Value.Alike L v w) :
    Eval.Alike L Eq (c.declare span name v) (d.declare span' name w) := by
  exact Eval.declare_alike h.scope name hv

theorem declareConstant (h : Alike L c d) (name : String) (hv : Value.Alike L v w) :
    Eval.Alike L Eq (c.declareConstant span name v) (d.declareConstant span' name w) := by
  exact Eval.declare_alike h.scope name hv

theorem turn (h : Alike L c d) (label : String) (position position' : Position) :
    Eval.Alike L (Alike L) (c.turn label position) (d.turn label position') := by
  exact .bind (Eval.innerScope_alike h.scope) fun _ _ hscope => .pure ⟨hscope, h.classScope⟩

theorem leave (body body' : Node) {i j : Interrupt} (hij : Interrupt.Alike L i j) :
    Eval.SameValue L (c.leave body i) (d.leave body' j) := by
  cases hij with
  | returned value => exact .pure value
  | broken | continued => exact Eval.fail_alike _
  | failed cause => exact .throw (.failed cause)
  | exhausted => exact .throw .exhausted

end Context.Alike

theorem Param.Alike.admits_eq {a b : Param Node} (h : Param.Alike L.spans (SameCode L) a b)
    (hv : Value.Alike L v w) : a.admits v = b.admits w := by
  rw [Param.admits, Param.admits, h.typeName_eq, h.isOptional_eq, hv.isNothing_eq]
  simp only [hv.hasType_eq]

theorem Arity.ofParams_eq
    (h : List.Forall₂ (Param.Alike L.spans (SameCode L)) p q) : Arity.ofParams p = Arity.ofParams q := by
  have hcount : p.countP (fun param => !param.isOptional && !param.isRest) =
      q.countP (fun param => !param.isOptional && !param.isRest) := by
    rw [List.countP_eq_length_filter, List.countP_eq_length_filter]
    exact (forall₂_filter h fun _ _ h => by rw [h.isOptional_eq, h.isRest_eq]).length_eq
  have hany : p.any (·.isRest) = q.any (·.isRest) := forall₂_any_eq h fun _ _ h => h.isRest_eq
  rw [Arity.ofParams, Arity.ofParams, hcount, hany, h.length_eq]

namespace Machine.Alike

variable {site site' : CallSite}

private theorem atomText (hv : Value.Alike L v w) : Eval.Alike L Eq (pure v.atomText) (pure w.atomText) :=
  .pure hv.atomText_eq

/-- The parameters of built-in functions are the same everywhere. -/
private theorem params_alike (hr : ∀ s, L.spans s s) (b : Builtin) :
    List.Forall₂ (Param.Alike L.spans (SameCode L)) b.params b.params := by
  rw [List.forall₂_same]
  intro param hparam
  have hfallback : param.fallback = none := by
    cases b <;> simp [Builtin.params, Builtin.required, Builtin.optional, Builtin.param] at hparam <;>
      (rcases hparam with rfl | rfl | rfl <;> rfl)
  obtain ⟨name, typeName, isRest, isOptional, fallback, span⟩ := param
  subst hfallback
  exact .mk name typeName isRest isOptional .none (hr span)

variable (hm : Alike L m n) (hc : Context.Alike L c d)

include hm hc

theorem value {a b : Node} (h : SameCode L a b) : Eval.SameValue L (m.value a c) (n.value b d) := by
  refine .tryCatch (hm.eval h hc) fun i j hij => ?_
  cases hij with
  | returned | broken | continued => exact Eval.fail_alike _
  | failed cause => exact .throw (.failed cause)
  | exhausted => exact .throw .exhausted

theorem values {a b : List Node} (h : List.Forall₂ (SameCode L) a b) :
    Eval.Alike L (SameValues L) (m.values a c) (n.values b d) :=
  .mapM h fun _ _ h => hm.eval h hc

theorem argument {a b : Param Node} (h : Param.Alike L.spans (SameCode L) a b) (hargs : SameValues L args args') :
    Eval.Alike L (PairAlike (Value.Alike L) (SameValues L)) (m.argument c a args) (n.argument d b args') := by
  unfold Machine.argument
  rw [h.isRest_eq]
  split
  · exact .bind (Eval.newList_alike hargs) fun _ _ hlist => .pure (.mk hlist .nil)
  · cases hargs with
    | cons hv hrest => exact .pure (.mk hv hrest)
    | nil =>
      have hfallback := h.fallback
      generalize a.fallback = p, b.fallback = q at hfallback
      cases hfallback with
      | none => exact .pure (.mk .nothing .nil)
      | some hnode => exact .bind (hm.value hc hnode) fun _ _ hv => .pure (.mk hv .nil)

section

variable (hname : site.name = site'.name) (h : List.Forall₂ (Param.Alike L.spans (SameCode L)) p q)
  (hargs : SameValues L args args')

include hname h hargs

theorem bind : Eval.Alike L (SameValues L) (m.bind site c p args) (n.bind site' d q args') := by
  induction h generalizing args args' with
  | nil => exact .pure .nil
  | cons hparam _ ih =>
    rw [Machine.bind, Machine.bind]
    refine .bind (hm.argument hc hparam hargs) ?_
    rintro _ _ ⟨hv, hrest⟩
    dsimp only
    rw [hparam.admits_eq hv, hname, hparam.name_eq, hparam.typeName_eq, hv.typeOf_eq]
    split
    · exact Eval.fail_bind_alike _ _ _
    · refine .bind (Eval.declare_alike hc.scope _ hv) fun _ _ _ => ?_
      exact .bind (ih hrest) fun _ _ hvs => .pure (.cons hv hvs)

theorem bindArguments :
    Eval.Alike L (SameValues L) (m.bindArguments site c p args) (n.bindArguments site' d q args') := by
  unfold Machine.bindArguments
  dsimp only
  rw [Arity.ofParams_eq h, hname, hargs.length_eq]
  split
  · exact Eval.fail_bind_alike _ _ _
  · exact hm.bind hc hname h hargs

end

theorem runBody {f g : FunctionDef Node} (h : FunctionDef.Alike L.spans 0 (SameCode L) f g) :
    Eval.SameValue L (m.runBody f c) (n.runBody g d) := by
  unfold Machine.runBody
  rw [h.autoReturn_eq]
  refine .tryCatch (.bind (hm.eval h.body hc) fun _ _ hv => .pure ?_) ?_
  · split
    · exact hv
    · exact .nothing
  · intro i j hij
    exact Context.Alike.leave _ _ hij

omit hc

section

variable {f g : Closure} (h : Closure.Alike L f g) (hargs : SameValues L args args')

include h hargs

/-- Whatever `self` the function has, its parameters are bound and its body runs. -/
theorem invoke (hname : site.name = site'.name) :
    Eval.SameValue L (m.invoke f args site) (n.invoke g args' site') := by
  refine .bind (Eval.innerScope_alike h.scope) fun scope scope' hscope => ?_
  have hc : Context.Alike L ⟨site.trace, scope, f.classScope⟩ ⟨site'.trace, scope', g.classScope⟩ :=
    ⟨hscope, h.classScope⟩
  have hbody := InStep.bind (hm.bindArguments hc hname h.code.params hargs).discard
    fun _ _ _ => hm.runBody hc h.code
  have hreceiver := h.receiver
  generalize f.receiver = i, g.receiver = j at hreceiver
  cases hreceiver with
  | none => exact hbody
  | some hself =>
    refine .bind (Eval.declare_alike hscope _ ?_) fun _ _ _ => hbody
    exact .object hself

theorem call : Eval.SameValue L (m.call f args span trace) (n.call g args' span' trace') := by
  unfold Machine.call
  rw [hm.limit]
  exact Eval.guarded_alike (hm.invoke h hargs h.label_eq)

end

theorem nestedText (room : Nat) (around : List Handle) (hv : Value.Alike L v w) :
    Eval.Alike L Eq (m.nestedText span trace room around v) (n.nestedText span' trace' room around w) := by
  induction room generalizing around v w with
  | zero =>
    cases hv with
    | @object i j same =>
      have hmethod := same.textMethod?
      rw [Machine.nestedText, Machine.nestedText, (Value.Alike.object same).atomText_eq]
      refine .pure ?_
      generalize i.textMethod? = p, j.textMethod? = q at hmethod
      cases hmethod <;> rfl
    | text value => exact .pure rfl
    | _ => exact atomText (by constructor <;> assumption)
  | succ room ih =>
    cases hv with
    | list id =>
      rw [Machine.nestedText, Machine.nestedText]
      dsimp only
      split
      · exact .pure rfl
      · refine .bind .get fun s t hs => ?_
        refine .bind (.mapM (hs.heap.list id) fun _ _ h => ih _ h) fun texts texts' htexts => ?_
        rw [List.forall₂_eq_eq_eq] at htexts
        exact .pure (congrArg _ htexts)
    | dict id =>
      rw [Machine.nestedText, Machine.nestedText]
      dsimp only
      split
      · exact .pure rfl
      · refine .bind .get fun s t hs => ?_
        refine .bind (P := List.Forall₂ Eq) (.mapM (hs.heap.entries id) ?_) fun _ _ htexts => ?_
        · rintro _ _ ⟨key, value⟩
          exact .bind (ih _ value) fun _ _ htext => .pure (congrArg _ htext)
        · rw [List.forall₂_eq_eq_eq] at htexts
          exact .pure (congrArg _ htexts)
    | @object i j same =>
      have hmethod := same.textMethod?
      rw [Machine.nestedText, Machine.nestedText, same.id_eq]
      generalize i.textMethod? = p, j.textMethod? = q at hmethod
      cases hmethod with
      | none => exact atomText (.object same)
      | some hclosure =>
        dsimp only
        split
        · exact .pure rfl
        · refine .bind (hm.call hclosure .nil) fun _ _ hv => ?_
          cases hv with
          | text value => exact .pure rfl
          | _ => exact ih _ (by constructor <;> assumption)
    | text value => exact .pure rfl
    | _ => exact atomText (by constructor <;> assumption)

theorem text (hv : Value.Alike L v w) : Eval.Alike L Eq (m.text v span trace) (n.text w span' trace') :=
  hm.nestedText _ _ hv

variable (hargs : SameValues L args args')

include hargs

theorem print : Eval.SameValue L (m.print args span trace) (n.print args' span' trace') := by
  refine .bind (.mapM hargs fun _ _ hv => hm.text hv) fun texts texts' htexts => ?_
  rw [List.forall₂_eq_eq_eq] at htexts
  subst htexts
  refine .bind (.modify fun s t hs => { hs with output := ?_ }) fun _ _ _ => .pure .nothing
  rw [Store.print, Store.print, hs.output, Array.push_append]

theorem runBuiltin (b : Builtin) :
    Eval.SameValue L (m.runBuiltin b args span trace) (n.runBuiltin b args' span' trace') := by
  have hact : Eval.SameValue L (.onHeap trace span (b.act args))
      (.onHeap trace' span' (b.act args')) := Eval.onHeap_alike (b.act_alike hargs)
  unfold Machine.runBuiltin
  rcases hargs with _ | ⟨hv, _ | _⟩
  · cases b <;> exact hact
  · cases b with
    | print =>
      cases hv with
      | list id => exact .bind .get fun s t hs => hm.print (hs.heap.list id)
      | _ => exact hact
    | str => exact .bind (hm.text hv) fun _ _ htext => .pure (htext ▸ .text _)
    | _ => exact hact
  · cases b with
    | print => cases hv <;> exact hact
    | _ => exact hact

theorem invokeBuiltin (hr : ∀ s, L.spans s s) (b : Builtin) (hname : site.name = site'.name) :
    Eval.SameValue L (m.invokeBuiltin b args site) (n.invokeBuiltin b args' site') := by
  refine .bind Eval.addFrame_alike ?_
  rintro own _ ⟨rfl, hown⟩
  have hc : Context.Alike L ⟨site.trace, ⟨own, []⟩, none⟩ ⟨site'.trace, ⟨own, []⟩, none⟩ := by
    refine ⟨.mk fun id hid => ?_, .none⟩
    rwa [List.mem_singleton.mp hid]
  refine .bind (hm.bindArguments hc hname (params_alike hr b) hargs) fun _ _ hbound => ?_
  exact hm.runBuiltin hbound b

theorem callValue (hr : ∀ s, L.spans s s) (hv : Value.Alike L v w) :
    Eval.SameValue L (m.callValue v args span trace) (n.callValue w args' span' trace') := by
  cases hv with
  | function closure => exact hm.call closure hargs
  | builtin b =>
    unfold Machine.callValue
    dsimp only
    rw [hm.limit]
    exact Eval.guarded_alike (hm.invokeBuiltin hargs hr b rfl)
  | cls same =>
    unfold Machine.callValue
    dsimp only
    rw [same.name_eq]
    exact Eval.fail_alike _
  | _ => exact Eval.fail_alike _

end Machine.Alike

end ScriptLang
