import ScriptLang.Proofs.Value.Aligned
import ScriptLang.Value.Basic

/-! Values that are the same but for the stretches of source in their code. Main statement: what
programs can tell of classes, instances and functions is the same for both. -/
namespace ScriptLang

/-- What values of two runs may differ in: stretches of source as far as `spans` relates them, and all
that the `hidden` frames hold. -/
structure Leeway where
  spans : Span → Span → Prop
  hidden : FrameId → Prop := fun _ => False

/-- Code that differs in nothing but its stretches. -/
abbrev SameCode (L : Leeway) : Node → Node → Prop := Node.Alike L.spans 0

abbrev SameMethod (L : Leeway) : MethodDef Node → MethodDef Node → Prop :=
  MethodDef.Alike L.spans 0 (SameCode L)

/-- The same scope, from which no hidden frame is seen. -/
inductive Scope.Alike (L : Leeway) : Scope → Scope → Prop
  | mk {scope : Scope} (shown : ∀ id ∈ scope.frames, ¬ L.hidden id) : Alike L scope scope

inductive Class.Alike (L : Leeway) : Class → Class → Prop
  | root {d e s t} (id) (definition : ClassDef.Alike L.spans 0 (SameCode L) d e)
      (scope : Scope.Alike L s t) : Alike L ⟨id, d, none, s⟩ ⟨id, e, none, t⟩
  | child {d e p q s t} (id) (definition : ClassDef.Alike L.spans 0 (SameCode L) d e)
      (parent : Alike L p q) (scope : Scope.Alike L s t) :
      Alike L ⟨id, d, some p, s⟩ ⟨id, e, some q, t⟩

inductive Instance.Alike (L : Leeway) : Instance → Instance → Prop
  | mk {c d} (id) (cls : Class.Alike L c d) : Alike L ⟨id, c⟩ ⟨id, d⟩

inductive Closure.Alike (L : Leeway) : Closure → Closure → Prop
  | mk {f g s t c d i j} (code : FunctionDef.Alike L.spans 0 (SameCode L) f g)
      (scope : Scope.Alike L s t) (classScope : Option.Rel (Class.Alike L) c d)
      (receiver : Option.Rel (Instance.Alike L) i j) : Alike L ⟨f, s, c, i⟩ ⟨g, t, d, j⟩

inductive Value.Alike (L : Leeway) : Value → Value → Prop
  | nothing : Alike L .nothing .nothing
  | number (value) : Alike L (.number value) (.number value)
  | text (value) : Alike L (.text value) (.text value)
  | boolean (value) : Alike L (.boolean value) (.boolean value)
  | list (id) : Alike L (.list id) (.list id)
  | dict (id) : Alike L (.dict id) (.dict id)
  | function {f g} (closure : Closure.Alike L f g) : Alike L (.function f) (.function g)
  | builtin (native) : Alike L (.builtin native) (.builtin native)
  | cls {c d} (same : Class.Alike L c d) : Alike L (.class c) (.class d)
  | object {i j} (same : Instance.Alike L i j) : Alike L (.instance i) (.instance j)

variable {L : Leeway}

theorem Scope.Alike.eq {s t : Scope} (h : Scope.Alike L s t) : s = t := by
  cases h; rfl

namespace Class.Alike

variable {c d : Class}

variable (h : Alike L c d)

include h

theorem id_eq : c.id = d.id := by
  cases h <;> rfl

theorem scope : Scope.Alike L c.scope d.scope := by
  cases h with
  | root _ _ scope => exact scope
  | child _ _ _ scope => exact scope

theorem definition : ClassDef.Alike L.spans 0 (SameCode L) c.definition d.definition := by
  cases h with
  | root _ definition _ => exact definition
  | child _ definition _ _ => exact definition

theorem parent : Option.Rel (Alike L) c.parent d.parent := by
  cases h with
  | root => exact .none
  | child _ _ parent _ => exact .some parent

theorem name_eq : c.name = d.name := h.definition.name_eq

theorem lineage : List.Forall₂ (Alike L) c.lineage d.lineage := by
  induction h with
  | root id definition scope => exact .cons (.root id definition scope) .nil
  | child id definition parent scope ih => exact .cons (.child id definition parent scope) ih

theorem ancestors : List.Forall₂ (Alike L) c.ancestors d.ancestors := by
  cases h with
  | root => exact .nil
  | child _ _ parent _ => exact parent.lineage

theorem isNamed_eq (name : String) : c.isNamed name = d.isNamed name :=
  forall₂_any_eq h.lineage fun _ _ h => by rw [h.name_eq]

theorem inherits_eq {c' d' : Class} (h' : Alike L c' d') : c.inherits c' = d.inherits d' :=
  forall₂_any_eq h.lineage fun _ _ h => by rw [h.id_eq, h'.id_eq]

theorem own (kind : MethodKind) : List.Forall₂ (SameMethod L) (c.own kind) (d.own kind) := by
  cases kind with
  | method => exact h.definition.methods
  | getter => exact h.definition.getters
  | setter => exact h.definition.setters

theorem method? (kind : MethodKind) (name : String) :
    Option.Rel (PairAlike (Alike L) (SameMethod L)) (c.method? kind name) (d.method? kind name) := by
  refine forall₂_findSome? h.lineage fun a b hab => ?_
  refine option_rel_map (forall₂_find? (hab.own kind) ?_) fun _ _ hm => .mk hab hm
  rintro _ _ ⟨name, flags, _, _⟩
  rfl

theorem declares_eq (name : String) : c.declares name = d.declares name := by
  rw [Class.declares, Class.declares]
  congr 1
  · refine forall₂_any_eq h.definition.properties ?_
    rintro _ _ ⟨name, flags, _, _⟩
    rfl
  · refine forall₂_any_eq h.definition.methods ?_
    rintro _ _ ⟨name, flags, _, _⟩
    rfl

theorem permits_eq (visibility : Visibility) {u v : Option Class} (huv : Option.Rel (Alike L) u v) :
    c.permits visibility u = d.permits visibility v := by
  cases visibility with
  | everyone => rfl
  | self =>
    cases huv with
    | none => rfl
    | some huv => simp only [Class.permits, Option.any_some, huv.id_eq, h.id_eq]
  | inheritors =>
    cases huv with
    | none => rfl
    | some huv => simp only [Class.permits, Option.any_some, huv.inherits_eq h]

theorem bind {m n : MethodDef Node} (hm : SameMethod L m n) {i j : Option Instance}
    (hij : Option.Rel (Instance.Alike L) i j) : Closure.Alike L (c.bind m i) (d.bind n j) := by
  obtain ⟨name, flags, function, _⟩ := hm
  exact .mk function h.scope (.some h) hij

end Class.Alike

namespace Instance.Alike

variable {i j : Instance}

theorem id_eq (h : Alike L i j) : i.id = j.id := by
  cases h; rfl

theorem cls (h : Alike L i j) : Class.Alike L i.cls j.cls := by
  cases h; assumption

theorem textMethod? (h : Alike L i j) : Option.Rel (Closure.Alike L) i.textMethod? j.textMethod? := by
  refine option_rel_map (h.cls.method? .method textMethodName) ?_
  rintro _ _ ⟨owner, method⟩
  exact owner.bind method (.some h)

end Instance.Alike

namespace Closure.Alike

variable {f g : Closure}

variable (h : Alike L f g)

include h

theorem code : FunctionDef.Alike L.spans 0 (SameCode L) f.code g.code := by
  cases h; assumption

theorem scope : Scope.Alike L f.scope g.scope := by
  cases h; assumption

theorem classScope : Option.Rel (Class.Alike L) f.classScope g.classScope := by
  cases h; assumption

theorem receiver : Option.Rel (Instance.Alike L) f.receiver g.receiver := by
  cases h; assumption

theorem label_eq : f.code.label = g.code.label := by
  rw [FunctionDef.label, FunctionDef.label, h.code.name_eq]

private theorem receiver_id_eq : f.receiver.map (·.id) = g.receiver.map (·.id) := by
  have hr := h.receiver
  generalize f.receiver = i, g.receiver = j at hr
  cases hr with
  | none => rfl
  | some hij => simp only [Option.map_some, hij.id_eq]

theorem same_eq {f' g' : Closure} (h' : Alike L f' g') : f.same f' = g.same g' := by
  rw [Closure.same, Closure.same, h.scope.eq, h'.scope.eq, h.receiver_id_eq, h'.receiver_id_eq,
    h.code.id_eq, h'.code.id_eq, Nat.add_zero, Nat.add_zero]

end Closure.Alike

namespace Value.Alike

variable {v w : Value}

variable (h : Alike L v w)

include h

theorem typeName_eq : v.typeName = w.typeName := by
  cases h <;> rfl

theorem typeOf_eq : v.typeOf = w.typeOf := by
  cases h with
  | object same => exact same.cls.name_eq
  | _ => rfl

theorem isNothing_eq : v.isNothing = w.isNothing := by
  cases h <;> rfl

theorem hasType_eq (type : String) : v.hasType type = w.hasType type := by
  unfold Value.hasType
  rw [h.typeName_eq]
  cases h with
  | object same => simp only [same.cls.isNamed_eq]
  | _ => rfl

end Value.Alike

end ScriptLang
