import Mathlib.Data.List.Forall2
import ScriptLang.Proofs.Tree.Parts

/-! Trees that are the same but for the stretches of source they were read from.

`R` relates the stretches, and the ids of functions differ by `k`. Main statements: the relation is
monotone in `R`, reflexive where `R` is, and equality where `R` is equality and `k` is zero. -/
namespace ScriptLang

variable {α β : Type}

inductive Index.Alike (P : α → β → Prop) : Index α → Index β → Prop
  | single {a b} (key : P a b) : Alike P (.single a) (.single b)
  | push : Alike P .push .push
  | slice {a b c d} (start : Option.Rel P a b) (stop : Option.Rel P c d) :
      Alike P (.slice a c) (.slice b d)

inductive Param.Alike (R : Span → Span → Prop) (P : α → β → Prop) : Param α → Param β → Prop
  | mk {a b s t} (name typeName isRest isOptional) (fallback : Option.Rel P a b) (span : R s t) :
      Alike R P ⟨name, typeName, isRest, isOptional, a, s⟩ ⟨name, typeName, isRest, isOptional, b, t⟩

inductive FunctionDef.Alike (R : Span → Span → Prop) (k : Nat) (P : α → β → Prop) :
    FunctionDef α → FunctionDef β → Prop
  | mk {p q a b s t} (id name autoReturn) (params : List.Forall₂ (Param.Alike R P) p q)
      (body : P a b) (span : R s t) :
      Alike R k P ⟨id, name, p, a, autoReturn, s⟩ ⟨id + k, name, q, b, autoReturn, t⟩

inductive PropertyDef.Alike (R : Span → Span → Prop) (P : α → β → Prop) :
    PropertyDef α → PropertyDef β → Prop
  | mk {a b s t} (name flags) (value : Option.Rel P a b) (span : R s t) :
      Alike R P ⟨name, a, flags, s⟩ ⟨name, b, flags, t⟩

inductive MethodDef.Alike (R : Span → Span → Prop) (k : Nat) (P : α → β → Prop) :
    MethodDef α → MethodDef β → Prop
  | mk {f g s t} (name flags) (function : FunctionDef.Alike R k P f g) (span : R s t) :
      Alike R k P ⟨name, f, flags, s⟩ ⟨name, g, flags, t⟩

inductive ClassDef.Alike (R : Span → Span → Prop) (k : Nat) (P : α → β → Prop) :
    ClassDef α → ClassDef β → Prop
  | mk {p q m n g h u v s t} (name parent) (properties : List.Forall₂ (PropertyDef.Alike R P) p q)
      (methods : List.Forall₂ (MethodDef.Alike R k P) m n)
      (getters : List.Forall₂ (MethodDef.Alike R k P) g h)
      (setters : List.Forall₂ (MethodDef.Alike R k P) u v) (span : R s t) :
      Alike R k P ⟨name, parent, p, m, g, u, s⟩ ⟨name, parent, q, n, h, v, t⟩

inductive TemplatePart.Alike (P : α → β → Prop) : TemplatePart α → TemplatePart β → Prop
  | text (value) : Alike P (.text value) (.text value)
  | expression {a b} (node : P a b) : Alike P (.expression a) (.expression b)

inductive Branch.Alike (P : α → β → Prop) : Branch α → Branch β → Prop
  | mk {a b c d} (discard) (condition : P a b) (body : P c d) :
      Alike P ⟨a, c, discard⟩ ⟨b, d, discard⟩

inductive EntryAlike (P : α → β → Prop) : String × α → String × β → Prop
  | mk {a b} (key) (value : P a b) : EntryAlike P (key, a) (key, b)

inductive PairAlike {γ δ : Type} (P : α → β → Prop) (Q : γ → δ → Prop) : α × γ → β × δ → Prop
  | mk {a b c d} (first : P a b) (second : Q c d) : PairAlike P Q (a, c) (b, d)

/-- The same layer, over parts that `P` relates. -/
inductive Shape.Alike (R : Span → Span → Prop) (k : Nat) (P : α → β → Prop) :
    Shape α → Shape β → Prop
  | number (value) : Alike R k P (.number value) (.number value)
  | text (value) : Alike R k P (.text value) (.text value)
  | template {a b} (parts : List.Forall₂ (TemplatePart.Alike P) a b) :
      Alike R k P (.template a) (.template b)
  | boolean (value) : Alike R k P (.boolean value) (.boolean value)
  | nothing : Alike R k P .nothing .nothing
  | list {a b} (elements : List.Forall₂ P a b) : Alike R k P (.list a) (.list b)
  | dict {a b} (entries : List.Forall₂ (EntryAlike P) a b) : Alike R k P (.dict a) (.dict b)
  | declare {a b} (name) (value : P a b) : Alike R k P (.declare name a) (.declare name b)
  | declareConstant {a b} (name) (value : P a b) :
      Alike R k P (.declareConstant name a) (.declareConstant name b)
  | lookup (name) : Alike R k P (.lookup name) (.lookup name)
  | assign {a b} (name) (value : P a b) : Alike R k P (.assign name a) (.assign name b)
  | delete {a b} (target : P a b) : Alike R k P (.delete a) (.delete b)
  | index {a b i j} (optional) (target : P a b) (key : Index.Alike P i j) :
      Alike R k P (.index a i optional) (.index b j optional)
  | assignIndex {a b c d i j} (target : P a b) (key : Index.Alike P i j) (value : P c d) :
      Alike R k P (.assignIndex a i c) (.assignIndex b j d)
  | property {a b} (name optional) (target : P a b) :
      Alike R k P (.property a name optional) (.property b name optional)
  | assignProperty {a b c d} (name) (target : P a b) (value : P c d) :
      Alike R k P (.assignProperty a name c) (.assignProperty b name d)
  | staticProperty {a b} (name optional) (target : P a b) :
      Alike R k P (.staticProperty a name optional) (.staticProperty b name optional)
  | assignStatic {a b c d} (name) (target : P a b) (value : P c d) :
      Alike R k P (.assignStatic a name c) (.assignStatic b name d)
  | binary {a b c d} (op) (left : P a b) (right : P c d) :
      Alike R k P (.binary op a c) (.binary op b d)
  | unary {a b} (op) (operand : P a b) : Alike R k P (.unary op a) (.unary op b)
  | conditional {a b c d} (discard) (branches : List.Forall₂ (Branch.Alike P) a b)
      (otherwise : Option.Rel P c d) :
      Alike R k P (.conditional a c discard) (.conditional b d discard)
  | countingLoop {a b c d e f g h} (name discard) (start : Option.Rel P a b) (stop : P c d)
      (step : Option.Rel P e f) (body : P g h) :
      Alike R k P (.countingLoop name a c e g discard) (.countingLoop name b d f h discard)
  | eachLoop {a b c d} (key value discard) (items : P a b) (body : P c d) :
      Alike R k P (.eachLoop a key value c discard) (.eachLoop b key value d discard)
  | whileLoop {a b c d} (discard) (condition : P a b) (body : P c d) :
      Alike R k P (.whileLoop a c discard) (.whileLoop b d discard)
  | switch {a b c d} (cases : List.Forall₂ (PairAlike P P) a b) (otherwise : Option.Rel P c d) :
      Alike R k P (.switch a c) (.switch b d)
  | block {a b} (statements : List.Forall₂ P a b) : Alike R k P (.block a) (.block b)
  | function {a b} (definition : FunctionDef.Alike R k P a b) :
      Alike R k P (.function a) (.function b)
  | call {a b c d} (optional) (callee : P a b) (args : List.Forall₂ P c d) :
      Alike R k P (.call a c optional) (.call b d optional)
  | returnWith {a b} (value : Option.Rel P a b) : Alike R k P (.returnWith a) (.returnWith b)
  | continueLoop : Alike R k P .continueLoop .continueLoop
  | breakLoop : Alike R k P .breakLoop .breakLoop
  | pass : Alike R k P .pass .pass
  | classDefinition {a b} (definition : ClassDef.Alike R k P a b) :
      Alike R k P (.classDefinition a) (.classDefinition b)
  | instantiate {a b c d} (cls : P a b) (args : List.Forall₂ P c d) :
      Alike R k P (.instantiate a c) (.instantiate b d)
  | superCall {a b} (args : List.Forall₂ P a b) : Alike R k P (.superCall a) (.superCall b)
  | superProperty (name) : Alike R k P (.superProperty name) (.superProperty name)
  | enumeration (name members) : Alike R k P (.enumeration name members) (.enumeration name members)

/-- Nodes that differ in nothing but their stretches, which `R` relates, and the ids of their
functions, which are `k` apart. -/
inductive Node.Alike (R : Span → Span → Prop) (k : Nat) : Node → Node → Prop
  | mk {a b s t} (shape : Shape.Alike R k (Node.Alike R k) a b) (span : R s t) :
      Alike R k ⟨a, s⟩ ⟨b, t⟩

section Fields

variable {R : Span → Span → Prop} {k : Nat} {P : α → β → Prop}

namespace Param.Alike

variable {a : Param α} {b : Param β} (h : Param.Alike R P a b)

include h

theorem name_eq : a.name = b.name := by
  cases h; rfl

theorem typeName_eq : a.typeName = b.typeName := by
  cases h; rfl

theorem isRest_eq : a.isRest = b.isRest := by
  cases h; rfl

theorem isOptional_eq : a.isOptional = b.isOptional := by
  cases h; rfl

theorem fallback : Option.Rel P a.fallback b.fallback := by
  cases h; assumption

end Param.Alike

namespace FunctionDef.Alike

variable {f : FunctionDef α} {g : FunctionDef β} (h : FunctionDef.Alike R k P f g)

include h

theorem id_eq : g.id = f.id + k := by
  cases h; rfl

theorem name_eq : f.name = g.name := by
  cases h; rfl

theorem params : List.Forall₂ (Param.Alike R P) f.params g.params := by
  cases h; assumption

theorem body : P f.body g.body := by
  cases h; assumption

theorem autoReturn_eq : f.autoReturn = g.autoReturn := by
  cases h; rfl

theorem span : R f.span g.span := by
  cases h; assumption

end FunctionDef.Alike

namespace ClassDef.Alike

variable {c : ClassDef α} {d : ClassDef β} (h : ClassDef.Alike R k P c d)

include h

theorem name_eq : c.name = d.name := by
  cases h; rfl

theorem parent_eq : c.parent = d.parent := by
  cases h; rfl

theorem properties : List.Forall₂ (PropertyDef.Alike R P) c.properties d.properties := by
  cases h; assumption

theorem methods : List.Forall₂ (MethodDef.Alike R k P) c.methods d.methods := by
  cases h with
  | mk _ _ _ methods _ _ _ => exact methods

theorem getters : List.Forall₂ (MethodDef.Alike R k P) c.getters d.getters := by
  cases h with
  | mk _ _ _ _ getters _ _ => exact getters

theorem setters : List.Forall₂ (MethodDef.Alike R k P) c.setters d.setters := by
  cases h with
  | mk _ _ _ _ _ setters _ => exact setters

end ClassDef.Alike

end Fields

section Monotone

variable {R S : Span → Span → Prop} {k : Nat} {P Q : α → β → Prop}

private theorem option_imp {a : Option α} {b : Option β} (h : Option.Rel P a b)
    (hp : ∀ x ∈ a.toList, ∀ y, P x y → Q x y) : Option.Rel Q a b := by
  cases h with
  | none => exact .none
  | some h => exact .some (hp _ (by simp) _ h)

private theorem list_imp {a : List α} {b : List β} (h : List.Forall₂ P a b)
    (hp : ∀ x ∈ a, ∀ y, P x y → Q x y) : List.Forall₂ Q a b := by
  induction h with
  | nil => exact .nil
  | cons h _ ih =>
    exact .cons (hp _ (by simp) _ h) (ih fun x hx => hp x (List.mem_cons_of_mem _ hx))

/-- A relation on things with parts follows the one on their parts along a list of them. -/
private theorem parts_imp {σ τ : Type} {A B : σ → τ → Prop} {parts : σ → List α} {a : List σ} {b : List τ}
    (h : List.Forall₂ A a b) (step : ∀ x y, (∀ p ∈ parts x, ∀ q, P p q → Q p q) → A x y → B x y)
    (hp : ∀ x ∈ a.flatMap parts, ∀ y, P x y → Q x y) : List.Forall₂ B a b := by
  apply list_imp h
  intro x hx y hxy
  exact step x y (fun p hm => hp p (List.mem_flatMap.mpr ⟨x, hx, hm⟩)) hxy

private theorem index_imp {a : Index α} {b : Index β} (h : Index.Alike P a b)
    (hp : ∀ x ∈ a.parts, ∀ y, P x y → Q x y) : Index.Alike Q a b := by
  cases h with
  | single key => exact .single (hp _ (by simp [Index.parts]) _ key)
  | push => exact .push
  | slice start stop =>
    exact .slice (option_imp start fun x hx => hp x (List.mem_append_left _ hx))
      (option_imp stop fun x hx => hp x (List.mem_append_right _ hx))

variable (hr : ∀ a b, R a b → S a b)

include hr

private theorem function_imp {a : FunctionDef α} {b : FunctionDef β} (h : FunctionDef.Alike R k P a b)
    (hp : ∀ x ∈ a.parts, ∀ y, P x y → Q x y) : FunctionDef.Alike S k Q a b := by
  obtain ⟨id, name, autoReturn, params, body, span⟩ := h
  refine .mk id name autoReturn ?_ (hp _ (by simp [FunctionDef.parts]) _ body) (hr _ _ span)
  refine parts_imp params ?_ fun x hx => hp x (List.mem_append_left _ hx)
  rintro _ _ hp ⟨name, typeName, isRest, isOptional, fallback, span⟩
  exact .mk name typeName isRest isOptional (option_imp fallback hp) (hr _ _ span)

private theorem method_imp (a : MethodDef α) (b : MethodDef β) (hp : ∀ x ∈ a.parts, ∀ y, P x y → Q x y)
    (h : MethodDef.Alike R k P a b) : MethodDef.Alike S k Q a b := by
  obtain ⟨name, flags, function, span⟩ := h
  exact .mk name flags (function_imp hr function hp) (hr _ _ span)

private theorem class_imp {a : ClassDef α} {b : ClassDef β} (h : ClassDef.Alike R k P a b)
    (hp : ∀ x ∈ a.parts, ∀ y, P x y → Q x y) : ClassDef.Alike S k Q a b := by
  obtain ⟨name, parent, properties, methods, getters, setters, span⟩ := h
  simp only [ClassDef.parts, List.mem_append] at hp
  refine .mk name parent ?_
    (parts_imp methods (method_imp hr) fun x hx => hp x (.inl (.inl (.inr hx))))
    (parts_imp getters (method_imp hr) fun x hx => hp x (.inl (.inr hx)))
    (parts_imp setters (method_imp hr) fun x hx => hp x (.inr hx)) (hr _ _ span)
  refine parts_imp properties ?_ fun x hx => hp x (.inl (.inl (.inl hx)))
  rintro _ _ hp ⟨name, flags, value, span⟩
  exact .mk name flags (option_imp value hp) (hr _ _ span)

/-- A layer stays alike when `R` grows and `P` grows on its parts. -/
theorem Shape.Alike.imp {a : Shape α} {b : Shape β} (h : Shape.Alike R k P a b)
    (hp : ∀ x ∈ a.parts, ∀ y, P x y → Q x y) : Shape.Alike S k Q a b := by
  cases h <;> simp only [Shape.parts, List.mem_append, List.mem_cons, List.not_mem_nil, or_false]
    at hp
  case template parts =>
    refine .template (parts_imp parts ?_ hp)
    rintro _ _ hp ⟨⟩
    · exact .text _
    · exact .expression (hp _ (by simp [TemplatePart.parts]) _ ‹_›)
  case list elements => exact .list (list_imp elements hp)
  case dict entries =>
    refine .dict (list_imp entries ?_)
    rintro x hx _ ⟨key, value⟩
    exact .mk key (hp _ (List.mem_map.mpr ⟨_, hx, rfl⟩) _ value)
  case index target key =>
    exact .index _ (hp _ (.inl rfl) _ target) (index_imp key fun x hx => hp x (.inr hx))
  case assignIndex target key value =>
    exact .assignIndex (hp _ (.inl rfl) _ target) (index_imp key fun x hx => hp x (.inr (.inl hx)))
      (hp _ (.inr (.inr rfl)) _ value)
  case conditional branches otherwise =>
    refine .conditional _ (parts_imp branches ?_ fun x hx => hp x (.inl hx))
      (option_imp otherwise fun x hx => hp x (.inr hx))
    rintro _ _ hp ⟨discard, condition, body⟩
    exact .mk discard (hp _ (by simp [Branch.parts]) _ condition)
      (hp _ (by simp [Branch.parts]) _ body)
  case countingLoop start stop step body =>
    exact .countingLoop _ _ (option_imp start fun x hx => hp x (.inl (.inl (.inl hx))))
      (hp _ (.inl (.inl (.inr rfl))) _ stop)
      (option_imp step fun x hx => hp x (.inl (.inr hx))) (hp _ (.inr rfl) _ body)
  case switch cases otherwise =>
    refine .switch (parts_imp cases ?_ fun x hx => hp x (.inl hx))
      (option_imp otherwise fun x hx => hp x (.inr hx))
    rintro _ _ hp ⟨test, body⟩
    exact .mk (hp _ (by simp) _ test) (hp _ (by simp) _ body)
  case block statements => exact .block (list_imp statements hp)
  case function definition => exact .function (function_imp hr definition hp)
  case call callee args =>
    exact .call _ (hp _ (.inl rfl) _ callee) (list_imp args fun x hx => hp x (.inr hx))
  case returnWith value => exact .returnWith (option_imp value hp)
  case classDefinition definition => exact .classDefinition (class_imp hr definition hp)
  case instantiate cls args =>
    exact .instantiate (hp _ (.inl rfl) _ cls) (list_imp args fun x hx => hp x (.inr hx))
  case superCall args => exact .superCall (list_imp args hp)
  -- The other layers hold nodes in single fields, or none.
  all_goals
    constructor <;> exact hp _ (by simp) _ ‹_›

end Monotone

section Equality

private theorem list_eq {A : α → α → Prop} (h : ∀ a b, A a b ↔ a = b) (a b : List α) : List.Forall₂ A a b ↔ a = b := by
  have hA : A = Eq := by
    funext x y
    exact propext (h x y)
  rw [hA, List.forall₂_eq_eq_eq]

private theorem option_eq (a b : Option α) : Option.Rel Eq a b ↔ a = b := by
  constructor
  · rintro (h | _)
    · rw [h]
    · rfl
  · rintro rfl
    cases a
    · exact .none
    · exact .some rfl

private theorem index_eq (a b : Index α) : Index.Alike Eq a b ↔ a = b := by
  constructor
  · rintro (h | _ | ⟨h, h'⟩)
    · rw [h]
    · rfl
    · rw [(option_eq _ _).mp h, (option_eq _ _).mp h']
  · rintro rfl
    cases a
    · exact .single rfl
    · exact .push
    · exact .slice ((option_eq _ _).mpr rfl) ((option_eq _ _).mpr rfl)

private theorem param_eq (a b : Param α) : Param.Alike Eq Eq a b ↔ a = b := by
  constructor
  · rintro ⟨_, _, _, _, h, rfl⟩
    rw [(option_eq _ _).mp h]
  · rintro rfl
    exact .mk _ _ _ _ ((option_eq _ _).mpr rfl) rfl

private theorem function_eq (a b : FunctionDef α) : FunctionDef.Alike Eq 0 Eq a b ↔ a = b := by
  constructor
  · rintro ⟨_, _, _, h, rfl, rfl⟩
    rw [(list_eq param_eq _ _).mp h, Nat.add_zero]
  · rintro rfl
    exact .mk _ _ _ ((list_eq param_eq _ _).mpr rfl) rfl rfl

private theorem property_eq (a b : PropertyDef α) : PropertyDef.Alike Eq Eq a b ↔ a = b := by
  constructor
  · rintro ⟨_, _, h, rfl⟩
    rw [(option_eq _ _).mp h]
  · rintro rfl
    exact .mk _ _ ((option_eq _ _).mpr rfl) rfl

private theorem method_eq (a b : MethodDef α) : MethodDef.Alike Eq 0 Eq a b ↔ a = b := by
  constructor
  · rintro ⟨_, _, h, rfl⟩
    rw [(function_eq _ _).mp h]
  · rintro rfl
    exact .mk _ _ ((function_eq _ _).mpr rfl) rfl

private theorem class_eq (a b : ClassDef α) : ClassDef.Alike Eq 0 Eq a b ↔ a = b := by
  constructor
  · rintro ⟨_, _, h₁, h₂, h₃, h₄, rfl⟩
    rw [(list_eq property_eq _ _).mp h₁, (list_eq method_eq _ _).mp h₂,
      (list_eq method_eq _ _).mp h₃, (list_eq method_eq _ _).mp h₄]
  · rintro rfl
    exact .mk _ _ ((list_eq property_eq _ _).mpr rfl) ((list_eq method_eq _ _).mpr rfl)
      ((list_eq method_eq _ _).mpr rfl) ((list_eq method_eq _ _).mpr rfl) rfl

private theorem templatePart_eq (a b : TemplatePart α) : TemplatePart.Alike Eq a b ↔ a = b := by
  constructor
  · rintro (_ | h)
    · rfl
    · rw [h]
  · rintro rfl
    cases a
    · exact .text _
    · exact .expression rfl

private theorem branch_eq (a b : Branch α) : Branch.Alike Eq a b ↔ a = b := by
  constructor
  · rintro ⟨_, rfl, rfl⟩
    rfl
  · rintro rfl
    exact .mk _ rfl rfl

private theorem entry_eq (a b : String × α) : EntryAlike Eq a b ↔ a = b := by
  constructor
  · rintro ⟨_, rfl⟩
    rfl
  · rintro rfl
    exact .mk _ rfl

private theorem case_eq (a b : α × α) : PairAlike Eq Eq a b ↔ a = b := by
  constructor
  · rintro ⟨rfl, rfl⟩
    rfl
  · rintro rfl
    exact .mk rfl rfl

private theorem nodes_eq (a b : List α) : List.Forall₂ Eq a b ↔ a = b :=
  list_eq (fun _ _ => Iff.rfl) a b

/-- Layers with the same stretches over the same parts are the same. -/
theorem Shape.alike_eq (a b : Shape α) : Shape.Alike Eq 0 Eq a b ↔ a = b := by
  constructor
  · intro h
    cases h <;> simp_all only [list_eq templatePart_eq, list_eq entry_eq, list_eq branch_eq,
      list_eq case_eq, nodes_eq, option_eq, index_eq, function_eq, class_eq]
  · rintro rfl
    cases a <;> constructor <;> simp only [list_eq templatePart_eq, list_eq entry_eq,
      list_eq branch_eq, list_eq case_eq, nodes_eq, option_eq, index_eq, function_eq, class_eq]

end Equality

namespace Node

variable {R S : Span → Span → Prop} {k : Nat} {a b : Node}

theorem Alike.shape (h : Alike R k a b) : Shape.Alike R k (Alike R k) a.shape b.shape := by
  cases h with
  | mk shape _ => exact shape

theorem Alike.span (h : Alike R k a b) : R a.span b.span := by
  cases h with
  | mk _ span => exact span

theorem Alike.mono (hr : ∀ s t, R s t → S s t) (h : Alike R k a b) : Alike S k a b := by
  induction a using Node.induction generalizing b with
  | step a ih =>
    obtain ⟨shape, span⟩ := h
    exact .mk (shape.imp hr fun part hp _ h => ih part hp h) (hr _ _ span)

theorem Alike.refl (hr : ∀ s, R s s) (a : Node) : Alike R 0 a a := by
  induction a using Node.induction with
  | step a ih =>
    obtain ⟨shape, span⟩ := a
    refine .mk (((Shape.alike_eq shape shape).mpr rfl).imp ?_ ?_) (hr span)
    · rintro s _ rfl
      exact hr s
    · rintro part hp _ rfl
      exact ih part hp

theorem alike_eq (h : Alike Eq 0 a b) : a = b := by
  induction a using Node.induction generalizing b with
  | step a ih =>
    obtain ⟨shape, rfl⟩ := h
    rw [(Shape.alike_eq _ _).mp (shape.imp (fun _ _ h => h) fun part hp _ h => ih part hp h)]

end Node

end ScriptLang
