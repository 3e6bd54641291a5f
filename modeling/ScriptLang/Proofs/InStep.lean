import Mathlib.Data.List.Forall2

/-! Two runs in step: from related states, both give related results or both are interrupted for
related reasons, and they leave related states. There is one rule for each way to build a run. -/
namespace ScriptLang

variable {ε σ α β γ δ : Type}

inductive Ended (E : ε → ε → Prop) (S : σ → σ → Prop) (Q : α → β → Prop) :
    EStateM.Result ε σ α → EStateM.Result ε σ β → Prop
  | ok {a b s t} (result : Q a b) (state : S s t) : Ended E S Q (.ok a s) (.ok b t)
  | error {e f s t} (cause : E e f) (state : S s t) : Ended E S Q (.error e s) (.error f t)

/-- Two computations that go in step from any related states. -/
def InStep (E : ε → ε → Prop) (S : σ → σ → Prop) (Q : α → β → Prop) (x : EStateM ε σ α)
    (y : EStateM ε σ β) : Prop :=
  ∀ s t, S s t → Ended E S Q (x s) (y t)

namespace InStep

variable {E : ε → ε → Prop} {S : σ → σ → Prop} {P : α → β → Prop} {Q : γ → δ → Prop} {x : EStateM ε σ α}
  {y : EStateM ε σ β} {xs : List γ} {ys : List δ} {f : γ → EStateM ε σ α} {g : δ → EStateM ε σ β}

theorem pure {a : α} {b : β} (h : P a b) : InStep E S P (pure a) (pure b) :=
  fun _ _ hs => .ok h hs

theorem throw {e f : ε} (h : E e f) : InStep E S P (throw e) (throw f) := fun _ _ hs => .error h hs

theorem bind {f : α → EStateM ε σ γ} {g : β → EStateM ε σ δ} (h : InStep E S P x y)
    (next : ∀ a b, P a b → InStep E S Q (f a) (g b)) : InStep E S Q (x >>= f) (y >>= g) := by
  intro s t hs
  have hxy := h s t hs
  change Ended E S Q (EStateM.bind x f s) (EStateM.bind y g t)
  unfold EStateM.bind
  revert hxy
  generalize x s = p, y t = q
  rintro (⟨hab, hs⟩ | ⟨he, hs⟩)
  · exact next _ _ hab _ _ hs
  · exact .error he hs

theorem throw_bind {e f : ε} (h : E e f) (k : α → EStateM ε σ γ) (l : β → EStateM ε σ δ) :
    InStep E S Q (MonadExcept.throw e >>= k) (MonadExcept.throw f >>= l) :=
  fun _ _ hs => .error h hs

theorem tryCatch {c : ε → EStateM ε σ α} {d : ε → EStateM ε σ β} (h : InStep E S P x y)
    (rescue : ∀ e f, E e f → InStep E S P (c e) (d f)) : InStep E S P (tryCatch x c) (tryCatch y d) := by
  intro s t hs
  have hxy := h s t hs
  change Ended E S P (EStateM.tryCatch x c s) (EStateM.tryCatch y d t)
  unfold EStateM.tryCatch
  revert hxy
  generalize x s = p, y t = q
  rintro (⟨hab, hs⟩ | ⟨he, hs⟩)
  · exact .ok hab hs
  · exact rescue _ _ he _ _ hs

theorem mono {P' : α → β → Prop} (h : InStep E S P x y) (hp : ∀ a b, P a b → P' a b) : InStep E S P' x y := by
  intro s t hs
  have hxy := h s t hs
  revert hxy
  generalize x s = p, y t = q
  rintro (⟨hab, hs⟩ | ⟨he, hs⟩)
  · exact .ok (hp _ _ hab) hs
  · exact .error he hs

theorem get : InStep E S S get get := fun _ _ hs => .ok hs hs

theorem modifyGet {f : σ → α × σ} {g : σ → β × σ} (h : ∀ s t, S s t → P (f s).1 (g t).1 ∧ S (f s).2 (g t).2) :
    InStep E S P (modifyGet f) (modifyGet g) :=
  fun s t hs => .ok (h s t hs).1 (h s t hs).2

theorem modify {f g : σ → σ} (h : ∀ s t, S s t → S (f s) (g t)) : InStep E S Eq (modify f) (modify g) :=
  fun s t hs => .ok rfl (h s t hs)

theorem map {f : α → γ} {g : β → δ} (h : InStep E S P x y) (hf : ∀ a b, P a b → Q (f a) (g b)) :
    InStep E S Q (f <$> x) (g <$> y) :=
  bind h fun a b hab => pure (hf a b hab)

theorem discard (h : InStep E S P x y) : InStep E S Eq (discard x) (discard y) :=
  map h fun _ _ _ => rfl

theorem liftExcept {α : Type} (hE : ∀ e, E e e) (e : Except ε α) : InStep E S Eq (liftExcept e) (liftExcept e) := by
  cases e with
  | error cause => exact throw (hE cause)
  | ok a => exact pure rfl

section

variable {P : γ → δ → Prop} (h : List.Forall₂ P xs ys)

include h

theorem mapM {Q : α → β → Prop} (step : ∀ a b, P a b → InStep E S Q (f a) (g b)) :
    InStep E S (List.Forall₂ Q) (xs.mapM f) (ys.mapM g) := by
  induction h with
  | nil =>
    rw [List.mapM_nil, List.mapM_nil]
    exact pure .nil
  | cons hab _ ih =>
    rw [List.mapM_cons, List.mapM_cons]
    refine bind (step _ _ hab) fun a b h => ?_
    exact bind ih fun _ _ hrest => pure (.cons h hrest)

theorem forM {f : γ → EStateM ε σ Unit} {g : δ → EStateM ε σ Unit} (step : ∀ a b, P a b → InStep E S Eq (f a) (g b)) :
    InStep E S Eq (xs.forM f) (ys.forM g) := by
  induction h with
  | nil => exact pure rfl
  | cons hab _ ih => exact bind (step _ _ hab) fun _ _ _ => ih

theorem foldlM {Q : α → β → Prop} {f : α → γ → EStateM ε σ α} {g : β → δ → EStateM ε σ β}
    (step : ∀ a b c d, Q a b → P c d → InStep E S Q (f a c) (g b d)) {a : α} {b : β} (hab : Q a b) :
    InStep E S Q (xs.foldlM f a) (ys.foldlM g b) := by
  induction h generalizing a b with
  | nil => exact pure hab
  | cons h _ ih => exact bind (step _ _ _ _ hab h) fun _ _ hnext => ih hnext

end

theorem optionM {P : γ → δ → Prop} {x : Option γ} {y : Option δ} {Q : α → β → Prop} (h : Option.Rel P x y)
    (step : ∀ a b, P a b → InStep E S Q (f a) (g b)) : InStep E S (Option.Rel Q) (x.mapM f) (y.mapM g) := by
  cases h with
  | none => exact pure .none
  | some hab => exact map (step _ _ hab) fun _ _ h => .some h

end InStep

end ScriptLang
