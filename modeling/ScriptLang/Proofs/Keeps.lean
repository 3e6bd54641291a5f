import Mathlib.Tactic.Common

/-! Runs that keep a property of the state, also where they are interrupted. There is one rule for each
way to build a run. -/
namespace ScriptLang

variable {ε σ α β γ : Type}

/-- How a run that keeps a property of the state has ended. -/
inductive Kept (E : ε → Prop) (S : σ → Prop) (P : α → Prop) : EStateM.Result ε σ α → Prop
  | ok {a s} (result : P a) (state : S s) : Kept E S P (.ok a s)
  | error {e s} (cause : E e) (state : S s) : Kept E S P (.error e s)

/-- Runs that keep the property `S` of the state, and end with a result with `P` or for a reason
with `E`. -/
def Keeps (E : ε → Prop) (S : σ → Prop) (P : α → Prop) (x : EStateM ε σ α) : Prop :=
  ∀ s, S s → Kept E S P (x s)

namespace Keeps

variable {E : ε → Prop} {S : σ → Prop} {P : α → Prop} {Q : β → Prop} {x : EStateM ε σ α}

theorem pure {a : α} (h : P a) : Keeps E S P (pure a) := fun _ hs => .ok h hs

theorem throw {e : ε} (h : E e) : Keeps E S P (throw e) := fun _ hs => .error h hs

theorem bind {f : α → EStateM ε σ β} (hx : Keeps E S P x) (next : ∀ a, P a → Keeps E S Q (f a)) :
    Keeps E S Q (x >>= f) := by
  intro s hs
  have hended := hx s hs
  change Kept E S Q (EStateM.bind x f s)
  unfold EStateM.bind
  generalize x s = outcome at hended
  cases hended with
  | ok result state => exact next _ result _ state
  | error cause state => exact .error cause state

theorem throw_bind {e : ε} (h : E e) (f : α → EStateM ε σ β) : Keeps E S Q (MonadExcept.throw e >>= f) :=
  fun _ hs => .error h hs

theorem get : Keeps E S S get := fun _ hs => .ok hs hs

theorem modifyGet {f : σ → α × σ} (h : ∀ s, S s → P (f s).1 ∧ S (f s).2) : Keeps E S P (modifyGet f) :=
  fun s hs => .ok (h s hs).1 (h s hs).2

theorem modify {f : σ → σ} (h : ∀ s, S s → S (f s)) : Keeps E S (fun _ => True) (modify f) :=
  fun s hs => .ok trivial (h s hs)

theorem liftExcept {e : Except ε α} (hE : ∀ cause, e = .error cause → E cause) :
    Keeps E S (fun _ => True) (liftExcept e) := by
  cases e with
  | error cause => exact throw (hE cause rfl)
  | ok a => exact pure trivial

end Keeps

end ScriptLang
