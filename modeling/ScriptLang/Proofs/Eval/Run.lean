import ScriptLang.Eval.Basic

/-! How an evaluation goes from a store. -/
namespace ScriptLang.Eval

variable {α β : Type} {x : Eval α} {f : α → Eval β} {s t : Store} {a : α} {b : β} {c : Interrupt → Eval α}
  {i : Interrupt}

/-- The store that an evaluation leaves, also where it is interrupted. -/
def leaves (x : Eval α) (s : Store) : Store :=
  match x s with
  | .ok _ s => s
  | .error _ s => s

theorem leaves_of_ok (h : x s = .ok a t) : x.leaves s = t := by rw [leaves, h]

theorem leaves_of_error (h : x s = .error i t) : x.leaves s = t := by rw [leaves, h]

theorem bind_of_ok (h : x s = .ok a t) : (x >>= f) s = f a t := by
  change EStateM.bind x f s = f a t
  rw [EStateM.bind, h]

theorem bind_of_error (h : x s = .error i t) : (x >>= f) s = .error i t := by
  change EStateM.bind x f s = _
  rw [EStateM.bind, h]

theorem bind_of_fail {trace : Trace} {span : Span} {cause : EvalCause}
    (h : x s = Eval.fail trace span cause t) : (x >>= f) s = Eval.fail trace span cause t :=
  bind_of_error h

theorem tryCatch_of_ok (h : x s = .ok a t) : tryCatch x c s = .ok a t := by
  change EStateM.tryCatch x c s = _
  delta EStateM.tryCatch
  rw [h]

theorem tryCatch_of_error (h : x s = .error i t) : tryCatch x c s = c i t := by
  change EStateM.tryCatch x c s = _
  delta EStateM.tryCatch
  rw [h]
  rfl

theorem leaves_bind : (x >>= f).leaves s =
    match x s with
    | .ok a t => (f a).leaves t
    | .error _ t => t := by
  change leaves (EStateM.bind x f) s = _
  unfold leaves EStateM.bind
  cases x s <;> rfl

theorem leaves_tryCatch : (tryCatch x c).leaves s =
    match x s with
    | .ok _ t => t
    | .error i t => (c i).leaves t := by
  cases h : x s with
  | ok a t => exact leaves_of_ok (tryCatch_of_ok h)
  | error i t =>
    rw [leaves, tryCatch_of_error h]
    rfl

theorem leaves_guarded {limit : Nat} {trace : Trace} {span : Span} : (guarded limit trace span x).leaves s =
    if s.depth < limit then
      let t := x.leaves { s with depth := s.depth + 1 }
      { t with depth := t.depth - 1 }
    else s := by
  by_cases h : s.depth < limit
  · simp only [leaves, guarded, if_pos h]
    cases x { s with depth := s.depth + 1 } <;> rfl
  · simp only [leaves, guarded, if_neg h]
    rfl

theorem get_bind (f : Store → Eval β) (s : Store) : (get >>= f) s = f s s := rfl

theorem of_get_ok {f : Store → α} (h : (do return f (← get) : Eval α) s = .ok a t) : f s = a ∧ s = t :=
  EStateM.Result.ok.inj h

theorem exists_of_bind_ok (h : (x >>= f) s = .ok b t) : ∃ a u, x s = .ok a u ∧ f a u = .ok b t := by
  change EStateM.bind x f s = .ok b t at h
  unfold EStateM.bind at h
  split at h
  next a u hx => exact ⟨a, u, hx, h⟩
  next => cases h

end ScriptLang.Eval
