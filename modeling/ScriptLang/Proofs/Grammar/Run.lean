import ScriptLang.Grammar.Parser

/-! Runs of parsers, step by step. -/
namespace ScriptLang

/-- Line breaks are skipped up to the first token that is none. -/
theorem Stream.behindNewlines_eq {previous : Span} {current : Token} {rest : List Token}
    (h : current.kind.isNewline = false) : behindNewlines previous current rest = ⟨previous, current, rest⟩ := by
  cases rest with
  | nil => rfl
  | cons => rw [behindNewlines, h, if_neg Bool.false_ne_true]

namespace Parser

variable {α β : Type} {p : Parser α} {f : α → Parser β}

theorem bind_apply (p : Parser α) (f : α → Parser β) (r : Surroundings) (s : ParseState) :
    (p >>= f) r s = match p r s with
      | .ok result => f result.1 r result.2
      | .error stop => .error stop := by
  change (p r s >>= fun result => f result.1 r result.2) = _
  cases p r s <;> rfl

theorem bind_eq_ok {r : Surroundings} {s u : ParseState} {b : β} :
    (p >>= f) r s = .ok (b, u) ↔ ∃ a t, p r s = .ok (a, t) ∧ f a r t = .ok (b, u) := by
  rw [bind_apply]
  cases p r s with
  | error stop => simp
  | ok result =>
    refine ⟨fun h => ⟨result.1, result.2, rfl, h⟩, ?_⟩
    rintro ⟨a, t, ⟨⟩, h⟩
    exact h

theorem nested_apply (p : Parser α) (r : Surroundings) (s : ParseState) :
    nested p r s = if r.depth < maxNesting then p { r with depth := r.depth + 1 } s
      else .error (.fault ⟨.nestingTooDeep, s.stream.current.span⟩) := by
  change (if r.depth < maxNesting then _ else _ : Parser α) r s = _
  split <;> rfl

end Parser

end ScriptLang
