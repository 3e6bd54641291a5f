import ScriptLang.Proofs.Token.Run

/-! Faults in the characters of a text. -/
namespace ScriptLang.Scan

variable {text a : Cursor} {P : LexError → Prop} {fuel : Nat} {e : LexError}

/-- What holds of all faults that scanners can find by themselves in a text. -/
structure Faults (text : Cursor) (P : LexError → Prop) : Prop where
  single {b : Cursor} {first : Char} {others : List Char} {e : LexError} : text.Reaches b →
    b.rest = first :: others → single first b = .error (.fault e) → P e
  template {b : Cursor} {others : List Char} (c : Cursor) : text.Reaches b → b.rest = '\x60' :: others →
    P ⟨.unterminatedString '\x60', b.upTo c⟩
  code {b : Cursor} {others : List Char} (stop : Position) : text.Reaches b → b.rest = '\x7b' :: others →
    P ⟨.unterminatedInterpolation, ⟨(b.skip 1).place, stop⟩⟩

/-- What holds of the faults of the three scanners that call each other. -/
private structure Faulty (text : Cursor) (P : LexError → Prop) (fuel : Nat) : Prop where
  token {a : Cursor} {e : LexError} : text.Reaches a → token fuel a = .error (.fault e) → P e
  template {start a : Cursor} {others : List Char} {done : List (Segment Token)} {e : LexError} :
    text.Reaches start → start.rest = '\x60' :: others → text.Reaches a →
    template fuel start a done = .error (.fault e) → P e
  interpolation {b a : Cursor} {others : List Char} {depth : Nat} {done : List Token} {e : LexError} :
    text.Reaches b → b.rest = '\x7b' :: others → text.Reaches a →
    interpolation fuel (b.skip 1) a depth done = .error (.fault e) → P e

section

variable (hP : Faults text P)

include hP

private theorem faulty_token (ih : Faulty text P fuel) (ha : text.Reaches a)
    (h : token (fuel + 1) a = .error (.fault e)) : P e := by
  have hb := ha.trans (.onset a)
  cases hrest : a.onset.rest with
  | nil =>
    rw [token_nil fuel hrest] at h
    cases h
  | cons first others =>
    by_cases hfirst : first = '\x60'
    · subst hfirst
      rw [token_template fuel hrest] at h
      cases htemplate : template fuel a.onset (a.onset.skip 1) [] with
      | error stop =>
        rw [htemplate] at h
        cases h
        exact ih.template hb hrest (hb.trans (.skip _ 1)) htemplate
      | ok =>
        rw [htemplate] at h
        cases h
    · rw [token_single fuel hrest hfirst] at h
      exact hP.single hb hrest h

private theorem faulty_template (ih : Faulty text P fuel) {start : Cursor} {others : List Char}
    {done : List (Segment Token)} (hstart : text.Reaches start) (hopens : start.rest = '\x60' :: others)
    (ha : text.Reaches a) (h : template (fuel + 1) start a done = .error (.fault e)) : P e := by
  have hb := ha.trans (.textEnd a)
  rcases textEnd_cases a with hrest | ⟨others, hrest⟩ | ⟨others, hrest⟩
  · rw [template_nil fuel start done hrest] at h
    cases h
    exact hP.template _ hstart hopens
  · rw [template_close fuel start done hrest] at h
    cases h
  · rw [template_code fuel start done hrest] at h
    have hopened := hb.trans (.skip _ 1)
    cases hcode : interpolation fuel (a.textEnd.skip 1) (a.textEnd.skip 1) 0 [] with
    | error stop =>
      rw [hcode] at h
      cases h
      exact ih.interpolation hb hrest hopened hcode
    | ok result =>
      rw [hcode] at h
      exact ih.template hstart hopens (hopened.trans (interpolation_reaches hcode)) h

private theorem faulty_interpolation (ih : Faulty text P fuel) {b : Cursor} {others : List Char} {depth : Nat}
    {done : List Token} (hb : text.Reaches b) (hopens : b.rest = '\x7b' :: others) (ha : text.Reaches a)
    (h : interpolation (fuel + 1) (b.skip 1) a depth done = .error (.fault e)) : P e := by
  cases hnext : token fuel a with
  | error stop =>
    rw [interpolation_error _ _ _ hnext] at h
    cases h
    exact ih.token ha hnext
  | ok result =>
    have hbehind := ha.trans (scans_of_token hnext).reaches
    rcases interpolation_cases (b.skip 1) depth done hnext with
      ⟨-, heq⟩ | ⟨-, -, heq⟩ | ⟨depth', -, -, heq⟩ <;> rw [heq] at h
    · cases h
      exact hP.code _ hb hopens
    · cases h
    · exact ih.interpolation hb hopens hbehind h

private theorem faulty (fuel : Nat) : Faulty text P fuel := by
  induction fuel with
  | zero => exact ⟨nofun, nofun, nofun⟩
  | succ fuel ih => exact ⟨faulty_token hP ih, faulty_template hP ih, faulty_interpolation hP ih⟩

/-- All faults in the characters of a text are found by a single scanner. -/
theorem Faults.of_tokens (ha : text.Reaches a) (h : tokens fuel a = .error (.fault e)) : P e := by
  induction fuel generalizing a with
  | zero => cases h
  | succ fuel ih =>
    rw [tokens] at h
    cases hnext : token fuel a with
    | error stop =>
      rw [hnext] at h
      cases h
      exact (faulty hP fuel).token ha hnext
    | ok result =>
      rw [hnext] at h
      simp only [bind, Except.bind] at h
      split at h
      · cases h
      · cases hrest : tokens fuel result.2 with
        | error stop =>
          rw [hrest] at h
          cases h
          exact ih (ha.trans (scans_of_token hnext).reaches) hrest
        | ok =>
          rw [hrest] at h
          cases h

end

/-- A fault in a single token begins where the token does, and in a number its characters are to blame. -/
theorem single_fault {b : Cursor} {first : Char} (h : single first b = .error (.fault e)) :
    e.span.start = b.place ∧ ∀ literal, e.cause = .invalidNumber literal → startsWithNumber b.rest ∧
      Number.read? ((b.rest.take (numberWidth false b.rest)).filter (· ≠ '_')) = none := by
  unfold single at h
  split at h
  next hnumber =>
    unfold number at h
    dsimp only at h
    split at h
    next => cases h
    next hread =>
      cases h
      exact ⟨rfl, fun _ _ => ⟨hnumber, hread⟩⟩
  split at h
  · cases h
  split at h
  · unfold Scan.text at h
    dsimp only at h
    split at h <;> cases h
    exact ⟨rfl, nofun⟩
  · unfold sign at h
    split at h
    · cases h
    · split at h <;> cases h
      exact ⟨rfl, nofun⟩

end ScriptLang.Scan
