import ScriptLang.Proofs.Form.Statement

/-! Where whole programs stand. Main statement: in the tree of a program every node stands between two
places of the text and covers its parts, and faults of reading are shown at places of the text. -/
namespace ScriptLang

variable {source : String}

theorem Program.parse_genuine {tokens : List Token} (h : tokenize source = .ok tokens) (firstId : Nat) :
    (∀ program nextId, Program.parse firstId tokens = .ok (program, nextId) →
      ∀ statement ∈ program, ∀ n, statement.Holds n → n.span.Genuine (.ofText source) ∧
        ∀ part ∈ n.parts, n.span.start.index ≤ part.span.start.index ∧
          part.span.stop.index ≤ n.span.stop.index) ∧
    ∀ e, Program.parse firstId tokens = .error (.fault e) → e.span.Genuine (.ofText source) := by
  obtain ⟨⟨hi, hrow⟩, hplaced⟩ := Scan.tokens_placed (.refl (.ofText source)) h
  have hyields := Form.program_nested (r := { turns := Token.weights tokens + 2 })
    (Grammar.upTo_forms (Token.weights tokens + 2)) ⟨.ofTokens tokens, firstId⟩
    (Form.ofTokens_ahead hrow hplaced)
  unfold Program.parse
  dsimp only
  generalize Parser.program _ _ _ = result at hyields ⊢
  obtain ⟨hread, hfault⟩ := hyields
  cases result with
  | error stop =>
    refine ⟨nofun, ?_⟩
    rintro e ⟨⟩
    exact hfault e rfl _ rfl
  | ok result =>
    refine ⟨?_, nofun⟩
    rintro program nextId ⟨⟩ statement hstatement n hn
    obtain ⟨hgenuine, hcovers⟩ := (hread _ _ rfl statement hstatement).1 n hn
    exact ⟨hgenuine _ rfl, hcovers⟩

/-- Every node of a program, however deep it stands, goes from a place of the text to a later one or the
same and covers the nodes below it, and so does every fault of reading one. -/
theorem Program.parse_spans_within {source : String} {tokens : List Token}
    (h : tokenize source = .ok tokens) (firstId : Nat) :
    (∀ program nextId, Program.parse firstId tokens = .ok (program, nextId) →
      ∀ statement ∈ program, ∀ n, statement.Holds n → n.span.Within source ∧
        ∀ part ∈ n.parts, n.span.start.index ≤ part.span.start.index ∧
          part.span.stop.index ≤ n.span.stop.index) ∧
    ∀ e, Program.parse firstId tokens = .error (.fault e) → e.span.Within source := by
  obtain ⟨hread, hfault⟩ := Program.parse_genuine h firstId
  refine ⟨fun program nextId hparse statement hstatement n hn => ?_, fun e he => (hfault e he).within⟩
  obtain ⟨hgenuine, hcovers⟩ := hread program nextId hparse statement hstatement n hn
  exact ⟨hgenuine.within, hcovers⟩

/-- What a text is read as can be tested. -/
private theorem exists_tokens (test : Except (Stop SyntaxError) (Program × Nat) → Bool)
    (h : (tokenize source).toOption.any (fun tokens => test (Program.parse 0 tokens)) = true) :
    ∃ tokens, tokenize source = .ok tokens ∧ test (Program.parse 0 tokens) = true := by
  cases htokens : tokenize source with
  | error =>
    rw [htokens] at h
    cases h
  | ok tokens =>
    rw [htokens] at h
    exact ⟨tokens, rfl, h⟩

/-- A compound assignment of a function with a template for its body and a switch are read with their
places, and so is the fault of a bracket that is not closed. -/
theorem Program.parse_spans_within_switch :
    let source := "total += func(a, b = [1]) -> `sum \x7ba + b[0]\x7d`\nswitch 'ä':\ncase 1: total\nend"
    let unclosed := "total = [1,\n'ä'"
    (∃ tokens program nextId, tokenize source = .ok tokens ∧
      Program.parse 0 tokens = .ok (program, nextId) ∧
      ∀ statement ∈ program, ∀ n, statement.Holds n → n.span.Within source ∧
        ∀ part ∈ n.parts, n.span.start.index ≤ part.span.start.index ∧
          part.span.stop.index ≤ n.span.stop.index) ∧
    ∃ tokens e, tokenize unclosed = .ok tokens ∧ Program.parse 0 tokens = .error (.fault e) ∧
      e.span.Within unclosed := by
  intro source unclosed
  constructor
  · obtain ⟨tokens, htokens, hok⟩ : ∃ tokens, tokenize source = .ok tokens ∧
        (Program.parse 0 tokens).isOk = true := exists_tokens Except.isOk (by decide +kernel)
    cases hparse : Program.parse 0 tokens with
    | error =>
      rw [hparse] at hok
      cases hok
    | ok result =>
      exact ⟨tokens, result.1, result.2, htokens, hparse, (parse_spans_within htokens 0).1 _ _ hparse⟩
  · let isFault : Except (Stop SyntaxError) (Program × Nat) → Bool
      | .error (.fault _) => true
      | _ => false
    obtain ⟨tokens, htokens, hfault⟩ : ∃ tokens, tokenize unclosed = .ok tokens ∧
        isFault (Program.parse 0 tokens) = true := exists_tokens isFault (by decide +kernel)
    cases hparse : Program.parse 0 tokens with
    | ok =>
      rw [hparse] at hfault
      cases hfault
    | error stop =>
      cases stop with
      | fault e => exact ⟨tokens, e, htokens, hparse, (parse_spans_within htokens 0).2 e hparse⟩
      | exhausted =>
        rw [hparse] at hfault
        cases hfault

end ScriptLang
