import ScriptLang.Token.Scan

/-! The steps of the scanner: how wide tokens can be, what is done at each first character, and what a single
token can be. -/
namespace ScriptLang

namespace Scan

theorem triviaWidth_le (inComment : Bool) (cs : List Char) : triviaWidth inComment cs ≤ cs.length := by
  fun_induction triviaWidth inComment cs <;> simp_all

theorem numberWidth_le (pointSeen : Bool) (cs : List Char) : numberWidth pointSeen cs ≤ cs.length := by
  fun_induction numberWidth pointSeen cs <;> simp_all

theorem word_le (cs : List Char) : (cs.takeWhile continuesName).length ≤ cs.length :=
  (List.takeWhile_prefix continuesName).length_le

theorem textRun_le (ends : Char → Bool) (cs : List Char) : (textRun ends cs).2 ≤ cs.length := by
  fun_induction textRun ends cs <;> simp_all

section

variable {cs : List Char} {s : Symbol} {width : Nat} (h : Symbol.munch? cs = some (s, width))

include h

/-- The symbol that is found is written at the front of the text, and it takes as much as it is written
with. -/
theorem munch?_spelled : width = s.spelling.length ∧ s.spelling <+: cs := by
  obtain ⟨⟨pattern, _⟩, hfind, rfl⟩ := Option.map_eq_some_iff.mp h
  obtain ⟨rfl, hwidth⟩ := Symbol.eq_of_mem_rules (List.mem_of_find?_eq_some hfind)
  have hprefix := List.find?_some hfind
  exact ⟨hwidth, List.isPrefixOf_iff_prefix.mp hprefix⟩

theorem munch?_length_le : width ≤ cs.length := by
  obtain ⟨rfl, hprefix⟩ := munch?_spelled h
  exact hprefix.length_le

end

/-- A text ends only at a character that ends it. -/
theorem textRun_stops (ends : Char → Bool) (cs : List Char) : ∀ c ∈ (cs.drop (textRun ends cs).2).head?, ends c := by
  fun_induction textRun ends cs <;> simp_all

def endsSegment (ch : Char) : Bool := ch = '\x60' || ch = '\x7b'

end Scan

/-- Where the next token begins. -/
abbrev Cursor.onset (c : Cursor) : Cursor := c.skip (Scan.triviaWidth false c.rest)

/-- Where a text in a template ends. -/
abbrev Cursor.textEnd (c : Cursor) : Cursor := c.skip (Scan.textRun Scan.endsSegment c.rest).2

/-- The end of input where nothing but trivia is left. -/
abbrev Cursor.ending (c : Cursor) : Token := ⟨.endOfInput, c.onset.upTo c.onset⟩

namespace Scan

/-- The token at a cursor, if it is no template. -/
def single (first : Char) (c : Cursor) : Scan (Token × Cursor) :=
  if startsWithNumber c.rest then number c
  else if beginsName first then pure (word c)
  else if first = '"' || first = '\x27' then text first c
  else sign first c

theorem token_nil (fuel : Nat) {c : Cursor} (h : c.onset.rest = []) :
    token (fuel + 1) c = pure (c.ending, c.onset) := by
  rw [token]
  dsimp only
  split
  next => rfl
  next hcons => exact absurd (hcons.symm.trans h) (by simp)

theorem token_single (fuel : Nat) {c : Cursor} {first : Char} {others : List Char}
    (h : c.onset.rest = first :: others) (hfirst : first ≠ '\x60') : token (fuel + 1) c = single first c.onset := by
  rw [token]
  dsimp only
  split
  next hnil => exact absurd (hnil.symm.trans h) (by simp)
  next hcons =>
    obtain ⟨rfl, rfl⟩ := List.cons.inj (hcons.symm.trans h)
    rw [if_neg hfirst]
    rfl

theorem token_template (fuel : Nat) {c : Cursor} {others : List Char} (h : c.onset.rest = '\x60' :: others) :
    token (fuel + 1) c = (do
      let (segments, behind) ← template fuel c.onset (c.onset.skip 1) []
      pure (⟨.template segments, c.onset.upTo behind⟩, behind)) := by
  rw [token]
  dsimp only
  split
  next hnil => exact absurd (hnil.symm.trans h) (by simp)
  next hcons =>
    obtain ⟨rfl, rfl⟩ := List.cons.inj (hcons.symm.trans h)
    rw [h]
    rfl

section Template

variable (fuel : Nat) (start : Cursor) {c : Cursor} (segments : List (Segment Token)) {others : List Char}

theorem template_nil (h : c.textEnd.rest = []) :
    template (fuel + 1) start c segments = fault (.unterminatedString '\x60') (start.upTo c.textEnd) := by
  change (c.skip (textRun (fun ch => ch = '\x60' || ch = '\x7b') c.rest).2).rest = [] at h
  rw [template]
  simp only [h]
  rfl

theorem template_close (h : c.textEnd.rest = '\x60' :: others) : template (fuel + 1) start c segments =
    pure ((addText segments (textRun endsSegment c.rest).1).reverse, c.textEnd.skip 1) := by
  change (c.skip (textRun (fun ch => ch = '\x60' || ch = '\x7b') c.rest).2).rest = _ at h
  rw [template]
  simp only [h]
  rfl

theorem template_code (h : c.textEnd.rest = '\x7b' :: others) : template (fuel + 1) start c segments = (do
    let (code, behind) ← interpolation fuel (c.textEnd.skip 1) (c.textEnd.skip 1) 0 []
    template fuel start behind (.code code :: addText segments (textRun endsSegment c.rest).1)) := by
  change (c.skip (textRun (fun ch => ch = '\x60' || ch = '\x7b') c.rest).2).rest = _ at h
  rw [template]
  simp only [h]
  rfl

end Template

/-- A text in a template ends with the template, at code, or where nothing is left. -/
theorem textEnd_cases (c : Cursor) : c.textEnd.rest = [] ∨
    (∃ others, c.textEnd.rest = '\x60' :: others) ∨ ∃ others, c.textEnd.rest = '\x7b' :: others := by
  have hstops := textRun_stops endsSegment c.rest
  change ∀ ch ∈ c.textEnd.rest.head?, _ at hstops
  cases hrest : c.textEnd.rest with
  | nil => exact .inl rfl
  | cons first others =>
    have hends := hstops first (by rw [hrest]; rfl)
    simp only [endsSegment, Bool.or_eq_true, decide_eq_true_eq] at hends
    rcases hends with rfl | rfl
    · exact .inr (.inl ⟨others, rfl⟩)
    · exact .inr (.inr ⟨others, rfl⟩)

end Scan

def Token.braces (side : Symbol) (ts : List Token) : Nat := ts.countP (·.kind.isSymbol side)

namespace Scan

section Interpolation

variable {fuel : Nat} {c : Cursor} (start : Cursor) (depth : Nat) (done : List Token)

theorem interpolation_error {stop : Stop LexError} (h : token fuel c = .error stop) :
    interpolation (fuel + 1) start c depth done = .error stop := by
  rw [interpolation, h]
  rfl

/-- What is done with a token of code in braces: the end of input is a fault there, the last brace closes the
code, and with all others it goes on. -/
theorem interpolation_cases {next : Token} {behind : Cursor} (h : token fuel c = .ok (next, behind)) :
    (next.kind.isEnd ∧ interpolation (fuel + 1) start c depth done =
      fault .unterminatedInterpolation ⟨start.place, next.span.stop⟩) ∨
    (depth = 0 ∧ next.kind = .symbol .rightBrace ∧ interpolation (fuel + 1) start c depth done =
      pure ((⟨.endOfInput, next.span⟩ :: done).reverse, behind)) ∨
    ∃ depth', next.kind.isEnd = false ∧
      Token.braces .rightBrace [next] + depth' = Token.braces .leftBrace [next] + depth ∧
      interpolation (fuel + 1) start c depth done = interpolation fuel start behind depth' (next :: done) := by
  obtain ⟨kind, span⟩ := next
  rw [interpolation, h]
  cases kind with
  | endOfInput => exact .inl ⟨rfl, rfl⟩
  | symbol sign =>
    cases sign with
    | leftBrace => exact .inr (.inr ⟨depth + 1, rfl, by simp [Token.braces, TokenKind.isSymbol, Nat.add_comm], rfl⟩)
    | rightBrace =>
      cases depth with
      | zero => exact .inr (.inl ⟨rfl, rfl, rfl⟩)
      | succ depth => exact .inr (.inr ⟨depth, rfl, by simp [Token.braces, TokenKind.isSymbol, Nat.add_comm], rfl⟩)
    | _ => exact .inr (.inr ⟨depth, rfl, rfl, rfl⟩)
  | _ => exact .inr (.inr ⟨depth, rfl, rfl, rfl⟩)

end Interpolation

/-- What single tokens can be found at `b`, where no trivia are, and the cursor behind them. -/
inductive Found (b : Cursor) : TokenKind Token → Cursor → Prop
  | number {value : Float} (begins : startsWithNumber b.rest)
      (reads : Number.read? ((b.rest.take (numberWidth false b.rest)).filter (· ≠ '_')) = some value) :
      Found b (.number value) (b.skip (numberWidth false b.rest))
  | keyword {first : Char} {others : List Char} {word : Keyword} (rest : b.rest = first :: others)
      (begins : beginsName first)
      (spells : Keyword.ofSpelling? (String.ofList (b.rest.takeWhile continuesName)) = some word) :
      Found b (.keyword word) (b.skip (b.rest.takeWhile continuesName).length)
  | identifier {first : Char} {others : List Char} (rest : b.rest = first :: others)
      (begins : beginsName first)
      (spells : Keyword.ofSpelling? (String.ofList (b.rest.takeWhile continuesName)) = none) :
      Found b (.identifier (String.ofList (b.rest.takeWhile continuesName)))
        (b.skip (b.rest.takeWhile continuesName).length)
  | text {quote : Char} {others : List Char} (rest : b.rest = quote :: others)
      (quotes : quote = '"' ∨ quote = '\x27')
      (closes : ((b.skip 1).skip (textRun (· = quote) (b.skip 1).rest).2).rest ≠ []) :
      Found b (.text (String.ofList (textRun (· = quote) (b.skip 1).rest).1))
        (((b.skip 1).skip (textRun (· = quote) (b.skip 1).rest).2).skip 1)
  | newline {first : Char} {others : List Char} (rest : b.rest = first :: others)
      (breaks : first = '\n' ∨ first = ';') : Found b .newline (b.skip 1)
  | symbol {s : Symbol} (begins : startsWithNumber b.rest = false)
      (longest : Symbol.munch? b.rest = some (s, s.spelling.length)) :
      Found b (.symbol s) (b.skip s.spelling.length)

/-- All that a single token can be. -/
theorem single_found {b c : Cursor} {first : Char} {others : List Char} {t : Token} (hrest : b.rest = first :: others)
    (h : single first b = .ok (t, c)) : Found b t.kind c ∧ t.span = b.upTo c := by
  unfold single at h
  split at h
  next hnumber =>
    unfold number at h
    dsimp only at h
    split at h
    next hread =>
      cases h
      exact ⟨.number hnumber hread, rfl⟩
    next => cases h
  rename_i hnumber
  split at h
  next hname =>
    unfold word at h
    dsimp only at h
    split at h
    next hword =>
      cases h
      exact ⟨.keyword hrest hname hword, rfl⟩
    next hword =>
      cases h
      exact ⟨.identifier hrest hname hword, rfl⟩
  split at h
  next hquote =>
    unfold Scan.text at h
    dsimp only at h
    split at h
    next => cases h
    next hcloses =>
      cases h
      exact ⟨.text hrest (by simpa using hquote) (by simpa using hcloses), rfl⟩
  unfold sign at h
  split at h
  next hbreaks =>
    cases h
    exact ⟨.newline hrest (by simpa using hbreaks), rfl⟩
  next =>
    split at h
    next symbol width hmunch =>
      cases h
      obtain ⟨rfl, -⟩ := munch?_spelled hmunch
      exact ⟨.symbol (Bool.eq_false_iff.mpr hnumber) hmunch, rfl⟩
    next => cases h

end Scan

end ScriptLang
