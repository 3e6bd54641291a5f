import ScriptLang.Proofs.Data.Printed
import ScriptLang.Proofs.Token.Spells

/-! The tokens of shown data. Main statement: the text of a datum is read as its tokens. -/
namespace ScriptLang

namespace Scan

variable {α : Type} {g : α → List (TokenKind Token)} {pieces : List α}

theorem colon_spells : Spells (fun rest => ∃ more, rest = ' ' :: more) [':'] [.symbol .colon] := by
  refine sign_spells (by decide) ?_
  rintro _ ⟨more, rfl⟩
  rfl

theorem intercalate_spells {f : α → List Char} (h : ∀ a ∈ pieces, Spells closing (f a) (g a)) :
    pieces = [] ∨ Spells closing ([',', ' '].intercalate (pieces.map f))
      ([.symbol .comma].intercalate (pieces.map g)) := by
  induction pieces with
  | nil => exact .inl rfl
  | cons first rest ih =>
    obtain ⟨hfirst, hrest⟩ := List.forall_mem_cons.mp h
    right
    cases rest with
    | nil => simpa using hfirst
    | cons second rest =>
      have hcomma : Spells anything [','] [.symbol .comma] :=
        sign_spells (by decide) fun _ _ => rfl
      have hnext := hcomma.append ((ih hrest).resolve_left (List.cons_ne_nil _ _)).blank fun _ _ => trivial
      have hboth := hfirst.append hnext fun rest _ c hc => .inl (Option.some.inj hc).symm
      simpa [List.intercalate_cons_cons] using hboth

private theorem enclosed_spells {f : α → List Char}
    {left right : Char} {opening close : Symbol} (hleft : Spells anything [left] [.symbol opening])
    (hright : Spells anything [right] [.symbol close]) (hcloses : right = ']' ∨ right = '\x7d')
    (h : ∀ a ∈ pieces, Spells closing (f a) (g a)) :
    Spells closing (left :: [',', ' '].intercalate (pieces.map f) ++ [right])
      (.symbol opening :: [.symbol .comma].intercalate (pieces.map g) ++ [.symbol close]) := by
  rcases intercalate_spells h with rfl | hpieces
  · exact (hleft.append hright fun _ _ => trivial).mono fun _ _ => trivial
  · have hopened := hleft.append hpieces fun _ _ => trivial
    have hclosed := hopened.append hright fun rest _ c hc => .inr ((Option.some.inj hc) ▸ hcloses)
    exact hclosed.mono fun _ _ => trivial

theorem listText_spells {f : α → String} (h : ∀ a ∈ pieces, Spells closing (f a).toList (g a)) :
    Spells closing (Value.listText (pieces.map f)).toList
      (.symbol .leftBracket :: [.symbol .comma].intercalate (pieces.map g) ++ [.symbol .rightBracket]) := by
  have htext : (Value.listText (pieces.map f)).toList =
      '[' :: [',', ' '].intercalate (pieces.map fun a => (f a).toList) ++ [']'] := by
    simp [Value.listText, String.toList_intercalate, Function.comp_def]
  rw [htext]
  refine enclosed_spells ?_ ?_ (.inl rfl) h
  · exact sign_spells (by decide) fun _ _ => rfl
  · exact sign_spells (by decide) fun _ _ => rfl

theorem dictText_spells {pieces : List (String × α)} {f : α → String}
    (hkeys : ∀ entry ∈ pieces, ∀ c ∈ entry.1.toList, Text.Plain c)
    (h : ∀ entry ∈ pieces, Spells closing (f entry.2).toList (g entry.2)) :
    Spells closing (Value.dictText (pieces.map fun entry => (entry.1, f entry.2))).toList
      (.symbol .leftBrace :: [.symbol .comma].intercalate (pieces.map fun entry =>
        .text entry.1 :: .symbol .colon :: g entry.2) ++ [.symbol .rightBrace]) := by
  have htext : (Value.dictText (pieces.map fun entry => (entry.1, f entry.2))).toList =
      '\x7b' :: [',', ' '].intercalate (pieces.map fun entry =>
        (Text.quote entry.1).toList ++ (':' :: ' ' :: (f entry.2).toList)) ++ ['\x7d'] := by
    simp [Value.dictText, String.toList_intercalate, Function.comp_def]
  rw [htext]
  refine enclosed_spells ?_ ?_ (.inr rfl) fun entry hentry => ?_
  · exact sign_spells (by decide) fun _ _ => rfl
  · exact sign_spells (by decide) fun _ _ => rfl
  · have hvalue := colon_spells.append (h entry hentry).blank fun rest _ => ⟨_, rfl⟩
    exact (quote_spells (hkeys entry hentry)).append hvalue fun _ _ => trivial

end Scan

namespace Datum

def kinds : Datum → List (TokenKind Token)
  | nothing => [.keyword .noneWord]
  | number value =>
    if Number.isNegative value then [.symbol .minus, .number value.abs] else [.number value.abs]
  | text value => [.text value]
  | boolean value => [.keyword (if value then .trueWord else .falseWord)]
  | list elements =>
    .symbol .leftBracket :: [.symbol .comma].intercalate (elements.map kinds) ++ [.symbol .rightBracket]
  | dict entries =>
    .symbol .leftBrace :: [.symbol .comma].intercalate (entries.map fun entry =>
      .text entry.1 :: .symbol .colon :: kinds entry.2) ++ [.symbol .rightBrace]
termination_by d => sizeOf d
decreasing_by
  · decreasing_tactic
  · exact sizeOf_entry_lt ‹_›

/-- Numbers that are finite and whose magnitudes are read back from their texts. -/
def Readable (value : Float) : Prop :=
  value.isFinite = true ∧ Number.read? (Number.text value.abs).toList = some value.abs

/-- Data whose text can be read: the numbers are finite and read back from their texts, and texts and keys
have no characters that would be written by their code point. -/
abbrev Printable : Datum → Prop :=
  All Readable (fun value => ∀ c ∈ value.toList, Text.Plain c)
    (fun keys => ∀ key ∈ keys, ∀ c ∈ key.toList, Text.Plain c)

open Scan

theorem number_spells {value : Float} (h : Readable value) :
    Spells closing (number value).shown.toList (number value).kinds := by
  obtain ⟨hfinite, hread⟩ := h
  have hnumeral := Number.text_abs_numeral hfinite
  have hmagnitude := numeral_spells hnumeral hread
  rw [shown, kinds, Number.text_eq_signed hfinite, String.toList_append]
  cases Number.isNegative value with
  | false => exact hmagnitude
  | true =>
    obtain ⟨⟨first, others, hcs, hfirst⟩, -⟩ := numeral_cases hnumeral
    exact minus_spells.append hmagnitude fun rest _ => ⟨first, others ++ rest, by rw [hcs]; rfl, hfirst⟩

/-- The text of a datum is read as its tokens. -/
theorem shown_spells {d : Datum} (hd : d.Printable) : Spells closing d.shown.toList d.kinds := by
  induction d with
  | nothing =>
    rw [shown, kinds]
    exact word_spells (by decide) (by decide) (by decide)
  | number value =>
    cases hd with
    | number h => exact number_spells h
  | text value =>
    cases hd with
    | text h =>
      rw [shown, kinds]
      exact (quote_spells h).mono fun _ _ => trivial
  | boolean value =>
    rw [shown, kinds]
    cases value <;> exact word_spells (by decide) (by decide) (by decide)
  | list elements ih =>
    rw [shown, kinds]
    exact listText_spells fun d hmem => ih d hmem (hd.of_list d hmem)
  | dict entries ih =>
    obtain ⟨keys, parts⟩ := hd.of_dict
    rw [shown, kinds]
    refine dictText_spells (fun entry hentry => ?_) fun entry hentry => ?_
    · exact keys entry.1 (List.mem_map.mpr ⟨entry, hentry, rfl⟩)
    · exact ih entry hentry (parts entry hentry)

/-- The tokens of the text of a datum are its tokens and the end of input. -/
theorem tokenize_shown {d : Datum} (hd : d.Printable) :
    ∃ ts span, tokenize d.shown = .ok (ts ++ [⟨.endOfInput, span⟩]) ∧ ts.map (·.kind) = d.kinds := by
  obtain ⟨ts, behind, hts, hreads⟩ := (shown_spells hd).reads .origin (show closing [] from nofun)
  rw [List.append_nil] at hreads
  exact ⟨ts, ⟨behind, behind⟩, tokenize_of_scans hreads rfl, hts⟩

end Datum

end ScriptLang
