import ScriptLang.Proofs.Number.Text
import ScriptLang.Proofs.Token.Splice
import ScriptLang.Text.Quoted

/-! Characters that are read as certain tokens wherever they stand. Main statements: operators, keywords,
quoted texts and numerals are read as themselves before what cannot belong to them. -/
namespace ScriptLang

/-- Characters that the quoted form of a text leaves as they are or writes with a short escape. -/
def Text.Plain (c : Char) : Prop := Text.quoteChar c = [c] ∨ (Text.shortEscape? c).isSome

instance (c : Char) : Decidable (Text.Plain c) :=
  inferInstanceAs (Decidable (Text.quoteChar c = [c] ∨ (Text.shortEscape? c).isSome))

theorem Cursor.skip_skip (c : Cursor) (m n : Nat) : (c.skip m).skip n = c.skip (m + n) := by
  simp only [skip, List.drop_drop, List.take_add, Position.after_append]

namespace Scan

variable {others : List Char} {first : Char}

/-- Characters that are read as tokens of certain kinds wherever what follows them satisfies `C`. -/
structure Spells (C : List Char → Prop) (cs : List Char) (kinds : List (TokenKind Token)) : Prop where
  nonempty : kinds ≠ []
  reads (place : Position) {rest : List Char} (hrest : C rest) : ∃ ts behind, ts.map (·.kind) = kinds ∧
    Scans ⟨cs ++ rest, place⟩ (.tokens ts) ⟨rest, behind⟩

def anything (_ : List Char) : Prop := True

def closing (rest : List Char) : Prop := ∀ c ∈ rest.head?, c = ',' ∨ c = ']' ∨ c = '\x7d'

namespace Spells

variable {C D : List Char → Prop} {cs ds : List Char} {kinds more : List (TokenKind Token)}

theorem append (first : Spells C cs kinds) (second : Spells D ds more)
    (hfollow : ∀ rest, D rest → C (ds ++ rest)) : Spells D (cs ++ ds) (kinds ++ more) := by
  refine ⟨by simp [first.nonempty], fun place rest hrest => ?_⟩
  obtain ⟨ts, middle, hts, hreads⟩ := first.reads place (hfollow rest hrest)
  obtain ⟨us, behind, hus, hreads'⟩ := second.reads middle hrest
  rw [List.append_assoc]
  exact ⟨ts ++ us, behind, by rw [List.map_append, hts, hus], hreads.append hreads'⟩

theorem mono (h : Spells C cs kinds) (hC : ∀ rest, D rest → C rest) : Spells D cs kinds :=
  ⟨h.nonempty, fun place _ hrest => h.reads place (hC _ hrest)⟩

/-- A blank before a token is skipped. -/
theorem blank (h : Spells C cs kinds) : Spells C (' ' :: cs) kinds := by
  refine ⟨h.nonempty, fun place rest hrest => ?_⟩
  obtain ⟨ts, behind, hts, hreads⟩ := h.reads (place.next ' ') hrest
  refine ⟨ts, behind, hts, ?_⟩
  cases ts with
  | nil => exact absurd hts.symm h.nonempty
  | cons t ts =>
    cases hreads with
    | cons first isEnd others =>
      refine .cons ?_ isEnd others
      cases first with
      | ending => cases isEnd
      | single onset plain found => exact .single onset plain found
      | template onset filled => exact .template onset filled

end Spells

def Solid (c : Char) : Prop := c ≠ ' ' ∧ c ≠ '\t' ∧ c ≠ '\r' ∧ c ≠ '#' ∧ c ≠ '\\' ∧ c ≠ '\x60'

instance (c : Char) : Decidable (Solid c) := by
  unfold Solid
  infer_instance

/-- A token that is no template, before what satisfies `C`. -/
theorem Spells.single {C : List Char → Prop} {kind : TokenKind Token}
    (hsolid : Solid first) (hkind : kind.isEnd = false)
    (h : ∀ (c : Cursor) rest, c.rest = first :: others ++ rest → C rest →
      Scan.single first c = pure (⟨kind, c.upTo (c.skip (others.length + 1))⟩, c.skip (others.length + 1))) :
    Spells C (first :: others) [kind] := by
  obtain ⟨h1, h2, h3, h4, h5, hplain⟩ := hsolid
  refine ⟨List.cons_ne_nil _ _, fun place rest hrest => ?_⟩
  have honset : Cursor.onset ⟨first :: others ++ rest, place⟩ = ⟨first :: others ++ rest, place⟩ := by
    simp [Cursor.onset, Cursor.skip, triviaWidth, h1, h2, h3, h4, h5]
  have hskip : Cursor.skip ⟨first :: others ++ rest, place⟩ (others.length + 1) =
      ⟨rest, place.after (first :: others)⟩ := by
    simp [Cursor.skip]
  have hfound := h ⟨first :: others ++ rest, place⟩ rest rfl hrest
  rw [hskip] at hfound
  rw [← honset] at hfound
  exact ⟨_, _, rfl, .cons (.single (congrArg Cursor.rest honset) hplain hfound) hkind (.nil _)⟩

def OpensSign (c : Char) : Prop :=
  Solid c ∧ c ≠ '.' ∧ c.isDigit = false ∧ beginsName c = false ∧
    c ≠ '"' ∧ c ≠ '\x27' ∧ c ≠ '\n' ∧ c ≠ ';'

instance (c : Char) : Decidable (OpensSign c) := by
  unfold OpensSign
  infer_instance

theorem sign_spells {C : List Char → Prop} {s : Symbol} (hopens : OpensSign first)
    (hmunch : ∀ rest, C rest → Symbol.munch? (first :: others ++ rest) = some (s, others.length + 1)) :
    Spells C (first :: others) [.symbol s] := by
  obtain ⟨hsolid, hpoint, hdigit, hname, hquote, hquote', hline, hsemicolon⟩ := hopens
  refine .single hsolid rfl fun c rest hc hrest => ?_
  have hnumber : startsWithNumber c.rest = false := by
    rw [hc]
    simp [startsWithNumber, startsWithDigit, hpoint, hdigit]
  have hmunch : Symbol.munch? c.rest = some (s, others.length + 1) := hc ▸ hmunch rest hrest
  simp [single, hnumber, hname, hquote, hquote', sign, hline, hsemicolon, hmunch]

def OpensWord (c : Char) : Prop :=
  Solid c ∧ c ≠ '.' ∧ c.isDigit = false ∧ beginsName c = true

instance (c : Char) : Decidable (OpensWord c) := by
  unfold OpensWord
  infer_instance

theorem word_spells {keyword : Keyword} (hopens : OpensWord first)
    (hcontinues : (first :: others).all continuesName = true)
    (hkeyword : Keyword.ofSpelling? (String.ofList (first :: others)) = some keyword) :
    Spells closing (first :: others) [.keyword keyword] := by
  obtain ⟨hsolid, hpoint, hdigit, hbegins⟩ := hopens
  refine .single hsolid rfl fun c rest hc hrest => ?_
  have hname : c.rest.takeWhile continuesName = first :: others := by
    rw [hc, List.takeWhile_append_of_pos (List.all_eq_true.mp hcontinues)]
    cases rest with
    | nil => rw [List.takeWhile_nil, List.append_nil]
    | cons next rest =>
      have hnext : continuesName next = false := by
        rcases hrest next rfl with rfl | rfl | rfl <;> decide
      rw [List.takeWhile_cons_of_neg (by rw [hnext]; exact Bool.false_ne_true), List.append_nil]
  have hnumber : startsWithNumber c.rest = false := by
    rw [hc]
    simp [startsWithNumber, startsWithDigit, hpoint, hdigit]
  rw [single, hnumber, hbegins]
  simp only [word, hname, hkeyword]
  rfl

/-- What is written with a short escape is read back. -/
theorem unescape_shortEscape? {c letter : Char} (h : Text.shortEscape? c = some letter) : unescape letter = c := by
  unfold Text.shortEscape? at h
  split_ifs at h with hc hc hc hc hc hc <;> cases h <;> subst hc <;> rfl

/-- Between quotes, a text is read as itself. -/
theorem textRun_quoted {cs : List Char} (h : ∀ c ∈ cs, Text.Plain c) (rest : List Char) :
    textRun (· = '"') (cs.flatMap Text.quoteChar ++ '"' :: rest) =
      (cs, (cs.flatMap Text.quoteChar).length) := by
  induction cs with
  | nil => rfl
  | cons c cs ih =>
    obtain ⟨hc, hcs⟩ := List.forall_mem_cons.mp h
    rw [List.flatMap_cons, List.append_assoc, List.length_append]
    cases hescape : Text.shortEscape? c with
    | some letter =>
      have hquote : Text.quoteChar c = ['\\', letter] := by rw [Text.quoteChar, hescape]
      rw [hquote, List.cons_append, List.cons_append, List.nil_append, textRun, ih hcs,
        unescape_shortEscape? hescape, Nat.add_comm]
      rfl
    | none =>
      have hquote : Text.quoteChar c = [c] := hc.resolve_right (by rw [hescape]; exact Bool.false_ne_true)
      have hbackslash : c ≠ '\\' := by
        rintro rfl
        cases hescape
      have hends : ¬decide (c = '"') = true := by
        rw [decide_eq_true_eq]
        rintro rfl
        cases hescape
      rw [hquote, List.cons_append, List.nil_append, textRun_cons _ hbackslash, if_neg hends, ih hcs,
        Nat.add_comm]
      rfl

/-- The quoted form of a text is read as the text. -/
theorem quote_spells {s : String} (h : ∀ c ∈ s.toList, Text.Plain c) :
    Spells anything (Text.quote s).toList [.text s] := by
  rw [Text.quote, String.toList_ofList]
  refine .single (by decide) rfl fun c rest hc _ => ?_
  have hskip : (c.skip 1).rest = s.toList.flatMap Text.quoteChar ++ '"' :: rest := by
    rw [Cursor.skip, hc]
    simp
  have hrun := textRun_quoted h rest
  rw [← hskip] at hrun
  have hclose : ((c.skip 1).skip (s.toList.flatMap Text.quoteChar).length).rest = '"' :: rest := by
    rw [Cursor.skip, hskip]
    exact List.drop_left
  have hbehind : ((c.skip 1).skip (s.toList.flatMap Text.quoteChar).length).skip 1 =
      c.skip ((s.toList.flatMap Text.quoteChar ++ ['"']).length + 1) := by
    rw [Cursor.skip_skip, Cursor.skip_skip, List.length_append, Nat.add_comm 1, Nat.add_right_comm]
    rfl
  have hnumber : startsWithNumber c.rest = false := by
    rw [hc]
    rfl
  have hname : beginsName '"' = false := by decide
  rw [single, hnumber, hname]
  change text '"' c = _
  unfold text
  rw [hrun]
  dsimp only
  rw [hclose, hbehind, String.ofList_toList]
  rfl

section Number

variable {cs rest : List Char} {value : Float}

private theorem numberWidth_digits {digits : List Char} (h : ∀ c ∈ digits, c.isDigit = true) (pointSeen : Bool)
    (rest : List Char) : numberWidth pointSeen (digits ++ rest) = digits.length + numberWidth pointSeen rest := by
  induction digits with
  | nil => rw [List.nil_append, List.length_nil, Nat.zero_add]
  | cons c digits ih =>
    obtain ⟨hc, hdigits⟩ := List.forall_mem_cons.mp h
    rw [List.cons_append, numberWidth, hc, Bool.true_or, if_pos rfl, ih hdigits, List.length_cons]
    omega

private theorem numberWidth_closing (hrest : closing rest) (pointSeen : Bool) : numberWidth pointSeen rest = 0 := by
  cases rest with
  | nil => rfl
  | cons c rest => rcases hrest c rfl with rfl | rfl | rfl <;> rfl

private theorem numberWidth_numeral (h : Number.IsNumeral cs) (hrest : closing rest) :
    numberWidth false (cs ++ rest) = cs.length := by
  cases h with
  | whole h => rw [numberWidth_digits h.2, numberWidth_closing hrest, Nat.add_zero]
  | @decimal before after hbefore hafter =>
    have hstarts : startsWithDigit (after ++ rest) = true := by
      cases after with
      | nil => exact absurd rfl hafter.1
      | cons c after => exact hafter.2 c List.mem_cons_self
    have hpoint : numberWidth false ('.' :: (after ++ rest)) = numberWidth true (after ++ rest) + 1 := by
      rw [numberWidth, hstarts]
      rfl
    rw [List.append_assoc, numberWidth_digits hbefore.2, List.cons_append, hpoint,
      numberWidth_digits hafter.2, numberWidth_closing hrest, List.length_append]
    rfl

private theorem ne_separator {digits : List Char} (h : Number.IsDigits digits) : ∀ c ∈ digits, c ≠ '_' := by
  rintro _ hc rfl
  cases h.2 _ hc

/-- A numeral begins with a digit and has no separators. -/
theorem numeral_cases (h : Number.IsNumeral cs) :
    (∃ first others, cs = first :: others ∧ first.isDigit = true) ∧ ∀ c ∈ cs, c ≠ '_' := by
  cases h with
  | whole h =>
    obtain ⟨first, others, rfl⟩ := List.exists_cons_of_ne_nil h.1
    exact ⟨⟨first, others, rfl, h.2 first List.mem_cons_self⟩, ne_separator h⟩
  | @decimal before after hbefore hafter =>
    obtain ⟨first, others, rfl⟩ := List.exists_cons_of_ne_nil hbefore.1
    refine ⟨⟨first, _, List.cons_append, hbefore.2 first List.mem_cons_self⟩, fun c hc => ?_⟩
    rcases List.mem_append.mp hc with hc | hc
    · exact ne_separator hbefore c hc
    · rcases List.mem_cons.mp hc with rfl | hc
      · decide
      · exact ne_separator hafter c hc

theorem numeral_spells (h : Number.IsNumeral cs) (hread : Number.read? cs = some value) :
    Spells closing cs [.number value] := by
  obtain ⟨⟨first, others, hcs, hfirst⟩, hseparators⟩ := numeral_cases h
  have hsolid : Solid first := by
    refine ⟨?_, ?_, ?_, ?_, ?_, ?_⟩ <;> rintro rfl <;> cases hfirst
  have hpoint : first ≠ '.' := by
    rintro rfl
    cases hfirst
  rw [hcs]
  refine .single hsolid rfl fun c rest hc hrest => ?_
  rw [← hcs] at hc
  have hopening : c.rest = first :: (others ++ rest) := by rw [hc, hcs, List.cons_append]
  have hnumber : startsWithNumber c.rest = true := by
    rw [hopening]
    simp [startsWithNumber, startsWithDigit, hpoint, hfirst]
  have hwidth : numberWidth false c.rest = cs.length := hc ▸ numberWidth_numeral h hrest
  have hliteral : (c.rest.take cs.length).filter (· ≠ '_') = cs := by
    rw [hc, List.take_left, List.filter_eq_self]
    simpa using hseparators
  rw [single, hnumber]
  change number c = _
  unfold number
  dsimp only
  rw [hwidth, hliteral, hread, hcs]
  rfl

/-- A minus sign before a digit is a token of its own. -/
theorem minus_spells : Spells (fun rest => ∃ c more, rest = c :: more ∧ c.isDigit = true) ['-'] [.symbol .minus] := by
  refine sign_spells (by decide) ?_
  rintro _ ⟨c, more, rfl, hc⟩
  have hminus : '-' ≠ c := by
    rintro rfl
    cases hc
  have hequal : '=' ≠ c := by
    rintro rfl
    cases hc
  have hgreater : '>' ≠ c := by
    rintro rfl
    cases hc
  simp [Symbol.munch?, Symbol.rules, List.isPrefixOf, hminus, hequal, hgreater]

end Number

end Scan

end ScriptLang
