import ScriptLang.Proofs.Number.Text
import ScriptLang.Proofs.Token.Fault
import ScriptLang.Proofs.Token.Lossless

/-! Numbers in a text. Main statement: wherever a number begins, its characters without the separators are a literal
that can be read, so no text has an invalid number. -/
namespace ScriptLang

namespace Number

/-- Digits, with a point before or among them. -/
inductive IsLiteral : List Char → Prop
  | whole {digits} (h : IsDigits digits) : IsLiteral digits
  | decimal {before after} (hbefore : ∀ c ∈ before, c.isDigit = true) (hafter : IsDigits after) :
      IsLiteral (before ++ '.' :: after)

variable {cs : List Char} {c : Char}

theorem splitSign_cons (hc : c.isDigit = true ∨ c = '.') : splitSign (c :: cs) = (false, c :: cs) := by
  unfold splitSign
  split
  next h =>
    cases h
    rcases hc with hc | hc <;> cases hc
  next h =>
    cases h
    rcases hc with hc | hc <;> cases hc
  next => rfl

theorem toLower_eq (hc : c.isDigit = true ∨ c = '.') : c.toLower = c := by
  rcases hc with hc | rfl
  · have hrange : '0'.val ≤ c.val ∧ c.val ≤ '9'.val := by simpa [Char.isDigit] using hc
    unfold Char.toLower
    split
    next h => exact absurd (UInt32.le_trans h.1 hrange.2) (by decide)
    next => rfl
  · rfl

theorem magnitude?_isSome (h : IsLiteral cs) : (magnitude? cs).isSome := by
  cases h with
  | whole h =>
    have htake : cs.takeWhile Char.isDigit = cs := List.takeWhile_eq_self_iff.mpr h.2
    have hdrop : cs.dropWhile Char.isDigit = [] := List.dropWhile_eq_nil_iff.mpr h.2
    simp [magnitude?, htake, hdrop, h.1, exponent?]
  | @decimal before after hbefore hafter =>
    have htake : (before ++ '.' :: after).takeWhile Char.isDigit = before := by
      rw [List.takeWhile_append_of_pos hbefore]
      simp
    have hdrop : (before ++ '.' :: after).dropWhile Char.isDigit = '.' :: after := by
      rw [List.dropWhile_append_of_pos hbefore]
      simp
    have htake' : after.takeWhile Char.isDigit = after := List.takeWhile_eq_self_iff.mpr hafter.2
    have hdrop' : after.dropWhile Char.isDigit = [] := List.dropWhile_eq_nil_iff.mpr hafter.2
    simp [magnitude?, htake, hdrop, htake', hdrop', hafter.1, exponent?]

/-- Every literal can be read. -/
theorem exists_read? (h : IsLiteral cs) : ∃ value, read? cs = some value := by
  obtain ⟨c, rest, rfl, hc⟩ : ∃ c rest, cs = c :: rest ∧ (c.isDigit = true ∨ c = '.') := by
    cases h with
    | whole h =>
      obtain ⟨c, rest, rfl⟩ := List.exists_cons_of_ne_nil h.1
      exact ⟨c, rest, rfl, .inl (h.2 c List.mem_cons_self)⟩
    | @decimal before after hbefore _ =>
      cases before with
      | nil => exact ⟨'.', after, rfl, .inr rfl⟩
      | cons c rest => exact ⟨c, _, rfl, .inl (hbefore c List.mem_cons_self)⟩
  have hword (word : String) (first : Char) (others : List Char) (hchars : word.toList = first :: others)
      (hfirst : ¬(first.isDigit = true ∨ first = '.')) : String.ofList ((c :: rest).map Char.toLower) ≠ word := by
    rintro rfl
    rw [String.toList_ofList, List.map_cons, toLower_eq hc] at hchars
    exact hfirst ((List.cons.inj hchars).1 ▸ hc)
  have hinf := hword "inf" 'i' ['n', 'f'] (by decide +kernel) (by decide)
  have hinfinity := hword "infinity" 'i' ['n', 'f', 'i', 'n', 'i', 't', 'y'] (by decide +kernel) (by decide)
  have hnan := hword "nan" 'n' ['a', 'n'] (by decide +kernel) (by decide)
  obtain ⟨value, hvalue⟩ := Option.isSome_iff_exists.mp (magnitude?_isSome h)
  unfold read?
  rw [splitSign_cons hc]
  simp only [hinf, hinfinity, hnan, hvalue, decide_false, Bool.or_self, Bool.false_eq_true, if_false, Option.map_some]
  exact ⟨value, rfl⟩

end Number

namespace Scan

open Number (IsDigits IsLiteral)

variable {cs : List Char} {c : Char}

def literal (pointSeen : Bool) (cs : List Char) : List Char :=
  (cs.take (numberWidth pointSeen cs)).filter (· ≠ '_')

theorem literal_digit (hc : c.isDigit = true) (pointSeen : Bool) (cs : List Char) :
    literal pointSeen (c :: cs) = c :: literal pointSeen cs := by
  have hseparator : c ≠ '_' := by
    rintro rfl
    cases hc
  simp [literal, numberWidth, hc, hseparator]

theorem literal_ne_nil (h : startsWithDigit cs = true) (pointSeen : Bool) : literal pointSeen cs ≠ [] := by
  cases cs with
  | nil => cases h
  | cons c cs =>
    rw [literal_digit h]
    exact List.cons_ne_nil _ _

theorem literal_point (h : startsWithDigit cs = true) : literal false ('.' :: cs) = '.' :: literal true cs := by
  simp [literal, numberWidth, h]

/-- What the first character does: it belongs to the literal, is passed over, or ends it. -/
theorem literal_cons (pointSeen : Bool) (c : Char) (cs : List Char) :
    (c.isDigit = true ∧ literal pointSeen (c :: cs) = c :: literal pointSeen cs) ∨
    literal pointSeen (c :: cs) = literal pointSeen cs ∨
    (pointSeen = false ∧ startsWithDigit cs = true ∧ literal pointSeen (c :: cs) = '.' :: literal true cs) ∨
    literal pointSeen (c :: cs) = [] := by
  by_cases hdigit : c.isDigit = true
  · exact .inl ⟨hdigit, literal_digit hdigit pointSeen cs⟩
  · by_cases hseparator : c = '_'
    · subst hseparator
      exact .inr (.inl (by simp [literal, numberWidth]))
    · by_cases hpoint : c = '.' ∧ pointSeen = false ∧ startsWithDigit cs = true
      · obtain ⟨rfl, rfl, hstarts⟩ := hpoint
        exact .inr (.inr (.inl ⟨rfl, hstarts, literal_point hstarts⟩))
      · refine .inr (.inr (.inr ?_))
        have hwidth : numberWidth pointSeen (c :: cs) = 0 := by
          rw [numberWidth, if_neg (by simp [hdigit, hseparator]), if_neg (by simpa [and_assoc] using hpoint)]
        rw [literal, hwidth]
        rfl

/-- Behind a point there are only digits. -/
theorem literal_digits (cs : List Char) : ∀ c ∈ literal true cs, c.isDigit = true := by
  induction cs with
  | nil => exact List.forall_mem_nil _
  | cons c cs ih =>
    rcases literal_cons true c cs with ⟨hc, heq⟩ | heq | ⟨hseen, -⟩ | heq
    · rw [heq]
      exact List.forall_mem_cons.mpr ⟨hc, ih⟩
    · rw [heq]
      exact ih
    · cases hseen
    · rw [heq]
      exact List.forall_mem_nil _

theorem literal_shape (cs : List Char) : (∀ c ∈ literal false cs, c.isDigit = true) ∨
    ∃ before after, literal false cs = before ++ '.' :: after ∧ (∀ c ∈ before, c.isDigit = true) ∧ IsDigits after := by
  induction cs with
  | nil => exact .inl (List.forall_mem_nil _)
  | cons c cs ih =>
    rcases literal_cons false c cs with ⟨hc, heq⟩ | heq | ⟨-, hstarts, heq⟩ | heq <;> rw [heq]
    · rcases ih with hdigits | ⟨before, after, hsplit, hbefore, hafter⟩
      · exact .inl (List.forall_mem_cons.mpr ⟨hc, hdigits⟩)
      · exact .inr ⟨c :: before, after, by rw [hsplit, List.cons_append], List.forall_mem_cons.mpr ⟨hc, hbefore⟩,
        hafter⟩
    · exact ih
    · exact .inr ⟨[], _, rfl, List.forall_mem_nil _, literal_ne_nil hstarts true, literal_digits cs⟩
    · exact .inl (List.forall_mem_nil _)

/-- Where a number begins, there is a literal. -/
theorem literal_isLiteral (h : startsWithNumber cs = true) : IsLiteral (literal false cs) := by
  have hne : literal false cs ≠ [] := by
    unfold startsWithNumber at h
    split at h
    · rw [literal_point h]
      exact List.cons_ne_nil _ _
    · exact literal_ne_nil h false
  rcases literal_shape cs with hdigits | ⟨before, after, hsplit, hbefore, hafter⟩
  · exact .whole ⟨hne, hdigits⟩
  · rw [hsplit]
    exact .decimal hbefore hafter

theorem exists_number {b : Cursor} (h : startsWithNumber b.rest = true) :
    ∃ value, Number.read? (literal false b.rest) = some value ∧ number b = .ok
      (⟨.number value, b.upTo (b.skip (numberWidth false b.rest))⟩, b.skip (numberWidth false b.rest)) := by
  obtain ⟨value, hvalue⟩ := Number.exists_read? (literal_isLiteral h)
  refine ⟨value, hvalue, ?_⟩
  unfold literal at hvalue
  rw [number, hvalue]
  rfl

end Scan

/-- Wherever a number begins in a text, some of the characters there are taken. Without separators they are a
literal, and the number is what this is read as. So no text has an invalid number, and all its numbers, those of the
code in templates too, are written as literals with separators in between. -/
theorem tokenize_number_literals (source : String) :
    (∀ c : Cursor, (Cursor.ofText source).Reaches c → Scan.startsWithNumber c.rest = true →
      ∃ taken value, taken <+: c.rest ∧ Number.IsLiteral (taken.filter (· ≠ '_')) ∧
        Number.read? (taken.filter (· ≠ '_')) = some value ∧
        Scan.number c = .ok (⟨.number value, c.upTo (c.skip taken.length)⟩, c.skip taken.length)) ∧
    (∀ literal span, tokenize source ≠ .error (.fault ⟨.invalidNumber literal, span⟩)) ∧
    ∀ tokens, ∀ t : Token, ∀ value, tokenize source = .ok tokens → t.StandsIn tokens → t.kind = .number value →
      ∃ literal, (Text.slice source t.span.start.index t.span.stop.index).toList.filter (· ≠ '_') = literal ∧
        Number.IsLiteral literal ∧ Number.read? literal = some value := by
  refine ⟨fun c _ hstarts => ?_, fun literal span h => ?_, fun tokens t value h ht hkind => ?_⟩
  · obtain ⟨value, hvalue, hnumber⟩ := Scan.exists_number hstarts
    rw [← List.length_take_of_le (Scan.numberWidth_le false c.rest)] at hnumber
    exact ⟨_, value, List.take_prefix _ _, Scan.literal_isLiteral hstarts, hvalue, hnumber⟩
  · have hvalid : Scan.Faults (.ofText source) fun e => ∀ literal, e.cause ≠ .invalidNumber literal := by
      refine ⟨fun _ _ h literal hcause => ?_, fun _ _ _ => nofun, fun _ _ _ => nofun⟩
      obtain ⟨hstarts, hread⟩ := (Scan.single_fault h).2 literal hcause
      obtain ⟨value, hvalue⟩ := Number.exists_read? (Scan.literal_isLiteral hstarts)
      cases hvalue.symm.trans hread
    exact hvalid.of_tokens (.refl _) h literal rfl
  · obtain ⟨a, c, ha, hscans⟩ := (Scan.traced (Scan.tokens_traced (.refl _) h) ht).scanned (by rw [hkind]; rfl)
    cases hscans with
    | ending | template => cases hkind
    | single rest _ found =>
      obtain ⟨hfound, hspan⟩ := Scan.single_found rest found
      rw [hkind] at hfound
      cases hfound with
      | number begins reads =>
        have hslice := (ha.trans (.onset a)).slice_skip
          (List.take_prefix (Scan.numberWidth false a.onset.rest) a.onset.rest)
        rw [List.length_take_of_le (Scan.numberWidth_le false _)] at hslice
        refine ⟨_, ?_, Scan.literal_isLiteral begins, reads⟩
        rw [hspan, Cursor.upTo, hslice, String.toList_ofList]
        rfl

/-- A point behind a number that has one begins another number. -/
theorem tokenize_number_literals_point :
    let source := "1_.2_3.4_"
    ∃ tokens, ∃ t : Token, ∃ value, tokenize source = .ok tokens ∧ t.StandsIn tokens ∧ t.kind = .number value ∧
      t.span = ⟨⟨6, 0, 6⟩, ⟨9, 0, 9⟩⟩ ∧
      ∃ literal, (Text.slice source t.span.start.index t.span.stop.index).toList.filter (· ≠ '_') = literal ∧
        Number.IsLiteral literal ∧ Number.read? literal = some value := by
  intro source
  have hchars : source.toList = ['1', '_', '.', '2', '_', '3', '.', '4', '_'] := by decide +kernel
  obtain ⟨first, -, hfirst⟩ :=
    Scan.exists_number (b := ⟨['1', '_', '.', '2', '_', '3', '.', '4', '_'], .origin⟩) rfl
  obtain ⟨second, -, hsecond⟩ := Scan.exists_number (b := ⟨['.', '4', '_'], ⟨6, 0, 6⟩⟩) rfl
  have hscans : Scan.Scans (.ofText source) (.tokens [⟨.number first, ⟨⟨0, 0, 0⟩, ⟨6, 0, 6⟩⟩⟩,
      ⟨.number second, ⟨⟨6, 0, 6⟩, ⟨9, 0, 9⟩⟩⟩]) ⟨[], ⟨9, 0, 9⟩⟩ := by
    rw [Cursor.ofText, hchars]
    exact .cons (.single rfl (by decide) hfirst) rfl (.cons (.single rfl (by decide) hsecond) rfl (.nil _))
  have hok := tokenize_of_scans hscans rfl
  refine ⟨_, _, second, hok, .here (.tail _ (.head _)), rfl, rfl, ?_⟩
  exact (tokenize_number_literals source).2.2 _ _ second hok (.here (.tail _ (.head _))) rfl

end ScriptLang
