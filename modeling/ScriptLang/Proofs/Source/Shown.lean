import Mathlib.Data.List.TakeWhile
import ScriptLang.Proofs.Form.Program
import ScriptLang.Proofs.Token.Fault
import ScriptLang.Session

/-! Faults of reading as they are shown. Main statement: below the heading stands the line in which the
fault begins with carets under it, unless the fault begins behind the last line break of the text. -/
namespace ScriptLang

namespace Text

def lineStart (cs : List Char) : List Char := (cs.reverse.takeWhile (· ≠ '\n')).reverse

/-- The line with the place between `before` and `after`. A carriage return in front of a line feed
is no part of it. -/
def lineAcross (before after : List Char) : List Char :=
  let line := lineStart before ++ after.takeWhile (· ≠ '\n')
  if '\n' ∈ after then dropReturn line else line

theorem lineStart_of_not_mem {cs : List Char} (h : '\n' ∉ cs) : lineStart cs = cs := by
  have hself : cs.reverse.takeWhile (· ≠ '\n') = cs.reverse := by
    rw [List.takeWhile_eq_self_iff]
    intro c hc
    simpa using fun heq : c = '\n' => h (List.mem_reverse.mp (heq ▸ hc))
  rw [lineStart, hself, List.reverse_reverse]

theorem lineStart_break (cs : List Char) : lineStart ('\n' :: cs) = lineStart cs := by
  rw [lineStart, List.reverse_cons, List.takeWhile_append]
  split
  next hall => rw [lineStart, (List.takeWhile_prefix _).eq_of_length hall]; simp
  next => rfl

theorem lineStart_cons_of_mem {cs : List Char} (h : '\n' ∈ cs) (c : Char) : lineStart (c :: cs) = lineStart cs := by
  rw [lineStart, List.reverse_cons, List.takeWhile_append, if_neg]
  · rfl
  · intro hall
    have hself := List.takeWhile_eq_self_iff.mp ((List.takeWhile_prefix _).eq_of_length hall)
    simpa using hself '\n' (List.mem_reverse.mpr h)

theorem length_pieces (cs : List Char) : (pieces cs).length = cs.count '\n' + 1 := by
  fun_induction pieces cs <;> simp_all

/-- The piece with the place between `before` and `after`. -/
theorem getElem?_pieces (before after : List Char) :
    (pieces (before ++ after))[before.count '\n']? = some (lineStart before ++ after.takeWhile (· ≠ '\n')) := by
  induction before with
  | nil =>
    change (pieces after)[0]? = some (after.takeWhile (· ≠ '\n'))
    fun_induction pieces after <;> simp_all
  | cons c before ih =>
    rw [List.cons_append, pieces]
    split
    next hc => simpa [hc, lineStart_break] using ih
    next hc =>
      rw [List.count_cons_of_ne hc]
      by_cases hbefore : '\n' ∈ before
      · obtain ⟨i, hi⟩ := Nat.exists_eq_succ_of_ne_zero (List.count_pos_iff.mpr hbefore).ne'
        rw [lineStart_cons_of_mem hbefore]
        rw [hi] at ih ⊢
        split
        next hnil => simp [hnil] at ih
        next first others hparts => simpa [hparts] using ih
      · have hall : '\n' ∉ c :: before := by simp [Ne.symm hc, hbefore]
        rw [lineStart_of_not_mem hall]
        rw [lineStart_of_not_mem hbefore] at ih
        rw [List.count_eq_zero_of_not_mem hbefore] at ih ⊢
        split
        next hnil => simp [hnil] at ih
        next first others hparts => simpa [hparts] using ih

/-- The lines of a text: its pieces, and the last one only if it holds something. -/
theorem lines_eq {cs last : List Char} {closed : List (List Char)} (h : pieces cs = closed ++ [last]) :
    lines cs = closed.map dropReturn ++ if last = [] then [] else [last] := by
  unfold lines
  rw [h]
  cases last with
  | nil | cons => simp

theorem exists_pieces (cs : List Char) :
    ∃ closed last, pieces cs = closed ++ [last] ∧ closed.length = cs.count '\n' := by
  have hlength := length_pieces cs
  rcases List.eq_nil_or_concat (pieces cs) with hnil | ⟨closed, last, hparts⟩
  · simp [hnil] at hlength
  · refine ⟨closed, last, by simpa using hparts, ?_⟩
    simpa [hparts] using hlength

/-- The line with a place is one of those of the text if a character stands behind the place, or one
that is no line break right before it. -/
theorem getElem?_lines {before after : List Char} (h : after ≠ [] ∨ ∃ c ≠ '\n', before.getLast? = some c) :
    (lines (before ++ after))[before.count '\n']? = some (lineAcross before after) := by
  obtain ⟨closed, last, hparts, hlength⟩ := exists_pieces (before ++ after)
  have hpiece := getElem?_pieces before after
  rw [List.count_append] at hlength
  rw [hparts] at hpiece
  rw [lines_eq hparts, lineAcross]
  by_cases hmem : '\n' ∈ after
  · have hlt : before.count '\n' < closed.length := by
      have := List.count_pos_iff.mpr hmem
      omega
    rw [List.getElem?_append_left hlt] at hpiece
    rw [if_pos hmem, List.getElem?_append_left (by simpa using hlt), List.getElem?_map, hpiece]
    rfl
  · rw [List.count_eq_zero_of_not_mem hmem, Nat.add_zero] at hlength
    rw [← hlength, List.getElem?_concat_length, Option.some.injEq] at hpiece
    have hne : last ≠ [] := by
      rintro rfl
      obtain ⟨hstart, hend⟩ := List.append_eq_nil_iff.mp hpiece.symm
      rcases h with hafter | ⟨c, hc, hlast⟩
      · obtain ⟨c, rest, rfl⟩ := List.exists_cons_of_ne_nil hafter
        have hc : c ≠ '\n' := fun hc => hmem (hc ▸ List.mem_cons_self)
        simp [hc] at hend
      · obtain ⟨init, rfl⟩ := List.getLast?_eq_some_iff.mp hlast
        simp [lineStart, hc] at hstart
    rw [if_neg hmem, if_neg hne, ← hlength, List.getElem?_append_right (by simp)]
    simp [hpiece]

/-- Behind the last line break there is no line. -/
theorem length_lines_of_break (cs : List Char) : (lines (cs ++ ['\n'])).length = (cs ++ ['\n']).count '\n' := by
  obtain ⟨closed, last, hparts, hlength⟩ := exists_pieces (cs ++ ['\n'])
  have hpiece := getElem?_pieces (cs ++ ['\n']) []
  rw [List.append_nil, hparts, ← hlength, List.getElem?_concat_length, Option.some.injEq] at hpiece
  have hnil : last = [] := by
    simpa [lineStart] using hpiece
  rw [lines_eq hparts, if_pos hnil]
  simp [hlength]

end Text

namespace Diagnostic

/-- The lines with numbers from `first` to `last`. -/
private theorem touched_eq (lines : List (List Char)) (first last start : Nat) :
    (lines.zipIdx start).filter (fun (_, number) => first ≤ number && number ≤ last) =
      ((lines.drop (first - start)).take (last + 1 - max first start)).zipIdx (max first start) := by
  induction lines generalizing start with
  | nil => simp
  | cons line lines ih =>
    rw [List.zipIdx_cons, List.filter_cons, ih]
    rcases Nat.lt_or_ge start first with hlt | hge
    · obtain ⟨skipped, rfl⟩ := Nat.exists_eq_add_of_lt hlt
      rw [if_neg (by rw [Bool.and_eq_true, decide_eq_true_iff]; omega),
        show start + skipped + 1 - start = skipped + 1 by omega,
        show start + skipped + 1 - (start + 1) = skipped by omega, List.drop_succ_cons,
        show max (start + skipped + 1) start = max (start + skipped + 1) (start + 1) by omega]
    · rw [Nat.max_eq_right hge, Nat.max_eq_right (Nat.le_succ_of_le hge), Nat.sub_eq_zero_of_le hge,
        Nat.sub_eq_zero_of_le (Nat.le_succ_of_le hge), List.drop_zero, List.drop_zero]
      rcases Nat.lt_or_ge last start with hlast | hlast
      · rw [if_neg (by rw [Bool.and_eq_true, decide_eq_true_iff, decide_eq_true_iff]; omega),
          show last + 1 - start = 0 by omega,
          show last + 1 - (start + 1) = 0 by omega, List.take_zero, List.take_zero]
        rfl
      · simp [hge, hlast, show last + 1 - start = last - start + 1 by omega]

theorem carets_eq (source : List Char) (span : Span) : carets source span =
    ((((Text.lines source).drop span.start.line).take
      (max span.start.line span.stop.line + 1 - span.start.line)).zipIdx span.start.line).flatMap fun row =>
        underlined span row.2 row.1 := by
  have htouched := touched_eq (Text.lines source) span.start.line (max span.start.line span.stop.line) 0
  rw [Nat.sub_zero, Nat.max_eq_left (Nat.zero_le _)] at htouched
  rw [← htouched]
  rfl

/-- The carets under the line in which a span begins come first. -/
theorem carets_cons {source line : List Char} {span : Span} (h : (Text.lines source)[span.start.line]? = some line) :
    ∃ below, carets source span = underlined span span.start.line line ++ below := by
  obtain ⟨hlt, hline⟩ := List.getElem?_eq_some_iff.mp h
  rw [carets_eq, List.drop_eq_getElem_cons hlt, hline, Nat.sub_add_comm (Nat.le_max_left _ _), List.take_succ_cons,
    List.zipIdx_cons, List.flatMap_cons]
  exact ⟨_, rfl⟩

/-- There are no carets under a line that a text does not have. -/
theorem carets_eq_nil {source : List Char} {span : Span}
    (h : (Text.lines source).length ≤ span.start.line) : carets source span = [] := by
  rw [carets_eq, List.drop_eq_nil_of_le h, List.take_nil]
  rfl

section Render

variable {d : Diagnostic} {source : String} {before after : List Char}

theorem render_eq_of_line (hsource : source.toList = before ++ after)
    (hstart : d.span.start = Position.origin.after before)
    (h : after ≠ [] ∨ ∃ c ≠ '\n', before.getLast? = some c) (fileName : String) :
    ∃ count below, 0 < count ∧ d.render fileName source =
      "\n".intercalate (d.header fileName ++ "" :: String.ofList (Text.lineAcross before after) ::
        String.ofList (List.replicate
          (min (Text.lineStart before).length (Text.lineAcross before after).length) ' ' ++
            List.replicate count '^') :: below) := by
  rw [Position.origin_after] at hstart
  have hline : (Text.lines source.toList)[d.span.start.line]? = some (Text.lineAcross before after) := by
    rw [hsource, hstart]
    exact Text.getElem?_lines h
  obtain ⟨below, hcarets⟩ := carets_cons hline
  refine ⟨(marked d.span d.span.start.line (Text.lineAcross before after).length).2,
    below.map String.ofList, Nat.lt_of_lt_of_le Nat.one_pos (Nat.le_max_right ..), ?_⟩
  rw [render, hcarets, underlined]
  simp [marked, hstart, Text.lineStart]

theorem render_eq_of_break (hsource : source.toList = before) (hstart : d.span.start = Position.origin.after before)
    (h : before.getLast? = some '\n') (fileName : String) :
    d.render fileName source = "\n".intercalate (d.header fileName ++ [""]) := by
  obtain ⟨init, rfl⟩ := List.getLast?_eq_some_iff.mp h
  rw [Position.origin_after] at hstart
  rw [render, carets_eq_nil]
  · rfl
  · rw [hsource, Text.length_lines_of_break, hstart]

end Render

end Diagnostic

/-- A place where a fault may begin so that its line is shown: a character stands behind it, or one that
is no line break right before it. -/
def Cursor.OnLine (text : Cursor) (p : Position) : Prop :=
  ∃ before after, text.rest = before ++ after ∧ p = text.place.after before ∧
    (after ≠ [] ∨ ∃ c ≠ '\n', before.getLast? = some c)

theorem Cursor.Reaches.onLine {text b : Cursor} (h : text.Reaches b) (hrest : b.rest ≠ []) : text.OnLine b.place := by
  obtain ⟨taken, htext, hplace⟩ := h
  exact ⟨taken, b.rest, htext, hplace, .inl hrest⟩

/-- Behind a brace there is a line. -/
theorem Cursor.Reaches.onLine_skip {text b : Cursor} (h : text.Reaches b) {first : Char} {others : List Char}
    (hrest : b.rest = first :: others) (hfirst : first ≠ '\n') : text.OnLine (b.skip 1).place := by
  obtain ⟨taken, htext, hplace⟩ := h
  refine ⟨taken ++ [first], others, ?_, ?_, .inr ⟨first, hfirst, by simp⟩⟩
  · rw [htext, hrest, List.append_assoc, List.singleton_append]
  · rw [Position.after_append, ← hplace, Cursor.skip, hrest]
    rfl

/-- A fault in the characters of a text begins in a line of it. -/
theorem Scan.faults_onLine (text : Cursor) : Scan.Faults text fun e => text.OnLine e.span.start where
  single hb hrest h := (single_fault h).1 ▸ hb.onLine (by simp [hrest])
  template _ hb hrest := hb.onLine (by simp [hrest])
  code _ hb hrest := hb.onLine_skip hrest (by decide)

/-- A fault of reading begins in a line of the text, or is one of parsing and begins behind a line break
at the end. -/
theorem Session.read_fault_onLine {s : Session} {source : String} {failure : Failure}
    (h : s.read source = .error (.fault failure)) :
    (Cursor.ofText source).OnLine failure.diagnostic.span.start ∨
      (∃ error, failure = .parsing error) ∧ source.toList.getLast? = some '\n' ∧
        failure.diagnostic.span.start = Position.origin.after source.toList := by
  have hread := h
  unfold read at hread
  split at hread
  next error htokens =>
    cases hread
    exact .inl ((Scan.faults_onLine _).of_tokens (.refl _) htokens)
  next => cases hread
  next tokens htokens =>
    split at hread
    next error hparse =>
      cases hread
      obtain ⟨b, ⟨before, hrest, hplace⟩, hstart⟩ := ((Program.parse_genuine htokens _).2 _ hparse).start
      have hsource : source.toList = before ++ b.rest := hrest
      by_cases hnil : b.rest = []
      · rw [hnil, List.append_nil] at hsource
        cases hlast : before.getLast? with
        | none =>
          -- Only an empty text ends where it begins, and that one is read.
          rw [List.getLast?_eq_none_iff.mp hlast, String.toList_eq_nil_iff] at hsource
          rw [hsource] at h
          cases h
        | some c =>
          by_cases hc : c = '\n'
          · exact .inr ⟨⟨error, rfl⟩, hsource ▸ hc ▸ hlast, hsource ▸ (hstart.symm.trans hplace)⟩
          · exact .inl ⟨before, b.rest, hrest, hstart.symm.trans hplace, .inr ⟨c, hc, hlast⟩⟩
      · exact .inl ⟨before, b.rest, hrest, hstart.symm.trans hplace, .inl hnil⟩
    next => cases hread
    next => cases hread

/-- How a fault of reading is shown. Below its heading and an empty line stands the line in which it begins,
then a line with carets, the first of them under the place where it begins. Nothing is there if it is a
fault of parsing that begins behind a line break at the end of the text. -/
theorem Session.read_fault_shown {s : Session} {source : String} {failure : Failure}
    (h : s.read source = .error (.fault failure)) (fileName : String) :
    ∃ before after, source.toList = before ++ after ∧
      failure.diagnostic.span.start = Position.origin.after before ∧
      if after = [] ∧ before.getLast? = some '\n' then
        (∃ error, failure = .parsing error) ∧
        failure.diagnostic.render fileName source =
          "\n".intercalate (failure.diagnostic.header fileName ++ [""])
      else
        ∃ count below, 0 < count ∧ failure.diagnostic.render fileName source =
          "\n".intercalate (failure.diagnostic.header fileName ++ "" ::
            String.ofList (Text.lineAcross before after) ::
            String.ofList (List.replicate
              (min (Text.lineStart before).length (Text.lineAcross before after).length) ' ' ++
                List.replicate count '^') :: below) := by
  rcases read_fault_onLine h with ⟨before, after, hsource, hstart, hline⟩ | ⟨hparsing, hlast, hstart⟩
  · refine ⟨before, after, hsource, hstart, ?_⟩
    rw [if_neg]
    · exact Diagnostic.render_eq_of_line hsource hstart hline fileName
    · rintro ⟨rfl, hlast⟩
      rcases hline with hnil | ⟨c, hc, hbefore⟩
      · exact hnil rfl
      · exact hc (Option.some.inj (hbefore.symm.trans hlast))
  · refine ⟨source.toList, [], (List.append_nil _).symm, hstart, ?_⟩
    rw [if_pos ⟨rfl, hlast⟩]
    exact ⟨hparsing, Diagnostic.render_eq_of_break rfl hstart hlast fileName⟩

private def failsWith (test : Failure → Bool) : Except (Stop Failure) (Program × Nat) → Bool
  | .error (.fault failure) => test failure
  | _ => false

private theorem exists_failure {s : Session} {source : String} {test : Failure → Bool}
    (h : failsWith test (s.read source) = true) :
    ∃ failure, s.read source = .error (.fault failure) ∧ test failure = true := by
  cases hread : s.read source with
  | ok => rw [hread] at h; cases h
  | error stop =>
    rw [hread] at h
    cases stop with
    | exhausted => cases h
    | fault failure => exact ⟨failure, rfl, h⟩

/-- A fault in code of a template that is not closed, in a text whose lines end with carriage returns: it
begins in front of one, behind the opening brace. -/
theorem Session.read_fault_shown_interpolation :
    let source := "x = 1\r\ny = `a\x7b\r\nx"
    ∃ failure, (Session.new 9).read source = .error (.fault failure) ∧
      failure.diagnostic.span.start = ⟨14, 1, 7⟩ ∧
      ∃ before after, source.toList = before ++ after ∧
        failure.diagnostic.span.start = Position.origin.after before ∧
        if after = [] ∧ before.getLast? = some '\n' then
          (∃ error, failure = .parsing error) ∧
          failure.diagnostic.render "<stdin>" source =
            "\n".intercalate (failure.diagnostic.header "<stdin>" ++ [""])
        else
          ∃ count below, 0 < count ∧ failure.diagnostic.render "<stdin>" source =
            "\n".intercalate (failure.diagnostic.header "<stdin>" ++ "" ::
              String.ofList (Text.lineAcross before after) ::
              String.ofList (List.replicate
                (min (Text.lineStart before).length (Text.lineAcross before after).length) ' ' ++
                  List.replicate count '^') :: below) := by
  intro source
  obtain ⟨failure, hread, hstart⟩ : ∃ failure, (Session.new 9).read source = .error (.fault failure) ∧
      decide (failure.diagnostic.span.start = ⟨14, 1, 7⟩) = true := exists_failure (by decide +kernel)
  exact ⟨failure, hread, of_decide_eq_true hstart, read_fault_shown hread "<stdin>"⟩

/-- A bracket that is not closed is shown without a caret if a line break ends the text. -/
theorem Session.read_fault_unmarked : ∃ failure, (Session.new 9).read "(\n" = .error (.fault failure) ∧
    '^' ∉ (failure.diagnostic.render "<stdin>" "(\n").toList := by
  obtain ⟨failure, hread, hmarked⟩ : ∃ failure, (Session.new 9).read "(\n" = .error (.fault failure) ∧
      decide ('^' ∉ (failure.diagnostic.render "<stdin>" "(\n").toList) = true :=
    exists_failure (by decide +kernel)
  exact ⟨failure, hread, of_decide_eq_true hmarked⟩

end ScriptLang
