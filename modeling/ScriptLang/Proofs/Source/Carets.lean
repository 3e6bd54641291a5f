import ScriptLang.Proofs.Source.Shown

/-! Carets under the text of a span. Main statement: they stand under the characters whose bytes the span holds,
line by line. Places of one text come in the same order by their bytes as by their lines and columns. -/
namespace ScriptLang

variable {source : String} {number column : Nat}

namespace Position

def Before (p q : Position) : Prop := p.line < q.line ∨ p.line = q.line ∧ p.column < q.column

theorem next_later (p : Position) (c : Char) : p.index < (p.next c).index ∧ p.Before (p.next c) := by
  have hsize := c.utf8Size_pos
  unfold next Before
  split <;> simp <;> omega

/-- A place behind further characters comes later, by bytes and by lines and columns. -/
theorem after_later (p : Position) (c : Char) (cs : List Char) :
    p.index < (p.after (c :: cs)).index ∧ p.Before (p.after (c :: cs)) := by
  induction cs generalizing p c with
  | nil => exact p.next_later c
  | cons d cs ih =>
    have hfirst := p.next_later c
    have hlater := ih (p.next c) d
    rw [after_cons]
    unfold Before at *
    omega

theorem Within.exists_after {p : Position} (h : p.Within source) :
    ∃ before after, source.toList = before ++ after ∧ p = origin.after before := by
  obtain ⟨before, after, hsource, hindex, hline, hcolumn⟩ := h
  refine ⟨before, after, hsource, ?_⟩
  rw [origin_after, ← hindex, ← hline, ← hcolumn]

theorem Within.index_lt_iff {p q : Position} (hp : p.Within source) (hq : q.Within source) :
    p.index < q.index ↔ p.Before q := by
  obtain ⟨before, after, hbefore, rfl⟩ := hp.exists_after
  obtain ⟨other, rest, hother, rfl⟩ := hq.exists_after
  have hprefix := List.prefix_or_prefix_of_prefix (hbefore ▸ List.prefix_append before after)
    (hother ▸ List.prefix_append other rest)
  have hlater (cs ds : List Char) (hcs : cs <+: ds) : origin.after cs = origin.after ds ∨
      (origin.after cs).index < (origin.after ds).index ∧ (origin.after cs).Before (origin.after ds) := by
    obtain ⟨tail, rfl⟩ := hcs
    rw [after_append]
    cases tail with
    | nil => exact .inl rfl
    | cons c tail => exact .inr (after_later _ c tail)
  unfold Before at hlater ⊢
  rcases hprefix with h | h <;> rcases hlater _ _ h with heq | hlt
  all_goals first | rw [heq] | skip
  all_goals omega

end Position

namespace Text

/-- Every column of a piece is a place of the text. -/
theorem exists_place {cs piece : List Char} (h : (pieces cs)[number]? = some piece)
    (hcolumn : column ≤ piece.length) :
    ∃ before after, cs = before ++ after ∧ before.count '\n' = number ∧ (lineStart before).length = column := by
  induction cs generalizing number column piece with
  | nil =>
    obtain ⟨rfl, rfl⟩ : number = 0 ∧ piece = [] := by
      cases number with
      | zero => exact ⟨rfl, (Option.some.inj h).symm⟩
      | succ => cases h
    exact ⟨[], [], rfl, rfl, (Nat.le_zero.mp hcolumn).symm⟩
  | cons c cs ih =>
    by_cases hc : c = '\n'
    · subst hc
      cases number with
      | zero =>
        cases h
        exact ⟨[], _, rfl, rfl, (Nat.le_zero.mp hcolumn).symm⟩
      | succ number =>
        obtain ⟨before, after, rfl, hcount, hlength⟩ := ih h hcolumn
        refine ⟨'\n' :: before, after, rfl, ?_, ?_⟩
        · rw [List.count_cons_self, hcount]
        · rw [lineStart_break, hlength]
    · rw [pieces, if_neg hc] at h
      obtain ⟨first, others, hparts⟩ := List.exists_cons_of_length_pos
        (Nat.lt_of_lt_of_eq (Nat.succ_pos _) (length_pieces cs).symm)
      rw [hparts] at h ih
      cases number with
      | zero =>
        cases h
        cases column with
        | zero => exact ⟨[], _, rfl, rfl, rfl⟩
        | succ column =>
          obtain ⟨before, after, rfl, hcount, hlength⟩ := ih (show (first :: others)[0]? = some first from rfl)
            (Nat.le_of_succ_le_succ hcolumn)
          have hbefore := List.count_eq_zero.mp hcount
          have hall : '\n' ∉ c :: before := by simp [Ne.symm hc, hbefore]
          rw [lineStart_of_not_mem hbefore] at hlength
          refine ⟨c :: before, after, rfl, List.count_eq_zero.mpr hall, ?_⟩
          rw [lineStart_of_not_mem hall, List.length_cons, hlength]
      | succ number =>
        obtain ⟨before, after, rfl, hcount, hlength⟩ :=
          ih (show (first :: others)[number + 1]? = some piece from h) hcolumn
        have hbefore : '\n' ∈ before := List.count_pos_iff.mp (hcount ▸ Nat.succ_pos _)
        refine ⟨c :: before, after, rfl, ?_, ?_⟩
        · rw [List.count_cons_of_ne hc, hcount]
        · rw [lineStart_cons_of_mem hbefore, hlength]

theorem length_dropReturn_le (cs : List Char) : (dropReturn cs).length ≤ cs.length := by
  unfold dropReturn
  split <;> simp

/-- A line is a piece, but for a carriage return. -/
theorem exists_piece {cs line : List Char} {number : Nat} (h : (lines cs)[number]? = some line) :
    ∃ piece, (pieces cs)[number]? = some piece ∧ line.length ≤ piece.length := by
  obtain ⟨closed, last, hparts, -⟩ := exists_pieces cs
  rw [lines_eq hparts] at h
  rw [hparts]
  rcases Nat.lt_or_ge number closed.length with hlt | hge
  · rw [List.getElem?_append_left (by simpa using hlt), List.getElem?_map] at h
    obtain ⟨piece, hpiece, rfl⟩ := Option.map_eq_some_iff.mp h
    exact ⟨piece, by rw [List.getElem?_append_left hlt, hpiece], length_dropReturn_le piece⟩
  · rw [List.getElem?_append_right (by simpa using hge), List.length_map] at h
    rw [List.getElem?_append_right hge]
    split at h
    · cases h
    · exact ⟨line, h, Nat.le_refl _⟩

end Text

/-- The character in a column of a line has its bytes in a span. -/
def Span.Marks (source : String) (span : Span) (line column : Nat) : Prop :=
  ∃ p : Position, p.Within source ∧ p.line = line ∧ p.column = column ∧
    span.start.index ≤ p.index ∧ p.index < span.stop.index

/-- A column of a line stands in a span by the lines and columns of its ends. -/
theorem Span.marks_iff {span : Span} (h : span.Within source) {line : List Char}
    (hline : (Text.lines source.toList)[number]? = some line)
    (hcolumn : column < line.length) : span.Marks source number column ↔
      ¬ (number < span.start.line ∨ number = span.start.line ∧ column < span.start.column) ∧
      (number < span.stop.line ∨ number = span.stop.line ∧ column < span.stop.column) := by
  constructor
  · rintro ⟨p, hp, rfl, rfl, hstart, hstop⟩
    exact ⟨mt (hp.index_lt_iff h.start).mpr (Nat.not_lt.mpr hstart), (hp.index_lt_iff h.stop).mp hstop⟩
  · rintro ⟨hstart, hstop⟩
    obtain ⟨piece, hpiece, hlength⟩ := Text.exists_piece hline
    obtain ⟨before, after, hsource, rfl, rfl⟩ := Text.exists_place hpiece (Nat.le_trans hcolumn.le hlength)
    obtain ⟨p, hp, hplace⟩ : ∃ p : Position, p.Within source ∧
        p.line = before.count '\n' ∧ p.column = (Text.lineStart before).length := by
      refine ⟨⟨_, _, _⟩, ⟨before, after, hsource, rfl, rfl, ?_⟩, rfl, rfl⟩
      rw [Text.lineStart, List.length_reverse]
    rw [← hplace.1, ← hplace.2] at hstart hstop
    exact ⟨p, hp, hplace.1, hplace.2, Nat.not_lt.mp (mt (hp.index_lt_iff h.start).mp hstart),
      (hp.index_lt_iff h.stop).mpr hstop⟩

namespace Diagnostic

def clipped (span : Span) (number width : Nat) : Nat :=
  if number = span.start.line then min span.start.column width else 0

/-- Blanks and carets under a line of a text: the carets stand under the characters that a span holds, or there is
one caret if it holds none, and nothing comes behind them. -/
structure Underlines (source : String) (span : Span) (number : Nat) (line marks : List Char) : Prop where
  blank : ∀ c ∈ marks, c = ' ' ∨ c = '^'
  last : marks.getLast? = some '^'
  under : ∀ i, marks[i]? = some '^' ↔ i < line.length ∧ span.Marks source number i ∨
    (¬ ∃ j < line.length, span.Marks source number j) ∧ i = clipped span number line.length

def underline (span : Span) (number : Nat) (line : List Char) : List Char :=
  let (first, count) := marked span number line.length
  List.replicate first ' ' ++ List.replicate count '^'

theorem underline_underlines {span : Span} (h : span.Within source) {line : List Char} {number : Nat}
    (hline : (Text.lines source.toList)[number]? = some line) (hfirst : span.start.line ≤ number)
    (hlast : number ≤ span.stop.line) : Underlines source span number line (underline span number line) := by
  generalize hclip : clipped span number line.length = first
  obtain ⟨behind, hbehind⟩ : ∃ behind, behind =
      if number = span.stop.line then min span.stop.column line.length else line.length := ⟨_, rfl⟩
  have hle : behind ≤ line.length := by
    rw [hbehind]
    split <;> omega
  have hmarks (i : Nat) (hi : i < line.length) : span.Marks source number i ↔ first ≤ i ∧ i < behind := by
    rw [span.marks_iff h hline hi, ← hclip, clipped, hbehind]
    split <;> split <;> omega
  have hrow : underline span number line =
      List.replicate first ' ' ++ List.replicate (max (behind - first) 1) '^' := by
    rw [← hclip, hbehind]
    rfl
  have hcaret (i : Nat) :
      (underline span number line)[i]? = some '^' ↔ first ≤ i ∧ i < first + max (behind - first) 1 := by
    rw [hrow, List.getElem?_append, List.length_replicate, List.getElem?_replicate, List.getElem?_replicate]
    split
    · simp
      omega
    · split <;> simp <;> omega
  refine ⟨fun c hc => ?_, ?_, fun i => (hcaret i).trans ?_⟩
  · rw [hrow, List.mem_append, List.mem_replicate, List.mem_replicate] at hc
    exact hc.imp And.right And.right
  · rw [hrow, List.getLast?_append, List.getLast?_replicate, if_neg (by omega)]
    rfl
  · rw [hclip]
    rcases Nat.lt_or_ge first behind with hsome | hnone
    · have hheld : ∃ j < line.length, span.Marks source number j :=
        ⟨first, by omega, (hmarks first (by omega)).mpr ⟨Nat.le_refl _, hsome⟩⟩
      constructor
      · rintro ⟨hge, hlt⟩
        exact .inl ⟨by omega, (hmarks i (by omega)).mpr ⟨hge, by omega⟩⟩
      · rintro (⟨hi, hmarked⟩ | ⟨hno, -⟩)
        · have := (hmarks i hi).mp hmarked
          omega
        · exact absurd hheld hno
    · have hno : ¬ ∃ j < line.length, span.Marks source number j := by
        rintro ⟨j, hj, hmarked⟩
        have := (hmarks j hj).mp hmarked
        omega
      constructor
      · exact fun hi => .inr ⟨hno, by omega⟩
      · rintro (⟨hi, hmarked⟩ | ⟨-, rfl⟩)
        · exact absurd ⟨i, hi, hmarked⟩ hno
        · omega

/-- The carets of a span show the lines from its first to its last, each with carets under the characters whose
bytes the span holds, or with one caret if it holds none of the line. -/
theorem carets_under_span {source : String} {span : Span} (h : span.Within source) :
    ∃ shown : List (List Char × List Char),
      carets source.toList span = shown.flatMap (fun row => [row.1, row.2]) ∧
      shown.map (·.1) =
        ((Text.lines source.toList).drop span.start.line).take (span.stop.line + 1 - span.start.line) ∧
      ∀ k line marks, shown[k]? = some (line, marks) →
        Underlines source span (span.start.line + k) line marks := by
  have horder : span.start.line ≤ span.stop.line := by
    have hnot := mt (h.stop.index_lt_iff h.start).mpr (Nat.not_lt.mpr h.order)
    unfold Position.Before at hnot
    omega
  refine ⟨((((Text.lines source.toList).drop span.start.line).take
    (span.stop.line + 1 - span.start.line)).zipIdx span.start.line).map fun row =>
      (row.1, underline span row.2 row.1), ?_, ?_, ?_⟩
  · rw [List.flatMap_map, carets_eq, Nat.max_eq_right horder]
    rfl
  · rw [List.map_map]
    exact List.zipIdx_map_fst _ _
  · intro k line marks hrow
    rw [List.getElem?_map] at hrow
    obtain ⟨⟨_, number⟩, hplace, heq⟩ := Option.map_eq_some_iff.mp hrow
    cases heq
    rw [List.getElem?_zipIdx] at hplace
    obtain ⟨_, hline, heq⟩ := Option.map_eq_some_iff.mp hplace
    cases heq
    rw [List.getElem?_take] at hline
    split at hline
    next hk =>
      rw [List.getElem?_drop] at hline
      exact underline_underlines h hline (Nat.le_add_right ..) (by omega)
    next => cases hline

/-- A span from the end of a line over an empty one into a third. -/
theorem carets_under_span_three_lines : let span : Span := ⟨⟨2, 0, 1⟩, ⟨7, 2, 1⟩⟩
    ∃ shown : List (List Char × List Char),
      carets "é+\r\n\nab".toList span = shown.flatMap (fun row => [row.1, row.2]) ∧
      shown.map (·.1) = [['é', '+'], [], ['a', 'b']] ∧
      ∀ k line marks, shown[k]? = some (line, marks) → Underlines "é+\r\n\nab" span k line marks := by
  intro span
  have hspan : span.Within "é+\r\n\nab" :=
    ⟨⟨['é'], ['+', '\r', '\n', '\n', 'a', 'b'], by decide, by decide, by decide, by decide⟩,
      ⟨['é', '+', '\r', '\n', '\n', 'a'], ['b'], by decide, by decide, by decide, by decide⟩, by decide⟩
  obtain ⟨shown, hcarets, hlines, hrows⟩ := carets_under_span hspan
  have hthree : ((Text.lines "é+\r\n\nab".toList).drop span.start.line).take
      (span.stop.line + 1 - span.start.line) = [['é', '+'], [], ['a', 'b']] := by decide
  refine ⟨shown, hcarets, hlines.trans hthree, fun k line marks hrow => ?_⟩
  simpa [span] using hrows k line marks hrow

end Diagnostic

end ScriptLang
