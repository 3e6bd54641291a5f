import ScriptLang.Proofs.Token.Lossless
import ScriptLang.Proofs.Token.Splice

/-! Code in a template. Main statement: what stands between the braces has, as a text of its own, the
tokens of the code, and the brace that closes it is the first that none of them opens. -/
namespace ScriptLang

def Position.shifted (d p : Position) : Position :=
  ⟨d.index + p.index, d.line + p.line, if p.line = 0 then d.column + p.column else p.column⟩

theorem Position.shifted_origin (d : Position) : d.shifted .origin = d := rfl

theorem Position.steady_shifted (d : Position) : Steady d.shifted := by
  intro p c
  unfold next shifted
  split
  · simp only [Nat.add_assoc, Nat.add_one_ne_zero, if_false]
  · by_cases hline : p.line = 0
    · simp only [hline, if_true, Nat.add_assoc]
    · simp only [hline, if_false, Nat.add_assoc]

namespace Scan

variable {f : Position → Position} {tail : List Char} {a b b' c : Cursor}

/-- Trivia that end where the characters do, or before, end there whatever comes behind. -/
theorem triviaWidth_inside (inComment : Bool) (cs tail : List Char)
    (h : triviaWidth inComment (cs ++ tail) ≤ cs.length) :
    triviaWidth inComment (cs ++ tail) = triviaWidth inComment cs := by
  fun_induction triviaWidth inComment cs with
  | case1 => exact Nat.le_zero.mp h
  | case2 => simp [triviaWidth]
  | case3 c cs hc ih =>
    rw [List.cons_append, triviaWidth.eq_def] at h ⊢
    simp_all
  | case4 inComment c cs hcomment hc ih =>
    rw [List.cons_append, triviaWidth.eq_def] at h ⊢
    simp_all
  | case5 | case6 => simp_all [triviaWidth]
  | case7 inComment c cs hcomment hblank hhash hother =>
    rw [List.cons_append, triviaWidth.eq_def] at h ⊢
    simp only [hcomment, hblank, hhash, if_false, Bool.false_eq_true] at h ⊢
    split
    next more hmore =>
      -- The line break is one of `cs`: behind them it would be too far away.
      cases cs with
      | nil => simp_all
      | cons first rest => exact (hother rest rfl (by rw [(List.cons.inj hmore).1])).elim
    next => rfl

/-- A text that ends before the characters do ends there with others behind them, and the other way
round. -/
theorem textRun_inside (ends : Char → Bool) (cs more : List Char)
    (h : (textRun ends (cs ++ more)).2 < cs.length) : textRun ends (cs ++ more) = textRun ends cs := by
  refine textRun_append ends cs more ?_
  by_contra hwhole
  have := textRun_whole ends cs more (Nat.le_of_not_lt hwhole)
  omega

section

variable (h : Cursor.Extends f tail a b)

include h

/-- A cursor that is not in `tail` has the same next character without it. -/
private theorem cons_of_extends (hlong : tail.length < b.rest.length) {first : Char} {others : List Char}
    (hrest : b.rest = first :: others) : ∃ others', a.rest = first :: others' := by
  rw [h.rest] at hlong hrest
  cases ha : a.rest with
  | nil => simp [ha] at hlong
  | cons c others' =>
    rw [ha, List.cons_append] at hrest
    exact ⟨others', by rw [(List.cons.inj hrest).1]⟩

private theorem extends_onset (hlong : tail.length ≤ b.onset.rest.length) (hne : tail ≠ []) :
    Cursor.Extends f tail a.onset b.onset := by
  have hpos := List.length_pos_of_ne_nil hne
  refine h.onset ?_
  rw [h.rest]
  refine triviaWidth_inside false a.rest tail ?_
  simp only [Cursor.skip, List.length_drop, h.rest, List.length_append] at hlong
  omega

private theorem run_of_extends (hlong : tail.length < b.textEnd.rest.length) :
    textRun endsSegment b.rest = textRun endsSegment a.rest := by
  rw [h.rest]
  refine textRun_inside endsSegment a.rest tail ?_
  simp only [Cursor.skip, List.length_drop, h.rest, List.length_append] at hlong
  omega

end

/-- What is read in front of `tail` is read without it. -/
theorem Scans.recover (htail : Apart tail) (hne : tail ≠ []) {p : Piece} (h : Scans b p b')
    (hinside : tail.length ≤ b'.rest.length) (hab : Cursor.Extends f tail a b) :
    ∃ q a', Scans a q a' ∧ q.Alike (MappedBy f) p ∧ Cursor.Extends f tail a' b' := by
  induction h generalizing a with
  | ending rest => exact absurd hinside (by simpa [rest] using hne)
  | @single b first others t c rest plain found =>
    have hlong := Nat.lt_of_le_of_lt hinside ((single_found rest found).1.takes.2.1 (by simp [rest]))
    have hb := extends_onset hab (Nat.le_of_lt hlong) hne
    obtain ⟨others', ha⟩ := cons_of_extends hb hlong rest
    obtain ⟨u, a', hfound, halike, hext⟩ := (single_matches htail hb ha).recovers t c found hinside
    exact ⟨_, a', .single ha plain hfound, .token halike, hext⟩
  | @template b others segments c rest filled ih =>
    have hlong := Nat.lt_of_le_of_lt (Nat.le_trans hinside filled.reaches.length_le)
      (Cursor.length_skip_lt rest Nat.one_pos)
    have hb := extends_onset hab (Nat.le_of_lt hlong) hne
    obtain ⟨others', ha⟩ := cons_of_extends hb hlong rest
    obtain ⟨_, a', hfilled, _ | _ | halike, hext⟩ := ih hinside (hb.skip_one ha)
    exact ⟨_, a', .template ha hfilled, .token (.mk (.template halike) (hb.upTo hext)), hext⟩
  | nil => exact ⟨_, a, .nil a, .tokens .nil, hab⟩
  | cons first isEnd rest ihFirst ihRest =>
    obtain ⟨_, a', hfirst, ⟨halike⟩, hext⟩ := ihFirst (Nat.le_trans hinside rest.reaches.length_le) hab
    obtain ⟨_, c', hrest, _ | halikes, hext'⟩ := ihRest hinside hext
    exact ⟨_, c', .cons hfirst (halike.kind.isEnd_eq.trans isEnd) hrest, .tokens (.cons halike halikes), hext'⟩
  | @close b others rest =>
    have hlong := Nat.lt_of_le_of_lt hinside (Cursor.length_skip_lt rest Nat.one_pos)
    have hrun := run_of_extends hab hlong
    have hb := hab.textEnd hrun
    obtain ⟨others', ha⟩ := cons_of_extends hb hlong rest
    refine ⟨_, _, .close ha, .segments ?_, hb.skip_one ha⟩
    rw [hrun]
    exact addText_alike .nil _
  | @code b others body b₁ closing c segments d rest inside closes balanced more ihInside ihCloses ihMore =>
    have hc := Nat.le_trans hinside more.reaches.length_le
    have hb₁ := Nat.le_trans hc closes.reaches.length_le
    have hlong := Nat.lt_of_le_of_lt (Nat.le_trans hb₁ inside.reaches.length_le)
      (Cursor.length_skip_lt rest Nat.one_pos)
    have hrun := run_of_extends hab hlong
    have hb := hab.textEnd hrun
    obtain ⟨others', ha⟩ := cons_of_extends hb hlong rest
    obtain ⟨_, a₁, hinside', _ | hbody, hext⟩ := ihInside hb₁ (hb.skip_one ha)
    obtain ⟨_, c', hcloses, ⟨⟨_ | _, hspan⟩⟩, hext⟩ := ihCloses hc hext
    obtain ⟨_, d', hmore, _ | _ | hsegments, hext⟩ := ihMore hinside hext
    refine ⟨_, d', .code ha hinside' hcloses ((Balanced.alike hbody).mpr balanced) hmore, .segments ?_, hext⟩
    rw [hrun]
    refine List.rel_append (addText_alike .nil _) (.cons (.code (List.rel_append hbody ?_)) hsegments)
    exact .cons (.mk (.plain (by simp)) hspan) .nil

/-- Tokens that stand in front of `tail`, with only trivia between the last one and it, are all tokens
there are without it. -/
theorem Scans.alone {ts : List Token} (h : Scans b (.tokens ts) c) (htail : Apart tail) (hne : tail ≠ [])
    (hlast : c.onset.rest = tail) (hab : Cursor.Extends f tail a b) :
    ∃ us a', Scans a (.tokens us) a' ∧ a'.onset.rest = [] ∧ List.Forall₂ (Token.Alike (MappedBy f)) us ts := by
  have hinside : tail.length ≤ c.rest.length := hlast ▸ (Cursor.Reaches.onset c).length_le
  obtain ⟨_, a', hscans, _ | halikes, hext⟩ := h.recover htail hne hinside hab
  have hends := extends_onset hext (Nat.le_of_eq (congrArg List.length hlast).symm) hne
  exact ⟨_, a', hscans, List.append_cancel_right ((hends.rest.symm.trans hlast).trans (List.nil_append _).symm),
    halikes⟩

end Scan

/-- The tokens `code` of the text `inside`, which begins at `p` and has a closing brace behind it: those
that it has as a text of its own, shifted to `p`, and the brace for their end. Its braces are balanced, so
that no brace in it closes the code. -/
def Token.ReadAlone (p : Position) (inside : List Char) (code : List Token) : Prop :=
  ∃ us body, tokenize (String.ofList inside) = .ok (us ++ [⟨.endOfInput, .point (.after .origin inside)⟩]) ∧
    List.Forall₂ (Token.Alike (MappedBy p.shifted)) us body ∧
    code = body ++ [⟨.endOfInput, ⟨p.after inside, p.after (inside ++ ['\x7d'])⟩⟩] ∧ Token.Balanced 0 body

/-- What stands between the backticks of a template with these segments, from `p` on: texts, each up to
the next brace or backtick, and between them code in braces. -/
inductive Segment.Written : Position → List Char → List (Segment Token) → Prop
  | close {p run value} (text : Scan.textRun Scan.endsSegment (run ++ ['\x60']) = (value, run.length)) :
      Written p run (Scan.addText [] value)
  | code {p run value inside code more segments}
      (text : Scan.textRun Scan.endsSegment (run ++ ['\x7b']) = (value, run.length))
      (alone : Token.ReadAlone (p.after (run ++ ['\x7b'])) inside code)
      (rest : Written (p.after (run ++ '\x7b' :: (inside ++ ['\x7d']))) more segments) :
      Written p (run ++ '\x7b' :: (inside ++ '\x7d' :: more))
        (Scan.addText [] value ++ .code code :: segments)

namespace Scan

variable {a c : Cursor}

/-- The text in front of the character that ends it. -/
private theorem run_ends {first : Char} {others : List Char} (h : a.textEnd.rest = first :: others) :
    ∃ run, a.rest = run ++ first :: others ∧ a.textEnd = ⟨first :: others, a.place.after run⟩ ∧
      textRun endsSegment (run ++ [first]) = ((textRun endsSegment a.rest).1, run.length) := by
  have hlength : (a.rest.take (textRun endsSegment a.rest).2).length = (textRun endsSegment a.rest).2 :=
    List.length_take_of_le (textRun_le endsSegment a.rest)
  have hrest : a.rest = a.rest.take (textRun endsSegment a.rest).2 ++ first :: others := by
    rw [← h]
    exact (List.take_append_drop _ _).symm
  have hsplit : a.rest = (a.rest.take (textRun endsSegment a.rest).2 ++ [first]) ++ others := by
    rw [List.append_assoc]
    exact hrest
  have hrun := textRun_inside endsSegment (a.rest.take (textRun endsSegment a.rest).2 ++ [first]) others
    (by rw [← hsplit, List.length_append, hlength]; exact Nat.lt_succ_self _)
  refine ⟨a.rest.take (textRun endsSegment a.rest).2, hrest, ?_, ?_⟩
  · rw [← h]
    rfl
  · rw [← hrun, ← hsplit, hlength]

theorem Enclosed.alone {code : List Token} (h : Enclosed a code c) :
    ∃ inside after, a.rest = '\x7b' :: (inside ++ '\x7d' :: after) ∧
      c = ⟨after, a.place.after ('\x7b' :: (inside ++ ['\x7d']))⟩ ∧
      Token.ReadAlone (a.place.after ['\x7b']) inside code := by
  obtain ⟨others, hrest⟩ := h.opens
  obtain ⟨body, b, closing, hbody, hcloses, rfl, hbalanced⟩ := h.closes
  obtain ⟨after, hlast, rfl, rfl⟩ := closing_found hcloses
  have hopen : a.skip 1 = ⟨others, a.place.after ['\x7b']⟩ := by
    rw [Cursor.skip, hrest]
    rfl
  obtain ⟨inside, hinside, hplace⟩ := hbody.reaches.trans (.onset b)
  rw [hopen, hlast] at hinside
  rw [hopen] at hplace hbody
  have hextends : Cursor.Extends (a.place.after ['\x7b']).shifted ('\x7d' :: after)
      (.ofText (String.ofList inside)) ⟨others, a.place.after ['\x7b']⟩ := by
    refine ⟨Position.steady_shifted _, ?_, (Position.shifted_origin _).symm⟩
    rw [Cursor.ofText, String.toList_ofList]
    exact hinside
  obtain ⟨us, d, hscans, hend, hsame⟩ := hbody.alone (by simp [Apart]) (List.cons_ne_nil _ _) hlast hextends
  have hfinish := (hscans.reaches.trans (.onset d)).place_eq hend
  rw [String.toList_ofList] at hfinish
  generalize b.onset = e at hlast hplace
  obtain ⟨rest, place⟩ := e
  cases hlast
  dsimp only at hplace
  subst hplace
  refine ⟨inside, after, ?_, ?_, us, body, ?_, hsame, ?_, hbalanced⟩
  · rw [hrest]
    exact congrArg _ hinside
  · simp [Cursor.skip, Position.after_append]
  · rw [tokenize_of_scans hscans hend, Cursor.ending, Cursor.upTo, hfinish]
    rfl
  · simp [Cursor.upTo, Cursor.skip, Position.after_append]

theorem Laid.written {segments : List (Segment Token)} (h : Laid a segments c) :
    ∃ inner after, a.rest = inner ++ '\x60' :: after ∧
      c = ⟨after, a.place.after (inner ++ ['\x60'])⟩ ∧ Segment.Written a.place inner segments := by
  induction h with
  | close rest =>
    obtain ⟨run, hrest, hskip, htext⟩ := run_ends rest
    refine ⟨run, _, hrest, ?_, .close htext⟩
    rw [hskip]
    simp [Cursor.skip, Position.after_append]
  | @code a b c code segments enclosed more ih =>
    obtain ⟨inside, behind, hopen, rfl, halone⟩ := enclosed.alone
    obtain ⟨run, hrest, hskip, htext⟩ := run_ends hopen
    obtain ⟨inner, after, hmore, rfl, hwritten⟩ := ih
    rw [hskip] at halone hwritten
    cases hmore
    rw [← Position.after_append] at halone hwritten
    refine ⟨run ++ '\x7b' :: (inside ++ '\x7d' :: inner), after, ?_, ?_, .code htext halone hwritten⟩
    · simp [hrest]
    · simp [hskip, Position.after_append]

end Scan

/-- Every template of a text, however deep in the code of others, stands there as its segments are
written, and what stands in the braces of its code is read as if it stood alone. -/
theorem tokenize_reads_alone {source : String} {tokens : List Token} (h : tokenize source = .ok tokens)
    {t : Token} (ht : t.StandsIn tokens) {segments : List (Segment Token)}
    (hkind : t.kind = .template segments) :
    ∃ before inner after, source.toList = before ++ '\x60' :: (inner ++ '\x60' :: after) ∧
      t.span = ⟨.after .origin before, .after .origin (before ++ '\x60' :: (inner ++ ['\x60']))⟩ ∧
      Segment.Written (.after .origin (before ++ ['\x60'])) inner segments := by
  have htraced := Scan.traced (Scan.tokens_traced (.refl _) h) ht
  obtain ⟨b, c, others, hb, hopens, hlaid, hspan⟩ := htraced.laid hkind
  obtain ⟨before, hbefore, hplace⟩ := hb
  obtain ⟨inner, after, hinner, rfl, hwritten⟩ := hlaid.written
  have hopen : b.skip 1 = ⟨others, .after .origin (before ++ ['\x60'])⟩ := by
    rw [Cursor.skip, hopens, hplace, Position.after_append]
    rfl
  rw [hopen] at hinner hwritten hspan
  refine ⟨before, inner, after, ?_, ?_, hwritten⟩
  · rw [show source.toList = before ++ b.rest from hbefore, hopens, ← hinner]
  · rw [hspan, Cursor.upTo, hplace]
    simp [Position.after_append, Cursor.ofText]

/-- A template in the code of another one, with a brace in the comment behind it. -/
theorem tokenize_reads_alone_nested :
    let source := "`a\x7b`\x7bx\x7d` # \x7d\n\x7d`"
    let code : List Token := [⟨.identifier "x", ⟨⟨5, 0, 5⟩, ⟨6, 0, 6⟩⟩⟩, ⟨.endOfInput, ⟨⟨6, 0, 6⟩, ⟨7, 0, 7⟩⟩⟩]
    ∃ before inner after, source.toList = before ++ '\x60' :: (inner ++ '\x60' :: after) ∧
      (⟨⟨3, 0, 3⟩, ⟨8, 0, 8⟩⟩ : Span) =
        ⟨.after .origin before, .after .origin (before ++ '\x60' :: (inner ++ ['\x60']))⟩ ∧
      Segment.Written (.after .origin (before ++ ['\x60'])) inner [.code code] := by
  intro source code
  have hok : tokenize source = .ok [⟨.template [.text "a", .code [
      ⟨.template [.code code], ⟨⟨3, 0, 3⟩, ⟨8, 0, 8⟩⟩⟩, ⟨.newline, ⟨⟨12, 0, 12⟩, ⟨13, 1, 0⟩⟩⟩,
      ⟨.endOfInput, ⟨⟨13, 1, 0⟩, ⟨14, 1, 1⟩⟩⟩]], ⟨⟨0, 0, 0⟩, ⟨15, 1, 2⟩⟩⟩,
      ⟨.endOfInput, ⟨⟨15, 1, 2⟩, ⟨15, 1, 2⟩⟩⟩] := by
    have hchars : source.toList = ['\x60', 'a', '\x7b', '\x60', '\x7b', 'x', '\x7d', '\x60', ' ', '#', ' ', '\x7d',
        '\n', '\x7d', '\x60'] := by
      decide +kernel
    rw [tokenize, Cursor.ofText, ← String.length_toList, hchars]
    rfl
  exact tokenize_reads_alone hok (.deeper (.here (.head _)) rfl (.tail _ (.head _)) (.head _)) rfl

end ScriptLang
