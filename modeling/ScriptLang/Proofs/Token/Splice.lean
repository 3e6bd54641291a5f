import Mathlib.Data.List.Find
import ScriptLang.Proofs.Token.Alike
import ScriptLang.Proofs.Token.Placed

/-! Scanning a text in front of a line break, and behind another text. Main statement: its tokens are
those of the text alone, moved to where it stands. -/
namespace ScriptLang

/-- What can stand behind a text without a change to its tokens: nothing, or a line break first. -/
def Separate (tail : List Char) : Prop := ∀ c ∈ tail.head?, c = '\n'

/-- What can stand behind a text without a change to the width of its last token: nothing, or first a
line break or a closing brace. -/
def Apart (tail : List Char) : Prop := ∀ c ∈ tail.head?, c = '\n' ∨ c = '\x7d'

theorem Separate.apart {tail : List Char} (h : Separate tail) : Apart tail := fun c hc => .inl (h c hc)

/-- The cursor `b` is `a` in a text with `tail` behind it, where `f` gives its place. -/
structure Cursor.Extends (f : Position → Position) (tail : List Char) (a b : Cursor) : Prop where
  steady : Position.Steady f
  rest : b.rest = a.rest ++ tail
  place : b.place = f a.place

variable {f : Position → Position} {tail : List Char} {a b a' b' : Cursor} {others : List Char}
  {first : Char}

namespace Cursor.Extends

variable (h : Extends f tail a b)

include h

theorem skip {n : Nat} (hn : n ≤ a.rest.length) : Extends f tail (a.skip n) (b.skip n) := by
  refine ⟨h.steady, ?_, ?_⟩
  · simp only [Cursor.skip, h.rest, List.drop_append_of_le_length hn]
  · simp only [Cursor.skip, h.rest, h.place, List.take_append_of_le_length hn, h.steady.after]

theorem upTo (h' : Extends f tail a' b') : MappedBy f (a.upTo a') (b.upTo b') := by
  simp only [MappedBy, Cursor.upTo, Span.map, h.place, h'.place]

/-- The same first character. -/
theorem cons (hrest : a.rest = first :: others) : b.rest = first :: (others ++ tail) := by
  rw [h.rest, hrest, List.cons_append]

theorem skip_one (hrest : a.rest = first :: others) : Extends f tail (a.skip 1) (b.skip 1) :=
  h.skip (by simp [hrest])

theorem onset (hwidth : Scan.triviaWidth false b.rest = Scan.triviaWidth false a.rest) :
    Extends f tail a.onset b.onset := by
  unfold Cursor.onset
  rw [hwidth]
  exact h.skip (Scan.triviaWidth_le false a.rest)

theorem textEnd (hrun : Scan.textRun Scan.endsSegment b.rest = Scan.textRun Scan.endsSegment a.rest) :
    Extends f tail a.textEnd b.textEnd := by
  unfold Cursor.textEnd
  rw [hrun]
  exact h.skip (Scan.textRun_le Scan.endsSegment a.rest)

end Cursor.Extends

namespace Scan

variable {cs : List Char} {c : Char}

private theorem triviaWidth_separate (htail : Separate tail) (inComment : Bool) : triviaWidth inComment tail = 0 := by
  cases tail with
  | nil => rfl
  | cons c more =>
    obtain rfl : c = '\n' := htail c rfl
    cases inComment <;> simp [triviaWidth]

/-- A backslash at the end would take the line break behind it. -/
theorem triviaWidth_append (htail : Separate tail) (inComment : Bool) (cs : List Char)
    (h : cs.drop (triviaWidth inComment cs) ≠ ['\\']) :
    triviaWidth inComment (cs ++ tail) = triviaWidth inComment cs := by
  fun_induction triviaWidth inComment cs with
  | case1 => exact triviaWidth_separate htail _
  | case2 => simp [triviaWidth]
  | case3 c cs hc ih =>
    rw [List.cons_append, triviaWidth.eq_def]
    simp [hc, ih h]
  | case4 inComment c cs hcomment hc ih =>
    rw [List.cons_append, triviaWidth.eq_def]
    simp_all
  | case5 | case6 => simp_all [triviaWidth]
  | case7 inComment c cs hcomment hblank hhash hother =>
    rw [List.cons_append, triviaWidth.eq_def]
    have hstop : ∀ more, c = '\\' → cs ++ tail = '\n' :: more → False := by
      rintro more rfl hmore
      cases cs with
      | nil => exact h rfl
      | cons first rest => exact hother rest rfl (by rw [(List.cons.inj hmore).1])
    simp only [hcomment, hblank, hhash]
    split <;> simp_all

private theorem startsWithDigit_append (htail : Apart tail) (cs : List Char) :
    startsWithDigit (cs ++ tail) = startsWithDigit cs := by
  cases cs with
  | cons => rfl
  | nil =>
    cases tail with
    | nil => rfl
    | cons c more =>
      rcases htail c rfl with rfl | rfl <;> rfl

private theorem startsWithNumber_cons (hc : c ≠ '.') (cs : List Char) : startsWithNumber (c :: cs) = c.isDigit := by
  rw [startsWithNumber]
  · rfl
  · rintro rest h
    exact hc (List.cons.inj h).1

theorem startsWithNumber_append (htail : Apart tail) (h : cs ≠ []) :
    startsWithNumber (cs ++ tail) = startsWithNumber cs := by
  obtain ⟨c, cs, rfl⟩ := List.exists_cons_of_ne_nil h
  by_cases hc : c = '.'
  · subst hc
    exact startsWithDigit_append htail cs
  · rw [List.cons_append, startsWithNumber_cons hc, startsWithNumber_cons hc]

private theorem numberWidth_append (htail : Apart tail) (pointSeen : Bool) (cs : List Char) :
    numberWidth pointSeen (cs ++ tail) = numberWidth pointSeen cs := by
  induction cs generalizing pointSeen with
  | nil =>
    cases tail with
    | nil => rfl
    | cons c more =>
      rcases htail c rfl with rfl | rfl <;> simp [numberWidth]
  | cons c cs ih =>
    rw [List.cons_append, numberWidth, numberWidth, ih, ih, startsWithDigit_append htail]

private theorem takeWhile_append (htail : Apart tail) (cs : List Char) :
    (cs ++ tail).takeWhile continuesName = cs.takeWhile continuesName := by
  induction cs with
  | nil =>
    cases tail with
    | nil => rfl
    | cons c more =>
      rcases htail c rfl with rfl | rfl <;> rfl
  | cons c cs ih =>
    rw [List.cons_append, List.takeWhile_cons, List.takeWhile_cons, ih]

theorem textRun_cons (ends : Char → Bool) (hc : c ≠ '\\') (cs : List Char) :
    textRun ends (c :: cs) = if ends c then ([], 0) else (c :: (textRun ends cs).1, (textRun ends cs).2 + 1) := by
  rw [textRun]
  · rintro rfl
    exact absurd rfl hc
  · rintro _ _ rfl
    exact absurd rfl hc

private theorem ne_backslash (hlast : c = '\\' → cs = [] → False)
    (hescape : ∀ first rest, c = '\\' → cs = first :: rest → False) : c ≠ '\\' := by
  intro hc
  cases cs with
  | nil => exact hlast hc rfl
  | cons first rest => exact hescape first rest hc rfl

/-- A text that ends before the characters do ends there whatever comes behind them. -/
theorem textRun_append (ends : Char → Bool) (cs more : List Char)
    (h : (textRun ends cs).2 < cs.length) : textRun ends (cs ++ more) = textRun ends cs := by
  induction cs using textRun.induct ends with
  | case1 | case2 => simp [textRun] at h
  | case3 c cs _ _ _ ih =>
    have hcs : (textRun ends cs).2 < cs.length := by simpa [textRun] using h
    simp only [List.cons_append, textRun, ih hcs]
  | case4 c cs hlast hescape hends =>
    have hc := ne_backslash hlast hescape
    rw [List.cons_append, textRun_cons ends hc, textRun_cons ends hc, if_pos hends, if_pos hends]
  | case5 c cs hlast hescape hends _ _ _ ih =>
    have hc := ne_backslash hlast hescape
    rw [textRun_cons ends hc, if_neg hends] at h
    rw [List.cons_append, textRun_cons ends hc, textRun_cons ends hc, if_neg hends, if_neg hends,
      ih (Nat.lt_of_succ_lt_succ h)]

/-- A text that does not end before the characters do takes all of them whatever comes behind. -/
theorem textRun_whole (ends : Char → Bool) (cs more : List Char)
    (h : cs.length ≤ (textRun ends cs).2) : cs.length ≤ (textRun ends (cs ++ more)).2 := by
  induction cs using textRun.induct ends with
  | case1 => exact Nat.zero_le _
  | case2 => cases more <;> simp [textRun]
  | case3 c cs _ _ _ ih =>
    have hcs := ih (by simpa [textRun] using h)
    simpa [textRun] using hcs
  | case4 c cs hlast hescape hends =>
    rw [textRun_cons ends (ne_backslash hlast hescape), if_pos hends] at h
    cases h
  | case5 c cs hlast hescape hends _ _ _ ih =>
    have hc := ne_backslash hlast hescape
    rw [textRun_cons ends hc, if_neg hends] at h
    rw [List.cons_append, textRun_cons ends hc, if_neg hends]
    exact Nat.succ_le_succ (ih (Nat.le_of_succ_le_succ h))

private theorem isPrefixOf_append {spelling : List Char} (hs : ∀ c ∈ tail.head?, c ∉ spelling)
    (cs : List Char) : spelling.isPrefixOf (cs ++ tail) = spelling.isPrefixOf cs := by
  induction spelling generalizing cs with
  | nil => simp
  | cons first rest ih =>
    cases cs with
    | cons c cs =>
      have hrest : ∀ d ∈ tail.head?, d ∉ rest := fun d hd hmem => hs d hd (.tail first hmem)
      simp only [List.cons_append, List.isPrefixOf, ih hrest]
    | nil =>
      cases tail with
      | nil => rfl
      | cons c more =>
        have hfirst : first ≠ c := fun h => hs c rfl (h ▸ .head rest)
        simp [List.isPrefixOf, hfirst]

/-- No symbol goes on with a line break or a brace. -/
private theorem munch?_append (htail : Apart tail) (hne : cs ≠ []) :
    Symbol.munch? (cs ++ tail) = Symbol.munch? cs := by
  obtain ⟨c, cs, rfl⟩ := List.exists_cons_of_ne_nil hne
  unfold Symbol.munch?
  congr 1
  refine List.find?_congr fun rule hrule => ?_
  have hpatterns : ∀ rule ∈ Symbol.rules, rule.1 ≠ [] ∧ '\n' ∉ rule.1.tail ∧ '\x7d' ∉ rule.1.tail := by decide
  obtain ⟨hpattern, hbreak, hbrace⟩ := hpatterns rule hrule
  obtain ⟨first, rest, heq⟩ := List.exists_cons_of_ne_nil hpattern
  rw [heq, List.tail_cons] at hbreak hbrace
  have hrest : ∀ d ∈ tail.head?, d ∉ rest := by
    intro d hd
    rcases htail d hd with rfl | rfl
    · exact hbreak
    · exact hbrace
  simp only [heq, List.cons_append, List.isPrefixOf, isPrefixOf_append hrest]

/-- Scanners of which the second one gives what the first one gives, where the text stands. All that it gives
without going into `tail` is given by the first one. -/
structure Matches (f : Position → Position) (tail : List Char) (x y : Scan (Token × Cursor)) : Prop where
  follows : ∀ t a, x = .ok (t, a) →
    ∃ u b, y = .ok (u, b) ∧ Token.Alike (MappedBy f) t u ∧ Cursor.Extends f tail a b
  recovers : ∀ u b, y = .ok (u, b) → tail.length ≤ b.rest.length →
    ∃ t a, x = .ok (t, a) ∧ Token.Alike (MappedBy f) t u ∧ Cursor.Extends f tail a b

namespace Matches

theorem pure {t u : Token} (hr : Token.Alike (MappedBy f) t u) (h : Cursor.Extends f tail a b) :
    Matches f tail (pure (t, a)) (pure (u, b)) := by
  constructor
  · rintro _ _ ⟨⟩
    exact ⟨u, b, rfl, hr, h⟩
  · rintro _ _ ⟨⟩ -
    exact ⟨t, a, rfl, hr, h⟩

theorem fault (cause cause' : LexCause) (span span' : Span) :
    Matches f tail (fault cause span) (fault cause' span') := ⟨nofun, nofun⟩

end Matches

section

variable (h : Cursor.Extends f tail a b)

include h

theorem number_matches (htail : Apart tail) : Matches f tail (number a) (number b) := by
  have hwidth : numberWidth false b.rest = numberWidth false a.rest := by
    rw [h.rest, numberWidth_append htail]
  have hle := numberWidth_le false a.rest
  have htake : b.rest.take (numberWidth false a.rest) = a.rest.take (numberWidth false a.rest) := by
    rw [h.rest, List.take_append_of_le_length hle]
  unfold number
  simp only [hwidth, htake]
  split
  · exact .pure (.mk (.plain (by simp)) (h.upTo (h.skip hle))) (h.skip hle)
  · exact .fault _ _ _ _

theorem word_matches (htail : Apart tail) : Matches f tail (pure (word a)) (pure (word b)) := by
  have hname : b.rest.takeWhile continuesName = a.rest.takeWhile continuesName := by
    rw [h.rest, takeWhile_append htail]
  have hle := word_le a.rest
  unfold word
  simp only [hname]
  split
  · exact .pure (.mk (.plain (by simp)) (h.upTo (h.skip hle))) (h.skip hle)
  · exact .pure (.mk (.plain (by simp)) (h.upTo (h.skip hle))) (h.skip hle)

theorem text_matches (quote : Char) (hne : a.rest ≠ []) : Matches f tail (text quote a) (text quote b) := by
  have hopen := h.skip (List.length_pos_of_ne_nil hne)
  unfold text
  generalize a.skip 1 = a₁, b.skip 1 = b₁ at hopen
  have hle := textRun_le (· = quote) a₁.rest
  by_cases hend : (textRun (· = quote) a₁.rest).2 < a₁.rest.length
  · have hrun := textRun_append (· = quote) a₁.rest tail hend
    rw [← hopen.rest] at hrun
    have hclose := hopen.skip hle
    have hmore : (a₁.skip (textRun (· = quote) a₁.rest).2).rest ≠ [] := by
      simpa [Cursor.skip] using hend
    have hbehind := hclose.skip (List.length_pos_of_ne_nil hmore)
    simp only [hrun, hclose.rest, List.isEmpty_iff, List.append_eq_nil_iff, hmore, false_and,
      if_false]
    exact .pure (.mk (.plain (by simp)) (h.upTo hbehind)) hbehind
  · have hnone : (a₁.skip (textRun (· = quote) a₁.rest).2).rest = [] := by
      simpa [Cursor.skip] using hend
    simp only [hnone, List.isEmpty_nil, if_true]
    refine ⟨fun _ _ hok => (by cases hok), ?_⟩
    -- The text that goes on behind `a` takes a quote of the tail.
    have hwhole := textRun_whole (· = quote) a₁.rest tail (Nat.le_of_not_lt hend)
    rw [← hopen.rest] at hwhole
    split
    · rintro _ _ ⟨⟩
    next hmore =>
      rintro _ _ ⟨⟩ hinside
      have hlength : b₁.rest.length = a₁.rest.length + tail.length := by
        rw [hopen.rest, List.length_append]
      simp only [Cursor.skip, List.isEmpty_iff, List.drop_eq_nil_iff, List.length_drop] at hmore hinside
      omega

theorem sign_matches (htail : Apart tail) (first : Char) (hne : a.rest ≠ []) :
    Matches f tail (sign first a) (sign first b) := by
  have hone := h.skip (List.length_pos_of_ne_nil hne)
  unfold sign
  rw [h.rest, munch?_append htail hne]
  split
  · exact .pure (.mk (.plain (by simp)) (h.upTo hone)) hone
  · split
    next symbol width hmunch =>
      have hbehind := h.skip (munch?_length_le hmunch)
      exact .pure (.mk (.plain (by simp)) (h.upTo hbehind)) hbehind
    next => exact .fault _ _ _ _

end

theorem addText_alike {P : Token → Token → Prop} {segments segments' : List (Segment Token)}
    (h : List.Forall₂ (Segment.Alike P) segments segments') (value : List Char) :
    List.Forall₂ (Segment.Alike P) (addText segments value) (addText segments' value) := by
  unfold addText
  split
  · exact h
  · exact .cons (.text _) h

/-- A token that is no template, with more characters behind it or not. -/
theorem single_matches (htail : Apart tail) (h : Cursor.Extends f tail a b) (hrest : a.rest = first :: others) :
    Matches f tail (single first a) (single first b) := by
  have hne : a.rest ≠ [] := by simp [hrest]
  unfold single
  rw [h.rest, startsWithNumber_append htail hne]
  split
  · exact number_matches h htail
  split
  · exact word_matches h htail
  split
  · exact text_matches h first hne
  · exact sign_matches h htail first hne

inductive Piece.Alike (R : Span → Span → Prop) : Piece → Piece → Prop
  | token {t u} (h : Token.Alike R t u) : Alike R (.token t) (.token u)
  | tokens {ts us} (h : List.Forall₂ (Token.Alike R) ts us) : Alike R (.tokens ts) (.tokens us)
  | segments {ts us} (h : List.Forall₂ (Segment.Alike (Token.Alike R)) ts us) : Alike R (.segments ts) (.segments us)

/-- Braces are balanced whatever else the tokens are. -/
theorem Balanced.alike {R : Span → Span → Prop} {ts us : List Token} {depth : Nat}
    (h : List.Forall₂ (Token.Alike R) ts us) : Token.Balanced depth ts ↔ Token.Balanced depth us := by
  induction h generalizing depth with
  | nil => exact .rfl
  | @cons t u ts us first rest ih =>
    have hbraces (side : Symbol) : Token.braces side [u] = Token.braces side [t] := by
      simp [Token.braces, first.kind.isSymbol_eq]
    by_cases hle : Token.braces .rightBrace [t] ≤ Token.braces .leftBrace [t] + depth
    · obtain ⟨depth', hdepth⟩ := Nat.exists_eq_add_of_le hle
      rw [Token.balanced_cons hdepth.symm, ih, ← Token.balanced_cons (t := u) (by rw [hbraces, hbraces, hdepth])]
    · refine ⟨fun h => absurd (h.opened [t] (List.prefix_append [t] ts)) hle, fun h => absurd ?_ hle⟩
      rw [← hbraces, ← hbraces]
      exact h.opened [u] (List.prefix_append [u] us)

/-- A backslash at the end is no token. -/
private theorem ne_backslash_of_single {r : Token × Cursor}
    (hrest : a.onset.rest = first :: others) (h : single first a.onset = .ok r) : a.onset.rest ≠ ['\\'] := by
  intro hlast
  obtain ⟨rfl, rfl⟩ := List.cons.inj (hrest.symm.trans hlast)
  have hname : beginsName '\\' = false := rfl
  have hmunch : Symbol.munch? ['\\'] = none := by decide
  simp [single, hrest, startsWithNumber, startsWithDigit, hname, sign, hmunch, fault] at h

theorem textRun_extended (hab : Cursor.Extends f tail a b)
    (hrest : a.textEnd.rest = first :: others) : textRun endsSegment b.rest = textRun endsSegment a.rest := by
  rw [hab.rest]
  refine textRun_append endsSegment a.rest tail ?_
  have hne : a.textEnd.rest ≠ [] := by simp [hrest]
  simpa [Cursor.textEnd, Cursor.skip] using hne

/-- What is read at a cursor is read where the text stands, if the end of input gives way to nothing else. -/
theorem Scans.extend (htail : Separate tail) {p : Piece} (h : Scans a p a')
    (hp : ∀ t, p = .token t → t.kind.isEnd = false) (hab : Cursor.Extends f tail a b) :
    ∃ q b', Scans b q b' ∧ p.Alike (MappedBy f) q ∧ Cursor.Extends f tail a' b' := by
  have honset {a b : Cursor} (hab : Cursor.Extends f tail a b) (hlast : a.onset.rest ≠ ['\\']) :
      Cursor.Extends f tail a.onset b.onset :=
    hab.onset (by rw [hab.rest]; exact triviaWidth_append htail false a.rest hlast)
  induction h generalizing b with
  | ending => cases hp _ rfl
  | @single a first others t c rest plain found =>
    have hb := honset hab (ne_backslash_of_single rest found)
    obtain ⟨u, b', hfound, halike, hext⟩ := (single_matches htail.apart hb rest).follows t c found
    exact ⟨_, b', .single (hb.cons rest) plain hfound, .token halike, hext⟩
  | @template a others segments c rest filled ih =>
    have hb := honset hab (by simp [rest])
    obtain ⟨_, b', hfilled, _ | _ | halike, hext⟩ := ih nofun (hb.skip_one rest)
    exact ⟨_, b', .template (hb.cons rest) hfilled, .token (.mk (.template halike) (hb.upTo hext)), hext⟩
  | nil => exact ⟨_, b, .nil b, .tokens .nil, hab⟩
  | cons first isEnd rest ihFirst ihRest =>
    obtain ⟨_, b', hfirst, ⟨halike⟩, hext⟩ := ihFirst (by rintro _ ⟨⟩; exact isEnd) hab
    obtain ⟨_, c', hrest, _ | halikes, hext'⟩ := ihRest nofun hext
    exact ⟨_, c', .cons hfirst (halike.kind.isEnd_eq ▸ isEnd) hrest, .tokens (.cons halike halikes), hext'⟩
  | @close a others rest =>
    have hrun := textRun_extended hab rest
    have hb := hab.textEnd hrun
    refine ⟨_, _, .close (hb.cons rest), .segments ?_, hb.skip_one rest⟩
    rw [hrun]
    exact addText_alike .nil _
  | @code a others body b₁ closing c segments d rest inside closes balanced more ihInside ihCloses ihMore =>
    have hrun := textRun_extended hab rest
    have hb := hab.textEnd hrun
    obtain ⟨_, b', hinside, _ | hbody, hext⟩ := ihInside nofun (hb.skip_one rest)
    obtain ⟨_, c', hcloses, ⟨⟨_ | _, hspan⟩⟩, hext⟩ := ihCloses (by rintro _ ⟨⟩; rfl) hext
    obtain ⟨_, d', hmore, _ | _ | hsegments, hext⟩ := ihMore nofun hext
    refine ⟨_, d', .code (hb.cons rest) hinside hcloses ((Balanced.alike hbody).mp balanced) hmore, .segments ?_, hext⟩
    rw [hrun]
    refine List.rel_append (addText_alike .nil _) (.cons (.code (List.rel_append hbody ?_)) hsegments)
    exact .cons (.mk (.plain nofun) hspan) .nil

/-- What is read up to the end of input, where the text stands behind another one. -/
private theorem Scans.moved {ts : List Token} (h : Scans a (.tokens ts) a') (hlast : a'.onset.rest = [])
    (hab : Cursor.Extends f [] a b) : ∃ us b', Scans b (.tokens us) b' ∧ b'.onset.rest = [] ∧
      List.Forall₂ (Token.Alike (MappedBy f)) (ts ++ [a'.ending]) (us ++ [b'.ending]) := by
  obtain ⟨_, b', hscans, _ | halikes, hext⟩ := h.extend (by simp [Separate]) nofun hab
  have hends := hext.onset (by rw [hext.rest, List.append_nil])
  refine ⟨_, b', hscans, by rw [hends.rest, hlast, List.append_nil], List.rel_append halikes ?_⟩
  exact .cons (.mk (.plain nofun) (hends.upTo hends)) .nil

end Scan

/-- Where nothing comes before a text, its tokens stand where they stand. -/
theorem tokenize_alike {source : String} {ts : List Token} (h : tokenize source = .ok ts) :
    List.Forall₂ (Token.Alike (MovedBy .origin)) ts ts := by
  have hself : Cursor.Extends (.moved .origin) [] (.ofText source) (.ofText source) :=
    ⟨Position.steady_moved _, (List.append_nil _).symm, (Position.moved_origin_left _).symm⟩
  obtain ⟨body, b, rfl, hbody, hlast⟩ := Scan.tokens_scanned h
  obtain ⟨us, b', hscans, hlast', halikes⟩ := hbody.moved hlast hself
  have hagain := h.symm.trans (tokenize_of_scans hscans hlast')
  rwa [← Except.ok.inj hagain] at halikes

/-- The tokens of two texts with a line break between them: those of the first without their end, a
line break, and those of the second moved to where it stands. -/
theorem tokenize_append {first second : String} {ts us : List Token} (hfirst : tokenize first = .ok ts)
    (hsecond : tokenize second = .ok us) :
    ∃ front last front' span us', ts = front ++ [last] ∧ last.kind.isEnd ∧
      (∀ t ∈ front, t.kind.isEnd = false) ∧
      List.Forall₂ (Token.Alike (MovedBy .origin)) front front' ∧
      List.Forall₂ (Token.Alike (MovedBy (.after .origin (first.toList ++ ['\n'])))) us us' ∧
      tokenize (first ++ "\n" ++ second) = .ok (front' ++ ⟨.newline, span⟩ :: us') := by
  obtain ⟨front, b, rfl, hfront, hlast⟩ := Scan.tokens_scanned hfirst
  obtain ⟨body, c, rfl, hbody, hlast'⟩ := Scan.tokens_scanned hsecond
  have hseparate : Separate ('\n' :: second.toList) := by simp [Separate]
  have hwhole : Cursor.Extends (.moved .origin) ('\n' :: second.toList) (.ofText first)
      (.ofText (first ++ "\n" ++ second)) := by
    refine ⟨Position.steady_moved _, ?_, ?_⟩
    · simp [Cursor.ofText, String.toList_append]
    · simp [Cursor.ofText]
  obtain ⟨_, b', hscans, _ | halikes, hext⟩ := hfront.extend hseparate (by simp) hwhole
  -- The end of input gives way to the line break.
  have hends := hext.onset (by
    rw [hext.rest]
    exact Scan.triviaWidth_append hseparate false b.rest (by rw [show b.rest.drop _ = [] from hlast]; simp))
  have hbreak : b'.onset.rest = '\n' :: second.toList := by rw [hends.rest, hlast, List.nil_append]
  have hnewline : Scan.Scans b' (.token ⟨.newline, b'.onset.upTo (b'.onset.skip 1)⟩) (b'.onset.skip 1) := by
    refine .single hbreak (by decide) ?_
    rw [Scan.single, hbreak]
    rfl
  have hrest : (b'.onset.skip 1).rest = second.toList := by rw [Cursor.skip, hbreak]; rfl
  have hplace : (b'.onset.skip 1).place = .after .origin (first.toList ++ ['\n']) := by
    obtain ⟨taken, htaken, hplace⟩ := hscans.reaches.trans hnewline.reaches
    rw [hrest] at htaken
    obtain rfl : taken = first.toList ++ ['\n'] := by
      refine List.append_cancel_right (htaken.symm.trans ?_)
      simp [Cursor.ofText, String.toList_append]
    exact hplace
  have hmoved : Cursor.Extends (.moved (.after .origin (first.toList ++ ['\n']))) [] (.ofText second)
      (b'.onset.skip 1) := by
    refine ⟨Position.steady_moved _, by rw [hrest, List.append_nil]; rfl, ?_⟩
    rw [hplace, Cursor.ofText, Position.moved_origin]
    rw [Position.after_append]
    rfl
  obtain ⟨us, c', hscans', hlast', halikes'⟩ := hbody.moved hlast' hmoved
  have htokens := tokenize_of_scans (hscans.append (.cons hnewline rfl hscans')) hlast'
  rw [List.append_assoc] at htokens
  exact ⟨front, _, _, _, _, rfl, rfl, hfront.isEnd, halikes, halikes', htokens⟩

end ScriptLang
