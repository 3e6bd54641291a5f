import Mathlib.Data.String.Basic
import ScriptLang.Proofs.Form.Extent

/-! Parts of a text, given by the bytes before them, and tokens to which all of a part belongs but for
trivia. Main statement: between two cursors of a text stand the characters that were taken there. -/
namespace ScriptLang

/-- Characters that can stand between tokens where `behind` follows them: blanks, line breaks with a
backslash before them, and last a comment, which goes on to a line break or to the end of the text. -/
inductive Trivia (behind : List Char) : List Char → Prop
  | nil : Trivia behind []
  | blank {c cs} (h : c = ' ' ∨ c = '\t' ∨ c = '\r') (more : Trivia behind cs) : Trivia behind (c :: cs)
  | continuation {cs} (more : Trivia behind cs) : Trivia behind ('\\' :: '\n' :: cs)
  | comment {body} (line : '\n' ∉ body) (ends : ∀ c ∈ behind.head?, c = '\n') :
      Trivia behind ('#' :: body)

namespace Scan

/-- A comment goes on to the end of its line. -/
private theorem triviaWidth_comment (cs : List Char) :
    '\n' ∉ cs.take (triviaWidth true cs) ∧ ∀ c ∈ (cs.drop (triviaWidth true cs)).head?, c = '\n' := by
  induction cs with
  | nil => simp [triviaWidth]
  | cons c cs ih =>
    by_cases hc : c = '\n'
    · simp [triviaWidth, hc]
    · have hwidth : triviaWidth true (c :: cs) = triviaWidth true cs + 1 := by
        rw [triviaWidth.eq_def]
        simp [hc]
      simpa [hwidth, Ne.symm hc] using ih

theorem triviaWidth_trivia (cs : List Char) :
    Trivia (cs.drop (triviaWidth false cs)) (cs.take (triviaWidth false cs)) := by
  generalize hmode : false = inComment
  fun_induction triviaWidth inComment cs with
  | case1 => exact .nil
  | case2 | case3 => cases hmode
  | case4 inComment c cs _ hblank ih => exact .blank (by simpa [or_assoc] using hblank) (ih rfl)
  | case5 inComment cs =>
    obtain ⟨hline, hends⟩ := triviaWidth_comment cs
    exact .comment hline hends
  | case6 inComment _ more _ _ ih => exact .continuation (ih rfl)
  | case7 => exact .nil

end Scan

namespace Text

/-- The part of a text between two places, which are given by the bytes before them. -/
def slice (source : String) (start stop : Nat) : String := String.Pos.Raw.extract source ⟨start⟩ ⟨stop⟩

/-- Only trivia stand between two places. -/
structure Gap (source : String) (start stop : Nat) : Prop where
  order : start ≤ stop
  trivia : Trivia (slice source stop source.utf8ByteSize).toList (slice source start stop).toList

end Text

namespace Cursor

variable {source : String} {a b c : Cursor}

namespace Reaches

/-- More characters taken are more bytes. -/
theorem index_lt (h : a.Reaches b) (hshorter : b.rest.length < a.rest.length) : a.place.index < b.place.index := by
  obtain ⟨taken, hrest, hplace⟩ := h
  cases taken with
  | nil =>
    rw [hrest] at hshorter
    exact absurd hshorter (Nat.lt_irrefl _)
  | cons c cs =>
    rw [hplace, Position.after_cons]
    exact Nat.lt_of_lt_of_le (a.place.index_le_next c) ((a.place.next c).index_le_after cs)

/-- Where a cursor of a text stands: the bytes before it are those of the characters before it. -/
theorem index_eq {before : List Char} (h : (ofText source).Reaches a)
    (hbefore : source.toList = before ++ a.rest) : a.place.index = String.utf8Len before := by
  obtain ⟨taken, hrest, hplace⟩ := h
  have hplace : a.place = Position.origin.after taken := hplace
  obtain rfl : before = taken := List.append_cancel_right (hbefore.symm.trans hrest)
  rw [hplace, Position.origin_after, String.utf8ByteSize_ofList]

variable (ha : (ofText source).Reaches a)

include ha

/-- The part of the text from one cursor to a later one consists of the characters taken. -/
theorem slice_eq {taken : List Char} (hab : a.Reaches b) (htaken : a.rest = taken ++ b.rest) :
    Text.slice source a.place.index b.place.index = String.ofList taken := by
  have ⟨before, (hrest : source.toList = before ++ a.rest), _⟩ := ha
  have hparts : source.toList = before ++ taken ++ b.rest := by
    rw [hrest, htaken, List.append_assoc]
  have hstop : b.place.index = String.utf8Len before + String.utf8Len taken := by
    rw [(ha.trans hab).index_eq hparts, String.utf8Len_append]
  have hsource : source = String.ofList (before ++ taken ++ b.rest) := by
    rw [← hparts, String.ofList_toList]
  rw [Text.slice, ha.index_eq hrest, hstop]
  nth_rewrite 1 [hsource]
  exact String.extract_of_valid before taken b.rest

/-- What was skipped is what stands in between. -/
theorem slice_skip {taken : List Char} (h : taken <+: a.rest) :
    Text.slice source a.place.index (a.skip taken.length).place.index = String.ofList taken := by
  refine ha.slice_eq (.skip a _) ?_
  obtain ⟨others, hrest⟩ := h
  rw [Cursor.skip, ← hrest, List.drop_left]

/-- Behind a cursor stand the characters that are left to it. -/
theorem slice_behind : Text.slice source a.place.index source.utf8ByteSize = String.ofList a.rest := by
  have hend : a.Reaches (a.skip a.rest.length) := .skip a _
  have hnone : (a.skip a.rest.length).rest = [] := by simp [Cursor.skip]
  have hsize : (a.skip a.rest.length).place.index = source.utf8ByteSize := by
    have hall : source.toList = source.toList ++ (a.skip a.rest.length).rest := by simp [hnone]
    rw [(ha.trans hend).index_eq hall, ← String.utf8ByteSize_ofList, String.ofList_toList]
  rw [← hsize]
  exact ha.slice_eq hend (by simp [hnone])

theorem slice_append (hab : a.Reaches b) (hbc : b.Reaches c) :
    Text.slice source a.place.index b.place.index ++ Text.slice source b.place.index c.place.index =
      Text.slice source a.place.index c.place.index := by
  have ⟨taken, hrest, _⟩ := hab
  have ⟨taken', hrest', _⟩ := hbc
  rw [ha.slice_eq hab hrest, (ha.trans hab).slice_eq hbc hrest', ← String.ofList_append]
  refine (ha.slice_eq (hab.trans hbc) ?_).symm
  rw [hrest, hrest', List.append_assoc]

/-- Before a token nothing but trivia is passed over. -/
theorem gap : Text.Gap source a.place.index a.onset.place.index := by
  have hskip := Reaches.onset a
  have htaken := (List.take_append_drop (Scan.triviaWidth false a.rest) a.rest).symm
  refine ⟨hskip.index_le, ?_⟩
  rw [(ha.trans hskip).slice_behind, ha.slice_eq hskip htaken, String.toList_ofList,
    String.toList_ofList]
  exact Scan.triviaWidth_trivia a.rest

end Reaches

end Cursor

/-- Tokens in order from one place to another; each has characters, and no two share one. -/
structure Lined (lo hi : Nat) (tokens : List Token) : Prop where
  ordered : tokens.Pairwise fun a b => a.span.stop.index ≤ b.span.start.index
  nonempty : ∀ t ∈ tokens, t.span.start.index < t.span.stop.index
  inside : ∀ t ∈ tokens, lo ≤ t.span.start.index ∧ t.span.stop.index ≤ hi

namespace Lined

variable {lo mid hi : Nat} {ts us : List Token}

theorem nil (lo hi : Nat) : Lined lo hi [] := ⟨.nil, by simp, by simp⟩

theorem single (t : Token) (h : t.span.start.index < t.span.stop.index) :
    Lined t.span.start.index t.span.stop.index [t] := by
  refine ⟨List.pairwise_singleton .., ?_, ?_⟩ <;> simp [h]

theorem widen {lo' hi' : Nat} (h : Lined lo hi ts) (hlo : lo' ≤ lo) (hhi : hi ≤ hi') : Lined lo' hi' ts := by
  refine ⟨h.ordered, h.nonempty, fun t ht => ?_⟩
  obtain ⟨hstart, hstop⟩ := h.inside t ht
  exact ⟨Nat.le_trans hlo hstart, Nat.le_trans hstop hhi⟩

theorem append (h : Lined lo mid ts) (h' : Lined mid hi us) (hlo : lo ≤ mid) (hhi : mid ≤ hi) :
    Lined lo hi (ts ++ us) := by
  refine ⟨List.pairwise_append.mpr ⟨h.ordered, h'.ordered, fun t ht u hu => ?_⟩, fun t ht => ?_,
    fun t ht => ?_⟩
  · exact Nat.le_trans (h.inside t ht).2 (h'.inside u hu).1
  · exact (List.mem_append.mp ht).elim (h.nonempty t) (h'.nonempty t)
  · rcases List.mem_append.mp ht with ht | ht
    · exact (h.widen (Nat.le_refl lo) hhi).inside t ht
    · exact (h'.widen hlo (Nat.le_refl hi)).inside t ht

end Lined

/-- The stretches before, between and behind tokens that stand between two places. -/
def Token.gaps (lo hi : Nat) : List Token → List (Nat × Nat)
  | [] => [(lo, hi)]
  | t :: ts => (lo, t.span.start.index) :: gaps t.span.stop.index hi ts

/-- The texts of these stretches and of the tokens, put together in order. -/
def Token.joined (source : String) (lo hi : Nat) : List Token → String
  | [] => Text.slice source lo hi
  | t :: ts => Text.slice source lo t.span.start.index ++
      Text.slice source t.span.start.index t.span.stop.index ++ joined source t.span.stop.index hi ts

/-- Tokens to which all characters between two places belong, but for trivia. -/
structure Covers (source : String) (lo hi : Nat) (tokens : List Token) : Prop extends
    Lined lo hi tokens where
  isEnd : ∀ t ∈ tokens, t.kind.isEnd = false
  trivia : ∀ gap ∈ Token.gaps lo hi tokens, Text.Gap source gap.1 gap.2
  lossless : Token.joined source lo hi tokens = Text.slice source lo hi

namespace Covers

variable {source : String} {lo hi : Nat} {t : Token} {ts : List Token}

theorem nil (h : Text.Gap source lo hi) : Covers source lo hi [] := by
  refine ⟨.nil lo hi, by simp, fun gap hgap => ?_, rfl⟩
  rw [List.mem_singleton.mp hgap]
  exact h

theorem cons (isEnd : t.kind.isEnd = false) (hgap : Text.Gap source lo t.span.start.index)
    (hne : t.span.start.index < t.span.stop.index) (hhi : t.span.stop.index ≤ hi)
    (hjoined : Text.slice source lo t.span.start.index ++ Text.slice source t.span.start.index t.span.stop.index ++
      Text.slice source t.span.stop.index hi = Text.slice source lo hi)
    (h : Covers source t.span.stop.index hi ts) : Covers source lo hi (t :: ts) := by
  have hlined : Lined t.span.start.index hi ([t] ++ ts) :=
    (Lined.single t hne).append h.toLined (Nat.le_of_lt hne) hhi
  refine ⟨hlined.widen hgap.order (Nat.le_refl hi), ?_, ?_, ?_⟩
  · exact List.forall_mem_cons.mpr ⟨isEnd, h.isEnd⟩
  · exact List.forall_mem_cons.mpr ⟨hgap, h.trivia⟩
  · rw [Token.joined, h.lossless, hjoined]

end Covers

end ScriptLang
