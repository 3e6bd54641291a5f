import Mathlib.Data.List.Induction
import ScriptLang.Proofs.Form.Basic
import ScriptLang.Proofs.Token.Placed

/-! Where nodes and tokens stand. Main statement: a stream of tokens that stand in order still does
after tokens were taken from it. -/
namespace ScriptLang

section Place

variable {source : String}

/-- A place between two characters of a text: the bytes before it, the line breaks before it, and the
characters since the last of them. -/
def Position.Within (source : String) (p : Position) : Prop :=
  ∃ before after, source.toList = before ++ after ∧
    p.index = (String.ofList before).utf8ByteSize ∧ p.line = before.count '\n' ∧
    p.column = (before.reverse.takeWhile (· ≠ '\n')).length

/-- A stretch from a place of a text to a later one or the same. -/
structure Span.Within (source : String) (s : Span) : Prop where
  start : s.start.Within source
  stop : s.stop.Within source
  order : s.start.index ≤ s.stop.index

theorem Position.origin_after (cs : List Char) :
    origin.after cs = ⟨(String.ofList cs).utf8ByteSize, cs.count '\n', (cs.reverse.takeWhile (· ≠ '\n')).length⟩ := by
  induction cs using List.reverseRecOn with
  | nil => rfl
  | append_singleton cs c ih =>
    have hsize : (String.ofList (cs ++ [c])).utf8ByteSize =
        (String.ofList cs).utf8ByteSize + c.utf8Size := by simp
    rw [after_append, ih, after_cons, after_nil, next, hsize]
    by_cases hc : c = '\n'
    · simp [hc]
    · simp [hc]

theorem Cursor.Holds.within {p : Position} (h : (Cursor.ofText source).Holds p) : p.Within source := by
  obtain ⟨b, ⟨before, hrest, hplace⟩, rfl⟩ := h
  refine ⟨before, b.rest, hrest, ?_⟩
  have hplace : b.place = Position.origin.after before := hplace
  rw [hplace, Position.origin_after]
  exact ⟨rfl, rfl, rfl⟩

/-- A stretch from a place of the text to a later one or the same. -/
structure Span.Genuine (text : Cursor) (s : Span) : Prop where
  start : text.Holds s.start
  stop : text.Holds s.stop
  order : s.start.index ≤ s.stop.index

theorem Span.Genuine.cover {text : Cursor} {s t : Span} (hs : s.Genuine text) (ht : t.Genuine text) :
    (s.cover t).Genuine text := by
  refine ⟨?_, ?_, ?_⟩
  · unfold Span.cover
    dsimp only
    split
    · exact ht.start
    · exact hs.start
  · unfold Span.cover
    dsimp only
    split
    · exact ht.stop
    · exact hs.stop
  · have := hs.order
    have := ht.order
    rw [cover_start_index, cover_stop_index]
    omega

theorem Span.Genuine.within {s : Span} (h : s.Genuine (.ofText source)) : s.Within source :=
  ⟨h.start.within, h.stop.within, h.order⟩

end Place

/-- Where tokens come from: a text and a place of it that they stand before, or from no text at all. -/
structure Zone where
  text : Option Cursor
  hi : Nat

namespace Zone

variable {z : Zone} {s t : Span}

/-- Where a stretch begins. Without a text all places are one. -/
def start (z : Zone) (s : Span) : Nat := if z.text.isSome then s.start.index else 0

def stop (z : Zone) (s : Span) : Nat := if z.text.isSome then s.stop.index else 0

def Genuine (z : Zone) (s : Span) : Prop := ∀ text ∈ z.text, s.Genuine text

/-- What is to be shown of places is to be shown of those of a text. -/
theorem le_of {a b : Position} (h : ∀ text ∈ z.text, a.index ≤ b.index) :
    (if z.text.isSome then a.index else 0) ≤ if z.text.isSome then b.index else 0 := by
  obtain ⟨text, hi⟩ := z
  cases text with
  | none => exact Nat.le_refl 0
  | some text => exact h text rfl

theorem Genuine.order (h : z.Genuine s) : z.start s ≤ z.stop s := le_of fun text ht => (h text ht).order

theorem Genuine.cover (hs : z.Genuine s) (ht : z.Genuine t) : z.Genuine (s.cover t) :=
  fun text h => (hs text h).cover (ht text h)

theorem start_cover (z : Zone) (s t : Span) : z.start (s.cover t) = min (z.start s) (z.start t) := by
  unfold start
  split
  · exact Span.cover_start_index s t
  · rfl

theorem stop_cover (z : Zone) (s t : Span) : z.stop (s.cover t) = max (z.stop s) (z.stop t) := by
  unfold stop
  split
  · exact Span.cover_stop_index s t
  · rfl

end Zone

namespace Node

/-- The node itself and all nodes below it. -/
inductive Holds : Node → Node → Prop
  | self (n : Node) : Holds n n
  | part {n part m : Node} (h : part ∈ n.parts) (below : Holds part m) : Holds n m

/-- Each node of the tree covers its parts. -/
def Nested (z : Zone) (n : Node) : Prop :=
  ∀ m, n.Holds m → z.Genuine m.span ∧ ∀ part ∈ m.parts,
    z.start m.span ≤ z.start part.span ∧ z.stop part.span ≤ z.stop m.span

structure Between (z : Zone) (lo hi : Nat) (n : Node) : Prop where
  nested : n.Nested z
  start : lo ≤ z.start n.span
  stop : z.stop n.span ≤ hi

variable {z : Zone} {lo hi lo' hi' : Nat} {n : Node}

theorem Nested.genuine (h : n.Nested z) : z.Genuine n.span := (h n (.self n)).1

theorem Between.widen (h : n.Between z lo hi) (hlo : lo' ≤ lo) (hhi : hi ≤ hi') : n.Between z lo' hi' :=
  ⟨h.nested, Nat.le_trans hlo h.start, Nat.le_trans h.stop hhi⟩

theorem Nested.part (h : n.Nested z) {part : Node} (hp : part ∈ n.parts) :
    part.Between z (z.start n.span) (z.stop n.span) :=
  have hcovers := (h n (.self n)).2 part hp
  ⟨fun m hm => h m (.part hp hm), hcovers.1, hcovers.2⟩

theorem Nested.mk {shape : Shape Node} {span : Span} (hspan : z.Genuine span)
    (hparts : ∀ part ∈ shape.parts, part.Between z (z.start span) (z.stop span)) : Nested z ⟨shape, span⟩ := by
  intro m hm
  cases hm with
  | self => exact ⟨hspan, fun part hp => ⟨(hparts part hp).start, (hparts part hp).stop⟩⟩
  | part hp below => exact (hparts _ hp).nested m below

end Node

/-- Behind a token that is not the last one, the rest still stands in order. -/
private theorem Row.tail {lo hi : Nat} {t : Token} {rest : List Token} (h : Row lo hi (t :: rest))
    (hend : t.kind.isEnd = false) :
    ∃ next others, rest = next :: others ∧ t.span.stop.index ≤ next.span.start.index ∧
      Row next.span.start.index hi rest := by
  obtain ⟨init, last, hall, hlast, hinit⟩ := h.ending
  obtain ⟨horder, hordered⟩ := List.pairwise_cons.mp h.ordered
  cases init with
  | nil =>
    cases hall
    rw [hlast] at hend
    cases hend
  | cons first init =>
    rw [List.cons_append] at hall
    obtain ⟨rfl, hrest⟩ := List.cons.inj hall
    cases rest with
    | nil => simp at hrest
    | cons next others =>
      refine ⟨next, others, rfl, horder next (List.mem_cons_self ..), hordered, ?_, init, last, hrest,
        hlast, fun u hu => hinit u (List.mem_cons_of_mem _ hu)⟩
      intro u hu
      have hinside := h.inside u (List.mem_cons_of_mem _ hu)
      have hnext := h.inside next (List.mem_cons_of_mem _ (List.mem_cons_self ..))
      rcases List.mem_cons.mp hu with rfl | hu
      · exact ⟨Nat.le_refl _, hinside.2⟩
      · have := (List.pairwise_cons.mp hordered).1 u hu
        exact ⟨by omega, hinside.2⟩

namespace Form

/-- Tokens in order, all of them and the one before between places of the text, and none behind its
bound. Nothing is said of tokens that come from no text. -/
structure Sound (z : Zone) (s : Stream) : Prop where
  previous : z.Genuine s.previous
  bound : z.stop s.previous ≤ z.hi
  row : ∀ text ∈ z.text, Row s.current.span.start.index z.hi (s.current :: s.rest)
  placed : ∀ text ∈ z.text, ∀ t ∈ s.current :: s.rest, t.Placed text

structure Ahead (z : Zone) (k : Nat) (s : ParseState) : Prop where
  sound : Sound z s.stream
  here : k ≤ z.start s.stream.current.span

structure Past (z : Zone) (lo m : Nat) (s : ParseState) : Prop where
  sound : Sound z s.stream
  le : lo ≤ m
  start : lo ≤ z.start s.stream.previous
  stop : m ≤ z.stop s.stream.previous
  tight : z.stop s.stream.previous ≤ z.start s.stream.current.span

variable {z : Zone} {s : Stream} {k lo m : Nat} {state : ParseState}

theorem Sound.current (h : Sound z s) : z.Genuine s.current.span := by
  intro text ht
  have horder := (h.row text ht).inside s.current (List.mem_cons_self ..)
  have hplaced := h.placed text ht s.current (List.mem_cons_self ..)
  generalize s.current = t at horder hplaced
  obtain ⟨start, stop, _, _⟩ := hplaced
  exact ⟨start, stop, horder.2.1⟩

theorem Sound.current_stop (h : Sound z s) : z.stop s.current.span ≤ z.hi := by
  have hrow := h.row
  obtain ⟨text, hi⟩ := z
  cases text with
  | none => exact Nat.zero_le _
  | some text => exact ((hrow text rfl).inside s.current (List.mem_cons_self ..)).2.2

theorem Past.ahead (h : Past z lo m state) : Ahead z m state :=
  ⟨h.sound, Nat.le_trans h.stop h.tight⟩

theorem Past.weaken (h : Past z lo m state) {lo' m' : Nat} (hlo : lo' ≤ lo) (hm : m' ≤ m)
    (hle : lo' ≤ m') : Past z lo' m' state :=
  ⟨h.sound, hle, Nat.le_trans hlo h.start, Nat.le_trans hm h.stop, h.tight⟩

theorem Past.lower (h : Past z lo m state) (hk : k ≤ lo) : Past z k m state :=
  h.weaken hk (Nat.le_refl _) (Nat.le_trans hk h.le)

theorem Ahead.weaken (h : Ahead z k state) {k' : Nat} (hk : k' ≤ k) : Ahead z k' state :=
  ⟨h.sound, Nat.le_trans hk h.here⟩

/-- The next token, unless it is the end of input, comes to stand before the one at hand. -/
theorem Ahead.advance (h : Ahead z k state) (hend : state.stream.current.kind.isEnd = false) :
    Past z (z.start state.stream.current.span) (z.stop state.stream.current.span)
      { state with stream := state.stream.advance } := by
  obtain ⟨⟨previous, current, rest⟩, nextId⟩ := state
  obtain ⟨_ | text, hi⟩ := z
  · exact ⟨⟨nofun, Nat.zero_le _, nofun, nofun⟩, Nat.le_refl 0, Nat.le_refl 0, Nat.le_refl 0, Nat.le_refl 0⟩
  · obtain ⟨next, others, rfl, hnext, hrow⟩ := (h.sound.row text rfl).tail hend
    refine ⟨⟨h.sound.current, h.sound.current_stop, ?_, ?_⟩, h.sound.current.order, Nat.le_refl _,
      Nat.le_refl _, hnext⟩
    · rintro _ ⟨⟩
      exact hrow
    · exact fun text ht t hmem => h.sound.placed text ht t (List.mem_cons_of_mem _ hmem)

/-- What is kept when a line break is taken is kept when all of them are. -/
theorem skipNewlines_keeps {P : ParseState → Prop}
    (step : ∀ s, P s → s.stream.current.kind.isEnd = false → P { s with stream := s.stream.advance })
    (h : P state) : P { state with stream := state.stream.skipNewlines } := by
  obtain ⟨⟨previous, current, rest⟩, id⟩ := state
  change P ⟨.behindNewlines previous current rest, id⟩
  induction rest generalizing previous current with
  | nil => exact h
  | cons next rest ih =>
    rw [Stream.behindNewlines]
    split
    next hline =>
      refine ih _ _ (step _ h ?_)
      cases hkind : current.kind <;> simp_all [TokenKind.isNewline, TokenKind.isEnd]
    next => exact h

theorem Ahead.skipNewlines (h : Ahead z k state) : Ahead z k { state with stream := state.stream.skipNewlines } :=
  skipNewlines_keeps (fun _ h hend => have hpast := h.advance hend
    hpast.ahead.weaken (Nat.le_trans h.here hpast.le)) h

theorem Past.skipNewlines (h : Past z lo m state) :
    Past z lo m { state with stream := state.stream.skipNewlines } := by
  refine skipNewlines_keeps (fun s h hend => ?_) h
  have hpast := h.ahead.advance hend
  have hhere := h.ahead.here
  exact hpast.weaken (Nat.le_trans h.le hhere) (Nat.le_trans hhere hpast.le) h.le

end Form

end ScriptLang
