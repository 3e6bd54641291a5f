import ScriptLang.Proofs.Grammar.Turn
import ScriptLang.Proofs.Grammar.Run
import ScriptLang.Proofs.Tandem.Alike

/-! Two readings side by side. The same words are read in two places, and what is behind them differs.

Main statements: a judgement for two parsers, which says that they never go back, that the first of them comes
to an end, and that it has every result of the second, and one rule for each way to build a parser. -/
namespace ScriptLang

open Likeness (Like)

variable {α β γ : Type} {t : ParseState}

def Stream.tokens (s : Stream) : List Token := s.current :: s.rest

abbrev ParseState.kind (s : ParseState) : TokenKind Token := s.stream.current.kind

abbrev ParseState.tokens (s : ParseState) : List Token := s.stream.tokens

theorem ParseState.kind_eq {s : ParseState} {first : Token} {others : List Token}
    (h : s.tokens = first :: others) : s.kind = first.kind := congrArg (·.kind) (List.cons.inj h).1

section Tokens

theorem Token.weight_pos (t : Token) : 0 < t.weight := by
  obtain ⟨kind, span⟩ := t
  rw [Token.weight]
  omega

theorem Token.weights_le_of_suffix {ts us : List Token} (h : ts <:+ us) : Token.weights ts ≤ Token.weights us := by
  obtain ⟨before, rfl⟩ := h
  rw [Token.weights_append]
  exact Nat.le_add_left ..

theorem Token.weights_lt_of_suffix {ts us : List Token} (h : ts <:+ us) (hlt : ts.length < us.length) :
    Token.weights ts < Token.weights us := by
  obtain ⟨before, rfl⟩ := h
  have := Token.length_le_weights before
  rw [List.length_append] at hlt
  rw [Token.weights_append]
  omega

theorem Stream.closed_ending (ts : List Token) : ∃ init e, Stream.closed ts = init ++ [e] ∧ e.kind = .endOfInput := by
  unfold Stream.closed
  split
  next last hlast =>
    split
    next hend =>
      obtain ⟨init, rfl⟩ := List.getLast?_eq_some_iff.mp hlast
      exact ⟨init, last, rfl, TokenKind.isEnd_iff.mp hend⟩
    next => exact ⟨ts, _, rfl, rfl⟩
  next => exact ⟨[], _, rfl, rfl⟩

theorem Stream.tokens_ofTokens (ts : List Token) : (Stream.ofTokens ts).tokens = Stream.closed ts := by
  obtain ⟨init, e, hclosed, _⟩ := Stream.closed_ending ts
  unfold Stream.ofTokens
  split
  next first rest h => rw [h]; rfl
  next h => simp [hclosed] at h

theorem Stream.weights_closed_le (ts : List Token) : Token.weights (Stream.closed ts) ≤ Token.weights ts + 1 := by
  unfold Stream.closed
  split
  · split
    · omega
    · rw [Token.weights_append]
      simp [Token.weights, Token.weight, Token.kindWeight]
  · simp [Token.weights, Token.weight, Token.kindWeight]

theorem Token.weights_code_lt {segments : List (Segment Token)} {tokens : List Token}
    (h : Segment.code tokens ∈ segments) (span : Span) :
    Token.weights tokens < Token.weight ⟨.template segments, span⟩ := by
  suffices h : Token.weights tokens ≤ Token.segmentsWeight segments by
    rw [Token.weight, Token.kindWeight]
    omega
  induction segments with
  | nil => cases h
  | cons segment segments ih =>
    rw [Token.segmentsWeight]
    rcases List.mem_cons.mp h with rfl | h
    · rw [Token.segmentWeight]
      omega
    · have := ih h
      omega

end Tokens

/-- Sequences of tokens to read. The last token of each is the end of input, and the code in their templates
is among them. -/
structure Corpus where
  Member : List Token → Prop
  ending {ts : List Token} (h : Member ts) : ∃ init e, ts = init ++ [e] ∧ e.kind = .endOfInput
  code {ts : List Token} {token : Token} {segments : List (Segment Token)} {tokens : List Token}
    (h : Member ts) (htoken : token ∈ ts) (hkind : token.kind = .template segments)
    (hcode : Segment.code tokens ∈ segments) : Member (Stream.closed tokens)

namespace Corpus

def all : Corpus where
  Member ts := ∃ init e, ts = init ++ [e] ∧ e.kind = .endOfInput
  ending := id
  code _ _ _ _ := Stream.closed_ending _

variable {C : Corpus} {s : ParseState}

def Holds (C : Corpus) (s : ParseState) : Prop := ∃ ts, C.Member ts ∧ s.tokens <:+ ts

theorem Holds.suffix (h : C.Holds s) (hsuffix : t.tokens <:+ s.tokens) : C.Holds t := by
  obtain ⟨ts, hmember, hs⟩ := h
  exact ⟨ts, hmember, hsuffix.trans hs⟩

theorem Holds.ending (h : C.Holds s) : ∃ init e, s.tokens = init ++ [e] ∧ e.kind = .endOfInput := by
  obtain ⟨ts, hmember, before, rfl⟩ := h
  obtain ⟨init, e, hlast, hend⟩ := C.ending hmember
  have htokens : s.tokens = s.tokens.dropLast ++ [s.tokens.getLast (List.cons_ne_nil _ _)] :=
    (List.dropLast_append_getLast _).symm
  refine ⟨_, _, htokens, ?_⟩
  rw [htokens, ← List.append_assoc] at hlast
  have he := (List.append_inj' hlast rfl).2
  rw [List.cons.inj he |>.1]
  exact hend

/-- Behind a token that is not the end of input there is another one. -/
theorem Holds.exists_next (h : C.Holds s) (hkind : s.kind.isEnd = false) :
    ∃ next rest, s.stream.rest = next :: rest := by
  obtain ⟨init, e, htokens, hend⟩ := h.ending
  cases hrest : s.stream.rest with
  | cons next rest => exact ⟨next, rest, rfl⟩
  | nil =>
    have hone : [s.stream.current] = init ++ [e] := by
      rw [← htokens, ParseState.tokens, Stream.tokens, hrest]
    cases init with
    | cons => simp at hone
    | nil =>
      cases hone
      rw [ParseState.kind, hend] at hkind
      cases hkind

end Corpus

/-- Which branch of a conditional a token opens: another one with a condition, or the last. -/
def TokenKind.opensBranch? : TokenKind Token → Option Bool
  | .keyword .elifWord => some true
  | .keyword .elseWord => some false
  | _ => none

/-- Whether line breaks in front of a token are looked across in vain for another branch of a conditional. -/
def TokenKind.Quiet (k : TokenKind Token) : Prop := k.isNewline = false ∧ k.opensBranch? = none

/-- How two sequences of tokens compare: they have the same words up to a seam, behind which each has a rest
of its own. Twins have nothing behind it. A closed pair has the end of input right behind the seam on the left and
a closing parenthesis on the right. A pair that is followed has a line break there on the left, behind which no
branch is opened, and the end of input on the right. What came before the words can differ, so that nothing is known
of the stretch before them while all their `start` is left. -/
structure Seam where
  scale : Scale
  left : List Token
  right : List Token
  twin : Bool
  closed : Bool
  followed : Bool
  start : Option Nat
  quiet_left : followed = false → ∀ t ∈ left.head?, t.kind.Quiet
  quiet_right : ∀ t ∈ right.head?, t.kind.Quiet
  fixed : scale.Fixed ∨ left = [] ∧ right = []
  of_twin : twin = true → left = [] ∧ right = []
  of_closed : closed = true → scale = .loose ∧ (∃ e, left = [e] ∧ e.kind = .endOfInput) ∧
    ∃ e more, right = e :: more ∧ e.kind = .symbol .rightParen
  of_followed : followed = true → (∃ e next more, left = e :: next :: more ∧ e.kind = .newline ∧
    (Stream.behindNewlines e.span next more).current.kind.opensBranch? = none) ∧
    ∃ e, right = [e] ∧ e.kind = .endOfInput

namespace Seam

variable (F : Seam)

abbrev SameToken : Token → Token → Prop := Token.Alike (Span.Like F.scale)

def bare (M : Scale) (twin : Bool) (start : Option Nat) : Seam where
  scale := M
  left := []
  right := []
  twin := twin
  closed := false
  followed := false
  start := start
  quiet_left _ t ht := absurd ht (Option.not_mem_none t)
  quiet_right t ht := absurd ht (Option.not_mem_none t)
  fixed := .inr ⟨rfl, rfl⟩
  of_twin _ := ⟨rfl, rfl⟩
  of_closed h := absurd h Bool.false_ne_true
  of_followed h := absurd h Bool.false_ne_true

def whole : Seam := bare F.scale F.twin none

def Identical : Prop := F.scale = .exact ∧ F.start = none

def Fits (n : Nat) : Prop := ∀ m ∈ F.start, n ≤ m

structure Around (r r' : Surroundings) : Prop where
  depth : r.depth ≤ r'.depth
  inConstructor : r.inConstructor = r'.inConstructor
  twin : F.twin = true → r.depth = r'.depth

/-- The states of two readings that have the same words before them. -/
structure Reads (C : Corpus) (s s' : ParseState) : Prop where
  left : C.Holds s
  right : C.Holds s'
  tokens : ∃ xs xs', List.Forall₂ F.SameToken xs xs' ∧ s.tokens = xs ++ F.left ∧ s'.tokens = xs' ++ F.right
  previous : (∀ m ∈ F.start, Token.weights s.tokens < m) →
    s.stream.previous.Like F.scale s'.stream.previous
  nextId : F.scale.SameId s.nextId s'.nextId

/-- The state on the left is at the seam or behind it, or if wanted strictly behind it. -/
def GoneLeft (past : Bool) (t : ParseState) : Prop := t.tokens.length + past.toNat ≤ F.left.length

def GoneRight (past : Bool) (t : ParseState) : Prop := t.tokens.length + past.toNat ≤ F.right.length

inductive Similar : TokenKind Token → TokenKind Token → Prop
  | plain {k} (h : ∀ segments, k ≠ .template segments) : Similar k k
  | template {a b} (segments : List.Forall₂ (Segment.Alike F.SameToken) a b) :
      Similar (.template a) (.template b)
  | seam (h : F.closed = true) : Similar .endOfInput (.symbol .rightParen)
  | line (h : F.followed = true) : Similar .newline .endOfInput

/-- Whether it is known what is at the seam. -/
abbrev known : Bool :=
  match F.closed with
  | true => true
  | false => F.followed

/-- The results for which it is known what is at the seam, so that to be there does not count as having gone. -/
abbrev tight : α → Bool := fun _ => F.known

abbrev firm : α → Bool := fun _ => F.closed

abbrev behind (isBlock : Bool) : Bool := bif isBlock then F.closed else F.known

abbrev blockwise : α × Bool → Bool := fun x => F.behind x.2

def turnwise (c : Bool) : Turn β α → Bool
  | .next _ => c && !F.followed
  | .done _ => c

/-- Where the seam can be looked at: it is known what is there, or to be there counts as having gone, or a
token is taken that stands behind it. -/
class inductive Bold (past : α → Bool) (moved : α → Prop) : Prop
  | known (h : F.known = true)
  | gone (h : ∀ a, past a = true → moved a)

/-- Where line breaks can be skipped: not on one side alone, unless that counts as having gone. -/
class inductive Calm (past : α → Bool) (moved : α → Prop) : Prop
  | alone (h : F.followed = false)
  | gone (h : ∀ a, past a = true → moved a)

variable {F} {past : α → Bool}

theorem known_iff : F.known = true ↔ F.closed = true ∨ F.followed = true := by
  unfold known
  cases F.closed <;> simp

instance bold_moves : F.Bold past fun _ => True := .gone fun _ _ => trivial

instance calm_moves : F.Calm past fun _ => True := .gone fun _ _ => trivial

theorem closed_of_followed (h : F.followed = true) : F.closed = false := by
  cases hclosed : F.closed with
  | false => rfl
  | true =>
    obtain ⟨-, -, e, more, hright, he⟩ := F.of_closed hclosed
    obtain ⟨-, e', hright', he'⟩ := F.of_followed h
    rw [hright] at hright'
    cases hright'
    rw [he] at he'
    cases he'

instance calm (moved : α → Prop) : F.Calm F.firm moved := by
  cases h : F.followed with
  | false => exact .alone h
  | true => exact .gone fun _ ha => absurd ((closed_of_followed h).symm.trans ha) Bool.false_ne_true

theorem Calm.moved_of {moved : α → Prop} (h : F.Calm past moved) (hfollowed : F.followed = true) {a : α}
    (ha : past a = true) : moved a := by
  rcases h with halone | hgone
  · exact absurd (halone.symm.trans hfollowed) Bool.false_ne_true
  · exact hgone a ha

theorem tight_of_behind {isBlock : Bool} (h : F.behind isBlock = true) : F.known = true := by
  cases isBlock with
  | true => exact known_iff.mpr (.inl h)
  | false => exact h

theorem bold_of (moved : α → Prop) (h : ∀ a, past a = true → F.known = true) : F.Bold past moved := by
  cases hknown : F.known with
  | true => exact .known hknown
  | false => exact .gone fun a ha => absurd (hknown.symm.trans (h a ha)) Bool.false_ne_true

instance bold_tight (moved : α → Prop) : F.Bold F.tight moved := bold_of moved fun _ => id

instance bold_firm (moved : α → Prop) : F.Bold F.firm moved :=
  bold_of moved fun _ h => known_iff.mpr (.inl h)

instance bold_behind (isBlock : α → Bool) (moved : α → Prop) : F.Bold (fun a => F.behind (isBlock a)) moved :=
  bold_of moved fun _ => tight_of_behind

theorem Fits.le {n m : Nat} (h : F.Fits n) (hle : m ≤ n) : F.Fits m := fun k hk => Nat.le_trans hle (h k hk)

theorem Fits.pred {n : Nat} (h : F.Fits (n + 1)) : F.Fits n := h.le (Nat.le_succ n)

end Seam

/-- How two readings end together that began at `s` on the left. A result on the right is one on the left too,
or else both have gone to the seam, as far as they have results. If an assignment follows on the right, it can also
be that the reading on the left failed and the other one has gone there. -/
inductive Outcome [Likeness α] (C : Corpus) (F : Seam) (past : α → Bool) (moved : α → Prop) (s : ParseState) :
    Except (Stop SyntaxError) (α × ParseState) → Except (Stop SyntaxError) (α × ParseState) → Prop
  | same {a a' t t'} (like : Like F.scale a a') (reads : F.Reads C t t') (suffix : t.tokens <:+ s.tokens)
      (on : moved a → t.tokens.length < s.tokens.length) : Outcome C F past moved s (.ok (a, t)) (.ok (a', t'))
  | gone {x a' t'} (right : F.GoneRight (past a') t')
      (left : ∀ a t, x = .ok (a, t) → F.GoneLeft (past a) t) : Outcome C F past moved s x (.ok (a', t'))
  | lost {stop a' t'} (right : F.GoneRight false t') (assigned : ∃ t ∈ F.right.head?, t.kind = .symbol .equal) :
      Outcome C F past moved s (.error stop) (.ok (a', t'))
  | fail {x stop} (twin : F.twin = true → ∀ e, stop = .fault e →
      ∃ e', x = .error (.fault e') ∧ (F.Identical → e' = e)) : Outcome C F past moved s x (.error stop)

/-- A parser that never goes back, and that takes a token where it gives a result that says so. -/
def Forward (C : Corpus) (P : TokenKind Token → Prop) (moved : α → Prop) (p : Parser α) : Prop :=
  ∀ r s a t, C.Holds s → P s.kind → p r s = .ok (a, t) →
    t.tokens <:+ s.tokens ∧ (moved a → t.tokens.length < s.tokens.length)

/-- A parser that comes to an end if there are no more than `n` tokens and a turn for each of them. -/
def Halts (C : Corpus) (n : Nat) (P : TokenKind Token → Prop) (p : Parser α) : Prop :=
  ∀ r s, C.Holds s → P s.kind → Token.weights s.tokens ≤ n → Token.weights s.tokens < r.turns →
    p r s ≠ .error .exhausted

/-- What is at hand in two readings. -/
abbrev Pairing := TokenKind Token → TokenKind Token → Prop

namespace Pairing

def both (P : TokenKind Token → Prop) : Pairing := fun k k' => P k ∧ P k'

abbrev any : Pairing := both fun _ => True

abbrev solid : Pairing := both fun k => k.isEnd = false

def these (k k' : TokenKind Token) : Pairing := fun l l' => l = k ∧ l' = k'

def left (K : Pairing) (k : TokenKind Token) : Prop := ∃ k', K k k'

def right (K : Pairing) (k' : TokenKind Token) : Prop := ∃ k, K k k'

theorem left_any (k : TokenKind Token) : any.left k := ⟨k, trivial, trivial⟩

theorem right_any (k : TokenKind Token) : any.right k := ⟨k, trivial, trivial⟩

end Pairing

abbrev still : α → Prop := fun _ => False

abbrev moves : α → Prop := fun _ => True

def onNext : Turn β α → Prop
  | .next _ => True
  | .done _ => False

/-- Two parsers that go on in the same way from all states that `F` compares. Where things compare with
themselves, neither goes back and the one on the left comes to an end. -/
structure Tandem [Likeness α] (C : Corpus) (F : Seam) (n : Nat) (past : α → Bool) (K : Pairing)
    (moved : α → Prop) (p p' : Parser α) : Prop where
  left : F.scale.Fixed → Forward C K.left moved p
  right : F.scale.Fixed → Forward C K.right moved p'
  halts : F.scale.Fixed → Halts C n K.left p
  related : ∀ r r' s s', F.Around r r' → F.Reads C s s' → Token.weights s.tokens ≤ n →
    Token.weights s.tokens < r.turns → K s.kind s'.kind → Outcome C F past moved s (p r s) (p' r' s')

variable {C : Corpus} {F : Seam} {n m : Nat} {K L : Pairing} {P Q : TokenKind Token → Prop}

section Unary

open ScriptLang.Parser

variable {p : Parser α} {f : α → Parser β} {q : α → Prop} {u : α → β → Prop} {u' : β → Prop}

theorem Forward.holds (h : Forward C P q p) {r : Surroundings} {s t : ParseState} {a : α} (hs : C.Holds s)
    (hk : P s.kind) (hrun : p r s = .ok (a, t)) : C.Holds t :=
  hs.suffix (h r s a t hs hk hrun).1

theorem Forward.bind (hp : Forward C P q p) (hf : ∀ a, Forward C Pairing.any.left (u a) (f a))
    (hu : ∀ a b, u' b → q a ∨ u a b) : Forward C P u' (p >>= f) := by
  intro r s b v hs hk hrun
  obtain ⟨a, t, hat, hbv⟩ := bind_eq_ok.mp hrun
  obtain ⟨hsuffix, hmoved⟩ := hp r s a t hs hk hat
  obtain ⟨hsuffix', hmoved'⟩ := hf a r t b v (hs.suffix hsuffix) (Pairing.left_any _) hbv
  refine ⟨hsuffix'.trans hsuffix, fun hb => ?_⟩
  rcases hu a b hb with hq | hub
  · exact Nat.lt_of_le_of_lt hsuffix'.length_le (hmoved hq)
  · exact Nat.lt_of_lt_of_le (hmoved' hub) hsuffix.length_le

/-- What comes behind a token that was taken has one token less. -/
theorem Halts.bind (hp : Halts C n P p) (hon : Forward C P q p) {m : α → Nat}
    (hf : ∀ a, Halts C (m a) Pairing.any.left (f a)) (hsize : ∀ a, n ≤ m a ∨ n ≤ m a + 1 ∧ q a) :
    Halts C n P (p >>= f) := by
  intro r s hs hk hsize' hturns hrun
  rw [bind_apply] at hrun
  cases hp' : p r s with
  | error stop =>
    rw [hp'] at hrun
    cases hrun
    exact hp r s hs hk hsize' hturns hp'
  | ok result =>
    rw [hp'] at hrun
    obtain ⟨hsuffix, hmoved⟩ := hon r s result.1 result.2 hs hk hp'
    have hle := Token.weights_le_of_suffix hsuffix
    refine hf result.1 r result.2 (hs.suffix hsuffix) (Pairing.left_any _) ?_
      (Nat.lt_of_le_of_lt hle hturns) hrun
    rcases hsize result.1 with hsize | ⟨hsize, hq⟩
    · omega
    · have := Token.weights_lt_of_suffix hsuffix (hmoved hq)
      omega

end Unary

namespace Seam

theorem GoneRight.not_empty {c : Bool} (h : F.GoneRight c t) : F.right ≠ [] := by
  intro hright
  have hpos : 0 < t.tokens.length := Nat.succ_pos _
  rw [GoneRight, hright, List.length_nil] at h
  omega

theorem not_empty_left {s : ParseState} (h : s.tokens = F.left) : F.left ≠ [] :=
  fun hleft => List.cons_ne_nil _ _ (h.trans hleft)

theorem twin_eq_false (h : F.left ≠ [] ∨ F.right ≠ []) : F.twin = false := by
  cases htwin : F.twin with
  | false => rfl
  | true => rcases h with h | h <;> exact absurd (by simp [F.of_twin htwin]) h

/-- Where there is a seam, things compare with themselves. -/
theorem fixed_of_seam (h : F.left ≠ [] ∨ F.right ≠ []) : F.scale.Fixed := by
  rcases F.fixed with hfixed | ⟨hleft, hright⟩
  · exact hfixed
  · rcases h with h | h
    · exact absurd hleft h
    · exact absurd hright h

theorem twin_of_closed (F : Seam) (h : F.closed = true) : F.twin = false := by
  obtain ⟨-, ⟨e, hleft, -⟩, -⟩ := F.of_closed h
  exact twin_eq_false (.inl (hleft ▸ List.cons_ne_nil _ _))

theorem twin_of_followed (F : Seam) (h : F.followed = true) : F.twin = false := by
  obtain ⟨⟨e, next, more, hleft, -⟩, -⟩ := F.of_followed h
  exact twin_eq_false (.inl (hleft ▸ List.cons_ne_nil _ _))

/-- Identical twins are in the same state. -/
theorem Reads.eq_of_twin {s s' : ParseState} (h : F.Reads C s s') (htwin : F.twin = true)
    (hsame : F.Identical) : s = s' := by
  obtain ⟨hleft, hright⟩ := F.of_twin htwin
  obtain ⟨hscale, hstart⟩ := hsame
  obtain ⟨-, -, ⟨xs, xs', htokens, hs, hs'⟩, hprevious, hnextId⟩ := h
  rw [SameToken, hscale] at htokens
  rw [hstart, hscale] at hprevious
  rw [hscale] at hnextId
  rw [hleft, List.append_nil] at hs
  rw [hright, List.append_nil, ← Token.eq_of_alike htokens, ← hs] at hs'
  obtain ⟨⟨previous, current, rest⟩, id⟩ := s
  obtain ⟨⟨previous', current', rest'⟩, id'⟩ := s'
  cases hs'
  cases (hprevious nofun).eq
  cases hnextId
  rfl

end Seam

namespace Outcome

variable [Likeness α] {past past' : α → Bool} {q q' : α → Prop} {s : ParseState}
  {x x' : Except (Stop SyntaxError) (α × ParseState)} {stop : Stop SyntaxError}

theorem mono (h : Outcome C F past q s x x') (hq : ∀ a, q' a → q a)
    (hpast : ∀ a, past' a = true → past a = true) : Outcome C F past' q' s x x' := by
  have hgone {limit : Nat} {t : ParseState} (a : α) (h : t.tokens.length + (past a).toNat ≤ limit) :
      t.tokens.length + (past' a).toNat ≤ limit := by
    cases ha : past' a with
    | false => exact Nat.le_trans (Nat.le_add_right ..) h
    | true => rwa [hpast a ha] at h
  cases h with
  | same like reads suffix on => exact .same like reads suffix fun ha => on (hq _ ha)
  | gone right left => exact .gone (hgone _ right) fun a t hrun => hgone a (left a t hrun)
  | lost right assigned => exact .lost right assigned
  | fail twin => exact .fail twin

theorem after (h : Outcome C F past q t x x') (hsuffix : t.tokens <:+ s.tokens)
    (hq : ∀ a, q' a → q a ∨ t.tokens.length < s.tokens.length) : Outcome C F past q' s x x' := by
  cases h with
  | same like reads suffix on =>
    refine .same like reads (suffix.trans hsuffix) fun ha => ?_
    rcases hq _ ha with ha | hlt
    · exact Nat.lt_of_lt_of_le (on ha) hsuffix.length_le
    · exact Nat.lt_of_le_of_lt suffix.length_le hlt
  | gone right left => exact .gone right left
  | lost right assigned => exact .lost right assigned
  | fail twin => exact .fail twin

theorem fail_of_seam (h : F.left ≠ [] ∨ F.right ≠ []) : Outcome C F past q s x (.error stop) := by
  refine .fail fun htwin => ?_
  rw [Seam.twin_eq_false h] at htwin
  cases htwin

end Outcome

namespace Tandem

open ScriptLang.Parser

variable [Likeness α] [Likeness β] {p p' : Parser α} {f f' : α → Parser β} {q q' : α → Prop}
  {u u' : β → Prop} {past past' : α → Bool} {c : Bool} {e e' : γ → Parser α} {span span' : Span}

theorem mono (h : Tandem C F n past K q p p') (hsize : m ≤ n) (hK : ∀ k k', L k k' → K k k') (hq : ∀ a, q' a → q a)
    (hpast : ∀ a, past' a = true → past a = true) : Tandem C F m past' L q' p p' := by
  have hleft (k : TokenKind Token) : L.left k → K.left k := fun ⟨k', hk⟩ => ⟨k', hK k k' hk⟩
  have hright (k : TokenKind Token) : L.right k → K.right k := fun ⟨k', hk⟩ => ⟨k', hK k' k hk⟩
  refine ⟨?_, ?_, ?_, ?_⟩
  · intro hfixed r s a t hs hk hrun
    exact (h.left hfixed r s a t hs (hleft _ hk) hrun).imp_right fun hmoved ha => hmoved (hq a ha)
  · intro hfixed r s a t hs hk hrun
    exact (h.right hfixed r s a t hs (hright _ hk) hrun).imp_right fun hmoved ha => hmoved (hq a ha)
  · exact fun hfixed r s hs hk hn => h.halts hfixed r s hs (hleft _ hk) (Nat.le_trans hn hsize)
  · exact fun r r' s s' hr hs hn hturns hk =>
      (h.related r r' s s' hr hs (Nat.le_trans hn hsize) hturns (hK _ _ hk)).mono hq hpast

theorem le (h : Tandem C F n past K q p p') (hsize : m ≤ n) : Tandem C F m past K q p p' :=
  h.mono hsize (fun _ _ => id) (fun _ => id) fun _ => id

theorem given (h : Tandem C F n past .any q p p') : Tandem C F n past K q p p' :=
  h.mono (Nat.le_refl n) (fun _ _ _ => ⟨trivial, trivial⟩) (fun _ => id) fun _ => id

section

variable (h : Tandem C F n past K q p p')

include h

theorem weaken (hq : ∀ a, q' a → q a) : Tandem C F n past K q' p p' :=
  h.mono (Nat.le_refl n) (fun _ _ => id) hq fun _ => id

theorem still : Tandem C F n past K still p p' :=
  h.weaken fun _ => False.elim

/-- Less is said of the results that are at the seam. -/
theorem lax (hpast : ∀ a, past' a = true → past a = true) : Tandem C F n past' K q p p' :=
  h.mono (Nat.le_refl n) (fun _ _ => id) (fun _ => id) hpast

end

theorem firm (h : Tandem C F n F.tight K q p p') : Tandem C F n F.firm K q p p' :=
  h.lax fun _ hfirm => Seam.known_iff.mpr (.inl hfirm)

/-- The rule for sequences. What comes behind has one token less to read if one was taken. Where the first
parser has only gone to the seam, a token that is taken behind it is behind the seam. -/
theorem bind_of {past : β → Bool} (hp : Tandem C F n past' K q p p') {m : α → Nat} {u : α → β → Prop}
    (hf : ∀ a a', Like F.scale a a' → Tandem C F (m a) past .any (u a) (f a) (f' a'))
    (hsize : ∀ a, n ≤ m a ∨ n ≤ m a + 1 ∧ q a) (hpast : ∀ a b, past b = true → past' a = true ∨ u a b)
    (hu : ∀ a b, u' b → q a ∨ u a b) : Tandem C F n past K u' (p >>= f) (p' >>= f') := by
  have hself (hfixed : F.scale.Fixed) (a : α) := hf a a (Likeness.refl hfixed a)
  refine ⟨fun hfixed => (hp.left hfixed).bind (fun a => (hself hfixed a).left hfixed) hu,
    fun hfixed => (hp.right hfixed).bind (fun a => ?_) hu,
    fun hfixed => (hp.halts hfixed).bind (hp.left hfixed) (fun a => (hself hfixed a).halts hfixed) hsize, ?_⟩
  · intro r s b t hs _
    exact (hself hfixed a).right hfixed r s b t hs (Pairing.right_any _)
  intro r r' s s' hr hs hn hturns hk
  have hrelated := hp.related r r' s s' hr hs hn hturns hk
  have hleft (hfixed : F.scale.Fixed) := hp.left hfixed r s
  have hright (hfixed : F.scale.Fixed) := hp.right hfixed r' s'
  rw [bind_apply, bind_apply]
  generalize p r s = x, p' r' s' = x' at *
  cases hrelated with
  | @same a a' t t' like reads hsuffix hmoved =>
    have hle := Token.weights_le_of_suffix hsuffix
    have hm : Token.weights t.tokens ≤ m a := by
      rcases hsize a with hsize | ⟨hsize, hq⟩
      · omega
      · have := Token.weights_lt_of_suffix hsuffix (hmoved hq)
        omega
    refine ((hf a a' like).related r r' t t' hr reads hm (Nat.lt_of_le_of_lt hle hturns)
      ⟨trivial, trivial⟩).after hsuffix fun b hb => ?_
    exact (hu a b hb).symm.imp_right hmoved
  | @gone x a' t' right left =>
    have hfixed := Seam.fixed_of_seam (.inr right.not_empty)
    have ht' : C.Holds t' := hs.right.suffix (hright hfixed a' t' hs.right ⟨_, hk⟩ rfl).1
    dsimp only
    cases hrun' : f' a' r' t' with
    | error stop => exact .fail_of_seam (.inr right.not_empty)
    | ok result =>
      obtain ⟨b', v'⟩ := result
      -- Whatever comes behind goes on from there.
      have hgone {limit : Nat} {a : α} {b : β} {t v : ParseState}
          (ht : t.tokens.length + (past' a).toNat ≤ limit)
          (hv : v.tokens <:+ t.tokens ∧ (u a b → v.tokens.length < t.tokens.length)) :
          v.tokens.length + (past b).toNat ≤ limit := by
        have hle := hv.1.length_le
        cases hb : past b with
        | false => exact Nat.le_trans hle (Nat.le_trans (Nat.le_add_right ..) ht)
        | true =>
          rcases hpast a b hb with ha | hmoves
          · rw [ha] at ht
            exact Nat.le_trans (Nat.add_le_add_right hle _) ht
          · exact Nat.le_trans (hv.2 hmoves) (Nat.le_trans (Nat.le_add_right ..) ht)
      refine .gone (hgone right
        ((hself hfixed a').right hfixed r' t' b' v' ht' (Pairing.right_any _) hrun')) ?_
      intro b v hrun
      cases x with
      | error => cases hrun
      | ok result =>
        obtain ⟨a, t⟩ := result
        have ht : C.Holds t := hs.left.suffix (hleft hfixed a t hs.left ⟨_, hk⟩ rfl).1
        exact hgone (left a t rfl) ((hself hfixed a).left hfixed r t b v ht (Pairing.left_any _) hrun)
  | @lost stop a' t' right assigned =>
    have hfixed := Seam.fixed_of_seam (.inr right.not_empty)
    have ht' : C.Holds t' := hs.right.suffix (hright hfixed a' t' hs.right ⟨_, hk⟩ rfl).1
    dsimp only
    cases hrun' : f' a' r' t' with
    | error stop => exact .fail_of_seam (.inr right.not_empty)
    | ok result =>
      obtain ⟨b', v'⟩ := result
      have hsuffix := ((hself hfixed a').right hfixed r' t' b' v' ht' (Pairing.right_any _) hrun').1
      exact .lost (Nat.le_trans hsuffix.length_le right) assigned
  | fail twin =>
    refine .fail fun htwin e he => ?_
    obtain ⟨e', rfl, hsame⟩ := twin htwin e he
    exact ⟨e', rfl, hsame⟩

theorem bind (hp : Tandem C F n (fun _ => c) K q p p')
    (hf : ∀ a a', Like F.scale a a' → Tandem C F n (fun _ => c) .any u (f a) (f' a')) :
    Tandem C F n (fun _ => c) K u (p >>= f) (p' >>= f') :=
  bind_of hp hf (fun _ => .inl (Nat.le_refl n)) (fun _ _ => .inl) fun _ _ => .inr

theorem bind_moved (hp : Tandem C F (n + 1) (fun _ => c) K moves p p')
    (hf : ∀ a a', Like F.scale a a' → Tandem C F n (fun _ => c) .any ScriptLang.still (f a) (f' a')) :
    Tandem C F (n + 1) (fun _ => c) K u (p >>= f) (p' >>= f') :=
  bind_of hp hf (fun _ => .inr ⟨Nat.le_refl _, trivial⟩) (fun _ _ => .inl) fun _ _ _ => .inl trivial

theorem bind_on (hp : Tandem C F n (fun _ => c) K moves p p')
    (hf : ∀ a a', Like F.scale a a' → Tandem C F n (fun _ => c) .any ScriptLang.still (f a) (f' a')) :
    Tandem C F n (fun _ => c) K u (p >>= f) (p' >>= f') :=
  bind_of hp hf (fun _ => .inl (Nat.le_refl _)) (fun _ _ => .inl) fun _ _ _ => .inl trivial

/-- What is at the seam behind the first parser does not matter to it. -/
theorem bind_free {past : β → Bool} (hp : Tandem C F n (fun _ => true) K q p p')
    (hf : ∀ a a', Like F.scale a a' → Tandem C F n past .any u (f a) (f' a')) :
    Tandem C F n past K u (p >>= f) (p' >>= f') :=
  bind_of hp hf (fun _ => .inl (Nat.le_refl _)) (fun _ _ _ => .inl rfl) fun _ _ => .inr

/-- It does not matter to one that takes a token. -/
theorem bind_taken {past : β → Bool} (hp : Tandem C F n (fun _ => true) K moves p p')
    (hf : ∀ a a', Like F.scale a a' → Tandem C F n past .any ScriptLang.still (f a) (f' a')) :
    Tandem C F n past K u (p >>= f) (p' >>= f') :=
  bind_of hp hf (fun _ => .inl (Nat.le_refl _)) (fun _ _ _ => .inl rfl) fun _ _ _ => .inl trivial

/-- A token is taken behind the first parser, so that if this has gone to the seam, the rest goes behind
it. -/
theorem bind_past {past : β → Bool} (hp : Tandem C F n past' K q p p')
    (hf : ∀ a a', Like F.scale a a' → Tandem C F n past .any moves (f a) (f' a')) :
    Tandem C F n past K u (p >>= f) (p' >>= f') :=
  bind_of hp hf (fun _ => .inl (Nat.le_refl _)) (fun _ _ _ => .inr trivial) fun _ _ _ => .inr trivial

/-- Behind a block a token is taken. -/
theorem bind_blockwise {p p' : Parser (α × Bool)} {f f' : α × Bool → Parser β} {q : α × Bool → Prop}
    (hp : Tandem C F n F.blockwise K q p p')
    (hf : ∀ a a' isBlock, Like F.scale a a' →
      Tandem C F n F.tight .any (fun _ => isBlock = true) (f (a, isBlock)) (f' (a', isBlock))) :
    Tandem C F n F.tight K ScriptLang.still (p >>= f) (p' >>= f') := by
  refine bind_of (u := fun x _ => x.2 = true) hp ?_ (fun _ => .inl (Nat.le_refl n)) ?_ fun _ _ => False.elim
  · rintro ⟨a, isBlock⟩ ⟨a', _⟩ ⟨ha, rfl⟩
    exact hf a a' isBlock ha
  · rintro ⟨a, isBlock⟩ b htight
    cases isBlock with
    | true => exact .inr rfl
    | false => exact .inl htight

theorem pure_of {a a' : α} (h : Like F.scale a a') (hq : ¬q a) (hq' : ¬q a') :
    Tandem C F n past K q (pure a) (pure a') := by
  refine ⟨?_, ?_, nofun, ?_⟩
  · rintro - r s _ _ hs hk ⟨⟩
    exact ⟨List.suffix_rfl, fun ha => absurd ha hq⟩
  · rintro - r s _ _ hs hk ⟨⟩
    exact ⟨List.suffix_rfl, fun ha => absurd ha hq'⟩
  · exact fun r r' s s' _ hs _ _ _ => .same h hs List.suffix_rfl fun ha => absurd ha hq

theorem pure {a a' : α} (h : Like F.scale a a') : Tandem C F n past K ScriptLang.still (pure a) (pure a') :=
  pure_of h id id

/-- Parsers that fail. Identical twins fail with the same fault. -/
theorem of_fails (hp : ∀ r s, ∃ e, p r s = .error (.fault e)) (hp' : ∀ r s, ∃ e, p' r s = .error (.fault e))
    (htwin : ∀ r r' s, r.depth = r'.depth → F.Identical → p r s = p' r' s) : Tandem C F n past K q p p' := by
  refine ⟨?_, ?_, ?_, ?_⟩
  · intro _ r s a t _ _ hrun
    obtain ⟨e, he⟩ := hp r s
    cases he.symm.trans hrun
  · intro _ r s a t _ _ hrun
    obtain ⟨e, he⟩ := hp' r s
    cases he.symm.trans hrun
  · intro _ r s _ _ _ _ hrun
    obtain ⟨e, he⟩ := hp r s
    cases he.symm.trans hrun
  · intro r r' s s' hr hs _ _ _
    obtain ⟨e, he⟩ := hp r s
    obtain ⟨e', he'⟩ := hp' r' s'
    rw [he']
    refine .fail ?_
    rintro h _ ⟨⟩
    refine ⟨e, he, fun hsame => ?_⟩
    rw [htwin r r' s (hr.twin h) hsame, hs.eq_of_twin h hsame, he'] at he
    cases he
    rfl

theorem fault (cause : SyntaxCause) (h : span.Like F.scale span') :
    Tandem C F n past K q (fault cause span) (fault cause span') := by
  refine of_fails (fun _ _ => ⟨_, rfl⟩) (fun _ _ => ⟨_, rfl⟩) fun r r' s _ hsame => ?_
  rw [hsame.1] at h
  rw [h.eq]
  rfl

theorem fault_bind (cause : SyntaxCause) (h : span.Like F.scale span') :
    Tandem C F n past K q (Parser.fault cause span >>= e) (Parser.fault cause span' >>= e') := by
  refine of_fails (fun _ _ => ⟨_, rfl⟩) (fun _ _ => ⟨_, rfl⟩) fun r r' s _ hsame => ?_
  rw [hsame.1] at h
  rw [h.eq]
  rfl

theorem unexpected (what : String) : Tandem C F n past K q (unexpected what) (unexpected what) :=
  of_fails (fun _ _ => ⟨_, rfl⟩) (fun _ _ => ⟨_, rfl⟩) fun _ _ _ _ _ => rfl

theorem unexpected_bind (what : String) :
    Tandem C F n past K q (Parser.unexpected what >>= e) (Parser.unexpected what >>= e') :=
  of_fails (fun _ _ => ⟨_, rfl⟩) (fun _ _ => ⟨_, rfl⟩) fun _ _ _ _ _ => rfl

/-- Where the reading on the right fails, it is enough that the other one goes on and comes to an end. -/
theorem of_refuses {o : Parser α} (hleft : Tandem C F n past K q p o)
    (hright : ∀ r s, K.right s.kind → ∀ x, p' r s ≠ .ok x) (htwin : F.twin = false) : Tandem C F n past K q p p' := by
  refine ⟨hleft.left, ?_, hleft.halts, ?_⟩
  · intro _ r s a t _ hk hrun
    exact absurd hrun (hright r s hk (a, t))
  · intro r r' s s' _ _ _ _ hk
    cases hrun : p' r' s' with
    | ok x => exact absurd hrun (hright r' s' ⟨_, hk⟩ x)
    | error =>
      refine .fail fun h => ?_
      rw [htwin] at h
      cases h

theorem of_exhausted (h : Tandem C F n past K q p p') : Tandem C F n past K q p (throw .exhausted) :=
  ⟨h.left, nofun, h.halts, fun _ _ _ _ _ _ _ _ _ => .fail nofun⟩

theorem ite {c c' : Prop} [Decidable c] [Decidable c'] {o o' : Parser α} (hc : c ↔ c')
    (yes : c → Tandem C F n past K q p p') (no : ¬c → Tandem C F n past K q o o') :
    Tandem C F n past K q (if c then p else o) (if c' then p' else o') := by
  by_cases h : c
  · rw [if_pos h, if_pos (hc.mp h)]
    exact yes h
  · rw [if_neg h, if_neg (mt hc.mpr h)]
    exact no h

theorem guard {c c' : Prop} [Decidable c] [Decidable c'] (cause : SyntaxCause)
    (hc : c ↔ c') (hspan : span.Like F.scale span')
    (h : ¬c → Tandem C F n past K q p p') :
    Tandem C F n past K q (if c then Parser.fault cause span >>= e else p)
      (if c' then Parser.fault cause span' >>= e' else p') :=
  ite hc (fun _ => fault_bind cause hspan) h

theorem map {g g' : α → β} (hp : Tandem C F n (fun _ => c) K q p p')
    (hg : ∀ a a', Like F.scale a a' → Like F.scale (g a) (g' a')) (hu : ∀ a b, u b → q a) :
    Tandem C F n (fun _ => c) K u (g <$> p) (g' <$> p') :=
  bind_of hp (u := fun _ => ScriptLang.still) (fun a a' h => pure (hg a a' h))
    (fun _ => .inl (Nat.le_refl n)) (fun _ _ => .inl) fun a b hb => .inl (hu a b hb)

theorem nested (hp : Tandem C F n past K q p p') : Tandem C F n past K q (nested p) (nested p') := by
  refine ⟨?_, ?_, ?_, ?_⟩
  · intro hfixed r s a t hs hk hrun
    rw [nested_apply] at hrun
    split at hrun
    · exact hp.left hfixed _ s a t hs hk hrun
    · cases hrun
  · intro hfixed r s a t hs hk hrun
    rw [nested_apply] at hrun
    split at hrun
    · exact hp.right hfixed _ s a t hs hk hrun
    · cases hrun
  · intro hfixed r s hs hk hn hturns hrun
    rw [nested_apply] at hrun
    split at hrun
    · exact hp.halts hfixed { r with depth := r.depth + 1 } s hs hk hn hturns hrun
    · cases hrun
  · intro r r' s s' hr hs hn hturns hk
    rw [nested_apply, nested_apply]
    by_cases hdepth : r'.depth < maxNesting
    · rw [if_pos hdepth, if_pos (Nat.lt_of_le_of_lt hr.depth hdepth)]
      refine hp.related { r with depth := r.depth + 1 } _ s s' ⟨Nat.succ_le_succ hr.depth, hr.inConstructor,
        fun h => congrArg (· + 1) (hr.twin h)⟩ hs hn hturns hk
    · rw [if_neg hdepth]
      refine .fail ?_
      rintro htwin e ⟨⟩
      rw [hr.twin htwin, if_neg hdepth]
      exact ⟨_, rfl, fun hsame => by rw [hs.eq_of_twin htwin hsame]⟩

theorem inConstructor (flag : Bool) (hp : Tandem C F n past K q p p') :
    Tandem C F n past K q (inConstructor flag p) (inConstructor flag p') :=
  ⟨fun h r => hp.left h { r with inConstructor := flag }, fun h r => hp.right h { r with inConstructor := flag },
    fun h r => hp.halts h { r with inConstructor := flag }, fun r r' s s' hr => hp.related
      { r with inConstructor := flag } { r' with inConstructor := flag } s s' ⟨hr.depth, rfl, hr.twin⟩⟩

end Tandem

end ScriptLang
