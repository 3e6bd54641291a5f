import ScriptLang.Proofs.Tandem.Basic

/-! Rules for the parsers that look at tokens, take them or repeat others, side by side. -/
namespace ScriptLang

open Likeness (Like)

variable {α β : Type} {C : Corpus} {F : Seam} {n m : Nat} {past : α → Bool} {c : Bool} {K : Pairing}
  {P Q : TokenKind Token → Prop} {sign : Symbol} {k k' : TokenKind Token}

section Loop

open ScriptLang.Parser

theorem Forward.pre {p : Parser α} {q : α → Prop} (h : Forward C P q p) (hP : ∀ k, Q k → P k) : Forward C Q q p :=
  fun r s a t hs hk => h r s a t hs (hP _ hk)

/-- A loop that gives a result has taken a turn. -/
theorem Parser.loop_eq_ok {turn : β → Parser (Turn β α)} {x : β} {r : Surroundings} {s : ParseState}
    {y : α × ParseState} (h : loop turn x r s = .ok y) : ∃ k, iterate turn (k + 1) x r s = .ok y := by
  have hrun : Parser.iterate turn r.turns x r s = .ok y := h
  cases hturns : r.turns with
  | zero =>
    rw [hturns] at hrun
    cases hrun
  | succ k => exact ⟨k, hturns ▸ hrun⟩

theorem Forward.iterate {turn : β → Parser (Turn β α)} {q : β → Turn β α → Prop} {v : β → α → Prop}
    (hturn : ∀ x, Forward C Pairing.any.left (q x) (turn x)) (hv : ∀ x b, v x b → ∀ t, q x t) (turns : Nat)
    (x : β) : Forward C Pairing.any.left (v x) (iterate turn turns x) := by
  induction turns generalizing x with
  | zero => exact nofun
  | succ turns ih =>
    refine Forward.bind (u := fun _ => still) (hturn x) (fun next => ?_) fun t b hb => .inl (hv x b hb t)
    cases next with
    | next y => exact fun r s a t hs hk hrun => ⟨(ih y r s a t hs hk hrun).1, False.elim⟩
    | done a =>
      rintro r s _ _ _ _ ⟨⟩
      exact ⟨List.suffix_rfl, False.elim⟩

namespace Tandem

/-- Where there are no tokens nothing has to be shown but that the parsers never go back. -/
theorem of_zero [Likeness α] {p p' : Parser α} {q : α → Prop} (hleft : F.scale.Fixed → Forward C K.left q p)
    (hright : F.scale.Fixed → Forward C K.right q p') : Tandem C F 0 past K q p p' := by
  have hpos (s : ParseState) : ¬Token.weights s.tokens ≤ 0 := by
    have := Token.weight_pos s.stream.current
    rw [ParseState.tokens, Stream.tokens, Token.weights]
    omega
  refine ⟨hleft, hright, ?_, ?_⟩
  · exact fun _ r s _ _ hsize => absurd hsize (hpos s)
  · exact fun r r' s s' _ _ hsize => absurd hsize (hpos s)

variable [Likeness α] [Likeness β] {turn turn' : β → Parser (Turn β α)} {x x' : β} {u : α → Prop}
  {v : β → α → Prop} {w : Turn β α → Prop} {q : β → Turn β α → Prop} {pause : Turn β α → Bool}

private theorem iterate_succ {k k' : Nat} (hfirst : Tandem C F n pause K w (turn x) (turn' x'))
    (hrest : ∀ y y', Like F.scale y y' →
      Tandem C F (n - 1) (fun _ => c) .any (v y) (iterate turn k y) (iterate turn' k' y'))
    (hw : ∀ t, onNext t → w t) (hu : ∀ b, u b → ∀ t, w t) (hdone : ∀ a, c = true → pause (.done a) = true)
    (hnext : ∀ y b, c = true → pause (.next y) = true ∨ v y b) :
    Tandem C F n (fun _ => c) K u (iterate turn (k + 1) x) (iterate turn' (k' + 1) x') := by
  refine bind_of (m := fun t => t.casesOn (fun _ => n - 1) fun _ => n)
    (u := fun t => t.casesOn v fun _ => ScriptLang.still) hfirst ?_ ?_ ?_ ?_
  · rintro _ _ (hy | ha)
    · exact hrest _ _ hy
    · exact pure ha
  · rintro (y | a)
    · exact .inr ⟨Nat.le_add_of_sub_le (Nat.le_refl _), hw _ trivial⟩
    · exact .inl (Nat.le_refl n)
  · rintro (y | a) b hc
    · exact hnext y b hc
    · exact .inl (hdone a hc)
  · exact fun t b hb => .inl (hu b hb t)

section

variable (hturn : ∀ y y', Like F.scale y y' → Tandem C F n pause .any (q y) (turn y) (turn' y'))
  (hq : ∀ y t, onNext t → q y t) (hv : ∀ y b, v y b → ∀ t, q y t)
  (hlike : ∀ y y', Like F.scale y y' → ∀ b, v y b → v y' b) (hdone : ∀ a, c = true → pause (.done a) = true)
  (hnext : ∀ y b, c = true → pause (.next y) = true ∨ v y b)

include hturn hq hv hlike hdone hnext

private theorem iterate {k m : Nat} (hk : m ≤ k) (hn : m ≤ n) (k' : Nat) (hx : Like F.scale x x') :
    Tandem C F m (fun _ => c) .any (v x) (iterate turn k x) (iterate turn' k' x') := by
  have hright (h : F.scale.Fixed) (y : β) := (hturn y y (Likeness.refl h y)).right h
  induction k generalizing m k' x x' with
  | zero =>
    obtain rfl := Nat.le_zero.mp hk
    refine of_zero nofun fun h r s b t hs hk hrun => ?_
    exact (Forward.iterate (hright h) hv k' x' r s b t hs hk hrun).imp_right (· ∘ hlike x x' hx b)
  | succ k ih =>
    have hsucc (k' : Nat) : Tandem C F m (fun _ => c) .any (v x) (Parser.iterate turn (k + 1) x)
        (Parser.iterate turn' (k' + 1) x') := by
      refine iterate_succ ((hturn x x' hx).le hn) (fun y y' hy => ?_) (hq x) (hv x) hdone hnext
      exact ih (Nat.sub_le_of_le_add hk) (Nat.le_trans (Nat.sub_le m 1) hn) k' hy
    cases k' with
    | zero => exact ⟨(hsucc 0).left, nofun, (hsucc 0).halts, fun _ _ _ _ _ _ _ _ _ => .fail nofun⟩
    | succ k' => exact hsucc k'

/-- The rule for loops, with more known of the first turn than of the others. -/
theorem loop_of (hfirst : Tandem C F n pause K w (turn x) (turn' x')) (hw : ∀ t, onNext t → w t)
    (hu : ∀ b, u b → ∀ t, w t) : Tandem C F n (fun _ => c) K u (loop turn x) (loop turn' x') := by
  have hsucc {m k : Nat} (k' : Nat) (hk : m ≤ k + 1) (hn : m ≤ n) :
      Tandem C F m (fun _ => c) K u (Parser.iterate turn (k + 1) x) (Parser.iterate turn' (k' + 1) x') := by
    refine iterate_succ (hfirst.le hn) (fun y y' hy => ?_) hw hu hdone hnext
    exact iterate hturn hq hv hlike hdone hnext (Nat.sub_le_of_le_add hk) (Nat.le_trans (Nat.sub_le m 1) hn) k' hy
  refine ⟨?_, ?_, ?_, ?_⟩
  · intro hfixed r s a t hs hk hrun
    obtain ⟨k, hrun⟩ := Parser.loop_eq_ok hrun
    exact (hsucc 0 (Nat.zero_le _) (Nat.zero_le n)).left hfixed r s a t hs hk hrun
  · intro hfixed r s a t hs hk hrun
    obtain ⟨k, hrun⟩ := Parser.loop_eq_ok hrun
    exact (hsucc (k := 0) k (Nat.zero_le _) (Nat.zero_le n)).right hfixed r s a t hs hk hrun
  · intro hfixed r s hs hk hn hturns hrun
    have hrun : Parser.iterate turn r.turns x r s = .error .exhausted := hrun
    obtain ⟨k, hk'⟩ := Nat.exists_eq_add_one_of_ne_zero (Nat.ne_zero_of_lt hturns)
    rw [hk'] at hrun
    exact (hsucc 0 (Nat.le_of_lt (hk' ▸ hturns)) hn).halts hfixed r s hs hk (Nat.le_refl _) hturns hrun
  · intro r r' s s' hr hs hn hturns hk
    change Outcome C F _ u s (Parser.iterate turn r.turns x r s) (Parser.iterate turn' r'.turns x' r' s')
    obtain ⟨k, hk'⟩ := Nat.exists_eq_add_one_of_ne_zero (Nat.ne_zero_of_lt hturns)
    cases hturns' : r'.turns with
    | zero => exact .fail nofun
    | succ k' =>
      rw [hk']
      exact (hsucc k' (Nat.le_of_lt (hk' ▸ hturns)) hn).related r r' s s' hr hs (Nat.le_refl _) hturns hk

end

section

variable (hturn : ∀ y y', Like F.scale y y' → Tandem C F n (fun _ => c) .any onNext (turn y) (turn' y'))

include hturn

theorem loop (hx : Like F.scale x x') :
    Tandem C F n (fun _ => c) .any ScriptLang.still (loop turn x) (loop turn' x') :=
  loop_of (v := fun _ => ScriptLang.still) hturn (fun _ _ => id) (fun _ _ => False.elim) (fun _ _ _ _ => id)
    (fun _ => id) (fun _ _ => .inl) (hturn x x' hx) (fun _ => id) fun _ => False.elim

/-- A loop whose first turn takes a token in any case. -/
theorem loop_moved (hfirst : Tandem C F n (fun _ => c) K moves (turn x) (turn' x')) :
    Tandem C F n (fun _ => c) K u (Parser.loop turn x) (Parser.loop turn' x') :=
  loop_of (v := fun _ => ScriptLang.still) hturn (fun _ _ => id) (fun _ _ => False.elim) (fun _ _ _ _ => id)
    (fun _ => id) (fun _ _ => .inl) hfirst (fun _ _ => trivial) fun _ _ _ => trivial

end

/-- A loop whose turns all take a token, so that it does not matter if one of them has only gone to the seam, but
for the last. -/
theorem loop_moves (hturn : ∀ y y', Like F.scale y y' → Tandem C F n pause .any moves (turn y) (turn' y'))
    (hdone : ∀ a, c = true → pause (.done a) = true) (hx : Like F.scale x x') :
    Tandem C F n (fun _ => c) .any u (Parser.loop turn x) (Parser.loop turn' x') :=
  loop_of (v := fun _ => moves) hturn (fun _ _ _ => trivial) (fun _ _ _ _ => trivial) (fun _ _ _ _ => id) hdone
    (fun _ _ _ => .inr trivial) (hturn x x' hx) (fun _ _ => trivial) fun _ _ _ => trivial

end Tandem

end Loop

section States

variable {xs xs' : List Token}

namespace Seam

variable {s s' : ParseState}

theorem Similar.of_alike (h : TokenKind.Alike F.SameToken k k') : F.Similar k k' := by
  cases h with
  | plain h => exact .plain h
  | template segments => exact .template segments

theorem Similar.refl (h : F.scale.Fixed) (k : TokenKind Token) : F.Similar k k :=
  .of_alike (Token.kind_alike_refl h k)

/-- Two readings are both at the seam, or have tokens of one kind at hand. -/
theorem Reads.at_seam_or_inside (h : F.Reads C s s') : (s.tokens = F.left ∧ s'.tokens = F.right) ∨
    ∃ xs xs', F.SameToken s.stream.current s'.stream.current ∧ List.Forall₂ F.SameToken xs xs' ∧
      s.stream.rest = xs ++ F.left ∧ s'.stream.rest = xs' ++ F.right := by
  obtain ⟨-, -, ⟨xs, xs', htokens, hs, hs'⟩, -, -⟩ := h
  cases htokens with
  | nil => exact .inl ⟨hs, hs'⟩
  | cons hfirst hrest =>
    obtain ⟨rfl, htail⟩ := List.cons.inj hs
    obtain ⟨rfl, htail'⟩ := List.cons.inj hs'
    exact .inr ⟨_, _, hfirst, hrest, htail, htail'⟩

section

variable (hs : s.tokens = F.left) (hs' : s'.tokens = F.right)

include hs hs'

/-- What is at hand at the seam of a closed pair. -/
theorem kinds_of_closed (hclosed : F.closed = true) : s.kind = .endOfInput ∧ s'.kind = .symbol .rightParen := by
  obtain ⟨-, ⟨e, hleft, he⟩, e', more, hright, he'⟩ := F.of_closed hclosed
  rw [hleft] at hs
  rw [hright] at hs'
  obtain ⟨rfl, -⟩ := List.cons.inj hs
  obtain ⟨rfl, -⟩ := List.cons.inj hs'
  exact ⟨he, he'⟩

/-- What is at hand at the seam of a pair that is followed. -/
theorem kinds_of_followed (hfollowed : F.followed = true) : s.kind = .newline ∧ s'.kind = .endOfInput := by
  obtain ⟨⟨e, next, more, hleft, he, -⟩, e', hright, he'⟩ := F.of_followed hfollowed
  rw [hleft] at hs
  rw [hright] at hs'
  obtain ⟨rfl, -⟩ := List.cons.inj hs
  obtain ⟨rfl, -⟩ := List.cons.inj hs'
  exact ⟨he, he'⟩

theorem similar_of_seam (h : F.known = true) : F.Similar s.kind s'.kind := by
  rcases known_iff.mp h with hclosed | hfollowed
  · obtain ⟨hk, hk'⟩ := kinds_of_closed hs hs' hclosed
    rw [hk, hk']
    exact .seam hclosed
  · obtain ⟨hk, hk'⟩ := kinds_of_followed hs hs' hfollowed
    rw [hk, hk']
    exact .line hfollowed

end

/-- Where it is known what is at the seam, tokens of similar kinds are at hand. -/
theorem Reads.similar (h : F.Reads C s s') (hknown : F.known = true) : F.Similar s.kind s'.kind := by
  rcases h.at_seam_or_inside with ⟨hseam, hseam'⟩ | ⟨xs, xs', hfirst, -⟩
  · exact similar_of_seam hseam hseam' hknown
  · exact .of_alike hfirst.kind

/-- No branch of a conditional is opened at the seam. -/
theorem opensBranch?_of_seam (hs : s.tokens = F.left) (hs' : s'.tokens = F.right) :
    s.kind.opensBranch? = none ∧ s'.kind.opensBranch? = none := by
  refine ⟨?_, (F.quiet_right _ (hs' ▸ rfl)).2⟩
  cases hfollowed : F.followed with
  | false => exact (F.quiet_left hfollowed _ (hs ▸ rfl)).2
  | true => rw [(kinds_of_followed hs hs' hfollowed).1]; rfl

end Seam

/-- Where there is a seam it is enough that all results have gone there. -/
theorem Outcome.of_gone [Likeness α] {q : α → Prop} {s : ParseState}
    {x x' : Except (Stop SyntaxError) (α × ParseState)} (hseam : F.left ≠ [] ∨ F.right ≠ [])
    (hleft : ∀ a t, x = .ok (a, t) → F.GoneLeft (past a) t)
    (hright : ∀ a t, x' = .ok (a, t) → F.GoneRight (past a) t) : Outcome C F past q s x x' := by
  cases x' with
  | error stop => exact .fail_of_seam hseam
  | ok result => exact .gone (hright _ _ rfl) hleft

namespace Seam

variable {s s' : ParseState}

/-- From the seam two readings go on, each for itself. -/
theorem Reads.outcome_of_seam [Likeness α] {p p' : Parser α} {q : α → Prop} (h : F.Reads C s s')
    (hs : s.tokens = F.left) (hs' : s'.tokens = F.right) (hp : F.scale.Fixed → Forward C P q p)
    (hp' : F.scale.Fixed → Forward C Q q p') (hk : P s.kind) (hk' : Q s'.kind)
    (hpast : ∀ a, past a = true → q a) (r r' : Surroundings) : Outcome C F past q s (p r s) (p' r' s') := by
  have hfixed := fixed_of_seam (.inl (not_empty_left hs))
  have hgone {limit : Nat} {a : α} {s t : ParseState} (hlimit : s.tokens.length = limit)
      (ht : t.tokens <:+ s.tokens ∧ (q a → t.tokens.length < s.tokens.length)) :
      t.tokens.length + (past a).toNat ≤ limit := by
    have hle := ht.1.length_le
    cases ha : past a with
    | false => exact hlimit ▸ hle
    | true => exact hlimit ▸ ht.2 (hpast a ha)
  refine .of_gone (.inl (not_empty_left hs)) (fun a t hrun => ?_) fun a' t' hrun' => ?_
  · exact hgone (congrArg _ hs) (hp hfixed r s a t h.left hk hrun)
  · exact hgone (congrArg _ hs') (hp' hfixed r' s' a' t' h.right hk' hrun')

theorem Reads.advance (h : F.Reads C s s') (hk : s.kind.isEnd = false) (hk' : s'.kind.isEnd = false)
    (hfirst : F.SameToken s.stream.current s'.stream.current) (hxs : List.Forall₂ F.SameToken xs xs')
    (hs : s.stream.rest = xs ++ F.left) (hs' : s'.stream.rest = xs' ++ F.right) :
    F.Reads C { s with stream := s.stream.advance } { s' with stream := s'.stream.advance } := by
  obtain ⟨next, rest, hrest⟩ := h.left.exists_next hk
  obtain ⟨next', rest', hrest'⟩ := h.right.exists_next hk'
  have htokens : (s.stream.advance).tokens = s.stream.rest := by
    rw [Stream.advance, hrest]
    rfl
  have htokens' : (s'.stream.advance).tokens = s'.stream.rest := by
    rw [Stream.advance, hrest']
    rfl
  refine ⟨h.left.suffix ?_, h.right.suffix ?_, ⟨xs, xs', hxs, htokens.trans hs, htokens'.trans hs'⟩, ?_,
    h.nextId⟩
  · rw [ParseState.tokens, htokens]
    exact List.suffix_cons ..
  · rw [ParseState.tokens, htokens']
    exact List.suffix_cons ..
  · rw [Stream.advance, Stream.advance, hrest, hrest']
    exact fun _ => hfirst.span

end Seam

theorem Stream.behindNewlines_suffix (previous : Span) (current : Token) (rest : List Token) :
    (Stream.behindNewlines previous current rest).tokens <:+ current :: rest := by
  induction rest generalizing previous current with
  | nil => exact List.suffix_rfl
  | cons next rest ih =>
    rw [Stream.behindNewlines]
    split
    · exact (ih _ _).trans (List.suffix_cons ..)
    · exact List.suffix_rfl

theorem Stream.skipNewlines_suffix (s : Stream) : s.skipNewlines.tokens <:+ s.tokens :=
  Stream.behindNewlines_suffix ..

/-- Where a line break comes first, another token follows it. -/
private theorem exists_next_of_newline {current : Token} {rest : List Token}
    (hend : ∃ init e, current :: rest = init ++ [e] ∧ e.kind = .endOfInput) (h : current.kind.isNewline = true) :
    ∃ next others, rest = next :: others ∧ ∃ init e, next :: others = init ++ [e] ∧ e.kind = .endOfInput := by
  obtain ⟨init, e, htokens, he⟩ := hend
  cases init with
  | nil =>
    obtain ⟨rfl, -⟩ := List.cons.inj htokens
    rw [he] at h
    cases h
  | cons first init =>
    obtain ⟨-, rfl⟩ := List.cons.inj htokens
    cases init with
    | nil => exact ⟨e, [], rfl, [], e, rfl, he⟩
    | cons next init => exact ⟨next, init ++ [e], rfl, next :: init, e, rfl, he⟩

private theorem behindNewlines_alike (hxs : List.Forall₂ F.SameToken xs xs') {previous previous' : Span}
    {current current' : Token} {rest rest' : List Token} (hs : current :: rest = xs ++ F.left)
    (hs' : current' :: rest' = xs' ++ F.right) (hend : ∃ init e, current :: rest = init ++ [e] ∧ e.kind = .endOfInput)
    (hend' : ∃ init e, current' :: rest' = init ++ [e] ∧ e.kind = .endOfInput)
    (hprevious : (∀ m ∈ F.start, Token.weights (current :: rest) < m) → previous.Like F.scale previous') :
    (∃ ys ys', List.Forall₂ F.SameToken ys ys' ∧
      (Stream.behindNewlines previous current rest).tokens = ys ++ F.left ∧
      (Stream.behindNewlines previous' current' rest').tokens = ys' ++ F.right ∧
      ((∀ m ∈ F.start, Token.weights (Stream.behindNewlines previous current rest).tokens < m) →
        (Stream.behindNewlines previous current rest).previous.Like F.scale
          (Stream.behindNewlines previous' current' rest').previous)) ∨
    F.followed = true ∧ (∃ e next more, F.left = e :: next :: more ∧
        Stream.behindNewlines previous current rest = .behindNewlines e.span next more) ∧
      (Stream.behindNewlines previous' current' rest').tokens = F.right := by
  induction hxs generalizing previous previous' current current' rest rest' with
  | nil =>
    rw [List.nil_append] at hs hs'
    have hquiet' := F.quiet_right current' (by rw [← hs']; rfl)
    rw [Stream.behindNewlines_eq hquiet'.1]
    cases hfollowed : F.followed with
    | false =>
      have hquiet := F.quiet_left hfollowed current (by rw [← hs]; rfl)
      rw [Stream.behindNewlines_eq hquiet.1]
      exact .inl ⟨[], [], .nil, hs, hs', hprevious⟩
    | true =>
      obtain ⟨⟨e, next, more, hleft, he, -⟩, -⟩ := F.of_followed hfollowed
      refine .inr ⟨rfl, ⟨e, next, more, hleft, ?_⟩, hs'⟩
      obtain ⟨rfl, rfl⟩ := List.cons.inj (hs.trans hleft)
      rw [Stream.behindNewlines, if_pos (he ▸ rfl)]
  | @cons z z' zs zs' hfirst hrest ih =>
    obtain ⟨rfl, htail⟩ := List.cons.inj hs
    obtain ⟨rfl, htail'⟩ := List.cons.inj hs'
    have hsame := hfirst.kind.isNewline_eq
    cases hnewline : current.kind.isNewline with
    | false =>
      rw [Stream.behindNewlines_eq hnewline, Stream.behindNewlines_eq (hsame.symm.trans hnewline)]
      exact .inl ⟨_, _, .cons hfirst hrest, hs, hs', hprevious⟩
    | true =>
      have hnewline' := hsame.symm.trans hnewline
      obtain ⟨next, others, rfl, hnext⟩ := exists_next_of_newline hend hnewline
      obtain ⟨next', others', rfl, hnext'⟩ := exists_next_of_newline hend' hnewline'
      rw [Stream.behindNewlines, Stream.behindNewlines, if_pos hnewline, if_pos hnewline']
      exact ih htail htail' hnext hnext' fun _ => hfirst.span

/-- Line breaks are skipped on both sides, unless one is behind the seam. -/
theorem Seam.Reads.skipNewlines {s s' : ParseState} (h : F.Reads C s s') :
    F.Reads C { s with stream := s.stream.skipNewlines } { s' with stream := s'.stream.skipNewlines } ∨
    F.followed = true ∧ (∃ e next more, F.left = e :: next :: more ∧
        s.stream.skipNewlines = .behindNewlines e.span next more) ∧
      s'.stream.skipNewlines.tokens = F.right := by
  obtain ⟨xs, xs', hxs, hs, hs'⟩ := h.tokens
  refine (behindNewlines_alike hxs hs hs' h.left.ending h.right.ending h.previous).imp_left ?_
  rintro ⟨ys, ys', hys, ht, ht', hprevious⟩
  exact ⟨h.left.suffix s.stream.skipNewlines_suffix, h.right.suffix s'.stream.skipNewlines_suffix,
    ⟨ys, ys', hys, ht, ht'⟩, hprevious, h.nextId⟩

end States

namespace Tandem

open ScriptLang.Parser

variable [Likeness α] {q u : α → Prop} {f f' : TokenKind Token → Parser α}

theorem kind_bind [hb : F.Bold past q]
    (hf : ∀ k k', F.Similar k k' → P k → P k' → Tandem C F n past (.these k k') q (f k) (f' k')) :
    Tandem C F n past (.both P) q (kind >>= f) (kind >>= f') := by
  have hself (h : F.scale.Fixed) (k : TokenKind Token) (hk : P k) := hf k k (.refl h k) hk hk
  have hleft (h : F.scale.Fixed) : Forward C (Pairing.both P).left q (kind >>= f) := by
    rintro r s a t hs ⟨_, hk, -⟩ hrun
    exact (hself h s.kind hk).left h r s a t hs ⟨_, rfl, rfl⟩ hrun
  have hright (h : F.scale.Fixed) : Forward C (Pairing.both P).right q (kind >>= f') := by
    rintro r s a t hs ⟨_, -, hk⟩ hrun
    exact (hself h s.kind hk).right h r s a t hs ⟨_, rfl, rfl⟩ hrun
  refine ⟨hleft, hright, ?_, ?_⟩
  · rintro h r s hs ⟨_, hk, -⟩ hn hturns
    exact (hself h s.kind hk).halts h r s hs ⟨_, rfl, rfl⟩ hn hturns
  · rintro r r' s s' hr hs hn hturns ⟨hk, hk'⟩
    have hgo (hkinds : F.Similar s.kind s'.kind) : Outcome C F past q s (f s.kind r s) (f' s'.kind r' s') :=
      (hf s.kind s'.kind hkinds hk hk').related r r' s s' hr hs hn hturns ⟨rfl, rfl⟩
    rcases hs.at_seam_or_inside with ⟨hseam, hseam'⟩ | ⟨xs, xs', hfirst, -⟩
    · rcases hb with hknown | hpast
      · exact hgo (Seam.similar_of_seam hseam hseam' hknown)
      · exact hs.outcome_of_seam hseam hseam' hleft hright ⟨_, hk, hk'⟩ ⟨_, hk, hk'⟩ hpast r r'
    · exact hgo (.of_alike hfirst.kind)

theorem kind_these (h : Tandem C F n past (.these k k') q (f k) (f' k')) :
    Tandem C F n past (.these k k') q (kind >>= f) (kind >>= f') := by
  refine ⟨?_, ?_, ?_, ?_⟩
  · rintro hfixed r s a t hs ⟨l, rfl, rfl⟩
    exact h.left hfixed r s a t hs ⟨_, rfl, rfl⟩
  · rintro hfixed r s a t hs ⟨l, rfl, rfl⟩
    exact h.right hfixed r s a t hs ⟨_, rfl, rfl⟩
  · rintro hfixed r s hs ⟨l, rfl, rfl⟩
    exact h.halts hfixed r s hs ⟨_, rfl, rfl⟩
  · rintro r r' s s' hr hs hn hturns ⟨rfl, rfl⟩
    exact h.related r r' s s' hr hs hn hturns ⟨rfl, rfl⟩

theorem here_bind {f f' : Span → Parser α} [hb : F.Bold past q] [hcalm : F.Calm past q]
    (hf : ∀ x x', x.Like F.scale x' → Tandem C F n past K q (f x) (f' x')) :
    Tandem C F n past K q (here >>= f) (here >>= f') := by
  have hself (h : F.scale.Fixed) (x : Span) := hf x x (.refl h x)
  have hleft (h : F.scale.Fixed) : Forward C K.left q (here >>= f) :=
    fun r s => (hself h s.stream.current.span).left h r s
  have hright (h : F.scale.Fixed) : Forward C K.right q (here >>= f') :=
    fun r s => (hself h s.stream.current.span).right h r s
  refine ⟨hleft, hright, fun h r s => (hself h s.stream.current.span).halts h r s, ?_⟩
  intro r r' s s' hr hs hn hturns hk
  have hgo (h : s.stream.current.span.Like F.scale s'.stream.current.span) :
      Outcome C F past q s ((here >>= f) r s) ((here >>= f') r' s') :=
    (hf _ _ h).related r r' s s' hr hs hn hturns hk
  rcases hs.at_seam_or_inside with ⟨hseam, hseam'⟩ | ⟨xs, xs', hfirst, -⟩
  · have hstay (hpast : ∀ a, past a = true → q a) :=
      hs.outcome_of_seam hseam hseam' hleft hright ⟨_, hk⟩ ⟨_, hk⟩ hpast r r'
    rcases hb with hknown | hpast
    · rcases Seam.known_iff.mp hknown with hclosed | hfollowed
      · refine hgo ?_
        rw [(F.of_closed hclosed).1]
        trivial
      · exact hstay fun _ => hcalm.moved_of hfollowed
    · exact hstay hpast
  · exact hgo hfirst.span

theorem fault_here (cause : SyntaxCause) {e e' : β → Parser α} : Tandem C F n past K q
    (here >>= fun x => Parser.fault cause x >>= e) (here >>= fun x => Parser.fault cause x >>= e') :=
  of_fails (fun _ _ => ⟨_, rfl⟩) (fun _ _ => ⟨_, rfl⟩) fun _ _ _ _ _ => rfl

/-- The stretch before the token at hand, which is one of the words already. -/
theorem previous_bind {f f' : Span → Parser α} (hfits : F.Fits (n + 1))
    (hf : ∀ x x', x.Like F.scale x' → Tandem C F n past K q (f x) (f' x')) :
    Tandem C F n past K q (previous >>= f) (previous >>= f') := by
  have hself (h : F.scale.Fixed) (x : Span) := hf x x (.refl h x)
  refine ⟨fun h r s => (hself h s.stream.previous).left h r s,
    fun h r s => (hself h s.stream.previous).right h r s,
    fun h r s => (hself h s.stream.previous).halts h r s, fun r r' s s' hr hs hn => ?_⟩
  refine (hf _ _ (hs.previous fun m hm => ?_)).related r r' s s' hr hs hn
  exact Nat.lt_of_le_of_lt hn (hfits m hm)

theorem freshId_bind {f f' : Nat → Parser α}
    (hf : ∀ i i', F.scale.SameId i i' → Tandem C F n past K q (f i) (f' i')) :
    Tandem C F n past K q (freshId >>= f) (freshId >>= f') := by
  have hself (h : F.scale.Fixed) (i : Nat) := hf i i (h.sameId i)
  refine ⟨fun h r s a t => (hself h s.nextId).left h r { s with nextId := s.nextId + 1 } a t,
    fun h r s a t => (hself h s.nextId).right h r { s with nextId := s.nextId + 1 } a t,
    fun h r s => (hself h s.nextId).halts h r { s with nextId := s.nextId + 1 }, ?_⟩
  intro r r' s s' hr hs hn hturns hk
  exact ((hf _ _ hs.nextId).related r r' { s with nextId := s.nextId + 1 }
    { s' with nextId := s'.nextId + 1 } hr ⟨hs.left, hs.right, hs.tokens, hs.previous, hs.nextId.succ⟩
    hn hturns hk).after List.suffix_rfl fun _ => .inl

theorem skipNewlines_bind {f f' : Unit → Parser α} [hcalm : F.Calm past q]
    (hf : Tandem C F n past .any q (f ()) (f' ())) :
    Tandem C F n past K q (skipNewlines >>= f) (skipNewlines >>= f') := by
  have hle (s : ParseState) := Token.weights_le_of_suffix s.stream.skipNewlines_suffix
  have hon {g : Parser α} {P : TokenKind Token → Prop} (hP : ∀ k, P k) (hg : Forward C P q g)
      (r : Surroundings) (s : ParseState) (a : α) (t : ParseState) (hs : C.Holds s)
      (hrun : g r { s with stream := s.stream.skipNewlines } = .ok (a, t)) :
      t.tokens <:+ s.tokens ∧ (q a → t.tokens.length < s.tokens.length) := by
    have hsuffix := s.stream.skipNewlines_suffix
    obtain ⟨ht, hmoved⟩ := hg r _ a t (hs.suffix hsuffix) (hP _) hrun
    exact ⟨ht.trans hsuffix, fun ha => Nat.lt_of_lt_of_le (hmoved ha) hsuffix.length_le⟩
  refine ⟨fun h r s a t hs _ => hon Pairing.left_any (hf.left h) r s a t hs,
    fun h r s a t hs _ => hon Pairing.right_any (hf.right h) r s a t hs, ?_, ?_⟩
  · intro h r s hs _ hn hturns
    exact hf.halts h r { s with stream := s.stream.skipNewlines } (hs.suffix s.stream.skipNewlines_suffix)
      (Pairing.left_any _) (Nat.le_trans (hle s) hn) (Nat.lt_of_le_of_lt (hle s) hturns)
  · intro r r' s s' hr hs hn hturns _
    change Outcome C F past q s (f () r { s with stream := s.stream.skipNewlines })
      (f' () r' { s' with stream := s'.stream.skipNewlines })
    rcases hs.skipNewlines with hskip | ⟨hfollowed, ⟨e, next, more, hleft, hbehind⟩, hright⟩
    · refine (hf.related r r' { s with stream := s.stream.skipNewlines }
        { s' with stream := s'.stream.skipNewlines } hr hskip (Nat.le_trans (hle s) hn)
        (Nat.lt_of_le_of_lt (hle s) hturns) ⟨trivial, trivial⟩).after s.stream.skipNewlines_suffix fun _ => .inl
    -- The line breaks on the left are behind the seam, so that all has gone there.
    · have hseam : F.left ≠ [] := hleft ▸ List.cons_ne_nil _ _
      have hlength : s.stream.skipNewlines.tokens.length < F.left.length := by
        rw [hbehind, hleft]
        exact Nat.lt_succ_of_le (Stream.behindNewlines_suffix ..).length_le
      have hfixed := Seam.fixed_of_seam (.inl hseam)
      refine .of_gone (.inl hseam) (fun a t hrun => ?_) fun a t hrun => ?_
      · have ht := (hf.left hfixed r _ a t (hs.left.suffix s.stream.skipNewlines_suffix)
          (Pairing.left_any _) hrun).1.length_le
        have := (past a).toNat_le
        exact Nat.le_trans (Nat.add_le_add ht this) hlength
      · obtain ⟨ht, hmoved⟩ := hf.right hfixed r' _ a t (hs.right.suffix s'.stream.skipNewlines_suffix)
          (Pairing.right_any _) hrun
        rw [Seam.GoneRight, ← hright]
        cases ha : past a with
        | false => exact ht.length_le
        | true => exact hmoved (hcalm.moved_of hfollowed ha)

/-- Line breaks in front of something that takes a token. -/
theorem skipNewlines_moved {f f' : Unit → Parser α} (hf : Tandem C F n past .any moves (f ()) (f' ())) :
    Tandem C F n past K q (skipNewlines >>= f) (skipNewlines >>= f') :=
  (skipNewlines_bind hf).weaken fun _ _ => trivial

/-- What is known of the surroundings is whether they belong to a constructor. -/
theorem read_bind {f f' : Surroundings → Parser α}
    (hf : ∀ x x', x.inConstructor = x'.inConstructor → Tandem C F n past K q (f x) (f' x')) :
    Tandem C F n past K q (read >>= f) (read >>= f') := by
  have hself (x : Surroundings) := hf x x rfl
  exact ⟨fun h r s => (hself r).left h r s, fun h r s => (hself r).right h r s,
    fun h r s => (hself r).halts h r s, fun r r' s s' hr => (hf r r' hr.inConstructor).related r r' s s' hr⟩

end Tandem

/-- A parser for what begins neither with a closing parenthesis nor at the end of input. -/
def Parser.Stuck (p : Parser α) : Prop :=
  ∀ r s, s.kind = .symbol .rightParen ∨ s.kind = .endOfInput → ∀ x, p r s ≠ .ok x

theorem Parser.Stuck.bind {p : Parser α} (h : p.Stuck) (f : α → Parser β) : (p >>= f).Stuck := by
  intro r s hs x hx
  obtain ⟨a, t, hat, -⟩ := bind_eq_ok.mp hx
  exact h r s hs _ hat

theorem Parser.Stuck.loop {turn : β → Parser (Turn β α)} {x : β} (h : (turn x).Stuck) : (loop turn x).Stuck := by
  intro r s hs y hy
  obtain ⟨k, hrun⟩ := loop_eq_ok hy
  exact h.bind _ r s hs y hrun

section Looking

open ScriptLang.Parser (kind)

def ParseState.ahead (skip : Bool) (s : ParseState) : ParseState :=
  if skip then { s with stream := s.stream.skipNewlines } else s

theorem ParseState.ahead_suffix (skip : Bool) (s : ParseState) : (s.ahead skip).tokens <:+ s.tokens := by
  cases skip with
  | false => exact List.suffix_rfl
  | true => exact s.stream.skipNewlines_suffix

/-- Where line breaks are skipped behind the seam, no branch is opened on either side. -/
theorem Seam.Reads.ahead {s s' : ParseState} (h : F.Reads C s s') (skip : Bool) :
    F.Reads C (s.ahead skip) (s'.ahead skip) ∨
    (s.ahead skip).kind.opensBranch? = none ∧ (s'.ahead skip).kind.opensBranch? = none := by
  cases skip with
  | false => exact .inl h
  | true =>
    refine h.skipNewlines.imp_right ?_
    rintro ⟨hfollowed, ⟨e, next, more, hleft, hbehind⟩, hright⟩
    obtain ⟨⟨_, _, _, hleft', -, hopens⟩, -⟩ := F.of_followed hfollowed
    cases hleft.symm.trans hleft'
    refine ⟨?_, (F.quiet_right _ (hright ▸ rfl)).2⟩
    rw [ParseState.kind, ParseState.ahead, if_pos rfl, hbehind]
    exact hopens

/-- Looks for another branch of a conditional, across line breaks if wanted, and stays where it is if there is
none. -/
def Parser.lookAcross (skip : Bool) (branch : Bool → Parser α) (stay : Parser α) : Parser α := fun r s =>
  (s.ahead skip).kind.opensBranch?.elim (stay r s) fun hasCondition => branch hasCondition r (s.ahead skip)

variable {skip : Bool} {branch branch' : Bool → Parser α} {stay stay' : Parser α} {q : α → Prop}

theorem Parser.lookAcross_some {s : ParseState} {x : Bool} (h : (s.ahead skip).kind.opensBranch? = some x)
    (r : Surroundings) : lookAcross skip branch stay r s = branch x r (s.ahead skip) := by
  rw [lookAcross, h, Option.elim]

theorem Parser.lookAcross_none {s : ParseState} (h : (s.ahead skip).kind.opensBranch? = none)
    (r : Surroundings) : lookAcross skip branch stay r s = stay r s := by
  rw [lookAcross, h, Option.elim]

private theorem opensBranch?_eq {R : Token → Token → Prop}
    (h : TokenKind.Alike R k k') : k.opensBranch? = k'.opensBranch? := by
  cases h <;> rfl

theorem TokenKind.isEnd_of_opens {k : TokenKind Token} {x : Bool} (h : k.opensBranch? = some x) : k.isEnd = false := by
  cases k with
  | endOfInput => cases h
  | _ => rfl

private theorem Forward.lookAcross (hP : ∀ k, k.isEnd = false → P k) (hQ : ∀ k, Q k)
    (hbranch : ∀ x, Forward C P q (branch x)) (hstay : Forward C Q q stay) :
    Forward C (fun _ => True) q (Parser.lookAcross skip branch stay) := by
  intro r s a t hs _ hrun
  have hsuffix := s.ahead_suffix skip
  cases hopens : (s.ahead skip).kind.opensBranch? with
  | none =>
    rw [Parser.lookAcross_none hopens] at hrun
    exact hstay r s a t hs (hQ _) hrun
  | some x =>
    rw [Parser.lookAcross_some hopens] at hrun
    have hk := hP _ (TokenKind.isEnd_of_opens hopens)
    obtain ⟨ht, hmoved⟩ := hbranch x r _ a t (hs.suffix hsuffix) hk hrun
    exact ⟨ht.trans hsuffix, fun ha => Nat.lt_of_lt_of_le (hmoved ha) hsuffix.length_le⟩

/-- At the seam there is no other branch on either side. -/
theorem Tandem.lookAcross [Likeness α] (hbranch : ∀ x, Tandem C F n past .solid q (branch x) (branch' x))
    (hstay : Tandem C F n past .any q stay stay') :
    Tandem C F n past .any q (Parser.lookAcross skip branch stay) (Parser.lookAcross skip branch' stay') := by
  have hsolid {k : TokenKind Token} (hk : k.isEnd = false) : Pairing.solid k k := ⟨hk, hk⟩
  have hleft (h : F.scale.Fixed) : Forward C (fun _ => True) q (Parser.lookAcross skip branch stay) :=
    .lookAcross (fun k hk => ⟨k, hsolid hk⟩) Pairing.left_any (fun x => (hbranch x).left h) (hstay.left h)
  have hright (h : F.scale.Fixed) : Forward C (fun _ => True) q (Parser.lookAcross skip branch' stay') :=
    .lookAcross (fun k hk => ⟨k, hsolid hk⟩) Pairing.right_any (fun x => (hbranch x).right h) (hstay.right h)
  refine ⟨fun h => (hleft h).pre fun _ _ => trivial, fun h => (hright h).pre fun _ _ => trivial, ?_, ?_⟩
  · intro h r s hs hk hn hturns
    have hle := Token.weights_le_of_suffix (s.ahead_suffix skip)
    cases hopens : (s.ahead skip).kind.opensBranch? with
    | none =>
      rw [Parser.lookAcross_none hopens]
      exact hstay.halts h r s hs hk hn hturns
    | some x =>
      rw [Parser.lookAcross_some hopens]
      exact (hbranch x).halts h r _ (hs.suffix (s.ahead_suffix skip))
        ⟨_, hsolid (TokenKind.isEnd_of_opens hopens)⟩ (Nat.le_trans hle hn) (Nat.lt_of_le_of_lt hle hturns)
  · intro r r' s s' hr hs hn hturns hk
    have hle := Token.weights_le_of_suffix (s.ahead_suffix skip)
    have hno (hnone : (s.ahead skip).kind.opensBranch? = none)
        (hnone' : (s'.ahead skip).kind.opensBranch? = none) : Outcome C F past q s
          (Parser.lookAcross skip branch stay r s) (Parser.lookAcross skip branch' stay' r' s') := by
      rw [Parser.lookAcross_none hnone, Parser.lookAcross_none hnone']
      exact hstay.related r r' s s' hr hs hn hturns hk
    rcases hs.ahead skip with hahead | ⟨hnone, hnone'⟩
    · rcases hahead.at_seam_or_inside with ⟨hseam, hseam'⟩ | ⟨xs, xs', hfirst, -⟩
      · obtain ⟨hnone, hnone'⟩ := Seam.opensBranch?_of_seam hseam hseam'
        exact hno hnone hnone'
      · have hsame := opensBranch?_eq hfirst.kind
        cases hopens : (s.ahead skip).kind.opensBranch? with
        | none => exact hno hopens (hsame.symm.trans hopens)
        | some x =>
          rw [Parser.lookAcross_some hopens, Parser.lookAcross_some (hsame.symm.trans hopens)]
          exact ((hbranch x).related r r' _ _ hr hahead (Nat.le_trans hle hn) (Nat.lt_of_le_of_lt hle hturns)
            ⟨TokenKind.isEnd_of_opens hopens, TokenKind.isEnd_of_opens (hsame.symm.trans hopens)⟩).after
              (s.ahead_suffix skip) fun _ => .inl
    · exact hno hnone hnone'

/-- Looks at the token behind the one at hand. Where that is at the seam, both readings go there. -/
theorem Tandem.peek_bind [Likeness α] {k : TokenKind Token} (hk : k.isEnd = false)
    (hsign : sign ≠ .rightParen) {p p' o o' : Parser α}
    (yes : Tandem C F n F.tight (.these k k) moves p p')
    (no : Tandem C F n F.tight (.these k k) moves o o') :
    Tandem C F n F.tight (.these k k) moves
      (get >>= fun s => if s.stream.peek.isSymbol sign = true then p else o)
      (get >>= fun s => if s.stream.peek.isSymbol sign = true then p' else o') := by
  have hunary {p o : Parser α} {P : TokenKind Token → Prop} (hp : Forward C P moves p)
      (ho : Forward C P moves o) :
      Forward C P moves (get >>= fun s => if s.stream.peek.isSymbol sign = true then p else o) := by
    intro r s
    change ∀ a t, _ → _ → (if s.stream.peek.isSymbol sign = true then p else o : Parser α) r s = _ → _
    split
    · exact hp r s
    · exact ho r s
  have hleft (h : F.scale.Fixed) := hunary (yes.left h) (no.left h)
  have hright (h : F.scale.Fixed) := hunary (yes.right h) (no.right h)
  refine ⟨hleft, hright, ?_, ?_⟩
  · intro h r s
    change _ → _ → _ → _ → (if s.stream.peek.isSymbol sign = true then p else o : Parser α) r s ≠ _
    split
    · exact yes.halts h r s
    · exact no.halts h r s
  intro r r' s s' hr hs hn hturns hkinds
  have hgo (hpeek : s.stream.peek.isSymbol sign = s'.stream.peek.isSymbol sign) :
      Outcome C F F.tight moves s ((get >>= fun s => if s.stream.peek.isSymbol sign = true then p else o) r s)
        ((get >>= fun s => if s.stream.peek.isSymbol sign = true then p' else o') r' s') := by
    change Outcome C F F.tight moves s ((if s.stream.peek.isSymbol sign = true then p else o : Parser α) r s)
      ((if s'.stream.peek.isSymbol sign = true then p' else o' : Parser α) r' s')
    rw [← hpeek]
    split
    · exact yes.related r r' s s' hr hs hn hturns hkinds
    · exact no.related r r' s s' hr hs hn hturns hkinds
  have hpeek {s : ParseState} {next : Token} {rest : List Token} (h : s.stream.rest = next :: rest) :
      s.stream.peek = next.kind := by
    rw [Stream.peek, h]
  obtain ⟨next, rest, hnext⟩ := hs.left.exists_next (hkinds.1 ▸ hk)
  obtain ⟨next', rest', hnext'⟩ := hs.right.exists_next (hkinds.2 ▸ hk)
  rcases hs.at_seam_or_inside with ⟨hseam, hseam'⟩ | ⟨xs, xs', -, hxs, hrest, hrest'⟩
  · exact hs.outcome_of_seam hseam hseam' hleft hright ⟨_, hkinds⟩ ⟨_, hkinds⟩ (fun _ _ => trivial) r r'
  cases hxs with
  | cons hfirst _ =>
    rw [List.cons_append] at hrest hrest'
    refine hgo ?_
    rw [hpeek hrest, hpeek hrest']
    exact hfirst.kind.isSymbol_eq sign
  | nil =>
    rw [List.nil_append] at hrest hrest'
    cases hclosed : F.closed with
    | true =>
      obtain ⟨-, ⟨e, hl, he⟩, e', more, hr', he'⟩ := F.of_closed hclosed
      refine hgo ?_
      rw [hpeek (hrest.trans hl), hpeek (hrest'.trans hr'), he, he']
      exact (decide_eq_false (Ne.symm hsign)).symm
    | false =>
      cases hfollowed : F.followed with
      | true =>
        obtain ⟨⟨e, _, more, hl, he, -⟩, e', hr', he'⟩ := F.of_followed hfollowed
        refine hgo ?_
        rw [hpeek (hrest.trans hl), hpeek (hrest'.trans hr'), he, he']
        rfl
      | false =>
        have hseam : F.left ≠ [] := fun hnil => List.cons_ne_nil _ _ (hnext.symm.trans (hrest.trans hnil))
        have hfixed := Seam.fixed_of_seam (.inl hseam)
        have hlength {s t : ParseState} {limit : List Token} (hlimit : s.stream.rest = limit)
            (ht : t.tokens.length < s.tokens.length) :
            t.tokens.length + F.known.toNat ≤ limit.length := by
          rw [← hlimit, Seam.known, hclosed, hfollowed]
          exact Nat.le_of_lt_succ ht
        refine .of_gone (.inl hseam) (fun a t hrun => ?_) fun a t hrun => ?_
        · exact hlength hrest ((hleft hfixed r s a t hs.left ⟨_, hkinds⟩ hrun).2 trivial)
        · exact hlength hrest' ((hright hfixed r' s' a t hs.right ⟨_, hkinds⟩ hrun).2 trivial)

/-- A question about the token at hand has one answer at the seam, or to be there counts as having gone. -/
def Seam.Clear {γ : Type} (F : Seam) (past : α → Bool) (ask : TokenKind Token → γ) : Prop :=
  (∀ a, past a = false) ∨ ∃ c, (∀ t ∈ F.left.head?, ask t.kind = c) ∧ ∀ t ∈ F.right.head?, ask t.kind = c

/-- A question that the end of input, a closing parenthesis and a line break answer alike. -/
theorem Seam.clear {γ : Type} (F : Seam) (ask : TokenKind Token → γ) (h : ask .endOfInput = ask (.symbol .rightParen))
    (h' : ask .newline = ask .endOfInput) : F.Clear (α := α) F.tight ask := by
  have hof {e : Token} {ts us : List Token} (hts : ts = e :: us) (he : ask e.kind = ask .endOfInput) :
      ∀ t ∈ ts.head?, ask t.kind = ask .endOfInput := by
    rw [hts]
    rintro t ⟨⟩
    exact he
  cases hclosed : F.closed with
  | true =>
    obtain ⟨-, ⟨e, hleft, he⟩, e', more, hright, he'⟩ := F.of_closed hclosed
    exact .inr ⟨_, hof hleft (congrArg ask he), hof hright ((congrArg ask he').trans h.symm)⟩
  | false =>
    cases hfollowed : F.followed with
    | true =>
      obtain ⟨⟨e, _, more, hleft, he, -⟩, e', hright, he'⟩ := F.of_followed hfollowed
      exact .inr ⟨_, hof hleft ((congrArg ask he).trans h'), hof hright (congrArg ask he')⟩
    | false => exact .inl fun _ => by rw [Seam.tight, Seam.known, hclosed, hfollowed]

/-- Tokens that answer a question alike, also at the seam. -/
theorem Tandem.look {γ : Type} [Likeness α] {p p' : Parser α} (ask : TokenKind Token → γ)
    (hask : ∀ k k', TokenKind.Alike F.SameToken k k' → ask k = ask k') (hclear : F.Clear past ask)
    (h : ∀ k k', ask k = ask k' → Tandem C F n past (.these k k') q p p') : Tandem C F n past .any q p p' := by
  have hself (k : TokenKind Token) := h k k rfl
  have hleft (hfixed : F.scale.Fixed) : Forward C Pairing.any.left q p :=
    fun r s a t hs _ => (hself s.kind).left hfixed r s a t hs ⟨s.kind, rfl, rfl⟩
  have hright (hfixed : F.scale.Fixed) : Forward C Pairing.any.right q p' :=
    fun r s a t hs _ => (hself s.kind).right hfixed r s a t hs ⟨s.kind, rfl, rfl⟩
  refine ⟨hleft, hright, fun hfixed r s hs _ => (hself s.kind).halts hfixed r s hs ⟨s.kind, rfl, rfl⟩, ?_⟩
  intro r r' s s' hr hs hn hturns _
  have hgo (hsame : ask s.kind = ask s'.kind) : Outcome C F past q s (p r s) (p' r' s') :=
    (h _ _ hsame).related r r' s s' hr hs hn hturns ⟨rfl, rfl⟩
  rcases hs.at_seam_or_inside with ⟨hseam, hseam'⟩ | ⟨xs, xs', hfirst, -⟩
  · rcases hclear with hpast | ⟨c, hanswer, hanswer'⟩
    · exact hs.outcome_of_seam hseam hseam' hleft hright (Pairing.left_any _) (Pairing.right_any _)
        (fun a ha => absurd ((hpast a).symm.trans ha) Bool.false_ne_true) r r'
    · exact hgo ((hanswer _ (hseam ▸ rfl)).trans (hanswer' _ (hseam' ▸ rfl)).symm)
  · exact hgo (hask _ _ hfirst.kind)

end Looking

section Taking

open ScriptLang.Parser

theorem Forward.advance (hP : ∀ k, P k → k.isEnd = false) : Forward C P moves advance := by
  rintro r s a t hs hk ⟨⟩
  obtain ⟨next, rest, hrest⟩ := hs.exists_next (hP _ hk)
  have htokens : (s.stream.advance).tokens = s.stream.rest := by
    rw [Stream.advance, hrest]
    rfl
  constructor
  · rw [ParseState.tokens, htokens]
    exact List.suffix_cons ..
  · intro _
    rw [ParseState.tokens, htokens]
    exact Nat.lt_succ_self _

namespace Tandem

variable [Likeness α] {p p' : Parser α} {q u : α → Prop}

theorem advance {past : Token → Bool} : Tandem C F n past .solid moves advance advance := by
  have hleft (_ : F.scale.Fixed) : Forward C Pairing.solid.left moves Parser.advance :=
    .advance fun k ⟨_, hk, _⟩ => hk
  have hright (_ : F.scale.Fixed) : Forward C Pairing.solid.right moves Parser.advance :=
    .advance fun k ⟨_, _, hk⟩ => hk
  refine ⟨hleft, hright, nofun, ?_⟩
  rintro r r' s s' hr hs hn hturns ⟨hk, hk'⟩
  rcases hs.at_seam_or_inside with ⟨hseam, hseam'⟩ | ⟨xs, xs', hfirst, hxs, hrest, hrest'⟩
  · exact hs.outcome_of_seam hseam hseam' hleft hright ⟨_, hk, hk'⟩ ⟨_, hk, hk'⟩ (fun _ _ => trivial) r r'
  · have hon : Forward C (·.isEnd = false) moves Parser.advance := .advance fun _ => id
    obtain ⟨hsuffix, hmoved⟩ := hon r s _ _ hs.left hk rfl
    exact .same hfirst.span (hs.advance hk hk' hfirst hxs hrest hrest') hsuffix hmoved

theorem discard {w : Unit → Prop} (hp : Tandem C F n (fun _ => c) K q p p') (hw : ∀ a b, w b → q a) :
    Tandem C F n (fun _ => c) K w (discard p) (discard p') :=
  map hp (fun _ _ _ => rfl) hw

theorem option (hp : Tandem C F n (fun _ => c) K q p p') :
    Tandem C F n (fun _ => c) K ScriptLang.still (some <$> p) (some <$> p') :=
  map hp (fun _ _ => .some) fun _ _ => False.elim

theorem optionName {p p' : Parser (String × Span)} {q : String × Span → Prop}
    (hp : Tandem C F n (fun _ => c) K q p p') : Tandem C F n (fun _ => c) K ScriptLang.still
      ((fun name => some name.1) <$> p) ((fun name => some name.1) <$> p') := by
  refine map hp ?_ fun _ _ => False.elim
  rintro _ _ ⟨hname, -⟩
  exact .some hname

/-- A question that the end of input answers in another way. -/
theorem of_ask {γ : Type} {x : γ} (ask : TokenKind Token → γ) (h : Tandem C F n past .solid q p p')
    (hsame : ask k = ask k') (hx : ask k = x) (hend : ask .endOfInput ≠ x) :
    Tandem C F n past (.these k k') q p p' := by
  have hsolid {l : TokenKind Token} (hl : ask l = x) : l.isEnd = false := by
    cases l with
    | endOfInput => exact absurd hl hend
    | _ => rfl
  refine h.mono (Nat.le_refl n) ?_ (fun _ => id) fun _ => id
  rintro _ _ ⟨rfl, rfl⟩
  exact ⟨hsolid hx, hsolid (hsame.symm.trans hx)⟩

theorem of_solid (h : Tandem C F n past .solid q p p') (hk : k.isEnd = false) :
    Tandem C F n past (.these k k) q p p' :=
  of_ask TokenKind.isEnd h rfl hk nofun

/-- At the seam of a closed pair a parenthesis can be taken on the right. On the left there is nothing to
take. -/
theorem of_closing (hp : Forward C Pairing.any.left moves p)
    (hhalts : Halts C n Pairing.any.left p) (hp' : Forward C (· = .symbol .rightParen) moves p') :
    Tandem C F n past (.these .endOfInput (.symbol .rightParen)) u p p' := by
  refine ⟨?_, ?_, fun _ r s hs _ => hhalts r s hs (Pairing.left_any _), ?_⟩
  · intro _ r s a t hs _ hrun
    exact (hp r s a t hs (Pairing.left_any _) hrun).imp_right fun h _ => h trivial
  · rintro - r s a t hs ⟨_, _, hk⟩ hrun
    exact (hp' r s a t hs hk hrun).imp_right fun h _ => h trivial
  rintro r r' s s' hr hs hn hturns ⟨hk, hk'⟩
  rcases hs.at_seam_or_inside with ⟨hseam, hseam'⟩ | ⟨xs, xs', hfirst, -⟩
  · exact (hs.outcome_of_seam (q := moves) hseam hseam' (fun _ => hp) (fun _ => hp') (Pairing.left_any _) hk'
      (fun _ _ => trivial) r r').mono (fun _ _ => trivial) fun _ => id
  · have hsame := hfirst.kind
    rw [ParseState.kind] at hk hk'
    rw [hk, hk'] at hsame
    cases hsame

/-- Where a line has ended on the left and the input on the right, both readings are at the seam, and go on from
there or fail on the right. -/
theorem of_line {L L' : Pairing} {o o' : Parser α} (hp : Tandem C F n past L q p o) (hL : L.left .newline)
    (hp' : Tandem C F n past L' q o' p') (hL' : L'.right .endOfInput) (hend : (∀ a, past a = true → q a) ∨ p'.Stuck) :
    Tandem C F n past (.these .newline .endOfInput) q p p' := by
  have hleft (h : F.scale.Fixed) := (hp.left h).pre (Q := (· = .newline)) fun k hk => hk ▸ hL
  have hright (h : F.scale.Fixed) := (hp'.right h).pre (Q := (· = .endOfInput)) fun k hk => hk ▸ hL'
  refine ⟨?_, ?_, ?_, ?_⟩
  · rintro h r s a t hs ⟨_, hk, -⟩
    exact hleft h r s a t hs hk
  · rintro h r s a t hs ⟨_, -, hk⟩
    exact hright h r s a t hs hk
  · rintro h r s hs ⟨_, hk, -⟩
    exact hp.halts h r s hs (hk ▸ hL)
  rintro r r' s s' hr hs hn hturns ⟨hk, hk'⟩
  rcases hs.at_seam_or_inside with ⟨hseam, hseam'⟩ | ⟨xs, xs', hfirst, -⟩
  · rcases hend with hpast | hrefuses
    · exact hs.outcome_of_seam hseam hseam' hleft hright hk hk' hpast r r'
    · cases hrun : p' r' s' with
      | ok x => exact absurd hrun (hrefuses r' s' (.inr hk') x)
      | error stop => exact .fail_of_seam (.inl (Seam.not_empty_left hseam))
  · have hsame := hfirst.kind
    rw [ParseState.kind] at hk hk'
    rw [hk, hk'] at hsame
    cases hsame

theorem expect {past : Token → Bool} (sign : Symbol) (what : String) :
    Tandem C F n past .any moves (expect sign what) (expect sign what) := by
  have heq : Parser.expect sign what = (kind >>= fun k =>
    if k.isSymbol sign = true then Parser.advance else Parser.unexpected what) := rfl
  rw [heq]
  refine kind_bind fun k k' hk _ _ => ?_
  cases hk with
  | plain =>
    refine ite Iff.rfl (fun hsign => ?_) fun _ => unexpected what
    exact of_ask (·.isSymbol sign) advance rfl hsign nofun
  | template => exact unexpected what
  | seam =>
    change Tandem C F n past _ moves (Parser.unexpected what) _
    split
    · exact of_closing nofun nofun (.advance fun _ => (· ▸ rfl))
    · exact unexpected what
  | line => exact unexpected what

theorem expectKeyword {past : Token → Bool} (word : Keyword) :
    Tandem C F n past .any moves (expectKeyword word) (expectKeyword word) := by
  have heq : Parser.expectKeyword word = (kind >>= fun k => if k.isKeyword word = true then Parser.advance
    else Parser.unexpected ("'" ++ word.spelling ++ "'")) := rfl
  rw [heq]
  refine kind_bind fun k k' hk _ _ => ?_
  cases hk with
  | plain =>
    refine ite Iff.rfl (fun hword => ?_) fun _ => unexpected _
    exact of_ask (·.isKeyword word) advance rfl hword nofun
  | template | seam | line => exact unexpected _

theorem expectIdentifier {past : String × Span → Bool} (what : String) :
    Tandem C F n past .any moves (expectIdentifier what) (expectIdentifier what) := by
  refine kind_bind fun k k' hk _ _ => ?_
  cases hk with
  | plain =>
    cases k with
    | identifier name =>
      refine of_solid (bind_taken advance fun t t' ht => ?_) rfl
      exact pure (.mk rfl ht)
    | _ => exact unexpected what
  | template | seam | line => exact unexpected what

/-! Whatever comes behind a token that is taken. -/
section Taken

variable {f f' : Unit → Parser α} {word : Keyword} {what : String}
  (hf : Tandem C F n past .any ScriptLang.still (f ()) (f' ()))

include hf

theorem advance_bind : Tandem C F n past .solid q (Functor.discard Parser.advance >>= f)
    (Functor.discard Parser.advance >>= f') :=
  bind_taken (advance.discard fun _ _ => id) fun _ _ _ => hf

theorem expect_bind : Tandem C F n past .any q (Functor.discard (Parser.expect sign what) >>= f)
    (Functor.discard (Parser.expect sign what) >>= f') :=
  bind_taken ((expect sign what).discard fun _ _ => id) fun _ _ _ => hf

theorem expectKeyword_bind : Tandem C F n past .any q (Functor.discard (Parser.expectKeyword word) >>= f)
    (Functor.discard (Parser.expectKeyword word) >>= f') :=
  bind_taken ((expectKeyword word).discard fun _ _ => id) fun _ _ _ => hf

end Taken

section Asking

variable {f f' : Bool → Parser α} {word : Keyword}

/-- Without an assignment the run fails. It may be there on one side of the seam alone. -/
theorem atSymbol_demand (yes : Tandem C F n past .any q (f true) (f' true))
    (no : Tandem C F n past .any q (f false) (f' false)) (hfails : ∀ r s, ∃ e, f false r s = .error (.fault e))
    (hfails' : ∀ r s, ∃ e, f' false r s = .error (.fault e)) :
    Tandem C F n past .any q (atSymbol .equal >>= f) (atSymbol .equal >>= f') := by
  have hof (b : Bool) : Tandem C F n past .any q (f b) (f' b) := by
    cases b with
    | false => exact no
    | true => exact yes
  refine ⟨fun h r s => (hof _).left h r s, fun h r s => (hof _).right h r s,
    fun h r s => (hof _).halts h r s, ?_⟩
  intro r r' s s' hr hs hn hturns hk
  change Outcome C F past q s (f (s.kind.isSymbol .equal) r s) (f' (s'.kind.isSymbol .equal) r' s')
  rcases hs.at_seam_or_inside with ⟨hseam, hseam'⟩ | ⟨xs, xs', hfirst, -⟩
  · have hfail {x : Except (Stop SyntaxError) (α × ParseState)} {stop : Stop SyntaxError} :
        Outcome C F past q s x (.error stop) := .fail_of_seam (.inl (Seam.not_empty_left hseam))
    have hfixed := Seam.fixed_of_seam (.inl (Seam.not_empty_left hseam))
    cases hassigned : s'.kind.isSymbol .equal with
    | false =>
      obtain ⟨e, he⟩ := hfails' r' s'
      rw [he]
      exact hfail
    | true =>
      cases s.kind.isSymbol .equal with
      | true => exact yes.related r r' s s' hr hs hn hturns hk
      | false =>
        obtain ⟨e, he⟩ := hfails r s
        rw [he]
        cases hrun' : f' true r' s' with
        | error stop => exact hfail
        | ok result =>
          have hsuffix := (yes.right hfixed r' s' result.1 result.2 hs.right (Pairing.right_any _) hrun').1
          refine .lost (Nat.le_trans hsuffix.length_le (Nat.le_of_eq (congrArg List.length hseam'))) ?_
          refine ⟨s'.stream.current, hseam' ▸ rfl, ?_⟩
          cases hkind : s'.stream.current.kind with
          | symbol sign =>
            rw [ParseState.kind, hkind] at hassigned
            rw [of_decide_eq_true hassigned]
          | _ =>
            rw [ParseState.kind, hkind] at hassigned
            cases hassigned
  · rw [show s'.kind.isSymbol .equal = s.kind.isSymbol .equal from (hfirst.kind.isSymbol_eq .equal).symm]
    exact (hof _).related r r' s s' hr hs hn hturns hk

/-- A token is taken where a question is answered with `true`. -/
private theorem take_bind (yes : Tandem C F n past .any ScriptLang.still (f true) (f' true)) :
    Tandem C F n past .solid q ((Functor.discard Parser.advance >>= fun _ => Pure.pure true) >>= f)
      ((Functor.discard Parser.advance >>= fun _ => Pure.pure true) >>= f') := by
  rw [bind_assoc, bind_assoc]
  exact advance_bind yes

/-- A parenthesis closes here, or something else follows that takes a token. -/
theorem eat_paren_bind (yes : Tandem C F n past .any ScriptLang.still (f true) (f' true))
    (no : Tandem C F n past .any moves (f false) (f' false)) :
    Tandem C F n past .any moves (eat .rightParen >>= f) (eat .rightParen >>= f') := by
  have heq (f : Bool → Parser α) : (eat .rightParen >>= f) = (kind >>= fun k =>
      if k.isSymbol .rightParen = true then (Functor.discard Parser.advance >>= fun _ => Pure.pure true) >>= f
      else f false) := by
    funext r s
    change ((if s.kind.isSymbol .rightParen = true then _ else _ : Parser Bool) >>= f) r s =
      (if s.kind.isSymbol .rightParen = true then _ else _ : Parser α) r s
    split <;> rfl
  rw [heq, heq]
  refine kind_bind fun k k' hk _ _ => ?_
  cases hk with
  | plain =>
    refine ite Iff.rfl (fun hsign => ?_) fun _ => no.given
    exact of_ask (·.isSymbol _) (take_bind yes) rfl hsign nofun
  | template => exact no.given
  | seam hclosed =>
    have hfixed : F.scale.Fixed := .inl (F.of_closed hclosed).1
    have htake := (take_bind (q := moves) yes).right hfixed
    exact of_closing (no.left hfixed) (no.halts hfixed) (htake.pre fun k hk => ⟨k, hk ▸ rfl, hk ▸ rfl⟩)
  | line => exact no.given

section Solid

variable (hclear : F.Clear past (·.isSymbol sign)) (hsign : sign ≠ .rightParen)
  (hline : F.Calm past q ∨ (f' false).Stuck) (yes : Tandem C F n past .solid q (f true) (f' true))
  (no : Tandem C F n past .any q (f false) (f' false))

include yes no

include hclear in
/-- A sign that is not there at the seam. -/
theorem atSymbol_look : Tandem C F n past .any q (atSymbol sign >>= f) (atSymbol sign >>= f') := by
  change Tandem C F n past .any q (kind >>= fun k => f (k.isSymbol sign))
    (kind >>= fun k => f' (k.isSymbol sign))
  refine look (·.isSymbol sign) (fun k k' hk => hk.isSymbol_eq sign) hclear fun k k' hk => kind_these ?_
  rw [← hk]
  cases hyes : k.isSymbol sign with
  | false => exact no.given
  | true => exact of_ask (·.isSymbol sign) yes hk hyes nofun

variable [F.Bold past q]

/-- A question about the token at hand that is answered alike on both sides, and `false` where there is
nothing. -/
private theorem ask_bind (ask : TokenKind Token → Bool) (hask : ∀ k k', F.Similar k k' → ask k = ask k')
    (hend : ask .endOfInput = false) :
    Tandem C F n past .any q (kind >>= fun k => f (ask k)) (kind >>= fun k => f' (ask k)) := by
  refine kind_bind fun k k' hk _ _ => ?_
  rw [← hask k k' hk]
  cases hyes : ask k with
  | false => exact no.given
  | true => exact of_ask ask yes (hask k k' hk) hyes (Bool.eq_false_iff.mp hend)

include hsign in
theorem atSymbol_bind : Tandem C F n past .any q (atSymbol sign >>= f) (atSymbol sign >>= f') := by
  refine ask_bind yes no (fun k => k.isSymbol sign) (fun k k' hk => ?_) rfl
  cases hk with
  | plain | template => rfl
  | seam => exact (decide_eq_false (Ne.symm hsign)).symm
  | line => rfl

theorem atKeyword_bind : Tandem C F n past .any q (atKeyword word >>= f) (atKeyword word >>= f') := by
  refine ask_bind yes no (fun k => k.isKeyword word) (fun k k' hk => ?_) rfl
  cases hk <;> rfl

include hline in
/-- A line may end at the seam on the left. Then the other reading must not go on from there. -/
theorem atNewline_bind : Tandem C F n past .any q (atNewline >>= f) (atNewline >>= f') := by
  change Tandem C F n past .any q (kind >>= fun k => f k.isNewline) (kind >>= fun k => f' k.isNewline)
  refine kind_bind fun k k' hk _ _ => ?_
  cases hk with
  | plain =>
    cases k with
    | newline => exact of_solid yes rfl
    | _ => exact no.given
  | template | seam => exact no.given
  | line hfollowed =>
    refine of_line yes ⟨.newline, rfl, rfl⟩ no (Pairing.right_any _) (hline.imp_left fun hcalm _ => ?_)
    exact hcalm.moved_of hfollowed

end Solid

theorem atSymbol_any (hclear : F.Clear past (·.isSymbol sign)) (h : ∀ b, Tandem C F n past .any q (f b) (f' b)) :
    Tandem C F n past .any q (atSymbol sign >>= f) (atSymbol sign >>= f') :=
  atSymbol_look hclear (h true).given (h false)

section Eaten

variable [F.Bold past q] (hsign : sign ≠ .rightParen)
  (yes : Tandem C F n past .any ScriptLang.still (f true) (f' true))
  (no : Tandem C F n past .any q (f false) (f' false))

include yes no

include hsign in
theorem eat_bind : Tandem C F n past .any q (eat sign >>= f) (eat sign >>= f') := by
  unfold eat
  rw [bind_assoc, bind_assoc]
  exact atSymbol_bind hsign (take_bind yes) no

theorem eatKeyword_bind : Tandem C F n past .any q (eatKeyword word >>= f) (eatKeyword word >>= f') := by
  unfold eatKeyword
  rw [bind_assoc, bind_assoc]
  exact atKeyword_bind (take_bind yes) no

end Eaten

section Bold

variable [F.Bold past q]

theorem eat_any (hsign : sign ≠ .rightParen) (h : ∀ x, Tandem C F n past .any q (f x) (f' x)) :
    Tandem C F n past .any q (eat sign >>= f) (eat sign >>= f') :=
  eat_bind hsign (h true).still (h false)

theorem eating (hsign : sign ≠ .rightParen) : Tandem C F n F.tight .any ScriptLang.still (eat sign) (eat sign) := by
  rw [← bind_pure (Parser.eat sign)]
  exact eat_any hsign fun x => pure rfl

theorem eatKeyword_if {p p' o o' : Parser α} (yes : Tandem C F n past .any ScriptLang.still p p')
    (no : Tandem C F n past .any q o o') :
    Tandem C F n past .any q (eatKeyword word >>= fun x => if x = true then p else o)
      (eatKeyword word >>= fun x => if x = true then p' else o') :=
  eatKeyword_bind yes no

/-- A block ends at the end of input, but not at a closing parenthesis, where nothing else can begin. -/
theorem atBlockEnd_bind [hcalm : F.Calm past q] (yes : Tandem C F n past .any q (f true) (f' true))
    (no : Tandem C F n past .any q (f false) (f' false)) (stuck : (f' false).Stuck) :
    Tandem C F n past .any q (atBlockEnd >>= f) (atBlockEnd >>= f') := by
  unfold atBlockEnd
  rw [bind_assoc, bind_assoc]
  refine kind_bind fun k k' hk _ _ => ?_
  cases hk with
  | plain =>
    cases k with
    | endOfInput => exact yes.given
    | keyword word =>
      change Tandem C F n past _ q (f (endsBlock word)) (f' (endsBlock word))
      cases endsBlock word with
      | true => exact yes.given
      | false => exact no.given
    | _ => exact no.given
  | template => exact no.given
  | seam hclosed =>
    refine of_refuses (o := f' true) yes.given (fun r s hk => ?_) (F.twin_of_closed hclosed)
    obtain ⟨_, -, hk⟩ := hk
    exact stuck r s (.inl hk)
  | line hfollowed =>
    exact of_line no (Pairing.left_any _) yes (Pairing.right_any _)
      (.inl fun _ => hcalm.moved_of hfollowed)

/-- A line ends where a block does, or at a line break. -/
theorem lineEnd_bind {p p' o o' : Parser α} (yes : Tandem C F n past .any q p p')
    (no : Tandem C F n past .any q o o') (stuck : o'.Stuck) :
    Tandem C F n past .any q (atNewline >>= fun a => atBlockEnd >>= fun b => if (a || b) = true then p else o)
      (atNewline >>= fun a => atBlockEnd >>= fun b => if (a || b) = true then p' else o') := by
  -- Whether a line ends with a token of this kind.
  let ends : TokenKind Token → Bool
    | .newline | .endOfInput => true
    | .keyword word => endsBlock word
    | _ => false
  have heq (p o : Parser α) :
      (atNewline >>= fun a => atBlockEnd >>= fun b => if (a || b) = true then p else o) =
        (kind >>= fun k => if ends k = true then p else o) := by
    funext r s
    obtain ⟨⟨previous, ⟨kind, span⟩, rest⟩, nextId⟩ := s
    cases kind <;> rfl
  rw [heq, heq]
  refine kind_bind fun k k' hk _ _ => ?_
  cases hk with
  | plain => exact ite Iff.rfl (fun _ => yes.given) fun _ => no.given
  | template => exact no.given
  | seam hclosed =>
    refine of_refuses (o := p') yes.given (fun r s hk => ?_) (F.twin_of_closed hclosed)
    obtain ⟨_, -, hk⟩ := hk
    exact stuck r s (.inl hk)
  | line => exact yes.given

end Bold

section Option

variable {γ : Type} [Likeness γ] {p p' : Parser γ} {c c' : γ} {e e' : γ → Parser α} {w : γ → Prop}
  {b : Bool}

variable (hsign : sign ≠ .rightParen) (hp : Tandem C F n (fun _ => b) .any w p p') (hc : Like F.scale c c')
  (hf : ∀ x x', Like F.scale x x' → Tandem C F n (fun _ => b) .any q (e x) (e' x'))

include hp hc hf

include hsign in
theorem eat_option [F.Bold (fun _ => b) q] : Tandem C F n (fun _ => b) .any q
      (eat sign >>= fun x => if x = true then p >>= e else Pure.pure c >>= e)
      (eat sign >>= fun x => if x = true then p' >>= e' else Pure.pure c' >>= e') :=
  eat_bind hsign (hp.bind fun x x' hx => (hf x x' hx).still) (hf c c' hc)

theorem eatKeyword_option [F.Bold (fun _ => b) q] : Tandem C F n (fun _ => b) .any q
      (eatKeyword word >>= fun x => if x = true then p >>= e else Pure.pure c >>= e)
      (eatKeyword word >>= fun x => if x = true then p' >>= e' else Pure.pure c' >>= e') :=
  eatKeyword_bind (hp.bind fun x x' hx => (hf x x' hx).still) (hf c c' hc)

end Option

/-- Line breaks behind a sign after which a loop goes on. -/
theorem skipNewlines_next {β : Type} [Likeness β] {x x' : β} (hx : Like F.scale x x') :
    Tandem (α := Turn β α) C F n (F.turnwise c) .any ScriptLang.still
      (skipNewlines >>= fun _ => Pure.pure (.next x)) (skipNewlines >>= fun _ => Pure.pure (.next x')) := by
  have hcalm : F.Calm (F.turnwise c) fun t : Turn β α => ¬onNext t := by
    cases hfollowed : F.followed with
    | false => exact .alone hfollowed
    | true =>
      refine .gone ?_
      rintro (y | a) ht
      · rw [Seam.turnwise, hfollowed, Bool.not_true, Bool.and_false] at ht
        cases ht
      · exact id
  exact still (q := fun t => ¬onNext t) (skipNewlines_bind (pure_of (.next hx) (· trivial) (· trivial)))

end Asking

end Tandem

end Taking

end ScriptLang
