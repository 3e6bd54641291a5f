import ScriptLang.Proofs.Tandem.Exact

/-! The same words in two places. Main statement: words that are read alone are read in the same way in front of
tokens that cannot go on with them, and up to these. -/
namespace ScriptLang

open Likeness (Like)

/-- The same tree, wherever it is written. -/
abbrev Node.Same (a b : Node) : Prop := Node.Like .loose a b

abbrev SameWords : List Token → List Token → Prop := List.Forall₂ (Token.Alike (Span.Like .loose))

structure ParseState.Before (s : ParseState) (tokens : List Token) : Prop where
  tokens : s.tokens = tokens
  holds : Corpus.all.Holds s

/-- Tokens that a chain ends in front of. -/
structure TokenKind.Bounds (k : TokenKind Token) : Prop extends k.EndsChain where
  quiet : k.Quiet

def Primary (words : List Token) : Prop := ∃ first others, words = first :: others ∧ Parser.IsPrimary first.kind

variable {words words' rest : List Token} {s s' t t' : ParseState}

theorem ParseState.Before.ofTokens {e : Token} (he : e.kind = .endOfInput) (id : Nat)
    (h : words.getLast? = some e) : ParseState.Before ⟨.ofTokens words, id⟩ words := by
  obtain ⟨init, rfl⟩ := List.getLast?_eq_some_iff.mp h
  exact ⟨(Stream.tokens_ofTokens _).trans (Stream.closed_eq he), Corpus.all_holds_ofTokens _ _⟩

theorem ParseState.Before.facing (h : s.Before words) : s = .facing s.stream.previous s.nextId words := by
  rw [← h.tokens]
  rfl

theorem ParseState.Before.next {first : Token} (h : s.Before (first :: rest)) (hne : rest ≠ []) :
    ParseState.Before ⟨s.stream.advance, s.nextId⟩ rest := by
  cases rest with
  | nil => exact absurd rfl hne
  | cons second rest =>
    have htokens : ParseState.tokens ⟨s.stream.advance, s.nextId⟩ = second :: rest := by
      rw [h.facing]
      rfl
    exact ⟨htokens, h.holds.suffix ⟨[first], by rw [htokens, h.tokens]; rfl⟩⟩

theorem Primary.kind (h : Primary words) (hs : s.Before (words ++ rest)) : Parser.IsPrimary s.kind := by
  obtain ⟨first, others, rfl, hfirst⟩ := h
  rw [ParseState.kind_eq hs.tokens]
  exact hfirst

theorem Primary.same (h : Primary words) (hwords : SameWords words words') : Primary words' := by
  obtain ⟨first, others, rfl, hfirst⟩ := h
  cases hwords with
  | @cons _ first' _ others' hsame =>
    refine ⟨first', others', rfl, ?_⟩
    have hkind := hsame.kind
    generalize first.kind = k, first'.kind = k' at hfirst hkind
    cases hkind with
    | plain => exact hfirst
    | template => simp [Parser.IsPrimary] at hfirst

namespace Seam

/-- Words at the end on the left and in front of a closing parenthesis on the right. -/
def inParens (e close : Token) (more : List Token) (he : e.kind = .endOfInput)
    (hclose : close.kind = .symbol .rightParen) : Seam where
  scale := .loose
  left := [e]
  right := close :: more
  twin := false
  closed := true
  followed := false
  start := none
  quiet_left := by
    rintro - t ⟨⟩
    exact he ▸ ⟨rfl, rfl⟩
  quiet_right := by
    rintro t ⟨⟩
    exact hclose ▸ ⟨rfl, rfl⟩
  fixed := .inl (.inl rfl)
  of_twin h := absurd h Bool.false_ne_true
  of_closed _ := ⟨rfl, ⟨e, rfl, he⟩, close, more, rfl, hclose⟩
  of_followed h := absurd h Bool.false_ne_true

end Seam

namespace Parser

variable {p : Grammar → Parser Node} {F : Seam} {K : Pairing} {r r' : Surroundings} {depth depth' : Nat}
  {node node' : Node}

/-- Parts of the grammar that read the same words in the same way in front of both sides of a seam. -/
structure Joint (p : Grammar → Parser Node) (F : Seam) (K : Pairing) : Prop where
  loose : F.scale = .loose
  single : F.twin = false
  tandem (depth depth' : Nat) :
    Tandem .all F (depth + 1) (fun _ => true) K moves (p (.upTo depth)) (p (.upTo depth'))

namespace Joint

section

variable (h : Joint p F K) (hwords : SameWords words words') (hs : s.Before (words ++ F.left))
  (hs' : s'.Before (words' ++ F.right)) (hK : K s.kind s'.kind) (hsize : Token.weights s.tokens ≤ depth + 1)
  (hturns : Token.weights s.tokens < r.turns) (hdepth : r.depth ≤ r'.depth)
  (hflag : r.inConstructor = r'.inConstructor)
include h hwords hs hs' hK hsize hturns hdepth hflag

theorem outcome (depth' : Nat) : Outcome .all F (fun _ => true) moves s (p (.upTo depth) r s)
    (p (.upTo depth') r' s') := by
  have hreads : F.Reads .all s s' := by
    refine ⟨hs.holds, hs'.holds, ⟨_, _, ?_, hs.tokens, hs'.tokens⟩, fun _ => ?_, ?_⟩
    · rw [Seam.SameToken, h.loose]
      exact hwords
    · rw [h.loose]
      trivial
    · rw [h.loose]
      trivial
  refine (h.tandem depth depth').related r r' s s' ⟨hdepth, hflag, fun htwin => ?_⟩ hreads hsize hturns hK
  cases h.single.symm.trans htwin

theorem agree (hrun : p (.upTo depth) r s = .ok (node, t)) (ht : t.tokens = F.left)
    (hrun' : p (.upTo depth') r' s' = .ok (node', t')) : node.Same node' ∧ t'.Before F.right := by
  have hout := h.outcome hwords hs hs' hK hsize hturns hdepth hflag depth'
  rw [hrun, hrun'] at hout
  obtain ⟨hlike, hreads⟩ := hout.same_of_oks (.inl (ht ▸ Nat.lt_succ_self _))
  rw [h.loose] at hlike
  exact ⟨hlike, hreads.eq_right ht, hreads.right⟩

/-- Unless an assignment follows, what is read on the right is read on the left too. -/
theorem transfer (hassigned : ∀ e ∈ F.right.head?, e.kind ≠ .symbol .equal)
    (hrun' : p (.upTo depth') r' s' = .ok (node', t')) (ht' : t'.tokens = F.right) :
    ∃ node t, p (.upTo depth) r s = .ok (node, t) ∧ t.Before F.left ∧ node.Same node' := by
  have hout := h.outcome hwords hs hs' hK hsize hturns hdepth hflag depth'
  rw [hrun'] at hout
  obtain ⟨node, t, hrun, hlike, hreads⟩ := hout.same_of_right (ht' ▸ Nat.lt_succ_self _) hassigned
  rw [h.loose] at hlike
  exact ⟨node, t, hrun, ⟨hreads.eq_left ht', hreads.left⟩, hlike⟩

end

/-- What is read alone is read in the same way and up to the same place on the right. -/
theorem ends {id : Nat} {e : Token} (h : Joint p F K) (hleft : F.left = [e])
    (halone : ReadsAs p r.inConstructor id words [e] node) (hp : Stable p) (hwords : SameWords words words')
    (hs' : s'.Before (words' ++ F.right)) (hK : ∀ s : ParseState, s.Before (words ++ [e]) → K s.kind s'.kind)
    (hrun' : p (.upTo depth') r s' = .ok (node', t')) : node.Same node' ∧ t'.Before F.right := by
  have hs : ParseState.Before ⟨.ofTokens (words ++ [e]), id⟩ (words ++ [e]) :=
    .ofTokens (halone.kind_end hp) id (by simp)
  have hsize := Nat.le_of_eq (congrArg Token.weights hs.tokens)
  have hdepth : Token.weights (words ++ [e]) ≤ Token.weights (words ++ [e]) + 1 := Nat.le_succ _
  obtain ⟨t, hrun, ht⟩ := halone.run hp (r := ⟨_, 0, _⟩) hdepth (Nat.lt_succ_self _) rfl rfl
  exact h.agree (r := ⟨_, 0, _⟩) hwords (hleft.symm ▸ hs) hs' (hK _ hs) (Nat.le_succ_of_le hsize)
    (Nat.lt_succ_of_le hsize) (Nat.zero_le r.depth) rfl hrun (ht.trans hleft.symm) hrun'

end Joint

variable {e e' : Token}

theorem chain_joint (left right : List Token) (he : e.kind.Bounds) (he' : e'.kind.Bounds) :
    Joint chain (.between .loose (.inl rfl) e e' left right he.quiet he'.quiet) (.both IsPrimary) where
  loose := rfl
  single := rfl
  tandem depth depth' := by
    have hg := Grammar.upTo_paired (C := .all) (F := .between .loose (.inl rfl) e e' left right he.quiet
      he'.quiet) (Nat.le_refl depth) depth' (by simp [Seam.Fits, Seam.between])
    have hends : (Seam.between .loose (.inl rfl) e e' left right he.quiet he'.quiet).EndsLinks true :=
      ⟨Seam.between_clear (he.call.trans he'.call.symm), Seam.between_clear (he.index.trans he'.index.symm)⟩
    exact chain_of hg hends (Seam.between_clear (he.member.trans he'.member.symm)) (chainHead_primary hg hends)

theorem expression_joint (more : List Token) (he : e.kind = .endOfInput) (he' : e'.kind = .symbol .rightParen) :
    Joint expression (.inParens e e' more he he') .any where
  loose := rfl
  single := rfl
  tandem depth depth' :=
    expression_tandem (Grammar.upTo_paired (Nat.le_refl depth) depth' (by simp [Seam.Fits, Seam.inParens]))

theorem expression_stable : Stable expression :=
  fun h => expression_tandem (Grammar.upTo_paired h _ (by simp [Seam.Fits, Seam.repeated, Seam.bare]))

end Parser

end ScriptLang
