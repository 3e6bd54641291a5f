import ScriptLang.Proofs.Grammar.Single
import ScriptLang.Proofs.Tandem.Expression

/-! Words that are read alone. Main statement: what is read alone does not depend on how deep the grammar is and
how many turns a loop can take. -/
namespace ScriptLang

open Likeness (Like)

section Outcome

variable {α : Type} [Likeness α] {C : Corpus} {F : Seam} {c : Bool} {q : α → Prop} {a a' : α}
  {s s' t t' : ParseState} {x : Except (Stop SyntaxError) (α × ParseState)}

/-- Two results are alike unless both readings have gone to the seam. -/
theorem Outcome.same_of_oks (h : Outcome C F (fun _ => c) q s (.ok (a, t)) (.ok (a', t')))
    (hgone : F.left.length < t.tokens.length + c.toNat ∨ F.right.length < t'.tokens.length + c.toNat) :
    Like F.scale a a' ∧ F.Reads C t t' := by
  cases h with
  | same hlike hreads => exact ⟨hlike, hreads⟩
  | gone hright hleft =>
    rcases hgone with hgone | hgone
    · exact absurd (hleft a t rfl) (Nat.not_le.mpr hgone)
    · exact absurd hright (Nat.not_le.mpr hgone)

/-- Unless an assignment follows, a result on the right that has not gone there is one on the left. -/
theorem Outcome.same_of_right (h : Outcome C F (fun _ => c) q s x (.ok (a', t')))
    (hgone : F.right.length < t'.tokens.length + c.toNat) (hassigned : ∀ e ∈ F.right.head?, e.kind ≠ .symbol .equal) :
    ∃ a t, x = .ok (a, t) ∧ Like F.scale a a' ∧ F.Reads C t t' := by
  cases h with
  | same hlike hreads => exact ⟨_, _, rfl, hlike, hreads⟩
  | gone hright => exact absurd hright (Nat.not_le.mpr hgone)
  | lost _ hmark =>
    obtain ⟨e, he, hkind⟩ := hmark
    exact absurd hkind (hassigned e he)

theorem Seam.Reads.eq_right (h : F.Reads C s s') (hs : s.tokens = F.left) : s'.tokens = F.right := by
  obtain ⟨xs, xs', hwords, hleft, hright⟩ := h.tokens
  obtain rfl : xs = [] := List.append_left_eq_self.mp (hleft.symm.trans hs)
  cases hwords
  exact hright

end Outcome

namespace Seam

def repeated : Seam := bare .exact false none

def between (M : Scale) (hM : M.Fixed) (e e' : Token) (left right : List Token) (he : e.kind.Quiet)
    (he' : e'.kind.Quiet) : Seam where
  scale := M
  left := e :: left
  right := e' :: right
  twin := false
  closed := false
  followed := false
  start := none
  quiet_left := by
    rintro - t ⟨⟩
    exact he
  quiet_right := by
    rintro t ⟨⟩
    exact he'
  fixed := .inl hM
  of_twin h := absurd h Bool.false_ne_true
  of_closed h := absurd h Bool.false_ne_true
  of_followed h := absurd h Bool.false_ne_true

/-- A question that both tokens answer alike. -/
theorem between_clear {α γ : Type} {past : α → Bool} {M : Scale} {hM : M.Fixed} {e e' : Token}
    {left right : List Token} {he : e.kind.Quiet} {he' : e'.kind.Quiet} {ask : TokenKind Token → γ}
    (h : ask e.kind = ask e'.kind) : (between M hM e e' left right he he').Clear past ask := by
  refine .inr ⟨ask e'.kind, ?_, ?_⟩
  · rintro t ⟨⟩
    exact h
  · rintro t ⟨⟩
    rfl

end Seam

theorem Stream.closed_eq {init : List Token} {e : Token} (he : e.kind = .endOfInput) :
    Stream.closed (init ++ [e]) = init ++ [e] := by
  rw [Stream.closed, List.getLast?_concat]
  simp only [he, TokenKind.isEnd, if_true]

theorem Corpus.all_holds_ofTokens (tokens : List Token) (id : Nat) : Corpus.all.Holds ⟨.ofTokens tokens, id⟩ :=
  ⟨_, Stream.closed_ending tokens, (Stream.tokens_ofTokens tokens).symm ▸ List.suffix_refl _⟩

namespace Parser

/-- A parser of the grammar reads `words` in front of `rest`, and nothing else. -/
def ReadsAs (p : Grammar → Parser Node) (inConstructor : Bool) (id : Nat) (words rest : List Token)
    (node : Node) : Prop :=
  ∃ depth r t, r.inConstructor = inConstructor ∧
    p (.upTo depth) r ⟨.ofTokens (words ++ rest), id⟩ = .ok (node, t) ∧ t.tokens = rest

section ReadsAs

variable {p : Grammar → Parser Node} {flag : Bool} {id : Nat} {words rest : List Token} {node : Node}

/-- Parsers of the grammar, each of which reads the same tokens in the same way at any depth that is enough. -/
def Stable (p : Grammar → Parser Node) : Prop :=
  ∀ {n depth depth'}, n ≤ depth →
    Tandem .all .repeated (n + 1) (fun _ => false) .any moves (p (.upTo depth)) (p (.upTo depth'))

theorem chain_stable : Stable chain := fun h => chain_tandem (Grammar.upTo_paired h _ nofun)

theorem ReadsAs.ending (h : ReadsAs p flag id words rest node) (hp : Stable p) :
    ∃ init e, rest = init ++ [e] ∧ e.kind = .endOfInput := by
  obtain ⟨depth, r, t, -, hrun, ht⟩ := h
  have hholds := ((hp (Nat.zero_le depth)).right (.inr rfl)).holds (Corpus.all_holds_ofTokens _ id)
    (Pairing.right_any _) hrun
  exact ht ▸ hholds.ending

theorem ReadsAs.kind_end {e : Token} (h : ReadsAs p flag id words [e] node) (hp : Stable p) :
    e.kind = .endOfInput := by
  obtain ⟨init, e', hrest, he⟩ := h.ending hp
  cases init with
  | nil =>
    cases hrest
    exact he
  | cons => simp at hrest

theorem ReadsAs.tokens (h : ReadsAs p flag id words rest node) (hp : Stable p) :
    ParseState.tokens ⟨.ofTokens (words ++ rest), id⟩ = words ++ rest := by
  obtain ⟨init, e, hrest, he⟩ := h.ending hp
  rw [ParseState.tokens, Stream.tokens_ofTokens, hrest, ← List.append_assoc, Stream.closed_eq he]

/-- What is read is read at every depth that is enough, in turns that are enough. -/
theorem ReadsAs.run (h : ReadsAs p flag id words rest node) (hp : Stable p) {depth : Nat} {r : Surroundings}
    (hdepth : Token.weights (words ++ rest) ≤ depth + 1) (hturns : Token.weights (words ++ rest) < r.turns)
    (hnesting : r.depth = 0) (hflag : r.inConstructor = flag) :
    ∃ t, p (.upTo depth) r ⟨.ofTokens (words ++ rest), id⟩ = .ok (node, t) ∧ t.tokens = rest := by
  have htokens := h.tokens hp
  obtain ⟨depth', r', t', hflag', hrun, ht'⟩ := h
  have hholds := Corpus.all_holds_ofTokens (words ++ rest) id
  have hsame : Seam.repeated.Reads .all ⟨.ofTokens (words ++ rest), id⟩ ⟨.ofTokens (words ++ rest), id⟩ :=
    ⟨hholds, hholds, ⟨_, _, Token.alike_refl (.inr rfl) _, (List.append_nil _).symm, (List.append_nil _).symm⟩,
      fun _ => .refl (.inr rfl) _, rfl⟩
  have hstable : Tandem .all .repeated (depth + 1) (fun _ => false) .any moves (p (.upTo depth)) (p (.upTo depth')) :=
    hp (Nat.le_refl depth)
  rw [← htokens] at hdepth hturns
  have hout := hstable.related r r' _ _ ⟨hnesting ▸ Nat.zero_le _, hflag.trans hflag'.symm, nofun⟩ hsame hdepth
    hturns ⟨trivial, trivial⟩
  rw [hrun] at hout
  obtain ⟨node', t, hrun', hlike, ht⟩ := hout.same_of_right (Nat.succ_pos _) nofun
  obtain rfl := Node.like_eq hlike
  refine ⟨t, hrun', ?_⟩
  obtain ⟨xs, xs', hwords, hleft, hright⟩ := ht.tokens
  rw [← ht', hleft, hright, Token.eq_of_alike hwords]
  rfl

end ReadsAs

end Parser

end ScriptLang
