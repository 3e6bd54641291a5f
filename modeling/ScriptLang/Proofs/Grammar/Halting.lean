import ScriptLang.Proofs.Tandem.Expression

/-! The parser comes to an end on all tokens, with a program or a fault, and each part of the grammar leaves the
cursor later than it found it. -/
namespace ScriptLang

open Likeness (Like)

/-- The cursor is at index `i` of the tokens `ts`. -/
def ParseState.At (s : ParseState) (ts : List Token) (i : Nat) : Prop := i < ts.length ∧ s.tokens = ts.drop i

/-- How many line breaks are at hand. -/
def ParseState.lineBreaks (s : ParseState) : Nat := (s.tokens.takeWhile (·.kind.isNewline)).length

theorem Stream.tokens_behindNewlines (previous : Span) {current last : Token} {rest : List Token}
    (h : (current :: rest).getLast? = some last) (hlast : last.kind.isNewline = false) :
    (behindNewlines previous current rest).tokens = (current :: rest).dropWhile (·.kind.isNewline) := by
  induction rest generalizing previous current with
  | nil =>
    obtain rfl := Option.some.inj h
    rw [List.dropWhile_cons, show current.kind.isNewline = false from hlast]
    rfl
  | cons next rest ih =>
    rw [behindNewlines, List.dropWhile_cons]
    cases current.kind.isNewline with
    | true => exact ih _ (List.getLast?_cons_cons.symm.trans h)
    | false => rfl

namespace ParseState

variable {s t : ParseState} {ts : List Token} {i : Nat}

theorem at_of_suffix (h : s.tokens <:+ ts) : s.At ts (ts.length - s.tokens.length) := by
  have hpos : 0 < s.tokens.length := Nat.succ_pos _
  have hle := h.length_le
  exact ⟨by omega, List.suffix_iff_eq_drop.mp h⟩

theorem At.suffix (h : s.At ts i) : s.tokens <:+ ts := by
  rw [h.2]
  exact List.drop_suffix ..

/-- Fewer tokens of the same sequence are left where the cursor is later. -/
theorem At.later (h : s.At ts i) (hsuffix : t.tokens <:+ s.tokens)
    (hlt : t.tokens.length < s.tokens.length) : ∃ j, i < j ∧ t.At ts j := by
  refine ⟨_, ?_, at_of_suffix (hsuffix.trans h.suffix)⟩
  have hlength := congrArg List.length h.2
  have hi := h.1
  rw [List.length_drop] at hlength
  omega

/-- The cursor moves by a place for every line break that it skips, so it was as many places before. -/
theorem At.skipNewlines (h : s.At ts i) (hend : ∃ init e, ts = init ++ [e] ∧ e.kind = .endOfInput) :
    At ⟨s.stream.skipNewlines, s.nextId⟩ ts (i + s.lineBreaks) := by
  obtain ⟨init, last, rfl, hlast⟩ := hend
  have hends : s.tokens.getLast? = some last := by
    rw [h.2, List.getLast?_drop, if_neg (by have := h.1; omega), List.getLast?_concat]
  have htokens : s.stream.skipNewlines.tokens = (init ++ [last]).drop (i + s.lineBreaks) := by
    rw [← List.drop_drop, ← h.2]
    refine (Stream.tokens_behindNewlines _ hends (hlast ▸ rfl)).trans ?_
    conv_rhs => rw [← List.takeWhile_append_dropWhile (p := (·.kind.isNewline)) (l := s.tokens)]
    exact (List.drop_left ..).symm
  refine ⟨?_, htokens⟩
  have hpos := congrArg List.length htokens
  rw [List.length_drop, Stream.tokens, List.length_cons] at hpos
  omega

end ParseState

/-- The sequences that are read together with `tokens`: these, and the code in their templates. -/
inductive Vectors (tokens : List Token) : List Token → Prop
  | whole : Vectors tokens (Stream.closed tokens)
  | code {ts token segments code} (h : Vectors tokens ts) (htoken : token ∈ ts)
      (hkind : token.kind = .template segments) (hcode : .code code ∈ segments) :
      Vectors tokens (Stream.closed code)

def Corpus.of (tokens : List Token) : Corpus where
  Member := Vectors tokens
  ending h := by
    cases h with
    | whole | code => exact Stream.closed_ending _
  code := .code

section Watched

variable {α : Type}

open Classical in
/-- A parser that raises an alarm unless it is called with the cursor in one of the sequences and leaves it
strictly later in the same one, if it has a result. -/
noncomputable def Parser.watched (C : Corpus) (p alarm : Parser α) : Parser α := fun r s =>
  if ∃ ts i, C.Member ts ∧ s.At ts i ∧ ∀ a t, p r s = .ok (a, t) → ∃ j, i < j ∧ t.At ts j then p r s
  else alarm r s

/-- A grammar with an eye on every call of its parts. -/
noncomputable def Grammar.watching (C : Corpus) (alarm : Parser Node) (g : Grammar) : Grammar :=
  ⟨g.expression.watched C alarm, g.comparison.watched C alarm, g.power.watched C alarm,
    g.factor.watched C alarm, g.statement.watched C alarm⟩

/-- The grammar for parts that hold others at most `depth` deep, with an eye on every call. -/
noncomputable def Grammar.watchedUpTo (C : Corpus) (alarm : Parser Node) : (depth : Nat) → Grammar
  | 0 => upTo 0
  | depth + 1 => (watchedUpTo C alarm depth).deeper.watching C alarm

variable {C : Corpus} {F : Seam} {n : Nat} {past : α → Bool} {alarm : Parser α} {p p' : Parser α}

/-- A parser that never goes back and always takes a token raises no alarm. -/
theorem Parser.watched_apply (h : Forward C Pairing.any.left moves p) (r : Surroundings) {s : ParseState}
    (hs : C.Holds s) : p.watched C alarm r s = p r s := by
  have hcalm : ∃ ts i, C.Member ts ∧ s.At ts i ∧
      ∀ a t, p r s = .ok (a, t) → ∃ j, i < j ∧ t.At ts j := by
    obtain ⟨ts, hmember, hsuffix⟩ := id hs
    refine ⟨ts, _, hmember, ParseState.at_of_suffix hsuffix, fun a t hrun => ?_⟩
    obtain ⟨ht, hmoved⟩ := h r s a t hs (Pairing.left_any _) hrun
    exact (ParseState.at_of_suffix hsuffix).later ht (hmoved trivial)
  exact if_pos hcalm

theorem Tandem.watched [Likeness α] (hfixed : F.scale.Fixed) (h : Tandem C F n past .any moves p p') :
    Tandem C F n past .any moves (p.watched C alarm) p' := by
  have heq (r : Surroundings) {s : ParseState} (hs : C.Holds s) : p.watched C alarm r s = p r s :=
    Parser.watched_apply (h.left hfixed) r hs
  refine ⟨?_, h.right, ?_, ?_⟩
  · intro _ r s a t hs hk hrun
    rw [heq r hs] at hrun
    exact h.left hfixed r s a t hs hk hrun
  · intro _ r s hs
    rw [heq r hs]
    exact h.halts hfixed r s hs
  · intro r r' s s' hr hs
    rw [heq r hs.left]
    exact h.related r r' s s' hr hs

theorem Grammar.InStep.watching {g g' : Grammar} (alarm : Parser Node) (hfixed : F.scale.Fixed)
    (h : g.InStep C F n g') : (g.watching C alarm).InStep C F n g' where
  fits := h.fits
  expression := h.expression.watched hfixed
  comparison := h.comparison.watched hfixed
  power := h.power.watched hfixed
  factor := h.factor.watched hfixed
  statement := h.statement.watched hfixed
  expression_stuck := h.expression_stuck
  statement_stuck := h.statement_stuck

end Watched

def Seam.twins : Seam := .bare .exact true none

theorem Seam.twins_fixed : Seam.twins.scale.Fixed := .inr rfl

theorem Seam.twins_reads {C : Corpus} {s : ParseState} (h : C.Holds s) : Seam.twins.Reads C s s :=
  ⟨h, h, ⟨_, _, Token.alike_refl twins_fixed _, (List.append_nil _).symm, (List.append_nil _).symm⟩,
    fun _ => .refl twins_fixed _, rfl⟩

/-- A grammar that can read as deep as there are tokens comes to an end, with a turn for each of them. -/
theorem Grammar.program_halts {C : Corpus} {depth : Nat} {r : Surroundings} {s : ParseState} (hs : C.Holds s)
    (hsize : Token.weights s.tokens ≤ depth) (hturns : Token.weights s.tokens < r.turns) :
    Parser.program (.upTo depth) r s ≠ .error .exhausted := by
  have hg := Grammar.upTo_paired (C := C) (F := .twins) (Nat.le_refl depth) depth nofun
  exact (Parser.program_tandem hg.statement hg.statement_stuck rfl).halts Seam.twins_fixed r s hs
    (Pairing.left_any _) hsize hturns

section Parse

variable (firstId : Nat) (tokens : List Token)

private theorem holds_first : (Corpus.of tokens).Holds ⟨.ofTokens tokens, firstId⟩ :=
  ⟨_, .whole, Stream.tokens_ofTokens tokens ▸ List.suffix_rfl⟩

private theorem weights_first : Token.weights (Stream.ofTokens tokens).tokens < Token.weights tokens + 2 := by
  rw [Stream.tokens_ofTokens]
  exact Nat.lt_succ_of_le (Stream.weights_closed_le tokens)

theorem Parser.program_halts : Parser.program (.upTo (Token.weights tokens + 2))
      { turns := Token.weights tokens + 2 } ⟨.ofTokens tokens, firstId⟩ ≠ .error .exhausted := by
  have hsize := weights_first tokens
  exact Grammar.program_halts (holds_first firstId tokens) (Nat.le_of_lt hsize) hsize

theorem Program.parse_ok_or_fault : (∃ program nextId, Program.parse firstId tokens = .ok (program, nextId)) ∨
    ∃ e, Program.parse firstId tokens = .error (.fault e) := by
  have hhalts := Parser.program_halts firstId tokens
  unfold Program.parse
  dsimp only
  generalize Parser.program _ _ _ = run at hhalts
  cases run with
  | ok result => exact .inl ⟨result.1, result.2.nextId, rfl⟩
  | error stop =>
    cases stop with
    | exhausted => exact absurd rfl hhalts
    | fault e => exact .inr ⟨e, rfl⟩

/-- No call raises an alarm. -/
theorem Parser.program_watched (alarm : Parser Node) :
    Parser.program (.watchedUpTo (.of tokens) alarm (Token.weights tokens + 2))
        { turns := Token.weights tokens + 2 } ⟨.ofTokens tokens, firstId⟩ =
      Parser.program (.upTo (Token.weights tokens + 2)) { turns := Token.weights tokens + 2 }
        ⟨.ofTokens tokens, firstId⟩ := by
  have hhalts := Parser.program_halts firstId tokens
  have hg : (Grammar.watchedUpTo (.of tokens) alarm (Token.weights tokens + 2)).Paired (.of tokens)
      .twins (Token.weights tokens + 2) (.upTo (Token.weights tokens + 2)) := by
    refine Grammar.paired_of_deeper (G := Grammar.watchedUpTo (.of tokens) alarm) rfl rfl ?_ (Nat.le_refl _) _
      nofun
    intro H n d d' hscale h hfits
    have hfixed : H.scale.Fixed := hscale ▸ Seam.twins_fixed
    exact ⟨(h.deeper hfits).toInStep.watching alarm hfixed, (h.deeper hfits).whole.watching alarm hfixed⟩
  have hsize := weights_first tokens
  have hrelated := (Parser.program_tandem hg.statement hg.statement_stuck rfl).related _
    { turns := Token.weights tokens + 2 } _ _ ⟨Nat.le_refl _, rfl, fun _ => rfl⟩
    (Seam.twins_reads (holds_first firstId tokens))
    (Nat.le_of_lt hsize) hsize ⟨trivial, trivial⟩
  generalize Parser.program (.watchedUpTo _ _ _) _ _ = y, Parser.program (.upTo _) _ _ = x at hhalts hrelated ⊢
  cases hrelated with
  | same like reads =>
    obtain rfl := reads.eq_of_twin rfl ⟨rfl, rfl⟩
    rw [nodes_eq_of_like like]
  | gone right => exact absurd rfl right.not_empty
  | lost right => exact absurd rfl right.not_empty
  | fail twin =>
    rename_i stop
    cases stop with
    | exhausted => exact absurd rfl hhalts
    | fault e =>
      obtain ⟨e', rfl, hsame⟩ := twin rfl e rfl
      rw [hsame ⟨rfl, rfl⟩]

end Parse

namespace Parser

variable {C : Corpus} {g : Grammar} {r : Surroundings} {s t : ParseState}

def levels (g : Grammar) : List (Parser Node) :=
  [statement g, expression g, condition g, comparison g, bitwise g, sum g, term g, power g, factor g, chain g,
    chainHead g, atom g]

/-- Each level takes a token and never goes back. -/
theorem levels_onward (hg : g.Paired C .twins 0 g) : ∀ p ∈ levels g, Forward C Pairing.any.left moves p := by
  simp only [levels, List.forall_mem_cons]
  have hleft {p : Parser Node} (h : Tandem C .twins 1 (fun _ => false) .any moves p p) :
      Forward C Pairing.any.left moves p := h.left Seam.twins_fixed
  exact ⟨hleft (statement_tandem hg), hleft (expression_tandem hg), hleft (condition_tandem hg),
    hleft (comparison_tandem hg), hleft (bitwise_tandem hg), hleft (sum_tandem hg), hleft (term_tandem hg),
    hleft (power_tandem hg), hleft (factor_tandem hg), hleft (chain_tandem hg), hleft (chainHead_tandem hg),
    hleft (atom_tandem hg), List.forall_mem_nil _⟩

section Rewind

variable {turn : Turn (Array (Branch Node) × Bool) Node} {start : Span} {first : ParseState}
  {x : Array (Branch Node) × Bool} {read : Array (Branch Node)}

def ReadsBody (g : Grammar) (r : Surroundings) (s : ParseState) (branch : Branch Node) (t : ParseState) :
    Prop :=
  ∃ u, u.tokens <:+ s.tokens ∧ u.tokens.length < s.tokens.length ∧ g.statement r u = .ok (branch.body, t)

theorem ReadsBody.of_suffix {branch : Branch Node} (h : ReadsBody g r s branch t)
    (hs : s.tokens <:+ first.tokens) : ReadsBody g r first branch t := by
  obtain ⟨u, hu, hlt, hbody⟩ := h
  exact ⟨u, hu.trans hs, Nat.lt_of_lt_of_le hlt hs.length_le, hbody⟩

theorem blockOrStatement_eq_ok {body : Node} (h : blockOrStatement g r s = .ok ((body, false), t)) :
    g.statement r s = .ok (body, t) := by
  obtain ⟨newline, _, ⟨⟩, h⟩ := bind_eq_ok.mp h
  cases hnewline : s.kind.isNewline with
  | true =>
    rw [show s.stream.current.kind.isNewline = true from hnewline] at h
    obtain ⟨node, u, -, ⟨⟩⟩ := bind_eq_ok.mp h
  | false =>
    rw [show s.stream.current.kind.isNewline = false from hnewline] at h
    obtain ⟨node, u, hnode, ⟨⟩⟩ := bind_eq_ok.mp h
    exact hnode

/-- A branch remembers whether its body is a block. If it is a statement, the branch ends with it. -/
theorem branch_eq_ok (hg : g.Paired C .twins 0 g) (hs : C.Holds s) {read : Branch Node} {isBlock : Bool}
    (h : branch g r s = .ok ((read, isBlock), t)) :
    read.discard = isBlock ∧ (isBlock = false → ReadsBody g r s read t) := by
  obtain ⟨condition, s₁, h₁, h⟩ := bind_eq_ok.mp h
  obtain ⟨_, s₂, h₂, h⟩ := bind_eq_ok.mp h
  obtain ⟨⟨body, _⟩, s₃, h₃, ⟨⟩⟩ := bind_eq_ok.mp h
  refine ⟨rfl, ?_⟩
  rintro rfl
  have hcolon : Tandem C .twins 0 (fun _ => false) .any still (discard (expect .colon "':'"))
      (discard (expect .colon "':'")) := .discard (.expect _ _) fun _ _ => False.elim
  obtain ⟨hsuffix₁, hlt⟩ := hg.expression.left Seam.twins_fixed r s condition s₁ hs (Pairing.left_any _) h₁
  have hsuffix₂ := (hcolon.left Seam.twins_fixed r s₁ _ s₂ (hs.suffix hsuffix₁) (Pairing.left_any _) h₂).1
  refine ⟨s₂, hsuffix₂.trans hsuffix₁, ?_, blockOrStatement_eq_ok h₃⟩
  exact Nat.lt_of_le_of_lt hsuffix₂.length_le (hlt trivial)

theorem lastBranch_eq_ok (h : lastBranch g start read r s = .ok (turn, t)) :
    ∃ otherwise isBlock span, turn = .done ⟨.conditional read.toList (some otherwise) isBlock, span⟩ := by
  obtain ⟨_, _, -, h⟩ := bind_eq_ok.mp h
  obtain ⟨⟨otherwise, isBlock⟩, _, -, h⟩ := bind_eq_ok.mp h
  cases isBlock with
  | true =>
    obtain ⟨_, _, -, h⟩ := bind_eq_ok.mp h
    obtain ⟨last, _, -, ⟨⟩⟩ := bind_eq_ok.mp h
    exact ⟨otherwise, true, _, rfl⟩
  | false =>
    obtain ⟨last, _, -, ⟨⟩⟩ := bind_eq_ok.mp h
    exact ⟨otherwise, false, _, rfl⟩

/-- Where no branch follows, the state is the one behind the last body, if that is a statement. -/
theorem endConditional_eq_ok {lastIsBlock : Bool}
    (h : endConditional start read lastIsBlock r s = .ok (turn, t)) :
    (∃ span, turn = .done ⟨.conditional read.toList none false, span⟩) ∧ (lastIsBlock = false → t = s) := by
  cases lastIsBlock with
  | true =>
    obtain ⟨_, _, -, h⟩ := bind_eq_ok.mp h
    obtain ⟨last, _, -, ⟨⟩⟩ := bind_eq_ok.mp h
    exact ⟨⟨_, rfl⟩, nofun⟩
  | false =>
    obtain ⟨last, _, ⟨⟩, ⟨⟩⟩ := bind_eq_ok.mp h
    exact ⟨⟨_, rfl⟩, fun _ => rfl⟩

/-- What is known of the branches that were read from `first` on, up to `s`: whether the last one is a block,
and if it is none, that its body ends here. -/
structure BranchesTo (C : Corpus) (g : Grammar) (r : Surroundings) (first : ParseState)
    (x : Array (Branch Node) × Bool) (s : ParseState) : Prop where
  holds : C.Holds s
  suffix : s.tokens <:+ first.tokens
  last : ∃ last, x.1.back? = some last ∧ last.discard = x.2 ∧
    (x.2 = false → ReadsBody g r first last s)

/-- A conditional without a last branch, whose last body is a statement, ends with it. -/
def EndsWithBody (g : Grammar) (r : Surroundings) (first : ParseState) (node : Node) (t : ParseState) : Prop :=
  ∀ branches, node.shape = .conditional branches none false →
    ∀ last, branches.getLast? = some last → last.discard = false → ReadsBody g r first last t

/-- One turn of the loop over the branches: another branch was read, or the conditional ends. -/
theorem otherBranches_eq_ok (hg : g.Paired C .twins 0 g)
    (hx : BranchesTo C g r first x s)
    (h : otherBranches g start x r s = .ok (turn, t)) :
    (∃ y, turn = .next y ∧ BranchesTo C g r first y t) ∨
      ∃ node, turn = .done node ∧ EndsWithBody g r first node t := by
  obtain ⟨read, lastIsBlock⟩ := x
  obtain ⟨hholds, hsuffix, last, hlast, hdiscard, hbody⟩ := hx
  rw [otherBranches_eq_lookAcross] at h
  cases hopens : (s.ahead (!lastIsBlock)).kind.opensBranch? with
  | none =>
    rw [lookAcross_none hopens] at h
    obtain ⟨⟨span, rfl⟩, hstate⟩ := endConditional_eq_ok h
    refine .inr ⟨_, rfl, ?_⟩
    rintro branches ⟨⟩ last' hlast' hinline
    rw [Array.getLast?_toList, hlast] at hlast'
    cases hlast'
    obtain rfl := hdiscard
    rw [hstate hinline]
    exact hbody hinline
  | some hasCondition =>
    rw [lookAcross_some hopens] at h
    obtain ⟨_, u, hword, h⟩ := bind_eq_ok.mp h
    cases hasCondition with
    | false =>
      obtain ⟨otherwise, isBlock, span, rfl⟩ := lastBranch_eq_ok h
      exact .inr ⟨_, rfl, nofun⟩
    | true =>
      obtain ⟨⟨next, isBlock⟩, v, hbranch, ⟨⟩⟩ := bind_eq_ok.mp h
      have hadvance : Tandem C .twins 0 (fun _ => false) .solid still (discard advance) (discard advance) :=
        .discard .advance fun _ _ => False.elim
      have hend := TokenKind.isEnd_of_opens hopens
      have hahead := s.ahead_suffix (!lastIsBlock)
      have hu := (hadvance.left Seam.twins_fixed r _ _ u (hholds.suffix hahead) ⟨_, hend, hend⟩ hword).1.trans hahead
      have hv := (branch_tandem hg).left Seam.twins_fixed r u _ t (hholds.suffix hu) (Pairing.left_any _) hbranch
      obtain ⟨hblock, hread⟩ := branch_eq_ok hg (hholds.suffix hu) hbranch
      refine .inl ⟨_, rfl, hholds.suffix (hv.1.trans hu), (hv.1.trans hu).trans hsuffix, next, ?_, hblock, ?_⟩
      · exact Array.back?_push
      · exact fun hinline => (hread hinline).of_suffix (hu.trans hsuffix)

theorem iterate_branches (hg : g.Paired C .twins 0 g) (turns : Nat) (hx : BranchesTo C g r first x s) {node : Node}
    (h : iterate (otherBranches g start) turns x r s = .ok (node, t)) : EndsWithBody g r first node t := by
  induction turns generalizing x s with
  | zero => cases h
  | succ turns ih =>
    obtain ⟨turn, u, hturn, h⟩ := bind_eq_ok.mp h
    rcases otherBranches_eq_ok hg hx hturn with ⟨y, rfl, hy⟩ | ⟨node, rfl, hnode⟩
    · exact ih hy h
    · cases h
      exact hnode

/-- The line breaks that are skipped in search of another branch are left alone if there is none. -/
theorem conditional_eq_ok (hg : g.Paired C .twins 0 g) (hs : C.Holds s) (hk : s.kind.isEnd = false) {node : Node}
    (h : conditional g r s = .ok (node, t)) : EndsWithBody g r s node t := by
  obtain ⟨first, u, hfirst, h⟩ := bind_eq_ok.mp h
  obtain ⟨⟨read, isBlock⟩, v, hbranch, h⟩ := bind_eq_ok.mp h
  have hadvance : Tandem C .twins 0 (fun _ => false) .solid moves advance advance := .advance
  have hu := (hadvance.left Seam.twins_fixed r s first u hs ⟨_, hk, hk⟩ hfirst).1
  have hv := (branch_tandem hg).left Seam.twins_fixed r u _ v (hs.suffix hu) (Pairing.left_any _) hbranch
  obtain ⟨hblock, hread⟩ := branch_eq_ok hg (hs.suffix hu) hbranch
  refine iterate_branches hg r.turns ⟨hs.suffix (hv.1.trans hu), hv.1.trans hu, read, ?_, hblock, ?_⟩ h
  · rfl
  · exact fun hinline => (hread hinline).of_suffix hu

end Rewind

end Parser

/-- The parser comes to an end with a program or a fault. No call of a part of the grammar starts outside of the
tokens or fails to take one. From any place in the tokens every level of the grammar ends strictly later in them,
and a conditional that ends with a statement as its last body ends where that was read up to. It is as many places
before the one from which another branch was looked for as line breaks were skipped. -/
theorem Program.parse_halts (firstId : Nat) (tokens : List Token) :
    ((∃ program nextId, Program.parse firstId tokens = .ok (program, nextId)) ∨
      ∃ e, Program.parse firstId tokens = .error (.fault e)) ∧
    (∀ alarm, Parser.program (.watchedUpTo (.of tokens) alarm (Token.weights tokens + 2))
        { turns := Token.weights tokens + 2 } ⟨.ofTokens tokens, firstId⟩ =
      Parser.program (.upTo (Token.weights tokens + 2)) { turns := Token.weights tokens + 2 }
        ⟨.ofTokens tokens, firstId⟩) ∧
    ∀ depth r s i, s.At (Stream.closed tokens) i →
      (∀ p ∈ Parser.levels (.upTo depth), ∀ node t, p r s = .ok (node, t) →
        ∃ j, i < j ∧ t.At (Stream.closed tokens) j) ∧
      ∀ branches span t, s.kind = .keyword .ifWord →
        Parser.conditional (.upTo depth) r s = .ok (⟨.conditional branches none false, span⟩, t) →
        ∀ last, branches.getLast? = some last → last.discard = false →
          ∃ u j k, i < j ∧ j < k ∧ u.At (Stream.closed tokens) j ∧ t.At (Stream.closed tokens) k ∧
            (Grammar.upTo depth).statement r u = .ok (last.body, t) ∧
            ParseState.At ⟨t.stream.skipNewlines, t.nextId⟩ (Stream.closed tokens) (k + t.lineBreaks) := by
  refine ⟨Program.parse_ok_or_fault firstId tokens, Parser.program_watched firstId tokens, fun depth r s i hs => ?_⟩
  have hg : (Grammar.upTo depth).Paired (.of tokens) .twins 0 (.upTo depth) :=
    Grammar.upTo_paired (Nat.zero_le depth) depth nofun
  have hholds : (Corpus.of tokens).Holds s := ⟨_, .whole, hs.suffix⟩
  constructor
  · intro p hp node t hrun
    obtain ⟨hsuffix, hmoved⟩ := Parser.levels_onward hg p hp r s node t hholds (Pairing.left_any _) hrun
    exact hs.later hsuffix (hmoved trivial)
  · intro branches span t hk hrun last hlast hinline
    obtain ⟨u, hu, hlt, hbody⟩ := Parser.conditional_eq_ok hg hholds (hk ▸ rfl) hrun branches rfl last hlast hinline
    obtain ⟨j, hij, huj⟩ := hs.later hu hlt
    obtain ⟨hsuffix, hmoved⟩ := hg.statement.left Seam.twins_fixed r u last.body t (hholds.suffix hu)
      (Pairing.left_any _) hbody
    obtain ⟨k, hjk, htk⟩ := huj.later hsuffix (hmoved trivial)
    exact ⟨u, j, k, hij, hjk, huj, htk, hbody, htk.skipNewlines (Stream.closed_ending tokens)⟩

end ScriptLang
