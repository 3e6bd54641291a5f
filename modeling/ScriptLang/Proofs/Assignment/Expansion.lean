import ScriptLang.Proofs.Assignment.Level
import ScriptLang.Proofs.Eval.NullSafe

/-! Signs that assign. Main statement: an assignment with an operator, and a target with a run of `++` and `--`, are
read as the plain assignments that they stand for. -/
namespace ScriptLang

open ScriptLang.Parser

section Bounds

variable {k : TokenKind Token} {op : BinaryOp}

theorem TokenKind.bounds_end : (endOfInput : TokenKind Token).Bounds := ⟨⟨rfl, rfl, rfl⟩, rfl, rfl⟩

theorem TokenKind.bounds_equal : (symbol .equal : TokenKind Token).Bounds := ⟨⟨rfl, rfl, rfl⟩, rfl, rfl⟩

theorem TokenKind.bounds_operator (h : k.operator? = some op) : k.Bounds := by
  refine ⟨endsChain_of_operator? h, ?_⟩
  unfold operator? at h
  split at h <;> first | exact ⟨rfl, rfl⟩ | cases h

theorem TokenKind.bounds_compound (h : k.compound? = some op) : k.Bounds := by
  unfold compound? at h
  split at h <;> first | exact ⟨⟨rfl, rfl, rfl⟩, rfl, rfl⟩ | cases h

theorem TokenKind.bounds_increment (h : IsIncrement k) : k.Bounds := by
  rcases h with rfl | rfl <;> exact ⟨⟨rfl, rfl, rfl⟩, rfl, rfl⟩

end Bounds

namespace Parser

variable {g : Grammar} {r : Surroundings} {s t u w : ParseState} {node x : Node} {id depth : Nat}

section Steps

theorem eat_equal (f : Bool → Parser Node) : (eat .equal >>= f) r t =
    if t.kind.isSymbol .equal = true then f true r ⟨t.stream.advance, t.nextId⟩ else f false r t := by
  have heat : eat .equal r t = if t.kind.isSymbol .equal = true then .ok (true, ⟨t.stream.advance, t.nextId⟩)
      else .ok (false, t) := by
    change (if t.kind.isSymbol .equal = true then _ else _ : Parser Bool) r t = _
    split <;> rfl
  rw [bind_apply, heat]
  cases t.kind.isSymbol .equal <;> rfl

theorem expression_eq_ok (hs : Starts s.kind) : expression g r s = .ok (x, w) ↔ r.depth < maxNesting ∧
    ∃ node t, condition g r.deeper s = .ok (node, t) ∧
      (if t.kind.isSymbol .equal = true then (g.expression >>= assign node) r.deeper
        ⟨t.stream.advance, t.nextId⟩ else .ok (node, t)) = .ok (x, w) := by
  rw [expression, nested_apply]
  split
  next h =>
    have heq (r : Surroundings) : (do
        if ← atKeyword .varWord then declaration g
        else
          let node ← condition g
          if ← eat .equal then assign node (← g.expression)
          else return node : Parser Node) r s = (condition g >>= fun node => eat .equal >>= fun found =>
            if found = true then g.expression >>= assign node else pure node) r s := by
      obtain ⟨⟨previous, ⟨k, span⟩, rest⟩, id⟩ := s
      rcases hs with (⟨name, rfl⟩ | rfl) | rfl | rfl <;> rfl
    rw [heq, bind_eq_ok, and_iff_right h]
    simp only [eat_equal]
    rfl
  next h => exact ⟨fun hrun => (by cases hrun), fun hrun => absurd hrun.1 h⟩

theorem assign_eq_ok {target value : Node} : assign target value r s = .ok (x, w) ↔
    ∃ shape, target.written? value = some shape ∧ x = ⟨shape, target.span.cover value.span⟩ ∧ w = s := by
  unfold assign
  cases target.written? value with
  | none => exact ⟨fun h => (by cases h), fun ⟨_, h, _⟩ => (by cases h)⟩
  | some shape =>
    constructor
    · rintro ⟨⟩
      exact ⟨shape, rfl, rfl, rfl⟩
    · rintro ⟨_, ⟨⟩, rfl, rfl⟩
      rfl

theorem compound_eq_ok {op : BinaryOp} {target : Node} : compound g op target r t = .ok (x, w) ↔
    ∃ v shape, g.expression r ⟨t.stream.advance, t.nextId⟩ = .ok (v, w) ∧
      target.written? (.binary op target v) = some shape ∧
      x = ⟨shape, target.span.cover (Node.binary op target v).span⟩ := by
  constructor
  · intro h
    obtain ⟨_, _, ⟨⟩, h⟩ := bind_eq_ok.mp h
    obtain ⟨v, _, hv, h⟩ := bind_eq_ok.mp h
    obtain ⟨shape, hshape, rfl, rfl⟩ := assign_eq_ok.mp h
    exact ⟨v, shape, hv, hshape, rfl⟩
  · rintro ⟨v, shape, hv, hshape, rfl⟩
    exact bind_eq_ok.mpr ⟨(), _, rfl, bind_eq_ok.mpr ⟨v, w, hv, assign_eq_ok.mpr ⟨shape, hshape, rfl, rfl⟩⟩⟩

theorem skipNewlines_facing {previous : Span} {first : Token} {rest : List Token} (h : first.kind.isNewline = false) :
    skipNewlines r (.facing previous id (first :: rest)) = .ok ((), .facing previous id (first :: rest)) :=
  congrArg (fun stream => Except.ok ((), ParseState.mk stream id)) (Stream.behindNewlines_eq h)

theorem solid_of_expression (hrun : expression g r s = .ok (x, w)) :
    s.kind.isNewline = false ∧ s.kind.isEnd = false := by
  obtain ⟨⟨previous, ⟨k, span⟩, rest⟩, id⟩ := s
  rw [expression, nested_apply] at hrun
  split at hrun
  next =>
    cases k with
    | newline | endOfInput => cases hrun
    | _ => exact ⟨rfl, rfl⟩
  next => cases hrun

/-- An expression in parentheses is a chain, and what is in them has the shape of the whole. -/
theorem chain_paren {previous : Span} {opening first : Token} {more : List Token}
    (hopening : opening.kind = .symbol .leftParen) (hfirst : first.kind.isNewline = false) (hturns : 0 < r.turns)
    (hrun : chain g r (.facing previous id (opening :: first :: more)) = .ok (node, u)) :
    ∃ inner w, g.expression r (.facing opening.span id (first :: more)) = .ok (inner, w) ∧
      ∀ close e, w.Before [close, e] → close.kind = .symbol .rightParen → e.kind = .endOfInput →
        node.shape = inner.shape ∧ u.kind = .endOfInput := by
  obtain ⟨kind, span⟩ := opening
  obtain rfl : kind = _ := hopening
  obtain ⟨head, v, hhead, hloop⟩ := bind_eq_ok.mp hrun
  have hhead : (parenthesised g >>= links g false) r _ = .ok (head, v) := hhead
  obtain ⟨atom, v', hatom, hlinks⟩ := bind_eq_ok.mp hhead
  obtain ⟨_, _, ⟨⟩, hatom⟩ := bind_eq_ok.mp hatom
  obtain ⟨_, _, hskip, hatom⟩ := bind_eq_ok.mp hatom
  cases (skipNewlines_facing hfirst).symm.trans hskip
  obtain ⟨inner, w, hinner, hatom⟩ := bind_eq_ok.mp hatom
  refine ⟨inner, w, hinner, fun close e hw hclose he => ?_⟩
  rw [hw.facing] at hatom
  obtain ⟨_, _, hskip, hatom⟩ := bind_eq_ok.mp hatom
  cases (skipNewlines_facing (by rw [hclose]; rfl)).symm.trans hskip
  obtain ⟨_, _, hclosed, ⟨⟩⟩ := bind_eq_ok.mp hatom
  obtain ⟨kind, span⟩ := close
  obtain rfl : kind = _ := hclose
  cases hclosed
  have hends (k : TokenKind Token) (hk : k = .endOfInput) : k.EndsChain := hk ▸ ⟨rfl, rfl, rfl⟩
  obtain ⟨_, _, hlinks', rfl⟩ := links_reads (Q := (· = _)) hends false rfl hturns _ _ [] e [] rfl he
  cases hlinks'.symm.trans hlinks
  obtain ⟨_, _, hloop', rfl⟩ := nextLinks_reads (Q := (· = _)) hends false rfl hturns _ _ [] e [] rfl he
  cases hloop'.symm.trans hloop
  exact ⟨rfl, he⟩

end Steps

section Program

theorem statement_opens (hs : Starts s.kind) :
    s.skipped = s ∧ s.kind.closesBlock = false ∧ statement g r s = expression g r s := by
  obtain ⟨⟨previous, ⟨k, span⟩, rest⟩, id⟩ := s
  have hline : k.isNewline = false := by
    rcases hs with (⟨name, rfl⟩ | rfl) | rfl | rfl <;> rfl
  refine ⟨congrArg (ParseState.mk · id) (Stream.behindNewlines_eq hline), ?_⟩
  rcases hs with (⟨name, rfl⟩ | rfl) | rfl | rfl <;> exact ⟨rfl, rfl⟩

variable {tokens : List Token} {nodes : List Node} {last : Nat}

theorem first_of_opening (h : Opening g r s nodes last) (hopens : s.kind.closesBlock = false) :
    ∃ node others t, nodes = node :: others ∧ g.statement r s = .ok (node, t) := by
  cases h with
  | finished hend =>
    rw [show s.kind = _ from hend] at hopens
    cases hopens
  | statement _ hrun => exact ⟨_, _, _, rfl, hrun⟩

theorem expression_of_parse (hs : Starts (ParseState.kind ⟨.ofTokens tokens, id⟩))
    (h : Program.parse id tokens = .ok (nodes, last)) : ∃ node others t, nodes = node :: others ∧
      expression (.upTo (Token.weights tokens + 1)) { turns := Token.weights tokens + 2 } ⟨.ofTokens tokens, id⟩ =
        .ok (node, t) := by
  obtain ⟨hskipped, hopens, hstatement⟩ := statement_opens hs
  obtain ⟨t, hrun, -⟩ := Program.parse_eq_ok.mp h
  obtain ⟨node, others, u, hnodes, hnode⟩ := first_of_opening (hskipped ▸ opening_of_program hrun) hopens
  exact ⟨node, others, u, hnodes, hstatement.symm.trans hnode⟩

theorem parse_of_condition (hs : Starts (ParseState.kind ⟨.ofTokens tokens, id⟩))
    (hrun : condition (.upTo (Token.weights tokens + 1)) ⟨Token.weights tokens + 2, 1, false⟩
      ⟨.ofTokens tokens, id⟩ = .ok (node, t)) (hend : t.kind = .endOfInput) :
    Program.parse id tokens = .ok ([node], t.nextId) := by
  obtain ⟨hskipped, hopens, hstatement⟩ := statement_opens hs
  refine Program.parse_eq_ok.mpr (program_of_opening ?_ (Nat.le_add_left _ _))
  rw [hskipped]
  refine .statement hopens (hstatement.trans ?_) (.finished hend)
  exact (expression_eq_ok hs).mpr ⟨Nat.zero_lt_succ _, node, t, hrun, if_neg (by rw [hend]; decide)⟩

end Program

end Parser

/-- A chain that is read as `place`. -/
structure Chained (id : Nat) (words : List Token) (place : Node) : Prop where
  primary : Primary words
  reads : ∃ e, ReadsAs chain false id words [e] place

/-- Words that have a reading with `Q` inside of an expression in front of all that ends them. -/
def Readable (p : Grammar → Parser Node) (Ends : List Token → Prop) (words : List Token) (Q : Node → Prop) : Prop :=
  ∀ {depth : Nat} {r : Surroundings} {s : ParseState} {rest : List Token}, Ends rest → r.depth = 1 →
    r.inConstructor = false → s.Before (words ++ rest) → Token.weights (words ++ rest) ≤ depth + 1 →
    Token.weights (words ++ rest) < r.turns → ∃ node t, p (.upTo depth) r s = .ok (node, t) ∧ t.Before rest ∧ Q node

def Bounded (rest : List Token) : Prop := ∃ e more, rest = e :: more ∧ e.kind.Bounds

def Closing (rest : List Token) : Prop := ∃ e, rest = [e] ∧ e.kind = .endOfInput

inductive Longhand (target value : List Token) (op : BinaryOp) : List Token → Prop
  | mk {t t' v : List Token} {equal sign opening close e : Token} (first : SameWords target t)
      (again : SameWords target t') (inner : SameWords value v) (equals : equal.kind = .symbol .equal)
      (means : sign.kind.operator? = some op) (opens : opening.kind = .symbol .leftParen)
      (closes : close.kind = .symbol .rightParen) (ends : e.kind = .endOfInput) :
      Longhand target value op (t ++ equal :: (t' ++ sign :: opening :: (v ++ [close, e])))

inductive Shorthand (target value : List Token) (op : BinaryOp) : List Token → Prop
  | mk {assigns e : Token} (means : assigns.kind.compound? = some op) (ends : e.kind = .endOfInput) :
      Shorthand target value op (target ++ assigns :: (value ++ [e]))

inductive Stepped (target run : List Token) : List Token → Prop
  | behind {e : Token} (ends : e.kind = .endOfInput) : Stepped target run (target ++ (run ++ [e]))
  | before {e : Token} (ends : e.kind = .endOfInput) : Stepped target run (run ++ (target ++ [e]))

theorem Node.Like.of_shape {a b c : Node} (h : Like .loose a b) (hshape : c.shape = b.shape) : Like .loose a c := by
  obtain ⟨shape, span⟩ := c
  obtain rfl : shape = _ := hshape
  cases h with
  | mk shape _ => exact .mk shape trivial

theorem written_of_like {a a' v v' : Node} (ha : a.Same a') (hv : v.Same v')
    {shape : Shape Node} (h : a'.written? v' = some shape) :
    ∃ shape', a.written? v = some shape' ∧ ∀ span span', Node.Like .loose ⟨shape', span⟩ ⟨shape, span'⟩ := by
  have hlike := written?_like ha hv
  rw [h] at hlike
  generalize a.written? v = x at hlike
  cases hlike with
  | some hshape => exact ⟨_, rfl, fun _ _ => .mk hshape trivial⟩

section Reading

variable {target value words words' rest tokens : List Token} {place result x a b c : Node} {op : BinaryOp}
  {e e₀ sign : Token} {r : Surroundings} {s s' t t' w : ParseState} {depth id i j last : Nat} {nodes : List Node}

theorem first_of_value (h : ReadsAs expression false id value [e] result) (hwords : SameWords value words) :
    ∃ first others, words = first :: others ∧ first.kind.isNewline = false := by
  have htokens := h.tokens expression_stable
  have he := h.kind_end expression_stable
  obtain ⟨depth, r, t, -, hrun, -⟩ := h
  obtain ⟨hline, hend⟩ := solid_of_expression hrun
  cases hwords with
  | nil =>
    rw [ParseState.kind_eq htokens, he] at hend
    cases hend
  | @cons token first _ others hsame =>
    refine ⟨first, others, rfl, ?_⟩
    rw [ParseState.kind_eq htokens] at hline
    have hkind := hsame.kind
    generalize token.kind = k, first.kind = k' at hline hkind
    cases hkind with
    | plain => exact hline
    | template => rfl

section

variable (h : Chained i target place) (hwords : SameWords target words) (hflag : r.inConstructor = false)

include h hwords hflag

theorem Chained.head (hs : s.Before (words ++ e :: rest)) (he : e.kind.Bounds)
    (hrun : expression (.upTo depth) r s = .ok (x, w)) :
    ∃ node t, chain (.upTo depth) r.deeper s = .ok (node, t) ∧ t.Before (e :: rest) ∧ place.Same node := by
  have hprimary := (h.primary.same hwords).kind hs
  obtain ⟨-, _, _, hcondition, -⟩ := (expression_eq_ok (.inl hprimary)).mp hrun
  obtain ⟨node, t, hchain⟩ := chain_of_atLevel (Nat.zero_le 5) hprimary hcondition
  obtain ⟨e₀, halone⟩ := h.reads
  obtain ⟨hlike, ht⟩ := (chain_joint [] rest (halone.kind_end chain_stable ▸ TokenKind.bounds_end) he).ends
    (r := r.deeper) rfl (hflag ▸ halone) chain_stable hwords hs
    (fun s hs' => ⟨h.primary.kind hs', hprimary⟩) hchain
  exact ⟨node, t, hchain, ht, hlike⟩

theorem Chained.readable (hs' : s'.Before (words ++ sign :: rest)) (hsign : sign.kind.Bounds)
    (hequal : sign.kind ≠ .symbol .equal) (hdepth : 0 < r.depth) (hrun : chain (.upTo depth) r s' = .ok (b, t'))
    (ht' : t'.Before (sign :: rest)) : Readable chain Bounded target (·.Same b) := by
  intro depth' r' s rest' hrest hdepth' hflag' hs hsize hturns
  obtain ⟨e, more, rfl, he⟩ := hrest
  rw [← hs.tokens] at hsize hturns
  refine (chain_joint more rest he hsign).transfer hwords hs hs' ⟨h.primary.kind hs, (h.primary.same hwords).kind hs'⟩
    hsize hturns (hdepth' ▸ hdepth) (hflag'.trans hflag.symm) ?_ hrun ht'.tokens
  rintro _ ⟨⟩
  exact hequal

/-- An operator between the chain and an expression in parentheses. -/
theorem Chained.operation (hv : ReadsAs expression false id value [e₀] result) (hinner : SameWords value words')
    {opening close : Token} (hs : s.Before (words ++ sign :: opening :: (words' ++ [close, e])))
    (hsign : sign.kind.operator? = some op) (hopening : opening.kind = .symbol .leftParen)
    (hclose : close.kind = .symbol .rightParen) (he : e.kind = .endOfInput) (hturns : 0 < r.turns)
    (hrun : expression (.upTo depth) r s = .ok (x, w)) :
    ∃ b c, x = .binary op b c ∧ Readable chain Bounded target (·.Same b) ∧
      Readable expression Closing value (·.Same c) := by
  have hprimary := (h.primary.same hwords).kind hs
  have hbounds := TokenKind.bounds_operator hsign
  obtain ⟨b, t, hchain, ht, -⟩ := h.head hwords hflag hs hbounds hrun
  obtain ⟨-, z, t', hcondition, hend⟩ := (expression_eq_ok (.inl hprimary)).mp hrun
  obtain ⟨first, others, rfl, hline⟩ := first_of_value hv hinner
  obtain ⟨depth', r', c, u, hdepth, hflag', hturns', hc, hdone⟩ := operand_of_operator
    (r := r.deeper) hprimary hturns hchain (ParseState.kind_eq ht.tokens ▸ hsign)
    (by rw [ht.facing]; exact .inr hopening) hcondition
  have ht' := ht.next (List.cons_ne_nil _ _)
  rw [ht'.facing] at hc
  obtain ⟨inner, v, hexpression, hclosed⟩ := chain_paren hopening hline hturns' hc
  cases depth' with
  | zero => cases hexpression
  | succ depth' =>
    have hs' : ParseState.Before (.facing opening.span t.nextId (first :: others ++ [close, e]))
        (first :: others ++ [close, e]) := ⟨rfl, ht'.holds.suffix ⟨[opening], ht'.tokens.symm⟩⟩
    obtain ⟨-, hv'⟩ := (expression_joint [e] (hv.kind_end expression_stable) hclose).ends (r := r') rfl
      ((hflag'.trans hflag).symm ▸ hv) expression_stable hinner hs' (fun _ _ => ⟨trivial, trivial⟩) hexpression
    obtain ⟨hshape, hu⟩ := hclosed close e hv' hclose he
    obtain ⟨rfl, rfl⟩ := hdone hu
    rw [if_neg (by rw [hu]; decide)] at hend
    cases hend
    refine ⟨b, c, rfl, h.readable (r := r.deeper) hwords hflag hs hbounds (fun hequal => ?_) (Nat.succ_pos _)
      hchain ht, ?_⟩
    · rw [hequal] at hsign
      cases hsign
    intro depth r₀ s₀ rest hrest hdepth₀ hflag₀ hs₀ hsize hturns₀
    obtain ⟨e', rfl, he'⟩ := hrest
    rw [← hs₀.tokens] at hsize hturns₀
    obtain ⟨node, v', hnode, hv'', hlike⟩ := (expression_joint [e] he' hclose).transfer hinner hs₀ hs'
      ⟨trivial, trivial⟩ hsize hturns₀ (hdepth₀ ▸ Nat.le_trans (Nat.succ_pos _) hdepth)
      (hflag₀.trans (hflag'.trans hflag).symm) (by rintro _ ⟨⟩; simp [hclose]) hexpression hv'.tokens
    exact ⟨node, v', hnode, hv'', hlike.of_shape hshape⟩

end

theorem Longhand.reads (h : Longhand target value op tokens) (htarget : Chained i target place)
    (hv : ReadsAs expression false id value [e₀] result)
    (hparse : Program.parse j tokens = .ok (nodes, last)) :
    ∃ node others a b c, nodes = node :: others ∧ place.Same a ∧
      (Readable chain Bounded target fun m => m.Same a ∧ m.Same b) ∧
      Readable expression Closing value (·.Same c) ∧
      a.written? (.binary op b c) = some node.shape := by
  cases h with
  | @mk ts ts' v equal sign opening close e first again inner equals means opens closes ends =>
    have hs : ParseState.Before _ (ts ++ equal :: (ts' ++ sign :: opening :: (v ++ [close, e]))) :=
      .ofTokens ends j (by simp [List.getLast?_cons])
    have hprimary := (htarget.primary.same first).kind hs
    have hbounds : equal.kind.Bounds := equals ▸ TokenKind.bounds_equal
    obtain ⟨node, others, u, hnodes, hrun⟩ := expression_of_parse (.inl hprimary) hparse
    obtain ⟨a, t, hchain, ht, hlike⟩ := htarget.head first rfl hs hbounds hrun
    have hkind : t.kind = .symbol .equal := (ParseState.kind_eq ht.tokens).trans equals
    have hcondition := atLevel_chain (r := Surroundings.deeper _) (Nat.zero_le 5) hprimary (Nat.succ_pos _) hchain
      (hkind ▸ stops_equal)
    obtain ⟨-, _, _, hcondition', hassign⟩ := (expression_eq_ok (.inl hprimary)).mp hrun
    cases hcondition.symm.trans hcondition'
    rw [if_pos (by rw [hkind]; decide)] at hassign
    obtain ⟨y, _, hvalue, hassign⟩ := bind_eq_ok.mp hassign
    obtain ⟨shape, hwritten, rfl, -⟩ := assign_eq_ok.mp hassign
    obtain ⟨b, c, rfl, hb, hc⟩ := htarget.operation again rfl hv inner (ht.next (by simp)) means opens closes ends
      (Nat.succ_pos _) hvalue
    refine ⟨_, others, a, b, c, hnodes, hlike, ?_, hc, hwritten⟩
    intro depth r s rest hrest hdepth hflag hs' hsize hturns
    obtain ⟨m, t', hm, ht', hmb⟩ := hb hrest hdepth hflag hs' hsize hturns
    obtain ⟨e', more, rfl, he'⟩ := hrest
    rw [← hs'.tokens] at hsize hturns
    have hma := ((chain_joint more _ he' hbounds).agree first hs' hs ⟨htarget.primary.kind hs', hprimary⟩ hsize
      hturns (Nat.le_of_eq hdepth) hflag hm ht'.tokens hchain).1
    exact ⟨m, t', hm, ht', hma, hmb⟩

theorem Shorthand.reads (h : Shorthand target value op tokens) (hprimary : Primary target)
    (htarget : Readable chain Bounded target fun m => m.Same a ∧ m.Same b)
    (hvalue : Readable expression Closing value (·.Same c)) {shape : Shape Node}
    (hwritten : a.written? (.binary op b c) = some shape) (span : Span) (id : Nat) :
    ∃ node last, Program.parse id tokens = .ok ([node], last) ∧ node.Same ⟨shape, span⟩ := by
  cases h with
  | @mk assigns e means ends =>
    have hs : ParseState.Before _ (target ++ assigns :: (value ++ [e])) :=
      .ofTokens ends id (by simp [List.getLast?_cons])
    have hopens := hprimary.kind hs
    obtain ⟨m, t, hchain, ht, hma, hmb⟩ := htarget (r := ⟨_, 1, false⟩) ⟨_, _, rfl, TokenKind.bounds_compound means⟩
      rfl rfl hs (Nat.le_add_right _ 2) (Nat.lt_add_of_pos_right Nat.two_pos)
    have hweights : Token.weights (value ++ [e]) ≤ Token.weights (target ++ assigns :: (value ++ [e])) :=
      Token.weights_le_of_suffix ⟨target ++ [assigns], by simp⟩
    obtain ⟨v, u, hexpression, hu, hvc⟩ := hvalue (r := ⟨_, 1, false⟩) ⟨e, rfl, ends⟩ rfl rfl (ht.next (by simp))
      (Nat.le_succ_of_le hweights) (Nat.lt_add_right 1 (Nat.lt_succ_of_le hweights))
    obtain ⟨shape', hm, hlike⟩ := written_of_like hma (binary_like op hmb hvc) hwritten
    have hend : u.kind = .endOfInput := (ParseState.kind_eq hu.tokens).trans ends
    have hlevel := atLevel_compound hopens (Nat.succ_pos _) hchain (ParseState.kind_eq ht.tokens ▸ means)
    have hcondition := atLevel_stop (Nat.zero_le _) (by omega) (.inl hopens) (Nat.succ_pos _)
      (hlevel.trans (compound_eq_ok.mpr ⟨v, shape', hexpression, hm, rfl⟩)) fun l hl hlt =>
        hend ▸ stops_end.level l hl (by omega)
    exact ⟨_, _, parse_of_condition (.inl hopens) hcondition hend, hlike _ _⟩

/-- Nothing is written to a chain that ends with a call, a slice or a null-safe link. -/
theorem Shorthand.rejected (h : Shorthand target value op tokens) (htarget : Chained i target place)
    (hfixed : ∀ value, place.written? value = none) (hparse : Program.parse id tokens = .ok (nodes, last)) :
    False := by
  cases h with
  | @mk assigns e means ends =>
    have hs : ParseState.Before _ (target ++ assigns :: (value ++ [e])) :=
      .ofTokens ends id (by simp [List.getLast?_cons])
    have hopens := htarget.primary.kind hs
    obtain ⟨node, others, u, hnodes, hrun⟩ := expression_of_parse (.inl hopens) hparse
    obtain ⟨m, t, hchain, ht, hlike⟩ := htarget.head (Token.alike_refl (.inl rfl) _) rfl hs
      (TokenKind.bounds_compound means) hrun
    obtain ⟨-, _, _, hcondition, -⟩ := (expression_eq_ok (.inl hopens)).mp hrun
    have hlevel := atLevel_compound (r := Surroundings.deeper _) hopens (Nat.succ_pos _) hchain
      (ParseState.kind_eq ht.tokens ▸ means)
    obtain ⟨_, _, hinner⟩ := atLevel_inner (Nat.zero_le (min op.level 4)) (by omega) (.inl hopens) hcondition
    obtain ⟨v, shape, -, hwritten, -⟩ := compound_eq_ok.mp (hlevel.symm.trans hinner)
    obtain ⟨_, hplace, -⟩ := written_of_like hlike (Node.Like.refl (.inl rfl) _) hwritten
    cases (hfixed _).symm.trans hplace

variable {run : List Token} {shape : Shape Node}

theorem increment_of_like (r : Surroundings) (s : ParseState) (hlike : x.Same a) {delta : Int}
    {span : Span} (span' : Span)
    (hwritten : a.written? (.binary .add a ⟨.number (Float.ofInt delta), span⟩) = some shape) :
    ∃ node, increment x delta span' r s = .ok (node, s) ∧ node.Same ⟨shape, span⟩ := by
  have hnumber : Node.Like .loose ⟨.number (Float.ofInt delta), span'⟩ ⟨.number (Float.ofInt delta), span⟩ :=
    .mk (.number _) trivial
  obtain ⟨shape', hx, hshape⟩ := written_of_like hlike (binary_like .add hlike hnumber) hwritten
  exact ⟨_, bind_eq_ok.mpr ⟨_, s, assign_eq_ok.mpr ⟨shape', hx, rfl, rfl⟩, rfl⟩, hshape _ _⟩

theorem Stepped.reads (h : Stepped target run tokens) (hprimary : Primary target) (hne : run ≠ [])
    (hrun : ∀ sign ∈ run, IsIncrement sign.kind) (htarget : Readable chain Bounded target (·.Same a)) {span : Span}
    (hwritten : a.written? (.binary .add a ⟨.number (Float.ofInt (steps run)), span⟩) = some shape) (id : Nat) :
    ∃ node last, Program.parse id tokens = .ok ([node], last) ∧ node.Same ⟨shape, span⟩ := by
  obtain ⟨sign, more, rfl⟩ := List.exists_cons_of_ne_nil hne
  have hsign := hrun sign (List.mem_cons_self ..)
  have hmeans : OperatorTree.levelOp 3 sign.kind = some .increments := by
    rcases hsign with h | h <;> rw [h] <;> rfl
  have hturns (tokens : List Token) (hinside : sign :: more <:+: tokens) :
      (sign :: more).length < Token.weights tokens + 2 :=
    Nat.lt_add_right 1 (Nat.lt_succ_of_le (Nat.le_trans hinside.length_le (Token.length_le_weights tokens)))
  cases h with
  | @behind e ends =>
    have hs : ParseState.Before _ (target ++ (sign :: more ++ [e])) :=
      .ofTokens ends id (by simp [List.getLast?_cons])
    have hopens := hprimary.kind hs
    obtain ⟨m, t, hchain, ht, hma⟩ := htarget (r := ⟨_, 1, false⟩) ⟨_, _, rfl, TokenKind.bounds_increment hsign⟩
      rfl rfl hs (Nat.le_add_right _ 2) (Nat.lt_add_of_pos_right Nat.two_pos)
    have hkind := ParseState.kind_eq ht.tokens
    have hterm := atLevel_chain (by decide) hopens (Nat.succ_pos _) hchain (hkind ▸ stops_increment hsign)
    obtain ⟨last, u, hsigns, hu⟩ := increments_run (r := ⟨_, 1, false⟩) hrun (by rw [ends]; simp [IsIncrement]) ht
      (hturns _ ⟨target, [e], List.append_assoc ..⟩)
    obtain ⟨node, hnode, hlike⟩ := increment_of_like ⟨_, 1, false⟩ u hma last hwritten
    have hend : u.kind = .endOfInput := (ParseState.kind_eq hu.tokens).trans ends
    have hcondition := atLevel_stop (Nat.zero_le 3) (by decide) (.inl hopens) (Nat.succ_pos _)
      ((atLevel_eq (by decide) (.inl hopens)).trans (level_increments hterm (Nat.le_add_left 2 _) (hkind ▸ hmeans)
        hsigns hnode (hend ▸ stops_end.level 3 (Nat.zero_le 3) (by decide))))
      fun l hl hlt => hend ▸ stops_end.level l hl (by omega)
    exact ⟨_, _, parse_of_condition (.inl hopens) hcondition hend, hlike⟩
  | @before e ends =>
    obtain ⟨first, others, rfl, hfirst⟩ := hprimary
    have hs : ParseState.Before _ (sign :: more ++ (first :: others ++ [e])) :=
      .ofTokens ends id (by simp [List.getLast?_cons])
    have hopens : IsIncrement (ParseState.kind _) := ParseState.kind_eq hs.tokens ▸ hsign
    have hnot : ¬IsIncrement first.kind := by
      rcases hfirst with ⟨name, h⟩ | h <;> rw [h] <;> simp [IsIncrement]
    obtain ⟨last, u, hsigns, hu⟩ := increments_run (r := ⟨_, 1, false⟩) hrun hnot hs
      (hturns (sign :: more ++ (first :: others ++ [e])) (List.prefix_append _ _).isInfix)
    have hweights : Token.weights (first :: others ++ [e]) ≤ _ := Token.weights_le_of_suffix ⟨sign :: more, rfl⟩
    obtain ⟨m, t, hchain, ht, hma⟩ := htarget (r := ⟨_, 1, false⟩) ⟨e, [], rfl, ends ▸ TokenKind.bounds_end⟩ rfl rfl
      hu (Nat.le_add_right_of_le (Nat.le_succ_of_le hweights)) (Nat.lt_add_right 1 (Nat.lt_succ_of_le hweights))
    obtain ⟨node, hnode, hlike⟩ := increment_of_like ⟨_, 1, false⟩ t hma last hwritten
    have hend : t.kind = .endOfInput := (ParseState.kind_eq ht.tokens).trans ends
    have hcondition := atLevel_factor (Nat.zero_le 5) (.inr hopens) (Nat.succ_pos _) ((factor_increment hopens).trans
      (bind_eq_ok.mpr ⟨_, u, hsigns, bind_eq_ok.mpr ⟨m, t, hchain, hnode⟩⟩)) (hend ▸ stops_end)
    exact ⟨_, _, parse_of_condition (.inr hopens) hcondition hend, hlike⟩

/-- A chain that is a program of its own. -/
theorem Chained.alone (h : Chained i target place) (he : e.kind = .endOfInput)
    (hparse : Program.parse id (target ++ [e]) = .ok ([a], last)) : Readable chain Bounded target (·.Same a) := by
  have hs : ParseState.Before _ (target ++ [e]) := .ofTokens he id (by simp)
  have hprimary := h.primary.kind hs
  have hbounds : e.kind.Bounds := he ▸ TokenKind.bounds_end
  obtain ⟨node, _, _, ⟨⟩, hrun⟩ := expression_of_parse (.inl hprimary) hparse
  obtain ⟨m, t, hchain, ht, -⟩ := h.head (Token.alike_refl (.inl rfl) _) rfl hs hbounds hrun
  have hend : t.kind = .endOfInput := (ParseState.kind_eq ht.tokens).trans he
  have hcondition := atLevel_chain (r := Surroundings.deeper _) (Nat.zero_le 5) hprimary (Nat.succ_pos _) hchain
    (hend ▸ stops_end)
  obtain ⟨-, _, _, hcondition', hnode⟩ := (expression_eq_ok (.inl hprimary)).mp hrun
  cases hcondition.symm.trans hcondition'
  rw [if_neg (by rw [hend]; decide)] at hnode
  cases hnode
  intro depth r s rest
  exact h.readable (r := Surroundings.deeper _) (Token.alike_refl (.inl rfl) _) rfl hs hbounds (by simp [he])
    (Nat.succ_pos _) hchain ht

end Reading

/-- The last link of a chain is a call, a slice or null-safe. -/
inductive Node.EndsFixed : Node → Prop
  | call {callee args optional span} : EndsFixed ⟨.call callee args optional, span⟩
  | slice {owner start stop optional span} : EndsFixed ⟨.index owner (.slice start stop) optional, span⟩
  | nullSafe {target shape span} (link : Shape.IsNullSafeLink target shape) : EndsFixed ⟨shape, span⟩

theorem Node.EndsFixed.written? {node : Node} (h : node.EndsFixed) (value : Node) : node.written? value = none := by
  cases h with
  | nullSafe link =>
    cases link with
    | index key => cases key <;> rfl
    | _ => rfl
  | _ => rfl

/-- A chain that goes on behind a null-safe sign. -/
def Cancelled (id : Nat) (target : List Token) : Prop :=
  ∃ words start sign more, Chained id words start ∧ IsNullSafeSign sign.kind ∧ target = words ++ sign :: more

theorem Chained.endsFixed {id : Nat} {target : List Token} {place : Node} (h : Chained id target place)
    (hcancelled : Cancelled id target) : place.EndsFixed := by
  obtain ⟨shape, span⟩ := place
  obtain ⟨words, start, sign, more, hwords, hsign, rfl⟩ := hcancelled
  obtain ⟨first, others, rfl, hfirst⟩ := hwords.primary
  obtain ⟨e, hstart⟩ := hwords.reads
  obtain ⟨e', hplace⟩ := h.reads
  obtain ⟨isStatic, hmember⟩ := exists_memberSign hsign
  obtain ⟨count, hsafe⟩ := hstart.nullSafe hfirst hmember hplace
  cases hsafe with
  | link _ hlink => exact .nullSafe hlink

/-- `target op= value` is read as `target = target op (value)` wherever that is a statement, and both are faults if the
target ends in a call, in a slice or in a null-safe link, or goes on behind one. A run of `++` and `--` before or behind
a target is read as adding the number of the ones less that of the others to it. -/
theorem assignment_signs_expand {target value : List Token} {place result : Node} {i j : Nat} {e : Token}
    (htarget : Chained i target place) (hvalue : ReadsAs expression false j value [e] result) :
    (∀ op long short id id', Longhand target value op long → Shorthand target value op short →
      (∀ node last, Program.parse id long = .ok ([node], last) →
        ∃ node' last', Program.parse id' short = .ok ([node'], last') ∧ node'.Same node) ∧
      (place.EndsFixed ∨ Cancelled i target → (∃ fault, Program.parse id long = .error (.fault fault)) ∧
        ∃ fault, Program.parse id' short = .error (.fault fault))) ∧
    ∀ run tokens id id' node last span shape, run ≠ [] → (∀ sign ∈ run, IsIncrement sign.kind) →
      Stepped target run tokens → Program.parse id (target ++ [e]) = .ok ([node], last) →
      node.written? (.binary .add node ⟨.number (Float.ofInt (steps run)), span⟩) = some shape →
      ∃ node' last', Program.parse id' tokens = .ok ([node'], last') ∧ node'.Same ⟨shape, span⟩ := by
  have hend := hvalue.kind_end expression_stable
  have hnever (hfixed : place.EndsFixed ∨ Cancelled i target) := (hfixed.elim id htarget.endsFixed).written?
  refine ⟨fun op long short id id' hlong hshort => ⟨fun node last hparse => ?_, fun hfixed => ⟨?_, ?_⟩⟩, ?_⟩
  · obtain ⟨_, _, a, b, c, ⟨⟩, -, htarget', hvalue', hwritten⟩ := hlong.reads htarget hvalue hparse
    obtain ⟨node', last', hparse', hlike⟩ := hshort.reads htarget.primary htarget' hvalue' hwritten node.span id'
    exact ⟨node', last', hparse', hlike.of_shape rfl⟩
  · refine (Program.parse_ok_or_fault id long).resolve_left fun ⟨nodes, last, hparse⟩ => ?_
    obtain ⟨_, _, a, b, c, -, hlike, -, -, hwritten⟩ := hlong.reads htarget hvalue hparse
    obtain ⟨_, hplace, -⟩ := written_of_like hlike (.refl (.inl rfl) _) hwritten
    cases (hnever hfixed _).symm.trans hplace
  · refine (Program.parse_ok_or_fault id' short).resolve_left fun ⟨nodes, last, hparse⟩ => ?_
    exact hshort.rejected htarget (hnever hfixed) hparse
  · intro run tokens id id' node last span shape hne hrun hstepped hparse hwritten
    exact hstepped.reads htarget.primary hne hrun (htarget.alone hend hparse) hwritten id'

private theorem exists_single {id : Nat} {tokens : List Token}
    (h : (Program.parse id tokens matches .ok ([_], _)) = true) :
    ∃ node last, Program.parse id tokens = .ok ([node], last) := by
  split at h
  next node last hparse => exact ⟨node, last, hparse⟩
  next => cases h

/-- `a.b *= x + y` is read as `a.b = a.b * (x + y)`, and `a.b` with `++`, `++` and `--` behind it as
`a.b = a.b + 1`. -/
theorem assignment_signs_expand_property :
    let word (name : String) : Token := ⟨.identifier name, default⟩
    let sign (s : Symbol) : Token := ⟨.symbol s, default⟩
    let e : Token := ⟨.endOfInput, default⟩
    let target := [word "a", sign .dot, word "b"]
    let value := [word "x", sign .plus, word "y"]
    let place : Node := ⟨.property ⟨.lookup "a", default⟩ "b" false, default⟩
    let long := target ++ sign .equal :: (target ++ sign .star :: sign .leftParen ::
      (value ++ [sign .rightParen, e]))
    let short := target ++ sign .starEqual :: (value ++ [e])
    (∃ node last node' last', Program.parse 0 long = .ok ([node], last) ∧
      Program.parse 0 short = .ok ([node'], last') ∧ node'.Same node) ∧
    ∃ node last, Program.parse 0 (target ++ ([sign .plusPlus, sign .plusPlus, sign .minusMinus] ++ [e])) =
        .ok ([node], last) ∧
      node.Same ⟨.assignProperty ⟨.lookup "a", default⟩ "b" (.binary .add place ⟨.number (Float.ofInt 1), default⟩),
        default⟩ := by
  intro word sign e target value place long short
  have htarget : Chained 0 target place := ⟨⟨_, _, rfl, .inl ⟨"a", rfl⟩⟩, e, 3, ⟨10, 0, false⟩, _, rfl, rfl, rfl⟩
  have hvalue : ReadsAs expression false 0 value [e] _ := ⟨3, ⟨10, 0, false⟩, _, rfl, rfl, rfl⟩
  have hsame (words : List Token) : SameWords words words := Token.alike_refl (.inl rfl) _
  obtain ⟨hsigns, hsteps⟩ := assignment_signs_expand htarget hvalue
  refine ⟨?_, hsteps _ _ 0 0 place _ default _ (List.cons_ne_nil _ _) ?_ (.behind rfl) rfl rfl⟩
  · have hlong : Longhand target value .multiply long := .mk (hsame _) (hsame _) (hsame _) rfl rfl rfl rfl rfl
    have hparse : ∃ node last, Program.parse 0 long = .ok ([node], last) := exists_single (by decide +kernel)
    obtain ⟨node, last, hparse⟩ := hparse
    have hshort : Shorthand target value .multiply short := .mk rfl rfl
    exact ⟨node, last, ((hsigns _ _ _ 0 0 hlong hshort).1 _ _ hparse).imp fun _ => .imp fun _ => .intro hparse⟩
  · simp [IsIncrement, sign]

end ScriptLang
