import ScriptLang.Eval.Rule
import ScriptLang.Proofs.Form.Rule
import ScriptLang.Proofs.Tandem.Exact

/-! Null-safe chains. Main statement: where a chain of links starts with a null-safe one and the value in front of
it is none, the chain is none, and nothing else of it is evaluated. -/
namespace ScriptLang

/-- A null-safe link behind `target`. -/
inductive Shape.IsNullSafeLink (target : Node) : Shape Node → Prop
  | index (index : Index Node) : IsNullSafeLink target (.index target index true)
  | property (name : String) : IsNullSafeLink target (.property target name true)
  | staticProperty (name : String) : IsNullSafeLink target (.staticProperty target name true)
  | call (args : List Node) : IsNullSafeLink target (.call target args true)

/-- A node with null-safe links behind `start`, as many as are counted. -/
inductive Node.NullSafe (start : Node) : Nat → Node → Prop
  | start : NullSafe start 0 start
  | link {count : Nat} {target node : Node} (behind : NullSafe start count target)
      (isLink : node.shape.IsNullSafeLink target) : NullSafe start (count + 1) node

namespace Node.NullSafe

variable {start middle node : Node} {count more : Nat}

theorem one (h : node.shape.IsNullSafeLink start) : NullSafe start 1 node := .link .start h

theorem trans (h : NullSafe start count middle) (hmore : NullSafe middle more node) :
    NullSafe start (count + more) node := by
  induction hmore with
  | start => exact h
  | link _ hlink ih => exact .link ih hlink

end Node.NullSafe

section Evaluation

variable {ctx : Context} {s s' : Store} {target node start : Node} {count : Nat}

/-- A null-safe link behind none is none, whatever is done with the other parts of it. -/
theorem Machine.rule_of_nothing {m : Machine} (hlink : node.shape.IsNullSafeLink target)
    (h : m.eval target ctx s = .ok .nothing s') : m.rule node ctx s = .ok .nothing s' := by
  have hrest (rest : Value → Eval Value) : m.link target true ctx rest s = .ok .nothing s' := by
    change EStateM.bind (m.eval target ctx) _ s = _
    rw [EStateM.bind, h]
    rfl
  obtain ⟨shape, span⟩ := node
  cases hlink with
  | index | property | staticProperty | call => exact hrest _

/-- A way to evaluate nodes that follows the rules on the null-safe links between `start` and `node`. What it
does with other nodes is left open. -/
def FollowsLinks (limit : Nat) (start node : Node) (ctx : Context) (eval : Nat → Node → Context → Eval Value) :
    Prop :=
  ∀ fuel count more link, start.NullSafe (count + 1) link → link.NullSafe more node →
    eval (fuel + 1) link ctx = Machine.rule ⟨limit, fuel, eval fuel⟩ link ctx

/-- None in front of null-safe links is none behind them. -/
theorem Node.NullSafe.eval_nothing (h : start.NullSafe count node) {limit : Nat}
    {eval : Nat → Node → Context → Eval Value} (heval : FollowsLinks limit start node ctx eval) {fuel : Nat}
    (hstart : eval fuel start ctx s = .ok .nothing s') :
    eval (fuel + count) node ctx s = .ok .nothing s' := by
  -- All that is evaluated is the nodes on the way to `node`.
  suffices hway : ∀ {count more link}, start.NullSafe count link → link.NullSafe more node →
      eval (fuel + count) link ctx s = .ok .nothing s' from hway h .start
  intro count more link hlink hmore
  induction hlink generalizing more with
  | start => exact hstart
  | link hbehind hisLink ih =>
    rw [← Nat.add_assoc, heval (fuel + _) _ more _ (.link hbehind hisLink) hmore]
    exact Machine.rule_of_nothing hisLink (ih ((NullSafe.one hisLink).trans hmore))

end Evaluation

namespace Parser

open Likeness (Like)

variable {g g' : Grammar} {r : Surroundings} {s t : ParseState} {start node : Node} {x : Node × Bool}

section Flag

theorem call_nullSafe (h : call g true start r s = .ok (node, t)) : start.NullSafe 1 node := by
  obtain ⟨args, u, -, h⟩ := bind_eq_ok.mp h
  cases h
  exact .one (.call args)

theorem index_nullSafe (h : index g true start r s = .ok (node, t)) : start.NullSafe 1 node := by
  obtain ⟨opening, u, -, h⟩ := bind_eq_ok.mp h
  obtain ⟨index, v, -, h⟩ := bind_eq_ok.mp h
  obtain ⟨close, w, -, h⟩ := bind_eq_ok.mp h
  have hdone {w : ParseState} (h : (pure ⟨.index start index true, start.span.cover close.span⟩ : Parser Node) r w =
      .ok (node, t)) : start.NullSafe 1 node := by
    cases h
    exact .one (.index index)
  cases index with
  | push =>
    obtain ⟨assigned, w, -, h⟩ := bind_eq_ok.mp h
    cases assigned with
    | false => cases h
    | true => exact hdone h
  | _ => exact hdone h

/-- All calls and indices of a null-safe chain are null-safe. -/
theorem links_nullSafe (h : links g true start r s = .ok (node, t)) : ∃ count, start.NullSafe count node := by
  have hturn (r : Surroundings) (node : Node) : Form.Yields ⟨none, 0⟩ r (fun _ => ∃ count, start.NullSafe count node)
      (do
        if ← atSymbol .leftParen then return .next (← call g true node)
        else if ← atSymbol .leftBracket then return .next (← index g true node)
        else return .done node)
      (Form.turnOf (fun node _ => ∃ count, start.NullSafe count node)
        fun node _ => ∃ count, start.NullSafe count node) := by
    refine fun s ⟨count, hnode⟩ => ⟨fun turn t hturn => ?_, fun _ _ => nofun⟩
    obtain ⟨parens, u, -, hturn⟩ := bind_eq_ok.mp hturn
    cases parens with
    | true =>
      obtain ⟨next, v, hnext, hturn⟩ := bind_eq_ok.mp hturn
      cases hturn
      exact ⟨_, hnode.trans (call_nullSafe hnext)⟩
    | false =>
      obtain ⟨brackets, u, -, hturn⟩ := bind_eq_ok.mp hturn
      cases brackets with
      | true =>
        obtain ⟨next, v, hnext, hturn⟩ := bind_eq_ok.mp hturn
        cases hturn
        exact ⟨_, hnode.trans (index_nullSafe hnext)⟩
      | false =>
        cases hturn
        exact ⟨count, hnode⟩
  exact (Form.Yields.loop (hturn r) start s ⟨0, .start⟩).1 node t h

theorem nextLink_eq_done (h : memberSign s.kind = none) (x : Node × Bool) : nextLink g x r s = .ok (.done x.1, s) := by
  obtain ⟨node, optional⟩ := x
  have hkind : kind r s = .ok (s.kind, s) := rfl
  rw [nextLink, bind_apply, hkind]
  dsimp only
  rw [h]
  rfl

/-- A link is null-safe if its sign is, or if one before it was. -/
theorem nextLink_nullSafe {isStatic isOptional optional : Bool} {turn : Turn (Node × Bool) Node}
    (h : nextLink g (start, optional) r s = .ok (turn, t))
    (hsign : memberSign s.kind = some (isStatic, isOptional)) (hsafe : (optional || isOptional) = true) :
    ∃ node count, turn = .next (node, true) ∧ start.NullSafe (count + 1) node := by
  obtain ⟨k, s, hk, h⟩ := bind_eq_ok.mp h
  cases hk
  rw [hsign] at h
  have hlinks {next : Node} {u : ParseState} (hnext : start.NullSafe 1 next)
      (h : (links g true next >>= fun node => pure (.next (node, true)) :
        Parser (Turn (Node × Bool) Node)) r u = .ok (turn, t)) :
      ∃ node count, turn = .next (node, true) ∧ start.NullSafe (count + 1) node := by
    obtain ⟨node, v, hnode, h⟩ := bind_eq_ok.mp h
    cases h
    obtain ⟨count, hnode⟩ := links_nullSafe hnode
    exact ⟨node, count, rfl, Nat.add_comm 1 count ▸ hnext.trans hnode⟩
  obtain ⟨_, s, -, h⟩ := bind_eq_ok.mp h
  dsimp only at h
  rw [hsafe] at h
  obtain ⟨parens, s, -, h⟩ := bind_eq_ok.mp h
  split at h
  · obtain ⟨next, s, hnext, h⟩ := bind_eq_ok.mp h
    exact hlinks (call_nullSafe hnext) h
  obtain ⟨brackets, s, -, h⟩ := bind_eq_ok.mp h
  split at h
  · obtain ⟨next, s, hnext, h⟩ := bind_eq_ok.mp h
    exact hlinks (index_nullSafe hnext) h
  obtain ⟨name, s, -, h⟩ := bind_eq_ok.mp h
  refine hlinks (.one ?_) h
  cases isStatic with
  | true => exact .staticProperty name.1
  | false => exact .property name.1

/-- From a null-safe link on, all links are null-safe. -/
theorem nextLinks_nullSafe {turns : Nat} (h : iterate (nextLink g) turns (start, true) r s = .ok (node, t)) :
    ∃ count, start.NullSafe count node := by
  induction turns generalizing start s with
  | zero => cases h
  | succ turns ih =>
    obtain ⟨turn, u, hturn, h⟩ := bind_eq_ok.mp h
    cases hsign : memberSign s.kind with
    | none =>
      rw [nextLink_eq_done hsign] at hturn
      cases hturn
      cases h
      exact ⟨0, .start⟩
    | some sign =>
      obtain ⟨next, count, rfl, hnext⟩ := nextLink_nullSafe hturn hsign rfl
      obtain ⟨more, hmore⟩ := ih h
      exact ⟨_, hnext.trans hmore⟩

/-- A null-safe sign begins with a null-safe link. -/
theorem nextLinks_of_nullSafe {turns : Nat} {isStatic optional : Bool}
    (h : iterate (nextLink g) turns (start, optional) r s = .ok (node, t))
    (hsign : memberSign s.kind = some (isStatic, true)) : ∃ count, start.NullSafe (count + 1) node := by
  cases turns with
  | zero => cases h
  | succ turns =>
    obtain ⟨turn, u, hturn, h⟩ := bind_eq_ok.mp h
    obtain ⟨next, count, rfl, hnext⟩ := nextLink_nullSafe hturn hsign (Bool.or_true optional)
    obtain ⟨more, hmore⟩ := nextLinks_nullSafe h
    exact ⟨count + more, Nat.add_right_comm count 1 more ▸ hnext.trans hmore⟩

end Flag

section Split

variable {F : Seam} {n depth depth' : Nat} {r' : Surroundings} {s' t' : ParseState} {x' : Node × Bool}
  {node' : Node} {k : TokenKind Token}

section

variable (hg : g.Paired .all F n g') (hends : F.EndsLinks true) (hleft : ∃ e, F.left = [e] ∧ e.kind = .endOfInput)
  (hr : F.Around r r') (ht : t.tokens = F.left) (ht' : t'.tokens.length < F.right.length)

include hg hends hleft hr ht ht'

/-- Links that end at the seam on the left, and go on behind it on the right. The links behind the seam are
links behind a node like the one on the left. -/
theorem nextLinks_split {turns turns' : Nat} (hs : F.Reads .all s s') (hn : Token.weights s.tokens ≤ n)
    (hturns : Token.weights s.tokens < r.turns) (hx : Like F.scale x x')
    (h : iterate (nextLink g) turns x r s = .ok (node, t))
    (h' : iterate (nextLink g') turns' x' r' s' = .ok (node', t')) :
    ∃ turns' start optional u', Like F.scale node start ∧ u'.tokens = F.right ∧
      iterate (nextLink g') turns' (start, optional) r' u' = .ok (node', t') := by
  obtain ⟨e, hleft, he⟩ := hleft
  have hfixed := Seam.fixed_of_seam (.inl (hleft ▸ List.cons_ne_nil _ _))
  induction turns generalizing x x' s s' turns' with
  | zero => cases h
  | succ turns ih =>
    obtain ⟨turn, u, hturn, h⟩ := bind_eq_ok.mp h
    rcases hs.at_seam_or_inside with ⟨hseam, hseam'⟩ | ⟨xs, xs', hfirst, -⟩
    · have hkind : memberSign s.kind = none := by
        rw [ParseState.kind_eq (hseam.trans hleft), he]
        rfl
      rw [nextLink_eq_done hkind] at hturn
      cases hturn
      cases h
      obtain ⟨hnode, rfl⟩ := hx
      exact ⟨turns', _, _, s', hnode, hseam', h'⟩
    cases turns' with
    | zero => cases h'
    | succ turns' =>
      obtain ⟨turn', u', hturn', h'⟩ := bind_eq_ok.mp h'
      have hlink := nextLink_these hg hends hx (memberSign_eq_of_alike hfirst.kind)
      have hsuffix := (hlink.left hfixed r s turn u hs.left ⟨_, rfl, rfl⟩ hturn).1
      have hout := hlink.related r r' s s' hr hs hn hturns ⟨rfl, rfl⟩
      rw [hturn, hturn'] at hout
      obtain ⟨hlike, hu⟩ := hout.same_of_oks (.inl (by rw [hleft]; exact Nat.succ_lt_succ (Nat.succ_pos _)))
      cases hlike with
      | next hstate =>
        have hle := Token.weights_le_of_suffix hsuffix
        exact ih hu (Nat.le_trans hle hn) (Nat.lt_of_le_of_lt hle hturns) hstate h h'
      | done =>
        cases h
        cases h'
        rw [hu.eq_right ht] at ht'
        exact absurd ht' (Nat.lt_irrefl _)

/-- A chain that ends at the seam on the left, and goes on behind it on the right. -/
theorem chain_split (hs : F.Reads .all s s') (hn : Token.weights s.tokens ≤ n + 1)
    (hturns : Token.weights s.tokens < r.turns) (hprimary : IsPrimary s.kind) (hprimary' : IsPrimary s'.kind)
    (h : chain g r s = .ok (node, t)) (h' : chain g' r' s' = .ok (node', t')) :
    ∃ turns' start optional u', Like F.scale node start ∧ u'.tokens = F.right ∧
      iterate (nextLink g') turns' (start, optional) r' u' = .ok (node', t') := by
  have hhead := chainHead_primary hg hends
  obtain ⟨head, u, hrun, h⟩ := bind_eq_ok.mp h
  obtain ⟨head', u', hrun', h'⟩ := bind_eq_ok.mp h'
  have hout := hhead.related r r' s s' hr hs hn hturns ⟨hprimary, hprimary'⟩
  rw [hrun, hrun'] at hout
  obtain ⟨e, hleft, he⟩ := hleft
  obtain ⟨hlike, hu⟩ := hout.same_of_oks (.inl (by rw [hleft]; exact Nat.succ_lt_succ (Nat.succ_pos _)))
  have hfixed := Seam.fixed_of_seam (.inl (hleft ▸ List.cons_ne_nil _ _))
  obtain ⟨hsuffix, hmoved⟩ := hhead.left hfixed r s head u hs.left ⟨_, hprimary, hprimary'⟩ hrun
  have hlt := Token.weights_lt_of_suffix hsuffix (hmoved trivial)
  exact nextLinks_split hg hends ⟨e, hleft, he⟩ hr ht ht' hu (by omega) (by omega) (.mk hlike rfl) h h'

end

theorem exists_symbol_of_memberSign {x : Bool × Bool} (h : memberSign k = some x) :
    ∃ sign, k = .symbol sign ∧ sign ≠ .leftParen ∧ sign ≠ .leftBracket := by
  unfold memberSign at h
  split at h <;> first | exact ⟨_, rfl, nofun, nofun⟩ | cases h

/-- Behind a chain that is read alone, links that begin with a null-safe one are links behind its node. -/
theorem ReadsAs.nullSafe {flag isStatic : Bool} {id : Nat} {first e sign : Token} {others more rest : List Token}
    (hfirst : IsPrimary first.kind) (hsign : memberSign sign.kind = some (isStatic, true))
    (h : ReadsAs chain flag id (first :: others) [e] node)
    (h' : ReadsAs chain flag id (first :: others ++ sign :: more) rest node') :
    ∃ count, node.NullSafe (count + 1) node' := by
  have he := h.kind_end chain_stable
  obtain ⟨symbol, hsymbol, hparen, hbracket⟩ := exists_symbol_of_memberSign hsign
  let F : Seam := .between .exact (.inr rfl) e sign [] (more ++ rest) (he ▸ ⟨rfl, rfl⟩) (hsymbol ▸ ⟨rfl, rfl⟩)
  have hends : F.EndsLinks true := by
    refine ⟨Seam.between_clear ?_, Seam.between_clear ?_⟩
    · rw [he, hsymbol]
      exact (decide_eq_false hparen).symm
    · rw [he, hsymbol]
      exact (decide_eq_false hbracket).symm
  have htokens := h.tokens chain_stable
  have htokens' := (h'.tokens chain_stable).trans (List.append_assoc ..)
  have hs : F.Reads .all ⟨.ofTokens (first :: others ++ [e]), id⟩
      ⟨.ofTokens (first :: others ++ sign :: more ++ rest), id⟩ := by
    refine ⟨Corpus.all_holds_ofTokens _ id, Corpus.all_holds_ofTokens _ id,
      ⟨_, _, Token.alike_refl (.inr rfl) _, htokens, htokens'⟩, fun _ => ?_, rfl⟩
    rw [ofTokens_previous, ofTokens_previous, (List.cons.inj htokens).1, (List.cons.inj htokens').1]
    exact .refl (.inr rfl) _
  obtain ⟨t, hrun, ht⟩ := h.run chain_stable (Nat.le_succ _)
    (r := ⟨Token.weights (first :: others ++ [e]) + 1, 0, flag⟩) (Nat.lt_succ_self _) rfl rfl
  obtain ⟨depth', r', t', hflag', hrun', ht'⟩ := h'
  have hweights := congrArg Token.weights htokens
  have hlength : t'.tokens.length < F.right.length := by
    rw [ht', show F.right = sign :: (more ++ rest) from rfl, List.length_cons, List.length_append]
    omega
  obtain ⟨turns, start, optional, u', hlike, hu', hlinks⟩ := chain_split (F := F)
    (Grammar.upTo_paired (Nat.le_refl _) depth' nofun) hends ⟨e, rfl, he⟩ ⟨Nat.zero_le _, hflag'.symm, nofun⟩ ht
    hlength hs (hweights ▸ Nat.le_succ _) (Nat.lt_succ_of_le (Nat.le_of_eq hweights))
    ((ParseState.kind_eq htokens).symm ▸ hfirst) ((ParseState.kind_eq htokens').symm ▸ hfirst) hrun hrun'
  obtain rfl := Node.like_eq hlike
  exact nextLinks_of_nullSafe hlinks (ParseState.kind_eq hu' ▸ hsign)

def IsNullSafeSign (k : TokenKind Token) : Prop := k = .symbol .questionDot ∨ k = .symbol .questionColonColon

theorem exists_memberSign (h : IsNullSafeSign k) : ∃ isStatic, memberSign k = some (isStatic, true) := by
  rcases h with rfl | rfl <;> exact ⟨_, rfl⟩

end Split

/-- Where the value of a chain is none, so is the value of the chain with links behind it, the first of them
null-safe, and the store is the one behind the former value. This holds no matter what is done with nodes other
than the links: neither an index nor an argument is evaluated. -/
theorem nullSafe_links_cancel {flag : Bool} {id : Nat} {first e sign : Token} {others more rest : List Token}
    {start node : Node} (hfirst : IsPrimary first.kind) (hsign : IsNullSafeSign sign.kind)
    (hstart : ReadsAs chain flag id (first :: others) [e] start)
    (hnode : ReadsAs chain flag id (first :: others ++ sign :: more) rest node) :
    ∃ links, start.NullSafe (links + 1) node ∧
      (∀ limit fuel ctx s s', evaluate limit fuel start ctx s = .ok .nothing s' →
        evaluate limit (fuel + (links + 1)) node ctx s = .ok .nothing s') ∧
      ∀ limit ctx eval, FollowsLinks limit start node ctx eval → ∀ fuel s s',
        eval fuel start ctx s = .ok .nothing s' → eval (fuel + (links + 1)) node ctx s = .ok .nothing s' := by
  obtain ⟨isStatic, hmember⟩ := exists_memberSign hsign
  obtain ⟨links, hsafe⟩ := hstart.nullSafe hfirst hmember hnode
  refine ⟨links, hsafe, fun limit fuel ctx s s' h => ?_, fun limit ctx eval heval fuel s s' h => ?_⟩
  · have hfollows : FollowsLinks limit start node ctx (evaluate limit) := fun _ _ _ _ _ _ => rfl
    exact hsafe.eval_nothing hfollows h
  · exact hsafe.eval_nothing heval h

/-- `(none)?.b(x)[y]` is none in every store, whether or not there are `x` and `y`. -/
theorem nullSafe_links_cancel_call_of_none :
    ∃ node, ReadsAs chain false 0 [⟨.symbol .leftParen, default⟩, ⟨.keyword .noneWord, default⟩,
        ⟨.symbol .rightParen, default⟩, ⟨.symbol .questionDot, default⟩, ⟨.identifier "b", default⟩,
        ⟨.symbol .leftParen, default⟩, ⟨.identifier "x", default⟩, ⟨.symbol .rightParen, default⟩,
        ⟨.symbol .leftBracket, default⟩, ⟨.identifier "y", default⟩, ⟨.symbol .rightBracket, default⟩]
        [⟨.endOfInput, default⟩] node ∧
      ∃ links, ∀ limit ctx s, evaluate limit (1 + (links + 1)) node ctx s = .ok .nothing s := by
  have hstart : ReadsAs chain false 0 [⟨.symbol .leftParen, default⟩, ⟨.keyword .noneWord, default⟩,
      ⟨.symbol .rightParen, default⟩] [⟨.endOfInput, default⟩] ⟨.nothing, default⟩ :=
    ⟨3, ⟨10, 0, false⟩, _, rfl, rfl, rfl⟩
  refine Exists.imp (fun node hnode => ⟨hnode, ?_⟩) ⟨_, 3, ⟨10, 0, false⟩, _, rfl, rfl, rfl⟩
  obtain ⟨links, -, hcancel, -⟩ := nullSafe_links_cancel (.inr rfl) (.inl rfl) hstart hnode
  exact ⟨links, fun limit ctx s => hcancel limit 1 ctx s s rfl⟩

end Parser

end ScriptLang
