import ScriptLang.Proofs.Assignment.Words
import ScriptLang.Proofs.Precedence.Parsed

/-! Chains in front of operators. Main statements: what is read where a chain stands in front of an operator, a sign
that assigns, or a run of `++` and `--`. -/
namespace ScriptLang

/-- The operator that a sign that assigns stands for. -/
def TokenKind.compound? : TokenKind Token → Option BinaryOp
  | .symbol .plusEqual => some .add
  | .symbol .minusEqual => some .subtract
  | .symbol .starEqual => some .multiply
  | .symbol .slashEqual => some .divide
  | .symbol .percentEqual => some .modulo
  | .symbol .starStarEqual | .symbol .caretEqual => some .power
  | .symbol .caretCaretEqual => some .bitXor
  | .symbol .shiftLeftEqual => some .shiftLeft
  | .symbol .shiftRightEqual => some .shiftRight
  | .symbol .shiftRightZeroEqual => some .shiftRightZero
  | .symbol .ampersandEqual => some .bitAnd
  | .symbol .pipeEqual => some .bitOr
  | .symbol .ampersandAmpersandEqual => some .and
  | .symbol .pipePipeEqual => some .or
  | .symbol .questionQuestionEqual => some .nullish
  | _ => none

abbrev Surroundings.deeper (r : Surroundings) : Surroundings := { r with depth := r.depth + 1 }

namespace Parser

open OperatorTree (levelOp tabulates_levelOp)

variable {g : Grammar} {r : Surroundings} {s t u w : ParseState} {node left right x : Node} {op : BinaryOp}

section Level

variable {operand : Parser Node} {op? : TokenKind Token → Option LevelOp}

theorem iterate_stop (turns : Nat) (hop : op? t.kind = none) :
    iterate (nextOperand g operand op?) (turns + 1) node r t = .ok (node, t) := by
  refine bind_eq_ok.mpr ⟨.done node, t, bind_eq_ok.mpr ⟨t.kind, t, rfl, ?_⟩, rfl⟩
  simp only [hop]
  rfl

variable (h : operand r s = .ok (node, t))

include h

theorem level_stop (hturns : 0 < r.turns) (hop : op? t.kind = none) : level g operand op? r s = .ok (node, t) := by
  refine bind_eq_ok.mpr ⟨node, t, h, ?_⟩
  change iterate _ r.turns node r t = _
  obtain ⟨turns, hturns⟩ := Nat.exists_eq_succ_of_ne_zero (Nat.ne_of_gt hturns)
  rw [hturns]
  exact iterate_stop turns hop

theorem level_binary (hop : op? t.kind = some (.binary op)) (hrun : level g operand op? r s = .ok (x, w)) :
    ∃ right u, operand r ⟨t.stream.advance, t.nextId⟩ = .ok (right, u) ∧
      (op? u.kind = none → x = .binary op node right ∧ w = u) := by
  obtain ⟨_, _, h', hloop⟩ := bind_eq_ok.mp hrun
  cases h.symm.trans h'
  change iterate _ r.turns node r t = _ at hloop
  cases hturns : r.turns with
  | zero =>
    rw [hturns] at hloop
    cases hloop
  | succ turns =>
    rw [hturns] at hloop
    obtain ⟨turn, u, hturn, hrest⟩ := bind_eq_ok.mp hloop
    obtain ⟨_, _, ⟨⟩, hturn⟩ := bind_eq_ok.mp hturn
    simp only [hop] at hturn
    obtain ⟨_, _, ⟨⟩, hturn⟩ := bind_eq_ok.mp hturn
    obtain ⟨right, _, hright, ⟨⟩⟩ := bind_eq_ok.mp hturn
    refine ⟨right, u, hright, fun hstop => ?_⟩
    cases turns with
    | zero => cases hrest
    | succ turns =>
      cases (iterate_stop turns hstop).symm.trans hrest
      exact ⟨rfl, rfl⟩

theorem level_compound (hturns : 0 < r.turns) (hop : op? t.kind = some (.compound op)) :
    level g operand op? r s = compound g op node r t := by
  have hturn : nextOperand g operand op? node r t = (compound g op node >>= fun x => pure (.done x)) r t := by
    rw [nextOperand, bind_apply]
    change (match op? t.kind with | _ => _ : Parser _) r t = _
    rw [hop]
  obtain ⟨turns, hturns⟩ := Nat.exists_eq_succ_of_ne_zero (Nat.ne_of_gt hturns)
  rw [level, bind_apply, h]
  change iterate _ r.turns node r t = _
  rw [hturns, iterate, bind_apply, hturn, bind_apply]
  cases compound g op node r t <;> rfl

theorem level_increments {delta : Int} {span : Span} (hturns : 1 < r.turns) (hop : op? t.kind = some .increments)
    (hsigns : increments r t = .ok ((delta, span), u)) (hrun : increment node delta span r u = .ok (x, w))
    (hstop : op? w.kind = none) : level g operand op? r s = .ok (x, w) := by
  refine bind_eq_ok.mpr ⟨node, t, h, ?_⟩
  change iterate _ r.turns node r t = _
  obtain ⟨turns, hturns⟩ : ∃ turns, r.turns = turns + 2 := ⟨r.turns - 2, by omega⟩
  rw [hturns]
  refine bind_eq_ok.mpr ⟨.next x, w, bind_eq_ok.mpr ⟨t.kind, t, rfl, ?_⟩, iterate_stop turns hstop⟩
  simp only [hop]
  exact bind_eq_ok.mpr ⟨_, u, hsigns, bind_eq_ok.mpr ⟨x, w, hrun, rfl⟩⟩

end Level

/-- The number of `++` in a run less that of `--`. -/
def steps (run : List Token) : Int :=
  run.countP (·.kind.isSymbol .plusPlus) - run.countP (·.kind.isSymbol .minusMinus)

section Increments

variable {run : List Token} {next : Token}

variable (hsigns : ∀ sign ∈ run, IsIncrement sign.kind) (hnext : ¬IsIncrement next.kind)

include hsigns hnext

private theorem iterate_increments (rest : List Token) (delta : Int) (previous : Span) (id : Nat)
    {turns : Nat} (hturns : run.length < turns) :
    ∃ before, iterate nextIncrement turns delta r (.facing previous id (run ++ next :: rest)) =
      .ok (delta + steps run, .facing before id (next :: rest)) := by
  obtain ⟨turns, rfl⟩ := Nat.exists_eq_succ_of_ne_zero (Nat.ne_of_gt (Nat.zero_lt_of_lt hturns))
  induction run generalizing delta previous turns with
  | nil =>
    have hdone : nextIncrement delta r (.facing previous id (next :: rest)) =
        .ok (.done delta, .facing previous id (next :: rest)) := by
      refine bind_eq_ok.mpr ⟨next.kind, _, rfl, ?_⟩
      generalize next.kind = k at hnext ⊢
      split
      · exact absurd (.inl rfl) hnext
      · exact absurd (.inr rfl) hnext
      · rfl
    exact ⟨previous, bind_eq_ok.mpr ⟨_, _, hdone, congrArg (fun d => Except.ok (d, _)) (Int.add_zero delta).symm⟩⟩
  | cons sign run ih =>
    obtain ⟨first, others, hbehind⟩ : ∃ first others, run ++ next :: rest = first :: others := by
      cases run <;> exact ⟨_, _, rfl⟩
    have hstep : ∃ d, nextIncrement delta r (.facing previous id (sign :: (run ++ next :: rest))) =
        .ok (.next (delta + d), .facing sign.span id (run ++ next :: rest)) ∧
        steps (sign :: run) = d + steps run := by
      obtain ⟨kind, span⟩ := sign
      rw [hbehind]
      rcases hsigns _ (List.mem_cons_self ..) with rfl | rfl
      · refine ⟨1, rfl, ?_⟩
        simp only [steps, List.countP_cons, TokenKind.isSymbol]
        simp
        omega
      · refine ⟨-1, rfl, ?_⟩
        simp only [steps, List.countP_cons, TokenKind.isSymbol]
        simp
        omega
    obtain ⟨d, hstep, hsteps⟩ := hstep
    obtain ⟨turns, rfl⟩ : ∃ n, turns = n + 1 := ⟨turns - 1, by rw [List.length_cons] at hturns; omega⟩
    obtain ⟨before, hrest⟩ := ih (fun t ht => hsigns t (List.mem_cons_of_mem _ ht)) (delta + d) sign.span turns
      (Nat.lt_of_succ_lt_succ hturns)
    rw [hsteps, ← Int.add_assoc]
    exact ⟨before, bind_eq_ok.mpr ⟨_, _, hstep, hrest⟩⟩

theorem increments_run {rest : List Token} (hs : s.Before (run ++ next :: rest)) (hturns : run.length < r.turns) :
    ∃ span t, increments r s = .ok ((steps run, span), t) ∧ t.Before (next :: rest) := by
  obtain ⟨before, hrun⟩ := iterate_increments (r := r) hsigns hnext rest 0 s.stream.previous s.nextId hturns
  rw [Int.zero_add, ← hs.facing] at hrun
  exact ⟨_, _, bind_eq_ok.mpr ⟨_, _, rfl, bind_eq_ok.mpr ⟨_, _, hrun, rfl⟩⟩, rfl, hs.holds.suffix ⟨run, hs.tokens.symm⟩⟩

end Increments

section Climb

/-- The operands of the levels, from the loosest level to powers. -/
def atLevel (g : Grammar) : Nat → Parser Node
  | 0 => condition g
  | 1 => comparison g
  | 2 => bitwise g
  | 3 => sum g
  | 4 => term g
  | _ => power g

def Starts (k : TokenKind Token) : Prop := IsPrimary k ∨ IsIncrement k

/-- Tokens that an operand of a level ends in front of. -/
structure Stops (i : Nat) (k : TokenKind Token) : Prop where
  power : k.operator? ≠ some .power
  level (l : Nat) (hl : i ≤ l) (h : l < 5) : levelOp l k = none

theorem Stops.mono {i j : Nat} {k : TokenKind Token} (h : Stops i k) (hij : i ≤ j) : Stops j k :=
  ⟨h.power, fun l hl => h.level l (Nat.le_trans hij hl)⟩

theorem stops_end : Stops 0 .endOfInput := ⟨nofun, fun _ _ hl => (tabulates_levelOp hl).endOfInput⟩

theorem stops_equal : Stops 0 (.symbol .equal) := ⟨nofun, fun l _ hl => by interval_cases l <;> rfl⟩

theorem stops_operator {k : TokenKind Token} (h : k.operator? = some op) (hop : op.level < 5) :
    Stops (op.level + 1) k := by
  refine ⟨fun hpower => ?_, fun l hl h5 => ?_⟩
  · cases h.symm.trans hpower
    exact absurd hop (by decide)
  · rw [(tabulates_levelOp h5).operator h, if_neg (Nat.ne_of_lt hl)]

theorem stops_increment {k : TokenKind Token} (h : IsIncrement k) : Stops 4 k := by
  rcases h with rfl | rfl <;> exact ⟨nofun, fun l hl h5 => by interval_cases l; rfl⟩

variable {i j : Nat}

theorem atLevel_eq (hi : i < 5) (hs : Starts s.kind) :
    atLevel g i r s = level g (atLevel g (i + 1)) (levelOp i) r s := by
  obtain ⟨⟨previous, ⟨k, span⟩, rest⟩, id⟩ := s
  interval_cases i
  case «1» => rcases hs with (⟨name, rfl⟩ | rfl) | rfl | rfl <;> rfl
  all_goals rfl

theorem factor_primary (hs : IsPrimary s.kind) : factor g r s = chain g r s := by
  obtain ⟨⟨previous, ⟨k, span⟩, rest⟩, id⟩ := s
  rcases hs with ⟨name, rfl⟩ | rfl <;> rfl

theorem factor_increment (hs : IsIncrement s.kind) : factor g r s =
    (increments >>= fun run => chain g >>= fun node => increment node run.1 run.2) r s := by
  obtain ⟨⟨previous, ⟨k, span⟩, rest⟩, id⟩ := s
  rcases hs with rfl | rfl <;> rfl

theorem atLevel_stop (hij : i ≤ j) (hj : j ≤ 5) (hs : Starts s.kind) (hturns : 0 < r.turns)
    (hrun : atLevel g j r s = .ok (node, t)) (hstop : ∀ l, i ≤ l → l < j → levelOp l t.kind = none) :
    atLevel g i r s = .ok (node, t) := by
  induction j, hij using Nat.le_induction with
  | base => exact hrun
  | succ j hij ih =>
    refine ih (Nat.le_of_succ_le hj) ?_ fun l hl hlt => hstop l hl (Nat.lt_succ_of_lt hlt)
    rw [atLevel_eq hj hs]
    exact level_stop hrun hturns (hstop j hij (Nat.lt_succ_self j))

theorem atLevel_inner (hij : i ≤ j) (hj : j ≤ 5) (hs : Starts s.kind) (hrun : atLevel g i r s = .ok (x, w)) :
    ∃ node t, atLevel g j r s = .ok (node, t) := by
  induction j, hij using Nat.le_induction with
  | base => exact ⟨x, w, hrun⟩
  | succ j hij ih =>
    obtain ⟨node, t, hj'⟩ := ih (Nat.le_of_succ_le hj)
    rw [atLevel_eq hj hs] at hj'
    obtain ⟨node, t, hrun, -⟩ := bind_eq_ok.mp hj'
    exact ⟨node, t, hrun⟩

theorem atLevel_factor (hi : i ≤ 5) (hs : Starts s.kind) (hturns : 0 < r.turns)
    (hrun : factor g r s = .ok (node, t)) (hstop : Stops i t.kind) : atLevel g i r s = .ok (node, t) := by
  refine atLevel_stop hi (Nat.le_refl 5) hs hturns ?_ hstop.level
  refine bind_eq_ok.mpr ⟨node, t, hrun, bind_eq_ok.mpr ⟨t.kind, t, rfl, ?_⟩⟩
  have hpower := hstop.power
  generalize t.kind = k at hpower ⊢
  split
  · exact absurd rfl hpower
  · exact absurd rfl hpower
  · rfl

theorem atLevel_chain (hi : i ≤ 5) (hs : IsPrimary s.kind) (hturns : 0 < r.turns)
    (hrun : chain g r s = .ok (node, t)) (hstop : Stops i t.kind) : atLevel g i r s = .ok (node, t) :=
  atLevel_factor hi (.inl hs) hturns ((factor_primary hs).trans hrun) hstop

theorem chain_of_atLevel (hi : i ≤ 5) (hs : IsPrimary s.kind) (hrun : atLevel g i r s = .ok (x, w)) :
    ∃ node t, chain g r s = .ok (node, t) := by
  obtain ⟨_, _, hpower⟩ := atLevel_inner hi (Nat.le_refl 5) (.inl hs) hrun
  obtain ⟨node, t, hrun, -⟩ := bind_eq_ok.mp hpower
  exact ⟨node, t, (factor_primary hs).symm.trans hrun⟩

/-- An operator behind a chain has another operand behind it. -/
theorem operand_of_operator {depth : Nat} (hs : IsPrimary s.kind) (hturns : 0 < r.turns)
    (hchain : chain (.upTo depth) r s = .ok (left, t)) (hop : t.kind.operator? = some op)
    (hnext : IsPrimary t.stream.advance.current.kind) (hrun : condition (.upTo depth) r s = .ok (x, w)) :
    ∃ depth' r' right u, r.depth ≤ r'.depth ∧ r'.inConstructor = r.inConstructor ∧ 0 < r'.turns ∧
      chain (.upTo depth') r' ⟨t.stream.advance, t.nextId⟩ = .ok (right, u) ∧
      (u.kind = .endOfInput → x = .binary op left right ∧ w = u) := by
  have hclimb {i : Nat} (hi : i ≤ 5) {node : Node} {u : ParseState} (hu : u.kind = .endOfInput)
      (hinner : atLevel (.upTo depth) i r s = .ok (node, u)) : x = node ∧ w = u := by
    have houter := atLevel_stop (Nat.zero_le i) hi (.inl hs) hturns hinner
      fun l hl hli => hu ▸ stops_end.level l hl (Nat.lt_of_lt_of_le hli hi)
    cases houter.symm.trans hrun
    exact ⟨rfl, rfl⟩
  by_cases hlevel : op.level < 5
  · have hinner := atLevel_chain hlevel hs hturns hchain (stops_operator hop hlevel)
    obtain ⟨y, v, hlevelled⟩ := atLevel_inner (Nat.zero_le op.level) (Nat.le_of_lt hlevel) (.inl hs) hrun
    obtain ⟨_, _, hoperand, hend⟩ := level_binary hinner (by rw [(tabulates_levelOp hlevel).operator hop, if_pos rfl])
      (atLevel_eq hlevel (.inl hs) ▸ hlevelled)
    obtain ⟨right, u, hright⟩ := chain_of_atLevel hlevel hnext hoperand
    refine ⟨_, r, right, u, Nat.le_refl _, rfl, hturns, hright, fun hu => ?_⟩
    have hoperand' := atLevel_chain hlevel hnext hturns hright (hu ▸ stops_end.mono (Nat.zero_le _))
    cases hoperand'.symm.trans hoperand
    obtain ⟨rfl, rfl⟩ := hend (hu ▸ stops_end.level _ (Nat.zero_le _) hlevel)
    exact hclimb (Nat.le_of_lt hlevel) hu hlevelled
  · obtain rfl := BinaryOp.eq_power_of_level (Nat.le_of_not_lt hlevel)
    obtain ⟨y, v, hlevelled⟩ := atLevel_inner (Nat.zero_le 5) (Nat.le_refl 5) (.inl hs) hrun
    obtain ⟨_, _, hbase, hpower⟩ := bind_eq_ok.mp hlevelled
    cases (factor_primary hs ▸ hbase).symm.trans hchain
    obtain ⟨_, _, ⟨⟩, hpower⟩ := bind_eq_ok.mp hpower
    have hsign : (discard advance >>= fun _ => nested (Grammar.upTo depth).power >>= fun right =>
        pure (.binary .power left right) : Parser Node) r t = .ok (y, v) := by
      rcases TokenKind.eq_of_operator?_power hop with hk | hk <;> simp only [hk] at hpower <;> exact hpower
    obtain ⟨_, _, ⟨⟩, hsign⟩ := bind_eq_ok.mp hsign
    obtain ⟨_, _, hnested, ⟨⟩⟩ := bind_eq_ok.mp hsign
    rw [nested_apply] at hnested
    split at hnested
    next =>
      cases depth with
      | zero => cases hnested
      | succ depth =>
        obtain ⟨right, u, hright⟩ := chain_of_atLevel (g := .upTo depth) (Nat.le_refl 5) hnext hnested
        refine ⟨depth, r.deeper, right, u, Nat.le_succ _, rfl, hturns, hright, fun hu => ?_⟩
        have hoperand := atLevel_chain (r := r.deeper) (Nat.le_refl 5) hnext hturns hright
          (hu ▸ stops_end.mono (Nat.zero_le _))
        cases hoperand.symm.trans hnested
        exact hclimb (Nat.le_refl 5) hu hlevelled
    next => cases hnested

theorem levelOp_compound {k : TokenKind Token} (h : k.compound? = some op) {l : Nat} (hl : l < 5) :
    levelOp l k = if min op.level 4 = l then some (.compound op) else none := by
  unfold TokenKind.compound? at h
  interval_cases l <;> split at h <;> cases h <;> rfl

theorem atLevel_compound (hs : IsPrimary s.kind) (hturns : 0 < r.turns) (hchain : chain g r s = .ok (node, t))
    (hop : t.kind.compound? = some op) : atLevel g (min op.level 4) r s = compound g op node r t := by
  have hlevel : min op.level 4 < 5 := by omega
  have hstops : Stops (min op.level 4 + 1) t.kind := by
    refine ⟨fun hpower => ?_, fun l hl h5 => by rw [levelOp_compound hop h5, if_neg (Nat.ne_of_lt hl)]⟩
    rcases TokenKind.eq_of_operator?_power hpower with hk | hk <;> rw [hk] at hop <;> cases hop
  rw [atLevel_eq hlevel (.inl hs)]
  exact level_compound (atLevel_chain hlevel hs hturns hchain hstops) hturns
    (by rw [levelOp_compound hop hlevel, if_pos rfl])

end Climb

end Parser

end ScriptLang
