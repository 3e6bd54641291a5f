import ScriptLang.Proofs.Grammar.Single
import ScriptLang.Proofs.Precedence.Tree
import Mathlib.Tactic.IntervalCases

/-! How operators are grouped. Main statement: a chain of operators is read as the one tree that groups it by
precedence. -/
namespace ScriptLang

variable {k : TokenKind Token}

def TokenKind.EndsLevel (level : Nat) (k : TokenKind Token) : Prop :=
  k = .endOfInput ∨ ∃ op, k.operator? = some op ∧ op.level < level

namespace TokenKind

theorem EndsLevel.mono {low high : Nat} (h : k.EndsLevel low) (hlevel : low ≤ high) : k.EndsLevel high := by
  rcases h with h | ⟨op, hop, hlt⟩
  · exact .inl h
  · exact .inr ⟨op, hop, Nat.lt_of_lt_of_le hlt hlevel⟩

theorem endsChain_of_operator? {op : BinaryOp} (h : k.operator? = some op) : k.EndsChain := by
  unfold operator? at h
  split at h <;> first | exact ⟨rfl, rfl, rfl⟩ | cases h

theorem EndsLevel.endsChain {level : Nat} (h : k.EndsLevel level) : k.EndsChain := by
  rcases h with rfl | ⟨op, hop, -⟩
  · exact ⟨rfl, rfl, rfl⟩
  · exact endsChain_of_operator? hop

theorem eq_of_operator?_power (h : k.operator? = some .power) : k = .symbol .starStar ∨ k = .symbol .caret := by
  unfold operator? at h
  split at h <;> first | exact .inl rfl | exact .inr rfl | cases h

end TokenKind

namespace Parser

variable {α β : Type}

/-- A parser that takes `ts` and gives `a`, wherever the kind of the token behind them satisfies `C`. -/
def Consumes (C : TokenKind Token → Prop) (p : Parser α) (r : Surroundings) (ts : List Token) (a : α) : Prop :=
  ∀ previous id (next : Token) (rest : List Token), C next.kind →
    ∃ before, p r (.facing previous id (ts ++ next :: rest)) = .ok (a, .facing before id (next :: rest))

namespace Consumes

variable {C D : TokenKind Token → Prop} {p : Parser α} {f : α → Parser β} {r : Surroundings}
  {ts us : List Token} {a : α} {b : β}

theorem of_reads (h : Reads C p r [] (· = a)) : Consumes C p r [] a := by
  intro previous id next rest hC
  obtain ⟨_, before, hrun, rfl⟩ := h previous id [] next rest rfl hC
  exact ⟨before, hrun⟩

theorem bind (hp : Consumes C p r ts a) (hf : Consumes D (f a) r us b)
    (hnext : ∀ k, D k → C ((us.head?.map (·.kind)).getD k)) : Consumes D (p >>= f) r (ts ++ us) b := by
  intro previous id next rest hD
  have hsplit : ∃ first others, us ++ next :: rest = first :: others ∧ C first.kind := by
    cases us with
    | nil => exact ⟨next, rest, rfl, hnext _ hD⟩
    | cons first us => exact ⟨first, _, rfl, hnext _ hD⟩
  obtain ⟨first, others, hsplit, hC⟩ := hsplit
  obtain ⟨before, hrun⟩ := hp previous id first others hC
  obtain ⟨before', hrun'⟩ := hf before id next rest hD
  refine ⟨before', ?_⟩
  rw [bind_apply, List.append_assoc, hsplit, hrun, ← hsplit]
  exact hrun'

theorem mono (hp : Consumes C p r ts a) (hC : ∀ k, D k → C k) : Consumes D p r ts a :=
  fun previous id next rest hD => hp previous id next rest (hC _ hD)

theorem finish (hp : Consumes C p r ts a) (hf : Consumes C (f a) r [] b) : Consumes C (p >>= f) r ts b := by
  rw [← List.append_nil ts]
  exact bind hp hf fun _ => id

theorem ahead {f : TokenKind Token → Parser β} {t : Token} (h : Consumes D (f t.kind) r (t :: ts) b) :
    Consumes D (kind >>= f) r (t :: ts) b :=
  h

/-- What is done with the kind of the token behind. -/
theorem behind {f : TokenKind Token → Parser β} (h : ∀ k, D k → Consumes D (f k) r [] b) :
    Consumes D (kind >>= f) r [] b :=
  fun previous id next rest hD => h next.kind hD previous id next rest hD

theorem skip (t : Token) : Consumes C (discard advance) r [t] () :=
  fun _ _ _ _ _ => ⟨t.span, rfl⟩

theorem pure (a : α) : Consumes C (pure a) r [] a :=
  fun previous _ _ _ _ => ⟨previous, rfl⟩

theorem nested (hp : Consumes C p { r with depth := r.depth + 1 } ts a) (hdepth : r.depth < maxNesting) :
    Consumes C (nested p) r ts a := by
  intro previous id next rest hC
  rw [nested_apply, if_pos hdepth]
  exact hp previous id next rest hC

end Consumes

end Parser

namespace OperatorTree

open ScriptLang.Parser TokenKind

inductive Spelled : OperatorTree → List Token → Prop
  | operand (x : Operand) : Spelled (operand x) [x.token]
  | binary {op sign left right ts us} (means : sign.kind.operator? = some op) (before : Spelled left ts)
      (behind : Spelled right us) : Spelled (binary op left right) (ts ++ sign :: us)

variable {t : OperatorTree} {ts : List Token} {c : OperatorChain} {level : Nat}

theorem Spelled.eq_cons (h : t.Spelled ts) : ∃ (x : Operand) (rest : List Token), ts = x.token :: rest := by
  induction h with
  | operand x => exact ⟨x, [], rfl⟩
  | binary _ _ _ ih =>
    obtain ⟨x, rest, rfl⟩ := ih
    exact ⟨x, _, rfl⟩

theorem Spelled.length_ops (h : t.Spelled ts) : t.ops.length < ts.length := by
  induction h with
  | operand => exact Nat.zero_lt_one
  | binary =>
    simp only [ops_binary, List.length_append, List.length_cons]
    omega

/-- A chain is a way to write its trees. -/
theorem Groups.spelled (h : t.Groups c) : t.Spelled c.tokens := by
  induction t generalizing c with
  | operand x =>
    obtain ⟨first, rest⟩ := c
    obtain rfl : x = first := h.first
    obtain rfl : rest = [] := List.map_eq_nil_iff.mp h.links.symm
    exact .operand x
  | binary op left right ihleft ihright =>
    obtain ⟨first, rest⟩ := c
    obtain ⟨front, back, rfl, hfront, hback⟩ := List.map_eq_append_iff.mp h.links.symm
    obtain ⟨⟨sign, x⟩, back, rfl, hlink, hrest⟩ := List.map_eq_cons_iff.mp hback
    obtain ⟨rfl, hx⟩ := Prod.mk.inj hlink
    have hleft : left.Spelled (OperatorChain.tokens ⟨first, front⟩) := ihleft ⟨h.first, hfront.symm⟩
    have hright : right.Spelled (OperatorChain.tokens ⟨x, back⟩) := ihright ⟨hx.symm, hrest.symm⟩
    have htokens : OperatorChain.tokens ⟨first, front ++ (sign, x) :: back⟩ =
        OperatorChain.tokens ⟨first, front⟩ ++ sign.token :: OperatorChain.tokens ⟨x, back⟩ := by
      simp [OperatorChain.tokens]
    rw [htokens]
    exact .binary sign.means hleft hright

/-- A tree by precedence that is written with `ts`, and that can be read where operators of a level are. -/
structure Fits (level : Nat) (t : OperatorTree) (ts : List Token) : Prop where
  ordered : t.Ordered
  atLeast : t.AtLeast level
  nests : PowersNest t.ops
  spelled : t.Spelled ts

/-- An operator that is not a power has trees of its own level on its left and tighter ones on its right. -/
theorem Fits.of_binary {op : BinaryOp} {left right : OperatorTree} (h : Fits op.level (binary op left right) ts)
    (hop : op ≠ .power) : ∃ us sign vs, ts = us ++ sign :: vs ∧ sign.kind.operator? = some op ∧
      Fits op.level left us ∧ Fits (op.level + 1) right vs := by
  obtain ⟨⟨hleft, hright, hsides⟩, -, hnests, hspelled⟩ := h
  rw [if_neg hop] at hsides
  rw [ops_binary] at hnests
  cases hspelled with
  | binary means before behind =>
    refine ⟨_, _, _, rfl, means, ⟨hleft, hsides.1, hnests.of_infix ?_, before⟩,
      ⟨hright, hsides.2, hnests.of_infix ?_, behind⟩⟩
    · exact (List.prefix_append _ _).isInfix
    · exact ((List.suffix_cons _ _).trans (List.suffix_append _ _)).isInfix

/-- A parser that reads all trees of a level with at most `bound` tokens. -/
def ReadBy (level bound : Nat) (p : Parser Node) (r : Surroundings) : Prop :=
  ∀ ⦃t : OperatorTree⦄ ⦃ts : List Token⦄, Fits level t ts → ts.length ≤ bound →
    Consumes (EndsLevel level) p r ts t.node

variable {g : Grammar} {r : Surroundings} {bound depth : Nat}

section Power

theorem operand_consumes (x : Operand) (hturns : 0 < r.turns) :
    Consumes EndsChain (factor g) r [x.token] (operand x).node := by
  have hatom : Consumes EndsChain (atom g) r [x.token] (operand x).node :=
    fun _ _ _ _ _ => ⟨x.span, rfl⟩
  have hhead : Consumes EndsChain (chainHead g) r [x.token] (operand x).node := by
    refine .bind (.of_reads (.atKeyword .newWord false)) ?_ fun _ _ => rfl
    exact .finish hatom (.of_reads (links_reads (fun _ => id) false rfl hturns))
  have hchain : Consumes EndsChain (chain g) r [x.token] (operand x).node :=
    .finish hhead (.of_reads (nextLinks_reads (fun _ => id) false rfl hturns))
  exact .ahead (.ahead hchain)

private theorem power_stops {node : Node} (hk : k.EndsLevel 5) :
    Consumes (EndsLevel 5) (match k with
      | .symbol .starStar | .symbol .caret => do
        discard advance
        return .binary .power node (← Parser.nested g.power)
      | _ => return node) r [] node := by
  rcases hk with rfl | ⟨op, hop, hlevel⟩
  · exact .pure _
  · unfold operator? at hop
    split at hop <;> cases hop <;> first | exact .pure _ | exact absurd hlevel (by decide)

/-- Powers nest to the right. -/
theorem power_consumes (hspelled : t.Spelled ts) (hordered : t.Ordered) (hpower : t.AtLeast 5)
    (hdepth : t.ops.length ≤ depth) (hturns : 0 < r.turns) (hnesting : r.depth + t.ops.length ≤ maxNesting) :
    Consumes (EndsLevel 5) (power (.upTo depth)) r ts t.node := by
  induction hspelled generalizing depth r with
  | operand x =>
    have hx : Consumes (EndsLevel 5) (factor (.upTo depth)) r [x.token] (operand x).node :=
      (operand_consumes x hturns).mono fun _ => EndsLevel.endsChain
    exact .finish hx (.behind fun k hk => power_stops hk)
  | @binary op sign left right ts us means before behind _ ih =>
    obtain rfl := BinaryOp.eq_power_of_level hpower
    obtain ⟨-, hright, hsides⟩ := hordered
    rw [if_pos rfl] at hsides
    obtain ⟨x, rfl⟩ := hsides.1.eq_operand
    rw [ops_binary, List.length_append, List.length_cons] at hdepth hnesting
    obtain ⟨depth, rfl⟩ : ∃ n, depth = n + 1 := ⟨depth - 1, by omega⟩
    have hexponent : Consumes (EndsLevel 5) (power (.upTo depth)) { r with depth := r.depth + 1 } us
        right.node :=
      ih hright hsides.2 (by omega) hturns (by simp only; omega)
    have hrest : Consumes (EndsLevel 5)
        (do discard advance; return .binary .power (operand x).node (← Parser.nested (power (.upTo depth)))) r
        (sign :: us) (binary .power (operand x) right).node :=
      .bind (.skip (C := fun _ => True) sign)
        (.finish (.nested hexponent (by omega)) (.pure _)) fun _ _ => trivial
    cases before
    refine .bind (operand_consumes x hturns) (.ahead ?_) fun _ _ => endsChain_of_operator? means
    rcases eq_of_operator?_power means with hsign | hsign <;> rw [hsign] <;> exact hrest

theorem power_readBy (hdepth : bound ≤ depth) (hturns : bound < r.turns) (hnesting : r.depth ≤ 1) :
    ReadBy 5 bound (power (.upTo depth)) r := by
  intro t ts h hlength
  have hops := h.spelled.length_ops
  have hrun : t.ops.length < maxNesting := h.nests _ (List.infix_refl _) (h.ordered.ops_power h.atLeast)
  exact power_consumes h.spelled h.ordered h.atLeast (by omega) (by omega) (by omega)

end Power

section Level

variable {operand : Parser Node} {op? : TokenKind Token → Option LevelOp}

structure Tabulates (level : Nat) (op? : TokenKind Token → Option LevelOp) : Prop where
  operator {k op} (h : TokenKind.operator? k = some op) :
    op? k = if op.level = level then some (.binary op) else none
  endOfInput : op? .endOfInput = none

theorem Tabulates.none_of_endsLevel (h : Tabulates level op?) (hk : k.EndsLevel level) : op? k = none := by
  rcases hk with rfl | ⟨op, hop, hlevel⟩
  · exact h.endOfInput
  · rw [h.operator hop, if_neg (Nat.ne_of_lt hlevel)]

def levelOp : Nat → TokenKind Token → Option LevelOp
  | 0 => conditionOp
  | 1 => comparisonOp
  | 2 => bitwiseOp
  | 3 => sumOp
  | _ => termOp

theorem tabulates_levelOp (hlevel : level < 5) : Tabulates level (levelOp level) where
  operator h := by
    unfold TokenKind.operator? at h
    interval_cases level <;> split at h <;> cases h <;> rfl
  endOfInput := by interval_cases level <;> rfl

variable (hoperand : ReadBy (level + 1) bound operand r)

include hoperand

section

variable (hlength : ts.length ≤ bound) (previous : Span) (id : Nat) {next : Token} (rest : List Token)
  (hnext : next.kind.EndsLevel (level + 1))

include hlength hnext

/-- The loop of a level starts behind its first operand. -/
theorem level_starts (h : Fits (level + 1) t ts) :
    ∃ before turns, r.turns ≤ turns + ts.length ∧
      Parser.level g operand op? r (.facing previous id (ts ++ next :: rest)) =
        iterate (nextOperand g operand op?) turns t.node r (.facing before id (next :: rest)) := by
  obtain ⟨before, hrun⟩ := hoperand h hlength previous id next rest hnext
  refine ⟨before, r.turns, Nat.le_add_right _ _, ?_⟩
  rw [Parser.level, bind_apply, hrun]
  rfl

/-- Behind a tree of the level, the loop of the level has the node of the tree. It has taken no more turns than
the tree has tokens. -/
theorem level_reaches (htable : Tabulates level op?) (hlevel : level < 5) (hturns : bound < r.turns)
    (h : Fits level t ts) :
    ∃ before turns, r.turns ≤ turns + ts.length ∧
      Parser.level g operand op? r (.facing previous id (ts ++ next :: rest)) =
        iterate (nextOperand g operand op?) turns t.node r (.facing before id (next :: rest)) := by
  induction t generalizing ts next rest with
  | operand x => exact level_starts hoperand hlength _ _ _ hnext ⟨h.ordered, trivial, h.nests, h.spelled⟩
  | binary op left right ihleft _ =>
    by_cases htight : level + 1 ≤ op.level
    · exact level_starts hoperand hlength _ _ _ hnext ⟨h.ordered, htight, h.nests, h.spelled⟩
    -- The left side ends at the operator, and one more turn takes the operator and the right side.
    obtain rfl : level = op.level := Nat.le_antisymm h.atLeast (Nat.le_of_lt_succ (Nat.lt_of_not_le htight))
    obtain ⟨us, sign, vs, rfl, means, hleft, hright⟩ := h.of_binary fun hpower => by
      rw [hpower] at hlevel
      exact Nat.lt_irrefl _ hlevel
    rw [List.length_append, List.length_cons] at hlength
    obtain ⟨before, turns, hleftover, hrun⟩ := ihleft (by omega) (vs ++ next :: rest)
      (.inr ⟨op, means, Nat.lt_succ_self _⟩) hleft
    obtain ⟨turns, rfl⟩ : ∃ n, turns = n + 1 := ⟨turns - 1, by omega⟩
    have hturn : Consumes (EndsLevel (op.level + 1)) (nextOperand g operand op? left.node) r (sign :: vs)
        (.next (binary op left right).node) := by
      refine .ahead ?_
      rw [htable.operator means, if_pos rfl]
      exact .bind (.skip (C := fun _ => True) sign) (.finish (hoperand hright (by omega)) (.pure _))
        fun _ _ => trivial
    obtain ⟨behind, hturn⟩ := hturn before id next rest hnext
    refine ⟨behind, turns, by rw [List.length_append, List.length_cons]; omega, ?_⟩
    rw [List.cons_append] at hturn
    rw [List.append_assoc, List.cons_append, hrun, iterate, bind_apply, hturn]

end

theorem level_readBy (hlevel : level < 5) (hturns : bound < r.turns) :
    ReadBy level bound (Parser.level g operand (levelOp level)) r := by
  intro t ts h hlength previous id next rest hnext
  have htable := tabulates_levelOp hlevel
  obtain ⟨before, turns, hleft, hrun⟩ := level_reaches (g := g) hoperand hlength previous id rest
    (hnext.mono (Nat.le_succ _)) htable hlevel hturns h
  obtain ⟨turns, rfl⟩ : ∃ n, turns = n + 1 := ⟨turns - 1, by omega⟩
  have hdone : Consumes (EndsLevel level) (iterate (nextOperand g operand (levelOp level)) (turns + 1) t.node) r
      [] t.node := by
    refine .of_reads (.iterate_done (.look .kind (fun k hk => ?_) fun _ hk => hk))
    rw [htable.none_of_endsLevel hk]
    exact .pure ⟨_, rfl, rfl⟩
  rw [hrun]
  exact hdone before id next rest hnext

end Level

theorem comparison_readBy (hdepth : bound ≤ depth) (hturns : bound < r.turns) (hnesting : r.depth ≤ 1) :
    ReadBy 1 bound (comparison (.upTo depth)) r := by
  have hterm : ReadBy 4 bound (term (.upTo depth)) r :=
    level_readBy (power_readBy hdepth hturns hnesting) (by decide) hturns
  have hsum : ReadBy 3 bound (sum (.upTo depth)) r := level_readBy hterm (by decide) hturns
  have hbitwise : ReadBy 2 bound (bitwise (.upTo depth)) r := level_readBy hsum (by decide) hturns
  intro t ts h hlength
  have hlevel : Consumes (EndsLevel 1) (Parser.level (.upTo depth) (bitwise (.upTo depth)) comparisonOp) r ts
      t.node :=
    level_readBy hbitwise (by decide) hturns h hlength
  obtain ⟨x, rest, rfl⟩ := h.spelled.eq_cons
  exact .ahead hlevel

theorem condition_readBy (hdepth : bound ≤ depth) (hturns : bound < r.turns) (hnesting : r.depth ≤ 1) :
    ReadBy 0 bound (condition (.upTo depth)) r :=
  level_readBy (comparison_readBy hdepth hturns hnesting) (by decide) hturns

/-- At the end of the input, a tree by precedence is a statement. -/
theorem statement_consumes (h : Fits 0 t ts) (hdepth : ts.length ≤ depth) (hturns : ts.length < r.turns)
    (hnesting : r.depth = 0) : Consumes (· = .endOfInput) (statement (.upTo depth)) r ts t.node := by
  have hread : ReadBy 0 ts.length (condition (.upTo depth)) { r with depth := r.depth + 1 } :=
    condition_readBy hdepth hturns (by simp [hnesting])
  have hcondition : Consumes (· = .endOfInput) (condition (.upTo depth)) { r with depth := r.depth + 1 } ts
      t.node :=
    (hread h (Nat.le_refl _)).mono fun _ => .inl
  obtain ⟨x, rest, rfl⟩ := h.spelled.eq_cons
  have hexpression : Consumes (· = .endOfInput) (expression (.upTo depth)) r (x.token :: rest) t.node := by
    refine .nested (.bind (.of_reads (.atKeyword .varWord false)) (.finish hcondition ?_) fun _ _ => rfl)
      (hnesting ▸ by decide)
    refine .bind (.of_reads (.eat_not .equal)) (.pure _) ?_
    rintro _ rfl
    rfl
  exact .ahead hexpression

theorem Fits.parse (h : Fits 0 t ts) (span : Span) (id : Nat) :
    Program.parse id (ts ++ [⟨.endOfInput, span⟩]) = .ok ([t.node], id) := by
  have hweights := Token.length_le_weights (ts ++ [⟨.endOfInput, span⟩])
  rw [List.length_append] at hweights
  have hread : Consumes (· = .endOfInput) (statement (.upTo (Token.weights (ts ++ [⟨.endOfInput, span⟩]) + 1)))
      { turns := Token.weights (ts ++ [⟨.endOfInput, span⟩]) + 2 } ts t.node :=
    statement_consumes h (by omega) (by simp only; omega) rfl
  obtain ⟨x, rest, rfl⟩ := h.spelled.eq_cons
  obtain ⟨before, hrun⟩ := hread x.span id ⟨.endOfInput, span⟩ [] rfl
  exact Program.parse_single rfl rfl hrun

theorem fits_of_groups (hgroups : t.Groups c) (hordered : t.Ordered) (hpowers : PowersNest c.ops) :
    Fits 0 t c.tokens := by
  refine ⟨hordered, ?_, ?_, hgroups.spelled⟩
  · cases t with
    | operand => trivial
    | binary => exact Nat.zero_le _
  · rw [ops, hgroups.links]
    exact hpowers

/-- A chain of operators is a program of one statement: the tree that groups it by precedence, which is the only
one. -/
theorem parse_chain (c : OperatorChain) (hpowers : PowersNest c.ops) (span : Span) (id : Nat) :
    ∃ t : OperatorTree, t.Groups c ∧ t.Ordered ∧
      Program.parse id (c.tokens ++ [⟨.endOfInput, span⟩]) = .ok ([t.node], id) ∧
      ∀ u : OperatorTree, u.Groups c → u.Ordered → u = t := by
  have hparse {u : OperatorTree} (hgroups : u.Groups c) (hordered : u.Ordered) :
      Program.parse id (c.tokens ++ [⟨.endOfInput, span⟩]) = .ok ([u.node], id) :=
    (fits_of_groups hgroups hordered hpowers).parse span id
  obtain ⟨t, hgroups, hordered⟩ := exists_ordered c
  refine ⟨t, hgroups, hordered, hparse hgroups hordered, fun u hu hordered' => node_injective ?_⟩
  have hsame := (hparse hu hordered').symm.trans (hparse hgroups hordered)
  exact (List.cons.inj (Prod.mk.inj (Except.ok.inj hsame)).1).1

/-- `a - b ** c ^ d - e` is `(a - (b ** (c ^ d))) - e`. -/
theorem parse_chain_powers_between_differences :
    PowersNest [.subtract, .power, .power, .subtract] ∧
    Program.parse 0 [⟨.identifier "a", default⟩, ⟨.symbol .minus, default⟩, ⟨.identifier "b", default⟩,
      ⟨.symbol .starStar, default⟩, ⟨.identifier "c", default⟩, ⟨.symbol .caret, default⟩,
      ⟨.identifier "d", default⟩, ⟨.symbol .minus, default⟩, ⟨.identifier "e", default⟩,
      ⟨.endOfInput, default⟩] =
    .ok ([node (binary .subtract
      (binary .subtract (operand ⟨"a", default⟩) (binary .power (operand ⟨"b", default⟩)
        (binary .power (operand ⟨"c", default⟩) (operand ⟨"d", default⟩))))
      (operand ⟨"e", default⟩))], 0) := by
  have hpowers : PowersNest [.subtract, .power, .power, .subtract] := .of_length (by decide)
  refine ⟨hpowers, ?_⟩
  obtain ⟨t, -, -, hparse, honly⟩ := parse_chain
    ⟨⟨"a", default⟩, [(⟨⟨.symbol .minus, default⟩, .subtract, rfl⟩, ⟨"b", default⟩),
      (⟨⟨.symbol .starStar, default⟩, .power, rfl⟩, ⟨"c", default⟩),
      (⟨⟨.symbol .caret, default⟩, .power, rfl⟩, ⟨"d", default⟩),
      (⟨⟨.symbol .minus, default⟩, .subtract, rfl⟩, ⟨"e", default⟩)]⟩ hpowers default 0
  refine hparse.trans (congrArg (fun u => Except.ok ([node u], 0)) (honly _ ⟨rfl, rfl⟩ ?_).symm)
  simp [Ordered, AtLeast, BinaryOp.level]

end OperatorTree

end ScriptLang
