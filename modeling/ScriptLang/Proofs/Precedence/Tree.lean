import ScriptLang.Grammar.Assignment
import Mathlib.Data.List.Infix

/-! Operators between names, and the trees they can be grouped into. Main statement: every chain of operators
can be grouped by the table of precedence. -/
namespace ScriptLang

/-- How tightly an operator binds. The loosest ones have the lowest level. -/
def BinaryOp.level : BinaryOp → Nat
  | .and | .or => 0
  | .equal | .notEqual | .less | .greater | .lessEqual | .greaterEqual | .nullish => 1
  | .shiftLeft | .shiftRight | .shiftRightZero | .bitAnd | .bitOr | .bitXor | .instanceOf => 2
  | .add | .subtract => 3
  | .multiply | .divide | .modulo => 4
  | .power => 5

theorem BinaryOp.level_le (op : BinaryOp) : op.level ≤ 5 := by cases op <;> decide

theorem BinaryOp.eq_power_of_level {op : BinaryOp} (h : 5 ≤ op.level) : op = .power := by
  cases op with
  | power => rfl
  | _ => exact absurd h (by decide)

theorem BinaryOp.level_lt {op : BinaryOp} (h : op ≠ .power) : op.level < 5 :=
  Nat.lt_of_not_le fun hlevel => h (eq_power_of_level hlevel)

/-- The operator that a token stands for between two operands. -/
def TokenKind.operator? : TokenKind Token → Option BinaryOp
  | .keyword .andWord | .symbol .ampersandAmpersand => some .and
  | .keyword .orWord | .symbol .pipePipe => some .or
  | .symbol .equalEqual => some .equal
  | .symbol .bangEqual => some .notEqual
  | .symbol .less => some .less
  | .symbol .greater => some .greater
  | .symbol .lessEqual => some .lessEqual
  | .symbol .greaterEqual => some .greaterEqual
  | .symbol .questionQuestion => some .nullish
  | .symbol .shiftLeft => some .shiftLeft
  | .symbol .shiftRight => some .shiftRight
  | .symbol .shiftRightZero => some .shiftRightZero
  | .symbol .ampersand => some .bitAnd
  | .symbol .pipe => some .bitOr
  | .symbol .caretCaret => some .bitXor
  | .keyword .instanceofWord => some .instanceOf
  | .symbol .plus => some .add
  | .symbol .minus => some .subtract
  | .symbol .star => some .multiply
  | .symbol .slash => some .divide
  | .symbol .percent => some .modulo
  | .symbol .starStar | .symbol .caret => some .power
  | _ => none

structure Operand where
  name : String
  span : Span

def Operand.token (x : Operand) : Token := ⟨.identifier x.name, x.span⟩

structure Operator where
  token : Token
  op : BinaryOp
  means : token.kind.operator? = some op

structure OperatorChain where
  first : Operand
  rest : List (Operator × Operand)

namespace OperatorChain

def tokens (c : OperatorChain) : List Token :=
  c.first.token :: c.rest.flatMap fun (sign, x) => [sign.token, x.token]

def links (c : OperatorChain) : List (BinaryOp × Operand) := c.rest.map fun (sign, x) => (sign.op, x)

def ops (c : OperatorChain) : List BinaryOp := c.links.map (·.1)

end OperatorChain

/-- No more powers in a row than expressions can nest. -/
def PowersNest (ops : List BinaryOp) : Prop :=
  ∀ run, run <:+: ops → (∀ op ∈ run, op = .power) → run.length < maxNesting

theorem PowersNest.of_infix {ops part : List BinaryOp} (h : PowersNest ops) (hpart : part <:+: ops) :
    PowersNest part :=
  fun run hrun => h run (hrun.trans hpart)

theorem PowersNest.of_length {ops : List BinaryOp} (h : ops.length < maxNesting) : PowersNest ops :=
  fun _ hrun _ => Nat.lt_of_le_of_lt hrun.length_le h

inductive OperatorTree where
  | operand (x : Operand)
  | binary (op : BinaryOp) (left right : OperatorTree)

namespace OperatorTree

def first : OperatorTree → Operand
  | operand x => x
  | binary _ left _ => left.first

def links : OperatorTree → List (BinaryOp × Operand)
  | operand _ => []
  | binary op left right => left.links ++ (op, right.first) :: right.links

def ops (t : OperatorTree) : List BinaryOp := t.links.map (·.1)

def node : OperatorTree → Node
  | operand x => ⟨.lookup x.name, x.span⟩
  | binary op left right => .binary op left.node right.node

/-- Not grouped by an operator that is looser than a level. -/
def AtLeast (level : Nat) : OperatorTree → Prop
  | operand _ => True
  | binary op _ _ => level ≤ op.level

/-- Grouped by precedence: no operator has a looser one on its left, and all on its right are tighter. A power
has an operand on its left, and can have a power on its right. -/
def Ordered : OperatorTree → Prop
  | operand _ => True
  | binary op left right =>
    left.Ordered ∧ right.Ordered ∧
      if op = .power then left.AtLeast (op.level + 1) ∧ right.AtLeast op.level
      else left.AtLeast op.level ∧ right.AtLeast (op.level + 1)

/-- Read in order, the tree is the chain. -/
structure Groups (t : OperatorTree) (c : OperatorChain) : Prop where
  first : t.first = c.first
  links : t.links = c.links

variable {t u : OperatorTree} {op : BinaryOp} {level : Nat}

/-- Nothing is tighter than a power but an operand. -/
theorem AtLeast.eq_operand (h : t.AtLeast 6) : ∃ x, t = operand x := by
  cases t with
  | operand x => exact ⟨x, rfl⟩
  | binary op => exact absurd h (Nat.not_le_of_lt (Nat.lt_succ_of_le op.level_le))

@[simp]
theorem ops_binary (op : BinaryOp) (left right : OperatorTree) :
    (binary op left right).ops = left.ops ++ op :: right.ops := by
  simp [ops, links]

theorem node_injective (h : t.node = u.node) : t = u := by
  induction t generalizing u with
  | operand x =>
    cases u with
    | operand y =>
      obtain ⟨name, span⟩ := x
      obtain ⟨name', span'⟩ := y
      cases h
      rfl
    | binary => cases h
  | binary op left right ihleft ihright =>
    cases u with
    | operand => cases h
    | binary op' left' right' =>
      obtain ⟨rfl, hleft, hright⟩ := Shape.binary.inj (Node.mk.inj h).1
      rw [ihleft hleft, ihright hright]

/-- A tree with an operator and an operand behind it. Below an operator that is looser they belong to the
right side of it, and so do powers below a power. -/
def push (op : BinaryOp) (x : Operand) : OperatorTree → OperatorTree
  | operand y => binary op (operand y) (operand x)
  | binary root left right =>
    if root.level < op.level ∨ op = .power then binary root left (right.push op x)
    else binary op (binary root left right) (operand x)

@[simp]
theorem first_push (x : Operand) : (t.push op x).first = t.first := by
  cases t with
  | operand => rfl
  | binary =>
    rw [push]
    split <;> rfl

@[simp]
theorem links_push (x : Operand) : (t.push op x).links = t.links ++ [(op, x)] := by
  induction t with
  | operand => rfl
  | binary root left right _ ih =>
    rw [push]
    split
    · simp [links, ih]
    · rfl

theorem AtLeast.push (h : t.AtLeast level) (hlevel : level ≤ op.level) (x : Operand) :
    (t.push op x).AtLeast level := by
  cases t with
  | operand => exact hlevel
  | binary =>
    rw [OperatorTree.push]
    split
    · exact h
    · exact hlevel

theorem Ordered.push (h : t.Ordered) (op : BinaryOp) (x : Operand) : (t.push op x).Ordered := by
  induction t with
  | operand y =>
    refine ⟨trivial, trivial, ?_⟩
    split <;> exact ⟨trivial, trivial⟩
  | binary root left right _ ih =>
    rw [OperatorTree.push]
    split
    case isTrue hbelow =>
      obtain ⟨hleft, hright, hsides⟩ := h
      refine ⟨hleft, ih hright, ?_⟩
      split at hsides
      case isTrue hroot =>
        subst hroot
        have htight : BinaryOp.level .power ≤ op.level := by
          rcases hbelow with hbelow | rfl
          · exact Nat.le_of_lt hbelow
          · exact Nat.le_refl _
        rw [if_pos rfl]
        exact ⟨hsides.1, hsides.2.push htight x⟩
      case isFalse hroot =>
        have htight : root.level < op.level := by
          rcases hbelow with hbelow | rfl
          · exact hbelow
          · exact BinaryOp.level_lt hroot
        rw [if_neg hroot]
        exact ⟨hsides.1, hsides.2.push htight x⟩
    case isFalse hbelow =>
      obtain ⟨hloose, hop⟩ := not_or.mp hbelow
      refine ⟨h, trivial, ?_⟩
      rw [if_neg hop]
      exact ⟨Nat.le_of_not_lt hloose, trivial⟩

/-- Every chain can be grouped by precedence. -/
theorem exists_ordered (c : OperatorChain) : ∃ t : OperatorTree, t.Groups c ∧ t.Ordered := by
  obtain ⟨x, rest⟩ := c
  induction rest using List.reverseRecOn with
  | nil => exact ⟨operand x, ⟨rfl, rfl⟩, trivial⟩
  | append_singleton rest link ih =>
    obtain ⟨t, hgroups, hordered⟩ := ih
    refine ⟨t.push link.1.op link.2, ⟨?_, ?_⟩, hordered.push ..⟩
    · rw [first_push, hgroups.first]
    · rw [links_push, hgroups.links, OperatorChain.links, OperatorChain.links, List.map_append]
      rfl

/-- In a tree of powers all operators are powers. -/
theorem Ordered.ops_power (h : t.Ordered) (hpower : t.AtLeast 5) : ∀ op ∈ t.ops, op = .power := by
  induction t with
  | operand => nofun
  | binary root left right _ ih =>
    obtain rfl := BinaryOp.eq_power_of_level hpower
    obtain ⟨-, hright, hsides⟩ := h
    rw [if_pos rfl] at hsides
    obtain ⟨x, rfl⟩ := hsides.1.eq_operand
    intro op hop
    rw [ops_binary] at hop
    rcases List.mem_cons.mp hop with rfl | hop
    · rfl
    · exact ih hright hsides.2 op hop

end OperatorTree

end ScriptLang
