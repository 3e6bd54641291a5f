import ScriptLang.Number.BinaryForm

/-! Whole numbers out of floating point numbers. -/
namespace ScriptLang.Number

def clamp64 (t : Int) : Int := max (-0x8000000000000000) (min t 0x7fffffffffffffff)

/-- The integer a number stands for when it is used as an index: the number has to be finite and
whole, and one past the 64-bit range counts as the nearest end of that range. -/
def index? (x : Float) : Option Int :=
  match BinaryForm.ofFloat? x with
  | some b => if b.isWhole then some (clamp64 b.truncated) else none
  | none => none

def count? (x : Float) : Option Nat :=
  match BinaryForm.ofFloat? x with
  | some b => if x < 0 || !b.isWhole then none else some b.whole
  | none => none

/-- The 32-bit word of a number: cut toward zero, brought into the 64-bit range and reduced to its
lowest 32 bits. Infinite numbers and those that are no numbers give zero. -/
def word (x : Float) : BitVec 32 :=
  match BinaryForm.ofFloat? x with
  | some b => BitVec.ofInt 32 (clamp64 b.truncated)
  | none => 0

end ScriptLang.Number
