/-! The exact value of a floating point number. -/
namespace ScriptLang

/-- A finite number, exactly: `significand * 2 ^ exponent`, below zero if `negative`. A zero keeps
its sign. -/
structure BinaryForm where
  negative : Bool
  significand : Nat
  exponent : Int
  deriving DecidableEq

namespace BinaryForm

def ofFloat? (x : Float) : Option BinaryForm :=
  let bits := x.toBits.toNat
  let negative := decide (Nat.pow 2 63 ≤ bits)
  let biased : Nat := bits / Nat.pow 2 52 % Nat.pow 2 11
  let fraction := bits % Nat.pow 2 52
  if biased = 2047 then none
  else if biased = 0 then some ⟨negative, fraction, -1074⟩
  else some ⟨negative, fraction + Nat.pow 2 52, (biased : Int) - 1075⟩

/-- `n * 2 ^ e`, without the places behind the point. -/
def shifted (n : Nat) (e : Int) : Nat :=
  if 0 ≤ e then n * Nat.pow 2 e.toNat else n / Nat.pow 2 (-e).toNat

def toFloat (b : BinaryForm) : Float :=
  let sign := if b.negative then Nat.pow 2 63 else 0
  if b.significand = 0 then Float.ofBits (UInt64.ofNat sign)
  else
    let top : Int := b.exponent + b.significand.log2
    let lowest : Int := max (top - 52) (-1074)
    let kept := shifted b.significand (b.exponent - lowest)
    Float.ofBits (UInt64.ofNat (sign + kept + (lowest + 1074).toNat * Nat.pow 2 52))

def whole (b : BinaryForm) : Nat := shifted b.significand b.exponent

def fraction (b : BinaryForm) : Nat :=
  if 0 ≤ b.exponent then 0 else b.significand % Nat.pow 2 (-b.exponent).toNat

def isWhole (b : BinaryForm) : Bool := b.fraction = 0

def reachesHalf (b : BinaryForm) : Bool :=
  b.exponent < 0 && Nat.pow 2 (-b.exponent).toNat ≤ 2 * b.fraction

def truncated (b : BinaryForm) : Int := if b.negative then -(b.whole : Int) else b.whole

end BinaryForm

end ScriptLang
