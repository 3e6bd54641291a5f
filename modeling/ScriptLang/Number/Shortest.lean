import ScriptLang.Number.BinaryForm

/-! The text of a number: the fewest digits that read back as the same number, without an exponent.

Among the decimals `c * 10 ^ k` that lie in the interval of values which round to the number, the
ones with the greatest `k` have the fewest digits, and of those the nearest one is written. -/
namespace ScriptLang.Number

/-- The values that round to a number, as fractions over `scale`: the number itself, and the ends of
the interval, which belong to it if `closed`. -/
structure Interval where
  lower : Nat
  value : Nat
  upper : Nat
  scale : Nat
  closed : Bool

/-- The interval around a number other than zero. It is narrower below a power of two, except at the
bottom of the range, and it has its ends if the significand is even. -/
def Interval.around (b : BinaryForm) : Interval :=
  let narrow := b.significand = Nat.pow 2 52 && -1074 < b.exponent
  let up := Nat.pow 2 b.exponent.toNat
  { lower := (4 * b.significand - if narrow then 1 else 2) * up
    value := 4 * b.significand * up
    upper := (4 * b.significand + 2) * up
    scale := 4 * Nat.pow 2 (-b.exponent).toNat
    closed := b.significand % 2 = 0 }

structure Decimal where
  coefficient : Nat
  exponent : Int
  deriving DecidableEq

namespace Interval

def inUnits (i : Interval) (k : Int) : Interval :=
  if 0 ≤ k then { i with scale := i.scale * Nat.pow 10 k.toNat }
  else
    let up := Nat.pow 10 (-k).toNat
    { i with lower := i.lower * up, value := i.value * up, upper := i.upper * up }

def holds (i : Interval) (c : Nat) : Bool :=
  if i.closed then i.lower ≤ c * i.scale && c * i.scale ≤ i.upper
  else i.lower < c * i.scale && c * i.scale < i.upper

/-- The whole number in the interval that is nearest to its value, the greater one of two. Only the
two neighbours of the value can be that. -/
def nearest? (i : Interval) : Option Nat :=
  let below := i.value / i.scale
  let above := below + 1
  let fits := 0 < below && i.holds below
  if i.holds above then
    if fits && i.value - below * i.scale < above * i.scale - i.value then some below else some above
  else if fits then some below else none

/-- The decimal with the greatest exponent, `k` at most, in the interval; `steps` exponents are
tried. -/
def shortest (i : Interval) : Nat → Int → Decimal
  | 0, k => ⟨0, k⟩
  | steps + 1, k =>
    match (i.inUnits k).nearest? with
    | some c => ⟨c, k⟩
    | none => i.shortest steps (k - 1)

end Interval

/-- The shortest decimal that rounds to the magnitude of `b`, which is not zero. The search begins
at a power of ten above the magnitude and ends within 20 places of it. -/
def shortestDecimal (b : BinaryForm) : Decimal :=
  let top : Int := b.exponent + b.significand.log2 + 1
  (Interval.around b).shortest 24 (top * 30103 / 100000 + 2)

def Decimal.digits (d : Decimal) : List Char :=
  let coefficient := Nat.toDigits 10 d.coefficient
  if 0 ≤ d.exponent then coefficient ++ List.replicate d.exponent.toNat '0'
  else
    let places := (-d.exponent).toNat
    let padded := List.replicate (places + 1 - coefficient.length) '0' ++ coefficient
    padded.take (padded.length - places) ++ '.' :: padded.drop (padded.length - places)

def text (x : Float) : String :=
  match BinaryForm.ofFloat? x with
  | some b =>
    let magnitude := if b.significand = 0 then ['0'] else (shortestDecimal b).digits
    String.ofList (if b.negative then '-' :: magnitude else magnitude)
  | none => if x.isNaN then "NaN" else if x < 0 then "-inf" else "inf"

end ScriptLang.Number
