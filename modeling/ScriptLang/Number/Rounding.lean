import ScriptLang.Number.BinaryForm

/-! Rounding to whole numbers, and the remainder of a division. -/
namespace ScriptLang.Number

def mapFinite (f : BinaryForm → BinaryForm) (x : Float) : Float :=
  match BinaryForm.ofFloat? x with
  | some b => (f b).toFloat
  | none => x

def truncate : Float → Float := mapFinite fun b => ⟨b.negative, b.whole, 0⟩

def floor : Float → Float := mapFinite fun b =>
  if b.negative && !b.isWhole then ⟨true, b.whole + 1, 0⟩ else ⟨b.negative, b.whole, 0⟩

/-- The nearest whole number; a half goes away from zero. -/
def round : Float → Float := mapFinite fun b =>
  ⟨b.negative, if b.reachesHalf then b.whole + 1 else b.whole, 0⟩

/-- `x` rounded to `digits` places behind the point, by way of scaling. -/
def roundTo (x digits : Float) : Float :=
  let factor := Float.pow 10.0 (truncate digits)
  round (x * factor) / factor

def remainder (a b : BinaryForm) : BinaryForm :=
  let unit := min a.exponent b.exponent
  let dividend := BinaryForm.shifted a.significand (a.exponent - unit)
  let divisor := BinaryForm.shifted b.significand (b.exponent - unit)
  ⟨a.negative, dividend % divisor, unit⟩

/-- The remainder of `x` by `y`. An infinite divisor leaves a finite `x` as it is; an infinite
dividend has no remainder. -/
def modulo (x y : Float) : Float :=
  match BinaryForm.ofFloat? x, BinaryForm.ofFloat? y with
  | some a, some b => (remainder a b).toFloat
  | some _, none => if y.isNaN then y else x
  | none, _ => x - x

end ScriptLang.Number
