/-! Reading a number from its text. -/
namespace ScriptLang.Number

def digitsValue (digits : List Char) : Nat :=
  digits.foldl (fun value digit => 10 * value + (digit.toNat - '0'.toNat)) 0

/-- Digits without the zeros in front, and how many are left out. Past the first 800 they only count
by whether one of them is not zero, since a decimal half way between two numbers has fewer digits. -/
def shortened (digits : List Char) : List Char × Nat :=
  let digits := digits.dropWhile (· = '0')
  match digits.drop 800 with
  | [] => (digits, 0)
  | last :: rest =>
    (digits.take 800 ++ [if (last :: rest).all (· = '0') then '0' else '1'], rest.length)

/-- The number nearest to `coefficient * 10 ^ exponent`. Past the range of numbers only the
magnitude decides, and no power of ten is formed. -/
def nearest (coefficient : Nat) (exponent : Int) : Float :=
  let magnitude : Int := (Nat.toDigits 10 coefficient).length + exponent
  if coefficient = 0 || magnitude < -400 then 0.0
  else if 400 < magnitude then 1.0 / 0.0
  else Float.ofScientific coefficient (exponent < 0) exponent.natAbs

def splitSign : List Char → Bool × List Char
  | '-' :: cs => (true, cs)
  | '+' :: cs => (false, cs)
  | cs => (false, cs)

/-- The value of the digits of an exponent. Those that follow once it has reached 65536 are passed
over. -/
def exponentValue (digits : List Char) : Nat :=
  digits.foldl (fun value digit =>
    if value < 65536 then 10 * value + (digit.toNat - '0'.toNat) else value) 0

def exponent? : List Char → Option Int
  | [] => some 0
  | e :: cs =>
    let (negative, digits) := splitSign cs
    if e.toLower = 'e' && !digits.isEmpty && digits.all Char.isDigit then
      some (if negative then -(exponentValue digits : Int) else exponentValue digits)
    else none

/-- A numeral without a sign: digits with a point before, among or behind them, then an exponent
part. -/
def magnitude? (cs : List Char) : Option Float :=
  let before := cs.takeWhile Char.isDigit
  let rest := cs.dropWhile Char.isDigit
  let (after, rest) := match rest with
    | '.' :: more => (more.takeWhile Char.isDigit, more.dropWhile Char.isDigit)
    | other => ([], other)
  if before.isEmpty && after.isEmpty then none
  else
    let (digits, leftOut) := shortened (before ++ after)
    (exponent? rest).map fun e => nearest (digitsValue digits) (e - after.length + leftOut)

/-- The number a text stands for: a numeral, or one of the words `inf`, `infinity` and `nan` in any
case, with a sign in front if wanted. -/
def read? (cs : List Char) : Option Float :=
  let (negative, body) := splitSign cs
  let word := String.ofList (body.map Char.toLower)
  let magnitude :=
    if word = "inf" || word = "infinity" then some (1.0 / 0.0)
    else if word = "nan" then some (0.0 / 0.0)
    else magnitude? body
  magnitude.map fun x => if negative then -x else x

end ScriptLang.Number
