import ScriptLang.Number.Rounding
import ScriptLang.Value.Element
import ScriptLang.Value.Equality
import ScriptLang.Value.Text

/-! Operators on values. -/
namespace ScriptLang.Action

def illegal {α : Type} (op : BinaryOp) (left right : Value) : Action α :=
  throw (.illegalOperation op left.typeName right.typeName)

def concatenate (left right : String) : Action Value := do
  checkLength "string" (left.utf8ByteSize + right.utf8ByteSize)
  return .text (left ++ right)

def concatenates : Value → Value → Bool
  | .text _, _ => true
  | .list _, _ => false
  | _, .text _ => true
  | _, _ => false

def add (left right : Value) : Action Value := do
  match left, right with
  | .number a, .number b => return .number (a + b)
  | .text a, other => concatenate a (other.toText (← get))
  | .list id, other =>
    let values ← elements id
    checkLength "list" (values.size + 1)
    newList (values.push other)
  | .dict a, .dict b => newDict ((← entries a).merge (← entries b))
  | other, .text b => concatenate (other.toText (← get)) b
  | _, _ => illegal .add left right

def subtract (left right : Value) : Action Value := do
  match left, right with
  | .number a, .number b => return .number (a - b)
  | .list id, .number _ =>
    let values ← elements id
    let position ← liftExcept (right.position values.size)
    newList (values.eraseIdxIfInBounds position)
  | .dict id, .text key =>
    let entries ← entries id
    if (entries.get? key).isNone then throw (.keyNotFound key)
    newDict (entries.erase key)
  | _, _ => illegal .subtract left right

def repeatCount (count : Float) : Action Nat :=
  match Number.count? count with
  | some n => return n
  | none => throw (.invalidRepeatCount count)

def multiply (left right : Value) : Action Value := do
  match left, right with
  | .number a, .number b => return .number (a * b)
  | .text text, .number x =>
    let count ← repeatCount x
    checkLength "string" (text.utf8ByteSize * count)
    return .text (if text.isEmpty then "" else Nat.repeat (· ++ text) count "")
  | .list a, .list b =>
    let values ← elements a
    let others ← elements b
    checkLength "list" (values.size + others.size)
    newList (values ++ others)
  | .list id, .number x =>
    let count ← repeatCount x
    let values ← elements id
    checkLength "list" (values.size * count)
    newList (if values.isEmpty then #[] else Nat.repeat (· ++ values) count #[])
  | _, _ => illegal .multiply left right

def onNumbers (op : BinaryOp) (f : Float → Float → Action Value) (left right : Value) :
    Action Value :=
  match left, right with
  | .number a, .number b => f a b
  | _, _ => illegal op left right

def divided (f : Float → Float → Float) (a b : Float) : Action Value := do
  if b == 0 then throw .divisionByZero
  return .number (f a b)

def signed (w : BitVec 32) : Value := .number (Float.ofInt w.toInt)

def unsigned (w : BitVec 32) : Value := .number (Float.ofNat w.toNat)

def onWords (op : BinaryOp) (f : BitVec 32 → BitVec 32 → Value) : Value → Value → Action Value :=
  onNumbers op fun a b => return f (Number.word a) (Number.word b)

def compare (op : BinaryOp) (numbers : Float → Float → Bool) (texts : String → String → Bool)
    (left right : Value) : Action Value :=
  match left, right with
  | .number a, .number b => return .boolean (numbers a b)
  | .text a, .text b => return .boolean (texts a b)
  | _, _ => illegal op left right

def instanceOf (left right : Value) : Action Value :=
  match left, right with
  | .instance object, .class cls => return .boolean (object.cls.inherits cls)
  | _, .class _ => return .boolean false
  | _, _ => illegal .instanceOf left right

def binary (op : BinaryOp) (left right : Value) : Action Value := do
  match op with
  | .add => add left right
  | .subtract => subtract left right
  | .multiply => multiply left right
  | .divide => onNumbers op (divided (· / ·)) left right
  | .modulo => onNumbers op (divided Number.modulo) left right
  | .power => onNumbers op (fun a b => return .number (a ^ b)) left right
  | .shiftLeft => onWords op (fun a b => signed (a <<< (b.toNat % 32))) left right
  | .shiftRight => onWords op (fun a b => signed (a.sshiftRight (b.toNat % 32))) left right
  | .shiftRightZero => onWords op (fun a b => unsigned (a >>> (b.toNat % 32))) left right
  | .bitAnd => onWords op (fun a b => signed (a &&& b)) left right
  | .bitOr => onWords op (fun a b => signed (a ||| b)) left right
  | .bitXor => onWords op (fun a b => signed (a ^^^ b)) left right
  | .equal => return .boolean (left.equal (← get) right)
  | .notEqual => return .boolean (!left.equal (← get) right)
  | .less => compare op (· < ·) (· < ·) left right
  | .greater => compare op (· > ·) (· > ·) left right
  | .lessEqual => compare op (· ≤ ·) (· ≤ ·) left right
  | .greaterEqual => compare op (· ≥ ·) (· ≥ ·) left right
  | .and => return if left.isTrue (← get) then right else left
  | .or => return if left.isTrue (← get) then left else right
  | .nullish => return if left.isNothing then right else left
  | .instanceOf => instanceOf left right

def unary (op : UnaryOp) (operand : Value) : Action Value := do
  match op, operand with
  | .plus, .number x => return .number x
  | .minus, .number x => return .number (-x)
  | .bitNot, .number x => return signed (~~~ Number.word x)
  | .not, value => return .boolean (!value.isTrue (← get))
  | .typeOf, value => return .text value.typeOf
  | _, _ => throw (.illegalUnaryOperation op operand.typeName)

end ScriptLang.Action
