import ScriptLang.Number.Whole
import ScriptLang.Value.Action

/-! Elements of lists, dictionaries and texts. -/
namespace ScriptLang

def Value.toIndex (key : Value) : Except EvalCause Int :=
  match key with
  | .number x =>
    match Number.index? x with
    | some index => .ok index
    | none => .error (.invalidIndex (Number.text x))
  | other => .error (.invalidIndex other.typeName)

/-- The position that an index means; below zero it counts from the end. -/
def resolveIndex (index : Int) (length : Nat) : Int :=
  if index < 0 then length + index else index

def Value.place (key : Value) (length places : Nat) : Except EvalCause Nat := do
  let index ← key.toIndex
  let position := resolveIndex index length
  if position < 0 ∨ places ≤ position then throw (.indexOutOfRange index length)
  return position.toNat

def Value.position (key : Value) (length : Nat) : Except EvalCause Nat := key.place length length

def sliceBound (bound : Option Value) (missing : Int) (length : Nat) : Except EvalCause Int :=
  match bound with
  | some key => (resolveIndex · length) <$> key.toIndex
  | none => .ok missing

/-- Where a slice starts and where it stops. A bound that is left out is that end of the sequence. -/
def sliceBounds (start stop : Option Value) (length : Nat) : Except EvalCause (Nat × Nat) := do
  let start ← sliceBound start 0 length
  let stop ← sliceBound stop length length
  if start < 0 ∨ length < stop ∨ stop < start then throw (.illegalSliceBounds start stop length)
  return (start.toNat, stop.toNat)

namespace Action

def notIndexable {α : Type} (target key : Value) : Action α :=
  throw (.notIndexable target.typeName key.typeName)

/-- `target[key]`. -/
def readElement (target key : Value) : Action Value := do
  match target, key with
  | .list id, .number _ =>
    let values ← elements id
    let position ← liftExcept (key.position values.size)
    return values.getD position .nothing
  | .text text, .number _ =>
    let position ← liftExcept (key.position text.length)
    return .text (String.ofList (text.toList[position]?).toList)
  | .dict id, .text name =>
    match (← entries id).get? name with
    | some value => return value
    | none => throw (.keyNotFound name)
  | _, _ => notIndexable target key

/-- `target[start:stop]`. -/
def readSlice (target : Value) (start stop : Option Value) : Action Value := do
  match target with
  | .list id =>
    let values ← elements id
    let (first, behind) ← liftExcept (sliceBounds start stop values.size)
    newList (values.extract first behind)
  | .text text =>
    let (first, behind) ← liftExcept (sliceBounds start stop text.length)
    return .text (String.ofList ((text.toList.drop first).take (behind - first)))
  | _ => notIndexable target ((start <|> stop).getD .nothing)

def push (id : ListId) (value : Value) : Action Unit := do
  checkLength "list" ((← elements id).size + 1)
  modify (·.updateList id (·.push value))

def written (values : Array Value) (position : Nat) (value : Value) : Array Value :=
  if position < values.size then values.setIfInBounds position value
  else (values ++ Array.replicate (position - values.size) Value.nothing).push value

def writeList (id : ListId) (key value : Value) : Action Unit := do
  let length := (← elements id).size
  let index ← liftExcept key.toIndex
  let position := resolveIndex index length
  if position < 0 then throw (.indexOutOfRange index length)
  if length ≤ position then checkLength "list" (position.toNat + 1)
  modify (·.updateList id (written · position.toNat value))

/-- `target[key] = value`, or `target[] = value` to append. -/
def writeElement (target : Value) (key : Option Value) (value : Value) : Action Unit := do
  match target, key with
  | .list id, none => push id value
  | .list id, some (.number x) => writeList id (.number x) value
  | .dict id, some (.text name) => modify (·.updateDict id (·.insert name value))
  | .text _, _ => throw .immutableText
  | _, _ => notIndexable target (key.getD .nothing)

def takeElement (id : ListId) (key : Value) : Action Value := do
  let values ← elements id
  let position ← liftExcept (key.position values.size)
  let value := values.getD position .nothing
  modify (·.updateList id (·.eraseIdxIfInBounds position))
  return value

def takeEntry (id : DictId) (name : String) : Action Value := do
  match (← entries id).get? name with
  | some value =>
    modify (·.updateDict id (·.erase name))
    return value
  | none => throw (.keyNotFound name)

/-- `delete target[key]`. -/
def removeElement (target key : Value) : Action Value := do
  match target, key with
  | .list id, .number _ => takeElement id key
  | .dict id, .text name => takeEntry id name
  | _, _ => notIndexable target key

end Action

end ScriptLang
