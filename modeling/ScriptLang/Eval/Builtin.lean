import ScriptLang.Eval.Text
import ScriptLang.Number.Reading
import ScriptLang.Number.Rounding
import ScriptLang.Text.Blank
import ScriptLang.Value.Element

/-! The functions that every program starts with. -/
namespace ScriptLang

namespace Builtin

def param (name : String) (typeName : Option String) (isOptional : Bool) : Param Node :=
  { name, typeName, isOptional, span := .point .origin }

def required (name : String) (typeName : Option String) : Param Node := param name typeName false

def optional (name : String) (typeName : Option String) : Param Node := param name typeName true

def params : Builtin → List (Param Node)
  | print => [{ required "values" (some "list") with isRest := true }]
  | len => [required "value" none]
  | append => [required "list" (some "list"), required "value" none]
  | pop => [required "list" (some "list"), optional "index" (some "number")]
  | insert =>
    [required "list" (some "list"), required "index" (some "number"), required "value" none]
  | keys => [required "dict" (some "dict")]
  | values => [required "dict" (some "dict")]
  | str => [required "value" none]
  | num => [required "value" none]
  | round => [required "value" (some "number"), optional "digits" (some "number")]
  | floor => [required "value" (some "number")]
  | abs => [required "value" (some "number")]
  | error => [required "message" (some "string")]

def trim (text : List Char) : List Char :=
  ((text.dropWhile Text.isBlank).reverse.dropWhile Text.isBlank).reverse

def length : Value → Action Value
  | .text text => return .number (Float.ofNat text.length)
  | .list id => return .number (Float.ofNat (← Action.elements id).size)
  | .dict id => return .number (Float.ofNat (← Action.entries id).size)
  | other => throw (.noLength other.typeName)

def insertAt (id : ListId) (key value : Value) : Action Value := do
  let length := (← Action.elements id).size
  let position ← liftExcept (key.place length (length + 1))
  modify (·.updateList id (·.insertIdxIfInBounds position value))
  return .list id

def toNumber : Value → Action Value
  | .number x => return .number x
  | .boolean b => return .number (if b then 1 else 0)
  | .text text =>
    match Number.read? (trim text.toList) with
    | some x => return .number x
    | none => throw (.invalidNumeral text)
  | other => throw (.notNumeric other.typeName)

def act : Builtin → List Value → Action Value
  | len, [value] => length value
  | append, [.list id, value] => do
    modify (·.updateList id (·.push value))
    return .list id
  | pop, [.list id, .number x] => Action.takeElement id (.number x)
  | pop, [.list id, _] => Action.takeElement id (.number (-1))
  | insert, [.list id, key, value] => insertAt id key value
  | keys, [.dict id] => do
    Action.newList ((← Action.entries id).keys.map Value.text).toArray
  | values, [.dict id] => do Action.newList (← Action.entries id).values.toArray
  | num, [value] => toNumber value
  | round, [.number x, .number digits] => return .number (Number.roundTo x digits)
  | round, [.number x, _] => return .number (Number.roundTo x 0)
  | floor, [.number x] => return .number (Number.floor x)
  | abs, [.number x] => return .number x.abs
  | error, [.text message] => throw (.raised message)
  | _, _ => return .nothing

end Builtin

namespace Machine

def print (m : Machine) (values : List Value) (span : Span) (trace : Trace) : Eval Value := do
  let texts ← values.mapM (m.text · span trace)
  modify (·.print (" ".intercalate texts))
  return .nothing

def runBuiltin (m : Machine) (b : Builtin) (args : List Value) (span : Span) (trace : Trace) :
    Eval Value := do
  match b, args with
  | .print, [.list id] => m.print ((← get).heap.list id).toList span trace
  | .str, [value] => return .text (← m.text value span trace)
  | _, _ => .onHeap trace span (b.act args)

def invokeBuiltin (m : Machine) (b : Builtin) (args : List Value) (site : CallSite) :
    Eval Value := do
  let own ← modifyGet fun s =>
    let (own, frames) := s.frames.add
    (own, { s with frames })
  let bound ← m.bindArguments site ⟨site.trace, ⟨own, []⟩, none⟩ b.params args
  m.runBuiltin b bound site.span site.trace

def callValue (m : Machine) (callee : Value) (args : List Value) (span : Span) (caller : Trace) :
    Eval Value :=
  match callee with
  | .function closure => m.call closure args span caller
  | .builtin b => .guarded m.limit caller span (m.invokeBuiltin b args ⟨b.name, span, caller⟩)
  | .class cls => .fail caller span (.notCallable ("class " ++ cls.name))
  | other => .fail caller span (.notCallable other.typeName)

end Machine

end ScriptLang
