import ScriptLang.Eval.Call
import ScriptLang.Value.Text

/-! The text of values for a running program: an instance can give its own. -/
namespace ScriptLang.Machine

def hiddenInstance : String := "..."

/-- The text of a value inside of `around`, with `room` for more collections and instances. The text
that an instance gives stands as it is; if it gives another value, that one is shown. -/
def nestedText (m : Machine) (span : Span) (trace : Trace) :
    (room : Nat) → (around : List Handle) → Value → Eval String
  | room + 1, around, .list id => do
    if around.contains (.list id) then return Value.hiddenList
    let elements := ((← get).heap.list id).toList
    return Value.listText (← elements.mapM (nestedText m span trace room (.list id :: around)))
  | room + 1, around, .dict id => do
    if around.contains (.dict id) then return Value.hiddenDict
    let entries := ((← get).heap.dict id).toList
    return Value.dictText (← entries.mapM fun (key, value) =>
      return (key, ← nestedText m span trace room (.dict id :: around) value))
  | 0, _, .instance object =>
    return if object.textMethod?.isSome then hiddenInstance else Value.atomText (.instance object)
  | room + 1, around, .instance object => do
    match object.textMethod? with
    | none => return Value.atomText (.instance object)
    | some method =>
      if around.contains (.instance object.id) then return hiddenInstance
      match ← m.call method [] span trace with
      | .text text => return text
      | other => nestedText m span trace room (.instance object.id :: around) other
  | _, around, .text value => return if around.isEmpty then value else Text.quote value
  | _, _, value => return value.atomText

def text (m : Machine) (value : Value) (span : Span) (trace : Trace) : Eval String :=
  m.nestedText span trace Value.maxShownDepth [] value

end ScriptLang.Machine
