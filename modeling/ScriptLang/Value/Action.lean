import ScriptLang.Value.Cause
import ScriptLang.Value.Heap

/-! Actions on the heap. -/
namespace ScriptLang

/-- An action on the heap that can fail. A failed action leaves the heap that it got to. -/
abbrev Action := EStateM EvalCause Heap

namespace Action

def elements (id : ListId) : Action (Array Value) := return (← get).list id

def entries (id : DictId) : Action (Dict Value) := return (← get).dict id

def newList (elements : Array Value) : Action Value := modifyGet (·.addList elements)

def newDict (entries : Dict Value) : Action Value := modifyGet (·.addDict entries)

def checkLength (typeName : String) (length : Nat) : Action Unit := do
  if maxLength < length then throw (.tooLarge typeName)

end Action

end ScriptLang
