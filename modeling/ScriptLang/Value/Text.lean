import ScriptLang.Number.Shortest
import ScriptLang.Text.Quoted
import ScriptLang.Value.Heap

/-! The text of values. -/
namespace ScriptLang.Value

def maxShownDepth : Nat := 32

def listText (elements : List String) : String := "[" ++ ", ".intercalate elements ++ "]"

def dictText (entries : List (String × String)) : String :=
  "\x7b" ++ ", ".intercalate (entries.map fun (key, value) => Text.quote key ++ ": " ++ value) ++ "\x7d"

def hiddenList : String := "[...]"

def hiddenDict : String := "\x7b...\x7d"

def atomText : Value → String
  | nothing => "none"
  | number value => Number.text value
  | text value => value
  | boolean value => if value then "true" else "false"
  | list _ => hiddenList
  | dict _ => hiddenDict
  | function closure => "<function " ++ closure.code.label ++ ">"
  | builtin b => "<native function " ++ b.name ++ ">"
  | .class cls => "<class " ++ cls.name ++ ">"
  | .instance object => "<" ++ object.cls.name ++ " instance>"

/-- The text of a value in a collection, where a text is quoted and anything else is as it is `shown`. -/
def elementText (shown : Value → String) : Value → String
  | text value => Text.quote value
  | value => shown value

theorem elementText_of_ne {v : Value} (shown : Value → String) (h : ∀ value, v ≠ .text value) :
    elementText shown v = shown v := by
  cases v with
  | text value => exact absurd rfl (h value)
  | _ => rfl

/-- The text of a value inside of the collections `around`, which may be nested `room` deeper. A
collection in itself is not shown again. -/
def nestedText (h : Heap) : (room : Nat) → (around : List Handle) → Value → String
  | room + 1, around, .list id =>
    if around.contains (.list id) then hiddenList
    else listText ((h.list id).toList.map (elementText (nestedText h room (.list id :: around))))
  | room + 1, around, .dict id =>
    if around.contains (.dict id) then hiddenDict
    else dictText ((h.dict id).toList.map fun (key, value) =>
      (key, elementText (nestedText h room (.dict id :: around)) value))
  | _, _, value => atomText value

def toText (h : Heap) (value : Value) : String := nestedText h maxShownDepth [] value

def inspect (h : Heap) : Value → String
  | nothing => "None"
  | number value => "Number(" ++ Number.text value ++ ")"
  | text value => "String(" ++ Text.quote value ++ ")"
  | boolean value => "Boolean(" ++ (if value then "true" else "false") ++ ")"
  | list id => "List(" ++ toText h (list id) ++ ")"
  | dict id => "Dict(" ++ toText h (dict id) ++ ")"
  | value => toText h value

end ScriptLang.Value
