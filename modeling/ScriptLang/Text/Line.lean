/-! The lines of a text. -/
namespace ScriptLang.Text

def pieces : List Char → List (List Char)
  | [] => [[]]
  | c :: cs =>
    if c = '\n' then [] :: pieces cs
    else match pieces cs with
      | [] => [[c]]
      | first :: others => (c :: first) :: others

/-- `cs` without one carriage return at its end. -/
def dropReturn (cs : List Char) : List Char :=
  if cs.getLast? = some '\r' then cs.dropLast else cs

/-- The lines of a text. A line ends at a line feed, with a carriage return before it dropped; a
last line without a line feed keeps its carriage return, and an empty one is no line. -/
def lines (cs : List Char) : List (List Char) :=
  let parts := pieces cs
  let closed := parts.dropLast.map dropReturn
  match parts.getLast? with
  | some (c :: rest) => closed ++ [c :: rest]
  | _ => closed

end ScriptLang.Text
