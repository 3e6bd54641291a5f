import ScriptLang.Grammar.Parser

/-! Sequences of statements. -/
namespace ScriptLang.Parser

def statements (g : Grammar) : Parser (List Node) := do
  skipNewlines
  if ← atBlockEnd then return []
  let turn (read : Array Node) : Parser (Turn (Array Node) (Array Node)) := do
    if !(← atNewline) then return .done read
    skipNewlines
    if ← atBlockEnd then return .done read
    return .next (read.push (← g.statement))
  return (← loop turn #[← g.statement]).toList

def block (g : Grammar) : Parser Node := do
  let start ← here
  let body ← statements g
  match body.head?, body.getLast? with
  | some first, some last => return ⟨.block body, first.span.cover last.span⟩
  | _, _ => fault .emptyBlock start

def blockOrStatement (g : Grammar) : Parser (Node × Bool) := do
  if ← atNewline then return (← block g, true)
  else return (← g.statement, false)

/-- What a loop or a function holds: a block closed by `end`, or a statement; and which of the two it
was. -/
def body (g : Grammar) : Parser (Node × Bool) := do
  let (node, isBlock) ← blockOrStatement g
  if isBlock then discard (expectKeyword .endWord)
  return (node, isBlock)

end ScriptLang.Parser
