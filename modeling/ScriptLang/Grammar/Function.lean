import ScriptLang.Grammar.Block

/-! Functions and their parameters. -/
namespace ScriptLang.Parser

def typeName : Parser String := do
  match ← kind with
  | .identifier name => discard advance; return name
  | .keyword .classWord => discard advance; return "class"
  | _ => unexpected "a type name"

/-- `name`, with `...` before it if it takes the rest, `?` behind it if it may be left out, then a
type and a default value if wanted. A rest parameter is a list. -/
def param (g : Grammar) : Parser (Param Node) := do
  let start ← here
  let isRest ← eat .ellipsis
  let (name, nameSpan) ← expectIdentifier "a parameter name"
  let marked ← eat .question
  let declared ← if ← eat .colon then some <$> typeName else pure none
  let fallback ← if ← eat .equal then some <$> g.expression else pure none
  let span := match fallback with
    | some node => (start.cover nameSpan).cover node.span
    | none => start.cover nameSpan
  let isOptional := marked || fallback.isSome
  if isRest && isOptional then fault .optionalRest span
  let typeName := if isRest then some (declared.getD "list") else declared
  return ⟨name, typeName, isRest, isOptional, fallback, span.cover (← previous)⟩

def checkParam (read : Array (Param Node)) (next : Param Node) : Parser Unit := do
  if let some last := read.back? then
    if last.isRest then fault .parameterAfterRest next.span
    if last.isOptional && !next.isOptional && !next.isRest then
      fault .mandatoryAfterOptional next.span
  if read.any (·.name = next.name) then fault (.duplicateParameter next.name) next.span

def nextParam (g : Grammar) (read : Array (Param Node)) :
    Parser (Turn (Array (Param Node)) (List (Param Node))) := do
  let next ← param g
  checkParam read next
  skipNewlines
  if ← eat .comma then
    skipNewlines
    return .next (read.push next)
  else
    discard (expect .rightParen "',' or ')'")
    return .done (read.push next).toList

def params (g : Grammar) : Parser (List (Param Node)) := do
  discard (expect .leftParen "'('")
  skipNewlines
  if ← eat .rightParen then return []
  loop (nextParam g) #[]

/-- What follows the parameters: `-> expression`, or `:` and a body. -/
def functionTail (g : Grammar) (name : Option String) (params : List (Param Node)) (start : Span) :
    Parser (FunctionDef Node) := do
  if ← eat .arrow then
    let body ← g.expression
    return ⟨← freshId, name, params, body, true, start.cover (← previous)⟩
  else if ← eat .colon then
    let (body, _) ← body g
    return ⟨← freshId, name, params, body, false, start.cover (← previous)⟩
  else unexpected "'->' or ':'"

/-- `func name(params)` and what follows. The body belongs to no constructor; the parameters still
belong to what surrounds the function. -/
def function (g : Grammar) : Parser Node := do
  let start := (← advance).span
  let name ← match ← kind with
    | .identifier name => discard advance; pure (some name)
    | _ => pure none
  let params ← params g
  let definition ← inConstructor false (functionTail g name params start)
  return ⟨.function definition, definition.span⟩

end ScriptLang.Parser
