import ScriptLang.Grammar.Atom

/-! Chains of calls, indices and member names behind an atom. -/
namespace ScriptLang.Parser

def nextArgument (g : Grammar) (read : Array Node) : Parser (Turn (Array Node) (List Node)) := do
  let argument ← g.expression
  skipNewlines
  if ← eat .comma then
    skipNewlines
    return .next (read.push argument)
  else
    discard (expect .rightParen "',' or ')'")
    return .done (read.push argument).toList

def arguments (g : Grammar) : Parser (List Node) := do
  discard (expect .leftParen "'('")
  skipNewlines
  if ← eat .rightParen then return []
  loop (nextArgument g) #[]

/-- A call of `callee`. -/
def call (g : Grammar) (optional : Bool) (callee : Node) : Parser Node := do
  let args ← arguments g
  return ⟨.call callee args optional, callee.span.cover (← previous)⟩

def sliceBound (g : Grammar) : Parser (Option Node) := do
  if ← atSymbol .rightBracket then return none
  else some <$> g.expression

def indexParts (g : Grammar) : Parser (Index Node) := do
  if ← atSymbol .rightBracket then return .push
  if ← eat .colon then return .slice none (← sliceBound g)
  let first ← g.expression
  if ← eat .colon then return .slice (some first) (← sliceBound g)
  return .single first

/-- An index into `target`. Empty brackets need an assignment behind them. -/
def index (g : Grammar) (optional : Bool) (target : Node) : Parser Node := do
  let opening ← expect .leftBracket "'['"
  let index ← indexParts g
  let close ← expect .rightBracket "']'"
  if let .push := index then
    if !(← atSymbol .equal) then fault .misplacedPush (opening.span.cover close.span)
  return ⟨.index target index optional, target.span.cover close.span⟩

def links (g : Grammar) (optional : Bool) (node : Node) : Parser Node :=
  loop (fun node => do
    if ← atSymbol .leftParen then return .next (← call g optional node)
    else if ← atSymbol .leftBracket then return .next (← index g optional node)
    else return .done node) node

/-- `new name` with arguments if wanted. -/
def instantiation (g : Grammar) : Parser Node := do
  let start := (← advance).span
  let (name, nameSpan) ← expectIdentifier "a class name after 'new'"
  let args ← if ← atSymbol .leftParen then arguments g else pure []
  return ⟨.instantiate ⟨.lookup name, nameSpan⟩ args, start.cover (← previous)⟩

def chainHead (g : Grammar) : Parser Node := do
  let node ← if ← atKeyword .newWord then instantiation g else atom g
  links g false node

def memberSign : TokenKind Token → Option (Bool × Bool)
  | .symbol .dot => some (false, false)
  | .symbol .colonColon => some (true, false)
  | .symbol .questionDot => some (false, true)
  | .symbol .questionColonColon => some (true, true)
  | _ => none

/-- One link of a chain behind `node`, with the calls and indices behind it. From the first null-safe
link on, all of them are null-safe. -/
def nextLink (g : Grammar) : Node × Bool → Parser (Turn (Node × Bool) Node)
  | (node, optional) => do
    match memberSign (← kind) with
    | none => return .done node
    | some (isStatic, isOptional) =>
      discard advance
      let optional := optional || isOptional
      if isOptional && !isStatic && (← atSymbol .leftParen) then
        return .next (← links g optional (← call g optional node), optional)
      if isOptional && !isStatic && (← atSymbol .leftBracket) then
        return .next (← links g optional (← index g optional node), optional)
      let (name, nameSpan) ← expectIdentifier "a member name"
      let shape := if isStatic then .staticProperty node name optional
        else .property node name optional
      return .next (← links g optional ⟨shape, node.span.cover nameSpan⟩, optional)

def chain (g : Grammar) : Parser Node := do
  loop (nextLink g) (← chainHead g, false)

end ScriptLang.Parser
