import ScriptLang.Grammar.Control
import ScriptLang.Grammar.Function

/-! The smallest parts of expressions. -/
namespace ScriptLang.Parser

def nextElement (g : Grammar) (read : Array Node) : Parser (Turn (Array Node) (List Node)) := do
  if ← atSymbol .rightBracket then return .done read.toList
  let element ← g.expression
  skipNewlines
  if ← eat .comma then
    skipNewlines
    return .next (read.push element)
  else return .done (read.push element).toList

def listLiteral (g : Grammar) : Parser Node := do
  let start := (← advance).span
  skipNewlines
  let elements ← loop (nextElement g) #[]
  let close ← expect .rightBracket "',' or ']'"
  return ⟨.list elements, start.cover close.span⟩

def key (read : Array (String × Node)) : Parser String := do
  let span ← here
  match ← kind with
  | .text key | .identifier key =>
    discard advance
    if read.any (·.1 = key) then fault (.duplicateKey key) span
    return key
  | _ => unexpected "a string or identifier key"

def nextEntry (g : Grammar) (read : Array (String × Node)) :
    Parser (Turn (Array (String × Node)) (List (String × Node))) := do
  if ← atSymbol .rightBrace then return .done read.toList
  let key ← key read
  discard (expect .colon "':'")
  skipNewlines
  let value ← g.expression
  skipNewlines
  if ← eat .comma then
    skipNewlines
    return .next (read.push (key, value))
  else return .done (read.push (key, value)).toList

def dictLiteral (g : Grammar) : Parser Node := do
  let start := (← advance).span
  skipNewlines
  let entries ← loop (nextEntry g) #[]
  let close ← expect .rightBrace "',' or '\x7d'"
  return ⟨.dict entries, start.cover close.span⟩

/-- The expression in a code segment of the template at `span`; it has to use up the tokens. -/
def interpolation (g : Grammar) (span : Span) (tokens : List Token) : Parser Node := do
  if tokens.all (·.kind.isEnd) then fault .emptyInterpolation span
  let outer := (← get).stream
  modify fun s => { s with stream := .ofTokens tokens }
  let node ← g.expression
  if !(← kind).isEnd then unexpected "'\x7d'"
  modify fun s => { s with stream := outer }
  return node

def templatePart (g : Grammar) (span : Span) : Segment Token → Parser (TemplatePart Node)
  | .text value => return .text value
  | .code tokens => return .expression (← interpolation g span tokens)

/-- `super.name`. -/
def superProperty : Parser Node := do
  let start := (← advance).span
  discard (expect .dot "'.' or '(' after 'super'")
  let (name, nameSpan) ← expectIdentifier "a method name"
  return ⟨.superProperty name, start.cover nameSpan⟩

/-- An expression in parentheses; they count to its stretch. -/
def parenthesised (g : Grammar) : Parser Node := do
  let start := (← advance).span
  skipNewlines
  let inner ← g.expression
  skipNewlines
  let close ← expect .rightParen "')'"
  return { inner with span := start.cover close.span }

def leaf (shape : Shape Node) : Parser Node := return ⟨shape, (← advance).span⟩

def atom (g : Grammar) : Parser Node := do
  match ← kind with
  | .number value => leaf (.number value)
  | .text value => leaf (.text value)
  | .template segments =>
    let span := (← advance).span
    return ⟨.template (← segments.mapM (templatePart g span)), span⟩
  | .identifier name => leaf (.lookup name)
  | .keyword .trueWord => leaf (.boolean true)
  | .keyword .falseWord => leaf (.boolean false)
  | .keyword .noneWord => leaf .nothing
  | .symbol .leftParen => parenthesised g
  | .symbol .leftBracket => listLiteral g
  | .symbol .leftBrace => dictLiteral g
  | .keyword .ifWord => conditional g
  | .keyword .forWord => countingLoop g
  | .keyword .foreachWord => eachLoop g
  | .keyword .whileWord => whileLoop g
  | .keyword .switchWord => switch g
  | .keyword .funcWord => function g
  | .keyword .superWord => superProperty
  | _ => unexpected ("a number, string, identifier, '(', '[', '\x7b', 'if', 'for', 'foreach', " ++
      "'while', 'switch' or 'func'")

end ScriptLang.Parser
