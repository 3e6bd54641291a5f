import ScriptLang.Grammar.Error
import ScriptLang.Grammar.Stream
import ScriptLang.Stop
import ScriptLang.Tree.Node
import ScriptLang.Turn

/-! Parsers: readers of a part of a token stream. -/
namespace ScriptLang

/-- What surrounds the place that is read: how many turns a loop can take at most, how deep expressions
are nested, and whether it belongs to the body of a constructor. -/
structure Surroundings where
  turns : Nat
  depth : Nat := 0
  inConstructor : Bool := false

structure ParseState where
  stream : Stream
  nextId : Nat

abbrev Parser := ReaderT Surroundings (StateT ParseState (Except (Stop SyntaxError)))

/-- The parts of the grammar that contain themselves, as they are available inside of them. -/
structure Grammar where
  expression : Parser Node
  comparison : Parser Node
  power : Parser Node
  factor : Parser Node
  statement : Parser Node

namespace Parser

variable {α β : Type}

def fault (cause : SyntaxCause) (span : Span) : Parser α := throw (.fault ⟨cause, span⟩)

def current : Parser Token := return (← get).stream.current

def kind : Parser (TokenKind Token) := return (← current).kind

def here : Parser Span := return (← current).span

def previous : Parser Span := return (← get).stream.previous

def unexpected (what : String) : Parser α := do fault (.expected what (← kind)) (← here)

def advance : Parser Token := do
  let token ← current
  modify fun s => { s with stream := s.stream.advance }
  return token

def skipNewlines : Parser Unit := modify fun s => { s with stream := s.stream.skipNewlines }

def atSymbol (sign : Symbol) : Parser Bool := return (← kind).isSymbol sign

def atKeyword (word : Keyword) : Parser Bool := return (← kind).isKeyword word

def atNewline : Parser Bool := return (← kind).isNewline

def eat (sign : Symbol) : Parser Bool := do
  if ← atSymbol sign then
    discard advance
    return true
  else return false

def eatKeyword (word : Keyword) : Parser Bool := do
  if ← atKeyword word then
    discard advance
    return true
  else return false

def expect (sign : Symbol) (what : String) : Parser Token := do
  if ← atSymbol sign then advance else unexpected what

def expectKeyword (word : Keyword) : Parser Token := do
  if ← atKeyword word then advance else unexpected ("'" ++ word.spelling ++ "'")

def expectIdentifier (what : String) : Parser (String × Span) := do
  match ← kind with
  | .identifier name => return (name, (← advance).span)
  | _ => unexpected what

def freshId : Parser Nat := modifyGet fun s => (s.nextId, { s with nextId := s.nextId + 1 })

def nested (p : Parser α) : Parser α := do
  if (← read).depth < maxNesting then
    withReader (fun r => { r with depth := r.depth + 1 }) p
  else fault .nestingTooDeep (← here)

def inConstructor (flag : Bool) (p : Parser α) : Parser α :=
  withReader (fun r => { r with inConstructor := flag }) p

def iterate (turn : β → Parser (Turn β α)) : Nat → β → Parser α
  | 0, _ => throw .exhausted
  | turns + 1, state => do
    match ← turn state with
    | .next state => iterate turn turns state
    | .done result => return result

/-- Takes turns from `state` on until one is the last. Every turn but the last takes a token. -/
def loop (turn : β → Parser (Turn β α)) (state : β) : Parser α := do
  iterate turn (← read).turns state

def endsBlock : Keyword → Bool
  | .endWord | .elifWord | .elseWord | .caseWord | .defaultWord => true
  | _ => false

def atBlockEnd : Parser Bool := do
  match ← kind with
  | .endOfInput => return true
  | .keyword word => return endsBlock word
  | _ => return false

end Parser

end ScriptLang
