import ScriptLang.Grammar.Class
import ScriptLang.Grammar.Expression

/-! Statements and programs. -/
namespace ScriptLang

namespace Parser

/-- `return`, with a value unless the line or the block ends here. -/
def returnStatement (g : Grammar) : Parser Node := do
  let start := (← advance).span
  if (← atNewline) || (← atBlockEnd) then return ⟨.returnWith none, start⟩
  let value ← g.expression
  return ⟨.returnWith (some value), start.cover value.span⟩

/-- `define name = value`. -/
def constantDeclaration (g : Grammar) : Parser Node := do
  let start := (← advance).span
  let (name, _) ← expectIdentifier "a constant name"
  discard (expect .equal "'='")
  let value ← g.expression
  return ⟨.declareConstant name value, start.cover value.span⟩

def isDeletable (target : Node) : Bool :=
  match target.shape with
  | .lookup _ | .index _ (.single _) false => true
  | _ => false

/-- `delete target`. -/
def deletion (g : Grammar) : Parser Node := do
  let start := (← advance).span
  let target ← chain g
  if !isDeletable target then fault .invalidDeletion target.span
  return ⟨.delete target, start.cover target.span⟩

/-- `super(…)`, in the body of a constructor. -/
def superCall (g : Grammar) : Parser Node := do
  let start := (← advance).span
  if !(← read).inConstructor then fault .superOutsideConstructor start
  let args ← arguments g
  return ⟨.superCall args, start.cover (← previous)⟩

/-- One member of an enumeration and what separates it from the next one; in a block it may be the
end of the line. -/
def nextEnumMember (inBlock : Bool) (read : Array String) :
    Parser (Turn (Array String) (List String)) := do
  if inBlock then
    skipNewlines
    if ← atKeyword .endWord then return .done read.toList
  let (name, span) ← expectIdentifier "an enum member"
  if read.contains name then fault (.duplicateEnumMember name) span
  let more ← eat .comma
  if more || (inBlock && (← atNewline)) then return .next (read.push name)
  else return .done (read.push name).toList

/-- `enum name:` and members, on the line or in a block up to `end`. -/
def enumeration : Parser Node := do
  let start := (← advance).span
  let (name, _) ← expectIdentifier "an enum name"
  discard (expect .colon "':'")
  let inBlock ← atNewline
  let members ← loop (nextEnumMember inBlock) #[]
  if inBlock then
    skipNewlines
    discard (expectKeyword .endWord)
  if members.isEmpty then fault .emptyEnum start
  return ⟨.enumeration name members, start.cover (← previous)⟩

def statement (g : Grammar) : Parser Node := do
  match ← kind with
  | .keyword .returnWord => returnStatement g
  | .keyword .continueWord => leaf .continueLoop
  | .keyword .breakWord => leaf .breakLoop
  | .keyword .passWord => leaf .pass
  | .keyword .classWord => classDefinition g
  | .keyword .enumWord => enumeration
  | .keyword .defineWord => constantDeclaration g
  | .keyword .deleteWord => deletion g
  | .keyword .superWord =>
    if (← get).stream.peek.isSymbol .leftParen then superCall g else expression g
  | _ => expression g

def program (g : Grammar) : Parser Program := do
  let read ← statements g
  if !(← kind).isEnd then unexpected "an operator or a newline"
  return read

end Parser

namespace Grammar

mutual

def expressionAt : (depth : Nat) → Parser Node
  | 0 => throw .exhausted
  | depth + 1 => Parser.expression
      ⟨expressionAt depth, comparisonAt depth, powerAt depth, factorAt depth, statementAt depth⟩

def comparisonAt : (depth : Nat) → Parser Node
  | 0 => throw .exhausted
  | depth + 1 => Parser.comparison
      ⟨expressionAt depth, comparisonAt depth, powerAt depth, factorAt depth, statementAt depth⟩

def powerAt : (depth : Nat) → Parser Node
  | 0 => throw .exhausted
  | depth + 1 => Parser.power
      ⟨expressionAt depth, comparisonAt depth, powerAt depth, factorAt depth, statementAt depth⟩

def factorAt : (depth : Nat) → Parser Node
  | 0 => throw .exhausted
  | depth + 1 => Parser.factor
      ⟨expressionAt depth, comparisonAt depth, powerAt depth, factorAt depth, statementAt depth⟩

def statementAt : (depth : Nat) → Parser Node
  | 0 => throw .exhausted
  | depth + 1 => Parser.statement
      ⟨expressionAt depth, comparisonAt depth, powerAt depth, factorAt depth, statementAt depth⟩

end

def upTo (depth : Nat) : Grammar :=
  ⟨expressionAt depth, comparisonAt depth, powerAt depth, factorAt depth, statementAt depth⟩

end Grammar

/-- The program that tokens make up, and the id behind those of its functions, which count from
`firstId`. A part that holds another one takes a token of its own, and so does a turn of a loop that is
not its last, so the tokens bound both. -/
def Program.parse (firstId : Nat) (tokens : List Token) :
    Except (Stop SyntaxError) (Program × Nat) := do
  let bound := Token.weights tokens + 2
  let (program, state) ← Parser.program (.upTo bound) { turns := bound } ⟨.ofTokens tokens, firstId⟩
  return (program, state.nextId)

end ScriptLang
