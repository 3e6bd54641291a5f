import ScriptLang.Grammar.Assignment
import ScriptLang.Grammar.Block

/-! Conditionals, loops and switches. In each of them the first word is at hand. -/
namespace ScriptLang.Parser

/-- `condition: body`, and whether the body is a block. -/
def branch (g : Grammar) : Parser (Branch Node × Bool) := do
  let condition ← g.expression
  discard (expect .colon "':'")
  let (body, isBlock) ← blockOrStatement g
  return (⟨condition, body, isBlock⟩, isBlock)

/-- What follows the branches of a conditional, which are `read`, the last one with a block for its
body or not. Behind a statement, `elif` and `else` may stand on a later line; if none does, the line
breaks in between are left alone. -/
def otherBranches (g : Grammar) (start : Span) :
    Array (Branch Node) × Bool → Parser (Turn (Array (Branch Node) × Bool) Node)
  | (read, lastIsBlock) => do
    let before ← get
    unless lastIsBlock do skipNewlines
    if ← eatKeyword .elifWord then
      let (next, isBlock) ← branch g
      return .next (read.push next, isBlock)
    else if ← eatKeyword .elseWord then
      discard (eat .colon)
      let (otherwise, isBlock) ← blockOrStatement g
      if isBlock then discard (expectKeyword .endWord)
      return .done ⟨.conditional read.toList (some otherwise) isBlock, start.cover (← previous)⟩
    else
      set before
      if lastIsBlock then discard (expectKeyword .endWord)
      return .done ⟨.conditional read.toList none false, start.cover (← previous)⟩

/-- `if condition: body`, then any number of `elif condition: body`, then `else: body` if wanted. -/
def conditional (g : Grammar) : Parser Node := do
  let start := (← advance).span
  let (first, isBlock) ← branch g
  loop (otherBranches g start) (#[first], isBlock)

/-- `for name = start to stop step step: body`, where the start and the step may be left out. -/
def countingLoop (g : Grammar) : Parser Node := do
  let start := (← advance).span
  let (name, _) ← expectIdentifier "a loop variable"
  let first ← if ← eat .equal then some <$> g.expression else pure none
  discard (expectKeyword .toWord)
  let stop ← g.expression
  let step ← if ← eatKeyword .stepWord then some <$> g.expression else pure none
  discard (expect .colon "':'")
  let (body, discarded) ← body g
  return ⟨.countingLoop name first stop step body discarded, start.cover (← previous)⟩

/-- `foreach items as value: body` or `foreach items as key, value: body`. -/
def eachLoop (g : Grammar) : Parser Node := do
  let start := (← advance).span
  let items ← g.expression
  discard (expectKeyword .asWord)
  let (first, _) ← expectIdentifier "a loop variable"
  let second ←
    if ← eat .comma then (fun name => some name.1) <$> expectIdentifier "a loop variable"
    else pure none
  let (key, value) := match second with
    | some second => (some first, second)
    | none => (none, first)
  discard (expect .colon "':'")
  let (body, discarded) ← body g
  return ⟨.eachLoop items key value body discarded, start.cover (← previous)⟩

/-- `while condition: body`. -/
def whileLoop (g : Grammar) : Parser Node := do
  let start := (← advance).span
  let condition ← g.expression
  discard (expect .colon "':'")
  let (body, discarded) ← body g
  return ⟨.whileLoop condition body discarded, start.cover (← previous)⟩

abbrev SwitchBranches := Array (Node × Node) × Option Node

def switchBranch (g : Grammar) (subject : Node) :
    SwitchBranches → Parser (Turn SwitchBranches SwitchBranches)
  | (cases, otherwise) => do
    if ← eatKeyword .caseWord then
      if otherwise.isSome then fault .caseAfterDefault (← previous)
      let value ← g.expression
      discard (expect .colon "':'")
      let body ← block g
      return .next (cases.push (.binary .equal subject value, body), otherwise)
    else if ← eatKeyword .defaultWord then
      if otherwise.isSome then fault .secondDefault (← previous)
      discard (expect .colon "':'")
      return .next (cases, some (← block g))
    else return .done (cases, otherwise)

/-- `switch subject:` and branches up to `end`. -/
def switch (g : Grammar) : Parser Node := do
  let start := (← advance).span
  let subject ← g.expression
  discard (expect .colon "':'")
  if !(← atNewline) then unexpected "a newline after 'switch ...:'"
  skipNewlines
  let (cases, otherwise) ← loop (switchBranch g subject) (#[], none)
  discard (expectKeyword .endWord)
  return ⟨.switch cases.toList otherwise, start.cover (← previous)⟩

end ScriptLang.Parser
