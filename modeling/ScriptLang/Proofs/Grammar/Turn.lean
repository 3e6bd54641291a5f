import ScriptLang.Grammar.Statement

/-! Parts of the grammar that stand inside of others, with names of their own: the turns of loops, and
what comes behind a choice. -/
namespace ScriptLang.Parser

def nextStatement (g : Grammar) (read : Array Node) : Parser (Turn (Array Node) (Array Node)) := do
  if !(← atNewline) then return .done read
  skipNewlines
  if ← atBlockEnd then return .done read
  return .next (read.push (← g.statement))

theorem statements_eq (g : Grammar) : statements g = (do
    skipNewlines
    if ← atBlockEnd then return []
    return (← loop (nextStatement g) #[← g.statement]).toList) := rfl

def IsIncrement (k : TokenKind Token) : Prop := k = .symbol .plusPlus ∨ k = .symbol .minusMinus

def nextIncrement (delta : Int) : Parser (Turn Int Int) := do
  match ← kind with
  | .symbol .plusPlus => discard advance; return .next (delta + 1)
  | .symbol .minusMinus => discard advance; return .next (delta - 1)
  | _ => return .done delta

theorem increments_eq : increments = (do
    let start ← here
    let delta ← loop nextIncrement 0
    return (delta, start.cover (← previous))) := rfl

/-- The end of a conditional without a last branch, which goes back to the state `before`. -/
def closeConditional (start : Span) (read : Array (Branch Node)) (lastIsBlock : Bool)
    (before : ParseState) : Parser (Turn (Array (Branch Node) × Bool) Node) := do
  set before
  if lastIsBlock then discard (expectKeyword .endWord)
  return .done ⟨.conditional read.toList none false, start.cover (← previous)⟩

def lastBranch (g : Grammar) (start : Span) (read : Array (Branch Node)) :
    Parser (Turn (Array (Branch Node) × Bool) Node) := do
  discard (eat .colon)
  let (otherwise, isBlock) ← blockOrStatement g
  if isBlock then discard (expectKeyword .endWord)
  return .done ⟨.conditional read.toList (some otherwise) isBlock, start.cover (← previous)⟩

def nextBranch (g : Grammar) (start : Span) (read : Array (Branch Node)) (lastIsBlock : Bool)
    (before : ParseState) : Parser (Turn (Array (Branch Node) × Bool) Node) := do
  if ← eatKeyword .elifWord then
    let (next, isBlock) ← branch g
    return .next (read.push next, isBlock)
  else if ← eatKeyword .elseWord then lastBranch g start read
  else closeConditional start read lastIsBlock before

theorem otherBranches_eq (g : Grammar) (start : Span) (read : Array (Branch Node))
    (lastIsBlock : Bool) : otherBranches g start (read, lastIsBlock) = (do
      let before ← get
      unless lastIsBlock do skipNewlines
      nextBranch g start read lastIsBlock before) := rfl

def leaveCode (outer : Stream) (node : Node) : Parser Node := do
  if !(← kind).isEnd then unexpected "'\x7d'"
  modify fun s => { s with stream := outer }
  return node

def endMember (body : ClassBody) : Parser (Turn ClassBody ClassBody) := do
  if !(← atNewline) && !(← atKeyword .endWord) then unexpected "a newline"
  return .next body

def enumMember (inBlock : Bool) (read : Array String) :
    Parser (Turn (Array String) (List String)) := do
  let (name, span) ← expectIdentifier "an enum member"
  if read.contains name then fault (.duplicateEnumMember name) span
  let more ← eat .comma
  if more || (inBlock && (← atNewline)) then return .next (read.push name)
  else return .done (read.push name).toList

def endEnumeration (start : Span) (name : String) (inBlock : Bool) (members : List String) :
    Parser Node := do
  if inBlock then
    skipNewlines
    discard (expectKeyword .endWord)
  if members.isEmpty then fault .emptyEnum start
  return ⟨.enumeration name members, start.cover (← previous)⟩

/-- What tokens mean behind an operand: ends and templates mean nothing there, and runs of `++` and `--`
begin with one of their signs. -/
structure Judges (op? : TokenKind Token → Option LevelOp) : Prop where
  atEnd : op? .endOfInput = none
  atNewline : op? .newline = none
  template (segments) : op? (.template segments) = none
  increments {k} (h : op? k = some .increments) : IsIncrement k

theorem termOp_judges : Judges termOp := by
  refine ⟨rfl, rfl, fun _ => rfl, fun h => ?_⟩
  unfold termOp at h
  split at h <;> cases h

theorem sumOp_judges : Judges sumOp := by
  refine ⟨rfl, rfl, fun _ => rfl, fun h => ?_⟩
  unfold sumOp at h
  split at h <;> cases h
  · exact .inl rfl
  · exact .inr rfl

theorem bitwiseOp_judges : Judges bitwiseOp := by
  refine ⟨rfl, rfl, fun _ => rfl, fun h => ?_⟩
  unfold bitwiseOp at h
  split at h <;> cases h

theorem comparisonOp_judges : Judges comparisonOp := by
  refine ⟨rfl, rfl, fun _ => rfl, fun h => ?_⟩
  unfold comparisonOp at h
  split at h <;> cases h

theorem conditionOp_judges : Judges conditionOp := by
  refine ⟨rfl, rfl, fun _ => rfl, fun h => ?_⟩
  unfold conditionOp at h
  split at h <;> cases h

end ScriptLang.Parser
