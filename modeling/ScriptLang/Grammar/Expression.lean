import ScriptLang.Grammar.Chain

/-! Expressions, by precedence. -/
namespace ScriptLang.Parser

/-- What a token means behind an operand of some level: an operator of the level, an operator that
assigns, or a run of `++` and `--`. -/
inductive LevelOp where
  | binary (op : BinaryOp)
  | compound (op : BinaryOp)
  | increments

def conditionOp : TokenKind Token → Option LevelOp
  | .keyword .andWord | .symbol .ampersandAmpersand => some (.binary .and)
  | .keyword .orWord | .symbol .pipePipe => some (.binary .or)
  | .symbol .ampersandAmpersandEqual => some (.compound .and)
  | .symbol .pipePipeEqual => some (.compound .or)
  | _ => none

def comparisonOp : TokenKind Token → Option LevelOp
  | .symbol .equalEqual => some (.binary .equal)
  | .symbol .bangEqual => some (.binary .notEqual)
  | .symbol .less => some (.binary .less)
  | .symbol .greater => some (.binary .greater)
  | .symbol .lessEqual => some (.binary .lessEqual)
  | .symbol .greaterEqual => some (.binary .greaterEqual)
  | .symbol .questionQuestion => some (.binary .nullish)
  | .symbol .questionQuestionEqual => some (.compound .nullish)
  | _ => none

def bitwiseOp : TokenKind Token → Option LevelOp
  | .symbol .shiftLeft => some (.binary .shiftLeft)
  | .symbol .shiftRight => some (.binary .shiftRight)
  | .symbol .shiftRightZero => some (.binary .shiftRightZero)
  | .symbol .ampersand => some (.binary .bitAnd)
  | .symbol .pipe => some (.binary .bitOr)
  | .symbol .caretCaret => some (.binary .bitXor)
  | .keyword .instanceofWord => some (.binary .instanceOf)
  | .symbol .shiftLeftEqual => some (.compound .shiftLeft)
  | .symbol .shiftRightEqual => some (.compound .shiftRight)
  | .symbol .shiftRightZeroEqual => some (.compound .shiftRightZero)
  | .symbol .ampersandEqual => some (.compound .bitAnd)
  | .symbol .pipeEqual => some (.compound .bitOr)
  | .symbol .caretCaretEqual => some (.compound .bitXor)
  | _ => none

def sumOp : TokenKind Token → Option LevelOp
  | .symbol .plus => some (.binary .add)
  | .symbol .minus => some (.binary .subtract)
  | .symbol .plusEqual => some (.compound .add)
  | .symbol .minusEqual => some (.compound .subtract)
  | .symbol .plusPlus | .symbol .minusMinus => some .increments
  | _ => none

def termOp : TokenKind Token → Option LevelOp
  | .symbol .star => some (.binary .multiply)
  | .symbol .slash => some (.binary .divide)
  | .symbol .percent => some (.binary .modulo)
  | .symbol .starEqual => some (.compound .multiply)
  | .symbol .slashEqual => some (.compound .divide)
  | .symbol .percentEqual => some (.compound .modulo)
  | .symbol .starStarEqual | .symbol .caretEqual => some (.compound .power)
  | _ => none

def nextOperand (g : Grammar) (operand : Parser Node) (op? : TokenKind Token → Option LevelOp)
    (left : Node) : Parser (Turn Node Node) := do
  match op? (← kind) with
  | none => return .done left
  | some (.binary op) =>
    discard advance
    return .next (.binary op left (← operand))
  | some (.compound op) => return .done (← compound g op left)
  | some .increments =>
    let (delta, span) ← increments
    return .next (← increment left delta span)

/-- Operands with operators of one level between them, grouped from the left. An operator that
assigns takes everything behind it and ends the level. -/
def level (g : Grammar) (operand : Parser Node) (op? : TokenKind Token → Option LevelOp) :
    Parser Node := do
  loop (nextOperand g operand op?) (← operand)

def unaryOp? : TokenKind Token → Option UnaryOp
  | .symbol .plus => some .plus
  | .symbol .minus => some .minus
  | .symbol .tilde => some .bitNot
  | .keyword .typeofWord => some .typeOf
  | _ => none

def factor (g : Grammar) : Parser Node := do
  match unaryOp? (← kind) with
  | some op =>
    let start := (← advance).span
    let operand ← nested g.factor
    return ⟨.unary op operand, start.cover operand.span⟩
  | none =>
    match ← kind with
    | .symbol .plusPlus | .symbol .minusMinus =>
      let (delta, span) ← increments
      increment (← chain g) delta span
    | _ => chain g

/-- Powers, grouped from the right. -/
def power (g : Grammar) : Parser Node := do
  let base ← factor g
  match ← kind with
  | .symbol .starStar | .symbol .caret =>
    discard advance
    return .binary .power base (← nested g.power)
  | _ => return base

def term (g : Grammar) : Parser Node := level g (power g) termOp

def sum (g : Grammar) : Parser Node := level g (term g) sumOp

def bitwise (g : Grammar) : Parser Node := level g (sum g) bitwiseOp

def comparison (g : Grammar) : Parser Node := do
  match ← kind with
  | .keyword .notWord | .symbol .bang =>
    let start := (← advance).span
    let operand ← g.comparison
    return ⟨.unary .not operand, start.cover operand.span⟩
  | _ => level g (bitwise g) comparisonOp

def condition (g : Grammar) : Parser Node := level g (comparison g) conditionOp

/-- `var name = value`. -/
def declaration (g : Grammar) : Parser Node := do
  let start := (← advance).span
  let (name, _) ← expectIdentifier "a variable name"
  discard (expect .equal "'='")
  let value ← g.expression
  return ⟨.declare name value, start.cover value.span⟩

def expression (g : Grammar) : Parser Node := nested do
  if ← atKeyword .varWord then declaration g
  else
    let node ← condition g
    if ← eat .equal then assign node (← g.expression)
    else return node

end ScriptLang.Parser
