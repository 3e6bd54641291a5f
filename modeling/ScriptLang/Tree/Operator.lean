/-! Operators of the syntax tree. -/
namespace ScriptLang

inductive BinaryOp where
  | add | subtract | multiply | divide | modulo | power
  | shiftLeft | shiftRight | shiftRightZero | bitAnd | bitOr | bitXor
  | equal | notEqual | less | greater | lessEqual | greaterEqual
  | and | or | nullish | instanceOf
  deriving DecidableEq

def BinaryOp.symbol : BinaryOp → String
  | .add => "+"
  | .subtract => "-"
  | .multiply => "*"
  | .divide => "/"
  | .modulo => "%"
  | .power => "**"
  | .shiftLeft => "<<"
  | .shiftRight => ">>"
  | .shiftRightZero => ">>>"
  | .bitAnd => "&"
  | .bitOr => "|"
  | .bitXor => "^^"
  | .equal => "=="
  | .notEqual => "!="
  | .less => "<"
  | .greater => ">"
  | .lessEqual => "<="
  | .greaterEqual => ">="
  | .and => "and"
  | .or => "or"
  | .nullish => "??"
  | .instanceOf => "instanceof"

inductive UnaryOp where
  | plus | minus | bitNot | not | typeOf
  deriving DecidableEq

def UnaryOp.symbol : UnaryOp → String
  | .plus => "+"
  | .minus => "-"
  | .bitNot => "~"
  | .not => "not "
  | .typeOf => "typeof "

end ScriptLang
