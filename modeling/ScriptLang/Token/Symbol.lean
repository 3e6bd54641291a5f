/-! Operators and delimiters. -/
namespace ScriptLang

inductive Symbol where
  | plus | minus | star | slash | percent | starStar | caret | plusPlus | minusMinus | shiftLeft
  | shiftRight | shiftRightZero | ampersand | pipe | caretCaret | tilde | equalEqual | bangEqual
  | less | greater | lessEqual | greaterEqual | bang | ampersandAmpersand | pipePipe
  | questionQuestion | plusEqual | minusEqual | starEqual | slashEqual | percentEqual
  | starStarEqual | caretEqual | caretCaretEqual | shiftLeftEqual | shiftRightEqual
  | shiftRightZeroEqual | ampersandEqual | pipeEqual | ampersandAmpersandEqual | pipePipeEqual
  | questionQuestionEqual | equal | arrow | colon | colonColon | dot | questionDot
  | questionColonColon | question | ellipsis | comma | leftParen | rightParen | leftBracket
  | rightBracket | leftBrace | rightBrace
  deriving DecidableEq

namespace Symbol

def spelling : Symbol → List Char
  | .plus => ['+']
  | .minus => ['-']
  | .star => ['*']
  | .slash => ['/']
  | .percent => ['%']
  | .starStar => ['*', '*']
  | .caret => ['^']
  | .plusPlus => ['+', '+']
  | .minusMinus => ['-', '-']
  | .shiftLeft => ['<', '<']
  | .shiftRight => ['>', '>']
  | .shiftRightZero => ['>', '>', '>']
  | .ampersand => ['&']
  | .pipe => ['|']
  | .caretCaret => ['^', '^']
  | .tilde => ['~']
  | .equalEqual => ['=', '=']
  | .bangEqual => ['!', '=']
  | .less => ['<']
  | .greater => ['>']
  | .lessEqual => ['<', '=']
  | .greaterEqual => ['>', '=']
  | .bang => ['!']
  | .ampersandAmpersand => ['&', '&']
  | .pipePipe => ['|', '|']
  | .questionQuestion => ['?', '?']
  | .plusEqual => ['+', '=']
  | .minusEqual => ['-', '=']
  | .starEqual => ['*', '=']
  | .slashEqual => ['/', '=']
  | .percentEqual => ['%', '=']
  | .starStarEqual => ['*', '*', '=']
  | .caretEqual => ['^', '=']
  | .caretCaretEqual => ['^', '^', '=']
  | .shiftLeftEqual => ['<', '<', '=']
  | .shiftRightEqual => ['>', '>', '=']
  | .shiftRightZeroEqual => ['>', '>', '>', '=']
  | .ampersandEqual => ['&', '=']
  | .pipeEqual => ['|', '=']
  | .ampersandAmpersandEqual => ['&', '&', '=']
  | .pipePipeEqual => ['|', '|', '=']
  | .questionQuestionEqual => ['?', '?', '=']
  | .equal => ['=']
  | .arrow => ['-', '>']
  | .colon => [':']
  | .colonColon => [':', ':']
  | .dot => ['.']
  | .questionDot => ['?', '.']
  | .questionColonColon => ['?', ':', ':']
  | .question => ['?']
  | .ellipsis => ['.', '.', '.']
  | .comma => [',']
  | .leftParen => ['(']
  | .rightParen => [')']
  | .leftBracket => ['[']
  | .rightBracket => [']']
  | .leftBrace => ['\x7b']
  | .rightBrace => ['\x7d']

/-- The characters to look for, one after the other, with the symbol that begins with them and the number
of characters that it takes. -/
def rules : List (List Char × Symbol × Nat) :=
  [(['+', '+'], .plusPlus, 2), (['+', '='], .plusEqual, 2), (['+'], .plus, 1),
   (['-', '-'], .minusMinus, 2), (['-', '='], .minusEqual, 2), (['-', '>'], .arrow, 2),
   (['-'], .minus, 1), (['*', '*', '='], .starStarEqual, 3), (['*', '*'], .starStar, 2),
   (['*', '='], .starEqual, 2), (['*'], .star, 1), (['/', '='], .slashEqual, 2), (['/'], .slash, 1),
   (['%', '='], .percentEqual, 2), (['%'], .percent, 1), (['^', '^', '='], .caretCaretEqual, 3),
   (['^', '^'], .caretCaret, 2), (['^', '='], .caretEqual, 2), (['^'], .caret, 1),
   (['<', '<', '='], .shiftLeftEqual, 3), (['<', '<'], .shiftLeft, 2), (['<', '='], .lessEqual, 2),
   (['<'], .less, 1), (['>', '>', '>', '='], .shiftRightZeroEqual, 4),
   (['>', '>', '>'], .shiftRightZero, 3), (['>', '>', '='], .shiftRightEqual, 3),
   (['>', '>'], .shiftRight, 2), (['>', '='], .greaterEqual, 2), (['>'], .greater, 1),
   (['&', '&', '='], .ampersandAmpersandEqual, 3), (['&', '&'], .ampersandAmpersand, 2),
   (['&', '='], .ampersandEqual, 2), (['&'], .ampersand, 1), (['|', '|', '='], .pipePipeEqual, 3),
   (['|', '|'], .pipePipe, 2), (['|', '='], .pipeEqual, 2), (['|'], .pipe, 1), (['~'], .tilde, 1),
   (['=', '='], .equalEqual, 2), (['='], .equal, 1), (['!', '='], .bangEqual, 2), (['!'], .bang, 1),
   (['?', '?', '='], .questionQuestionEqual, 3), (['?', '?'], .questionQuestion, 2),
   (['?', '.'], .questionDot, 2), (['?', ':', ':'], .questionColonColon, 3), (['?'], .question, 1),
   ([':', ':'], .colonColon, 2), ([':'], .colon, 1), (['.', '.', '.'], .ellipsis, 3), (['.'], .dot, 1),
   ([','], .comma, 1), (['('], .leftParen, 1), ([')'], .rightParen, 1), (['['], .leftBracket, 1),
   ([']'], .rightBracket, 1), (['\x7b'], .leftBrace, 1), (['\x7d'], .rightBrace, 1)]

def munch? (cs : List Char) : Option (Symbol × Nat) :=
  (rules.find? fun rule => rule.1.isPrefixOf cs).map (·.2)

theorem spelling_ne_nil (s : Symbol) : s.spelling ≠ [] := by cases s <;> decide

theorem mem_rules (s : Symbol) : (s.spelling, s, s.spelling.length) ∈ rules := by cases s <;> decide

/-- A rule looks for the spelling of its symbol and takes all of it. -/
theorem eq_of_mem_rules {pattern : List Char} {s : Symbol} {width : Nat} (h : (pattern, s, width) ∈ rules) :
    pattern = s.spelling ∧ width = s.spelling.length := by
  have hall : ∀ rule ∈ rules, rule.1 = rule.2.1.spelling ∧ rule.2.2 = rule.2.1.spelling.length := by decide
  exact hall _ h

/-- No rule hides one behind it that looks for more. -/
theorem rules_pairwise : rules.Pairwise fun rule other => rule.1.isPrefixOf other.1 = false := by decide

end Symbol

end ScriptLang
