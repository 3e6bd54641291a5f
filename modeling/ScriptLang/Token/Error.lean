import ScriptLang.Source.Span

/-! Faults in the characters of a source text. -/
namespace ScriptLang

inductive LexCause where
  | illegalCharacter (character : Char)
  | unterminatedString (quote : Char)
  | unterminatedInterpolation
  | invalidNumber (literal : String)
  deriving DecidableEq

structure LexError where
  cause : LexCause
  span : Span
  deriving DecidableEq

namespace LexCause

def heading : LexCause → String
  | illegalCharacter _ | invalidNumber _ => "Illegal Character"
  | unterminatedString _ | unterminatedInterpolation => "Expected Character"

def message : LexCause → String
  | illegalCharacter character => String.ofList ['\x27', character, '\x27']
  | unterminatedString quote => "Unterminated string literal, expected " ++ quote.toString
  | unterminatedInterpolation => "Unterminated interpolation, expected '\x7d'"
  | invalidNumber literal => "Invalid number literal '" ++ literal ++ "'"

end LexCause

end ScriptLang
