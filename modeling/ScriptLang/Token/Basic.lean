import ScriptLang.Number.Shortest
import ScriptLang.Source.Span
import ScriptLang.Token.Keyword
import ScriptLang.Token.Symbol

/-! Tokens: the words, numerals, texts and signs of a source text. -/
namespace ScriptLang

/-- A piece of a template: plain text, or the tokens `τ` of code in braces, which end with the end
of input. -/
inductive Segment (τ : Type) where
  | text (value : String)
  | code (tokens : List τ)

inductive TokenKind (τ : Type) where
  | number (value : Float)
  | text (value : String)
  | template (segments : List (Segment τ))
  | identifier (name : String)
  | keyword (word : Keyword)
  | symbol (sign : Symbol)
  | newline
  | endOfInput

structure Token where
  kind : TokenKind Token
  span : Span

namespace TokenKind

variable {τ : Type}

def describe : TokenKind τ → String
  | number value => "number " ++ Number.text value
  | text value => "string \"" ++ value ++ "\""
  | template _ => "template string"
  | identifier name => "identifier '" ++ name ++ "'"
  | keyword word => "'" ++ word.spelling ++ "'"
  | symbol sign => "'" ++ String.ofList sign.spelling ++ "'"
  | newline => "newline"
  | endOfInput => "end of input"

def isKeyword (word : Keyword) : TokenKind τ → Bool
  | keyword w => w = word
  | _ => false

def isSymbol (sign : Symbol) : TokenKind τ → Bool
  | symbol s => s = sign
  | _ => false

def isNewline : TokenKind τ → Bool
  | newline => true
  | _ => false

def isEnd : TokenKind τ → Bool
  | endOfInput => true
  | _ => false

end TokenKind

namespace Token

mutual

def weight : Token → Nat
  | ⟨kind, _⟩ => 1 + kindWeight kind

def kindWeight : TokenKind Token → Nat
  | .template segments => segmentsWeight segments
  | _ => 0

def segmentsWeight : List (Segment Token) → Nat
  | [] => 0
  | segment :: segments => segmentWeight segment + segmentsWeight segments

def segmentWeight : Segment Token → Nat
  | .text _ => 0
  | .code tokens => weights tokens

def weights : List Token → Nat
  | [] => 0
  | token :: tokens => token.weight + weights tokens

end

end Token

end ScriptLang
