import ScriptLang.Token.Basic

/-! A sequence of tokens that is being read. -/
namespace ScriptLang

/-- The token at hand, the ones behind it, and the stretch of the one before it. There is always a
token at hand: the last one stays. -/
structure Stream where
  previous : Span
  current : Token
  rest : List Token

namespace Stream

def closed (tokens : List Token) : List Token :=
  match tokens.getLast? with
  | some last =>
    if last.kind.isEnd then tokens else tokens ++ [⟨.endOfInput, .point last.span.stop⟩]
  | none => [⟨.endOfInput, default⟩]

def ofTokens (tokens : List Token) : Stream :=
  match closed tokens with
  | first :: rest => ⟨first.span, first, rest⟩
  | [] => ⟨default, ⟨.endOfInput, default⟩, []⟩

def advance (s : Stream) : Stream :=
  match s.rest with
  | next :: rest => ⟨s.current.span, next, rest⟩
  | [] => s

def peek (s : Stream) : TokenKind Token :=
  match s.rest with
  | next :: _ => next.kind
  | [] => s.current.kind

def behindNewlines (previous : Span) (current : Token) : List Token → Stream
  | [] => ⟨previous, current, []⟩
  | next :: rest =>
    if current.kind.isNewline then behindNewlines current.span next rest
    else ⟨previous, current, next :: rest⟩

def skipNewlines (s : Stream) : Stream := behindNewlines s.previous s.current s.rest

end Stream

end ScriptLang
