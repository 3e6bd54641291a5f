/-! Places in settings documents, and the characters that divide them. -/
namespace ScriptLang.Document

def isBreak (c : Char) : Bool := c = '\n' || c = '\u2028' || c = '\u2029'

def isSpace (c : Char) : Bool := c = ' ' || c = '\t'

def endsWord : List Char → Bool
  | [] => true
  | c :: _ => isSpace c || isBreak c

def endsLine : List Char → Bool
  | [] => true
  | c :: _ => isBreak c

def isNameChar (c : Char) : Bool := c.isAlphanum || c = '_' || c = '-'

structure Place where
  index : Nat := 0
  line : Nat := 0
  column : Nat := 0

namespace Place

def past (p : Place) (c : Char) : Place :=
  if isBreak c then ⟨p.index + 1, p.line + 1, 0⟩ else ⟨p.index + 1, p.line, p.column + 1⟩

def after (p : Place) (cs : List Char) : Place := cs.foldl past p

end Place

structure Cursor where
  place : Place
  rest : List Char

namespace Cursor

def drop (c : Cursor) (n : Nat) : Cursor := ⟨c.place.after (c.rest.take n), c.rest.drop n⟩

def span (c : Cursor) (p : Char → Bool) : List Char × Cursor :=
  let text := c.rest.takeWhile p
  (text, ⟨c.place.after text, c.rest.dropWhile p⟩)

def skipSpaces (c : Cursor) : Cursor := (c.span isSpace).2

def skipComment (c : Cursor) : Cursor :=
  let c := c.skipSpaces
  if c.rest.head? = some '#' then (c.span (!isBreak ·)).2 else c

def nextLine? (c : Cursor) : Option Cursor :=
  let c := c.skipComment
  if endsLine c.rest then some (c.drop 1) else none

def atMarker (c : Cursor) : Bool :=
  c.place.column = 0 && ("---".toList.isPrefixOf c.rest || "...".toList.isPrefixOf c.rest) &&
    endsWord (c.rest.drop 3)

end Cursor

end ScriptLang.Document
