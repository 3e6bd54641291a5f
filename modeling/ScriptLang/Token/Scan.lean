import ScriptLang.Number.Reading
import ScriptLang.Stop
import ScriptLang.Text.Letter
import ScriptLang.Text.Numeral
import ScriptLang.Token.Basic
import ScriptLang.Token.Error

/-! From characters to tokens.

The scanners of single tokens say how many characters they take; the cursor moves over them. Only
templates hold other tokens, so only they make the scanner call itself. -/
namespace ScriptLang

structure Cursor where
  rest : List Char
  place : Position

namespace Cursor

def ofText (source : String) : Cursor := ⟨source.toList, .origin⟩

def skip (c : Cursor) (n : Nat) : Cursor := ⟨c.rest.drop n, c.place.after (c.rest.take n)⟩

def upTo (c d : Cursor) : Span := ⟨c.place, d.place⟩

end Cursor

namespace Scan

/-- Characters between tokens: blanks, comments up to the end of a line, and line breaks behind a
backslash. -/
def triviaWidth (inComment : Bool) : List Char → Nat
  | [] => 0
  | c :: cs =>
    if inComment then if c = '\n' then 0 else triviaWidth true cs + 1
    else if c = ' ' || c = '\t' || c = '\r' then triviaWidth false cs + 1
    else if c = '#' then triviaWidth true cs + 1
    else match c, cs with
      | '\\', '\n' :: more => triviaWidth false more + 2
      | _, _ => 0

def startsWithDigit : List Char → Bool
  | c :: _ => c.isDigit
  | [] => false

def startsWithNumber : List Char → Bool
  | '.' :: cs => startsWithDigit cs
  | cs => startsWithDigit cs

/-- The characters of a numeral: digits, separators, and the first point that a digit follows. -/
def numberWidth (pointSeen : Bool) : List Char → Nat
  | [] => 0
  | c :: cs =>
    if c.isDigit || c = '_' then numberWidth pointSeen cs + 1
    else if c = '.' && !pointSeen && startsWithDigit cs then numberWidth true cs + 1
    else 0

def beginsName (c : Char) : Bool := Text.isLetter c || c = '_'

def continuesName (c : Char) : Bool := Text.isLetter c || Text.isNumeral c || c = '_'

def unescape (c : Char) : Char :=
  if c = 'n' then '\n' else if c = 't' then '\t' else if c = 'r' then '\r'
  else if c = '0' then '\x00' else c

/-- The text up to the first character that ends it and has no backslash before it, and the number
of characters it is written with. -/
def textRun (ends : Char → Bool) : List Char → List Char × Nat
  | [] => ([], 0)
  | '\\' :: [] => ([], 1)
  | '\\' :: c :: cs =>
    let (text, width) := textRun ends cs
    (unescape c :: text, width + 2)
  | c :: cs =>
    if ends c then ([], 0)
    else
      let (text, width) := textRun ends cs
      (c :: text, width + 1)

end Scan

abbrev Scan := Except (Stop LexError)

namespace Scan

def fault {α : Type} (cause : LexCause) (span : Span) : Scan α := throw (.fault ⟨cause, span⟩)

def number (c : Cursor) : Scan (Token × Cursor) :=
  let width := numberWidth false c.rest
  let literal := (c.rest.take width).filter (· ≠ '_')
  let behind := c.skip width
  match Number.read? literal with
  | some value => pure (⟨.number value, c.upTo behind⟩, behind)
  | none => fault (.invalidNumber (String.ofList literal)) (c.upTo behind)

def word (c : Cursor) : Token × Cursor :=
  let name := c.rest.takeWhile continuesName
  let behind := c.skip name.length
  match Keyword.ofSpelling? (String.ofList name) with
  | some keyword => (⟨.keyword keyword, c.upTo behind⟩, behind)
  | none => (⟨.identifier (String.ofList name), c.upTo behind⟩, behind)

def text (quote : Char) (c : Cursor) : Scan (Token × Cursor) :=
  let (value, width) := textRun (· = quote) (c.skip 1).rest
  let close := (c.skip 1).skip width
  if close.rest.isEmpty then fault (.unterminatedString quote) (c.upTo close)
  else pure (⟨.text (String.ofList value), c.upTo (close.skip 1)⟩, close.skip 1)

def sign (first : Char) (c : Cursor) : Scan (Token × Cursor) :=
  if first = '\n' || first = ';' then pure (⟨.newline, c.upTo (c.skip 1)⟩, c.skip 1)
  else match Symbol.munch? c.rest with
    | some (symbol, width) =>
      let behind := c.skip width
      pure (⟨.symbol symbol, c.upTo behind⟩, behind)
    | none => fault (.illegalCharacter first) (c.upTo (c.skip 1))

def addText (segments : List (Segment Token)) (value : List Char) : List (Segment Token) :=
  if value.isEmpty then segments else .text (String.ofList value) :: segments

mutual

def token : Nat → Cursor → Scan (Token × Cursor)
  | 0, _ => throw .exhausted
  | fuel + 1, c =>
    let c := c.skip (triviaWidth false c.rest)
    match c.rest with
    | [] => pure (⟨.endOfInput, c.upTo c⟩, c)
    | first :: _ =>
      if startsWithNumber c.rest then number c
      else if beginsName first then pure (word c)
      else if first = '"' || first = '\x27' then text first c
      else if first = '\x60' then do
        let (segments, behind) ← template fuel c (c.skip 1) []
        pure (⟨.template segments, c.upTo behind⟩, behind)
      else sign first c

def template : Nat → Cursor → Cursor → List (Segment Token) → Scan (List (Segment Token) × Cursor)
  | 0, _, _, _ => throw .exhausted
  | fuel + 1, start, c, segments =>
    let (value, width) := textRun (fun ch => ch = '\x60' || ch = '\x7b') c.rest
    let segments := addText segments value
    let c := c.skip width
    match c.rest with
    | [] => fault (.unterminatedString '\x60') (start.upTo c)
    | '\x60' :: _ => pure (segments.reverse, c.skip 1)
    | _ => do
      let (code, behind) ← interpolation fuel (c.skip 1) (c.skip 1) 0 []
      template fuel start behind (.code code :: segments)

/-- The tokens of code that was opened at `start`, from `c` to the brace that closes it, which counts
as the end of input. `depth` braces are open in between. -/
def interpolation : Nat → Cursor → Cursor → Nat → List Token → Scan (List Token × Cursor)
  | 0, _, _, _, _ => throw .exhausted
  | fuel + 1, start, c, depth, tokens => do
    let (next, behind) ← token fuel c
    match next.kind with
    | .endOfInput => fault .unterminatedInterpolation ⟨start.place, next.span.stop⟩
    | .symbol .leftBrace => interpolation fuel start behind (depth + 1) (next :: tokens)
    | .symbol .rightBrace =>
      if depth = 0 then pure ((⟨.endOfInput, next.span⟩ :: tokens).reverse, behind)
      else interpolation fuel start behind (depth - 1) (next :: tokens)
    | _ => interpolation fuel start behind depth (next :: tokens)

end

def tokens : Nat → Cursor → Scan (List Token)
  | 0, _ => throw .exhausted
  | fuel + 1, c => do
    let (next, behind) ← token fuel c
    if next.kind.isEnd then pure [next]
    else return next :: (← tokens fuel behind)

end Scan

/-- The tokens of a text. Each step of the scanner but the last takes a character, and at most two
steps share one, which bounds the steps. -/
def tokenize (source : String) : Scan (List Token) :=
  Scan.tokens (2 * source.length + 4) (.ofText source)

end ScriptLang
