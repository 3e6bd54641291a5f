import ScriptLang.Settings.Cursor

/-! Scalars of settings documents: plain, or in quotes of either kind. -/
namespace ScriptLang.Document

inductive Style where
  | plain
  | quoted
  | literal
  | folded
  deriving DecidableEq

structure Scalar where
  text : String
  style : Style
  tag : Option String := none
  deriving DecidableEq

/-- White space inside of a scalar: that on a line or, once the line has ended, its break, unless
that is escaped, and the breaks behind it. -/
structure Gap where
  blanks : List Char := []
  isFolded : Bool := false
  lineBreak : Option Char := none
  others : List Char := []

namespace Gap

def isEmpty (g : Gap) : Bool := g.blanks.isEmpty && !g.isFolded

def text (g : Gap) : List Char :=
  if !g.isFolded then g.blanks
  else match g.lineBreak with
    | some '\n' => if g.others.isEmpty then [' '] else g.others
    | first => first.toList ++ g.others

def addBreak (g : Gap) (c : Char) : Gap :=
  if g.isFolded then { g with others := g.others ++ [c] } else { isFolded := true, lineBreak := some c }

def addBlank (g : Gap) (c : Char) : Gap :=
  if g.isFolded then g else { g with blanks := g.blanks ++ [c] }

end Gap

structure Draft where
  text : List Char := []
  gap : Gap := {}

namespace Draft

def flush (d : Draft) : Draft := ⟨d.gap.text.reverse ++ d.text, {}⟩

def add (d : Draft) (c : Char) : Draft := ⟨c :: d.flush.text, {}⟩

def toString (d : Draft) : String := String.ofList d.text.reverse

end Draft

structure Reading where
  scalar : Scalar
  endsLine : Bool
  cursor : Cursor

def startsPlain (inBraces : Bool) (c : Char) (rest : List Char) : Bool :=
  if c = '-' then !endsWord rest
  else if c = '?' || c = ':' then !inBraces && !endsWord rest
  else !isSpace c && !isBreak c && !",[]\x7b\x7d#&*!|>'\"%@\x60".toList.contains c

def endsBehind (inBraces : Bool) (indent : Nat) (gap : Gap) (c : Cursor) : Bool :=
  !gap.isEmpty && ((!inBraces && c.place.column < indent) || c.atMarker || c.rest.head? = some '#')

def endsBefore (inBraces : Bool) (c : Char) (rest : List Char) : Bool :=
  (c = ':' && endsWord rest) || (inBraces && ",[]\x7b\x7d".toList.contains c)

def plain (inBraces : Bool) (indent : Nat) (d : Draft) (p : Place) : List Char → Option Reading
  | [] => some ⟨⟨d.toString, .plain, none⟩, d.gap.isFolded, ⟨p, []⟩⟩
  | c :: rest =>
    if isBreak c then plain inBraces indent { d with gap := d.gap.addBreak c } (p.past c) rest
    else if isSpace c then
      if c = '\t' && d.gap.isFolded && p.column < indent then none
      else plain inBraces indent { d with gap := d.gap.addBlank c } (p.past c) rest
    else if endsBehind inBraces indent d.gap ⟨p, c :: rest⟩ then
      some ⟨⟨d.toString, .plain, none⟩, d.gap.isFolded, ⟨p, c :: rest⟩⟩
    else if inBraces && c = ':' && rest.head?.any ",?[]\x7b\x7d".toList.contains then none
    else if endsBefore inBraces c rest then
      some ⟨⟨d.toString, .plain, none⟩, d.gap.isFolded, ⟨p, c :: rest⟩⟩
    else plain inBraces indent (d.add c) (p.past c) rest

def closed (d : Draft) (p : Place) (rest : List Char) : Reading :=
  ⟨⟨d.flush.toString, .quoted, none⟩, false, ⟨p, rest⟩⟩

def singleQuoted (d : Draft) (p : Place) : List Char → Option Reading
  | [] => none
  | '\x27' :: '\x27' :: rest => singleQuoted (d.add '\x27') ((p.past '\x27').past '\x27') rest
  | '\x27' :: rest => some (closed d (p.past '\x27') rest)
  | c :: rest =>
    if isBreak c then singleQuoted { d with gap := d.gap.addBreak c } (p.past c) rest
    else if isSpace c then singleQuoted { d with gap := d.gap.addBlank c } (p.past c) rest
    else if Cursor.atMarker ⟨p, c :: rest⟩ then none
    else singleQuoted (d.add c) (p.past c) rest

def escape? : Char → Option Char
  | '0' => some '\x00'
  | 'a' => some '\x07'
  | 'b' => some '\x08'
  | 't' | '\t' => some '\t'
  | 'n' => some '\n'
  | 'v' => some '\x0b'
  | 'f' => some '\x0c'
  | 'r' => some '\r'
  | 'e' => some '\x1b'
  | ' ' => some ' '
  | '"' => some '"'
  | '/' => some '/'
  | '\\' => some '\\'
  | 'N' => some '\u0085'
  | '_' => some '\u00a0'
  | 'L' => some '\u2028'
  | 'P' => some '\u2029'
  | _ => none

def escapeWidth? : Char → Option Nat
  | 'x' => some 2
  | 'u' => some 4
  | 'U' => some 8
  | _ => none

def digitValue? (c : Char) : Option Nat :=
  if '0' ≤ c ∧ c ≤ '9' then some (c.toNat - '0'.toNat)
  else if 'a' ≤ c ∧ c ≤ 'f' then some (c.toNat - 'a'.toNat + 10)
  else if 'A' ≤ c ∧ c ≤ 'F' then some (c.toNat - 'A'.toNat + 10)
  else none

def numeral? (base : Nat) (digits : List Char) : Option Nat :=
  if digits.isEmpty then none
  else digits.foldlM (fun value c => do
    let digit ← digitValue? c
    if digit < base then some (value * base + digit) else none) 0

def character? (code : Nat) : Option Char := if code.isValidChar then some (Char.ofNat code) else none

/-- Reads on in a scalar in double quotes, in which `pending` hexadecimal digits of an escape are
still to come behind those in `digits`. An escaped line break leaves no trace. -/
def doubleQuoted (d : Draft) (pending : Nat) (digits : List Char) (p : Place) :
    List Char → Option Reading
  | [] => none
  | c :: rest =>
    match pending with
    | 1 => do
      let code ← numeral? 16 (digits ++ [c])
      doubleQuoted (d.add (← character? code)) 0 [] (p.past c) rest
    | n + 2 => doubleQuoted d (n + 1) (digits ++ [c]) (p.past c) rest
    | 0 =>
      if isBreak c then doubleQuoted { d with gap := d.gap.addBreak c } 0 [] (p.past c) rest
      else if isSpace c then doubleQuoted { d with gap := d.gap.addBlank c } 0 [] (p.past c) rest
      else if Cursor.atMarker ⟨p, c :: rest⟩ then none
      else if c = '"' then some (closed d (p.past c) rest)
      else if c = '\\' then
        match rest with
        | [] => none
        | letter :: rest =>
          let p := (p.past c).past letter
          if isBreak letter then doubleQuoted ⟨d.flush.text, { isFolded := true }⟩ 0 [] p rest
          else match escape? letter, escapeWidth? letter with
            | some c, _ => doubleQuoted (d.add c) 0 [] p rest
            | none, some width => doubleQuoted d width [] p rest
            | none, none => none
      else doubleQuoted (d.add c) 0 [] (p.past c) rest

end ScriptLang.Document
