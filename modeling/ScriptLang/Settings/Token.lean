import ScriptLang.Settings.Block
import ScriptLang.Settings.Tag
import ScriptLang.Turn

/-! Tokens of settings documents.

A key is only known by the colon behind it, so what may be a key is kept apart until that is
decided. Settings are one mapping of scalars: lists and mappings in mappings are refused here. -/
namespace ScriptLang.Document

inductive Token where
  | directive (directive : Directive)
  | documentStart
  | documentEnd
  | openBlock
  | closeBlock
  | openBraces
  | closeBraces
  | comma
  | key
  | value
  | aliasOf (name : String)
  | anchor (name : String)
  | tag (tag : Tag)
  | scalar (scalar : Scalar)

structure Candidate where
  start : Place
  isRequired : Bool

def Candidate.isStale (k : Candidate) (p : Place) : Bool :=
  k.start.line < p.line || k.start.index + 1024 < p.index

structure Scanner where
  cursor : Cursor
  tokens : List Token := []
  own : List Token := []
  candidate : Option Candidate := none
  /-- Whether a key may begin here. -/
  keyAllowed : Bool := true
  /-- The column of the mapping, if it is written line by line. -/
  indent : Option Nat := none
  inBraces : Bool := false

namespace Scanner

def column (s : Scanner) : Nat := s.cursor.place.column

def emit (s : Scanner) (t : Token) : Scanner := { s with own := t :: s.own }

def dropCandidate (s : Scanner) : Option Scanner :=
  if s.candidate.any (·.isRequired) then none
  else some { s with tokens := s.own ++ s.tokens, own := [], candidate := none }

def addCandidate (s : Scanner) : Option Scanner :=
  if s.keyAllowed then do
    let s ← s.dropCandidate
    return { s with candidate := some ⟨s.cursor.place, !s.inBraces && s.indent = some s.column⟩ }
  else some s

def openAt (s : Scanner) (column : Nat) : Option (List Token × Scanner) :=
  if s.inBraces then some ([], s)
  else match s.indent with
    | none => some ([.openBlock], { s with indent := some column })
    | some indent => if indent < column then none else some ([], s)

def closeBefore (s : Scanner) : Scanner :=
  if !s.inBraces && s.indent.any (s.column < ·) then { s.emit .closeBlock with indent := none } else s

def close (s : Scanner) : Option Scanner := do
  let s ← s.dropCandidate
  if s.inBraces then none
  else return if s.indent.isSome then { s.emit .closeBlock with indent := none } else s

/-- White space, comments and line breaks. Behind a line break a key may begin, and where one may,
no tabs stand. A byte order mark may begin a line. -/
def skip (inBraces keyAllowed inComment : Bool) (p : Place) : List Char → Bool × Cursor
  | [] => (keyAllowed, ⟨p, []⟩)
  | c :: rest =>
    if isBreak c then skip inBraces (keyAllowed || !inBraces) false (p.past c) rest
    else if inComment || c = '#' then skip inBraces keyAllowed true (p.past c) rest
    else if c = ' ' || (c = '\t' && (inBraces || !keyAllowed)) || (c = '\ufeff' && p.column = 0) then
      skip inBraces keyAllowed false (p.past c) rest
    else (keyAllowed, ⟨p, c :: rest⟩)

def advance (s : Scanner) : Option Scanner := do
  let (keyAllowed, cursor) := skip s.inBraces s.keyAllowed false s.cursor.place s.cursor.rest
  let s := { s with cursor, keyAllowed }
  let s ← if s.candidate.any (·.isStale cursor.place) then s.dropCandidate else some s
  return s.closeBefore

def past (s : Scanner) (n : Nat) : Scanner := { s with cursor := s.cursor.drop n }

def addDirective (s : Scanner) : Option Scanner := do
  let s ← s.close
  let (directive, cursor) ← directive? s.cursor
  return { s.emit (.directive directive) with cursor, keyAllowed := false }

def addMarker (s : Scanner) (marker : Token) : Option Scanner := do
  let s ← s.close
  return { (s.emit marker).past 3 with keyAllowed := false }

def openBraces (s : Scanner) : Option Scanner := do
  let s ← s.dropCandidate
  if s.inBraces || s.indent.isSome then none
  else return { (s.emit .openBraces).past 1 with inBraces := true, keyAllowed := true }

def closeBraces (s : Scanner) : Option Scanner := do
  let s ← s.dropCandidate
  if s.inBraces then return { (s.emit .closeBraces).past 1 with inBraces := false, keyAllowed := false }
  else none

def addComma (s : Scanner) : Option Scanner := do
  let s ← s.dropCandidate
  if s.inBraces then return { (s.emit .comma).past 1 with keyAllowed := true } else none

def addKey (s : Scanner) : Option Scanner := do
  if !s.inBraces && !s.keyAllowed then none
  else
    let s ← s.dropCandidate
    let (opening, s) ← s.openAt s.column
    return { s.past 1 with own := .key :: opening ++ s.own, keyAllowed := !s.inBraces }

def addValue (s : Scanner) : Option Scanner :=
  match s.candidate with
  | some candidate => do
    let (opening, s) ← s.openAt candidate.start.column
    return { s.past 1 with
      tokens := s.own ++ .key :: opening ++ s.tokens
      own := [.value]
      candidate := none
      keyAllowed := false }
  | none =>
    if !s.inBraces && !s.keyAllowed then none
    else do
      let (opening, s) ← s.openAt s.column
      return { s.past 1 with own := .value :: opening ++ s.own, keyAllowed := !s.inBraces }

def addNode (s : Scanner) (node : Option (Token × Cursor)) : Option Scanner := do
  let (token, cursor) ← node
  let s ← s.addCandidate
  return { s.emit token with cursor, keyAllowed := false }

def addScalar (s : Scanner) (reading : Option Reading) : Option Scanner := do
  let reading ← reading
  let s ← s.addNode (some (.scalar reading.scalar, reading.cursor))
  return { s with keyAllowed := reading.endsLine }

def addBlock (s : Scanner) (style : Style) : Option Scanner := do
  let s ← s.dropCandidate
  let reading ← block? style s.indent (s.cursor.drop 1)
  return { s.emit (.scalar reading.scalar) with cursor := reading.cursor, keyAllowed := true }

def addNamed (s : Scanner) (token : String → Token) : Option Scanner :=
  s.addNode ((anchorName? (s.cursor.drop 1)).map fun (name, c) => (token name, c))

def take (s : Scanner) (c : Char) (rest : List Char) : Option Scanner :=
  let place := s.cursor.place.past c
  if c = '%' && s.column = 0 then s.addDirective
  else if s.cursor.atMarker then s.addMarker (if c = '-' then .documentStart else .documentEnd)
  else if c = '\x7b' then s.openBraces
  else if c = '\x7d' then s.closeBraces
  else if c = ',' then s.addComma
  else if c = '?' && (s.inBraces || endsWord rest) then s.addKey
  else if c = ':' && (s.inBraces || endsWord rest) then s.addValue
  else if c = '*' then s.addNamed .aliasOf
  else if c = '&' then s.addNamed .anchor
  else if c = '!' then s.addNode ((tag? s.inBraces s.cursor).map fun (tag, c) => (.tag tag, c))
  else if c = '|' && !s.inBraces then s.addBlock .literal
  else if c = '>' && !s.inBraces then s.addBlock .folded
  else if c = '\x27' then s.addScalar (singleQuoted {} place rest)
  else if c = '"' then s.addScalar (doubleQuoted {} 0 [] place rest)
  else if startsPlain s.inBraces c rest then
    s.addScalar (plain s.inBraces (s.indent.elim 0 (· + 1)) {} s.cursor.place (c :: rest))
  else none

def step (s : Scanner) : Option (Turn Scanner (List Token)) := do
  let s ← s.advance
  match s.cursor.rest with
  | [] =>
    let s ← s.close
    return .done (s.own ++ s.tokens).reverse
  | c :: rest => return .next (← s.take c rest)

def run : (turns : Nat) → Scanner → Option (List Token)
  | 0, _ => none
  | turns + 1, s => do
    match ← s.step with
    | .done tokens => return tokens
    | .next s => run turns s

end Scanner

def normalized : List Char → List Char
  | [] => []
  | '\r' :: '\n' :: rest => '\n' :: normalized rest
  | c :: rest => (if c = '\r' || c = '\u0085' then '\n' else c) :: normalized rest

def isAllowed (c : Char) : Bool :=
  c = '\t' || c = '\n' || ('\x20' ≤ c && c ≤ '\x7e') || ('\u00a0' ≤ c && c ≤ '\ufffd') ||
    0x10000 ≤ c.toNat

def tokens? (source : String) : Option (List Token) :=
  let cs := normalized source.toList
  if cs.all isAllowed then Scanner.run (cs.length + 1) { cursor := ⟨{}, cs⟩ } else none

end ScriptLang.Document
