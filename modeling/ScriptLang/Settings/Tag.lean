import ScriptLang.Settings.Scalar
import ScriptLang.Table

/-! Tags, the names in anchors, and directives. -/
namespace ScriptLang.Document

/-- A tag: what its handle stands for, followed by a suffix. Without a handle the suffix is all. -/
structure Tag where
  handle : String
  suffix : String

abbrev Handles := Table String

def Handles.common : Handles := [("!", "!"), ("!!", "tag:yaml.org,2002:")]

def Tag.resolve? (t : Tag) (handles : Handles) : Option String :=
  if t.handle.isEmpty then some t.suffix
  else do return (← handles.get? t.handle <|> Handles.common.get? t.handle) ++ t.suffix

def isTagChar (inFull : Bool) (c : Char) : Bool :=
  isNameChar c || ";/?:@&=+$.%!~*'()".toList.contains c || (inFull && ",[]".toList.contains c)

def trailingOctets? (octet : Nat) : Option Nat :=
  if octet < 0x80 then some 0
  else if 0xC0 ≤ octet ∧ octet < 0xE0 then some 1
  else if 0xE0 ≤ octet ∧ octet < 0xF0 then some 2
  else if 0xF0 ≤ octet ∧ octet < 0xF8 then some 3
  else none

/-- The characters of a tag, octets behind `%` decoded, and what follows. `pending` octets of a
character are still to come. -/
def tagChars? (inFull : Bool) (pending : Nat) : List Char → Option (List Char × List Char)
  | '%' :: high :: low :: rest => do
    let octet ← numeral? 16 [high, low]
    let pending ← match pending with
      | 0 => trailingOctets? octet
      | n + 1 => if 0x80 ≤ octet ∧ octet < 0xC0 then some n else none
    let (text, rest) ← tagChars? inFull pending rest
    return (Char.ofNat octet :: text, rest)
  | [] => if pending = 0 then some ([], []) else none
  | c :: rest =>
    if c = '%' || pending ≠ 0 then none
    else if isTagChar inFull c then do
      let (text, rest) ← tagChars? inFull 0 rest
      return (c :: text, rest)
    else some ([], c :: rest)

def Cursor.upTo (c : Cursor) (rest : List Char) : Cursor := c.drop (c.rest.length - rest.length)

def tagText? (inFull mayBeEmpty : Bool) (c : Cursor) : Option (String × Cursor) := do
  let (text, rest) ← tagChars? inFull 0 c.rest
  if text.isEmpty && !mayBeEmpty then none
  else return (String.ofList (text.takeWhile (· ≠ '\x00')), c.upTo rest)

def tag? (inBraces : Bool) (c : Cursor) : Option (Tag × Cursor) := do
  let (tag, c) ← if c.rest[1]? = some '<' then do
      let (suffix, c) ← tagText? true false (c.drop 2)
      if c.rest.head? = some '>' then some (⟨"", suffix⟩, c.drop 1) else none
    else
      let (name, c) := (c.drop 1).span isNameChar
      if c.rest.head? = some '!' then do
        let (suffix, c) ← tagText? false false (c.drop 1)
        some (⟨"!" ++ String.ofList name ++ "!", suffix⟩, c)
      else do
        let (text, c) ← tagText? false true c
        let suffix := String.ofList name ++ text
        some (if suffix.isEmpty then ⟨"", "!"⟩ else ⟨"!", suffix⟩, c)
  if endsWord c.rest || (inBraces && c.rest.head? = some ',') then some (tag, c) else none

def anchorName? (c : Cursor) : Option (String × Cursor) :=
  let (name, c) := c.span isNameChar
  if !name.isEmpty && (endsWord c.rest || c.rest.head?.any "?:,]\x7d%@\x60".toList.contains) then
    some (String.ofList name, c)
  else none

inductive Directive where
  | version (major minor : Nat)
  | handle (name stands : String)

def versionNumber? (c : Cursor) : Option (Nat × Cursor) := do
  let (digits, c) := c.span Char.isDigit
  if digits.length ≤ 9 then return (← numeral? 10 digits, c) else none

def handle? (c : Cursor) : Option (String × Cursor) :=
  if c.rest.head? ≠ some '!' then none
  else
    let (name, c) := (c.drop 1).span isNameChar
    if c.rest.head? = some '!' then some ("!" ++ String.ofList name ++ "!", c.drop 1)
    else if name.isEmpty then some ("!", c)
    else none

def directive? (c : Cursor) : Option (Directive × Cursor) := do
  let (name, c) := (c.drop 1).span isNameChar
  if !endsWord c.rest then none
  else if name = "YAML".toList then
    let (major, c) ← versionNumber? c.skipSpaces
    if c.rest.head? ≠ some '.' then none
    else
      let (minor, c) ← versionNumber? (c.drop 1)
      return (.version major minor, ← c.nextLine?)
  else if name = "TAG".toList then
    let (name, c) ← handle? c.skipSpaces
    if !c.rest.head?.any isSpace then none
    else
      let (stands, c) ← tagText? true false c.skipSpaces
      if endsWord c.rest then return (.handle name stands, ← c.nextLine?) else none
  else none

end ScriptLang.Document
