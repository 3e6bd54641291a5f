import ScriptLang.Settings.Scalar

/-! Block scalars: lines under a header, kept as they are or folded. -/
namespace ScriptLang.Document

inductive Ending where
  | strip
  | clip
  | keep
  deriving DecidableEq

def ending? : Char → Option Ending
  | '-' => some .strip
  | '+' => some .keep
  | _ => none

def endingMark (c : Cursor) : Option Ending × Cursor :=
  match c.rest.head? >>= ending? with
  | some ending => (some ending, c.drop 1)
  | none => (none, c)

def widthMark? (c : Cursor) : Option (Option Nat × Cursor) :=
  match c.rest.head? >>= (numeral? 10 [·]) with
  | some 0 => none
  | some width => some (some width, c.drop 1)
  | none => some (none, c)

def blockHeader? (c : Cursor) : Option (Ending × Option Nat × Cursor) := do
  let (before, c) := endingMark c
  let (width, c) ← widthMark? c
  let (behind, c) := if before.isNone then endingMark c else (none, c)
  return ((before <|> behind).getD .clip, width, ← c.nextLine?)

def widestIndent? (widest : Nat) (p : Place) : List Char → Option Nat
  | [] => some (max widest p.column)
  | c :: rest =>
    if c = ' ' then widestIndent? widest (p.past c) rest
    else if c = '\t' then none
    else if isBreak c then widestIndent? (max widest p.column) (p.past c) rest
    else some (max widest p.column)

/-- A block that is being read; its text is kept in reverse. Between two lines there are the break of
the first and the breaks of the empty lines behind it. -/
structure BlockDraft where
  text : List Char := []
  inLine : Bool := false
  startsBlank : Bool := false
  lineBreak : Option Char := none
  others : List Char := []

namespace BlockDraft

/-- Begins a line with `c`. The break before it is folded between lines that do not start blank. -/
def startLine (d : BlockDraft) (style : Style) (c : Char) : BlockDraft :=
  let joint :=
    if style = .folded && d.lineBreak = some '\n' && !d.startsBlank && !isSpace c then
      if d.others.isEmpty then [' '] else []
    else d.lineBreak.toList
  { text := c :: (joint ++ d.others).reverse ++ d.text, inLine := true, startsBlank := isSpace c }

def addBreak (d : BlockDraft) (c : Char) : BlockDraft :=
  if d.inLine then { d with inLine := false, lineBreak := some c }
  else { d with others := d.others ++ [c] }

def toString (d : BlockDraft) : Ending → String
  | .strip => String.ofList d.text.reverse
  | .clip => String.ofList (d.text.reverse ++ d.lineBreak.toList)
  | .keep => String.ofList (d.text.reverse ++ d.lineBreak.toList ++ d.others)

end BlockDraft

def blockLines (style : Style) (indent : Nat) (d : BlockDraft) (p : Place) :
    List Char → Option (BlockDraft × Cursor)
  | [] => some (d, ⟨p, []⟩)
  | c :: rest =>
    if isBreak c then blockLines style indent (d.addBreak c) (p.past c) rest
    else if d.inLine then blockLines style indent { d with text := c :: d.text } (p.past c) rest
    else if c = ' ' && p.column < indent then blockLines style indent d (p.past c) rest
    else if c = '\t' && p.column < indent then none
    else if p.column = indent then blockLines style indent (d.startLine style c) (p.past c) rest
    else some (d, ⟨p, c :: rest⟩)

def block? (style : Style) (outer : Option Nat) (c : Cursor) : Option Reading := do
  let (ending, width, c) ← blockHeader? c
  let indent ← match width with
    | some width => some (outer.getD 0 + width)
    | none => (widestIndent? 0 c.place c.rest).map (max · (outer.getD 0 + 1))
  let (d, c) ← blockLines style indent {} c.place c.rest
  return ⟨⟨d.toString ending, style, none⟩, true, c⟩

end ScriptLang.Document
