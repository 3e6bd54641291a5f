import ScriptLang.Text.Extender
import ScriptLang.Text.Hidden

/-! The quoted form of a text: double quotes around it, and escapes for what would not show. -/
namespace ScriptLang.Text

def shortEscape? (c : Char) : Option Char :=
  if c = '\x00' then some '0'
  else if c = '\t' then some 't'
  else if c = '\r' then some 'r'
  else if c = '\n' then some 'n'
  else if c = '\\' then some '\\'
  else if c = '"' then some '"'
  else none

/-- How `c` is written between quotes. Characters that attach to others or have no shape are
written by their code point in hexadecimal. -/
def quoteChar (c : Char) : List Char :=
  match shortEscape? c with
  | some letter => ['\\', letter]
  | none =>
    if isExtender c || isHidden c then
      ['\\', 'u', '\x7b'] ++ Nat.toDigits 16 c.toNat ++ ['\x7d']
    else [c]

def quote (s : String) : String :=
  String.ofList ('"' :: s.toList.flatMap quoteChar ++ ['"'])

end ScriptLang.Text
