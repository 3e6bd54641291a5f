import ScriptLang.Folder
import ScriptLang.Text.Line

/-! Terminals: files, an input, and two outputs. -/
namespace ScriptLang

structure Terminal (m : Type → Type) where
  /-- The text of a file, or why there is none. -/
  readFile : String → m (Except String String)
  /-- All of the input. -/
  readAll : m String
  /-- The next line of the input without its line break. -/
  readLine : m (Option String)
  print : String → m Unit
  complain : String → m Unit

/-- A terminal on paper: files, the input that is left, and what was written to the outputs. -/
structure Transcript where
  files : Folder
  input : List Char
  output : String := ""
  complaints : String := ""

namespace Transcript

def nextLine (t : Transcript) : Option String × Transcript :=
  match Text.lines t.input with
  | [] => (none, t)
  | line :: _ => (some (String.ofList line), { t with input := (t.input.dropWhile (· ≠ '\n')).drop 1 })

def terminal : Terminal (StateM Transcript) where
  readFile path := return ((← get).files.read path).mapError PathError.message
  readAll := modifyGet fun t => (String.ofList t.input, { t with input := [] })
  readLine := modifyGet nextLine
  print text := modify fun t => { t with output := t.output ++ text }
  complain text := modify fun t => { t with complaints := t.complaints ++ text }

end Transcript

end ScriptLang
