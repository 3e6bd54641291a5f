import ScriptLang.Source.Span
import ScriptLang.Source.Trace
import ScriptLang.Text.Line
import ScriptLang.Token.Error

/-! Faults as they are shown to users. -/
namespace ScriptLang

/-- A fault to show: its class, what it is in words, where it is, and the active calls from the
outside in if it happened while a program ran. -/
structure Diagnostic where
  heading : String
  message : String
  span : Span
  trace : Option (List TraceFrame) := none

namespace Diagnostic

def grammar (message : String) (span : Span) : Diagnostic := ⟨"Invalid Syntax", message, span, none⟩

/-- The columns of a line that a span covers: the first one, and how many, at least one. `number` is
the line's number and `width` its length. -/
def marked (span : Span) (number width : Nat) : Nat × Nat :=
  let first := if number = span.start.line then min span.start.column width else 0
  let behind := if number = span.stop.line then min span.stop.column width else width
  (first, max (behind - first) 1)

def underlined (span : Span) (number : Nat) (line : List Char) : List (List Char) :=
  let (first, count) := marked span number line.length
  [line, List.replicate first ' ' ++ List.replicate count '^']

def carets (source : List Char) (span : Span) : List (List Char) :=
  let last := max span.start.line span.stop.line
  let touched := (Text.lines source).zipIdx.filter fun (_, number) =>
    span.start.line ≤ number && number ≤ last
  touched.flatMap fun (line, number) => underlined span number line

def header (fileName : String) (d : Diagnostic) : List String :=
  let fault := d.heading ++ ": " ++ d.message
  match d.trace with
  | some frames =>
    let calls := frames.map fun frame =>
      "  File " ++ fileName ++ ", line " ++ toString (frame.position.line + 1) ++ ", in " ++ frame.name
    "Traceback (most recent call last):" :: calls ++ [fault]
  | none => [fault, "File " ++ fileName ++ ", line " ++ toString (d.span.start.line + 1)]

def render (fileName source : String) (d : Diagnostic) : String :=
  "\n".intercalate (header fileName d ++ "" :: (carets source.toList d.span).map String.ofList)

end Diagnostic

def LexError.diagnostic (e : LexError) : Diagnostic :=
  ⟨e.cause.heading, e.cause.message, e.span, none⟩

end ScriptLang
