import ScriptLang.Diagnostic
import ScriptLang.Value.Cause

/-! Failures of a running program. -/
namespace ScriptLang

/-- The code that runs, by name, and the calls that led to it, the innermost first. -/
structure Trace where
  label : String
  callers : List TraceFrame := []

def Trace.enter (t : Trace) (label : String) (position : Position) : Trace :=
  ⟨label, ⟨t.label, position⟩ :: t.callers⟩

def Trace.frames (t : Trace) (position : Position) : List TraceFrame :=
  (⟨t.label, position⟩ :: t.callers).reverse

structure EvalError where
  cause : EvalCause
  span : Span
  frames : List TraceFrame

def Trace.error (t : Trace) (cause : EvalCause) (span : Span) : EvalError :=
  ⟨cause, span, t.frames span.start⟩

def EvalError.diagnostic (e : EvalError) : Diagnostic :=
  ⟨e.cause.heading, e.cause.message, e.span, some e.frames⟩

end ScriptLang
