import ScriptLang.Eval.Error
import ScriptLang.Eval.Store
import ScriptLang.Value.Action

/-! Evaluation: steps that change the store and can be interrupted. -/
namespace ScriptLang

/-- Why an evaluation ends without a value: a statement that leaves a function or a loop, a failure,
or a bound on the steps that was too small. -/
inductive Interrupt where
  | returned (value : Value)
  | broken
  | continued
  | failed (error : EvalError)
  | exhausted

/-- An evaluation. One that is interrupted leaves the store that it got to. -/
abbrev Eval := EStateM Interrupt Store

structure Context where
  trace : Trace
  scope : Scope
  /-- The class whose members the code may use. -/
  classScope : Option Class

/-- What evaluation rules work with: how deep calls may be nested, how many turns a loop may take, and
how the parts of a node are evaluated. -/
structure Machine where
  limit : Nat
  turns : Nat
  eval : Node → Context → Eval Value

namespace Eval

variable {α : Type}

def fail (trace : Trace) (span : Span) (cause : EvalCause) : Eval α :=
  throw (.failed (trace.error cause span))

def onHeap (trace : Trace) (span : Span) (action : Action α) : Eval α :=
  fun ⟨heap, frames, statics, members, output, depth⟩ =>
    match action heap with
    | .ok a heap => .ok a ⟨heap, frames, statics, members, output, depth⟩
    | .error cause heap =>
      .error (.failed (trace.error cause span)) ⟨heap, frames, statics, members, output, depth⟩

def onFrames (trace : Trace) (span : Span) (action : Scoping α) : Eval α :=
  fun ⟨heap, frames, statics, members, output, depth⟩ =>
    match action frames with
    | .ok a frames => .ok a ⟨heap, frames, statics, members, output, depth⟩
    | .error cause frames =>
      .error (.failed (trace.error cause span)) ⟨heap, frames, statics, members, output, depth⟩

def lookup? (scope : Scope) (name : String) : Eval (Option Value) :=
  return (← get).frames.lookup? scope name

def isTrue (value : Value) : Eval Bool := return value.isTrue (← get).heap

def newList (elements : Array Value) : Eval Value := modifyGet fun s =>
  let (value, heap) := s.heap.addList elements
  (value, { s with heap })

def newDict (entries : Dict Value) : Eval Value := modifyGet fun s =>
  let (value, heap) := s.heap.addDict entries
  (value, { s with heap })

def innerScope (scope : Scope) : Eval Scope := modifyGet fun s =>
  let (own, frames) := s.frames.add
  (scope.inner own, { s with frames })

/-- Runs a call one level deeper, unless the limit is reached. The level is left in any case. -/
def guarded (limit : Nat) (trace : Trace) (span : Span) (call : Eval α) : Eval α := fun s =>
  if s.depth < limit then
    match call { s with depth := s.depth + 1 } with
    | .ok a s => .ok a { s with depth := s.depth - 1 }
    | .error e s => .error e { s with depth := s.depth - 1 }
  else fail trace span (.recursionLimit limit) s

end Eval

def Context.declare (ctx : Context) (span : Span) (name : String) (value : Value) : Eval Unit :=
  .onFrames ctx.trace span (.declare ctx.scope name value false)

def Context.declareConstant (ctx : Context) (span : Span) (name : String) (value : Value) :
    Eval Unit :=
  .onFrames ctx.trace span (.declare ctx.scope name value true)

def Context.turn (ctx : Context) (label : String) (position : Position) : Eval Context := do
  return { ctx with trace := ctx.trace.enter label position, scope := ← .innerScope ctx.scope }

def Machine.value (m : Machine) (node : Node) (ctx : Context) : Eval Value :=
  tryCatch (m.eval node ctx) fun
    | .returned _ => .fail ctx.trace node.span .returnOutsideFunction
    | .broken => .fail ctx.trace node.span (.loopControlOutsideLoop "break")
    | .continued => .fail ctx.trace node.span (.loopControlOutsideLoop "continue")
    | interrupt => throw interrupt

def Machine.values (m : Machine) (nodes : List Node) (ctx : Context) : Eval (List Value) :=
  nodes.mapM (m.eval · ctx)

end ScriptLang
