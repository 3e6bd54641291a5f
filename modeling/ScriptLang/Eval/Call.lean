import ScriptLang.Eval.Basic

/-! Calls of functions that a program defines. -/
namespace ScriptLang

def Arity.ofParams (params : List (Param Node)) : Arity where
  required := params.countP fun param => !param.isOptional && !param.isRest
  most := if params.any (·.isRest) then none else some params.length

def Arity.admits (a : Arity) (count : Nat) : Bool :=
  a.required ≤ count && a.most.all (count ≤ ·)

/-- Whether a value is of the type of a parameter. One that may be left out can be `none`. -/
def Param.admits {ν : Type} (param : Param ν) (value : Value) : Bool :=
  match param.typeName with
  | some type => (param.isOptional && value.isNothing) || value.hasType type
  | none => true

structure CallSite where
  name : String
  span : Span
  caller : Trace

namespace CallSite

variable {α : Type}

def fail (site : CallSite) (cause : EvalCause) : Eval α := .fail site.caller site.span cause

def trace (site : CallSite) : Trace := site.caller.enter site.name site.span.start

end CallSite

def Context.leave (ctx : Context) (body : Node) : Interrupt → Eval Value
  | .returned value => return value
  | .broken => .fail ctx.trace body.span (.loopControlOutsideLoop "break")
  | .continued => .fail ctx.trace body.span (.loopControlOutsideLoop "continue")
  | interrupt => throw interrupt

namespace Machine

def argument (m : Machine) (ctx : Context) (param : Param Node) (args : List Value) :
    Eval (Value × List Value) := do
  if param.isRest then return (← .newList args.toArray, [])
  match args with
  | value :: rest => return (value, rest)
  | [] =>
    match param.fallback with
    | some node => return (← m.value node ctx, [])
    | none => return (.nothing, [])

/-- Binds parameters in order in the frame of a call, and gives their values. Default values are
evaluated there, so that they see the parameters before them. -/
def bind (m : Machine) (site : CallSite) (ctx : Context) :
    List (Param Node) → List Value → Eval (List Value)
  | [], _ => return []
  | param :: params, args => do
    let (value, rest) ← m.argument ctx param args
    if !param.admits value then
      site.fail (.argumentType site.name param.name (param.typeName.getD "any") value.typeOf)
    .onFrames site.caller site.span (.declare ctx.scope param.name value false)
    return value :: (← m.bind site ctx params rest)

def bindArguments (m : Machine) (site : CallSite) (ctx : Context) (params : List (Param Node))
    (args : List Value) : Eval (List Value) := do
  let arity := Arity.ofParams params
  if !arity.admits args.length then site.fail (.arityMismatch site.name arity args.length)
  m.bind site ctx params args

def runBody (m : Machine) (code : FunctionDef Node) (ctx : Context) : Eval Value :=
  tryCatch (do
    let value ← m.eval code.body ctx
    return if code.autoReturn then value else .nothing) (ctx.leave code.body)

def invoke (m : Machine) (closure : Closure) (args : List Value) (site : CallSite) :
    Eval Value := do
  let ctx : Context := ⟨site.trace, ← .innerScope closure.scope, closure.classScope⟩
  if let some object := closure.receiver then
    .onFrames site.caller site.span (.declare ctx.scope "self" (.instance object) false)
  discard (m.bindArguments site ctx closure.code.params args)
  m.runBody closure.code ctx

def call (m : Machine) (closure : Closure) (args : List Value) (span : Span) (caller : Trace) :
    Eval Value :=
  .guarded m.limit caller span (m.invoke closure args ⟨closure.code.label, span, caller⟩)

end Machine

end ScriptLang
