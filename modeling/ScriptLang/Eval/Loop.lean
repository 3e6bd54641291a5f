import ScriptLang.Eval.Basic
import ScriptLang.Turn

/-! Loops. Each turn has a frame of its own. -/
namespace ScriptLang

def Value.items (h : Heap) : Value → Option (List (Value × Value))
  | .list id => some ((h.list id).toList.zipIdx.map fun (value, index) =>
      (.number (Float.ofNat index), value))
  | .dict id => some ((h.dict id).toList.map fun (key, value) => (.text key, value))
  | .text characters => some (characters.toList.zipIdx.map fun (c, index) =>
      (.number (Float.ofNat index), .text c.toString))
  | _ => none

namespace Loop

def gather (discards : Bool) (collected : Array Value) (value : Option Value) : Array Value :=
  match discards, value with
  | false, some value => collected.push value
  | _, _ => collected

def collect (discards : Bool) (collected : Array Value) : Eval Value :=
  if discards then return .nothing else .newList collected

def inRange (current stop step : Float) : Bool :=
  (step > 0 && current < stop) || (step < 0 && current > stop)

/-- The names that a turn declares. A loop over a dictionary with one name goes through the keys. -/
def itemNames (key : Option String) (value : String) (keysOnly : Bool) (item : Value × Value) :
    List (String × Value) :=
  match key with
  | some key => [(key, item.1), (value, item.2)]
  | none => [(value, if keysOnly then item.1 else item.2)]

end Loop

namespace Machine

/-- Runs the body of a loop once, and decides whether to go on. A turn that is cut short has no
value. -/
def turn (m : Machine) (body : Node) (ctx : Context) : Eval (Turn (Option Value) Unit) :=
  tryCatch (return .next (some (← m.eval body ctx))) fun
    | .continued => return .next none
    | .broken => return .done ()
    | interrupt => throw interrupt

def bound (m : Machine) (what : String) (node : Node) (ctx : Context) : Eval Float := do
  match ← m.eval node ctx with
  | .number x => return x
  | other => .fail ctx.trace node.span (.invalidBound what other.typeName)

/-- The step of a counting loop. If it is left out, the loop counts by one toward its end. -/
def step (m : Machine) (node : Option Node) (start stop : Float) (ctx : Context) : Eval Float := do
  match node with
  | some node =>
    let step ← m.bound "step" node ctx
    if step == 0 then .fail ctx.trace node.span .zeroStep
    return step
  | none => return if start < stop then 1 else -1

def count (m : Machine) (name : String) (stop step : Float) (body : Node) (discards : Bool)
    (span : Span) (ctx : Context) :
    (turns : Nat) → (current : Float) → (collected : Array Value) → Eval (Array Value)
  | 0, _, _ => throw .exhausted
  | turns + 1, current, collected => do
    if !Loop.inRange current stop step then return collected
    let inner ← ctx.turn "<for>" span.start
    .onFrames ctx.trace span (.declare inner.scope name (.number current) false)
    match ← m.turn body inner with
    | .next value =>
      let collected := Loop.gather discards collected value
      count m name stop step body discards span ctx turns (current + step) collected
    | .done () => return collected

/-- `for name = start to stop step by: body`. -/
def countingLoop (m : Machine) (name : String) (start : Option Node) (stop : Node)
    (step : Option Node) (body : Node) (discards : Bool) (span : Span) (ctx : Context) :
    Eval Value := do
  let start ← match start with
    | some node => m.bound "start" node ctx
    | none => pure 0
  let stop ← m.bound "end" stop ctx
  let step ← m.step step start stop ctx
  Loop.collect discards (← m.count name stop step body discards span ctx m.turns start #[])

def each (m : Machine) (body : Node) (discards : Bool) (span : Span) (ctx : Context) :
    List (List (String × Value)) → (collected : Array Value) → Eval (Array Value)
  | [], collected => return collected
  | names :: rest, collected => do
    let inner ← ctx.turn "<foreach>" span.start
    names.forM fun (name, value) =>
      .onFrames ctx.trace span (.declare inner.scope name value false)
    match ← m.turn body inner with
    | .next value => each m body discards span ctx rest (Loop.gather discards collected value)
    | .done () => return collected

/-- `foreach items as key, value: body`. The items are those at the beginning of the loop. -/
def eachLoop (m : Machine) (source : Node) (key : Option String) (value : String) (body : Node)
    (discards : Bool) (span : Span) (ctx : Context) : Eval Value := do
  let source ← m.eval source ctx
  let keysOnly := source matches .dict _
  match source.items (← get).heap with
  | some items =>
    let names := items.map (Loop.itemNames key value keysOnly)
    Loop.collect discards (← m.each body discards span ctx names #[])
  | none => .fail ctx.trace span (.notIterable source.typeName)

def repeatWhile (m : Machine) (condition body : Node) (discards : Bool) (span : Span)
    (ctx : Context) : (turns : Nat) → (collected : Array Value) → Eval (Array Value)
  | 0, _ => throw .exhausted
  | turns + 1, collected => do
    if !(← .isTrue (← m.eval condition ctx)) then return collected
    match ← m.turn body (← ctx.turn "<while>" span.start) with
    | .next value =>
      let collected := Loop.gather discards collected value
      repeatWhile m condition body discards span ctx turns collected
    | .done () => return collected

/-- `while condition: body`. -/
def whileLoop (m : Machine) (condition body : Node) (discards : Bool) (span : Span)
    (ctx : Context) : Eval Value := do
  Loop.collect discards (← m.repeatWhile condition body discards span ctx m.turns #[])

end Machine

end ScriptLang
