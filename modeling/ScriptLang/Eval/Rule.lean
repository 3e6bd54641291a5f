import ScriptLang.Eval.Builtin
import ScriptLang.Eval.Class
import ScriptLang.Eval.Loop
import ScriptLang.Value.Operation

/-! The rules of evaluation: one for each kind of node. -/
namespace ScriptLang

namespace Context

def function (ctx : Context) (definition : FunctionDef Node) (span : Span) : Eval Value := do
  let value := Value.function ⟨definition, ctx.scope, ctx.classScope, none⟩
  if let some name := definition.name then ctx.declare span name value
  return value

def enumeration (ctx : Context) (name : String) (members : List String) (span : Span) :
    Eval Value := do
  let entries := members.zipIdx.map fun (member, index) =>
    (member, Value.number (Float.ofNat index))
  let value ← .newDict (.ofList entries)
  ctx.declareConstant span name value
  return value

end Context

namespace Machine

def template (m : Machine) (parts : List (TemplatePart Node)) (ctx : Context) : Eval Value := do
  let text ← parts.foldlM (fun text part => do
    match part with
    | .text value => return text ++ value
    | .expression node =>
      let value ← m.eval node ctx
      return text ++ (← m.text value node.span ctx.trace)) ""
  return .text text

def dictLiteral (m : Machine) (entries : List (String × Node)) (ctx : Context) : Eval Value := do
  let entries ← entries.foldlM (fun (read : Dict Value) (key, node) =>
    return read.insert key (← m.eval node ctx)) .empty
  .newDict entries

/-- `target[…]`. -/
def readIndex (m : Machine) (target : Value) (index : Index Node) (span : Span) (ctx : Context) :
    Eval Value := do
  match index with
  | .single key =>
    let key ← m.eval key ctx
    .onHeap ctx.trace span (.readElement target key)
  | .slice start stop =>
    let start ← start.mapM (m.eval · ctx)
    let stop ← stop.mapM (m.eval · ctx)
    .onHeap ctx.trace span (.readSlice target start stop)
  | .push => .fail ctx.trace span (.invalidIndex "[]")

/-- `target[…] = value`. -/
def writeIndex (m : Machine) (target : Node) (index : Index Node) (value : Node) (span : Span)
    (ctx : Context) : Eval Value := do
  let target ← m.eval target ctx
  let key ← match index with
    | .single key => some <$> m.eval key ctx
    | .push => pure none
    | .slice _ _ => .fail ctx.trace span (.invalidIndex "a slice")
  let value ← m.eval value ctx
  .onHeap ctx.trace span (.writeElement target key value)
  return value

/-- `delete target`. -/
def delete (m : Machine) (target : Node) (span : Span) (ctx : Context) : Eval Value := do
  match target.shape with
  | .lookup name => discard (.onFrames ctx.trace span (.remove ctx.scope name))
  | .index target (.single key) _ =>
    let target ← m.eval target ctx
    let key ← m.eval key ctx
    discard (.onHeap ctx.trace span (.removeElement target key))
  | _ => .fail ctx.trace span .invalidDeletion
  return .nothing

/-- An operator between two nodes. The right one is evaluated only if it is needed, and instances give
their own texts. -/
def binary (m : Machine) (op : BinaryOp) (left right : Node) (span : Span) (ctx : Context) :
    Eval Value := do
  let left ← m.eval left ctx
  match op with
  | .and => if ← .isTrue left then m.eval right ctx else return left
  | .or => if ← .isTrue left then return left else m.eval right ctx
  | .nullish => if left.isNothing then m.eval right ctx else return left
  | .add =>
    let right ← m.eval right ctx
    if Action.concatenates left right then
      let left ← m.text left span ctx.trace
      let right ← m.text right span ctx.trace
      .onHeap ctx.trace span (.concatenate left right)
    else .onHeap ctx.trace span (.binary .add left right)
  | _ =>
    let right ← m.eval right ctx
    .onHeap ctx.trace span (.binary op left right)

def branch (m : Machine) (body : Node) (discards : Bool) (ctx : Context) : Eval Value := do
  let value ← m.eval body ctx
  return if discards then .nothing else value

def conditional (m : Machine) (otherwise : Option Node) (discardOtherwise : Bool) (ctx : Context) :
    List (Branch Node) → Eval Value
  | [] =>
    match otherwise with
    | some body => m.branch body discardOtherwise ctx
    | none => return .nothing
  | first :: rest => do
    if ← .isTrue (← m.eval first.condition ctx) then m.branch first.body first.discard ctx
    else conditional m otherwise discardOtherwise ctx rest

def switch (m : Machine) (otherwise : Option Node) (ctx : Context) :
    List (Node × Node) → Eval Value
  | [] =>
    match otherwise with
    | some body => m.branch body true ctx
    | none => return .nothing
  | (test, body) :: rest => do
    if ← .isTrue (← m.eval test ctx) then m.branch body true ctx
    else switch m otherwise ctx rest

/-- The cases of a switch are branches whose values are discarded. -/
theorem switch_eq_conditional (m : Machine) (otherwise : Option Node) (ctx : Context) (cases : List (Node × Node)) :
    m.switch otherwise ctx cases =
      m.conditional otherwise true ctx (cases.map fun case => ⟨case.1, case.2, true⟩) := by
  induction cases with
  | nil => rfl
  | cons first rest ih => rw [switch, List.map_cons, conditional, ih]

def block (m : Machine) (statements : List Node) (ctx : Context) : Eval Value :=
  statements.foldlM (fun _ statement => m.eval statement ctx) .nothing

/-- The part of a chain behind `target`; on a null-safe chain `none` gives `none`. -/
def link (m : Machine) (target : Node) (optional : Bool) (ctx : Context)
    (rest : Value → Eval Value) : Eval Value := do
  let target ← m.eval target ctx
  if optional && target.isNothing then return .nothing
  rest target

def rule (m : Machine) (node : Node) (ctx : Context) : Eval Value := do
  let span := node.span
  match node.shape with
  | .number value => return .number value
  | .text value => return .text value
  | .template parts => m.template parts ctx
  | .boolean value => return .boolean value
  | .nothing => return .nothing
  | .list elements => .newList (← m.values elements ctx).toArray
  | .dict entries => m.dictLiteral entries ctx
  | .declare name value =>
    let value ← m.eval value ctx
    ctx.declare span name value
    return value
  | .declareConstant name value =>
    let value ← m.eval value ctx
    ctx.declareConstant span name value
    return value
  | .lookup name =>
    match ← .lookup? ctx.scope name with
    | some value => return value
    | none => .fail ctx.trace span (.undefinedVariable name)
  | .assign name value =>
    let value ← m.eval value ctx
    .onFrames ctx.trace span (.assign ctx.scope name value)
    return value
  | .delete target => m.delete target span ctx
  | .index target index optional =>
    m.link target optional ctx fun target => m.readIndex target index span ctx
  | .assignIndex target index value => m.writeIndex target index value span ctx
  | .property target name optional =>
    m.link target optional ctx fun target => m.readProperty target name span ctx
  | .assignProperty target name value =>
    let target ← m.eval target ctx
    let value ← m.eval value ctx
    m.writeProperty target name value span ctx
    return value
  | .staticProperty target name optional =>
    m.link target optional ctx fun target => ctx.readStatic target name span
  | .assignStatic target name value =>
    let target ← m.eval target ctx
    let value ← m.eval value ctx
    ctx.writeStatic target name value span
    return value
  | .binary op left right => m.binary op left right span ctx
  | .unary op operand =>
    let operand ← m.eval operand ctx
    .onHeap ctx.trace span (.unary op operand)
  | .conditional branches otherwise discards => m.conditional otherwise discards ctx branches
  | .countingLoop name start stop step body discards =>
    m.countingLoop name start stop step body discards span ctx
  | .eachLoop items key value body discards => m.eachLoop items key value body discards span ctx
  | .whileLoop condition body discards => m.whileLoop condition body discards span ctx
  | .switch cases otherwise => m.switch otherwise ctx cases
  | .block statements => m.block statements ctx
  | .function definition => ctx.function definition span
  | .call callee args optional =>
    m.link callee optional ctx fun callee => do
      m.callValue callee (← m.values args ctx) span ctx.trace
  | .returnWith value =>
    let value ← match value with
      | some node => m.eval node ctx
      | none => pure .nothing
    throw (.returned value)
  | .continueLoop => throw .continued
  | .breakLoop => throw .broken
  | .pass => return .nothing
  | .classDefinition definition => m.defineClass definition span ctx
  | .instantiate cls args => m.instantiate cls args span ctx
  | .superCall args => m.superCall args span ctx
  | .superProperty name => m.superProperty name span ctx
  | .enumeration name members => ctx.enumeration name members span

end Machine

/-- Evaluates a node in at most `fuel` nested steps, with calls nested at most `limit` deep. -/
def evaluate (limit : Nat) : (fuel : Nat) → Node → Context → Eval Value
  | 0, _, _ => throw .exhausted
  | fuel + 1, node, ctx => Machine.rule ⟨limit, fuel, evaluate limit fuel⟩ node ctx

end ScriptLang
