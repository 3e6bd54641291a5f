import ScriptLang.Grammar.Parser

/-! Assignments, and operators that assign, which stand for plain assignments. -/
namespace ScriptLang

/-- `left op right`. -/
def Node.binary (op : BinaryOp) (left right : Node) : Node :=
  ⟨.binary op left right, left.span.cover right.span⟩

/-- The shape that writes `value` where `target` reads, if a value can be written there. Slices and
null-safe chains cannot be written. -/
def Node.written? (target value : Node) : Option (Shape Node) :=
  match target.shape with
  | .lookup name => some (.assign name value)
  | .index _ (.slice _ _) _ => none
  | .index owner index false => some (.assignIndex owner index value)
  | .property owner name false => some (.assignProperty owner name value)
  | .staticProperty owner name false => some (.assignStatic owner name value)
  | _ => none

namespace Parser

/-- `target = value`. -/
def assign (target value : Node) : Parser Node :=
  match target.written? value with
  | some shape => return ⟨shape, target.span.cover value.span⟩
  | none => fault .invalidTarget target.span

/-- `target op= value`, with the operator at hand, stands for `target = target op value`. -/
def compound (g : Grammar) (op : BinaryOp) (target : Node) : Parser Node := do
  discard advance
  let value ← g.expression
  assign target (.binary op target value)

def increments : Parser (Int × Span) := do
  let start ← here
  let turn (delta : Int) : Parser (Turn Int Int) := do
    match ← kind with
    | .symbol .plusPlus => discard advance; return .next (delta + 1)
    | .symbol .minusMinus => discard advance; return .next (delta - 1)
    | _ => return .done delta
  let delta ← loop turn 0
  return (delta, start.cover (← previous))

/-- `target` with a run of `++` and `--` stands for `target = target + delta`. -/
def increment (target : Node) (delta : Int) (span : Span) : Parser Node := do
  let node ← assign target (.binary .add target ⟨.number (Float.ofInt delta), span⟩)
  return { node with span := node.span.cover span }

end Parser

end ScriptLang
