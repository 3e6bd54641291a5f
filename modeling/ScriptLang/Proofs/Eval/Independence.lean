import ScriptLang.Proofs.Eval.Rule

/-! Positions and callers have an effect on diagnostics only. -/
namespace ScriptLang

/-- Two runs may differ in all positions, and in what the `hidden` frames hold. -/
def anyPositions (hidden : FrameId → Prop) : Difference where
  spans _ _ := True
  hidden

def Machine.bounded (limit fuel : Nat) : Machine := ⟨limit, fuel, evaluate limit fuel⟩

/-- Related nodes, evaluated in related contexts and states, give related values, interrupts and
states with the same output, and fail for the same cause. Nothing relates the positions of both sides,
or the calls that led to them.

So does a call of related functions, whoever calls: variables of the callers can differ, as long as
their frames are `hidden`, that is, not captured by a function or a class that can be reached. -/
theorem evaluation_independent_of_positions (limit fuel : Nat) (hidden : FrameId → Prop) :
    (∀ {a b : Node} {c d : Context} {s t : Store}, SameCode (anyPositions hidden) a b →
      Context.Alike (anyPositions hidden) c d → Store.Alike (anyPositions hidden) s t →
      Ended (Interrupt.Alike (anyPositions hidden)) (Store.Alike (anyPositions hidden))
        (Value.Alike (anyPositions hidden)) (evaluate limit fuel a c s) (evaluate limit fuel b d t)) ∧
    (∀ {f g : Value} {args args' : List Value} {span span' : Span} {caller caller' : Context}
      {s t : Store}, Value.Alike (anyPositions hidden) f g →
      List.Forall₂ (Value.Alike (anyPositions hidden)) args args' →
      Store.Alike (anyPositions hidden) s t →
      Ended (Interrupt.Alike (anyPositions hidden)) (Store.Alike (anyPositions hidden))
        (Value.Alike (anyPositions hidden))
        ((Machine.bounded limit fuel).callValue f args span caller.trace s)
        ((Machine.bounded limit fuel).callValue g args' span' caller'.trace t)) := by
  have heval {a b : Node} {c d : Context} (hab : SameCode (anyPositions hidden) a b)
      (hcd : Context.Alike (anyPositions hidden) c d) :=
    evaluate_alike (fun _ => trivial) limit fuel hab hcd
  refine ⟨fun hab hcd hs => heval hab hcd _ _ hs, ?_⟩
  intro f g args args' span span' caller caller' s t hfg hargs hs
  have hm : Machine.Alike (anyPositions hidden) (.bounded limit fuel) (.bounded limit fuel) :=
    ⟨rfl, rfl, heval⟩
  exact hm.callValue hargs (fun _ => trivial) hfg s t hs

def xReader (span : Span) : FunctionDef Node := ⟨0, some "f", [], ⟨.lookup "x", span⟩, true, span⟩

def stateOfCaller (x : Value) : Store where
  frames := ⟨#[[("x", ⟨.number 1, false⟩)], [("x", ⟨x, false⟩)]]⟩

private theorem stateOfCaller_alike (x y : Value) :
    Store.Alike (anyPositions (· = ⟨1⟩)) (stateOfCaller x) (stateOfCaller y) := by
  refine ⟨⟨.empty, .empty⟩, ⟨rfl, ?_, ?_⟩, .empty, .empty, rfl, rfl⟩
  · rintro _ rfl
    exact Nat.lt_succ_self 1
  · rintro ⟨_ | _ | index⟩ hidden
    · exact .cons (.mk "x" (.mk false (.number 1))) .nil
    · exact absurd rfl hidden
    · exact .nil

/-- Read from different places and called from code in which `x` is `2` and a text. -/
theorem xReader_call_independent :
    let function (span : Span) := Value.function ⟨xReader span, ⟨⟨0⟩, []⟩, none, none⟩
    let definition (span : Span) : Node := ⟨.function (xReader span), span⟩
    let context (label : String) : Context := ⟨⟨label, []⟩, ⟨⟨0⟩, []⟩, none⟩
    let elsewhere : Span := ⟨⟨4, 1, 2⟩, ⟨5, 1, 3⟩⟩
    let alike := Ended (Interrupt.Alike (anyPositions (· = ⟨1⟩))) (Store.Alike (anyPositions (· = ⟨1⟩)))
      (Value.Alike (anyPositions (· = ⟨1⟩)))
    Store.Alike (anyPositions (· = ⟨1⟩)) (stateOfCaller (.number 2)) (stateOfCaller (.text "other")) ∧
    alike
      (evaluate 9 9 (definition (.point .origin)) (context "<program>") (stateOfCaller (.number 2)))
      (evaluate 9 9 (definition elsewhere) (context "g") (stateOfCaller (.text "other"))) ∧
    alike
      ((Machine.bounded 9 9).callValue (function (.point .origin)) [] (.point .origin)
        (context "<program>").trace (stateOfCaller (.number 2)))
      ((Machine.bounded 9 9).callValue (function elsewhere) [] elsewhere (context "g").trace
        (stateOfCaller (.text "other"))) := by
  intro function definition context elsewhere alike
  have hstate := stateOfCaller_alike (.number 2) (.text "other")
  have hscope : Scope.Alike (anyPositions (· = ⟨1⟩)) ⟨⟨0⟩, []⟩ ⟨⟨0⟩, []⟩ := by
    refine .mk ?_
    rintro id hid rfl
    cases List.mem_singleton.mp hid
  have hcode : FunctionDef.Alike (anyPositions (· = ⟨1⟩)).spans 0
      (SameCode (anyPositions (· = ⟨1⟩))) (xReader (.point .origin)) (xReader elsewhere) :=
    .mk 0 (some "f") true .nil (.mk (.lookup "x") trivial) trivial
  have hnode : SameCode (anyPositions (· = ⟨1⟩)) (definition (.point .origin)) (definition elsewhere) :=
    .mk (.function hcode) trivial
  have hcontext : Context.Alike (anyPositions (· = ⟨1⟩)) (context "<program>") (context "g") :=
    ⟨hscope, .none⟩
  obtain ⟨heval, hcall⟩ := evaluation_independent_of_positions 9 9 (· = ⟨1⟩)
  refine ⟨hstate, heval hnode hcontext hstate, ?_⟩
  exact hcall (.function (.mk hcode hscope .none .none)) .nil hstate

end ScriptLang
