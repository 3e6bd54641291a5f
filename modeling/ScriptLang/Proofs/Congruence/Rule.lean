import ScriptLang.Proofs.Congruence.Call
import ScriptLang.Session

/-! Congruences for loops and all rules of evaluation. Main statement: machines with congruent parts evaluate
all nodes alike, if they do so where instances are made. -/
namespace ScriptLang

variable {R : EvalRel} {m n : Machine} {limit : Nat} {own : Option FrameId} {ctx : Context} {span : Span}

namespace Machine

/-- A turn of a loop: declares names in a frame of its own, and runs the body there. -/
def iteration (m : Machine) (label : String) (names : List (String × Value)) (body : Node) (span : Span)
    (ctx : Context) : Eval (Turn (Option Value) Unit) := do
  let inner ← ctx.turn label span.start
  names.forM fun (name, value) => .onFrames ctx.trace span (.declare inner.scope name value false)
  m.turn body inner

/-- What follows a turn: the `rest` of the loop, unless the turn was the last. -/
def proceed (discards : Bool) (collected : Array Value) (rest : Array Value → Eval (Array Value)) :
    Turn (Option Value) Unit → Eval (Array Value)
  | .next value => rest (Loop.gather discards collected value)
  | .done () => return collected

variable (m) (discards : Bool) (collected : Array Value)

theorem count_succ (name : String) (stop step : Float) (body : Node) (turns : Nat) (current : Float) :
    m.count name stop step body discards span ctx (turns + 1) current collected = (do
      if !Loop.inRange current stop step then return collected
      m.iteration "<for>" [(name, .number current)] body span ctx >>=
        proceed discards collected (m.count name stop step body discards span ctx turns (current + step))) := by
  rw [count]
  split
  · rfl
  · simp only [iteration, List.forM, bind_assoc, pure_bind]
    rfl

theorem each_cons (body : Node) (names : List (String × Value)) (items : List (List (String × Value))) :
    m.each body discards span ctx (names :: items) collected =
      m.iteration "<foreach>" names body span ctx >>=
        proceed discards collected (m.each body discards span ctx items) := by
  rw [each]
  simp only [iteration, bind_assoc]
  rfl

theorem repeatWhile_succ (condition body : Node) (turns : Nat) :
    m.repeatWhile condition body discards span ctx (turns + 1) collected = (do
      if !(← .isTrue (← m.eval condition ctx)) then return collected
      m.iteration "<while>" [] body span ctx >>=
        proceed discards collected (m.repeatWhile condition body discards span ctx turns)) := by
  rw [repeatWhile]
  simp only [iteration, List.forM, bind_assoc, pure_bind]
  rfl

end Machine

theorem Eval.Congruence.collect (hR : Congruence limit R) (discards : Bool) (collected : Array Value) :
    R own (Loop.collect discards collected) (Loop.collect discards collected) := by
  cases discards with
  | true => exact hR.pure _
  | false => exact hR.newList _

theorem Eval.Congruence.function (hR : Congruence limit R) (definition : FunctionDef Node) :
    R ctx.own (ctx.function definition span) (ctx.function definition span) := by
  unfold Context.function
  cases definition.name with
  | none => exact hR.pure _
  | some name => exact hR.bind (hR.declareIn _ _ _ _) fun _ => hR.pure _

theorem Eval.Congruence.enumeration (hR : Congruence limit R) (name : String) (members : List String) :
    R ctx.own (ctx.enumeration name members span) (ctx.enumeration name members span) :=
  hR.bind (hR.newDict _) fun _ => hR.bind (hR.declareConstantIn _ _ _ _) fun _ => hR.pure _

namespace Machine.Congruent

variable (hR : Eval.Congruence n.limit R) (h : Congruent R m n)

include hR h

theorem turn (body : Node) (ctx : Context) : R ctx.own (m.turn body ctx) (n.turn body ctx) := by
  refine hR.tryCatch (hR.bind (h.eval body ctx) fun _ => hR.pure _) fun i => ?_
  cases i with
  | continued | broken => exact hR.pure _
  | returned | failed | exhausted => exact hR.throw _

theorem iteration (label : String) (names : List (String × Value)) (body : Node) :
    R own (m.iteration label names body span ctx) (n.iteration label names body span ctx) := by
  unfold Machine.iteration Context.turn
  simp only [bind_assoc, pure_bind]
  refine hR.innerScope fun scope => hR.bind (hR.forM names fun _ => hR.declare _ _ scope _ _ _) fun _ => ?_
  exact h.turn hR body ⟨_, scope, ctx.classScope⟩

theorem proceed (label : String) (names : List (String × Value)) (body : Node) {discards : Bool}
    {collected : Array Value} {rest rest' : Array Value → Eval (Array Value)}
    (hrest : ∀ collected, R own (rest collected) (rest' collected)) :
    R own (m.iteration label names body span ctx >>= proceed discards collected rest)
      (n.iteration label names body span ctx >>= proceed discards collected rest') := by
  refine hR.bind (h.iteration hR label names body) fun turn => ?_
  cases turn with
  | next value => exact hrest _
  | done => exact hR.pure _

theorem bound (what : String) (node : Node) : R ctx.own (m.bound what node ctx) (n.bound what node ctx) := by
  refine hR.bind (h.eval node ctx) fun value => ?_
  cases value with
  | number x => exact hR.pure _
  | _ => exact hR.fail

theorem step (node : Option Node) (start stop : Float) :
    R ctx.own (m.step node start stop ctx) (n.step node start stop ctx) := by
  cases node with
  | none => exact hR.pure _
  | some node =>
    refine hR.bind (h.bound hR _ node) fun step => ?_
    dsimp only
    split
    · exact hR.fail_bind
    · exact hR.pure _

theorem count (name : String) (stop step : Float) (body : Node) (discards : Bool) (turns : Nat)
    (current : Float) (collected : Array Value) :
    R own (m.count name stop step body discards span ctx turns current collected)
      (n.count name stop step body discards span ctx turns current collected) := by
  induction turns generalizing current collected with
  | zero => exact hR.throw _
  | succ turns ih =>
    rw [count_succ, count_succ]
    split
    · exact hR.pure _
    · exact h.proceed hR _ _ body fun collected => ih _ collected

theorem countingLoop (name : String) (start : Option Node) (stop : Node) (step : Option Node) (body : Node)
    (discards : Bool) :
    R ctx.own (m.countingLoop name start stop step body discards span ctx)
      (n.countingLoop name start stop step body discards span ctx) := by
  unfold Machine.countingLoop
  rw [h.turns]
  have hloop (first : Float) : R ctx.own
      (do
        let stop ← m.bound "end" stop ctx
        let step ← m.step step first stop ctx
        Loop.collect discards (← m.count name stop step body discards span ctx n.turns first #[]))
      (do
        let stop ← n.bound "end" stop ctx
        let step ← n.step step first stop ctx
        Loop.collect discards (← n.count name stop step body discards span ctx n.turns first #[])) := by
    refine hR.bind (h.bound hR _ stop) fun stop => hR.bind (h.step hR step first stop) fun step => ?_
    exact hR.bind (h.count hR name stop step body discards _ _ _) fun _ => hR.collect _ _
  cases start with
  | none => exact hloop 0
  | some node => exact hR.bind (h.bound hR _ node) hloop

theorem each (body : Node) (discards : Bool) (items : List (List (String × Value))) (collected : Array Value) :
    R own (m.each body discards span ctx items collected) (n.each body discards span ctx items collected) := by
  induction items generalizing collected with
  | nil => exact hR.pure _
  | cons names items ih =>
    rw [each_cons, each_cons]
    exact h.proceed hR _ names body ih

theorem eachLoop (source : Node) (key : Option String) (value : String) (body : Node) (discards : Bool) :
    R ctx.own (m.eachLoop source key value body discards span ctx)
      (n.eachLoop source key value body discards span ctx) := by
  refine hR.bind (h.eval source ctx) fun source => hR.get (fun _ _ => rfl) (fun _ _ => rfl) fun s => ?_
  cases source.items s.heap with
  | none => exact hR.fail
  | some items => exact hR.bind (h.each hR body discards _ _) fun _ => hR.collect _ _

theorem repeatWhile (condition body : Node) (discards : Bool) (turns : Nat) (collected : Array Value) :
    R ctx.own (m.repeatWhile condition body discards span ctx turns collected)
      (n.repeatWhile condition body discards span ctx turns collected) := by
  induction turns generalizing collected with
  | zero => exact hR.throw _
  | succ turns ih =>
    rw [repeatWhile_succ, repeatWhile_succ]
    refine hR.bind (h.eval condition ctx) fun value => hR.bind (hR.isTrue value) fun holds => ?_
    split
    · exact hR.pure _
    · exact h.proceed hR _ _ body ih

theorem whileLoop (condition body : Node) (discards : Bool) :
    R ctx.own (m.whileLoop condition body discards span ctx) (n.whileLoop condition body discards span ctx) := by
  unfold Machine.whileLoop
  rw [h.turns]
  exact hR.bind (h.repeatWhile hR condition body discards _ _) fun _ => hR.collect _ _

theorem template (parts : List (TemplatePart Node)) : R ctx.own (m.template parts ctx) (n.template parts ctx) := by
  refine hR.bind (hR.foldlM parts (fun text part => ?_) _) fun _ => hR.pure _
  cases part with
  | text value => exact hR.pure _
  | expression node =>
    exact hR.bind (h.eval node ctx) fun value => hR.bind (h.text hR value) fun _ => hR.pure _

theorem dictLiteral (entries : List (String × Node)) :
    R ctx.own (m.dictLiteral entries ctx) (n.dictLiteral entries ctx) := by
  refine hR.bind (hR.foldlM entries (fun read entry => ?_) _) fun _ => hR.newDict _
  exact hR.bind (h.eval entry.2 ctx) fun _ => hR.pure _

theorem readIndex (target : Value) (index : Index Node) :
    R ctx.own (m.readIndex target index span ctx) (n.readIndex target index span ctx) := by
  cases index with
  | single key => exact hR.bind (h.eval key ctx) fun _ => hR.onHeap _ _ _
  | slice start stop =>
    refine hR.bind (hR.optionM start fun node => h.eval node ctx) fun _ => ?_
    exact hR.bind (hR.optionM stop fun node => h.eval node ctx) fun _ => hR.onHeap _ _ _
  | push => exact hR.fail

theorem writeIndex (target : Node) (index : Index Node) (value : Node) :
    R ctx.own (m.writeIndex target index value span ctx) (n.writeIndex target index value span ctx) := by
  refine hR.bind (h.eval target ctx) fun target => ?_
  have hwrite (key : Option Value) : R ctx.own
      (do
        let value ← m.eval value ctx
        .onHeap ctx.trace span (.writeElement target key value)
        return value)
      (do
        let value ← n.eval value ctx
        .onHeap ctx.trace span (.writeElement target key value)
        return value) :=
    hR.bind (h.eval value ctx) fun _ => hR.bind (hR.onHeap _ _ _) fun _ => hR.pure _
  cases index with
  | single key => exact hR.bind (hR.map some (h.eval key ctx)) hwrite
  | push => exact hwrite none
  | slice => exact hR.fail_bind

theorem delete (target : Node) : R ctx.own (m.delete target span ctx) (n.delete target span ctx) := by
  unfold Machine.delete
  split
  · exact hR.bind (hR.discard (hR.remove _ _ _ _)) fun _ => hR.pure _
  · refine hR.bind (h.eval _ ctx) fun target => hR.bind (h.eval _ ctx) fun key => ?_
    exact hR.bind (hR.discard (hR.onHeap _ _ _)) fun _ => hR.pure _
  · exact hR.fail_bind

theorem binary (op : BinaryOp) (left right : Node) :
    R ctx.own (m.binary op left right span ctx) (n.binary op left right span ctx) := by
  refine hR.bind (h.eval left ctx) fun left => ?_
  have hright (op : BinaryOp) : R ctx.own
      (do
        let right ← m.eval right ctx
        .onHeap ctx.trace span (.binary op left right))
      (do
        let right ← n.eval right ctx
        .onHeap ctx.trace span (.binary op left right)) :=
    hR.bind (h.eval right ctx) fun _ => hR.onHeap _ _ _
  cases op with
  | and =>
    refine hR.bind (hR.isTrue left) fun holds => ?_
    cases holds with
    | true => exact h.eval right ctx
    | false => exact hR.pure _
  | or =>
    refine hR.bind (hR.isTrue left) fun holds => ?_
    cases holds with
    | true => exact hR.pure _
    | false => exact h.eval right ctx
  | nullish =>
    dsimp only
    split
    · exact h.eval right ctx
    · exact hR.pure _
  | add =>
    refine hR.bind (h.eval right ctx) fun right => ?_
    split
    · exact hR.bind (h.text hR left) fun _ => hR.bind (h.text hR right) fun _ => hR.onHeap _ _ _
    · exact hR.onHeap _ _ _
  | _ => exact hright _

theorem branch (body : Node) (discards : Bool) : R ctx.own (m.branch body discards ctx) (n.branch body discards ctx) :=
  hR.bind (h.eval body ctx) fun _ => hR.pure _

theorem conditional (otherwise : Option Node) (discardOtherwise : Bool) (branches : List (Branch Node)) :
    R ctx.own (m.conditional otherwise discardOtherwise ctx branches)
      (n.conditional otherwise discardOtherwise ctx branches) := by
  induction branches with
  | nil =>
    cases otherwise with
    | some body => exact h.branch hR body _
    | none => exact hR.pure _
  | cons first rest ih =>
    rw [Machine.conditional, Machine.conditional]
    refine hR.bind (h.eval _ ctx) fun value => hR.bind (hR.isTrue value) fun holds => ?_
    split
    · exact h.branch hR _ _
    · exact ih

theorem block (statements : List Node) : R ctx.own (m.block statements ctx) (n.block statements ctx) :=
  hR.foldlM statements (fun _ statement => h.eval statement ctx) _

theorem link (target : Node) (optional : Bool) {p q : Value → Eval Value}
    (rest : ∀ value, R ctx.own (p value) (q value)) :
    R ctx.own (m.link target optional ctx p) (n.link target optional ctx q) := by
  refine hR.bind (h.eval target ctx) fun target => ?_
  split
  · exact hR.pure _
  · exact rest target

/-- The value of a node, kept by a step that gives nothing. -/
private theorem keepValue (node : Node) {p q : Value → Eval Unit}
    (step : ∀ value, R ctx.own (p value) (q value)) :
    R ctx.own
      (do
        let value ← m.eval node ctx
        p value
        return value)
      (do
        let value ← n.eval node ctx
        q value
        return value) :=
  hR.bind (h.eval node ctx) fun value => hR.bind (step value) fun _ => hR.pure _

/-- All rules, given the one for new instances. -/
theorem rule (node : Node) (hinstantiate : ∀ cls args, node.shape = .instantiate cls args →
      R ctx.own (m.instantiate cls args node.span ctx) (n.instantiate cls args node.span ctx)) :
    R ctx.own (m.rule node ctx) (n.rule node ctx) := by
  unfold Machine.rule
  dsimp only
  cases hshape : node.shape with
  | number | text | boolean | nothing | pass => exact hR.pure _
  | continueLoop | breakLoop => exact hR.throw _
  | template parts => exact h.template hR parts
  | list elements => exact hR.bind (h.values hR elements) fun _ => hR.newList _
  | dict entries => exact h.dictLiteral hR entries
  | declare name value => exact h.keepValue hR value fun _ => hR.declareIn _ _ _ _
  | declareConstant name value => exact h.keepValue hR value fun _ => hR.declareConstantIn _ _ _ _
  | lookup name =>
    refine hR.bind (hR.lookup? _ _) fun found => ?_
    cases found with
    | some value => exact hR.pure _
    | none => exact hR.fail
  | assign name value => exact h.keepValue hR value fun _ => hR.assign _ _ _ _ _
  | delete target => exact h.delete hR target
  | index target index optional => exact h.link hR target optional fun value => h.readIndex hR value index
  | assignIndex target index value => exact h.writeIndex hR target index value
  | property target name optional =>
    exact h.link hR target optional fun value => h.readProperty hR value name
  | assignProperty target name value =>
    refine hR.bind (h.eval target ctx) fun target => ?_
    exact h.keepValue hR value fun value => h.writeProperty hR target name value
  | staticProperty target name optional =>
    exact h.link hR target optional fun value => hR.readStatic value name
  | assignStatic target name value =>
    refine hR.bind (h.eval target ctx) fun target => ?_
    exact h.keepValue hR value fun value => hR.writeStatic target name value
  | binary op left right => exact h.binary hR op left right
  | unary op operand => exact hR.bind (h.eval operand ctx) fun _ => hR.onHeap _ _ _
  | conditional branches otherwise discards => exact h.conditional hR otherwise discards branches
  | countingLoop name start stop step body discards =>
    exact h.countingLoop hR name start stop step body discards
  | eachLoop items key value body discards => exact h.eachLoop hR items key value body discards
  | whileLoop condition body discards => exact h.whileLoop hR condition body discards
  | switch cases otherwise =>
    dsimp only
    rw [switch_eq_conditional, switch_eq_conditional]
    exact h.conditional hR otherwise true _
  | block statements => exact h.block hR statements
  | function definition => exact hR.function definition
  | call callee args optional =>
    refine h.link hR callee optional fun callee => ?_
    exact hR.bind (h.values hR args) fun args => h.callValue hR callee args
  | returnWith value =>
    cases value with
    | some node => exact hR.bind (h.eval node ctx) fun _ => hR.throw _
    | none => exact hR.throw _
  | classDefinition definition => exact h.defineClass hR definition
  | instantiate cls args => exact hinstantiate cls args hshape
  | superCall args => exact h.superCall hR args
  | superProperty name => exact h.superProperty hR name
  | enumeration name members => exact hR.enumeration name members

theorem program (program : Program) : R ctx.own (m.program program ctx) (n.program program ctx) :=
  hR.mapM program fun node => h.value hR node

omit hR

theorem construct (hR : Eval.FullCongruence n.limit R) (cls : Class) (args : List Value) (trace : Trace) :
    R own (m.construct cls args span trace) (n.construct cls args span trace) := by
  refine hR.bind (hR.addInstance cls) fun object => ?_
  refine hR.bind (hR.forM _ fun ancestor => ?_) fun _ => ?_
  · exact h.seed hR.toCongruence object ancestor fun _ => hR.putMember object
  · exact hR.bind (h.runConstructor hR.toCongruence cls object args) fun _ => hR.pure _

theorem full_rule (hR : Eval.FullCongruence n.limit R) (node : Node) :
    R ctx.own (m.rule node ctx) (n.rule node ctx) := by
  refine h.rule hR.toCongruence node fun cls args _ => ?_
  rw [instantiate_eq, instantiate_eq]
  exact h.instantiateBy hR.toCongruence cls args fun cls args => h.construct hR cls args _

end Machine.Congruent

theorem Eval.FullCongruence.evaluate (hR : FullCongruence limit R) (fuel : Nat) (node : Node) (ctx : Context) :
    R ctx.own (evaluate limit fuel node ctx) (evaluate limit fuel node ctx) := by
  induction fuel generalizing node ctx with
  | zero => exact hR.throw _
  | succ fuel ih =>
    have hmachine : Machine.Congruent R ⟨limit, fuel, ScriptLang.evaluate limit fuel⟩
        ⟨limit, fuel, ScriptLang.evaluate limit fuel⟩ := ⟨rfl, rfl, ih⟩
    exact hmachine.full_rule hR node

end ScriptLang
