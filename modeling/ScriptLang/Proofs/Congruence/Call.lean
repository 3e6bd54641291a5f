import ScriptLang.Eval.Builtin
import ScriptLang.Eval.Class
import ScriptLang.Proofs.Congruence.Basic

/-! Congruences for calls, members, classes and new instances. A call declares names in frames of its own. -/
namespace ScriptLang

variable {R : EvalRel} {m n : Machine} {limit : Nat} {own : Option FrameId} {ctx : Context} {span : Span}
  {trace : Trace}

namespace Eval.Congruence

variable (hR : Congruence limit R)

include hR

theorem leave (body : Node) (i : Interrupt) : R own (ctx.leave body i) (ctx.leave body i) := by
  cases i with
  | returned value => exact hR.pure value
  | broken | continued => exact hR.fail
  | failed | exhausted => exact hR.throw _

theorem checkAccess (owner : Class) (visibility : Visibility) (member : String) :
    R own (ctx.checkAccess span owner visibility member) (ctx.checkAccess span owner visibility member) := by
  unfold Context.checkAccess
  split
  · exact hR.fail
  · exact hR.pure _

theorem static (target : Value) (name : String) :
    R own (ctx.static target name span) (ctx.static target name span) := by
  have htarget : R own (ctx.staticTarget target span) (ctx.staticTarget target span) := by
    cases target with
    | «class» | «instance» => exact hR.pure _
    | _ => exact hR.fail
  refine hR.bind htarget fun cls => hR.get (fun _ _ => rfl) (fun _ _ => rfl) fun s => ?_
  cases s.static? cls name with
  | none => exact hR.fail
  | some found => exact hR.bind (hR.checkAccess _ _ _) fun _ => hR.pure _

theorem readStatic (target : Value) (name : String) :
    R own (ctx.readStatic target name span) (ctx.readStatic target name span) :=
  hR.bind (hR.static target name) fun _ => hR.pure _

theorem writeStatic (target : Value) (name : String) (value : Value) :
    R own (ctx.writeStatic target name value span) (ctx.writeStatic target name value span) := by
  refine hR.bind (hR.static target name) fun found => hR.get (fun _ _ => rfl) (fun _ _ => rfl) fun s => ?_
  cases s.ownStatic? found.owner name with
  | none => exact hR.pure _
  | some held => exact hR.putStatic _ _ _

theorem classNamed (name : String) : R own (ctx.classNamed name span) (ctx.classNamed name span) := by
  refine hR.bind (hR.lookup? _ _) fun found => ?_
  cases found with
  | none => exact hR.fail
  | some value =>
    cases value with
    | «class» cls => exact hR.pure _
    | _ => exact hR.fail

theorem superTarget : R own (ctx.superTarget span) (ctx.superTarget span) := by
  unfold Context.superTarget
  cases ctx.classScope with
  | none => exact hR.fail
  | some cls =>
    dsimp only
    cases cls.parent with
    | none => exact hR.fail
    | some parent =>
      refine hR.bind (hR.lookup? _ _) fun found => ?_
      cases found with
      | none => exact hR.fail
      | some value =>
        cases value with
        | «instance» object => exact hR.pure _
        | _ => exact hR.fail

end Eval.Congruence

/-- A property that is there is written by giving it another value. -/
theorem Machine.writeMember_eq (m : Machine) (object : Instance) (name : String) (value : Value) :
    m.writeMember object name value span ctx = (do
      match (← get).member? object name with
      | some member =>
        ctx.checkAccess span member.owner member.visibility name
        modify (·.setMember object name value)
      | none =>
        match object.cls.method? .setter name with
        | some (owner, setter) =>
          ctx.checkAccess span owner setter.flags.visibility name
          discard (m.call (owner.bind setter (some object)) [value] span ctx.trace)
        | none => .fail ctx.trace span (.unknownMember object.cls.name name)) := by
  funext s
  unfold writeMember
  rw [Eval.get_bind, Eval.get_bind]
  cases hmember : s.member? object name with
  | none => rfl
  | some member =>
    have hset : s.setMember object name value = s.putMember object name { member with value } := by
      rw [Store.setMember, hmember]
    dsimp only
    unfold Context.checkAccess
    split
    · rfl
    · exact congrArg (EStateM.Result.ok ()) hset.symm

/-- `new cls(args)`, given how the instance is made. -/
def Machine.instantiateBy (m : Machine) (make : Class → List Value → Eval Value) (cls : Node) (args : List Node)
    (span : Span) (ctx : Context) : Eval Value := do
  match ← m.eval cls ctx with
  | .class cls =>
    let args ← m.values args ctx
    .guarded m.limit ctx.trace span (make cls args)
  | other => .fail ctx.trace span (.notAClass other.typeName)

theorem Machine.instantiate_eq (m : Machine) (cls : Node) (args : List Node) :
    m.instantiate cls args span ctx =
      m.instantiateBy (fun cls args => m.construct cls args span ctx.trace) cls args span ctx :=
  rfl

namespace Machine.Congruent

variable (hR : Eval.Congruence n.limit R) (h : Congruent R m n)

include hR h

theorem value (node : Node) : R ctx.own (m.value node ctx) (n.value node ctx) := by
  refine hR.tryCatch (h.eval node ctx) fun i => ?_
  cases i with
  | returned | broken | continued => exact hR.fail
  | failed | exhausted => exact hR.throw _

theorem values (nodes : List Node) : R ctx.own (m.values nodes ctx) (n.values nodes ctx) :=
  hR.mapM nodes fun node => h.eval node ctx

theorem argument (param : Param Node) (args : List Value) :
    R ctx.own (m.argument ctx param args) (n.argument ctx param args) := by
  unfold Machine.argument
  split
  · exact hR.bind (hR.newList _) fun _ => hR.pure _
  · cases args with
    | cons value rest => exact hR.pure _
    | nil =>
      cases param.fallback with
      | none => exact hR.pure _
      | some node => exact hR.bind (h.value hR node) fun _ => hR.pure _

theorem bind (site : CallSite) (params : List (Param Node)) (args : List Value) :
    R ctx.own (m.bind site ctx params args) (n.bind site ctx params args) := by
  induction params generalizing args with
  | nil => exact hR.pure _
  | cons param params ih =>
    rw [Machine.bind, Machine.bind]
    refine hR.bind (h.argument hR param args) ?_
    rintro ⟨value, rest⟩
    dsimp only
    split
    · exact hR.fail_bind
    · exact hR.bind (hR.declare _ _ _ _ _ _) fun _ => hR.bind (ih rest) fun _ => hR.pure _

theorem bindArguments (site : CallSite) (params : List (Param Node)) (args : List Value) (ctx : Context) :
    R ctx.own (m.bindArguments site ctx params args) (n.bindArguments site ctx params args) := by
  unfold Machine.bindArguments
  dsimp only
  split
  · exact hR.fail_bind
  · exact h.bind hR site params args

theorem runBody (code : FunctionDef Node) : R ctx.own (m.runBody code ctx) (n.runBody code ctx) :=
  hR.tryCatch (hR.bind (h.eval code.body ctx) fun _ => hR.pure _) (hR.leave code.body)

theorem invoke (closure : Closure) (args : List Value) (site : CallSite) :
    R own (m.invoke closure args site) (n.invoke closure args site) := by
  refine hR.innerScope fun scope => ?_
  have hbody (ctx : Context) : R ctx.own
      (do
        discard (m.bindArguments site ctx closure.code.params args)
        m.runBody closure.code ctx)
      (do
        discard (n.bindArguments site ctx closure.code.params args)
        n.runBody closure.code ctx) :=
    hR.bind (hR.discard (h.bindArguments hR site _ args ctx)) fun _ => h.runBody hR closure.code
  cases closure.receiver with
  | none => exact hbody ⟨site.trace, scope, closure.classScope⟩
  | some object =>
    exact hR.bind (hR.declare _ _ _ _ _ _) fun _ => hbody ⟨site.trace, scope, closure.classScope⟩

theorem call (closure : Closure) (args : List Value) :
    R own (m.call closure args span trace) (n.call closure args span trace) := by
  unfold Machine.call
  rw [h.limit]
  exact hR.guarded _ _ (h.invoke hR closure args _)

theorem nestedText (room : Nat) (around : List Handle) (value : Value) :
    R own (m.nestedText span trace room around value) (n.nestedText span trace room around value) := by
  induction room generalizing around value with
  | zero => cases value <;> exact hR.pure _
  | succ room ih =>
    cases value with
    | list id =>
      rw [Machine.nestedText, Machine.nestedText]
      split
      · exact hR.pure _
      · refine hR.get (fun _ _ => rfl) (fun _ _ => rfl) fun s => ?_
        exact hR.bind (hR.mapM _ fun element => ih _ element) fun _ => hR.pure _
    | dict id =>
      rw [Machine.nestedText, Machine.nestedText]
      split
      · exact hR.pure _
      · refine hR.get (fun _ _ => rfl) (fun _ _ => rfl) fun s => ?_
        refine hR.bind (hR.mapM _ fun (key, element) => ?_) fun _ => hR.pure _
        exact hR.bind (ih _ element) fun _ => hR.pure _
    | «instance» object =>
      rw [Machine.nestedText, Machine.nestedText]
      cases object.textMethod? with
      | none => exact hR.pure _
      | some method =>
        dsimp only
        split
        · exact hR.pure _
        · refine hR.bind (h.call hR method []) fun result => ?_
          cases result with
          | text text => exact hR.pure _
          | _ => exact ih _ _
    | _ => exact hR.pure _

theorem text (value : Value) : R own (m.text value span trace) (n.text value span trace) :=
  h.nestedText hR _ _ value

theorem print (values : List Value) : R own (m.print values span trace) (n.print values span trace) := by
  refine hR.bind (hR.mapM values fun value => h.text hR value) fun texts => ?_
  exact hR.bind (hR.print _) fun _ => hR.pure _

theorem runBuiltin (b : Builtin) (args : List Value) :
    R own (m.runBuiltin b args span trace) (n.runBuiltin b args span trace) := by
  unfold Machine.runBuiltin
  split
  · exact hR.get (fun _ _ => rfl) (fun _ _ => rfl) fun s => h.print hR _
  · exact hR.bind (h.text hR _) fun _ => hR.pure _
  · exact hR.onHeap _ _ _

theorem invokeBuiltin (b : Builtin) (args : List Value) (site : CallSite) :
    R own (m.invokeBuiltin b args site) (n.invokeBuiltin b args site) := by
  refine hR.newFrame fun id => ?_
  exact hR.bind (h.bindArguments hR site _ args ⟨site.trace, ⟨id, []⟩, none⟩) fun bound =>
    h.runBuiltin hR b bound

theorem callValue (callee : Value) (args : List Value) :
    R own (m.callValue callee args span trace) (n.callValue callee args span trace) := by
  cases callee with
  | function closure => exact h.call hR closure args
  | builtin b =>
    unfold Machine.callValue
    dsimp only
    rw [h.limit]
    exact hR.guarded _ _ (h.invokeBuiltin hR b args _)
  | _ => exact hR.fail

theorem method (cls : Class) (object : Instance) (name : String) :
    R own (m.method cls object name span ctx) (n.method cls object name span ctx) := by
  unfold Machine.method
  cases cls.method? .method name with
  | some found => exact hR.bind (hR.checkAccess _ _ _) fun _ => hR.pure _
  | none =>
    dsimp only
    cases cls.method? .getter name with
    | some found => exact hR.bind (hR.checkAccess _ _ _) fun _ => h.call hR _ _
    | none => exact hR.fail

theorem readMember (object : Instance) (name : String) :
    R own (m.readMember object name span ctx) (n.readMember object name span ctx) := by
  refine hR.get (fun _ _ => rfl) (fun _ _ => rfl) fun s => ?_
  cases s.member? object name with
  | some member => exact hR.bind (hR.checkAccess _ _ _) fun _ => hR.pure _
  | none => exact h.method hR object.cls object name

theorem readProperty (target : Value) (name : String) :
    R own (m.readProperty target name span ctx) (n.readProperty target name span ctx) := by
  cases target with
  | «instance» object => exact h.readMember hR object name
  | dict id =>
    refine hR.get (fun _ _ => rfl) (fun _ _ => rfl) fun s => ?_
    cases (s.heap.dict id).get? name with
    | some value => exact hR.pure _
    | none => exact hR.fail
  | _ => exact hR.fail

theorem writeMember (object : Instance) (name : String) (value : Value) :
    R own (m.writeMember object name value span ctx) (n.writeMember object name value span ctx) := by
  rw [m.writeMember_eq, n.writeMember_eq]
  refine hR.get (fun _ _ => rfl) (fun _ _ => rfl) fun s => ?_
  cases s.member? object name with
  | some member => exact hR.bind (hR.checkAccess _ _ _) fun _ => hR.setMember _ _ _
  | none =>
    dsimp only
    cases object.cls.method? .setter name with
    | some found => exact hR.bind (hR.checkAccess _ _ _) fun _ => hR.discard (h.call hR _ _)
    | none => exact hR.fail

theorem writeProperty (target : Value) (name : String) (value : Value) :
    R own (m.writeProperty target name value span ctx) (n.writeProperty target name value span ctx) := by
  cases target with
  | «instance» object => exact h.writeMember hR object name value
  | dict id => exact hR.heap fun heap => ((), heap.updateDict id (·.insert name value))
  | _ => exact hR.fail

theorem initialValue (property : PropertyDef Node) (ctx : Context) :
    R ctx.own (m.initialValue property ctx) (n.initialValue property ctx) := by
  unfold Machine.initialValue
  cases property.value with
  | some node => exact h.value hR node
  | none => exact hR.pure _

theorem defineStatics (cls : Class) (ctx : Context) :
    R ctx.own (m.defineStatics cls ctx) (n.defineStatics cls ctx) := by
  refine hR.bind (hR.forM _ fun property => ?_) fun _ => hR.forM _ fun method => hR.putStatic _ _ _
  exact hR.bind (h.initialValue hR property ctx) fun _ => hR.putStatic _ _ _

theorem defineClass (definition : ClassDef Node) :
    R ctx.own (m.defineClass definition span ctx) (n.defineClass definition span ctx) := by
  refine hR.bind (hR.optionM _ fun name => hR.classNamed name) fun parent => ?_
  refine hR.bind (hR.addClass _ _ _) fun cls => ?_
  cases cls.redefinitions.findSome? cls.overrideFault with
  | some cause => exact hR.fail_bind
  | none =>
    -- The new frame is for the static members only, the class is declared around it.
    have hstatics (trace : Trace) : R ctx.own
        (do m.defineStatics cls ⟨trace, ← .innerScope ctx.scope, some cls⟩)
        (do n.defineStatics cls ⟨trace, ← .innerScope ctx.scope, some cls⟩) :=
      hR.innerScope fun scope => h.defineStatics hR cls ⟨trace, scope, some cls⟩
    have hclass := hR.bind (hstatics (ctx.trace.enter ("<class " ++ cls.name ++ ">") span.start)) fun _ =>
      hR.bind (hR.declareIn ctx span definition.name (.class cls)) fun _ => hR.pure (Value.class cls)
    rw [bind_assoc, bind_assoc] at hclass
    exact hclass

/-- The properties of an instance, given that it may get members. -/
theorem seed (object : Instance) (cls : Class)
    (hput : ∀ own name member, R own (modify (·.putMember object name member))
      (modify (·.putMember object name member))) :
    R own (m.seed object span trace cls) (n.seed object span trace cls) := by
  refine hR.innerScope fun scope => hR.bind (hR.declare _ _ scope _ _ _) fun _ => hR.forM _ fun property => ?_
  exact hR.bind (h.initialValue hR property ⟨_, scope, some cls⟩) fun _ => hput _ _ _

theorem runConstructor (cls : Class) (object : Instance) (args : List Value) :
    R own (m.runConstructor cls object args span trace) (n.runConstructor cls object args span trace) := by
  unfold Machine.runConstructor
  cases cls.method? .method constructorName with
  | some found => exact hR.discard (h.call hR _ _)
  | none =>
    dsimp only
    split
    · exact hR.fail
    · exact hR.pure _

theorem instantiateBy {make make' : Class → List Value → Eval Value} (cls : Node) (args : List Node)
    (hmake : ∀ cls args, R ctx.own (make cls args) (make' cls args)) :
    R ctx.own (m.instantiateBy make cls args span ctx) (n.instantiateBy make' cls args span ctx) := by
  refine hR.bind (h.eval cls ctx) fun target => ?_
  cases target with
  | «class» cls =>
    refine hR.bind (h.values hR args) fun args => ?_
    rw [h.limit]
    exact hR.guarded _ _ (hmake cls args)
  | _ => exact hR.fail

theorem superCall (args : List Node) : R ctx.own (m.superCall args span ctx) (n.superCall args span ctx) := by
  refine hR.bind hR.superTarget fun (parent, object) => ?_
  refine hR.bind (h.values hR args) fun args => ?_
  exact hR.bind (h.runConstructor hR parent object args) fun _ => hR.pure _

theorem superProperty (name : String) : R own (m.superProperty name span ctx) (n.superProperty name span ctx) :=
  hR.bind hR.superTarget fun (parent, object) => h.method hR parent object name

end Machine.Congruent

end ScriptLang
