import ScriptLang.Eval.Member

/-! Definitions of classes, new instances and `super`. -/
namespace ScriptLang

/-- The members of a class that can redefine inherited ones: for each its name, its flags, and
whether an ancestor declares one like it. -/
def Class.redefinitions (cls : Class) : List (String × MemberFlags × Bool) :=
  let inherited (name : String) := cls.ancestors.any (·.declares name)
  let has (kind : MethodKind) (name : String) :=
    cls.ancestors.any fun ancestor => (ancestor.own kind).any (·.name = name)
  cls.definition.properties.map (fun p => (p.name, p.flags, inherited p.name)) ++
    cls.definition.methods.map (fun m => (m.name, m.flags, inherited m.name)) ++
    cls.definition.getters.map (fun g => (g.name, g.flags, has .getter g.name)) ++
    cls.definition.setters.map (fun s => (s.name, s.flags, has .setter s.name))

/-- What is wrong with a redefinition: one has to be marked, and a mark has to belong to one.
Constructors are exempt. -/
def Class.overrideFault (cls : Class) : String × MemberFlags × Bool → Option EvalCause
  | (name, flags, inherited) =>
    if name = constructorName then none
    else match inherited, flags.isOverride with
      | true, false => some (.unmarkedOverride name cls.name)
      | false, true => some (.idleOverride name cls.name)
      | _, _ => none

def Context.classNamed (ctx : Context) (name : String) (span : Span) : Eval Class := do
  match ← .lookup? ctx.scope name with
  | some (.class cls) => return cls
  | some _ => .fail ctx.trace span (.notAClass name)
  | none => .fail ctx.trace span (.undefinedVariable name)

namespace Machine

def initialValue (m : Machine) (property : PropertyDef Node) (ctx : Context) : Eval Value :=
  match property.value with
  | some node => m.value node ctx
  | none => return .nothing

def defineStatics (m : Machine) (cls : Class) (ctx : Context) : Eval Unit := do
  (cls.definition.properties.filter (·.flags.isStatic)).forM fun property => do
    let value ← m.initialValue property ctx
    modify (·.putStatic cls property.name ⟨value, property.flags.visibility, cls⟩)
  (cls.definition.methods.filter (·.flags.isStatic)).forM fun method =>
    modify (·.putStatic cls method.name
      ⟨.function (cls.bind method none), method.flags.visibility, cls⟩)

def defineClass (m : Machine) (definition : ClassDef Node) (span : Span) (ctx : Context) :
    Eval Value := do
  let parent ← definition.parent.mapM fun name => ctx.classNamed name span
  let cls ← modifyGet (·.addClass definition parent ctx.scope)
  if let some cause := cls.redefinitions.findSome? cls.overrideFault then
    .fail ctx.trace span cause
  let trace := ctx.trace.enter ("<class " ++ cls.name ++ ">") span.start
  m.defineStatics cls ⟨trace, ← .innerScope ctx.scope, some cls⟩
  ctx.declare span definition.name (.class cls)
  return .class cls

def seed (m : Machine) (object : Instance) (span : Span) (caller : Trace) (cls : Class) :
    Eval Unit := do
  let trace := caller.enter ("<new " ++ cls.name ++ ">") span.start
  let ctx : Context := ⟨trace, ← .innerScope cls.scope, some cls⟩
  .onFrames caller span (.declare ctx.scope "self" (.instance object) false)
  (cls.definition.properties.filter (!·.flags.isStatic)).forM fun property => do
    let value ← m.initialValue property ctx
    modify (·.putMember object property.name ⟨value, property.flags.visibility, cls⟩)

/-- Runs the constructor that `cls` has or inherits. Without one there is nothing to pass on. -/
def runConstructor (m : Machine) (cls : Class) (object : Instance) (args : List Value)
    (span : Span) (caller : Trace) : Eval Unit := do
  match cls.method? .method constructorName with
  | some (owner, method) => discard (m.call (owner.bind method (some object)) args span caller)
  | none =>
    if !args.isEmpty then
      .fail caller span (.arityMismatch cls.name ⟨0, some 0⟩ args.length)

def construct (m : Machine) (cls : Class) (args : List Value) (span : Span) (caller : Trace) :
    Eval Value := do
  let object ← modifyGet (·.addInstance cls)
  cls.lineage.reverse.forM (m.seed object span caller)
  m.runConstructor cls object args span caller
  return .instance object

/-- `new cls(args)`. -/
def instantiate (m : Machine) (cls : Node) (args : List Node) (span : Span) (ctx : Context) :
    Eval Value := do
  match ← m.eval cls ctx with
  | .class cls =>
    let args ← m.values args ctx
    .guarded m.limit ctx.trace span (m.construct cls args span ctx.trace)
  | other => .fail ctx.trace span (.notAClass other.typeName)

end Machine

def Context.superTarget (ctx : Context) (span : Span) : Eval (Class × Instance) := do
  match ctx.classScope with
  | none => .fail ctx.trace span .superOutsideMethod
  | some cls =>
    match cls.parent with
    | none => .fail ctx.trace span (.superWithoutParent cls.name)
    | some parent =>
      match ← .lookup? ctx.scope "self" with
      | some (.instance object) => return (parent, object)
      | _ => .fail ctx.trace span .superWithoutInstance

namespace Machine

/-- `super(args)`. -/
def superCall (m : Machine) (args : List Node) (span : Span) (ctx : Context) : Eval Value := do
  let (parent, object) ← ctx.superTarget span
  let args ← m.values args ctx
  m.runConstructor parent object args span ctx.trace
  return .nothing

/-- `super.name`. -/
def superProperty (m : Machine) (name : String) (span : Span) (ctx : Context) : Eval Value := do
  let (parent, object) ← ctx.superTarget span
  m.method parent object name span ctx

end Machine

end ScriptLang
