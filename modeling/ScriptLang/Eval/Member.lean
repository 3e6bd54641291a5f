import ScriptLang.Eval.Call

/-! Members of instances, dictionaries and classes. -/
namespace ScriptLang

def Context.checkAccess (ctx : Context) (span : Span) (owner : Class) (visibility : Visibility)
    (member : String) : Eval Unit := do
  if !owner.permits visibility ctx.classScope then
    .fail ctx.trace span (.inaccessible member visibility.word owner.name)

namespace Machine

def method (m : Machine) (cls : Class) (object : Instance) (name : String) (span : Span)
    (ctx : Context) : Eval Value := do
  match cls.method? .method name with
  | some (owner, method) =>
    ctx.checkAccess span owner method.flags.visibility name
    return .function (owner.bind method (some object))
  | none =>
    match cls.method? .getter name with
    | some (owner, getter) =>
      ctx.checkAccess span owner getter.flags.visibility name
      m.call (owner.bind getter (some object)) [] span ctx.trace
    | none => .fail ctx.trace span (.unknownMember cls.name name)

/-- `object.name`: a property, a method or what a getter gives. -/
def readMember (m : Machine) (object : Instance) (name : String) (span : Span) (ctx : Context) :
    Eval Value := do
  match (← get).member? object name with
  | some member =>
    ctx.checkAccess span member.owner member.visibility name
    return member.value
  | none => m.method object.cls object name span ctx

/-- `target.name`. -/
def readProperty (m : Machine) (target : Value) (name : String) (span : Span) (ctx : Context) :
    Eval Value := do
  match target with
  | .instance object => m.readMember object name span ctx
  | .dict id =>
    match ((← get).heap.dict id).get? name with
    | some value => return value
    | none => .fail ctx.trace span (.keyNotFound name)
  | .class cls => .fail ctx.trace span (.unknownMember cls.name name)
  | other => .fail ctx.trace span (.noProperties name other.typeName)

/-- `object.name = value`: writes a property or calls a setter. -/
def writeMember (m : Machine) (object : Instance) (name : String) (value : Value) (span : Span)
    (ctx : Context) : Eval Unit := do
  match (← get).member? object name with
  | some member =>
    ctx.checkAccess span member.owner member.visibility name
    modify (·.putMember object name { member with value })
  | none =>
    match object.cls.method? .setter name with
    | some (owner, setter) =>
      ctx.checkAccess span owner setter.flags.visibility name
      discard (m.call (owner.bind setter (some object)) [value] span ctx.trace)
    | none => .fail ctx.trace span (.unknownMember object.cls.name name)

/-- `target.name = value`. -/
def writeProperty (m : Machine) (target : Value) (name : String) (value : Value) (span : Span)
    (ctx : Context) : Eval Unit :=
  match target with
  | .instance object => m.writeMember object name value span ctx
  | .dict id => modify fun s => { s with heap := s.heap.updateDict id (·.insert name value) }
  | other => .fail ctx.trace span (.noProperties name other.typeName)

end Machine

namespace Context

def staticTarget (ctx : Context) (target : Value) (span : Span) : Eval Class :=
  match target with
  | .class cls => return cls
  | .instance object => return object.cls
  | other => .fail ctx.trace span (.notAClass other.typeName)

def static (ctx : Context) (target : Value) (name : String) (span : Span) : Eval Member := do
  let cls ← ctx.staticTarget target span
  match (← get).static? cls name with
  | some member =>
    ctx.checkAccess span member.owner member.visibility name
    return member
  | none => .fail ctx.trace span (.unknownMember cls.name name)

/-- `target::name`. -/
def readStatic (ctx : Context) (target : Value) (name : String) (span : Span) : Eval Value := do
  return (← ctx.static target name span).value

/-- `target::name = value`, in the class that the member names as its owner, if that one holds it. -/
def writeStatic (ctx : Context) (target : Value) (name : String) (value : Value) (span : Span) :
    Eval Unit := do
  let owner := (← ctx.static target name span).owner
  if let some held := (← get).ownStatic? owner name then
    modify (·.putStatic owner name { held with value })

end Context

end ScriptLang
