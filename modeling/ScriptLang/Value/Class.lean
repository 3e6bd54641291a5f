import ScriptLang.Tree.Node

/-! Classes, instances and functions as values. -/
namespace ScriptLang

structure FrameId where
  index : Nat
  deriving DecidableEq

/-- The frames that can be seen from a place: its own, and those around it, the nearest first. -/
structure Scope where
  own : FrameId
  outer : List FrameId := []

def Scope.frames (scope : Scope) : List FrameId := scope.own :: scope.outer

def Scope.inner (scope : Scope) (own : FrameId) : Scope := ⟨own, scope.frames⟩

/-- A class. Its members see the scope that it was defined in. -/
structure Class where
  id : Nat
  definition : ClassDef Node
  parent : Option Class
  scope : Scope

structure Instance where
  id : Nat
  cls : Class

/-- A function together with what its body can use: the scope it was defined in, the members of a
class, and an instance as `self`. -/
structure Closure where
  code : FunctionDef Node
  scope : Scope
  classScope : Option Class
  receiver : Option Instance

inductive MethodKind where
  | method | getter | setter
  deriving DecidableEq

namespace Class

def name (c : Class) : String := c.definition.name

def lineage : Class → List Class
  | ⟨id, definition, none, scope⟩ => [⟨id, definition, none, scope⟩]
  | ⟨id, definition, some parent, scope⟩ =>
    ⟨id, definition, some parent, scope⟩ :: parent.lineage

def ancestors (c : Class) : List Class := (c.parent.map lineage).getD []

def isNamed (c : Class) (name : String) : Bool := c.lineage.any (·.name = name)

def inherits (c ancestor : Class) : Bool := c.lineage.any (·.id = ancestor.id)

def own (c : Class) : MethodKind → List (MethodDef Node)
  | .method => c.definition.methods
  | .getter => c.definition.getters
  | .setter => c.definition.setters

def ownMethod? (c : Class) (kind : MethodKind) (name : String) : Option (MethodDef Node) :=
  (c.own kind).find? fun method => method.name = name && !method.flags.isStatic

def method? (c : Class) (kind : MethodKind) (name : String) : Option (Class × MethodDef Node) :=
  c.lineage.findSome? fun owner => (owner.ownMethod? kind name).map (owner, ·)

def declares (c : Class) (name : String) : Bool :=
  c.definition.properties.any (·.name = name) || c.definition.methods.any (·.name = name)

def permits (owner : Class) (visibility : Visibility) (user : Option Class) : Bool :=
  match visibility with
  | .everyone => true
  | .self => user.any (·.id = owner.id)
  | .inheritors => user.any (·.inherits owner)

def bind (owner : Class) (method : MethodDef Node) (receiver : Option Instance) : Closure :=
  ⟨method.function, owner.scope, some owner, receiver⟩

end Class

def FunctionDef.label {ν : Type} (f : FunctionDef ν) : String := f.name.getD "<anonymous>"

def Instance.textMethod? (i : Instance) : Option Closure :=
  (i.cls.method? .method textMethodName).map fun (owner, method) => owner.bind method (some i)

def Closure.same (a b : Closure) : Bool :=
  a.code.id = b.code.id && a.scope.own = b.scope.own &&
    a.receiver.map (·.id) = b.receiver.map (·.id)

end ScriptLang
