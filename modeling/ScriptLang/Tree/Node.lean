import ScriptLang.Source.Span
import ScriptLang.Tree.Operator

/-! The syntax tree.

`Shape ν` is one layer of the tree over parts of type `ν`, and a node is a layer over nodes together
with the stretch of source it was read from. -/
namespace ScriptLang

/-- What stands in the brackets of `target[…]`: a key, nothing (to append), or the bounds of a
slice. -/
inductive Index (ν : Type) where
  | single (key : ν)
  | push
  | slice (start stop : Option ν)

structure Param (ν : Type) where
  name : String
  typeName : Option String := none
  isRest : Bool := false
  isOptional : Bool := false
  fallback : Option ν := none
  span : Span

/-- A function as it is written. Each function read from a text has an `id` of its own; a copy of the
tree keeps it. -/
structure FunctionDef (ν : Type) where
  id : Nat
  name : Option String
  params : List (Param ν)
  body : ν
  /-- Whether a call gives the value of the body. -/
  autoReturn : Bool
  span : Span

/-- Who may use a member of a class: everyone, the class and those that inherit from it, or the class
alone. -/
inductive Visibility where
  | everyone | inheritors | self
  deriving DecidableEq

def Visibility.word : Visibility → String
  | .everyone => "public"
  | .inheritors => "protected"
  | .self => "private"

structure MemberFlags where
  visibility : Visibility := .everyone
  isStatic : Bool := false
  isOverride : Bool := false
  deriving DecidableEq

structure PropertyDef (ν : Type) where
  name : String
  value : Option ν
  flags : MemberFlags
  span : Span

structure MethodDef (ν : Type) where
  name : String
  function : FunctionDef ν
  flags : MemberFlags
  span : Span

def constructorName : String := "__init"

def textMethodName : String := "__repr"

structure ClassDef (ν : Type) where
  name : String
  parent : Option String
  properties : List (PropertyDef ν) := []
  methods : List (MethodDef ν) := []
  getters : List (MethodDef ν) := []
  setters : List (MethodDef ν) := []
  span : Span

inductive TemplatePart (ν : Type) where
  | text (value : String)
  | expression (node : ν)

structure Branch (ν : Type) where
  condition : ν
  body : ν
  discard : Bool

inductive Shape (ν : Type) where
  -- Literals.
  | number (value : Float)
  | text (value : String)
  | template (parts : List (TemplatePart ν))
  | boolean (value : Bool)
  | nothing
  | list (elements : List ν)
  | dict (entries : List (String × ν))
  -- Names and places.
  | declare (name : String) (value : ν)
  | declareConstant (name : String) (value : ν)
  | lookup (name : String)
  | assign (name : String) (value : ν)
  | delete (target : ν)
  | index (target : ν) (index : Index ν) (optional : Bool)
  | assignIndex (target : ν) (index : Index ν) (value : ν)
  | property (target : ν) (name : String) (optional : Bool)
  | assignProperty (target : ν) (name : String) (value : ν)
  | staticProperty (target : ν) (name : String) (optional : Bool)
  | assignStatic (target : ν) (name : String) (value : ν)
  -- Operators.
  | binary (op : BinaryOp) (left right : ν)
  | unary (op : UnaryOp) (operand : ν)
  -- Control flow.
  | conditional (branches : List (Branch ν)) (otherwise : Option ν) (discardOtherwise : Bool)
  | countingLoop (name : String) (start : Option ν) (stop : ν) (step : Option ν) (body : ν)
      (discard : Bool)
  | eachLoop (items : ν) (key : Option String) (value : String) (body : ν) (discard : Bool)
  | whileLoop (condition body : ν) (discard : Bool)
  | switch (cases : List (ν × ν)) (otherwise : Option ν)
  | block (statements : List ν)
  | function (definition : FunctionDef ν)
  | call (callee : ν) (args : List ν) (optional : Bool)
  | returnWith (value : Option ν)
  | continueLoop
  | breakLoop
  | pass
  -- Classes.
  | classDefinition (definition : ClassDef ν)
  | instantiate (cls : ν) (args : List ν)
  | superCall (args : List ν)
  | superProperty (name : String)
  | enumeration (name : String) (members : List String)

structure Node where
  shape : Shape Node
  span : Span

abbrev Program := List Node

end ScriptLang
