import ScriptLang.Value.Class

/-! Values.

Lists and dictionaries are shared: a value names one of them by its number, and its elements are in a
heap. -/
namespace ScriptLang

structure ListId where
  index : Nat
  deriving DecidableEq

structure DictId where
  index : Nat
  deriving DecidableEq

inductive Builtin where
  | print | len | append | pop | insert | keys | values | str | num | round | floor | abs | error
  deriving DecidableEq

namespace Builtin

def name : Builtin → String
  | print => "print"
  | len => "len"
  | append => "append"
  | pop => "pop"
  | insert => "insert"
  | keys => "keys"
  | values => "values"
  | str => "str"
  | num => "num"
  | round => "round"
  | floor => "floor"
  | abs => "abs"
  | error => "error"

def all : List Builtin :=
  [print, len, append, pop, insert, keys, values, str, num, round, floor, abs, error]

theorem mem_all (b : Builtin) : b ∈ all := by cases b <;> decide

end Builtin

inductive Value where
  | nothing
  | number (value : Float)
  | text (value : String)
  | boolean (value : Bool)
  | list (id : ListId)
  | dict (id : DictId)
  | function (closure : Closure)
  | builtin (native : Builtin)
  | class (cls : Class)
  | instance (object : Instance)
  deriving Inhabited

namespace Value

def typeName : Value → String
  | nothing => "none"
  | number _ => "number"
  | text _ => "string"
  | boolean _ => "boolean"
  | list _ => "list"
  | dict _ => "dict"
  | function _ | builtin _ => "function"
  | .class _ => "class"
  | .instance _ => "instance"

def typeOf : Value → String
  | .instance object => object.cls.name
  | value => value.typeName

def basicTypes : List String :=
  ["number", "string", "boolean", "list", "dict", "function", "class", "none"]

/-- Whether a value is of a declared type. A name that is no basic type is that of a class. -/
def hasType (value : Value) (type : String) : Bool :=
  if type = "any" then true
  else if basicTypes.contains type then value.typeName = type
  else match value with
    | .instance object => object.cls.isNamed type
    | _ => false

def isNothing : Value → Bool
  | nothing => true
  | _ => false

end Value

/-- What can contain itself, by its number. -/
inductive Handle where
  | list (id : ListId)
  | dict (id : DictId)
  | instance (id : Nat)
  deriving DecidableEq

end ScriptLang
