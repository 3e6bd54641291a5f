import ScriptLang.Number.Shortest
import ScriptLang.Tree.Operator

/-! Why the evaluation of a program can fail. -/
namespace ScriptLang

/-- The longest list, in elements, and the longest text, in bytes, that a program can build. -/
def maxLength : Nat := Nat.pow 2 24

structure Arity where
  required : Nat
  most : Option Nat

def Arity.description (a : Arity) : String :=
  match a.most with
  | none => "at least " ++ toString a.required
  | some most =>
    if most = a.required then toString most
    else toString a.required ++ " to " ++ toString most

inductive EvalCause where
  | illegalOperation (op : BinaryOp) (left right : String)
  | illegalUnaryOperation (op : UnaryOp) (operand : String)
  | divisionByZero
  | undefinedVariable (name : String)
  | constantReassignment (name : String)
  | indexOutOfRange (index : Int) (length : Nat)
  | invalidIndex (got : String)
  | illegalSliceBounds (start stop : Int) (length : Nat)
  | keyNotFound (key : String)
  | notIndexable (typeName indexType : String)
  | notCallable (typeName : String)
  | arityMismatch (name : String) (arity : Arity) (found : Nat)
  | argumentType (function param expected got : String)
  | invalidRepeatCount (count : Float)
  | immutableText
  | invalidDeletion
  | noLength (typeName : String)
  | invalidNumeral (text : String)
  | notNumeric (typeName : String)
  | invalidBound (bound typeName : String)
  | unknownMember (className member : String)
  | noProperties (member typeName : String)
  | inaccessible (member visibility owner : String)
  | notAClass (name : String)
  | unmarkedOverride (member className : String)
  | idleOverride (member className : String)
  | superOutsideMethod
  | superWithoutParent (className : String)
  | superWithoutInstance
  | recursionLimit (limit : Nat)
  | zeroStep
  | notIterable (typeName : String)
  | returnOutsideFunction
  | loopControlOutsideLoop (word : String)
  | tooLarge (typeName : String)
  | raised (message : String)

namespace EvalCause

def message : EvalCause → String
  | illegalOperation op left right =>
    "Illegal operation: " ++ left ++ " " ++ op.symbol ++ " " ++ right
  | illegalUnaryOperation op operand => "Illegal operation: " ++ op.symbol ++ operand
  | divisionByZero => "Division by Zero"
  | undefinedVariable name => "'" ++ name ++ "' is not defined"
  | constantReassignment name => "Cannot reassign constant '" ++ name ++ "'"
  | indexOutOfRange index length =>
    "Index " ++ toString index ++ " out of range for length " ++ toString length
  | invalidIndex got => "Index must be an integer, got " ++ got
  | illegalSliceBounds start stop length =>
    "Illegal binary selector bounds [" ++ toString start ++ ":" ++ toString stop ++
      "] for length " ++ toString length
  | keyNotFound key => "Key '" ++ key ++ "' not found in dictionary"
  | notIndexable typeName indexType => "Cannot index " ++ typeName ++ " with " ++ indexType
  | notCallable typeName => "'" ++ typeName ++ "' is not callable"
  | arityMismatch name arity found =>
    name ++ "() expected " ++ arity.description ++ " argument(s), got " ++ toString found
  | argumentType function param expected got =>
    "Argument '" ++ param ++ "' of " ++ function ++ "() expects " ++ expected ++ ", got " ++ got
  | invalidRepeatCount count =>
    "Repeat count must be a non-negative integer, got " ++ Number.text count
  | immutableText => "Strings are immutable"
  | invalidDeletion => "Only variables and indexed elements can be deleted"
  | noLength typeName => "len() is not defined for " ++ typeName
  | invalidNumeral text => "Cannot convert \"" ++ text ++ "\" to a number"
  | notNumeric typeName => "Cannot convert " ++ typeName ++ " to a number"
  | invalidBound bound typeName =>
    "For loop " ++ bound ++ " must be a number, got " ++ typeName
  | unknownMember className member => "'" ++ className ++ "' has no member '" ++ member ++ "'"
  | noProperties member typeName => "Cannot read property '" ++ member ++ "' of " ++ typeName
  | inaccessible member visibility owner =>
    "'" ++ member ++ "' is " ++ visibility ++ " in class '" ++ owner ++ "'"
  | notAClass name => "'" ++ name ++ "' is not a class"
  | unmarkedOverride member className =>
    "'" ++ member ++ "' in class '" ++ className ++
      "' redefines an inherited member and must be marked 'override'"
  | idleOverride member className =>
    "'" ++ member ++ "' in class '" ++ className ++
      "' is marked 'override' but no parent class declares it"
  | superOutsideMethod => "'super' is only valid inside a class method"
  | superWithoutParent className => "Class '" ++ className ++ "' has no parent class"
  | superWithoutInstance => "'super' requires an instance"
  | recursionLimit limit => "Maximum call depth of " ++ toString limit ++ " exceeded"
  | zeroStep => "For loop step cannot be zero"
  | notIterable typeName => "Cannot iterate over " ++ typeName
  | returnOutsideFunction => "Return outside of function"
  | loopControlOutsideLoop word => "'" ++ word ++ "' outside of a loop"
  | tooLarge typeName =>
    typeName ++ " would exceed the maximum length of " ++ toString maxLength
  | raised message => message

def heading : EvalCause → String
  | argumentType .. => "Type Error"
  | recursionLimit _ => "Recursion Error"
  | _ => "Runtime Error"

end EvalCause

end ScriptLang
