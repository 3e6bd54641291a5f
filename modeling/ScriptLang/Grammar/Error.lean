import ScriptLang.Diagnostic
import ScriptLang.Token.Basic

/-! Faults against the grammar. -/
namespace ScriptLang

def maxNesting : Nat := 128

inductive SyntaxCause where
  | expected (what : String) (found : TokenKind Token)
  | nestingTooDeep
  | emptyBlock
  | superOutsideConstructor
  | invalidDeletion
  | duplicateEnumMember (name : String)
  | emptyEnum
  | invalidTarget
  | misplacedPush
  | emptyInterpolation
  | duplicateKey (key : String)
  | caseAfterDefault
  | secondDefault
  | parameterAfterRest
  | mandatoryAfterOptional
  | duplicateParameter (name : String)
  | optionalRest
  | inlineClassBody
  | emptyClass
  | duplicateModifier (word : Keyword)
  | secondVisibility
  | duplicateMember (name className : String)
  | staticGetter
  | staticSetter
  | getterParameter
  | setterParameters

structure SyntaxError where
  cause : SyntaxCause
  span : Span

def SyntaxCause.message : SyntaxCause → String
  | expected what found => "Expected " ++ what ++ ", got " ++ found.describe
  | nestingTooDeep => "Expression nesting exceeds " ++ toString maxNesting ++ " levels"
  | emptyBlock => "Expected a statement, use 'pass' for an empty block"
  | superOutsideConstructor => "super() is only allowed as a statement inside a constructor"
  | invalidDeletion => "Expected a variable or an indexed element to delete"
  | duplicateEnumMember name => "Duplicate enum member '" ++ name ++ "'"
  | emptyEnum => "An enum needs at least one member"
  | invalidTarget => "Invalid assignment target"
  | misplacedPush => "The push marker '[]' is only allowed as an assignment target"
  | emptyInterpolation => "Empty interpolation in template string"
  | duplicateKey key => "Duplicate key '" ++ key ++ "' in dictionary"
  | caseAfterDefault => "'default' must be the last branch of a switch"
  | secondDefault => "A switch may only have one 'default' branch"
  | parameterAfterRest => "The rest parameter must be the last parameter"
  | mandatoryAfterOptional => "Mandatory parameters must come before optional ones"
  | duplicateParameter name => "Duplicate parameter '" ++ name ++ "'"
  | optionalRest => "The rest parameter cannot be optional or have a default value"
  | inlineClassBody => "A class body must start on a new line after ':' and be closed with 'end'"
  | emptyClass => "Expected a class member, use 'pass' for an empty class body"
  | duplicateModifier word => "Duplicate modifier '" ++ word.spelling ++ "'"
  | secondVisibility => "A member can only have one visibility modifier"
  | duplicateMember name className => "Duplicate member '" ++ name ++ "' in class '" ++ className ++ "'"
  | staticGetter => "Getters cannot be static"
  | staticSetter => "Setters cannot be static"
  | getterParameter => "A getter takes no parameters"
  | setterParameters => "A setter takes exactly one parameter"

def SyntaxError.diagnostic (e : SyntaxError) : Diagnostic := .grammar e.cause.message e.span

end ScriptLang
