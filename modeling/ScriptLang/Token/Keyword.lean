/-! The reserved words. -/
namespace ScriptLang

inductive Keyword where
  | varWord | defineWord | deleteWord | ifWord | elifWord | elseWord | endWord | forWord | toWord
  | stepWord | foreachWord | asWord | whileWord | funcWord | returnWord | continueWord
  | breakWord | passWord | classWord | extendsWord | newWord | superWord | privateWord
  | protectedWord | publicWord | staticWord | overrideWord | propertyWord | methodWord
  | getterWord | setterWord | switchWord | caseWord | defaultWord | enumWord | typeofWord
  | instanceofWord | andWord | orWord | notWord | trueWord | falseWord | noneWord
  deriving DecidableEq

namespace Keyword

def spelling : Keyword → String
  | .varWord => "var"
  | .defineWord => "define"
  | .deleteWord => "delete"
  | .ifWord => "if"
  | .elifWord => "elif"
  | .elseWord => "else"
  | .endWord => "end"
  | .forWord => "for"
  | .toWord => "to"
  | .stepWord => "step"
  | .foreachWord => "foreach"
  | .asWord => "as"
  | .whileWord => "while"
  | .funcWord => "func"
  | .returnWord => "return"
  | .continueWord => "continue"
  | .breakWord => "break"
  | .passWord => "pass"
  | .classWord => "class"
  | .extendsWord => "extends"
  | .newWord => "new"
  | .superWord => "super"
  | .privateWord => "private"
  | .protectedWord => "protected"
  | .publicWord => "public"
  | .staticWord => "static"
  | .overrideWord => "override"
  | .propertyWord => "property"
  | .methodWord => "method"
  | .getterWord => "getter"
  | .setterWord => "setter"
  | .switchWord => "switch"
  | .caseWord => "case"
  | .defaultWord => "default"
  | .enumWord => "enum"
  | .typeofWord => "typeof"
  | .instanceofWord => "instanceof"
  | .andWord => "and"
  | .orWord => "or"
  | .notWord => "not"
  | .trueWord => "true"
  | .falseWord => "false"
  | .noneWord => "none"

def ofSpelling? : String → Option Keyword
  | "var" => some .varWord
  | "define" => some .defineWord
  | "delete" => some .deleteWord
  | "if" => some .ifWord
  | "elif" => some .elifWord
  | "else" => some .elseWord
  | "end" => some .endWord
  | "for" => some .forWord
  | "to" => some .toWord
  | "step" => some .stepWord
  | "foreach" => some .foreachWord
  | "as" => some .asWord
  | "while" => some .whileWord
  | "func" => some .funcWord
  | "return" => some .returnWord
  | "continue" => some .continueWord
  | "break" => some .breakWord
  | "pass" => some .passWord
  | "class" => some .classWord
  | "extends" => some .extendsWord
  | "new" => some .newWord
  | "super" => some .superWord
  | "private" => some .privateWord
  | "protected" => some .protectedWord
  | "public" => some .publicWord
  | "static" => some .staticWord
  | "override" => some .overrideWord
  | "property" => some .propertyWord
  | "method" => some .methodWord
  | "getter" => some .getterWord
  | "setter" => some .setterWord
  | "switch" => some .switchWord
  | "case" => some .caseWord
  | "default" => some .defaultWord
  | "enum" => some .enumWord
  | "typeof" => some .typeofWord
  | "instanceof" => some .instanceofWord
  | "and" => some .andWord
  | "or" => some .orWord
  | "not" => some .notWord
  | "true" => some .trueWord
  | "false" => some .falseWord
  | "none" => some .noneWord
  | _ => none

/-- A word is recognised as a keyword where it is written as that keyword is shown. -/
theorem ofSpelling?_eq_some_iff {word : String} {k : Keyword} : ofSpelling? word = some k ↔ k.spelling = word := by
  constructor
  · intro h
    unfold ofSpelling? at h
    split at h <;> cases h <;> rfl
  · rintro rfl
    cases k <;> rfl

end Keyword

end ScriptLang
