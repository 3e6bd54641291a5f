import ScriptLang.Settings.Document

/-! Settings. -/
namespace ScriptLang

structure Settings where
  /-- How deep calls may be nested. -/
  maxCallDepth : Nat := 256
  /-- The name of the source in diagnostics. -/
  fileName : String := "<stdin>"
  /-- Whether the values of statements are printed. -/
  echoResults : Bool := false
  deriving DecidableEq

inductive SettingsError where
  | malformed
  | zeroCallDepth
  deriving DecidableEq

def SettingsError.message : SettingsError → String
  | malformed => "invalid config"
  | zeroCallDepth => "max_call_depth must be at least 1"

namespace Document.Scalar

def prefixed? (mark : String) (base : Nat) (cs : List Char) : Option Nat :=
  if mark.toList.isPrefixOf cs then numeral? base (cs.drop mark.length) else none

def decimal? : List Char → Option Nat
  | '0' :: _ :: _ => none
  | cs => numeral? 10 cs

def hasKind (s : Scalar) (kind : String) : Bool :=
  s.style = .plain || (s.style = .literal && s.tag = some ("tag:yaml.org,2002:" ++ kind))

def natural? (s : Scalar) : Option Nat := do
  let cs := s.text.toList
  let cs := if cs.head? = some '+' then cs.drop 1 else cs
  let value ← prefixed? "0x" 16 cs <|> prefixed? "0o" 8 cs <|> prefixed? "0b" 2 cs <|> decimal? cs
  if s.hasKind "int" && value < Nat.pow 2 64 then some value else none

def boolean? (s : Scalar) : Option Bool :=
  if !s.hasKind "bool" then none
  else if ["true", "True", "TRUE"].contains s.text then some true
  else if ["false", "False", "FALSE"].contains s.text then some false
  else none

end Document.Scalar

namespace Settings

def take? (s : Settings) : String × Document.Scalar → Option Settings
  | ("max_call_depth", value) => do return { s with maxCallDepth := ← value.natural? }
  | ("file_name", value) => some { s with fileName := value.text }
  | ("echo_results", value) => do return { s with echoResults := ← value.boolean? }
  | _ => none

def ofEntries? (entries : List (String × Document.Scalar)) : Option Settings :=
  if (entries.map (·.1)).Nodup then entries.foldlM take? {} else none

def read (source : String) : Except SettingsError Settings :=
  match Document.entries? source >>= ofEntries? with
  | none => .error .malformed
  | some settings => if settings.maxCallDepth = 0 then .error .zeroCallDepth else .ok settings

end Settings

end ScriptLang
