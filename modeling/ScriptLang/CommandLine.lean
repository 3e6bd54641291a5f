import ScriptLang.Session
import ScriptLang.Settings
import ScriptLang.Terminal
import ScriptLang.Text.Blank

/-! The command line: a program from a file or from the input, or lines one by one. -/
namespace ScriptLang

structure Options where
  settingsPath : Option String := none
  verbose : Bool := false
  interactive : Bool := false
  echo : Bool := false
  inputPath : Option String := none

inductive CommandError where
  | missingSettingsPath (option : String)
  | unknownOption (option : String)
  | severalInputs
  | unreadableSettings (path reason : String)
  | invalidSettings (path : String) (error : SettingsError)
  | unreadableInput (path reason : String)

def CommandError.message : CommandError → String
  | missingSettingsPath option => "Missing config path after " ++ option
  | unknownOption option => "Unknown option '" ++ option ++ "'"
  | severalInputs => "Only one input file is supported"
  | unreadableSettings path reason =>
    "Loading " ++ path ++ ": failed to read config file " ++ path ++ ": " ++ reason ++ ": " ++ reason
  | invalidSettings path error => "Loading " ++ path ++ ": " ++ error.message
  | unreadableInput path reason => "Reading " ++ path ++ ": " ++ reason

/-- Reads arguments. The first one that is no option names the input, and is the last. -/
def Options.parse (o : Options) : List String → Except CommandError Options
  | [] => .ok o
  | argument :: rest =>
    if argument = "--config" || argument = "-c" then
      match rest with
      | [] => .error (.missingSettingsPath argument)
      | path :: rest => parse { o with settingsPath := some path } rest
    else if argument = "--verbose" || argument = "-v" then parse { o with verbose := true } rest
    else if argument = "--repl" then parse { o with interactive := true } rest
    else if argument = "--echo" then parse { o with echo := true } rest
    else if argument.startsWith "-" then .error (.unknownOption argument)
    else if rest.isEmpty then .ok { o with inputPath := some argument }
    else .error .severalInputs

namespace CommandLine

variable {m : Type → Type} [Monad m]

abbrev Command (m : Type → Type) := ExceptT CommandError m

def report (t : Terminal m) (settings : Settings) (source : String) (echo : Bool)
    (execution : Execution) (s : Session) : m Bool := do
  execution.output.forM fun line => t.print (line ++ "\n")
  match execution.outcome with
  | .ok values =>
    if echo then
      (values.filter (!·.isNothing)).forM fun value => t.print (s.text value ++ "\n")
    return true
  | .error (.fault failure) =>
    t.complain (failure.diagnostic.render settings.fileName source ++ "\n")
    return false
  | .error .exhausted => return false

def prompt : String := "vesper > "

def interact (t : Terminal m) (settings : Settings) : (turns : Nat) → Session → m UInt32
  | 0, _ => return 0
  | turns + 1, s => do
    t.print prompt
    match ← t.readLine with
    | none =>
      t.print "\n"
      return 0
    | some line =>
      if line.toList.all Text.isBlank then interact t settings turns s
      else
        let (execution, s) := s.run Session.steps line
        discard (report t settings line true execution s)
        interact t settings turns s

def settings (t : Terminal m) (o : Options) : Command m Settings := do
  let loaded ← match o.settingsPath with
    | none => pure {}
    | some path =>
      match ← t.readFile path with
      | .error reason => throw (.unreadableSettings path reason)
      | .ok text =>
        match Settings.read text with
        | .error error => throw (.invalidSettings path error)
        | .ok loaded => pure loaded
  return { loaded with
    echoResults := loaded.echoResults || o.echo
    fileName := o.inputPath.getD loaded.fileName }

def source (t : Terminal m) (o : Options) : Command m String := do
  match o.inputPath with
  | none => t.readAll
  | some path =>
    match ← t.readFile path with
    | .ok text => return text
    | .error reason => throw (.unreadableInput path reason)

def execute (t : Terminal m) (args : List String) : Command m UInt32 := do
  let o ← Options.parse {} args
  let settings ← settings t o
  let s := Session.new settings.maxCallDepth
  if o.interactive then (interact t settings Session.steps s : m UInt32)
  else
    let source ← source t o
    let (execution, s) := s.run Session.steps source
    let finished ← (report t settings source settings.echoResults execution s : m Bool)
    return if finished then 0 else 1

def run (t : Terminal m) (args : List String) : m UInt32 := do
  match ← (execute t args).run with
  | .ok code => return code
  | .error error =>
    t.complain ("error: " ++ error.message ++ "\n")
    return 2

end CommandLine

end ScriptLang
