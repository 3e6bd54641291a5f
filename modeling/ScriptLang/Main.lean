import ScriptLang.CommandLine

/-! The program on the real terminal. -/

open ScriptLang

def readFaultOf (code : UInt32) (details : String) : String :=
  let code := min code.toNat (-code).toNat
  match [PathError.notFound, .notFolder, .isFolder, .nameTooLong].find? (·.code = code) with
  | some error => error.message
  | none => details ++ " (os error " ++ toString code ++ ")"

def readFault : IO.Error → String
  | .noFileOrDirectory _ code details | .inappropriateType _ code details
  | .invalidArgument _ code details | .permissionDenied _ code details => readFaultOf code details
  | error => toString error

def withoutBreak (line : String) : String :=
  String.ofList ((Text.lines line.toList).headD [])

def realTerminal (input output errors : IO.FS.Stream) : Terminal IO where
  readFile path := tryCatch (.ok <$> IO.FS.readFile path) fun error =>
    return .error (readFault error)
  readAll := input.readToEnd
  readLine := do
    let line ← input.getLine
    return if line.isEmpty then none else some (withoutBreak line)
  print text := do
    output.putStr text
    output.flush
  complain text := errors.putStr text

def main (args : List String) : IO UInt32 := do
  let terminal := realTerminal (← IO.getStdin) (← IO.getStdout) (← IO.getStderr)
  CommandLine.run terminal args
