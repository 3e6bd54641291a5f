import ScriptLang.Eval.Rule
import ScriptLang.Grammar.Statement
import ScriptLang.Token.Scan

/-! Sessions: programs that are run one after the other and share their variables. -/
namespace ScriptLang

inductive Failure where
  | lexing (error : LexError)
  | parsing (error : SyntaxError)
  | running (error : EvalError)

def Failure.diagnostic : Failure → Diagnostic
  | lexing error => error.diagnostic
  | parsing error => error.diagnostic
  | running error => error.diagnostic

structure Session where
  /-- How deep calls may be nested. -/
  limit : Nat
  store : Store
  /-- The scope of all inputs. -/
  scope : Scope
  /-- The id for the next function. -/
  nextId : Nat := 0

structure Execution where
  output : List String
  outcome : Except (Stop Failure) (List Value)

def Builtin.frame : Frame := Builtin.all.map fun b => (b.name, ⟨.builtin b, false⟩)

def Machine.program (m : Machine) (program : Program) (ctx : Context) : Eval (List Value) :=
  program.mapM (m.value · ctx)

namespace Session

def new (limit : Nat) : Session where
  limit
  store := { frames := ⟨#[Builtin.frame]⟩ }
  scope := ⟨⟨0⟩, []⟩

def steps : Nat := Nat.pow 2 60

def read (s : Session) (source : String) : Except (Stop Failure) (Program × Nat) :=
  match tokenize source with
  | .error (.fault error) => .error (.fault (.lexing error))
  | .error .exhausted => .error .exhausted
  | .ok tokens =>
    match Program.parse s.nextId tokens with
    | .error (.fault error) => .error (.fault (.parsing error))
    | .error .exhausted => .error .exhausted
    | .ok result => .ok result

def stop : Interrupt → Stop Failure
  | .failed error => .fault (.running error)
  | _ => .exhausted

def execute (s : Session) (fuel : Nat) (program : Program) : Execution × Session :=
  let machine : Machine := ⟨s.limit, fuel, evaluate s.limit fuel⟩
  match machine.program program ⟨⟨"<program>", []⟩, s.scope, none⟩ s.store with
  | .ok values store =>
    (⟨store.output.toList, .ok values⟩, { s with store := { store with output := #[] } })
  | .error interrupt store =>
    (⟨store.output.toList, .error (stop interrupt)⟩, { s with store := { store with output := #[] } })

/-- Reads and runs an input. What a failing input did before it failed is kept. -/
def run (s : Session) (fuel : Nat) (source : String) : Execution × Session :=
  match s.read source with
  | .error stop => (⟨[], .error stop⟩, s)
  | .ok (program, nextId) => { s with nextId }.execute fuel program

def text (s : Session) (value : Value) : String := value.toText s.store.heap

end Session

end ScriptLang
