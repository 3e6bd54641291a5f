/-! Sets of characters given as runs of code points. -/
namespace ScriptLang.Text

/-- Whether a code point lies in a set, given the lengths of the runs of code points that lie in it and
that do not, by turns, and whether those of the first run do. No code point behind the last run does. -/
def inTurns (inside : Bool) : (runs : List Nat) → (code : Nat) → Bool
  | [], _ => false
  | run :: runs, code => if code < run then inside else inTurns (!inside) runs (code - run)

def inRuns (runs : List Nat) (c : Char) : Bool := inTurns false runs c.toNat

end ScriptLang.Text
