import ScriptLang.Text.Range

/-! White space. -/
namespace ScriptLang.Text

def blankRuns : List Nat := [133, 1, 26, 1, 5599, 1, 2431, 11, 29, 2, 5, 1, 47, 1, 4000, 1]

def isBlank (c : Char) : Bool :=
  if c.toNat < 128 then c.toNat == 32 || (9 ≤ c.toNat && c.toNat ≤ 13) else inRuns blankRuns c

end ScriptLang.Text
