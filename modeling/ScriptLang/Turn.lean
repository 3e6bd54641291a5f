/-! Turns of a loop. -/
namespace ScriptLang

/-- What a turn of a loop decides: to go on, or to end. -/
inductive Turn (β α : Type) where
  | next (state : β)
  | done (result : α)

end ScriptLang
