import ScriptLang.Source.Position

/-! The calls that are active at a moment. -/
namespace ScriptLang

structure TraceFrame where
  name : String
  position : Position
  deriving DecidableEq

end ScriptLang
