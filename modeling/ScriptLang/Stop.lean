/-! How a bounded computation can end without a result. -/
namespace ScriptLang

/-- A computation with a bound on its steps ends without a result because of a fault, or because the
bound was too small. -/
inductive Stop (ε : Type) where
  | fault (error : ε)
  | exhausted
  deriving DecidableEq

end ScriptLang
