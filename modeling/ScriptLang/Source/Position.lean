/-! Places in a source text. -/
namespace ScriptLang

/-- A place in a source text: the bytes before it, the line breaks before it, and the characters
between the last line break and it. -/
structure Position where
  index : Nat
  line : Nat
  column : Nat
  deriving DecidableEq, Inhabited

namespace Position

def origin : Position := ⟨0, 0, 0⟩

def next (p : Position) (c : Char) : Position :=
  if c = '\n' then ⟨p.index + c.utf8Size, p.line + 1, 0⟩
  else ⟨p.index + c.utf8Size, p.line, p.column + 1⟩

def after (p : Position) (cs : List Char) : Position := cs.foldl next p

@[simp] theorem after_nil (p : Position) : p.after [] = p := rfl

@[simp] theorem after_cons (p : Position) (c : Char) (cs : List Char) :
    p.after (c :: cs) = (p.next c).after cs := rfl

theorem after_append (p : Position) (cs ds : List Char) :
    p.after (cs ++ ds) = (p.after cs).after ds := List.foldl_append

end Position

end ScriptLang
