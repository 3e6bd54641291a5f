import ScriptLang.Value.Heap

/-! Equality of values.

Numbers, texts and truth values are compared by content, and so are lists and dictionaries, which may
contain themselves; functions, classes and instances are compared by identity. -/
namespace ScriptLang

/-- Compares two values, given the pairs of collections that are being compared around them, which
count as equal. The collections are followed `depth` deep. -/
def Value.equalUpTo (h : Heap) :
    (depth : Nat) → (pending : List (Handle × Handle)) → Value → Value → Bool
  | _, _, .nothing, .nothing => true
  | _, _, .number a, .number b => a == b
  | _, _, .text a, .text b => a = b
  | _, _, .boolean a, .boolean b => a = b
  | 0, _, .list _, .list _ => true
  | depth + 1, pending, .list a, .list b =>
    a = b || pending.contains (.list a, .list b) ||
      (h.list a).size = (h.list b).size &&
        ((h.list a).toList.zip (h.list b).toList).all fun (x, y) =>
          equalUpTo h depth ((.list a, .list b) :: pending) x y
  | 0, _, .dict _, .dict _ => true
  | depth + 1, pending, .dict a, .dict b =>
    a = b || pending.contains (.dict a, .dict b) ||
      (h.dict a).size = (h.dict b).size &&
        (h.dict a).toList.all fun (key, x) =>
          match (h.dict b).get? key with
          | some y => equalUpTo h depth ((.dict a, .dict b) :: pending) x y
          | none => false
  | _, _, .function a, .function b => a.same b
  | _, _, .builtin a, .builtin b => a = b
  | _, _, .class a, .class b => a.id = b.id
  | _, _, .instance a, .instance b => a.id = b.id
  | _, _, _, _ => false

/-- Whether two values are equal. A chain of pairs without a repetition is no longer than the number
of pairs in the heap, so all of them are followed. -/
def Value.equal (h : Heap) (a b : Value) : Bool :=
  equalUpTo h (h.lists.size * h.lists.size + h.dicts.size * h.dicts.size + 1) [] a b

end ScriptLang
