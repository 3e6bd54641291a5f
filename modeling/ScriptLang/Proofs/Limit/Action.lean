import ScriptLang.Proofs.Limit.Basic
import ScriptLang.Value.Operation

/-! Operators and writes at the limit: what they do to the heap, and what they refuse because it would be too
long. -/
namespace ScriptLang

/-- Where an entry of an array is changed, every entry is the changed one or what it was. -/
theorem getD_modify {α : Type} (xs : Array α) (i j : Nat) (f : α → α) (d : α) :
    (xs.modify i f).getD j d = f (xs.getD i d) ∧ i = j ∨ (xs.modify i f).getD j d = xs.getD j d := by
  simp only [Array.getD_eq_getD_getElem?, Array.getElem?_modify]
  split
  next hij =>
    subst hij
    cases xs[i]? with
    | none => exact .inr rfl
    | some => exact .inl ⟨rfl, rfl⟩
  next => exact .inr rfl

namespace Heap

variable (h : Heap)

theorem list_addList (elements : Array Value) (id : ListId) :
    (h.addList elements).2.list id = if id.index = h.lists.size then elements else h.list id := by
  simp only [addList, list, Array.getD_eq_getD_getElem?, Array.getElem?_push]
  split <;> rfl

theorem dict_addDict (entries : Dict Value) (id : DictId) :
    (h.addDict entries).2.dict id = if id.index = h.dicts.size then entries else h.dict id := by
  simp only [addDict, dict, Array.getD_eq_getD_getElem?, Array.getElem?_push]
  split <;> rfl

end Heap

namespace Action

variable {α : Type} {a b : Value}

theorem utf8ByteSize_repeat (text : String) (count : Nat) :
    (Nat.repeat (· ++ text) count "").utf8ByteSize = text.utf8ByteSize * count := by
  induction count with
  | zero => rfl
  | succ count ih => rw [Nat.repeat, String.utf8ByteSize_append, ih, Nat.mul_succ]

theorem push_eq (id : ListId) (value : Value) (h : Heap) : push id value h =
    if maxLength < (h.list id).size + 1 then .error (.tooLarge "list") h
    else .ok () (h.updateList id (·.push value)) := by
  change (checkLength "list" ((h.list id).size + 1) >>= _) h = _
  unfold checkLength
  split <;> rfl

/-- How an element of a list is written: the list may grow up to it, but not beyond the limit. -/
theorem writeList_eq (id : ListId) (key value : Value) (h : Heap) : writeList id key value h =
    match key.toIndex with
    | .error cause => .error cause h
    | .ok index =>
      if resolveIndex index (h.list id).size < 0 then
        .error (.indexOutOfRange index (h.list id).size) h
      else if (h.list id).size ≤ resolveIndex index (h.list id).size ∧
          maxLength < (resolveIndex index (h.list id).size).toNat + 1 then
        .error (.tooLarge "list") h
      else .ok () (h.updateList id
        (written · (resolveIndex index (h.list id).size).toNat value)) := by
  unfold writeList
  cases key.toIndex with
  | error cause => rfl
  | ok index =>
    change (if resolveIndex index (h.list id).size < 0 then _ else _ : Action Unit) h = _
    dsimp only
    split
    next => rfl
    next =>
      by_cases hgrows : ((h.list id).size : Int) ≤ resolveIndex index (h.list id).size
      · simp only [hgrows, if_true, true_and]
        unfold checkLength
        split <;> rfl
      · simp only [hgrows, if_false, false_and]
        rfl

section Refused

variable {h : Heap} {kind : String} {length : Nat}

/-- What an operator makes of a list or repeats of a text: the kind of it, and how long it is. -/
def grown? (h : Heap) (op : BinaryOp) (left right : Value) : Option (String × Nat) :=
  match op, left, right with
  | .add, .list id, _ => some ("list", (h.list id).size + 1)
  | .multiply, .text a, .number x => (Number.count? x).map fun n => ("string", a.utf8ByteSize * n)
  | .multiply, .list id, .list other => some ("list", (h.list id).size + (h.list other).size)
  | .multiply, .list id, .number x => (Number.count? x).map fun n => ("list", (h.list id).size * n)
  | _, _, _ => none

/-- How long a list is when it has grown to hold an element that is written. -/
def grownTo? (h : Heap) (target : Value) (key : Option Value) : Option Nat :=
  match target, key with
  | .list id, none => some ((h.list id).size + 1)
  | .list id, some (.number x) =>
    match (Value.number x).toIndex with
    | .ok index =>
      if (h.list id).size ≤ resolveIndex index (h.list id).size then
        some ((resolveIndex index (h.list id).size).toNat + 1)
      else none
    | .error _ => none
  | _, _ => none

theorem checkLength_bind_tooLarge {f : Unit → Action α} (hlength : maxLength < length) :
    (checkLength kind length >>= f) h = .error (.tooLarge kind) h := by
  unfold checkLength
  rw [if_pos hlength]
  rfl

theorem repeatCount_bind {f : Nat → Action α} {x : Float} {n : Nat} (hn : Number.count? x = some n) :
    (repeatCount x >>= f) h = f n h := by
  unfold repeatCount
  rw [hn]
  rfl

/-- An operator refuses what would be too long. -/
theorem binary_tooLarge {op : BinaryOp} (hgrown : grown? h op a b = some (kind, length))
    (hlength : maxLength < length) : binary op a b h = .error (.tooLarge kind) h := by
  unfold grown? at hgrown
  split at hgrown
  · cases hgrown
    exact checkLength_bind_tooLarge hlength
  · obtain ⟨n, hn, heq⟩ := Option.map_eq_some_iff.mp hgrown
    cases heq
    exact (repeatCount_bind hn).trans (checkLength_bind_tooLarge hlength)
  · cases hgrown
    exact checkLength_bind_tooLarge hlength
  · obtain ⟨n, hn, heq⟩ := Option.map_eq_some_iff.mp hgrown
    cases heq
    exact (repeatCount_bind hn).trans (checkLength_bind_tooLarge hlength)
  · cases hgrown

/-- A list is not written to beyond the limit. -/
theorem writeElement_tooLarge {key : Option Value} (hgrown : grownTo? h a key = some length)
    (hlength : maxLength < length) : writeElement a key b h = .error (.tooLarge "list") h := by
  unfold grownTo? at hgrown
  split at hgrown
  · cases hgrown
    exact checkLength_bind_tooLarge hlength
  next id x =>
    split at hgrown
    next index hindex =>
      split at hgrown
      next hbehind =>
        cases hgrown
        change writeList id (.number x) b h = _
        rw [writeList_eq, hindex]
        dsimp only
        rw [if_neg (by omega), if_pos ⟨hbehind, hlength⟩]
      next => cases hgrown
    next => cases hgrown
  · cases hgrown

end Refused

end Action

end ScriptLang
