import ScriptLang.Dict
import ScriptLang.Proofs.Tree.Alike
import ScriptLang.Table

/-! Arrays, dictionaries and tables that hold related things in the same places. Main statement: what
programs do to them keeps them so. -/
namespace ScriptLang

variable {α β : Type} {P : α → β → Prop} {a : α} {b : β}

section Lists

variable {γ δ : Type} {Q : γ → δ → Prop} {xs : List α} {ys : List β} {f : α → Bool} {g : β → Bool}

section

variable (h : List.Forall₂ P xs ys)

include h

theorem forall₂_map_eq {f : α → γ} {g : β → γ} (hf : ∀ a b, P a b → f a = g b) : xs.map f = ys.map g := by
  rw [← List.forall₂_eq_eq_eq, List.forall₂_map_left_iff, List.forall₂_map_right_iff]
  exact h.imp hf

theorem forall₂_any_eq (hf : ∀ a b, P a b → f a = g b) : xs.any f = ys.any g := by
  induction h with
  | nil => rfl
  | cons hab _ ih => rw [List.any_cons, List.any_cons, hf _ _ hab, ih]

theorem forall₂_find? (hf : ∀ a b, P a b → f a = g b) : Option.Rel P (xs.find? f) (ys.find? g) := by
  induction h with
  | nil => exact .none
  | cons hab _ ih =>
    rw [List.find?_cons, List.find?_cons, hf _ _ hab]
    split
    · exact .some hab
    · exact ih

theorem forall₂_findSome? {f : α → Option γ} {g : β → Option δ} (hf : ∀ a b, P a b → Option.Rel Q (f a) (g b)) :
    Option.Rel Q (xs.findSome? f) (ys.findSome? g) := by
  induction h with
  | nil => exact .none
  | @cons a b _ _ hab _ ih =>
    rw [List.findSome?_cons, List.findSome?_cons]
    have hfab := hf _ _ hab
    generalize f a = p, g b = q at hfab
    cases hfab with
    | none => exact ih
    | some hq => exact .some hq

theorem forall₂_filter (hf : ∀ a b, P a b → f a = g b) : List.Forall₂ P (xs.filter f) (ys.filter g) := by
  induction h with
  | nil => exact .nil
  | cons hab _ ih =>
    rw [List.filter_cons, List.filter_cons, hf _ _ hab]
    split
    · exact .cons hab ih
    · exact ih

theorem forall₂_getLast? : Option.Rel P xs.getLast? ys.getLast? := by
  rw [← List.head?_reverse, ← List.head?_reverse]
  have hreverse := List.rel_reverse h
  generalize xs.reverse = xs, ys.reverse = ys at hreverse
  cases hreverse with
  | nil => exact .none
  | cons hxy _ => exact .some hxy

end

theorem option_rel_map {f : α → γ} {g : β → δ} {x : Option α} {y : Option β} (h : Option.Rel P x y)
    (hf : ∀ a b, P a b → Q (f a) (g b)) : Option.Rel Q (x.map f) (y.map g) := by
  cases h with
  | none => exact .none
  | some hab => exact .some (hf _ _ hab)

end Lists

def Aligned (P : α → β → Prop) (xs : Array α) (ys : Array β) : Prop :=
  List.Forall₂ P xs.toList ys.toList

namespace Aligned

variable {xs : Array α} {ys : Array β}

theorem size_eq (h : Aligned P xs ys) : xs.size = ys.size :=
  h.length_eq

theorem isEmpty_eq (h : Aligned P xs ys) : xs.isEmpty = ys.isEmpty := by
  rw [Array.isEmpty, Array.isEmpty, h.size_eq]

private theorem rel_getElem? {xs : List α} {ys : List β} (h : List.Forall₂ P xs ys) (i : Nat) :
    Option.Rel P xs[i]? ys[i]? := by
  induction h generalizing i with
  | nil => exact .none
  | cons hab _ ih =>
    cases i with
    | zero => exact .some hab
    | succ i => exact ih i

private theorem of_rel_getElem? {xs : List α} {ys : List β}
    (h : ∀ i : Nat, Option.Rel P xs[i]? ys[i]?) : List.Forall₂ P xs ys := by
  induction xs generalizing ys with
  | nil =>
    cases ys with
    | nil => exact .nil
    | cons y ys => cases h 0
  | cons x xs ih =>
    cases ys with
    | nil => cases h 0
    | cons y ys =>
      cases h 0 with
      | some hxy => exact .cons hxy (ih fun i => h (i + 1))

theorem getElem? (h : Aligned P xs ys) (i : Nat) : Option.Rel P xs[i]? ys[i]? := by
  rw [← Array.getElem?_toList, ← Array.getElem?_toList]
  exact rel_getElem? h i

theorem of_getElem? (h : ∀ i : Nat, Option.Rel P xs[i]? ys[i]?) : Aligned P xs ys := by
  refine of_rel_getElem? fun i => ?_
  rw [Array.getElem?_toList, Array.getElem?_toList]
  exact h i

theorem getD (h : Aligned P xs ys) (i : Nat) (hab : P a b) : P (xs.getD i a) (ys.getD i b) := by
  rw [Array.getD_eq_getD_getElem?, Array.getD_eq_getD_getElem?]
  have hi := h.getElem? i
  generalize xs[i]? = x, ys[i]? = y at hi
  cases hi with
  | none => exact hab
  | some h => exact h

theorem empty : Aligned P #[] #[] := List.Forall₂.nil

theorem push (h : Aligned P xs ys) (hab : P a b) : Aligned P (xs.push a) (ys.push b) := by
  rw [Aligned, Array.toList_push, Array.toList_push]
  exact List.rel_append h (.cons hab .nil)

theorem append {xs xs' : Array α} {ys ys' : Array β} (h : Aligned P xs ys)
    (h' : Aligned P xs' ys') : Aligned P (xs ++ xs') (ys ++ ys') := by
  rw [Aligned, Array.toList_append, Array.toList_append]
  exact List.rel_append h h'

theorem replicate (n : Nat) (hab : P a b) : Aligned P (Array.replicate n a) (Array.replicate n b) := by
  refine of_getElem? fun i => ?_
  rw [Array.getElem?_replicate, Array.getElem?_replicate]
  split
  · exact .some hab
  · exact .none

variable (h : Aligned P xs ys)

include h

theorem extract (first behind : Nat) : Aligned P (xs.extract first behind) (ys.extract first behind) := by
  rw [Aligned, Array.toList_extract, Array.toList_extract, List.extract_eq_take_drop,
    List.extract_eq_take_drop]
  exact List.forall₂_take _ (List.forall₂_drop _ h)

theorem setIfInBounds (i : Nat) (hab : P a b) : Aligned P (xs.setIfInBounds i a) (ys.setIfInBounds i b) := by
  refine of_getElem? fun j => ?_
  rw [Array.getElem?_setIfInBounds, Array.getElem?_setIfInBounds, h.size_eq]
  split
  · split
    · exact .some hab
    · exact .none
  · exact h.getElem? j

theorem modify (i : Nat) {f : α → α} {g : β → β} (hf : ∀ a b, P a b → P (f a) (g b)) :
    Aligned P (xs.modify i f) (ys.modify i g) := by
  refine of_getElem? fun j => ?_
  rw [Array.getElem?_modify, Array.getElem?_modify]
  have hj := h.getElem? j
  generalize xs[j]? = x, ys[j]? = y at hj
  split
  · cases hj with
    | none => exact .none
    | some hab => exact .some (hf _ _ hab)
  · exact hj

theorem eraseIdxIfInBounds (i : Nat) : Aligned P (xs.eraseIdxIfInBounds i) (ys.eraseIdxIfInBounds i) := by
  rw [Aligned, Array.toList_eraseIdxIfInBounds, Array.toList_eraseIdxIfInBounds]
  refine of_rel_getElem? fun j => ?_
  rw [List.getElem?_eraseIdx, List.getElem?_eraseIdx]
  split
  · exact rel_getElem? h j
  · exact rel_getElem? h (j + 1)

theorem insertIdxIfInBounds (i : Nat) (hab : P a b) :
    Aligned P (xs.insertIdxIfInBounds i a) (ys.insertIdxIfInBounds i b) := by
  obtain ⟨xs⟩ := xs
  obtain ⟨ys⟩ := ys
  rw [Aligned, List.insertIdxIfInBounds_toArray, List.insertIdxIfInBounds_toArray]
  refine of_rel_getElem? fun j => ?_
  rw [List.getElem?_insertIdx, List.getElem?_insertIdx, h.length_eq]
  split
  · exact rel_getElem? h j
  · split
    · split
      · exact .some hab
      · exact .none
    · exact rel_getElem? h (j - 1)

end Aligned

/-- Tables with the same names in the same order, and related things at each. -/
abbrev Table.Alike (P : α → β → Prop) : Table α → Table β → Prop := List.Forall₂ (EntryAlike P)

namespace Table.Alike

variable {t : Table α} {u : Table β}

variable (h : Table.Alike P t u)

include h

theorem get? (name : String) : Option.Rel P (t.get? name) (u.get? name) := by
  induction h with
  | nil => exact .none
  | cons entry _ ih =>
    obtain ⟨key, value⟩ := entry
    rw [Table.get?, Table.get?]
    split
    · exact .some value
    · exact ih

theorem put (name : String) (hab : P a b) : Table.Alike P (t.put name a) (u.put name b) := by
  induction h with
  | nil => exact .cons (.mk name hab) .nil
  | cons entry rest ih =>
    obtain ⟨key, value⟩ := entry
    rw [Table.put, Table.put]
    split
    · exact .cons (.mk name hab) rest
    · exact .cons (.mk key value) ih

theorem erase (name : String) : Table.Alike P (t.erase name) (u.erase name) := by
  induction h with
  | nil => exact .nil
  | cons entry rest ih =>
    obtain ⟨key, value⟩ := entry
    rw [Table.erase, Table.erase]
    split
    · exact rest
    · exact .cons (.mk key value) ih

end Table.Alike

/-- Dictionaries with the same keys in the same slots, and related values at each. -/
structure Dict.Alike (P : α → β → Prop) (d : Dict α) (e : Dict β) : Prop where
  entries : Aligned (EntryAlike P) d.entries e.entries
  slots : d.slots = e.slots

namespace Dict.Alike

variable {d d' : Dict α} {e e' : Dict β} {xs : List (String × α)} {ys : List (String × β)}

theorem empty : Dict.Alike P .empty .empty := ⟨.empty, rfl⟩

theorem get? (h : Dict.Alike P d e) (key : String) : Option.Rel P (d.get? key) (e.get? key) := by
  rw [Dict.get?, Dict.get?, h.slots]
  cases e.slots[key]? with
  | none => exact .none
  | some slot =>
    have hslot := h.entries.getElem? slot
    simp only [Option.bind_eq_bind, Option.bind_some]
    generalize d.entries[slot]? = x, e.entries[slot]? = y at hslot
    cases hslot with
    | none => exact .none
    | some entry =>
      obtain ⟨_, value⟩ := entry
      exact .some value

theorem insert (h : Dict.Alike P d e) (key : String) (hab : P a b) :
    Dict.Alike P (d.insert key a) (e.insert key b) := by
  constructor
  · rw [entries_insert, entries_insert, h.slots]
    split
    · exact h.entries.setIfInBounds _ (.mk key hab)
    · exact h.entries.push (.mk key hab)
  · rw [slots_insert, slots_insert, h.slots, h.entries.size_eq]

private theorem reindex_eq (h : List.Forall₂ (EntryAlike P) xs ys) (slots : Std.TreeMap String Nat) (slot : Nat) :
    reindex slots xs slot = reindex slots ys slot := by
  induction h generalizing slots slot with
  | nil => rfl
  | cons entry _ ih =>
    obtain ⟨key, _⟩ := entry
    exact ih (slots.insert key slot) (slot + 1)

theorem erase (h : Dict.Alike P d e) (key : String) : Dict.Alike P (d.erase key) (e.erase key) := by
  constructor
  · rw [entries_erase, entries_erase, h.slots]
    split
    · exact h.entries.eraseIdxIfInBounds _
    · exact h.entries
  · rw [slots_erase, slots_erase, h.slots]
    split
    · exact reindex_eq (List.forall₂_drop _ (h.entries.eraseIdxIfInBounds _)) _ _
    · rfl

private theorem foldl_insert (h : List.Forall₂ (EntryAlike P) xs ys) (hd : Dict.Alike P d e) :
    Dict.Alike P (xs.foldl (fun d (key, value) => d.insert key value) d)
      (ys.foldl (fun d (key, value) => d.insert key value) e) := by
  induction h generalizing d e with
  | nil => exact hd
  | cons entry _ ih =>
    obtain ⟨key, value⟩ := entry
    exact ih (hd.insert key value)

theorem ofList (h : List.Forall₂ (EntryAlike P) xs ys) : Dict.Alike P (.ofList xs) (.ofList ys) :=
  foldl_insert h empty

variable (h : Dict.Alike P d e)

include h

theorem merge (h' : Dict.Alike P d' e') : Dict.Alike P (d.merge d') (e.merge e') := by
  rw [Dict.merge, Dict.merge, ← Array.foldl_toList, ← Array.foldl_toList]
  exact foldl_insert h'.entries h

theorem keys_eq : d.keys = e.keys := by
  refine forall₂_map_eq h.entries ?_
  rintro _ _ ⟨key, _⟩
  rfl

theorem values : List.Forall₂ P d.values e.values := by
  have hentries : List.Forall₂ (EntryAlike P) d.toList e.toList := h.entries
  rw [Dict.values, Dict.values, List.forall₂_map_left_iff, List.forall₂_map_right_iff]
  refine hentries.imp ?_
  rintro _ _ ⟨_, value⟩
  exact value

end Dict.Alike

end ScriptLang
