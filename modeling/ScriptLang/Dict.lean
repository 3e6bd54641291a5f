import Std.Data.TreeMap

/-! Dictionaries that keep the order in which their keys came. -/
namespace ScriptLang

variable {α : Type}

namespace Dict

/-- Each key has the slot in which it stands among the entries, and stands there only. -/
def Indexed (entries : Array (String × α)) (slots : Std.TreeMap String Nat) : Prop :=
  ∀ (key : String) (slot : Nat),
    slots[key]? = some slot ↔ ∃ value, entries[slot]? = some (key, value)

def reindex (slots : Std.TreeMap String Nat) (moved : List (String × α)) (slot : Nat) :
    Std.TreeMap String Nat :=
  (moved.zipIdx slot).foldl (fun slots (entry, position) => slots.insert entry.1 position) slots

section Reindex

variable (slots : Std.TreeMap String Nat) {key other : String} {moved : List (String × α)} (start : Nat)

private theorem getElem?_insert_ne (h : key ≠ other) (slot : Nat) :
    (slots.insert key slot)[other]? = slots[other]? := by
  simp [Std.TreeMap.getElem?_insert, h]

theorem getElem?_reindex_of_not_mem (h : key ∉ moved.map (·.1)) :
    (reindex slots moved start)[key]? = slots[key]? := by
  induction moved generalizing slots start with
  | nil => rfl
  | cons entry moved ih =>
    obtain ⟨hentry, hmoved⟩ := not_or.mp (mt List.mem_cons.mpr h)
    exact (ih _ _ hmoved).trans (getElem?_insert_ne slots (Ne.symm hentry) start)

theorem getElem?_reindex {i : Nat} {value : α} (hkeys : (moved.map (·.1)).Nodup)
    (h : moved[i]? = some (key, value)) : (reindex slots moved start)[key]? = some (start + i) := by
  induction moved generalizing slots start i with
  | nil => cases h
  | cons entry moved ih =>
    obtain ⟨hentry, hkeys⟩ := List.nodup_cons.mp hkeys
    change (reindex (slots.insert entry.1 start) moved (start + 1))[key]? = _
    cases i with
    | zero =>
      cases h
      rw [getElem?_reindex_of_not_mem _ _ hentry, Std.TreeMap.getElem?_insert_self]
      rfl
    | succ i =>
      rw [ih _ _ hkeys h]
      congr 1
      omega

end Reindex

namespace Indexed

variable {entries : Array (String × α)} {slots : Std.TreeMap String Nat}

theorem empty : Indexed (#[] : Array (String × α)) ∅ := by
  intro key slot
  simp

/-- A key stands in one slot only. -/
theorem unique (h : Indexed entries slots) {key : String} {i j : Nat} {a b : α}
    (hi : entries[i]? = some (key, a)) (hj : entries[j]? = some (key, b)) : i = j := by
  have hslot : slots[key]? = some i := (h key i).mpr ⟨a, hi⟩
  exact Option.some.inj (hslot.symm.trans ((h key j).mpr ⟨b, hj⟩))

theorem keys_nodup (h : Indexed entries slots) : (entries.toList.map (·.1)).Nodup := by
  rw [List.Nodup, List.pairwise_iff_getElem]
  intro i j hi hj hij heq
  rw [List.length_map] at hi hj
  rw [List.getElem_map, List.getElem_map] at heq
  have hlater : entries[j]? = some (entries.toList[i].1, entries.toList[j].2) := by
    rw [Array.getElem?_eq_getElem hj]
    exact congrArg some (Prod.ext heq.symm rfl)
  exact Nat.ne_of_lt hij (h.unique (Array.getElem?_eq_getElem hi) hlater)

theorem set (h : Indexed entries slots) {key : String} {slot : Nat} (hslot : slots[key]? = some slot)
    (value : α) : Indexed (entries.setIfInBounds slot (key, value)) slots := by
  intro other position
  obtain ⟨old, hold⟩ := (h key slot).mp hslot
  rw [h, Array.getElem?_setIfInBounds]
  split
  next heq =>
    subst heq
    rw [hold, if_pos (Array.getElem?_eq_some_iff.mp hold).1]
    simp
  next => rfl

theorem push (h : Indexed entries slots) {key : String} (hkey : slots[key]? = none) (value : α) :
    Indexed (entries.push (key, value)) (slots.insert key entries.size) := by
  intro other position
  rw [Array.getElem?_push]
  by_cases hother : key = other
  · subst hother
    rw [Std.TreeMap.getElem?_insert_self]
    split
    next hsize => simp [hsize]
    next hsize =>
      rw [← h, hkey]
      simp [Ne.symm hsize]
  · rw [getElem?_insert_ne slots hother, h]
    split
    next hsize => simp [hsize, hother]
    next => rfl

theorem erase (h : Indexed entries slots) {key : String} {slot : Nat} (hslot : slots[key]? = some slot) :
    Indexed (entries.eraseIdxIfInBounds slot)
      (reindex (slots.erase key) ((entries.eraseIdxIfInBounds slot).toList.drop slot) slot) := by
  intro other position
  obtain ⟨old, hold⟩ := (h key slot).mp hslot
  have hleft (p : Nat) : (entries.eraseIdxIfInBounds slot)[p]? =
      if p < slot then entries[p]? else entries[p + 1]? := by
    rw [← Array.getElem?_toList, Array.toList_eraseIdxIfInBounds, List.getElem?_eraseIdx,
      Array.getElem?_toList, Array.getElem?_toList]
  have hmoved (i : Nat) : ((entries.eraseIdxIfInBounds slot).toList.drop slot)[i]? =
      entries[slot + i + 1]? := by
    rw [List.getElem?_drop, Array.getElem?_toList, hleft, if_neg (by omega)]
  have hkeys : (((entries.eraseIdxIfInBounds slot).toList.drop slot).map (·.1)).Nodup := by
    refine h.keys_nodup.sublist (.map _ ((List.drop_sublist _ _).trans ?_))
    rw [Array.toList_eraseIdxIfInBounds]
    exact List.eraseIdx_sublist _ _
  generalize (entries.eraseIdxIfInBounds slot).toList.drop slot = moved at hmoved hkeys
  rw [hleft]
  by_cases hmem : other ∈ moved.map (·.1)
  · obtain ⟨⟨_, value⟩, hentry, rfl⟩ := List.mem_map.mp hmem
    obtain ⟨i, hi⟩ := List.getElem?_of_mem hentry
    rw [getElem?_reindex _ _ hkeys hi]
    rw [hmoved] at hi
    constructor
    · rintro ⟨⟩
      exact ⟨value, by rw [if_neg (by omega), hi]⟩
    · rintro ⟨value', hvalue⟩
      split at hvalue <;> cases h.unique hi hvalue
      · omega
      · rfl
  · have hnot {p : Nat} {value : α} (hp : entries[p]? = some (other, value)) : p ≤ slot := by
      refine Nat.le_of_not_lt fun hlt => hmem ?_
      obtain ⟨i, rfl⟩ := Nat.exists_eq_add_of_lt hlt
      rw [← hmoved] at hp
      exact List.mem_map.mpr ⟨_, List.mem_of_getElem? hp, rfl⟩
    rw [getElem?_reindex_of_not_mem _ _ hmem, Std.TreeMap.getElem?_erase]
    by_cases hkey : key = other
    · subst hkey
      have hgone : ¬∃ value, (if position < slot then entries[position]? else entries[position + 1]?) =
          some (key, value) := by
        rintro ⟨value, hvalue⟩
        split at hvalue <;> cases h.unique hold hvalue <;> omega
      simp [hgone]
    · rw [if_neg (by simpa using hkey), h]
      constructor
      · rintro ⟨value, hvalue⟩
        refine ⟨value, ?_⟩
        rcases Nat.lt_or_eq_of_le (hnot hvalue) with hlt | rfl
        · rw [if_pos hlt, hvalue]
        · rw [hold] at hvalue
          cases hvalue
          exact absurd rfl hkey
      · rintro ⟨value, hvalue⟩
        split at hvalue
        next => exact ⟨value, hvalue⟩
        next hge => exact absurd (hnot hvalue) (by omega)

end Indexed

end Dict

/-- A dictionary: the entries in order, and for each key its slot among them. -/
structure Dict (α : Type) where
  entries : Array (String × α) := #[]
  slots : Std.TreeMap String Nat := ∅
  indexed : Dict.Indexed entries slots := by exact .empty

namespace Dict

def empty : Dict α := {}

def size (d : Dict α) : Nat := d.entries.size

def isEmpty (d : Dict α) : Bool := d.entries.isEmpty

def toList (d : Dict α) : List (String × α) := d.entries.toList

def keys (d : Dict α) : List String := d.toList.map (·.1)

def values (d : Dict α) : List α := d.toList.map (·.2)

def get? (d : Dict α) (key : String) : Option α := do
  let slot ← d.slots[key]?
  let entry ← d.entries[slot]?
  return entry.2

/-- Puts a value at a key. A key that is there already keeps its place, a new one comes last. -/
def insert (d : Dict α) (key : String) (value : α) : Dict α :=
  match h : d.slots[key]? with
  | some slot => ⟨d.entries.setIfInBounds slot (key, value), d.slots, d.indexed.set h value⟩
  | none =>
    let slots := d.slots.insert key d.entries.size
    ⟨d.entries.push (key, value), slots, d.indexed.push h value⟩

def erase (d : Dict α) (key : String) : Dict α :=
  match h : d.slots[key]? with
  | some slot =>
    let entries := d.entries.eraseIdxIfInBounds slot
    ⟨entries, reindex (d.slots.erase key) (entries.toList.drop slot) slot, d.indexed.erase h⟩
  | none => d

def ofList (entries : List (String × α)) : Dict α :=
  entries.foldl (fun d (key, value) => d.insert key value) empty

def merge (d other : Dict α) : Dict α :=
  other.entries.foldl (fun d (key, value) => d.insert key value) d

variable (d : Dict α) {key : String} {value : α}

theorem entries_insert : (d.insert key value).entries =
    match d.slots[key]? with
    | some slot => d.entries.setIfInBounds slot (key, value)
    | none => d.entries.push (key, value) := by
  unfold insert
  split <;> simp [*]

theorem slots_insert : (d.insert key value).slots =
    match d.slots[key]? with
    | some _ => d.slots
    | none => d.slots.insert key d.entries.size := by
  unfold insert
  split <;> simp [*]

theorem entries_erase : (d.erase key).entries =
    match d.slots[key]? with
    | some slot => d.entries.eraseIdxIfInBounds slot
    | none => d.entries := by
  unfold erase
  split <;> simp [*]

theorem slots_erase : (d.erase key).slots =
    match d.slots[key]? with
    | some slot =>
      reindex (d.slots.erase key) ((d.entries.eraseIdxIfInBounds slot).toList.drop slot) slot
    | none => d.slots := by
  unfold erase
  split <;> simp [*]

/-- A dictionary gives the values of its entries. -/
theorem get?_eq_some : d.get? key = some value ↔ (key, value) ∈ d.toList := by
  constructor
  · intro hget
    obtain ⟨slot, hslot, hentry⟩ := Option.bind_eq_some_iff.mp hget
    obtain ⟨found, hfound⟩ := (d.indexed key slot).mp hslot
    rw [hfound] at hentry
    cases hentry
    exact Array.mem_def.mp (Array.mem_of_getElem? hfound)
  · intro hmem
    obtain ⟨slot, hentry⟩ := List.getElem?_of_mem hmem
    rw [toList, Array.getElem?_toList] at hentry
    rw [get?, (d.indexed key slot).mpr ⟨value, hentry⟩, Option.bind_eq_bind, Option.bind_some, hentry]
    rfl

theorem mem_keys : key ∈ d.keys ↔ ∃ value, d.get? key = some value := by
  simp [keys, get?_eq_some]

theorem keys_nodup : d.keys.Nodup := d.indexed.keys_nodup

end Dict

end ScriptLang
