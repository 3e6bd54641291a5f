import ScriptLang.Table
import ScriptLang.Value.Element

/-! Dictionaries as association lists. Main statement: whatever is done with the dictionaries of a heap,
they show what association lists show after the same uses. -/
namespace ScriptLang

namespace Table

def putAll {α : Type} (t : Table α) (entries : List (String × α)) : Table α :=
  entries.foldl (fun t (key, value) => put key value t) t

end Table

namespace Dict

variable {α : Type} (d : Dict α) (key : String) (value : α)

/-- A key without a slot is not there. A key with a slot stands in it, and in no place before it. -/
theorem slot_cases : d.slots[key]? = none ∧ key ∉ d.toList.map (·.1) ∨
    ∃ front old back, d.slots[key]? = some front.length ∧ d.toList = front ++ (key, old) :: back ∧
      key ∉ front.map (·.1) := by
  cases hslot : d.slots[key]? with
  | none =>
    refine .inl ⟨rfl, fun hmem => ?_⟩
    obtain ⟨⟨_, value⟩, hentry, rfl⟩ := List.mem_map.mp hmem
    obtain ⟨slot, hplace⟩ := List.getElem?_of_mem hentry
    rw [(d.indexed _ slot).mpr ⟨value, Array.getElem?_toList ▸ hplace⟩] at hslot
    cases hslot
  | some slot =>
    obtain ⟨old, hentry⟩ := (d.indexed key slot).mp hslot
    have hlt : slot < d.toList.length := (Array.getElem?_eq_some_iff.mp hentry).1
    have hsplit : d.toList = d.toList.take slot ++ (key, old) :: d.toList.drop (slot + 1) := by
      have hdrop := List.drop_eq_getElem_cons hlt
      rw [show d.toList[slot] = (key, old) from (Array.getElem?_eq_some_iff.mp hentry).2] at hdrop
      rw [← hdrop, List.take_append_drop]
    refine .inr ⟨_, old, _, ?_, hsplit, fun hmem => ?_⟩
    · rw [List.length_take, Nat.min_eq_left (Nat.le_of_lt hlt)]
    · have hkeys := d.keys_nodup
      rw [keys, hsplit, List.map_append] at hkeys
      exact (List.nodup_append.mp hkeys).2.2 _ hmem key List.mem_cons_self rfl

theorem toList_insert : (d.insert key value).toList = Table.put key value d.toList := by
  rw [toList, entries_insert]
  rcases d.slot_cases key with ⟨hslot, hkey⟩ | ⟨front, old, back, hslot, hd, hkey⟩
  · rw [Table.put_of_not_mem value hkey, hslot, Array.toList_push]
    rfl
  · rw [hd, Table.put_middle value old hkey, hslot, Array.toList_setIfInBounds, ← toList, hd]
    simp

theorem toList_erase : (d.erase key).toList = Table.erase key d.toList := by
  rw [toList, entries_erase]
  rcases d.slot_cases key with ⟨hslot, hkey⟩ | ⟨front, old, back, hslot, hd, hkey⟩
  · rw [Table.erase_of_not_mem hkey, hslot]
    rfl
  · rw [hd, Table.erase_middle old hkey, hslot, Array.toList_eraseIdxIfInBounds, ← toList, hd]
    simp [List.eraseIdx_append_of_length_le]

theorem toList_insertAll (entries : List (String × α)) :
    (entries.foldl (fun d (key, value) => d.insert key value) d).toList = Table.putAll d.toList entries := by
  induction entries generalizing d with
  | nil => rfl
  | cons entry entries ih =>
    rw [List.foldl_cons, ih, toList_insert]
    rfl

theorem toList_ofList (entries : List (String × α)) : (ofList entries).toList = Table.putAll [] entries :=
  toList_insertAll empty entries

theorem toList_merge (other : Dict α) : (d.merge other).toList = Table.putAll d.toList other.toList := by
  rw [merge, ← Array.foldl_toList]
  exact d.toList_insertAll other.entries.toList

/-- What a dictionary shows when it stands for an association list. -/
structure Presents (d : Dict α) (t : Table α) : Prop where
  toList_eq : d.toList = t
  keys_eq : d.keys = t.map (·.1)
  values_eq : d.values = t.map (·.2)
  size_eq : d.size = t.length
  isEmpty_eq : d.isEmpty = t.isEmpty
  get?_eq : ∀ key, d.get? key = t.get? key
  keys_nodup : (t.map (·.1)).Nodup
  slot_eq : ∀ key : String, d.slots[key]? = t.findIdx? (·.1 = key)
  slot_lt : ∀ (key : String) (slot : Nat), d.slots[key]? = some slot → slot < d.entries.size

theorem get?_eq_get?_toList : d.get? key = Table.get? key d.toList := by
  rcases d.slot_cases key with ⟨hslot, hkey⟩ | ⟨front, old, back, hslot, hd, hkey⟩
  · rw [Table.get?_of_not_mem hkey, get?, hslot]
    rfl
  · rw [hd, Table.get?_middle old hkey, get?_eq_some, hd]
    simp

theorem slots_eq_findIdx? : d.slots[key]? = d.toList.findIdx? (·.1 = key) := by
  rcases d.slot_cases key with ⟨hslot, hkey⟩ | ⟨front, old, back, hslot, hd, hkey⟩
  · rw [hslot, Table.findIdx?_of_not_mem hkey]
  · rw [hslot, hd, List.findIdx?_append, Table.findIdx?_of_not_mem hkey]
    simp [List.findIdx?_cons]

theorem presents_toList : d.Presents d.toList where
  toList_eq := rfl
  keys_eq := rfl
  values_eq := rfl
  size_eq := rfl
  isEmpty_eq := by simp [isEmpty, toList]
  get?_eq := d.get?_eq_get?_toList
  keys_nodup := d.keys_nodup
  slot_eq := d.slots_eq_findIdx?
  slot_lt key slot hslot := by
    obtain ⟨value, hentry⟩ := (d.indexed key slot).mp hslot
    exact (Array.getElem?_eq_some_iff.mp hentry).1

end Dict

inductive DictUse where
  | insert (id : DictId) (key : String) (value : Value)
  | remove (id : DictId) (key : String)
  | copy (id : DictId)
  | merge (id other : DictId)
  | collect (entries : List (String × Value))

namespace DictUse

/-- What a use answers, and the heap behind it. Only a removal answers, with the value that it took out. -/
def onHeap : DictUse → Heap → Option Value × Heap
  | insert id key value, h => (none, h.updateDict id (·.insert key value))
  | remove id key, h =>
    match Action.takeEntry id key h with
    | .ok value h => (some value, h)
    | .error _ h => (none, h)
  | copy id, h => (none, (h.addDict (h.dict id)).2)
  | merge id other, h => (none, (h.addDict ((h.dict id).merge (h.dict other))).2)
  | collect entries, h => (none, (h.addDict (.ofList entries)).2)

def onTables : DictUse → List (Table Value) → Option Value × List (Table Value)
  | insert id key value, ts => (none, ts.modify id.index (Table.put key value))
  | remove id key, ts => (Table.get? key (ts.getD id.index []), ts.modify id.index (Table.erase key))
  | copy id, ts => (none, ts ++ [ts.getD id.index []])
  | merge id other, ts => (none, ts ++ [Table.putAll (ts.getD id.index []) (ts.getD other.index [])])
  | collect entries, ts => (none, ts ++ [Table.putAll [] entries])

/-- Uses one after the other: what they answer, and what is there behind them. -/
def run {σ : Type} (step : DictUse → σ → Option Value × σ) : List DictUse → σ → List (Option Value) × σ
  | [], s => ([], s)
  | use :: uses, s =>
    let (answer, s) := step use s
    let (answers, s) := run step uses s
    (answer :: answers, s)

end DictUse

namespace Heap

variable (h : Heap) (id : DictId) {g : Table Value → Table Value}

def tables (h : Heap) : List (Table Value) := h.dicts.toList.map Dict.toList

theorem getD_tables : h.tables.getD id.index [] = (h.dict id).toList := by
  rw [tables, dict, List.getD_eq_getElem?_getD, List.getElem?_map, Array.getElem?_toList,
    Array.getD_eq_getD_getElem?]
  cases h.dicts[id.index]? <;> rfl

theorem tables_addDict (d : Dict Value) : (h.addDict d).2.tables = h.tables ++ [d.toList] := by
  simp [addDict, tables]

theorem tables_updateDict {f : Dict Value → Dict Value}
    (hfg : ∀ d, (f d).toList = g d.toList) : (h.updateDict id f).tables = h.tables.modify id.index g := by
  apply List.ext_getElem?
  intro i
  simp only [updateDict, tables, Array.toList_modify, List.getElem?_map, List.getElem?_modify]
  cases h.dicts.toList[i]? with
  | none => rfl
  | some d => by_cases hi : id.index = i <;> simp [hi, hfg]

theorem modify_tables_of_eq
    (hg : g (h.dict id).toList = (h.dict id).toList) : h.tables.modify id.index g = h.tables := by
  rw [← h.getD_tables] at hg
  apply List.ext_getElem?
  intro i
  rw [List.getElem?_modify]
  split
  next hi =>
    subst hi
    cases ht : h.tables[id.index]? with
    | none => rfl
    | some t => simpa [List.getD_eq_getElem?_getD, ht] using hg
  next => exact Option.map_id_apply

theorem takeEntry_eq (key : String) : Action.takeEntry id key h =
    match (h.dict id).get? key with
    | some value => .ok value (h.updateDict id (·.erase key))
    | none => .error (.keyNotFound key) h := by
  have hread : Action.takeEntry id key h = ((match (h.dict id).get? key with
    | some value => do
      modify (·.updateDict id (·.erase key))
      return value
    | none => throw (.keyNotFound key)) : Action Value) h := rfl
  rw [hread]
  cases (h.dict id).get? key <;> rfl

end Heap

namespace DictUse

/-- One use shows the same on a heap and on the association lists of its dictionaries. -/
theorem onHeap_eq (use : DictUse) (h : Heap) :
    ((use.onHeap h).1, (use.onHeap h).2.tables) = use.onTables h.tables := by
  cases use with
  | insert id key value =>
    exact congrArg (none, ·) (h.tables_updateDict id fun d => d.toList_insert key value)
  | remove id key =>
    rw [onTables, h.getD_tables, ← Dict.get?_eq_get?_toList]
    cases hget : (h.dict id).get? key with
    | some value =>
      rw [onHeap, h.takeEntry_eq, hget, ← h.tables_updateDict id fun d => d.toList_erase key]
    | none =>
      have hkey : Table.erase key (h.dict id).toList = (h.dict id).toList := by
        apply Table.erase_of_not_mem
        intro hmem
        obtain ⟨value, hvalue⟩ := (h.dict id).mem_keys.mp hmem
        rw [hvalue] at hget
        cases hget
      rw [onHeap, h.takeEntry_eq, hget, h.modify_tables_of_eq id hkey]
  | copy id => rw [onHeap, onTables, h.tables_addDict, h.getD_tables]
  | merge id other =>
    rw [onHeap, onTables, h.tables_addDict, h.getD_tables, h.getD_tables, Dict.toList_merge]
  | collect entries => rw [onHeap, onTables, h.tables_addDict, Dict.toList_ofList]

theorem run_onHeap (uses : List DictUse) (h : Heap) :
    ((run onHeap uses h).1, (run onHeap uses h).2.tables) = run onTables uses h.tables := by
  induction uses generalizing h with
  | nil => rfl
  | cons use uses ih =>
    have hstep := onHeap_eq use h
    have hrest := ih (use.onHeap h).2
    simp only [run, ← hstep, ← hrest]

end DictUse

/-- Dictionaries refine association lists: after any uses, starting from one empty dictionary, removals
have answered the same, and each dictionary shows what its association list shows. -/
theorem dictionaries_refine_tables (uses : List DictUse) :
    let start : Heap := { dicts := #[.empty] }
    let (answers, heap) := DictUse.run DictUse.onHeap uses start
    let (expected, tables) := DictUse.run DictUse.onTables uses [[]]
    answers = expected ∧ heap.dicts.size = tables.length ∧
      ∀ id : DictId, (heap.dict id).Presents (tables.getD id.index []) := by
  intro start
  have hrun := DictUse.run_onHeap uses start
  have htables : (DictUse.run DictUse.onHeap uses start).2.tables = (DictUse.run DictUse.onTables uses [[]]).2 :=
    congrArg Prod.snd hrun
  refine ⟨congrArg Prod.fst hrun, ?_, fun id => ?_⟩
  · rw [← htables, Heap.tables, List.length_map]
    rfl
  · rw [← htables, Heap.getD_tables]
    exact Dict.presents_toList _

end ScriptLang
