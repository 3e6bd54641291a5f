import ScriptLang.Proofs.Dict.Association
import ScriptLang.Value.Operation

/-! Merging dictionaries. A table with each name once is known by the order of its names and by what it keeps
for each of them, and merging is plain to see in both. -/
namespace ScriptLang

namespace Table

variable {α : Type}

/-- Tables with the same names in the same order that keep the same for each. -/
theorem eq_of_names {t u : Table α} (hnames : t.map (·.1) = u.map (·.1)) (ht : (t.map (·.1)).Nodup)
    (hget : ∀ name, get? name t = get? name u) : t = u := by
  induction t generalizing u with
  | nil => exact (List.map_eq_nil_iff.mp hnames.symm).symm
  | cons entry t ih =>
    obtain ⟨key, value⟩ := entry
    obtain _ | ⟨⟨other, old⟩, u⟩ := u
    · cases hnames
    obtain ⟨rfl, hrest⟩ := List.cons.inj hnames
    obtain ⟨hkey, ht⟩ := List.nodup_cons.mp ht
    have hvalue : value = old := by simpa [get?_cons] using hget key
    rw [hvalue, ih hrest ht]
    intro name
    by_cases h : key = name
    · subst h
      rw [get?_of_not_mem hkey, get?_of_not_mem (hrest ▸ hkey)]
    · simpa [get?_cons, h] using hget name

theorem names_put (t : Table α) (name : String) (value : α) :
    (put name value t).map (·.1) = t.map (·.1) ++ [name].filter (· ∉ t.map (·.1)) := by
  induction t with
  | nil => rfl
  | cons entry t ih =>
    by_cases h : entry.1 = name
    · simp [put, h]
    · simp only [put, if_neg h, List.map_cons, ih, List.cons_append]
      congr 2
      refine List.filter_congr fun other hother => ?_
      simp [List.mem_singleton.mp hother, Ne.symm h]

section PutAll

variable (t : Table α) {entries : Table α} (h : (entries.map (·.1)).Nodup)

include h

theorem names_putAll : (putAll t entries).map (·.1) = t.map (·.1) ++ (entries.map (·.1)).filter (· ∉ t.map (·.1)) := by
  induction entries generalizing t with
  | nil => simp [putAll]
  | cons entry entries ih =>
    obtain ⟨hentry, h⟩ := List.nodup_cons.mp h
    have hlater : (entries.map (·.1)).filter (· ∉ (put entry.1 entry.2 t).map (·.1)) =
        (entries.map (·.1)).filter (· ∉ t.map (·.1)) := by
      refine List.filter_congr fun name hname => ?_
      have hne : name ≠ entry.1 := by
        rintro rfl
        exact hentry hname
      simp [names_put, hne]
    have hstep : putAll t (entry :: entries) = putAll (put entry.1 entry.2 t) entries := rfl
    rw [hstep, ih _ h, hlater, names_put, List.append_assoc, ← List.filter_append]
    rfl

theorem get?_putAll (name : String) : get? name (putAll t entries) = (get? name entries).or (get? name t) := by
  induction entries generalizing t with
  | nil => rfl
  | cons entry entries ih =>
    obtain ⟨hentry, h⟩ := List.nodup_cons.mp h
    have hstep : putAll t (entry :: entries) = putAll (put entry.1 entry.2 t) entries := rfl
    rw [hstep, ih _ h, get?_put, get?_cons]
    split
    next heq =>
      rw [get?_of_not_mem (heq ▸ hentry)]
      rfl
    next => rfl

end PutAll

end Table

namespace Dict

variable {α : Type} (a b c : Dict α)

theorem keys_merge : (a.merge b).keys = a.keys ++ b.keys.filter (· ∉ a.keys) := by
  have hnames := Table.names_putAll a.toList b.keys_nodup
  rwa [← toList_merge] at hnames

theorem get?_merge (key : String) : (a.merge b).get? key = (b.get? key).or (a.get? key) := by
  rw [get?_eq_get?_toList, toList_merge, Table.get?_putAll a.toList b.keys_nodup, ← get?_eq_get?_toList,
    ← get?_eq_get?_toList]

/-- Dictionaries with the same keys in the same order, and the same at each key. -/
theorem toList_eq_of_keys {a b : Dict α} (hkeys : a.keys = b.keys) (hget : ∀ key, a.get? key = b.get? key) :
    a.toList = b.toList :=
  Table.eq_of_names hkeys a.keys_nodup fun key => by
    rw [← get?_eq_get?_toList, hget, get?_eq_get?_toList]

theorem toList_merge_assoc : ((a.merge b).merge c).toList = (a.merge (b.merge c)).toList := by
  refine toList_eq_of_keys ?_ fun key => ?_
  · -- A key of `c` is new behind both if it is neither in `a` nor new in `b`.
    simp only [keys_merge, List.filter_append, List.append_assoc, List.filter_filter]
    congr 2
    refine List.filter_congr fun key _ => ?_
    by_cases ha : key ∈ a.keys <;> simp [ha]
  · simp only [get?_merge, Option.or_assoc]

theorem toList_merge_self : (a.merge a).toList = a.toList := by
  refine toList_eq_of_keys ?_ fun key => ?_
  · simp [keys_merge]
  · rw [get?_merge, Option.or_self]

/-- Merging is associative, also in the order of the entries, with the empty dictionary on both sides and each
dictionary with itself making no difference. The dictionary on the right wins, the keys of the left one come
first, and `+` leaves every dictionary that is there as it is. -/
theorem merge_ordered_monoid :
    ((a.merge b).merge c).toList = (a.merge (b.merge c)).toList ∧
    (empty.merge a).toList = a.toList ∧ (a.merge empty).toList = a.toList ∧ (a.merge a).toList = a.toList ∧
    (∀ key, (a.merge b).get? key = (b.get? key).or (a.get? key)) ∧
    (a.merge b).keys = a.keys ++ b.keys.filter (· ∉ a.keys) ∧
    ∀ (heap : Heap) (left right : Fin heap.dicts.size), ∃ merged after,
      Action.add (.dict ⟨left⟩) (.dict ⟨right⟩) heap = .ok (.dict merged) after ∧
      after.dict merged = (heap.dict ⟨left⟩).merge (heap.dict ⟨right⟩) ∧
      heap.dicts.size ≤ merged.index ∧ ∀ old : Fin heap.dicts.size, after.dict ⟨old⟩ = heap.dict ⟨old⟩ := by
  refine ⟨toList_merge_assoc a b c, ?_, toList_merge a empty, toList_merge_self a, get?_merge a b,
    keys_merge a b, fun heap left right => ?_⟩
  · refine toList_eq_of_keys ?_ fun key => ?_
    · simp [keys_merge, show (empty : Dict α).keys = [] from rfl]
    · rw [get?_merge, get?_eq_get?_toList empty]
      exact Option.or_none
  · exact ⟨_, _, rfl, heap.dict_addDict_self _, Nat.le_refl _, fun old => heap.dict_addDict_of_lt _ old.isLt⟩

end Dict

end ScriptLang
