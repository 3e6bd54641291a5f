/-! Tables: names with something kept for each. -/
namespace ScriptLang

abbrev Table (α : Type) := List (String × α)

namespace Table

variable {α : Type}

def get? (name : String) : Table α → Option α
  | [] => none
  | (key, value) :: rest => if key = name then some value else get? name rest

def put (name : String) (value : α) : Table α → Table α
  | [] => [(name, value)]
  | (key, old) :: rest =>
    if key = name then (name, value) :: rest else (key, old) :: put name value rest

def erase (name : String) : Table α → Table α
  | [] => []
  | (key, value) :: rest => if key = name then rest else (key, value) :: erase name rest

@[simp]
theorem get?_nil (name : String) : get? name ([] : Table α) = none := rfl

theorem get?_cons (name key : String) (value : α) (rest : Table α) :
    get? name ((key, value) :: rest) = if key = name then some value else get? name rest := rfl

@[simp]
theorem get?_put_self (name : String) (value : α) (t : Table α) :
    get? name (put name value t) = some value := by
  induction t with
  | nil => simp [put, get?]
  | cons entry rest ih => by_cases h : entry.1 = name <;> simp [put, get?, h, ih]

theorem get?_put_ne {name other : String} (h : name ≠ other) (value : α) (t : Table α) :
    get? other (put name value t) = get? other t := by
  induction t with
  | nil => simp [put, get?, h]
  | cons entry rest ih =>
    by_cases hk : entry.1 = name
    · simp [put, get?, hk, h]
    · simp [put, get?, hk, ih]

theorem get?_put (name other : String) (value : α) (t : Table α) :
    get? other (put name value t) = if name = other then some value else get? other t := by
  by_cases h : name = other
  · subst h
    rw [get?_put_self, if_pos rfl]
  · rw [get?_put_ne h, if_neg h]

theorem get?_erase_ne {name other : String} (h : name ≠ other) (t : Table α) :
    get? other (erase name t) = get? other t := by
  induction t with
  | nil => rfl
  | cons entry rest ih =>
    by_cases hk : entry.1 = name
    · simp [erase, get?, hk, h]
    · simp [erase, get?, hk, ih]

theorem mem_of_get? {name : String} {value : α} {t : Table α} (h : get? name t = some value) :
    (name, value) ∈ t := by
  induction t with
  | nil => cases h
  | cons entry rest ih =>
    rw [get?_cons] at h
    split at h
    next hkey =>
      cases h
      exact hkey ▸ List.mem_cons_self
    next => exact List.mem_cons_of_mem _ (ih h)

theorem mem_put {name : String} {value : α} {t : Table α} {entry : String × α}
    (h : entry ∈ put name value t) : entry = (name, value) ∨ entry ∈ t := by
  induction t with
  | nil => exact .inl (List.mem_singleton.mp h)
  | cons first rest ih =>
    rw [put] at h
    split at h <;> rcases List.mem_cons.mp h with rfl | h
    · exact .inl rfl
    · exact .inr (List.mem_cons_of_mem _ h)
    · exact .inr List.mem_cons_self
    · exact (ih h).imp_right (List.mem_cons_of_mem _)

theorem erase_sublist (name : String) (t : Table α) : (erase name t).Sublist t := by
  induction t with
  | nil => exact .refl _
  | cons first rest ih =>
    rw [erase]
    split
    · exact List.sublist_cons_self _ _
    · exact ih.cons_cons first

section Front

variable {front back : Table α} {name : String} (value old : α) (h : name ∉ front.map (·.1))

include h

theorem get?_of_not_mem : get? name front = none := by
  rw [Option.eq_none_iff_forall_not_mem]
  exact fun value hvalue => h (List.mem_map.mpr ⟨_, mem_of_get? hvalue, rfl⟩)

theorem put_of_not_mem : put name value front = front ++ [(name, value)] := by
  induction front with
  | nil => rfl
  | cons entry front ih =>
    obtain ⟨hentry, hfront⟩ := not_or.mp (mt List.mem_cons.mpr h)
    simp [put, Ne.symm hentry, ih hfront]

theorem erase_of_not_mem : erase name front = front := by
  induction front with
  | nil => rfl
  | cons entry front ih =>
    obtain ⟨hentry, hfront⟩ := not_or.mp (mt List.mem_cons.mpr h)
    simp [erase, Ne.symm hentry, ih hfront]

theorem put_middle : put name value (front ++ (name, old) :: back) = front ++ (name, value) :: back := by
  induction front with
  | nil => simp [put]
  | cons entry front ih =>
    obtain ⟨hentry, hfront⟩ := not_or.mp (mt List.mem_cons.mpr h)
    simp [put, Ne.symm hentry, ih hfront]

theorem erase_middle : erase name (front ++ (name, old) :: back) = front ++ back := by
  induction front with
  | nil => simp [erase]
  | cons entry front ih =>
    obtain ⟨hentry, hfront⟩ := not_or.mp (mt List.mem_cons.mpr h)
    simp [erase, Ne.symm hentry, ih hfront]

theorem get?_middle : get? name (front ++ (name, value) :: back) = some value := by
  induction front with
  | nil => simp [get?]
  | cons entry front ih =>
    obtain ⟨hentry, hfront⟩ := not_or.mp (mt List.mem_cons.mpr h)
    simp [get?, Ne.symm hentry, ih hfront]

theorem findIdx?_of_not_mem : front.findIdx? (·.1 = name) = none := by
  rw [List.findIdx?_eq_none_iff]
  intro entry hentry
  simpa using fun heq : entry.1 = name => h (List.mem_map.mpr ⟨entry, hentry, heq⟩)

end Front

section Once

variable {t : Table α} (name : String) (h : (t.map (·.1)).Nodup)

include h

theorem names_put_nodup (value : α) : ((put name value t).map (·.1)).Nodup := by
  induction t with
  | nil => simp [put]
  | cons entry rest ih =>
    obtain ⟨hentry, hrest⟩ := List.nodup_cons.mp h
    rw [put]
    split
    next heq => exact List.nodup_cons.mpr ⟨heq ▸ hentry, hrest⟩
    next hne =>
      refine List.nodup_cons.mpr ⟨fun hmem => ?_, ih hrest⟩
      obtain ⟨other, hother, heq⟩ := List.mem_map.mp hmem
      rcases mem_put hother with rfl | hother
      · exact hne heq.symm
      · exact hentry (heq ▸ List.mem_map_of_mem hother)

theorem names_erase_nodup : ((erase name t).map (·.1)).Nodup :=
  h.sublist ((erase_sublist name t).map _)

theorem get?_erase_self : get? name (erase name t) = none := by
  induction t with
  | nil => rfl
  | cons entry rest ih =>
    obtain ⟨hentry, hrest⟩ := List.nodup_cons.mp h
    rw [erase]
    split
    next heq => exact get?_of_not_mem (heq ▸ hentry)
    next hne => rw [get?_cons, if_neg hne, ih hrest]

end Once

end Table

end ScriptLang
