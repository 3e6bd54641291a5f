import ScriptLang.Proofs.Congruence.Basic

/-! The properties that instances have: by their classes, and in the store. -/
namespace ScriptLang

namespace Class

def properties (c : Class) : List (PropertyDef Node) := c.definition.properties.filter (!·.flags.isStatic)

/-- A property of instances that the class itself declares. The last one of a name counts. -/
def ownProperty? (c : Class) (name : String) : Option (PropertyDef Node) :=
  c.properties.reverse.find? (·.name = name)

/-- The nearest declaration of a property of instances, and the class that declares it. -/
def property? (c : Class) (name : String) : Option (Class × PropertyDef Node) :=
  c.lineage.findSome? fun owner => (owner.ownProperty? name).map (owner, ·)

def layout (c : Class) (name : String) : Option (Class × Visibility) :=
  (c.property? name).map fun (owner, property) => (owner, property.flags.visibility)

theorem layout_eq (c : Class) (name : String) : c.layout name = c.lineage.findSome? fun owner =>
    (owner.ownProperty? name).map fun property => (owner, property.flags.visibility) := by
  simp only [layout, property?, List.map_findSome?, Function.comp_def, Option.map_map]

theorem isSome_ownProperty? {c : Class} {name : String} :
    (c.ownProperty? name).isSome ↔ ∃ p ∈ c.definition.properties, p.flags.isStatic = false ∧ p.name = name := by
  simp [ownProperty?, properties, and_assoc]

theorem isSome_property? {c : Class} {name : String} :
    (c.property? name).isSome ↔ ∃ owner ∈ c.lineage, (owner.ownProperty? name).isSome := by
  simp [property?, List.findSome?_isSome_iff]

end Class

abbrev Members := Array (Table Member)

namespace Members

variable {ms ns : Members} {id k : Nat} {name : String} {unfinished : Option Nat}

def layout (ms : Members) (id : Nat) (name : String) : Option (Class × Visibility) :=
  ((ms.getD id []).get? name).map fun member => (member.owner, member.visibility)

/-- Later members: there are more instances, and those that were there have the same layout. One of them is
exempt as long as its properties are filled in. -/
structure Onward (unfinished : Option Nat) (ms ns : Members) : Prop where
  size : ms.size ≤ ns.size
  layout : ∀ ⦃id⦄, id < ms.size → unfinished ≠ some id → ∀ name, layout ns id name = layout ms id name

theorem layout_push (h : id < ms.size) : layout (ms.push []) id name = layout ms id name := by
  simp [layout, Array.getD_eq_getD_getElem?, Array.getElem?_push, Nat.ne_of_lt h]

theorem layout_new : layout (ms.push []) ms.size name = none := by
  simp [layout, Array.getD_eq_getD_getElem?]

theorem layout_put_of_ne (h : k ≠ id) {f : Table Member → Table Member} :
    layout (ms.modify k f) id name = layout ms id name := by
  simp [layout, Array.getD_eq_getD_getElem?, Array.getElem?_modify, h]

theorem layout_put (h : id < ms.size) (key : String) (member : Member) :
    layout (ms.modify id (·.put key member)) id name =
      if key = name then some (member.owner, member.visibility) else layout ms id name := by
  have hget : (ms.modify id (·.put key member)).getD id [] = (ms.getD id []).put key member := by
    simp [Array.getD_eq_getD_getElem?, Array.getElem_modify, h]
  rw [layout, hget, Table.get?_put, layout]
  split <;> rfl

namespace Onward

theorem refl (unfinished : Option Nat) (ms : Members) : Onward unfinished ms ms :=
  ⟨Nat.le_refl _, fun _ _ _ _ => rfl⟩

theorem trans {os : Members} (first : Onward unfinished ms ns) (second : Onward unfinished ns os) :
    Onward unfinished ms os where
  size := Nat.le_trans first.size second.size
  layout _ hid hne name :=
    (second.layout (Nat.lt_of_lt_of_le hid first.size) hne name).trans (first.layout hid hne name)

theorem weaken (h : Onward none ms ns) (unfinished : Option Nat) : Onward unfinished ms ns :=
  ⟨h.size, fun _ hid _ => h.layout hid nofun⟩

/-- The unfinished instance can get properties. -/
theorem modify (id : Nat) (f : Table Member → Table Member) : Onward (some id) ms (ms.modify id f) where
  size := Nat.le_of_eq Array.size_modify.symm
  layout _ _ hne _ := layout_put_of_ne fun heq => hne (congrArg some heq)

/-- The new instance is the one that is exempt. -/
theorem of_push (h : Onward (some ms.size) (ms.push []) ns) : Onward none ms ns := by
  have hsize : (ms.push []).size = ms.size + 1 := Array.size_push _
  have hle := h.size
  rw [hsize] at hle
  refine ⟨Nat.le_of_succ_le hle, fun id hid _ name => ?_⟩
  have hold : id < (ms.push []).size := hsize ▸ Nat.lt_succ_of_lt hid
  rw [h.layout hold (fun heq => Nat.ne_of_gt hid (Option.some.inj heq)) name, layout_push hid]

end Onward

/-- Another value for a property does not change the layout. -/
theorem onward_setMember (unfinished : Option Nat) (s : Store) (object : Instance) (key : String)
    (value : Value) : Onward unfinished s.members (s.setMember object key value).members := by
  unfold Store.setMember
  cases hmember : s.member? object key with
  | none => exact .refl _ _
  | some member =>
    dsimp only [Store.putMember]
    refine ⟨Nat.le_of_eq Array.size_modify.symm, fun id hid _ name => ?_⟩
    by_cases hobject : object.id = id
    · subst hobject
      rw [layout_put hid]
      split
      next hname =>
        subst hname
        rw [layout, show (s.members.getD object.id []).get? key = some member from hmember]
        rfl
      next => rfl
    · exact layout_put_of_ne hobject

/-- An instance with all the properties that its class declares and inherits, and no other ones. -/
structure Complete (ms : Members) (object : Instance) : Prop where
  known : object.id < ms.size
  layout : ∀ name, layout ms object.id name = object.cls.layout name

theorem Complete.onward {object : Instance} (h : Complete ms object) (honward : Onward unfinished ms ns)
    (hne : unfinished ≠ some object.id) : Complete ns object where
  known := Nat.lt_of_lt_of_le h.known honward.size
  layout name := (honward.layout h.known hne name).trans (h.layout name)

end Members

end ScriptLang
