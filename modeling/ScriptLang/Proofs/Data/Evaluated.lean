import ScriptLang.Eval.Rule
import ScriptLang.Proofs.Data.Parsed
import ScriptLang.Proofs.Number.Text

/-! Values of literals. Main statement: a literal for a datum gives a value that holds it, and changes
nothing that was there before. -/
namespace ScriptLang

variable {data : List (String × Datum)}

theorem Dict.toList_insert_of_not_mem {α : Type} {d : Dict α} {key : String} (h : key ∉ d.keys)
    (value : α) : (d.insert key value).toList = d.toList ++ [(key, value)] := by
  have hslot : d.slots[key]? = none := by
    rw [Option.eq_none_iff_forall_not_mem]
    intro slot hslot
    obtain ⟨old, hold⟩ := (d.indexed key slot).mp hslot
    exact h (List.mem_map.mpr ⟨_, List.mem_of_getElem? (Array.getElem?_toList ▸ hold), rfl⟩)
  rw [toList, entries_insert, hslot, Array.toList_push]
  rfl

/-- An evaluation that ends with a result, and adds to the heap at most. -/
def Eval.Adds {α : Type} (s : Store) (x : Eval α) (Q : Heap → α → Prop) : Prop :=
  ∃ a heap, x s = .ok a { s with heap } ∧ s.heap.Extends heap ∧ Q heap a

namespace Eval.Adds

variable {α β : Type} {s : Store} {x : Eval α} {f : α → Eval β} {Q : Heap → α → Prop}
  {U : Heap → β → Prop} {a : α}

theorem pure (h : Q s.heap a) : Adds s (pure a) Q := ⟨a, s.heap, rfl, .refl _, h⟩

theorem bind (hx : Adds s x Q) (hf : ∀ a heap, s.heap.Extends heap → Q heap a → Adds { s with heap } (f a) U) :
    Adds s (x >>= f) U := by
  obtain ⟨a, heap, hrun, hext, ha⟩ := hx
  obtain ⟨b, heap', hrun', hext', hb⟩ := hf a heap hext ha
  refine ⟨b, heap', ?_, hext.trans hext', hb⟩
  change EStateM.bind x f s = _
  rw [EStateM.bind, hrun]
  exact hrun'

theorem newList {elements : Array Value} {data : List Datum}
    (h : List.Forall₂ (Value.Holds s.heap) elements.toList data) :
    Adds s (newList elements) fun heap v => v.Holds heap (.list data) := by
  have hext := Heap.Extends.addList s.heap elements
  refine ⟨_, _, rfl, hext, .list Array.getElem?_push_size ?_⟩
  exact h.imp fun _ _ hv => hv.mono hext

theorem newDict {entries : Dict Value} (h : List.Forall₂ (EntryAlike (Value.Holds s.heap)) entries.toList data) :
    Adds s (newDict entries) fun heap v => v.Holds heap (.dict data) := by
  have hext := Heap.Extends.addDict s.heap entries
  refine ⟨_, _, rfl, hext, .dict Array.getElem?_push_size ?_⟩
  exact forall₂_entries_imp h fun _ _ _ hv => hv.mono hext

end Eval.Adds

namespace Machine

open Eval (Adds)

abbrev Gives (m : Machine) (ctx : Context) (node : Node) (d : Datum) : Prop :=
  ∀ s, Adds s (m.eval node ctx) fun heap v => v.Holds heap d

variable {m : Machine} {ctx : Context} {s : Store} {entries : List (String × Node)}

theorem values_adds {nodes : List Node} {data : List Datum} (h : List.Forall₂ (m.Gives ctx) nodes data) :
    Adds s (m.values nodes ctx) fun heap vs => List.Forall₂ (Value.Holds heap) vs data := by
  rw [values]
  induction h generalizing s with
  | nil => exact .pure .nil
  | cons first _ ih =>
    rw [List.mapM_cons]
    refine (first s).bind fun v heap _ hv => ih.bind fun vs heap' hext hvs => .pure ?_
    exact .cons (hv.mono hext) hvs

/-- The entries of a literal come behind those that are read already. -/
private theorem insert_adds {data before : List (String × Datum)}
    (h : List.Forall₂ (EntryAlike (m.Gives ctx)) entries data) {read : Dict Value}
    (hread : List.Forall₂ (EntryAlike (Value.Holds s.heap)) read.toList before)
    (hkeys : ((before ++ data).map (·.1)).Nodup) :
    Adds s (entries.foldlM (fun (read : Dict Value) (key, node) =>
        return read.insert key (← m.eval node ctx)) read)
      fun heap all => List.Forall₂ (EntryAlike (Value.Holds heap)) all.toList (before ++ data) := by
  induction h generalizing s before read with
  | nil =>
    rw [List.append_nil]
    exact .pure hread
  | @cons _ _ _ data first _ ih =>
    cases first with
    | @mk node d key first =>
      have hnew : key ∉ read.keys := by
        rw [Dict.keys, keys_of_forall₂ hread]
        rw [List.map_append, List.nodup_append] at hkeys
        exact fun hmem => hkeys.2.2 key hmem key List.mem_cons_self rfl
      rw [List.append_cons] at hkeys ⊢
      have hentry : Adds s (m.eval node ctx >>= fun v => Pure.pure (read.insert key v)) fun heap all =>
          List.Forall₂ (EntryAlike (Value.Holds heap)) all.toList (before ++ [(key, d)]) := by
        refine (first s).bind fun v heap hext hv => .pure ?_
        rw [Dict.toList_insert_of_not_mem hnew]
        refine List.rel_append ?_ (.cons (.mk key hv) .nil)
        exact forall₂_entries_imp hread fun _ _ _ hv => hv.mono hext
      exact hentry.bind fun _ _ _ hread => ih hread hkeys

theorem dictLiteral_adds (h : List.Forall₂ (EntryAlike (m.Gives ctx)) entries data) (hkeys : (data.map (·.1)).Nodup) :
    Adds s (m.dictLiteral entries ctx) fun heap v => v.Holds heap (.dict data) := by
  have hnone : List.Forall₂ (EntryAlike (Value.Holds s.heap)) Dict.empty.toList [] := .nil
  exact (insert_adds h hnone hkeys).bind fun _ _ _ hall => .newDict hall

end Machine

/-- A literal gives a value that holds what it denotes, in one step for every collection, one for what is
inside, and one for a sign. -/
theorem Node.Denotes.evaluate_adds {node : Node} {d : Datum} (h : node.Denotes d) (hd : d.Distinct)
    (hfinite : d.All (fun x => x.isFinite = true) (fun _ => True) (fun _ => True)) {limit fuel : Nat}
    (hfuel : d.depth + 2 ≤ fuel) (ctx : Context) (s : Store) :
    Eval.Adds s (evaluate limit fuel node ctx) fun heap v => v.Holds heap d := by
  induction d generalizing node fuel s with
  | number value =>
    obtain ⟨fuel, rfl⟩ : ∃ n, fuel = n + 2 := ⟨fuel - 2, by omega⟩
    cases hfinite with
    | number hfinite =>
      have hvalue := Number.eq_signed_abs hfinite
      cases h with
      | number span hsign =>
        rw [hsign, if_neg Bool.false_ne_true] at hvalue
        rw [hvalue]
        exact .pure (.number value)
      | negative span inner hsign =>
        rw [if_pos hsign] at hvalue
        have hoperand : Eval.Adds s (evaluate limit (fuel + 1) ⟨.number value.abs, inner⟩ ctx)
            fun _ v => v = .number value.abs := .pure rfl
        refine hoperand.bind ?_
        rintro _ heap - rfl
        refine ⟨.number (-value.abs), heap, rfl, .refl heap, ?_⟩
        rw [hvalue]
        exact .number value
  | list data ih =>
    obtain ⟨fuel, rfl⟩ : ∃ n, fuel = n + 1 := ⟨fuel - 1, by omega⟩
    cases h with
    | list span parts =>
      have hparts : List.Forall₂ (Machine.Gives ⟨limit, fuel, evaluate limit fuel⟩ ctx) _ data :=
        forall₂_imp_mem parts fun node d hmem hnode s => by
          have hinner := Datum.depth_lt_of_mem hmem
          exact ih d hmem hnode (hd.of_list d hmem) (hfinite.of_list d hmem) (by omega) s
      exact (Machine.values_adds hparts).bind fun vs _ _ hvs => .newList hvs
  | dict data ih =>
    obtain ⟨fuel, rfl⟩ : ∃ n, fuel = n + 1 := ⟨fuel - 1, by omega⟩
    cases h with
    | dict span parts =>
      obtain ⟨keys, hd⟩ := hd.of_dict
      obtain ⟨-, hfinite⟩ := hfinite.of_dict
      let m : Machine := ⟨limit, fuel, evaluate limit fuel⟩
      have hparts : List.Forall₂ (EntryAlike (m.Gives ctx)) _ data :=
        forall₂_entries_imp parts fun node entry hmem hnode s => by
          have hinner := Datum.depth_lt_of_entry hmem
          exact ih entry hmem hnode (hd entry hmem) (hfinite entry hmem) (by omega) s
      exact Machine.dictLiteral_adds hparts keys
  | _ =>
    obtain ⟨fuel, rfl⟩ : ∃ n, fuel = n + 1 := ⟨fuel - 1, by omega⟩
    cases h
    exact .pure (by constructor)

end ScriptLang
