import ScriptLang.Eval.Loop
import ScriptLang.Proofs.Value.Alike
import ScriptLang.Value.Equality
import ScriptLang.Value.Text

/-! Heaps whose collections hold the same but for stretches of source. Main statement: truth,
equality, text and items of values are the same in both. -/
namespace ScriptLang

structure Heap.Alike (L : Leeway) (h g : Heap) : Prop where
  lists : Aligned (Aligned (Value.Alike L)) h.lists g.lists
  dicts : Aligned (Dict.Alike (Value.Alike L)) h.dicts g.dicts

variable {L : Leeway} {h g : Heap}

namespace Heap.Alike

variable (hh : Alike L h g)

include hh

theorem list (id : ListId) : Aligned (Value.Alike L) (h.list id) (g.list id) :=
  hh.lists.getD id.index .empty

theorem dict (id : DictId) : Dict.Alike (Value.Alike L) (h.dict id) (g.dict id) :=
  hh.dicts.getD id.index .empty

theorem entries (id : DictId) : List.Forall₂ (EntryAlike (Value.Alike L)) (h.dict id).toList (g.dict id).toList :=
  (hh.dict id).entries

theorem updateList (id : ListId) {f f' : Array Value → Array Value}
    (hf : ∀ xs ys, Aligned (Value.Alike L) xs ys → Aligned (Value.Alike L) (f xs) (f' ys)) :
    Alike L (h.updateList id f) (g.updateList id f') :=
  ⟨hh.lists.modify id.index hf, hh.dicts⟩

theorem updateDict (id : DictId) {f f' : Dict Value → Dict Value}
    (hf : ∀ d e, Dict.Alike (Value.Alike L) d e → Dict.Alike (Value.Alike L) (f d) (f' e)) :
    Alike L (h.updateDict id f) (g.updateDict id f') :=
  ⟨hh.lists, hh.dicts.modify id.index hf⟩

theorem addList {xs ys : Array Value} (hxs : Aligned (Value.Alike L) xs ys) :
    Value.Alike L (h.addList xs).1 (g.addList ys).1 ∧ Alike L (h.addList xs).2 (g.addList ys).2 := by
  refine ⟨?_, hh.lists.push hxs, hh.dicts⟩
  rw [Heap.addList, Heap.addList, hh.lists.size_eq]
  exact .list _

theorem addDict {d e : Dict Value} (hd : Dict.Alike (Value.Alike L) d e) :
    Value.Alike L (h.addDict d).1 (g.addDict e).1 ∧ Alike L (h.addDict d).2 (g.addDict e).2 := by
  refine ⟨?_, hh.lists, hh.dicts.push hd⟩
  rw [Heap.addDict, Heap.addDict, hh.dicts.size_eq]
  exact .dict _

end Heap.Alike

namespace Value.Alike

variable {v w : Value}

theorem isTrue_eq (hh : Heap.Alike L h g) (hv : Alike L v w) : v.isTrue h = w.isTrue g := by
  cases hv with
  | list id => simp only [Value.isTrue, (hh.list id).isEmpty_eq]
  | dict id => simp only [Value.isTrue, Dict.isEmpty, (hh.dict id).entries.isEmpty_eq]
  | _ => rfl

private theorem all_zip_eq {f f' : Value × Value → Bool} {xs xs' ys ys' : List Value}
    (hx : List.Forall₂ (Alike L) xs xs') (hy : List.Forall₂ (Alike L) ys ys')
    (hf : ∀ x x' y y', Alike L x x' → Alike L y y' → f (x, y) = f' (x', y')) :
    (xs.zip ys).all f = (xs'.zip ys').all f' := by
  induction hx generalizing ys ys' with
  | nil => rfl
  | cons hx _ ih =>
    cases hy with
    | nil => rfl
    | cons hy hys =>
      rw [List.zip_cons_cons, List.zip_cons_cons, List.all_cons, List.all_cons,
        hf _ _ _ _ hx hy, ih hys]

private theorem all_entries_eq {f f' : String × Value → Bool} {xs ys : List (String × Value)}
    (hxy : List.Forall₂ (EntryAlike (Alike L)) xs ys)
    (hf : ∀ key x y, Alike L x y → f (key, x) = f' (key, y)) : xs.all f = ys.all f' := by
  induction hxy with
  | nil => rfl
  | cons entry _ ih =>
    obtain ⟨key, value⟩ := entry
    rw [List.all_cons, List.all_cons, hf _ _ _ value, ih]

section

variable (hh : Heap.Alike L h g) {v' w' : Value} (hv : Alike L v w) (hv' : Alike L v' w')

include hh hv hv'

theorem equalUpTo_eq (depth : Nat) (pending : List (Handle × Handle)) :
    Value.equalUpTo h depth pending v v' = Value.equalUpTo g depth pending w w' := by
  induction depth generalizing pending v w v' w' with
  | zero =>
    cases hv with
    | function f =>
      cases hv' with
      | function f' => exact f.same_eq f'
      | _ => rfl
    | cls c =>
      cases hv' with
      | cls c' => simp only [Value.equalUpTo, c.id_eq, c'.id_eq]
      | _ => rfl
    | object i =>
      cases hv' with
      | object i' => simp only [Value.equalUpTo, i.id_eq, i'.id_eq]
      | _ => rfl
    | _ => cases hv' <;> rfl
  | succ depth ih =>
    cases hv with
    | function f =>
      cases hv' with
      | function f' => exact f.same_eq f'
      | _ => rfl
    | cls c =>
      cases hv' with
      | cls c' => simp only [Value.equalUpTo, c.id_eq, c'.id_eq]
      | _ => rfl
    | object i =>
      cases hv' with
      | object i' => simp only [Value.equalUpTo, i.id_eq, i'.id_eq]
      | _ => rfl
    | list a =>
      cases hv' with
      | list b =>
        rw [Value.equalUpTo, Value.equalUpTo, (hh.list a).size_eq, (hh.list b).size_eq]
        congr 2
        refine all_zip_eq (hh.list a) (hh.list b) fun x x' y y' hx hy => ?_
        exact ih hx hy _
      | _ => rfl
    | dict a =>
      cases hv' with
      | dict b =>
        have hsize (id : DictId) : (h.dict id).size = (g.dict id).size :=
          (hh.dict id).entries.size_eq
        rw [Value.equalUpTo, Value.equalUpTo, hsize, hsize]
        congr 2
        refine all_entries_eq (hh.entries a) fun key x y hxy => ?_
        dsimp only
        have hget := (hh.dict b).get? key
        generalize (h.dict b).get? key = p, (g.dict b).get? key = q at hget
        cases hget with
        | none => rfl
        | some hpq => exact ih hxy hpq _
      | _ => rfl
    | _ => cases hv' <;> rfl

theorem equal_eq : v.equal h v' = w.equal g w' := by
  rw [Value.equal, Value.equal, hh.lists.size_eq, hh.dicts.size_eq]
  exact equalUpTo_eq hh hv hv' _ _

end

theorem atomText_eq (hv : Alike L v w) : v.atomText = w.atomText := by
  cases hv with
  | function closure => exact congrArg (fun label => "<function " ++ label ++ ">") closure.label_eq
  | cls same => exact congrArg (fun name => "<class " ++ name ++ ">") same.name_eq
  | object same => exact congrArg (fun name => "<" ++ name ++ " instance>") same.cls.name_eq
  | _ => rfl

theorem elementText_eq {shown shown' : Value → String} (hv : Alike L v w) (h : shown v = shown' w) :
    v.elementText shown = w.elementText shown' := by
  cases hv with
  | text => rfl
  | _ => exact h

variable (hh : Heap.Alike L h g)

include hh

theorem nestedText_eq (room : Nat) (around : List Handle) (hv : Alike L v w) :
    Value.nestedText h room around v = Value.nestedText g room around w := by
  induction room generalizing around v w with
  | zero =>
    cases hv with
    | function closure => exact (function closure).atomText_eq
    | cls same => exact (cls same).atomText_eq
    | object same => exact (object same).atomText_eq
    | _ => rfl
  | succ room ih =>
    cases hv with
    | function closure => exact (function closure).atomText_eq
    | cls same => exact (cls same).atomText_eq
    | object same => exact (object same).atomText_eq
    | list id =>
      rw [Value.nestedText, Value.nestedText]
      congr 2
      exact forall₂_map_eq (hh.list id) fun _ _ hxy => hxy.elementText_eq (ih _ hxy)
    | dict id =>
      rw [Value.nestedText, Value.nestedText]
      congr 2
      refine forall₂_map_eq (hh.entries id) ?_
      rintro _ _ ⟨key, value⟩
      exact congrArg (Prod.mk key) (value.elementText_eq (ih _ value))
    | _ => rfl

theorem toText_eq (hv : Alike L v w) : v.toText h = w.toText g :=
  nestedText_eq hh _ _ hv

/-- A loop over either value goes through the same keys and related elements. -/
theorem items (hv : Alike L v w) :
    Option.Rel (List.Forall₂ (PairAlike (Alike L) (Alike L))) (v.items h) (w.items g) := by
  cases hv with
  | list id =>
    refine .some ?_
    have hlist : List.Forall₂ (Alike L) (h.list id).toList (g.list id).toList := hh.list id
    generalize (h.list id).toList = xs, (g.list id).toList = ys at hlist
    rw [List.forall₂_map_left_iff, List.forall₂_map_right_iff]
    generalize 0 = first
    induction hlist generalizing first with
    | nil => exact .nil
    | cons hxy _ ih => exact .cons (.mk (.number _) hxy) (ih (first + 1))
  | dict id =>
    refine .some ?_
    rw [List.forall₂_map_left_iff, List.forall₂_map_right_iff]
    refine (hh.entries id).imp ?_
    rintro _ _ ⟨key, value⟩
    exact .mk (.text key) value
  | text characters =>
    refine .some ?_
    rw [List.forall₂_map_left_iff, List.forall₂_map_right_iff, List.forall₂_same]
    rintro ⟨c, index⟩ _
    exact .mk (.number _) (.text _)
  | _ => exact .none

end Value.Alike

end ScriptLang
