import ScriptLang.Proofs.InStep
import ScriptLang.Proofs.Value.Heap
import ScriptLang.Value.Operation

/-! Actions on heaps that are the same but for stretches of source go in step: those on elements, and
operators. -/
namespace ScriptLang

/-- Actions that go in step on related heaps and fail for the same cause. -/
abbrev Action.Alike {α β : Type} (L : Leeway) (Q : α → β → Prop) (x : Action α)
    (y : Action β) : Prop :=
  InStep Eq (Heap.Alike L) Q x y

abbrev SameValues (L : Leeway) : List Value → List Value → Prop := List.Forall₂ (Value.Alike L)

abbrev Action.SameValue (L : Leeway) : Action Value → Action Value → Prop := Action.Alike L (Value.Alike L)

variable {L : Leeway} {v w v' w' : Value} {a b c d : Option Value}

theorem Value.Alike.toIndex_eq (h : Value.Alike L v w) : v.toIndex = w.toIndex := by
  cases h <;> rfl

theorem Value.Alike.place_eq (h : Value.Alike L v w) (length places : Nat) :
    v.place length places = w.place length places := by
  rw [Value.place, Value.place, h.toIndex_eq]

private theorem sliceBound_eq (h : Option.Rel (Value.Alike L) a b)
    (missing : Int) (length : Nat) : sliceBound a missing length = sliceBound b missing length := by
  cases h with
  | none => rfl
  | some h => rw [sliceBound, sliceBound, h.toIndex_eq]

theorem sliceBounds_eq (h : Option.Rel (Value.Alike L) a b) (h' : Option.Rel (Value.Alike L) c d) (length : Nat) :
    sliceBounds a c length = sliceBounds b d length := by
  rw [sliceBounds, sliceBounds, sliceBound_eq h, sliceBound_eq h']

namespace Action

variable {xs ys : Array Value}

theorem elements_alike (id : ListId) : Action.Alike L (Aligned (Value.Alike L)) (elements id) (elements id) :=
  .map .get fun _ _ hh => hh.list id

theorem entries_alike (id : DictId) : Action.Alike L (Dict.Alike (Value.Alike L)) (entries id) (entries id) :=
  .map .get fun _ _ hh => hh.dict id

theorem newList_alike (h : Aligned (Value.Alike L) xs ys) : SameValue L (newList xs) (newList ys) :=
  .modifyGet fun _ _ hh => hh.addList h

theorem newDict_alike {d e : Dict Value} (h : Dict.Alike (Value.Alike L) d e) : SameValue L (newDict d) (newDict e) :=
  .modifyGet fun _ _ hh => hh.addDict h

theorem checkLength_alike (typeName : String) (length : Nat) :
    Action.Alike L Eq (checkLength typeName length) (checkLength typeName length) := by
  unfold checkLength
  split
  · exact .throw rfl
  · exact .pure rfl

theorem notIndexable_alike {α : Type} {Q : α → α → Prop} (h : Value.Alike L v w)
    (h' : Value.Alike L v' w') : Action.Alike L Q (notIndexable v v') (notIndexable w w') := by
  rw [notIndexable, notIndexable, h.typeName_eq, h'.typeName_eq]
  exact .throw rfl

private theorem getD_alike (h : Option.Rel (Value.Alike L) a b) :
    Value.Alike L (a.getD .nothing) (b.getD .nothing) := by
  cases h with
  | none => exact .nothing
  | some h => exact h

private theorem orElse_alike (h : Option.Rel (Value.Alike L) a b)
    (h' : Option.Rel (Value.Alike L) c d) : Option.Rel (Value.Alike L) (a <|> c) (b <|> d) := by
  cases h with
  | none => exact h'
  | some h => exact .some h

private theorem written_alike (h : Aligned (Value.Alike L) xs ys) (position : Nat) (hv : Value.Alike L v w) :
    Aligned (Value.Alike L) (written xs position v) (written ys position w) := by
  rw [written, written, h.size_eq]
  split
  · exact h.setIfInBounds position hv
  · exact (h.append (.replicate _ .nothing)).push hv

theorem takeEntry_alike (id : DictId) (name : String) : SameValue L (takeEntry id name) (takeEntry id name) := by
  refine .bind (entries_alike id) fun d e hde => ?_
  have hget := hde.get? name
  generalize d.get? name = p, e.get? name = q at hget
  cases hget with
  | none => exact .throw rfl
  | some hpq =>
    refine .bind (.modify fun _ _ hh => hh.updateDict id fun _ _ hd => ?_) fun _ _ _ => .pure hpq
    exact hd.erase name

variable (h : Value.Alike L v w)

include h

theorem push_alike (id : ListId) : Action.Alike L Eq (push id v) (push id w) := by
  refine .bind (elements_alike id) fun xs ys hxs => ?_
  rw [hxs.size_eq]
  refine .bind (checkLength_alike _ _) fun _ _ _ => ?_
  exact .modify fun _ _ hh => hh.updateList id fun _ _ hxs => hxs.push h

theorem takeElement_alike (id : ListId) : SameValue L (takeElement id v) (takeElement id w) := by
  refine .bind (elements_alike id) fun xs ys hxs => ?_
  rw [Value.position, Value.position, hxs.size_eq, h.place_eq]
  refine .bind (.liftExcept (fun _ => rfl) _) ?_
  rintro position _ rfl
  refine .bind (.modify fun _ _ hh => hh.updateList id fun _ _ hxs => ?_) fun _ _ _ => ?_
  · exact hxs.eraseIdxIfInBounds position
  · exact .pure (hxs.getD position .nothing)

theorem readSlice_alike (hstart : Option.Rel (Value.Alike L) a b) (hstop : Option.Rel (Value.Alike L) c d) :
    SameValue L (readSlice v a c) (readSlice w b d) := by
  have hbad := notIndexable_alike (Q := Value.Alike L) h (getD_alike (orElse_alike hstart hstop))
  unfold readSlice
  cases h with
  | list id =>
    refine .bind (elements_alike id) fun xs ys hxs => ?_
    rw [hxs.size_eq, sliceBounds_eq hstart hstop]
    refine .bind (.liftExcept (fun _ => rfl) _) ?_
    rintro ⟨first, behind⟩ _ rfl
    exact newList_alike (hxs.extract first behind)
  | text value =>
    dsimp only
    rw [sliceBounds_eq hstart hstop]
    refine .bind (.liftExcept (fun _ => rfl) _) ?_
    rintro ⟨first, behind⟩ _ rfl
    exact .pure (.text _)
  | _ => exact hbad

variable (h' : Value.Alike L v' w')

include h'

theorem readElement_alike : SameValue L (readElement v v') (readElement w w') := by
  have hbad := notIndexable_alike (Q := Value.Alike L) h h'
  unfold readElement
  cases h with
  | list id =>
    cases h' with
    | number x =>
      refine .bind (elements_alike id) fun xs ys hxs => ?_
      rw [hxs.size_eq]
      refine .bind (.liftExcept (fun _ => rfl) _) fun i j hij => ?_
      exact .pure (hij ▸ hxs.getD i .nothing)
    | _ => exact hbad
  | text value =>
    cases h' with
    | number x =>
      refine .bind (.liftExcept (fun _ => rfl) _) fun i j hij => ?_
      exact .pure (hij ▸ .text _)
    | _ => exact hbad
  | dict id =>
    cases h' with
    | text name =>
      refine .bind (entries_alike id) fun d e hde => ?_
      have hget := hde.get? name
      generalize d.get? name = p, e.get? name = q at hget
      cases hget with
      | none => exact .throw rfl
      | some hpq => exact .pure hpq
    | _ => exact hbad
  | _ => exact hbad

theorem writeList_alike (id : ListId) : Action.Alike L Eq (writeList id v' v) (writeList id w' w) := by
  refine .bind (elements_alike id) fun xs ys hxs => ?_
  rw [hxs.size_eq, h'.toIndex_eq]
  refine .bind (.liftExcept (fun _ => rfl) _) ?_
  rintro index _ rfl
  have hwrite (position : Nat) : Action.Alike L Eq (modify (·.updateList id (written · position v)))
      (modify (·.updateList id (written · position w))) :=
    .modify fun _ _ hh => hh.updateList id fun _ _ hxs => written_alike hxs position h
  dsimp only
  split
  · exact .throw_bind rfl _ _
  · split
    · exact .bind (checkLength_alike _ _) fun _ _ _ => hwrite _
    · exact hwrite _

theorem writeElement_alike (hkey : Option.Rel (Value.Alike L) a b) :
    Action.Alike L Eq (writeElement v a v') (writeElement w b w') := by
  have hbad := notIndexable_alike (Q := @Eq Unit) h (getD_alike hkey)
  unfold writeElement
  cases h with
  | list id =>
    cases hkey with
    | none => exact push_alike h' id
    | some hkey =>
      cases hkey with
      | number x => exact writeList_alike h' (.number x) id
      | _ => exact hbad
  | dict id =>
    cases hkey with
    | none => exact hbad
    | some hkey =>
      cases hkey with
      | text name => exact .modify fun _ _ hh => hh.updateDict id fun _ _ hd => hd.insert name h'
      | _ => exact hbad
  | text value => exact .throw rfl
  | _ => exact hbad

theorem removeElement_alike : SameValue L (removeElement v v') (removeElement w w') := by
  have hbad := notIndexable_alike (Q := Value.Alike L) h h'
  unfold removeElement
  cases h with
  | list id =>
    cases h' with
    | number x => exact takeElement_alike (.number x) id
    | _ => exact hbad
  | dict id =>
    cases h' with
    | text name => exact takeEntry_alike id name
    | _ => exact hbad
  | _ => exact hbad

end Action

end ScriptLang
