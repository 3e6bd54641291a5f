import ScriptLang.Eval.Builtin
import ScriptLang.Proofs.Value.Action

/-! Operators and the built-in functions that only work on the heap go in step on values that are the
same but for stretches of source. -/
namespace ScriptLang

variable {L : Leeway} {v w v' w' : Value}

namespace Action

theorem concatenate_alike (left right : String) : SameValue L (concatenate left right) (concatenate left right) :=
  .bind (checkLength_alike _ _) fun _ _ _ => .pure (.text _)

theorem repeatCount_alike (count : Float) : Action.Alike L Eq (repeatCount count) (repeatCount count) := by
  unfold repeatCount
  split
  · exact .pure rfl
  · exact .throw rfl

private theorem repeat_alike {xs ys : Array Value} (h : Aligned (Value.Alike L) xs ys) (n : Nat) :
    Aligned (Value.Alike L) (Nat.repeat (· ++ xs) n #[]) (Nat.repeat (· ++ ys) n #[]) := by
  induction n with
  | zero => exact .empty
  | succ n ih => exact ih.append h

theorem divided_alike (f : Float → Float → Float) (a b : Float) : SameValue L (divided f a b) (divided f a b) := by
  unfold divided
  dsimp only
  split
  · exact .throw_bind rfl _ _
  · exact .pure (.number _)

variable (h : Value.Alike L v w)

include h

private theorem withText_alike {f : String → Action Value} (hf : ∀ text, SameValue L (f text) (f text)) :
    SameValue L (do f (v.toText (← get))) (do f (w.toText (← get))) := by
  refine .bind .get fun a b hab => ?_
  rw [h.toText_eq hab]
  exact hf _

theorem unary_alike (op : UnaryOp) : SameValue L (unary op v) (unary op w) := by
  have hillegal : SameValue L (throw (.illegalUnaryOperation op v.typeName))
      (throw (.illegalUnaryOperation op w.typeName)) := .throw (by rw [h.typeName_eq])
  cases op with
  | not =>
    refine .bind .get fun a b hab => ?_
    rw [h.isTrue_eq hab]
    exact .pure (.boolean _)
  | typeOf =>
    unfold unary
    dsimp only
    rw [h.typeOf_eq]
    exact .pure (.text _)
  | plus | minus | bitNot =>
    cases h with
    | number x => exact .pure (.number _)
    | _ => exact hillegal

variable (h' : Value.Alike L v' w')

include h'

theorem illegal_alike {α : Type} {Q : α → α → Prop} (op : BinaryOp) :
    Action.Alike L Q (illegal op v v') (illegal op w w') := by
  rw [illegal, illegal, h.typeName_eq, h'.typeName_eq]
  exact .throw rfl

theorem concatenates_eq : concatenates v v' = concatenates w w' := by
  cases h <;> cases h' <;> rfl

theorem add_alike : SameValue L (add v v') (add w w') := by
  have hbad := illegal_alike (Q := Value.Alike L) h h' .add
  unfold add
  cases h with
  | text a => exact withText_alike h' fun text => concatenate_alike a text
  | list id =>
    refine .bind (elements_alike id) fun xs ys hxs => ?_
    rw [hxs.size_eq]
    exact .bind (checkLength_alike _ _) fun _ _ _ => newList_alike (hxs.push h')
  | number a =>
    cases h' with
    | number b => exact .pure (.number _)
    | text b => exact withText_alike (.number a) fun text => concatenate_alike text b
    | _ => exact hbad
  | dict a =>
    cases h' with
    | dict b =>
      refine .bind (entries_alike a) fun d e hde => ?_
      exact .bind (entries_alike b) fun d' e' hde' => newDict_alike (hde.merge hde')
    | text b => exact withText_alike (.dict a) fun text => concatenate_alike text b
    | _ => exact hbad
  | _ =>
    cases h' with
    | text b =>
      exact withText_alike (by constructor <;> assumption) fun text => concatenate_alike text b
    | _ => exact hbad

theorem subtract_alike : SameValue L (subtract v v') (subtract w w') := by
  have hbad := illegal_alike (Q := Value.Alike L) h h' .subtract
  unfold subtract
  cases h with
  | number a =>
    cases h' with
    | number b => exact .pure (.number _)
    | _ => exact hbad
  | list id =>
    cases h' with
    | number b =>
      refine .bind (elements_alike id) fun xs ys hxs => ?_
      rw [hxs.size_eq]
      refine .bind (.liftExcept (fun _ => rfl) _) ?_
      rintro position _ rfl
      exact newList_alike (hxs.eraseIdxIfInBounds position)
    | _ => exact hbad
  | dict id =>
    cases h' with
    | text key =>
      refine .bind (entries_alike id) fun d e hde => ?_
      have hget := hde.get? key
      generalize d.get? key = p, e.get? key = q at hget
      cases hget with
      | none => exact .throw_bind rfl _ _
      | some => exact newDict_alike (hde.erase key)
    | _ => exact hbad
  | _ => exact hbad

theorem multiply_alike : SameValue L (multiply v v') (multiply w w') := by
  have hbad := illegal_alike (Q := Value.Alike L) h h' .multiply
  unfold multiply
  cases h with
  | number a =>
    cases h' with
    | number b => exact .pure (.number _)
    | _ => exact hbad
  | text value =>
    cases h' with
    | number x =>
      refine .bind (repeatCount_alike x) ?_
      rintro count _ rfl
      exact .bind (checkLength_alike _ _) fun _ _ _ => .pure (.text _)
    | _ => exact hbad
  | list a =>
    cases h' with
    | list b =>
      refine .bind (elements_alike a) fun xs ys hxs => ?_
      refine .bind (elements_alike b) fun xs' ys' hxs' => ?_
      rw [hxs.size_eq, hxs'.size_eq]
      exact .bind (checkLength_alike _ _) fun _ _ _ => newList_alike (hxs.append hxs')
    | number x =>
      refine .bind (repeatCount_alike x) ?_
      rintro count _ rfl
      refine .bind (elements_alike a) fun xs ys hxs => ?_
      rw [hxs.size_eq, hxs.isEmpty_eq]
      refine .bind (checkLength_alike _ _) fun _ _ _ => newList_alike ?_
      split
      · exact .empty
      · exact repeat_alike hxs count
    | _ => exact hbad
  | _ => exact hbad

theorem onNumbers_alike (op : BinaryOp) {f : Float → Float → Action Value} (hf : ∀ a b, SameValue L (f a b) (f a b)) :
    SameValue L (onNumbers op f v v') (onNumbers op f w w') := by
  have hbad := illegal_alike (Q := Value.Alike L) h h' op
  unfold onNumbers
  cases h with
  | number a =>
    cases h' with
    | number b => exact hf a b
    | _ => exact hbad
  | _ => exact hbad

theorem onWords_alike (op : BinaryOp) {f : BitVec 32 → BitVec 32 → Value}
    (hf : ∀ a b, Value.Alike L (f a b) (f a b)) : SameValue L (onWords op f v v') (onWords op f w w') :=
  onNumbers_alike h h' op fun _ _ => .pure (hf _ _)

theorem compare_alike (op : BinaryOp) (numbers : Float → Float → Bool) (texts : String → String → Bool) :
    SameValue L (compare op numbers texts v v') (compare op numbers texts w w') := by
  have hbad := illegal_alike (Q := Value.Alike L) h h' op
  unfold Action.compare
  cases h with
  | number a =>
    cases h' with
    | number b => exact .pure (.boolean _)
    | _ => exact hbad
  | text a =>
    cases h' with
    | text b => exact .pure (.boolean _)
    | _ => exact hbad
  | _ => exact hbad

theorem instanceOf_alike : SameValue L (instanceOf v v') (instanceOf w w') := by
  have hbad := illegal_alike (Q := Value.Alike L) h h' .instanceOf
  unfold instanceOf
  cases h' with
  | cls same =>
    cases h with
    | object same' =>
      dsimp only
      rw [same'.cls.inherits_eq same]
      exact .pure (.boolean _)
    | _ => exact .pure (.boolean _)
  | _ => cases h <;> exact hbad

theorem binary_alike (op : BinaryOp) : SameValue L (binary op v v') (binary op w w') := by
  cases op with
  | add => exact add_alike h h'
  | subtract => exact subtract_alike h h'
  | multiply => exact multiply_alike h h'
  | divide | modulo => exact onNumbers_alike h h' _ (divided_alike _)
  | power => exact onNumbers_alike h h' _ fun _ _ => .pure (.number _)
  | shiftLeft | shiftRight | shiftRightZero | bitAnd | bitOr | bitXor =>
    unfold binary
    exact onWords_alike h h' _ fun _ _ => .number _
  | less | greater | lessEqual | greaterEqual => exact compare_alike h h' _ _ _
  | instanceOf => exact instanceOf_alike h h'
  | equal | notEqual =>
    refine .bind .get fun a b hab => ?_
    rw [h.equal_eq hab h']
    exact .pure (.boolean _)
  | and | or =>
    refine .bind .get fun a b hab => ?_
    rw [h.isTrue_eq hab]
    split
    · exact .pure (by assumption)
    · exact .pure (by assumption)
  | nullish =>
    unfold binary
    dsimp only
    rw [h.isNothing_eq]
    split
    · exact .pure h'
    · exact .pure h

end Action

namespace Builtin

open ScriptLang.Action (SameValue)

private theorem nothing_alike :
    SameValue L (pure .nothing) (pure .nothing) := .pure .nothing

section

variable (h : Value.Alike L v w)

include h

theorem length_alike : SameValue L (length v) (length w) := by
  cases h with
  | text value => exact .pure (.number _)
  | list id =>
    refine .bind (Action.elements_alike id) fun xs ys hxs => ?_
    rw [hxs.size_eq]
    exact .pure (.number _)
  | dict id =>
    refine .bind (Action.entries_alike id) fun d e hde => ?_
    rw [Dict.size, hde.entries.size_eq]
    exact .pure (.number _)
  | cls _ | object _ | function _ | nothing | number _ | boolean _ | builtin _ => exact .throw rfl

theorem toNumber_alike : SameValue L (toNumber v) (toNumber w) := by
  cases h with
  | number x => exact .pure (.number x)
  | boolean b => exact .pure (.number _)
  | text value =>
    unfold toNumber
    dsimp only
    split
    · exact .pure (.number _)
    · exact .throw rfl
  | cls _ | object _ | function _ | nothing | list _ | dict _ | builtin _ => exact .throw rfl

private theorem act_one (b : Builtin) : SameValue L (b.act [v]) (b.act [w]) := by
  cases b with
  | len => exact length_alike h
  | num => exact toNumber_alike h
  | keys =>
    cases h with
    | dict id =>
      refine .bind (Action.entries_alike id) fun d e hde => ?_
      rw [hde.keys_eq]
      refine Action.newList_alike ?_
      rw [Aligned, List.forall₂_same]
      intro key hkey
      obtain ⟨name, _, rfl⟩ := List.mem_map.mp hkey
      exact .text name
    | _ => exact nothing_alike
  | values =>
    cases h with
    | dict id => exact .bind (Action.entries_alike id) fun d e hde => Action.newList_alike hde.values
    | _ => exact nothing_alike
  | floor | abs =>
    cases h with
    | number x => exact .pure (.number _)
    | _ => exact nothing_alike
  | error =>
    cases h with
    | text message => exact .throw rfl
    | _ => exact nothing_alike
  | _ => cases h <;> exact nothing_alike

variable (h' : Value.Alike L v' w')

include h'

theorem insertAt_alike (id : ListId) : SameValue L (insertAt id v v') (insertAt id w w') := by
  refine .bind (Action.elements_alike id) fun xs ys hxs => ?_
  dsimp only
  rw [hxs.size_eq, h.place_eq]
  refine .bind (.liftExcept (fun _ => rfl) _) ?_
  rintro position _ rfl
  refine .bind (.modify fun _ _ hh => hh.updateList id fun _ _ hxs => ?_) fun _ _ _ => ?_
  · exact hxs.insertIdxIfInBounds position h'
  · exact .pure (.list id)

private theorem act_two (b : Builtin) : SameValue L (b.act [v, v']) (b.act [w, w']) := by
  cases b with
  | append =>
    cases h with
    | list id =>
      refine .bind (.modify fun _ _ hh => hh.updateList id fun _ _ hxs => ?_) fun _ _ _ => ?_
      · exact hxs.push h'
      · exact .pure (.list id)
    | _ => exact nothing_alike
  | pop =>
    cases h with
    | list id => cases h' <;> exact Action.takeElement_alike (.number _) id
    | _ => exact nothing_alike
  | round =>
    cases h with
    | number x => cases h' <;> exact .pure (.number _)
    | _ => exact nothing_alike
  | _ => cases h <;> exact nothing_alike

end

theorem act_alike (b : Builtin) {args args' : List Value} (h : SameValues L args args') :
    SameValue L (b.act args) (b.act args') := by
  rcases h with _ | ⟨first, _ | ⟨second, _ | ⟨third, rest⟩⟩⟩
  · cases b <;> exact nothing_alike
  · exact act_one first b
  · exact act_two first second b
  · cases rest with
    | cons =>
      cases b with
      | pop | round => cases first <;> cases second <;> exact nothing_alike
      | _ => cases first <;> exact nothing_alike
    | nil =>
      cases b with
      | insert =>
        cases first with
        | list id => exact insertAt_alike second third id
        | _ => exact nothing_alike
      | pop | round => cases first <;> cases second <;> exact nothing_alike
      | _ => cases first <;> exact nothing_alike

end Builtin

end ScriptLang
