import ScriptLang.Eval.Builtin
import ScriptLang.Eval.Loop
import ScriptLang.Proofs.Keeps
import ScriptLang.Proofs.Limit.Action
import ScriptLang.Proofs.Scope.Tree

/-! What actions on the heap and the frames, and loops, do with values. Main statement: a property that every
value without code has, unless it is too long, is kept. -/
namespace ScriptLang

def Short (bounded : Bool) (text : String) : Prop := bounded = true → FitText text

def Value.isPlain : Value → Bool
  | .nothing | .number _ | .boolean _ | .list _ | .dict _ => true
  | _ => false

/-- A property of values that is passed on: of a value without code it asks at most that it is not too long. -/
structure Value.Trait where
  /-- Whether lengths are bounded. -/
  bounded : Bool
  Has : Value → Prop
  plain (v : Value) (h : v.isPlain = true) : Has v
  text {text : String} : Has (.text text) ↔ Short bounded text
  className {object : Instance} (h : Has (.instance object)) : Short bounded object.cls.name

variable {T U : Value.Trait}

structure Value.Trait.Elements (T : Value.Trait) (xs : Array Value) : Prop where
  size : T.bounded = true → xs.size ≤ maxLength
  all : ∀ v ∈ xs, T.Has v

def Value.Trait.Entries (T : Value.Trait) (d : Dict Value) : Prop :=
  ∀ entry ∈ d.toList, Short T.bounded entry.1 ∧ T.Has entry.2

structure Heap.All (T : Value.Trait) (h : Heap) : Prop where
  list : ∀ id, T.Elements (h.list id)
  dict : ∀ id, T.Entries (h.dict id)

namespace Value.Trait.Elements

variable {xs ys : Array Value} {v : Value}

theorem empty : T.Elements #[] := ⟨fun _ => Nat.zero_le _, fun _ hv => absurd hv (Array.not_mem_empty _)⟩

theorem getD (h : T.Elements xs) (i : Nat) : T.Has (xs.getD i .nothing) := by
  rw [Array.getD_eq_getD_getElem?]
  cases hx : xs[i]? with
  | none => exact T.plain _ rfl
  | some x => exact h.all x (Array.mem_of_getElem? hx)

theorem push (h : T.Elements xs) (hv : T.Has v) (hsize : T.bounded = true → xs.size + 1 ≤ maxLength) :
    T.Elements (xs.push v) := by
  refine ⟨by simpa using hsize, fun w hw => ?_⟩
  rcases Array.mem_push.mp hw with hw | rfl
  · exact h.all w hw
  · exact hv

theorem replicate {count : Nat} (hcount : T.bounded = true → count ≤ maxLength) :
    T.Elements (Array.replicate count .nothing) := by
  refine ⟨by simpa using hcount, fun v hv => ?_⟩
  rw [Array.eq_of_mem_replicate hv]
  exact T.plain _ rfl

variable (h : T.Elements xs)

include h

theorem append (h' : T.Elements ys) (hsize : T.bounded = true → xs.size + ys.size ≤ maxLength) :
    T.Elements (xs ++ ys) := by
  refine ⟨by simpa using hsize, fun v hv => ?_⟩
  exact (Array.mem_append.mp hv).elim (h.all v) (h'.all v)

theorem setIfInBounds (i : Nat) (hv : T.Has v) : T.Elements (xs.setIfInBounds i v) := by
  refine ⟨by simpa using h.size, fun w hw => ?_⟩
  rcases Array.mem_or_eq_of_mem_setIfInBounds hw with hw | rfl
  · exact h.all w hw
  · exact hv

theorem sublist (hsub : ys.toList.Sublist xs.toList) : T.Elements ys :=
  ⟨fun hb => Nat.le_trans hsub.length_le (h.size hb),
    fun v hv => h.all v (Array.mem_def.mpr (hsub.subset (Array.mem_def.mp hv)))⟩

theorem eraseIdxIfInBounds (i : Nat) : T.Elements (xs.eraseIdxIfInBounds i) := by
  refine h.sublist ?_
  rw [Array.toList_eraseIdxIfInBounds]
  exact List.eraseIdx_sublist _ _

theorem extract (i j : Nat) : T.Elements (xs.extract i j) := by
  refine h.sublist ?_
  rw [Array.toList_extract, List.extract_eq_take_drop]
  exact (List.take_sublist _ _).trans (List.drop_sublist _ _)

theorem «repeat» (count : Nat) (hsize : T.bounded = true → xs.size * count ≤ maxLength) :
    T.Elements (Nat.repeat (· ++ xs) count #[]) := by
  have hrepeat (n : Nat) : (Nat.repeat (· ++ xs) n #[]).size = xs.size * n ∧
      ∀ v ∈ Nat.repeat (· ++ xs) n #[], T.Has v := by
    induction n with
    | zero => exact ⟨rfl, by simp [Nat.repeat]⟩
    | succ n ih =>
      refine ⟨by rw [Nat.repeat, Array.size_append, ih.1, Nat.mul_succ], fun v hv => ?_⟩
      exact (Array.mem_append.mp hv).elim (ih.2 v) (h.all v)
  exact ⟨(hrepeat count).1 ▸ hsize, (hrepeat count).2⟩

/-- A list that a value is inserted into has any length. -/
theorem insertIdxIfInBounds (i : Nat) (hv : T.Has v) (hfree : T.bounded = false) :
    T.Elements (xs.insertIdxIfInBounds i v) := by
  refine ⟨by simp [hfree], fun w hw => ?_⟩
  unfold Array.insertIdxIfInBounds at hw
  split at hw
  · rcases Array.mem_insertIdx.mp hw with rfl | hw
    · exact hv
    · exact h.all w hw
  · exact h.all w hw

end Value.Trait.Elements

namespace Value.Trait.Entries

variable {d e : Dict Value} {v : Value} {key : String}

theorem empty : T.Entries .empty := fun _ hentry => absurd hentry List.not_mem_nil

variable (h : T.Entries d)

include h

theorem get? (hv : d.get? key = some v) : T.Has v := (h (key, v) (d.get?_eq_some.mp hv)).2

theorem insert (hkey : Short T.bounded key) (hv : T.Has v) : T.Entries (d.insert key v) := by
  intro entry hentry
  have hcases : entry ∈ d.entries ∨ entry = (key, v) := by
    have hentry := Array.mem_def.mpr hentry
    rw [Dict.entries_insert] at hentry
    split at hentry
    · exact Array.mem_or_eq_of_mem_setIfInBounds hentry
    · exact Array.mem_push.mp hentry
  rcases hcases with hold | rfl
  · exact h entry (Array.mem_def.mp hold)
  · exact ⟨hkey, hv⟩

theorem erase (key : String) : T.Entries (d.erase key) := by
  have hsub : (d.erase key).toList.Sublist d.toList := by
    rw [Dict.toList, Dict.entries_erase]
    split
    · rw [Array.toList_eraseIdxIfInBounds]
      exact List.eraseIdx_sublist _ _
    · exact .refl _
  exact fun entry hentry => h entry (hsub.subset hentry)

theorem insertAll {entries : List (String × Value)}
    (hentries : ∀ entry ∈ entries, Short T.bounded entry.1 ∧ T.Has entry.2) :
    T.Entries (entries.foldl (fun d (key, value) => d.insert key value) d) := by
  induction entries generalizing d with
  | nil => exact h
  | cons entry entries ih =>
    obtain ⟨hentry, hentries⟩ := List.forall_mem_cons.mp hentries
    exact ih (h.insert hentry.1 hentry.2) hentries

theorem merge (h' : T.Entries e) : T.Entries (d.merge e) := by
  rw [Dict.merge, ← Array.foldl_toList]
  exact h.insertAll h'

end Value.Trait.Entries

namespace Heap.All

variable {h : Heap}

theorem empty : Heap.All T {} := ⟨fun _ => .empty, fun _ => .empty⟩

variable (hh : h.All T)

include hh

theorem addList {elements : Array Value} (he : T.Elements elements) : (h.addList elements).2.All T := by
  refine ⟨fun id => ?_, hh.dict⟩
  rw [list_addList]
  split
  · exact he
  · exact hh.list id

theorem addDict {entries : Dict Value} (he : T.Entries entries) : (h.addDict entries).2.All T := by
  refine ⟨hh.list, fun id => ?_⟩
  rw [dict_addDict]
  split
  · exact he
  · exact hh.dict id

theorem updateList (id : ListId) {f : Array Value → Array Value} (hf : T.Elements (f (h.list id))) :
    (h.updateList id f).All T := by
  refine ⟨fun other => ?_, hh.dict⟩
  rcases getD_modify h.lists id.index other.index f #[] with ⟨heq, -⟩ | heq
  · exact (congrArg T.Elements heq).mpr hf
  · exact (congrArg T.Elements heq).mpr (hh.list other)

theorem updateDict (id : DictId) {f : Dict Value → Dict Value} (hf : T.Entries (f (h.dict id))) :
    (h.updateDict id f).All T := by
  refine ⟨hh.list, fun other => ?_⟩
  rcases getD_modify h.dicts id.index other.index f {} with ⟨heq, -⟩ | heq
  · exact (congrArg T.Entries heq).mpr hf
  · exact (congrArg T.Entries heq).mpr (hh.dict other)

theorem mono (hbounded : U.bounded = T.bounded) (hU : ∀ v, T.Has v → U.Has v) : h.All U where
  list id := ⟨hbounded ▸ (hh.list id).size, fun v hv => hU v ((hh.list id).all v hv)⟩
  dict id entry hentry := ⟨hbounded ▸ (hh.dict id entry hentry).1, hU _ (hh.dict id entry hentry).2⟩

end Heap.All

/-- A failure that no misplaced `return`, `break` or `continue` is to blame for. -/
def EvalCause.Ordinary : EvalCause → Prop
  | .returnOutsideFunction | .loopControlOutsideLoop _ => False
  | _ => True

/-! Indices are refused for ordinary reasons. -/
section Index

variable {key : Value} {cause : EvalCause}

private theorem ordinary_of_bind {α β : Type} {x : Except EvalCause α} {f : α → Except EvalCause β}
    (hx : ∀ cause, x = .error cause → cause.Ordinary) (hf : ∀ a cause, f a = .error cause → cause.Ordinary)
    (h : (x >>= f) = .error cause) : cause.Ordinary := by
  cases x with
  | error other =>
    cases h
    exact hx _ rfl
  | ok a => exact hf a cause h

theorem Value.toIndex_ordinary (h : key.toIndex = .error cause) : cause.Ordinary := by
  unfold toIndex at h
  split at h
  · split at h <;> cases h
    trivial
  · cases h
    trivial

theorem Value.place_ordinary {length places : Nat} (h : key.place length places = .error cause) : cause.Ordinary := by
  refine ordinary_of_bind (fun _ => toIndex_ordinary) (fun index cause h => ?_) h
  dsimp only at h
  split at h <;> cases h
  trivial

private theorem sliceBound_ordinary {bound : Option Value} {missing : Int} {length : Nat}
    (h : sliceBound bound missing length = .error cause) : cause.Ordinary := by
  cases bound with
  | none => cases h
  | some key =>
    change (_ <$> key.toIndex) = _ at h
    cases hindex : key.toIndex with
    | error other =>
      rw [hindex] at h
      cases h
      exact Value.toIndex_ordinary hindex
    | ok index =>
      rw [hindex] at h
      cases h

theorem sliceBounds_ordinary {start stop : Option Value} {length : Nat}
    (h : sliceBounds start stop length = .error cause) : cause.Ordinary := by
  refine ordinary_of_bind (fun _ => sliceBound_ordinary) (fun first cause h => ?_) h
  refine ordinary_of_bind (fun _ => sliceBound_ordinary) (fun last cause h => ?_) h
  split at h <;> cases h
  trivial

end Index

/-! Texts that are made from a text that is not too long. -/
section Text

variable {text : String} {chars : List Char}

theorem Short.of_sublist {bounded : Bool} (h : Short bounded text) (hsub : chars.Sublist text.toList) :
    Short bounded (String.ofList chars) := by
  intro hb
  have hsize {xs ys : List Char} (h : xs.Sublist ys) :
      (String.ofList xs).utf8ByteSize ≤ (String.ofList ys).utf8ByteSize := by
    induction h with
    | slnil => exact Nat.le_refl _
    | cons c _ ih =>
      rw [String.ofList_cons, String.utf8ByteSize_append]
      omega
    | cons_cons c _ ih =>
      rw [String.ofList_cons, String.ofList_cons, String.utf8ByteSize_append, String.utf8ByteSize_append]
      omega
  have hle := hsize hsub
  rw [String.ofList_toList] at hle
  exact Nat.le_trans hle (h hb)

private theorem option_sublist {char : Option Char} (h : ∀ c, char = some c → c ∈ chars) :
    char.toList.Sublist chars := by
  cases char with
  | none => exact List.nil_sublist _
  | some c => exact List.singleton_sublist.mpr (h c rfl)

/-- The words for the kinds of values are short. -/
theorem Value.Trait.typeOf {a : Value} (ha : T.Has a) : T.Has (.text a.typeOf) := by
  rw [T.text]
  intro hb
  cases a with
  | «instance» object => exact T.className ha hb
  | _ =>
    simp only [Value.typeOf, Value.typeName]
    decide

end Text

namespace Action

variable {α : Type} {a b : Value}

abbrev Passes (T : Value.Trait) (P : α → Prop) (x : Action α) : Prop :=
  ScriptLang.Keeps EvalCause.Ordinary (Heap.All T) P x

theorem elements_passes (id : ListId) : Passes T T.Elements (elements id) :=
  .bind .get fun _ hh => .pure (hh.list id)

theorem entries_passes (id : DictId) : Passes T T.Entries (entries id) :=
  .bind .get fun _ hh => .pure (hh.dict id)

theorem newList_passes {elements : Array Value} (he : T.Elements elements) :
    Passes T T.Has (newList elements) := fun _ hh => .ok (T.plain _ rfl) (hh.addList he)

theorem newDict_passes {entries : Dict Value} (he : T.Entries entries) :
    Passes T T.Has (newDict entries) := fun _ hh => .ok (T.plain _ rfl) (hh.addDict he)

theorem checkLength_passes (typeName : String) (length : Nat) :
    Passes T (fun _ => length ≤ maxLength) (checkLength typeName length) := by
  unfold checkLength
  split
  · exact .throw trivial
  · exact .pure (Nat.le_of_not_lt ‹_›)

theorem illegal_passes (op : BinaryOp) (a b : Value) : Passes T T.Has (illegal op a b) := .throw trivial

theorem concatenate_passes (left right : String) : Passes T T.Has (concatenate left right) := by
  refine .bind (checkLength_passes _ _) fun _ hlength => .pure (T.text.mpr fun _ => ?_)
  rw [FitText, String.utf8ByteSize_append]
  exact hlength

theorem add_passes (hb : T.Has b) : Passes T T.Has (add a b) := by
  unfold add
  split
  · exact .pure (T.plain _ rfl)
  · exact .bind .get fun _ _ => concatenate_passes _ _
  · refine .bind (elements_passes _) fun values hvalues => ?_
    exact .bind (checkLength_passes _ _) fun _ hlength => newList_passes (hvalues.push hb fun _ => hlength)
  · refine .bind (entries_passes _) fun d hd => .bind (entries_passes _) fun e he => ?_
    exact newDict_passes (hd.merge he)
  · exact .bind .get fun _ _ => concatenate_passes _ _
  · exact illegal_passes _ _ _

theorem subtract_passes : Passes T T.Has (subtract a b) := by
  unfold subtract
  split
  · exact .pure (T.plain _ rfl)
  · refine .bind (elements_passes _) fun values hvalues => ?_
    refine .bind (.liftExcept fun _ => Value.place_ordinary) fun position _ => ?_
    exact newList_passes (hvalues.eraseIdxIfInBounds position)
  · refine .bind (entries_passes _) fun entries hentries => ?_
    split
    · exact .throw_bind trivial _
    · exact newDict_passes (hentries.erase _)
  · exact illegal_passes _ _ _

theorem repeatCount_passes (count : Float) : Passes T (fun _ => True) (repeatCount count) := by
  unfold repeatCount
  split
  · exact .pure trivial
  · exact .throw trivial

theorem multiply_passes : Passes T T.Has (multiply a b) := by
  unfold multiply
  split
  · exact .pure (T.plain _ rfl)
  · refine .bind (repeatCount_passes _) fun count _ => .bind (checkLength_passes _ _) fun _ hlength => ?_
    refine .pure (T.text.mpr fun _ => ?_)
    split
    · exact Nat.zero_le _
    · rw [FitText, utf8ByteSize_repeat]
      exact hlength
  · refine .bind (elements_passes _) fun values hvalues => .bind (elements_passes _) fun others hothers => ?_
    refine .bind (checkLength_passes _ _) fun _ hlength => newList_passes ?_
    exact hvalues.append hothers fun _ => hlength
  · refine .bind (repeatCount_passes _) fun count _ => .bind (elements_passes _) fun values hvalues => ?_
    refine .bind (checkLength_passes _ _) fun _ hlength => newList_passes ?_
    split
    · exact .empty
    · exact hvalues.repeat count fun _ => hlength
  · exact illegal_passes _ _ _

theorem onNumbers_passes (op : BinaryOp) {f : Float → Float → Action Value}
    (hf : ∀ x y, Passes T T.Has (f x y)) : Passes T T.Has (onNumbers op f a b) := by
  unfold onNumbers
  split
  · exact hf _ _
  · exact illegal_passes _ _ _

theorem divided_passes (f : Float → Float → Float) (x y : Float) : Passes T T.Has (divided f x y) := by
  unfold divided
  split
  · exact .throw_bind trivial _
  · exact .pure (T.plain _ rfl)

theorem compare_passes (op : BinaryOp) (numbers : Float → Float → Bool)
    (texts : String → String → Bool) : Passes T T.Has (compare op numbers texts a b) := by
  unfold compare
  split
  · exact .pure (T.plain _ rfl)
  · exact .pure (T.plain _ rfl)
  · exact illegal_passes _ _ _

theorem instanceOf_passes : Passes T T.Has (instanceOf a b) := by
  unfold instanceOf
  split
  · exact .pure (T.plain _ rfl)
  · exact .pure (T.plain _ rfl)
  · exact illegal_passes _ _ _

theorem binary_passes (op : BinaryOp) (ha : T.Has a) (hb : T.Has b) : Passes T T.Has (binary op a b) := by
  cases op with
  | add => exact add_passes hb
  | subtract => exact subtract_passes
  | multiply => exact multiply_passes
  | divide | modulo => exact onNumbers_passes _ fun _ _ => divided_passes _ _ _
  | power => exact onNumbers_passes _ fun _ _ => .pure (T.plain _ rfl)
  | shiftLeft | shiftRight | shiftRightZero | bitAnd | bitOr | bitXor =>
    rw [binary]
    exact onNumbers_passes _ fun _ _ => .pure (T.plain _ rfl)
  | equal | notEqual => exact .bind .get fun _ _ => .pure (T.plain _ rfl)
  | less | greater | lessEqual | greaterEqual => exact compare_passes _ _ _
  | and | or =>
    refine .bind .get fun h _ => .pure ?_
    split <;> assumption
  | nullish =>
    refine .pure ?_
    split <;> assumption
  | instanceOf => exact instanceOf_passes

theorem unary_passes (op : UnaryOp) (ha : T.Has a) : Passes T T.Has (unary op a) := by
  unfold unary
  split
  · exact .pure (T.plain _ rfl)
  · exact .pure (T.plain _ rfl)
  · exact .pure (T.plain _ rfl)
  · exact .bind .get fun _ _ => .pure (T.plain _ rfl)
  · exact .pure (T.typeOf ha)
  · exact .throw trivial

theorem readElement_passes (ha : T.Has a) : Passes T T.Has (readElement a b) := by
  unfold readElement
  split
  · refine .bind (elements_passes _) fun values hvalues => ?_
    refine .bind (.liftExcept fun _ => Value.place_ordinary) fun position _ => ?_
    exact .pure (hvalues.getD position)
  · refine .bind (.liftExcept fun _ => Value.place_ordinary) fun position _ => .pure (T.text.mpr ?_)
    exact (T.text.mp ha).of_sublist (option_sublist fun c hc => List.mem_of_getElem? hc)
  · refine .bind (entries_passes _) fun entries hentries => ?_
    split
    · exact .pure (hentries.get? ‹_›)
    · exact .throw trivial
  · exact .throw trivial

theorem readSlice_passes (ha : T.Has a) (start stop : Option Value) : Passes T T.Has (readSlice a start stop) := by
  unfold readSlice
  split
  · refine .bind (elements_passes _) fun values hvalues => ?_
    refine .bind (.liftExcept fun _ => sliceBounds_ordinary) fun bounds _ => ?_
    exact newList_passes (hvalues.extract _ _)
  · refine .bind (.liftExcept fun _ => sliceBounds_ordinary) fun bounds _ => .pure (T.text.mpr ?_)
    exact (T.text.mp ha).of_sublist ((List.take_sublist _ _).trans (List.drop_sublist _ _))
  · exact .throw trivial

theorem written_elements {xs : Array Value} (h : T.Elements xs) (hb : T.Has b) {position : Nat}
    (hposition : xs.size ≤ position → position + 1 ≤ maxLength) : T.Elements (written xs position b) := by
  unfold written
  split
  next => exact h.setIfInBounds position hb
  next hge =>
    have hsize : position + 1 ≤ maxLength := hposition (Nat.le_of_not_lt hge)
    have hfill : T.Elements (Array.replicate (position - xs.size) .nothing) := .replicate fun _ => by omega
    exact (h.append hfill fun _ => by simp; omega).push hb fun _ => by simp; omega

theorem writeList_passes (id : ListId) (key : Value) (hb : T.Has b) :
    Passes T (fun _ => True) (writeList id key b) := by
  intro h hh
  rw [writeList_eq]
  split
  next hindex => exact .error (Value.toIndex_ordinary hindex) hh
  next index _ =>
    split
    next => exact .error trivial hh
    next hpos =>
      split
      next => exact .error trivial hh
      next hlength =>
        refine .ok trivial (hh.updateList id (written_elements (hh.list id) hb fun hle => ?_))
        omega

theorem writeElement_passes {key : Option Value} (hkey : ∀ k ∈ key, T.Has k) (hb : T.Has b) :
    Passes T (fun _ => True) (writeElement a key b) := by
  unfold writeElement
  split
  · intro h hh
    rw [push_eq]
    split
    next => exact .error trivial hh
    next hlength =>
      refine .ok trivial (hh.updateList _ ((hh.list _).push hb fun _ => ?_))
      exact Nat.le_of_not_lt hlength
  · exact writeList_passes _ _ hb
  · exact .modify fun h hh => hh.updateDict _ ((hh.dict _).insert (T.text.mp (hkey _ rfl)) hb)
  · exact .throw trivial
  · exact .throw trivial

theorem takeElement_passes (id : ListId) (key : Value) : Passes T T.Has (takeElement id key) := by
  refine .bind (elements_passes _) fun values hvalues => ?_
  refine .bind (.liftExcept fun _ => Value.place_ordinary) fun position _ => ?_
  refine .bind (.modify fun h hh => ?_) fun _ _ => .pure (hvalues.getD position)
  exact hh.updateList _ ((hh.list _).eraseIdxIfInBounds position)

theorem removeElement_passes : Passes T T.Has (removeElement a b) := by
  unfold removeElement
  split
  · exact takeElement_passes _ _
  · refine .bind (entries_passes _) fun entries hentries => ?_
    split
    · refine .bind (.modify fun h hh => ?_) fun _ _ => .pure (hentries.get? ‹_›)
      exact hh.updateDict _ ((hh.dict _).erase _)
    · exact .throw trivial
  · exact .throw trivial

end Action

namespace Builtin

theorem length_passes (value : Value) : (length value).Passes T T.Has := by
  cases value with
  | text => exact .pure (T.plain _ rfl)
  | list id => exact .bind (Action.elements_passes id) fun _ _ => .pure (T.plain _ rfl)
  | dict id => exact .bind (Action.entries_passes id) fun _ _ => .pure (T.plain _ rfl)
  | _ => exact .throw trivial

theorem insertAt_passes (hfree : T.bounded = false) (id : ListId) (key : Value) {value : Value}
    (hvalue : T.Has value) : (insertAt id key value).Passes T T.Has := by
  refine .bind (Action.elements_passes id) fun _ _ => ?_
  refine .bind (.liftExcept fun _ => Value.place_ordinary) fun position _ => ?_
  refine .bind (.modify fun h hh => ?_) fun _ _ => .pure (T.plain _ rfl)
  exact hh.updateList id ((hh.list id).insertIdxIfInBounds position hvalue hfree)

theorem toNumber_passes (value : Value) : (toNumber value).Passes T T.Has := by
  unfold toNumber
  split
  · exact .pure (T.plain _ rfl)
  · exact .pure (T.plain _ rfl)
  · split
    · exact .pure (T.plain _ rfl)
    · exact .throw trivial
  · exact .throw trivial

/-- Where lengths are bounded, none of the functions that make things of any length is called. -/
theorem act_passes {b : Builtin} (hb : T.bounded = true → b.isUnchecked = false) {args : List Value}
    (hargs : ∀ v ∈ args, T.Has v) : (b.act args).Passes T T.Has := by
  have hfree (hunchecked : b.isUnchecked = true) : T.bounded = false := by
    by_contra hbounded
    rw [hb (Bool.not_eq_false _ ▸ hbounded)] at hunchecked
    cases hunchecked
  unfold act
  split
  · exact length_passes _
  · refine .bind (.modify fun h hh => ?_) fun _ _ => .pure (T.plain _ rfl)
    exact hh.updateList _ ((hh.list _).push (hargs _ (by simp)) (by simp [hfree rfl]))
  · exact Action.takeElement_passes _ _
  · exact Action.takeElement_passes _ _
  · exact insertAt_passes (hfree rfl) _ _ (hargs _ (by simp))
  · refine .bind (Action.entries_passes _) fun entries _ => Action.newList_passes ⟨by simp [hfree rfl], ?_⟩
    intro v hv
    obtain ⟨key, _, rfl⟩ := List.mem_map.mp (List.mem_toArray.mp hv)
    exact T.text.mpr (by simp [Short, hfree rfl])
  · refine .bind (Action.entries_passes _) fun entries hentries => Action.newList_passes ⟨by simp [hfree rfl], ?_⟩
    intro v hv
    obtain ⟨entry, hentry, rfl⟩ := List.mem_map.mp (List.mem_toArray.mp hv)
    exact (hentries entry hentry).2
  · exact toNumber_passes _
  · exact .pure (T.plain _ rfl)
  · exact .pure (T.plain _ rfl)
  · exact .pure (T.plain _ rfl)
  · exact .pure (T.plain _ rfl)
  · exact .throw trivial
  · exact .pure (T.plain _ rfl)

end Builtin

namespace TablesFit

variable {α : Type} {P : String → α → Prop} {tables : Array (Table α)} {f : Table α → Table α}

theorem get? (h : TablesFit P tables) {i : Nat} {name : String} {a : α}
    (ha : (tables.getD i []).get? name = some a) : P name a :=
  h i (name, a) (Table.mem_of_get? ha)

theorem of_mem_push {i : Nat} {entry : String × α} (h : entry ∈ (tables.push []).getD i []) :
    entry ∈ tables.getD i [] := by
  rw [Array.getD_eq_getD_getElem?, Array.getElem?_push] at h
  split at h
  · cases h
  · rwa [← Array.getD_eq_getD_getElem?] at h

theorem of_mem_modify {i j : Nat} {entry : String × α} (h : entry ∈ (tables.modify i f).getD j []) :
    i = j ∧ entry ∈ f (tables.getD i []) ∨ entry ∈ tables.getD j [] := by
  rcases getD_modify tables i j f [] with ⟨heq, hij⟩ | heq <;> rw [heq] at h
  · exact .inl ⟨hij, h⟩
  · exact .inr h

variable (h : TablesFit P tables)

include h

theorem push : TablesFit P (tables.push []) :=
  fun i entry hentry => h i entry (of_mem_push hentry)

theorem modify (i : Nat) (hf : ∀ entry ∈ f (tables.getD i []), P entry.1 entry.2) :
    TablesFit P (tables.modify i f) := by
  intro j entry hentry
  rcases of_mem_modify hentry with ⟨-, hentry⟩ | hentry
  · exact hf entry hentry
  · exact h j entry hentry

theorem put (i : Nat) {name : String} {a : α} (ha : P name a) : TablesFit P (tables.modify i (·.put name a)) := by
  refine h.modify i fun entry hentry => ?_
  rcases Table.mem_put hentry with rfl | hold
  · exact ha
  · exact h i entry hold

theorem erase (i : Nat) (name : String) : TablesFit P (tables.modify i (·.erase name)) :=
  h.modify i fun entry hentry => h i entry ((Table.erase_sublist name _).subset hentry)

theorem mono {Q : String → α → Prop} (hPQ : ∀ name a, P name a → Q name a) : TablesFit Q tables :=
  fun i entry hentry => hPQ _ _ (h i entry hentry)

end TablesFit

/-- What a name may stand for. A function that makes things of any length has no name but its own. -/
def Value.Trait.Names (T : Value.Trait) (name : String) (value : Value) : Prop :=
  T.Has value ∨ ∃ b : Builtin, value = .builtin b ∧ b.name = name

theorem Value.Trait.Names.has {name : String} {value : Value} (h : T.Names name value)
    (hvalue : ∀ b, value ≠ .builtin b) : T.Has value :=
  h.resolve_right fun ⟨b, hb, _⟩ => hvalue b hb

abbrev Frames.All (T : Value.Trait) (fs : Frames) : Prop :=
  TablesFit (fun name binding => T.Names name binding.value) fs.all

theorem Frames.lookup?_all {fs : Frames} (hfs : fs.All T) {scope : Scope} {name : String} {value : Value}
    (h : fs.lookup? scope name = some value) : T.Names name value := by
  obtain ⟨⟨id, binding⟩, hnearest, rfl⟩ := Option.map_eq_some_iff.mp h
  obtain ⟨_, _, _, _, hget⟩ := nearest?_eq_some.mp hnearest
  exact hfs.get? hget

namespace Scoping

variable {α : Type} {scope : Scope} {name : String} {value : Value}

abbrev Passes (T : Value.Trait) (P : α → Prop) (x : Scoping α) : Prop :=
  ScriptLang.Keeps EvalCause.Ordinary (Frames.All T) P x

theorem declare_passes (hvalue : T.Has value) (isConstant : Bool) :
    Passes T (fun _ => True) (declare scope name value isConstant) := by
  refine .bind .get fun fs _ => ?_
  split
  · exact .throw_bind trivial _
  · exact .modify fun fs hfs => hfs.put _ (.inl hvalue)

theorem assign_passes (hvalue : T.Has value) : Passes T (fun _ => True) (assign scope name value) := by
  refine .bind .get fun fs _ => ?_
  split
  · exact .throw trivial
  · split
    · exact .throw_bind trivial _
    · exact .modify fun fs hfs => hfs.put _ (.inl hvalue)

theorem remove_passes : Passes T (fun _ => True) (remove scope name) := by
  refine .bind .get fun fs _ => ?_
  split
  · exact .throw trivial
  · split
    · exact .throw_bind trivial _
    · exact .bind (.modify fun fs hfs => hfs.erase _ name) fun _ _ => .pure trivial

end Scoping

/-- What a loop goes through is not too long, nor are the keys. -/
theorem Value.items_all {h : Heap} (hh : h.All T) {source : Value} {items : List (Value × Value)}
    (hitems : source.items h = some items) : ∀ item ∈ items, T.Has item.1 ∧ T.Has item.2 := by
  intro item hitem
  cases source with
  | list id =>
    cases hitems
    obtain ⟨⟨value, index⟩, hmem, rfl⟩ := List.mem_map.mp hitem
    exact ⟨T.plain _ rfl, (hh.list id).all value (Array.mem_def.mpr (List.fst_mem_of_mem_zipIdx hmem))⟩
  | dict id =>
    cases hitems
    obtain ⟨entry, hmem, rfl⟩ := List.mem_map.mp hitem
    exact (hh.dict id entry hmem).imp_left T.text.mpr
  | text characters =>
    cases hitems
    obtain ⟨⟨c, index⟩, hmem, rfl⟩ := List.mem_map.mp hitem
    refine ⟨T.plain _ rfl, T.text.mpr fun _ => ?_⟩
    rw [FitText, Char.toString, String.utf8ByteSize_singleton]
    exact Nat.le_trans c.utf8Size_le_four (by decide)
  | _ => cases hitems

namespace Loop

variable {V : Value → Prop}

theorem itemNames_all {key : Option String} {value : String} {keysOnly : Bool} {item : Value × Value}
    (h : V item.1 ∧ V item.2) : ∀ entry ∈ itemNames key value keysOnly item, V entry.2 := by
  unfold itemNames
  cases key with
  | some key => simpa using h
  | none => cases keysOnly <;> simp [h]

theorem gather_all (discards : Bool) {collected : Array Value} (h : ∀ v ∈ collected, V v) {value : Option Value}
    (hvalue : ∀ v, (.next value : Turn (Option Value) Unit) = .next (some v) → V v) :
    ∀ v ∈ gather discards collected value, V v := by
  unfold gather
  split
  · intro v hv
    rcases Array.mem_push.mp hv with hv | rfl
    · exact h v hv
    · exact hvalue _ rfl
  · exact h

end Loop

end ScriptLang
