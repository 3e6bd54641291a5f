import Mathlib.Data.List.Forall2
import ScriptLang.Proofs.Data.Basic
import ScriptLang.Proofs.Dict.Association
import ScriptLang.Proofs.Eval.Arguments
import ScriptLang.Proofs.Limit.Action

/-! Elements by their index. Main statements: a write reaches one position, fills what lies between it and the
old end with nothing and is read back under the same key, and what fails leaves the heap as it was; and all
ways to address an element that is there, reading, deleting, popping and subtracting, mean the same one. -/
namespace ScriptLang

namespace Value

variable {key : Value} {length places position : Nat}

theorem place_of_error {cause : EvalCause} (h : key.toIndex = .error cause) :
    key.place length places = .error cause := by
  rw [place, h]
  rfl

theorem place_of_ok {index : Int} (h : key.toIndex = .ok index) : key.place length places =
    if resolveIndex index length < 0 ∨ places ≤ resolveIndex index length then
      .error (.indexOutOfRange index length)
    else .ok (resolveIndex index length).toNat := by
  rw [place, h]
  change (if _ then _ else _ : Except EvalCause Nat) = _
  split <;> rfl

theorem place_eq_ok : key.place length places = .ok position ↔
    ∃ index, key.toIndex = .ok index ∧ resolveIndex index length = position ∧ position < places := by
  cases hkey : key.toIndex with
  | error cause => simp [place_of_error hkey]
  | ok index =>
    rw [place_of_ok hkey]
    split
    · simp only [reduceCtorEq, Except.ok.injEq, exists_eq_left', false_iff]
      omega
    · simp only [Except.ok.injEq, exists_eq_left']
      omega

/-- The only reasons why an index means no position. -/
theorem place_eq_error {cause : EvalCause} (h : key.place length places = .error cause) :
    (∃ got, cause = .invalidIndex got) ∨ ∃ index, cause = .indexOutOfRange index length := by
  cases hkey : key.toIndex with
  | error other =>
    rw [place_of_error hkey] at h
    cases h
    unfold toIndex at hkey
    split at hkey
    · split at hkey <;> cases hkey
      exact .inl ⟨_, rfl⟩
    · cases hkey
      exact .inl ⟨_, rfl⟩
  | ok index =>
    rw [place_of_ok hkey] at h
    split at h <;> cases h
    exact .inr ⟨index, rfl⟩

/-- Only a number stands for an integer, and that fits into 64 bits. -/
theorem toIndex_eq_ok {index : Int} (h : key.toIndex = .ok index) :
    (∃ x, key = .number x) ∧ -2 ^ 63 ≤ index ∧ index < 2 ^ 63 := by
  unfold toIndex at h
  split at h
  next x =>
    split at h <;> cases h
    next hindex =>
      refine ⟨⟨x, rfl⟩, ?_⟩
      unfold Number.index? at hindex
      split at hindex
      · split at hindex <;> cases hindex
        unfold Number.clamp64
        omega
      · cases hindex
  next => cases h

/-- The position that an index means, worked out with 64-bit words whose sums wrap around. -/
def resolveWord (index length : Int64) : Int64 := if index < 0 then length + index else index

/-- The position of an index, worked out with such words. Whether it lies behind the last place is told by a
comparison with the length. -/
def wordPlace (key : Value) (length : Nat) (isBehind : Int64 → Int64 → Bool) : Except EvalCause Nat := do
  let index ← key.toIndex
  let position := resolveWord (.ofInt index) (.ofNat length)
  if position < 0 || isBehind position (.ofNat length) then throw (.indexOutOfRange index length)
  return position.toInt.toNat

variable (hlength : length ≤ maxLength)

include hlength

/-- The word for a length stands for just that, and so does the one before it. -/
theorem count_exact : (Int64.ofNat length).toInt = length ∧ (Int64.ofNat length - 1).toInt = length - 1 := by
  have hmax : maxLength = 16777216 := rfl
  have hcount : (Int64.ofNat length).toInt = length := Int64.toInt_ofNat_of_lt (by omega)
  have hone : (1 : Int64).toInt = 1 := rfl
  refine ⟨hcount, ?_⟩
  rw [Int64.toInt_sub, hcount, hone]
  exact Int.bmod_eq_of_le (by omega) (by omega)

/-- The word for an index stands for just that, and so does its sum with a length where it counts from the end:
nothing wraps around. -/
theorem word_exact {index : Int} (hkey : key.toIndex = .ok index) :
    (Int64.ofInt index).toInt = index ∧
      (Int64.ofInt index < 0 → (Int64.ofNat length + Int64.ofInt index).toInt = length + index) := by
  have hmax : maxLength = 16777216 := rfl
  obtain ⟨-, hlow, hhigh⟩ := toIndex_eq_ok hkey
  have hword : (Int64.ofInt index).toInt = index := Int64.toInt_ofInt_of_le hlow hhigh
  refine ⟨hword, fun hnegative => ?_⟩
  have hindex : (Int64.ofInt index).toInt < 0 := Int64.lt_iff_toInt_lt.mp hnegative
  rw [Int64.toInt_add, (count_exact hlength).1, hword]
  exact Int.bmod_eq_of_le (by omega) (by omega)

theorem toInt_resolveWord {index : Int} (hkey : key.toIndex = .ok index) :
    (resolveWord (.ofInt index) (.ofNat length)).toInt = resolveIndex index length := by
  obtain ⟨hword, hsum⟩ := word_exact hlength hkey
  have hsign : Int64.ofInt index < 0 ↔ index < 0 := by
    rw [Int64.lt_iff_toInt_lt, hword]
    rfl
  unfold resolveWord resolveIndex
  by_cases h : index < 0
  · rw [if_pos h, if_pos (hsign.mpr h), hsum (hsign.mpr h)]
  · rw [if_neg h, if_neg (mt hsign.mp h), hword]

theorem wordPlace_eq {isBehind : Int64 → Int64 → Bool}
    (hbehind : ∀ position : Int64, isBehind position (.ofNat length) = true ↔ places ≤ position.toInt) :
    key.wordPlace length isBehind = key.place length places := by
  unfold wordPlace
  cases hkey : key.toIndex with
  | error cause => exact (place_of_error hkey).symm
  | ok index =>
    have htest : (decide (resolveWord (.ofInt index) (.ofNat length) < 0) ||
          isBehind (resolveWord (.ofInt index) (.ofNat length)) (.ofNat length)) = true ↔
        resolveIndex index length < 0 ∨ places ≤ resolveIndex index length := by
      rw [Bool.or_eq_true, decide_eq_true_eq, Int64.lt_iff_toInt_lt, hbehind, toInt_resolveWord hlength hkey]
      rfl
    rw [place_of_ok hkey]
    change (if _ then _ else _ : Except EvalCause Nat) = _
    by_cases h : resolveIndex index length < 0 ∨ places ≤ resolveIndex index length
    · rw [if_pos h, if_pos (htest.mpr h)]
      rfl
    · rw [if_neg h, if_neg (mt htest.mp h), ← toInt_resolveWord hlength hkey]
      rfl

end Value

namespace Action

variable (id : ListId) (key value : Value) (h : Heap)

theorem readElement_eq (x : Float) : readElement (.list id) (.number x) h =
    match (Value.number x).position (h.list id).size with
    | .ok position => .ok ((h.list id).getD position .nothing) h
    | .error cause => .error cause h := by
  change ((liftExcept ((Value.number x).position (h.list id).size) : Action Nat) >>= _) h = _
  cases (Value.number x).position (h.list id).size <;> rfl

theorem takeElement_eq : takeElement id key h =
    match key.position (h.list id).size with
    | .ok position =>
      .ok ((h.list id).getD position .nothing) (h.updateList id (·.eraseIdxIfInBounds position))
    | .error cause => .error cause h := by
  change ((liftExcept (key.position (h.list id).size) : Action Nat) >>= _) h = _
  cases key.position (h.list id).size <;> rfl

theorem subtract_eq (x : Float) : subtract (.list id) (.number x) h =
    match (Value.number x).position (h.list id).size with
    | .ok position =>
      let (list, heap) := h.addList ((h.list id).eraseIdxIfInBounds position)
      .ok list heap
    | .error cause => .error cause h := by
  change ((liftExcept ((Value.number x).position (h.list id).size) : Action Nat) >>= _) h = _
  cases (Value.number x).position (h.list id).size <;> rfl

theorem insertAt_eq : Builtin.insertAt id key value h =
    match key.place (h.list id).size ((h.list id).size + 1) with
    | .ok position => .ok (.list id) (h.updateList id (·.insertIdxIfInBounds position value))
    | .error cause => .error cause h := by
  change ((liftExcept (key.place (h.list id).size ((h.list id).size + 1)) : Action Nat) >>= _) h = _
  cases key.place (h.list id).size ((h.list id).size + 1) <;> rfl

/-- An action that changes nothing if it fails. -/
def FailsClean {α : Type} (action : Action α) : Prop := ∀ h cause h', action h = .error cause h' → h' = h

theorem FailsClean.of_throw {α : Type} (cause : EvalCause) : FailsClean (throw cause : Action α) := by
  intro h _ h' hfails
  cases hfails
  rfl

theorem FailsClean.of_modify (f : Heap → Heap) : FailsClean (modify f) := fun _ _ _ hfails => nomatch hfails

theorem takeElement_failsClean : FailsClean (takeElement id key) := by
  intro h cause h' hfails
  rw [takeElement_eq] at hfails
  split at hfails <;> cases hfails
  rfl

theorem insertAt_failsClean : FailsClean (Builtin.insertAt id key value) := by
  intro h cause h' hfails
  rw [insertAt_eq] at hfails
  split at hfails <;> cases hfails
  rfl

theorem FailsClean.of_pure {α : Type} (a : α) : FailsClean (pure a) := fun _ _ _ hfails => nomatch hfails

theorem length_failsClean : FailsClean (Builtin.length value) := by
  cases value with
  | text text => exact .of_pure _
  | list | dict => exact fun _ _ _ hfails => nomatch hfails
  | _ => exact .of_throw _

theorem toNumber_failsClean : FailsClean (Builtin.toNumber value) := by
  cases value with
  | number | boolean => exact .of_pure _
  | text text =>
    rw [Builtin.toNumber]
    split
    · exact .of_pure _
    · exact .of_throw _
  | _ => exact .of_throw _

theorem act_failsClean (b : Builtin) (args : List Value) : FailsClean (b.act args) := by
  unfold Builtin.act
  split
  · exact length_failsClean _
  · exact fun _ _ _ hfails => nomatch hfails
  · exact takeElement_failsClean _ _
  · exact takeElement_failsClean _ _
  · exact insertAt_failsClean _ _ _
  · exact fun _ _ _ hfails => nomatch hfails
  · exact fun _ _ _ hfails => nomatch hfails
  · exact toNumber_failsClean _
  · exact .of_pure _
  · exact .of_pure _
  · exact .of_pure _
  · exact .of_pure _
  · exact .of_throw _
  · exact .of_pure _

theorem writeElement_failsClean (target : Value) (key : Option Value) : FailsClean (writeElement target key value) := by
  unfold writeElement
  split
  next id =>
    intro h cause h' hfails
    rw [push_eq] at hfails
    split at hfails <;> cases hfails
    rfl
  next id x =>
    intro h cause h' hfails
    rw [writeList_eq] at hfails
    split at hfails
    · cases hfails
      rfl
    · split at hfails
      · cases hfails
        rfl
      · split at hfails <;> cases hfails
        rfl
  · exact .of_modify _
  · exact .of_throw _
  · exact .of_throw _

theorem removeElement_failsClean (target : Value) : FailsClean (removeElement target key) := by
  unfold removeElement
  split
  · exact takeElement_failsClean _ _
  next id name =>
    intro h cause h' hfails
    rw [h.takeEntry_eq] at hfails
    split at hfails <;> cases hfails
    rfl
  · exact .of_throw _

end Action

/-- What a write of one element makes of a heap: the list reaches up to the position at least, with the value
there, nothing in the gap before it if there is one, and all else as it was. -/
structure Heap.Writes (h h' : Heap) (id : ListId) (position : Nat) (value : Value) : Prop where
  size : (h'.list id).size = max (h.list id).size (position + 1)
  here : (h'.list id)[position]? = some value
  others {i : Nat} : i < (h.list id).size → i ≠ position → (h'.list id)[i]? = (h.list id)[i]?
  gap {i : Nat} : (h.list id).size ≤ i → i < position → (h'.list id)[i]? = some .nothing
  elsewhere {other : ListId} : other ≠ id → h'.list other = h.list other
  dicts : h'.dicts = h.dicts

namespace Action

theorem size_written (values : Array Value) (position : Nat) (value : Value) :
    (written values position value).size = max values.size (position + 1) := by
  unfold written
  split
  · rw [Array.size_setIfInBounds]
    omega
  · rw [Array.size_push, Array.size_append, Array.size_replicate]
    omega

theorem getElem?_written (values : Array Value) (position i : Nat) (value : Value) :
    (written values position value)[i]? =
      if i = position then some value
      else if i < values.size then values[i]?
      else if i < position then some .nothing else none := by
  unfold written
  split
  next hin =>
    rw [Array.getElem?_setIfInBounds]
    by_cases hi : i = position
    · simp [hi, hin]
    · rw [if_neg (Ne.symm hi), if_neg hi]
      split
      · rfl
      · rw [if_neg (by omega), Array.getElem?_eq_none (by omega)]
  next hout =>
    have hsize : (values ++ Array.replicate (position - values.size) Value.nothing).size = position := by
      rw [Array.size_append, Array.size_replicate]
      omega
    rw [Array.getElem?_push, hsize]
    split
    · rfl
    · rw [Array.getElem?_append, Array.getElem?_replicate]
      split
      · rfl
      · by_cases hi : i < position
        · rw [if_pos (by omega), if_pos hi]
        · rw [if_neg (by omega), if_neg hi]

variable {h h' : Heap} {id : ListId} {key value : Value}

theorem writes_updateList (hid : id.index < h.lists.size) {f : Array Value → Array Value} {position : Nat}
    (hf : f (h.list id) = written (h.list id) position value) : h.Writes (h.updateList id f) id position value where
  size := by rw [h.list_updateList_self f hid, hf, size_written]
  here := by rw [h.list_updateList_self f hid, hf, getElem?_written, if_pos rfl]
  others hin hne := by rw [h.list_updateList_self f hid, hf, getElem?_written, if_neg hne, if_pos hin]
  gap hout hlt := by
    rw [h.list_updateList_self f hid, hf, getElem?_written, if_neg (by omega), if_neg (by omega), if_pos hlt]
  elsewhere hne := h.list_updateList_ne f (Ne.symm hne)
  dicts := rfl

/-- A push is a write right behind the end. -/
theorem push_eq_written (values : Array Value) (value : Value) :
    values.push value = written values values.size value := by
  rw [written, if_neg (Nat.lt_irrefl _), Nat.sub_self, Array.replicate_zero, Array.append_empty]

theorem writeList_eq_ok {index : Int} (hkey : key.toIndex = .ok index) :
    writeList id key value h = .ok () h' ↔
      (-((h.list id).size : Int) ≤ index ∧
        (resolveIndex index (h.list id).size < (h.list id).size ∨
          resolveIndex index (h.list id).size + 1 ≤ maxLength)) ∧
      h' = h.updateList id (written · (resolveIndex index (h.list id).size).toNat value) := by
  have hnegative : resolveIndex index (h.list id).size < 0 ↔ index < -((h.list id).size : Int) := by
    unfold resolveIndex
    split <;> omega
  rw [writeList_eq, hkey]
  dsimp only
  split
  · simp only [reduceCtorEq, false_iff]
    omega
  · split
    · simp only [reduceCtorEq, false_iff]
      omega
    · simp only [EStateM.Result.ok.injEq, true_and, eq_comm (b := h'), iff_and_self]
      omega

/-- What was written at an index is read back at it, also where the list has grown. -/
theorem readElement_of_writes {x : Float} {index : Int} {position : Nat} (hwrites : h.Writes h' id position value)
    (hkey : (Value.number x).toIndex = .ok index) (hposition : resolveIndex index (h.list id).size = position) :
    readElement (.list id) (.number x) h' = .ok value h' := by
  have hsame : resolveIndex index (h'.list id).size = position := by
    rw [hwrites.size, ← hposition]
    unfold resolveIndex at hposition ⊢
    split at hposition <;> omega
  have hlt : position < (h'.list id).size := by
    rw [hwrites.size]
    omega
  have hplace : (Value.number x).position (h'.list id).size = .ok position :=
    Value.place_eq_ok.mpr ⟨index, hkey, hsame, hlt⟩
  rw [Action.readElement_eq, hplace]
  dsimp only
  rw [Array.getD_eq_getD_getElem?, hwrites.here, Option.getD_some]

end Action

namespace Eval

variable {α β : Type} {x : Eval α} {f : α → Eval β}

/-- An evaluation that does not change the heap, however it ends. -/
def SameHeap (x : Eval α) : Prop := ∀ s, (x.leaves s).heap = s.heap

/-- An evaluation that does not change the heap if it is interrupted. -/
def FailsClean (x : Eval α) : Prop := ∀ s e s', x s = .error e s' → s'.heap = s.heap

theorem SameHeap.bind (hx : x.SameHeap) (hf : ∀ a, (f a).SameHeap) : (x >>= f).SameHeap := by
  intro s
  have hfirst := hx s
  rw [leaves_bind]
  unfold leaves at hfirst
  cases hrun : x s with
  | ok a t =>
    rw [hrun] at hfirst
    exact (hf a t).trans hfirst
  | error i t =>
    rw [hrun] at hfirst
    exact hfirst

theorem onFrames_sameHeap (trace : Trace) (span : Span) (action : Scoping α) :
    (onFrames trace span action).SameHeap := by
  intro s
  unfold leaves onFrames
  dsimp only
  cases action s.frames <;> rfl

theorem FailsClean.bind (hx : x.SameHeap) (hf : ∀ a, (f a).FailsClean) : (x >>= f).FailsClean := by
  intro s e s' hfails
  cases hrun : x s with
  | ok a t =>
    rw [bind_of_ok hrun] at hfails
    rw [hf a t e s' hfails, ← hx s, leaves_of_ok hrun]
  | error i t =>
    rw [bind_of_error hrun] at hfails
    cases hfails
    rw [← hx s, leaves_of_error hrun]

theorem onHeap_failsClean {action : Action α} (h : action.FailsClean) (trace : Trace) (span : Span) :
    (onHeap trace span action).FailsClean := by
  intro s e s' hfails
  unfold onHeap at hfails
  dsimp only at hfails
  split at hfails <;> cases hfails
  next hrun => exact h _ _ _ hrun

theorem FailsClean.guarded (h : x.FailsClean) (limit : Nat) (trace : Trace) (span : Span) :
    (guarded limit trace span x).FailsClean := by
  intro s e s' hfails
  unfold Eval.guarded at hfails
  split at hfails
  · split at hfails <;> cases hfails
    next hrun => exact (h _ _ _ hrun :)
  · cases hfails
    rfl

end Eval

namespace Machine

variable (m : Machine) (site : CallSite) (ctx : Context)

/-- Binding parameters leaves the heap alone where none of them takes the rest or has a default value. -/
theorem bind_sameHeap {params : List (Param Node)} (hparams : ∀ p ∈ params, p.isRest = false ∧ p.fallback = none)
    (args : List Value) : (m.bind site ctx params args).SameHeap := by
  induction params generalizing args with
  | nil => exact fun _ => rfl
  | cons param params ih =>
    obtain ⟨⟨hsingle, hfallback⟩, hrest⟩ := List.forall_mem_cons.mp hparams
    rw [Machine.bind]
    have hargument : (m.argument ctx param args).SameHeap := by
      unfold argument
      rw [hsingle, hfallback]
      cases args <;> exact fun _ => rfl
    refine .bind hargument fun bound => ?_
    dsimp only
    split
    · exact fun _ => rfl
    · exact .bind (Eval.onFrames_sameHeap _ _ _) fun _ => .bind (ih hrest bound.2) fun _ _ => rfl

/-- A native function leaves the heap alone if it fails, where that holds of what it does with its arguments. -/
theorem callValue_failsClean {b : Builtin} (hparams : ∀ p ∈ b.params, p.isRest = false ∧ p.fallback = none)
    (hrun : ∀ args span trace, (m.runBuiltin b args span trace).FailsClean) (args : List Value) (span : Span)
    (caller : Trace) : (m.callValue (.builtin b) args span caller).FailsClean := by
  refine .guarded (.bind (fun _ => rfl) fun own => .bind ?_ fun bound => hrun _ _ _) _ _ _
  unfold bindArguments
  dsimp only
  split
  · exact fun _ => rfl
  · exact m.bind_sameHeap _ _ hparams args

/-- Arguments that are all given and of the right types become variables of a frame without constants that is
alone in its scope. -/
theorem bind_given (trace : Trace) {own : FrameId} {params : List (Param Node)} {args : List Value}
    (hsingle : ∀ p ∈ params, p.isRest = false)
    (hadmits : List.Forall₂ (fun p value => p.admits value = true) params args) {s : Store}
    (hown : own.index < s.frames.all.size) (hfree : ∀ name, s.frames.isConstant ⟨own, []⟩ name = false) :
    ∃ frames, m.bind site ⟨trace, ⟨own, []⟩, none⟩ params args s = .ok args { s with frames } := by
  induction hadmits generalizing s with
  | nil => exact ⟨s.frames, rfl⟩
  | @cons param value params args hvalue _ ih =>
    obtain ⟨hfirst, hrest⟩ := List.forall_mem_cons.mp hsingle
    have hargument : m.argument ⟨trace, ⟨own, []⟩, none⟩ param (value :: args) s = .ok (value, args) s := by
      unfold argument
      rw [hfirst]
      rfl
    have hdeclare := onFrames_declare site ⟨own, []⟩ param.name value s
    rw [if_neg (by simp [hfree])] at hdeclare
    have hput (name : String) :
        (s.frames.update own (·.put param.name ⟨value, false⟩)).isConstant ⟨own, []⟩ name = false :=
      (isConstant_put hown param.name name value).trans (by rw [hfree, ite_self])
    obtain ⟨frames, hbehind⟩ := ih hrest (s := { s with
      frames := s.frames.update own (·.put param.name ⟨value, false⟩) }) (by simpa [Frames.update] using hown) hput
    refine ⟨frames, ?_⟩
    rw [Machine.bind, Eval.bind_of_ok hargument]
    dsimp only
    rw [if_neg (by simp [hvalue]), Eval.bind_of_ok hdeclare, Eval.bind_of_ok hbehind]
    rfl

/-- A call of `pop` with a list and an index takes out that element. -/
theorem callValue_pop {s : Store} (hdepth : s.depth < m.limit) (id : ListId) (x : Float) (span : Span)
    (caller : Trace) : ∃ frames trace, m.callValue (.builtin .pop) [.list id, .number x] span caller s =
      Eval.onHeap trace span (Builtin.pop.act [.list id, .number x]) { s with frames } := by
  let entered : Store := { s with frames := s.frames.add.2, depth := s.depth + 1 }
  let site : CallSite := ⟨Builtin.pop.name, span, caller⟩
  have hfree (name : String) : entered.frames.isConstant ⟨s.frames.add.1, []⟩ name = false := by
    change ((s.frames.add.2.nearest? name [s.frames.add.1]).any _) = false
    rw [Frames.nearest?, show s.frames.add.1 = ⟨s.frames.all.size⟩ from rfl, Frames.frame_add_self]
    rfl
  have hadmits : List.Forall₂ (fun p value => p.admits value = true) Builtin.pop.params
      [.list id, .number x] := .cons rfl (.cons rfl .nil)
  have hown : s.frames.add.1.index < entered.frames.all.size := by simp [entered, Frames.add]
  obtain ⟨frames, hbind⟩ := m.bind_given site site.trace (by decide) hadmits hown hfree
  have hinvoke : m.invokeBuiltin .pop [.list id, .number x] site { s with depth := s.depth + 1 } =
      Eval.onHeap site.trace span (Builtin.pop.act [.list id, .number x]) { entered with frames } :=
    Eval.bind_of_ok hbind
  refine ⟨frames, site.trace, ?_⟩
  change Eval.guarded m.limit caller span (m.invokeBuiltin .pop [.list id, .number x] site) s = _
  rw [Eval.guarded, if_pos hdepth, hinvoke]
  unfold Eval.onHeap
  dsimp only [entered]
  cases Builtin.pop.act [.list id, .number x] s.heap <;> rfl

end Machine

/-- A write at an index goes through exactly when the index does not reach back before the first element and
its position is in the list or not beyond the limit, and then it is a write of that one position that is read
back with the same key. A push is a write right behind the end. A write, a removal, `pop` and `insert` leave
the heap as it was whenever they fail. -/
theorem element_writes_lawful :
    (∀ (h : Heap) (id : ListId), id.index < h.lists.size → ∀ (key : Value) (i : Int), key.toIndex = .ok i →
      ∀ value,
        let n := (h.list id).size
        let p : Int := if i < 0 then n + i else i
        ((∃ h', Action.writeElement (.list id) (some key) value h = .ok () h') ↔
          -(n : Int) ≤ i ∧ (p < n ∨ p + 1 ≤ maxLength)) ∧
        ∀ h', Action.writeElement (.list id) (some key) value h = .ok () h' →
          h.Writes h' id p.toNat value ∧ Action.readElement (.list id) key h' = .ok value h') ∧
    (∀ (h : Heap) (id : ListId), id.index < h.lists.size → ∀ value,
      let n := (h.list id).size
      ((∃ h', Action.writeElement (.list id) none value h = .ok () h') ↔ n + 1 ≤ maxLength) ∧
      ∀ h', Action.writeElement (.list id) none value h = .ok () h' → h.Writes h' id n value) ∧
    (∀ target key value, (Action.writeElement target key value).FailsClean) ∧
    (∀ target key, (Action.removeElement target key).FailsClean) ∧
    ∀ m : Machine, ∀ b ∈ [Builtin.pop, .insert], ∀ args span caller,
      (m.callValue (.builtin b) args span caller).FailsClean := by
  refine ⟨fun h id hid key i hkey value => ?_, fun h id hid value => ?_,
    fun target key value => Action.writeElement_failsClean value target key,
    fun target key => Action.removeElement_failsClean key target, fun m b hb => ?_⟩
  · obtain ⟨⟨x, rfl⟩, -⟩ := Value.toIndex_eq_ok hkey
    intro n p
    have hwrite (h' : Heap) : Action.writeElement (.list id) (some (.number x)) value h = .ok () h' ↔
        (-(n : Int) ≤ i ∧ (p < n ∨ p + 1 ≤ maxLength)) ∧
          h' = h.updateList id (Action.written · p.toNat value) := Action.writeList_eq_ok hkey
    refine ⟨⟨fun ⟨h', hok⟩ => ((hwrite h').mp hok).1, fun hin => ⟨_, (hwrite _).mpr ⟨hin, rfl⟩⟩⟩, fun h' hok => ?_⟩
    obtain ⟨⟨hlow, -⟩, rfl⟩ := (hwrite h').mp hok
    have hwrites : h.Writes (h.updateList id (Action.written · p.toNat value)) id p.toNat value :=
      Action.writes_updateList hid rfl
    refine ⟨hwrites, Action.readElement_of_writes hwrites hkey ?_⟩
    change p = _
    have hp : 0 ≤ p := by
      change 0 ≤ if i < 0 then (n : Int) + i else i
      split <;> omega
    omega
  · intro n
    have hpush (h' : Heap) : Action.writeElement (.list id) none value h = .ok () h' ↔
        n + 1 ≤ maxLength ∧ h' = h.updateList id (·.push value) := by
      change Action.push id value h = _ ↔ _
      rw [Action.push_eq]
      split
      · simp only [reduceCtorEq, false_iff]
        omega
      · simp only [EStateM.Result.ok.injEq, true_and, eq_comm (b := h'), iff_and_self]
        omega
    refine ⟨⟨fun ⟨h', hok⟩ => ((hpush h').mp hok).1, fun hin => ⟨_, (hpush _).mpr ⟨hin, rfl⟩⟩⟩, fun h' hok => ?_⟩
    obtain ⟨-, rfl⟩ := (hpush h').mp hok
    exact Action.writes_updateList hid (Action.push_eq_written _ value)
  · simp only [List.mem_cons, List.not_mem_nil, or_false] at hb
    rcases hb with rfl | rfl
    · exact m.callValue_failsClean (by decide) fun args span trace =>
        Eval.onHeap_failsClean (Action.act_failsClean .pop args) trace span
    · exact m.callValue_failsClean (by decide) fun args span trace =>
        Eval.onHeap_failsClean (Action.act_failsClean .insert args) trace span

/-- A list of two elements is written behind its end, at its last element and before its first one. -/
theorem element_writes_lawful_of_pair :
    let h : Heap := { lists := #[#[.boolean true, .nothing]] }
    let written (x : Float) := Action.writeElement (.list ⟨0⟩) (some (.number x)) (.text "v") h
    (∃ h', written 4 = .ok () h' ∧ h.Writes h' ⟨0⟩ 4 (.text "v") ∧
      Action.readElement (.list ⟨0⟩) (.number 4) h' = .ok (.text "v") h') ∧
    (∃ h', written (-1) = .ok () h' ∧ h.Writes h' ⟨0⟩ 1 (.text "v")) ∧
    ¬∃ h', written (-3) = .ok () h' := by
  intro h written
  have hlaws := element_writes_lawful.1 h ⟨0⟩ Nat.one_pos
  obtain ⟨hgrows, hgrown⟩ := hlaws (.number 4) 4 rfl (.text "v")
  obtain ⟨hends, hend⟩ := hlaws (.number (-1)) (-1) rfl (.text "v")
  obtain ⟨hbefore, -⟩ := hlaws (.number (-3)) (-3) rfl (.text "v")
  obtain ⟨h₁, h₁eq⟩ := hgrows.mpr (by decide)
  obtain ⟨h₂, h₂eq⟩ := hends.mpr (by decide)
  exact ⟨⟨h₁, h₁eq, hgrown h₁ h₁eq⟩, ⟨h₂, h₂eq, (hend h₂ h₂eq).1⟩, mt hbefore.mp (by decide)⟩

/-- What happens to an element that is taken away at a position: it is found there, and the list without it is
what is left in place, and what is new where the list itself is kept. -/
structure Heap.Takes (h : Heap) (id : ListId) (position : Nat) (value : Value) (left added : Heap)
    (new : ListId) : Prop where
  found : (h.list id)[position]? = some value
  inPlace : (left.list id).toList = (h.list id).toList.eraseIdx position
  elsewhere {other : ListId} : other ≠ id → left.list other = h.list other
  dicts : left.dicts = h.dicts
  copy : (added.list new).toList = (h.list id).toList.eraseIdx position
  fresh : h.lists.size ≤ new.index
  kept : h.Extends added

/-- Reading, deleting, popping and subtracting agree on every number: either it stands for the position of an
element, and they all mean that one, or they all fail for the same cause. The positions are those that 64-bit
words give, whose sums do not wrap around for any length within the limit. -/
theorem element_addresses_agree :
    (∀ (h : Heap) (id : ListId), id.index < h.lists.size → ∀ x : Float,
      let key := Value.number x
      (∃ position value left new added, key.position (h.list id).size = .ok position ∧
        Action.readElement (.list id) key h = .ok value h ∧
        Action.removeElement (.list id) key h = .ok value left ∧
        Builtin.pop.act [.list id, key] h = .ok value left ∧
        Action.binary .subtract (.list id) key h = .ok (.list new) added ∧
        h.Takes id position value left added new) ∨
      ∃ cause, ((∃ got, cause = .invalidIndex got) ∨ ∃ index, cause = .indexOutOfRange index (h.list id).size) ∧
        Action.readElement (.list id) key h = .error cause h ∧
        Action.removeElement (.list id) key h = .error cause h ∧
        Builtin.pop.act [.list id, key] h = .error cause h ∧
        Action.binary .subtract (.list id) key h = .error cause h) ∧
    (∀ (m : Machine) (s : Store), s.depth < m.limit → ∀ id x span caller, ∃ frames trace,
      m.callValue (.builtin .pop) [.list id, .number x] span caller s =
        Eval.onHeap trace span (Builtin.pop.act [.list id, .number x]) { s with frames }) ∧
    ∀ (key : Value) (length : Nat), length ≤ maxLength →
      ((Int64.ofNat length).toInt = length ∧ (Int64.ofNat length - 1).toInt = length - 1) ∧
      (∀ index, key.toIndex = .ok index → (Int64.ofInt index).toInt = index ∧
        (Int64.ofInt index < 0 → (Int64.ofNat length + Int64.ofInt index).toInt = length + index)) ∧
      key.wordPlace length (fun position count => count ≤ position) = key.position length ∧
      key.wordPlace length (fun position count => count - 1 < position) = key.position length ∧
      key.wordPlace length (fun position count => count < position) = key.place length (length + 1) := by
  refine ⟨fun h id hid x => ?_, fun m s hdepth id x span caller => m.callValue_pop hdepth id x span caller,
    fun key length hlength => ?_⟩
  · intro key
    have hremove : Action.removeElement (.list id) key h = Action.takeElement id key h := rfl
    have hpop : Builtin.pop.act [.list id, key] h = Action.takeElement id key h := rfl
    have hsubtract : Action.binary .subtract (.list id) key h = Action.subtract (.list id) key h := rfl
    rw [hremove, hpop, hsubtract, Action.readElement_eq, Action.takeElement_eq, Action.subtract_eq]
    cases hposition : key.position (h.list id).size with
    | ok position =>
      left
      obtain ⟨-, -, -, hlt⟩ := Value.place_eq_ok.mp hposition
      refine ⟨position, _, _, ⟨h.lists.size⟩, (h.addList ((h.list id).eraseIdxIfInBounds position)).2,
        rfl, rfl, rfl, rfl, rfl, ?_⟩
      exact {
        found := by simp [Array.getD_eq_getD_getElem?, hlt]
        inPlace := by rw [h.list_updateList_self _ hid, Array.toList_eraseIdxIfInBounds]
        elsewhere hne := h.list_updateList_ne _ (Ne.symm hne)
        dicts := rfl
        copy := by rw [h.list_addList_self, Array.toList_eraseIdxIfInBounds]
        fresh := Nat.le_refl _
        kept := .addList h _ }
    | error cause => exact .inr ⟨cause, Value.place_eq_error hposition, rfl, rfl, rfl, rfl⟩
  · obtain ⟨hcount, hlast⟩ := Value.count_exact hlength
    refine ⟨⟨hcount, hlast⟩, fun index hkey => Value.word_exact hlength hkey, ?_, ?_, ?_⟩
    · refine Value.wordPlace_eq hlength fun position => ?_
      rw [decide_eq_true_eq, Int64.le_iff_toInt_le, hcount]
    · refine Value.wordPlace_eq hlength fun position => ?_
      rw [decide_eq_true_eq, Int64.lt_iff_toInt_lt, hlast]
      omega
    · refine Value.wordPlace_eq hlength fun position => ?_
      rw [decide_eq_true_eq, Int64.lt_iff_toInt_lt, hcount]
      omega

/-- The first of three elements counted from the end, and one that is not there. -/
theorem element_addresses_agree_of_triple :
    let h : Heap := { lists := #[#[.boolean true, .nothing, .text "c"]] }
    (∃ left new added, Builtin.pop.act [.list ⟨0⟩, .number (-3)] h = .ok (.boolean true) left ∧
      Action.binary .subtract (.list ⟨0⟩) (.number (-3)) h = .ok (.list new) added ∧
      h.Takes ⟨0⟩ 0 (.boolean true) left added new) ∧
    Action.removeElement (.list ⟨0⟩) (.number 3) h = .error (.indexOutOfRange 3 3) h ∧
    (Value.number (-3)).wordPlace 3 (fun position count => count - 1 < position) = .ok 0 := by
  intro h
  obtain ⟨hagree, -, hwords⟩ := element_addresses_agree
  refine ⟨?_, ?_, (hwords (.number (-3)) 3 (by decide)).2.2.2.1⟩
  · obtain ⟨position, value, left, new, added, hposition, hread, -, hpop, hsubtract, htakes⟩ |
      ⟨cause, -, hread, -⟩ := hagree h ⟨0⟩ Nat.one_pos (-3)
    · cases hposition
      cases hread
      exact ⟨left, new, added, hpop, hsubtract, htakes⟩
    · cases hread
  · obtain ⟨position, -, -, -, -, hposition, -⟩ | ⟨cause, -, hread, hremove, -⟩ := hagree h ⟨0⟩ Nat.one_pos 3
    · cases hposition
    · cases hread
      exact hremove

end ScriptLang
