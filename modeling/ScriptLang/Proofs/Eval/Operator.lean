import ScriptLang.Eval.Rule
import ScriptLang.Proofs.Data.Basic
import ScriptLang.Proofs.Eval.Run
import ScriptLang.Proofs.Keeps

/-! Texts and operators in a running program. Main statements: where no instance gives a text of its own, values
are shown as the heap has them, and an operator between two nodes does what it does with their values. -/
namespace ScriptLang

/-- Values that give no text of their own: not an instance with a method for it. -/
def Value.Mute : Value → Prop
  | .instance object => ∀ cls ∈ object.cls.lineage, ∀ method ∈ cls.definition.methods,
      method.name = textMethodName → method.flags.isStatic = true
  | _ => True

/-- All that is found in a value, however deep, gives no text of its own. -/
def Value.Plain (h : Heap) (v : Value) : Prop := ∀ path w, v.at? h path = some w → w.Mute

theorem Instance.textMethod?_eq_none {object : Instance} (h : (Value.instance object).Mute) :
    object.textMethod? = none := by
  refine Option.map_eq_none_iff.mpr (List.findSome?_eq_none_iff.mpr fun cls hcls => ?_)
  refine Option.map_eq_none_iff.mpr (List.find?_eq_none.mpr fun method hmethod => ?_)
  simpa using h cls hcls method hmethod

namespace Value.Plain

variable {h : Heap} {v w : Value}

theorem mute (hv : v.Plain h) : v.Mute := hv [] v rfl

theorem part (hv : v.Plain h) (step : PathStep) (hpart : v.part? h step = some w) : w.Plain h := by
  intro path x hx
  refine hv (step :: path) x ?_
  rw [Value.at?, hpart]
  exact hx

theorem element {id : ListId} (hv : (Value.list id).Plain h) (hw : w ∈ (h.list id).toList) : w.Plain h := by
  obtain ⟨i, hi⟩ := List.mem_iff_getElem?.mp hw
  refine hv.part (.index i) ?_
  rwa [Value.part?, ← Array.getElem?_toList]

theorem entry {id : DictId} (hv : (Value.dict id).Plain h) {key : String}
    (hw : (key, w) ∈ (h.dict id).toList) : w.Plain h :=
  hv.part (.key key) ((h.dict id).get?_eq_some.mpr hw)

/-- Where no collection holds anything but mute values, all of them are plain. -/
theorem of_heap (hv : v.Mute) (hlists : ∀ elements ∈ h.lists, ∀ x ∈ elements, x.Mute)
    (hdicts : ∀ entries ∈ h.dicts, ∀ x ∈ entries.values, x.Mute) : v.Plain h := by
  intro path
  induction path generalizing v with
  | nil =>
    rintro _ ⟨⟩
    exact hv
  | cons step path ih =>
    intro w hw
    obtain ⟨x, hx, hw⟩ := Option.bind_eq_some_iff.mp hw
    refine ih ?_ w hw
    unfold Value.part? at hx
    split at hx
    next id i =>
      rw [Heap.list, Array.getD_eq_getD_getElem?] at hx
      cases helements : h.lists[id.index]? with
      | none => simp [helements] at hx
      | some elements =>
        rw [helements] at hx
        exact hlists elements (Array.mem_of_getElem? helements) x (Array.mem_of_getElem? hx)
    next id key =>
      rw [Heap.dict, Array.getD_eq_getD_getElem?] at hx
      cases hentries : h.dicts[id.index]? with
      | none => simp [hentries, Dict.get?] at hx
      | some entries =>
        rw [hentries, Option.getD_some, Dict.get?_eq_some] at hx
        exact hdicts entries (Array.mem_of_getElem? hentries) x (List.mem_map.mpr ⟨_, hx, rfl⟩)
    next => cases hx

end Value.Plain

/-- Steps that leave the store alone, one after the other. -/
theorem Eval.mapM_of_ok {α γ : Type} {xs : List γ} {f : γ → Eval α} {g : γ → α} {s : Store}
    (h : ∀ c ∈ xs, f c s = .ok (g c) s) : xs.mapM f s = .ok (xs.map g) s := by
  induction xs with
  | nil => rfl
  | cons c xs ih =>
    obtain ⟨hfirst, hrest⟩ := List.forall_mem_cons.mp h
    rw [List.mapM_cons]
    exact (bind_of_ok hfirst).trans (bind_of_ok (ih hrest))

section Text

variable (m : Machine) (span : Span) (trace : Trace)

/-- Both ways to show a value go into collections alike: what one of them shows within a collection is what the
other one shows as an element. -/
theorem Machine.nestedText_eq (room : Nat) (around : List Handle) {v : Value} {s : Store} (hv : v.Plain s.heap) :
    m.nestedText span trace room around v s = .ok (if around.isEmpty then v.nestedText s.heap room around
      else v.elementText (Value.nestedText s.heap room around)) s := by
  induction room generalizing around v with
  | zero =>
    cases v with
    | «instance» object =>
      rw [Machine.nestedText, Instance.textMethod?_eq_none hv.mute]
      cases around <;> rfl
    | _ => cases around <;> rfl
  | succ room ih =>
    cases v with
    | list id =>
      rw [Machine.nestedText, Value.elementText_of_ne (v := .list id) _ (by simp), ite_self, Value.nestedText]
      cases around.contains (Handle.list id) with
      | true => rfl
      | false => exact Eval.bind_of_ok (Eval.mapM_of_ok fun w hw => ih (_ :: _) (hv.element hw))
    | dict id =>
      rw [Machine.nestedText, Value.elementText_of_ne (v := .dict id) _ (by simp), ite_self, Value.nestedText]
      cases around.contains (Handle.dict id) with
      | true => rfl
      | false =>
        refine Eval.bind_of_ok (Eval.mapM_of_ok fun entry hentry => ?_)
        exact Eval.bind_of_ok (ih (_ :: _) (hv.entry hentry))
    | «instance» object =>
      rw [Machine.nestedText, Instance.textMethod?_eq_none hv.mute]
      cases around <;> rfl
    | _ => cases around <;> rfl

theorem Machine.text_of_plain {v : Value} {s : Store} (hv : v.Plain s.heap) :
    m.text v span trace s = .ok (v.toText s.heap) s :=
  m.nestedText_eq span trace Value.maxShownDepth [] hv

/-- A running program shows a value as the heap has it, however its collections are shared or contain
themselves, and is not changed by that. -/
theorem Machine.text_eq_toText (v : Value) (s : Store)
    (hv : ∀ path object, v.at? s.heap path = some (.instance object) →
      ∀ cls ∈ object.cls.lineage, ∀ method ∈ cls.definition.methods,
        method.name = textMethodName → method.flags.isStatic = true) :
    m.text v span trace s = .ok (v.toText s.heap) s := by
  refine m.text_of_plain span trace fun path w hw => ?_
  cases w with
  | «instance» object => exact hv path object hw
  | _ => trivial

end Text

def Value.silent : Class :=
  ⟨0, { name := "A", parent := none, span := default, methods := [⟨textMethodName,
    ⟨0, none, [], ⟨.nothing, default⟩, true, default⟩, ⟨.everyone, true, false⟩, default⟩] }, none, ⟨⟨0⟩, []⟩⟩

def Value.knot : Heap where
  lists := #[#[.text "a\n", .list ⟨0⟩, .dict ⟨0⟩]]
  dicts := #[.ofList [("k", .list ⟨0⟩), ("d", .dict ⟨0⟩), ("o", .instance ⟨0, silent⟩)]]

theorem Value.silent_mute (id : Nat) : (Value.instance ⟨id, silent⟩).Mute := by
  intro cls hcls method hmethod _
  obtain rfl : cls = silent := List.mem_singleton.mp hcls
  rw [List.mem_singleton.mp hmethod]

theorem Value.knot_plain {v : Value} (hv : v.Mute) : v.Plain knot := by
  refine .of_heap hv (by simp [knot, Mute]) fun entries hentries x hx => ?_
  obtain rfl := Array.mem_singleton.mp hentries
  have hvalues : x ∈ [Value.list ⟨0⟩, .dict ⟨0⟩, .instance ⟨0, silent⟩] := hx
  simp only [List.mem_cons, List.not_mem_nil, or_false] at hvalues
  rcases hvalues with rfl | rfl | rfl
  · trivial
  · trivial
  · exact silent_mute 0

theorem Machine.text_eq_toText_knot :
    (∀ path object, (Value.list ⟨0⟩).at? Value.knot path = some (.instance object) →
      ∀ cls ∈ object.cls.lineage, ∀ method ∈ cls.definition.methods,
        method.name = textMethodName → method.flags.isStatic = true) ∧
    (Value.list ⟨0⟩).toText Value.knot =
      "[\"a\\n\", [...], \x7b\"k\": [...], \"d\": \x7b...\x7d, \"o\": <A instance>\x7d]" ∧
    ∀ (m : Machine) (span : Span) (trace : Trace), m.text (.list ⟨0⟩) span trace { heap := Value.knot } =
      .ok ((Value.list ⟨0⟩).toText Value.knot) { heap := Value.knot } := by
  have hplain : (Value.list ⟨0⟩).Plain Value.knot := Value.knot_plain trivial
  have hmute := fun path object => hplain path (.instance object)
  refine ⟨hmute, by decide +kernel, fun m span trace => ?_⟩
  exact m.text_eq_toText span trace (.list ⟨0⟩) { heap := Value.knot } hmute

/-- A store that holds all of another one, unchanged, and maybe more. -/
structure Store.Extends (s t : Store) : Prop where
  heap : s.heap.Extends t.heap
  frames {i : Nat} {frame : Frame} : s.frames.all[i]? = some frame → t.frames.all[i]? = some frame
  statics {i : Nat} {table : Table Member} : s.statics[i]? = some table → t.statics[i]? = some table
  members {i : Nat} {table : Table Member} : s.members[i]? = some table → t.members[i]? = some table
  output : t.output = s.output
  depth : t.depth = s.depth

namespace Store.Extends

variable {s t u : Store}

theorem trans (first : s.Extends t) (second : t.Extends u) : s.Extends u where
  heap := first.heap.trans second.heap
  frames h := second.frames (first.frames h)
  statics h := second.statics (first.statics h)
  members h := second.members (first.members h)
  output := second.output.trans first.output
  depth := second.depth.trans first.depth

theorem of_heap {heap : Heap} (h : s.heap.Extends heap) : s.Extends { s with heap } :=
  ⟨h, id, id, id, rfl, rfl⟩

end Store.Extends

/-- If a value is a collection, then the heap has it. -/
def Heap.Has (h : Heap) : Value → Prop
  | .list id => id.index < h.lists.size
  | .dict id => id.index < h.dicts.size
  | _ => True

/-- What a value counts as does not depend on what is new. -/
theorem Heap.Extends.isTrue_eq {h h' : Heap} (hext : h.Extends h') {v : Value} (hv : h.Has v) :
    v.isTrue h' = v.isTrue h := by
  cases v with
  | list id =>
    have hold := Array.getElem?_eq_getElem hv
    rw [Value.isTrue, Value.isTrue, Heap.list, Heap.list, Array.getD_eq_getD_getElem?,
      Array.getD_eq_getD_getElem?, hold, hext.lists hold]
  | dict id =>
    have hold := Array.getElem?_eq_getElem hv
    rw [Value.isTrue, Value.isTrue, Heap.dict, Heap.dict, Array.getD_eq_getD_getElem?,
      Array.getD_eq_getD_getElem?, hold, hext.dicts hold]
  | _ => rfl

namespace Action

variable {α : Type} {start : Heap}

/-- An action that changes nothing of what was there at the start, also if it fails. -/
abbrev Adds (start : Heap) (x : Action α) : Prop :=
  Keeps (fun _ : EvalCause => True) start.Extends (fun _ => True) x

theorem newList_adds (elements : Array Value) : Adds start (newList elements) :=
  .modifyGet fun h hext => ⟨trivial, hext.trans (.addList h elements)⟩

theorem newDict_adds (entries : Dict Value) : Adds start (newDict entries) :=
  .modifyGet fun h hext => ⟨trivial, hext.trans (.addDict h entries)⟩

theorem elements_adds (id : ListId) : Adds start (elements id) := .bind .get fun _ _ => .pure trivial

theorem entries_adds (id : DictId) : Adds start (entries id) := .bind .get fun _ _ => .pure trivial

theorem checkLength_adds (typeName : String) (length : Nat) : Adds start (checkLength typeName length) := by
  unfold checkLength
  split
  · exact .throw trivial
  · exact .pure trivial

theorem repeatCount_adds (count : Float) : Adds start (repeatCount count) := by
  unfold repeatCount
  split
  · exact .pure trivial
  · exact .throw trivial

theorem concatenate_adds (left right : String) : Adds start (concatenate left right) :=
  .bind (checkLength_adds _ _) fun _ _ => .pure trivial

theorem add_adds (left right : Value) : Adds start (add left right) := by
  unfold add
  split
  · exact .pure trivial
  · exact .bind .get fun _ _ => concatenate_adds _ _
  · refine .bind (elements_adds _) fun _ _ => .bind (checkLength_adds _ _) fun _ _ => newList_adds _
  · exact .bind (entries_adds _) fun _ _ => .bind (entries_adds _) fun _ _ => newDict_adds _
  · exact .bind .get fun _ _ => concatenate_adds _ _
  · exact .throw trivial

theorem subtract_adds (left right : Value) : Adds start (subtract left right) := by
  unfold subtract
  split
  · exact .pure trivial
  · refine .bind (elements_adds _) fun _ _ => .bind (.liftExcept fun _ _ => trivial) fun _ _ => newList_adds _
  · refine .bind (entries_adds _) fun _ _ => ?_
    split
    · exact .throw_bind trivial _
    · exact newDict_adds _
  · exact .throw trivial

theorem multiply_adds (left right : Value) : Adds start (multiply left right) := by
  unfold multiply
  split
  · exact .pure trivial
  · exact .bind (repeatCount_adds _) fun _ _ => .bind (checkLength_adds _ _) fun _ _ => .pure trivial
  · refine .bind (elements_adds _) fun _ _ => .bind (elements_adds _) fun _ _ => ?_
    exact .bind (checkLength_adds _ _) fun _ _ => newList_adds _
  · refine .bind (repeatCount_adds _) fun _ _ => .bind (elements_adds _) fun _ _ => ?_
    exact .bind (checkLength_adds _ _) fun _ _ => newList_adds _
  · exact .throw trivial

theorem onNumbers_adds (op : BinaryOp) {f : Float → Float → Action Value} (hf : ∀ a b, Adds start (f a b))
    (left right : Value) : Adds start (onNumbers op f left right) := by
  unfold onNumbers
  split
  · exact hf _ _
  · exact .throw trivial

theorem divided_adds (f : Float → Float → Float) (a b : Float) : Adds start (divided f a b) := by
  unfold divided
  split
  · exact .throw_bind trivial _
  · exact .pure trivial

theorem onWords_adds (op : BinaryOp) (f : BitVec 32 → BitVec 32 → Value) (left right : Value) :
    Adds start (onWords op f left right) :=
  onNumbers_adds op (fun _ _ => .pure trivial) left right

theorem compare_adds (op : BinaryOp) (numbers : Float → Float → Bool) (texts : String → String → Bool)
    (left right : Value) : Adds start (compare op numbers texts left right) := by
  unfold compare
  split
  · exact .pure trivial
  · exact .pure trivial
  · exact .throw trivial

theorem instanceOf_adds (left right : Value) : Adds start (instanceOf left right) := by
  unfold instanceOf
  split
  · exact .pure trivial
  · exact .pure trivial
  · exact .throw trivial

/-- Operators make new collections and change none. -/
theorem binary_adds (op : BinaryOp) (left right : Value) : Adds start (binary op left right) := by
  unfold binary
  cases op with
  | add => exact add_adds left right
  | subtract => exact subtract_adds left right
  | multiply => exact multiply_adds left right
  | divide | modulo => exact onNumbers_adds _ (divided_adds _) left right
  | power => exact onNumbers_adds _ (fun _ _ => .pure trivial) left right
  | shiftLeft | shiftRight | shiftRightZero | bitAnd | bitOr | bitXor => exact onWords_adds _ _ left right
  | less | greater | lessEqual | greaterEqual => exact compare_adds _ _ _ left right
  | equal | notEqual | and | or => exact .bind .get fun _ _ => .pure trivial
  | nullish => exact .pure trivial
  | instanceOf => exact instanceOf_adds left right

def Joined : EStateM.Result EvalCause Heap Value → Prop
  | .ok (.text _) _ => True
  | .error (.tooLarge typeName) _ => typeName = "string"
  | _ => False

theorem concatenate_joined (left right : String) (h : Heap) : Joined (concatenate left right h) := by
  unfold concatenate checkLength
  split
  · exact rfl
  · exact trivial

theorem add_not_joined {left right : Value} (hpair : concatenates left right = false) (h : Heap) :
    ¬Joined (add left right h) := by
  cases left with
  | text => cases hpair
  | list =>
    change ¬Joined ((do checkLength "list" _; newList _ : Action Value) h)
    unfold checkLength
    split
    · exact (by decide : ¬"list" = "string")
    · exact id
  | _ =>
    cases right with
    | text => cases hpair
    | _ => exact id

theorem add_of_concatenates {left right : Value} (hpair : concatenates left right = true) (h : Heap) :
    add left right h = concatenate (left.toText h) (right.toText h) h := by
  cases left with
  | text => rfl
  | list => cases hpair
  | _ =>
    cases right with
    | text => rfl
    | _ => cases hpair

/-- The pairs that are joined as texts are those for which `+` joins their texts. -/
theorem concatenates_iff (left right : Value) (h : Heap) : concatenates left right = true ↔
    add left right h = concatenate (left.toText h) (right.toText h) h := by
  refine ⟨fun hpair => add_of_concatenates hpair h, fun heq => ?_⟩
  by_contra hpair
  refine add_not_joined (Bool.eq_false_iff.mpr hpair) h ?_
  rw [heq]
  exact concatenate_joined _ _ h

end Action

/-- Whether an operator has to know its right operand, given the left one. -/
def BinaryOp.needsRight (op : BinaryOp) (h : Heap) (left : Value) : Bool :=
  match op with
  | .and => left.isTrue h
  | .or => !left.isTrue h
  | .nullish => left.isNothing
  | _ => true

/-- An operator that does not need its right operand gives the left one, whatever the other one is. -/
theorem Action.binary_of_not_needsRight {op : BinaryOp} {h : Heap} {left : Value}
    (hneeds : op.needsRight h left = false) (right : Value) : binary op left right h = .ok left h := by
  cases op with
  | and =>
    change EStateM.Result.ok (if left.isTrue h then right else left) h = _
    rw [show left.isTrue h = false from hneeds]
    rfl
  | or =>
    change EStateM.Result.ok (if left.isTrue h then left else right) h = _
    rw [if_pos (by simpa [BinaryOp.needsRight] using hneeds)]
  | nullish =>
    change EStateM.Result.ok (if left.isNothing then right else left) h = _
    rw [show left.isNothing = false from hneeds]
    rfl
  | _ => cases hneeds

section

variable {α : Type} {action : Action α} {trace : Trace} {span : Span} {s : Store}

theorem Eval.onHeap_of_ok {a : α} {heap : Heap} (h : action s.heap = .ok a heap) :
    Eval.onHeap trace span action s = .ok a { s with heap } := by
  unfold Eval.onHeap
  dsimp only
  rw [h]

theorem Eval.onHeap_extends (h : action.Adds s.heap) : s.Extends ((Eval.onHeap trace span action).leaves s) := by
  have hended := h s.heap (.refl _)
  unfold Eval.leaves Eval.onHeap
  dsimp only
  generalize action s.heap = outcome at hended
  cases hended with
  | ok _ state => exact .of_heap state
  | error _ state => exact .of_heap state

end

namespace Machine

variable {m : Machine} {op : BinaryOp} {left right : Node} {span : Span} {ctx : Context} {s t u : Store}
  {l r : Value} (hleft : m.eval left ctx s = .ok l t)

include hleft

theorem binary_left (hneeds : op.needsRight t.heap l = false) : m.binary op left right span ctx s = .ok l t := by
  refine (Eval.bind_of_ok hleft).trans ?_
  cases op with
  | and =>
    change (if l.isTrue t.heap then m.eval right ctx else pure l) t = _
    rw [show l.isTrue t.heap = false from hneeds]
    rfl
  | or =>
    change (if l.isTrue t.heap then pure l else m.eval right ctx) t = _
    rw [if_pos (by simpa [BinaryOp.needsRight] using hneeds)]
    rfl
  | nullish =>
    change (if l.isNothing then m.eval right ctx else pure l) t = _
    rw [show l.isNothing = false from hneeds]
    rfl
  | _ => cases hneeds

variable (hright : m.eval right ctx t = .ok r u)

include hright

/-- With both operands an operator does what it does with their values. That the left one counts as the same
still is only needed for the operators that look at it first. -/
theorem binary_both (hneeds : op.needsRight t.heap l = true) (htrue : l.isTrue u.heap = l.isTrue t.heap)
    (hplain : op = .add → l.Plain u.heap ∧ r.Plain u.heap) :
    m.binary op left right span ctx s = Eval.onHeap ctx.trace span (.binary op l r) u := by
  refine (Eval.bind_of_ok hleft).trans ?_
  cases op with
  | and =>
    have hl : l.isTrue t.heap = true := hneeds
    change (if l.isTrue t.heap then m.eval right ctx else pure l) t =
      .ok (if l.isTrue u.heap then r else l) u
    rw [htrue, if_pos hl, if_pos hl, hright]
  | or =>
    have hl : l.isTrue t.heap = false := by simpa [BinaryOp.needsRight] using hneeds
    change (if l.isTrue t.heap then pure l else m.eval right ctx) t =
      .ok (if l.isTrue u.heap then l else r) u
    rw [htrue, hl]
    exact hright
  | nullish =>
    have hl : l.isNothing = true := hneeds
    change (if l.isNothing then m.eval right ctx else pure l) t = .ok (if l.isNothing then r else l) u
    rw [if_pos hl, if_pos hl, hright]
  | add =>
    refine (Eval.bind_of_ok hright).trans ?_
    obtain ⟨hl, hr⟩ := hplain rfl
    cases hpair : Action.concatenates l r with
    | false => rfl
    | true =>
      refine (Eval.bind_of_ok (m.text_of_plain span ctx.trace hl)).trans ?_
      refine (Eval.bind_of_ok (m.text_of_plain span ctx.trace hr)).trans ?_
      unfold Eval.onHeap
      dsimp only
      rw [show Action.binary .add l r = Action.add l r from rfl, Action.add_of_concatenates hpair]
  | _ => exact Eval.bind_of_ok hright

end Machine

/-- Where the operands change nothing, an operator between two nodes does what it does with their values. If it
does not need the right one, that is not evaluated. Nothing that was there before is changed, and `+` takes two
values for texts if and only if it joins them as such. -/
theorem evaluated_operator (limit fuel : Nat) (op : BinaryOp) (left right : Node) (span : Span) (ctx : Context)
    {s t u : Store} {l r : Value} (hleft : evaluate limit fuel left ctx s = .ok l t) (hl : s.Extends t)
    (hheld : t.heap.Has l)
    (hright : op.needsRight t.heap l = true → evaluate limit fuel right ctx t = .ok r u ∧ t.Extends u)
    (hplain : op = .add → l.Plain u.heap ∧ r.Plain u.heap) :
    let whole := evaluate limit (fuel + 1) ⟨.binary op left right, span⟩ ctx
    whole s = Eval.onHeap ctx.trace span (.binary op l r) (if op.needsRight t.heap l then u else t) ∧
    s.Extends (whole.leaves s) ∧
    ∀ a b h, Action.concatenates a b = true ↔
      Action.add a b h = Action.concatenate (a.toText h) (b.toText h) h := by
  intro whole
  have hwhole : whole s = Eval.onHeap ctx.trace span (.binary op l r)
      (if op.needsRight t.heap l then u else t) ∧ s.Extends (if op.needsRight t.heap l then u else t) := by
    let m : Machine := ⟨limit, fuel, evaluate limit fuel⟩
    have hrule : whole s = m.binary op left right span ctx s := rfl
    cases hneeds : op.needsRight t.heap l with
    | false =>
      have hleast := Action.binary_of_not_needsRight hneeds r
      exact ⟨hrule.trans ((Machine.binary_left hleft hneeds).trans (Eval.onHeap_of_ok hleast).symm), hl⟩
    | true =>
      obtain ⟨hr, hext⟩ := hright hneeds
      have htrue := hext.heap.isTrue_eq hheld
      exact ⟨hrule.trans (Machine.binary_both hleft hr hneeds htrue hplain), hl.trans hext⟩
  refine ⟨hwhole.1, ?_, Action.concatenates_iff⟩
  rw [Eval.leaves, hwhole.1]
  exact hwhole.2.trans (Eval.onHeap_extends (Action.binary_adds op l r))

/-- A dictionary in a knot is joined with a text; and a right operand that cannot be evaluated does no harm where
it is not needed. -/
theorem evaluated_operator_knot :
    let s : Store := { heap := Value.knot, frames := ⟨#[[("d", ⟨.dict ⟨0⟩, false⟩)]]⟩ }
    let ctx : Context := ⟨⟨"<program>", []⟩, ⟨⟨0⟩, []⟩, none⟩
    let look (name : String) : Node := ⟨.lookup name, default⟩
    let sum := evaluate 9 2 ⟨.binary .add (look "d") ⟨.text "!", default⟩, default⟩ ctx
    let choice := evaluate 9 2 ⟨.binary .or (look "d") (look "e"), default⟩ ctx
    (sum s = Eval.onHeap ctx.trace default (.binary .add (.dict ⟨0⟩) (.text "!")) s ∧ s.Extends (sum.leaves s)) ∧
      evaluate 9 1 (look "e") ctx s = Eval.fail ctx.trace default (.undefinedVariable "e") s ∧
      choice s = Eval.onHeap ctx.trace default (.binary .or (.dict ⟨0⟩) .nothing) s := by
  intro s ctx look sum choice
  have hd : evaluate 9 1 (look "d") ctx s = .ok (.dict ⟨0⟩) s := rfl
  have hext : s.Extends s := .of_heap (.refl _)
  have hheld : s.heap.Has (.dict ⟨0⟩) := Nat.one_pos
  have hfull : BinaryOp.needsRight .or s.heap (.dict ⟨0⟩) = false := by decide +kernel
  have hplain {v : Value} (hv : v.Mute) : v.Plain s.heap := Value.knot_plain hv
  obtain ⟨hsum, hkept, -⟩ := evaluated_operator 9 1 .add (look "d") ⟨.text "!", default⟩ default ctx (u := s)
    (r := .text "!") hd hext hheld (fun _ => ⟨rfl, hext⟩) fun _ => ⟨hplain trivial, hplain trivial⟩
  obtain ⟨hchoice, -, -⟩ := evaluated_operator 9 1 .or (look "d") (look "e") default ctx (u := s)
    (r := .nothing) hd hext hheld (fun hneeds => absurd (hfull.symm.trans hneeds) Bool.false_ne_true) nofun
  exact ⟨⟨hsum, hkept⟩, rfl, hchoice⟩

end ScriptLang
