import ScriptLang.Eval.Basic
import ScriptLang.Proofs.Value.Action

/-! States of a running program that are the same but for stretches of source. Main statement: the
steps that evaluation is built from go in step, wherever they are and whoever called. -/
namespace ScriptLang

variable {L : Leeway}

inductive Binding.Alike (L : Leeway) : Binding → Binding → Prop
  | mk {v w} (isConstant) (value : Value.Alike L v w) : Alike L ⟨v, isConstant⟩ ⟨w, isConstant⟩

/-- Frames that are the same but for stretches of source, the hidden ones apart. New frames are never
hidden. -/
structure Frames.Alike (L : Leeway) (fs gs : Frames) : Prop where
  size_eq : fs.all.size = gs.all.size
  old : ∀ id, L.hidden id → id.index < fs.all.size
  frame : ∀ id, ¬ L.hidden id → Table.Alike (Binding.Alike L) (fs.frame id) (gs.frame id)

namespace Frames.Alike

variable {fs gs : Frames} {scope scope' : Scope}

private theorem frame_update (fs : Frames) (id other : FrameId) (f : Frame → Frame) :
    (fs.update id f).frame other =
      if id = other ∧ id.index < fs.all.size then f (fs.frame other) else fs.frame other := by
  by_cases h : id = other
  · subst h
    by_cases hid : id.index < fs.all.size
    · rw [if_pos ⟨rfl, hid⟩, frame_update_self fs f hid]
    · simp [Frames.update, Frames.frame, Array.getD_eq_getD_getElem?, hid]
  · rw [if_neg fun hand => h hand.1, frame_update_ne fs f h]

variable (h : Alike L fs gs)

include h

theorem add : fs.add.1 = gs.add.1 ∧ ¬ L.hidden fs.add.1 ∧ Alike L fs.add.2 gs.add.2 := by
  refine ⟨congrArg FrameId.mk h.size_eq, ?_, ?_, ?_, ?_⟩
  · intro hidden
    exact Nat.lt_irrefl _ (h.old _ hidden)
  · simp [Frames.add, h.size_eq]
  · intro id hidden
    simpa [Frames.add] using Nat.lt_succ_of_lt (h.old id hidden)
  · intro id hidden
    rw [frame_add, frame_add]
    exact h.frame id hidden

theorem update (id : FrameId) {f g : Frame → Frame}
    (hf : ∀ t u, Table.Alike (Binding.Alike L) t u → Table.Alike (Binding.Alike L) (f t) (g u)) :
    Alike L (fs.update id f) (gs.update id g) := by
  refine ⟨?_, ?_, ?_⟩
  · simpa [Frames.update] using h.size_eq
  · intro id hidden
    simpa [Frames.update] using h.old id hidden
  · intro other hidden
    rw [frame_update, frame_update, h.size_eq]
    split
    · exact hf _ _ (h.frame other hidden)
    · exact h.frame other hidden

private theorem nearest?_alike (name : String) (ids : List FrameId) (shown : ∀ id ∈ ids, ¬ L.hidden id) :
    Option.Rel (PairAlike Eq (Binding.Alike L)) (fs.nearest? name ids) (gs.nearest? name ids) := by
  induction ids with
  | nil => exact .none
  | cons id rest ih =>
    rw [Frames.nearest?, Frames.nearest?]
    have hget := (h.frame id (shown id (List.mem_cons_self ..))).get? name
    generalize (fs.frame id).get? name = p, (gs.frame id).get? name = q at hget
    cases hget with
    | none => exact ih fun id hid => shown id (List.mem_cons_of_mem _ hid)
    | some hpq => exact .some (.mk rfl hpq)

variable (hscope : Scope.Alike L scope scope')

include hscope

theorem nearest? (name : String) :
    Option.Rel (PairAlike Eq (Binding.Alike L)) (fs.nearest? name scope.frames) (gs.nearest? name scope'.frames) := by
  obtain ⟨shown⟩ := hscope
  exact nearest?_alike h name scope.frames shown

theorem lookup? (name : String) : Option.Rel (Value.Alike L) (fs.lookup? scope name) (gs.lookup? scope' name) := by
  refine option_rel_map (h.nearest? hscope name) ?_
  rintro _ _ ⟨_, _, value⟩
  exact value

theorem isConstant_eq (name : String) : fs.isConstant scope name = gs.isConstant scope' name := by
  rw [Frames.isConstant, Frames.isConstant]
  have hnear := h.nearest? hscope name
  generalize fs.nearest? name scope.frames = p, gs.nearest? name scope'.frames = q at hnear
  cases hnear with
  | none => rfl
  | some hpq =>
    obtain ⟨_, _, _⟩ := hpq
    rfl

end Frames.Alike

/-- Actions that go in step on related frames and fail for the same cause. -/
abbrev Scoping.Alike {α β : Type} (L : Leeway) (Q : α → β → Prop) (x : Scoping α) (y : Scoping β) :
    Prop :=
  InStep Eq (Frames.Alike L) Q x y

namespace Scoping

variable {scope scope' : Scope}

variable (hscope : Scope.Alike L scope scope')

include hscope

theorem declare_alike (name : String) {v w : Value} (h : Value.Alike L v w) (isConstant : Bool) :
    Scoping.Alike L Eq (declare scope name v isConstant) (declare scope' name w isConstant) := by
  refine .bind .get fun fs gs hfs => ?_
  dsimp only
  rw [hfs.isConstant_eq hscope, hscope.eq]
  split
  · exact .throw_bind rfl _ _
  · exact .modify fun _ _ hfs => hfs.update _ fun _ _ ht => ht.put name (.mk isConstant h)

theorem assign_alike (name : String) {v w : Value} (h : Value.Alike L v w) :
    Scoping.Alike L Eq (assign scope name v) (assign scope' name w) := by
  refine .bind .get fun fs gs hfs => ?_
  have hnear := hfs.nearest? hscope name
  generalize fs.nearest? name scope.frames = p, gs.nearest? name scope'.frames = q at hnear
  cases hnear with
  | none => exact .throw rfl
  | some hpq =>
    obtain ⟨rfl, isConstant, _⟩ := hpq
    dsimp only
    split
    · exact .throw_bind rfl _ _
    · exact .modify fun _ _ hfs => hfs.update _ fun _ _ ht => ht.put name (.mk false h)

theorem remove_alike (name : String) : Scoping.Alike L (Value.Alike L) (remove scope name) (remove scope' name) := by
  refine .bind .get fun fs gs hfs => ?_
  have hnear := hfs.nearest? hscope name
  generalize fs.nearest? name scope.frames = p, gs.nearest? name scope'.frames = q at hnear
  cases hnear with
  | none => exact .throw rfl
  | some hpq =>
    obtain ⟨rfl, isConstant, value⟩ := hpq
    dsimp only
    split
    · exact .throw_bind rfl _ _
    · refine .bind (.modify fun _ _ hfs => hfs.update _ fun _ _ ht => ?_) fun _ _ _ => .pure value
      exact ht.erase name

end Scoping

inductive Member.Alike (L : Leeway) : Member → Member → Prop
  | mk {v w c d} (visibility) (value : Value.Alike L v w) (owner : Class.Alike L c d) :
      Alike L ⟨v, visibility, c⟩ ⟨w, visibility, d⟩

/-- What states of two runs may differ in: their values, and the lines that only the second had printed
`before`. -/
structure Difference extends Leeway where
  before : Array String := #[]

instance : Coe Difference Leeway := ⟨Difference.toLeeway⟩

/-- States that differ in nothing but what `L` lets them differ in. -/
structure Store.Alike (L : Difference) (s t : Store) : Prop where
  heap : Heap.Alike L s.heap t.heap
  frames : Frames.Alike L s.frames t.frames
  statics : Aligned (Table.Alike (Member.Alike L)) s.statics t.statics
  members : Aligned (Table.Alike (Member.Alike L)) s.members t.members
  output : t.output = L.before ++ s.output
  depth : s.depth = t.depth

/-- Interrupts that differ in nothing but stretches and traces. -/
inductive Interrupt.Alike (L : Leeway) : Interrupt → Interrupt → Prop
  | returned {v w} (value : Value.Alike L v w) : Alike L (.returned v) (.returned w)
  | broken : Alike L .broken .broken
  | continued : Alike L .continued .continued
  | failed {e f : EvalError} (cause : e.cause = f.cause) : Alike L (.failed e) (.failed f)
  | exhausted : Alike L .exhausted .exhausted

/-- Contexts with the same variables and the same class. The calls that led to them do not matter. -/
structure Context.Alike (L : Leeway) (c d : Context) : Prop where
  scope : Scope.Alike L c.scope d.scope
  classScope : Option.Rel (Class.Alike L) c.classScope d.classScope

variable {L : Difference}

/-- Evaluations that go in step on related states. -/
abbrev Eval.Alike {α β : Type} (L : Difference) (Q : α → β → Prop)
    (x : Eval α) (y : Eval β) : Prop :=
  InStep (Interrupt.Alike L) (Store.Alike L) Q x y

abbrev Eval.SameValue (L : Difference) : Eval Value → Eval Value → Prop := Eval.Alike L (Value.Alike L)

/-- Machines with the same bounds that evaluate related nodes in step. -/
structure Machine.Alike (L : Difference) (m n : Machine) : Prop where
  limit : m.limit = n.limit
  turns : m.turns = n.turns
  eval : ∀ {a b : Node} {c d : Context}, SameCode L a b → Context.Alike L c d →
    Eval.SameValue L (m.eval a c) (n.eval b d)

namespace Eval

variable {α β : Type} {Q : α → β → Prop} {trace trace' : Trace} {span span' : Span} {scope scope' : Scope}

theorem fail_alike (cause : EvalCause) : Eval.Alike L Q (fail trace span cause) (fail trace' span' cause) :=
  .throw (.failed rfl)

theorem fail_bind_alike {γ δ : Type} (cause : EvalCause) (k : γ → Eval α) (l : δ → Eval β) :
    Eval.Alike L Q (fail trace span cause >>= k) (fail trace' span' cause >>= l) :=
  .throw_bind (.failed rfl) _ _

theorem onHeap_alike {x : Action α} {y : Action β} (h : Action.Alike L Q x y) :
    Eval.Alike L Q (onHeap trace span x) (onHeap trace' span' y) := by
  intro s t hs
  have hxy := h _ _ hs.heap
  unfold onHeap
  dsimp only
  generalize x s.heap = p, y t.heap = q at hxy
  cases hxy with
  | ok result heap => exact .ok result { hs with heap }
  | error cause heap => exact .error (.failed cause) { hs with heap }

theorem onFrames_alike {x : Scoping α} {y : Scoping β} (h : Scoping.Alike L Q x y) :
    Eval.Alike L Q (onFrames trace span x) (onFrames trace' span' y) := by
  intro s t hs
  have hxy := h _ _ hs.frames
  unfold onFrames
  dsimp only
  generalize x s.frames = p, y t.frames = q at hxy
  cases hxy with
  | ok result frames => exact .ok result { hs with frames }
  | error cause frames => exact .error (.failed cause) { hs with frames }

theorem declare_alike (hscope : Scope.Alike L scope scope') (name : String)
    {v w : Value} (h : Value.Alike L v w) {isConstant : Bool} :
    Eval.Alike L Eq (onFrames trace span (.declare scope name v isConstant))
      (onFrames trace' span' (.declare scope' name w isConstant)) :=
  onFrames_alike (Scoping.declare_alike hscope name h isConstant)

theorem lookup?_alike (h : Scope.Alike L scope scope') (name : String) :
    Eval.Alike L (Option.Rel (Value.Alike L)) (lookup? scope name) (lookup? scope' name) :=
  .map .get fun _ _ hs => hs.frames.lookup? h name

theorem isTrue_alike {v w : Value} (h : Value.Alike L v w) : Eval.Alike L Eq (isTrue v) (isTrue w) :=
  .map .get fun _ _ hs => h.isTrue_eq hs.heap

theorem newList_alike {xs ys : Array Value} (h : Aligned (Value.Alike L) xs ys) :
    Eval.SameValue L (newList xs) (newList ys) :=
  .modifyGet fun _ _ hs => ⟨(hs.heap.addList h).1, { hs with heap := (hs.heap.addList h).2 }⟩

theorem newDict_alike {d e : Dict Value} (h : Dict.Alike (Value.Alike L) d e) :
    Eval.SameValue L (newDict d) (newDict e) :=
  .modifyGet fun _ _ hs => ⟨(hs.heap.addDict h).1, { hs with heap := (hs.heap.addDict h).2 }⟩

/-- A new frame, which nothing but its scope sees yet. -/
theorem addFrame_alike :
    Eval.Alike L (fun a b => a = b ∧ ¬ L.hidden a)
      (modifyGet fun s => (s.frames.add.1, { s with frames := s.frames.add.2 }))
      (modifyGet fun s => (s.frames.add.1, { s with frames := s.frames.add.2 })) :=
  .modifyGet fun _ _ hs =>
    have ⟨hid, shown, frames⟩ := hs.frames.add
    ⟨⟨hid, shown⟩, { hs with frames }⟩

theorem innerScope_alike (h : Scope.Alike L scope scope') :
    Eval.Alike L (Scope.Alike L) (innerScope scope) (innerScope scope') := by
  obtain ⟨shown⟩ := h
  refine .modifyGet fun s t hs => ?_
  obtain ⟨hid, hnew, frames⟩ := hs.frames.add
  refine ⟨?_, { hs with frames }⟩
  dsimp only
  rw [← hid]
  refine .mk fun id hmem => ?_
  rcases List.mem_cons.mp hmem with rfl | hmem
  · exact hnew
  · exact shown id hmem

theorem guarded_alike {limit : Nat} {x : Eval α} {y : Eval β} (h : Eval.Alike L Q x y) :
    Eval.Alike L Q (guarded limit trace span x) (guarded limit trace' span' y) := by
  intro s t hs
  unfold guarded
  rw [hs.depth]
  split
  · have hxy := h { s with depth := t.depth + 1 } { t with depth := t.depth + 1 }
      { hs with depth := rfl }
    generalize x { s with depth := t.depth + 1 } = p, y { t with depth := t.depth + 1 } = q at hxy
    cases hxy with
    | ok result state => exact .ok result { state with depth := by rw [state.depth] }
    | error cause state => exact .error cause { state with depth := by rw [state.depth] }
  · exact fail_alike _ s t hs

end Eval

end ScriptLang
