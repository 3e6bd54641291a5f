import ScriptLang.Proofs.Congruence.Basic
import ScriptLang.Proofs.InStep

/-! Evaluations that leave as many active calls as they found.

Two evaluations are compared, of which one may do anything where too many calls are active. That they
agree says that such a place is not reached. -/
namespace ScriptLang

def Store.SameAt (depth : Nat) (s t : Store) : Prop := s = t ∧ s.depth = depth

theorem Store.depth_setMember (s : Store) (object : Instance) (name : String) (value : Value) :
    (s.setMember object name value).depth = s.depth := by
  unfold setMember
  split <;> rfl

variable {α β : Type} {limit : Nat} {trace : Trace} {span : Span}

/-- Evaluations that do the same, and at their end leave as many active calls as at their beginning,
if those are not more than `limit`. -/
def Eval.Balanced (limit : Nat) (x y : Eval α) : Prop :=
  ∀ depth ≤ limit, InStep Eq (Store.SameAt depth) Eq x y

namespace Eval.Balanced

variable {x y : Eval α} {f g : α → Eval β}

theorem eq (h : Balanced limit x y) {s : Store} (hs : s.depth ≤ limit) : x s = y s := by
  have hxy := h s.depth hs s s ⟨rfl, rfl⟩
  generalize x s = p, y s = q at hxy
  cases hxy with
  | ok result state => rw [result, state.1]
  | error cause state => rw [cause, state.1]

theorem depth_leaves (h : Balanced limit x y) {s : Store} (hs : s.depth ≤ limit) : (x.leaves s).depth = s.depth := by
  have hxy := h s.depth hs s s ⟨rfl, rfl⟩
  unfold leaves
  generalize x s = p, y s = q at hxy
  cases hxy with
  | ok _ state => exact state.2
  | error _ state => exact state.2

theorem modifyGet {f : Store → α × Store} (h : ∀ s, (f s).2.depth = s.depth) :
    Balanced limit (modifyGet f) (modifyGet f) := by
  refine fun depth _ => .modifyGet ?_
  rintro s _ ⟨rfl, hs⟩
  exact ⟨rfl, rfl, (h s).trans hs⟩

theorem modify {f : Store → Store} (h : ∀ s, (f s).depth = s.depth) : Balanced limit (modify f) (modify f) :=
  modifyGet h

theorem bind (h : Balanced limit x y) (next : ∀ a, Balanced limit (f a) (g a)) : Balanced limit (x >>= f) (y >>= g) :=
  fun depth hdepth => .bind (h depth hdepth) fun a _ hab => hab ▸ next a depth hdepth

theorem onHeap (action : Action α) : Balanced limit (onHeap trace span action) (onHeap trace span action) := by
  rintro depth _ s _ ⟨rfl, hs⟩
  unfold Eval.onHeap
  dsimp only
  cases action s.heap with
  | ok => exact .ok rfl ⟨rfl, hs⟩
  | error => exact .error rfl ⟨rfl, hs⟩

theorem onFrames (action : Scoping α) : Balanced limit (onFrames trace span action) (onFrames trace span action) := by
  rintro depth _ s _ ⟨rfl, hs⟩
  unfold Eval.onFrames
  dsimp only
  cases action s.frames with
  | ok => exact .ok rfl ⟨rfl, hs⟩
  | error => exact .error rfl ⟨rfl, hs⟩

/-- A call is within the limit when it is one level deeper than what is below the limit. -/
theorem guarded (h : Balanced limit x y) :
    Balanced limit (guarded limit trace span x) (guarded limit trace span y) := by
  rintro depth hdepth s _ ⟨rfl, rfl⟩
  unfold Eval.guarded
  split
  next hlt =>
    have hxy := h (s.depth + 1) hlt { s with depth := s.depth + 1 } _ ⟨rfl, rfl⟩
    generalize x { s with depth := s.depth + 1 } = p, y { s with depth := s.depth + 1 } = q at hxy
    cases hxy with
    | ok result state =>
      obtain ⟨rfl, hlevel⟩ := state
      exact .ok result ⟨rfl, by rw [hlevel, Nat.add_sub_cancel]⟩
    | error cause state =>
      obtain ⟨rfl, hlevel⟩ := state
      exact .error cause ⟨rfl, by rw [hlevel, Nat.add_sub_cancel]⟩
  next => exact .error rfl ⟨rfl, rfl⟩

/-- Nothing but a call changes the count of active calls, and a call restores it. -/
theorem full (limit : Nat) : FullCongruence limit fun _ _ => Balanced limit where
  pure _ := fun _ _ => .pure rfl
  throw _ := fun _ _ => .throw rfl
  bind := bind
  tryCatch h rescue := fun depth hdepth =>
    .tryCatch (h depth hdepth) fun i _ hij => hij ▸ rescue i depth hdepth
  get _ _ next := bind (fun _ _ => InStep.get.mono fun _ _ hs => hs.1) next
  onHeap _ _ := onHeap
  heap _ := modifyGet fun _ => rfl
  statics _ := modifyGet fun _ => rfl
  setMember object name value := modify fun s => s.depth_setMember object name value
  print _ := modify fun _ => rfl
  declare _ _ _ _ _ _ := onFrames _
  assign _ _ _ _ _ := onFrames _
  remove _ _ _ _ := onFrames _
  newFrame next := bind (modifyGet fun _ => rfl) next
  guarded _ _ := guarded
  addInstance _ := modifyGet fun _ => rfl
  putMember _ _ _ := modify fun _ => rfl

end Eval.Balanced

/-- Machines that differ only in how they evaluate nodes, and there only where too many calls are
active. -/
abbrev Machine.Balanced (m n : Machine) : Prop := Congruent (fun _ _ => Eval.Balanced n.limit) m n

end ScriptLang
