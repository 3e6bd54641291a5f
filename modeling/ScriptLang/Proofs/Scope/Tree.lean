import ScriptLang.Scope

/-! Trees of scopes, and what an operation on one of them can change. Main statement: in a frame a name
gets another binding only where it is declared while it stands for no constant, or where it is the
nearest binding that a scope sees and no constant. -/
namespace ScriptLang

variable {nearer farther : List FrameId}

namespace Frames

variable (fs : Frames) {id other : FrameId} {name : String}

@[simp]
theorem size_update (id : FrameId) (f : Frame → Frame) : (fs.update id f).all.size = fs.all.size :=
  Array.size_modify

/-- A change of one name in one frame is seen nowhere else. -/
theorem get?_update_of_ne {f : Frame → Frame} {changed : String}
    (hf : ∀ frame : Frame, name ≠ changed → (f frame).get? name = frame.get? name)
    (h : ¬(id = other ∧ name = changed)) : ((fs.update id f).frame other).get? name = (fs.frame other).get? name := by
  by_cases hid : id = other
  · subst hid
    by_cases hin : id.index < fs.all.size
    · rw [fs.frame_update_self f hin, hf _ fun hname => h ⟨rfl, hname⟩]
    · simp [update, frame, Array.getD_eq_getD_getElem?, hin]
  · rw [fs.frame_update_ne f hid]

variable {fs} {ids : List FrameId} {binding : Binding}

/-- The nearest binding of a name stands in the first frame that has one. -/
theorem nearest?_eq_some : fs.nearest? name ids = some (id, binding) ↔
    ∃ nearer farther, ids = nearer ++ id :: farther ∧
      (∀ i ∈ nearer, (fs.frame i).get? name = none) ∧ (fs.frame id).get? name = some binding := by
  induction ids with
  | nil => simp [nearest?]
  | cons first rest ih =>
    rw [nearest?]
    cases hfirst : (fs.frame first).get? name with
    | some found =>
      dsimp only
      constructor
      · rintro ⟨⟩
        exact ⟨[], rest, rfl, nofun, hfirst⟩
      · rintro ⟨nearer, farther, hids, hnearer, hid⟩
        cases nearer with
        | nil =>
          obtain ⟨rfl, rfl⟩ := List.cons.inj hids
          rw [hfirst] at hid
          rw [Option.some.inj hid]
        | cons i nearer =>
          obtain ⟨rfl, rfl⟩ := List.cons.inj hids
          have hnone := hnearer first (List.mem_cons_self ..)
          rw [hfirst] at hnone
          cases hnone
    | none =>
      dsimp only
      rw [ih]
      constructor
      · rintro ⟨nearer, farther, rfl, hnearer, hid⟩
        exact ⟨first :: nearer, farther, rfl, List.forall_mem_cons.mpr ⟨hfirst, hnearer⟩, hid⟩
      · rintro ⟨nearer, farther, hids, hnearer, hid⟩
        cases nearer with
        | nil =>
          obtain ⟨rfl, rfl⟩ := List.cons.inj hids
          rw [hfirst] at hid
          cases hid
        | cons i nearer =>
          obtain ⟨rfl, rfl⟩ := List.cons.inj hids
          exact ⟨nearer, farther, rfl, (List.forall_mem_cons.mp hnearer).2, hid⟩

/-- Frames without a name are passed over. -/
theorem nearest?_append (h : ∀ i ∈ nearer, (fs.frame i).get? name = none) :
    fs.nearest? name (nearer ++ farther) = fs.nearest? name farther := by
  induction nearer with
  | nil => rfl
  | cons i nearer ih =>
    obtain ⟨hi, hnearer⟩ := List.forall_mem_cons.mp h
    rw [List.cons_append, nearest?, hi]
    exact ih hnearer

/-- Where the frames hold the same of a name, up to the one that has it, it is found there again. -/
theorem nearest?_eq_of_same {gs : Frames} (h : fs.nearest? name ids = some (id, binding))
    (hsame : ∀ i farther nearer, ids = nearer ++ i :: farther →
      (∀ j ∈ nearer, (fs.frame j).get? name = none) →
      (gs.frame i).get? name = (fs.frame i).get? name) :
    gs.nearest? name ids = some (id, binding) := by
  obtain ⟨nearer, farther, rfl, hnearer, hid⟩ := nearest?_eq_some.mp h
  refine nearest?_eq_some.mpr ⟨nearer, farther, rfl, fun i hi => ?_, ?_⟩
  · obtain ⟨first, last, rfl⟩ := List.append_of_mem hi
    rw [hsame i (last ++ id :: farther) first (by simp) fun j hj => hnearer j (by simp [hj])]
    exact hnearer i hi
  · rw [hsame id farther nearer rfl hnearer, hid]

end Frames

namespace Scoping

variable {α : Type}

def leaves (action : Scoping α) (fs : Frames) : Frames :=
  match action fs with
  | .ok _ fs => fs
  | .error _ fs => fs

variable (scope : Scope) (name : String) (value : Value) (fs : Frames)

theorem leaves_declare (isConstant : Bool) : leaves (declare scope name value isConstant) fs =
    if fs.isConstant scope name then fs
    else fs.update scope.own (·.put name ⟨value, isConstant⟩) := by
  change leaves (if fs.isConstant scope name then throw _ >>= _ else _) fs = _
  split <;> rfl

/-- What an action leaves that changes the nearest binding of a name, unless it is a constant. -/
def nearestChanged (f : Frame → Frame) : Frames :=
  match fs.nearest? name scope.frames with
  | none => fs
  | some (id, binding) => if binding.isConstant then fs else fs.update id f

/-- How such an action ends. -/
def changing (answer : Binding → α) (f : Frame → Frame) : EStateM.Result EvalCause Frames α :=
  match fs.nearest? name scope.frames with
  | none => .error (.undefinedVariable name) fs
  | some (id, binding) =>
    if binding.isConstant then .error (.constantReassignment name) fs else .ok (answer binding) (fs.update id f)

theorem assign_eq : assign scope name value fs = changing scope name fs (fun _ => ()) (·.put name ⟨value, false⟩) := by
  unfold changing
  change (match fs.nearest? name scope.frames with
    | none => throw _
    | some (id, binding) => _ : Scoping Unit) fs = _
  cases fs.nearest? name scope.frames with
  | none => rfl
  | some found =>
    dsimp only
    split <;> rfl

theorem remove_eq : remove scope name fs = changing scope name fs (·.value) (·.erase name) := by
  unfold changing
  change (match fs.nearest? name scope.frames with
    | none => throw _
    | some (id, binding) => _ : Scoping Value) fs = _
  cases fs.nearest? name scope.frames with
  | none => rfl
  | some found =>
    dsimp only
    split <;> rfl

private theorem leaves_of_changing {action : Scoping α} {answer : Binding → α} {f : Frame → Frame}
    (h : action fs = changing scope name fs answer f) : leaves action fs = nearestChanged scope name fs f := by
  rw [leaves, h, changing, nearestChanged]
  cases fs.nearest? name scope.frames with
  | none => rfl
  | some found =>
    dsimp only
    cases found.2.isConstant <;> rfl

theorem leaves_assign : leaves (assign scope name value) fs =
    nearestChanged scope name fs (·.put name ⟨value, false⟩) :=
  leaves_of_changing _ _ _ (assign_eq ..)

theorem leaves_remove : leaves (remove scope name) fs = nearestChanged scope name fs (·.erase name) :=
  leaves_of_changing _ _ _ (remove_eq ..)

end Scoping

/-- What can be done with a scope, but to make one inside of it. -/
inductive ScopeUse where
  | lookup (name : String)
  | declare (name : String) (value : Value) (isConstant : Bool)
  | assign (name : String) (value : Value)
  | remove (name : String)

def ScopeUse.leaves (scope : Scope) (fs : Frames) : ScopeUse → Frames
  | lookup _ => fs
  | declare name value isConstant => Scoping.leaves (.declare scope name value isConstant) fs
  | assign name value => Scoping.leaves (.assign scope name value) fs
  | remove name => Scoping.leaves (.remove scope name) fs

/-- Where a scope can be used to bind a name anew: in the scope's own frame, if the name stands for no
constant, or where the nearest binding of the name is, if that is no constant. -/
def Frames.Open (fs : Frames) (scope : Scope) (name : String) (id : FrameId) : Prop :=
  id = scope.own ∧ fs.isConstant scope name = false ∨
    ∃ binding, fs.nearest? name scope.frames = some (id, binding) ∧ binding.isConstant = false

/-- What a use of a scope can do to the frames: nothing, or bind one name anew where it is open. -/
inductive Frames.Used (scope : Scope) (fs : Frames) : Frames → Prop
  | none : Used scope fs fs
  | changed {name id f} (isOpen : fs.Open scope name id)
      (only : ∀ other (frame : Frame), other ≠ name → (f frame).get? other = frame.get? other) :
      Used scope fs (fs.update id f)

namespace ScopeUse

variable (scope : Scope) (fs : Frames)

private theorem used_nearestChanged {name : String} {f : Frame → Frame}
    (only : ∀ other (frame : Frame), other ≠ name → (f frame).get? other = frame.get? other) :
    Frames.Used scope fs (Scoping.nearestChanged scope name fs f) := by
  unfold Scoping.nearestChanged
  split
  next => exact .none
  next id binding hnearest =>
    split
    next => exact .none
    next hconstant => exact .changed (.inr ⟨binding, hnearest, by simpa using hconstant⟩) only

theorem used (use : ScopeUse) : Frames.Used scope fs (use.leaves scope fs) := by
  cases use with
  | lookup name => exact .none
  | declare name value isConstant =>
    rw [leaves, Scoping.leaves_declare]
    split
    next => exact .none
    next hconstant =>
      refine .changed (.inl ⟨rfl, by simpa using hconstant⟩) fun other frame hne => ?_
      exact Table.get?_put_ne hne.symm _ frame
  | assign name value =>
    rw [leaves, Scoping.leaves_assign]
    exact used_nearestChanged scope fs fun other frame hne => Table.get?_put_ne hne.symm _ frame
  | remove name =>
    rw [leaves, Scoping.leaves_remove]
    exact used_nearestChanged scope fs fun other frame hne => Table.get?_erase_ne hne.symm frame

end ScopeUse

namespace Frames.Used

variable {scope : Scope} {fs gs : Frames}

theorem size_eq (h : Used scope fs gs) : gs.all.size = fs.all.size := by
  cases h with
  | none => rfl
  | changed => exact fs.size_update _ _

/-- Where a name is not open, it stays bound as it is. -/
theorem get?_eq (h : Used scope fs gs) {name : String} {id : FrameId}
    (hclosed : ¬fs.Open scope name id) : (gs.frame id).get? name = (fs.frame id).get? name := by
  cases h with
  | none => rfl
  | changed isOpen only =>
    refine fs.get?_update_of_ne (fun frame => only name frame) ?_
    rintro ⟨rfl, rfl⟩
    exact hclosed isOpen

end Frames.Used

/-- Scopes by number, with the frames that they see. Each has a frame of its own, which has the same
number, and is an outermost one or stands inside of one that was there before it. -/
structure ScopeTree where
  frames : Frames
  scopes : Array Scope
  size_eq : scopes.size = frames.all.size
  own_eq : ∀ {i : Nat} {scope : Scope}, scopes[i]? = some scope → scope.own = ⟨i⟩
  outer_eq : ∀ {i : Nat} {scope : Scope}, scopes[i]? = some scope → scope.outer = [] ∨
    ∃ j < i, ∃ parent : Scope, scopes[j]? = some parent ∧ scope.outer = parent.frames

inductive ScopeOp where
  | child (scope : Nat)
  | use (scope : Nat) (use : ScopeUse)

namespace ScopeTree

/-- What is there stays in its place when something is added behind it. -/
theorem getElem?_push_of_some {scopes : Array Scope} {i : Nat} {scope : Scope}
    (h : scopes[i]? = some scope) (new : Scope) : (scopes.push new)[i]? = some scope := by
  have hi : i < scopes.size := (Array.getElem?_eq_some_iff.mp h).1
  rw [Array.getElem?_push, if_neg (Nat.ne_of_lt hi), h]

def root : ScopeTree where
  frames := ⟨#[[]]⟩
  scopes := #[⟨⟨0⟩, []⟩]
  size_eq := rfl
  own_eq {i scope} h := by
    cases i with
    | zero =>
      cases h
      rfl
    | succ i => cases h
  outer_eq {i scope} h := by
    cases i with
    | zero =>
      cases h
      exact .inl rfl
    | succ i => cases h

def withFrames (t : ScopeTree) (frames : Frames) (h : frames.all.size = t.frames.all.size) :
    ScopeTree where
  frames
  scopes := t.scopes
  size_eq := t.size_eq.trans h.symm
  own_eq := t.own_eq
  outer_eq := t.outer_eq

def withChild (t : ScopeTree) {i : Nat} {parent : Scope} (h : t.scopes[i]? = some parent) :
    ScopeTree where
  frames := Scoping.leaves (.inner parent) t.frames
  scopes := t.scopes.push (parent.inner t.frames.add.1)
  size_eq := by
    change _ = t.frames.add.2.all.size
    simp [Frames.add, t.size_eq]
  own_eq {j scope} hj := by
    rw [Array.getElem?_push] at hj
    split at hj
    next hsize =>
      cases hj
      rw [hsize, t.size_eq]
      rfl
    next => exact t.own_eq hj
  outer_eq {j scope} hj := by
    have hi : i < t.scopes.size := (Array.getElem?_eq_some_iff.mp h).1
    rw [Array.getElem?_push] at hj
    split at hj
    next hsize =>
      cases hj
      exact .inr ⟨i, hsize ▸ hi, parent, getElem?_push_of_some h _, rfl⟩
    next =>
      refine (t.outer_eq hj).imp_right ?_
      rintro ⟨k, hk, grand, hgrand, houter⟩
      exact ⟨k, hk, grand, getElem?_push_of_some hgrand _, houter⟩

/-- Carries out an operation. There is nothing to do with a scope that the tree does not have. -/
def step (t : ScopeTree) : ScopeOp → ScopeTree
  | .child i =>
    match h : t.scopes[i]? with
    | some _ => t.withChild h
    | none => t
  | .use i use =>
    match t.scopes[i]? with
    | some scope => t.withFrames (use.leaves scope t.frames) (use.used scope t.frames).size_eq
    | none => t

def run (t : ScopeTree) (ops : List ScopeOp) : ScopeTree := ops.foldl step t

/-- The scope `i` finds a name in the frame `id`, bound as `binding`. -/
def Resolves (t : ScopeTree) (i : Nat) (name : String) (id : FrameId) (binding : Binding) : Prop :=
  ∃ scope, t.scopes[i]? = some scope ∧ t.frames.nearest? name scope.frames = some (id, binding)

/-- The scope `j` was made as a scope inside of `i`. -/
def IsChild (t : ScopeTree) (i j : Nat) : Prop :=
  ∃ parent scope, t.scopes[i]? = some parent ∧ t.scopes[j]? = some scope ∧
    scope.outer = parent.frames

/-- The scopes from the number `since` on that were made inside of `i`, or inside of one of them. -/
inductive Below (t : ScopeTree) (since i : Nat) : Nat → Prop
  | child {j} (new : since ≤ j) (h : t.IsChild i j) : Below t since i j
  | deeper {j k} (parent : Below t since i j) (new : since ≤ k) (h : t.IsChild j k) : Below t since i k

variable {t : ScopeTree}

inductive Stepped (t : ScopeTree) : ScopeTree → Prop
  | none : Stepped t t
  | grown {i : Nat} {parent : Scope} (h : t.scopes[i]? = some parent) : Stepped t (t.withChild h)
  | used {i : Nat} {scope : Scope} {frames : Frames} (h : t.scopes[i]? = some scope)
      (used : t.frames.Used scope frames) : Stepped t (t.withFrames frames used.size_eq)

theorem stepped (t : ScopeTree) (op : ScopeOp) : t.Stepped (t.step op) := by
  cases op with
  | child i =>
    rw [step]
    split
    next h => exact .grown h
    next => exact .none
  | use i use =>
    rw [step]
    split
    next h => exact .used h (use.used _ _)
    next => exact .none

/-- From each frame that a scope sees on, it sees what the scope with that frame sees. -/
theorem frames_suffix {i : Nat} {scope : Scope} {id : FrameId}
    (h : t.scopes[i]? = some scope) (hframes : scope.frames = nearer ++ id :: farther) :
    ∃ owner, t.scopes[id.index]? = some owner ∧ owner.frames = id :: farther := by
  induction i using Nat.strongRecOn generalizing scope nearer with
  | ind i ih =>
    cases nearer with
    | nil =>
      obtain ⟨hown, -⟩ := List.cons.inj hframes
      refine ⟨scope, ?_, hframes⟩
      rw [← hown, t.own_eq h]
      exact h
    | cons first nearer =>
      obtain ⟨-, houter⟩ := List.cons.inj hframes
      rcases t.outer_eq h with hnil | ⟨j, hj, parent, hparent, hframes⟩
      · rw [hnil] at houter
        cases nearer <;> cases houter
      · exact ih j hj hparent (hframes.symm.trans houter)

end ScopeTree

end ScriptLang
