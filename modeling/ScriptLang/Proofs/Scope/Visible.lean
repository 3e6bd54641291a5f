import ScriptLang.Proofs.Scope.Tree

/-! Where writes to variables are seen. Main statement: a write changes what is found for one name, in
those scopes only that find the binding it made, changed or took away, and a write that fails changes
nothing. -/
namespace ScriptLang

variable {f : Frame → Frame} {binding : Binding}

namespace Frames

variable {fs gs : Frames} {name : String} {id : FrameId} {ids nearer farther : List FrameId}

def next? (fs : Frames) (name : String) : List FrameId → Option (FrameId × Binding)
  | [] => none
  | id :: rest =>
    match (fs.frame id).get? name with
    | some _ => fs.nearest? name rest
    | none => next? fs name rest

def Comes (fs : Frames) (name : String) (ids : List FrameId) (id : FrameId) : Prop :=
  ∃ nearer farther, ids = nearer ++ id :: farther ∧ ∀ i ∈ nearer, (fs.frame i).get? name = none

def SameBut (id : FrameId) (name : String) (fs gs : Frames) : Prop :=
  ∀ other key, ¬(id = other ∧ key = name) → (gs.frame other).get? key = (fs.frame other).get? key

theorem nearest?_congr (h : ∀ i ∈ ids, (gs.frame i).get? name = (fs.frame i).get? name) :
    gs.nearest? name ids = fs.nearest? name ids := by
  induction ids with
  | nil => rfl
  | cons first rest ih =>
    obtain ⟨hfirst, hrest⟩ := List.forall_mem_cons.mp h
    rw [nearest?, nearest?, hfirst, ih hrest]

theorem next?_append (hnearer : ∀ i ∈ nearer, (fs.frame i).get? name = none)
    (hid : (fs.frame id).get? name = some binding) :
    fs.next? name (nearer ++ id :: farther) = fs.nearest? name farther := by
  induction nearer with
  | nil => simp only [List.nil_append, next?, hid]
  | cons first nearer ih =>
    obtain ⟨hfirst, hnearer⟩ := List.forall_mem_cons.mp hnearer
    rw [List.cons_append, next?, hfirst]
    exact ih hnearer

theorem comes_iff (hid : (fs.frame id).get? name = some binding) :
    fs.Comes name ids id ↔ fs.nearest? name ids = some (id, binding) := by
  rw [nearest?_eq_some]
  constructor
  · rintro ⟨nearer, farther, hids, hnearer⟩
    exact ⟨nearer, farther, hids, hnearer, hid⟩
  · rintro ⟨nearer, farther, hids, hnearer, -⟩
    exact ⟨nearer, farther, hids, hnearer⟩

namespace SameBut

variable (h : SameBut id name fs gs)

include h

theorem nearest?_other {other : String} (hne : other ≠ name) : gs.nearest? other ids = fs.nearest? other ids :=
  nearest?_congr fun i _ => h i other fun hsame => hne hsame.2

/-- Who does not come as far as the changed frame finds what was found before. -/
theorem nearest?_of_not_comes (hnot : ¬fs.Comes name ids id) : gs.nearest? name ids = fs.nearest? name ids := by
  induction ids with
  | nil => rfl
  | cons first rest ih =>
    have hfirst : id ≠ first := by
      rintro rfl
      exact hnot ⟨[], rest, rfl, nofun⟩
    rw [nearest?, nearest?, h first name fun hsame => hfirst hsame.1]
    cases hget : (fs.frame first).get? name with
    | some binding => rfl
    | none =>
      refine ih ?_
      rintro ⟨nearer, farther, rfl, hnearer⟩
      exact hnot ⟨first :: nearer, farther, rfl, List.forall_mem_cons.mpr ⟨hget, hnearer⟩⟩

/-- Who does come there finds what the frame now has, or else what lies behind it. -/
theorem nearest?_of_comes (hids : (nearer ++ id :: farther).Nodup)
    (hnearer : ∀ i ∈ nearer, (fs.frame i).get? name = none) :
    gs.nearest? name (nearer ++ id :: farther) =
      match (gs.frame id).get? name with
      | some binding => some (id, binding)
      | none => fs.nearest? name farther := by
  obtain ⟨-, hbehind, hapart⟩ := List.nodup_append.mp hids
  have hfree : ∀ i ∈ nearer, (gs.frame i).get? name = none := by
    intro i hi
    rw [h i name fun hsame => hapart i hi id List.mem_cons_self hsame.1.symm, hnearer i hi]
  rw [nearest?_append hfree, nearest?]
  cases (gs.frame id).get? name with
  | some binding => rfl
  | none =>
    refine nearest?_congr fun i hi => h i name ?_
    rintro ⟨rfl, -⟩
    exact (List.nodup_cons.mp hbehind).1 hi

end SameBut

theorem sameBut_update (only : ∀ other (frame : Frame), other ≠ name → (f frame).get? other = frame.get? other) :
    SameBut id name fs (fs.update id f) :=
  fun _ key hnot => fs.get?_update_of_ne (only key) hnot

def Distinct (fs : Frames) : Prop := ∀ id, ((fs.frame id).map (·.1)).Nodup

section

variable (h : fs.Distinct) (hf : ∀ frame : Frame, (frame.map (·.1)).Nodup → ((f frame).map (·.1)).Nodup)

include h hf

theorem Distinct.update (id : FrameId) : (fs.update id f).Distinct := by
  intro other
  by_cases hid : id = other
  · subst hid
    by_cases hin : id.index < fs.all.size
    · rw [fs.frame_update_self f hin]
      exact hf _ (h id)
    · have hsame : (fs.update id f).frame id = fs.frame id := by
        simp [Frames.update, frame, Array.getD_eq_getD_getElem?, hin]
      rw [hsame]
      exact h id
  · rw [fs.frame_update_ne f hid]
    exact h other

theorem Distinct.nearestChanged (scope : Scope) : (Scoping.nearestChanged scope name fs f).Distinct := by
  unfold Scoping.nearestChanged
  split
  · exact h
  · split
    · exact h
    · exact h.update hf _

end

theorem Distinct.leaves (h : fs.Distinct) (scope : Scope) (use : ScopeUse) : (use.leaves scope fs).Distinct := by
  cases use with
  | lookup name => exact h
  | declare name value isConstant =>
    rw [ScopeUse.leaves, Scoping.leaves_declare]
    split
    · exact h
    · exact h.update (fun frame hframe => Table.names_put_nodup name hframe _) _
  | assign name value =>
    rw [ScopeUse.leaves, Scoping.leaves_assign]
    exact h.nearestChanged (fun frame hframe => Table.names_put_nodup name hframe _) scope
  | remove name =>
    rw [ScopeUse.leaves, Scoping.leaves_remove]
    exact h.nearestChanged (fun frame hframe => Table.names_erase_nodup name hframe) scope

end Frames

namespace ScopeTree

variable {t : ScopeTree} {name : String} {i j : Nat} {scope : Scope} {id : FrameId}

theorem distinct_step (h : t.frames.Distinct) (op : ScopeOp) : (t.step op).frames.Distinct := by
  cases op with
  | child i =>
    rw [step]
    split
    · intro id
      change ((t.frames.add.2.frame id).map (·.1)).Nodup
      rw [t.frames.frame_add]
      exact h id
    · exact h
  | use i use =>
    rw [step]
    split
    · exact h.leaves _ use
    · exact h

theorem distinct_run (h : t.frames.Distinct) (ops : List ScopeOp) : (t.run ops).frames.Distinct := by
  induction ops generalizing t with
  | nil => exact h
  | cons op ops ih => exact ih (distinct_step h op)

theorem distinct_root : root.frames.Distinct := by
  intro id
  have hempty : root.frames.frame id = [] := by
    cases hid : id.index <;> simp [root, Frames.frame, Array.getD_eq_getD_getElem?, hid]
  rw [hempty]
  exact List.nodup_nil

/-- A scope sees only frames that are older than its own. -/
theorem index_lt_of_mem_outer (h : t.scopes[i]? = some scope) (hid : id ∈ scope.outer) : id.index < i := by
  induction i using Nat.strongRecOn generalizing scope with
  | ind i ih =>
    rcases t.outer_eq h with hnil | ⟨j, hj, parent, hparent, houter⟩
    · rw [hnil] at hid
      cases hid
    · rw [houter] at hid
      rcases List.mem_cons.mp hid with rfl | hid
      · rw [t.own_eq hparent]
        exact hj
      · exact Nat.lt_trans (ih j hj hparent hid) hj

theorem frames_nodup (h : t.scopes[i]? = some scope) : scope.frames.Nodup := by
  induction i using Nat.strongRecOn generalizing scope with
  | ind i ih =>
    refine List.nodup_cons.mpr ⟨fun hmem => ?_, ?_⟩
    · have hlt := index_lt_of_mem_outer h hmem
      rw [t.own_eq h] at hlt
      exact Nat.lt_irrefl i hlt
    · rcases t.outer_eq h with hnil | ⟨j, hj, parent, hparent, houter⟩
      · rw [hnil]
        exact List.nodup_nil
      · rw [houter]
        exact ih j hj hparent

/-- The scope `i`, and the scopes below it for which no scope on the way up to `i` binds the name. -/
inductive Sees (t : ScopeTree) (name : String) (i : Nat) : Nat → Prop
  | self : Sees t name i i
  | child {j k} (parent : Sees t name i j) (h : t.IsChild j k)
      (free : (t.frames.frame ⟨k⟩).get? name = none) : Sees t name i k

theorem Sees.comes (h : t.Sees name i j) (hj : t.scopes[j]? = some scope) : t.frames.Comes name scope.frames ⟨i⟩ := by
  induction h generalizing scope with
  | self =>
    refine ⟨[], scope.outer, ?_, nofun⟩
    rw [Scope.frames, t.own_eq hj]
    rfl
  | child _ hchild hfree ih =>
    obtain ⟨parent, inner, hparent, hinner, houter⟩ := hchild
    cases hinner.symm.trans hj
    obtain ⟨nearer, farther, hframes, hnearer⟩ := ih hparent
    refine ⟨scope.own :: nearer, farther, ?_, List.forall_mem_cons.mpr ⟨?_, hnearer⟩⟩
    · rw [Scope.frames, houter, hframes]
      rfl
    · rw [t.own_eq hj]
      exact hfree

theorem sees_of_comes (hj : t.scopes[j]? = some scope) (h : t.frames.Comes name scope.frames ⟨i⟩) :
    t.Sees name i j := by
  induction j using Nat.strongRecOn generalizing scope with
  | ind j ih =>
    obtain ⟨nearer, farther, hframes, hnearer⟩ := h
    cases nearer with
    | nil =>
      have hown : (⟨j⟩ : FrameId) = ⟨i⟩ := (t.own_eq hj).symm.trans (List.cons.inj hframes).1
      cases hown
      exact .self
    | cons first nearer =>
      obtain ⟨rfl, houter⟩ := List.cons.inj hframes
      obtain ⟨hfree, hnearer⟩ := List.forall_mem_cons.mp hnearer
      rcases t.outer_eq hj with hnil | ⟨k, hk, parent, hparent, hparents⟩
      · rw [hnil] at houter
        cases nearer <;> cases houter
      · have hsees := ih k hk hparent ⟨nearer, farther, hparents.symm.trans houter, hnearer⟩
        refine hsees.child ⟨parent, scope, hparent, hj, hparents⟩ ?_
        rw [← t.own_eq hj]
        exact hfree

/-- Scopes for which a name stands for one and the same binding. -/
def Shares (t : ScopeTree) (name : String) (i j : Nat) : Prop :=
  ∃ id binding, t.Resolves i name id binding ∧ t.Resolves j name id binding

/-- A write to a name: it fails exactly if it is refused, and then leaves all frames as they are. If it
succeeds, the scopes that are to see it find something else for the name. All other scopes find what they
found before, and so does every scope for other names. What is found decides what a lookup gives. -/
structure Writes {α : Type} (t : ScopeTree) (action : Scoping α) (name : String) (refused : Prop)
    (seen : Nat → Prop) (found : Scope → Option (FrameId × Binding)) : Prop where
  error_iff : (∃ cause frames, action t.frames = .error cause frames) ↔ refused
  frames_eq : ∀ cause frames, action t.frames = .error cause frames → frames = t.frames
  nearest?_seen : ∀ a frames, action t.frames = .ok a frames →
    ∀ (j : Nat) (scope : Scope), t.scopes[j]? = some scope → seen j →
      frames.nearest? name scope.frames = found scope
  nearest?_unseen : ∀ a frames, action t.frames = .ok a frames →
    ∀ (j : Nat) (scope : Scope), t.scopes[j]? = some scope → ¬seen j →
      frames.nearest? name scope.frames = t.frames.nearest? name scope.frames
  nearest?_other : ∀ a frames, action t.frames = .ok a frames →
    ∀ (j : Nat) (scope : Scope), t.scopes[j]? = some scope → ∀ other, other ≠ name →
      frames.nearest? other scope.frames = t.frames.nearest? other scope.frames

namespace Writes

variable {α : Type} {action : Scoping α} {refused : Prop} {seen : Nat → Prop}
  {found : Scope → Option (FrameId × Binding)}

theorem of_error {cause : EvalCause} (hrefused : refused)
    (herror : action t.frames = .error cause t.frames) : t.Writes action name refused seen found where
  error_iff := ⟨fun _ => hrefused, fun _ => ⟨cause, _, herror⟩⟩
  frames_eq _ _ h := by
    rw [herror] at h
    cases h
    rfl
  nearest?_seen _ _ h := by
    rw [herror] at h
    cases h
  nearest?_unseen _ _ h := by
    rw [herror] at h
    cases h
  nearest?_other _ _ h := by
    rw [herror] at h
    cases h

/-- A write in one frame is seen by those who come as far as that frame. -/
theorem of_ok {a : α} {frames : Frames} (hallowed : ¬refused)
    (hok : action t.frames = .ok a frames) (hsame : Frames.SameBut id name t.frames frames)
    (hseen : ∀ (j : Nat) (scope : Scope), t.scopes[j]? = some scope →
      (seen j ↔ t.frames.Comes name scope.frames id))
    (hfound : ∀ (scope : Scope) (nearer farther : List FrameId), scope.frames = nearer ++ id :: farther →
      (∀ k ∈ nearer, (t.frames.frame k).get? name = none) → found scope =
        match (frames.frame id).get? name with
        | some binding => some (id, binding)
        | none => t.frames.nearest? name farther) :
    t.Writes action name refused seen found where
  error_iff := by
    rw [hok]
    exact ⟨nofun, fun h => absurd h hallowed⟩
  frames_eq _ _ h := by
    rw [hok] at h
    cases h
  nearest?_seen _ _ h j scope hj hsees := by
    rw [hok] at h
    cases h
    obtain ⟨nearer, farther, hframes, hnearer⟩ := (hseen j scope hj).mp hsees
    have hnodup := frames_nodup hj
    rw [hfound scope nearer farther hframes hnearer]
    rw [hframes] at hnodup ⊢
    exact hsame.nearest?_of_comes hnodup hnearer
  nearest?_unseen _ _ h j scope hj hsees := by
    rw [hok] at h
    cases h
    exact hsame.nearest?_of_not_comes (mt (hseen j scope hj).mpr hsees)
  nearest?_other _ _ h j scope _ other hne := by
    rw [hok] at h
    cases h
    exact hsame.nearest?_other hne

end Writes

def Unbound (t : ScopeTree) (i : Nat) (name : String) : Prop :=
  ∀ id binding, ¬t.Resolves i name id binding

def Fixed (t : ScopeTree) (i : Nat) (name : String) : Prop :=
  ∃ id value, t.Resolves i name id ⟨value, true⟩

section Using

variable (hi : t.scopes[i]? = some scope)

include hi

theorem resolves_iff : t.Resolves i name id binding ↔ t.frames.nearest? name scope.frames = some (id, binding) := by
  constructor
  · rintro ⟨other, hother, hfound⟩
    cases hi.symm.trans hother
    exact hfound
  · exact fun hfound => ⟨scope, hi, hfound⟩

theorem fixed_iff : t.Fixed i name ↔ t.frames.isConstant scope name = true := by
  simp only [Fixed, resolves_iff hi, Frames.isConstant]
  cases t.frames.nearest? name scope.frames with
  | none => simp
  | some found =>
    obtain ⟨id, value, isConstant⟩ := found
    simp

theorem own_lt : scope.own.index < t.frames.all.size := by
  rw [t.own_eq hi, ← t.size_eq]
  exact (Array.getElem?_eq_some_iff.mp hi).1

theorem declare_writes (value : Value) (isConstant : Bool) :
    t.Writes (.declare scope name value isConstant) name (t.Fixed i name) (t.Sees name i)
      fun _ => some (scope.own, ⟨value, isConstant⟩) := by
  have hrun : Scoping.declare scope name value isConstant t.frames =
      if t.frames.isConstant scope name then .error (.constantReassignment name) t.frames
      else .ok () (t.frames.update scope.own (·.put name ⟨value, isConstant⟩)) := by
    change (if t.frames.isConstant scope name then throw _ >>= _ else _ : Scoping Unit) _ = _
    split <;> rfl
  by_cases hfixed : t.frames.isConstant scope name
  · rw [if_pos hfixed] at hrun
    exact .of_error ((fixed_iff hi).mpr hfixed) hrun
  · rw [if_neg hfixed] at hrun
    refine .of_ok (mt (fixed_iff hi).mp hfixed) hrun
      (Frames.sameBut_update fun other frame hne => Table.get?_put_ne hne.symm _ frame) ?_ ?_
    · intro j inner hj
      rw [t.own_eq hi]
      exact ⟨fun hsees => hsees.comes hj, sees_of_comes hj⟩
    · intro inner nearer farther hframes hnearer
      rw [t.frames.frame_update_self _ (own_lt hi), Table.get?_put_self]

/-- What holds of a write to the nearest binding of a name. -/
theorem nearest_writes {α : Type} {action : Scoping α} {answer : Binding → α}
    {found : Scope → Option (FrameId × Binding)}
    (hrun : action t.frames = Scoping.changing scope name t.frames answer f)
    (only : ∀ other (frame : Frame), other ≠ name → (f frame).get? other = frame.get? other)
    (hfound : ∀ (id : FrameId) (binding : Binding) (inner : Scope) (nearer farther : List FrameId),
      (t.frames.frame id).get? name = some binding → inner.frames = nearer ++ id :: farther →
      (∀ k ∈ nearer, (t.frames.frame k).get? name = none) → found inner =
        match (f (t.frames.frame id)).get? name with
        | some binding => some (id, binding)
        | none => t.frames.nearest? name farther) :
    t.Writes action name (t.Unbound i name ∨ t.Fixed i name) (t.Shares name i) found := by
  rw [Scoping.changing] at hrun
  cases hnearest : t.frames.nearest? name scope.frames with
  | none =>
    rw [hnearest] at hrun
    refine .of_error (.inl fun id binding hresolves => ?_) hrun
    rw [resolves_iff hi, hnearest] at hresolves
    cases hresolves
  | some nearest =>
    obtain ⟨id, binding⟩ := nearest
    rw [hnearest] at hrun
    dsimp only at hrun
    have hresolves : t.Resolves i name id binding := (resolves_iff hi).mpr hnearest
    obtain ⟨above, behind, hscope, -, hid⟩ := Frames.nearest?_eq_some.mp hnearest
    by_cases hconstant : binding.isConstant
    · rw [if_pos hconstant] at hrun
      refine .of_error (.inr ⟨id, binding.value, ?_⟩) hrun
      rwa [← hconstant]
    · rw [if_neg hconstant] at hrun
      obtain ⟨owner, howner, hframes⟩ := frames_suffix hi hscope
      have hin : id.index < t.frames.all.size := by
        have hlt := own_lt howner
        rwa [(List.cons.inj hframes).1] at hlt
      refine .of_ok ?_ hrun (Frames.sameBut_update only) ?_ ?_
      · rintro (hunbound | ⟨other, value, hother⟩)
        · exact hunbound id binding hresolves
        · rw [resolves_iff hi, hnearest] at hother
          cases hother
          exact hconstant rfl
      · intro j inner hj
        rw [Frames.comes_iff hid, ← resolves_iff hj]
        constructor
        · rintro ⟨other, shared, hiother, hjother⟩
          rw [resolves_iff hi, hnearest] at hiother
          cases hiother
          exact hjother
        · exact fun hjresolves => ⟨id, binding, hresolves, hjresolves⟩
      · intro inner nearer farther hframes hnearer
        rw [t.frames.frame_update_self _ hin]
        exact hfound id binding inner nearer farther hid hframes hnearer

theorem assign_writes (value : Value) :
    t.Writes (.assign scope name value) name (t.Unbound i name ∨ t.Fixed i name) (t.Shares name i)
      fun inner => (t.frames.nearest? name inner.frames).map fun (id, _) => (id, ⟨value, false⟩) := by
  refine nearest_writes hi (Scoping.assign_eq ..) (fun other frame hne => Table.get?_put_ne hne.symm _ frame) ?_
  intro id binding inner nearer farther hid hframes hnearer
  have hnearest : t.frames.nearest? name inner.frames = some (id, binding) :=
    Frames.nearest?_eq_some.mpr ⟨nearer, farther, hframes, hnearer, hid⟩
  rw [hnearest, Table.get?_put_self]
  rfl

theorem remove_writes (hdistinct : t.frames.Distinct) :
    t.Writes (.remove scope name) name (t.Unbound i name ∨ t.Fixed i name) (t.Shares name i)
      fun inner => t.frames.next? name inner.frames := by
  refine nearest_writes hi (Scoping.remove_eq ..) (fun other frame hne => Table.get?_erase_ne hne.symm frame) ?_
  intro id binding inner nearer farther hid hframes hnearer
  rw [Table.get?_erase_self name (hdistinct id), hframes, Frames.next?_append hnearer hid]

end Using

/-- To assign or remove a name fails exactly if the scope finds no binding of it or a constant, to declare it
exactly if it finds a constant. An assignment is seen in the scopes that share the binding, a declaration in the
scope and those below it up to other bindings. Behind a removal the scopes that shared the binding find the next
one. -/
theorem writes_seen (ops : List ScopeOp) {i : Nat} {scope : Scope}
    (hi : (root.run ops).scopes[i]? = some scope) (name : String) :
    let t := root.run ops
    (∀ value, t.Writes (.assign scope name value) name (t.Unbound i name ∨ t.Fixed i name)
      (t.Shares name i)
      fun inner => (t.frames.nearest? name inner.frames).map fun (id, _) => (id, ⟨value, false⟩)) ∧
    (∀ value isConstant, t.Writes (.declare scope name value isConstant) name (t.Fixed i name)
      (t.Sees name i) fun _ => some (scope.own, ⟨value, isConstant⟩)) ∧
    t.Writes (.remove scope name) name (t.Unbound i name ∨ t.Fixed i name) (t.Shares name i)
      fun inner => t.frames.next? name inner.frames :=
  ⟨assign_writes hi, declare_writes hi, remove_writes hi (distinct_run distinct_root ops)⟩

/-- A removal two scopes below uncovers the outermost binding for the scope whose own it took away. A scope
beside it had found that binding all along. -/
theorem writes_seen_uncovered :
    let t := root.run [.use 0 (.declare "x" (.boolean true) false), .child 0,
      .use 1 (.declare "x" .nothing false), .child 1, .child 0]
    let inner : Scope := ⟨⟨2⟩, [⟨1⟩, ⟨0⟩]⟩
    t.scopes[2]? = some inner ∧ ∃ frames, Scoping.remove inner "x" t.frames = .ok .nothing frames ∧
      frames.nearest? "x" [⟨1⟩, ⟨0⟩] = some (⟨0⟩, ⟨.boolean true, false⟩) ∧
      frames.nearest? "x" [⟨3⟩, ⟨0⟩] = some (⟨0⟩, ⟨.boolean true, false⟩) := by
  intro t inner
  have hinner : t.scopes[2]? = some inner := rfl
  obtain ⟨-, -, hremove⟩ := writes_seen _ hinner "x"
  have hshared : t.Shares "x" 2 1 := ⟨⟨1⟩, ⟨.nothing, false⟩, ⟨inner, rfl, rfl⟩, ⟨⟨⟨1⟩, [⟨0⟩]⟩, rfl, rfl⟩⟩
  have hapart : ¬t.Shares "x" 2 3 := by
    rintro ⟨id, binding, hid, hother⟩
    rw [resolves_iff hinner] at hid
    rw [resolves_iff (show t.scopes[3]? = some ⟨⟨3⟩, [⟨0⟩]⟩ from rfl)] at hother
    cases hid
    cases hother
  refine ⟨hinner, _, rfl, ?_, ?_⟩
  · exact hremove.nearest?_seen _ _ rfl 1 ⟨⟨1⟩, [⟨0⟩]⟩ rfl hshared
  · exact hremove.nearest?_unseen _ _ rfl 3 ⟨⟨3⟩, [⟨0⟩]⟩ rfl hapart

end ScopeTree

end ScriptLang
