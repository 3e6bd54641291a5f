import ScriptLang.Proofs.Congruence.Rule
import ScriptLang.Proofs.Scope.Tree

/-! Where names appear. Main statement: an evaluation binds new names in its own frame and in frames that it
makes, so no loop and no function adds a name to a scope that was there before. -/
namespace ScriptLang

namespace Frames

def Binds (fs : Frames) (id : FrameId) (name : String) : Prop := ((fs.frame id).get? name).isSome

/-- Frames in which no name is newly bound, but in the frame `own` and in new ones. -/
structure Grown (own : Option FrameId) (fs gs : Frames) : Prop where
  size : fs.all.size ≤ gs.all.size
  binds : ∀ ⦃id⦄, id.index < fs.all.size → own ≠ some id → ∀ ⦃name⦄, gs.Binds id name → fs.Binds id name

variable {own : Option FrameId} {fs gs : Frames} {name : String} {scope : Scope}

namespace Grown

theorem refl (own : Option FrameId) (fs : Frames) : Grown own fs fs :=
  ⟨Nat.le_refl _, fun _ _ _ _ => id⟩

theorem trans {hs : Frames} (first : Grown own fs gs) (second : Grown own gs hs) : Grown own fs hs where
  size := Nat.le_trans first.size second.size
  binds _ hid hown _ hbinds :=
    first.binds hid hown (second.binds (Nat.lt_of_lt_of_le hid first.size) hown hbinds)

/-- A change of one name is allowed in the own frame, and where the name is bound already. -/
theorem update {id : FrameId} {f : Frame → Frame} (hname : own = some id ∨ fs.Binds id name)
    (only : ∀ other (frame : Frame), other ≠ name → (f frame).get? other = frame.get? other) :
    Grown own fs (fs.update id f) where
  size := Nat.le_of_eq (fs.size_update id f).symm
  binds i _ hown other hbinds := by
    by_cases hchanged : id = i ∧ other = name
    · obtain ⟨rfl, rfl⟩ := hchanged
      exact hname.resolve_left hown
    · rwa [Binds, fs.get?_update_of_ne (only other) hchanged] at hbinds

theorem declare (scope : Scope) (name : String) (value : Value) (isConstant : Bool) (fs : Frames) :
    Grown (some scope.own) fs (Scoping.leaves (.declare scope name value isConstant) fs) := by
  rw [Scoping.leaves_declare]
  split
  · exact refl _ _
  · exact update (.inl rfl) fun other frame hne => Table.get?_put_ne hne.symm _ frame

theorem nearestChanged (scope : Scope) {f : Frame → Frame}
    (only : ∀ other (frame : Frame), other ≠ name → (f frame).get? other = frame.get? other) :
    Grown own fs (Scoping.nearestChanged scope name fs f) := by
  unfold Scoping.nearestChanged
  split
  next => exact refl _ _
  next id binding hnearest =>
    split
    · exact refl _ _
    · obtain ⟨_, _, _, _, hbinding⟩ := nearest?_eq_some.mp hnearest
      exact update (.inr (Option.isSome_of_eq_some hbinding)) only

theorem assign (scope : Scope) (name : String) (value : Value) (fs : Frames) :
    Grown own fs (Scoping.leaves (.assign scope name value) fs) := by
  rw [Scoping.leaves_assign]
  exact nearestChanged scope fun other frame hne => Table.get?_put_ne hne.symm _ frame

theorem remove (scope : Scope) (name : String) (fs : Frames) :
    Grown own fs (Scoping.leaves (.remove scope name) fs) := by
  rw [Scoping.leaves_remove]
  exact nearestChanged scope fun other frame hne => Table.get?_erase_ne hne.symm frame

/-- What happens in a new frame is not seen in those that were there. -/
theorem of_add (h : Grown (some fs.add.1) fs.add.2 gs) : Grown own fs gs where
  size := by
    have hsize := h.size
    simp only [add, Array.size_push] at hsize
    exact Nat.le_of_succ_le hsize
  binds id hid _ name hbinds := by
    have hold : id.index < fs.add.2.all.size := by
      simp only [add, Array.size_push]
      exact Nat.lt_succ_of_lt hid
    have hnew : some fs.add.1 ≠ some id := fun heq => by
      cases heq
      exact Nat.lt_irrefl _ hid
    have hadded := h.binds hold hnew hbinds
    rwa [Binds, fs.frame_add] at hadded

end Grown

theorem isSome_nearest? {ids : List FrameId} : (fs.nearest? name ids).isSome ↔ ∃ id ∈ ids, fs.Binds id name := by
  induction ids with
  | nil => simp [nearest?]
  | cons first rest ih =>
    rw [nearest?]
    cases hfirst : (fs.frame first).get? name with
    | some binding => simp [Binds, hfirst]
    | none => simp [ih, Binds, hfirst]

theorem isSome_lookup? : (fs.lookup? scope name).isSome ↔ ∃ id ∈ scope.frames, fs.Binds id name := by
  rw [lookup?, Option.isSome_map, isSome_nearest?]

/-- A scope with a new frame of its own finds no more than the scope around it. -/
theorem isSome_of_lookup?_inner
    (h : (fs.add.2.lookup? (scope.inner fs.add.1) name).isSome) : (fs.lookup? scope name).isSome := by
  obtain ⟨id, hid, hbinds⟩ := isSome_lookup?.mp h
  rw [Binds, fs.frame_add] at hbinds
  rcases List.mem_cons.mp hid with rfl | hid
  · simp [Scope.inner, frame, add] at hbinds
  · exact isSome_lookup?.mpr ⟨id, hid, hbinds⟩

/-- Where no frame of a scope is exempt, the scope finds no more names than before. -/
theorem Grown.isSome_of_lookup? (h : Grown none fs gs) (hscope : ∀ id ∈ scope.frames, id.index < fs.all.size)
    (hname : (gs.lookup? scope name).isSome) : (fs.lookup? scope name).isSome := by
  obtain ⟨id, hid, hbinds⟩ := Frames.isSome_lookup?.mp hname
  exact Frames.isSome_lookup?.mpr ⟨id, hid, h.binds (hscope id hid) nofun hbinds⟩

end Frames

theorem Store.frames_setMember (s : Store) (object : Instance) (name : String) (value : Value) :
    (s.setMember object name value).frames = s.frames := by
  unfold setMember
  split <;> rfl

namespace Eval

/-- An evaluation that binds new names in one frame that is there, or in none. The second evaluation does not
matter. -/
def Confined : EvalRel := fun own _ x _ => ∀ s : Store, Frames.Grown own s.frames (x.leaves s).frames

namespace Confined

variable {α β : Type} {own : Option FrameId} {limit : Nat}

theorem bind {x y : Eval α} {f g : α → Eval β} (first : Confined own x y)
    (next : ∀ a, Confined own (f a) (g a)) : Confined own (x >>= f) (y >>= g) := by
  intro s
  have hfirst := first s
  rw [leaves] at hfirst
  rw [leaves_bind]
  cases hx : x s with
  | ok a t =>
    rw [hx] at hfirst
    exact hfirst.trans (next a t)
  | error i t =>
    rw [hx] at hfirst
    exact hfirst

theorem tryCatch {x y : Eval α} {c d : Interrupt → Eval α} (body : Confined own x y)
    (rescue : ∀ i, Confined own (c i) (d i)) : Confined own (tryCatch x c) (tryCatch y d) := by
  intro s
  have hbody := body s
  rw [leaves] at hbody
  rw [leaves_tryCatch]
  cases hx : x s with
  | ok a t =>
    rw [hx] at hbody
    exact hbody
  | error i t =>
    rw [hx] at hbody
    exact hbody.trans (rescue i t)

/-- What does not touch the frames binds no names. -/
theorem modifyGet {f : Store → α × Store} (h : ∀ s, (f s).2.frames = s.frames) (y : Eval α) :
    Confined own (modifyGet f) y := by
  intro s
  change Frames.Grown own s.frames (f s).2.frames
  rw [h s]
  exact .refl _ _

theorem onHeap (trace : Trace) (span : Span) (action : Action α) (y : Eval α) :
    Confined own (onHeap trace span action) y := by
  intro s
  unfold leaves Eval.onHeap
  dsimp only
  cases action s.heap <;> exact .refl _ _

theorem onFrames (trace : Trace) (span : Span) {action : Scoping α}
    (h : ∀ fs, Frames.Grown own fs (Scoping.leaves action fs)) (y : Eval α) :
    Confined own (onFrames trace span action) y := by
  intro s
  have hgrown := h s.frames
  unfold Scoping.leaves at hgrown
  unfold leaves Eval.onFrames
  dsimp only
  cases hrun : action s.frames with
  | ok a fs =>
    rw [hrun] at hgrown
    exact hgrown
  | error cause fs =>
    rw [hrun] at hgrown
    exact hgrown

theorem newFrame {f g : FrameId → Eval α} (next : ∀ id, Confined (some id) (f id) (g id)) :
    Confined own (newFrame >>= f) (Eval.newFrame >>= g) := fun s =>
  .of_add (next s.frames.add.1 { s with frames := s.frames.add.2 })

theorem guarded (trace : Trace) (span : Span) {x y : Eval α} (call : Confined own x y) :
    Confined own (guarded limit trace span x) (Eval.guarded limit trace span y) := by
  intro s
  rw [leaves_guarded]
  split
  · exact call { s with depth := s.depth + 1 }
  · exact .refl _ _

/-- Names are declared in the own frame only. -/
theorem full (limit : Nat) : FullCongruence limit Confined where
  pure _ := fun _ => .refl _ _
  throw _ := fun _ => .refl _ _
  bind := bind
  tryCatch := tryCatch
  get _ _ next := bind (y := MonadState.get) (fun _ => .refl _ _) next
  onHeap _ _ _ := onHeap _ _ _ _
  heap _ := modifyGet (fun _ => rfl) _
  statics _ := modifyGet (fun _ => rfl) _
  setMember object name value := modifyGet (fun s => s.frames_setMember object name value) _
  print _ := modifyGet (fun _ => rfl) _
  declare _ _ scope name value isConstant := onFrames _ _ (.declare scope name value isConstant) _
  assign _ _ scope name value := onFrames _ _ (.assign scope name value) _
  remove _ _ scope name := onFrames _ _ (.remove scope name) _
  newFrame := newFrame
  guarded := guarded
  addInstance _ := modifyGet (fun _ => rfl) _
  putMember _ _ _ := modifyGet (fun _ => rfl) _

end Confined

end Eval

/-- However it ends, an evaluation binds new names in no frame that was there but its own. A call, a new
instance and a turn of a loop bind none in any of them, so what a turn declares is not found by the next. -/
theorem new_names_confined (limit fuel : Nat) :
    let m : Machine := ⟨limit, fuel, evaluate limit fuel⟩
    (∀ node ctx (s : Store),
      Frames.Grown (some ctx.scope.own) s.frames ((evaluate limit fuel node ctx).leaves s).frames) ∧
    (∀ callee args span trace (s : Store),
      Frames.Grown none s.frames ((m.callValue callee args span trace).leaves s).frames) ∧
    (∀ cls args span trace (s : Store),
      Frames.Grown none s.frames ((m.construct cls args span trace).leaves s).frames) ∧
    ∀ label names body span ctx (s : Store),
      let frames := ((m.iteration label names body span ctx).leaves s).frames
      Frames.Grown none s.frames frames ∧
      ((∀ id ∈ ctx.scope.frames, id.index < s.frames.all.size) → ∀ name,
        (frames.add.2.lookup? (ctx.scope.inner frames.add.1) name).isSome →
          (s.frames.lookup? ctx.scope name).isSome) := by
  intro m
  have hfull := Eval.Confined.full limit
  have hmachine : Machine.Congruent Eval.Confined m m := ⟨rfl, rfl, hfull.evaluate fuel⟩
  refine ⟨fun node ctx => hfull.evaluate fuel node ctx,
    fun callee args _ _ => hmachine.callValue hfull.toCongruence callee args,
    fun cls args _ trace => hmachine.construct hfull cls args trace, ?_⟩
  intro label names body span ctx s frames
  have hgrown : Frames.Grown none s.frames frames :=
    hmachine.iteration hfull.toCongruence label names body s
  refine ⟨hgrown, fun hscope name hname => ?_⟩
  exact hgrown.isSome_of_lookup? hscope (Frames.isSome_of_lookup?_inner hname)

/-- In a new session, a turn that declares `x` leaves it in a frame that the next turn does not find. -/
theorem new_names_confined_between_turns :
    let s := (Session.new 9).store
    let scope := (Session.new 9).scope
    let body : Node := ⟨.declare "x" ⟨.boolean true, default⟩, default⟩
    let frames := (((Machine.mk 9 2 (evaluate 9 2)).iteration "<while>" [] body default
      ⟨⟨"<program>", []⟩, scope, none⟩).leaves s).frames
    (∀ id ∈ scope.frames, id.index < s.frames.all.size) ∧ frames.Binds ⟨1⟩ "x" ∧
      frames.add.2.lookup? (scope.inner frames.add.1) "x" = none := by
  intro s scope body frames
  have hscope : ∀ id ∈ scope.frames, id.index < s.frames.all.size := by decide
  have hunbound : (s.frames.lookup? scope "x").isSome = false := by decide
  refine ⟨hscope, Eq.refl true, ?_⟩
  have hturn := (new_names_confined 9 2).2.2.2 "<while>" [] body default ⟨⟨"<program>", []⟩, scope, none⟩ s
  rw [← Option.not_isSome_iff_eq_none]
  intro hfound
  exact Bool.false_ne_true (hunbound.symm.trans (hturn.2 hscope "x" hfound))

end ScriptLang
