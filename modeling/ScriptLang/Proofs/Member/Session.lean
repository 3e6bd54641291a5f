import ScriptLang.Proofs.Member.Moment

/-! Instances keep their shape. Main statement: from the moment when its properties are filled in, an instance
has those that the classes of its lineage declare, each as the nearest one declares it, at every moment of the
run and of all later inputs. -/
namespace ScriptLang

open Members (Onward Complete)

/-- An instance has the properties that its lineage declares, each with the owner and the visibility of the
nearest declaration. -/
structure Store.Shaped (s : Store) (object : Instance) : Prop where
  names : ∀ name, (s.member? object name).isSome ↔ ∃ cls ∈ object.cls.lineage,
    ∃ property ∈ cls.definition.properties, property.flags.isStatic = false ∧ property.name = name
  nearest : ∀ name member, s.member? object name = some member →
    ∃ property, object.cls.property? name = some (member.owner, property) ∧
      member.visibility = property.flags.visibility

theorem Members.Complete.shaped {s : Store} {object : Instance} (h : Complete s.members object) : s.Shaped object where
  names name := by
    have hlayout := congrArg Option.isSome (h.layout name)
    simp only [Members.layout, Class.layout, Option.isSome_map] at hlayout
    rw [Store.member?, hlayout, Class.isSome_property?]
    simp only [Class.isSome_ownProperty?]
  nearest name member hmember := by
    have hlayout := h.layout name
    rw [Members.layout, show (s.members.getD object.id []).get? name = some member from hmember] at hlayout
    obtain ⟨⟨owner, property⟩, hproperty, heq⟩ := Option.map_eq_some_iff.mp hlayout.symm
    obtain ⟨rfl, hvisibility⟩ := Prod.mk.inj heq
    exact ⟨property, hproperty, hvisibility.symm⟩

namespace Session

/-- The store where a run is stopped, or else the one that it leaves. -/
def storeAt (s : Session) (stops : Moment → Store → Bool) (fuel : Nat) (program : Program) : Store :=
  (s.executeBy (.through (Moment.halt stops)) fuel program).2.store

/-- All properties of an instance are filled in before a run is stopped: there is something that makes a
difference if it is done at that moment, and only then. -/
def Completes (s : Session) (stops : Moment → Store → Bool) (fuel : Nat) (program : Program)
    (object : Instance) : Prop :=
  ∃ step, (∀ moment, moment ≠ .seeded object → step moment = Moment.halt stops moment) ∧
    s.executeBy (.through step) fuel program ≠ s.executeBy (.through (Moment.halt stops)) fuel program

/-- The sessions in which an earlier input has made an instance with all its properties. -/
inductive Seeded (object : Instance) : Session → Prop
  | made {s : Session} {fuel : Nat} {program : Program}
      (h : s.Completes (fun _ _ => false) fuel program object) : Seeded object (s.execute fuel program).2
  | later {s : Session} (h : Seeded object s) (nextId fuel : Nat) (program : Program) :
      Seeded object ({ s with nextId }.execute fuel program).2

variable {object : Instance} {stops : Moment → Store → Bool} {step' step : Moment → Eval Unit}

theorem differ_halt (h : ∀ moment, moment ≠ .seeded object → step' moment = Moment.halt stops moment) :
    Moment.Differ object step' (Moment.halt stops) where
  idle moment s := by
    unfold Eval.leaves Moment.halt
    cases stops moment s <;> rfl
  same := h

variable (s : Session) (fuel : Nat) (program : Program)

/-- A run that is never stopped is the usual one. -/
theorem executeBy_halt_never :
    s.executeBy (.through (Moment.halt fun _ _ => false)) fuel program = s.execute fuel program := by
  have hidle : (Moment.halt fun _ _ => false) = fun _ => pure () := rfl
  rw [hidle, Rule.through_pure, executeBy_usual]

/-- What a run leaves behind is what its machine leaves behind. -/
theorem members_executeBy (rule : Rule) :
    (s.executeBy rule fuel program).2.store.members =
      (((⟨s.limit, fuel, evaluateBy rule s.limit fuel⟩ : Machine).program program
        ⟨⟨"<program>", []⟩, s.scope, none⟩).leaves s.store).members := by
  unfold executeBy Eval.leaves
  dsimp only
  cases Machine.program _ _ _ _ <;> rfl

/-- Of two runs that differ only in what they do when `object` is complete, the second one keeps the layout of
instances, and it completes `object` if the first one goes another way. -/
theorem executeBy_tracks (h : Moment.Differ object step' step) :
    Onward none s.store.members (s.executeBy (.through step) fuel program).2.store.members ∧
    (s.executeBy (.through step') fuel program = s.executeBy (.through step) fuel program ∨
      Complete (s.executeBy (.through step) fuel program).2.store.members object) := by
  let ctx : Context := ⟨⟨"<program>", []⟩, s.scope, none⟩
  have hmachine : Machine.Tracks object none ⟨s.limit, fuel, evaluateBy (.through step') s.limit fuel⟩
      ⟨s.limit, fuel, evaluateBy (.through step) s.limit fuel⟩ := ⟨rfl, rfl, evaluateBy_tracks h s.limit fuel⟩
  have hprogram : Eval.Tracks object none (some ctx.scope.own) _ _ :=
    hmachine.program (Eval.Tracks.congruence object none s.limit) program
  obtain ⟨honward, hsame⟩ := hprogram s.store nofun
  rw [members_executeBy]
  refine ⟨honward, hsame.imp (fun heq => ?_) And.right⟩
  rw [executeBy, heq]
  rfl

theorem onward_storeAt (object : Instance) (stops : Moment → Store → Bool) :
    Onward none s.store.members (s.storeAt stops fuel program).members := by
  have hdiffer : Moment.Differ object (Moment.halt stops) (Moment.halt stops) := differ_halt fun _ _ => rfl
  exact (executeBy_tracks s fuel program hdiffer).1

variable {s fuel program}

theorem Completes.complete (h : s.Completes stops fuel program object) :
    Complete (s.storeAt stops fuel program).members object := by
  obtain ⟨step, hstep, hdiffer⟩ := h
  exact (executeBy_tracks s fuel program (differ_halt hstep)).2.resolve_left hdiffer

theorem Seeded.complete (h : Seeded object s) : Complete s.store.members object := by
  induction h with
  | @made s fuel program h =>
    have hcomplete := h.complete
    rwa [storeAt, executeBy_halt_never] at hcomplete
  | @later s _ nextId fuel program ih =>
    have honward := onward_storeAt { s with nextId } fuel program object fun _ _ => false
    rw [storeAt, executeBy_halt_never] at honward
    exact ih.onward honward nofun

/-- A run that fails only if something is done when `object` is complete has made `object`. -/
theorem Seeded.of_stopped (hstep : ∀ moment, moment ≠ .seeded object → step moment = pure ())
    (hstopped : (s.executeBy (.through step) fuel program).1.outcome.toBool = false)
    (hends : (s.execute fuel program).1.outcome.toBool = true) : Seeded object (s.execute fuel program).2 := by
  refine .made ⟨step, hstep, fun heq => ?_⟩
  rw [heq, executeBy_halt_never, hends] at hstopped
  exact Bool.false_ne_true hstopped.symm

/-- An instance that an earlier input or this run has completed is complete where the run is stopped. -/
theorem complete_storeAt (h : Seeded object s ∨ s.Completes stops fuel program object) :
    Complete (s.storeAt stops fuel program).members object := by
  rcases h with hseeded | hcompletes
  · exact hseeded.complete.onward (onward_storeAt s fuel program object stops) nofun
  · exact hcompletes.complete

end Session

open Session

/-- At every moment of a run, and where it ends, an instance that is complete has the properties that its
lineage declares, as the nearest class declares them, and no instance that the run started with has gained or
lost a property or changed the owner or the visibility of one. A run that is not stopped is the usual one. -/
theorem instances_keep_shape (s : Session) (stops : Moment → Store → Bool) (fuel : Nat) (program : Program)
    (object : Instance) :
    (Seeded object s ∨ s.Completes stops fuel program object →
      (s.storeAt stops fuel program).Shaped object) ∧
    (object.id < s.store.members.size → ∀ name,
      let kept (member : Member) := (member.owner, member.visibility)
      ((s.storeAt stops fuel program).member? object name).map kept = (s.store.member? object name).map kept) ∧
    s.executeBy (.through (Moment.halt fun _ _ => false)) fuel program = s.execute fuel program := by
  refine ⟨fun h => (complete_storeAt h).shaped, fun hknown name => ?_, executeBy_halt_never s fuel program⟩
  exact (onward_storeAt s fuel program object stops).layout hknown nofun name

namespace Sample

@[match_pattern, reducible]
def nowhere : Span := ⟨⟨0, 0, 0⟩, ⟨0, 0, 0⟩⟩

@[match_pattern, reducible]
def property (name : String) (visibility : Visibility) (isOverride : Bool) : PropertyDef Node :=
  ⟨name, none, ⟨visibility, false, isOverride⟩, nowhere⟩

@[match_pattern, reducible]
def method (name : String) (isOverride : Bool) : MethodDef Node :=
  ⟨name, ⟨0, some name, [], ⟨.nothing, nowhere⟩, true, nowhere⟩, ⟨.everyone, false, isOverride⟩, nowhere⟩

@[match_pattern, reducible]
def base : Class :=
  ⟨0, ⟨"A", none, [property "x" .self false, property "y" .everyone false], [method "f" false], [], [],
    nowhere⟩, none, ⟨⟨0⟩, []⟩⟩

@[match_pattern, reducible]
def heir : Class :=
  ⟨1, ⟨"B", some "A", [property "x" .everyone true], [method "y" true], [], [], nowhere⟩, some base, ⟨⟨0⟩, []⟩⟩

def session : Session :=
  ((Session.new 9).execute 4 [⟨.classDefinition base.definition, nowhere⟩,
    ⟨.classDefinition heir.definition, nowhere⟩,
    ⟨.declare "b" ⟨.instantiate ⟨.lookup "B", nowhere⟩ [], nowhere⟩, nowhere⟩]).2

def object : Instance := ⟨0, heir⟩

def step : Moment → Eval Unit
  | .seeded ⟨0, heir⟩ => throw .exhausted
  | _ => pure ()

theorem seeded : Seeded object session := by
  have hstep : ∀ moment, moment ≠ .seeded object → step moment = pure () := by
    intro moment hne
    unfold step
    split
    · exact absurd rfl hne
    · rfl
  exact .of_stopped hstep (by decide +kernel) (by decide +kernel)

end Sample

open Sample

/-- The next input assigns to a property of the instance. -/
theorem instances_keep_shape_assigned :
    let t := session.storeAt (fun _ _ => false) 4
      [⟨.assignProperty ⟨.lookup "b", nowhere⟩ "x" ⟨.boolean true, nowhere⟩, nowhere⟩]
    Seeded object session ∧ object.id < session.store.members.size ∧
      (session.store.member? object "x").any (·.value matches .nothing) ∧
      (t.member? object "x").any (·.value matches .boolean true) ∧ t.Shaped object ∧
      (t.member? object "x").map (fun member => (member.owner, member.visibility)) =
        (session.store.member? object "x").map fun member => (member.owner, member.visibility) := by
  have hknown : object.id < session.store.members.size := by decide +kernel
  obtain ⟨hshaped, hkept, _⟩ := instances_keep_shape session (fun _ _ => false) 4
    [⟨.assignProperty ⟨.lookup "b", nowhere⟩ "x" ⟨.boolean true, nowhere⟩, nowhere⟩] object
  exact ⟨seeded, hknown, by decide +kernel, by decide +kernel, hshaped (.inl seeded), hkept hknown "x"⟩

end ScriptLang
