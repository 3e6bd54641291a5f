import ScriptLang.Proofs.Lexical.Session
import ScriptLang.Proofs.Member.Seeded

/-! Runs that are stopped at a moment. Main statement: whatever else is done when an instance is complete, and
wherever the run is stopped then, the instance is complete there. -/
namespace ScriptLang

/-- The moments of a run: a node is going to be evaluated, or all properties of a new instance are filled in. -/
inductive Moment where
  | node (node : Node) (ctx : Context)
  | seeded (object : Instance)

/-- Stops at some moments, and does nothing at the others. -/
def Moment.halt (stops : Moment → Store → Bool) (moment : Moment) : Eval Unit := fun s =>
  if stops moment s then .error .exhausted s else .ok () s

namespace Machine

/-- What is done with a new instance behind its properties: a step, and the constructor. -/
def finishThrough (m : Machine) (step : Moment → Eval Unit) (object : Instance) (cls : Class)
    (args : List Value) (span : Span) (caller : Trace) : Eval Value := do
  step (.seeded object)
  m.runConstructor cls object args span caller
  return .instance object

/-- A new instance, with a step behind its properties. -/
def constructThrough (m : Machine) (step : Moment → Eval Unit) (cls : Class) (args : List Value)
    (span : Span) (caller : Trace) : Eval Value := do
  let object ← modifyGet (·.addInstance cls)
  cls.lineage.reverse.forM (m.seed object span caller)
  m.finishThrough step object cls args span caller

end Machine

/-- The usual rules, with a step at each moment. -/
def Rule.through (step : Moment → Eval Unit) : Rule := fun m node ctx => do
  step (.node node ctx)
  match node.shape with
  | .instantiate cls args =>
    m.instantiateBy (fun cls args => m.constructThrough step cls args node.span ctx.trace) cls args node.span
      ctx
  | _ => m.rule node ctx

/-- Steps that do nothing change nothing. -/
theorem Rule.through_pure : through (fun _ => pure ()) = Machine.rule := by
  funext m node ctx
  rw [through, pure_bind]
  split
  next cls args hshape =>
    rw [Machine.rule, hshape]
    exact (m.instantiate_eq cls args).symm
  next => rfl

namespace Eval

open Members (Onward Complete)

variable {α β : Type} {object : Instance} {unfinished : Option Nat} {start : Nat} {s : Store} {x y : Eval α}
  {c d : Interrupt → Eval α}

/-- How two evaluations go from a store, of which the first one does something else when `object` is complete.
The second one keeps the layout of instances, but the one that is unfinished. If they differ, then `object` is
a new instance, and complete in the end. -/
structure TracksAt (object : Instance) (unfinished : Option Nat) (start : Nat) (s : Store) (x y : Eval α) :
    Prop where
  onward : Onward unfinished s.members (y.leaves s).members
  same : x s = y s ∨ start ≤ object.id ∧ Complete (y.leaves s).members object

/-- From all stores in which the unfinished instance is there. Where names are declared does not matter. -/
def Tracks (object : Instance) (unfinished : Option Nat) : EvalRel := fun _ _ x y =>
  ∀ s : Store, (∀ id ∈ unfinished, id < s.members.size) → TracksAt object unfinished s.members.size s x y

namespace TracksAt

theorem self (h : Onward unfinished s.members (x.leaves s).members) : TracksAt object unfinished start s x x :=
  ⟨h, .inl rfl⟩

theorem mono (h : TracksAt object unfinished start s x y) {earlier : Nat} (hle : earlier ≤ start) :
    TracksAt object unfinished earlier s x y :=
  ⟨h.onward, h.same.imp_right fun hcomplete => ⟨Nat.le_trans hle hcomplete.1, hcomplete.2⟩⟩

section

variable {later : Nat} (hunfinished : ∀ id ∈ unfinished, id < later) (hle : start ≤ later)

include hunfinished hle

/-- What is complete stays so. -/
private theorem complete_trans {ms ns : Members} (hcomplete : later ≤ object.id ∧ Complete ms object)
    (honward : Onward unfinished ms ns) : start ≤ object.id ∧ Complete ns object := by
  refine ⟨Nat.le_trans hle hcomplete.1, hcomplete.2.onward honward fun heq => ?_⟩
  exact Nat.not_lt_of_le hcomplete.1 (hunfinished object.id heq)

theorem bind (h : TracksAt object unfinished later s x y) {f g : α → Eval β}
    (next : ∀ a t, y s = .ok a t → TracksAt object unfinished start t (f a) (g a)) :
    TracksAt object unfinished start s (x >>= f) (y >>= g) := by
  obtain ⟨honward, hsame⟩ := h
  cases hy : y s with
  | error i t =>
    rw [leaves_of_error hy] at honward hsame
    have hend : (y >>= g) s = .error i t := bind_of_error hy
    refine ⟨by rwa [leaves_of_error hend], ?_⟩
    rw [leaves_of_error hend, hend]
    refine hsame.imp (fun heq => bind_of_error (heq.trans hy)) fun hcomplete => ?_
    exact ⟨Nat.le_trans hle hcomplete.1, hcomplete.2⟩
  | ok a t =>
    obtain ⟨hrest, hagain⟩ := next a t hy
    rw [leaves_of_ok hy] at honward hsame
    have hend : (y >>= g) s = g a t := bind_of_ok hy
    have hleaves : (y >>= g).leaves s = (g a).leaves t := by rw [leaves_bind, hy]
    refine ⟨by rw [hleaves]; exact honward.trans hrest, ?_⟩
    rw [hleaves, hend]
    rcases hsame with heq | hcomplete
    · rw [bind_of_ok (heq.trans hy)]
      exact hagain
    · exact .inr (complete_trans hunfinished hle hcomplete hrest)

end

theorem tryCatch (h : TracksAt object unfinished start s x y) (hunfinished : ∀ id ∈ unfinished, id < start)
    (rescue : ∀ i t, y s = .error i t → TracksAt object unfinished start t (c i) (d i)) :
    TracksAt object unfinished start s (tryCatch x c) (tryCatch y d) := by
  obtain ⟨honward, hsame⟩ := h
  cases hy : y s with
  | ok a t =>
    rw [leaves_of_ok hy] at honward hsame
    have hend : (MonadExcept.tryCatch y d) s = .ok a t := tryCatch_of_ok hy
    refine ⟨by rwa [leaves_of_ok hend], ?_⟩
    rw [leaves_of_ok hend, hend]
    exact hsame.imp_left fun heq => tryCatch_of_ok (heq.trans hy)
  | error i t =>
    obtain ⟨hrest, hagain⟩ := rescue i t hy
    rw [leaves_of_error hy] at honward hsame
    have hend : (MonadExcept.tryCatch y d) s = d i t := tryCatch_of_error hy
    have hleaves : (MonadExcept.tryCatch y d).leaves s = (d i).leaves t := by rw [leaves_tryCatch, hy]
    refine ⟨by rw [hleaves]; exact honward.trans hrest, ?_⟩
    rw [hleaves, hend]
    rcases hsame with heq | hcomplete
    · rw [tryCatch_of_error (heq.trans hy)]
      exact hagain
    · exact .inr (complete_trans hunfinished (Nat.le_refl _) hcomplete hrest)

theorem guarded {limit : Nat} {trace : Trace} {span : Span}
    (h : TracksAt object unfinished start { s with depth := s.depth + 1 } x y) :
    TracksAt object unfinished start s (guarded limit trace span x) (guarded limit trace span y) := by
  by_cases hdepth : s.depth < limit
  · refine ⟨?_, ?_⟩
    · rw [leaves_guarded, if_pos hdepth]
      exact h.onward
    · rw [leaves_guarded, if_pos hdepth]
      refine h.same.imp_left fun heq => ?_
      rw [Eval.guarded, Eval.guarded, if_pos hdepth, if_pos hdepth, heq]
  · refine ⟨?_, .inl ?_⟩
    · rw [leaves_guarded, if_neg hdepth]
      exact .refl _ _
    · rw [Eval.guarded, Eval.guarded, if_neg hdepth, if_neg hdepth]

end TracksAt

namespace Tracks

variable {own : Option FrameId}

theorem self (h : ∀ s, (x.leaves s).members = s.members) : Tracks object unfinished own x x := fun s _ =>
  .self (by rw [h]; exact .refl _ _)

theorem weaken (h : Tracks object none own x y) (unfinished : Option Nat) :
    Tracks object unfinished own x y := fun s _ =>
  ⟨(h s nofun).onward.weaken _, (h s nofun).same⟩

private theorem later {t : Store} (h : Onward unfinished s.members t.members)
    (hunfinished : ∀ id ∈ unfinished, id < s.members.size) (hnext : Tracks object unfinished own x y) :
    TracksAt object unfinished s.members.size t x y :=
  (hnext t fun id hid => Nat.lt_of_lt_of_le (hunfinished id hid) h.size).mono h.size

theorem bind {f g : α → Eval β} (first : Tracks object unfinished own x y)
    (next : ∀ a, Tracks object unfinished own (f a) (g a)) : Tracks object unfinished own (x >>= f) (y >>= g) := by
  intro s hs
  have hfirst := first s hs
  refine hfirst.bind hs (Nat.le_refl _) fun a t hy => later ?_ hs (next a)
  rw [← leaves_of_ok hy]
  exact hfirst.onward

theorem tryCatch (body : Tracks object unfinished own x y) (rescue : ∀ i, Tracks object unfinished own (c i) (d i)) :
    Tracks object unfinished own (tryCatch x c) (tryCatch y d) := by
  intro s hs
  have hbody := body s hs
  refine hbody.tryCatch hs fun i t hy => later ?_ hs (rescue i)
  rw [← leaves_of_error hy]
  exact hbody.onward

theorem onHeap (trace : Trace) (span : Span) (action : Action α) :
    Tracks object unfinished own (onHeap trace span action) (onHeap trace span action) := by
  refine self fun s => ?_
  unfold leaves Eval.onHeap
  dsimp only
  cases action s.heap <;> rfl

theorem guarded {limit : Nat} (trace : Trace) (span : Span) {x y : Eval α}
    (call : Tracks object unfinished own x y) :
    Tracks object unfinished own (guarded limit trace span x) (guarded limit trace span y) := fun s hs =>
  (call { s with depth := s.depth + 1 } hs).guarded

/-- Nothing but a new instance changes a layout. -/
theorem congruence (object : Instance) (unfinished : Option Nat) (limit : Nat) :
    Congruence limit (Tracks object unfinished) where
  pure _ := self fun _ => rfl
  throw _ := self fun _ => rfl
  bind := bind
  tryCatch := tryCatch
  get _ _ next := bind (self fun _ => rfl) next
  onHeap := onHeap
  heap _ := self fun _ => rfl
  statics _ := self fun _ => rfl
  setMember target name value := fun s _ => .self (Members.onward_setMember _ s target name value)
  print _ := self fun _ => rfl
  declare trace span _ _ _ _ := self (members_onFrames trace span _)
  assign trace span _ _ _ := self (members_onFrames trace span _)
  remove trace span _ _ := self (members_onFrames trace span _)
  newFrame next := bind (self fun _ => rfl) next
  guarded := guarded

end Tracks

end Eval

open Members (Onward Complete)

variable {m n : Machine} {object : Instance} {step step' : Moment → Eval Unit} {span : Span} {trace : Trace}
  {own : Option FrameId}

/-- Steps that change nothing, and that do the same but when `object` is complete. -/
structure Moment.Differ (object : Instance) (step' step : Moment → Eval Unit) : Prop where
  idle : ∀ moment s, (step moment).leaves s = s
  same : ∀ moment, moment ≠ .seeded object → step' moment = step moment

/-- Machines of which the first one does something else when `object` is complete. -/
abbrev Machine.Tracks (object : Instance) (unfinished : Option Nat) (m n : Machine) : Prop :=
  Machine.Congruent (Eval.Tracks object unfinished) m n

namespace Machine.Tracks

variable (h : Machine.Tracks object none m n)

include h

theorem weaken (unfinished : Option Nat) : Machine.Tracks object unfinished m n :=
  ⟨h.limit, h.turns, fun node ctx => (h.eval node ctx).weaken unfinished⟩

theorem steady : n.Steady := fun property ctx s =>
  (h.initialValue (Eval.Tracks.congruence object none n.limit) property ctx s nofun).onward

/-- The properties of an instance, which is unfinished meanwhile. -/
theorem seed_all (made : Instance) (classes : List Class) :
    Eval.Tracks object (some made.id) own (classes.forM (m.seed made span trace))
      (classes.forM (n.seed made span trace)) := by
  have hR := Eval.Tracks.congruence object (some made.id) n.limit
  refine hR.forM classes fun cls => (weaken h _).seed hR made cls fun _ name member => ?_
  exact fun s _ => .self (.modify made.id _)

variable (hstep : Moment.Differ object step' step)

include hstep

theorem finish (made : Instance) (cls : Class) (args : List Value) :
    Eval.Tracks object none own (m.finishThrough step made cls args span trace)
      (n.finishThrough step made cls args span trace) := by
  have hR := Eval.Tracks.congruence object none n.limit
  refine hR.bind (.self fun s => by rw [hstep.idle]) fun _ => ?_
  exact hR.bind (h.runConstructor hR cls made args) fun _ => hR.pure _

/-- Something else can be done when the instance is complete. -/
theorem finishThrough {made : Instance} {s : Store} (hcomplete : Complete s.members made) (cls : Class)
    (args : List Value) :
    Eval.TracksAt object (some made.id) made.id s (m.finishThrough step' made cls args span trace)
      (n.finishThrough step made cls args span trace) := by
  have hfinish : Eval.Tracks object none none (m.finishThrough step made cls args span trace)
      (n.finishThrough step made cls args span trace) := finish h hstep made cls args
  obtain ⟨honward, hsame⟩ := hfinish s nofun
  refine ⟨honward.weaken _, ?_⟩
  by_cases hobject : made = object
  · subst hobject
    exact .inr ⟨Nat.le_refl _, hcomplete.onward honward nofun⟩
  · have heq : step' (.seeded made) = step (.seeded made) :=
      hstep.same _ fun heq => hobject (Moment.seeded.inj heq)
    unfold Machine.finishThrough at hsame ⊢
    rw [heq]
    exact hsame.imp_right fun hlater => ⟨Nat.le_trans (Nat.le_of_lt hcomplete.known) hlater.1, hlater.2⟩

theorem constructThrough (cls : Class) (args : List Value) :
    Eval.Tracks object none own (m.constructThrough step' cls args span trace)
      (n.constructThrough step cls args span trace) := by
  intro s _
  -- The instance `made` is unfinished up to the step behind its properties.
  let made : Instance := ⟨s.members.size, cls⟩
  let t : Store := (s.addInstance cls).2
  have hsize : t.members.size = s.members.size + 1 := Array.size_push _
  have hmade : made.id < t.members.size := hsize ▸ Nat.lt_succ_self _
  have hunfinished : ∀ id ∈ some made.id, id < t.members.size := by
    rintro _ ⟨⟩
    exact hmade
  have hseeds : Eval.Tracks object (some made.id) none (cls.lineage.reverse.forM (m.seed made span trace))
      (cls.lineage.reverse.forM (n.seed made span trace)) := seed_all h made _
  have hall : Eval.TracksAt object (some made.id) made.id t
      (do
        cls.lineage.reverse.forM (m.seed made span trace)
        m.finishThrough step' made cls args span trace)
      (do
        cls.lineage.reverse.forM (n.seed made span trace)
        n.finishThrough step made cls args span trace) := by
    refine (hseeds t hunfinished).bind hunfinished (Nat.le_of_lt hmade) fun _ u hrun => ?_
    exact finishThrough h hstep (h.steady.complete hmade (fun _ => Members.layout_new) hrun) cls args
  exact ⟨.of_push hall.onward, hall.same⟩

theorem through (node : Node) (ctx : Context) :
    Eval.Tracks object none (some ctx.scope.own) (Rule.through step' m node ctx) (Rule.through step n node ctx) := by
  have hR := Eval.Tracks.congruence object none n.limit
  unfold Rule.through
  rw [hstep.same (.node node ctx) nofun]
  refine hR.bind (.self fun s => by rw [hstep.idle]) fun _ => ?_
  split
  next cls args _ => exact h.instantiateBy hR cls args fun cls args => constructThrough h hstep cls args
  next hshape => exact h.rule hR node fun cls args heq => absurd heq (hshape cls args)

end Machine.Tracks

theorem evaluateBy_tracks (hstep : Moment.Differ object step' step) (limit fuel : Nat) (node : Node) (ctx : Context) :
    Eval.Tracks object none (some ctx.scope.own) (evaluateBy (.through step') limit fuel node ctx)
      (evaluateBy (.through step) limit fuel node ctx) := by
  induction fuel generalizing node ctx with
  | zero => exact (Eval.Tracks.congruence object none limit).throw _
  | succ fuel ih =>
    have h : Machine.Tracks object none ⟨limit, fuel, evaluateBy (.through step') limit fuel⟩
        ⟨limit, fuel, evaluateBy (.through step) limit fuel⟩ := ⟨rfl, rfl, ih⟩
    exact h.through hstep node ctx

end ScriptLang
