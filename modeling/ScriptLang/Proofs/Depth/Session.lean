import ScriptLang.Proofs.Congruence.Rule
import ScriptLang.Proofs.Depth.Basic

/-! The count of active calls. Main statement: however an evaluation ends, it leaves as many active
calls as it found, and on its way there are never more than the limit; so every input of a session
starts without active calls. -/
namespace ScriptLang

namespace Eval

variable {α : Type} {limit : Nat}

/-- An evaluation that does something else, the alarm, if it starts with too many active calls. -/
def watched (x : Eval α) (limit : Nat) (alarm : Eval α) : Eval α := fun s =>
  if s.depth ≤ limit then x s else alarm s

theorem watched_of_le (alarm x : Eval α) {s : Store} (h : s.depth ≤ limit) : x.watched limit alarm s = x s :=
  if_pos h

theorem Balanced.watched {x y : Eval α} (h : Balanced limit x y) (alarm : Eval α) :
    Balanced limit x (y.watched limit alarm) := by
  rintro depth hdepth s _ ⟨rfl, rfl⟩
  rw [watched_of_le alarm y hdepth]
  exact h s.depth hdepth s s ⟨rfl, rfl⟩

/-- A call that goes through starts within the limit. -/
theorem guarded_watched (trace : Trace) (span : Span) (alarm call : Eval α) :
    guarded limit trace span (call.watched limit alarm) = guarded limit trace span call := by
  funext s
  unfold guarded
  split
  next h => rw [watched_of_le alarm call h]
  next => rfl

end Eval

/-- Evaluation with an alarm wherever a node is evaluated with too many active calls. -/
def evaluateWatched (limit : Nat) (alarm : Node → Context → Eval Value) :
    (fuel : Nat) → Node → Context → Eval Value
  | 0, _, _ => throw .exhausted
  | fuel + 1, node, ctx =>
    Machine.rule ⟨limit, fuel, fun node ctx =>
      (evaluateWatched limit alarm fuel node ctx).watched limit (alarm node ctx)⟩ node ctx

variable (limit : Nat)

def Machine.watched (alarm : Node → Context → Eval Value) (fuel : Nat) : Machine where
  limit
  turns := fuel
  eval node ctx := (evaluateWatched limit alarm fuel node ctx).watched limit (alarm node ctx)

theorem evaluateWatched_balanced (alarm : Node → Context → Eval Value) (fuel : Nat) (node : Node) (ctx : Context) :
    Eval.Balanced limit (evaluate limit fuel node ctx) (evaluateWatched limit alarm fuel node ctx) := by
  induction fuel generalizing node ctx with
  | zero => exact fun _ _ => .throw rfl
  | succ fuel ih =>
    have h : Machine.Balanced ⟨limit, fuel, evaluate limit fuel⟩ (.watched limit alarm fuel) :=
      ⟨rfl, rfl, fun node ctx => (ih node ctx).watched _⟩
    exact h.full_rule (Eval.Balanced.full limit) node

theorem Machine.watched_balanced (alarm : Node → Context → Eval Value) (fuel : Nat) :
    Machine.Balanced ⟨limit, fuel, evaluate limit fuel⟩ (.watched limit alarm fuel) :=
  ⟨rfl, rfl, fun node ctx => (evaluateWatched_balanced limit alarm fuel node ctx).watched _⟩

namespace Session

variable {s : Session}

def after (s : Session) (inputs : List (Nat × String)) : Session :=
  inputs.foldl (fun s (fuel, source) => (s.run fuel source).2) s

def Idle (s : Session) : Prop := s.store.depth = 0 ∧ s.store.output = #[]

theorem Idle.execute (h : s.Idle) (fuel : Nat) (program : Program) : (s.execute fuel program).2.Idle := by
  let ctx : Context := ⟨⟨"<program>", []⟩, s.scope, none⟩
  let machine : Machine := ⟨s.limit, fuel, evaluate s.limit fuel⟩
  have hbalanced : Eval.Balanced s.limit (machine.program program ctx) _ :=
    (Machine.watched_balanced s.limit (fun _ _ => throw .exhausted) fuel).program
      (Eval.Balanced.full s.limit).toCongruence program
  have hstart : s.store.depth ≤ s.limit := h.1 ▸ Nat.zero_le _
  have hdepth := (hbalanced.depth_leaves hstart).trans h.1
  unfold Eval.leaves at hdepth
  unfold Session.execute
  dsimp only [machine, ctx] at hdepth ⊢
  generalize Machine.program _ _ _ _ = outcome at hdepth ⊢
  cases outcome with
  | ok | error => exact ⟨hdepth, rfl⟩

theorem Idle.run (h : s.Idle) (fuel : Nat) (source : String) : (s.run fuel source).2.Idle := by
  unfold Session.run
  cases s.read source with
  | error => exact h
  | ok result =>
    have hnext : Idle { s with nextId := result.2 } := h
    exact hnext.execute fuel result.1

theorem Idle.after (h : s.Idle) (inputs : List (Nat × String)) : (s.after inputs).Idle := by
  induction inputs generalizing s with
  | nil => exact h
  | cons input inputs ih => exact ih (h.run input.1 input.2)

end Session

/-- However an evaluation ends, it leaves as many active calls as it found. An alarm is never raised,
neither where a node is evaluated nor where the body of a call begins. So there are no active calls and
no printed lines when a session comes to an input. -/
theorem depth_balanced :
    (∀ fuel node ctx (s : Store), s.depth ≤ limit →
      ((evaluate limit fuel node ctx).leaves s).depth = s.depth ∧
      ∀ alarm, evaluateWatched limit alarm fuel node ctx s = evaluate limit fuel node ctx s) ∧
    (∀ {α : Type} (trace : Trace) (span : Span) (alarm call : Eval α),
      Eval.guarded limit trace span (call.watched limit alarm) = Eval.guarded limit trace span call) ∧
    ∀ inputs, ((Session.new limit).after inputs).store.depth = 0 ∧
      ((Session.new limit).after inputs).store.output = #[] := by
  refine ⟨fun fuel node ctx s hs => ⟨?_, fun alarm => ?_⟩, Eval.guarded_watched, fun inputs => ?_⟩
  · exact (evaluateWatched_balanced limit (fun _ _ => throw .exhausted) fuel node ctx).depth_leaves hs
  · exact ((evaluateWatched_balanced limit alarm fuel node ctx).eq hs).symm
  · exact Session.Idle.after ⟨rfl, rfl⟩ inputs

/-- A call where the limit is reached already fails, and inputs that run into the limit leave nothing
behind. -/
theorem depth_balanced_at_limit :
    let span : Span := .point .origin
    let callee : Node := ⟨.function ⟨0, none, [], ⟨.pass, span⟩, false, span⟩, span⟩
    let call : Eval Value := evaluate 1 3 ⟨.call callee [] false, span⟩ ⟨⟨"f", []⟩, ⟨⟨0⟩, []⟩, none⟩
    let full : Store := { frames := ⟨#[[]]⟩, depth := 1 }
    let source := "func g(): return 1\nfunc f(): return g()"
    let ends (limit : Nat) : Bool := (((Session.new limit).after [(9, source)]).run 9 "f()").1.outcome.isOk
    full.depth ≤ 1 ∧ call full = Eval.fail ⟨"f", []⟩ span (.recursionLimit 1) full ∧
    (call.leaves full).depth = 1 ∧
    ends 2 = true ∧ ends 1 = false ∧
    ((Session.new 1).after [(9, source), (9, "f()")]).store.depth = 0 := by
  intro span callee call full source ends
  obtain ⟨heval, -, hsession⟩ := depth_balanced 1
  exact ⟨Nat.le_refl 1, rfl, (heval 3 _ _ full (Nat.le_refl 1)).1, by decide +kernel, by decide +kernel,
    (hsession _).1⟩

end ScriptLang
