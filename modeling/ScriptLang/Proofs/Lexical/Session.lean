import ScriptLang.Proofs.Lexical.Rule
import ScriptLang.Session

/-! Whole sessions with other rules of evaluation. Main statement: rules that agree on the code at its place
give the same sessions, so what they do with any other code does not matter. -/
namespace ScriptLang

/-- A way to evaluate a node, given how its parts are evaluated. -/
abbrev Rule := Machine → Node → Context → Eval Value

/-- Evaluation by a rule, in at most `fuel` nested steps. -/
def evaluateBy (rule : Rule) (limit : Nat) : (fuel : Nat) → Node → Context → Eval Value
  | 0, _, _ => throw .exhausted
  | fuel + 1, node, ctx => rule ⟨limit, fuel, evaluateBy rule limit fuel⟩ node ctx

theorem evaluateBy_rule (limit fuel : Nat) : evaluateBy Machine.rule limit fuel = evaluate limit fuel := by
  induction fuel with
  | zero => rfl
  | succ fuel ih =>
    funext node ctx
    rw [evaluateBy, evaluate, ih]

variable {I : Placement} {x : Exits} {depth : Nat} {known : List Class} {rule other : Rule} {limit : Nat}

/-- A rule that does the usual with code at its place. -/
def Rule.Usual (I : Placement) (rule : Rule) : Prop :=
  ∀ (m : Machine) {x : Exits} {depth : Nat} {known : List Class} {node : Node} {ctx : Context},
    I.At x ctx.classScope node → ctx.Known I depth known → ∀ s : Store, s.Known I depth known →
      rule m node ctx s = m.rule node ctx s

/-- Rules that agree on code at its place, given machines that do. -/
def Rule.Agree (I : Placement) (rule other : Rule) : Prop :=
  ∀ {m n : Machine} {x : Exits} {depth : Nat} {known : List Class} {node : Node} {ctx : Context},
    Machine.Agrees I m n → I.At x ctx.classScope node → ctx.Known I depth known →
      Eval.Known I x depth known (rule m node ctx) (other n node ctx)

theorem Rule.agree_self (hI : I.Lexical) : Rule.Agree I Machine.rule Machine.rule :=
  fun h hnode hctx => h.rule hctx hI hnode

theorem Rule.Usual.agree (hrule : rule.Usual I) (hI : I.Lexical) : Rule.Agree I Machine.rule rule :=
  fun {_ n} _ _ _ _ _ h hnode hctx =>
    -- The machines agree by the usual rule; the other rule is only compared with it for its own machine.
    ⟨fun s hs => ⟨((h.rule hctx hI hnode).run s hs).1.trans (hrule n hnode hctx s hs).symm,
      ((h.rule hctx hI hnode).run s hs).2⟩⟩

section Evaluation

variable (hrule : Rule.Agree I rule other)

include hrule

theorem evaluateBy_agrees (hmost : ∀ most ∈ I.traced, limit ≤ most) (fuel : Nat) {node : Node} {ctx : Context}
    (hnode : I.At x ctx.classScope node) (hctx : ctx.Known I depth known) :
    Eval.Known I x depth known (evaluateBy rule limit fuel node ctx) (evaluateBy other limit fuel node ctx) := by
  induction fuel generalizing x depth known node ctx with
  | zero => exact .throw trivial
  | succ fuel ih => exact hrule ⟨rfl, hmost, rfl, ih⟩ hnode hctx

theorem Machine.agrees_evaluateBy (limit fuel : Nat) (hmost : ∀ most ∈ I.traced, limit ≤ most) :
    Machine.Agrees I ⟨limit, fuel, evaluateBy rule limit fuel⟩ ⟨limit, fuel, evaluateBy other limit fuel⟩ :=
  ⟨rfl, hmost, rfl, evaluateBy_agrees hrule hmost fuel⟩

end Evaluation

/-- The usual machines leave code where it is written. -/
theorem Machine.agrees_self (hI : I.Lexical) (limit fuel : Nat) (hmost : ∀ most ∈ I.traced, limit ≤ most) :
    Machine.Agrees I ⟨limit, fuel, evaluate limit fuel⟩ ⟨limit, fuel, evaluate limit fuel⟩ := by
  rw [← evaluateBy_rule]
  exact Machine.agrees_evaluateBy (Rule.agree_self hI) limit fuel hmost

/-- A program whose statements are placed outside of all classes. -/
theorem Machine.Agrees.program {m n : Machine} (h : Machine.Agrees I m n) {program : Program}
    (hprogram : ∀ statement ∈ program, I.At (.alone I.lax) none statement) (scope : Scope) :
    let ctx : Context := ⟨⟨"<program>", []⟩, scope, none⟩
    Eval.Agrees I x depth known (fun known values => ∀ v ∈ values, v.Known I known) (m.program program ctx)
      (n.program program ctx) := by
  intro ctx
  have hctx {known : List Class} : ctx.Known I depth known :=
    ⟨nofun, fun _ _ => ⟨rfl, List.forall_mem_nil _, Nat.zero_le depth⟩⟩
  refine .mono (.mapM (P := Value.Known I) (fun hlater => Value.Known.mono hlater) ?_) fun _ _ hvalues => hvalues.2
  exact fun statement hstatement _ _ => h.value hctx (hprogram statement hstatement)

theorem Store.Known.ofFrame {frame : Frame} (h : ∀ entry ∈ frame, (I.values []).Names entry.1 entry.2.value) :
    Store.Known I 0 [] { frames := ⟨#[frame]⟩ } where
  depth _ _ := ⟨rfl, Nat.zero_le _⟩
  count _ := rfl
  classes _ := nofun
  heap := .empty
  frames i entry hentry := by
    cases i with
    | zero => exact h entry hentry
    | succ => cases hentry
  statics _ _ hentry := by cases hentry
  homes _ _ _ hentry := by cases hentry
  members _ _ hentry := by cases hentry

namespace Session

variable {programs : List Program}

/-- Runs statements in the session by a rule, with `fuel` as the bound. -/
def executeBy (rule : Rule) (s : Session) (fuel : Nat) (program : Program) : Execution × Session :=
  let machine : Machine := ⟨s.limit, fuel, evaluateBy rule s.limit fuel⟩
  match machine.program program ⟨⟨"<program>", []⟩, s.scope, none⟩ s.store with
  | .ok values store =>
    (⟨store.output.toList, .ok values⟩, { s with store := { store with output := #[] } })
  | .error interrupt store =>
    (⟨store.output.toList, .error (stop interrupt)⟩, { s with store := { store with output := #[] } })

theorem executeBy_usual (s : Session) (fuel : Nat) (program : Program) :
    s.executeBy Machine.rule fuel program = s.execute fuel program := by
  rw [executeBy, evaluateBy_rule]
  rfl

/-- The sessions that run nothing but these programs, the last one first. Each run has a bound of its own,
and functions can get any ids. -/
inductive After (limit : Nat) : List Program → Session → Prop
  | new : After limit [] (.new limit)
  | execute {programs : List Program} {s : Session} (before : After limit programs s) (nextId fuel : Nat)
      (program : Program) : After limit (program :: programs) ({ s with nextId }.execute fuel program).2

/-- What an input leaves is a session of that kind. -/
theorem After.run {s : Session} (h : After limit programs s) (fuel : Nat)
    {source : String} {program : Program} {nextId : Nat} (hread : s.read source = .ok (program, nextId)) :
    After limit (program :: programs) (s.run fuel source).2 := by
  rw [Session.run, hread]
  exact .execute h nextId fuel program

/-- At first there is no class, and every name is that of a built-in function. -/
theorem known_new : (Session.new limit).store.Known I 0 [] := by
  refine .ofFrame fun entry hentry => ?_
  obtain ⟨b, -, rfl⟩ := List.mem_map.mp hentry
  exact .inr ⟨b, rfl, rfl⟩

theorem After.limit_eq {s : Session} (h : After limit programs s) : s.limit = limit := by
  induction h with
  | new => rfl
  | @execute _ s before nextId fuel program ih =>
    rw [← ih, ← executeBy_usual, executeBy]
    dsimp only
    split <;> rfl

section Known

variable {s : Session} {program : Program}
  (hprogram : ∀ statement ∈ program, I.At (.alone I.lax) none statement)
  (hmost : ∀ most ∈ I.traced, s.limit ≤ most) (hs : s.store.Known I 0 known)

include hprogram hmost hs

/-- A program leaves all code placed. Only by the lax rules does it fail because of a misfire, and its failures
are traced. -/
theorem executeBy_known (hrule : Rule.Agree I rule rule) (fuel : Nat) :
    (∃ later, (s.executeBy rule fuel program).2.store.Known I 0 later) ∧
      ∀ error, (s.executeBy rule fuel program).1.outcome = .error (.fault (.running error)) →
        (I.lax = true ∨ error.cause.Ordinary) ∧ ∀ limit ∈ I.traced, error.Traced I limit := by
  have h := Machine.agrees_evaluateBy hrule s.limit fuel hmost
  obtain ⟨_, later, _, hended⟩ := (h.program (x := .alone I.lax) hprogram s.scope).run s.store hs
  unfold executeBy
  dsimp only
  generalize Machine.program _ _ _ _ = outcome at hended
  cases hended with
  | ok _ state => exact ⟨⟨later, { state with }⟩, nofun⟩
  | @error interrupt _ cause state =>
    refine ⟨⟨later, { state with }⟩, fun error herror => ?_⟩
    cases interrupt with
    | failed =>
      cases herror
      exact cause
    | _ => cases herror

theorem execute_known (hI : I.Lexical) (fuel : Nat) :
    (∃ later, (s.execute fuel program).2.store.Known I 0 later) ∧
      ∀ error, (s.execute fuel program).1.outcome = .error (.fault (.running error)) →
        (I.lax = true ∨ error.cause.Ordinary) ∧ ∀ limit ∈ I.traced, error.Traced I limit := by
  rw [← executeBy_usual]
  exact executeBy_known hprogram hmost hs (Rule.agree_self hI) fuel

end Known

/-- In a session of programs that are placed outside of all classes, all code stays at its place. -/
theorem After.store_known {s : Session} (h : After limit programs s) (hI : I.Lexical)
    (hprograms : ∀ program ∈ programs, ∀ statement ∈ program, I.At (.alone I.lax) none statement)
    (hmost : ∀ most ∈ I.traced, limit ≤ most) : ∃ known, s.store.Known I 0 known := by
  induction h with
  | new => exact ⟨[], known_new⟩
  | @execute _ s before nextId fuel program ih =>
    obtain ⟨hprogram, hprograms⟩ := List.forall_mem_cons.mp hprograms
    obtain ⟨known, hs⟩ := ih hprograms
    have hs : Store.Known I 0 known { s with nextId }.store := hs
    exact (execute_known hprogram (before.limit_eq ▸ hmost) hs hI fuel).1

section Untraced

variable [I.Untraced] (hI : I.Lexical)

include hI

theorem After.exists_known {s : Session} (h : After limit programs s)
    (hprograms : ∀ program ∈ programs, ∀ statement ∈ program, I.At (.alone I.lax) none statement) :
    ∃ known, s.store.Known I 0 known :=
  h.store_known hI hprograms Placement.Untraced.most

/-- A program whose statements are placed outside of all classes runs alike by all rules that do the usual
with code at its place. -/
theorem executeBy_eq {s : Session} {program : Program}
    (hprogram : ∀ statement ∈ program, I.At (.alone I.lax) none statement) (hs : s.store.Known I 0 known)
    (hrule : rule.Usual I) (fuel : Nat) : s.executeBy rule fuel program = s.execute fuel program := by
  have h := Machine.agrees_evaluateBy (hrule.agree hI) s.limit fuel Placement.Untraced.most
  have hsame := ((h.program (x := .alone I.lax) hprogram s.scope).run s.store hs).1
  rw [← executeBy_usual, executeBy, executeBy, hsame]

end Untraced

end Session

end ScriptLang
