import ScriptLang.Proofs.Form.Extent
import ScriptLang.Proofs.Lexical.Control

/-! The traceback of a failure. Main statement: it leads from the program through calls that are still
active, each of them made where a node of some program stands, to where the failure happened. -/
namespace ScriptLang

theorem Node.Holds.step {n m part : Node} (h : n.Holds m) (hpart : part ∈ m.parts) : n.Holds part := by
  induction h with
  | self => exact .part hpart (.self part)
  | part hmem _ ih => exact .part hmem (ih hpart)

def Node.Within (programs : List Program) (n : Node) : Prop :=
  ∃ program ∈ programs, ∃ statement ∈ program, statement.Holds n

/-- Code is that of the programs, and traces are followed through at most `limit` calls. -/
def Placement.followed (programs : List Program) (limit : Nat) : Placement where
  admits _ n := n.Within programs
  listed := false
  traced := some limit

section Followed

variable {programs : List Program} {limit : Nat}

theorem Placement.followed_lexical : (followed programs limit).Lexical where
  part h _ part hpart := by
    obtain ⟨program, hprogram, statement, hstatement, hholds⟩ := h
    exact ⟨program, hprogram, statement, hstatement, hholds.step hpart⟩
  member {_ node} h definition hshape _ _ part hpart := by
    obtain ⟨program, hprogram, statement, hstatement, hholds⟩ := h
    refine ⟨program, hprogram, statement, hstatement, hholds.step ?_⟩
    rwa [Node.parts, hshape]
  modest _ hbounded := Bool.noConfusion hbounded

theorem Placement.followed_statement {program : Program} (hprogram : program ∈ programs) {statement : Node}
    (hstatement : statement ∈ program) : (followed programs limit).At (.alone true) none statement :=
  .of_lax rfl ⟨program, hprogram, statement, hstatement, .self statement⟩

/-- Whatever fails in a program of the session is traced to nodes of its programs. -/
theorem Session.execute_traced {s : Session} (hs : After limit programs s) (nextId fuel : Nat) {program : Program}
    {error : EvalError} (h : ({ s with nextId }.execute fuel program).1.outcome = .error (.fault (.running error))) :
    error.Traced (.followed (program :: programs) limit) limit := by
  have hlexical : (Placement.followed (program :: programs) limit).Lexical := Placement.followed_lexical
  have hmost : ∀ most ∈ (Placement.followed (program :: programs) limit).traced, limit ≤ most :=
    fun most hmost => Nat.le_of_eq (Option.some.inj hmost)
  obtain ⟨known, hknown⟩ := hs.store_known hlexical
    (fun _ hp _ => Placement.followed_statement (List.mem_cons_of_mem _ hp)) hmost
  have hknown : Store.Known (.followed (program :: programs) limit) 0 known { s with nextId }.store := hknown
  have hlimit : ({ s with nextId } : Session).limit = limit := hs.limit_eq
  exact ((execute_known (fun _ => Placement.followed_statement List.mem_cons_self) (hlimit ▸ hmost) hknown
    hlexical fuel).2 error h).2 limit rfl

end Followed

/-- The traceback of a failure begins with the program and ends where the failure happened. Each frame before
the last is at a node of the program or of an earlier one of the session, and no more of them than the limit
are calls. -/
theorem Session.traceback_of_active_calls {limit : Nat} {programs : List Program} {s : Session}
    (hs : After limit programs s) {fuel : Nat} {source : String} {error : EvalError}
    (h : (s.run fuel source).1.outcome = .error (.fault (.running error))) :
    ∃ program nextId, s.read source = .ok (program, nextId) ∧ error.frames ≠ [] ∧
      error.frames.head?.map (·.name) = some "<program>" ∧
      error.frames.getLast?.map (·.position) = some error.span.start ∧
      (∀ frame ∈ error.frames.dropLast,
        ∃ node : Node, node.Within (program :: programs) ∧ node.span.start = frame.position) ∧
      error.frames.countP (isCallLabel ·.name) ≤ limit := by
  unfold Session.run at h
  cases hread : s.read source with
  | error stop =>
    rw [hread] at h
    cases h
    exact absurd hread (s.read_ne_running source error)
  | ok result =>
    rw [hread] at h
    have htraced := execute_traced hs result.2 fuel h
    refine ⟨result.1, result.2, rfl, ?_, htraced.first, htraced.last, fun frame hframe => ?_, htraced.calls⟩
    · intro hempty
      have hfirst := htraced.first
      rw [hempty] at hfirst
      cases hfirst
    · obtain ⟨_, node, hnode, hstart⟩ := htraced.spots frame hframe
      exact ⟨node, hnode, hstart⟩

/-- A method of an earlier input is called in a loop while an instance is made, and raises an error. -/
theorem Session.traceback_of_active_calls_in_loop :
    let source := "class A:\nproperty x = g(self)\nmethod f():\nerror('a')\nend\nend\n" ++
      "func g(a):\nforeach [1] as i:\na.f()\nend\nend"
    let before := ((Session.new 9).run 99 source).2
    ((Session.new 9).read source).isOk = true ∧
    ∃ error, (before.run 99 "\n\n new A()").1.outcome = .error (.fault (.running error)) ∧
      error.frames.map (fun frame => (frame.name, frame.position.line)) =
        [("<program>", 2), ("<new A>", 1), ("g", 7), ("<foreach>", 8), ("f", 3), ("error", 3)] ∧
      error.frames.getLast?.map (·.position) = some error.span.start ∧
      error.frames.countP (isCallLabel ·.name) ≤ 9 := by
  intro source before
  have hcomputed : ((Session.new 9).read source).isOk = true ∧
      (match (before.run 99 "\n\n new A()").1.outcome with
        | .error (.fault (.running error)) => error.frames.map fun frame => (frame.name, frame.position.line)
        | _ => []) =
      [("<program>", 2), ("<new A>", 1), ("g", 7), ("<foreach>", 8), ("f", 3), ("error", 3)] := by
    decide +kernel
  obtain ⟨hread, hframes⟩ := hcomputed
  refine ⟨hread, ?_⟩
  cases hfirst : (Session.new 9).read source with
  | error => simp [hfirst, Except.isOk, Except.toBool] at hread
  | ok first =>
    have hafter : After 9 [first.1] before := After.new.run 99 hfirst
    split at hframes
    next error herror =>
      obtain ⟨_, _, _, _, _, hlast, _, hcalls⟩ := traceback_of_active_calls hafter herror
      exact ⟨error, herror, hframes, hlast, hcalls⟩
    next => cases hframes

end ScriptLang
