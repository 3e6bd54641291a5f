import ScriptLang.Proofs.Eval.Rule
import ScriptLang.Proofs.Passage.Append
import ScriptLang.Proofs.Token.Splice
import ScriptLang.Session

/-! Programs that are run in pieces. Main statement: to run two programs with a line break between them
is to run the one and then the other. -/
namespace ScriptLang

section Reflexive

variable {L : Leeway} {α : Type}

private theorem function_refl (hspans : ∀ s, L.spans s s) (f : FunctionDef Node) :
    FunctionDef.Alike L.spans 0 (SameCode L) f f := by
  cases (Node.Alike.refl hspans ⟨.function f, default⟩).shape with
  | function definition => exact definition

private theorem classDef_refl (hspans : ∀ s, L.spans s s) (c : ClassDef Node) :
    ClassDef.Alike L.spans 0 (SameCode L) c c := by
  cases (Node.Alike.refl hspans ⟨.classDefinition c, default⟩).shape with
  | classDefinition definition => exact definition

section

variable {P : α → α → Prop} (h : ∀ a, P a a)

include h

private theorem option_refl (a : Option α) : Option.Rel P a a := by
  cases a with
  | none => exact .none
  | some a => exact .some (h a)

private theorem aligned_refl (a : Array α) : Aligned P a a :=
  List.forall₂_same.mpr fun x _ => h x

private theorem table_refl (t : Table α) : Table.Alike P t t :=
  List.forall₂_same.mpr fun entry _ => .mk entry.1 (h entry.2)

end

variable (hspans : ∀ s, L.spans s s) (hshown : ∀ id, ¬L.hidden id)
include hspans hshown

private theorem Class.Alike.refl : ∀ c : Class, Class.Alike L c c
  | ⟨id, definition, none, _⟩ =>
    .root id (classDef_refl hspans definition) (.mk fun id _ => hshown id)
  | ⟨id, definition, some parent, _⟩ =>
    .child id (classDef_refl hspans definition) (Class.Alike.refl parent) (.mk fun id _ => hshown id)

private theorem Instance.Alike.refl (i : Instance) : Instance.Alike L i i :=
  .mk i.id (.refl hspans hshown i.cls)

theorem Value.Alike.refl (v : Value) : Value.Alike L v v := by
  cases v with
  | nothing => exact .nothing
  | number value => exact .number value
  | text value => exact .text value
  | boolean value => exact .boolean value
  | list id => exact .list id
  | dict id => exact .dict id
  | function f =>
    have hclass := option_refl (Class.Alike.refl hspans hshown) f.classScope
    have hreceiver := option_refl (Instance.Alike.refl hspans hshown) f.receiver
    exact .function (.mk (function_refl hspans f.code) (.mk fun id _ => hshown id) hclass hreceiver)
  | builtin native => exact .builtin native
  | «class» c => exact .cls (.refl hspans hshown c)
  | «instance» i => exact .object (.refl hspans hshown i)

private theorem Interrupt.Alike.refl (i : Interrupt) : Interrupt.Alike L i i := by
  cases i with
  | returned value => exact .returned (.refl hspans hshown value)
  | broken => exact .broken
  | continued => exact .continued
  | failed => exact .failed rfl
  | exhausted => exact .exhausted

/-- A state is alike itself, but for lines that were taken out of it. -/
theorem Store.Alike.refl (s : Store) (output : Array String) :
    Store.Alike ⟨L, output⟩ { s with output := #[] } { s with output } := by
  have hvalue := Value.Alike.refl hspans hshown
  have hmember (m : Member) : Member.Alike L m m :=
    .mk m.visibility (hvalue m.value) (.refl hspans hshown m.owner)
  refine ⟨⟨?_, ?_⟩, ⟨rfl, ?_, ?_⟩, ?_, ?_, ?_, rfl⟩
  · exact aligned_refl (aligned_refl hvalue) _
  · exact aligned_refl (fun d => ⟨table_refl hvalue _, rfl⟩) _
  · exact fun id hid => absurd hid (hshown id)
  · exact fun id _ => table_refl (fun b => .mk b.isConstant (hvalue b.value)) _
  · exact aligned_refl (table_refl hmember) _
  · exact aligned_refl (table_refl hmember) _
  · exact (Array.append_empty).symm

end Reflexive

def IsProgram (source : String) : Prop :=
  ∃ tokens result, tokenize source = .ok tokens ∧ Program.parse 0 tokens = .ok result

/-- What a run behind `first` and a line break may differ in from a run alone: stretches of source are
the same, or moved to where they stand behind `first`. -/
def Leeway.behind (first : String) : Leeway where
  spans s t := t = s ∨ t = s.moved (.after .origin (first.toList ++ ['\n']))

/-- Outcomes with related values in the same order, or that fail for the same cause. -/
inductive Execution.Alike (L : Leeway) : Execution → Execution → Prop
  | values {a b} (output : List String) (same : SameValues L a b) :
      Alike L ⟨output, .ok a⟩ ⟨output, .ok b⟩
  | failed {e f : EvalError} (output : List String) (cause : e.cause = f.cause) :
      Alike L ⟨output, .error (.fault (.running e))⟩ ⟨output, .error (.fault (.running f))⟩
  | exhausted (output : List String) :
      Alike L ⟨output, .error .exhausted⟩ ⟨output, .error .exhausted⟩

/-- What was done by an input that printed `output` and had `values`, and by the next one. -/
def Execution.behind (output : List String) (values : List Value) (next : Execution) : Execution :=
  ⟨output ++ next.output, (values ++ ·) <$> next.outcome⟩

/-- Sessions in which programs find the same but for stretches of source. -/
structure Session.Alike (L : Leeway) (s t : Session) : Prop where
  limit : s.limit = t.limit
  scope : s.scope = t.scope
  store : Store.Alike ⟨L, #[]⟩ s.store t.store

namespace Session

variable {s : Session} {first second source : String} {program more : Program} {m n : Nat}

theorem read_eq_ok {result : Program × Nat} : s.read source = .ok result ↔
    ∃ tokens, tokenize source = .ok tokens ∧ Program.parse s.nextId tokens = .ok result := by
  unfold read
  cases tokenize source with
  | error stop => cases stop <;> exact ⟨nofun, nofun⟩
  | ok tokens =>
    dsimp only
    cases hparse : Program.parse s.nextId tokens with
    | error stop =>
      cases stop <;> refine ⟨nofun, ?_⟩ <;> rintro ⟨_, ⟨⟩, h⟩ <;> cases hparse.symm.trans h
    | ok =>
      constructor
      · rintro ⟨⟩
        exact ⟨tokens, rfl, hparse⟩
      · rintro ⟨_, ⟨⟩, h⟩
        cases hparse.symm.trans h
        rfl

theorem isProgram_of_isOk (h : ((Session.new 0).read source).isOk = true) : IsProgram source := by
  cases hread : (Session.new 0).read source with
  | error =>
    rw [hread] at h
    cases h
  | ok result =>
    obtain ⟨tokens, htokens, hparse⟩ := read_eq_ok.mp hread
    exact ⟨tokens, result, htokens, hparse⟩

private theorem tokens_ne_nil {tokens : List Token} (h : tokenize source = .ok tokens) : tokens ≠ [] := by
  obtain ⟨front, last, _, _, _, rfl, _⟩ := tokenize_append h h
  simp

theorem read_of_isProgram (h : IsProgram source) (s : Session) : ∃ program n, s.read source = .ok (program, n) := by
  obtain ⟨tokens, ⟨nodes, last⟩, htokens, hparse⟩ := h
  obtain ⟨nodes', hparse', _⟩ :=
    Program.parse_moved (tokenize_alike htokens) (tokens_ne_nil htokens) hparse s.nextId
  rw [Nat.zero_add] at hparse'
  exact ⟨nodes', last + s.nextId, read_eq_ok.mpr ⟨tokens, htokens, hparse'⟩⟩

/-- Two programs with a line break between them are read as the statements of both. -/
theorem read_append (hfirst : s.read first = .ok (program, m))
    (hsecond : { s with nextId := m }.read second = .ok (more, n)) :
    ∃ more', s.read (first ++ "\n" ++ second) = .ok (program ++ more', n) ∧
      List.Forall₂ (SameCode (.behind first)) more more' := by
  obtain ⟨ts, hts, hparse⟩ := read_eq_ok.mp hfirst
  obtain ⟨us, hus, hparse'⟩ := read_eq_ok.mp hsecond
  obtain ⟨front, last, front', span, us', rfl, hend, hgoes, hfront, hsame, hwhole⟩ :=
    tokenize_append hts hus
  have hnewline : (Token.mk .newline span).kind = .newline := rfl
  obtain ⟨more', hboth, hmore⟩ := Program.parse_append hfront hgoes (TokenKind.isEnd_iff.mp hend)
    hnewline hsame (tokens_ne_nil hus) hparse hparse'
  refine ⟨more', read_eq_ok.mpr ⟨_, hwhole, hboth⟩, hmore.imp fun _ _ h => ?_⟩
  exact h.mono fun _ _ hspan => .inr hspan

def runInTurn (s : Session) (fuel : Nat) (first second : String) : Execution × Session :=
  let (head, t) := s.run fuel first
  match head.outcome with
  | .error _ => (head, t)
  | .ok values =>
    let (tail, u) := t.run fuel second
    (.behind head.output values tail, u)

private def ended (s : Session) : EStateM.Result Interrupt Store (List Value) → Execution × Session
  | .ok values store =>
    (⟨store.output.toList, .ok values⟩, { s with store := { store with output := #[] } })
  | .error interrupt store =>
    (⟨store.output.toList, .error (stop interrupt)⟩, { s with store := { store with output := #[] } })

private def programOf (s : Session) (fuel : Nat) (program : Program) : Eval (List Value) :=
  Machine.program ⟨s.limit, fuel, evaluate s.limit fuel⟩ program ⟨⟨"<program>", []⟩, s.scope, none⟩

private theorem execute_eq (s : Session) (fuel : Nat) (program : Program) :
    s.execute fuel program = s.ended (s.programOf fuel program s.store) := rfl

private theorem run_eq (h : s.read source = .ok (program, n)) (fuel : Nat) :
    s.run fuel source = { s with nextId := n }.execute fuel program := by
  rw [run, h]

end Session

/-- Statements in a row go in step with statements that are the same but for their stretches. -/
theorem Machine.Alike.program {L : Difference} {m n : Machine} (hm : Machine.Alike L m n) {a b : Program}
    (h : List.Forall₂ (SameCode L) a b) {c d : Context} (hc : Context.Alike L c d) :
    Eval.Alike L (SameValues L) (m.program a c) (n.program b d) :=
  .mapM h fun _ _ hab => hm.value hc hab

namespace Session

variable {L : Leeway}

private theorem stopped_alike {before output : List String} {i j : Interrupt} (h : Interrupt.Alike L i j)
    (houtput : before = output) : Execution.Alike L ⟨before, .error (stop i)⟩ ⟨output, .error (stop j)⟩ := by
  subst houtput
  cases h with
  | failed cause => exact .failed before cause
  | _ => exact .exhausted before

/-- Inputs that go on in step from where another one has ended. -/
private theorem behind_alike {before : Array String} {values : List Value}
    {x y : EStateM.Result Interrupt Store (List Value)} (s : Session)
    (h : Ended (Interrupt.Alike L) (Store.Alike ⟨L, before⟩) (fun a b => SameValues L (values ++ a) b) x y) :
    Execution.Alike L (.behind before.toList values (s.ended x).1) (s.ended y).1 ∧
      Session.Alike L (s.ended x).2 (s.ended y).2 ∧ (s.ended y).2.nextId = (s.ended x).2.nextId := by
  have houtput {t u : Store} (h : Store.Alike ⟨L, before⟩ t u) :
      before.toList ++ t.output.toList = u.output.toList := by
    rw [h.output, Array.toList_append]
  cases h with
  | ok result state =>
    refine ⟨?_, ⟨rfl, rfl, { state with output := rfl }⟩, rfl⟩
    dsimp only [ended, Execution.behind]
    rw [houtput state]
    exact .values _ result
  | error cause state =>
    exact ⟨stopped_alike cause (houtput state), ⟨rfl, rfl, { state with output := rfl }⟩, rfl⟩

private theorem programOf_append (s : Session) (fuel : Nat) (a b : Program) :
    s.programOf fuel (a ++ b) = s.programOf fuel a >>= fun values =>
      s.programOf fuel b >>= fun others => pure (values ++ others) :=
  List.mapM_append

/-- Statements that go on from where others have ended do what they do in a session of their own. -/
private theorem more_alike (hspans : ∀ s, L.spans s s) (hshown : ∀ id, ¬L.hidden id) (s : Session) (fuel : Nat)
    (h : List.Forall₂ (SameCode L) program more) (values : List Value) (store : Store) :
    Ended (Interrupt.Alike L) (Store.Alike ⟨L, store.output⟩)
      (fun a b => SameValues L (values ++ a) b)
      (s.programOf fuel program { store with output := #[] })
      ((s.programOf fuel more >>= fun others => pure (values ++ others)) store) := by
  have hcontext : Context.Alike L ⟨⟨"<program>", []⟩, s.scope, none⟩ ⟨⟨"<program>", []⟩, s.scope, none⟩ :=
    ⟨.mk fun id _ => hshown id, .none⟩
  have hmachine : Machine.Alike ⟨L, store.output⟩ ⟨s.limit, fuel, evaluate s.limit fuel⟩
      ⟨s.limit, fuel, evaluate s.limit fuel⟩ :=
    ⟨rfl, rfl, fun hcode hc => evaluate_alike hspans s.limit fuel hcode hc⟩
  have hvalues : SameValues L values values :=
    List.forall₂_same.mpr fun v _ => .refl hspans hshown v
  have hrun := InStep.bind (hmachine.program h hcontext) fun a b hab =>
    InStep.pure (P := fun a b => SameValues L (values ++ a) b)
      (List.rel_append hvalues hab)
  rw [bind_pure] at hrun
  exact hrun _ _ (.refl hspans hshown store store.output)

/-- Two programs with a line break between them do what the first one does and, if it succeeds, what
the second one does then: the same lines, the same values, the same failure, and the same effect on the
session, but that stretches of the second program are moved. -/
theorem run_append (s : Session) (fuel : Nat) {first second : String} (hfirst : IsProgram first)
    (hsecond : IsProgram second) :
    let inTurn := s.runInTurn fuel first second
    let whole := s.run fuel (first ++ "\n" ++ second)
    Execution.Alike (.behind first) inTurn.1 whole.1 ∧ Session.Alike (.behind first) inTurn.2 whole.2 ∧
      ((s.run fuel first).1.outcome.isOk → whole.2.nextId = inTurn.2.nextId) := by
  intro inTurn whole
  obtain ⟨program, middle, hread⟩ := read_of_isProgram hfirst s
  obtain ⟨more, last, hread'⟩ := read_of_isProgram hsecond { s with nextId := middle }
  obtain ⟨more', hboth, hmore⟩ := read_append hread hread'
  have hspans (span : Span) : (Leeway.behind first).spans span span := .inl rfl
  have hshown (id : FrameId) : ¬(Leeway.behind first).hidden id := not_false
  have hhead : s.run fuel first =
      ended { s with nextId := middle } (s.programOf fuel program s.store) := by
    rw [run_eq hread, execute_eq]
    rfl
  have hwhole : whole =
      ended { s with nextId := last } ((s.programOf fuel (program ++ more')) s.store) := by
    rw [show whole = s.run fuel _ from rfl, run_eq hboth, execute_eq]
    rfl
  rw [programOf_append] at hwhole
  change whole = ended _ (EStateM.bind _ _ s.store) at hwhole
  rw [EStateM.bind] at hwhole
  generalize hrun : s.programOf fuel program s.store = result at hhead hwhole
  cases result with
  | error interrupt store =>
    have hturn : inTurn = ended { s with nextId := middle } (.error interrupt store) := by
      rw [show inTurn = s.runInTurn fuel first second from rfl, runInTurn, hhead]
      rfl
    rw [hturn, hwhole, hhead]
    refine ⟨stopped_alike (.refl hspans hshown interrupt) rfl, ⟨rfl, rfl, ?_⟩, nofun⟩
    exact .refl hspans hshown store #[]
  | ok values store =>
    let t : Session := { s with nextId := middle, store := { store with output := #[] } }
    have htail : t.run fuel second =
        ended { s with nextId := last } (s.programOf fuel more { store with output := #[] }) := by
      rw [run_eq (show t.read second = .ok (more, last) from hread'), execute_eq]
      rfl
    have hturn : inTurn = (.behind store.output.toList values (t.run fuel second).1,
        (t.run fuel second).2) := by
      rw [show inTurn = s.runInTurn fuel first second from rfl, runInTurn, hhead]
      rfl
    obtain ⟨hexecution, hsession, hids⟩ :=
      behind_alike { s with nextId := last } (more_alike hspans hshown s fuel hmore values store)
    rw [hturn, htail, hwhole]
    exact ⟨hexecution, hsession, fun _ => hids⟩

/-- A program with a function, and one behind it that prints its value and then fails. -/
theorem run_append_of_call :
    let first := "var x = 'a'\nfunc f() -> x"
    let second := "\nprint(f())\nif y: x"
    let inTurn := (Session.new 9).runInTurn 99 first second
    let whole := (Session.new 9).run 99 (first ++ "\n" ++ second)
    IsProgram first ∧ IsProgram second ∧
    Execution.Alike (.behind first) inTurn.1 whole.1 ∧ Session.Alike (.behind first) inTurn.2 whole.2 ∧
      (((Session.new 9).run 99 first).1.outcome.isOk → whole.2.nextId = inTurn.2.nextId) := by
  intro first second inTurn whole
  have hfirst : IsProgram first := isProgram_of_isOk (by decide +kernel)
  have hsecond : IsProgram second := isProgram_of_isOk (by decide +kernel)
  exact ⟨hfirst, hsecond, run_append (Session.new 9) 99 hfirst hsecond⟩

end Session

end ScriptLang
