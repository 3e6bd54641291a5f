import ScriptLang.Proofs.Form.Statement
import ScriptLang.Proofs.Lexical.Session

/-! Accepted programs. Main statement: all layers of a program that can be parsed are well-formed, so a
session of such programs never comes to the failures that malformed layers would have. -/
namespace ScriptLang

variable {n m : Node}

/-- A node all of whose layers are well-formed, down to the leaves. -/
def Node.WellFormed (n : Node) : Prop := ∀ m, n.Holds m → m.shape.WellFormed

theorem Node.WellFormed.shape (h : n.WellFormed) : n.shape.WellFormed := h n (.self n)

theorem Node.WellFormed.part (h : n.WellFormed) (hpart : m ∈ n.parts) : m.WellFormed :=
  fun below hbelow => h below (.part hpart hbelow)

/-- What an admitted node holds is admitted at some place. -/
theorem Node.Admitted.wellFormed_holds {p : Place} (h : n.Admitted p) : n.WellFormed := by
  intro below hbelow
  induction hbelow generalizing p with
  | self => exact h.wellFormed
  | part hpart _ ih =>
    obtain ⟨role, hrole⟩ := Shape.exists_role hpart
    obtain ⟨_, -, -, -, -, hadmitted⟩ := h.part hrole
    exact ih hadmitted

/-- Well-formed code may be evaluated for every class. -/
def Placement.wellFormed : Placement where
  admits _ n := n.WellFormed

instance : Placement.wellFormed.Untraced := ⟨rfl⟩

theorem Placement.wellFormed_lexical : wellFormed.Lexical where
  part h _ _ hpart := h.part hpart
  member {_ node} h definition hshape _ _ part hpart := by
    refine h.part ?_
    rwa [Node.parts, hshape]
  modest _ hbounded := Bool.noConfusion hbounded

/-- The rules of evaluation with something else in the place of three failures: to read where nothing stands
in the brackets, to write to a slice, and to delete what is no variable and no element. -/
def Rule.replaced (other : EvalCause → Rule) : Rule := fun m node ctx =>
  match node.shape with
  | .index target .push optional =>
    m.link target optional ctx fun _ => other (.invalidIndex "[]") m node ctx
  | .assignIndex target (.slice _ _) _ => do
    let _ ← m.eval target ctx
    other (.invalidIndex "a slice") m node ctx
  | .delete target =>
    match target.shape with
    | .lookup _ | .index _ (.single _) _ => m.rule node ctx
    | _ => other .invalidDeletion m node ctx
  | _ => m.rule node ctx

/-- With the failures left in their places these are the usual rules. -/
theorem Rule.replaced_fail : Rule.replaced (fun cause _ node ctx => .fail ctx.trace node.span cause) =
    Machine.rule := by
  funext m node ctx
  obtain ⟨shape, span⟩ := node
  cases shape with
  | index target index optional => cases index <;> rfl
  | assignIndex target index value => cases index <;> rfl
  | delete target =>
    obtain ⟨shape, _⟩ := target
    cases shape with
    | index owner index optional => cases index <;> rfl
    | _ => rfl
  | _ => rfl

/-- What stands in the place of the failures does not matter for a well-formed layer. -/
theorem Rule.replaced_of_wellFormed (other : EvalCause → Rule) (m : Machine) {node : Node} (ctx : Context)
    (h : node.shape.WellFormed) : Rule.replaced other m node ctx = m.rule node ctx := by
  obtain ⟨shape, span⟩ := node
  cases shape with
  | index target index optional =>
    cases index with
    | push => exact h.elim
    | single | slice => rfl
  | assignIndex target index value =>
    cases index with
    | slice => exact h.elim
    | single | push => rfl
  | delete target =>
    obtain ⟨shape, _⟩ := target
    rcases h with ⟨name, htarget⟩ | ⟨owner, key, htarget⟩
    · cases htarget
      rfl
    · cases htarget
      rfl
  | _ => rfl

theorem Rule.replaced_usual (other : EvalCause → Rule) : (Rule.replaced other).Usual .wellFormed :=
  fun m _ _ _ _ ctx hnode _ s _ => congrFun (Rule.replaced_of_wellFormed other m ctx hnode.admitted.shape) s

/-- A program that some tokens can be parsed to. -/
def Program.Accepted (program : Program) : Prop :=
  ∃ firstId tokens nextId, Program.parse firstId tokens = .ok (program, nextId)

theorem Program.Accepted.wellFormed {program : Program} (h : program.Accepted) :
    ∀ statement ∈ program, statement.WellFormed := by
  obtain ⟨_, _, _, hparse⟩ := h
  exact fun statement hstatement => (Program.parse_admitted hparse statement hstatement).wellFormed_holds

/-- A program that can be parsed is well-formed throughout. In sessions of such programs it runs the same
whatever stands in the place of the failures of malformed layers, so these are never reached. -/
theorem Program.wellFormed_of_parse {firstId nextId : Nat} {tokens : List Token} {program : Program}
    (h : Program.parse firstId tokens = .ok (program, nextId)) :
    (∀ statement ∈ program, ∀ n, statement.Holds n → n.shape.WellFormed) ∧
    Rule.replaced (fun cause _ node ctx => .fail ctx.trace node.span cause) = Machine.rule ∧
    ∀ {limit : Nat} {programs : List Program} {s : Session}, Session.After limit programs s →
      (∀ before ∈ programs, before.Accepted) → ∀ fuel other,
        s.executeBy (.replaced other) fuel program = s.execute fuel program := by
  have hprogram := Accepted.wellFormed ⟨firstId, tokens, nextId, h⟩
  refine ⟨hprogram, Rule.replaced_fail, fun hs hprograms fuel other => ?_⟩
  have hlexical := Placement.wellFormed_lexical
  have hplaced {p : Program} (h : ∀ statement ∈ p, statement.WellFormed) (statement) (hstatement : statement ∈ p) :
      Placement.wellFormed.At (.alone true) none statement := .of_lax rfl (h statement hstatement)
  obtain ⟨known, hknown⟩ := hs.exists_known hlexical fun p hp => hplaced (hprograms p hp).wellFormed
  exact Session.executeBy_eq hlexical (hplaced hprogram) hknown (Rule.replaced_usual other) fuel

private theorem exists_of_read {s : Session} {source : String} (h : (s.read source).isOk = true) :
    ∃ tokens program nextId, tokenize source = .ok tokens ∧ Program.parse s.nextId tokens = .ok (program, nextId) := by
  unfold Session.read at h
  split at h
  next => cases h
  next => cases h
  next tokens htokens =>
    split at h
    next => cases h
    next => cases h
    next result hparse => exact ⟨tokens, result.1, result.2, htokens, hparse⟩

/-- A program that appends to a list, and deletes an entry of a dictionary and a variable. -/
theorem Program.wellFormed_of_parse_append :
    let source := "var d = \x7b\"k\": true\x7d\nvar xs = [d]\nxs[] = false\ndelete d[\"k\"]\ndelete xs"
    (((Session.new 9).run 9 source).1.outcome matches
      .ok [.dict _, .list _, .boolean false, .nothing, .nothing]) ∧
    ∃ tokens program nextId, tokenize source = .ok tokens ∧
      Program.parse 0 tokens = .ok (program, nextId) ∧
      (∀ statement ∈ program, ∀ n, statement.Holds n → n.shape.WellFormed) ∧
      ∀ other, (Session.new 9).executeBy (.replaced other) 9 program = (Session.new 9).execute 9 program := by
  intro source
  have hread : ((Session.new 9).read source).isOk = true := by decide +kernel
  obtain ⟨tokens, program, nextId, htokens, hparse⟩ := exists_of_read hread
  obtain ⟨hform, -, hreplaced⟩ := Program.wellFormed_of_parse hparse
  exact ⟨by decide +kernel, tokens, program, nextId, htokens, hparse, hform, hreplaced .new nofun 9⟩

end ScriptLang
