import ScriptLang.Proofs.Form.Program

/-! What the form of a program says of a node deep inside: how many signs stand around it, and which body
a call of the parent's constructor belongs to. -/
namespace ScriptLang

section Descent

/-- Whether a step goes into the body of a function or of a method, which settles whether constructors can
be chained there. -/
def Step.entersBody (step : Step) : Bool :=
  match step.role with
  | .body | .member .method _ => true
  | _ => false

def Step.entersConstructor (step : Step) : Bool :=
  match step.role with
  | .member .method definition => definition.name = constructorName
  | _ => false

/-- Whether the end of a way belongs to a constructor, given whether its beginning does. -/
def inConstructorAt (around : Bool) (path : List Step) : Bool :=
  ((path.find? Step.entersBody).map Step.entersConstructor).getD around

theorem inConstructorAt_cons (around : Bool) (step : Step) (path : List Step) :
    inConstructorAt around (step :: path) = step.role.inConstructor (inConstructorAt around path) := by
  obtain ⟨n, role⟩ := step
  cases role with
  | member kind definition => cases kind <;> rfl
  | _ => rfl

/-- What a way down from an admitted node leads to is admitted where it stands. -/
theorem Node.Leads.admitted {p : Place} {root n : Node} {path : List Step} (h : root.Leads path n)
    (hroot : root.Admitted p) (hlimit : p.depth ≤ maxNesting) :
    ∃ q : Place, n.Admitted q ∧ q.inConstructor = inConstructorAt p.inConstructor path ∧
      p.depth + path.countP (·.node.shape.isSign) ≤ q.depth ∧ q.depth ≤ maxNesting := by
  induction h with
  | here => exact ⟨p, hroot, rfl, Nat.le_refl _, hlimit⟩
  | @down path n part role _ hpart ih =>
    obtain ⟨q, hn, hflag, hcount, hq⟩ := ih
    obtain ⟨q', hdepth, hbound, hsame, hroom, hadmitted⟩ := hn.part hpart
    have hflag' : role.inConstructor q'.inConstructor =
        inConstructorAt p.inConstructor (⟨n, role⟩ :: path) := by
      rw [inConstructorAt_cons, hsame, hflag]
    refine ⟨_, hadmitted, ?_, ?_⟩
    · rw [← hflag', Place.part]
      split <;> rfl
    · rw [List.countP_cons, Place.part]
      have := hbound hq
      cases hsign : n.shape.isSign with
      | true =>
        have := hroom hsign
        simp only [↓reduceIte, Place.deeper, Place.inside]
        omega
      | false =>
        simp only [Bool.false_eq_true, ↓reduceIte, Place.inside]
        omega

end Descent

section Text

/-- The way through the first statement of a text that takes the parts of these numbers. -/
def wayThrough (source : String) (numbers : List Nat) : Option (List Step × Node) := do
  let tokens ← (tokenize source).toOption
  let (program, _) ← (Program.parse 0 tokens).toOption
  let statement ← program.head?
  statement.follow numbers

private theorem eq_ok_of_toOption {ε α : Type} {e : Except ε α} {a : α} (h : e.toOption = some a) : e = .ok a := by
  cases e with
  | error => cases h
  | ok b =>
    cases h
    rfl

/-- Where a way through a text leads can be tested. -/
theorem leads_of_wayThrough (source : String) (numbers : List Nat) (test : List Step → Node → Bool)
    (h : (wayThrough source numbers).any (fun way => test way.1 way.2) = true) :
    ∃ tokens program nextId, tokenize source = .ok tokens ∧
      Program.parse 0 tokens = .ok (program, nextId) ∧
      ∃ statement ∈ program, ∃ path n, statement.Leads path n ∧ test path n = true := by
  obtain ⟨⟨path, n⟩, hway, htest⟩ := (Option.any_eq_true _ _).mp h
  obtain ⟨tokens, htokens, hway⟩ := Option.bind_eq_some_iff.mp hway
  obtain ⟨⟨program, nextId⟩, hprogram, hway⟩ := Option.bind_eq_some_iff.mp hway
  obtain ⟨statement, hstatement, hway⟩ := Option.bind_eq_some_iff.mp hway
  refine ⟨tokens, program, nextId, eq_ok_of_toOption htokens, eq_ok_of_toOption hprogram, statement,
    List.mem_of_head? hstatement, path, n, Node.leads_of_follow hway, htest⟩

end Text

section Constructor

/-- A call of the parent's constructor belongs to the body of a constructor: of the bodies of functions and
methods around it, the innermost is one. Getters, setters, initial values and default values in between do
not matter. Anywhere else such a call is a fault. -/
theorem Program.superCall_in_constructor {firstId nextId : Nat} {tokens : List Token} {program : Program}
    (h : Program.parse firstId tokens = .ok (program, nextId)) :
    (∀ statement ∈ program, ∀ path n, statement.Leads path n → n.shape.isSuperCall = true →
      ∃ step, path.find? Step.entersBody = some step ∧ step.entersConstructor = true) ∧
    ∀ (g : Grammar) (r : Surroundings) (s : ParseState), r.inConstructor = false →
      Parser.superCall g r s =
        .error (.fault ⟨.superOutsideConstructor, s.stream.current.span⟩) := by
  constructor
  · intro statement hstatement path n hleads hcall
    obtain ⟨q, hn, hflag, _⟩ := hleads.admitted (Program.parse_admitted h statement hstatement) (Nat.zero_le _)
    rw [hn.chained hcall, inConstructorAt] at hflag
    cases hbody : path.find? Step.entersBody with
    | none => simp [hbody, Place.top] at hflag
    | some step => exact ⟨step, rfl, by simpa [hbody] using hflag.symm⟩
  · intro g r s hflag
    change (if (!r.inConstructor) = true then _ else _ : Parser Node) r _ = _
    rw [hflag]
    rfl

/-- A constructor chains in a branch of its body. -/
theorem Program.superCall_in_constructor_branch :
    ∃ tokens program nextId,
      tokenize "class B extends A:\n    method __init(n):\n        if n: super(n)\n    end\nend" = .ok tokens ∧
      Program.parse 0 tokens = .ok (program, nextId) ∧
      ∃ statement ∈ program, ∃ path n, statement.Leads path n ∧ n.shape.isSuperCall = true ∧
        ∃ step, path.find? Step.entersBody = some step ∧ step.entersConstructor = true := by
  obtain ⟨tokens, program, nextId, htokens, hparse, statement, hstatement, path, n, hleads, hcall⟩ :=
    leads_of_wayThrough "class B extends A:\n    method __init(n):\n        if n: super(n)\n    end\nend"
      [1, 0, 0] (fun _ n => n.shape.isSuperCall) (by decide +kernel)
  exact ⟨tokens, program, nextId, htokens, hparse, statement, hstatement, path, n, hleads, hcall,
    (superCall_in_constructor hparse).1 statement hstatement path n hleads hcall⟩

/-- Whether a step goes into code that a function or a class keeps for later. -/
def Step.entersCode (step : Step) : Bool :=
  match step.role with
  | .own => false
  | _ => true

/-- The innermost of all code around a call need not be a constructor: here it is the getter of a class
inside of one. -/
theorem Program.superCall_in_getter :
    ∃ tokens program nextId,
      tokenize ("class A:\n    method __init():\n        class B:\n            getter g:\n" ++
        "                super()\n            end\n        end\n    end\nend") = .ok tokens ∧
      Program.parse 0 tokens = .ok (program, nextId) ∧
      ∃ statement ∈ program, ∃ path n, statement.Leads path n ∧ n.shape.isSuperCall = true ∧
        (path.find? Step.entersCode).any Step.entersConstructor = false := by
  obtain ⟨tokens, program, nextId, htokens, hparse, statement, hstatement, path, n, hleads, htest⟩ :=
    leads_of_wayThrough
      ("class A:\n    method __init():\n        class B:\n            getter g:\n" ++
        "                super()\n            end\n        end\n    end\nend")
      [0, 0, 0, 0]
      (fun path n => n.shape.isSuperCall && !(path.find? Step.entersCode).any Step.entersConstructor)
      (by decide +kernel)
  refine ⟨tokens, program, nextId, htokens, hparse, statement, hstatement, path, n, hleads, ?_⟩
  simpa using htest

end Constructor

section Sign

/-- No node stands inside of more than `maxNesting` operators in front of an operand other than `not`: where
as many levels are open, the next one is a fault before its operand is read. -/
theorem Program.signs_le_maxNesting {firstId nextId : Nat} {tokens : List Token} {program : Program}
    (h : Program.parse firstId tokens = .ok (program, nextId)) :
    (∀ statement ∈ program, ∀ path n, statement.Leads path n →
      path.countP (·.node.shape.isSign) ≤ maxNesting) ∧
    ∀ (g : Grammar) (r : Surroundings) (s : ParseState), maxNesting ≤ r.depth →
      (Parser.unaryOp? s.stream.current.kind).isSome = true →
        Parser.factor g r s = .error (.fault ⟨.nestingTooDeep, s.stream.advance.current.span⟩) := by
  constructor
  · intro statement hstatement path n hleads
    obtain ⟨q, _, _, hcount, hlimit⟩ :=
      hleads.admitted (Program.parse_admitted h statement hstatement) (Nat.zero_le _)
    have : Place.top.depth = 0 := rfl
    omega
  · intro g r s hdepth hop
    obtain ⟨op, hop⟩ := Option.isSome_iff_exists.mp hop
    unfold Parser.factor
    rw [Parser.bind_apply, show Parser.kind r s = .ok (s.stream.current.kind, s) from rfl]
    dsimp only
    rw [hop]
    change (Parser.nested g.factor >>= fun operand => pure
      (⟨.unary op operand, s.stream.current.span.cover operand.span⟩ : Node)) r
        { s with stream := s.stream.advance } = _
    rw [Parser.bind_apply, Parser.nested_apply, if_neg (Nat.not_lt.mpr hdepth)]

/-- Signs are counted through parentheses, lists and templates. -/
theorem Program.signs_le_maxNesting_mixed :
    ∃ tokens program nextId, tokenize "- ~ typeof [+ 1, `\x7b- (- n)\x7d`]" = .ok tokens ∧
      Program.parse 0 tokens = .ok (program, nextId) ∧
      ∃ statement ∈ program, ∃ path n, statement.Leads path n ∧
        path.countP (·.node.shape.isSign) = 5 ∧ path.countP (·.node.shape.isSign) ≤ maxNesting := by
  obtain ⟨tokens, program, nextId, htokens, hparse, statement, hstatement, path, n, hleads, hcount⟩ :=
    leads_of_wayThrough "- ~ typeof [+ 1, `\x7b- (- n)\x7d`]" [0, 0, 0, 1, 0, 0, 0]
      (fun path _ => path.countP (·.node.shape.isSign) = 5) (by decide +kernel)
  exact ⟨tokens, program, nextId, htokens, hparse, statement, hstatement, path, n, hleads,
    by simpa using hcount, (signs_le_maxNesting hparse).1 statement hstatement path n hleads⟩

def Shape.isUnary {ν : Type} : Shape ν → Bool
  | .unary _ _ => true
  | _ => false

/-- Of `not` there can be more. -/
theorem Program.nots_exceed_maxNesting :
    ∃ tokens program nextId,
      tokenize (String.join (List.replicate 129 "!") ++ "true") = .ok tokens ∧
      Program.parse 0 tokens = .ok (program, nextId) ∧
      ∃ statement ∈ program, ∃ path n, statement.Leads path n ∧
        maxNesting < path.countP (·.node.shape.isUnary) := by
  obtain ⟨tokens, program, nextId, htokens, hparse, statement, hstatement, path, n, hleads, hcount⟩ :=
    leads_of_wayThrough (String.join (List.replicate 129 "!") ++ "true") (List.replicate 129 0)
      (fun path _ => maxNesting < path.countP (·.node.shape.isUnary)) (by decide +kernel)
  exact ⟨tokens, program, nextId, htokens, hparse, statement, hstatement, path, n, hleads,
    by simpa using hcount⟩

end Sign

end ScriptLang
