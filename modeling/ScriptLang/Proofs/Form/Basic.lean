import ScriptLang.Grammar.Assignment
import ScriptLang.Proofs.Tree.Path

/-! The form of a syntax tree: what its layers look like, and what depends on where they stand.

Main statement: an admitted node is well-formed, and its parts are admitted where they stand. -/
namespace ScriptLang

section WellFormed

variable {ν : Type}

/-- Parameters to which arguments can be bound one after the other: distinct names, the mandatory ones
before the optional ones, and one parameter for the rest at most, at the end, with a type and not
optional itself. -/
structure Param.Ordered (params : List (Param ν)) : Prop where
  names : (params.map (·.name)).Nodup
  restLast : ∀ p ∈ params.dropLast, p.isRest = false
  rest : ∀ p ∈ params, p.isRest = true → p.isOptional = false ∧ p.typeName.isSome = true
  optional : params.Pairwise fun before behind =>
    before.isOptional = true → behind.isOptional = true ∨ behind.isRest = true

/-- Properties and methods share their names, getters and setters have names of their own. A getter
takes nothing and a setter one value, and neither of them is static. -/
structure ClassDef.WellFormed (c : ClassDef ν) : Prop where
  names : (c.properties.map (·.name) ++ c.methods.map (·.name)).Nodup
  getterNames : (c.getters.map (·.name)).Nodup
  setterNames : (c.setters.map (·.name)).Nodup
  params : ∀ m ∈ c.methods ++ c.getters ++ c.setters, Param.Ordered m.function.params
  getters : ∀ m ∈ c.getters, m.function.params = [] ∧ m.flags.isStatic = false
  setters : ∀ m ∈ c.setters,
    (∃ only, m.function.params = [only] ∧ only.isRest = false) ∧ m.flags.isStatic = false

/-- What a layer has to look like, whatever surrounds it. -/
def Shape.WellFormed : Shape Node → Prop
  | .dict entries => (entries.map (·.1)).Nodup
  | .delete target => (∃ name, target.shape = .lookup name) ∨
      ∃ owner key, target.shape = .index owner (.single key) false
  | .index _ .push _ => False
  | .assignIndex _ (.slice _ _) _ => False
  | .block statements => statements ≠ []
  | .function definition => Param.Ordered definition.params
  | .classDefinition definition => definition.WellFormed
  | .enumeration _ members => members ≠ [] ∧ members.Nodup
  | _ => True

/-- Whether a layer is an operator in front of its operand, other than `not`. -/
def Shape.isSign : Shape ν → Bool
  | .unary op _ => op ≠ .not
  | _ => false

def Shape.isSuperCall : Shape ν → Bool
  | .superCall _ => true
  | _ => false

/-- Whether the parts of a layer stand where the layer stands, and it may stand anywhere. -/
def Shape.isPlain : Shape ν → Bool
  | .function _ | .classDefinition _ | .superCall _ => false
  | .unary op _ => op = .not
  | _ => true

end WellFormed

/-- What of the surroundings of a node matters for its form. -/
structure Place where
  depth : Nat
  inConstructor : Bool

def Surroundings.place (r : Surroundings) : Place := ⟨r.depth, r.inConstructor⟩

def Place.deeper (p : Place) : Place := { p with depth := p.depth + 1 }

/-- Whether a part belongs to the body of a constructor, given whether its node does. A body of a
function or of a method decides for itself; the bodies of getters and setters, initial values and default
values go with what surrounds the class or the function. -/
def Role.inConstructor {ν : Type} (around : Bool) : Role ν → Bool
  | .body => false
  | .member .method definition => definition.name = constructorName
  | _ => around

def Place.inside (p : Place) (role : Role Node) : Place :=
  ⟨p.depth, role.inConstructor p.inConstructor⟩

def Place.part (p : Place) (shape : Shape Node) (role : Role Node) : Place :=
  if shape.isSign then (p.inside role).deeper else p.inside role

/-- A node that may stand at a place, with all its parts where they stand. -/
inductive Node.Admitted : Place → Node → Prop
  | layer {p : Place} {n : Node} (form : n.shape.WellFormed)
      (chained : n.shape.isSuperCall = true → p.inConstructor = true)
      (room : n.shape.isSign = true → p.depth < maxNesting)
      (parts : ∀ role part, (role, part) ∈ n.shape.roles → Admitted (p.part n.shape role) part) :
      Admitted p n
  | deeper {p : Place} {n : Node} (room : p.depth < maxNesting) (inner : Admitted p.deeper n) :
      Admitted p n

namespace Node.Admitted

variable {p : Place} {n m : Node} {span : Span} {f : FunctionDef Node}

theorem wellFormed (h : n.Admitted p) : n.shape.WellFormed := by
  induction h with
  | layer form => exact form
  | deeper _ _ ih => exact ih

/-- Where a node was read from does not matter. -/
theorem respan (h : n.Admitted p) (hshape : m.shape = n.shape) : m.Admitted p := by
  induction h with
  | layer form chained room parts =>
    rw [← hshape] at form chained room parts
    exact .layer form chained room parts
  | deeper room _ ih => exact .deeper room (ih hshape)

/-- The parts of an admitted node are admitted where they stand, seen from the place of the node or from
deeper inside. -/
theorem part (h : n.Admitted p) {role : Role Node} {part : Node} (hpart : (role, part) ∈ n.shape.roles) :
    ∃ q : Place, p.depth ≤ q.depth ∧ (p.depth ≤ maxNesting → q.depth ≤ maxNesting) ∧
      q.inConstructor = p.inConstructor ∧ (n.shape.isSign = true → q.depth < maxNesting) ∧
        part.Admitted (q.part n.shape role) := by
  induction h with
  | @layer p _ _ _ room parts =>
    exact ⟨p, Nat.le_refl _, id, rfl, room, parts role part hpart⟩
  | deeper room _ ih =>
    obtain ⟨q, hdepth, hlimit, hflag, hroom, hpart⟩ := ih hpart
    exact ⟨q, Nat.le_of_succ_le hdepth, fun _ => hlimit room, hflag, hroom, hpart⟩

theorem chained (h : n.Admitted p) (hshape : n.shape.isSuperCall = true) : p.inConstructor = true := by
  induction h with
  | layer _ chained => exact chained hshape
  | deeper _ _ ih => exact ih hshape

section Plain

variable {shape : Shape Node}

section

variable (h : shape.isPlain = true)

include h

theorem roles_of_isPlain : shape.roles = shape.parts.map (.own, ·) := by
  cases shape with
  | function | classDefinition => cases h
  | _ => rfl

theorem isSign_of_isPlain : shape.isSign = false := by
  cases shape <;> simp_all [Shape.isSign, Shape.isPlain]

theorem isSuperCall_of_isPlain : shape.isSuperCall = false := by
  cases shape <;> simp_all [Shape.isSuperCall, Shape.isPlain]

theorem part_of_isPlain : p.part shape .own = p := by
  simp [Place.part, isSign_of_isPlain h, Place.inside, Role.inConstructor]

end

theorem plain (hplain : shape.isPlain = true) (form : shape.WellFormed)
    (parts : ∀ part ∈ shape.parts, part.Admitted p) : Admitted p ⟨shape, span⟩ := by
  apply layer form
  · simp [isSuperCall_of_isPlain hplain]
  · simp [isSign_of_isPlain hplain]
  · intro role part hpart
    rw [roles_of_isPlain hplain] at hpart
    obtain ⟨node, hnode, heq⟩ := List.mem_map.mp hpart
    cases heq
    rw [part_of_isPlain hplain]
    exact parts _ hnode

theorem parts_of_isPlain (h : n.Admitted p) (hplain : n.shape.isPlain = true) :
    ∀ part ∈ n.shape.parts, part.Admitted p := by
  intro part hpart
  induction h with
  | layer _ _ _ parts =>
    rw [roles_of_isPlain hplain] at parts
    have hadmitted := parts .own part (List.mem_map_of_mem hpart)
    rwa [part_of_isPlain hplain] at hadmitted
  | deeper room _ ih => exact .deeper room (ih hplain hpart)

end Plain

/-- The parts of a function: default values where the function stands, and the body in its role. -/
theorem function_parts {inner : Role Node} (fallbacks : ∀ n ∈ f.fallbacks, n.Admitted p)
    (body : f.body.Admitted (p.inside inner)) {role : Role Node} {part : Node} (h : (role, part) ∈ f.roles inner) :
    part.Admitted (p.inside role) := by
  rcases List.mem_append.mp h with h | h
  · obtain ⟨node, hnode, heq⟩ := List.mem_map.mp h
    cases heq
    exact fallbacks _ hnode
  · cases List.mem_singleton.mp h
    exact body

theorem function (ordered : Param.Ordered f.params) (fallbacks : ∀ n ∈ f.fallbacks, n.Admitted p)
    (body : f.body.Admitted (p.inside .body)) : Admitted p ⟨.function f, span⟩ := by
  apply layer
  · exact ordered
  · simp [Shape.isSuperCall]
  · simp [Shape.isSign]
  · intro role part hpart
    exact function_parts fallbacks body hpart

theorem classDefinition {c : ClassDef Node} (form : c.WellFormed)
    (parts : ∀ role part, (role, part) ∈ c.roles → part.Admitted (p.inside role)) :
    Admitted p ⟨.classDefinition c, span⟩ := by
  apply layer
  · exact form
  · simp [Shape.isSuperCall]
  · simp [Shape.isSign]
  · exact parts

end Node.Admitted

/-- What can stand to the left of `=`: an admitted node, or a node that is to be rejected or rewritten
there, because it is an index with empty brackets, or has one inside and nothing can be assigned to
it. -/
inductive Node.Operand (p : Place) (n : Node) (s : ParseState) : Prop
  | admitted (h : n.Admitted p)
  | brackets {target : Node} {optional : Bool} (shape : n.shape = .index target .push optional)
      (inner : target.Admitted p) (atEqual : s.stream.current.kind = .symbol .equal)
  | fixed (h : ∀ value, n.written? value = none) (atEqual : s.stream.current.kind = .symbol .equal)

/-- Where another sign is at hand, an operand is admitted. -/
theorem Node.Operand.admitted_of_ne {p : Place} {n : Node} {s : ParseState} (h : n.Operand p s)
    (hkind : s.stream.current.kind ≠ .symbol .equal) : n.Admitted p := by
  cases h with
  | admitted h => exact h
  | brackets _ _ atEqual => exact absurd atEqual hkind
  | fixed _ atEqual => exact absurd atEqual hkind

end ScriptLang
