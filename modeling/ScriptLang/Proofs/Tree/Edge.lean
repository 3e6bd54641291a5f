import ScriptLang.Proofs.Tree.Path

/-! Where `return`, `break` and `continue` stand.

An edge leads from a node to a part of it, and a way down the tree is a list of edges. Main statement: a
check that goes down the tree with what may leave the code tells whether all of them are well placed. -/
namespace ScriptLang

variable {ν : Type} {path : List Edge}

/-- How a part stands to the node right above it. -/
inductive Edge where
  /-- A piece of the node's own code. -/
  | inline
  /-- The body of a loop. -/
  | turn
  /-- The body of a function, a method, a getter or a setter. -/
  | call
  /-- The default value of a parameter, or the initial value of a property. -/
  | alone
  deriving DecidableEq

/-- Whether the code below an edge runs on its own, apart from the code above it. -/
def Edge.isApart : Edge → Bool
  | inline | turn => false
  | call | alone => true

def Role.edge : Role ν → Edge
  | own => .inline
  | fallback | initialValue => .alone
  | body | member _ _ => .call

def Shape.edges : Shape ν → List (Edge × ν)
  | .countingLoop _ start stop step body _ =>
    (start.toList ++ [stop] ++ step.toList).map (.inline, ·) ++ [(.turn, body)]
  | .eachLoop items _ _ body _ => [(.inline, items), (.turn, body)]
  | .whileLoop condition body _ => [(.inline, condition), (.turn, body)]
  | shape => shape.roles.map fun (role, part) => (role.edge, part)

/-- The edges lead to the parts. -/
theorem Shape.edges_map (shape : Shape ν) : shape.edges.map (·.2) = shape.parts := by
  cases shape with
  | countingLoop _ start stop step body =>
    rw [edges, List.map_append, List.map_map]
    exact congrArg (· ++ [body]) (List.map_id (start.toList ++ [stop] ++ step.toList))
  | eachLoop | whileLoop => rfl
  | _ =>
    rw [edges, List.map_map, ← roles_map]
    · rfl
    all_goals exact nofun

theorem Shape.mem_parts {shape : Shape ν} {edge : Edge} {part : ν} (h : (edge, part) ∈ shape.edges) :
    part ∈ shape.parts := by
  rw [← shape.edges_map]
  exact List.mem_map_of_mem h

/-- Whether a layer runs all of its parts as its own code. -/
def Shape.isDirect : Shape ν → Bool
  | .countingLoop .. | .eachLoop .. | .whileLoop .. | .function _ | .classDefinition _ => false
  | _ => true

theorem Shape.edges_direct {shape : Shape ν} (h : shape.isDirect = true) :
    shape.edges = shape.parts.map (.inline, ·) := by
  cases shape with
  | countingLoop | eachLoop | whileLoop | function | classDefinition => cases h
  | _ => exact List.map_map

/-- The edges from `root` down to a node, the last one first. -/
inductive Node.Contains (root : Node) : List Edge → Node → Prop
  | here : Contains root [] root
  | down {path : List Edge} {n part : Node} {edge : Edge} (above : Contains root path n)
      (h : (edge, part) ∈ n.shape.edges) : Contains root (edge :: path) part

theorem Node.Contains.of_part {root part n : Node} {edge : Edge} (hpart : (edge, part) ∈ root.shape.edges)
    (h : part.Contains path n) : root.Contains (path ++ [edge]) n := by
  induction h with
  | here => exact .down .here hpart
  | down _ hdown ih => exact .down ih hdown

def Node.IsJump (n : Node) : Prop := n.shape = .breakLoop ∨ n.shape = .continueLoop

def Node.IsReturn (n : Node) : Prop := ∃ value, n.shape = .returnWith value

/-- A way down the tree goes along such an edge, and from there on into nothing that runs on its own. -/
def Edge.Encloses (target : Edge) (path : List Edge) : Prop :=
  ∃ near far, path = near ++ target :: far ∧ ∀ edge ∈ near, edge.isApart = false

/-- Every jump stands in the body of a loop and every `return` in a body that is called, with nothing
between them that runs on its own. -/
def Node.WellPlaced (root : Node) : Prop :=
  ∀ path n, root.Contains path n →
    (n.IsJump → Edge.turn.Encloses path) ∧ (n.IsReturn → Edge.call.Encloses path)

/-- A jump stands in the node, but in no loop's body and in no code that runs on its own. -/
def Node.HasLooseJump (node : Node) : Prop :=
  ∃ path n, node.Contains path n ∧ n.IsJump ∧ ∀ edge ∈ path, edge = .inline

/-- A `return` stands in the node, but in no code that runs on its own. -/
def Node.HasLooseReturn (node : Node) : Prop :=
  ∃ path n, node.Contains path n ∧ n.IsReturn ∧ ∀ edge ∈ path, edge.isApart = false

/-- What may leave some code: a `return`, or a jump out of a loop. -/
structure Exits where
  returns : Bool
  jumps : Bool

namespace Exits

variable {x : Exits}

/-- What may leave code that runs on its own: nothing, or anything if the rules are lax. -/
def alone (lax : Bool) : Exits := ⟨lax, lax⟩

/-- What may leave a body that is called: a `return`, or anything if the rules are lax. -/
def called (lax : Bool) : Exits := ⟨true, lax⟩

def looped (x : Exits) : Exits := { x with jumps := true }

def admits (x : Exits) : Shape ν → Bool
  | .returnWith _ => x.returns
  | .breakLoop | .continueLoop => x.jumps
  | _ => true

def into (lax : Bool) (edge : Edge) (x : Exits) : Exits :=
  match edge with
  | .inline => x
  | .turn => x.looped
  | .call => called lax
  | .alone => alone lax

def along (lax : Bool) (path : List Edge) (x : Exits) : Exits := path.foldr (into lax) x

theorem admits_iff {n : Node} : x.admits n.shape = true ↔
    (n.IsJump → x.jumps = true) ∧ (n.IsReturn → x.returns = true) := by
  obtain ⟨shape, span⟩ := n
  cases shape <;> simp [admits, Node.IsJump, Node.IsReturn]

theorem encloses_cons {target edge : Edge} :
    target.Encloses (edge :: path) ↔ edge = target ∨ edge.isApart = false ∧ target.Encloses path := by
  constructor
  · rintro ⟨near, far, hpath, hnear⟩
    cases near with
    | nil => exact .inl (List.cons.inj hpath).1
    | cons first near =>
      obtain ⟨rfl, rfl⟩ := List.cons.inj hpath
      obtain ⟨hfirst, hnear⟩ := List.forall_mem_cons.mp hnear
      exact .inr ⟨hfirst, near, far, rfl, hnear⟩
  · rintro (rfl | ⟨hedge, near, far, rfl, hnear⟩)
    · exact ⟨[], path, rfl, nofun⟩
    · exact ⟨edge :: near, far, rfl, List.forall_mem_cons.mpr ⟨hedge, hnear⟩⟩

/-- Where code that runs on its own must be closed, only the body of a loop can be left by a jump, and only a body
that is called by a `return`. -/
theorem along_alone : ((along false path (alone false)).jumps = true ↔ Edge.turn.Encloses path) ∧
    ((along false path (alone false)).returns = true ↔ Edge.call.Encloses path) := by
  induction path with
  | nil => simp [along, alone, Edge.Encloses]
  | cons edge path ih =>
    rw [encloses_cons, encloses_cons, ← ih.1, ← ih.2]
    cases edge <;> simp [along, into, alone, called, looped, Edge.isApart]

theorem jumps_along_lax : (along true path x).jumps = true ↔ x.jumps = true ∨ ∃ edge ∈ path, edge ≠ .inline := by
  induction path with
  | nil => simp [along]
  | cons edge path ih =>
    cases edge <;> simp_all [along, into, alone, called, looped]

theorem returns_along_lax :
    (along true path x).returns = true ↔ x.returns = true ∨ ∃ edge ∈ path, edge.isApart = true := by
  induction path with
  | nil => simp [along]
  | cons edge path ih =>
    cases edge <;> simp_all [along, into, alone, called, looped, Edge.isApart]

end Exits

namespace Node

/-- Whether all jumps and returns stand where they may, if `x` may leave the node. -/
def isPlaced (lax : Bool) (x : Exits) (node : Node) : Bool :=
  x.admits node.shape &&
    node.shape.edges.attach.all fun ⟨(edge, part), _⟩ => part.isPlaced lax (x.into lax edge)
termination_by sizeOf node
decreasing_by exact parts_size (Shape.mem_parts ‹_›)

variable {lax : Bool} {x : Exits} {node : Node}

theorem isPlaced_iff : node.isPlaced lax x = true ↔ x.admits node.shape = true ∧
    ∀ edge part, (edge, part) ∈ node.shape.edges → part.isPlaced lax (x.into lax edge) = true := by
  rw [isPlaced, Bool.and_eq_true]
  simp only [List.all_eq_true, List.mem_attach, true_imp_iff, Subtype.forall, Prod.forall]

theorem isPlaced_parts (h : node.isPlaced lax x = true) (hdirect : node.shape.isDirect = true) :
    ∀ part ∈ node.parts, part.isPlaced lax x = true := by
  intro part hpart
  apply (isPlaced_iff.mp h).2 .inline part
  rw [Shape.edges_direct hdirect]
  exact List.mem_map_of_mem hpart

/-- The check looks at every node, with what may leave it. -/
theorem isPlaced_iff_contains : node.isPlaced lax x = true ↔
    ∀ path n, node.Contains path n → (x.along lax path).admits n.shape = true := by
  constructor
  · intro h path n hcontains
    have hplaced : n.isPlaced lax (x.along lax path) = true := by
      induction hcontains with
      | here => exact h
      | down _ hpart ih => exact (isPlaced_iff.mp ih).2 _ _ hpart
    exact (isPlaced_iff.mp hplaced).1
  · intro h
    induction node using Node.induction generalizing x with
    | step node ih =>
      refine isPlaced_iff.mpr ⟨h [] node .here, fun edge part hpart => ?_⟩
      refine ih part (Shape.mem_parts hpart) fun path n hcontains => ?_
      have hroot := h _ n (hcontains.of_part hpart)
      rwa [Exits.along, List.foldr_append] at hroot

theorem wellPlaced_iff : node.WellPlaced ↔ node.isPlaced false (.alone false) = true := by
  rw [isPlaced_iff_contains]
  simp only [Exits.admits_iff, Exits.along_alone]
  rfl

instance (node : Node) : Decidable node.WellPlaced := decidable_of_iff _ wellPlaced_iff.symm

/-- By the lax rules every node is placed, if what is loose in it may leave it. -/
theorem isPlaced_loose (hjump : node.HasLooseJump → x.jumps = true)
    (hreturn : node.HasLooseReturn → x.returns = true) : node.isPlaced true x = true := by
  refine isPlaced_iff_contains.mpr fun path n hcontains => Exits.admits_iff.mpr ⟨fun hn => ?_, fun hn => ?_⟩
  · refine Exits.jumps_along_lax.mpr (Classical.or_iff_not_imp_right.mpr fun hnone => ?_)
    refine hjump ⟨path, n, hcontains, hn, fun edge hedge => ?_⟩
    exact Classical.not_not.mp fun hne => hnone ⟨edge, hedge, hne⟩
  · refine Exits.returns_along_lax.mpr (Classical.or_iff_not_imp_right.mpr fun hnone => ?_)
    refine hreturn ⟨path, n, hcontains, hn, fun edge hedge => ?_⟩
    exact Bool.eq_false_iff.mpr fun hapart => hnone ⟨edge, hedge, hapart⟩

end Node

end ScriptLang
