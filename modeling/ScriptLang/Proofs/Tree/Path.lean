import ScriptLang.Proofs.Tree.Parts
import ScriptLang.Value.Class

/-! Ways down the tree: the nodes that a part stands in, and what it is to each of them.

Main statement: the parts that have a role are the parts of a layer. -/
namespace ScriptLang

variable {ν : Type}

/-- What a part is to the node right above it: a piece of the node's own code, or code that a function
or a class keeps for later. -/
inductive Role (ν : Type) where
  | own
  /-- The default value of a parameter. -/
  | fallback
  /-- The body of a function that belongs to no class. -/
  | body
  /-- The initial value of a property. -/
  | initialValue
  /-- The body of a method, a getter or a setter. -/
  | member (kind : MethodKind) (definition : MethodDef ν)

def FunctionDef.fallbacks (f : FunctionDef ν) : List ν := f.params.flatMap Param.parts

def FunctionDef.roles (inner : Role ν) (f : FunctionDef ν) : List (Role ν × ν) :=
  f.fallbacks.map (.fallback, ·) ++ [(inner, f.body)]

def MethodDef.roles (kind : MethodKind) (m : MethodDef ν) : List (Role ν × ν) :=
  m.function.roles (.member kind m)

def ClassDef.roles (c : ClassDef ν) : List (Role ν × ν) :=
  (c.properties.flatMap PropertyDef.parts).map (.initialValue, ·) ++
    c.methods.flatMap (MethodDef.roles .method) ++ c.getters.flatMap (MethodDef.roles .getter) ++
      c.setters.flatMap (MethodDef.roles .setter)

def Shape.roles : Shape ν → List (Role ν × ν)
  | .function definition => definition.roles .body
  | .classDefinition definition => definition.roles
  | shape => shape.parts.map (.own, ·)

section Roles

private theorem map_snd_pair (role : Role ν) (parts : List ν) : (parts.map (role, ·)).map (·.2) = parts := by
  rw [List.map_map]
  exact List.map_id parts

theorem FunctionDef.roles_map (inner : Role ν) (f : FunctionDef ν) : (f.roles inner).map (·.2) = f.parts := by
  rw [FunctionDef.roles, List.map_append, map_snd_pair]
  rfl

theorem MethodDef.roles_map (kind : MethodKind) (methods : List (MethodDef ν)) :
    (methods.flatMap (MethodDef.roles kind)).map (·.2) = methods.flatMap MethodDef.parts := by
  rw [List.map_flatMap]
  congr 1
  funext m
  exact m.function.roles_map _

theorem ClassDef.roles_map (c : ClassDef ν) : c.roles.map (·.2) = c.parts := by
  simp only [ClassDef.roles, ClassDef.parts, List.map_append, map_snd_pair, MethodDef.roles_map]

/-- Every part has a role, and nothing else has. -/
theorem Shape.roles_map (shape : Shape ν) : shape.roles.map (·.2) = shape.parts := by
  cases shape with
  | function definition => exact definition.roles_map _
  | classDefinition definition => exact definition.roles_map
  | _ => exact map_snd_pair .own _

theorem Shape.exists_role {shape : Shape ν} {part : ν} (h : part ∈ shape.parts) :
    ∃ role, (role, part) ∈ shape.roles := by
  rw [← shape.roles_map] at h
  obtain ⟨⟨role, _⟩, hrole, rfl⟩ := List.mem_map.mp h
  exact ⟨role, hrole⟩

end Roles

/-- The parts of the methods, getters and setters are parts of a class. -/
theorem Class.own_roles {cls : Class} {kind : MethodKind} {method : MethodDef Node} (hmethod : method ∈ cls.own kind)
    {entry : Role Node × Node} (hentry : entry ∈ method.roles kind) : entry ∈ cls.definition.roles := by
  have hroles : entry ∈ (cls.own kind).flatMap (MethodDef.roles kind) :=
    List.mem_flatMap.mpr ⟨method, hmethod, hentry⟩
  cases kind with
  | method => exact List.mem_append_left _ (List.mem_append_left _ (List.mem_append_right _ hroles))
  | getter => exact List.mem_append_left _ (List.mem_append_right _ hroles)
  | setter => exact List.mem_append_right _ hroles

/-- One step of a way down: the node it starts from, and the role of the part it goes to. -/
structure Step where
  node : Node
  role : Role Node

def Step.class? (step : Step) : Option (ClassDef Node) :=
  match step.node.shape with
  | .classDefinition definition => some definition
  | _ => none

/-- The steps of `path`, the last one first, lead from `root` to a node. -/
inductive Node.Leads (root : Node) : List Step → Node → Prop
  | here : Leads root [] root
  | down {path : List Step} {n part : Node} {role : Role Node} (above : Leads root path n)
      (h : (role, part) ∈ n.shape.roles) : Leads root (⟨n, role⟩ :: path) part

/-- The way that takes, step by step, the part of each of these numbers, the last step first, and the
node it leads to. -/
def Node.follow (root : Node) : List Nat → Option (List Step × Node)
  | [] => some ([], root)
  | i :: numbers => do
    let (path, n) ← root.follow numbers
    let (role, part) ← n.shape.roles[i]?
    return (⟨n, role⟩ :: path, part)

theorem Node.leads_of_follow {root n : Node} {numbers : List Nat} {path : List Step}
    (h : root.follow numbers = some (path, n)) : root.Leads path n := by
  induction numbers generalizing path n with
  | nil =>
    cases h
    exact .here
  | cons i numbers ih =>
    obtain ⟨⟨before, above⟩, hbefore, h⟩ := Option.bind_eq_some_iff.mp h
    obtain ⟨⟨role, part⟩, hpart, h⟩ := Option.bind_eq_some_iff.mp h
    cases h
    exact .down (ih hbefore) (List.mem_of_getElem? hpart)

end ScriptLang
