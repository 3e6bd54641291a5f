import ScriptLang.Tree.Node

/-! The nodes inside of a node, however deep functions, parameters and classes wrap them.

Main statement: what passes from the parts of a node to the node holds of every node. -/
namespace ScriptLang

variable {ν : Type}

def Index.parts : Index ν → List ν
  | .single key => [key]
  | .push => []
  | .slice start stop => start.toList ++ stop.toList

def Param.parts (p : Param ν) : List ν := p.fallback.toList

def FunctionDef.parts (f : FunctionDef ν) : List ν := f.params.flatMap Param.parts ++ [f.body]

def PropertyDef.parts (p : PropertyDef ν) : List ν := p.value.toList

def MethodDef.parts (m : MethodDef ν) : List ν := m.function.parts

def ClassDef.parts (c : ClassDef ν) : List ν :=
  c.properties.flatMap PropertyDef.parts ++ c.methods.flatMap MethodDef.parts ++
    c.getters.flatMap MethodDef.parts ++ c.setters.flatMap MethodDef.parts

def TemplatePart.parts : TemplatePart ν → List ν
  | .text _ => []
  | .expression node => [node]

def Branch.parts (b : Branch ν) : List ν := [b.condition, b.body]

/-- The nodes right below a layer of the tree, in the order of its fields. -/
def Shape.parts : Shape ν → List ν
  | .number _ | .text _ | .boolean _ | .nothing | .lookup _ | .continueLoop | .breakLoop | .pass
  | .superProperty _ | .enumeration _ _ => []
  | .template parts => parts.flatMap TemplatePart.parts
  | .list elements => elements
  | .dict entries => entries.map (·.2)
  | .declare _ value | .declareConstant _ value | .assign _ value => [value]
  | .delete target => [target]
  | .index target key _ => target :: key.parts
  | .assignIndex target key value => target :: (key.parts ++ [value])
  | .property target _ _ | .staticProperty target _ _ => [target]
  | .assignProperty target _ value | .assignStatic target _ value => [target, value]
  | .binary _ left right => [left, right]
  | .unary _ operand => [operand]
  | .conditional branches otherwise _ => branches.flatMap Branch.parts ++ otherwise.toList
  | .countingLoop _ start stop step body _ => start.toList ++ [stop] ++ step.toList ++ [body]
  | .eachLoop items _ _ body _ => [items, body]
  | .whileLoop condition body _ => [condition, body]
  | .switch cases otherwise => cases.flatMap (fun c => [c.1, c.2]) ++ otherwise.toList
  | .block statements => statements
  | .function definition => definition.parts
  | .call callee args _ => callee :: args
  | .returnWith value => value.toList
  | .classDefinition definition => definition.parts
  | .instantiate cls args => cls :: args
  | .superCall args => args

def Node.parts (n : Node) : List Node := n.shape.parts

section Size

variable [SizeOf ν] {part : ν}

private theorem toList_size {o : Option ν} (h : part ∈ o.toList) : sizeOf part < sizeOf o := by
  cases o with
  | none => simp at h
  | some a =>
    have he : part = a := by simpa using h
    subst he
    simp only [Option.some.sizeOf_spec]
    omega

private theorem flatMap_size {σ : Type} [SizeOf σ] {l : List σ} {f : σ → List ν}
    (hf : ∀ x, part ∈ f x → sizeOf part < sizeOf x) (h : part ∈ l.flatMap f) : sizeOf part < sizeOf l := by
  obtain ⟨x, hx, hp⟩ := List.mem_flatMap.mp h
  exact Nat.lt_trans (hf x hp) (List.sizeOf_lt_of_mem hx)

private theorem index_size (i : Index ν) (h : part ∈ i.parts) : sizeOf part < sizeOf i := by
  cases i with
  | single key =>
    have he : part = key := by simpa [Index.parts] using h
    subst he
    simp only [Index.single.sizeOf_spec]
    omega
  | push => simp [Index.parts] at h
  | slice start stop =>
    simp only [Index.parts, List.mem_append] at h
    simp only [Index.slice.sizeOf_spec]
    rcases h with h | h <;> have := toList_size h <;> omega

private theorem param_size (p : Param ν) (h : part ∈ p.parts) : sizeOf part < sizeOf p := by
  obtain ⟨name, typeName, isRest, isOptional, fallback, span⟩ := p
  have := toList_size (o := fallback) h
  simp only [Param.mk.sizeOf_spec]
  omega

private theorem function_size (f : FunctionDef ν) (h : part ∈ f.parts) : sizeOf part < sizeOf f := by
  obtain ⟨id, name, params, body, autoReturn, span⟩ := f
  simp only [FunctionDef.parts, List.mem_append, List.mem_singleton] at h
  simp only [FunctionDef.mk.sizeOf_spec]
  rcases h with h | rfl
  · have := flatMap_size (fun p hp => param_size p hp) h
    omega
  · omega

private theorem property_size (p : PropertyDef ν) (h : part ∈ p.parts) : sizeOf part < sizeOf p := by
  obtain ⟨name, value, flags, span⟩ := p
  have := toList_size (o := value) h
  simp only [PropertyDef.mk.sizeOf_spec]
  omega

private theorem method_size (m : MethodDef ν) (h : part ∈ m.parts) : sizeOf part < sizeOf m := by
  obtain ⟨name, function, flags, span⟩ := m
  have := function_size function h
  simp only [MethodDef.mk.sizeOf_spec]
  omega

private theorem class_size (c : ClassDef ν) (h : part ∈ c.parts) : sizeOf part < sizeOf c := by
  obtain ⟨name, parent, properties, methods, getters, setters, span⟩ := c
  simp only [ClassDef.parts, List.mem_append] at h
  simp only [ClassDef.mk.sizeOf_spec]
  rcases h with ((h | h) | h) | h
  · have := flatMap_size (fun p hp => property_size p hp) h
    omega
  all_goals
    have := flatMap_size (fun m hm => method_size m hm) h
    omega

private theorem templatePart_size (p : TemplatePart ν) (h : part ∈ p.parts) : sizeOf part < sizeOf p := by
  cases p with
  | text value => simp [TemplatePart.parts] at h
  | expression node =>
    have he : part = node := by simpa [TemplatePart.parts] using h
    subst he
    simp only [TemplatePart.expression.sizeOf_spec]
    omega

private theorem branch_size (b : Branch ν) (h : part ∈ b.parts) : sizeOf part < sizeOf b := by
  simp only [Branch.parts, List.mem_cons, List.not_mem_nil, or_false] at h
  cases b
  simp only [Branch.mk.sizeOf_spec]
  rcases h with rfl | rfl <;> omega

private theorem pair_size (c : ν × ν) (h : part ∈ [c.1, c.2]) : sizeOf part < sizeOf c := by
  simp only [List.mem_cons, List.not_mem_nil, or_false] at h
  cases c
  simp only [Prod.mk.sizeOf_spec]
  rcases h with rfl | rfl <;> omega

private theorem entry_size {entries : List (String × ν)}
    (h : part ∈ entries.map (·.2)) : sizeOf part < sizeOf entries := by
  obtain ⟨⟨key, value⟩, hx, rfl⟩ := List.mem_map.mp h
  have := List.sizeOf_lt_of_mem hx
  simp only [Prod.mk.sizeOf_spec] at this ⊢
  omega

/-- A part is smaller than the layer it stands in. -/
theorem Shape.parts_size (s : Shape ν) (h : part ∈ s.parts) : sizeOf part < sizeOf s := by
  cases s <;> simp only [Shape.parts, List.mem_append, List.mem_cons, List.not_mem_nil,
    or_false] at h
  case template parts =>
    have := flatMap_size (fun p hp => templatePart_size p hp) h
    simp only [Shape.template.sizeOf_spec]
    omega
  case list elements =>
    have := List.sizeOf_lt_of_mem h
    simp only [Shape.list.sizeOf_spec]
    omega
  case dict entries =>
    have := entry_size h
    simp only [Shape.dict.sizeOf_spec]
    omega
  case index target key _ =>
    simp only [Shape.index.sizeOf_spec]
    rcases h with rfl | h
    · omega
    · have := index_size key h
      omega
  case assignIndex target key value =>
    simp only [Shape.assignIndex.sizeOf_spec]
    rcases h with rfl | h | rfl
    · omega
    · have := index_size key h
      omega
    · omega
  case conditional branches otherwise _ =>
    simp only [Shape.conditional.sizeOf_spec]
    rcases h with h | h
    · have := flatMap_size (fun b hb => branch_size b hb) h
      omega
    · have := toList_size h
      omega
  case countingLoop name start stop step body _ =>
    simp only [Shape.countingLoop.sizeOf_spec]
    rcases h with ((h | rfl) | h) | rfl
    · have := toList_size h
      omega
    · omega
    · have := toList_size h
      omega
    · omega
  case switch cases otherwise =>
    simp only [Shape.switch.sizeOf_spec]
    rcases h with h | h
    · have := flatMap_size pair_size h
      omega
    · have := toList_size h
      omega
  case block statements =>
    have := List.sizeOf_lt_of_mem h
    simp only [Shape.block.sizeOf_spec]
    omega
  case function definition =>
    have := function_size definition h
    simp only [Shape.function.sizeOf_spec]
    omega
  case call callee args _ =>
    simp only [Shape.call.sizeOf_spec]
    rcases h with rfl | h
    · omega
    · have := List.sizeOf_lt_of_mem h
      omega
  case returnWith value =>
    have := toList_size h
    simp only [Shape.returnWith.sizeOf_spec]
    omega
  case classDefinition definition =>
    have := class_size definition h
    simp only [Shape.classDefinition.sizeOf_spec]
    omega
  case instantiate cls args =>
    simp only [Shape.instantiate.sizeOf_spec]
    rcases h with rfl | h
    · omega
    · have := List.sizeOf_lt_of_mem h
      omega
  case superCall args =>
    have := List.sizeOf_lt_of_mem h
    simp only [Shape.superCall.sizeOf_spec]
    omega
  case assignProperty | assignStatic | binary | eachLoop | whileLoop =>
    rcases h with rfl | rfl <;> simp +arith
  all_goals
    subst h
    simp +arith

end Size

theorem Node.parts_size {part n : Node} (h : part ∈ n.parts) : sizeOf part < sizeOf n := by
  obtain ⟨shape, span⟩ := n
  have := Shape.parts_size shape h
  simp only [Node.mk.sizeOf_spec]
  omega

/-- What holds of a node whenever it holds of its parts holds of every node. -/
theorem Node.induction {P : Node → Prop} (step : ∀ n : Node, (∀ part ∈ n.parts, P part) → P n) (n : Node) : P n := by
  induction h : sizeOf n using Nat.strongRecOn generalizing n with
  | ind size ih =>
    apply step
    intro part hp
    exact ih _ (h ▸ Node.parts_size hp) part rfl

end ScriptLang
