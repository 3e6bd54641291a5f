import ScriptLang.Eval.Basic
import ScriptLang.Proofs.Tree.Parts

/-! The greatest length of lists and texts: the states of a program in which nothing is too long, and the
code that checks all that it makes. -/
namespace ScriptLang

def Builtin.isUnchecked : Builtin → Bool
  | append | insert | keys | values | str => true
  | _ => false

instance (p : Builtin → Prop) [DecidablePred p] : Decidable (∀ b, p b) :=
  decidable_of_iff (∀ b ∈ Builtin.all, p b) ⟨fun h b => h b (Builtin.mem_all b), fun h b _ => h b⟩

def FitText (text : String) : Prop := text.utf8ByteSize ≤ maxLength

instance (text : String) : Decidable (FitText text) := inferInstanceAs (Decidable (_ ≤ _))

/-- A layer of the tree that makes nothing too long: what it spells out is not, it is no template and no
loop that collects values, and it does not name a function that makes texts or lists of any length. -/
def Shape.Modest : Shape Node → Prop
  | .text value => FitText value
  | .template _ => False
  | .list nodes | .call _ nodes _ | .instantiate _ nodes | .superCall nodes => nodes.length ≤ maxLength
  | .dict entries => ∀ entry ∈ entries, FitText entry.1
  | .lookup name => ∀ b : Builtin, b.name = name → b.isUnchecked = false
  | .assignProperty _ name _ => FitText name
  | .countingLoop _ _ _ _ _ discards | .eachLoop _ _ _ _ discards | .whileLoop _ _ discards =>
    discards = true
  | .classDefinition definition => FitText definition.name
  | .enumeration _ members => ∀ name ∈ members, FitText name
  | _ => True

instance (shape : Shape Node) : Decidable shape.Modest := by
  unfold Shape.Modest
  split <;> infer_instance

namespace Node

/-- Code that makes nothing too long, all the way down. -/
inductive Modest : Node → Prop
  | mk {node : Node} (here : node.shape.Modest) (parts : ∀ part ∈ node.parts, Modest part) : Modest node

theorem modest_iff {node : Node} : node.Modest ↔ node.shape.Modest ∧ ∀ part ∈ node.parts, part.Modest :=
  ⟨fun ⟨here, parts⟩ => ⟨here, parts⟩, fun ⟨here, parts⟩ => .mk here parts⟩

def isModest (node : Node) : Bool :=
  decide node.shape.Modest && node.parts.attach.all fun ⟨part, _⟩ => part.isModest
termination_by sizeOf node
decreasing_by exact parts_size ‹_›

theorem isModest_iff (node : Node) : node.isModest = true ↔ node.Modest := by
  induction node using Node.induction with
  | step node ih =>
    rw [isModest, modest_iff, Bool.and_eq_true, decide_eq_true_eq]
    simp only [List.all_eq_true, List.mem_attach, true_imp_iff, Subtype.forall]
    exact and_congr_right fun _ => forall₂_congr ih

instance (node : Node) : Decidable node.Modest := decidable_of_iff _ node.isModest_iff

end Node

theorem Class.mem_lineage : (cls : Class) → cls ∈ cls.lineage
  | ⟨_, _, none, _⟩ => List.mem_cons_self
  | ⟨_, _, some _, _⟩ => List.mem_cons_self

theorem Class.parent_mem_lineage {cls parent : Class} (h : cls.parent = some parent) : parent ∈ cls.lineage := by
  obtain ⟨id, definition, _, scope⟩ := cls
  cases h
  exact List.mem_cons_of_mem _ parent.mem_lineage

/-- What holds of a class and of the lineage of its parent holds of its own lineage. -/
theorem Class.forall_lineage {Q : Class → Prop} {cls : Class} (h : Q cls)
    (hparent : ∀ parent ∈ cls.parent, ∀ owner ∈ parent.lineage, Q owner) : ∀ owner ∈ cls.lineage, Q owner := by
  obtain ⟨id, definition, parent, scope⟩ := cls
  cases parent with
  | none => exact List.forall_mem_singleton.mpr h
  | some parent => exact List.forall_mem_cons.mpr ⟨h, hparent parent rfl⟩

def Class.Fits (cls : Class) : Prop :=
  ∀ owner ∈ cls.lineage, FitText owner.name ∧ ∀ part ∈ owner.definition.parts, part.Modest

structure Closure.Fits (f : Closure) : Prop where
  code : ∀ part ∈ f.code.parts, part.Modest
  classScope : ∀ cls ∈ f.classScope, cls.Fits
  receiver : ∀ object ∈ f.receiver, object.cls.Fits

def Value.Fits : Value → Prop
  | .text value => FitText value
  | .function closure => closure.Fits
  | .builtin b => b.isUnchecked = false
  | .class cls => cls.Fits
  | .instance object => object.cls.Fits
  | _ => True

structure FitElements (elements : Array Value) : Prop where
  size : elements.size ≤ maxLength
  all : ∀ v ∈ elements, v.Fits

def FitEntries (entries : Dict Value) : Prop := ∀ entry ∈ entries.toList, FitText entry.1 ∧ entry.2.Fits

structure Heap.Fits (h : Heap) : Prop where
  list : ∀ id, FitElements (h.list id)
  dict : ∀ id, FitEntries (h.dict id)

def TablesFit {α : Type} (P : String → α → Prop) (tables : Array (Table α)) : Prop :=
  ∀ i, ∀ entry ∈ tables.getD i [], P entry.1 entry.2

/-- What a name may stand for. A function that makes things of any length has no name but its own. -/
def FitBinding (name : String) (binding : Binding) : Prop :=
  binding.value.Fits ∨ ∃ b : Builtin, binding.value = .builtin b ∧ b.name = name

structure Store.Fits (s : Store) : Prop where
  heap : s.heap.Fits
  frames : TablesFit FitBinding s.frames.all
  statics : TablesFit (fun _ member => member.value.Fits) s.statics
  members : TablesFit (fun _ member => member.value.Fits) s.members

def Interrupt.Fits : Interrupt → Prop
  | .returned value => value.Fits
  | _ => True

def Context.Fits (ctx : Context) : Prop := ∀ cls ∈ ctx.classScope, cls.Fits

end ScriptLang
