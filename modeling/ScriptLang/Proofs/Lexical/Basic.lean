import ScriptLang.Proofs.Tree.Edge
import ScriptLang.Proofs.Value.Passed

/-! Code that stays where it is written: the states of a program in which every function and every class
keeps the code of its place, and every class is known by its number.

The classes of a run are listed in the order in which they are made, so the list of a later state goes on
from that of an earlier one. -/
namespace ScriptLang

/-- Rules for where code may stand. -/
structure Placement where
  /-- Says of a node whether it may be evaluated as code of a class, or as code of no class. -/
  admits : Option Class → Node → Prop
  /-- Whether a `return` or a jump may misfire. -/
  lax : Bool := true
  /-- Whether classes are known by their numbers. -/
  listed : Bool := true
  /-- Whether lists and texts have a greatest length. -/
  bounded : Bool := false
  /-- The greatest number of calls in a trace, if traces are followed. -/
  traced : Option Nat := none

/-- A placement that follows the text: a part of a node belongs to the class of the node, and a member
of a class definition to the classes that are made from it. Where lengths are bounded, code that makes things
of any length has no place. -/
structure Placement.Lexical (I : Placement) : Prop where
  part {cls : Option Class} {node : Node} (h : I.admits cls node)
    (hshape : ∀ definition, node.shape ≠ .classDefinition definition) : ∀ part ∈ node.parts, I.admits cls part
  member {cls : Option Class} {node : Node} (h : I.admits cls node) {definition : ClassDef Node}
    (hshape : node.shape = .classDefinition definition) {made : Class} (hmade : made.definition = definition) :
    ∀ part ∈ definition.parts, I.admits (some made) part
  modest {cls : Option Class} {node : Node} (h : I.admits cls node) (hbounded : I.bounded = true) :
    node.shape.Modest

/-- A placement that does not follow traces. -/
class Placement.Untraced (I : Placement) : Prop where
  traced : I.traced = none

theorem Placement.Untraced.most {I : Placement} [I.Untraced] {limit : Nat} : ∀ most ∈ I.traced, limit ≤ most := by
  rw [Untraced.traced]
  nofun

/-- A node that may stand at a place that `x` may leave. -/
structure Placement.At (I : Placement) (x : Exits) (cls : Option Class) (node : Node) : Prop where
  placed : node.isPlaced I.lax x = true
  admitted : I.admits cls node

variable {I : Placement} {x : Exits} {depth : Nat} {known later : List Class}

/-- By the lax rules, code that runs on its own may be left by everything. -/
theorem Placement.At.of_lax (hlax : I.lax = true) {cls : Option Class} {node : Node} (h : I.admits cls node) :
    I.At (.alone I.lax) cls node where
  placed := by
    rw [hlax]
    exact Node.isPlaced_loose (fun _ => rfl) fun _ => rfl
  admitted := h

/-- A function whose body is left by a `return` only, and whose default values are not left. -/
structure FunctionDef.Placed (I : Placement) (cls : Option Class) (f : FunctionDef Node) : Prop where
  fallback : ∀ param ∈ f.params, ∀ part ∈ param.fallback, I.At (.alone I.lax) cls part
  body : I.At (.called I.lax) cls f.body

/-- The members of a class at their places: its methods are placed, and its initial values are not left. -/
structure Class.Placed (I : Placement) (cls : Class) : Prop where
  name : Short I.bounded cls.name
  property : ∀ property ∈ cls.definition.properties, ∀ part ∈ property.value, I.At (.alone I.lax) (some cls) part
  method : ∀ kind, ∀ method ∈ cls.own kind, method.function.Placed I (some cls)

/-- A class that stands in the list under its number and whose members are placed in it, like all of its
ancestors. -/
def Class.Known (I : Placement) (known : List Class) (cls : Class) : Prop :=
  ∀ owner ∈ cls.lineage, (I.listed = true → known[owner.id]? = some owner) ∧ owner.Placed I

structure Closure.Known (I : Placement) (known : List Class) (f : Closure) : Prop where
  code : f.code.Placed I f.classScope
  classScope : ∀ cls ∈ f.classScope, cls.Known I known
  receiver : ∀ object ∈ f.receiver, object.cls.Known I known

/-- A value that is not too long and all of whose code is placed. -/
def Value.Known (I : Placement) (known : List Class) : Value → Prop
  | .text characters => Short I.bounded characters
  | .builtin b => I.bounded = true → b.isUnchecked = false
  | .function closure => closure.Known I known
  | .class cls => cls.Known I known
  | .instance object => object.cls.Known I known
  | _ => True

def Placement.Spot (I : Placement) (p : Position) : Prop := ∃ cls node, I.admits cls node ∧ node.span.start = p

/-- Whether a label is that of a call, and not of the program, a turn of a loop or the body of a class. -/
def isCallLabel (label : String) : Bool :=
  !(["<program>", "<for>", "<foreach>", "<while>"].contains label) &&
    !("<class ".toList.isPrefixOf label.toList && label.toList.getLast? = some '>')

/-- A failure whose frames are those of the program and of not too many calls. The last one is where it
happened, and the others are where code stands. -/
structure EvalError.Traced (I : Placement) (limit : Nat) (e : EvalError) : Prop where
  first : e.frames.head?.map (·.name) = some "<program>"
  last : e.frames.getLast?.map (·.position) = some e.span.start
  spots : ∀ frame ∈ e.frames.dropLast, I.Spot frame.position
  calls : e.frames.countP (isCallLabel ·.name) ≤ limit

/-- What may interrupt code that `x` may leave. Only by the lax rules can a `return` or a jump misfire. -/
def Interrupt.Known (I : Placement) (x : Exits) (known : List Class) : Interrupt → Prop
  | .returned value => x.returns = true ∧ value.Known I known
  | .broken | .continued => x.jumps = true
  | .failed error => (I.lax = true ∨ error.cause.Ordinary) ∧ ∀ limit ∈ I.traced, error.Traced I limit
  | .exhausted => True

def Trace.labels (t : Trace) : List String := t.label :: t.callers.map (·.name)

/-- The trace of code that is at most `depth` calls deep in the program. -/
structure Trace.Sound (I : Placement) (depth : Nat) (t : Trace) : Prop where
  root : t.labels.getLast? = some "<program>"
  spots : ∀ frame ∈ t.callers, I.Spot frame.position
  calls : t.labels.countP isCallLabel ≤ depth

/-- Where code can fail, or call a function. -/
structure Placement.Site (I : Placement) (depth : Nat) (trace : Trace) (span : Span) : Prop where
  sound : ∀ limit ∈ I.traced, trace.Sound I depth
  spot : I.Spot span.start

/-- A place whose class is known, `depth` calls deep. -/
structure Context.Known (I : Placement) (depth : Nat) (known : List Class) (ctx : Context) : Prop where
  cls : ∀ cls ∈ ctx.classScope, cls.Known I known
  sound : ∀ limit ∈ I.traced, ctx.trace.Sound I depth

/-- A member with placed code, whose owner is known. -/
structure Member.Known (I : Placement) (known : List Class) (member : Member) : Prop where
  value : member.value.Known I known
  owner : I.listed = true → member.owner.Known I known

def Placement.values (I : Placement) (known : List Class) : Value.Trait where
  bounded := I.bounded
  Has := Value.Known I known
  plain v hv := by
    cases v with
    | text | function | builtin | «class» | «instance» => cases hv
    | _ => trivial
  text := Iff.rfl
  className {object} h := (h object.cls object.cls.mem_lineage).2.name

/-- A state all of whose code is placed and all of whose classes are listed, in `depth` calls. Static members
are kept by their owners. -/
structure Store.Known (I : Placement) (depth : Nat) (known : List Class) (s : Store) : Prop where
  depth : ∀ limit ∈ I.traced, s.depth = depth ∧ depth ≤ limit
  count : I.listed = true → s.statics.size = known.length
  classes : I.listed = true → ∀ i (cls : Class), known[i]? = some cls → cls.id = i ∧ cls.Known I known
  heap : s.heap.All (I.values known)
  frames : s.frames.All (I.values known)
  statics : TablesFit (fun _ member => member.Known I known) s.statics
  homes : I.listed = true → ∀ i, ∀ entry ∈ s.statics.getD i [], entry.2.owner.id = i
  members : TablesFit (fun _ member => member.Known I known) s.members

/-! Where a node is placed, so are its parts and the functions and classes that are made from it. -/
section Definition

variable {cls : Option Class} {node : Node} {f : FunctionDef Node}

theorem FunctionDef.Placed.of_roles {inner : Role Node} (hinner : inner.edge = .call)
    (h : ∀ role part, (role, part) ∈ f.roles inner → I.At (x.into I.lax role.edge) cls part) : f.Placed I cls where
  fallback param hparam part hpart := by
    apply h .fallback part
    apply List.mem_append_left
    exact List.mem_map_of_mem (List.mem_flatMap.mpr ⟨param, hparam, Option.mem_toList.mpr hpart⟩)
  body := by
    have hbody := h inner f.body (List.mem_append_right _ (List.mem_singleton.mpr rfl))
    rwa [hinner] at hbody

theorem Class.Placed.of_roles {cls : Class} (hname : Short I.bounded cls.name)
    (h : ∀ role part, (role, part) ∈ cls.definition.roles → I.At (x.into I.lax role.edge) (some cls) part) :
    cls.Placed I where
  name := hname
  property property hproperty part hpart := by
    apply h .initialValue part
    iterate 3 apply List.mem_append_left
    exact List.mem_map_of_mem (List.mem_flatMap.mpr ⟨property, hproperty, Option.mem_toList.mpr hpart⟩)
  method _ _ hmethod := .of_roles (x := x) rfl fun role part hpart => h role part (own_roles hmethod hpart)

namespace Placement.Lexical

variable (hI : I.Lexical) (h : I.At x cls node)

include hI h

theorem edge (hshape : ∀ definition, node.shape ≠ .classDefinition definition) {edge : Edge} {part : Node}
    (hpart : (edge, part) ∈ node.shape.edges) : I.At (x.into I.lax edge) cls part where
  placed := (Node.isPlaced_iff.mp h.placed).2 edge part hpart
  admitted := hI.part h.admitted hshape part (Shape.mem_parts hpart)

theorem parts (hdirect : node.shape.isDirect = true) : ∀ part ∈ node.parts, I.At x cls part := by
  refine fun part hpart => ⟨Node.isPlaced_parts h.placed hdirect part hpart, hI.part h.admitted ?_ part hpart⟩
  intro definition hshape
  rw [hshape] at hdirect
  cases hdirect

theorem function (hshape : node.shape = .function f) : f.Placed I cls := by
  have hbody : (Role.body : Role Node).edge = .call := rfl
  refine .of_roles (x := x) hbody fun role part hpart => hI.edge h (by simp [hshape]) ?_
  rw [hshape]
  exact List.mem_map.mpr ⟨(role, part), hpart, rfl⟩

theorem made {definition : ClassDef Node} (hshape : node.shape = .classDefinition definition) {made : Class}
    (hmade : made.definition = definition) : made.Placed I := by
  subst hmade
  have hname : Short I.bounded made.name := fun hbounded => by
    have hmodest := hI.modest h.admitted hbounded
    rwa [hshape] at hmodest
  refine .of_roles (x := x) hname fun role part hpart => ⟨?_, hI.member h.admitted hshape rfl part ?_⟩
  · apply (Node.isPlaced_iff.mp h.placed).2 role.edge part
    rw [hshape]
    exact List.mem_map.mpr ⟨(role, part), hpart, rfl⟩
  · rw [← ClassDef.roles_map]
    exact List.mem_map_of_mem hpart

end Placement.Lexical

end Definition

/-! What is known stays known when classes are added. -/
section Later

variable (hlater : known <+: later)

include hlater

theorem Class.Known.mono {cls : Class} (h : cls.Known I known) : cls.Known I later := by
  intro owner howner
  obtain ⟨hlisted, hplaced⟩ := h owner howner
  obtain ⟨added, rfl⟩ := hlater
  refine ⟨fun hI => ?_, hplaced⟩
  rw [List.getElem?_append_left (List.getElem?_eq_some_iff.mp (hlisted hI)).1]
  exact hlisted hI

theorem Closure.Known.mono {f : Closure} (h : f.Known I known) : f.Known I later where
  code := h.code
  classScope cls hcls := (h.classScope cls hcls).mono hlater
  receiver object hobject := (h.receiver object hobject).mono hlater

theorem Value.Known.mono {v : Value} (h : v.Known I known) : v.Known I later := by
  cases v with
  | function closure => exact Closure.Known.mono hlater h
  | «class» | «instance» => exact Class.Known.mono hlater h
  | _ => exact h

theorem Context.Known.mono {ctx : Context} (h : ctx.Known I depth known) : ctx.Known I depth later :=
  ⟨fun cls hcls => (h.cls cls hcls).mono hlater, h.sound⟩

theorem Member.Known.mono {member : Member} (h : member.Known I known) : member.Known I later :=
  ⟨h.value.mono hlater, fun hI => (h.owner hI).mono hlater⟩

end Later

/-! Traces and failures along the calls. -/
section Traces

variable {t : Trace} {p : Position} {span : Span} {deeper : Nat}

theorem isCallLabel_class (name : String) : isCallLabel ("<class " ++ name ++ ">") = false := by
  have hfirst : "<class ".toList.isPrefixOf ("<class " ++ name ++ ">").toList = true := by
    rw [List.isPrefixOf_iff_prefix, String.toList_append, String.toList_append, List.append_assoc]
    exact List.prefix_append _ _
  have hlast : ("<class " ++ name ++ ">").toList.getLast? = some '>' := by
    rw [String.toList_append]
    exact List.getLast?_concat
  rw [isCallLabel, hfirst, hlast]
  exact Bool.and_false _

namespace Trace.Sound

theorem mono (h : t.Sound I depth) (hle : depth ≤ deeper) : t.Sound I deeper :=
  { h with calls := Nat.le_trans h.calls hle }

theorem enter (h : t.Sound I depth) (hspot : I.Spot p) (label : String)
    (hcalls : [label].countP isCallLabel + depth ≤ deeper) : (t.enter label p).Sound I deeper where
  root := h.root
  spots := List.forall_mem_cons.mpr ⟨hspot, h.spots⟩
  calls := by
    have hlabels : (t.enter label p).labels = [label] ++ t.labels := rfl
    rw [hlabels, List.countP_append]
    exact Nat.le_trans (Nat.add_le_add_left h.calls _) hcalls

theorem error (h : t.Sound I depth) {limit : Nat} (hdepth : depth ≤ limit) (cause : EvalCause) :
    (t.error cause span).Traced I limit := by
  have hnames : (t.error cause span).frames.map (·.name) = t.labels.reverse := List.map_reverse
  refine ⟨?_, ?_, fun frame hframe => ?_, ?_⟩
  · rw [← List.head?_map, hnames, List.head?_reverse, h.root]
  · rw [Trace.error, Trace.frames, List.getLast?_reverse]
    rfl
  · rw [Trace.error, Trace.frames, List.dropLast_reverse] at hframe
    exact h.spots frame (List.mem_reverse.mp hframe)
  · have hcount := List.countP_map (p := isCallLabel) (f := TraceFrame.name) (l := (t.error cause span).frames)
    rw [hnames, List.countP_reverse] at hcount
    exact Nat.le_trans (Nat.le_of_eq hcount.symm) (Nat.le_trans h.calls hdepth)

end Trace.Sound

variable {ctx : Context}

namespace Placement.Site

variable {trace : Trace}

variable (h : I.Site depth trace span)

include h

theorem mono (hle : depth ≤ deeper) : I.Site deeper trace span :=
  ⟨fun limit hlimit => (h.sound limit hlimit).mono hle, h.spot⟩

theorem call (label : String) : I.Site (depth + 1) (trace.enter label span.start) span where
  sound limit hlimit := (h.sound limit hlimit).enter h.spot label <| by
    have := List.countP_le_length (p := isCallLabel) (l := [label])
    rw [List.length_singleton] at this
    omega
  spot := h.spot

/-- Inside of something that is no call. -/
theorem enter {label : String} (hlabel : isCallLabel label = false) :
    I.Site depth (trace.enter label span.start) span where
  sound limit hlimit := (h.sound limit hlimit).enter h.spot label (by simp [hlabel])
  spot := h.spot

theorem context {scope : Scope} {cls : Option Class} (hcls : ∀ owner ∈ cls, owner.Known I known) :
    Context.Known I depth known ⟨trace, scope, cls⟩ :=
  ⟨hcls, h.sound⟩

end Placement.Site

theorem Context.Known.site (h : ctx.Known I depth known) {cls : Option Class} {node : Node}
    (hnode : I.admits cls node) : I.Site depth ctx.trace node.span :=
  ⟨h.sound, cls, node, hnode, rfl⟩

end Traces

namespace Class

variable {cls owner : Class} {object : Instance} {method : MethodDef Node}

theorem lineage_subset {owner : Class} : {cls : Class} → owner ∈ cls.lineage → owner.lineage ⊆ cls.lineage
  | ⟨_, _, none, _⟩, h => by
    rw [List.mem_singleton.mp h]
    exact List.Subset.refl _
  | ⟨_, _, some parent, _⟩, h => by
    rcases List.mem_cons.mp h with rfl | h
    · exact List.Subset.refl _
    · exact List.subset_cons_of_subset _ (lineage_subset h)

namespace Known

theorem of_mem (h : cls.Known I known) (howner : owner ∈ cls.lineage) : owner.Known I known :=
  fun ancestor hancestor => h ancestor (lineage_subset howner hancestor)

theorem listed (h : cls.Known I known) (hI : I.listed = true) : known[cls.id]? = some cls :=
  (h cls cls.mem_lineage).1 hI

theorem placed (h : cls.Known I known) : cls.Placed I := (h cls cls.mem_lineage).2

section

variable (hI : I.listed = true) (hcls : cls.Known I known) (howner : owner.Known I known)

include hI hcls howner

theorem eq_of_id (hid : cls.id = owner.id) : cls = owner := by
  have hlisted := hcls.listed hI
  rw [hid, howner.listed hI] at hlisted
  exact (Option.some.inj hlisted).symm

/-- A class that inherits from another one by their numbers has it in its lineage. -/
theorem mem_lineage_of_inherits (h : cls.inherits owner = true) : owner ∈ cls.lineage := by
  obtain ⟨ancestor, hancestor, hid⟩ := List.any_eq_true.mp h
  rwa [← (hcls.of_mem hancestor).eq_of_id hI howner (of_decide_eq_true hid)]

end

theorem bind (h : owner.Known I known) (kind : MethodKind) (hmethod : method ∈ owner.own kind)
    {receiver : Option Instance} (hreceiver : ∀ object ∈ receiver, object.cls.Known I known) :
    (owner.bind method receiver).Known I known where
  code := h.placed.method kind method hmethod
  classScope _ hcls := Option.some.inj hcls ▸ h
  receiver := hreceiver

end Known

/-- The declaration that is found belongs to the class or an ancestor. -/
theorem of_method? {kind : MethodKind} {name : String} (h : cls.method? kind name = some (owner, method)) :
    owner ∈ cls.lineage ∧ method ∈ owner.own kind := by
  obtain ⟨_, hmem, hmap⟩ := List.exists_of_findSome?_eq_some h
  obtain ⟨_, hown, heq⟩ := Option.map_eq_some_iff.mp hmap
  cases heq
  exact ⟨hmem, List.mem_of_find?_eq_some hown⟩

end Class

end ScriptLang
