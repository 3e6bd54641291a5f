import ScriptLang.Eval.Class
import ScriptLang.Proofs.Lexical.Call

/-! Members, classes and new instances leave code where it is written. A new class is listed under its
number, and its members are placed in it. -/
namespace ScriptLang

variable {I : Placement} {x : Exits} {depth : Nat} {known : List Class} {m n : Machine} {ctx : Context}
  {span : Span} {trace : Trace} {cls : Class} {s : Store} {member : Member} {value : Value}
  {definition : ClassDef Node}

theorem Class.Known.parent {cls parent : Class} (h : cls.Known I known) (hparent : cls.parent = some parent) :
    parent.Known I known :=
  h.of_mem (parent_mem_lineage hparent)

theorem Class.Known.add (hplaced : cls.Placed I) (hid : I.listed = true → cls.id = known.length)
    (hparent : ∀ parent ∈ cls.parent, parent.Known I known) : cls.Known I (known ++ [cls]) := by
  refine forall_lineage ⟨fun hI => ?_, hplaced⟩ fun ancestor hancestor => ?_
  · rw [hid hI]
    exact List.getElem?_concat_length
  · exact (hparent ancestor hancestor).mono (List.prefix_append known [cls])

/-- A class is refused for an ordinary reason. -/
theorem Class.overrideFault_ordinary {cause : EvalCause}
    (h : cls.redefinitions.findSome? cls.overrideFault = some cause) : cause.Ordinary := by
  obtain ⟨⟨name, flags, inherited⟩, _, hfault⟩ := List.exists_of_findSome?_eq_some h
  unfold overrideFault at hfault
  dsimp only at hfault
  split at hfault
  · cases hfault
  · split at hfault <;> cases hfault <;> trivial

theorem Store.Known.mono {later : List Class} (h : s.Known I depth known) (hlater : known <+: later)
    {statics : Array (Table Member)} (hcount : I.listed = true → statics.size = later.length)
    (hclasses : I.listed = true → ∀ i (cls : Class), later[i]? = some cls → cls.id = i ∧ cls.Known I later)
    (hstatics : TablesFit (fun _ member => member.Known I later) statics)
    (hhomes : I.listed = true → ∀ i, ∀ entry ∈ statics.getD i [], entry.2.owner.id = i) :
    Store.Known I depth later { s with statics } where
  depth := h.depth
  count := hcount
  classes := hclasses
  heap := h.heap.mono rfl fun _ => Value.Known.mono hlater
  frames := TablesFit.mono h.frames fun _ _ => Or.imp_left (Value.Known.mono hlater)
  statics := hstatics
  homes := hhomes
  members := TablesFit.mono h.members fun _ _ => Member.Known.mono hlater

/-- A new class is listed behind the others. -/
theorem Store.addClass_agrees {parent : Option Class} {scope : Scope}
    (hplaced : ∀ made : Class, made.definition = definition → made.Placed I)
    (hparent : ∀ cls ∈ parent, cls.Known I known) :
    Eval.Agrees I x depth known (fun known cls => cls.Known I known)
      (modifyGet (·.addClass definition parent scope)) (modifyGet (·.addClass definition parent scope)) := by
  refine ⟨fun s hs => ?_⟩
  have hlater := List.prefix_append known [⟨s.statics.size, definition, parent, scope⟩]
  -- There are as many tables of static members as classes, so the number of the class is its index.
  have hcls : Class.Known I _ ⟨s.statics.size, definition, parent, scope⟩ :=
    .add (hplaced _ rfl) hs.count hparent
  refine ⟨rfl, _, hlater, .ok hcls (hs.mono hlater (fun hI => ?_) (fun hI i made hmade => ?_) ?_ ?_)⟩
  · simp [hs.count hI]
  · rcases Nat.lt_or_ge i known.length with hi | hi
    · rw [List.getElem?_append_left hi] at hmade
      obtain ⟨hid, hknown⟩ := hs.classes hI i made hmade
      exact ⟨hid, hknown.mono hlater⟩
    · rw [List.getElem?_append_right hi, List.getElem?_singleton] at hmade
      obtain ⟨hzero, hmade⟩ := Option.ite_none_right_eq_some.mp hmade
      cases hmade
      exact ⟨by have := hs.count hI; dsimp only; omega, hcls⟩
  · exact (TablesFit.mono hs.statics fun _ _ => Member.Known.mono hlater).push
  · exact fun hI i entry hentry => hs.homes hI i entry (TablesFit.of_mem_push hentry)

theorem Store.Known.putStatic (h : s.Known I depth known) (name : String) (hmember : member.Known I known)
    (howner : I.listed = true → member.owner.id = cls.id) : (s.putStatic cls name member).Known I depth known where
  depth := h.depth
  count hI := (Array.size_modify ..).trans (h.count hI)
  classes := h.classes
  heap := h.heap
  frames := h.frames
  statics := TablesFit.put h.statics cls.id hmember
  homes hI i entry hentry := by
    rcases TablesFit.of_mem_modify hentry with ⟨rfl, hput⟩ | hentry
    · rcases Table.mem_put hput with rfl | hentry
      · exact howner hI
      · exact h.homes hI _ entry hentry
    · exact h.homes hI i entry hentry
  members := h.members

theorem Store.Known.putMember (h : s.Known I depth known) (object : Instance) (name : String)
    (hmember : member.Known I known) : (s.putMember object name member).Known I depth known :=
  { h with members := TablesFit.put h.members object.id hmember }

/-- A static member is held by a class of the lineage. -/
theorem Store.Known.static? (h : s.Known I depth known) {name : String}
    (hfound : s.static? cls name = some member) : member.Known I known := by
  obtain ⟨_, _, hown⟩ := List.exists_of_findSome?_eq_some hfound
  exact TablesFit.get? h.statics hown

namespace Context

variable (hsite : I.Site depth ctx.trace span)

include hsite

theorem checkAccess_agrees (owner : Class) (visibility : Visibility) (member : String) :
    Eval.Agrees I x depth known (fun _ _ => True) (ctx.checkAccess span owner visibility member)
      (ctx.checkAccess span owner visibility member) := by
  unfold checkAccess
  split
  · exact .fail hsite _ trivial
  · exact .pure trivial

theorem static_agrees (target : Value) (name : String) :
    Eval.Agrees I x depth known (fun known member => member.Known I known) (ctx.static target name span)
      (ctx.static target name span) := by
  have htarget : Eval.Agrees I x depth known (fun _ _ => True) (ctx.staticTarget target span)
      (ctx.staticTarget target span) := by
    cases target with
    | «class» | «instance» => exact .pure trivial
    | _ => exact .fail hsite _ trivial
  refine .bind htarget fun _ _ cls _ => .bind .get fun _ _ s hs => ?_
  cases hfound : s.static? cls name with
  | none => exact .fail hsite _ trivial
  | some found =>
    refine .bind (checkAccess_agrees hsite _ _ _) fun _ hlater _ _ => .pure ?_
    exact (hs.static? hfound).mono hlater

theorem readStatic_agrees (target : Value) (name : String) :
    Eval.Known I x depth known (ctx.readStatic target name span) (ctx.readStatic target name span) :=
  .bind (static_agrees hsite target name) fun _ _ _ hmember => .pure hmember.value

theorem writeStatic_agrees (target : Value) (name : String) (hvalue : value.Known I known) :
    Eval.Agrees I x depth known (fun _ _ => True) (ctx.writeStatic target name value span)
      (ctx.writeStatic target name value span) := by
  refine .bind (static_agrees hsite target name) fun _ hlater member _ => .bind .get fun _ hlast s hs => ?_
  cases hheld : s.ownStatic? member.owner name with
  | none => exact .pure trivial
  | some held =>
    have hknown := TablesFit.get? hs.statics hheld
    have hvalue := hvalue.mono (hlater.trans hlast)
    refine .modify fun _ hs' => hs'.putStatic name ⟨hvalue, hknown.owner⟩ fun hI => ?_
    exact hs.homes hI _ _ (Table.mem_of_get? hheld)

theorem classNamed_agrees (name : String) :
    Eval.Agrees I x depth known (fun known cls => cls.Known I known) (ctx.classNamed name span)
      (ctx.classNamed name span) := by
  refine .bind (.lookup? name) fun _ _ found hfound => ?_
  cases found with
  | none => exact .fail hsite _ trivial
  | some value =>
    cases value with
    | «class» cls => exact .pure ((hfound _ rfl).has nofun)
    | _ => exact .fail hsite _ trivial

theorem superTarget_agrees (hctx : ctx.Known I depth known) :
    Eval.Agrees I x depth known (fun known found => found.1.Known I known ∧ found.2.cls.Known I known)
      (ctx.superTarget span) (ctx.superTarget span) := by
  unfold superTarget
  cases hscope : ctx.classScope with
  | none => exact .fail hsite _ trivial
  | some cls =>
    dsimp only
    cases hparent : cls.parent with
    | none => exact .fail hsite _ trivial
    | some parent =>
      have hknown : parent.Known I known := (hctx.cls cls hscope).parent hparent
      refine .bind (.lookup? "self") fun _ hlater found hfound => ?_
      cases found with
      | none => exact .fail hsite _ trivial
      | some value =>
        cases value with
        | «instance» object => exact .pure ⟨hknown.mono hlater, (hfound _ rfl).has nofun⟩
        | _ => exact .fail hsite _ trivial

end Context

namespace Machine.Agrees

variable (h : Machine.Agrees I m n) {object : Instance}

include h

section Initial

variable (hctx : ctx.Known I depth known)

include hctx

theorem initialValue {property : PropertyDef Node}
    (hproperty : ∀ part ∈ property.value, I.At (.alone I.lax) ctx.classScope part) :
    Eval.Known I x depth known (m.initialValue property ctx) (n.initialValue property ctx) := by
  unfold Machine.initialValue
  cases hvalue : property.value with
  | some node => exact h.value hctx (hproperty node hvalue)
  | none => exact .pure trivial

theorem defineStatics (hcls : cls.Known I known) (hscope : ctx.classScope = some cls) :
    Eval.Agrees I x depth known (fun _ _ => True) (m.defineStatics cls ctx) (n.defineStatics cls ctx) := by
  refine .bind (.forM fun property hproperty _ hlater => ?_) fun _ hlater _ _ =>
    .forM fun method hmethod _ hlast => ?_
  · have hplaced := hcls.placed.property property (List.mem_filter.mp hproperty).1
    refine .bind (h.initialValue (hctx.mono hlater) (hscope ▸ hplaced)) fun _ hmade value hvalue => ?_
    have hmember := hcls.mono (hlater.trans hmade)
    exact .modify fun s hs => hs.putStatic property.name ⟨hvalue, fun _ => hmember⟩ fun _ => rfl
  · have hbound : (Value.function (cls.bind method none)).Known I known :=
      hcls.bind .method (List.mem_filter.mp hmethod).1 nofun
    have hall := hlater.trans hlast
    exact .modify fun s hs => hs.putStatic method.name ⟨hbound.mono hall, fun _ => hcls.mono hall⟩ fun _ => rfl

end Initial

section Context

variable (hsite : I.Site depth ctx.trace span)

include hsite

theorem method (hcls : cls.Known I known) (hobject : object.cls.Known I known) (name : String) :
    Eval.Known I x depth known (m.method cls object name span ctx) (n.method cls object name span ctx) := by
  unfold Machine.method
  cases hmethod : cls.method? .method name with
  | some found =>
    refine .bind (Context.checkAccess_agrees hsite _ _ _) fun _ hlater _ _ => .pure ?_
    exact (hcls.method? hmethod hobject).mono hlater
  | none =>
    dsimp only
    cases hgetter : cls.method? .getter name with
    | some found =>
      refine .bind (Context.checkAccess_agrees hsite _ _ _) fun _ hlater _ _ => ?_
      exact h.call hsite ((hcls.method? hgetter hobject).mono hlater) .nil
    | none => exact .fail hsite _ trivial

theorem readMember (hobject : object.cls.Known I known) (name : String) :
    Eval.Known I x depth known (m.readMember object name span ctx) (n.readMember object name span ctx) := by
  refine .bind .get fun _ hlater s hs => ?_
  cases hmember : s.member? object name with
  | some member =>
    refine .bind (Context.checkAccess_agrees hsite _ _ _) fun _ hlast _ _ => .pure ?_
    exact (TablesFit.get? hs.members hmember).value.mono hlast
  | none => exact h.method hsite (hobject.mono hlater) (hobject.mono hlater) name

theorem readProperty {target : Value} (htarget : target.Known I known) (name : String) :
    Eval.Known I x depth known (m.readProperty target name span ctx) (n.readProperty target name span ctx) := by
  cases target with
  | «instance» object => exact h.readMember hsite htarget name
  | dict id =>
    refine .bind .get fun _ _ s hs => ?_
    cases hvalue : (s.heap.dict id).get? name with
    | some value => exact .pure ((hs.heap.dict id).get? hvalue)
    | none => exact .fail hsite _ trivial
  | _ => exact .fail hsite _ trivial

theorem writeMember (hobject : object.cls.Known I known) (name : String) (hvalue : value.Known I known) :
    Eval.Agrees I x depth known (fun _ _ => True) (m.writeMember object name value span ctx)
      (n.writeMember object name value span ctx) := by
  refine .bind .get fun _ hlater s hs => ?_
  cases hmember : s.member? object name with
  | some member =>
    have howner := (TablesFit.get? hs.members hmember).owner
    refine .bind (Context.checkAccess_agrees hsite _ _ _) fun _ hlast _ _ => .modify fun s hs => ?_
    exact hs.putMember object name ⟨hvalue.mono (hlater.trans hlast), fun hI => (howner hI).mono hlast⟩
  | none =>
    dsimp only
    cases hsetter : object.cls.method? .setter name with
    | some found =>
      refine .bind (Context.checkAccess_agrees hsite _ _ _) fun _ hlast _ _ => ?_
      have hmono := hlater.trans hlast
      exact (h.call hsite ((hobject.method? hsetter hobject).mono hmono) (.singleton (hvalue.mono hmono))).discard
    | none => exact .fail hsite _ trivial

theorem writeProperty {target : Value} (htarget : target.Known I known) {name : String}
    (hname : Short I.bounded name) (hvalue : value.Known I known) :
    Eval.Agrees I x depth known (fun _ _ => True) (m.writeProperty target name value span ctx)
      (n.writeProperty target name value span ctx) := by
  cases target with
  | «instance» object => exact h.writeMember hsite htarget name hvalue
  | dict id =>
    refine .modify fun s hs => { hs with heap := hs.heap.updateDict id ?_ }
    exact (hs.heap.dict id).insert hname hvalue
  | _ => exact .fail hsite _ trivial

theorem defineClass (hplaced : ∀ made : Class, made.definition = definition → made.Placed I) :
    Eval.Known I x depth known (m.defineClass definition span ctx) (n.defineClass definition span ctx) := by
  refine .bind (.optionM fun name _ => Context.classNamed_agrees hsite name) fun _ _ parent hparent => ?_
  refine .bind (Store.addClass_agrees hplaced hparent) fun _ _ cls hcls => ?_
  cases hfault : cls.redefinitions.findSome? cls.overrideFault with
  | some cause => exact .fail_bind hsite _ _ _ (cls.overrideFault_ordinary hfault)
  | none =>
    refine .bind .innerScope fun _ hlater scope _ => ?_
    have hcls := hcls.mono hlater
    have hctx : Context.Known I depth _ ⟨_, scope, some cls⟩ :=
      (hsite.enter (isCallLabel_class cls.name)).context fun _ howner => Option.some.inj howner ▸ hcls
    refine .bind (h.defineStatics hctx hcls rfl) fun _ hlast _ _ => ?_
    have hvalue : (Value.class cls).Known I _ := hcls.mono hlast
    exact .bind (Context.declare_agrees hsite _ hvalue) fun _ hdeclared _ _ => .pure (hvalue.mono hdeclared)

end Context

section Trace

variable (hsite : I.Site depth trace span)

include hsite

theorem seed (hobject : object.cls.Known I known) (hcls : cls.Known I known) :
    Eval.Agrees I x (depth + 1) known (fun _ _ => True) (m.seed object span trace cls)
      (n.seed object span trace cls) := by
  refine .bind .innerScope fun _ hlater scope _ => ?_
  have hself : (Value.instance object).Known I _ := hobject.mono hlater
  refine .bind (.declare (hsite.mono (Nat.le_succ depth)) hself false) fun _ hdeclared _ _ =>
    .forM fun property hproperty _ hlast => ?_
  have hcls := hcls.mono ((hlater.trans hdeclared).trans hlast)
  have hplaced := hcls.placed.property property (List.mem_filter.mp hproperty).1
  have hctx : Context.Known I (depth + 1) _ ⟨_, scope, some cls⟩ :=
    (hsite.call ("<new " ++ cls.name ++ ">")).context fun _ howner => Option.some.inj howner ▸ hcls
  refine .bind (h.initialValue hctx hplaced) fun _ hmono value hvalue => ?_
  exact .modify fun s hs => hs.putMember object property.name ⟨hvalue, fun _ => hcls.mono hmono⟩

variable (hcls : cls.Known I known) {args : List Value} (hargs : ArgumentsKnown I known args)

include hcls hargs

theorem runConstructor (hobject : object.cls.Known I known) :
    Eval.Agrees I x depth known (fun _ _ => True) (m.runConstructor cls object args span trace)
      (n.runConstructor cls object args span trace) := by
  unfold Machine.runConstructor
  cases hfound : cls.method? .method constructorName with
  | some found => exact .discard (h.call hsite (hcls.method? hfound hobject) hargs)
  | none =>
    dsimp only
    split
    · exact .fail hsite _ trivial
    · exact .pure trivial

theorem construct :
    Eval.Agrees I x (depth + 1) known (Value.Known I) (m.construct cls args span trace)
      (n.construct cls args span trace) := by
  have hadd : Eval.Agrees I x (depth + 1) known (fun known object => object.cls.Known I known)
      (modifyGet (·.addInstance cls)) (modifyGet (·.addInstance cls)) :=
    .modifyGet fun _ hs => ⟨hcls, { hs with members := TablesFit.push hs.members }⟩
  refine .bind hadd fun _ hlater object hobject => ?_
  refine .bind (.forM fun ancestor hancestor _ hlast => ?_) fun _ hlast _ _ => ?_
  · have hknown := hcls.of_mem (List.mem_reverse.mp hancestor)
    exact h.seed hsite (hobject.mono hlast) (hknown.mono (hlater.trans hlast))
  · have hmono := hlater.trans hlast
    refine .bind (h.runConstructor (hsite.mono (Nat.le_succ depth)) (hcls.mono hmono) (hargs.mono hmono)
      (hobject.mono hlast)) fun _ hrun _ _ => .pure ?_
    exact (hobject.mono hlast).mono hrun

end Trace

variable (hsite : I.Site depth ctx.trace span) (hctx : ctx.Known I depth known)

include hsite hctx

theorem superProperty (name : String) :
    Eval.Known I x depth known (m.superProperty name span ctx) (n.superProperty name span ctx) :=
  .bind (Context.superTarget_agrees hsite hctx) fun _ _ _ hfound => h.method hsite hfound.1 hfound.2 name

variable {args : List Node} (hargs : ∀ node ∈ args, I.At x ctx.classScope node)
  (hlength : I.bounded = true → args.length ≤ maxLength)

include hargs hlength

theorem instantiate {cls : Node} (hcls : I.At x ctx.classScope cls) :
    Eval.Known I x depth known (m.instantiate cls args span ctx) (n.instantiate cls args span ctx) := by
  refine .bind (h.eval hcls hctx) fun _ hlater target htarget => ?_
  cases target with
  | «class» cls =>
    refine .bind (h.values (hctx.mono hlater) hargs hlength) fun _ hlast args hargs => ?_
    rw [h.limit]
    exact .guarded hsite h.most (h.construct hsite (Class.Known.mono hlast htarget) hargs)
  | _ => exact .fail hsite _ trivial

theorem superCall : Eval.Known I x depth known (m.superCall args span ctx) (n.superCall args span ctx) := by
  refine .bind (Context.superTarget_agrees hsite hctx) fun _ hlater (parent, object) hfound => ?_
  refine .bind (h.values (hctx.mono hlater) hargs hlength) fun _ hlast args hargs => ?_
  refine .bind (h.runConstructor hsite (hfound.1.mono hlast) hargs (hfound.2.mono hlast)) fun _ _ _ _ => ?_
  exact .pure trivial

end Machine.Agrees

end ScriptLang
