import ScriptLang.Proofs.Eval.Member

/-! Definitions of classes, new instances and `super` go in step. -/
namespace ScriptLang

variable {L : Difference} {m n : Machine} {c d : Context}
  {span span' : Span} {trace trace' : Trace} {args args' : List Value}

namespace Class.Alike

variable {i j : Class}

private theorem methods_eq {a b : List (MethodDef Node)} (h : List.Forall₂ (SameMethod L) a b)
    {f g : String → Bool} (hfg : ∀ name, f name = g name) :
    a.map (fun x => (x.name, x.flags, f x.name)) = b.map (fun x => (x.name, x.flags, g x.name)) := by
  refine forall₂_map_eq h ?_
  rintro _ _ ⟨name, flags, _, _⟩
  rw [hfg]

theorem redefinitions_eq (h : Alike L i j) : i.redefinitions = j.redefinitions := by
  have hinherited (name : String) :
      i.ancestors.any (·.declares name) = j.ancestors.any (·.declares name) :=
    forall₂_any_eq h.ancestors fun _ _ h => h.declares_eq name
  have hhas (kind : MethodKind) (name : String) :
      (i.ancestors.any fun x => (x.own kind).any (·.name = name)) =
        j.ancestors.any fun x => (x.own kind).any (·.name = name) := by
    refine forall₂_any_eq h.ancestors fun _ _ h => forall₂_any_eq (h.own kind) ?_
    rintro _ _ ⟨name, flags, _, _⟩
    rfl
  have hproperties :
      i.definition.properties.map
          (fun p => (p.name, p.flags, i.ancestors.any (·.declares p.name))) =
        j.definition.properties.map
          (fun p => (p.name, p.flags, j.ancestors.any (·.declares p.name))) := by
    refine forall₂_map_eq h.definition.properties ?_
    rintro _ _ ⟨name, flags, _, _⟩
    rw [hinherited]
  unfold Class.redefinitions
  dsimp only
  rw [hproperties, methods_eq h.definition.methods hinherited,
    methods_eq h.definition.getters (hhas .getter), methods_eq h.definition.setters (hhas .setter)]

theorem overrideFault_eq (h : Alike L i j) : i.overrideFault = j.overrideFault := by
  unfold Class.overrideFault
  rw [h.name_eq]

end Class.Alike

theorem Context.Alike.classNamed (hc : Context.Alike L c d) (name : String) :
    Eval.Alike L (Class.Alike L) (c.classNamed name span) (d.classNamed name span') := by
  refine .bind (Eval.lookup?_alike hc.scope name) fun a b hab => ?_
  cases hab with
  | none => exact Eval.fail_alike _
  | some hab =>
    cases hab with
    | cls same => exact .pure same
    | _ => exact Eval.fail_alike _

theorem Context.Alike.superTarget (hc : Context.Alike L c d) :
    Eval.Alike L (PairAlike (Class.Alike L) (Instance.Alike L)) (c.superTarget span) (d.superTarget span') := by
  unfold Context.superTarget
  have hscope := hc.classScope
  generalize c.classScope = a, d.classScope = b at hscope
  cases hscope with
  | none => exact Eval.fail_alike _
  | @some i j h =>
    have hparent := h.parent
    dsimp only
    rw [h.name_eq]
    generalize i.parent = p, j.parent = q at hparent
    cases hparent with
    | none => exact Eval.fail_alike _
    | some hparent =>
      refine .bind (Eval.lookup?_alike hc.scope _) fun a b hself => ?_
      cases hself with
      | none => exact Eval.fail_alike _
      | some hself =>
        cases hself with
        | object same => exact .pure (.mk hparent same)
        | _ => exact Eval.fail_alike _

namespace Machine.Alike

variable {i j : Class}

private theorem parent (hc : Context.Alike L c d) (name : Option String) :
    Eval.Alike L (Option.Rel (Class.Alike L)) (name.mapM fun name => c.classNamed name span)
      (name.mapM fun name => d.classNamed name span') := by
  refine .optionM (P := Eq) ?_ ?_
  · cases name with
    | none => exact .none
    | some => exact .some rfl
  · rintro name _ rfl
    exact hc.classNamed name

variable (hm : Alike L m n) (hc : Context.Alike L c d)

include hm hc

theorem initialValue {p q : PropertyDef Node} (h : PropertyDef.Alike L.spans (SameCode L) p q) :
    Eval.SameValue L (m.initialValue p c) (n.initialValue q d) := by
  obtain ⟨name, flags, value, _⟩ := h
  cases value with
  | none => exact .pure .nothing
  | some hnode => exact hm.value hc hnode

theorem defineStatics (h : Class.Alike L i j) : Eval.Alike L Eq (m.defineStatics i c) (n.defineStatics j d) := by
  have hproperties := forall₂_filter h.definition.properties
    (f := (·.flags.isStatic)) (g := (·.flags.isStatic)) (by rintro _ _ ⟨_, flags, _, _⟩; rfl)
  have hmethods := forall₂_filter h.definition.methods
    (f := (·.flags.isStatic)) (g := (·.flags.isStatic)) (by rintro _ _ ⟨_, flags, _, _⟩; rfl)
  refine .bind (.forM hproperties fun p q hp => ?_) fun _ _ _ => .forM hmethods fun p q hp => ?_
  · refine .bind (hm.initialValue hc hp) fun _ _ hv => .modify fun s t hs => ?_
    obtain ⟨name, flags, _, _⟩ := hp
    exact hs.putStatic h name (.mk _ hv h)
  · refine .modify fun s t hs => ?_
    have hbound := h.bind hp .none
    obtain ⟨name, flags, _, _⟩ := hp
    exact hs.putStatic h name (.mk _ (.function hbound) h)

theorem defineClass {i j : ClassDef Node} (h : ClassDef.Alike L.spans 0 (SameCode L) i j) :
    Eval.SameValue L (m.defineClass i span c) (n.defineClass j span' d) := by
  unfold Machine.defineClass
  rw [h.parent_eq, h.name_eq]
  refine .bind (parent hc _) fun p q hparent => ?_
  refine .bind (.modifyGet fun s t hs => hs.addClass h hparent hc.scope) fun cls cls' hcls => ?_
  rw [hcls.redefinitions_eq, hcls.overrideFault_eq]
  cases cls'.redefinitions.findSome? cls'.overrideFault with
  | some cause => exact Eval.fail_bind_alike _ _ _
  | none =>
    refine .bind (Eval.innerScope_alike hc.scope) fun scope scope' hscope => ?_
    refine .bind (hm.defineStatics ⟨hscope, .some hcls⟩ hcls) fun _ _ _ => ?_
    exact .bind (hc.declare _ (.cls hcls)) fun _ _ _ => .pure (.cls hcls)

omit hc

section

variable {o p : Instance} (ho : Instance.Alike L o p) (h : Class.Alike L i j)

include ho h

theorem seed : Eval.Alike L Eq (m.seed o span trace i) (n.seed p span' trace' j) := by
  have hproperties := forall₂_filter h.definition.properties
    (f := (!·.flags.isStatic)) (g := (!·.flags.isStatic)) (by rintro _ _ ⟨_, flags, _, _⟩; rfl)
  refine .bind (Eval.innerScope_alike h.scope) fun scope scope' hscope => ?_
  refine .bind (Eval.declare_alike hscope _ (.object ho)) fun _ _ _ => ?_
  refine .forM hproperties fun p q hp => ?_
  refine .bind (hm.initialValue ⟨hscope, .some h⟩ hp) fun _ _ hv => .modify fun s t hs => ?_
  obtain ⟨name, flags, _, _⟩ := hp
  exact hs.putMember ho name (.mk _ hv h)

theorem runConstructor (hargs : SameValues L args args') :
    Eval.Alike L Eq (m.runConstructor i o args span trace) (n.runConstructor j p args' span' trace') := by
  have hempty : args.isEmpty = args'.isEmpty := by
    cases hargs <;> rfl
  have hmethod := h.method? .method constructorName
  unfold Machine.runConstructor
  rw [h.name_eq, hargs.length_eq, hempty]
  generalize i.method? .method constructorName = a, j.method? .method constructorName = b at hmethod
  cases hmethod with
  | some hfound =>
    obtain ⟨owner, method⟩ := hfound
    exact (hm.call (owner.bind method (.some ho)) hargs).discard
  | none =>
    dsimp only
    split
    · exact Eval.fail_alike _
    · exact .pure rfl

end

theorem construct (h : Class.Alike L i j) (hargs : SameValues L args args') :
    Eval.SameValue L (m.construct i args span trace) (n.construct j args' span' trace') := by
  refine .bind (.modifyGet fun s t hs => hs.addInstance h) fun o p ho => ?_
  refine .bind (.forM (List.rel_reverse h.lineage) fun _ _ h => hm.seed ho h) fun _ _ _ => ?_
  exact .bind (hm.runConstructor ho h hargs) fun _ _ _ => .pure (.object ho)

include hc

theorem instantiate {a b : Node} (h : SameCode L a b) {p q : List Node} (hargs : List.Forall₂ (SameCode L) p q) :
    Eval.SameValue L (m.instantiate a p span c) (n.instantiate b q span' d) := by
  refine .bind (hm.eval h hc) fun v w hv => ?_
  cases hv with
  | cls same =>
    refine .bind (hm.values hc hargs) fun _ _ hvalues => ?_
    rw [hm.limit]
    exact Eval.guarded_alike (hm.construct same hvalues)
  | _ => exact Eval.fail_alike _

theorem superCall {p q : List Node} (hargs : List.Forall₂ (SameCode L) p q) :
    Eval.SameValue L (m.superCall p span c) (n.superCall q span' d) := by
  refine .bind hc.superTarget ?_
  rintro _ _ ⟨hparent, ho⟩
  refine .bind (hm.values hc hargs) fun _ _ hvalues => ?_
  exact .bind (hm.runConstructor ho hparent hvalues) fun _ _ _ => .pure .nothing

theorem superProperty (name : String) :
    Eval.SameValue L (m.superProperty name span c) (n.superProperty name span' d) := by
  refine .bind hc.superTarget ?_
  rintro _ _ ⟨hparent, ho⟩
  exact hm.method hc hparent ho name

end Machine.Alike

end ScriptLang
