import Mathlib.Data.List.Nodup
import ScriptLang.Proofs.Form.Block

/-! Classes and their members, their form and where they stand. -/
namespace ScriptLang.Form

open ScriptLang.Parser

variable {z : Zone} {r : Surroundings} {p : Place} {lo m m' k least : Nat} {g : Grammar} {start : Span}
  {flags : MemberFlags} {name : String} {definition next : ClassDef Node}

section Modifiers

private theorem modifier_begun {c : Prop} [Decidable c] {cause : SyntaxCause} {next : Modifiers} :
    Yields z r (Inside (Begun z start))
      (if c then here >>= fun span => fault cause span >>= fun (_ : Unit) =>
          discard advance >>= fun _ => pure (.next next)
        else discard advance >>= fun _ => pure (.next next))
      (turnOf (fun _ => Begun z start) fun (_ : MemberFlags) => Begun z start) := by
  refine .ite (fun _ => ?_) fun _ => begun_skip (.pure fun s hs => .inl hs)
  exact here_any (fun s hs => hs.1.ahead.sound.current) fun span hspan => .fault_bind hspan

theorem nextModifier_begun (x : Modifiers) :
    Yields z r (Begun z start) (nextModifier x) (turnOf (fun _ => Begun z start) fun _ => Begun z start) := by
  obtain ⟨flags, visibilitySet⟩ := x
  refine kind_bind fun kd => ?_
  have hdone {kd : TokenKind Token} : Yields z r (At (Begun z start) kd) (pure (.done flags))
      (turnOf (fun (_ : Modifiers) => Begun z start) fun _ => Begun z start) := .pure fun s hs => hs.1
  cases kd with
  | keyword word =>
    cases word with
    | publicWord | protectedWord | privateWord | staticWord | overrideWord => exact at_inside modifier_begun rfl
    | _ => exact hdone
  | _ => exact hdone

end Modifiers

section Member

/-- Parts of a class or of a method, each of which is admitted in its role. -/
def RolesHeld (z : Zone) (p : Place) (lo m : Nat) (roles : List (Role Node × Node)) : Prop :=
  ∀ role part, (role, part) ∈ roles → part.Between z lo m ∧ part.Admitted (p.inside role)

structure MemberHeld (z : Zone) (p : Place) (kind : MethodKind) (lo m : Nat) (method : MethodDef Node) :
    Prop where
  ordered : Param.Ordered method.function.params
  parts : RolesHeld z p lo m (method.roles kind)

theorem property_since (hg : g.Forms) (hlo : z.start start ≤ m) :
    Yields z r (Past z (z.start start) m) (property g start flags name)
      (Since z (z.start start) (z.start start) fun m property =>
        property.name = name ∧ Held z (Admits r) (z.start start) m property.parts) := by
  unfold property
  dsimp only
  refine eat_option hg.expression (.nil hlo) fun value m' _ hheld => ?_
  exact previous_bind fun last _ _ hstop => .pure fun s hs => ⟨_, hs.le, ⟨rfl, hheld.grow hstop⟩, hs⟩

/-- The end of a member, whose body was read at the place of its role. -/
private theorem member_close (kind : MethodKind) {read : Parser (FunctionDef Node)} {params : List (Param Node)}
    {q : Place}
    (hread : Yields z r (Past z (z.start start) m) read fun f s => (f.params = params ∧ f.body.Admitted q) ∧
      Gives z (fun _ => True) (fun f => [⟨.function f, f.span⟩]) (z.start start) f s)
    (hparams : ParamsHeld z (Admits r) lo m params)
    (hq : ∀ method : MethodDef Node, method.name = name → r.place.inside (.member kind method) = q) :
    Yields z r (Past z (z.start start) m)
      (read >>= fun function => previous >>= fun last => pure ⟨name, function, flags, start.cover last⟩)
      (Since z (z.start start) (z.start start) fun m method =>
        (method.name = name ∧ method.flags = flags ∧ method.function.params = params) ∧
          MemberHeld z r.place kind (z.start start) m method) := by
  refine .bind hread fun f => .given fun ⟨hf, hbody⟩ s ⟨m', hheld, hpast⟩ => ?_
  refine previous_bind (fun last _ _ hstop => .pure fun s hs => ⟨_, hs.le, ⟨⟨rfl, rfl, hf⟩, ?_, ?_⟩, hs⟩) s hpast
  · exact hf ▸ hparams.ordered
  · intro role part hpart
    have hmem : part ∈ f.parts := f.roles_map _ ▸ List.mem_map_of_mem hpart
    refine ⟨(hheld.parts.grow hstop).lies part hmem, Node.Admitted.function_parts ?_ ?_ hpart⟩
    · exact fun n hn => hparams.held.form n (hf ▸ hn)
    · rwa [hq _ rfl]

variable (hg : g.Forms) (hstart : z.Genuine start) (hle : z.stop start ≤ m)

include hg hstart hle

theorem method_since :
    Yields z r (Past z (z.start start) m) (method g start flags name)
      (Since z (z.start start) (z.start start) fun m method =>
        method.name = name ∧ MemberHeld z r.place .method (z.start start) m method) := by
  have hlo : z.start start ≤ m := Nat.le_trans hstart.order hle
  refine since_bind (of_ahead (params_since hg)) fun params m' hm hparams => ?_
  have htail := functionTail_gives (r := { r with inConstructor := name = constructorName }) hg (some name)
    hstart (Nat.le_trans hle hm) (hparams.held.lower hlo)
  refine ((member_close .method (.inConstructor htail) hparams ?_).post ?_).pre
    fun s hs => hs.lower hlo
  · rintro method rfl
    rfl
  · exact fun method s ⟨m, hm, h, hs⟩ => ⟨m, hm, ⟨h.1.1, h.2⟩, hs⟩

/-- A getter takes nothing, and belongs to instances. -/
theorem getter_since :
    Yields z r (Past z (z.start start) m) (getter g start flags name)
      (Since z (z.start start) (z.start start) fun m method =>
        method.name = name ∧ MemberHeld z r.place .getter (z.start start) m method ∧
          method.function.params = [] ∧ method.flags.isStatic = false) := by
  have hlo : z.start start ≤ m := Nat.le_trans hstart.order hle
  unfold getter
  dsimp only
  refine .guard hstart fun hstatic => ?_
  have hclose {m' : Nat} (hm : m ≤ m') : Yields z r (Past z (z.start start) m')
      (functionTail g (some name) [] start >>= fun function => previous >>= fun last =>
        pure ⟨name, function, flags, start.cover last⟩)
      (Since z (z.start start) (z.start start) fun m method =>
        method.name = name ∧ MemberHeld z r.place .getter (z.start start) m method ∧
          method.function.params = [] ∧ method.flags.isStatic = false) := by
    have hnone : ParamsHeld z (Admits r) (z.start start) m' [] := .nil (Nat.le_trans hlo hm)
    have htail := functionTail_gives (r := r) hg (some name) hstart (Nat.le_trans hle hm) hnone.held
    refine (member_close .getter htail hnone fun _ _ => rfl).post ?_
    rintro method s ⟨m, hm, ⟨⟨hname, rfl, hparams⟩, hheld⟩, hs⟩
    exact ⟨m, hm, ⟨hname, hheld, hparams, by simpa using hstatic⟩, hs⟩
  refine atSymbol_bind (of_inside ?_) (hclose (Nat.le_refl _))
  refine since_bind (of_ahead (params_since hg)) fun params m' hm hparams => ?_
  cases params with
  | nil => exact (hclose hm).pre fun s hs => hs.lower hlo
  | cons first rest => exact .fault_bind (hparams.spans first (List.mem_cons_self ..))

/-- A setter takes one value, and belongs to instances. -/
theorem setter_since {nameSpan : Span} (hname : z.Genuine nameSpan) :
    Yields z r (Past z (z.start start) m) (setter g start nameSpan flags name)
      (Since z (z.start start) (z.start start) fun m method =>
        method.name = name ∧ MemberHeld z r.place .setter (z.start start) m method ∧
          (∃ only, method.function.params = [only] ∧ only.isRest = false) ∧ method.flags.isStatic = false) := by
  have hlo : z.start start ≤ m := Nat.le_trans hstart.order hle
  unfold setter
  dsimp only
  refine .guard hstart fun hstatic => ?_
  refine since_bind (of_ahead (params_since hg)) fun params m' hm hparams => ?_
  refine .pre (P := Past z (z.start start) m') ?_ fun s hs => hs.lower hlo
  have htail := functionTail_gives (r := r) hg (some name) hstart (Nat.le_trans hle hm)
    (hparams.held.lower hlo)
  split
  next only =>
    refine .guard hname fun hrest => (member_close .setter htail hparams fun _ _ => rfl).post ?_
    rintro method s ⟨m, hm, ⟨⟨hname, rfl, hparams⟩, hheld⟩, hs⟩
    exact ⟨m, hm, ⟨hname, hheld, ⟨only, hparams, by simpa using hrest⟩, by simpa using hstatic⟩, hs⟩
  next => exact .fault_bind hname

end Member

section Class

structure ClassHeld (z : Zone) (p : Place) (lo m : Nat) (definition : ClassDef Node) : Prop where
  le : lo ≤ m
  form : definition.WellFormed
  parts : RolesHeld z p lo m definition.roles

private theorem nodup_insert {before behind : List String} (h : (before ++ behind).Nodup)
    (hname : name ∉ before ++ behind) : (before ++ [name] ++ behind).Nodup := by
  rw [List.append_assoc, List.singleton_append, List.nodup_middle]
  exact List.nodup_cons.mpr ⟨hname, h⟩

private theorem nodup_add {names : List String} (h : names.Nodup) (hname : name ∉ names) :
    (names ++ [name]).Nodup := by
  rw [← List.append_nil names] at h hname
  simpa using nodup_insert h hname

private theorem forall_add {α : Type} {C : α → Prop} {members : List α} {m : α}
    (h : ∀ x ∈ members, C x) (hm : C m) : ∀ x ∈ members ++ [m], C x :=
  List.forall_mem_append.mpr ⟨h, by simpa using hm⟩

/-- A name that is not declared differs from those of the members that share it. -/
private theorem not_mem_names (h : declares definition name .method = false) :
    name ∉ definition.properties.map (·.name) ++ definition.methods.map (·.name) := by
  simp only [declares, Bool.or_eq_false_iff, List.any_eq_false, decide_eq_true_eq] at h
  simp only [List.mem_append, List.mem_map, not_or, not_exists, not_and]
  exact h

private theorem not_mem_methods {methods : List (MethodDef Node)}
    (h : methods.any (·.name = name) = false) : name ∉ methods.map (·.name) := by
  simp only [List.any_eq_false, decide_eq_true_eq] at h
  simpa using h

theorem ClassHeld.add (h : ClassHeld z p lo m definition) (added : List (Role Node × Node)) (hm : m ≤ k) (hk : k ≤ m')
    (form : next.WellFormed) (hroles : ∀ entry ∈ next.roles, entry ∈ definition.roles ∨ entry ∈ added)
    (hadded : RolesHeld z p k m' added) : ClassHeld z p lo m' next := by
  refine ⟨Nat.le_trans h.le (Nat.le_trans hm hk), form, fun role part hpart => ?_⟩
  rcases hroles _ hpart with hpart | hpart
  · obtain ⟨hbetween, hform⟩ := h.parts role part hpart
    exact ⟨hbetween.widen (Nat.le_refl _) (Nat.le_trans hm hk), hform⟩
  · obtain ⟨hbetween, hform⟩ := hadded role part hpart
    exact ⟨hbetween.widen (Nat.le_trans h.le hm) (Nat.le_refl _), hform⟩

variable {method : MethodDef Node} (h : ClassHeld z p lo m definition) (hm : m ≤ k) (hk : k ≤ m')

include h hm hk

theorem ClassHeld.add_property (hname : declares definition name .property = false) {property : PropertyDef Node}
    (hproperty : property.name = name) (hheld : Held z (·.Admitted p) k m' property.parts) :
    ClassHeld z p lo m' { definition with properties := definition.properties ++ [property] } := by
  have hnames := nodup_insert h.form.names (not_mem_names hname)
  refine h.add (property.parts.map (.initialValue, ·)) hm hk ?_ ?_ ?_
  · exact { h.form with names := by simpa [hproperty] using hnames }
  · grind [ClassDef.roles]
  · intro role part hpart
    obtain ⟨node, hnode, heq⟩ := List.mem_map.mp hpart
    cases heq
    exact ⟨hheld.lies _ hnode, hheld.form _ hnode⟩

theorem ClassHeld.add_method (hname : declares definition name .method = false) (hmethod : method.name = name)
    (hheld : MemberHeld z p .method k m' method) :
    ClassHeld z p lo m' { definition with methods := definition.methods ++ [method] } := by
  have hnames := nodup_add h.form.names (not_mem_names hname)
  have hparams := forall_add h.form.params hheld.ordered
  refine h.add _ hm hk ?_ ?_ hheld.parts
  · exact { h.form with names := by simpa [hmethod] using hnames, params := fun _ _ => hparams _ (by grind) }
  · grind [ClassDef.roles]

theorem ClassHeld.add_getter (hname : declares definition name .getter = false) (hmethod : method.name = name)
    (hheld : MemberHeld z p .getter k m' method)
    (hform : method.function.params = [] ∧ method.flags.isStatic = false) :
    ClassHeld z p lo m' { definition with getters := definition.getters ++ [method] } := by
  have hnames := nodup_add h.form.getterNames (not_mem_methods hname)
  have hparams := forall_add h.form.params hheld.ordered
  refine h.add _ hm hk ?_ ?_ hheld.parts
  · exact { h.form with
      getterNames := by simpa [hmethod] using hnames
      getters := forall_add h.form.getters hform
      params := fun _ _ => hparams _ (by grind) }
  · grind [ClassDef.roles]

theorem ClassHeld.add_setter (hname : declares definition name .setter = false) (hmethod : method.name = name)
    (hheld : MemberHeld z p .setter k m' method)
    (hform : (∃ only, method.function.params = [only] ∧ only.isRest = false) ∧ method.flags.isStatic = false) :
    ClassHeld z p lo m' { definition with setters := definition.setters ++ [method] } := by
  have hnames := nodup_add h.form.setterNames (not_mem_methods hname)
  have hparams := forall_add h.form.params hheld.ordered
  refine h.add _ hm hk ?_ ?_ hheld.parts
  · exact { h.form with
      setterNames := by simpa [hmethod] using hnames
      setters := forall_add h.form.setters hform
      params := fun _ _ => hparams _ (by grind) }
  · grind [ClassDef.roles]

omit h hm hk

theorem member_since (hg : g.Forms) (h : ClassHeld z r.place lo m definition) :
    Yields z r (Past z lo m) (member g definition) (Since z lo m (ClassHeld z r.place lo)) := by
  unfold member
  dsimp only
  refine of_ahead (here_begun fun start hstart hm => ?_)
  have hadd {α : Type} {p : Parser α} {R : Nat → α → Prop} {add : α → ClassDef Node} {l : Nat}
      (hp : Yields z r (Past z (z.start start) l) p (Since z (z.start start) (z.start start) R))
      (hR : ∀ a m', z.start start ≤ m' → R m' a → ClassHeld z r.place lo m' (add a)) :
      Yields z r (Past z (z.start start) l) (p >>= fun a => pure (add a))
        (Since z lo m (ClassHeld z r.place lo)) := by
    refine since_bind hp fun a m' hle ha => .pure fun s hs => ⟨m', ?_, hR a m' hle ha, ?_⟩
    · exact Nat.le_trans hm hle
    · exact hs.lower (Nat.le_trans h.le hm)
  refine .bind (Yields.loop nextModifier_begun ({}, false)) fun flags => kind_bind fun kd => ?_
  cases hkind : memberKind? kd with
  | none => exact unexpected fun _ hs => hs.1.ahead.sound.current
  | some kind =>
    have hkd : kd.isEnd = false := by
      cases kd <;> first | rfl | cases hkind
    refine at_inside (begun_skip ?_) hkd
    refine expectIdentifier_spots.bind ?_
    rintro ⟨name, nameSpan⟩ hspan hle
    have hbegin : z.stop start ≤ z.stop nameSpan := Nat.le_trans hle hspan.order
    refine .guard hspan fun hname => ?_
    simp only [Bool.not_eq_true] at hname
    cases kind with
    | property =>
      refine hadd (property_since hg (Nat.le_trans hstart.order hbegin)) fun a m' hle ha => ?_
      exact h.add_property hm hle hname ha.1 ha.2
    | method =>
      refine hadd (method_since hg hstart hbegin) fun a m' hle ha => ?_
      exact h.add_method hm hle hname ha.1 ha.2
    | getter =>
      refine hadd (getter_since hg hstart hbegin) fun a m' hle ha => ?_
      exact h.add_getter hm hle hname ha.1 ha.2.1 ha.2.2
    | setter =>
      refine hadd (setter_since hg hstart hbegin hspan) fun a m' hle ha => ?_
      exact h.add_setter hm hle hname ha.1 ha.2.1 ha.2.2

theorem endMember_since (body : ClassBody) (hle : least ≤ m) (hbody : ClassHeld z r.place lo m body.1) :
    Yields z r (Past z lo m) (endMember body)
      (turnOf (Since z lo least fun m body => ClassHeld z r.place lo m body.1)
        (Since z lo least fun m body => ClassHeld z r.place lo m body.1)) := by
  refine atNewline_any fun line => atKeyword_any fun ends => .ite (fun _ => ?_) fun _ => ?_
  · exact unexpected_bind fun _ hs => hs.sound.current
  · exact .pure fun s hs => ⟨m, hle, hbody, hs⟩

theorem nextMember_since (hg : g.Forms) (x : ClassBody) (hle : least ≤ m) (hx : ClassHeld z r.place lo m x.1) :
    Yields z r (Past z lo m) (nextMember g x)
      (turnOf (Since z lo least fun m body => ClassHeld z r.place lo m body.1)
        (Since z lo least fun m body => ClassHeld z r.place lo m body.1)) := by
  obtain ⟨definition, sawPass⟩ := x
  refine skipNewlines_past (atKeyword_bind ?_ (eatKeyword_bind ?_ ?_))
  · exact of_inside (.pure fun s hs => ⟨m, hle, hx, hs⟩)
  · exact endMember_since (definition, true) hle hx
  · refine since_bind (member_since hg hx) fun next m' hm hnext => ?_
    exact endMember_since (next, sawPass) (Nat.le_trans hle hm) hnext

theorem classDefinition_takes (hg : g.Forms) : Takes one (classDefinition g) := by
  unfold classDefinition
  dsimp only
  refine takes_advance fun z r first hfirst => ?_
  refine .bind expectIdentifier_spots.past ?_
  rintro ⟨name, _⟩
  refine eatKeyword_optional (.map expectIdentifier_spots.past) fun parent => expect_spots.skip ?_
  refine atNewline_any fun line => .ite (fun _ => ?_) fun _ => ?_
  · exact here_any (fun _ hs => hs.sound.current) fun span hspan => .fault_bind hspan
  have hempty : ClassHeld z r.place (z.start first.span) (z.stop first.span)
      { name, parent, span := first.span } :=
    ⟨hfirst.order, ⟨by simp, by simp, by simp, by simp, by simp, by simp⟩, by simp [RolesHeld, ClassDef.roles]⟩
  refine since_bind (loop_since (S := fun m body => ClassHeld z r.place (z.start first.span) m body.1)
    (fun x _ => nextMember_since hg x) (Nat.le_refl _) hempty) ?_
  rintro ⟨definition, sawPass⟩ m hm hheld
  refine expectKeyword_spots.skip (.guard hfirst fun _ => ?_)
  refine previous_bind fun last hlast hlo hstop => .pure fun s hs => ⟨_, .of_node ?_ ?_, hs⟩
  · have hparts : Held z (fun _ => True) (z.start first.span) m definition.parts := by
      refine ⟨hheld.le, fun n hn => ?_, fun _ _ => trivial⟩
      rw [← definition.roles_map] at hn
      obtain ⟨⟨role, part⟩, hpart, rfl⟩ := List.mem_map.mp hn
      exact (hheld.parts role part hpart).1
    exact hparts.close hfirst hlast hlo hstop (Nat.le_trans hm hstop) fun n hn => hn
  · exact .classDefinition { hheld.form with } fun role part hpart => (hheld.parts role part hpart).2

end Class

end ScriptLang.Form
