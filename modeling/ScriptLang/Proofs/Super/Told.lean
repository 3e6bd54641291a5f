import ScriptLang.Proofs.Eval.Arguments
import ScriptLang.Proofs.Super.History

/-! What `super` stands for in a run. Main statement: whenever code of a class asks for the method above and gets
it, the body of the nearest declaration strictly above this class is entered, whatever class the instance is of. -/
namespace ScriptLang

variable {code : FunctionDef Node}

namespace Class

variable {cls owner parent : Class} {name : String} {method : MethodDef Node}

/-- The nearest declaration of a method strictly above a class. -/
def above? (cls : Class) (name : String) : Option (Class × MethodDef Node) :=
  cls.ancestors.findSome? fun owner => (owner.ownMethod? .method name).map (owner, ·)

/-- The classes of a lineage that declare a method, the nearest first. -/
def declarations (cls : Class) (name : String) : List Class :=
  cls.lineage.filter fun owner => (owner.ownMethod? .method name).isSome

theorem lineage_eq (cls : Class) : cls.lineage = cls :: cls.ancestors := by
  obtain ⟨_, _, parent, _⟩ := cls
  cases parent <;> rfl

theorem above?_of_parent (h : cls.parent = some parent) : cls.above? name = parent.method? .method name := by
  rw [above?, ancestors, h]
  rfl

theorem exists_parent_of_above? (h : cls.above? name = some (owner, method)) :
    ∃ parent, cls.parent = some parent ∧ parent.method? .method name = some (owner, method) := by
  cases hparent : cls.parent with
  | none =>
    rw [above?, ancestors, hparent] at h
    cases h
  | some parent => exact ⟨parent, rfl, (above?_of_parent hparent).symm.trans h⟩

/-- A class has its own method, or else what is declared above. -/
theorem own_or_above (h : cls.method? .method name = some (owner, method)) :
    owner = cls ∧ cls.ownMethod? .method name = some method ∨
      cls.ownMethod? .method name = none ∧ cls.above? name = some (owner, method) := by
  rw [method?, lineage_eq, List.findSome?_cons] at h
  cases hown : cls.ownMethod? .method name with
  | some own =>
    rw [hown] at h
    cases h
    exact .inl ⟨rfl, rfl⟩
  | none =>
    rw [hown] at h
    exact .inr ⟨rfl, h⟩

/-- The declarations of a class are those from the nearest one upwards. -/
theorem declarations_of_method? (h : cls.method? .method name = some (owner, method)) :
    owner.ownMethod? .method name = some method ∧ owner.lineage <:+ cls.lineage ∧
      cls.declarations name = owner.declarations name := by
  induction hlineage : cls.lineage generalizing cls with
  | nil => rw [lineage_eq] at hlineage; cases hlineage
  | cons _ _ ih =>
    rcases own_or_above h with ⟨rfl, hown⟩ | ⟨hnone, habove⟩
    · exact ⟨hown, hlineage ▸ List.suffix_rfl, rfl⟩
    · obtain ⟨parent, hparent, hmethod⟩ := exists_parent_of_above? habove
      have hancestors : cls.ancestors = parent.lineage := by rw [ancestors, hparent]; rfl
      rw [lineage_eq, List.cons.injEq, hancestors] at hlineage
      obtain ⟨hown, hsuffix, hsame⟩ := ih hmethod hlineage.2
      refine ⟨hown, hsuffix.trans (List.suffix_cons _ _), ?_⟩
      rw [← hsame, declarations, lineage_eq, hancestors, List.filter_cons, hnone]
      rfl

end Class

/-- Binding the arguments of a function leaves `self` as it is. -/
def FunctionDef.KeepsSelf (limit : Nat) (code : FunctionDef Node) : Prop :=
  ∀ fuel site ctx args s values t,
    Machine.bindArguments ⟨limit, fuel, evaluate limit fuel⟩ site ctx code.params args s = .ok values t →
      t.frames.lookup? ctx.scope "self" = s.frames.lookup? ctx.scope "self"

open Classical in
/-- The class of a context whose method has a node as its body. -/
noncomputable def Context.entered? (ctx : Context) (name : String) (node : Node) : Option Class :=
  ctx.classScope.filter fun cls => (cls.ownMethod? .method name).map (·.function.body) = some node

theorem Context.entered?_body {ctx : Context} {cls : Class} {name : String} {method : MethodDef Node}
    (hscope : ctx.classScope = some cls) (hown : cls.ownMethod? .method name = some method) :
    ctx.entered? name method.function.body = some cls := by
  simp [entered?, hscope, hown]

/-- Whether a node asks for the method above: by `super.name(…)`, or by `super(…)` for constructors. -/
def Node.asksAbove (name : String) (node : Node) : Bool :=
  match node.shape with
  | .call ⟨.superProperty member, _⟩ _ _ => member = name
  | .superCall _ => name = constructorName
  | _ => false

/-- The usual rules, with notes about the methods of a name. -/
noncomputable def Rule.noting (name : String) (note : Sign → String) : Rule := fun m node ctx s =>
  let self := s.frames.lookup? ctx.scope "self"
  let asking := (ctx.classScope.filter fun _ => node.asksAbove name).map (Mark.asks · self)
  Eval.around note (Eval.around note (m.rule node ctx) asking) ((ctx.entered? name node).map (.enters · self)) s

/-- The last thing in a history is that the body of a method begins, with `self` if its arguments keep it. -/
def History.Reaches (limit : Nat) (owner : Class) (method : MethodDef Node) (self : Option Value)
    (F : History) : Prop :=
  ∃ before self' completed deeper, F = before ++ .visit (.enters owner self') completed deeper .nil ∧
    (method.function.KeepsSelf limit → self' = self)

/-- Where a class asks for the method above and gets it, the nearest declaration above is reached. -/
def Mark.Right (limit : Nat) (name : String) (mark : Mark) (completed : Bool) (inside : History) : Prop :=
  ∀ cls self owner method, mark = .asks cls self → completed = true → cls.above? name = some (owner, method) →
    inside.Reaches limit owner method self

theorem History.Reaches.append {limit : Nat} {owner : Class} {method : MethodDef Node} {self : Option Value}
    {F : History} (h : F.Reaches limit owner method self) (G : History) :
    (G ++ F).Reaches limit owner method self := by
  obtain ⟨before, self', completed, deeper, rfl, hself⟩ := h
  exact ⟨G ++ before, self', completed, deeper, (History.append_assoc ..).symm, hself⟩

/-! What `super` stands for. -/
section Target

variable {ctx : Context} {span : Span} {s t : Store} {cls owner parent : Class} {object : Instance}
  {name : String} {method : MethodDef Node} {value : Value}

/-- Only an instance can be asked. -/
theorem Context.exists_of_superTarget_ok {found : Class × Instance} (hscope : ctx.classScope = some cls)
    (hparent : cls.parent = some parent) (h : ctx.superTarget span s = .ok found t) :
    ∃ object, s.frames.lookup? ctx.scope "self" = some (.instance object) ∧ found = (parent, object) ∧ t = s := by
  unfold superTarget at h
  rw [hscope] at h
  dsimp only at h
  rw [hparent] at h
  obtain ⟨self, u, hlookup, hfound⟩ := Eval.exists_of_bind_ok h
  obtain ⟨hself, rfl⟩ := Eval.of_get_ok hlookup
  rw [hself]
  split at hfound
  next object =>
    cases hfound
    exact ⟨object, rfl, rfl, rfl⟩
  next => cases hfound

theorem Machine.method_eq (m : Machine) (hmethod : cls.method? .method name = some (owner, method)) :
    m.method cls object name span ctx = (do
      ctx.checkAccess span owner method.flags.visibility name
      return Value.function (owner.bind method (some object))) := by
  unfold Machine.method
  rw [hmethod]

theorem Machine.runConstructor_eq {m : Machine} {args : List Value} {trace : Trace}
    (hmethod : cls.method? .method constructorName = some (owner, method)) :
    m.runConstructor cls object args span trace =
      discard (m.call (owner.bind method (some object)) args span trace) := by
  unfold Machine.runConstructor
  rw [hmethod]

theorem Machine.of_method_ok (m : Machine) (hmethod : cls.method? .method name = some (owner, method))
    (h : m.method cls object name span ctx s = .ok value t) :
    value = .function (owner.bind method (some object)) ∧ t = s := by
  rw [m.method_eq hmethod] at h
  obtain ⟨_, u, haccess, hvalue⟩ := Eval.exists_of_bind_ok h
  cases hvalue
  unfold Context.checkAccess at haccess
  split at haccess
  next => cases haccess
  next =>
    cases haccess
    exact ⟨rfl, rfl⟩

variable (m : Machine) (hscope : ctx.classScope = some cls) (habove : cls.above? name = some (owner, method))

include hscope habove

theorem Machine.of_superProperty_ok (h : m.superProperty name span ctx s = .ok value t) :
    ∃ object, s.frames.lookup? ctx.scope "self" = some (.instance object) ∧
      value = .function (owner.bind method (some object)) ∧ t = s := by
  obtain ⟨parent, hparent, hmethod⟩ := Class.exists_parent_of_above? habove
  obtain ⟨found, u, htarget, hfound⟩ := Eval.exists_of_bind_ok h
  obtain ⟨object, hself, rfl, rfl⟩ := ctx.exists_of_superTarget_ok hscope hparent htarget
  exact ⟨object, hself, m.of_method_ok hmethod hfound⟩

end Target

abbrev Machine.usual (limit fuel : Nat) : Machine := ⟨limit, fuel, evaluate limit fuel⟩

noncomputable abbrev Machine.noting (limit fuel : Nat) (name : String) (note : Sign → String) : Machine :=
  ⟨limit, fuel, evaluateBy (.noting name note) limit fuel⟩

/-- In a run of a machine, the one that takes notes does the usual and notes a history. -/
abbrev History.Noted {α : Type} (limit fuel : Nat) (name : String) (note : Sign → String) (F : History)
    (x : Machine → Eval α) (s : Store) : Prop :=
  Eval.Notes note F (x (.noting limit fuel name note)) (x (.usual limit fuel)) s

/-! What is noted in parts of a run. -/
section Notes

variable {limit fuel : Nat} {name : String} {note : Sign → String} {F G : History} {node : Node} {ctx : Context}
  {s : Store}

theorem Machine.notes_runBody (h : F.Noted limit fuel name note (·.eval code.body ctx) s) :
    F.Noted limit fuel name note (·.runBody code ctx) s := by
  rw [← F.append_nil]
  cases hy : evaluate limit fuel code.body ctx s with
  | ok a u => exact (h.bind_ok hy (.quiet fun _ => rfl)).tryCatch_ok (Eval.bind_of_ok hy)
  | error i u =>
    have hleave : Eval.Notes note .nil (ctx.leave code.body i) (ctx.leave code.body i) u :=
      .quiet fun before => by cases i <;> rfl
    exact (h.bind_error hy).tryCatch_error (Eval.bind_of_error hy) hleave

theorem Machine.notes_call {owner : Class} {method : MethodDef Node} {object : Instance} {args : List Value}
    {span : Span} {trace : Trace} {scope : Scope} {s₁ s₂ s₃ : Store} (hdepth : s.depth < limit)
    (hscope : Eval.innerScope owner.scope { s with depth := s.depth + 1 } = .ok scope s₁)
    (hself : Eval.onFrames trace span (.declare scope "self" (.instance object) false) s₁ = .ok () s₂) :
    let site : CallSite := ⟨method.function.label, span, trace⟩
    let ctx : Context := ⟨site.trace, scope, some owner⟩
    let binding (m : Machine) : Eval Unit := discard (m.bindArguments site ctx method.function.params args)
    F.Noted limit fuel name note binding s₂ → binding (.usual limit fuel) s₂ = .ok () s₃ →
    G.Noted limit fuel name note (·.runBody method.function ctx) s₃ →
    (F ++ G).Noted limit fuel name note (·.call (owner.bind method (some object)) args span trace) s := by
  intro site ctx binding hbinding hbound hbody
  refine .guarded _ _ ?_ hdepth
  refine .bind_ok (F := .nil) (.quiet fun _ => rfl) hscope ?_
  refine .bind_ok (F := .nil) (.onFrames _ _ _) hself ?_
  exact hbinding.bind_ok hbound hbody

end Notes

/-- With some fuel, the notes tell histories with the right visits, and the body of a method is a visit. -/
structure Machine.Told (limit fuel : Nat) (name : String) (note : Sign → String) : Prop where
  congruent : Machine.Congruent (Eval.Tells (Mark.Right limit name) note) (.noting limit fuel name note)
    (.usual limit fuel)
  entry {node : Node} {ctx : Context} {cls : Class} {s : Store} (hentered : ctx.entered? name node = some cls)
    (hrun : evaluate limit fuel node ctx s ≠ .error .exhausted s) : ∃ completed inside,
      let F : History := .visit (.enters cls (s.frames.lookup? ctx.scope "self")) completed inside .nil
      F.All (Mark.Right limit name) ∧ F.Noted limit fuel name note (·.eval node ctx) s

namespace Machine.Told

variable {limit fuel : Nat} {name : String} {note : Sign → String} {owner cls : Class} {method : MethodDef Node}
  {object : Instance} {args : List Value} {span : Span} {trace : Trace} {ctx : Context} {s t : Store} {v : Value}
  (h : Machine.Told limit fuel name note)

include h

theorem runBody (hentered : ctx.entered? name code.body = some cls)
    (hrun : (Machine.usual limit fuel).runBody code ctx s = .ok v t) : ∃ completed inside,
      let F : History := .visit (.enters cls (s.frames.lookup? ctx.scope "self")) completed inside .nil
      F.All (Mark.Right limit name) ∧ F.Noted limit fuel name note (·.runBody code ctx) s := by
  have hbody : evaluate limit fuel code.body ctx s ≠ .error .exhausted s := by
    intro hstop
    have hleave : (Machine.usual limit fuel).runBody code ctx s = .error .exhausted s :=
      Eval.tryCatch_of_error (Eval.bind_of_error hstop)
    rw [hleave] at hrun
    cases hrun
  obtain ⟨completed, inside, hall, hnotes⟩ := h.entry hentered hbody
  exact ⟨completed, inside, hall, notes_runBody hnotes⟩

omit h in
/-- What `self` stands for where the arguments of a method are bound. -/
private theorem lookup?_self {site : CallSite} {scope : Scope} {s₁ s₂ : Store}
    (hscope : Eval.innerScope owner.scope s = .ok scope s₁)
    (hself : Eval.onFrames site.caller site.span (.declare scope "self" (.instance object) false) s₁ = .ok () s₂) :
    s₂.frames.lookup? scope "self" = some (.instance object) := by
  cases hscope
  rw [onFrames_declare] at hself
  split at hself
  next => cases hself
  next =>
    cases hself
    exact lookup?_put (by simp [Scope.inner]) _ _

theorem call (hown : owner.ownMethod? .method name = some method)
    (hrun : (Machine.usual limit fuel).call (owner.bind method (some object)) args span trace s = .ok v t) :
    ∃ F : History, F.All (Mark.Right limit name) ∧ F.Reaches limit owner method (some (.instance object)) ∧
      F.Noted limit fuel name note (·.call (owner.bind method (some object)) args span trace) s := by
  have hR := Eval.tells (Mark.Right limit name) note limit
  unfold Machine.call Eval.guarded at hrun
  split at hrun
  next hdepth =>
    split at hrun
    next a u hinvoke =>
      cases hrun
      obtain ⟨scope, s₁, hscope, hrest⟩ := Eval.exists_of_bind_ok hinvoke
      obtain ⟨_, s₂, hself, hrest⟩ := Eval.exists_of_bind_ok hrest
      obtain ⟨_, s₃, hbound, hbody⟩ := Eval.exists_of_bind_ok hrest
      obtain ⟨completed, inside, hinside, hvisit⟩ := h.runBody (Context.entered?_body rfl hown) hbody
      obtain ⟨before, hbefore, hbinding⟩ := hR.discard (h.congruent.bindArguments hR.toCongruence _ _ _ _) s₂
      refine ⟨before ++ _, hbefore.append hinside, ⟨before, _, completed, inside, rfl, fun hkeeps => ?_⟩, ?_⟩
      · obtain ⟨values, _, hvalues, hsame⟩ := Eval.exists_of_bind_ok hbound
        cases hsame
        exact (hkeeps _ _ _ _ _ _ _ hvalues).trans (lookup?_self hscope hself)
      · exact notes_call hdepth hscope hself hbinding hbound hvisit
    next => cases hrun
  next => cases hrun

omit h in
theorem runConstructor {note : Sign → String} (h : Machine.Told limit fuel constructorName note)
    (hmethod : cls.method? .method constructorName = some (owner, method))
    (hrun : (Machine.usual limit fuel).runConstructor cls object args span trace s = .ok () t) :
    ∃ F : History, F.All (Mark.Right limit constructorName) ∧
      F.Reaches limit owner method (some (.instance object)) ∧
        F.Noted limit fuel constructorName note (·.runConstructor cls object args span trace) s := by
  simp only [Machine.runConstructor_eq hmethod] at hrun ⊢
  obtain ⟨v, u, hcall, _⟩ := Eval.exists_of_bind_ok hrun
  obtain ⟨F, hF, hreach, hnotes⟩ := h.call (Class.declarations_of_method? hmethod).1 hcall
  refine ⟨F, hF, hreach, ?_⟩
  rw [← F.append_nil]
  exact hnotes.bind_ok hcall (.quiet fun _ => rfl)

/-- A class that asks for the method above, and gets it, reaches the nearest declaration above with its own
`self`. -/
theorem ask {node : Node} (hask : node.asksAbove name = true) (hscope : ctx.classScope = some cls)
    (habove : cls.above? name = some (owner, method))
    (hrun : (Machine.usual limit fuel).rule node ctx s = .ok v t) : ∃ F : History,
      F.All (Mark.Right limit name) ∧ F.Reaches limit owner method (s.frames.lookup? ctx.scope "self") ∧
        F.Noted limit fuel name note (·.rule node ctx) s := by
  have hR := Eval.tells (Mark.Right limit name) note limit
  obtain ⟨parent, hparent, hmethod⟩ := Class.exists_parent_of_above? habove
  have hown := (Class.declarations_of_method? hmethod).1
  obtain ⟨shape, span⟩ := node
  unfold Node.asksAbove at hask
  split at hask
  next member place args optional hshape =>
    cases hshape
    cases of_decide_eq_true hask
    obtain ⟨callee, u, hcallee, hrest⟩ := Eval.exists_of_bind_ok hrun
    have hfound : ∃ object, s.frames.lookup? ctx.scope "self" = some (.instance object) ∧
        callee = .function (owner.bind method (some object)) ∧ u = s := by
      cases fuel with
      | zero => cases hcallee
      | succ fuel => exact (Machine.usual limit fuel).of_superProperty_ok hscope habove hcallee
    obtain ⟨object, hself, rfl, rfl⟩ := hfound
    obtain ⟨F, hF, hnamed⟩ := h.congruent.eval _ ctx u
    obtain ⟨G, hG, hvalues⟩ := h.congruent.values hR.toCongruence args u
    have hcalled : ∃ vals w, (Machine.usual limit fuel).values args ctx u = .ok vals w ∧
        (Machine.usual limit fuel).call (owner.bind method (some object)) vals span ctx.trace w = .ok v t := by
      cases optional <;> exact Eval.exists_of_bind_ok hrest
    obtain ⟨vals, w, hvals, hcall⟩ := hcalled
    obtain ⟨H, hH, hreach, hnotes⟩ := h.call hown hcall
    refine ⟨F ++ (G ++ H), hF.append (hG.append hH), hself ▸ (hreach.append G).append F, ?_⟩
    refine hnamed.bind_ok hcallee ?_
    cases optional <;> exact hvalues.bind_ok hvals hnotes
  next args hshape =>
    cases hshape
    cases of_decide_eq_true hask
    obtain ⟨found, u, htarget, hrest⟩ := Eval.exists_of_bind_ok hrun
    obtain ⟨object, hself, rfl, rfl⟩ := ctx.exists_of_superTarget_ok hscope hparent htarget
    obtain ⟨vals, w, hvals, hrest⟩ := Eval.exists_of_bind_ok hrest
    obtain ⟨_, _, hconstructed, _⟩ := Eval.exists_of_bind_ok hrest
    have htold : Eval.Tells (Mark.Right limit constructorName) note none (ctx.superTarget span)
        (ctx.superTarget span) := hR.superTarget
    obtain ⟨F, hF, hnamed⟩ := htold u
    obtain ⟨G, hG, hvalues⟩ := h.congruent.values hR.toCongruence args u
    obtain ⟨H, hH, hreach, hnotes⟩ := h.runConstructor hmethod hconstructed
    refine ⟨F ++ (G ++ H), hF.append (hG.append hH), hself ▸ (hreach.append G).append F, ?_⟩
    rw [← H.append_nil]
    exact hnamed.bind_ok htarget (hvalues.bind_ok hvals (hnotes.bind_ok hconstructed (.quiet fun _ => rfl)))
  next => cases hask

end Machine.Told

/-- Where a node asks for the method above and gets it, the nearest declaration above is reached. -/
theorem Machine.Told.rule {limit fuel : Nat} {name : String} {note : Sign → String}
    (h : Machine.Told limit fuel name note) (node : Node) (ctx : Context) (s : Store) : ∃ F : History,
      F.All (Mark.Right limit name) ∧ F.Noted limit fuel name note (·.rule node ctx) s ∧
      ∀ cls, ctx.classScope = some cls → node.asksAbove name = true →
        Mark.Right limit name (.asks cls (s.frames.lookup? ctx.scope "self"))
          (((Machine.usual limit fuel).rule node ctx).completes s) F := by
  by_cases hgets : ∃ cls owner method v t, node.asksAbove name = true ∧ ctx.classScope = some cls ∧
      cls.above? name = some (owner, method) ∧ (Machine.usual limit fuel).rule node ctx s = .ok v t
  · obtain ⟨cls, owner, method, v, t, hask, hscope, habove, hrun⟩ := hgets
    obtain ⟨F, hF, hreach, hnotes⟩ := h.ask hask hscope habove hrun
    refine ⟨F, hF, hnotes, ?_⟩
    intro _ hcls _ _ _ _ _ hmark _ hfound
    cases hmark
    cases hscope.symm.trans hcls
    cases habove.symm.trans hfound
    exact hreach
  · obtain ⟨F, hF, hnotes⟩ := h.congruent.full_rule (Eval.tells _ note limit) node s
    refine ⟨F, hF, hnotes, ?_⟩
    intro cls hcls hask _ _ owner method hmark hcompleted habove
    cases hmark
    unfold Eval.completes at hcompleted
    split at hcompleted
    next v t hrun => exact absurd ⟨cls, owner, method, v, t, hask, hcls, habove, hrun⟩ hgets
    next => cases hcompleted

end ScriptLang
