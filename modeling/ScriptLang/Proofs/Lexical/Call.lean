import ScriptLang.Proofs.Lexical.Eval

/-! Calls leave code where it is written: a body is evaluated as code of the class that the function was
made in, wherever it is called from. -/
namespace ScriptLang

variable {I : Placement} {x : Exits} {depth : Nat} {known later : List Class} {m n : Machine} {ctx : Context}
  {span : Span} {trace : Trace} {site : CallSite}

structure ArgumentsKnown (I : Placement) (known : List Class) (args : List Value) : Prop where
  length : I.bounded = true → args.length ≤ maxLength
  all : ∀ v ∈ args, v.Known I known

namespace ArgumentsKnown

variable {v : Value} {args : List Value}

theorem nil : ArgumentsKnown I known [] := ⟨fun _ => Nat.zero_le _, nofun⟩

theorem singleton (h : v.Known I known) : ArgumentsKnown I known [v] :=
  ⟨fun _ => show 1 ≤ maxLength by decide, fun _ hw => List.mem_singleton.mp hw ▸ h⟩

theorem tail (h : ArgumentsKnown I known (v :: args)) : ArgumentsKnown I known args :=
  ⟨fun hbounded => Nat.le_of_succ_le (h.length hbounded), fun w hw => h.all w (List.mem_cons_of_mem _ hw)⟩

theorem toArray (h : ArgumentsKnown I known args) : (I.values known).Elements args.toArray :=
  ⟨h.length, fun v hv => h.all v (List.mem_toArray.mp hv)⟩

theorem mono (hlater : known <+: later) (h : ArgumentsKnown I known args) : ArgumentsKnown I later args :=
  ⟨h.length, fun v hv => (h.all v hv).mono hlater⟩

end ArgumentsKnown

theorem Class.Known.method? {cls owner : Class} (h : cls.Known I known) {kind : MethodKind} {name : String}
    {method : MethodDef Node} (hfound : cls.method? kind name = some (owner, method)) {object : Instance}
    (hobject : object.cls.Known I known) : (owner.bind method (some object)).Known I known := by
  obtain ⟨howner, hmethod⟩ := of_method? hfound
  exact (h.of_mem howner).bind kind hmethod fun _ hreceiver => Option.some.inj hreceiver ▸ hobject

theorem Instance.textMethod?_known {object : Instance} (h : object.cls.Known I known) {method : Closure}
    (hmethod : object.textMethod? = some method) : method.Known I known := by
  obtain ⟨_, hfound, rfl⟩ := Option.map_eq_some_iff.mp hmethod
  exact h.method? hfound h

/-- What leaves a body that is called gives the value of the call. -/
theorem Context.leave_agrees {body : Node} (hbody : I.Site depth ctx.trace body.span) {i : Interrupt}
    (hi : i.Known I (.called I.lax) known) : Eval.Known I x depth known (ctx.leave body i) (ctx.leave body i) := by
  cases i with
  | returned value => exact .pure hi.2
  | broken | continued => exact .misfire hbody _ (.inl hi)
  | failed | exhausted => exact .throw hi

/-- The parameters of such functions have no default values. -/
theorem Builtin.params_fallback {Q : Node → Prop} (b : Builtin) :
    ∀ param ∈ b.params, ∀ part ∈ param.fallback, Q part := by
  cases b <;> simp [Builtin.params, Builtin.required, Builtin.optional, Builtin.param]

namespace Machine.Agrees

variable (h : Machine.Agrees I m n) {args : List Value} {params : List (Param Node)}

include h

section Context

variable (hctx : ctx.Known I depth known)

include hctx

/-- What leaves code that runs on its own makes it fail, and that needs lax rules. -/
theorem value {node : Node} (hnode : I.At (.alone I.lax) ctx.classScope node) :
    Eval.Known I x depth known (m.value node ctx) (n.value node ctx) := by
  refine .tryCatch (h.eval hnode hctx) fun _ _ i hi => ?_
  have hsite := hctx.site hnode.admitted
  cases i with
  | returned => exact .misfire hsite _ (.inl hi.1)
  | broken | continued => exact .misfire hsite _ (.inl hi)
  | failed | exhausted => exact .throw hi

theorem values {nodes : List Node} (hnodes : ∀ node ∈ nodes, I.At x ctx.classScope node)
    (hlength : I.bounded = true → nodes.length ≤ maxLength) :
    Eval.Agrees I x depth known (ArgumentsKnown I) (m.values nodes ctx) (n.values nodes ctx) := by
  have hall := Eval.Agrees.mapM (P := Value.Known I) (fun hlater => Value.Known.mono hlater)
    fun node hnode _ hlater => h.eval (hnodes node hnode) (hctx.mono hlater)
  exact hall.mono fun _ args hargs => ⟨hargs.1 ▸ hlength, hargs.2⟩

theorem runBody {code : FunctionDef Node} (hbody : I.At (.called I.lax) ctx.classScope code.body) :
    Eval.Known I x depth known (m.runBody code ctx) (n.runBody code ctx) := by
  refine .tryCatch (.bind (h.eval hbody hctx) fun _ _ value hvalue => .pure ?_) ?_
  · split
    · exact hvalue
    · trivial
  · exact fun _ _ _ => Context.leave_agrees (hctx.site hbody.admitted)

variable (hargs : ArgumentsKnown I known args)

include hargs

theorem argument {param : Param Node} (hparam : ∀ part ∈ param.fallback, I.At (.alone I.lax) ctx.classScope part) :
    Eval.Agrees I x depth known (fun known taken => taken.1.Known I known ∧ ArgumentsKnown I known taken.2)
      (m.argument ctx param args) (n.argument ctx param args) := by
  unfold Machine.argument
  split
  · exact .bind (.newList hargs.toArray) fun _ _ _ hvalue => .pure ⟨hvalue, .nil⟩
  · cases args with
    | cons value rest => exact .pure ⟨hargs.all value List.mem_cons_self, hargs.tail⟩
    | nil =>
      dsimp only
      cases hfallback : param.fallback with
      | none => exact .pure ⟨trivial, .nil⟩
      | some node =>
        exact .bind (h.value hctx (hparam node hfallback)) fun _ _ _ hvalue => .pure ⟨hvalue, .nil⟩

variable (hsite : I.Site depth site.caller site.span)
  (hparams : ∀ param ∈ params, ∀ part ∈ param.fallback, I.At (.alone I.lax) ctx.classScope part)

include hsite hparams

theorem bind :
    Eval.Agrees I x depth known (fun known values => ∀ v ∈ values, v.Known I known)
      (m.bind site ctx params args) (n.bind site ctx params args) := by
  induction params generalizing known args with
  | nil => exact .pure (List.forall_mem_nil _)
  | cons param params ih =>
    obtain ⟨hparam, hparams⟩ := List.forall_mem_cons.mp hparams
    rw [Machine.bind, Machine.bind]
    refine .bind (h.argument hctx hargs hparam) fun _ hlater found hvalue => ?_
    obtain ⟨value, rest⟩ := found
    dsimp only
    split
    · exact .fail_bind hsite _ _ _ trivial
    · refine .bind (.declare hsite hvalue.1 false) fun _ hdeclared _ _ => ?_
      have hctx := hctx.mono (hlater.trans hdeclared)
      refine .bind (ih hctx (hvalue.2.mono hdeclared) hparams) fun _ hlast values hvalues => ?_
      exact .pure (List.forall_mem_cons.mpr ⟨(hvalue.1.mono hdeclared).mono hlast, hvalues⟩)

theorem bindArguments :
    Eval.Agrees I x depth known (fun known values => ∀ v ∈ values, v.Known I known)
      (m.bindArguments site ctx params args) (n.bindArguments site ctx params args) := by
  unfold Machine.bindArguments
  dsimp only
  split
  · exact .fail_bind hsite _ _ _ trivial
  · exact h.bind hctx hargs hsite hparams

end Context

theorem invoke (hsite : I.Site depth site.caller site.span) {closure : Closure}
    (hclosure : closure.Known I known) (hargs : ArgumentsKnown I known args) :
    Eval.Agrees I x (depth + 1) known (Value.Known I) (m.invoke closure args site) (n.invoke closure args site) := by
  have hrun {later : List Class} (hlater : known <+: later) (scope : Scope) :
      let ctx : Context := ⟨site.trace, scope, closure.classScope⟩
      Eval.Agrees I x (depth + 1) later (Value.Known I)
        (do discard (m.bindArguments site ctx closure.code.params args); m.runBody closure.code ctx)
        (do discard (n.bindArguments site ctx closure.code.params args); n.runBody closure.code ctx) := by
    intro ctx
    -- The class is that of the function; where the call stands does not matter.
    have hctx : ctx.Known I (depth + 1) known := (hsite.call site.name).context hclosure.classScope
    have hbound := h.bindArguments (x := x) (hctx.mono hlater) (hargs.mono hlater) (hsite.mono (Nat.le_succ depth))
      hclosure.code.fallback
    refine .bind hbound.discard fun _ hlast _ _ => ?_
    exact h.runBody (hctx.mono (hlater.trans hlast)) hclosure.code.body
  refine .bind .innerScope fun _ hlater scope _ => ?_
  cases hreceiver : closure.receiver with
  | none => exact hrun hlater scope
  | some object =>
    have hself : (Value.instance object).Known I _ := (hclosure.receiver object hreceiver).mono hlater
    refine .bind (.declare (hsite.mono (Nat.le_succ depth)) hself false) fun _ hdeclared _ _ => ?_
    exact hrun (hlater.trans hdeclared) scope

variable (hsite : I.Site depth trace span)

include hsite

theorem call {closure : Closure} (hclosure : closure.Known I known) (hargs : ArgumentsKnown I known args) :
    Eval.Known I x depth known (m.call closure args span trace) (n.call closure args span trace) := by
  unfold Machine.call
  rw [h.limit]
  exact .guarded hsite h.most (h.invoke hsite hclosure hargs)

theorem nestedText (room : Nat) (around : List Handle) {value : Value} (hvalue : value.Known I known) :
    Eval.Agrees I x depth known (fun _ _ => True) (m.nestedText span trace room around value)
      (n.nestedText span trace room around value) := by
  induction room generalizing known around value with
  | zero => cases value <;> exact .pure trivial
  | succ room ih =>
    cases value with
    | list id =>
      rw [Machine.nestedText, Machine.nestedText]
      split
      · exact .pure trivial
      · refine .bind .get fun _ _ s hs => ?_
        refine .bind (.mapM (P := fun _ _ => True) (fun _ _ => trivial) fun element helement _ hlater => ?_)
          fun _ _ _ _ => .pure trivial
        exact ih _ (((hs.heap.list id).all element (Array.mem_def.mpr helement)).mono hlater)
    | dict id =>
      rw [Machine.nestedText, Machine.nestedText]
      split
      · exact .pure trivial
      · refine .bind .get fun _ _ s hs => ?_
        refine .bind (.mapM (P := fun _ _ => True) (fun _ _ => trivial) fun entry hentry _ hlater => ?_)
          fun _ _ _ _ => .pure trivial
        exact .bind (ih _ ((hs.heap.dict id entry hentry).2.mono hlater)) fun _ _ _ _ => .pure trivial
    | «instance» object =>
      rw [Machine.nestedText, Machine.nestedText]
      cases hmethod : object.textMethod? with
      | none => exact .pure trivial
      | some method =>
        dsimp only
        split
        · exact .pure trivial
        · have hknown := Instance.textMethod?_known hvalue hmethod
          refine .bind (h.call hsite hknown .nil) fun _ _ result hresult => ?_
          cases result with
          | text text => exact .pure trivial
          | _ => exact ih _ hresult
    | _ => exact .pure trivial

theorem text {value : Value} (hvalue : value.Known I known) :
    Eval.Agrees I x depth known (fun _ _ => True) (m.text value span trace) (n.text value span trace) :=
  h.nestedText hsite _ _ hvalue

theorem print {values : List Value} (hvalues : ∀ v ∈ values, v.Known I known) :
    Eval.Known I x depth known (m.print values span trace) (n.print values span trace) := by
  refine .bind (.mapM (P := fun _ _ => True) (fun _ _ => trivial) fun value hvalue _ hlater => ?_)
    fun _ _ texts _ => ?_
  · exact h.text hsite ((hvalues value hvalue).mono hlater)
  · exact .bind (.modify fun s hs => { hs with }) fun _ _ _ _ => .pure trivial

theorem runBuiltin {b : Builtin} (hb : I.bounded = true → b.isUnchecked = false)
    (hargs : ∀ v ∈ args, v.Known I known) :
    Eval.Known I x depth known (m.runBuiltin b args span trace)
      (n.runBuiltin b args span trace) := by
  unfold Machine.runBuiltin
  split
  · refine .bind .get fun _ _ s hs => h.print hsite fun v hv => ?_
    exact (hs.heap.list _).all v (Array.mem_def.mpr hv)
  · refine .bind (h.text hsite (hargs _ (List.mem_singleton.mpr rfl))) fun _ _ _ _ => .pure fun hbounded => ?_
    cases hb hbounded
  · exact .onHeap hsite (Builtin.act_passes (T := I.values _) hb hargs)

omit hsite in
theorem invokeBuiltin (hsite : I.Site depth site.caller site.span) {b : Builtin}
    (hb : I.bounded = true → b.isUnchecked = false) (hargs : ArgumentsKnown I known args) :
    Eval.Agrees I x (depth + 1) known (Value.Known I) (m.invokeBuiltin b args site) (n.invokeBuiltin b args site) := by
  have hinside : I.Site (depth + 1) site.trace site.span := hsite.call site.name
  refine .bind (P := fun _ _ => True)
    (.modifyGet fun s hs => ⟨trivial, { hs with frames := hs.frames.push }⟩) fun _ hlater own _ => ?_
  refine .bind (h.bindArguments (hinside.context nofun) (hargs.mono hlater) (hsite.mono (Nat.le_succ depth))
    b.params_fallback) ?_
  exact fun _ _ _ hbound => h.runBuiltin hinside hb hbound

theorem callValue {callee : Value} (hcallee : callee.Known I known) (hargs : ArgumentsKnown I known args) :
    Eval.Known I x depth known (m.callValue callee args span trace) (n.callValue callee args span trace) := by
  cases callee with
  | function closure => exact h.call hsite hcallee hargs
  | builtin b =>
    unfold Machine.callValue
    dsimp only
    rw [h.limit]
    exact .guarded hsite h.most (h.invokeBuiltin hsite hcallee hargs)
  | _ => exact .fail hsite _ trivial

end Machine.Agrees

end ScriptLang
