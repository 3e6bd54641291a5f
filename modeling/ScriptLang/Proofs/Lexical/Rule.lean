import ScriptLang.Eval.Rule
import ScriptLang.Proofs.Lexical.Class

/-! The rules of evaluation leave code where it is written. Main statement: machines that agree on the
parts of a node agree on the node. -/
namespace ScriptLang

variable {I : Placement} {x : Exits} {depth : Nat} {known later : List Class} {m n : Machine} {ctx : Context}
  {span : Span} {collected : Array Value} {body : Node} {discards : Bool} {node : Node}

def AllKnown (I : Placement) (known : List Class) (values : Array Value) : Prop :=
  ∀ v ∈ values, v.Known I known

theorem AllKnown.empty : AllKnown I known #[] := fun _ hv => absurd hv (Array.not_mem_empty _)

theorem AllKnown.mono (hlater : known <+: later) {values : Array Value} (h : AllKnown I known values) :
    AllKnown I later values :=
  fun v hv => (h v hv).mono hlater

def Turn.Known (I : Placement) (known : List Class) (turn : Turn (Option Value) Unit) : Prop :=
  ∀ value, turn = .next (some value) → value.Known I known

/-- A loop that collects values can make a list of any length. -/
theorem Loop.collect_agrees (hdiscards : I.bounded = true → discards = true) (h : AllKnown I known collected) :
    Eval.Known I x depth known (Loop.collect discards collected) (Loop.collect discards collected) := by
  cases discards with
  | true => exact .pure trivial
  | false => exact .newList ⟨fun hbounded => Bool.noConfusion (hdiscards hbounded), h⟩

namespace Context

variable (hsite : I.Site depth ctx.trace span)

include hsite

/-- A function belongs to the class of the place where it is made. -/
theorem function_agrees {definition : FunctionDef Node}
    (hplaced : definition.Placed I ctx.classScope) (hctx : ctx.Known I depth known) :
    Eval.Known I x depth known (ctx.function definition span) (ctx.function definition span) := by
  have hvalue : (Value.function ⟨definition, ctx.scope, ctx.classScope, none⟩).Known I known :=
    ⟨hplaced, hctx.cls, nofun⟩
  unfold function
  cases definition.name with
  | none => exact .pure hvalue
  | some name => exact .bind (declare_agrees hsite name hvalue) fun _ hlater _ _ => .pure (hvalue.mono hlater)

theorem enumeration_agrees (name : String) {members : List String}
    (hmembers : I.bounded = true → ∀ name ∈ members, FitText name) :
    Eval.Known I x depth known (ctx.enumeration name members span) (ctx.enumeration name members span) := by
  refine .bind (.newDict ?_) fun _ _ value hvalue => ?_
  · refine Value.Trait.Entries.empty.insertAll fun entry hentry => ?_
    obtain ⟨⟨member, index⟩, hmem, rfl⟩ := List.mem_map.mp hentry
    exact ⟨fun hbounded => hmembers hbounded member (List.fst_mem_of_mem_zipIdx hmem), trivial⟩
  · refine .bind (declareConstant_agrees hsite name hvalue) fun _ hlater _ _ => ?_
    exact .pure (hvalue.mono hlater)

end Context

namespace Machine.Agrees

variable (h : Machine.Agrees I m n) (hctx : ctx.Known I depth known) {otherwise : Option Node}

include h hctx

/-- A jump out of the body decides whether the loop goes on; it does not leave the loop. -/
theorem turn (hbody : I.At x.looped ctx.classScope body) :
    Eval.Agrees I x depth known (Turn.Known I) (m.turn body ctx) (n.turn body ctx) := by
  refine .tryCatch (.bind (h.eval hbody hctx) fun _ _ value hvalue => .pure ?_) fun _ _ i hi => ?_
  · rintro _ ⟨⟩
    exact hvalue
  · cases i with
    | continued | broken => exact .pure nofun
    | returned | failed | exhausted => exact .throw hi

theorem bound (what : String) (hnode : I.At x ctx.classScope node) :
    Eval.Agrees I x depth known (fun _ _ => True) (m.bound what node ctx) (n.bound what node ctx) := by
  refine .bind (h.eval hnode hctx) fun _ _ value _ => ?_
  cases value with
  | number x => exact .pure trivial
  | _ => exact .fail (hctx.site hnode.admitted) _ trivial

theorem step {node : Option Node} (hnode : ∀ part ∈ node, I.At x ctx.classScope part) (start stop : Float) :
    Eval.Agrees I x depth known (fun _ _ => True) (m.step node start stop ctx) (n.step node start stop ctx) := by
  cases node with
  | none => exact .pure trivial
  | some node =>
    refine .bind (h.bound hctx _ (hnode node rfl)) fun _ _ step _ => ?_
    dsimp only
    split
    · exact .fail_bind (hctx.site (hnode node rfl).admitted) _ _ _ trivial
    · exact .pure trivial

section Loop

variable (hsite : I.Site depth ctx.trace span)

include hsite

variable (hbody : I.At x.looped ctx.classScope body)

include hbody

theorem count (name : String) (stop step : Float) (discards : Bool) (turns : Nat) (current : Float)
    (hcollected : AllKnown I known collected) :
    Eval.Agrees I x depth known (AllKnown I)
      (m.count name stop step body discards span ctx turns current collected)
      (n.count name stop step body discards span ctx turns current collected) := by
  induction turns generalizing known current collected with
  | zero => exact .throw trivial
  | succ turns ih =>
    rw [Machine.count, Machine.count]
    split
    · exact .pure hcollected
    · refine .bind (Context.turn_agrees hsite hctx (by decide)) fun inside hinside inner hinner => ?_
      have hnumber : (Value.number current).Known I inside := trivial
      refine .bind (.declare hsite hnumber false) fun _ hdeclared _ _ => ?_
      have hturn := h.turn (hinner.1.mono hdeclared) (hinner.2 ▸ hbody)
      refine .bind hturn fun _ hlater turn hturn => ?_
      have hmono := (hinside.trans hdeclared).trans hlater
      cases turn with
      | next value => exact ih (hctx.mono hmono) _ (Loop.gather_all discards (hcollected.mono hmono) hturn)
      | done => exact .pure (hcollected.mono hmono)

theorem countingLoop (name : String) {start : Option Node} (hstart : ∀ part ∈ start, I.At x ctx.classScope part)
    {stop : Node} (hstop : I.At x ctx.classScope stop) {step : Option Node}
    (hstep : ∀ part ∈ step, I.At x ctx.classScope part) (hdiscards : I.bounded = true → discards = true) :
    Eval.Known I x depth known (m.countingLoop name start stop step body discards span ctx)
      (n.countingLoop name start stop step body discards span ctx) := by
  unfold Machine.countingLoop
  rw [h.turns]
  have hloop {known : List Class} (hctx : ctx.Known I depth known) (first : Float) :
      Eval.Known I x depth known
        (do
          let stop ← m.bound "end" stop ctx
          let step ← m.step step first stop ctx
          Loop.collect discards (← m.count name stop step body discards span ctx n.turns first #[]))
        (do
          let stop ← n.bound "end" stop ctx
          let step ← n.step step first stop ctx
          Loop.collect discards (← n.count name stop step body discards span ctx n.turns first #[])) := by
    refine .bind (h.bound hctx _ hstop) fun _ hlater stop _ => ?_
    refine .bind (h.step (hctx.mono hlater) hstep first stop) fun _ hlast step _ => ?_
    have hctx := hctx.mono (hlater.trans hlast)
    refine .bind (h.count hctx hsite hbody name stop step discards n.turns first .empty) ?_
    exact fun _ _ _ hcollected => Loop.collect_agrees hdiscards hcollected
  cases start with
  | none => exact hloop hctx 0
  | some node =>
    exact .bind (h.bound hctx _ (hstart node rfl)) fun _ hlater first _ => hloop (hctx.mono hlater) first

theorem each (discards : Bool) {items : List (List (String × Value))}
    (hitems : ∀ names ∈ items, ∀ entry ∈ names, entry.2.Known I known) (hcollected : AllKnown I known collected) :
    Eval.Agrees I x depth known (AllKnown I) (m.each body discards span ctx items collected)
      (n.each body discards span ctx items collected) := by
  induction items generalizing known collected with
  | nil => exact .pure hcollected
  | cons names items ih =>
    obtain ⟨hnames, hitems⟩ := List.forall_mem_cons.mp hitems
    rw [Machine.each, Machine.each]
    refine .bind (Context.turn_agrees hsite hctx (by decide)) fun _ hinside inner hinner => ?_
    refine .bind (.forM fun entry hentry _ hmono => ?_) fun _ hdeclared _ _ => ?_
    · exact .declare hsite ((hnames entry hentry).mono (hinside.trans hmono)) false
    · have hturn := h.turn (hinner.1.mono hdeclared) (hinner.2 ▸ hbody)
      refine .bind hturn fun _ hlater turn hturn => ?_
      have hmono := (hinside.trans hdeclared).trans hlater
      cases turn with
      | next value =>
        refine ih (hctx.mono hmono) ?_ (Loop.gather_all discards (hcollected.mono hmono) hturn)
        exact fun names hnames entry hentry => (hitems names hnames entry hentry).mono hmono
      | done => exact .pure (hcollected.mono hmono)

theorem eachLoop {source : Node} (hsource : I.At x ctx.classScope source) (key : Option String) (value : String)
    (hdiscards : I.bounded = true → discards = true) :
    Eval.Known I x depth known (m.eachLoop source key value body discards span ctx)
      (n.eachLoop source key value body discards span ctx) := by
  refine .bind (h.eval hsource hctx) fun _ hlater source _ => .bind .get fun _ hlast s hs => ?_
  cases hitems : source.items s.heap with
  | none => exact .fail hsite _ trivial
  | some items =>
    have hknown := Value.items_all hs.heap hitems
    refine .bind (h.each (hctx.mono (hlater.trans hlast)) hsite hbody discards ?_ .empty) ?_
    · intro names hnames
      obtain ⟨item, hitem, rfl⟩ := List.mem_map.mp hnames
      exact Loop.itemNames_all (hknown item hitem)
    · exact fun _ _ _ hcollected => Loop.collect_agrees hdiscards hcollected

theorem repeatWhile {condition : Node} (hcondition : I.At x ctx.classScope condition) (discards : Bool)
    (turns : Nat) (hcollected : AllKnown I known collected) :
    Eval.Agrees I x depth known (AllKnown I) (m.repeatWhile condition body discards span ctx turns collected)
      (n.repeatWhile condition body discards span ctx turns collected) := by
  induction turns generalizing known collected with
  | zero => exact .throw trivial
  | succ turns ih =>
    rw [Machine.repeatWhile, Machine.repeatWhile]
    refine .bind (h.eval hcondition hctx) fun _ htested value _ => ?_
    refine .bind (.isTrue value) fun _ hjudged holds _ => ?_
    have htested := htested.trans hjudged
    split
    · exact .pure (hcollected.mono htested)
    · refine .bind (Context.turn_agrees hsite (hctx.mono htested) (by decide)) fun _ hinside inner hinner => ?_
      refine .bind (h.turn hinner.1 (hinner.2 ▸ hbody)) fun _ hlater turn hturn => ?_
      have hmono := (htested.trans hinside).trans hlater
      cases turn with
      | next value => exact ih (hctx.mono hmono) (Loop.gather_all discards (hcollected.mono hmono) hturn)
      | done => exact .pure (hcollected.mono hmono)

theorem whileLoop {condition : Node} (hcondition : I.At x ctx.classScope condition)
    (hdiscards : I.bounded = true → discards = true) :
    Eval.Known I x depth known (m.whileLoop condition body discards span ctx)
      (n.whileLoop condition body discards span ctx) := by
  unfold Machine.whileLoop
  rw [h.turns]
  refine .bind (h.repeatWhile hctx hsite hbody hcondition discards n.turns .empty) ?_
  exact fun _ _ _ hcollected => Loop.collect_agrees hdiscards hcollected

end Loop

theorem template (hfree : I.bounded = true → False) {parts : List (TemplatePart Node)}
    (hparts : ∀ node ∈ parts.flatMap TemplatePart.parts, I.At x ctx.classScope node) :
    Eval.Known I x depth known (m.template parts ctx) (n.template parts ctx) := by
  refine .bind (.foldlM (P := fun _ _ => True) (fun part hpart _ hlater text _ => ?_) trivial)
    fun _ _ _ _ => .pure fun hbounded => (hfree hbounded).elim
  cases part with
  | text value => exact .pure trivial
  | expression node =>
    have hnode := hparts node (List.mem_flatMap.mpr ⟨_, hpart, List.mem_singleton.mpr rfl⟩)
    refine .bind (h.eval hnode (hctx.mono hlater)) fun _ _ value hvalue => ?_
    exact .bind (h.text (hctx.site hnode.admitted) hvalue) fun _ _ _ _ => .pure trivial

theorem dictLiteral {entries : List (String × Node)} (hkeys : I.bounded = true → ∀ entry ∈ entries, FitText entry.1)
    (hnodes : ∀ entry ∈ entries, I.At x ctx.classScope entry.2) :
    Eval.Known I x depth known (m.dictLiteral entries ctx) (n.dictLiteral entries ctx) := by
  refine .bind (.foldlM (P := fun known => (I.values known).Entries)
    (fun entry hentry _ hlater read hread => ?_) .empty) fun _ _ _ hentries => .newDict hentries
  refine .bind (h.eval (hnodes entry hentry) (hctx.mono hlater)) fun _ hlast _ hvalue => .pure ?_
  have hread : (I.values _).Entries read := fun entry hentry => (hread entry hentry).imp_right (.mono hlast)
  exact hread.insert (fun hbounded => hkeys hbounded entry hentry) hvalue

section Site

variable (hsite : I.Site depth ctx.trace span)

include hsite

section

variable {index : Index Node} (hindex : ∀ part ∈ index.parts, I.At x ctx.classScope part)

include hindex

theorem readIndex {target : Value} (htarget : target.Known I known) :
    Eval.Known I x depth known (m.readIndex target index span ctx) (n.readIndex target index span ctx) := by
  cases index with
  | single key =>
    refine .bind (h.eval (hindex key (List.mem_singleton.mpr rfl)) hctx) fun _ hlater _ _ => ?_
    exact .onHeap hsite (Action.readElement_passes (T := I.values _) (htarget.mono hlater))
  | slice start stop =>
    have hstart : ∀ part ∈ start, I.At x ctx.classScope part := fun part hpart =>
      hindex part (List.mem_append_left _ (Option.mem_toList.mpr hpart))
    have hstop : ∀ part ∈ stop, I.At x ctx.classScope part := fun part hpart =>
      hindex part (List.mem_append_right _ (Option.mem_toList.mpr hpart))
    refine .bind (.optionM fun node hnode => h.eval (hstart node hnode) hctx) fun _ hlater start _ => ?_
    refine .bind (.optionM fun node hnode => h.eval (hstop node hnode) (hctx.mono hlater))
      fun _ hlast stop _ => ?_
    exact .onHeap hsite (Action.readSlice_passes (T := I.values _) (htarget.mono (hlater.trans hlast)) start stop)
  | push => exact .fail hsite _ trivial

theorem writeIndex {target value : Node} (htarget : I.At x ctx.classScope target)
    (hvalue : I.At x ctx.classScope value) :
    Eval.Known I x depth known (m.writeIndex target index value span ctx)
      (n.writeIndex target index value span ctx) := by
  refine .bind (h.eval htarget hctx) fun _ hlater target _ => ?_
  have hctx := hctx.mono hlater
  have hwrite {known : List Class} (hctx : ctx.Known I depth known) {key : Option Value}
      (hkey : ∀ k ∈ key, k.Known I known) :
      Eval.Known I x depth known
        (do
          let value ← m.eval value ctx
          .onHeap ctx.trace span (.writeElement target key value)
          return value)
        (do
          let value ← n.eval value ctx
          .onHeap ctx.trace span (.writeElement target key value)
          return value) := by
    refine .bind (h.eval hvalue hctx) fun later hlater value hvalue => ?_
    have hwritten := Action.writeElement_passes (T := I.values later) (a := target)
      (fun k hk => (hkey k hk).mono hlater) hvalue
    exact .bind (.onHeap (P := fun _ _ => True) hsite hwritten) fun _ hlast _ _ => .pure (hvalue.mono hlast)
  cases index with
  | single key =>
    refine .bind (.map (Q := fun known key => ∀ k ∈ key, Value.Known I known k)
      (h.eval (hindex key (List.mem_singleton.mpr rfl)) hctx) ?_) ?_
    · exact fun _ _ value hvalue k hk => Option.some.inj hk ▸ hvalue
    · exact fun _ hlast key hkey => hwrite (hctx.mono hlast) hkey
  | push => exact hwrite hctx nofun
  | slice => exact .fail_bind hsite _ _ _ trivial

end

theorem delete (hI : I.Lexical) {target : Node} (htarget : I.At x ctx.classScope target) :
    Eval.Known I x depth known (m.delete target span ctx) (n.delete target span ctx) := by
  unfold Machine.delete
  split
  · exact .bind (.discard (.onFrames (P := fun _ _ => True) hsite Scoping.remove_passes)) fun _ _ _ _ =>
      .pure trivial
  next inner key optional hshape =>
    -- The target itself is not evaluated, but its parts are.
    have hparts := hI.parts htarget (by rw [hshape]; rfl)
    rw [Node.parts, hshape] at hparts
    refine .bind (h.eval (hparts inner (by simp [Shape.parts])) hctx) fun _ hlater target _ => ?_
    refine .bind (h.eval (hparts key (by simp [Shape.parts, Index.parts])) (hctx.mono hlater)) fun _ _ _ _ => ?_
    refine .bind (.discard (.onHeap (P := Value.Known I) hsite ?_)) fun _ _ _ _ => .pure trivial
    exact Action.removeElement_passes
  · exact .fail_bind hsite _ _ _ trivial

theorem binary (op : BinaryOp) {left right : Node} (hleft : I.At x ctx.classScope left)
    (hright : I.At x ctx.classScope right) :
    Eval.Known I x depth known (m.binary op left right span ctx) (n.binary op left right span ctx) := by
  refine .bind (h.eval hleft hctx) fun _ hlater left hleft => ?_
  have hctx := hctx.mono hlater
  have hboth (op : BinaryOp) : Eval.Agrees I x depth _ (Value.Known I)
      (do let right ← m.eval right ctx; .onHeap ctx.trace span (.binary op left right))
      (do let right ← n.eval right ctx; .onHeap ctx.trace span (.binary op left right)) :=
    .bind (h.eval hright hctx) fun _ hlast _ hright =>
      .onHeap hsite (Action.binary_passes (T := I.values _) op (hleft.mono hlast) hright)
  cases op with
  | and =>
    refine .bind (.isTrue left) fun _ hlast holds _ => ?_
    cases holds with
    | true => exact h.eval hright (hctx.mono hlast)
    | false => exact .pure (hleft.mono hlast)
  | or =>
    refine .bind (.isTrue left) fun _ hlast holds _ => ?_
    cases holds with
    | true => exact .pure (hleft.mono hlast)
    | false => exact h.eval hright (hctx.mono hlast)
  | nullish =>
    dsimp only
    split
    · exact h.eval hright hctx
    · exact .pure hleft
  | add =>
    refine .bind (h.eval hright hctx) fun _ hlast right hright => ?_
    have hleft := hleft.mono hlast
    split
    · refine .bind (h.text hsite hleft) fun _ hshown _ _ => .bind (h.text hsite (hright.mono hshown)) fun _ _ _ _ => ?_
      exact .onHeap hsite (Action.concatenate_passes _ _)
    · exact .onHeap hsite (Action.binary_passes (T := I.values _) .add hleft hright)
  | _ => exact hboth _

end Site

theorem branch (hbody : I.At x ctx.classScope body) (discards : Bool) :
    Eval.Known I x depth known (m.branch body discards ctx) (n.branch body discards ctx) := by
  refine .bind (h.eval hbody hctx) fun _ _ value hvalue => .pure ?_
  split
  · trivial
  · exact hvalue

theorem conditional (hotherwise : ∀ part ∈ otherwise, I.At x ctx.classScope part) (discardOtherwise : Bool)
    {branches : List (Branch Node)}
    (hbranches : ∀ branch ∈ branches, I.At x ctx.classScope branch.condition ∧ I.At x ctx.classScope branch.body) :
    Eval.Known I x depth known (m.conditional otherwise discardOtherwise ctx branches)
      (n.conditional otherwise discardOtherwise ctx branches) := by
  induction branches generalizing known with
  | nil =>
    cases otherwise with
    | some body => exact h.branch hctx (hotherwise body rfl) _
    | none => exact .pure trivial
  | cons first rest ih =>
    obtain ⟨hfirst, hrest⟩ := List.forall_mem_cons.mp hbranches
    rw [Machine.conditional, Machine.conditional]
    refine .bind (h.eval hfirst.1 hctx) fun _ hlater value _ => .bind (.isTrue value) fun _ hlast holds _ => ?_
    have hctx := hctx.mono (hlater.trans hlast)
    split
    · exact h.branch hctx hfirst.2 _
    · exact ih hctx hrest

theorem block {statements : List Node} (hstatements : ∀ node ∈ statements, I.At x ctx.classScope node) :
    Eval.Known I x depth known (m.block statements ctx) (n.block statements ctx) :=
  .foldlM (fun node hnode _ hlater _ _ => h.eval (hstatements node hnode) (hctx.mono hlater)) trivial

theorem link {target : Node} (htarget : I.At x ctx.classScope target) (optional : Bool) {f g : Value → Eval Value}
    (rest : ∀ later, known <+: later → ∀ value : Value, value.Known I later →
      Eval.Agrees I x depth later (Value.Known I) (f value) (g value)) :
    Eval.Known I x depth known (m.link target optional ctx f) (n.link target optional ctx g) := by
  refine .bind (h.eval htarget hctx) fun later hlater target htarget => ?_
  split
  · exact .pure trivial
  · exact rest later hlater target htarget

/-- The value of a node, kept by a step that gives nothing. -/
private theorem keep_agrees (hnode : I.At x ctx.classScope node) {f g : Value → Eval Unit}
    (step : ∀ later, known <+: later → ∀ value : Value, value.Known I later →
      Eval.Agrees I x depth later (fun _ _ => True) (f value) (g value)) :
    Eval.Known I x depth known (do let value ← m.eval node ctx; f value; return value)
      (do let value ← n.eval node ctx; g value; return value) :=
  .bind (h.eval hnode hctx) fun later hlater value hvalue =>
    .bind (step later hlater value hvalue) fun _ hlast _ _ => .pure (hvalue.mono hlast)

/-- The members of a class definition belong to the new class, and the parts of any other node to the class
that the node belongs to. -/
theorem rule (hI : I.Lexical) (hnode : I.At x ctx.classScope node) :
    Eval.Known I x depth known (m.rule node ctx) (n.rule node ctx) := by
  have hsite := hctx.site hnode.admitted
  obtain ⟨shape, span⟩ := node
  have hopen : x.admits shape = true := (Node.isPlaced_iff.mp hnode.placed).1
  have hmodest : I.bounded = true → shape.Modest := hI.modest hnode.admitted
  have below (edge : Edge) (hshape : ∀ definition, shape ≠ .classDefinition definition) {part : Node} :
      (edge, part) ∈ shape.edges → I.At (x.into I.lax edge) ctx.classScope part := hI.edge hnode hshape
  have parts (hdirect : shape.isDirect = true) : ∀ part ∈ shape.parts, I.At x ctx.classScope part :=
    hI.parts hnode hdirect
  have hfirst {first : Node} {rest : List Node} (h : ∀ part ∈ first :: rest, I.At x ctx.classScope part) :
      I.At x ctx.classScope first ∧ ∀ part ∈ rest, I.At x ctx.classScope part := List.forall_mem_cons.mp h
  cases shape with
  | classDefinition definition => exact h.defineClass hsite fun made hmade => hI.made hnode rfl hmade
  | number | boolean | nothing | pass => exact .pure trivial
  | text => exact .pure hmodest
  | continueLoop | breakLoop => exact .throw hopen
  | template => exact h.template hctx hmodest (parts rfl)
  | list elements =>
    exact .bind (h.values hctx (parts rfl) hmodest) fun _ _ _ hvalues => .newList hvalues.toArray
  | dict entries =>
    exact h.dictLiteral hctx hmodest (fun entry hentry => parts rfl entry.2 (List.mem_map_of_mem hentry))
  | declare name value =>
    exact h.keep_agrees hctx (hfirst (parts rfl)).1 fun _ _ _ => Context.declare_agrees hsite name
  | declareConstant name value =>
    exact h.keep_agrees hctx (hfirst (parts rfl)).1 fun _ _ _ => Context.declareConstant_agrees hsite name
  | lookup name =>
    refine .bind (.lookup? name) fun _ _ found hfound => ?_
    cases found with
    | none => exact .fail hsite _ trivial
    | some value =>
      rcases hfound value rfl with hvalue | ⟨b, rfl, hname⟩
      · exact .pure hvalue
      · exact .pure fun hbounded => hmodest hbounded b hname
  | assign name value =>
    exact h.keep_agrees hctx (hfirst (parts rfl)).1 fun _ _ _ hvalue =>
      .onFrames hsite (Scoping.assign_passes (T := I.values _) hvalue)
  | delete target => exact h.delete hctx hsite hI (hfirst (parts rfl)).1
  | index target index optional =>
    obtain ⟨htarget, hindex⟩ := hfirst (parts rfl)
    exact h.link hctx htarget optional fun _ hlater _ hvalue => h.readIndex (hctx.mono hlater) hsite hindex hvalue
  | assignIndex target index value =>
    obtain ⟨htarget, hrest⟩ := hfirst (parts rfl)
    obtain ⟨hindex, hvalue⟩ := List.forall_mem_append.mp hrest
    exact h.writeIndex hctx hsite hindex htarget (hfirst hvalue).1
  | property target name optional =>
    exact h.link hctx (hfirst (parts rfl)).1 optional fun _ _ _ hvalue => h.readProperty hsite hvalue name
  | assignProperty target name value =>
    obtain ⟨htarget, hrest⟩ := hfirst (parts rfl)
    refine .bind (h.eval htarget hctx) fun _ hlater _ htarget => ?_
    refine h.keep_agrees (hctx.mono hlater) (hfirst hrest).1 fun _ hlast _ hvalue => ?_
    exact h.writeProperty hsite (htarget.mono hlast) hmodest hvalue
  | staticProperty target name optional =>
    exact h.link hctx (hfirst (parts rfl)).1 optional fun _ _ value _ => Context.readStatic_agrees hsite value name
  | assignStatic target name value =>
    obtain ⟨htarget, hrest⟩ := hfirst (parts rfl)
    refine .bind (h.eval htarget hctx) fun _ hlater target _ => ?_
    refine h.keep_agrees (hctx.mono hlater) (hfirst hrest).1 fun _ _ _ hvalue => ?_
    exact Context.writeStatic_agrees hsite target name hvalue
  | binary op left right =>
    obtain ⟨hleft, hrest⟩ := hfirst (parts rfl)
    exact h.binary hctx hsite op hleft (hfirst hrest).1
  | unary op operand =>
    refine .bind (h.eval (hfirst (parts rfl)).1 hctx) fun _ _ _ hvalue => ?_
    exact .onHeap hsite (Action.unary_passes (T := I.values _) op hvalue)
  | conditional branches otherwise discards =>
    obtain ⟨hbranches, hotherwise⟩ := List.forall_mem_append.mp (parts rfl)
    refine h.conditional hctx (fun part hpart => hotherwise part (Option.mem_toList.mpr hpart)) discards ?_
    intro branch hbranch
    have hparts (part) (hpart : part ∈ branch.parts) :=
      hbranches part (List.mem_flatMap.mpr ⟨branch, hbranch, hpart⟩)
    exact ⟨(hfirst hparts).1, (hfirst (hfirst hparts).2).1⟩
  | countingLoop name start stop step body discards =>
    refine h.countingLoop hctx hsite (below .turn (by simp) ?_) name (fun part hpart => below .inline (by simp) ?_)
      (below .inline (by simp) ?_) (fun part hpart => below .inline (by simp) ?_) hmodest <;> simp_all [Shape.edges]
  | eachLoop items key value body discards =>
    have hbody := below .turn (by simp) (List.mem_cons_of_mem _ List.mem_cons_self)
    exact h.eachLoop hctx hsite hbody (below .inline (by simp) List.mem_cons_self) key value hmodest
  | whileLoop condition body discards =>
    have hbody := below .turn (by simp) (List.mem_cons_of_mem _ List.mem_cons_self)
    exact h.whileLoop hctx hsite hbody (below .inline (by simp) List.mem_cons_self) hmodest
  | switch cases otherwise =>
    obtain ⟨hcases, hotherwise⟩ := List.forall_mem_append.mp (parts rfl)
    unfold Machine.rule
    dsimp only
    rw [switch_eq_conditional, switch_eq_conditional]
    refine h.conditional hctx (fun part hpart => hotherwise part (Option.mem_toList.mpr hpart)) true ?_
    intro branch hbranch
    obtain ⟨case, hcase, rfl⟩ := List.mem_map.mp hbranch
    have hparts (part) (hpart : part ∈ [case.1, case.2]) :=
      hcases part (List.mem_flatMap.mpr ⟨case, hcase, hpart⟩)
    exact ⟨(hfirst hparts).1, (hfirst (hfirst hparts).2).1⟩
  | block statements => exact h.block hctx (parts rfl)
  | function definition => exact Context.function_agrees hsite (hI.function hnode rfl) hctx
  | call callee args optional =>
    obtain ⟨hcallee, hargs⟩ := hfirst (parts rfl)
    refine h.link hctx hcallee optional fun _ hlater callee hcallee => ?_
    refine .bind (h.values (hctx.mono hlater) hargs hmodest) fun _ hlast _ hargs => ?_
    exact h.callValue hsite (hcallee.mono hlast) hargs
  | returnWith value =>
    cases value with
    | some node => exact .bind (h.eval (hfirst (parts rfl)).1 hctx) fun _ _ _ hvalue => .throw ⟨hopen, hvalue⟩
    | none => exact .throw ⟨hopen, trivial⟩
  | instantiate cls args =>
    obtain ⟨hcls, hargs⟩ := hfirst (parts rfl)
    exact h.instantiate hsite hctx hargs hmodest hcls
  | superCall args => exact h.superCall hsite hctx (parts rfl) hmodest
  | superProperty name => exact h.superProperty hsite hctx name
  | enumeration name members => exact Context.enumeration_agrees hsite name hmodest

end Machine.Agrees

end ScriptLang
