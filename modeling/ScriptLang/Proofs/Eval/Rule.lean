import ScriptLang.Eval.Rule
import ScriptLang.Proofs.Eval.Class

/-! Loops and all other rules of evaluation go in step. -/
namespace ScriptLang

variable {L : Difference} {m n : Machine} {c d : Context}
  {span span' : Span} {v w : Value} {xs ys : Array Value} {p q : Node}

inductive Turn.Alike (L : Leeway) :
    Turn (Option Value) Unit → Turn (Option Value) Unit → Prop
  | next {a b} (value : Option.Rel (Value.Alike L) a b) : Alike L (.next a) (.next b)
  | done : Alike L (.done ()) (.done ())

namespace Loop

theorem gather_alike (discards : Bool) (h : Aligned (Value.Alike L) xs ys)
    {a b : Option Value} (hab : Option.Rel (Value.Alike L) a b) :
    Aligned (Value.Alike L) (gather discards xs a) (gather discards ys b) := by
  cases discards with
  | true => exact h
  | false =>
    cases hab with
    | none => exact h
    | some hv => exact h.push hv

theorem collect_alike (discards : Bool) (h : Aligned (Value.Alike L) xs ys) :
    Eval.SameValue L (collect discards xs) (collect discards ys) := by
  cases discards with
  | true => exact .pure .nothing
  | false => exact Eval.newList_alike h

theorem itemNames_alike (key : Option String) (value : String) (keysOnly : Bool) {a b : Value × Value}
    (h : PairAlike (Value.Alike L) (Value.Alike L) a b) :
    List.Forall₂ (EntryAlike (Value.Alike L)) (itemNames key value keysOnly a) (itemNames key value keysOnly b) := by
  obtain ⟨hkey, hvalue⟩ := h
  cases key with
  | some key => exact .cons (.mk key hkey) (.cons (.mk value hvalue) .nil)
  | none =>
    cases keysOnly with
    | true => exact .cons (.mk value hkey) .nil
    | false => exact .cons (.mk value hvalue) .nil

end Loop

namespace Context.Alike

theorem function (hc : Context.Alike L c d) {f g : FunctionDef Node}
    (h : FunctionDef.Alike L.spans 0 (SameCode L) f g) :
    Eval.SameValue L (c.function f span) (d.function g span') := by
  have hv : Value.Alike L (.function ⟨f, c.scope, c.classScope, none⟩)
      (.function ⟨g, d.scope, d.classScope, none⟩) :=
    .function (.mk h hc.scope hc.classScope .none)
  unfold Context.function
  rw [h.name_eq]
  cases g.name with
  | none => exact .pure hv
  | some name => exact .bind (hc.declare name hv) fun _ _ _ => .pure hv

theorem enumeration (hc : Context.Alike L c d) (name : String) (members : List String) :
    Eval.SameValue L (c.enumeration name members span) (d.enumeration name members span') := by
  refine .bind (Eval.newDict_alike (.ofList ?_)) fun _ _ hv => ?_
  · rw [List.forall₂_map_left_iff, List.forall₂_map_right_iff, List.forall₂_same]
    rintro ⟨member, index⟩ _
    exact .mk member (.number _)
  · exact .bind (hc.declareConstant name hv) fun _ _ _ => .pure hv

end Context.Alike

namespace Machine.Alike

private theorem keep {x y : Eval Unit} (h : Eval.Alike L Eq x y) (hv : Value.Alike L v w) :
    Eval.SameValue L (do x; return v) (do y; return w) :=
  .bind h fun _ _ _ => .pure hv

variable (hm : Alike L m n) (hc : Context.Alike L c d)

include hm hc

theorem turn {a b : Node} (h : SameCode L a b) : Eval.Alike L (Turn.Alike L) (m.turn a c) (n.turn b d) := by
  refine .tryCatch (.bind (hm.eval h hc) fun _ _ hv => .pure (.next (.some hv))) fun i j hij => ?_
  cases hij with
  | continued => exact .pure (.next .none)
  | broken => exact .pure .done
  | returned value => exact .throw (.returned value)
  | failed cause => exact .throw (.failed cause)
  | exhausted => exact .throw .exhausted

theorem bound (what : String) {a b : Node} (h : SameCode L a b) :
    Eval.Alike L Eq (m.bound what a c) (n.bound what b d) := by
  refine .bind (hm.eval h hc) fun v w hv => ?_
  cases hv with
  | number x => exact .pure rfl
  | _ => exact Eval.fail_alike _

theorem step {a b : Option Node} (h : Option.Rel (SameCode L) a b) (start stop : Float) :
    Eval.Alike L Eq (m.step a start stop c) (n.step b start stop d) := by
  cases h with
  | none => exact .pure rfl
  | some hnode =>
    refine .bind (hm.bound hc _ hnode) ?_
    rintro step _ rfl
    dsimp only
    split
    · exact Eval.fail_bind_alike _ _ _
    · exact .pure rfl

theorem count (name : String) (stop step : Float) {a b : Node} (h : SameCode L a b) (discards : Bool) (turns : Nat)
    (current : Float) (hxs : Aligned (Value.Alike L) xs ys) :
    Eval.Alike L (Aligned (Value.Alike L)) (m.count name stop step a discards span c turns current xs)
      (n.count name stop step b discards span' d turns current ys) := by
  induction turns generalizing current xs ys with
  | zero => exact .throw .exhausted
  | succ turns ih =>
    rw [Machine.count, Machine.count]
    split
    · exact .pure hxs
    · refine .bind (hc.turn _ _ _) fun inner inner' hinner => ?_
      refine .bind (Eval.declare_alike hinner.scope name (.number current)) fun _ _ _ => ?_
      refine .bind (hm.turn hinner h) fun _ _ hturn => ?_
      cases hturn with
      | next value => exact ih _ (Loop.gather_alike discards hxs value)
      | done => exact .pure hxs

theorem countingLoop (name : String) {a b : Option Node} (hstart : Option.Rel (SameCode L) a b)
    (hstop : SameCode L p q) {e f : Option Node} (hstep : Option.Rel (SameCode L) e f) {i j : Node}
    (hbody : SameCode L i j) (discards : Bool) :
    Eval.SameValue L (m.countingLoop name a p e i discards span c) (n.countingLoop name b q f j discards span' d) := by
  have hloop (start : Float) : Eval.SameValue L
      (do
        let stop ← m.bound "end" p c
        let step ← m.step e start stop c
        Loop.collect discards (← m.count name stop step i discards span c m.turns start #[]))
      (do
        let stop ← n.bound "end" q d
        let step ← n.step f start stop d
        Loop.collect discards (← n.count name stop step j discards span' d n.turns start #[])) := by
    refine .bind (hm.bound hc _ hstop) ?_
    rintro stop _ rfl
    refine .bind (hm.step hc hstep start stop) ?_
    rintro step _ rfl
    rw [hm.turns]
    refine .bind (hm.count hc name stop step hbody discards _ start .empty) fun _ _ hxs => ?_
    exact Loop.collect_alike discards hxs
  cases hstart with
  | none => exact hloop 0
  | some hnode =>
    refine .bind (hm.bound hc _ hnode) ?_
    rintro start _ rfl
    exact hloop start

theorem each {a b : Node} (h : SameCode L a b) (discards : Bool) {items items' : List (List (String × Value))}
    (hitems : List.Forall₂ (List.Forall₂ (EntryAlike (Value.Alike L))) items items')
    (hxs : Aligned (Value.Alike L) xs ys) :
    Eval.Alike L (Aligned (Value.Alike L)) (m.each a discards span c items xs)
      (n.each b discards span' d items' ys) := by
  induction hitems generalizing xs ys with
  | nil => exact .pure hxs
  | cons hnames _ ih =>
    rw [Machine.each, Machine.each]
    refine .bind (hc.turn _ _ _) fun inner inner' hinner => ?_
    refine .bind (.forM hnames ?_) fun _ _ _ => ?_
    · rintro _ _ ⟨name, value⟩
      exact Eval.declare_alike hinner.scope name value
    · refine .bind (hm.turn hinner h) fun _ _ hturn => ?_
      cases hturn with
      | next value => exact ih (Loop.gather_alike discards hxs value)
      | done => exact .pure hxs

theorem eachLoop {a b : Node} (hsource : SameCode L a b) (key : Option String) (value : String)
    (hbody : SameCode L p q) (discards : Bool) :
    Eval.SameValue L (m.eachLoop a key value p discards span c) (n.eachLoop b key value q discards span' d) := by
  refine .bind (hm.eval hsource hc) fun v w hv => ?_
  refine .bind .get fun s t hs => ?_
  have hitems := hv.items hs.heap
  rw [hv.typeName_eq]
  generalize v.items s.heap = x, w.items t.heap = y at hitems
  cases hitems with
  | none => exact Eval.fail_alike _
  | @some items items' hitems =>
    have hloop (keysOnly : Bool) : Eval.SameValue L
        (do Loop.collect discards (← m.each p discards span c
          (items.map (Loop.itemNames key value keysOnly)) #[]))
        (do Loop.collect discards (← n.each q discards span' d
          (items'.map (Loop.itemNames key value keysOnly)) #[])) := by
      refine .bind (hm.each hc hbody discards ?_ .empty) fun _ _ hxs => ?_
      · rw [List.forall₂_map_left_iff, List.forall₂_map_right_iff]
        exact hitems.imp fun _ _ h => Loop.itemNames_alike key value keysOnly h
      · exact Loop.collect_alike discards hxs
    -- Both sources are dictionaries or neither is.
    cases hv <;> exact hloop _

theorem repeatWhile {a b p q : Node} (hcondition : SameCode L a b) (hbody : SameCode L p q) (discards : Bool)
    (turns : Nat) (hxs : Aligned (Value.Alike L) xs ys) :
    Eval.Alike L (Aligned (Value.Alike L)) (m.repeatWhile a p discards span c turns xs)
      (n.repeatWhile b q discards span' d turns ys) := by
  induction turns generalizing xs ys with
  | zero => exact .throw .exhausted
  | succ turns ih =>
    rw [Machine.repeatWhile, Machine.repeatWhile]
    refine .bind (hm.eval hcondition hc) fun _ _ hv => ?_
    refine .bind (Eval.isTrue_alike hv) ?_
    rintro holds _ rfl
    split
    · exact .pure hxs
    · refine .bind (hc.turn _ _ _) fun inner inner' hinner => ?_
      refine .bind (hm.turn hinner hbody) fun _ _ hturn => ?_
      cases hturn with
      | next value => exact ih (Loop.gather_alike discards hxs value)
      | done => exact .pure hxs

theorem whileLoop {a b p q : Node} (hcondition : SameCode L a b) (hbody : SameCode L p q) (discards : Bool) :
    Eval.SameValue L (m.whileLoop a p discards span c) (n.whileLoop b q discards span' d) := by
  unfold Machine.whileLoop
  rw [hm.turns]
  refine .bind (hm.repeatWhile hc hcondition hbody discards _ .empty) fun _ _ hxs => ?_
  exact Loop.collect_alike discards hxs

variable {a b : Node}

theorem template {a b : List (TemplatePart Node)} (h : List.Forall₂ (TemplatePart.Alike (SameCode L)) a b) :
    Eval.SameValue L (m.template a c) (n.template b d) := by
  refine .bind (P := Eq) (.foldlM h ?_ rfl) fun _ _ htext => .pure (htext ▸ .text _)
  rintro text _ p q rfl hpart
  cases hpart with
  | text value => exact .pure rfl
  | expression node =>
    refine .bind (hm.eval node hc) fun _ _ hv => ?_
    exact .bind (hm.text hv) fun _ _ htext => .pure (congrArg _ htext)

theorem dictLiteral {a b : List (String × Node)} (h : List.Forall₂ (EntryAlike (SameCode L)) a b) :
    Eval.SameValue L (m.dictLiteral a c) (n.dictLiteral b d) := by
  refine .bind (.foldlM h ?_ .empty) fun _ _ hd => Eval.newDict_alike hd
  rintro read read' _ _ hread ⟨key, node⟩
  exact .bind (hm.eval node hc) fun _ _ hv => .pure (hread.insert key hv)

theorem readIndex (hv : Value.Alike L v w) {i j : Index Node} (h : Index.Alike (SameCode L) i j) :
    Eval.SameValue L (m.readIndex v i span c) (n.readIndex w j span' d) := by
  cases h with
  | single key =>
    refine .bind (hm.eval key hc) fun _ _ hkey => ?_
    exact Eval.onHeap_alike (Action.readElement_alike hv hkey)
  | slice start stop =>
    refine .bind (.optionM start fun _ _ h => hm.eval h hc) fun _ _ hstart => ?_
    refine .bind (.optionM stop fun _ _ h => hm.eval h hc) fun _ _ hstop => ?_
    exact Eval.onHeap_alike (Action.readSlice_alike hv hstart hstop)
  | push => exact Eval.fail_alike _

theorem writeIndex (htarget : SameCode L a b) {i j : Index Node} (h : Index.Alike (SameCode L) i j)
    (hvalue : SameCode L p q) : Eval.SameValue L (m.writeIndex a i p span c) (n.writeIndex b j q span' d) := by
  refine .bind (hm.eval htarget hc) fun v w hv => ?_
  have hwrite {k l : Option Value} (hkey : Option.Rel (Value.Alike L) k l) :
      Eval.SameValue L
        (do
          let value ← m.eval p c
          .onHeap c.trace span (.writeElement v k value)
          return value)
        (do
          let value ← n.eval q d
          .onHeap d.trace span' (.writeElement w l value)
          return value) := by
    refine .bind (hm.eval hvalue hc) fun _ _ hvalue => ?_
    refine .bind (Eval.onHeap_alike (Action.writeElement_alike hv hvalue hkey)) fun _ _ _ => ?_
    exact .pure hvalue
  cases h with
  | single key =>
    refine .bind (.map (hm.eval key hc) fun _ _ hkey => .some hkey) fun _ _ hkey => hwrite hkey
  | push => exact hwrite .none
  | slice => exact Eval.fail_bind_alike _ _ _

theorem delete (h : SameCode L a b) : Eval.SameValue L (m.delete a span c) (n.delete b span' d) := by
  obtain ⟨shape, _⟩ := h
  unfold Machine.delete
  cases shape with
  | lookup name =>
    refine .bind (Eval.onFrames_alike (Scoping.remove_alike hc.scope name)).discard fun _ _ _ => ?_
    exact .pure .nothing
  | index _ target key =>
    cases key with
    | single key =>
      refine .bind (hm.eval target hc) fun _ _ hv => ?_
      refine .bind (hm.eval key hc) fun _ _ hkey => ?_
      refine .bind (Eval.onHeap_alike (Action.removeElement_alike hv hkey)).discard fun _ _ _ => ?_
      exact .pure .nothing
    | _ => exact Eval.fail_bind_alike _ _ _
  | _ => exact Eval.fail_bind_alike _ _ _

theorem binary (op : BinaryOp) {a b p q : Node} (hleft : SameCode L a b) (hright : SameCode L p q) :
    Eval.SameValue L (m.binary op a p span c) (n.binary op b q span' d) := by
  refine .bind (hm.eval hleft hc) fun v w hv => ?_
  -- All operators but four evaluate both sides first.
  have heager (op : BinaryOp) : Eval.SameValue L
      (do .onHeap c.trace span (.binary op v (← m.eval p c)))
      (do .onHeap d.trace span' (.binary op w (← n.eval q d))) :=
    .bind (hm.eval hright hc) fun _ _ hv' => Eval.onHeap_alike (Action.binary_alike hv hv' op)
  cases op with
  | and =>
    refine .bind (Eval.isTrue_alike hv) ?_
    rintro holds _ rfl
    split
    · exact hm.eval hright hc
    · exact .pure hv
  | or =>
    refine .bind (Eval.isTrue_alike hv) ?_
    rintro holds _ rfl
    split
    · exact .pure hv
    · exact hm.eval hright hc
  | nullish =>
    dsimp only
    rw [hv.isNothing_eq]
    split
    · exact hm.eval hright hc
    · exact .pure hv
  | add =>
    refine .bind (hm.eval hright hc) fun v' w' hv' => ?_
    rw [Action.concatenates_eq hv hv']
    split
    · refine .bind (hm.text hv) ?_
      rintro left _ rfl
      refine .bind (hm.text hv') ?_
      rintro right _ rfl
      exact Eval.onHeap_alike (Action.concatenate_alike left right)
    · exact Eval.onHeap_alike (Action.binary_alike hv hv' .add)
  | _ => exact heager _

theorem branch (h : SameCode L a b) (discards : Bool) :
    Eval.SameValue L (m.branch a discards c) (n.branch b discards d) := by
  refine .bind (hm.eval h hc) fun _ _ hv => .pure ?_
  split
  · exact .nothing
  · exact hv

theorem conditional {o o' : Option Node} (hotherwise : Option.Rel (SameCode L) o o') (discards : Bool)
    {a b : List (Branch Node)} (h : List.Forall₂ (Branch.Alike (SameCode L)) a b) :
    Eval.SameValue L (m.conditional o discards c a) (n.conditional o' discards d b) := by
  induction h with
  | nil =>
    cases hotherwise with
    | none => exact .pure .nothing
    | some hbody => exact hm.branch hc hbody discards
  | cons hbranch _ ih =>
    obtain ⟨discard, condition, body⟩ := hbranch
    rw [Machine.conditional, Machine.conditional]
    refine .bind (hm.eval condition hc) fun _ _ hv => ?_
    refine .bind (Eval.isTrue_alike hv) ?_
    rintro holds _ rfl
    split
    · exact hm.branch hc body discard
    · exact ih

theorem block {a b : List Node} (h : List.Forall₂ (SameCode L) a b) : Eval.SameValue L (m.block a c) (n.block b d) :=
  .foldlM h (fun _ _ _ _ _ h => hm.eval h hc) .nothing

theorem link (h : SameCode L a b) (optional : Bool) {rest rest' : Value → Eval Value}
    (hrest : ∀ v w, Value.Alike L v w → Eval.SameValue L (rest v) (rest' w)) :
    Eval.SameValue L (m.link a optional c rest) (n.link b optional d rest') := by
  refine .bind (hm.eval h hc) fun v w hv => ?_
  rw [hv.isNothing_eq]
  split
  · exact .pure .nothing
  · exact hrest _ _ hv

theorem rule (hr : ∀ s, L.spans s s) (h : SameCode L a b) : Eval.SameValue L (m.rule a c) (n.rule b d) := by
  obtain ⟨shape, _⟩ := h
  unfold Machine.rule
  cases shape with
  | number value => exact .pure (.number value)
  | text value => exact .pure (.text value)
  | boolean value => exact .pure (.boolean value)
  | nothing => exact .pure .nothing
  | template parts => exact hm.template hc parts
  | list elements => exact .bind (hm.values hc elements) fun _ _ hvs => Eval.newList_alike hvs
  | dict entries => exact hm.dictLiteral hc entries
  | declare name value => exact .bind (hm.eval value hc) fun _ _ hv => keep (hc.declare name hv) hv
  | declareConstant name value =>
    exact .bind (hm.eval value hc) fun _ _ hv => keep (hc.declareConstant name hv) hv
  | lookup name =>
    refine .bind (Eval.lookup?_alike hc.scope name) fun _ _ hfound => ?_
    cases hfound with
    | none => exact Eval.fail_alike _
    | some hv => exact .pure hv
  | assign name value =>
    refine .bind (hm.eval value hc) fun _ _ hv => keep (Eval.onFrames_alike ?_) hv
    exact Scoping.assign_alike hc.scope name hv
  | delete target => exact hm.delete hc target
  | index optional target key =>
    exact hm.link hc target optional fun _ _ hv => hm.readIndex hc hv key
  | assignIndex target key value => exact hm.writeIndex hc target key value
  | property name optional target =>
    exact hm.link hc target optional fun _ _ hv => hm.readProperty hc hv name
  | assignProperty name target value =>
    refine .bind (hm.eval target hc) fun _ _ hv => ?_
    exact .bind (hm.eval value hc) fun _ _ hv' => keep (hm.writeProperty hc hv name hv') hv'
  | staticProperty name optional target =>
    exact hm.link hc target optional fun _ _ hv => hc.readStatic hv name
  | assignStatic name target value =>
    refine .bind (hm.eval target hc) fun _ _ hv => ?_
    exact .bind (hm.eval value hc) fun _ _ hv' => keep (hc.writeStatic hv name hv') hv'
  | binary op left right => exact hm.binary hc op left right
  | unary op operand =>
    refine .bind (hm.eval operand hc) fun _ _ hv => ?_
    exact Eval.onHeap_alike (Action.unary_alike hv op)
  | conditional discards branches otherwise => exact hm.conditional hc otherwise discards branches
  | countingLoop name discards start stop step body =>
    exact hm.countingLoop hc name start stop step body discards
  | eachLoop key value discards items body => exact hm.eachLoop hc items key value body discards
  | whileLoop discards condition body => exact hm.whileLoop hc condition body discards
  | switch cases otherwise =>
    dsimp only
    rw [switch_eq_conditional, switch_eq_conditional]
    refine hm.conditional hc otherwise true ?_
    rw [List.forall₂_map_left_iff, List.forall₂_map_right_iff]
    exact cases.imp fun _ _ ⟨test, body⟩ => .mk true test body
  | block statements => exact hm.block hc statements
  | function definition => exact hc.function definition
  | call optional callee args =>
    refine hm.link hc callee optional fun _ _ hv => ?_
    exact .bind (hm.values hc args) fun _ _ hargs => hm.callValue hargs hr hv
  | returnWith value =>
    cases value with
    | none => exact .throw (.returned .nothing)
    | some hnode => exact .bind (hm.eval hnode hc) fun _ _ hv => .throw (.returned hv)
  | continueLoop => exact .throw .continued
  | breakLoop => exact .throw .broken
  | pass => exact .pure .nothing
  | classDefinition definition => exact hm.defineClass hc definition
  | instantiate cls args => exact hm.instantiate hc cls args
  | superCall args => exact hm.superCall hc args
  | superProperty name => exact hm.superProperty hc name
  | enumeration name members => exact hc.enumeration name members

end Machine.Alike

/-- Nodes that differ in nothing but stretches are evaluated in step, whatever calls led to them. -/
theorem evaluate_alike (hr : ∀ s, L.spans s s) (limit fuel : Nat) {a b : Node} (h : SameCode L a b)
    (hc : Context.Alike L c d) : Eval.SameValue L (evaluate limit fuel a c) (evaluate limit fuel b d) := by
  induction fuel generalizing a b c d with
  | zero => exact .throw .exhausted
  | succ fuel ih =>
    have hm : Machine.Alike L ⟨limit, fuel, evaluate limit fuel⟩
        ⟨limit, fuel, evaluate limit fuel⟩ := ⟨rfl, rfl, ih⟩
    exact hm.rule hc hr h

end ScriptLang
