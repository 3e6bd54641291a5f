import ScriptLang.Proofs.Eval.Run

/-! Comparing evaluations step by step.

A comparison of two evaluations is a congruence if it is kept by each way to build them and holds for each
thing that they do to the store. -/
namespace ScriptLang

/-- Compares two evaluations that may declare names in one frame that is there, or in none. -/
abbrev EvalRel := Option FrameId → {α : Type} → Eval α → Eval α → Prop

/-- The frame in which names are declared. -/
abbrev Context.own (ctx : Context) : Option FrameId := some ctx.scope.own

namespace Eval

variable {α : Type}

def newFrame : Eval FrameId := modifyGet fun s =>
  let (own, frames) := s.frames.add
  (own, { s with frames })

theorem innerScope_bind (scope : Scope) (f : Scope → Eval α) :
    innerScope scope >>= f = newFrame >>= fun own => f (scope.inner own) :=
  rfl

end Eval

def Store.setMember (s : Store) (object : Instance) (name : String) (value : Value) : Store :=
  match s.member? object name with
  | some member => s.putMember object name { member with value }
  | none => s

/-- A comparison that holds where equal parts are put together in equal ways. What makes a new instance is not
among the parts. -/
structure Eval.Congruence (limit : Nat) (R : EvalRel) : Prop where
  pure {own : Option FrameId} {α : Type} (a : α) : R own (pure a) (pure a)
  throw {own : Option FrameId} {α : Type} (i : Interrupt) : R own (throw i : Eval α) (throw i)
  bind {own : Option FrameId} {α β : Type} {x y : Eval α} {f g : α → Eval β} (first : R own x y)
    (next : ∀ a, R own (f a) (g a)) : R own (x >>= f) (y >>= g)
  tryCatch {own : Option FrameId} {α : Type} {x y : Eval α} {c d : Interrupt → Eval α} (body : R own x y)
    (rescue : ∀ i, R own (c i) (d i)) : R own (tryCatch x c) (tryCatch y d)
  /-- What is done with the store does not depend on what was printed. -/
  get {own : Option FrameId} {α : Type} {f g : Store → Eval α} (hf : ∀ s output, f { s with output } = f s)
    (hg : ∀ s output, g { s with output } = g s) (next : ∀ s, R own (f s) (g s)) : R own (get >>= f) (get >>= g)
  onHeap {own : Option FrameId} {α : Type} (trace : Trace) (span : Span) (action : Action α) :
    R own (onHeap trace span action) (onHeap trace span action)
  heap {own : Option FrameId} {α : Type} (f : Heap → α × Heap) :
    let x : Eval α := modifyGet fun s => ((f s.heap).1, { s with heap := (f s.heap).2 })
    R own x x
  statics {own : Option FrameId} {α : Type}
    (f : Array (Table Member) → α × Array (Table Member)) :
    let x : Eval α := modifyGet fun s => ((f s.statics).1, { s with statics := (f s.statics).2 })
    R own x x
  setMember {own : Option FrameId} (object : Instance) (name : String) (value : Value) :
    R own (modify (·.setMember object name value)) (modify (·.setMember object name value))
  print {own : Option FrameId} (line : String) : R own (modify (·.print line)) (modify (·.print line))
  /-- Names are declared in the frame of the comparison only. -/
  declare (trace : Trace) (span : Span) (scope : Scope) (name : String) (value : Value) (isConstant : Bool) :
    R (some scope.own) (onFrames trace span (.declare scope name value isConstant))
      (onFrames trace span (.declare scope name value isConstant))
  assign {own : Option FrameId} (trace : Trace) (span : Span) (scope : Scope) (name : String) (value : Value) :
    R own (onFrames trace span (.assign scope name value)) (onFrames trace span (.assign scope name value))
  remove {own : Option FrameId} (trace : Trace) (span : Span) (scope : Scope) (name : String) :
    R own (onFrames trace span (.remove scope name)) (onFrames trace span (.remove scope name))
  /-- Behind a new frame, names can be declared there. -/
  newFrame {own : Option FrameId} {α : Type} {f g : FrameId → Eval α} (next : ∀ id, R (some id) (f id) (g id)) :
    R own (newFrame >>= f) (newFrame >>= g)
  guarded {own : Option FrameId} {α : Type} (trace : Trace) (span : Span) {x y : Eval α} (call : R own x y) :
    R own (guarded limit trace span x) (guarded limit trace span y)

/-- A congruence to which new instances are no exception. -/
structure Eval.FullCongruence (limit : Nat) (R : EvalRel) : Prop extends Eval.Congruence limit R where
  addInstance {own : Option FrameId} (cls : Class) :
    R own (modifyGet (·.addInstance cls)) (modifyGet (·.addInstance cls))
  putMember {own : Option FrameId} (object : Instance) (name : String) (member : Member) :
    R own (modify (·.putMember object name member)) (modify (·.putMember object name member))

namespace Eval.Congruence

variable {R : EvalRel} {limit : Nat} {own : Option FrameId} {α β γ : Type} {x y : Eval α}
  (hR : Congruence limit R)

include hR

variable {trace : Trace} {span : Span} {cause : EvalCause}

theorem fail : R own (fail trace span cause : Eval α) (fail trace span cause) := hR.throw _

theorem fail_bind {f g : α → Eval β} : R own (.fail trace span cause >>= f) (.fail trace span cause >>= g) :=
  hR.fail

theorem map (f : α → β) (h : R own x y) : R own (f <$> x) (f <$> y) := hR.bind h fun a => hR.pure (f a)

theorem discard (h : R own x y) : R own (discard x) (discard y) := hR.map _ h

theorem mapM (xs : List γ) {f g : γ → Eval α} (step : ∀ c, R own (f c) (g c)) : R own (xs.mapM f) (xs.mapM g) := by
  induction xs with
  | nil => exact hR.pure []
  | cons c xs ih =>
    rw [List.mapM_cons, List.mapM_cons]
    exact hR.bind (step c) fun a => hR.bind ih fun as => hR.pure (a :: as)

theorem forM (xs : List γ) {f g : γ → Eval Unit} (step : ∀ c, R own (f c) (g c)) : R own (xs.forM f) (xs.forM g) := by
  induction xs with
  | nil => exact hR.pure ()
  | cons c xs ih => exact hR.bind (step c) fun _ => ih

theorem foldlM (xs : List γ) {f g : α → γ → Eval α} (step : ∀ a c, R own (f a c) (g a c)) (a : α) :
    R own (xs.foldlM f a) (xs.foldlM g a) := by
  induction xs generalizing a with
  | nil => exact hR.pure a
  | cons c xs ih => exact hR.bind (step a c) ih

theorem optionM (x : Option γ) {f g : γ → Eval α} (step : ∀ c, R own (f c) (g c)) : R own (x.mapM f) (x.mapM g) := by
  cases x with
  | none => exact hR.pure none
  | some c => exact hR.map some (step c)

theorem lookup? (scope : Scope) (name : String) : R own (lookup? scope name) (lookup? scope name) :=
  hR.get (fun _ _ => rfl) (fun _ _ => rfl) fun _ => hR.pure _

theorem isTrue (value : Value) : R own (isTrue value) (isTrue value) :=
  hR.get (fun _ _ => rfl) (fun _ _ => rfl) fun _ => hR.pure _

theorem newList (elements : Array Value) : R own (newList elements) (newList elements) :=
  hR.heap (·.addList elements)

theorem newDict (entries : Dict Value) : R own (newDict entries) (newDict entries) :=
  hR.heap (·.addDict entries)

theorem putStatic (cls : Class) (name : String) (member : Member) :
    R own (modify (·.putStatic cls name member)) (modify (·.putStatic cls name member)) :=
  hR.statics fun statics => ((), statics.modify cls.id (·.put name member))

theorem addClass (definition : ClassDef Node) (parent : Option Class) (scope : Scope) :
    R own (modifyGet (·.addClass definition parent scope)) (modifyGet (·.addClass definition parent scope)) :=
  hR.statics fun statics => (Class.mk statics.size definition parent scope, statics.push [])

theorem innerScope {scope : Scope} {f g : Scope → Eval α}
    (next : ∀ inner : Scope, R (some inner.own) (f inner) (g inner)) :
    R own (innerScope scope >>= f) (innerScope scope >>= g) := by
  rw [innerScope_bind, innerScope_bind]
  exact hR.newFrame fun id => next (scope.inner id)

theorem declareIn (ctx : Context) (span : Span) (name : String) (value : Value) :
    R ctx.own (ctx.declare span name value) (ctx.declare span name value) :=
  hR.declare _ _ _ _ _ _

theorem declareConstantIn (ctx : Context) (span : Span) (name : String) (value : Value) :
    R ctx.own (ctx.declareConstant span name value) (ctx.declareConstant span name value) :=
  hR.declare _ _ _ _ _ _

end Eval.Congruence

/-- Machines that differ only in how they evaluate nodes, and there as the comparison allows. -/
structure Machine.Congruent (R : EvalRel) (m n : Machine) : Prop where
  limit : m.limit = n.limit
  turns : m.turns = n.turns
  eval : ∀ node ctx, R ctx.own (m.eval node ctx) (n.eval node ctx)

end ScriptLang
