import ScriptLang.Proofs.Lexical.Basic

/-! Evaluations that leave code where it is written.

Two evaluations are compared, of which one may do anything with code that is not at its place. That they
agree says that such code is not evaluated. There is one rule for each way to build an evaluation. -/
namespace ScriptLang

variable {α β γ : Type} {I : Placement} {x : Exits} {depth : Nat} {known later : List Class} {trace : Trace}
  {span : Span}

theorem Store.Known.failed {s : Store} (hs : s.Known I depth known) (hsite : I.Site depth trace span)
    {cause : EvalCause} (h : I.lax = true ∨ cause.Ordinary) :
    (Interrupt.failed (trace.error cause span)).Known I x known :=
  ⟨h, fun limit hlimit => (hsite.sound limit hlimit).error (hs.depth limit hlimit).2 cause⟩

/-- Evaluations of code that `x` may leave, `depth` calls deep, that do the same where all code is placed, and
end with a state of that kind, maybe with more classes, and with a result with `P` for these. -/
structure Eval.Agrees (I : Placement) (x : Exits) (depth : Nat) (known : List Class) (P : List Class → α → Prop)
    (d e : Eval α) : Prop where
  run (s : Store) (hs : s.Known I depth known) : d s = e s ∧ ∃ later, known <+: later ∧
    Kept (Interrupt.Known I x later) (Store.Known I depth later) (P later) (d s)

/-- Evaluations that agree and give known values. -/
abbrev Eval.Known (I : Placement) (x : Exits) (depth : Nat) (known : List Class) : Eval Value → Eval Value → Prop :=
  Eval.Agrees I x depth known (Value.Known I)

namespace Eval.Agrees

variable {P : List Class → α → Prop} {Q : List Class → β → Prop} {d e : Eval α} {f g : α → Eval β}
  {xs : List γ}

/-- An evaluation that makes no class and keeps the list. -/
theorem of_keeps (h : ScriptLang.Keeps (Interrupt.Known I x known) (Store.Known I depth known) (P known) d) :
    Agrees I x depth known P d d :=
  ⟨fun s hs => ⟨rfl, known, List.prefix_rfl, h s hs⟩⟩

theorem pure {a : α} (h : P known a) : Agrees I x depth known P (pure a) (pure a) := of_keeps (.pure h)

theorem throw {i : Interrupt} (h : i.Known I x known) : Agrees I x depth known P (throw i) (throw i) :=
  of_keeps (.throw h)

theorem misfire (hsite : I.Site depth trace span) (cause : EvalCause) (h : I.lax = true ∨ cause.Ordinary) :
    Agrees I x depth known P (fail trace span cause) (fail trace span cause) :=
  ⟨fun _ hs => ⟨rfl, known, List.prefix_rfl, .error (hs.failed hsite h) hs⟩⟩

theorem fail (hsite : I.Site depth trace span) (cause : EvalCause) (h : cause.Ordinary) :
    Agrees I x depth known P (fail trace span cause) (fail trace span cause) :=
  misfire hsite cause (.inr h)

theorem bind (h : Agrees I x depth known P d e)
    (next : ∀ later, known <+: later → ∀ a, P later a → Agrees I x depth later Q (f a) (g a)) :
    Agrees I x depth known Q (d >>= f) (e >>= g) := by
  refine ⟨fun s hs => ?_⟩
  obtain ⟨hsame, later, hlater, hended⟩ := h.run s hs
  change EStateM.bind d f s = EStateM.bind e g s ∧ ∃ later, known <+: later ∧ Kept _ _ _ (EStateM.bind d f s)
  unfold EStateM.bind
  rw [← hsame]
  generalize d s = outcome at hended
  cases hended with
  | error cause state => exact ⟨rfl, later, hlater, .error cause state⟩
  | ok result state =>
    obtain ⟨hnext, last, hlast, hended⟩ := (next later hlater _ result).run _ state
    exact ⟨hnext, last, hlater.trans hlast, hended⟩

theorem fail_bind (hsite : I.Site depth trace span) (cause : EvalCause) (f g : α → Eval β) (h : cause.Ordinary) :
    Agrees I x depth known Q (.fail trace span cause >>= f) (.fail trace span cause >>= g) :=
  bind (P := fun _ _ => False) (fail hsite cause h) fun _ _ _ h => h.elim

section

variable (h : Agrees I x depth known P d e)

include h

theorem map {f : α → β} (hf : ∀ later, known <+: later → ∀ a, P later a → Q later (f a)) :
    Agrees I x depth known Q (f <$> d) (f <$> e) :=
  bind h fun later hlater a ha => pure (hf later hlater a ha)

theorem mono {Q : List Class → α → Prop} (hQ : ∀ later a, P later a → Q later a) : Agrees I x depth known Q d e := by
  refine ⟨fun s hs => ?_⟩
  obtain ⟨hsame, later, hlater, hended⟩ := h.run s hs
  refine ⟨hsame, later, hlater, ?_⟩
  generalize d s = outcome at hended
  cases hended with
  | ok result state => exact .ok (hQ later _ result) state
  | error cause state => exact .error cause state

theorem discard : Agrees I x depth known (fun _ _ => True) (discard d) (discard e) :=
  map h fun _ _ _ _ => trivial

end

theorem tryCatch {inner : Exits} {b c : Interrupt → Eval α} (h : Agrees I inner depth known P d e)
    (rescue : ∀ later, known <+: later → ∀ i, i.Known I inner later → Agrees I x depth later P (b i) (c i)) :
    Agrees I x depth known P (tryCatch d b) (tryCatch e c) := by
  refine ⟨fun s hs => ?_⟩
  obtain ⟨hsame, later, hlater, hended⟩ := h.run s hs
  change EStateM.tryCatch d b s = EStateM.tryCatch e c s ∧
    ∃ later, known <+: later ∧ Kept _ _ _ (EStateM.tryCatch d b s)
  unfold EStateM.tryCatch
  rw [← hsame]
  generalize d s = outcome at hended
  cases hended with
  | ok result state => exact ⟨rfl, later, hlater, .ok result state⟩
  | error cause state =>
    obtain ⟨hnext, last, hlast, hended⟩ := (rescue later hlater _ cause).run _ state
    exact ⟨hnext, last, hlater.trans hlast, hended⟩

theorem get : Agrees I x depth known (fun known s => s.Known I depth known) get get := of_keeps .get

theorem modifyGet {f : Store → α × Store}
    (h : ∀ s, s.Known I depth known → P known (f s).1 ∧ (f s).2.Known I depth known) :
    Agrees I x depth known P (modifyGet f) (modifyGet f) :=
  of_keeps (.modifyGet h)

theorem modify {f : Store → Store} (h : ∀ s, s.Known I depth known → (f s).Known I depth known) :
    Agrees I x depth known (fun _ _ => True) (modify f) (modify f) :=
  of_keeps (.modify h)

theorem mapM {f g : γ → Eval α} (hP : ∀ {known later a}, known <+: later → P known a → P later a)
    (step : ∀ c ∈ xs, ∀ later, known <+: later → Agrees I x depth later P (f c) (g c)) :
    Agrees I x depth known (fun known as => as.length = xs.length ∧ ∀ a ∈ as, P known a) (xs.mapM f) (xs.mapM g) := by
  induction xs generalizing known with
  | nil => exact pure ⟨rfl, nofun⟩
  | cons c xs ih =>
    obtain ⟨hfirst, hrest⟩ := List.forall_mem_cons.mp step
    rw [List.mapM_cons, List.mapM_cons]
    refine bind (hfirst known List.prefix_rfl) fun _ hlater a ha => ?_
    have hrest := ih fun c hc last hlast => hrest c hc last (hlater.trans hlast)
    refine bind hrest fun _ hlast as has => pure ?_
    exact ⟨congrArg (· + 1) has.1, List.forall_mem_cons.mpr ⟨hP hlast ha, has.2⟩⟩

theorem forM {f g : γ → Eval Unit}
    (step : ∀ c ∈ xs, ∀ later, known <+: later → Agrees I x depth later (fun _ _ => True) (f c) (g c)) :
    Agrees I x depth known (fun _ _ => True) (xs.forM f) (xs.forM g) := by
  induction xs generalizing known with
  | nil => exact pure trivial
  | cons c xs ih =>
    obtain ⟨hfirst, hrest⟩ := List.forall_mem_cons.mp step
    refine bind (hfirst known List.prefix_rfl) fun _ hlater _ _ => ?_
    exact ih fun c hc last hlast => hrest c hc last (hlater.trans hlast)

theorem foldlM {f g : α → γ → Eval α}
    (step : ∀ c ∈ xs, ∀ later, known <+: later → ∀ a, P later a → Agrees I x depth later P (f a c) (g a c)) {a : α}
    (ha : P known a) : Agrees I x depth known P (xs.foldlM f a) (xs.foldlM g a) := by
  induction xs generalizing known a with
  | nil => exact pure ha
  | cons c xs ih =>
    obtain ⟨hfirst, hrest⟩ := List.forall_mem_cons.mp step
    refine bind (hfirst known List.prefix_rfl a ha) fun _ hlater b hb => ih ?_ hb
    exact fun c hc last hlast => hrest c hc last (hlater.trans hlast)

theorem optionM {o : Option γ} {f g : γ → Eval α} (step : ∀ c ∈ o, Agrees I x depth known P (f c) (g c)) :
    Agrees I x depth known (fun known result => ∀ a ∈ result, P known a) (o.mapM f) (o.mapM g) := by
  cases o with
  | none => exact pure nofun
  | some c => exact map (step c rfl) fun _ _ a ha b hb => Option.some.inj hb ▸ ha

theorem onHeap (hsite : I.Site depth trace span) {action : Action α} (h : action.Passes (I.values known) (P known)) :
    Agrees I x depth known P (onHeap trace span action) (onHeap trace span action) := by
  refine of_keeps fun s hs => ?_
  have hended := h s.heap hs.heap
  unfold Eval.onHeap
  dsimp only
  generalize action s.heap = outcome at hended
  cases hended with
  | ok result heap => exact .ok result { hs with heap }
  | error cause heap => exact .error (hs.failed hsite (.inr cause)) { hs with heap }

end Eval.Agrees

namespace Eval.Agrees

variable {P : List Class → α → Prop} {d e : Eval α} {scope : Scope} {limit : Nat}

theorem onFrames (hsite : I.Site depth trace span) {action : Scoping α}
    (h : action.Passes (I.values known) (P known)) :
    Agrees I x depth known P (onFrames trace span action) (onFrames trace span action) := by
  refine of_keeps fun s hs => ?_
  have hended := h s.frames hs.frames
  unfold Eval.onFrames
  dsimp only
  generalize action s.frames = outcome at hended
  cases hended with
  | ok result frames => exact .ok result { hs with frames }
  | error cause frames => exact .error (hs.failed hsite (.inr cause)) { hs with frames }

theorem declare (hsite : I.Site depth trace span) {name : String} {value : Value}
    (hvalue : value.Known I known) (isConstant : Bool) :
    Agrees I x depth known (fun _ _ => True) (Eval.onFrames trace span (.declare scope name value isConstant))
      (Eval.onFrames trace span (.declare scope name value isConstant)) :=
  onFrames hsite (Scoping.declare_passes (T := I.values known) hvalue isConstant)

theorem lookup? (name : String) :
    Agrees I x depth known (fun known found => ∀ value ∈ found, (I.values known).Names name value)
      (lookup? scope name) (lookup? scope name) :=
  map get fun _ _ _ hs _ hvalue => Frames.lookup?_all hs.frames hvalue

theorem isTrue (value : Value) : Agrees I x depth known (fun _ _ => True) (isTrue value) (isTrue value) :=
  map get fun _ _ _ _ => trivial

theorem newList {elements : Array Value} (h : (I.values known).Elements elements) :
    Agrees I x depth known (fun known v => v.Known I known) (newList elements) (newList elements) :=
  modifyGet fun _ hs => ⟨trivial, { hs with heap := hs.heap.addList h }⟩

theorem newDict {entries : Dict Value} (h : (I.values known).Entries entries) :
    Agrees I x depth known (fun known v => v.Known I known) (newDict entries) (newDict entries) :=
  modifyGet fun _ hs => ⟨trivial, { hs with heap := hs.heap.addDict h }⟩

theorem innerScope : Agrees I x depth known (fun _ _ => True) (innerScope scope) (innerScope scope) :=
  modifyGet fun _ hs => ⟨trivial, { hs with frames := hs.frames.push }⟩

theorem guarded (hsite : I.Site depth trace span) (hlimit : ∀ most ∈ I.traced, limit ≤ most)
    (h : Agrees I x (depth + 1) known P d e) :
    Agrees I x depth known P (guarded limit trace span d) (guarded limit trace span e) := by
  refine ⟨fun s hs => ?_⟩
  unfold Eval.guarded
  split
  next hroom =>
    have hdeeper : Store.Known I (depth + 1) known { s with depth := s.depth + 1 } := by
      refine { hs with depth := fun most hmost => ?_ }
      obtain ⟨rfl, -⟩ := hs.depth most hmost
      exact ⟨rfl, Nat.lt_of_lt_of_le hroom (hlimit most hmost)⟩
    obtain ⟨hsame, later, hlater, hended⟩ := h.run _ hdeeper
    rw [← hsame]
    refine ⟨rfl, later, hlater, ?_⟩
    -- The level is left again, so the depth is what it was.
    have hback {t : Store} (ht : t.Known I (depth + 1) later) :
        Store.Known I depth later { t with depth := t.depth - 1 } :=
      { ht with depth := fun most hmost =>
          ⟨Nat.sub_eq_of_eq_add (ht.depth most hmost).1, (hs.depth most hmost).2⟩ }
    generalize d { s with depth := s.depth + 1 } = outcome at hended
    cases hended with
    | ok result state => exact .ok result (hback state)
    | error cause state => exact .error cause (hback state)
  next => exact (fail (P := P) hsite (.recursionLimit limit) trivial).run s hs

end Eval.Agrees

namespace Context

variable {ctx : Context} {value : Value}

variable (hsite : I.Site depth ctx.trace span)

include hsite

theorem declare_agrees (name : String) (h : value.Known I known) :
    Eval.Agrees I x depth known (fun _ _ => True) (ctx.declare span name value) (ctx.declare span name value) :=
  .declare hsite h false

theorem declareConstant_agrees (name : String) (h : value.Known I known) :
    Eval.Agrees I x depth known (fun _ _ => True) (ctx.declareConstant span name value)
      (ctx.declareConstant span name value) :=
  .declare hsite h true

/-- A turn of a loop belongs to the class of the loop. -/
theorem turn_agrees (h : ctx.Known I depth known) {label : String} (hlabel : isCallLabel label = false) :
    Eval.Agrees I x depth known (fun known inner => inner.Known I depth known ∧ inner.classScope = ctx.classScope)
      (ctx.turn label span.start) (ctx.turn label span.start) :=
  .bind .innerScope fun _ hlater _ _ => .pure ⟨(hsite.enter hlabel).context (h.mono hlater).cls, rfl⟩

end Context

/-- Machines that agree on every node at its place. -/
structure Machine.Agrees (I : Placement) (m n : Machine) : Prop where
  limit : m.limit = n.limit
  most : ∀ most ∈ I.traced, n.limit ≤ most
  turns : m.turns = n.turns
  eval {x : Exits} {depth : Nat} {known : List Class} {node : Node} {ctx : Context}
    (hnode : I.At x ctx.classScope node) (hctx : ctx.Known I depth known) :
    Eval.Known I x depth known (m.eval node ctx) (n.eval node ctx)

end ScriptLang
