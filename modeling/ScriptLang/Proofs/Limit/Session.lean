import ScriptLang.Proofs.Eval.Run
import ScriptLang.Proofs.Lexical.Session

/-! The limit for lengths in whole runs. Main statement: modest code keeps all lists and texts within the
limit, whatever was run before, and an operator or a write that would go beyond it fails. -/
namespace ScriptLang

section Refused

variable {α : Type} {m : Machine} {ctx : Context} {node : Node} {s s' : Store} {kind : String}
  {length : Nat}

/-- Where the value of a node is a text or a list of a certain length, unless that is refused: its parts
have been evaluated, and the state is `s'`. -/
inductive Machine.Grows (m : Machine) (ctx : Context) : Node → Store → String → Nat → Store → Prop
  | binary {op left right span s s₁ s₂ a b kind length} (evalLeft : m.eval left ctx s = .ok a s₁)
      (evalRight : m.eval right ctx s₁ = .ok b s₂)
      (grown : Action.grown? s₂.heap op a b = some (kind, length)) :
      Grows m ctx ⟨.binary op left right, span⟩ s kind length s₂
  | concatenation {left right span s s₁ s₂ s₃ s₄ a b x y} (evalLeft : m.eval left ctx s = .ok a s₁)
      (evalRight : m.eval right ctx s₁ = .ok b s₂) (joins : Action.concatenates a b = true)
      (textLeft : m.text a span ctx.trace s₂ = .ok x s₃)
      (textRight : m.text b span ctx.trace s₃ = .ok y s₄) :
      Grows m ctx ⟨.binary .add left right, span⟩ s "string" (x.utf8ByteSize + y.utf8ByteSize) s₄
  | element {target key value span s s₁ s₂ s₃ a k b length} (evalTarget : m.eval target ctx s = .ok a s₁)
      (evalKey : m.eval key ctx s₁ = .ok k s₂) (evalValue : m.eval value ctx s₂ = .ok b s₃)
      (grown : Action.grownTo? s₃.heap a (some k) = some length) :
      Grows m ctx ⟨.assignIndex target (.single key) value, span⟩ s "list" length s₃
  | push {target value span s s₁ s₂ a b length} (evalTarget : m.eval target ctx s = .ok a s₁)
      (evalValue : m.eval value ctx s₁ = .ok b s₂) (grown : Action.grownTo? s₂.heap a none = some length) :
      Grows m ctx ⟨.assignIndex target .push value, span⟩ s "list" length s₂

theorem Eval.onHeap_eq_fail {trace : Trace} {span : Span} {action : Action α} {cause : EvalCause}
    (h : action s.heap = .error cause s.heap) : Eval.onHeap trace span action s = Eval.fail trace span cause s := by
  unfold Eval.onHeap
  dsimp only
  rw [h]
  rfl

theorem Machine.Grows.rule_eq_fail (h : m.Grows ctx node s kind length s') (hlength : maxLength < length) :
    m.rule node ctx s = Eval.fail ctx.trace node.span (.tooLarge kind) s' := by
  cases h with
  | @binary op left right span _ _ _ a b _ _ evalLeft evalRight grown =>
    have hrefused := Action.binary_tooLarge grown hlength
    change m.binary op left right span ctx s = _
    unfold Machine.binary
    rw [Eval.bind_of_ok evalLeft]
    cases op with
    | add =>
      -- of the values that `+` makes longer, only a list is no text
      cases a with
      | list id => exact (Eval.bind_of_ok evalRight).trans (Eval.onHeap_eq_fail hrefused)
      | _ => cases grown
    | multiply => exact (Eval.bind_of_ok evalRight).trans (Eval.onHeap_eq_fail hrefused)
    | _ => cases grown
  | @concatenation left right span _ _ _ _ _ _ _ x y evalLeft evalRight joins textLeft textRight =>
    change m.binary .add left right span ctx s = _
    unfold Machine.binary
    rw [Eval.bind_of_ok evalLeft]
    refine (Eval.bind_of_ok evalRight).trans ?_
    rw [if_pos joins, Eval.bind_of_ok textLeft, Eval.bind_of_ok textRight]
    exact Eval.onHeap_eq_fail (Action.checkLength_bind_tooLarge hlength)
  | @element target key value span _ _ _ _ _ _ _ _ evalTarget evalKey evalValue grown =>
    change m.writeIndex target (.single key) value span ctx s = _
    unfold Machine.writeIndex
    have hkey : (some <$> m.eval key ctx) _ = .ok (some _) _ := Eval.bind_of_ok evalKey
    rw [Eval.bind_of_ok evalTarget]
    refine (Eval.bind_of_ok hkey).trans ((Eval.bind_of_ok evalValue).trans ?_)
    exact Eval.bind_of_fail (Eval.onHeap_eq_fail (Action.writeElement_tooLarge grown hlength))
  | @push target value span _ _ _ _ _ _ evalTarget evalValue grown =>
    change m.writeIndex target .push value span ctx s = _
    unfold Machine.writeIndex
    rw [Eval.bind_of_ok evalTarget]
    refine (Eval.bind_of_ok evalValue).trans ?_
    exact Eval.bind_of_fail (Eval.onHeap_eq_fail (Action.writeElement_tooLarge grown hlength))

end Refused

/-! Nothing is too long in a state if modest code is at its place in it. -/
section Placement

def Placement.modest : Placement where
  admits _ node := node.Modest
  listed := false
  bounded := true

theorem Placement.modest_lexical : modest.Lexical where
  part h _ := (Node.modest_iff.mp h).2
  member {_ node} h definition hshape _ _ part hpart := by
    refine (Node.modest_iff.mp h).2 part ?_
    rwa [Node.parts, hshape]
  modest h _ := (Node.modest_iff.mp h).1

variable {known : List Class}

theorem FunctionDef.placed_modest {cls : Option Class} {f : FunctionDef Node} :
    f.Placed .modest cls ↔ ∀ part ∈ f.parts, part.Modest := by
  rw [parts, List.forall_mem_append, List.forall_mem_singleton]
  refine ⟨fun h => ⟨fun part hpart => ?_, h.body.admitted⟩, fun h => ⟨fun param hparam part hpart => ?_, ?_⟩⟩
  · obtain ⟨param, hparam, hpart⟩ := List.mem_flatMap.mp hpart
    exact (h.fallback param hparam part (Option.mem_toList.mp hpart)).admitted
  · exact .of_lax rfl (h.1 part (List.mem_flatMap.mpr ⟨param, hparam, Option.mem_toList.mpr hpart⟩))
  · exact .of_lax rfl h.2

theorem Class.placed_modest {cls : Class} :
    cls.Placed .modest ↔ FitText cls.name ∧ ∀ part ∈ cls.definition.parts, part.Modest := by
  simp only [ClassDef.parts, List.forall_mem_append, List.mem_flatMap]
  constructor
  · intro h
    have hmethods (kind : MethodKind) (part : Node) : (∃ method ∈ cls.own kind, part ∈ method.parts) → part.Modest := by
      rintro ⟨method, hmethod, hpart⟩
      exact FunctionDef.placed_modest.mp (h.method kind method hmethod) part hpart
    refine ⟨h.name rfl, ⟨⟨?_, hmethods .method⟩, hmethods .getter⟩, hmethods .setter⟩
    rintro part ⟨property, hproperty, hpart⟩
    exact (h.property property hproperty part (Option.mem_toList.mp hpart)).admitted
  · rintro ⟨hname, ⟨⟨hproperties, hmethods⟩, hgetters⟩, hsetters⟩
    refine ⟨fun _ => hname, fun property hproperty part hpart => ?_, fun kind method hmethod => ?_⟩
    · exact .of_lax rfl (hproperties part ⟨property, hproperty, Option.mem_toList.mpr hpart⟩)
    · refine FunctionDef.placed_modest.mpr fun part hpart => ?_
      cases kind with
      | method => exact hmethods part ⟨method, hmethod, hpart⟩
      | getter => exact hgetters part ⟨method, hmethod, hpart⟩
      | setter => exact hsetters part ⟨method, hmethod, hpart⟩

theorem Class.known_modest {cls : Class} : cls.Known .modest known ↔ cls.Fits :=
  forall₂_congr fun _ _ => (and_iff_right nofun).trans placed_modest

theorem Value.known_modest {v : Value} : v.Known .modest known ↔ v.Fits := by
  cases v with
  | text | builtin => exact forall_prop_of_true rfl
  | function closure =>
    constructor
    · intro h
      exact ⟨FunctionDef.placed_modest.mp h.code, fun cls hcls => Class.known_modest.mp (h.classScope cls hcls),
        fun object hobject => Class.known_modest.mp (h.receiver object hobject)⟩
    · intro h
      exact ⟨FunctionDef.placed_modest.mpr h.code, fun cls hcls => Class.known_modest.mpr (h.classScope cls hcls),
        fun object hobject => Class.known_modest.mpr (h.receiver object hobject)⟩
  | «class» | «instance» => exact Class.known_modest
  | _ => exact Iff.rfl

theorem Heap.all_modest {h : Heap} : h.All (Placement.modest.values known) ↔ h.Fits := by
  constructor
  · intro hh
    refine ⟨fun id => ⟨(hh.list id).size rfl, fun v hv => ?_⟩, fun id entry hentry => ?_⟩
    · exact Value.known_modest.mp ((hh.list id).all v hv)
    · exact (hh.dict id entry hentry).imp (· rfl) Value.known_modest.mp
  · intro hh
    refine ⟨fun id => ⟨fun _ => (hh.list id).size, fun v hv => ?_⟩, fun id entry hentry => ?_⟩
    · exact Value.known_modest.mpr ((hh.list id).all v hv)
    · exact (hh.dict id entry hentry).imp (fun hkey _ => hkey) Value.known_modest.mpr

theorem Store.known_modest {depth : Nat} {s : Store} : s.Known .modest depth known ↔ s.Fits := by
  constructor
  · intro h
    exact {
      heap := Heap.all_modest.mp h.heap
      frames := h.frames.mono fun _ _ => Or.imp_left Value.known_modest.mp
      statics := h.statics.mono fun _ _ hmember => Value.known_modest.mp hmember.value
      members := h.members.mono fun _ _ hmember => Value.known_modest.mp hmember.value }
  · intro h
    exact {
      depth := nofun
      count := nofun
      classes := nofun
      homes := nofun
      heap := Heap.all_modest.mpr h.heap
      frames := h.frames.mono fun _ _ => Or.imp_left Value.known_modest.mpr
      statics := h.statics.mono fun _ _ hmember => ⟨Value.known_modest.mpr hmember, nofun⟩
      members := h.members.mono fun _ _ hmember => ⟨Value.known_modest.mpr hmember, nofun⟩ }

theorem evaluate_keeps (limit fuel : Nat) {node : Node} (hnode : node.Modest) {ctx : Context} (hctx : ctx.Fits)
    {s : Store} (hs : s.Fits) : Kept Interrupt.Fits Store.Fits Value.Fits (evaluate limit fuel node ctx s) := by
  have h := Machine.agrees_self Placement.modest_lexical limit fuel nofun
  have hplaced : Placement.modest.At (.alone true) ctx.classScope node := .of_lax rfl hnode
  have hknown : ctx.Known .modest 0 [] := ⟨fun cls hcls => Class.known_modest.mpr (hctx cls hcls), nofun⟩
  obtain ⟨-, later, -, hended⟩ := (h.eval hplaced hknown).run s (Store.known_modest.mpr hs)
  dsimp only at hended
  generalize evaluate limit fuel node ctx s = outcome at hended
  cases hended with
  | ok result state => exact .ok (Value.known_modest.mp result) (Store.known_modest.mp state)
  | @error i _ cause state =>
    refine .error ?_ (Store.known_modest.mp state)
    cases i with
    | returned => exact Value.known_modest.mp cause.2
    | _ => trivial

end Placement

namespace Session

def Modest (s : Session) (source : String) : Prop :=
  match s.read source with
  | .ok (program, _) => ∀ node ∈ program, node.Modest
  | .error _ => True

instance (s : Session) (source : String) : Decidable (s.Modest source) := by
  unfold Session.Modest
  split <;> infer_instance

inductive Reached (limit : Nat) : Session → Prop
  | new : Reached limit (new limit)
  | run {s : Session} {source : String} (before : Reached limit s) (modest : s.Modest source) (fuel : Nat) :
      Reached limit (s.run fuel source).2

theorem Reached.fits {limit : Nat} {s : Session} (h : Reached limit s) : s.store.Fits := by
  induction h with
  | new => exact Store.known_modest.mp known_new
  | @run s source _ modest fuel ih =>
    unfold Session.Modest at modest
    unfold Session.run
    cases hread : s.read source with
    | error stop => exact ih
    | ok result =>
      rw [hread] at modest
      have hnext : Store.Known .modest 0 [] { s with nextId := result.2 }.store := Store.known_modest.mpr ih
      have hplaced : ∀ statement ∈ result.1, Placement.modest.At (.alone true) none statement :=
        fun statement hstatement => .of_lax rfl (modest statement hstatement)
      obtain ⟨_, hknown⟩ := (execute_known hplaced nofun hnext Placement.modest_lexical fuel).1
      exact Store.known_modest.mp hknown

end Session

/-- Code that is modest keeps every list and every text within the limit, however its evaluation ends,
so they are within it in all sessions that modest inputs lead to. An operator or a write that would go
beyond the limit fails, and changes nothing that its operands left. -/
theorem lengths_kept (limit : Nat) :
    (∀ fuel node ctx s, node.Modest → ctx.Fits → s.Fits →
      Kept Interrupt.Fits Store.Fits Value.Fits (evaluate limit fuel node ctx s)) ∧
    (∀ session, Session.Reached limit session → session.store.Fits) ∧
    ∀ fuel node ctx s kind length s',
      Machine.Grows ⟨limit, fuel, evaluate limit fuel⟩ ctx node s kind length s' → maxLength < length →
      evaluate limit (fuel + 1) node ctx s = Eval.fail ctx.trace node.span (.tooLarge kind) s' :=
  ⟨fun fuel _ _ _ hnode hctx hs => evaluate_keeps limit fuel hnode hctx hs, fun _ h => h.fits,
    fun _ _ _ _ _ _ _ hgrows hlength => hgrows.rule_eq_fail hlength⟩

/-- An input that fills a list and repeats a text is modest. In the session behind it, a text can be
repeated three times, but not as often as the limit says. -/
theorem lengths_kept_of_repeated :
    let source := "var xs = [1]\nfunc f(x):\nxs[] = x * 3\nreturn x + x\nend\nf('ab')"
    let session := ((Session.new 9).run 99 source).2
    let span : Span := .point .origin
    let repeated (n : Float) : Node := ⟨.binary .multiply ⟨.text "ab", span⟩ ⟨.number n, span⟩, span⟩
    let ctx : Context := ⟨⟨"<program>", []⟩, session.scope, none⟩
    ((Session.new 9).read source).isOk ∧ (Session.new 9).Modest source ∧ session.store.Fits ∧
      (repeated 3).Modest ∧
      Kept Interrupt.Fits Store.Fits Value.Fits (evaluate 9 9 (repeated 3) ctx session.store) ∧
      evaluate 9 9 (repeated 16777216) ctx session.store =
        Eval.fail ctx.trace span (.tooLarge "string") session.store := by
  intro source session span repeated ctx
  obtain ⟨heval, hsession, hrefused⟩ := lengths_kept 9
  have hsource : (Session.new 9).Modest source := by decide +kernel
  have hmodest : (repeated 3).Modest := by decide +kernel
  have hs : session.store.Fits := hsession _ (.run .new hsource 99)
  refine ⟨by decide +kernel, hsource, hs, hmodest, heval 9 _ ctx _ hmodest nofun hs, ?_⟩
  exact hrefused 8 _ ctx _ "string" 33554432 _ (.binary rfl rfl rfl) (by decide)

/-- A template does not check the length of what it makes, and `append` does not either: both add to
what is as long as it may be. -/
theorem lengths_not_kept :
    let span : Span := .point .origin
    let node : Node := ⟨.template [.expression ⟨.lookup "t", span⟩, .text "a"], span⟩
    (∃ (s : Store) (text : String), s.Fits ∧ maxLength < text.utf8ByteSize ∧
      evaluate 9 9 node ⟨⟨"<program>", []⟩, ⟨⟨0⟩, []⟩, none⟩ s = .ok (.text text) s) ∧
    ∃ (h h' : Heap) (xs : ListId), h.Fits ∧ maxLength < (h'.list xs).size ∧
      Builtin.append.act [.list xs, .nothing] h = .ok (.list xs) h' := by
  intro span node
  constructor
  · obtain ⟨text, htext⟩ : ∃ text : String, text.utf8ByteSize = maxLength :=
      ⟨_, (Action.utf8ByteSize_repeat "a" maxLength).trans (Nat.one_mul _)⟩
    refine ⟨{ frames := ⟨#[[("t", ⟨.text text, false⟩)]]⟩ }, "" ++ text ++ "a", ?_, ?_, rfl⟩
    · refine Store.known_modest.mp (.ofFrame fun entry hentry => ?_)
      cases List.mem_singleton.mp hentry
      exact .inl fun _ => Nat.le_of_eq htext
    · rw [String.utf8ByteSize_append, String.utf8ByteSize_append, htext]
      exact Nat.lt_add_of_pos_right (by decide)
  · let full : Array Value := Array.replicate maxLength .nothing
    refine ⟨⟨#[full], #[]⟩, ⟨#[full.push .nothing], #[]⟩, ⟨0⟩, ?_, ?_, rfl⟩
    · have hfull : (Placement.modest.values []).Elements full := .replicate fun _ => Nat.le_refl _
      exact Heap.all_modest.mp (Heap.All.empty.addList hfull)
    · change maxLength < (full.push .nothing).size
      rw [Array.size_push, Array.size_replicate]
      exact Nat.lt_succ_self _

end ScriptLang
