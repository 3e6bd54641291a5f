import ScriptLang.Proofs.Eval.Run
import ScriptLang.Proofs.Lexical.Session

/-! Visibility follows the text. Main statement: in every run, a node is evaluated as code of a class that was
made from the innermost class definition around it, so a member that is not visible to everyone is used only by
code of its class, or of one that inherits from it. -/
namespace ScriptLang

/-- Among these programs, a node is written in a class: `cls` is the innermost class definition around it,
if there is one. -/
def Node.InClass (programs : List Program) (cls : Option (ClassDef Node)) (n : Node) : Prop :=
  ∃ program ∈ programs, ∃ statement ∈ program, ∃ path, statement.Leads path n ∧ path.findSome? Step.class? = cls

/-- Code belongs to the class that it is written in. -/
def Placement.written (programs : List Program) : Placement where
  admits cls n := n.InClass programs (cls.map (·.definition))

instance (programs : List Program) : (Placement.written programs).Untraced := ⟨rfl⟩

theorem Placement.written_lexical (programs : List Program) : (written programs).Lexical where
  part {cls node} h hshape part hpart := by
    obtain ⟨program, hprogram, statement, hstatement, path, hpath, hcls⟩ := h
    obtain ⟨role, hrole⟩ := Shape.exists_role hpart
    have hstep : Step.class? ⟨node, role⟩ = none := by
      unfold Step.class?
      split
      next definition hclass => exact absurd hclass (hshape definition)
      next => rfl
    refine ⟨program, hprogram, statement, hstatement, _, hpath.down hrole, ?_⟩
    rw [List.findSome?_cons, hstep]
    exact hcls
  member {cls node} h definition hshape made hmade part hpart := by
    obtain ⟨program, hprogram, statement, hstatement, path, hpath, -⟩ := h
    have hpart : part ∈ node.shape.parts := by rwa [hshape]
    obtain ⟨role, hrole⟩ := Shape.exists_role hpart
    have hstep : Step.class? ⟨node, role⟩ = some definition := by rw [Step.class?, hshape]
    refine ⟨program, hprogram, statement, hstatement, _, hpath.down hrole, ?_⟩
    rw [List.findSome?_cons, hstep, Option.map_some, hmade]
  modest _ hbounded := Bool.noConfusion hbounded

theorem Placement.written_at {programs : List Program} {program : Program} (h : program ∈ programs) :
    ∀ statement ∈ program, (written programs).At (.alone true) none statement :=
  fun statement hstatement => .of_lax rfl ⟨program, h, statement, hstatement, [], .here, rfl⟩

/-- Who may use a member of `owner`: everyone, code of a class that inherits from the owner, or code of the
owner alone. -/
def Visibility.Admits (owner : Class) (user : Option Class) : Visibility → Prop
  | .everyone => True
  | .inheritors => ∃ cls, user = some cls ∧ owner ∈ cls.lineage
  | .self => user = some owner

/-- The methods and getters of a class by their names: who declares one, and its visibility. -/
def Class.readable? (cls : Class) (name : String) : Option (Class × Visibility) :=
  ((cls.method? .method name).or (cls.method? .getter name)).map fun (owner, method) =>
    (owner, method.flags.visibility)

namespace Store

variable {found : Class × Visibility}

/-- The member that `target.name` reads. -/
def readable? (s : Store) (name : String) : Value → Option (Class × Visibility)
  | .instance object =>
    match s.member? object name with
    | some member => some (member.owner, member.visibility)
    | none => object.cls.readable? name
  | _ => none

/-- The member that `target.name = value` writes. -/
def writable? (s : Store) (name : String) : Value → Option (Class × Visibility)
  | .instance object =>
    match s.member? object name with
    | some member => some (member.owner, member.visibility)
    | none => (object.cls.method? .setter name).map fun (owner, setter) => (owner, setter.flags.visibility)
  | _ => none

/-- The member that `target::name` stands for. -/
def usable? (s : Store) (name : String) : Value → Option (Class × Visibility)
  | .class cls | .instance ⟨_, cls⟩ =>
    (s.static? cls name).map fun member => (member.owner, member.visibility)
  | _ => none

variable {s : Store} {name : String} {target : Value}

theorem isNothing_of_found (find : Value → Option (Class × Visibility)) (hnone : find .nothing = none)
    (h : find target = some found) : target.isNothing = false := by
  cases target with
  | nothing => cases hnone.symm.trans h
  | _ => rfl

/-- An instance has a member of its own, or else its class has something of that name. -/
theorem member_or_other {object : Instance} {owner : Class} {visibility : Visibility}
    {other? : Option (Class × Visibility)}
    (h : (match s.member? object name with
      | some member => some (member.owner, member.visibility)
      | none => other?) = some (owner, visibility)) :
    (∃ value, s.member? object name = some ⟨value, visibility, owner⟩) ∨
      s.member? object name = none ∧ other? = some (owner, visibility) := by
  split at h
  next member hmember =>
    cases h
    exact .inl ⟨member.value, hmember⟩
  next hnone => exact .inr ⟨hnone, h⟩

end Store

/-- The member that a node uses when it is evaluated: its owner and its visibility. No other node looks for
members by their names; the constructors that `new` and `super(…)` run are not restricted. -/
def Machine.accessed (m : Machine) (node : Node) (ctx : Context) : Eval (Option (Class × Visibility)) := do
  match node.shape with
  | .property target name _ =>
    let target ← m.eval target ctx
    return (← get).readable? name target
  | .assignProperty target name value =>
    let target ← m.eval target ctx
    let _ ← m.eval value ctx
    return (← get).writable? name target
  | .staticProperty target name _ =>
    let target ← m.eval target ctx
    return (← get).usable? name target
  | .assignStatic target name value =>
    let target ← m.eval target ctx
    let _ ← m.eval value ctx
    return (← get).usable? name target
  | .superProperty name =>
    let (parent, _) ← ctx.superTarget node.span
    return parent.readable? name
  | _ => return none

/-! Owners of members are known classes. -/
section Known

variable {I : Placement} {x : Exits} {depth : Nat} {known : List Class} {owner cls : Class}
  {visibility : Visibility} {name : String} {s : Store} {target : Value}

theorem Class.Known.of_permits (hI : I.listed = true) {user : Option Class} (howner : owner.Known I known)
    (huser : ∀ cls ∈ user, cls.Known I known) (h : owner.permits visibility user = true) :
    visibility.Admits owner user := by
  cases visibility with
  | everyone => trivial
  | inheritors =>
    obtain ⟨cls, rfl, hinherits⟩ := (Option.any_eq_true _ _).mp h
    exact ⟨cls, rfl, (huser cls rfl).mem_lineage_of_inherits hI howner hinherits⟩
  | self =>
    obtain ⟨cls, rfl, hid⟩ := (Option.any_eq_true _ _).mp h
    exact congrArg some ((huser cls rfl).eq_of_id hI howner (of_decide_eq_true hid))

theorem Class.Known.of_method? (h : cls.Known I known) {kind : MethodKind} {method : MethodDef Node}
    (hfound : cls.method? kind name = some (owner, method)) : owner.Known I known :=
  h.of_mem (Class.of_method? hfound).1

theorem Class.Known.of_readable? (h : cls.Known I known)
    (hfound : cls.readable? name = some (owner, visibility)) : owner.Known I known := by
  obtain ⟨⟨_, method⟩, hmethod, heq⟩ := Option.map_eq_some_iff.mp hfound
  cases heq
  rcases Option.or_eq_some_iff.mp hmethod with hmethod | ⟨_, hgetter⟩
  · exact h.of_method? hmethod
  · exact h.of_method? hgetter

namespace Store.Known

variable (hs : s.Known I depth known) (htarget : target.Known I known)

include hs htarget

theorem of_readable? (hI : I.listed = true) (hfound : s.readable? name target = some (owner, visibility)) :
    owner.Known I known := by
  cases target with
  | «instance» object =>
    rcases Store.member_or_other hfound with ⟨_, hmember⟩ | ⟨-, hother⟩
    · exact (TablesFit.get? hs.members hmember).owner hI
    · exact Class.Known.of_readable? htarget hother
  | _ => cases hfound

theorem of_writable? (hI : I.listed = true) (hfound : s.writable? name target = some (owner, visibility)) :
    owner.Known I known := by
  cases target with
  | «instance» object =>
    rcases Store.member_or_other hfound with ⟨_, hmember⟩ | ⟨-, hother⟩
    · exact (TablesFit.get? hs.members hmember).owner hI
    · obtain ⟨⟨_, setter⟩, hsetter, heq⟩ := Option.map_eq_some_iff.mp hother
      cases heq
      exact Class.Known.of_method? htarget hsetter
  | _ => cases hfound

omit htarget in
theorem of_usable? (hI : I.listed = true) (hfound : s.usable? name target = some (owner, visibility)) :
    owner.Known I known := by
  cases target with
  | «class» cls | «instance» object =>
    obtain ⟨member, hmember, heq⟩ := Option.map_eq_some_iff.mp hfound
    cases heq
    exact (hs.static? hmember).owner hI
  | _ => cases hfound

end Store.Known

variable {m : Machine} {node : Node} {ctx : Context}

/-- The owner of a member that is used is a known class. -/
theorem Machine.Agrees.accessed (h : Machine.Agrees I m m) (hI : I.Lexical) (hlisted : I.listed = true)
    (hnode : I.At x ctx.classScope node) (hctx : ctx.Known I depth known) :
    Eval.Agrees I x depth known (fun known found => ∀ access ∈ found, access.1.Known I known) (m.accessed node ctx)
      (m.accessed node ctx) := by
  have heval {x : Exits} {part : Node} (hpart : I.At x ctx.classScope part) {later : List Class}
      (hlater : known <+: later) := h.eval hpart (hctx.mono hlater)
  have parts (hdirect : node.shape.isDirect = true) := hI.parts hnode hdirect
  obtain ⟨shape, span⟩ := node
  cases shape with
  | property target name =>
    refine .bind (heval (parts rfl target (.head _)) List.prefix_rfl) fun _ _ target htarget => ?_
    refine .bind .get fun _ hlater s hs => .pure fun (owner, visibility) hfound => ?_
    exact hs.of_readable? (htarget.mono hlater) hlisted hfound
  | assignProperty target name value =>
    refine .bind (heval (parts rfl target (.head _)) List.prefix_rfl) fun _ hlater target htarget => ?_
    refine .bind (heval (parts rfl value (.tail _ (.head _))) hlater) fun _ hwritten _ _ => ?_
    refine .bind .get fun _ hlast s hs => .pure fun (owner, visibility) hfound => ?_
    exact hs.of_writable? (htarget.mono (hwritten.trans hlast)) hlisted hfound
  | staticProperty target name =>
    refine .bind (heval (parts rfl target (.head _)) List.prefix_rfl) fun _ _ target _ => ?_
    exact .bind .get fun _ _ s hs => .pure fun (owner, visibility) hfound => hs.of_usable? hlisted hfound
  | assignStatic target name value =>
    refine .bind (heval (parts rfl target (.head _)) List.prefix_rfl) fun _ hlater target _ => ?_
    refine .bind (heval (parts rfl value (.tail _ (.head _))) hlater) fun _ _ _ _ => ?_
    exact .bind .get fun _ _ s hs => .pure fun (owner, visibility) hfound => hs.of_usable? hlisted hfound
  | superProperty name =>
    refine .bind (Context.superTarget_agrees (hctx.site hnode.admitted) hctx) fun _ _ (parent, object) htarget => ?_
    exact .pure fun (owner, visibility) hfound => htarget.1.of_readable? hfound
  | _ => exact .pure nofun

end Known

/-! A use of a member that the class of the code is not permitted to fails. -/
section Denied

variable {m : Machine} {node : Node} {ctx : Context} {owner cls : Class} {visibility : Visibility}
  {name : String} {span : Span} {object : Instance} {s t : Store}
  (hdenied : owner.permits visibility ctx.classScope = false) {target : Value}

include hdenied

omit hdenied in
/-- A chain goes on behind everything but `none`. -/
private theorem link_of_ok {target : Node} {value : Value} (h : m.eval target ctx s = .ok value t)
    (hvalue : value.isNothing = false) (optional : Bool) (rest : Value → Eval Value) :
    m.link target optional ctx rest s = rest value t := by
  refine (Eval.bind_of_ok h).trans ?_
  rw [hvalue, Bool.and_false]
  rfl

theorem Context.checkAccess_denied {α : Type} (rest : Eval α) :
    (do ctx.checkAccess span owner visibility name; rest) =
      .fail ctx.trace span (.inaccessible name visibility.word owner.name) := by
  unfold checkAccess
  rw [hdenied]
  rfl

theorem Machine.method_denied (hfound : cls.readable? name = some (owner, visibility)) :
    m.method cls object name span ctx = .fail ctx.trace span (.inaccessible name visibility.word owner.name) := by
  unfold Machine.method
  unfold Class.readable? at hfound
  cases hmethod : cls.method? .method name with
  | some found =>
    rw [hmethod] at hfound
    cases hfound
    exact ctx.checkAccess_denied hdenied _
  | none =>
    rw [hmethod, Option.none_or] at hfound
    obtain ⟨⟨_, getter⟩, hgetter, heq⟩ := Option.map_eq_some_iff.mp hfound
    cases heq
    dsimp only
    rw [hgetter]
    exact ctx.checkAccess_denied hdenied _

theorem Machine.readProperty_denied (hfound : s.readable? name target = some (owner, visibility)) :
    m.readProperty target name span ctx s =
      Eval.fail ctx.trace span (.inaccessible name visibility.word owner.name) s := by
  cases target with
  | «instance» object =>
    refine (Eval.get_bind _ s).trans ?_
    rcases Store.member_or_other hfound with ⟨_, hmember⟩ | ⟨hmember, hother⟩ <;> rw [hmember]
    · exact congrFun (ctx.checkAccess_denied hdenied _) s
    · exact congrFun (Machine.method_denied hdenied hother) s
  | _ => cases hfound

theorem Machine.writeProperty_denied {target value : Value}
    (hfound : s.writable? name target = some (owner, visibility)) :
    m.writeProperty target name value span ctx s =
      Eval.fail ctx.trace span (.inaccessible name visibility.word owner.name) s := by
  cases target with
  | «instance» object =>
    refine (Eval.get_bind _ s).trans ?_
    rcases Store.member_or_other hfound with ⟨_, hmember⟩ | ⟨hmember, hother⟩ <;> rw [hmember]
    · exact congrFun (ctx.checkAccess_denied hdenied _) s
    · obtain ⟨⟨_, setter⟩, hsetter, heq⟩ := Option.map_eq_some_iff.mp hother
      cases heq
      dsimp only
      rw [hsetter]
      exact congrFun (ctx.checkAccess_denied hdenied _) s
  | _ => cases hfound

section

variable (hfound : s.usable? name target = some (owner, visibility))

include hfound

theorem Context.static_denied :
    ctx.static target name span s = Eval.fail ctx.trace span (.inaccessible name visibility.word owner.name) s := by
  have hstatic {cls : Class} (hcls : ctx.staticTarget target span s = .ok cls s)
      (hfound : (s.static? cls name).map (fun member => (member.owner, member.visibility)) =
        some (owner, visibility)) : ctx.static target name span s =
      Eval.fail ctx.trace span (.inaccessible name visibility.word owner.name) s := by
    obtain ⟨member, hmember, heq⟩ := Option.map_eq_some_iff.mp hfound
    cases heq
    refine (Eval.bind_of_ok hcls).trans ((Eval.get_bind _ s).trans ?_)
    rw [hmember]
    exact congrFun (ctx.checkAccess_denied hdenied _) s
  cases target with
  | «class» | «instance» => exact hstatic rfl hfound
  | _ => cases hfound

theorem Context.readStatic_denied :
    ctx.readStatic target name span s = Eval.fail ctx.trace span (.inaccessible name visibility.word owner.name) s :=
  Eval.bind_of_fail (ctx.static_denied hdenied hfound)

theorem Context.writeStatic_denied {value : Value} :
    ctx.writeStatic target name value span s =
      Eval.fail ctx.trace span (.inaccessible name visibility.word owner.name) s :=
  Eval.bind_of_fail (ctx.static_denied hdenied hfound)

end

/-- A node whose use of a member is not permitted fails, where it has come to the member. -/
theorem Machine.rule_denied (h : m.accessed node ctx s = .ok (some (owner, visibility)) t) :
    ∃ name, m.rule node ctx s = Eval.fail ctx.trace node.span (.inaccessible name visibility.word owner.name) t := by
  obtain ⟨shape, span⟩ := node
  cases shape with
  | property target name optional =>
    obtain ⟨value, u, hvalue, hread⟩ := Eval.exists_of_bind_ok h
    obtain ⟨hfound, rfl⟩ := Eval.of_get_ok hread
    have hsome := Store.isNothing_of_found (u.readable? name) rfl hfound
    exact ⟨name, (link_of_ok hvalue hsome _ _).trans (Machine.readProperty_denied hdenied hfound)⟩
  | assignProperty target name value =>
    obtain ⟨object, u, hobject, hrest⟩ := Eval.exists_of_bind_ok h
    obtain ⟨_, w, hvalue, hread⟩ := Eval.exists_of_bind_ok hrest
    obtain ⟨hfound, rfl⟩ := Eval.of_get_ok hread
    refine ⟨name, (Eval.bind_of_ok hobject).trans ((Eval.bind_of_ok hvalue).trans ?_)⟩
    exact Eval.bind_of_fail (Machine.writeProperty_denied hdenied hfound)
  | staticProperty target name optional =>
    obtain ⟨value, u, hvalue, hread⟩ := Eval.exists_of_bind_ok h
    obtain ⟨hfound, rfl⟩ := Eval.of_get_ok hread
    have hsome := Store.isNothing_of_found (u.usable? name) rfl hfound
    exact ⟨name, (link_of_ok hvalue hsome _ _).trans (Context.readStatic_denied hdenied hfound)⟩
  | assignStatic target name value =>
    obtain ⟨object, u, hobject, hrest⟩ := Eval.exists_of_bind_ok h
    obtain ⟨_, w, hvalue, hread⟩ := Eval.exists_of_bind_ok hrest
    obtain ⟨hfound, rfl⟩ := Eval.of_get_ok hread
    refine ⟨name, (Eval.bind_of_ok hobject).trans ((Eval.bind_of_ok hvalue).trans ?_)⟩
    exact Eval.bind_of_fail (Context.writeStatic_denied hdenied hfound)
  | superProperty name =>
    obtain ⟨⟨parent, object⟩, u, htarget, hread⟩ := Eval.exists_of_bind_ok h
    obtain ⟨hfound, rfl⟩ := EStateM.Result.ok.inj hread
    refine ⟨name, (Eval.bind_of_ok htarget).trans ?_⟩
    exact congrFun (Machine.method_denied hdenied hfound) _
  | _ => cases h

end Denied

variable {programs : List Program}

/-- The values that a state holds: those of variables, in collections, and of members. -/
inductive Store.Held (s : Store) : Value → Prop
  | named {scope name value} (h : s.frames.lookup? scope name = some value) : Held s value
  | element {id value} (h : value ∈ s.heap.list id) : Held s value
  | entry {id entry} (h : entry ∈ (s.heap.dict id).toList) : Held s entry.2
  | static {i entry} (h : entry ∈ s.statics.getD i []) : Held s entry.2.value
  | member {i entry} (h : entry ∈ s.members.getD i []) : Held s entry.2.value

/-- A class that has been made: its number is taken, and no other class of this number is held. -/
structure Store.Made (s : Store) (cls : Class) : Prop where
  taken : cls.id < s.statics.size
  unique : ∀ other, s.Held (.class other) → other.id = cls.id → other = cls

theorem Store.Known.held {s : Store} {I : Placement} {depth : Nat} {known : List Class}
    (hs : s.Known I depth known) {v : Value} (h : s.Held v) (hother : ∀ b, v ≠ .builtin b) : v.Known I known := by
  cases h with
  | named h => exact (Frames.lookup?_all hs.frames h).has hother
  | element h => exact (hs.heap.list _).all _ h
  | entry h => exact (hs.heap.dict _ _ h).2
  | static h => exact (hs.statics _ _ h).value
  | member h => exact (hs.members _ _ h).value

theorem Store.Known.made {I : Placement} (hI : I.listed = true) {depth : Nat} {known : List Class} {s : Store}
    (hs : s.Known I depth known) {cls : Class} (hcls : cls.Known I known) : s.Made cls where
  taken := by
    rw [hs.count hI]
    exact (List.getElem?_eq_some_iff.mp (hcls.listed hI)).1
  unique _ hother hid := Class.Known.eq_of_id hI (hs.held hother nofun) hcls hid

/-- A node at its place, where a machine comes to it: it is evaluated as code of the class that it is written
in, which has been made by then, and it fails where it uses a member that is not open to this class. -/
structure Machine.AtPlace (programs : List Program) (m : Machine) (node : Node) (ctx : Context) (s : Store) :
    Prop where
  written : node.InClass programs (ctx.classScope.map (·.definition))
  made : ∀ cls ∈ ctx.classScope, s.Made cls
  access : ∀ owner visibility t, m.accessed node ctx s = .ok (some (owner, visibility)) t →
    visibility.Admits owner ctx.classScope ∨
      ∃ name, m.rule node ctx s =
        Eval.fail ctx.trace node.span (.inaccessible name visibility.word owner.name) t

theorem Machine.atPlace {limit fuel : Nat} {x : Exits} {node : Node} {ctx : Context} {depth : Nat}
    {known : List Class} {s : Store} (hnode : (Placement.written programs).At x ctx.classScope node)
    (hctx : ctx.Known (.written programs) depth known) (hs : s.Known (.written programs) depth known) :
    AtPlace programs ⟨limit, fuel, evaluate limit fuel⟩ node ctx s where
  written := hnode.admitted
  made cls hcls := hs.made rfl (hctx.cls cls hcls)
  access owner visibility t hfound := by
    have hlexical := Placement.written_lexical programs
    have hagrees := (Machine.agrees_self hlexical limit fuel nofun).accessed hlexical rfl hnode hctx
    obtain ⟨-, later, hlater, hended⟩ := hagrees.run s hs
    rw [hfound] at hended
    cases hended with
    | ok hknown =>
      -- The check goes by numbers, and known classes of one number are the same.
      cases hpermits : owner.permits visibility ctx.classScope with
      | true => exact .inl ((hknown _ rfl).of_permits rfl (hctx.mono hlater).cls hpermits)
      | false => exact .inr (Machine.rule_denied hpermits hfound)

open Classical in
/-- The rules of evaluation with an alarm wherever the usual machine comes to a node that is not at its
place. -/
noncomputable def Rule.watched (programs : List Program) (alarm : Node → Context → Eval Value) : Rule :=
  fun m node ctx s =>
    if Machine.AtPlace programs ⟨m.limit, m.turns, evaluate m.limit m.turns⟩ node ctx s then m.rule node ctx s
    else alarm node ctx s

theorem Rule.watched_usual (alarm : Node → Context → Eval Value) :
    (Rule.watched programs alarm).Usual (.written programs) :=
  fun _ _ _ _ _ _ hnode hctx _ hs => if_pos (Machine.atPlace hnode hctx hs)

/-- An alarm is never raised, in whatever session of programs: every node is evaluated at its place. -/
theorem Session.visibility_lexical {limit : Nat} {programs : List Program} {s : Session}
    (hs : Session.After limit programs s) (fuel : Nat) (program : Program)
    (alarm : Node → Context → Eval Value) :
    s.executeBy (.watched (program :: programs) alarm) fuel program = s.execute fuel program := by
  have hlexical := Placement.written_lexical (program :: programs)
  obtain ⟨known, hknown⟩ := hs.exists_known hlexical fun p hp =>
    Placement.written_at (List.mem_cons_of_mem _ hp)
  exact Session.executeBy_eq hlexical (Placement.written_at List.mem_cons_self) hknown
    (Rule.watched_usual alarm) fuel

/-- A function that a method gives away can be called from outside and still reads the private property,
which code outside of the class cannot. -/
theorem Session.visibility_lexical_in_closure :
    let source := "class B:\n    private property s = true\n    method f() -> func () -> self.s\nend"
    let before := ((Session.new 9).run 9 source).2
    (before.run 9 "new B().f()()").1.outcome matches .ok [.boolean true] ∧
    (before.run 9 "new B().s").1.outcome matches
      .error (.fault (.running ⟨.inaccessible "s" "private" "B", _, _⟩)) ∧
    ∃ classes uses nextId, Session.After 9 [classes] before ∧
      before.read "new B().f()()" = .ok (uses, nextId) ∧
      ∀ alarm, before.executeBy (.watched [uses, classes] alarm) 9 uses = before.execute 9 uses := by
  intro source before
  have hclasses : ((Session.new 9).read source).isOk = true := by decide +kernel
  have huses : (before.read "new B().f()()").isOk = true := by decide +kernel
  refine ⟨by decide +kernel, by decide +kernel, ?_⟩
  cases hfirst : (Session.new 9).read source with
  | error => simp [hfirst, Except.isOk, Except.toBool] at hclasses
  | ok classes =>
    cases hsecond : before.read "new B().f()()" with
    | error => simp [hsecond, Except.isOk, Except.toBool] at huses
    | ok uses =>
      have hafter : Session.After 9 [classes.1] before := Session.After.new.run 9 hfirst
      exact ⟨classes.1, uses.1, uses.2, hafter, rfl, Session.visibility_lexical hafter 9 uses.1⟩

end ScriptLang
