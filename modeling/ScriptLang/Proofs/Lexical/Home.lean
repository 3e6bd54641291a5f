import Mathlib.Data.List.Find
import ScriptLang.Proofs.Lexical.Visibility

/-! Static members have one home. Main statement: wherever a run is, every class keeps the static members that it
owns itself, so a write through any heir goes to the nearest holder and is seen by just those classes that
share it. -/
namespace ScriptLang

/-- The usual rules in a run that can be stopped before every node, and behind it with its value. -/
def Rule.stopped (stops : Node → Context → Option Value → Store → Bool) : Rule := fun m node ctx => do
  let stop (value : Option Value) : Eval Unit := fun s =>
    if stops node ctx value s then .error .exhausted s else .ok () s
  stop none
  let value ← m.rule node ctx
  stop (some value)
  return value

theorem Rule.stopped_agree {I : Placement} (hI : I.Lexical)
    (stops : Node → Context → Option Value → Store → Bool) : Rule.Agree I (stopped stops) (stopped stops) := by
  intro m n x depth known node ctx h hnode hctx
  have hstop {known : List Class} (value : Option Value) : Eval.Agrees I x depth known (fun _ _ => True)
      (fun s => if stops node ctx value s then .error .exhausted s else .ok () s)
      (fun s => if stops node ctx value s then .error .exhausted s else .ok () s) := by
    refine ⟨fun s hs => ⟨rfl, known, List.prefix_rfl, ?_⟩⟩
    split
    · exact .error trivial hs
    · exact .ok trivial hs
  refine .bind (hstop none) fun _ hlater _ _ => .bind (h.rule (hctx.mono hlater) hI hnode) ?_
  exact fun _ _ value hvalue => .bind (hstop (some value)) fun _ hlast _ _ => .pure (hvalue.mono hlast)

/-- The class whose static members `target::name` looks for. -/
def Value.home? : Value → Option Class
  | .class cls | .instance ⟨_, cls⟩ => some cls
  | _ => none

namespace Store

variable {s t : Store} {classes : List Class} {cls home : Class} {name other : String} {member : Member}

/-- The nearest class of the lineage that holds a static member of this name. -/
def holder? (s : Store) (cls : Class) (name : String) : Option Class :=
  cls.lineage.find? fun owner => (s.ownStatic? owner name).isSome

/-- All classes of a state, in the order in which they were made. Every class is found under its number, with
its ancestors, and owns all that its table of static members holds; and so is the class of every value. -/
structure Housed (s : Store) (classes : List Class) : Prop where
  count : s.statics.size = classes.length
  number : ∀ i (cls : Class), classes[i]? = some cls → cls.id = i
  lineage : ∀ cls ∈ classes, cls.lineage ⊆ classes
  held : ∀ target, s.Held target → ∀ cls, target.home? = some cls → cls ∈ classes
  owner : ∀ cls ∈ classes, ∀ entry ∈ s.statics.getD cls.id [], entry.2.owner = cls

/-- The state `t` behind a write to `home::name` in the state `s`. By this name, the classes that share the
holder `home` read the new value; all that is read otherwise is as it was, and so is all but static members. -/
structure Rewritten (classes : List Class) (home : Class) (name : String) (value : Value) (s t : Store) :
    Prop where
  rest : t = { s with statics := t.statics }
  count : t.statics.size = s.statics.size
  shared : ∀ cls ∈ classes, s.holder? cls name = some home →
    ∃ member, s.static? cls name = some member ∧ t.static? cls name = some { member with value }
  apart : ∀ cls ∈ classes, ∀ other, other ≠ name ∨ s.holder? cls other ≠ some home →
    t.static? cls other = s.static? cls other
  others : ∀ cls ∈ classes, ∀ other, cls ≠ home ∨ other ≠ name → t.ownStatic? cls other = s.ownStatic? cls other

/-- What `target::name = value` does with a member of the class of a target. Where no class of the lineage holds
the name, it is unknown, and else the nearest holder says who may write; a failure changes nothing. What was
written is read back. -/
def WritesAtHome (s : Store) (classes : List Class) : Prop :=
  ∀ cls ∈ classes, ∀ target : Value, target.home? = some cls → ∀ (ctx : Context) (name : String) (value : Value) span,
    let failed (cause : EvalCause) := EStateM.Result.error (.failed (ctx.trace.error cause span)) s
    let written := ctx.writeStatic target name value span s
    (s.holder? cls name = none → written = failed (.unknownMember cls.name name)) ∧
      ∀ home, s.holder? cls name = some home → ∃ member, s.ownStatic? home name = some member ∧
        if home.permits member.visibility ctx.classScope then
          ∃ t, written = .ok () t ∧ Rewritten classes home name value s t ∧
            ∀ place, ctx.readStatic target name place t = .ok value t
        else written = failed (.inaccessible name member.visibility.word home.name)

theorem Known.housed {I : Placement} (hI : I.listed = true) {depth : Nat} {known : List Class}
    (hs : s.Known I depth known) : s.Housed known := by
  have hknown {cls : Class} (hcls : cls ∈ known) : cls.Known I known := by
    obtain ⟨i, hi⟩ := List.getElem?_of_mem hcls
    exact (hs.classes hI i cls hi).2
  have hlisted {cls : Class} (hcls : cls.Known I known) : cls ∈ known := List.mem_of_getElem? (hcls.listed hI)
  exact {
    count := hs.count hI
    number := fun i cls hi => (hs.classes hI i cls hi).1
    lineage := fun cls hcls owner howner => hlisted ((hknown hcls).of_mem howner)
    held := fun target htarget cls hcls => by
      cases target with
      | «class» | «instance» =>
        cases hcls
        exact hlisted (hs.held htarget nofun)
      | _ => cases hcls
    owner := fun cls hcls entry hentry =>
      ((hs.statics cls.id entry hentry).owner hI).eq_of_id hI (hknown hcls) (hs.homes hI cls.id entry hentry) }

namespace Housed

variable (h : s.Housed classes)

include h

theorem eq_of_id (hcls : cls ∈ classes) (hhome : home ∈ classes) (hid : cls.id = home.id) : cls = home := by
  obtain ⟨i, hi⟩ := List.getElem?_of_mem hcls
  obtain ⟨j, hj⟩ := List.getElem?_of_mem hhome
  have hij : i = j := by rw [← h.number i cls hi, ← h.number j home hj, hid]
  exact Option.some.inj (hi.symm.trans (hij ▸ hj))

theorem id_lt (hcls : cls ∈ classes) : cls.id < s.statics.size := by
  obtain ⟨i, hi⟩ := List.getElem?_of_mem hcls
  rw [h.count, h.number i cls hi]
  exact (List.getElem?_eq_some_iff.mp hi).1

end Housed

theorem ownStatic?_putStatic_self (name : String) (member : Member) (h : cls.id < s.statics.size) :
    (s.putStatic cls name member).ownStatic? cls name = some member := by
  simp [putStatic, ownStatic?, Array.getD_eq_getD_getElem?, Array.getElem_modify, h]

theorem ownStatic?_putStatic_of_ne (h : cls.id ≠ home.id ∨ other ≠ name) :
    (s.putStatic home name member).ownStatic? cls other = s.ownStatic? cls other := by
  unfold putStatic ownStatic?
  rcases getD_modify s.statics home.id cls.id (·.put name member) [] with ⟨heq, hid⟩ | heq <;> rw [heq]
  rw [hid]
  exact Table.get?_put_ne (h.resolve_left (· hid.symm)).symm member _

theorem static?_eq_bind (s : Store) (cls : Class) (name : String) :
    s.static? cls name = (s.holder? cls name).bind (s.ownStatic? · name) := by
  unfold static? holder?
  induction cls.lineage with
  | nil => rfl
  | cons owner rest ih =>
    rw [List.findSome?_cons, List.find?_cons]
    cases hown : s.ownStatic? owner name with
    | none => exact ih
    | some => exact hown.symm

/-- A member that its home holds is rewritten there. -/
theorem Housed.rewritten (h : s.Housed classes) (hhome : home ∈ classes)
    (hheld : s.ownStatic? home name = some member) (value : Value) :
    Rewritten classes home name value s (s.putStatic home name { member with value }) := by
  have hself := ownStatic?_putStatic_self name { member with value } (h.id_lt hhome)
  have hothers : ∀ cls ∈ classes, ∀ other, cls ≠ home ∨ other ≠ name →
      (s.putStatic home name { member with value }).ownStatic? cls other = s.ownStatic? cls other :=
    fun cls hcls other hne => ownStatic?_putStatic_of_ne (hne.imp_left fun hne hid => hne (h.eq_of_id hcls hhome hid))
  -- A class holds a name before the write if it does so afterwards, so the nearest holders stay.
  have hholder {cls : Class} (hcls : cls ∈ classes) (other : String) :
      (s.putStatic home name { member with value }).holder? cls other = s.holder? cls other := by
    refine List.find?_congr fun owner howner => ?_
    by_cases hne : owner ≠ home ∨ other ≠ name
    · rw [hothers owner (h.lineage cls hcls howner) other hne]
    · obtain ⟨rfl, rfl⟩ : owner = home ∧ other = name := by simpa using hne
      rw [hself, hheld]
      rfl
  refine ⟨rfl, Array.size_modify .., fun cls hcls hshared => ⟨member, ?_, ?_⟩, fun cls hcls other hne => ?_, hothers⟩
  · rw [static?_eq_bind, hshared]
    exact hheld
  · rw [static?_eq_bind, hholder hcls, hshared]
    exact hself
  · rw [static?_eq_bind, static?_eq_bind, hholder hcls]
    cases hfound : s.holder? cls other with
    | none => rfl
    | some owner =>
      refine hothers owner (h.lineage cls hcls (List.mem_of_find?_eq_some hfound)) other ?_
      exact hne.symm.imp_left fun hne heq => hne (hfound.trans (congrArg some heq))

end Store

section

variable {target : Value} {cls : Class} (htarget : target.home? = some cls) (span : Span)

include htarget

theorem Context.static_eq (ctx : Context) (name : String) (s : Store) : ctx.static target name span s =
      (match s.static? cls name with
        | some member => do
          ctx.checkAccess span member.owner member.visibility name
          return member
        | none => .fail ctx.trace span (.unknownMember cls.name name) : Eval Member) s := by
  cases target with
  | «class» | «instance» =>
    cases htarget
    rfl
  | _ => cases htarget

theorem Context.static_of_permits {ctx : Context} {name : String} {s : Store} {member : Member}
    (hfound : s.static? cls name = some member)
    (hpermits : member.owner.permits member.visibility ctx.classScope = true) :
    ctx.static target name span s = .ok member s := by
  rw [static_eq htarget, hfound]
  dsimp only
  rw [checkAccess, hpermits]
  rfl

end

theorem Store.Housed.writesAtHome {s : Store} {classes : List Class} (h : s.Housed classes) :
    s.WritesAtHome classes := by
  intro cls hcls target htarget ctx name value span failed written
  have hstatic := s.static?_eq_bind cls name
  have hheld := Context.static_eq htarget span ctx name s
  refine ⟨fun hnone => ?_, fun home hholder => ?_⟩
  · rw [hnone] at hstatic
    rw [hstatic] at hheld
    exact Eval.bind_of_fail hheld
  have hhome := h.lineage cls hcls (List.mem_of_find?_eq_some hholder)
  have hholds : (s.ownStatic? home name).isSome = true :=
    List.find?_some (p := fun owner => (s.ownStatic? owner name).isSome) hholder
  obtain ⟨member, hown⟩ := Option.isSome_iff_exists.mp hholds
  rw [hholder, Option.bind_some, hown] at hstatic
  rw [hstatic] at hheld
  refine ⟨member, hown, ?_⟩
  -- The member is written where it names its owner, which is where it was found.
  obtain rfl : member.owner = home := h.owner home hhome _ (Table.mem_of_get? hown)
  split
  next hpermits =>
    have hrewritten := h.rewritten hhome hown value
    obtain ⟨_, hbefore, hafter⟩ := hrewritten.shared cls hcls hholder
    cases hstatic.symm.trans hbefore
    refine ⟨_, ?_, hrewritten, fun place => Eval.bind_of_ok (Context.static_of_permits htarget place hafter hpermits)⟩
    refine (Eval.bind_of_ok (Context.static_of_permits htarget span hstatic hpermits)).trans
      ((Eval.get_bind _ s).trans ?_)
    rw [hown]
    rfl
  next hdenied =>
    have hdenied := Bool.eq_false_of_not_eq_true hdenied
    exact Eval.bind_of_fail (hheld.trans (congrFun (ctx.checkAccess_denied hdenied _) s))

/-- Wherever a run is stopped, all classes own what their tables of static members hold, and a write goes to the
nearest holder. -/
theorem Session.static_members_at_home {limit : Nat} {programs : List Program} {s : Session}
    (hs : Session.After limit programs s) (stops : Node → Context → Option Value → Store → Bool) (fuel : Nat)
    (program : Program) :
    let t := (s.executeBy (.stopped stops) fuel program).2.store
    ∃ classes, t.Housed classes ∧ t.WritesAtHome classes := by
  intro t
  have hlexical := Placement.written_lexical (program :: programs)
  obtain ⟨known, hknown⟩ := hs.exists_known hlexical fun p hp =>
    Placement.written_at (List.mem_cons_of_mem _ hp)
  obtain ⟨⟨classes, hclasses⟩, -⟩ := executeBy_known (Placement.written_at List.mem_cons_self)
    Placement.Untraced.most hknown (Rule.stopped_agree hlexical stops) fuel
  have hhoused : t.Housed classes := hclasses.housed rfl
  exact ⟨classes, hhoused, hhoused.writesAtHome⟩

/-- The third class is stopped in the initial value of its own member, where it has just written the one that the
other two share. -/
theorem Session.static_members_at_home_while_defining :
    let source := "class A:\n    static property n = false\nend\nclass B extends A:\n    pass\nend\n" ++
      "class C extends A:\n    override static property n = B::n = true\nend"
    let stops : Node → Context → Option Value → Store → Bool := fun node _ value _ =>
      (node.shape matches .assignStatic ..) && value.isSome
    match (Session.new 9).read source with
    | .ok (program, _) =>
      let t := ((Session.new 9).executeBy (.stopped stops) 9 program).2.store
      t.statics.size = 3 ∧ ∃ classes, t.Housed classes ∧ t.WritesAtHome classes
    | .error _ => False := by
  intro source stops
  have hsize : (match (Session.new 9).read source with
      | .ok (program, _) => ((Session.new 9).executeBy (.stopped stops) 9 program).2.store.statics.size
      | .error _ => 0) = 3 := by
    decide +kernel
  split at hsize
  next program _ _ =>
    have hnew : Session.After 9 [] (.new 9) := .new
    exact ⟨hsize, static_members_at_home hnew stops 9 program⟩
  next => cases hsize

end ScriptLang
