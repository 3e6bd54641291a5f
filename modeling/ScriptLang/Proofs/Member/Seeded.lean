import ScriptLang.Proofs.Congruence.Rule
import ScriptLang.Proofs.Lexical.Session
import ScriptLang.Proofs.Member.Layout

/-! Filling in the properties of new instances. -/
namespace ScriptLang

variable {α β : Type} {n : Machine} {object : Instance} {ctx : Context} {span : Span} {trace : Trace}
  {s t : Store} {name : String}

open Members (Onward Complete)

theorem Eval.members_onFrames (trace : Trace) (span : Span) (action : Scoping α) (s : Store) :
    ((onFrames trace span action).leaves s).members = s.members := by
  unfold leaves onFrames
  dsimp only
  cases action s.frames <;> rfl

namespace Machine

def fill (m : Machine) (object : Instance) (cls : Class) (ctx : Context) (property : PropertyDef Node) :
    Eval Unit := do
  let value ← m.initialValue property ctx
  modify (·.putMember object property.name ⟨value, property.flags.visibility, cls⟩)

/-- From `s` to `t`, the members `found` of an instance have been laid out, and the others are as they were. -/
def Laid (object : Instance) (found : String → Option (Class × Visibility)) (s t : Store) : Prop :=
  object.id < t.members.size ∧ ∀ name, Members.layout t.members object.id name =
    (found name).or (Members.layout s.members object.id name)

/-- A machine that does not change the layout of instances where it evaluates what a property starts with. -/
def Steady (m : Machine) : Prop :=
  ∀ property ctx (s : Store), Onward none s.members ((m.initialValue property ctx).leaves s).members

namespace Steady

variable {cls : Class} (h : n.Steady)

include h

variable (hid : object.id < s.members.size)

include hid

theorem fill (property : PropertyDef Node) (hrun : n.fill object cls ctx property s = .ok () t) :
    object.id < t.members.size ∧ ∀ name, Members.layout t.members object.id name =
      if property.name = name then some (cls, property.flags.visibility)
      else Members.layout s.members object.id name := by
  obtain ⟨value, u, hvalue, hput⟩ := Eval.exists_of_bind_ok hrun
  obtain rfl : u.putMember object property.name ⟨value, property.flags.visibility, cls⟩ = t := by
    cases hput
    rfl
  have honward := h property ctx s
  rw [Eval.leaves_of_ok hvalue] at honward
  have hu : object.id < u.members.size := Nat.lt_of_lt_of_le hid honward.size
  refine ⟨by simpa [Store.putMember] using hu, fun name => ?_⟩
  rw [Store.putMember, Members.layout_put hu, honward.layout hid nofun]

/-- The properties that are filled in are there, the other ones if they were there before. -/
theorem fill_all (properties : List (PropertyDef Node)) (hrun : properties.forM (n.fill object cls ctx) s = .ok () t) :
    Laid object (fun name => (properties.reverse.find? (·.name = name)).map (cls, ·.flags.visibility)) s t := by
  induction properties generalizing s with
  | nil =>
    cases hrun
    exact ⟨hid, fun name => rfl⟩
  | cons property properties ih =>
    obtain ⟨_, u, hfirst, hrest⟩ := Eval.exists_of_bind_ok hrun
    obtain ⟨hu, hput⟩ := h.fill hid property hfirst
    obtain ⟨ht, hlayout⟩ := ih hu hrest
    refine ⟨ht, fun name => ?_⟩
    simp only [hlayout, hput, List.reverse_cons, List.find?_append]
    cases properties.reverse.find? (·.name = name) with
    | some => rfl
    | none => by_cases hname : property.name = name <;> simp [hname]

theorem seed (hrun : n.seed object span trace cls s = .ok () t) :
    Laid object (fun name => (cls.ownProperty? name).map (cls, ·.flags.visibility)) s t := by
  obtain ⟨scope, u, hscope, hrun⟩ := Eval.exists_of_bind_ok hrun
  obtain ⟨_, v, hself, hrun⟩ := Eval.exists_of_bind_ok hrun
  have hmembers : v.members = s.members := by
    rw [← Eval.leaves_of_ok hself, Eval.members_onFrames]
    cases hscope
    rfl
  rw [← hmembers] at hid
  rw [Laid, ← hmembers]
  exact h.fill_all hid cls.properties hrun

/-- The classes are filled in one after the other, so the last one that declares a name counts. -/
theorem seed_all (classes : List Class) (hrun : classes.forM (n.seed object span trace) s = .ok () t) :
    Laid object (fun name => classes.reverse.findSome? fun cls =>
      (cls.ownProperty? name).map (cls, ·.flags.visibility)) s t := by
  induction classes generalizing s with
  | nil =>
    cases hrun
    exact ⟨hid, fun name => rfl⟩
  | cons cls classes ih =>
    obtain ⟨_, u, hfirst, hrest⟩ := Eval.exists_of_bind_ok hrun
    obtain ⟨hu, hseed⟩ := h.seed hid hfirst
    obtain ⟨ht, hlayout⟩ := ih hu hrest
    refine ⟨ht, fun name => ?_⟩
    simp only [hlayout, hseed, List.reverse_cons, List.findSome?_append, List.findSome?_singleton, Option.or_assoc]

/-- An instance without properties is complete when all classes of its lineage are filled in. -/
theorem complete (hnew : ∀ name, Members.layout s.members object.id name = none)
    (hrun : object.cls.lineage.reverse.forM (n.seed object span trace) s = .ok () t) : Complete t.members object := by
  obtain ⟨ht, hlayout⟩ := h.seed_all hid _ hrun
  refine ⟨ht, fun name => ?_⟩
  rw [hlayout, hnew, List.reverse_reverse, Option.or_none, Class.layout_eq]

end Steady

end Machine

end ScriptLang
