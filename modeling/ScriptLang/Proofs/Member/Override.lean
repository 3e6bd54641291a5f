import ScriptLang.Proofs.Member.Session

/-! What a name of an instance stands for. Main statement: the nearest class of the lineage that declares the
name decides, but for a method that is declared over a property: there the property stays. -/
namespace ScriptLang

variable {property : PropertyDef Node}

/-- What a class can declare for its instances under a name. -/
inductive Declaration where
  | property (definition : PropertyDef Node)
  | method (definition : MethodDef Node)

namespace Class

/-- What the class itself declares for its instances under a name. -/
def ownDeclaration? (c : Class) (name : String) : Option Declaration :=
  match c.ownProperty? name with
  | some property => some (.property property)
  | none => (c.ownMethod? .method name).map .method

/-- The nearest declaration of a name, and the class that declares it. -/
def declaration? (c : Class) (name : String) : Option (Class × Declaration) :=
  c.lineage.findSome? fun owner => (owner.ownDeclaration? name).map (owner, ·)

variable {c owner : Class} {name : String} {method : MethodDef Node}

theorem ownDeclaration?_eq_none : c.ownDeclaration? name = none ↔
    c.ownProperty? name = none ∧ c.ownMethod? .method name = none := by
  unfold ownDeclaration?
  cases c.ownProperty? name <;> simp

theorem ownDeclaration?_eq_property :
    c.ownDeclaration? name = some (.property property) ↔ c.ownProperty? name = some property := by
  unfold ownDeclaration?
  cases c.ownProperty? name <;> simp

theorem ownMethod?_of_ownDeclaration?
    (h : c.ownDeclaration? name = some (.method method)) : c.ownMethod? .method name = some method := by
  unfold ownDeclaration? at h
  cases hproperty : c.ownProperty? name <;> simp_all

/-- The declaration is the one of its owner, and there is none before it in the lineage. -/
theorem declaration?_eq_some {declaration : Declaration} (h : c.declaration? name = some (owner, declaration)) :
    ∃ before after, c.lineage = before ++ owner :: after ∧ owner.ownDeclaration? name = some declaration ∧
      ∀ cls ∈ before, cls.ownDeclaration? name = none := by
  obtain ⟨before, cls, after, hlineage, hown, hnone⟩ := List.findSome?_eq_some_iff.mp h
  obtain ⟨_, hown, heq⟩ := Option.map_eq_some_iff.mp hown
  cases heq
  exact ⟨before, after, hlineage, hown, fun cls hcls => Option.map_eq_none_iff.mp (hnone cls hcls)⟩

/-- If the nearest declaration is of some kind, then it is the nearest one of this kind. -/
theorem nearest_of_declaration? {α : Type} {own? : Class → Option α} {a : α} {declaration : Declaration}
    (h : c.declaration? name = some (owner, declaration))
    (hown : owner.ownDeclaration? name = some declaration → own? owner = some a)
    (hnone : ∀ cls : Class, cls.ownDeclaration? name = none → own? cls = none) :
    c.lineage.findSome? (fun owner => (own? owner).map (owner, ·)) = some (owner, a) := by
  obtain ⟨before, after, hlineage, hdeclared, hbefore⟩ := declaration?_eq_some h
  refine List.findSome?_eq_some_iff.mpr ⟨before, owner, after, hlineage, ?_, fun cls hcls => ?_⟩
  · rw [hown hdeclared, Option.map_some]
  · rw [hnone cls (hbefore cls hcls), Option.map_none]

theorem property?_of_declaration? (h : c.declaration? name = some (owner, .property property)) :
    c.property? name = some (owner, property) :=
  nearest_of_declaration? h ownDeclaration?_eq_property.mp fun _ h => (ownDeclaration?_eq_none.mp h).1

theorem method?_of_declaration? (h : c.declaration? name = some (owner, .method method)) :
    c.method? .method name = some (owner, method) :=
  nearest_of_declaration? h ownMethod?_of_ownDeclaration? fun _ h => (ownDeclaration?_eq_none.mp h).2

end Class

/-- Reading `object.name` gives a value to code that may use what `owner` declares with this visibility, and
it fails for other code. -/
def Store.Gives (s : Store) (object : Instance) (name : String) (owner : Class) (visibility : Visibility)
    (value : Value) : Prop :=
  ∀ (m : Machine) (span : Span) (ctx : Context), m.readProperty (.instance object) name span ctx s =
    if owner.permits visibility ctx.classScope then .ok value s
    else Eval.fail ctx.trace span (.inaccessible name visibility.word owner.name) s

/-- A value that is given behind the check of access. -/
theorem Context.checkAccess_pure (ctx : Context) (span : Span) (owner : Class) (visibility : Visibility)
    (name : String) (value : Value) (s : Store) :
    (do ctx.checkAccess span owner visibility name; return value : Eval Value) s =
      if owner.permits visibility ctx.classScope then .ok value s
      else Eval.fail ctx.trace span (.inaccessible name visibility.word owner.name) s := by
  unfold Context.checkAccess
  cases owner.permits visibility ctx.classScope <;> rfl

namespace Store

variable {s : Store} {object : Instance} {name : String}

/-- What is stored under the name goes first. -/
theorem gives_member {member : Member} (h : s.member? object name = some member) :
    s.Gives object name member.owner member.visibility member.value := by
  intro m span ctx
  rw [← Context.checkAccess_pure, Machine.readProperty, Machine.readMember, Eval.get_bind, h]

theorem gives_method {owner : Class} {method : MethodDef Node} (hmember : s.member? object name = none)
    (hmethod : object.cls.method? .method name = some (owner, method)) :
    s.Gives object name owner method.flags.visibility (.function (owner.bind method (some object))) := by
  intro m span ctx
  rw [← Context.checkAccess_pure, Machine.readProperty, Machine.readMember, Eval.get_bind, hmember]
  dsimp only
  rw [Machine.method, hmethod]

end Store

namespace Members.Complete

variable {s : Store} {object : Instance} {name : String} (h : Members.Complete s.members object)

include h

/-- The nearest property of the lineage is stored, and read. -/
theorem gives_property {owner : Class} (hproperty : object.cls.property? name = some (owner, property)) :
    ∃ value, s.member? object name = some ⟨value, property.flags.visibility, owner⟩ ∧
      s.Gives object name owner property.flags.visibility value := by
  have hlayout : (s.member? object name).map (fun member => (member.owner, member.visibility)) =
      some (owner, property.flags.visibility) := by
    have hlayout := h.layout name
    rwa [Class.layout, hproperty] at hlayout
  obtain ⟨⟨value, visibility, _⟩, hmember, heq⟩ := Option.map_eq_some_iff.mp hlayout
  cases heq
  exact ⟨value, hmember, Store.gives_member hmember⟩

theorem member?_eq_none (hproperty : object.cls.property? name = none) : s.member? object name = none := by
  have hlayout := h.layout name
  rw [Class.layout, hproperty] at hlayout
  exact Option.map_eq_none_iff.mp hlayout

end Members.Complete

open Session

/-- At every moment of a run and where it ends, reading `object.name` gives the property or the method that the
nearest class of the lineage declares, of that class. But if the nearest declaration is a method and an older
class declares a property of that name, then the property is read. -/
theorem reads_nearest_declaration (s : Session) (stops : Moment → Store → Bool) (fuel : Nat) (program : Program)
    (object : Instance) (h : Seeded object s ∨ s.Completes stops fuel program object) (name : String) :
    let t := s.storeAt stops fuel program
    (∀ owner property, object.cls.declaration? name = some (owner, .property property) →
      ∃ value, t.member? object name = some ⟨value, property.flags.visibility, owner⟩ ∧
        t.Gives object name owner property.flags.visibility value) ∧
    ∀ owner method, object.cls.declaration? name = some (owner, .method method) →
      (object.cls.property? name = none →
        t.Gives object name owner method.flags.visibility (.function (owner.bind method (some object)))) ∧
      ∀ ancestor property, object.cls.property? name = some (ancestor, property) →
        ∃ value, t.member? object name = some ⟨value, property.flags.visibility, ancestor⟩ ∧
          t.Gives object name ancestor property.flags.visibility value := by
  intro t
  have hcomplete : Members.Complete t.members object := complete_storeAt h
  refine ⟨fun owner property hnearest => ?_, fun owner method hnearest => ⟨fun hnone => ?_, ?_⟩⟩
  · exact hcomplete.gives_property (Class.property?_of_declaration? hnearest)
  · exact Store.gives_method (hcomplete.member?_eq_none hnone) (Class.method?_of_declaration? hnearest)
  · exact fun ancestor property hproperty => hcomplete.gives_property hproperty

open Sample

/-- The property of the class itself and the method of its parent are read, and the property of the parent that
the class declares a method over. -/
theorem reads_nearest_declaration_inherited :
    let t := session.storeAt (fun _ _ => false) 0 []
    Seeded object session ∧ (∃ value, t.Gives object "x" heir .everyone value) ∧
      t.Gives object "f" base .everyone (.function (base.bind (method "f" false) (some object))) ∧
      ∃ value, t.Gives object "y" base .everyone value := by
  have hreads := reads_nearest_declaration session (fun _ _ => false) 0 [] object (.inl seeded)
  obtain ⟨x, _, hx⟩ := (hreads "x").1 heir (property "x" .everyone true) rfl
  have hf := ((hreads "f").2 base (method "f" false) rfl).1 rfl
  obtain ⟨y, _, hy⟩ := ((hreads "y").2 heir (method "y" true) rfl).2 base (property "y" .everyone false) rfl
  exact ⟨seeded, ⟨x, hx⟩, hf, y, hy⟩

/-- An overriding method does not replace a property: the class of the instance declares the method, and the
value of the inherited property is read. -/
theorem inherited_property_read_over_method :
    let source := "class A:\n    property x = true\nend\n" ++
      "class B extends A:\n    override method x() -> false\nend\nnew B().x"
    (match ((Session.new 9).run 9 source).1.outcome with
      | .ok [_, .class cls, value] =>
        (cls.ownDeclaration? "x" matches some (.method _)) && (value matches .boolean true)
      | _ => false) = true := by
  decide +kernel

end ScriptLang
