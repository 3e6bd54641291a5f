import Mathlib
import ScriptLang.Value.Equality

/-! What values are compared by: what is found on paths through lists and dictionaries. Main statement:
that no path leads to a difference is an equivalence, as long as there is no NaN. -/
namespace ScriptLang

namespace Number

variable {x y z : Float}

theorem beq_refl (h : x.isNaN = false) : (x == x) = true := by
  rw [Float.isNaN_eq_decide_eq_nan, decide_eq_false_iff_not] at h
  exact Float.beq_self_iff.mpr h

theorem beq_symm (h : (x == y) = true) : (y == x) = true := by
  obtain ⟨hx, hy, heq⟩ := Float.beq_iff_ne_nan_and_eq.mp h
  refine Float.beq_iff_ne_nan_and_eq.mpr ⟨hy, hx, ?_⟩
  rcases heq with rfl | ⟨rfl, rfl⟩ | ⟨rfl, rfl⟩
  · exact .inl rfl
  · exact .inr (.inr ⟨rfl, rfl⟩)
  · exact .inr (.inl ⟨rfl, rfl⟩)

theorem beq_trans (hxy : (x == y) = true) (hyz : (y == z) = true) : (x == z) = true := by
  obtain ⟨hx, -, hxy⟩ := Float.beq_iff_ne_nan_and_eq.mp hxy
  obtain ⟨-, hz, hyz⟩ := Float.beq_iff_ne_nan_and_eq.mp hyz
  exact Float.beq_iff_ne_nan_and_eq.mpr ⟨hx, hz, by grind⟩

end Number

theorem Closure.same_iff {a b : Closure} : a.same b = true ↔ a.code.id = b.code.id ∧
    a.scope.own = b.scope.own ∧ a.receiver.map (·.id) = b.receiver.map (·.id) := by
  simp [Closure.same, and_assoc]

def Dict.SameKeys {α β : Type} (d : Dict α) (e : Dict β) : Prop := ∀ key, key ∈ d.keys ↔ key ∈ e.keys

/-- A step on a path through values: to an element of a list, or to the value at a key. -/
inductive PathStep where
  | index (i : Nat)
  | key (key : String)

namespace Value

variable (h : Heap)

def part? : Value → PathStep → Option Value
  | .list id, .index i => (h.list id)[i]?
  | .dict id, .key key => (h.dict id).get? key
  | _, _ => none

def at? (v : Value) : List PathStep → Option Value
  | [] => some v
  | step :: path => do (← v.part? h step).at? path

/-- Values that do not differ at first sight: they are of one kind, and are lists of one length,
dictionaries with the same keys, or equal in themselves. -/
inductive SameHead : Value → Value → Prop
  | nothing : SameHead .nothing .nothing
  | number {a b} (equal : (a == b) = true) : SameHead (.number a) (.number b)
  | text (value) : SameHead (.text value) (.text value)
  | boolean (value) : SameHead (.boolean value) (.boolean value)
  | list {a b} (size : (h.list a).size = (h.list b).size) : SameHead (.list a) (.list b)
  | dict {a b} (keys : (h.dict a).SameKeys (h.dict b)) : SameHead (.dict a) (.dict b)
  | function {a b} (same : a.same b = true) : SameHead (.function a) (.function b)
  | builtin (native) : SameHead (.builtin native) (.builtin native)
  | class {a b} (id : a.id = b.id) : SameHead (.class a) (.class b)
  | instance {a b} (id : a.id = b.id) : SameHead (.instance a) (.instance b)

/-- A path that leads from both values to something, but not to the same at first sight. -/
def Distinguishes (path : List PathStep) (a b : Value) : Prop :=
  ∃ x y, a.at? h path = some x ∧ b.at? h path = some y ∧ ¬SameHead h x y

/-- Values that no path distinguishes. -/
def Bisimilar (a b : Value) : Prop := ∀ path, ¬Distinguishes h path a b

def isNaN : Value → Bool
  | .number x => x.isNaN
  | _ => false

end Value

structure Heap.NoNaN (h : Heap) : Prop where
  lists : ∀ elements ∈ h.lists, ∀ v ∈ elements, v.isNaN = false
  dicts : ∀ entries ∈ h.dicts, ∀ v ∈ entries.values, v.isNaN = false

namespace Heap.NoNaN

variable {h : Heap} {v : Value}

theorem list (hh : h.NoNaN) {id : ListId} (hv : v ∈ h.list id) : v.isNaN = false := by
  rw [Heap.list, Array.getD_eq_getD_getElem?] at hv
  cases helements : h.lists[id.index]? with
  | none => simp [helements] at hv
  | some elements =>
    rw [helements, Option.getD_some] at hv
    exact hh.lists elements (Array.mem_of_getElem? helements) v hv

theorem dict (hh : h.NoNaN) {id : DictId} (hv : v ∈ (h.dict id).values) : v.isNaN = false := by
  rw [Heap.dict, Array.getD_eq_getD_getElem?] at hv
  cases hentries : h.dicts[id.index]? with
  | none => simp [hentries, Dict.values, Dict.toList] at hv
  | some entries =>
    rw [hentries, Option.getD_some] at hv
    exact hh.dicts entries (Array.mem_of_getElem? hentries) v hv

end Heap.NoNaN

namespace Value

variable {h : Heap} {a b c x y : Value} {step : PathStep} {path : List PathStep}

theorem distinguishes_cons : Distinguishes h (step :: path) a b ↔
    ∃ x y, a.part? h step = some x ∧ b.part? h step = some y ∧ Distinguishes h path x y := by
  constructor
  · rintro ⟨p, q, hp, hq, hpq⟩
    obtain ⟨x, hx, hp⟩ := Option.bind_eq_some_iff.mp hp
    obtain ⟨y, hy, hq⟩ := Option.bind_eq_some_iff.mp hq
    exact ⟨x, y, hx, hy, p, q, hp, hq, hpq⟩
  · rintro ⟨x, y, hx, hy, p, q, hp, hq, hpq⟩
    exact ⟨p, q, Option.bind_eq_some_iff.mpr ⟨x, hx, hp⟩, Option.bind_eq_some_iff.mpr ⟨y, hy, hq⟩, hpq⟩

theorem isNaN_part (hh : h.NoNaN) (hx : a.part? h step = some x) : x.isNaN = false := by
  cases a with
  | list id =>
    cases step with
    | index i => exact hh.list (Array.mem_of_getElem? hx)
    | key => cases hx
  | dict id =>
    cases step with
    | index => cases hx
    | key key =>
      exact hh.dict (List.mem_map.mpr ⟨(key, x), (Dict.get?_eq_some _).mp hx, rfl⟩)
  | _ => cases hx

namespace SameHead

theorem refl (ha : a.isNaN = false) : SameHead h a a := by
  cases a with
  | nothing => exact .nothing
  | number x => exact .number (Number.beq_refl ha)
  | text value => exact .text value
  | boolean value => exact .boolean value
  | list id => exact .list rfl
  | dict id => exact .dict fun _ => .rfl
  | function closure => exact .function (Closure.same_iff.mpr ⟨rfl, rfl, rfl⟩)
  | builtin native => exact .builtin native
  | «class» cls => exact .class rfl
  | «instance» object => exact .instance rfl

theorem symm (hab : SameHead h a b) : SameHead h b a := by
  cases hab with
  | nothing => exact .nothing
  | number equal => exact .number (Number.beq_symm equal)
  | text value => exact .text value
  | boolean value => exact .boolean value
  | list size => exact .list size.symm
  | dict keys => exact .dict fun key => (keys key).symm
  | function same =>
    obtain ⟨hcode, hscope, hself⟩ := Closure.same_iff.mp same
    exact .function (Closure.same_iff.mpr ⟨hcode.symm, hscope.symm, hself.symm⟩)
  | builtin native => exact .builtin native
  | «class» id => exact .class id.symm
  | «instance» id => exact .instance id.symm

theorem trans (hab : SameHead h a b) (hbc : SameHead h b c) : SameHead h a c := by
  cases hab with
  | nothing => exact hbc
  | number equal =>
    cases hbc with
    | number equal' => exact .number (Number.beq_trans equal equal')
  | text | boolean => exact hbc
  | list size =>
    cases hbc with
    | list size' => exact .list (size.trans size')
  | dict keys =>
    cases hbc with
    | dict keys' => exact .dict fun key => (keys key).trans (keys' key)
  | function same =>
    cases hbc with
    | function same' =>
      obtain ⟨hcode, hscope, hself⟩ := Closure.same_iff.mp same
      obtain ⟨hcode', hscope', hself'⟩ := Closure.same_iff.mp same'
      exact .function (Closure.same_iff.mpr
        ⟨hcode.trans hcode', hscope.trans hscope', hself.trans hself'⟩)
  | builtin native => exact hbc
  | «class» id =>
    cases hbc with
    | «class» id' => exact .class (id.trans id')
  | «instance» id =>
    cases hbc with
    | «instance» id' => exact .instance (id.trans id')

/-- Where one of two values goes on, so does the other. -/
theorem exists_part (hab : SameHead h a b) (hx : a.part? h step = some x) : ∃ y, b.part? h step = some y := by
  cases hab with
  | list size =>
    cases step with
    | index i =>
      obtain ⟨hi, -⟩ := Array.getElem?_eq_some_iff.mp hx
      exact ⟨_, Array.getElem?_eq_getElem (size ▸ hi)⟩
    | key => cases hx
  | dict keys =>
    cases step with
    | index => cases hx
    | key key =>
      exact (Dict.mem_keys _).mp ((keys key).mp ((Dict.mem_keys _).mpr ⟨x, hx⟩))
  | _ => cases hx

end SameHead

namespace Bisimilar

theorem head (hab : Bisimilar h a b) : SameHead h a b :=
  Classical.byContradiction fun hne => hab [] ⟨a, b, rfl, rfl, hne⟩

theorem part (hab : Bisimilar h a b) (hx : a.part? h step = some x) (hy : b.part? h step = some y) : Bisimilar h x y :=
  fun path hpath => hab (step :: path) (distinguishes_cons.mpr ⟨x, y, hx, hy, hpath⟩)

theorem refl (hh : h.NoNaN) (ha : a.isNaN = false) : Bisimilar h a a := by
  intro path hpath
  induction path generalizing a with
  | nil =>
    obtain ⟨_, _, ⟨⟩, ⟨⟩, hne⟩ := hpath
    exact hne (.refl ha)
  | cons step path ih =>
    obtain ⟨x, y, hx, hy, hpath⟩ := distinguishes_cons.mp hpath
    cases hx.symm.trans hy
    exact ih (isNaN_part hh hx) hpath

theorem symm (hab : Bisimilar h a b) : Bisimilar h b a := by
  rintro path ⟨x, y, hx, hy, hne⟩
  exact hab path ⟨y, x, hy, hx, fun hyx => hne hyx.symm⟩

theorem trans (hab : Bisimilar h a b) (hbc : Bisimilar h b c) : Bisimilar h a c := by
  intro path hpath
  induction path generalizing a b c with
  | nil =>
    obtain ⟨_, _, ⟨⟩, ⟨⟩, hne⟩ := hpath
    exact hne (hab.head.trans hbc.head)
  | cons step path ih =>
    obtain ⟨x, z, hx, hz, hpath⟩ := distinguishes_cons.mp hpath
    obtain ⟨y, hy⟩ := hab.head.exists_part hx
    exact ih (hab.part hx hy) (hbc.part hy hz) hpath

/-- Two values are bisimilar if they are so at first sight and in all their parts. -/
theorem of_parts (hab : SameHead h a b)
    (hparts : ∀ step x y, a.part? h step = some x → b.part? h step = some y → Bisimilar h x y) : Bisimilar h a b := by
  intro path hpath
  cases path with
  | nil =>
    obtain ⟨_, _, ⟨⟩, ⟨⟩, hne⟩ := hpath
    exact hne hab
  | cons step path =>
    obtain ⟨x, y, hx, hy, hpath⟩ := distinguishes_cons.mp hpath
    exact hparts step x y hx hy path hpath

end Bisimilar

end Value

end ScriptLang
