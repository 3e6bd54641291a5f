import Mathlib.Data.List.Perm.Subperm
import Mathlib.Data.List.ProdSigma
import ScriptLang.Proofs.Equality.Bisimilar

/-! Equality of values, decided. Main statement: whatever lists and dictionaries share or contain, two
values are compared in finitely many steps, and they are equal if no path distinguishes them. -/
namespace ScriptLang

section AllM

variable {α : Type} {f : α → Option Bool} {xs : List α}

private theorem allM_eq_true : xs.allM f = some true ↔ ∀ x ∈ xs, f x = some true := by
  induction xs with
  | nil => simp [List.allM]
  | cons x xs ih =>
    rw [List.allM, List.forall_mem_cons, ← ih]
    cases f x with
    | none => simp
    | some r => cases r <;> simp

private theorem exists_of_allM (h : xs.allM f = some false) : ∃ x ∈ xs, f x = some false := by
  induction xs with
  | nil => cases h
  | cons x xs ih =>
    rw [List.allM] at h
    cases hx : f x with
    | none =>
      rw [hx] at h
      cases h
    | some r =>
      rw [hx] at h
      cases r with
      | true =>
        obtain ⟨y, hy, hfalse⟩ := ih h
        exact ⟨y, List.mem_cons_of_mem x hy, hfalse⟩
      | false => exact ⟨x, List.mem_cons_self, hx⟩

private theorem all_of_allM {g : α → Bool} {r : Bool} (h : xs.allM f = some r)
    (hg : ∀ x ∈ xs, ∀ r, f x = some r → g x = r) : xs.all g = r := by
  cases r with
  | true => exact List.all_eq_true.mpr fun x hx => hg x hx true (allM_eq_true.mp h x hx)
  | false =>
    obtain ⟨x, hx, hfalse⟩ := exists_of_allM h
    exact List.all_eq_false.mpr ⟨x, hx, by rw [hg x hx false hfalse]; exact Bool.false_ne_true⟩

private theorem exists_allM (h : ∀ x ∈ xs, ∃ r, f x = some r) : ∃ r, xs.allM f = some r := by
  induction xs with
  | nil => exact ⟨true, rfl⟩
  | cons x xs ih =>
    obtain ⟨⟨r, hr⟩, hxs⟩ := List.forall_mem_cons.mp h
    rw [List.allM, hr]
    cases r with
    | true => exact ih hxs
    | false => exact ⟨false, rfl⟩

end AllM

theorem Dict.sameKeys_iff {α β : Type} {d : Dict α} {e : Dict β} :
    d.SameKeys e ↔ d.size = e.size ∧ d.keys ⊆ e.keys := by
  have hlength {γ : Type} (d : Dict γ) : d.keys.length = d.size := by simp [keys, toList, size]
  constructor
  · intro hkeys
    have hperm := (List.perm_ext_iff_of_nodup d.keys_nodup e.keys_nodup).mpr hkeys
    exact ⟨by rw [← hlength, ← hlength, hperm.length_eq], fun key => (hkeys key).mp⟩
  · rintro ⟨hsize, hsub⟩ key
    have hperm : d.keys.Perm e.keys :=
      (List.subperm_of_subset d.keys_nodup hsub).perm_of_length_le (by simp [hlength, hsize])
    exact hperm.mem_iff

namespace Value

def pair? : Value → Value → Option (Handle × Handle)
  | .list a, .list b => some (.list a, .list b)
  | .dict a, .dict b => some (.dict a, .dict b)
  | _, _ => none

variable (h : Heap)

def length : Value → Nat
  | .list id => (h.list id).size
  | .dict id => (h.dict id).size
  | _ => 0

/-- What has to be compared for two collections, in order: the elements at each place, or the values at
each key of the first. There is nothing to compare at a key that the second does not have. -/
def comparisons : Value → Value → List (Option (Value × Value))
  | .list a, .list b => ((h.list a).toList.zip (h.list b).toList).map some
  | .dict a, .dict b => (h.dict a).toList.map fun (key, x) => ((h.dict b).get? key).map (x, ·)
  | _, _ => []

/-- Compares two values as `equalUpTo` does, but gives up where collections would have to be followed
more than `depth` deep. -/
def compare? (depth : Nat) (pending : List (Handle × Handle)) (a b : Value) : Option Bool :=
  match pair? a b, depth with
  | none, _ => some (equalUpTo h 0 [] a b)
  | some _, 0 => none
  | some pair, depth + 1 =>
    if pair.1 = pair.2 || pending.contains pair then some true
    else if a.length h ≠ b.length h then some false
    else (comparisons h a b).allM fun
      | some (x, y) => compare? depth (pair :: pending) x y
      | none => some false

variable {h} {a b x y : Value} {pair : Handle × Handle} {depth : Nat} {pending : List (Handle × Handle)}
  {step : PathStep} {r : Bool}

theorem compare?_leaf (hpair : pair? a b = none) : compare? h depth pending a b = some (equalUpTo h 0 [] a b) := by
  rw [compare?.eq_def, hpair]

theorem compare?_zero (hpair : pair? a b = some pair) : compare? h 0 pending a b = none := by
  rw [compare?.eq_def, hpair]

theorem compare?_succ (hpair : pair? a b = some pair) : compare? h (depth + 1) pending a b =
    if pair.1 = pair.2 || pending.contains pair then some true
    else if a.length h ≠ b.length h then some false
    else (comparisons h a b).allM fun
      | some (x, y) => compare? h depth (pair :: pending) x y
      | none => some false := by
  rw [compare?.eq_def, hpair]

/-- How a comparison that comes to an end goes: values that are not both collections of one kind are
compared at first sight, a pair that is known is taken as equal, and other collections are compared by
their lengths and then by what is in them. -/
inductive Compared (h : Heap) (pending : List (Handle × Handle)) (a b : Value) : Nat → Bool → Prop
  | leaf {depth : Nat} (hpair : pair? a b = none) :
      Compared h pending a b depth (equalUpTo h 0 [] a b)
  | known {depth : Nat} {pair : Handle × Handle} (hpair : pair? a b = some pair)
      (hknown : pair.1 = pair.2 ∨ pair ∈ pending) : Compared h pending a b (depth + 1) true
  | unlike {depth : Nat} {pair : Handle × Handle} (hpair : pair? a b = some pair)
      (hnew : ¬(pair.1 = pair.2 ∨ pair ∈ pending)) (hlength : a.length h ≠ b.length h) :
      Compared h pending a b (depth + 1) false
  | parts {depth : Nat} {pair : Handle × Handle} {r : Bool} (hpair : pair? a b = some pair)
      (hnew : ¬(pair.1 = pair.2 ∨ pair ∈ pending)) (hlength : a.length h = b.length h)
      (hr : (comparisons h a b).allM (fun
        | some (x, y) => compare? h depth (pair :: pending) x y
        | none => some false) = some r) :
      Compared h pending a b (depth + 1) r

theorem compared (hr : compare? h depth pending a b = some r) : Compared h pending a b depth r := by
  cases hpair : pair? a b with
  | none =>
    rw [compare?_leaf hpair] at hr
    cases hr
    exact .leaf hpair
  | some pair =>
    cases depth with
    | zero =>
      rw [compare?_zero hpair] at hr
      cases hr
    | succ depth =>
      rw [compare?_succ hpair] at hr
      split at hr
      next hknown =>
        cases hr
        exact .known hpair (by simpa using hknown)
      next hnew =>
        have hnew : ¬(pair.1 = pair.2 ∨ pair ∈ pending) := by simpa using hnew
        split at hr
        next hlength =>
          cases hr
          exact .unlike hpair hnew hlength
        next hlength => exact .parts hpair hnew (not_not.mp hlength) hr

/-- Values that are not both collections of one kind are compared at first sight. -/
theorem equalUpTo_leaf (hpair : pair? a b = none) : equalUpTo h depth pending a b = true ↔ SameHead h a b := by
  constructor
  · fun_cases equalUpTo h depth pending a b with
    | case1 => exact fun _ => .nothing
    | case2 => exact .number
    | case3 _ b => exact fun hab => of_decide_eq_true hab ▸ .text _
    | case4 => exact fun hab => of_decide_eq_true hab ▸ .boolean _
    | case5 | case6 | case7 | case8 => cases hpair
    | case9 => exact .function
    | case10 => exact fun hab => of_decide_eq_true hab ▸ .builtin _
    | case11 => exact fun hab => .class (of_decide_eq_true hab)
    | case12 => exact fun hab => .instance (of_decide_eq_true hab)
    | case13 => exact fun h => absurd h Bool.false_ne_true
  · intro hab
    cases hab with
    | list | dict => cases hpair
    | nothing => rw [equalUpTo]
    | number equal => rwa [equalUpTo]
    | text | boolean | builtin => simp [equalUpTo]
    | function same => rwa [equalUpTo]
    | «class» id | «instance» id => simpa [equalUpTo] using id

private inductive Collections : Value → Value → Handle × Handle → Prop
  | list (i j : ListId) : Collections (.list i) (.list j) (.list i, .list j)
  | dict (i j : DictId) : Collections (.dict i) (.dict j) (.dict i, .dict j)

private theorem collections_of (h : pair? a b = some pair) : Collections a b pair := by
  revert h
  fun_cases pair? a b with
  | case1 i j => exact fun h => Option.some.inj h ▸ .list i j
  | case2 i j => exact fun h => Option.some.inj h ▸ .dict i j
  | case3 => exact nofun

section

variable (hpair : pair? a b = some pair)

include hpair

private theorem pair?_inj (hpair' : pair? x y = some pair) : a = x ∧ b = y := by
  rcases collections_of hpair with ⟨i, j⟩ | ⟨i, j⟩ <;>
    cases collections_of hpair' <;> exact ⟨rfl, rfl⟩

private theorem eq_of_pair? (heq : pair.1 = pair.2) : a = b ∧ a.isNaN = false := by
  rcases collections_of hpair with ⟨i, j⟩ | ⟨i, j⟩ <;> cases heq <;>
    exact ⟨rfl, rfl⟩

theorem equalUpTo_succ : equalUpTo h (depth + 1) pending a b =
    (decide (pair.1 = pair.2 ∨ pair ∈ pending) || a.length h = b.length h &&
      (comparisons h a b).all fun
        | some (x, y) => equalUpTo h depth (pair :: pending) x y
        | none => false) := by
  rcases collections_of hpair with ⟨i, j⟩ | ⟨i, j⟩
  · rw [equalUpTo, comparisons, List.all_map]
    congr 2
    simp
  · rw [equalUpTo, comparisons, List.all_map]
    congr 2
    · simp
    · congr 1
      funext entry
      dsimp only [Function.comp]
      cases (h.dict j).get? entry.1 <;> rfl

end

/-- A comparison that comes to an end gives what `equalUpTo` gives. -/
theorem equalUpTo_of_compare? (hr : compare? h depth pending a b = some r) : equalUpTo h depth pending a b = r := by
  have hleaf {a b : Value} (hpair : pair? a b = none) {depth : Nat} {pending : List (Handle × Handle)} :
      equalUpTo h depth pending a b = equalUpTo h 0 [] a b :=
    Bool.eq_iff_iff.mpr ((equalUpTo_leaf hpair).trans (equalUpTo_leaf hpair).symm)
  induction depth generalizing pending a b r with
  | zero =>
    cases compared hr with
    | leaf hpair => exact hleaf hpair
  | succ depth ih =>
    cases compared hr with
    | leaf hpair => exact hleaf hpair
    | known hpair hknown =>
      rw [equalUpTo_succ hpair, decide_eq_true hknown, Bool.true_or]
    | unlike hpair hnew hlength =>
      rw [equalUpTo_succ hpair, decide_eq_false hnew, decide_eq_false hlength, Bool.false_or,
        Bool.false_and]
    | parts hpair hnew hlength hr =>
      rw [equalUpTo_succ hpair, decide_eq_false hnew, decide_eq_true hlength, Bool.false_or,
        Bool.true_and]
      refine all_of_allM hr fun job _ r hjob => ?_
      cases job with
      | none => exact Option.some.inj hjob
      | some xy => exact ih hjob

/-- Two collections have the same head if they have the same length and there is something to compare
everywhere. -/
theorem sameHead_iff (hpair : pair? a b = some pair) :
    SameHead h a b ↔ a.length h = b.length h ∧ none ∉ comparisons h a b := by
  rcases collections_of hpair with ⟨i, j⟩ | ⟨i, j⟩
  · constructor
    · intro hab
      cases hab with
      | list size => exact ⟨size, by simp [comparisons]⟩
    · rintro ⟨size, -⟩
      exact .list size
  · have hkeys : none ∉ comparisons h (.dict i) (.dict j) ↔ (h.dict i).keys ⊆ (h.dict j).keys := by
      simp only [comparisons, List.mem_map, not_exists, not_and, Option.map_eq_none_iff]
      constructor
      · intro hall key hkey
        obtain ⟨value, hvalue⟩ := (Dict.mem_keys _).mp hkey
        have hpresent := hall (key, value) ((Dict.get?_eq_some _).mp hvalue)
        exact (Dict.mem_keys _).mpr (Option.ne_none_iff_exists'.mp hpresent)
      · intro hsub entry hentry habsent
        obtain ⟨value, hvalue⟩ := (Dict.mem_keys _).mp (hsub (List.mem_map.mpr ⟨entry, hentry, rfl⟩))
        rw [habsent] at hvalue
        cases hvalue
    rw [hkeys]
    constructor
    · intro hab
      cases hab with
      | dict keys => exact Dict.sameKeys_iff.mp keys
    · exact fun keys => .dict (Dict.sameKeys_iff.mpr keys)

/-- What has to be compared are the parts at the same step. -/
theorem mem_comparisons (hpair : pair? a b = some pair) : some (x, y) ∈ comparisons h a b ↔
    ∃ step, a.part? h step = some x ∧ b.part? h step = some y := by
  rcases collections_of hpair with ⟨i, j⟩ | ⟨i, j⟩
  · have hzip : some (x, y) ∈ comparisons h (.list i) (.list j) ↔
        ∃ k : Nat, (h.list i)[k]? = some x ∧ (h.list j)[k]? = some y := by
      simp [comparisons, List.mem_iff_getElem?, List.getElem?_zip_eq_some]
    rw [hzip]
    constructor
    · rintro ⟨k, hx, hy⟩
      exact ⟨.index k, hx, hy⟩
    · rintro ⟨step, hx, hy⟩
      cases step with
      | index k => exact ⟨k, hx, hy⟩
      | key => cases hx
  · have hentries : some (x, y) ∈ comparisons h (.dict i) (.dict j) ↔
        ∃ key, (h.dict i).get? key = some x ∧ (h.dict j).get? key = some y := by
      simp [comparisons, ← Dict.get?_eq_some]
    rw [hentries]
    constructor
    · rintro ⟨key, hx, hy⟩
      exact ⟨.key key, hx, hy⟩
    · rintro ⟨step, hx, hy⟩
      cases step with
      | index => cases hx
      | key key => exact ⟨key, hx, hy⟩

/-- Only collections of one kind have parts at the same step. -/
theorem exists_pair? (hx : a.part? h step = some x) (hy : b.part? h step = some y) :
    ∃ pair, pair? a b = some pair := by
  cases step with
  | index i =>
    cases a with
    | list =>
      cases b with
      | list => exact ⟨_, rfl⟩
      | _ => cases hy
    | _ => cases hx
  | key key =>
    cases a with
    | dict =>
      cases b with
      | dict => exact ⟨_, rfl⟩
      | _ => cases hy
    | _ => cases hx

/-- Bisimilar values are not found to be different. -/
theorem compare?_of_bisimilar (hab : Bisimilar h a b) (hr : compare? h depth pending a b = some r) : r = true := by
  induction depth generalizing pending a b r with
  | zero =>
    cases compared hr with
    | leaf hpair => exact (equalUpTo_leaf hpair).mpr hab.head
  | succ depth ih =>
    cases compared hr with
    | leaf hpair => exact (equalUpTo_leaf hpair).mpr hab.head
    | known => rfl
    | unlike hpair _ hlength => exact absurd ((sameHead_iff hpair).mp hab.head).1 hlength
    | parts hpair _ hlength hr =>
      cases r with
      | true => rfl
      | false =>
        obtain ⟨job, hjob, hfalse⟩ := exists_of_allM hr
        cases job with
        | none => exact absurd hjob ((sameHead_iff hpair).mp hab.head).2
        | some xy =>
          obtain ⟨step, hx, hy⟩ := (mem_comparisons hpair).mp hjob
          exact ih (hab.part hx hy) hfalse

/-- Values that differ are found to be different, if what is pending differs only on longer paths. -/
theorem compare?_of_distinguishes (hh : h.NoNaN) {path : List PathStep} (hpath : Distinguishes h path a b)
    (hpending : ∀ x y pair, pair? x y = some pair → pair ∈ pending → ∀ other : List PathStep,
      other.length ≤ path.length → ¬Distinguishes h other x y)
    (hr : compare? h depth pending a b = some r) : r = false := by
  induction hn : path.length using Nat.strongRecOn generalizing path a b pending depth r with
  | ind n ih =>
    subst hn
    -- If a shorter path distinguishes the two as well, that one is followed.
    by_cases hshort : ∃ other : List PathStep, other.length < path.length ∧ Distinguishes h other a b
    · obtain ⟨other, hlt, hother⟩ := hshort
      exact ih _ hlt hother (fun x y pair hpair hmem path' hle =>
        hpending x y pair hpair hmem path' (Nat.le_trans hle (Nat.le_of_lt hlt))) hr rfl
    cases compared hr with
    | leaf hpair =>
      cases path with
      | nil =>
        obtain ⟨_, _, ⟨⟩, ⟨⟩, hne⟩ := hpath
        exact Bool.eq_false_iff.mpr fun hab => hne ((equalUpTo_leaf hpair).mp hab)
      | cons step path =>
        obtain ⟨x, y, hx, hy, -⟩ := distinguishes_cons.mp hpath
        obtain ⟨_, hsome⟩ := exists_pair? hx hy
        cases hpair.symm.trans hsome
    | known hpair hknown =>
      rcases hknown with heq | hmem
      · obtain ⟨rfl, hnumber⟩ := eq_of_pair? hpair heq
        exact absurd hpath (Bisimilar.refl hh hnumber path)
      · exact absurd hpath (hpending a b _ hpair hmem path (Nat.le_refl _))
    | unlike => rfl
    | @parts depth pair r hpair _ hlength hr =>
      cases r with
      | false => rfl
      | true =>
        have hjobs := allM_eq_true.mp hr
        have hhead : SameHead h a b :=
          (sameHead_iff hpair).mpr ⟨hlength, fun hnone => by cases hjobs none hnone⟩
        cases path with
        | nil =>
          obtain ⟨_, _, ⟨⟩, ⟨⟩, hne⟩ := hpath
          exact absurd hhead hne
        | cons step path =>
          obtain ⟨x, y, hx, hy, hpath⟩ := distinguishes_cons.mp hpath
          have hxy := hjobs (some (x, y)) ((mem_comparisons hpair).mpr ⟨step, hx, hy⟩)
          refine ih path.length (Nat.lt_succ_self _) hpath ?_ hxy rfl
          intro x' y' pair' hpair' hmem other hle hother
          rcases List.mem_cons.mp hmem with rfl | hmem
          · obtain ⟨rfl, rfl⟩ := pair?_inj hpair hpair'
            exact hshort ⟨other, Nat.lt_succ_of_le hle, hother⟩
          · exact hpending x' y' pair' hpair' hmem other (Nat.le_succ_of_le hle) hother

end Value

def Heap.pairs (h : Heap) : List (Handle × Handle) :=
  (List.range h.lists.size ×ˢ List.range h.lists.size).map
      (fun (i, j) => (Handle.list ⟨i⟩, Handle.list ⟨j⟩)) ++
    (List.range h.dicts.size ×ˢ List.range h.dicts.size).map
      fun (i, j) => (Handle.dict ⟨i⟩, Handle.dict ⟨j⟩)

theorem Heap.length_pairs (h : Heap) : h.pairs.length = h.lists.size * h.lists.size + h.dicts.size * h.dicts.size := by
  simp [pairs, List.length_product]

namespace Value

variable {h : Heap} {a b : Value} {pair : Handle × Handle} {depth : Nat} {pending : List (Handle × Handle)}

/-- What is not empty is in the heap. -/
private theorem list_lt_of_pos {i : ListId} (hi : 0 < (h.list i).size) : i.index < h.lists.size := by
  refine Nat.lt_of_not_le fun hge => ?_
  simp [Heap.list, Array.getD_eq_getD_getElem?, hge] at hi

private theorem dict_lt_of_pos {i : DictId} (hi : 0 < (h.dict i).size) : i.index < h.dicts.size := by
  refine Nat.lt_of_not_le fun hge => ?_
  simp [Heap.dict, Array.getD_eq_getD_getElem?, hge, Dict.size] at hi

/-- Where there is something to compare, both collections are in the heap. -/
theorem pair_mem_pairs (hpair : pair? a b = some pair) (hlength : a.length h = b.length h)
    (hne : comparisons h a b ≠ []) : pair ∈ h.pairs := by
  rcases collections_of hpair with ⟨i, j⟩ | ⟨i, j⟩
  · have hi : 0 < (h.list i).size := Nat.pos_of_ne_zero fun hzero =>
      hne (by simp [comparisons, Array.size_eq_zero_iff.mp hzero])
    have hj : 0 < (h.list j).size := Nat.lt_of_lt_of_eq hi hlength
    refine List.mem_append_left _ (List.mem_map.mpr ⟨(i.index, j.index), ?_, rfl⟩)
    exact List.mem_product.mpr
      ⟨List.mem_range.mpr (list_lt_of_pos hi), List.mem_range.mpr (list_lt_of_pos hj)⟩
  · have hi : 0 < (h.dict i).size := Nat.pos_of_ne_zero fun hzero =>
      hne (by simp [comparisons, Dict.toList, Array.size_eq_zero_iff.mp hzero])
    have hj : 0 < (h.dict j).size := Nat.lt_of_lt_of_eq hi hlength
    refine List.mem_append_right _ (List.mem_map.mpr ⟨(i.index, j.index), ?_, rfl⟩)
    exact List.mem_product.mpr
      ⟨List.mem_range.mpr (dict_lt_of_pos hi), List.mem_range.mpr (dict_lt_of_pos hj)⟩

/-- A comparison comes to an end, as no pair is pending twice. -/
theorem exists_compare? (hnodup : pending.Nodup) (hin : pending ⊆ h.pairs)
    (hdepth : h.pairs.length < depth + pending.length) : ∃ r, compare? h depth pending a b = some r := by
  have hpairs : pending.length ≤ h.pairs.length := (List.subperm_of_subset hnodup hin).length_le
  induction depth generalizing pending a b with
  | zero => omega
  | succ depth ih =>
    cases hpair : pair? a b with
    | none => exact ⟨_, compare?_leaf hpair⟩
    | some pair =>
      rw [compare?_succ hpair]
      split
      next => exact ⟨true, rfl⟩
      next hnew =>
        split
        next => exact ⟨false, rfl⟩
        next hlength =>
          refine exists_allM fun job hjob => ?_
          cases job with
          | none => exact ⟨false, rfl⟩
          | some xy =>
            have hmem := pair_mem_pairs hpair (not_not.mp hlength) (List.ne_nil_of_mem hjob)
            have hnot : pair ∉ pending := by
              intro hpending
              simp [hpending] at hnew
            have hnodup' := List.nodup_cons.mpr ⟨hnot, hnodup⟩
            have hin' := List.cons_subset.mpr ⟨hmem, hin⟩
            refine ih hnodup' hin' ?_ (List.subperm_of_subset hnodup' hin').length_le
            rw [List.length_cons]
            omega

theorem compare?_iff_bisimilar (hh : h.NoNaN) {r : Bool} (hr : compare? h depth [] a b = some r) :
    r = true ↔ Bisimilar h a b := by
  constructor
  · rintro rfl path hpath
    cases compare?_of_distinguishes hh hpath (fun _ _ _ _ hmem => absurd hmem List.not_mem_nil) hr
  · exact fun hab => compare?_of_bisimilar hab hr

theorem equal_iff_bisimilar (hh : h.NoNaN) : equal h a b = true ↔ Bisimilar h a b := by
  obtain ⟨r, hr⟩ : ∃ r, compare? h (h.pairs.length + 1) [] a b = some r :=
    exists_compare? List.nodup_nil (List.nil_subset _) (Nat.lt_succ_self _)
  rw [equal, ← h.length_pairs, equalUpTo_of_compare? hr]
  exact compare?_iff_bisimilar hh hr

/-- Any two values of a heap are compared within its number of pairs. -/
theorem compare?_eq_equal (hh : h.NoNaN) (hdepth : h.pairs.length < depth) :
    compare? h depth [] a b = some (equal h a b) := by
  obtain ⟨r, hr⟩ : ∃ r, compare? h depth [] a b = some r :=
    exists_compare? List.nodup_nil (List.nil_subset _) hdepth
  rw [hr, Option.some.injEq, Bool.eq_iff_iff, compare?_iff_bisimilar hh hr, equal_iff_bisimilar hh]

theorem bisimilar_list {i j : ListId} : Bisimilar h (.list i) (.list j) ↔
    (h.list i).size = (h.list j).size ∧
    ∀ (k : Nat) x y, (h.list i)[k]? = some x → (h.list j)[k]? = some y → Bisimilar h x y := by
  constructor
  · intro hij
    constructor
    · cases hij.head with
      | list size => exact size
    · intro k x y hx hy
      have hx : part? h (.list i) (.index k) = some x := hx
      exact hij.part hx hy
  · rintro ⟨hsize, helements⟩
    refine .of_parts (.list hsize) fun step x y hx hy => ?_
    cases step with
    | index k => exact helements k x y hx hy
    | key => cases hx

theorem bisimilar_dict {i j : DictId} : Bisimilar h (.dict i) (.dict j) ↔
    ∀ key, Option.Rel (Bisimilar h) ((h.dict i).get? key) ((h.dict j).get? key) := by
  constructor
  · intro hij key
    change Option.Rel (Bisimilar h) (part? h (.dict i) (.key key)) (part? h (.dict j) (.key key))
    cases hx : part? h (.dict i) (.key key) with
    | some x =>
      obtain ⟨y, hy⟩ := hij.head.exists_part hx
      exact hy ▸ .some (hij.part hx hy)
    | none =>
      cases hy : part? h (.dict j) (.key key) with
      | none => exact .none
      | some y =>
        obtain ⟨x, hx'⟩ := hij.symm.head.exists_part hy
        cases hx.symm.trans hx'
  · intro hvalues
    refine .of_parts (.dict fun key => ?_) fun step x y hx hy => ?_
    · have hkey := hvalues key
      rw [Dict.mem_keys, Dict.mem_keys]
      generalize (h.dict i).get? key = p, (h.dict j).get? key = q at hkey
      cases hkey with
      | none => exact .rfl
      | some => exact ⟨fun _ => ⟨_, rfl⟩, fun _ => ⟨_, rfl⟩⟩
    · cases step with
      | index => cases hx
      | key key =>
        have hkey := hvalues key
        rw [part?] at hx hy
        rw [hx, hy] at hkey
        cases hkey with
        | some hxy => exact hxy

/-- Equality comes to an end on every heap without NaN, with true just for the values that no path
distinguishes. It is an equivalence, and it does not matter to it in which order keys came or which
collections are shared: lists are equal if they are as long and their elements are equal, dictionaries if
at each key both have equal values or none. -/
theorem equal_decides_bisimilarity (h : Heap) (hh : h.NoNaN) :
    (∀ a b, equal h a b = true ↔ Bisimilar h a b) ∧
    (∀ a b depth, h.pairs.length < depth → compare? h depth [] a b = some (equal h a b)) ∧
    Equivalence (fun a b : { v : Value // v.isNaN = false } => equal h a b = true) ∧
    (∀ a b, equal h (.list a) (.list b) = true ↔ (h.list a).size = (h.list b).size ∧
      ∀ (i : Nat) x y, (h.list a)[i]? = some x → (h.list b)[i]? = some y → equal h x y = true) ∧
    ∀ a b, equal h (.dict a) (.dict b) = true ↔ ∀ key,
      Option.Rel (fun x y => equal h x y = true) ((h.dict a).get? key) ((h.dict b).get? key) := by
  simp only [equal_iff_bisimilar hh, implies_true, true_and]
  refine ⟨fun a b depth => compare?_eq_equal hh, ⟨?_, ?_, ?_⟩, ?_, ?_⟩
  · exact fun a => .refl hh a.2
  · exact .symm
  · exact .trans
  · exact fun a b => bisimilar_list
  · exact fun a b => bisimilar_dict

def rings : Heap where
  lists := #[#[.list ⟨0⟩], #[.list ⟨2⟩], #[.list ⟨1⟩]]

/-- No path tells how long a ring is. -/
theorem rings_equal : rings.NoNaN ∧ equal rings (.list ⟨0⟩) (.list ⟨1⟩) = true ∧
    Bisimilar rings (.list ⟨0⟩) (.list ⟨1⟩) := by
  have hrings : rings.NoNaN := ⟨by simp [rings, isNaN], by simp [rings]⟩
  obtain ⟨hiff, -⟩ := equal_decides_bisimilarity rings hrings
  exact ⟨hrings, rfl, (hiff _ _).mp rfl⟩

end Value

end ScriptLang
