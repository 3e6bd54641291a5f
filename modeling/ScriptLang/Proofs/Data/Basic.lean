import ScriptLang.Proofs.Equality.Decides
import ScriptLang.Proofs.Tree.Alike
import ScriptLang.Value.Text

/-! Data: trees of numbers, texts, lists and dictionaries, as they are shown, and the values that hold
them. Main statement: values that hold the same data are equal. -/
namespace ScriptLang

/-- What a value without functions and classes is, whatever it shares with others. -/
inductive Datum where
  | nothing
  | number (value : Float)
  | text (value : String)
  | boolean (value : Bool)
  | list (elements : List Datum)
  | dict (entries : List (String × Datum))

namespace Datum

variable {entry : String × Datum}

theorem sizeOf_entry_lt {entries : List (String × Datum)}
    (h : entry ∈ entries) : sizeOf entry.2 < sizeOf (dict entries) := by
  have hentries := List.sizeOf_lt_of_mem h
  obtain ⟨key, d⟩ := entry
  simp only [Prod.mk.sizeOf_spec, dict.sizeOf_spec] at hentries ⊢
  omega

@[elab_as_elim, induction_eliminator]
theorem induction {motive : Datum → Prop} (nothing : motive .nothing)
    (number : ∀ value, motive (.number value)) (text : ∀ value, motive (.text value))
    (boolean : ∀ value, motive (.boolean value))
    (list : ∀ elements, (∀ d ∈ elements, motive d) → motive (.list elements))
    (dict : ∀ entries, (∀ entry ∈ entries, motive entry.2) → motive (.dict entries)) :
    ∀ d, motive d
  | .nothing => nothing
  | .number value => number value
  | .text value => text value
  | .boolean value => boolean value
  | .list elements => list elements fun d _ => induction nothing number text boolean list dict d
  | .dict entries => dict entries fun entry _ => induction nothing number text boolean list dict entry.2
termination_by d => sizeOf d
decreasing_by
  · decreasing_tactic
  · exact sizeOf_entry_lt ‹_›

private theorem le_greatest {depths : List Nat} {n : Nat} (h : n ∈ depths) : n ≤ depths.foldr max 0 := by
  induction depths with
  | nil => cases h
  | cons first rest ih =>
    rw [List.foldr_cons]
    rcases List.mem_cons.mp h with rfl | h
    · exact Nat.le_max_left _ _
    · exact Nat.le_trans (ih h) (Nat.le_max_right _ _)

def depth : Datum → Nat
  | list elements => (elements.map depth).foldr max 0 + 1
  | dict entries => (entries.map fun entry => depth entry.2).foldr max 0 + 1
  | _ => 0
termination_by d => sizeOf d
decreasing_by
  · decreasing_tactic
  · exact sizeOf_entry_lt ‹_›

theorem depth_lt_of_mem {elements : List Datum} {d : Datum} (h : d ∈ elements) : d.depth < (list elements).depth := by
  rw [depth]
  exact Nat.lt_succ_of_le (le_greatest (List.mem_map.mpr ⟨d, h, rfl⟩))

theorem depth_lt_of_entry {entries : List (String × Datum)}
    (h : entry ∈ entries) : entry.2.depth < (dict entries).depth := by
  rw [depth]
  exact Nat.lt_succ_of_le (le_greatest (List.mem_map.mpr ⟨entry, h, rfl⟩))

/-- The numbers in a datum satisfy `N`, the texts `T`, and the keys of each dictionary `K`. -/
inductive All (N : Float → Prop) (T : String → Prop) (K : List String → Prop) : Datum → Prop
  | nothing : All N T K .nothing
  | number {value} (h : N value) : All N T K (.number value)
  | text {value} (h : T value) : All N T K (.text value)
  | boolean (value) : All N T K (.boolean value)
  | list {elements} (parts : ∀ d ∈ elements, All N T K d) : All N T K (.list elements)
  | dict {entries} (keys : K (entries.map (·.1))) (parts : ∀ entry ∈ entries, All N T K entry.2) :
      All N T K (.dict entries)

section All

variable {N N' : Float → Prop} {T T' : String → Prop} {K K' : List String → Prop} {d : Datum}

theorem All.of_list {elements : List Datum} (h : (Datum.list elements).All N T K) : ∀ d ∈ elements, d.All N T K := by
  cases h with
  | list parts => exact parts

theorem All.of_dict {entries : List (String × Datum)} (h : (Datum.dict entries).All N T K) :
    K (entries.map (·.1)) ∧ ∀ entry ∈ entries, entry.2.All N T K := by
  cases h with
  | dict keys parts => exact ⟨keys, parts⟩

theorem All.imp (h : d.All N T K) (hN : ∀ x, N x → N' x) (hT : ∀ t, T t → T' t) (hK : ∀ keys, K keys → K' keys) :
    d.All N' T' K' := by
  induction h with
  | nothing => exact .nothing
  | number h => exact .number (hN _ h)
  | text h => exact .text (hT _ h)
  | boolean value => exact .boolean value
  | list _ ih => exact .list ih
  | dict keys _ ih => exact .dict (hK _ keys) ih

end All

abbrev Distinct : Datum → Prop := All (fun _ => True) (fun _ => True) List.Nodup

end Datum

/-- A value that is the datum, with what it holds in the heap. -/
inductive Value.Holds (h : Heap) : Value → Datum → Prop
  | nothing : Holds h .nothing .nothing
  | number (value) : Holds h (.number value) (.number value)
  | text (value) : Holds h (.text value) (.text value)
  | boolean (value) : Holds h (.boolean value) (.boolean value)
  | list {id elements data} (stored : h.lists[id.index]? = some elements)
      (parts : List.Forall₂ (Holds h) elements.toList data) : Holds h (.list id) (.list data)
  | dict {id entries data} (stored : h.dicts[id.index]? = some entries)
      (parts : List.Forall₂ (EntryAlike (Holds h)) entries.toList data) : Holds h (.dict id) (.dict data)

section Forall

variable {α β γ : Type} {P : α → β → Prop} {Q : γ → β → Prop} {as : List α} {bs : List β} {cs : List γ}

section

variable (h : List.Forall₂ P as bs)

include h

theorem forall₂_imp_mem {P' : α → β → Prop} (himp : ∀ a, ∀ b ∈ bs, P a b → P' a b) : List.Forall₂ P' as bs := by
  induction h with
  | nil => exact .nil
  | cons first _ ih =>
    obtain ⟨hfirst, hrest⟩ := List.forall_mem_cons.mp (fun b hb a => himp a b hb)
    exact .cons (hfirst _ first) (ih fun a b hb => hrest b hb a)

/-- What is related to the same is related in the same places. -/
theorem forall₂_comp {R : α → γ → Prop} (h' : List.Forall₂ Q cs bs) (hR : ∀ a, ∀ b ∈ bs, ∀ c, P a b → Q c b → R a c) :
    List.Forall₂ R as cs := by
  induction h generalizing cs with
  | nil =>
    cases h'
    exact .nil
  | cons first _ ih =>
    cases h' with
    | cons first' rest' =>
      refine .cons (hR _ _ List.mem_cons_self _ first first') (ih rest' fun a b hb => ?_)
      exact hR a b (List.mem_cons_of_mem _ hb)

theorem forall₂_unique {bs' : List β} (h' : List.Forall₂ P as bs')
    (hP : ∀ a, ∀ b ∈ bs, ∀ b', P a b → P a b' → b = b') : bs = bs' := by
  induction h generalizing bs' with
  | nil => exact (List.forall₂_nil_left_iff.mp h').symm
  | cons first _ ih =>
    cases h' with
    | cons first' rest' =>
      rw [hP _ _ List.mem_cons_self _ first first', ih rest' fun a b hb => ?_]
      exact hP a b (List.mem_cons_of_mem _ hb)

theorem forall₂_getElem? {i : Nat} {a : α} {b : β} (ha : as[i]? = some a) (hb : bs[i]? = some b) : P a b := by
  obtain ⟨hi, rfl⟩ := List.getElem?_eq_some_iff.mp ha
  obtain ⟨hi', rfl⟩ := List.getElem?_eq_some_iff.mp hb
  exact h.get hi hi'

theorem forall₂_exists {b : β} (hb : b ∈ bs) : ∃ a ∈ as, P a b := by
  induction h with
  | nil => cases hb
  | @cons a _ as _ first _ ih =>
    rcases List.mem_cons.mp hb with rfl | hb
    · exact ⟨a, List.mem_cons_self, first⟩
    · obtain ⟨a', ha', hab⟩ := ih hb
      exact ⟨a', List.mem_cons_of_mem _ ha', hab⟩

theorem map_eq_of_forall₂ {δ : Type} {f : α → δ} {g : β → δ} (heq : ∀ a, ∀ b ∈ bs, P a b → f a = g b) :
    as.map f = bs.map g := by
  induction h with
  | nil => rfl
  | cons first _ ih =>
    rw [List.map_cons, List.map_cons, heq _ _ List.mem_cons_self first,
      ih fun a b hb => heq a b (List.mem_cons_of_mem _ hb)]

end

variable {as : List (String × α)} {bs : List (String × β)} (h : List.Forall₂ (EntryAlike P) as bs)

include h

theorem forall₂_entries_imp {P' : α → β → Prop} (himp : ∀ a, ∀ b ∈ bs, P a b.2 → P' a b.2) :
    List.Forall₂ (EntryAlike P') as bs := by
  refine forall₂_imp_mem h ?_
  rintro _ _ hb ⟨key, hab⟩
  exact .mk key (himp _ _ hb hab)

theorem keys_of_forall₂ : as.map (·.1) = bs.map (·.1) := by
  refine map_eq_of_forall₂ h ?_
  rintro _ _ - ⟨_, _⟩
  rfl

end Forall

/-- Dictionaries with related entries in the same order give related values. -/
theorem Dict.get?_of_forall₂ {α β : Type} {P : α → β → Prop} {d : Dict α} {e : Dict β}
    (h : List.Forall₂ (EntryAlike P) d.toList e.toList) (key : String) : Option.Rel P (d.get? key) (e.get? key) := by
  cases hd : d.get? key with
  | none =>
    cases he : e.get? key with
    | none => exact .none
    | some b =>
      obtain ⟨_, hmem, ⟨_, -⟩⟩ := forall₂_exists h (e.get?_eq_some.mp he)
      cases hd.symm.trans (d.get?_eq_some.mpr hmem)
  | some a =>
    obtain ⟨_, hmem, ⟨_, hab⟩⟩ := forall₂_exists h.flip (d.get?_eq_some.mp hd)
    rw [e.get?_eq_some.mpr hmem]
    exact .some hab

/-- A heap that holds all of another one, and maybe more. -/
structure Heap.Extends (h h' : Heap) : Prop where
  lists {i : Nat} {elements : Array Value} : h.lists[i]? = some elements → h'.lists[i]? = some elements
  dicts {i : Nat} {entries : Dict Value} : h.dicts[i]? = some entries → h'.dicts[i]? = some entries

namespace Heap.Extends

variable {h h' h'' : Heap}

theorem refl (h : Heap) : Extends h h := ⟨id, id⟩

theorem trans (first : Extends h h') (second : Extends h' h'') : Extends h h'' :=
  ⟨fun he => second.lists (first.lists he), fun he => second.dicts (first.dicts he)⟩

theorem addList (h : Heap) (elements : Array Value) : Extends h (h.addList elements).2 := by
  refine ⟨fun he => ?_, id⟩
  obtain ⟨hlt, rfl⟩ := Array.getElem?_eq_some_iff.mp he
  exact Array.getElem?_push_lt hlt

theorem addDict (h : Heap) (entries : Dict Value) : Extends h (h.addDict entries).2 := by
  refine ⟨id, fun he => ?_⟩
  obtain ⟨hlt, rfl⟩ := Array.getElem?_eq_some_iff.mp he
  exact Array.getElem?_push_lt hlt

end Heap.Extends

namespace Value.Holds

variable {h h' : Heap} {v w : Value} {d e : Datum}

/-- What a value holds is not touched by what is new. -/
theorem mono (hv : Holds h v d) (hext : h.Extends h') : Holds h' v d := by
  induction d generalizing v with
  | list data ih =>
    cases hv with
    | list stored parts =>
      exact .list (hext.lists stored) (forall₂_imp_mem parts fun _ d hd hv => ih d hd hv)
  | dict data ih =>
    cases hv with
    | dict stored parts =>
      exact .dict (hext.dicts stored) (forall₂_entries_imp parts fun _ entry he hv => ih entry he hv)
  | _ =>
    cases hv
    constructor

/-- A value holds one datum only. -/
theorem unique (hv : Holds h v d) (hv' : Holds h v e) : d = e := by
  induction d generalizing v e with
  | list data ih =>
    cases hv with
    | list stored parts =>
      cases hv' with
      | list stored' parts' =>
        cases stored.symm.trans stored'
        rw [forall₂_unique parts parts' fun _ d hd _ hv hv' => ih d hd hv hv']
  | dict data ih =>
    cases hv with
    | dict stored parts =>
      cases hv' with
      | dict stored' parts' =>
        cases stored.symm.trans stored'
        rw [forall₂_unique parts parts' ?_]
        rintro _ _ hentry _ ⟨key, hv⟩ ⟨_, hv'⟩
        exact congrArg _ (ih _ hentry hv hv')
  | _ =>
    cases hv
    cases hv'
    rfl

theorem distinct (hv : Holds h v d) : d.Distinct := by
  induction d generalizing v with
  | nothing => exact .nothing
  | number => exact .number trivial
  | text => exact .text trivial
  | boolean value => exact .boolean value
  | list data ih =>
    cases hv with
    | list stored parts =>
      refine .list fun d hd => ?_
      obtain ⟨v, -, hv⟩ := forall₂_exists parts hd
      exact ih d hd hv
  | dict data ih =>
    cases hv with
    | @dict id entries _ stored parts =>
      refine .dict (keys_of_forall₂ parts ▸ entries.keys_nodup) fun entry hentry => ?_
      obtain ⟨_, -, ⟨_, hv⟩⟩ := forall₂_exists parts hentry
      exact ih _ hentry hv

theorem list_eq {id : ListId} {elements : Array Value} (stored : h.lists[id.index]? = some elements) :
    h.list id = elements := by
  rw [Heap.list, Array.getD_eq_getD_getElem?, stored, Option.getD_some]

theorem dict_eq {id : DictId} {entries : Dict Value} (stored : h.dicts[id.index]? = some entries) :
    h.dict id = entries := by
  rw [Heap.dict, Array.getD_eq_getD_getElem?, stored, Option.getD_some]

private theorem bisimilar_leaf (hv : v.isNaN = false) (hleaf : ∀ step, v.part? h step = none) : Bisimilar h v v := by
  refine .of_parts (.refl hv) fun step x y hx => ?_
  rw [hleaf] at hx
  cases hx

variable (hv : Holds h v d) (hw : Holds h w d) (hd : d.All (fun x => x.isNaN = false) (fun _ => True) (fun _ => True))

include hv hw hd

/-- Values that hold the same are bisimilar, unless it has a number that is not equal to itself. -/
theorem bisimilar : Bisimilar h v w := by
  induction d generalizing v w with
  | list data ih =>
    cases hv with
    | @list id elements _ stored parts =>
      cases hw with
      | @list id' elements' _ stored' parts' =>
        cases hd with
        | list hd =>
          have hparts : List.Forall₂ (Bisimilar h) elements.toList elements'.toList :=
            forall₂_comp parts parts' fun _ d hmem _ hv hw => ih d hmem hv hw (hd d hmem)
          rw [bisimilar_list, list_eq stored, list_eq stored']
          refine ⟨hparts.length_eq, fun k x y hx hy => ?_⟩
          rw [← Array.getElem?_toList] at hx hy
          exact forall₂_getElem? hparts hx hy
  | dict data ih =>
    cases hv with
    | @dict id entries _ stored parts =>
      cases hw with
      | @dict id' entries' _ stored' parts' =>
        cases hd with
        | dict _ hd =>
          have hparts : List.Forall₂ (EntryAlike (Bisimilar h)) entries.toList entries'.toList := by
            refine forall₂_comp parts parts' ?_
            rintro _ _ hmem _ ⟨key, hv⟩ ⟨_, hw⟩
            exact .mk key (ih _ hmem hv hw (hd _ hmem))
          rw [bisimilar_dict, dict_eq stored, dict_eq stored']
          exact Dict.get?_of_forall₂ hparts
  | number x =>
    cases hv
    cases hw
    cases hd with
    | number hx => exact bisimilar_leaf hx fun _ => rfl
  | _ =>
    cases hv
    cases hw
    exact bisimilar_leaf rfl fun _ => rfl

/-- Values that hold the same are equal, unless it has a number that is not equal to itself. -/
theorem equal : v.equal h w = true := by
  obtain ⟨r, hr⟩ : ∃ r, compare? h (h.pairs.length + 1) [] v w = some r :=
    exists_compare? List.nodup_nil (List.nil_subset _) (Nat.lt_succ_self _)
  rw [Value.equal, ← h.length_pairs, equalUpTo_of_compare? hr]
  exact compare?_of_bisimilar (hv.bisimilar hw hd) hr

end Value.Holds

end ScriptLang
