import ScriptLang.Proofs.Data.Basic

/-! The text of data. Main statement: a value is shown as the datum that it holds. -/
namespace ScriptLang

/-- The text of a datum inside of a collection. -/
def Datum.shown : Datum → String
  | nothing => "none"
  | number value => Number.text value
  | text value => Text.quote value
  | boolean value => if value then "true" else "false"
  | list elements => Value.listText (elements.map shown)
  | dict entries => Value.dictText (entries.map fun entry => (entry.1, shown entry.2))
termination_by d => sizeOf d
decreasing_by
  · decreasing_tactic
  · exact sizeOf_entry_lt ‹_›

namespace Value

variable {h : Heap} {v : Value} {d : Datum} {around : List Handle} {n : Nat}

def handle? : Value → Option Handle
  | list id => some (.list id)
  | dict id => some (.dict id)
  | _ => none

/-- The collections `around` are nested deeper than `n`. -/
def Deeper (h : Heap) (around : List Handle) (n : Nat) : Prop :=
  ∀ v e, ∀ handle ∈ v.handle?, handle ∈ around → Holds h v e → n < e.depth

/-- Inside of a collection, nothing is nested as deep as it. -/
theorem Deeper.cons {handle : Handle} (hhandle : v.handle? = some handle) (hv : Holds h v d)
    (hd : Deeper h around d.depth) (hn : n < d.depth) : Deeper h (handle :: around) n := by
  intro w e other hother hmem he
  rcases List.mem_cons.mp hmem with rfl | hmem
  · obtain rfl : v = w := by cases v <;> cases w <;> cases hhandle <;> cases hother <;> rfl
    exact hv.unique he ▸ hn
  · exact Nat.lt_trans hn (hd w e other hother hmem he)

/-- A value in collections is shown as the datum that it holds, as far as there is room for it. -/
theorem elementText_eq {room : Nat} (hv : Holds h v d) (hroom : d.depth ≤ room)
    (haround : Deeper h around d.depth) : v.elementText (nestedText h room around) = d.shown := by
  induction d generalizing v room around with
  | list data ih =>
    cases hv with
    | @list id elements _ stored parts =>
      have hmem : Handle.list id ∉ around :=
        fun hmem => Nat.lt_irrefl _ (haround _ _ _ rfl hmem (.list stored parts))
      cases room with
      | zero => exact absurd hroom (by simp [Datum.depth])
      | succ room =>
        rw [elementText_of_ne (v := .list id) _ (by simp), nestedText, if_neg (by simpa using hmem), Datum.shown,
          Holds.list_eq stored]
        refine congrArg listText (map_eq_of_forall₂ parts fun v d hd hv => ?_)
        have hdepth := Datum.depth_lt_of_mem hd
        exact ih d hd hv (Nat.le_of_lt_succ (Nat.lt_of_lt_of_le hdepth hroom))
          (.cons rfl (.list stored parts) haround hdepth)
  | dict data ih =>
    cases hv with
    | @dict id entries _ stored parts =>
      have hmem : Handle.dict id ∉ around :=
        fun hmem => Nat.lt_irrefl _ (haround _ _ _ rfl hmem (.dict stored parts))
      cases room with
      | zero => exact absurd hroom (by simp [Datum.depth])
      | succ room =>
        rw [elementText_of_ne (v := .dict id) _ (by simp), nestedText, if_neg (by simpa using hmem), Datum.shown,
          Holds.dict_eq stored]
        refine congrArg dictText (map_eq_of_forall₂ parts ?_)
        rintro _ _ hd ⟨key, hv⟩
        have hdepth := Datum.depth_lt_of_entry hd
        exact congrArg (key, ·) (ih _ hd hv (Nat.le_of_lt_succ (Nat.lt_of_lt_of_le hdepth hroom))
          (.cons rfl (.dict stored parts) haround hdepth))
  | text =>
    cases hv
    rw [Datum.shown]
    rfl
  | nothing | number | boolean =>
    cases hv
    cases room <;> rw [Datum.shown] <;> rfl

/-- A value that is not a text is shown as the datum that it holds. -/
theorem toText_eq (hv : Holds h v d) (hdepth : d.depth ≤ maxShownDepth)
    (hplain : ∀ value, v ≠ .text value) : v.toText h = d.shown :=
  (elementText_of_ne _ hplain).symm.trans (elementText_eq hv hdepth fun _ _ _ _ h => absurd h List.not_mem_nil)

end Value

end ScriptLang
