import ScriptLang.Proofs.Eval.Operator
import ScriptLang.Proofs.Limit.Action

/-! Slices of lists and texts, and how they are put together again. -/
namespace ScriptLang

/-- What a list or a text consists of: the elements, or the characters as texts of their own. -/
def Value.sequence? (h : Heap) : Value → Option (List Value)
  | .list id => some (h.list id).toList
  | .text characters => some (characters.toList.map fun c => .text c.toString)
  | _ => none

/-- The position that a bound of a slice stands for. One that is left out stands for `missing`, and one below zero
counts from the end. -/
def IsBound (bound : Option Value) (missing length : Nat) (position : Int) : Prop :=
  match bound with
  | none => position = missing
  | some key => ∃ index, key.toIndex = .ok index ∧ position = if index < 0 then length + index else index

/-- A value of the same kind as `s`, new if it is a list, that consists of `part`. -/
structure Heap.Cuts (h : Heap) (s : Value) (part : List Value) (v : Value) (h' : Heap) : Prop where
  sequence : v.sequence? h' = some part
  kind : v.typeName = s.typeName
  has : h'.Has v
  fresh {id : ListId} : v = .list id → h.lists.size ≤ id.index
  kept : h.Extends h'

namespace Heap.Cuts

variable {h : Heap} {part : List Value}

theorem newList {id : ListId} {elements : Array Value} (hpart : elements.toList = part) :
    h.Cuts (.list id) part (.list ⟨h.lists.size⟩) (h.addList elements).2 where
  sequence := by rw [Value.sequence?, h.list_addList_self, hpart]
  kind := rfl
  has := by simp [Heap.Has, Heap.addList]
  fresh := by
    rintro _ ⟨⟩
    exact Nat.le_refl _
  kept := .addList h elements

theorem text {whole characters : String} (hpart : characters.toList.map (fun c => Value.text c.toString) = part) :
    h.Cuts (.text whole) part (.text characters) h where
  sequence := congrArg some hpart
  kind := rfl
  has := trivial
  fresh := nofun
  kept := .refl h

end Heap.Cuts

section Bounds

variable {start stop : Option Value} {length : Nat} {a b : Int}

theorem sliceBound_of_isBound {bound : Option Value} {missing : Nat} {position : Int}
    (h : IsBound bound missing length position) : sliceBound bound missing length = .ok position := by
  cases bound with
  | none => exact congrArg Except.ok h.symm
  | some key =>
    obtain ⟨index, hkey, rfl⟩ := h
    rw [sliceBound, hkey]
    rfl

theorem sliceBounds_of_isBound (hstart : IsBound start 0 length a) (hstop : IsBound stop length length b) :
    sliceBounds start stop length =
      if a < 0 ∨ length < b ∨ b < a then .error (.illegalSliceBounds a b length)
      else .ok (a.toNat, b.toNat) := by
  have hlower : sliceBound start 0 length = .ok a := sliceBound_of_isBound hstart
  rw [sliceBounds, hlower, sliceBound_of_isBound hstop]
  change (if _ then _ else _ : Except EvalCause (Nat × Nat)) = _
  split <;> rfl

end Bounds

namespace Value

variable {h h' : Heap} {s : Value} {xs : List Value}

/-- How much of the limit for lengths a sequence takes: as many elements as a list has, or as many bytes as a
text has. -/
def extent (h : Heap) : Value → Nat
  | .list id => (h.list id).size
  | .text characters => characters.utf8ByteSize
  | _ => 0

/-- What is new does not change what a sequence consists of, nor how long it is. -/
theorem unchanged_of_extends (hext : h.Extends h') (hs : h.Has s) :
    s.sequence? h' = s.sequence? h ∧ s.extent h' = s.extent h := by
  cases s with
  | list id =>
    have hold := Array.getElem?_eq_getElem hs
    have hlist : h'.list id = h.list id := by
      rw [Heap.list, Heap.list, Array.getD_eq_getD_getElem?, Array.getD_eq_getD_getElem?, hold, hext.lists hold]
    rw [sequence?, sequence?, extent, extent, hlist]
    exact ⟨rfl, rfl⟩
  | _ => exact ⟨rfl, rfl⟩

/-- The operator that puts two sequences in a row. -/
def joinOp : Value → BinaryOp
  | .text _ => .add
  | _ => .multiply

theorem text_injective : Function.Injective fun c : Char => Value.text c.toString := by
  intro c d hcd
  have hsingle : String.singleton c = String.singleton d := Value.text.inj hcd
  simpa using congrArg String.toList hsingle

theorem eq_list {v : Value} (hv : v.typeName = "list") : ∃ id, v = .list id := by
  cases v with
  | list id => exact ⟨id, rfl⟩
  | _ => exact absurd hv (by simp [typeName])

theorem eq_text {v : Value} (hv : v.typeName = "string") : ∃ characters, v = .text characters := by
  cases v with
  | text characters => exact ⟨characters, rfl⟩
  | _ => exact absurd hv (by simp [typeName])

end Value

namespace Action

variable {h : Heap} {s : Value} {xs : List Value} {start stop : Option Value}

theorem readSlice_of_error (hs : s.sequence? h = some xs) {cause : EvalCause}
    (hbounds : sliceBounds start stop xs.length = .error cause) : readSlice s start stop h = .error cause h := by
  cases s with
  | list id =>
    cases hs
    change ((liftExcept (sliceBounds start stop (h.list id).size) : Action (Nat × Nat)) >>= _) h = _
    rw [← Array.length_toList, hbounds]
    rfl
  | text text =>
    cases hs
    rw [List.length_map, String.length_toList] at hbounds
    change ((liftExcept (sliceBounds start stop text.length) : Action (Nat × Nat)) >>= _) h = _
    rw [hbounds]
    rfl
  | _ => cases hs

theorem readSlice_inside {a b : Int} (hs : s.sequence? h = some xs) (hstart : IsBound start 0 xs.length a)
    (hstop : IsBound stop xs.length xs.length b) (hin : 0 ≤ a ∧ a ≤ b ∧ b ≤ xs.length) :
    ∃ v h', readSlice s start stop h = .ok v h' ∧ h.Cuts s (xs.extract a.toNat b.toNat) v h' := by
  have hbounds := sliceBounds_of_isBound hstart hstop
  rw [if_neg (by omega)] at hbounds
  cases s with
  | list id =>
    cases hs
    refine ⟨.list ⟨h.lists.size⟩, (h.addList ((h.list id).extract a.toNat b.toNat)).2, ?_, ?_⟩
    · change ((liftExcept (sliceBounds start stop (h.list id).size) : Action (Nat × Nat)) >>= _) h = _
      rw [← Array.length_toList, hbounds]
      rfl
    · exact .newList Array.toList_extract
  | text text =>
    cases hs
    rw [List.length_map, String.length_toList] at hbounds
    refine ⟨.text (String.ofList ((text.toList.drop a.toNat).take (b.toNat - a.toNat))), h, ?_, ?_⟩
    · change ((liftExcept (sliceBounds start stop text.length) : Action (Nat × Nat)) >>= _) h = _
      rw [hbounds]
      rfl
    · exact .text (by simp [List.map_take, List.map_drop])
  | _ => cases hs

theorem checkLength_bind_ok {α : Type} {f : Unit → Action α} {kind : String} {length : Nat}
    (hlength : length ≤ maxLength) : (checkLength kind length >>= f) h = f () h := by
  unfold checkLength
  rw [if_neg (Nat.not_lt.mpr hlength)]
  rfl

/-- Two parts of a sequence are put in a row, unless that is too long. -/
theorem join_parts {u v : Value} {p q : List Value} (hu : u.sequence? h = some p) (hv : v.sequence? h = some q)
    (hs : s.sequence? h = some (p ++ q)) (hukind : u.typeName = s.typeName) (hvkind : v.typeName = s.typeName) :
    (s.extent h ≤ maxLength → ∃ w h', binary s.joinOp u v h = .ok w h' ∧ h.Cuts s (p ++ q) w h') ∧
    (maxLength < s.extent h → binary s.joinOp u v h = .error (.tooLarge s.typeName) h) := by
  cases s with
  | list id =>
    obtain ⟨a, rfl⟩ := Value.eq_list hukind
    obtain ⟨b, rfl⟩ := Value.eq_list hvkind
    cases hu
    cases hv
    have hextent : Value.extent h (.list id) = (h.list a).size + (h.list b).size := by
      have hlength := congrArg List.length (Option.some.inj hs)
      rwa [List.length_append] at hlength
    rw [hextent]
    refine ⟨fun hfits => ⟨.list ⟨h.lists.size⟩, (h.addList (h.list a ++ h.list b)).2, ?_, ?_⟩, fun hlong => ?_⟩
    · exact checkLength_bind_ok hfits
    · exact .newList (by rw [Array.toList_append])
    · exact checkLength_bind_tooLarge hlong
  | text whole =>
    obtain ⟨a, rfl⟩ := Value.eq_text hukind
    obtain ⟨b, rfl⟩ := Value.eq_text hvkind
    cases hu
    cases hv
    have hchars : whole.toList = (a ++ b).toList := by
      apply List.map_injective_iff.mpr Value.text_injective
      rw [String.toList_append, List.map_append]
      exact Option.some.inj hs
    cases String.toList_inj.mp hchars
    have hextent : Value.extent h (.text (a ++ b)) = a.utf8ByteSize + b.utf8ByteSize := String.utf8ByteSize_append
    rw [hextent]
    refine ⟨fun hfits => ⟨.text (a ++ b), h, ?_, ?_⟩, fun hlong => ?_⟩
    · exact checkLength_bind_ok hfits
    · exact .text (by rw [String.toList_append, List.map_append])
    · exact checkLength_bind_tooLarge hlong
  | _ => cases hs

end Action

theorem extract_extract {α : Type} (xs : List α) {a b c d : Nat} (hd : d ≤ b - a) :
    (xs.extract a b).extract c d = xs.extract (a + c) (a + d) := by
  simp only [List.extract]
  rw [List.drop_take, List.drop_drop, List.take_take]
  congr 1
  omega

namespace Action

variable {h : Heap} {s : Value} {xs : List Value}

/-- The parts before and behind a position make up a sequence again, unless that is too long. -/
theorem readSlice_halves (hs : s.sequence? h = some xs) (hhas : h.Has s) {key : Value} {k : Int}
    (hkey : IsBound (some key) 0 xs.length k) (hlow : 0 ≤ k) (hhigh : k ≤ xs.length) :
    ∃ u h₁ v h₂, readSlice s none (some key) h = .ok u h₁ ∧ readSlice s (some key) none h₁ = .ok v h₂ ∧
      (s.extent h ≤ maxLength → ∃ w h₃, binary s.joinOp u v h₂ = .ok w h₃ ∧ h₂.Cuts s xs w h₃) ∧
      (maxLength < s.extent h → binary s.joinOp u v h₂ = .error (.tooLarge s.typeName) h₂) := by
  have hstart : IsBound none 0 xs.length 0 := rfl
  have hmiddle : IsBound (some key) xs.length xs.length k := hkey
  have hstop : IsBound none xs.length xs.length xs.length := rfl
  obtain ⟨u, h₁, hbefore, hu⟩ := readSlice_inside hs hstart hmiddle ⟨Int.le_refl _, hlow, hhigh⟩
  have hstill := (Value.unchanged_of_extends hu.kept hhas).1.trans hs
  obtain ⟨v, h₂, hbehind, hv⟩ := readSlice_inside hstill hkey hstop ⟨hlow, hhigh, Int.le_refl _⟩
  have hparts : xs.extract (Int.toNat 0) k.toNat ++ xs.extract k.toNat (Int.toNat xs.length) = xs := by
    simp [List.extract, List.take_of_length_le]
  obtain ⟨hwhole, hextent⟩ := Value.unchanged_of_extends (hu.kept.trans hv.kept) hhas
  rw [hs, ← hparts] at hwhole
  have hjoin := join_parts ((Value.unchanged_of_extends hv.kept hu.has).1.trans hu.sequence) hv.sequence hwhole
    hu.kind hv.kind
  rw [hparts, hextent] at hjoin
  exact ⟨u, h₁, v, h₂, hbefore, hbehind, hjoin⟩

end Action

/-- A slice succeeds exactly when its bounds are in order and within the sequence, and consists of the elements
between them. A slice of a slice is a slice, and the parts before and behind a position make up the sequence
again where that is not longer than the limit. -/
theorem slices_compose {h : Heap} {s : Value} {xs : List Value} (hs : s.sequence? h = some xs) (hhas : h.Has s) :
    let n := xs.length
    (∀ start stop a b, IsBound start 0 n a → IsBound stop n n b →
      ((∃ v h', Action.readSlice s start stop h = .ok v h') ↔ 0 ≤ a ∧ a ≤ b ∧ b ≤ n) ∧
      ∀ v h', Action.readSlice s start stop h = .ok v h' →
        h.Cuts s (xs.extract a.toNat b.toNat) v h' ∧ (xs.extract a.toNat b.toNat).length = b - a ∧
        ∀ start' stop' c d, IsBound start' 0 (b - a).toNat c → IsBound stop' (b - a).toNat (b - a).toNat d →
          0 ≤ c → c ≤ d → d ≤ b - a →
          ∃ w h'', Action.readSlice v start' stop' h' = .ok w h'' ∧
            (c = 0 → d = b - a → w.sequence? h'' = v.sequence? h'') ∧
            ∀ first last, IsBound first 0 n (a + c) → IsBound last n n (a + d) →
              ∃ u h₁, Action.readSlice s first last h'' = .ok u h₁ ∧ u.sequence? h₁ = w.sequence? h₁) ∧
    ∀ key k, IsBound (some key) 0 n k → 0 ≤ k → k ≤ n →
      ∃ u h₁ v h₂, Action.readSlice s none (some key) h = .ok u h₁ ∧
        Action.readSlice s (some key) none h₁ = .ok v h₂ ∧
        (s.extent h ≤ maxLength → ∃ w h₃, Action.binary s.joinOp u v h₂ = .ok w h₃ ∧ h₂.Cuts s xs w h₃) ∧
        (maxLength < s.extent h → Action.binary s.joinOp u v h₂ = .error (.tooLarge s.typeName) h₂) := by
  intro n
  constructor
  · intro start stop a b hstart hstop
    by_cases hin : 0 ≤ a ∧ a ≤ b ∧ b ≤ n
    · obtain ⟨v, h', hread, hcuts⟩ := Action.readSlice_inside hs hstart hstop hin
      have hlength : ((xs.extract a.toNat b.toNat).length : Int) = b - a := by
        simp only [List.extract, List.length_take, List.length_drop]
        omega
      refine ⟨iff_of_true ⟨v, h', hread⟩ hin, fun v' h'' hread' => ?_⟩
      cases hread.symm.trans hread'
      refine ⟨hcuts, hlength, fun start' stop' c d hstart' hstop' hc hcd hd => ?_⟩
      have hsize : (xs.extract a.toNat b.toNat).length = (b - a).toNat := by omega
      rw [← hsize] at hstart' hstop'
      obtain ⟨w, h'', hinner, hpart⟩ :=
        Action.readSlice_inside hcuts.sequence hstart' hstop' ⟨hc, hcd, by omega⟩
      rw [extract_extract xs (by omega)] at hpart
      refine ⟨w, h'', hinner, fun hzero hwhole => ?_, fun first last hfirst hlast => ?_⟩
      · rw [hpart.sequence, (Value.unchanged_of_extends hpart.kept hcuts.has).1, hcuts.sequence,
          show a.toNat + c.toNat = a.toNat by omega, show a.toNat + d.toNat = b.toNat by omega]
      · have hstill := (Value.unchanged_of_extends (hcuts.kept.trans hpart.kept) hhas).1.trans hs
        obtain ⟨u, h₁, hdirect, hsame⟩ := Action.readSlice_inside hstill hfirst hlast (by omega)
        refine ⟨u, h₁, hdirect, ?_⟩
        rw [hsame.sequence, (Value.unchanged_of_extends hsame.kept hpart.has).1, hpart.sequence,
          show (a + c).toNat = a.toNat + c.toNat by omega, show (a + d).toNat = a.toNat + d.toNat by omega]
    · have hbounds := sliceBounds_of_isBound hstart hstop
      rw [if_pos (by omega)] at hbounds
      have hfails := Action.readSlice_of_error hs hbounds
      refine ⟨iff_of_false (fun ⟨v, h', hread⟩ => ?_) hin, fun v h' hread => ?_⟩
      · cases hfails.symm.trans hread
      · cases hfails.symm.trans hread
  · exact fun key k hkey hlow hhigh => Action.readSlice_halves hs hhas hkey hlow hhigh

/-- A text whose characters take more than one byte is cut at both ends and cut again, and it is put together from
its parts. -/
theorem slices_compose_of_text :
    let s := Value.text "naïve"
    let key (x : Float) := some (Value.number x)
    (∃ v h' w h'' u h₁, Action.readSlice s (key 1) (key (-1)) {} = .ok v h' ∧
      Action.readSlice v (key 1) none h' = .ok w h'' ∧ Action.readSlice s (key 2) (key 4) h'' = .ok u h₁ ∧
      u.sequence? h₁ = w.sequence? h₁) ∧
    ∃ u h₁ v h₂ w h₃, Action.readSlice s none (key 3) {} = .ok u h₁ ∧
      Action.readSlice s (key 3) none h₁ = .ok v h₂ ∧ Action.binary .add u v h₂ = .ok w h₃ ∧
      w.sequence? h₃ = s.sequence? {} := by
  intro s key
  obtain ⟨hslices, hhalves⟩ := slices_compose (h := {}) (s := s) rfl trivial
  constructor
  · obtain ⟨hok, hcut⟩ := hslices (key 1) (key (-1)) 1 4 ⟨1, rfl, rfl⟩ ⟨-1, rfl, by decide⟩
    obtain ⟨v, h', hv⟩ := hok.mpr (by decide)
    obtain ⟨w, h'', hw, -, hdirect⟩ := (hcut v h' hv).2.2 (key 1) none 1 3 ⟨1, rfl, rfl⟩ rfl (by decide) (by decide)
      (by decide)
    obtain ⟨u, h₁, hu, hsame⟩ := hdirect (key 2) (key 4) ⟨2, rfl, rfl⟩ ⟨4, rfl, rfl⟩
    exact ⟨v, h', w, h'', u, h₁, hv, hw, hu, hsame⟩
  · obtain ⟨u, h₁, v, h₂, hu, hv, hjoin, -⟩ := hhalves (.number 3) 3 ⟨3, rfl, rfl⟩ (by decide) (by decide)
    obtain ⟨w, h₃, hw, hcuts⟩ := hjoin (by decide)
    exact ⟨u, h₁, v, h₂, w, h₃, hu, hv, hw, hcuts.sequence⟩

/-- A text that is one byte too long cannot be put together from its parts. -/
theorem halves_beyond_limit :
    let s := Value.text (Nat.repeat (· ++ "a") maxLength "" ++ "a")
    let key := Value.number 1
    ∃ u h₁ v h₂, Action.readSlice s none (some key) {} = .ok u h₁ ∧
      Action.readSlice s (some key) none h₁ = .ok v h₂ ∧
      Action.binary .add u v h₂ = .error (.tooLarge "string") h₂ := by
  intro s key
  have hextent : s.extent {} = maxLength + 1 := by
    change (Nat.repeat (· ++ "a") maxLength "" ++ "a").utf8ByteSize = _
    rw [String.utf8ByteSize_append, Action.utf8ByteSize_repeat]
    exact congrArg (· + 1) (Nat.one_mul _)
  have hlength (text : String) :
      (1 : Int) ≤ ((text ++ "a").toList.map fun c => Value.text c.toString).length := by simp
  have hkey (length : Nat) : IsBound (some key) 0 length 1 := ⟨1, rfl, rfl⟩
  obtain ⟨u, h₁, v, h₂, hu, hv, -, hlong⟩ := Action.readSlice_halves (h := {}) (s := s) rfl trivial
    (hkey _) (by decide) (hlength _)
  exact ⟨u, h₁, v, h₂, hu, hv, hlong (hextent ▸ Nat.lt_succ_self _)⟩

end ScriptLang
