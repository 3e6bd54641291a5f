import Mathlib
import ScriptLang.Number.Shortest

/-! The text of numbers. Main statements: a finite number is its magnitude with its sign, its text is that
of its magnitude behind the sign, and the text of a magnitude is digits with a point at most. -/
namespace ScriptLang.Number

open Float.Model (UnpackedFloat)
open Float.Model.UnpackedFloat

section Bits

variable (s t : Sign) {exponent : BitVec 11} (mantissa : BitVec 52)

private abbrev bitsOf (s : Sign) (exponent : BitVec 11) (mantissa : BitVec 52) : BitVec 64 :=
  packComponents .binary64 s exponent mantissa

private theorem exists_bitsOf (b : BitVec 64) : ∃ s exponent mantissa, b = bitsOf s exponent mantissa := by
  have hpacked := @packComponents_unpackSign_unpackExponent_unpackMantissa .binary64 b
  exact ⟨_, _, _, hpacked.symm⟩

private theorem toNat_bitsOf : (bitsOf s exponent mantissa).toNat =
    (s.toBitVec.toNat * 2 ^ 11 + exponent.toNat) * 2 ^ 52 + mantissa.toNat := by
  have hexponent : exponent.toNat < 2 ^ 11 := exponent.isLt
  have hmantissa : mantissa.toNat < 2 ^ 52 := mantissa.isLt
  change (s.toBitVec ++ exponent ++ mantissa).toNat = _
  rw [BitVec.toNat_append, BitVec.toNat_append, ← Nat.shiftLeft_add_eq_or_of_lt hmantissa,
    ← Nat.shiftLeft_add_eq_or_of_lt hexponent, Nat.shiftLeft_eq, Nat.shiftLeft_eq]

private def withSign : UnpackedFloat → UnpackedFloat
  | .zero _ => .zero t
  | .finite _ m e hm => .finite t m e hm
  | other => other

private theorem pack_normal {m : Nat} {e : Int} (hm : 0 < m) (he : (e + 1075).toNat < 2047) (hlog : m.log2 = 52) :
    pack .binary64 (.finite t m e hm) = bitsOf t (BitVec.ofNat 11 (e + 1075).toNat) (BitVec.ofNat 52 m) := by
  have hbiased : (e + (Float.Model.Format.binary64.exponentBias : Nat) + (52 : Nat)).toNat =
      (e + 1075).toNat := by
    change (e + 1023 + 52).toNat = _
    omega
  have hsmall : ¬2 ^ Float.Model.Format.binary64.exponentBits ≤ (e + 1075).toNat + 1 := by
    change ¬2 ^ 11 ≤ _
    omega
  rw [pack, hbiased, if_neg hsmall, hlog, if_pos (by decide)]

private theorem pack_subnormal {m : Nat} (hm : 0 < m) (hlog : m.log2 < 52) :
    pack .binary64 (.finite t m (-1074) hm) = bitsOf t 0 (BitVec.ofNat 52 m) := by
  have hfew : m.log2 + 1 ≠ Float.Model.Format.binary64.mantissaBits := by
    change _ ≠ 53
    omega
  rw [pack, if_neg (by decide), if_neg hfew]
  rfl

private theorem pack_withSign (h : exponent ≠ -1#11) :
    pack .binary64 (withSign t (unpack .binary64 (bitsOf s exponent mantissa))) = bitsOf t exponent mantissa := by
  have hmantissa : mantissa.toNat < 2 ^ 52 := mantissa.isLt
  have hexponent : exponent.toNat < 2047 := by
    have hne : exponent.toNat ≠ (-1#11).toNat := fun heq => h (BitVec.eq_of_toNat_eq heq)
    have hlt : exponent.toNat < 2 ^ 11 := exponent.isLt
    simp at hne
    omega
  unfold unpack
  simp only [unpackExponent_packComponents, unpackMantissa_packComponents, if_neg h]
  split
  next hzero =>
    subst hzero
    split
    next hnone =>
      subst hnone
      rfl
    next hsome =>
      have hne : mantissa.toNat ≠ 0 := fun heq => hsome (BitVec.eq_of_toNat_eq heq)
      refine (pack_subnormal t (Nat.pos_of_ne_zero hne) ((Nat.log2_lt hne).mpr hmantissa)).trans ?_
      rw [BitVec.ofNat_toNat, BitVec.setWidth_eq]
      rfl
  next =>
    have hvalue : (1#1 ++ mantissa).toNat = 2 ^ 52 + mantissa.toNat := by
      rw [BitVec.toNat_append, ← Nat.shiftLeft_add_eq_or_of_lt hmantissa]
      rfl
    have hlog : (1#1 ++ mantissa).toNat.log2 = 52 := by
      rw [hvalue, Nat.log2_eq_iff (by omega)]
      omega
    have hbiased : ((exponent.toNat : Int) - ((Float.Model.Format.binary64.exponentBias : Nat) +
        (52 : Nat)) + 1075).toNat = exponent.toNat := by
      change ((exponent.toNat : Int) - (1023 + 52) + 1075).toNat = _
      omega
    refine (pack_normal t _ (by rw [hbiased]; exact hexponent) hlog).trans ?_
    rw [hvalue]
    congr 1
    · exact (congrArg _ hbiased).trans (by simp)
    · rw [BitVec.ofNat_add]
      simp

/-- What the bits of a finite number stand for. -/
private theorem unpack_cases (h : exponent ≠ -1#11) {P : UnpackedFloat → Prop} (zero : P (.zero s))
    (finite : ∀ m e hm, P (.finite s m e hm)) : P (unpack .binary64 (bitsOf s exponent mantissa)) := by
  unfold unpack
  simp only [unpackExponent_packComponents, unpackMantissa_packComponents, unpackSign_packComponents,
    Sign.ofBitVec_toBitVec, if_neg h]
  split
  · split
    · exact zero
    · exact finite _ _ _
  · exact finite _ _ _

end Bits

section Float

variable {x : Float} {s : Sign} {exponent : BitVec 11} {mantissa : BitVec 52}

section

variable (hx : x.toBits.toBitVec = bitsOf s exponent mantissa)

include hx

private theorem ne_of_isFinite (hfinite : x.isFinite = true) : exponent ≠ -1#11 := by
  rintro rfl
  change (unpack .binary64 x.toBits.toBitVec).isFinite = true at hfinite
  rw [hx] at hfinite
  unfold unpack at hfinite
  simp only [unpackExponent_packComponents, if_true] at hfinite
  split at hfinite <;> cases hfinite

private theorem bits_abs (h : exponent ≠ -1#11) : x.abs.toBits.toBitVec = bitsOf .positive exponent mantissa := by
  change pack .binary64 (unpack .binary64 x.toBits.toBitVec).abs = _
  rw [hx, ← pack_withSign s .positive mantissa h]
  congr 1
  exact unpack_cases s mantissa h (P := fun u => u.abs = withSign .positive u) rfl fun _ _ _ => rfl

private theorem bits_neg (h : exponent ≠ -1#11) : (-x).toBits.toBitVec = bitsOf (-s) exponent mantissa := by
  change pack .binary64 (unpack .binary64 x.toBits.toBitVec).neg = _
  rw [hx, ← pack_withSign s (-s) mantissa h]
  congr 1
  exact unpack_cases s mantissa h (P := fun u => u.neg = withSign (-s) u) rfl fun _ _ _ => rfl

end

private def formOf (exponent : BitVec 11) (mantissa : BitVec 52) : BinaryForm :=
  if exponent.toNat = 0 then ⟨false, mantissa.toNat, -1074⟩
  else ⟨false, mantissa.toNat + Nat.pow 2 52, (exponent.toNat : Int) - 1075⟩

private theorem ofFloat?_of_bits (hx : x.toBits.toBitVec = bitsOf s exponent mantissa) (h : exponent ≠ -1#11) :
    BinaryForm.ofFloat? x = some { formOf exponent mantissa with negative := s.toBitVec = 1#1 } := by
  have hbits : x.toBits.toNat =
      (s.toBitVec.toNat * 2 ^ 11 + exponent.toNat) * 2 ^ 52 + mantissa.toNat := by
    rw [← toNat_bitsOf, ← hx]
    rfl
  have hmantissa : mantissa.toNat < 2 ^ 52 := mantissa.isLt
  have hexponent : exponent.toNat < 2 ^ 11 := exponent.isLt
  have hsign : s.toBitVec.toNat < 2 := s.toBitVec.isLt
  have hnot : exponent.toNat ≠ 2047 := fun heq => h (BitVec.eq_of_toNat_eq heq)
  have hnegative : Nat.pow 2 63 ≤ x.toBits.toNat ↔ s.toBitVec = 1#1 := by
    rw [← BitVec.toNat_inj, hbits]
    change 2 ^ 63 ≤ _ ↔ _ = 1
    omega
  have hbiased : x.toBits.toNat / Nat.pow 2 52 % Nat.pow 2 11 = exponent.toNat := by
    rw [hbits]
    change _ / 2 ^ 52 % 2 ^ 11 = _
    omega
  have hfraction : x.toBits.toNat % Nat.pow 2 52 = mantissa.toNat := by
    rw [hbits]
    change _ % 2 ^ 52 = _
    omega
  simp only [BinaryForm.ofFloat?, hbiased, hfraction, if_neg hnot, formOf, hnegative]
  split <;> rfl

end Float

theorem isNaN_of_isFinite {x : Float} (h : x.isFinite = true) : x.isNaN = false := by
  change x.toModel.unpack.isNaN = false
  change x.toModel.unpack.isFinite = true at h
  cases hx : x.toModel.unpack with
  | notANumber =>
    rw [hx] at h
    cases h
  | _ => rfl

def isNegative (x : Float) : Bool := (BinaryForm.ofFloat? x).any (·.negative)

section

variable {x : Float} (h : x.isFinite = true)

include h

/-- A finite number and its magnitude differ in the sign only. -/
private theorem exists_forms : ∃ b : BinaryForm, BinaryForm.ofFloat? x = some { b with negative := isNegative x } ∧
      BinaryForm.ofFloat? x.abs = some { b with negative := false } := by
  obtain ⟨s, exponent, mantissa, hx⟩ := exists_bitsOf x.toBits.toBitVec
  have hexponent := ne_of_isFinite hx h
  have hform := ofFloat?_of_bits hx hexponent
  have hsign : isNegative x = decide (s.toBitVec = 1#1) := by
    rw [isNegative, hform]
    rfl
  refine ⟨formOf exponent mantissa, hsign ▸ hform, ?_⟩
  exact ofFloat?_of_bits (bits_abs hx hexponent) hexponent

/-- A finite number is its magnitude, with its sign. -/
theorem eq_signed_abs : (if isNegative x then -x.abs else x.abs) = x := by
  obtain ⟨s, exponent, mantissa, hx⟩ := exists_bitsOf x.toBits.toBitVec
  have hexponent := ne_of_isFinite hx h
  have habs := bits_abs hx hexponent
  have hsign : isNegative x = decide (s.toBitVec = 1#1) := by
    rw [isNegative, ofFloat?_of_bits hx hexponent]
    rfl
  apply Float.toBits_inj.mp
  apply UInt64.toBitVec_inj.mp
  rw [hx, hsign]
  cases s with
  | positive =>
    rw [if_neg (by decide)]
    exact habs
  | negative =>
    have hneg : -Sign.positive = Sign.negative := rfl
    rw [if_pos (by decide), bits_neg habs hexponent, hneg]

/-- The text of a finite number is that of its magnitude, behind its sign. -/
theorem text_eq_signed : text x = (if isNegative x then "-" else "") ++ text x.abs := by
  obtain ⟨b, hx, habs⟩ := exists_forms h
  have hdecimal : shortestDecimal { b with negative := isNegative x } =
      shortestDecimal { b with negative := false } := rfl
  unfold text
  rw [hx, habs]
  dsimp only
  rw [hdecimal]
  cases isNegative x with
  | false => exact (String.empty_append ..).symm
  | true =>
    rw [if_pos rfl, if_pos rfl, if_neg Bool.false_ne_true]
    exact String.ofList_cons

end

def IsDigits (cs : List Char) : Prop := cs ≠ [] ∧ ∀ c ∈ cs, c.isDigit = true

inductive IsNumeral : List Char → Prop
  | whole {digits} (h : IsDigits digits) : IsNumeral digits
  | decimal {before after} (hbefore : IsDigits before) (hafter : IsDigits after) :
      IsNumeral (before ++ '.' :: after)

private theorem isDigits_take_drop {digits : List Char} (h : ∀ c ∈ digits, c.isDigit = true) {n : Nat}
    (hpos : 0 < n) (hlt : n < digits.length) : IsDigits (digits.take n) ∧ IsDigits (digits.drop n) := by
  refine ⟨⟨?_, fun c hc => h c (List.mem_of_mem_take hc)⟩, ?_, fun c hc => h c (List.mem_of_mem_drop hc)⟩
  · rw [← List.length_pos_iff, List.length_take]
    omega
  · rw [← List.length_pos_iff, List.length_drop]
    omega

theorem Decimal.digits_numeral (d : Decimal) : IsNumeral d.digits := by
  have hcoefficient : ∀ c ∈ Nat.toDigits 10 d.coefficient, c.isDigit = true :=
    fun c => Nat.isDigit_of_mem_toDigits (by decide) (by decide)
  have hzeros (n : Nat) : ∀ c ∈ List.replicate n '0', c.isDigit = true := by
    intro c hc
    rw [List.eq_of_mem_replicate hc]
    rfl
  unfold digits
  split
  · refine .whole ⟨fun h => Nat.toDigits_ne_nil (List.append_eq_nil_iff.mp h).1, fun c hc => ?_⟩
    exact (List.mem_append.mp hc).elim (hcoefficient c) (hzeros _ c)
  · have hlength : (List.replicate ((-d.exponent).toNat + 1 - (Nat.toDigits 10 d.coefficient).length)
        '0' ++ Nat.toDigits 10 d.coefficient).length ≥ (-d.exponent).toNat + 1 := by
      rw [List.length_append, List.length_replicate]
      omega
    obtain ⟨hbefore, hafter⟩ := isDigits_take_drop
      (fun c hc => (List.mem_append.mp hc).elim (hzeros _ c) (hcoefficient c))
      (Nat.sub_pos_of_lt hlength) (Nat.sub_lt (Nat.lt_of_lt_of_le (Nat.succ_pos _) hlength) (by omega))
    exact .decimal hbefore hafter

theorem text_abs_numeral {x : Float} (h : x.isFinite = true) : IsNumeral (text x.abs).toList := by
  obtain ⟨b, -, habs⟩ := exists_forms h
  unfold text
  rw [habs]
  dsimp only
  rw [if_neg Bool.false_ne_true, String.toList_ofList]
  split
  · exact .whole ⟨by simp, by simp⟩
  · exact Decimal.digits_numeral _

end ScriptLang.Number
