import Mathlib
import ScriptLang.Number.Whole

/-! Arithmetic that is exact on whole numbers of at most 53 bits: sums and comparisons of the numbers are sums and
comparisons of the integers that they stand for. -/
namespace ScriptLang.Number

open Float.Model Float.Model.UnpackedFloat

variable {u v : UnpackedFloat}

/-- The one way to write a whole number of at most 53 bits, but for the sign of zero. -/
inductive Stands : UnpackedFloat → Int → Prop
  | zero (s : Sign) : Stands (.zero s) 0
  | finite (s : Sign) {n : Nat} (pos : 0 < n) (small : n < 2 ^ 53) (h : 0 < n * 2 ^ (52 - n.log2)) :
      Stands (.finite s (n * 2 ^ (52 - n.log2)) (n.log2 - 52) h) (s.apply n)

section Bits

variable (b : BitVec 64)

theorem toNat_unpackExponent : (@unpackExponent Format.binary64 b).toNat = b.toNat / 2 ^ 52 % 2 ^ 11 := by
  simp [unpackExponent, BitVec.extractLsb_toNat, Nat.shiftRight_eq_div_pow]

theorem toNat_unpackMantissa : (@unpackMantissa Format.binary64 b).toNat = b.toNat % 2 ^ 52 := by
  simp [unpackMantissa, BitVec.extractLsb_toNat]

theorem toNat_unpackSign : (@unpackSign Format.binary64 b).toNat = b.toNat / 2 ^ 63 := by
  simp [unpackSign, BitVec.extractLsb_toNat, Nat.shiftRight_eq_div_pow]
  have := b.isLt
  omega

end Bits

/-- A number with this unpacked form has this exact value. The mantissa has 53 bits unless the exponent is the
least one. -/
def HasForm : UnpackedFloat → Option BinaryForm → Prop
  | .zero s, form => form = some ⟨s == .negative, 0, -1074⟩
  | .finite s m e _, form => form = some ⟨s == .negative, m, e⟩ ∧ m < 2 ^ 53 ∧ (2 ^ 52 ≤ m ∨ e = -1074)
  | _, form => form = none

theorem hasForm_unpack (x : Float) : HasForm x.toModel.unpack (BinaryForm.ofFloat? x) := by
  obtain ⟨⟨⟨b⟩, hvalid⟩⟩ := x
  have hexponent := toNat_unpackExponent b
  have hmantissa := toNat_unpackMantissa b
  have hneg : decide (2 ^ 63 ≤ b.toNat) = (Sign.ofBitVec (@unpackSign Format.binary64 b) == .negative) := by
    have hzero : @unpackSign Format.binary64 b = 0#1 ↔ b.toNat < 2 ^ 63 := by
      rw [← BitVec.toNat_inj, toNat_unpackSign]
      simp
    unfold Sign.ofBitVec
    split
    next h => exact decide_eq_false (Nat.not_le.mpr (hzero.mp h))
    next h => exact decide_eq_true (Nat.not_lt.mp (hzero.not.mp h))
  have hform : BinaryForm.ofFloat? ⟨⟨⟨b⟩, hvalid⟩⟩ =
      if b.toNat / 2 ^ 52 % 2 ^ 11 = 2047 then none
      else if b.toNat / 2 ^ 52 % 2 ^ 11 = 0 then some ⟨decide (2 ^ 63 ≤ b.toNat), b.toNat % 2 ^ 52, -1074⟩
      else some ⟨decide (2 ^ 63 ≤ b.toNat), b.toNat % 2 ^ 52 + 2 ^ 52, (b.toNat / 2 ^ 52 % 2 ^ 11 : Nat) - 1075⟩ :=
    rfl
  have hunpack : (Float.ofModel ⟨⟨b⟩, hvalid⟩).toModel.unpack = UnpackedFloat.unpack Format.binary64 b := rfl
  rw [hform, hneg, ← hexponent, ← hmantissa, hunpack, UnpackedFloat.unpack]
  dsimp only
  split
  next htop =>
    rw [htop]
    split <;> rfl
  next htop =>
    have htop : (@unpackExponent Format.binary64 b).toNat ≠ 2047 := fun h => htop (BitVec.eq_of_toNat_eq h)
    rw [if_neg htop]
    split
    next hbottom =>
      have hbottom : (@unpackExponent Format.binary64 b).toNat = 0 := congrArg BitVec.toNat hbottom
      rw [if_pos hbottom]
      split
      next h =>
        rw [h]
        rfl
      next h =>
        rw [hbottom]
        exact ⟨rfl, Nat.lt_of_lt_of_le (BitVec.isLt _) (by decide), .inr rfl⟩
    next hbottom =>
      have hbottom : (@unpackExponent Format.binary64 b).toNat ≠ 0 := fun h => hbottom (BitVec.eq_of_toNat_eq h)
      have hlt : (@unpackMantissa Format.binary64 b).toNat < 2 ^ 52 := BitVec.isLt _
      have hjoined : (1#1 ++ @unpackMantissa Format.binary64 b).toNat =
          (@unpackMantissa Format.binary64 b).toNat + 2 ^ 52 := by
        rw [BitVec.toNat_append, ← Nat.shiftLeft_add_eq_or_of_lt hlt]
        simp [Nat.add_comm]
      rw [if_neg hbottom, ← hjoined]
      refine ⟨rfl, ?_, .inl ?_⟩
      all_goals omega

theorem log2_mul_two_pow {n : Nat} (h : 0 < n) (k : Nat) : (n * 2 ^ k).log2 = n.log2 + k := by
  induction k with
  | zero => simp
  | succ k ih =>
    have hne : n * 2 ^ k ≠ 0 := (Nat.mul_pos h (Nat.two_pow_pos k)).ne'
    rw [Nat.pow_succ, ← Nat.mul_assoc, Nat.mul_comm _ 2, Nat.log2_two_mul hne, ih, Nat.add_assoc]

/-- A mantissa of 53 bits leaves one exponent for a whole number. -/
theorem Stands.of_mul (s : Sign) {n k : Nat} (hpos : 0 < n * 2 ^ k) (hle : 2 ^ 52 ≤ n * 2 ^ k)
    (hlt : n * 2 ^ k < 2 ^ 53) : Stands (.finite s (n * 2 ^ k) (-k) hpos) (s.apply n) := by
  have hn : 0 < n := Nat.pos_of_mul_pos_right hpos
  have hlog : n.log2 + k = 52 := by
    rw [← log2_mul_two_pow hn, Nat.log2_eq_iff hpos.ne']
    exact ⟨hle, hlt⟩
  obtain rfl : k = 52 - n.log2 := by omega
  have hexponent : (-(52 - n.log2 : Nat) : Int) = n.log2 - 52 := by omega
  rw [hexponent]
  exact .finite s hn (Nat.lt_of_le_of_lt (Nat.le_mul_of_pos_right n (Nat.two_pow_pos _)) hlt) hpos

theorem mantissa_bounds {n : Nat} (hn : 0 < n) (hsmall : n < 2 ^ 53) :
    2 ^ 52 ≤ n * 2 ^ (52 - n.log2) ∧ n * 2 ^ (52 - n.log2) < 2 ^ 53 := by
  have hlog : n.log2 < 53 := (Nat.log2_lt hn.ne').mpr hsmall
  apply (Nat.log2_eq_iff (Nat.mul_pos hn (Nat.two_pow_pos _)).ne').mp
  rw [log2_mul_two_pow hn]
  omega

theorem truncated_eq (s : Sign) (m : Nat) (e : Int) :
    (BinaryForm.mk (s == .negative) m e).truncated = s.apply (BinaryForm.shifted m e) := by
  cases s <;> rfl

theorem clamp64_eq_iff {t i : Int} (hi : i.natAbs < 2 ^ 53) : clamp64 t = i ↔ t = i := by
  unfold clamp64
  omega

theorem shifted_mul (n k : Nat) : BinaryForm.shifted (n * 2 ^ k) (-k) = n := by
  unfold BinaryForm.shifted
  cases k with
  | zero => simp
  | succ k =>
    rw [if_neg (by omega), neg_neg, Int.toNat_natCast]
    exact Nat.mul_div_cancel n (Nat.two_pow_pos _)

theorem isWhole_mul (negative : Bool) (n k : Nat) : (BinaryForm.mk negative (n * 2 ^ k) (-k)).isWhole = true := by
  unfold BinaryForm.isWhole BinaryForm.fraction
  dsimp only
  cases k with
  | zero => simp
  | succ k =>
    rw [if_neg (by omega), neg_neg, Int.toNat_natCast]
    exact decide_eq_true (Nat.mul_mod_left n _)

/-- What is whole is a multiple of what the places behind the point hold. -/
theorem eq_mul_of_isWhole {negative : Bool} {m k : Nat} (h : (BinaryForm.mk negative m (-k)).isWhole = true) :
    ∃ n, m = n * 2 ^ k := by
  unfold BinaryForm.isWhole BinaryForm.fraction at h
  dsimp only at h
  cases k with
  | zero => exact ⟨m, by simp⟩
  | succ k =>
    rw [if_neg (by omega), neg_neg, Int.toNat_natCast] at h
    obtain ⟨n, hn⟩ := Nat.dvd_of_mod_eq_zero (of_decide_eq_true h)
    exact ⟨n, hn.trans (Nat.mul_comm _ _)⟩

theorem natAbs_apply (s : Sign) (n : Nat) : (s.apply n).natAbs = n := by
  cases s with
  | negative => exact Int.natAbs_neg n
  | positive => rfl

/-- Whole numbers of at most 53 bits are written in one way. -/
theorem index?_eq_some_iff {x : Float} {i : Int} (hi : i.natAbs < 2 ^ 53) :
    index? x = some i ↔ Stands x.toModel.unpack i := by
  have hform := hasForm_unpack x
  generalize x.toModel.unpack = u at hform
  unfold index?
  cases u with
  | infinity | notANumber =>
    rw [show BinaryForm.ofFloat? x = none from hform]
    exact ⟨nofun, nofun⟩
  | zero s =>
    have hwhole (e : Int) : (BinaryForm.mk (s == .negative) 0 e).isWhole = true := by
      simp [BinaryForm.isWhole, BinaryForm.fraction]
    have hshifted (e : Int) : BinaryForm.shifted 0 e = 0 := by simp [BinaryForm.shifted]
    rw [show BinaryForm.ofFloat? x = _ from hform]
    dsimp only
    rw [if_pos (hwhole _), truncated_eq, hshifted, Option.some.injEq, clamp64_eq_iff hi]
    constructor
    · rintro rfl
      cases s <;> exact .zero _
    · rintro ⟨⟩
      cases s <;> rfl
  | finite s m e hm =>
    obtain ⟨hform, hlt, hcanonical⟩ := hform
    rw [hform]
    dsimp only
    constructor
    · intro h
      split at h
      next hwhole =>
        have hvalue := (clamp64_eq_iff hi).mp (Option.some.inj h)
        rw [truncated_eq] at hvalue
        subst hvalue
        rw [natAbs_apply] at hi
        rcases Int.lt_or_le 0 e with hpos | hneg
        · have htop : 2 ^ 52 ≤ m := by omega
          have hmul : BinaryForm.shifted m e = m * 2 ^ e.toNat := if_pos hpos.le
          have htwo : 2 ^ 1 ≤ 2 ^ e.toNat := Nat.pow_le_pow_right (by decide) (by omega)
          have hge := Nat.mul_le_mul htop htwo
          rw [hmul] at hi
          omega
        · obtain ⟨k, rfl⟩ := Int.exists_eq_neg_ofNat hneg
          obtain ⟨n, rfl⟩ := eq_mul_of_isWhole hwhole
          rw [shifted_mul]
          refine .of_mul s hm (hcanonical.resolve_right fun hk => ?_) hlt
          have hk : k = 1074 := by omega
          have hlarge : 2 ^ 53 ≤ 2 ^ k := Nat.pow_le_pow_right (by decide) (by omega)
          have := Nat.le_mul_of_pos_left (2 ^ k) (Nat.pos_of_mul_pos_right hm)
          omega
      next => cases h
    · intro h
      cases h with | @finite _ n hn hsmall
      have hlog : n.log2 < 53 := (Nat.log2_lt hn.ne').mpr hsmall
      have hexponent : (n.log2 - 52 : Int) = -(52 - n.log2 : Nat) := by omega
      rw [hexponent, if_pos (isWhole_mul ..), truncated_eq, shifted_mul, Option.some.injEq, clamp64_eq_iff hi]

/-- Packing keeps a whole number of at most 53 bits. -/
theorem Stands.unpack_pack {u : UnpackedFloat} {i : Int} (h : Stands u i) :
    UnpackedFloat.unpack Format.binary64 (UnpackedFloat.pack Format.binary64 u) = u := by
  cases h with
  | zero s => exact unpack_packedZero
  | @finite s n hn hsmall hpos =>
    have hlog : n.log2 < 53 := (Nat.log2_lt hn.ne').mpr hsmall
    obtain ⟨hge, hlt⟩ := mantissa_bounds hn hsmall
    have hbits := (Nat.log2_eq_iff hpos.ne').mpr ⟨hge, hlt⟩
    have hbias : (Format.binary64.exponentBias : Int) = 1023 := rfl
    have hbiased : ((n.log2 : Int) - 52 + Format.binary64.exponentBias + (52 : Nat)).toNat = n.log2 + 1023 := by
      rw [hbias]
      omega
    generalize n * 2 ^ (52 - n.log2) = m at *
    unfold UnpackedFloat.pack
    dsimp only
    rw [hbiased, if_neg (by omega), if_pos (by rw [hbits]; rfl)]
    have hexponent : (BitVec.ofNat 11 (n.log2 + 1023)).toNat = n.log2 + 1023 := by
      rw [BitVec.toNat_ofNat, Nat.mod_eq_of_lt (by omega)]
    have htop : BitVec.ofNat 11 (n.log2 + 1023) ≠ -1#11 := fun h => by
      have hmax : (-1#11).toNat = 2047 := rfl
      rw [h, hmax] at hexponent
      omega
    have hbottom : BitVec.ofNat 11 (n.log2 + 1023) ≠ 0#11 := fun h => by
      have hmin : (0#11).toNat = 0 := rfl
      rw [h, hmin] at hexponent
      omega
    have hmantissa : (1#1 ++ BitVec.ofNat 52 m).toNat = m := by
      rw [BitVec.toNat_append, ← Nat.shiftLeft_add_eq_or_of_lt (BitVec.isLt _), BitVec.toNat_ofNat]
      simp
      omega
    have hplace : ((n.log2 + 1023 : Nat) : Int) - (1023 + (52 : Nat)) = n.log2 - 52 := by omega
    simp only [UnpackedFloat.unpack, unpackExponent_packComponents, unpackMantissa_packComponents,
      unpackSign_packComponents, if_neg htop, if_neg hbottom, hmantissa, hexponent, Sign.ofBitVec_toBitVec, hbias,
      hplace]

/-- Bits that are zero are shifted out without a trace. -/
theorem shiftRight_mul (m k : Nat) : (ExtendedMantissa.mk (m * 2 ^ k) false false) >>> k = ⟨m, false, false⟩ := by
  change k.repeat ExtendedMantissa.shiftRightOne _ = _
  induction k generalizing m with
  | zero => simp [Nat.repeat]
  | succ k ih =>
    rw [Nat.repeat, Nat.pow_succ, Nat.mul_comm _ 2, ← Nat.mul_assoc, ih]
    simp [ExtendedMantissa.shiftRightOne]

theorem decreaseExponent_mul (n t k : Nat) :
    decreaseExponent (n * 2 ^ t) (-t) (-k) = (n * 2 ^ max t k, -((max t k : Nat) : Int)) := by
  have hamount : (-(t : Int) - -(k : Int)).toNat = max t k - t := by omega
  rw [decreaseExponent, hamount, Nat.shiftLeft_eq, Nat.mul_assoc, ← Nat.pow_add,
    Nat.add_sub_cancel' (Nat.le_max_left t k)]
  refine Prod.ext rfl ?_
  dsimp only
  omega

section Round

variable {n : Nat} (hn : 0 < n) (hsmall : n < 2 ^ 53)

include hn hsmall

theorem target_eq (t : Nat) :
    Format.binary64.targetExponent (totalExponent (n * 2 ^ t) (-t)) = -(52 - n.log2 : Nat) := by
  have hlog : n.log2 < 53 := (Nat.log2_lt hn.ne').mpr hsmall
  have hbits : (Format.binary64.mantissaBits : Int) = 53 := rfl
  have hmin : Format.binary64.minExponent = -1074 := rfl
  rw [Format.targetExponent, totalExponent, log2_mul_two_pow hn, hbits, hmin]
  omega

theorem shiftToTarget_mul {t : Nat} (ht : 52 - n.log2 ≤ t) :
    shiftToTargetExponent Format.binary64 (n * 2 ^ t) (-t) .exact =
      (⟨n * 2 ^ (52 - n.log2), false, false⟩, -((52 - n.log2 : Nat) : Int)) := by
  obtain ⟨dropped, rfl⟩ := Nat.exists_eq_add_of_le ht
  have hamount : (-((52 - n.log2 : Nat) : Int) - -((52 - n.log2 + dropped : Nat) : Int)).toNat = dropped := by
    omega
  rw [shiftToTargetExponent, target_eq hn hsmall, shiftToExponent, hamount, ExtendedMantissa.ofMantissaAndAccuracy,
    Nat.pow_add, ← Nat.mul_assoc, shiftRight_mul]
  refine Prod.ext rfl ?_
  dsimp only
  omega

theorem Stands.round (s : Sign) (t : Nat) :
    Stands (UnpackedFloat.round Format.binary64 s (n * 2 ^ t) (-t)) (s.apply n) := by
  have hpos : 0 < n * 2 ^ (52 - n.log2) := Nat.mul_pos hn (Nat.two_pow_pos _)
  obtain ⟨hge, hlt⟩ := mantissa_bounds hn hsmall
  rw [UnpackedFloat.round, target_eq hn hsmall, decreaseExponent_mul]
  dsimp only
  rw [roundWithAccuracy, shiftToTarget_mul hn hsmall (Nat.le_max_right ..)]
  have hexact (m : Nat) : (ExtendedMantissa.mk m false false).roundedMantissa = m := rfl
  simp only [hexact, shiftToTarget_mul hn hsmall (Nat.le_refl _), dif_neg hpos.ne']
  exact .of_mul s hpos hge hlt

end Round

theorem Stands.normalize {i : Int} (hi : i.natAbs < 2 ^ 53) (t : Nat) (s : Sign) :
    Stands (UnpackedFloat.normalize Format.binary64 (i * 2 ^ t) (-t) s) i := by
  have htwo : (0 : Int) < 2 ^ t := Int.pow_pos (by decide)
  unfold UnpackedFloat.normalize
  rcases lt_trichotomy i 0 with hneg | rfl | hpos
  · have hn : 0 < i.natAbs := Int.natAbs_pos.mpr hneg.ne
    have hmagnitude : (-(i * 2 ^ t)).toNat = i.natAbs * 2 ^ t := by
      rw [← Int.neg_mul, ← Int.ofNat_natAbs_of_nonpos hneg.le]
      exact Int.toNat_natCast (i.natAbs * 2 ^ t)
    have hround := Stands.round hn hi .negative t
    rw [Sign.apply, Int.ofNat_natAbs_of_nonpos hneg.le, neg_neg] at hround
    rwa [compare_lt_iff_lt.mpr (Int.mul_neg_of_neg_of_pos hneg htwo), hmagnitude]
  · rw [Int.zero_mul]
    exact .zero s
  · have hn : 0 < i.natAbs := Int.natAbs_pos.mpr hpos.ne'
    have hmagnitude : (i * 2 ^ t).toNat = i.natAbs * 2 ^ t := by
      rw [← Int.natAbs_of_nonneg hpos.le]
      exact Int.toNat_natCast (i.natAbs * 2 ^ t)
    have hround := Stands.round hn hi .positive t
    rw [Sign.apply, Int.natAbs_of_nonneg hpos.le] at hround
    rwa [compare_gt_iff_gt.mpr (Int.mul_pos hpos htwo), hmagnitude]

theorem apply_mul (s : Sign) (n k : Nat) : s.apply (n * 2 ^ k : Nat) = s.apply n * 2 ^ k := by
  cases s <;> simp [Sign.apply]

theorem exponent_eq {n : Nat} (hn : 0 < n) (hsmall : n < 2 ^ 53) :
    (n.log2 - 52 : Int) = -((52 - n.log2 : Nat) : Int) := by
  have hlog : n.log2 < 53 := (Nat.log2_lt hn.ne').mpr hsmall
  omega

theorem Stands.add {i j : Int} (hu : Stands u i) (hv : Stands v j)
    (h : (i + j).natAbs < 2 ^ 53) : Stands (UnpackedFloat.add Format.binary64 u v) (i + j) := by
  cases hu with
  | zero s =>
    rw [Int.zero_add]
    cases hv with
    | zero s' => cases s <;> cases s' <;> exact .zero _
    | finite s' hn hsmall hpos => exact .finite s' hn hsmall hpos
  | @finite s n hn hsmall hpos =>
    cases hv with
    | zero s' =>
      rw [Int.add_zero]
      exact .finite s hn hsmall hpos
    | @finite s' n' hn' hsmall' hpos' =>
      have hmin (k k' : Nat) : min (-(k : Int)) (-(k' : Int)) = -((max k k' : Nat) : Int) := by omega
      have hsum := Stands.normalize h (max (52 - n.log2) (52 - n'.log2)) .positive
      rw [Int.add_mul, ← apply_mul, ← apply_mul] at hsum
      simp only [UnpackedFloat.add, exponent_eq hn hsmall, exponent_eq hn' hsmall', hmin, decreaseExponent_mul]
      simpa using hsum

theorem compare_congr {α β : Type} [LinearOrder α] [LinearOrder β] {a a' : α} {b b' : β}
    (hlt : a < a' ↔ b < b') (heq : a = a' ↔ b = b') : compare a a' = compare b b' := by
  rcases lt_trichotomy a a' with h | h | h
  · rw [compare_lt_iff_lt.mpr h, compare_lt_iff_lt.mpr (hlt.mp h)]
  · rw [compare_eq_iff_eq.mpr h, compare_eq_iff_eq.mpr (heq.mp h)]
  · have hgt : b > b' := lt_of_le_of_ne (not_lt.mp (mt hlt.mpr h.not_gt)) (mt Eq.symm (mt heq.mpr h.ne'))
    rw [compare_gt_iff_gt.mpr h, compare_gt_iff_gt.mpr hgt]

/-- Of two whole numbers above zero, the one with the larger exponent is larger, or with the larger mantissa if the
exponents are equal. -/
theorem compare_finite {n n' : Nat} (hn : 0 < n) (hn' : 0 < n') :
    (compare (n.log2 - 52 : Int) (n'.log2 - 52)).then
      (compare (n * 2 ^ (52 - n.log2)) (n' * 2 ^ (52 - n'.log2))) = compare n n' := by
  have hle := Nat.log2_self_le hn.ne'
  have hle' := Nat.log2_self_le hn'.ne'
  have hlt := @Nat.lt_log2_self n
  have hlt' := @Nat.lt_log2_self n'
  rcases Nat.lt_trichotomy n.log2 n'.log2 with hless | heq | hgreater
  · have hpow := Nat.pow_le_pow_right (show 0 < 2 by decide) (Nat.succ_le_of_lt hless)
    rw [compare_lt_iff_lt.mpr (by omega), compare_lt_iff_lt.mpr (show n < n' by omega)]
    rfl
  · have hpos := Nat.two_pow_pos (52 - n'.log2)
    rw [heq, compare_eq_iff_eq.mpr rfl]
    exact compare_congr (Nat.mul_lt_mul_right hpos) (Nat.mul_left_inj hpos.ne')
  · have hpow := Nat.pow_le_pow_right (show 0 < 2 by decide) (Nat.succ_le_of_lt hgreater)
    rw [compare_gt_iff_gt.mpr (by omega), compare_gt_iff_gt.mpr (show n > n' by omega)]
    rfl

theorem Stands.compare {i j : Int} (hu : Stands u i) (hv : Stands v j) : u.compare v = some (Ord.compare i j) := by
  cases hu with
  | zero s =>
    cases hv with
    | zero s' => rfl
    | @finite s' n' hn' hsmall' hpos' =>
      cases s' with
      | negative => rw [compare_gt_iff_gt.mpr (by simp [Sign.apply, hn'])]; rfl
      | positive => rw [compare_lt_iff_lt.mpr (by simp [Sign.apply, hn'])]; rfl
  | @finite s n hn hsmall hpos =>
    cases hv with
    | zero s' =>
      cases s with
      | negative => rw [compare_lt_iff_lt.mpr (by simp [Sign.apply, hn])]; rfl
      | positive => rw [compare_gt_iff_gt.mpr (by simp [Sign.apply, hn])]; rfl
    | @finite s' n' hn' hsmall' hpos' =>
      have hmagnitudes := compare_finite hn hn'
      cases s <;> cases s'
      · refine congrArg some ((congrArg Ordering.swap hmagnitudes).trans ?_)
        rw [← Std.OrientedOrd.eq_swap]
        exact compare_congr (by simp [Sign.apply]) (by simp [Sign.apply, eq_comm])
      · rw [compare_lt_iff_lt.mpr (by simp [Sign.apply]; omega)]; rfl
      · rw [compare_gt_iff_gt.mpr (by simp [Sign.apply]; omega)]; rfl
      · exact congrArg some (hmagnitudes.trans (compare_congr Int.ofNat_lt.symm Int.ofNat_inj.symm))

section Float

variable {x y : Float} {i j : Int} (hx : index? x = some i) (hy : index? y = some j) (hi : i.natAbs < 2 ^ 53)
  (hj : j.natAbs < 2 ^ 53)

include hx hy hi hj

theorem index?_add (h : (i + j).natAbs < 2 ^ 53) : index? (x + y) = some (i + j) := by
  have hsum := ((index?_eq_some_iff hi).mp hx).add ((index?_eq_some_iff hj).mp hy) h
  have hpacked : (x + y).toModel.unpack = UnpackedFloat.add Format.binary64 x.toModel.unpack y.toModel.unpack :=
    hsum.unpack_pack
  rwa [index?_eq_some_iff h, hpacked]

theorem lt_iff : x < y ↔ i < j := by
  have hcompare := ((index?_eq_some_iff hi).mp hx).compare ((index?_eq_some_iff hj).mp hy)
  have hlt : x < y ↔ (x.toModel.unpack.compare y.toModel.unpack == some .lt) = true := decide_eq_true_iff
  rw [hlt, hcompare, beq_iff_eq, Option.some.injEq, compare_lt_iff_lt]

theorem beq_iff : (x == y) = true ↔ i = j := by
  have hcompare := ((index?_eq_some_iff hi).mp hx).compare ((index?_eq_some_iff hj).mp hy)
  have hbeq : (x == y) = (x.toModel.unpack.compare y.toModel.unpack == some .eq) := rfl
  rw [hbeq, hcompare, beq_iff_eq, Option.some.injEq, compare_eq_iff_eq]

end Float

theorem index?_zero : index? 0 = some 0 := by
  rw [index?_eq_some_iff (by decide)]
  exact .zero .positive

theorem index?_one : index? 1 = some 1 := by decide

theorem index?_neg_one : index? (-1) = some (-1) := by decide

end ScriptLang.Number
