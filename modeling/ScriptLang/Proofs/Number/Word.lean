import Mathlib.Data.Int.Bitwise
import Mathlib.Data.Rat.Floor
import Mathlib.Tactic.Linarith
import Mathlib.Tactic.NormNum
import ScriptLang.Value.Operation

/-! The operators on words are those of two's complement. What they give is said of integers: of their bits
without end, and of what is left of them modulo `2 ^ 32`. Beyond the range of 64 bits, a number above it has the
word with all bits set, and one below it zero. -/
namespace ScriptLang

def BinaryForm.value (b : BinaryForm) : ℚ :=
  if b.negative then -(b.significand * 2 ^ b.exponent) else b.significand * 2 ^ b.exponent

def cut (u : ℚ) : ℤ := if 0 ≤ u then ⌊u⌋ else ⌈u⌉

def Number.HasValue (x : Float) (u : ℚ) : Prop := ∃ b, BinaryForm.ofFloat? x = some b ∧ b.value = u

def FitsWide (t : ℤ) : Prop := -2 ^ 63 ≤ t ∧ t < 2 ^ 63

/-- What an operator on words gives for integers. A shift goes by its count modulo 32. -/
def BinaryOp.onIntegers : BinaryOp → ℤ → ℤ → Option ℤ
  | .bitAnd, s, t => some ((Int.land s t).bmod (2 ^ 32))
  | .bitOr, s, t => some ((Int.lor s t).bmod (2 ^ 32))
  | .bitXor, s, t => some ((Int.xor s t).bmod (2 ^ 32))
  | .shiftLeft, s, t => some ((s * 2 ^ (t % 32).toNat).bmod (2 ^ 32))
  | .shiftRight, s, t => some (s.bmod (2 ^ 32) / 2 ^ (t % 32).toNat)
  | .shiftRightZero, s, t => some (s % 2 ^ 32 / 2 ^ (t % 32).toNat)
  | _, _, _ => none

theorem cut_neg (u : ℚ) : cut (-u) = -cut u := by
  unfold cut
  rcases lt_trichotomy u 0 with h | rfl | h
  · rw [if_pos (by linarith), if_neg (by linarith), Int.floor_neg]
  · simp
  · rw [if_neg (by linarith), if_pos h.le, Int.ceil_neg]

/-- Without a change of sign, an integer can be added before or after the cut. -/
theorem cut_add_intCast {u : ℚ} {k : ℤ} (h : 0 ≤ u * (u + k) ∨ u = cut u) : cut (u + k) = cut u + k := by
  have hwhole (t : ℤ) : cut t = t := by simp [cut]
  rcases h with h | h
  · unfold cut
    rcases lt_trichotomy u 0 with hu | rfl | hu
    · rcases (show u + k ≤ 0 by nlinarith).lt_or_eq with hk | hk
      · rw [if_neg (by linarith), if_neg (by linarith), Int.ceil_add_intCast]
      · rw [hk, if_pos le_rfl, if_neg (by linarith), ← Int.ceil_add_intCast, hk]
        simp
    · simp
    · rw [if_pos (by nlinarith), if_pos hu.le, Int.floor_add_intCast]
  · rw [h, ← Int.cast_add, hwhole, hwhole]

namespace Number

theorem floor_shifted (n : Nat) (e : ℤ) : ⌊(n * 2 ^ e : ℚ)⌋ = BinaryForm.shifted n e := by
  unfold BinaryForm.shifted
  split
  next h =>
    obtain ⟨k, rfl⟩ := Int.eq_ofNat_of_zero_le h
    rw [zpow_natCast]
    exact_mod_cast Int.floor_natCast (n * 2 ^ k)
  next h =>
    obtain ⟨k, rfl⟩ := Int.exists_eq_neg_ofNat (not_le.mp h).le
    rw [zpow_neg, zpow_natCast, ← div_eq_mul_inv, neg_neg, Int.toNat_natCast]
    have hdiv := Rat.floor_intCast_div_natCast n (2 ^ k)
    push_cast at hdiv
    rw [hdiv]
    norm_cast

theorem truncated_eq_cut (b : BinaryForm) : b.truncated = cut b.value := by
  have hwhole : cut (b.significand * 2 ^ b.exponent : ℚ) = b.whole := by
    rw [cut, if_pos (mul_nonneg (Nat.cast_nonneg _) (zpow_nonneg (by norm_num) _)), floor_shifted]
    rfl
  unfold BinaryForm.truncated BinaryForm.value
  split
  · rw [cut_neg, hwhole]
  · rw [hwhole]

variable {x y : Float} {u v : ℚ}

/-- The word of a finite number is that of the nearest integer of 64 bits. -/
theorem HasValue.word_eq (hx : HasValue x u) : word x = BitVec.ofInt 32 (clamp64 (cut u)) := by
  obtain ⟨b, hform, rfl⟩ := hx
  rw [word, hform, ← truncated_eq_cut]

theorem HasValue.word_of_fits (hx : HasValue x u) (h : FitsWide (cut u)) : word x = BitVec.ofInt 32 (cut u) := by
  have hclamp : clamp64 (cut u) = cut u := by
    unfold clamp64
    unfold FitsWide at h
    omega
  rw [hx.word_eq, hclamp]

end Number

/-! Words of integers. -/
section Words

theorem getLsbD_ofInt (w : Nat) (t : ℤ) (i : Nat) : (BitVec.ofInt w t).getLsbD i = (decide (i < w) && t.testBit i) := by
  cases t with
  | ofNat n => exact BitVec.getLsbD_ofNat ..
  | negSucc n =>
    rw [BitVec.ofInt_negSucc_eq_not_ofNat, BitVec.getLsbD_not, BitVec.getLsbD_ofNat, Int.testBit]
    by_cases h : i < w <;> simp [h]

variable (s t : ℤ)

theorem toInt_eq_bmod {a : BitVec 32} {r : ℤ} (h : ∀ i < 32, a.getLsbD i = r.testBit i) :
    a.toInt = r.bmod (2 ^ 32) := by
  rw [← BitVec.toInt_ofInt, BitVec.toInt_inj]
  refine BitVec.eq_of_getLsbD_eq fun i hi => ?_
  rw [h i hi, getLsbD_ofInt, decide_eq_true hi, Bool.true_and]

theorem toInt_and_ofInt : (BitVec.ofInt 32 s &&& BitVec.ofInt 32 t).toInt = (Int.land s t).bmod (2 ^ 32) :=
  toInt_eq_bmod fun i hi => by simp only [BitVec.getLsbD_and, getLsbD_ofInt, Int.testBit_land, hi, decide_true,
    Bool.true_and]

theorem toInt_or_ofInt : (BitVec.ofInt 32 s ||| BitVec.ofInt 32 t).toInt = (Int.lor s t).bmod (2 ^ 32) :=
  toInt_eq_bmod fun i hi => by simp only [BitVec.getLsbD_or, getLsbD_ofInt, Int.testBit_lor, hi, decide_true,
    Bool.true_and]

theorem toInt_xor_ofInt : (BitVec.ofInt 32 s ^^^ BitVec.ofInt 32 t).toInt = (Int.xor s t).bmod (2 ^ 32) :=
  toInt_eq_bmod fun i hi => by simp only [BitVec.getLsbD_xor, getLsbD_ofInt, Int.testBit_lxor, hi, decide_true,
    Bool.true_and]

theorem toInt_not_ofInt : (~~~ BitVec.ofInt 32 s).toInt = (-s - 1).bmod (2 ^ 32) := by
  have hadd : ~~~ BitVec.ofInt 32 s = BitVec.ofInt 32 (-s - 1) := by
    rw [sub_eq_add_neg, BitVec.ofInt_add, BitVec.ofInt_neg, BitVec.neg_eq_not_add]
    simp [BitVec.add_assoc]
  rw [hadd, BitVec.toInt_ofInt]

theorem toNat_ofInt_mod : (BitVec.ofInt 32 t).toNat % 32 = (t % 32).toNat := by
  rw [BitVec.toNat_ofInt]
  omega

theorem toInt_shiftLeft_ofInt (k : Nat) : (BitVec.ofInt 32 s <<< k).toInt = (s * 2 ^ k).bmod (2 ^ 32) := by
  have hmul : BitVec.ofInt 32 s <<< k = BitVec.ofInt 32 (s * 2 ^ k) := by
    rw [BitVec.shiftLeft_eq_mul_twoPow, BitVec.ofInt_mul]
    congr 1
    apply BitVec.eq_of_toNat_eq
    rw [BitVec.toNat_twoPow, BitVec.toNat_ofInt]
    norm_cast
  rw [hmul, BitVec.toInt_ofInt]

end Words

/-- An operator on words gives the number of the word that it has for the integers. -/
theorem BinaryOp.onIntegers_words {op : BinaryOp} {s t r : ℤ} (h : op.onIntegers s t = some r) {x y : Float}
    (hx : Number.word x = BitVec.ofInt 32 s) (hy : Number.word y = BitVec.ofInt 32 t) (heap : Heap) :
    Action.binary op (.number x) (.number y) heap = .ok (.number (Float.ofInt r)) heap := by
  have hwords {f : BitVec 32 → BitVec 32 → Value}
      (hf : f (BitVec.ofInt 32 s) (BitVec.ofInt 32 t) = .number (Float.ofInt r)) :
      Action.onWords op f (.number x) (.number y) heap = .ok (.number (Float.ofInt r)) heap := by
    rw [← hf, ← hx, ← hy]
    rfl
  have hsigned {a : BitVec 32} (ha : a.toInt = r) : Action.signed a = .number (Float.ofInt r) := by
    rw [Action.signed, ha]
  unfold Action.binary
  cases op with
  | bitAnd =>
    obtain rfl := Option.some.inj h
    exact hwords (hsigned (toInt_and_ofInt s t))
  | bitOr =>
    obtain rfl := Option.some.inj h
    exact hwords (hsigned (toInt_or_ofInt s t))
  | bitXor =>
    obtain rfl := Option.some.inj h
    exact hwords (hsigned (toInt_xor_ofInt s t))
  | shiftLeft =>
    obtain rfl := Option.some.inj h
    refine hwords (hsigned ?_)
    rw [toNat_ofInt_mod, toInt_shiftLeft_ofInt]
  | shiftRight =>
    obtain rfl := Option.some.inj h
    refine hwords (hsigned ?_)
    rw [BitVec.toInt_sshiftRight, BitVec.toInt_ofInt, toNat_ofInt_mod, Int.shiftRight_eq_div_pow]
    norm_cast
  | shiftRightZero =>
    obtain rfl := Option.some.inj h
    refine hwords ?_
    have hunsigned (n : Nat) : Float.ofNat n = Float.ofInt n := rfl
    rw [Action.unsigned, hunsigned, BitVec.toNat_ushiftRight, toNat_ofInt_mod, Nat.shiftRight_eq_div_pow,
      BitVec.toNat_ofInt]
    congr 2
    push_cast
    rw [Int.toNat_of_nonneg (Int.emod_nonneg _ (by decide))]
  | _ => cases h

/-- Numbers of one word are the same to every operator on words. -/
theorem BinaryOp.onIntegers_congr {op : BinaryOp} (hop : (op.onIntegers 0 0).isSome = true) {x y : Float}
    (h : Number.word x = Number.word y) (z : Float) :
    Action.binary op (.number x) (.number z) = Action.binary op (.number y) (.number z) ∧
      Action.binary op (.number z) (.number x) = Action.binary op (.number z) (.number y) := by
  have hwords (f : BitVec 32 → BitVec 32 → Value) :
      Action.onWords op f (.number x) (.number z) = Action.onWords op f (.number y) (.number z) ∧
        Action.onWords op f (.number z) (.number x) = Action.onWords op f (.number z) (.number y) := by
    simp only [Action.onWords, Action.onNumbers, h, and_self]
  unfold Action.binary
  cases op with
  | bitAnd | bitOr | bitXor | shiftLeft | shiftRight | shiftRightZero => exact hwords _
  | _ => cases hop

/-- Numbers that differ by a multiple of `2 ^ 32`, and are not fractions on two sides of zero, have the same
word. -/
theorem Number.HasValue.word_add {x y : Float} {u : ℚ} {k : ℤ} (hx : HasValue x u)
    (hy : HasValue y (u + (2 ^ 32 * k : ℤ))) (hsign : 0 ≤ u * (u + (2 ^ 32 * k : ℤ)) ∨ u = cut u)
    (hu : FitsWide (cut u)) (hv : FitsWide (cut (u + (2 ^ 32 * k : ℤ)))) : word x = word y := by
  rw [hx.word_of_fits hu, hy.word_of_fits hv, cut_add_intCast hsign, ← BitVec.toInt_inj, BitVec.toInt_ofInt,
    BitVec.toInt_ofInt]
  exact (Int.add_mul_bmod_self_left ..).symm

/-- The operators on words give what two's complement has for the integers that the operands are cut to, as
long as these have 64 bits. Beyond them, the word of an operand is that of the last integer of 64 bits. -/
theorem bitwise_modular {x y : Float} {u v : ℚ} (hx : Number.HasValue x u) (hy : Number.HasValue y v) :
    (Number.word x).toInt =
      (if cut u < -2 ^ 63 then 0 else if 2 ^ 63 ≤ cut u then -1 else (cut u).bmod (2 ^ 32)) ∧
    (FitsWide (cut u) → ∀ heap, Action.unary .bitNot (.number x) heap =
      .ok (.number (Float.ofInt ((-cut u - 1).bmod (2 ^ 32)))) heap) ∧
    (FitsWide (cut u) → FitsWide (cut v) → ∀ op r, BinaryOp.onIntegers op (cut u) (cut v) = some r → ∀ heap,
      Action.binary op (.number x) (.number y) heap = .ok (.number (Float.ofInt r)) heap) ∧
    ∀ k : ℤ, v = u + (2 ^ 32 * k : ℤ) → 0 ≤ u * v ∨ u = cut u → FitsWide (cut u) → FitsWide (cut v) →
      Action.unary .bitNot (.number x) = Action.unary .bitNot (.number y) ∧
      ∀ op, (BinaryOp.onIntegers op 0 0).isSome = true → ∀ z,
        Action.binary op (.number x) (.number z) = Action.binary op (.number y) (.number z) ∧
        Action.binary op (.number z) (.number x) = Action.binary op (.number z) (.number y) := by
  have hnot (z : Float) : Action.unary .bitNot (.number z) = pure (Action.signed (~~~ Number.word z)) := rfl
  refine ⟨?_, fun hu heap => ?_, fun hu hv op r hr heap => ?_, ?_⟩
  · rw [hx.word_eq, BitVec.toInt_ofInt]
    unfold Number.clamp64
    split
    next hlow =>
      have hend : max (-0x8000000000000000) (min (cut u) 0x7fffffffffffffff) = -0x8000000000000000 := by omega
      rw [hend]
      rfl
    next hlow =>
      split
      next hhigh =>
        have hend : max (-0x8000000000000000) (min (cut u) 0x7fffffffffffffff) = 0x7fffffffffffffff := by omega
        rw [hend]
        rfl
      next hhigh =>
        have hkept : max (-0x8000000000000000) (min (cut u) 0x7fffffffffffffff) = cut u := by omega
        rw [hkept]
  · rw [hnot, hx.word_of_fits hu, Action.signed, toInt_not_ofInt]
    rfl
  · exact BinaryOp.onIntegers_words hr (hx.word_of_fits hu) (hy.word_of_fits hv) heap
  · rintro k rfl hsign hu hv
    have hword := hx.word_add hy hsign hu hv
    refine ⟨?_, fun op hop z => BinaryOp.onIntegers_congr hop hword z⟩
    rw [hnot, hnot, hword]

/-- Numbers with halves, far beyond 32 bits and below zero. -/
theorem bitwise_modular_far :
    Number.HasValue (-4294967293.5) (-4294967293.5) ∧ Number.HasValue 1099511627781.5 1099511627781.5 ∧
      Action.binary .shiftLeft (.number (-4294967293.5)) (.number 1099511627781.5) {} =
        .ok (.number (Float.ofInt 96)) {} := by
  have hbelow : Number.HasValue (-4294967293.5) (-4294967293.5) :=
    ⟨⟨true, 9007199249498112, -21⟩, by decide +kernel, by norm_num [BinaryForm.value]⟩
  have hfar : Number.HasValue 1099511627781.5 1099511627781.5 :=
    ⟨⟨false, 4503599627393024, -12⟩, by decide +kernel, by norm_num [BinaryForm.value]⟩
  have hbelow_cut : cut (-4294967293.5) = -4294967293 := by norm_num [cut]
  have hfar_cut : cut 1099511627781.5 = 1099511627781 := by norm_num [cut]
  have hshifts := (bitwise_modular hbelow hfar).2.2.1
  rw [hbelow_cut, hfar_cut] at hshifts
  exact ⟨hbelow, hfar, hshifts ⟨by decide, by decide⟩ ⟨by decide, by decide⟩ .shiftLeft 96 (by decide) {}⟩

/-- The number after the last one of 64 bits is a multiple of `2 ^ 32`, but its word is not zero. And two
fractions that differ by such a multiple can have two words, if zero is between them. -/
theorem bitwise_beyond_wide :
    (Number.HasValue 9223372036854775808 (2 ^ 63) ∧ BinaryOp.onIntegers .bitOr (cut (2 ^ 63)) 0 = some 0 ∧
      Action.binary .bitOr (.number 9223372036854775808) (.number 0) {} = .ok (.number (Float.ofInt (-1))) {}) ∧
    Number.HasValue 0.5 0.5 ∧ Number.HasValue (-4294967295.5) (0.5 - 2 ^ 32) ∧
      Action.binary .bitOr (.number 0.5) (.number 0) {} = .ok (.number (Float.ofInt 0)) {} ∧
      Action.binary .bitOr (.number (-4294967295.5)) (.number 0) {} = .ok (.number (Float.ofInt 1)) {} := by
  have hzero : Number.word 0 = BitVec.ofInt 32 0 := by decide +kernel
  have hor {x : Float} {s : ℤ} (hx : Number.word x = BitVec.ofInt 32 s)
      (hs : BinaryOp.onIntegers .bitOr s 0 = some s) :=
    BinaryOp.onIntegers_words hs hx hzero {}
  have hcut : cut (2 ^ 63) = 9223372036854775808 := by norm_num [cut]
  refine ⟨⟨⟨⟨false, 4503599627370496, 11⟩, by decide +kernel, by norm_num [BinaryForm.value]⟩, hcut ▸ rfl, ?_⟩,
    ⟨⟨false, 4503599627370496, -53⟩, by decide +kernel, by norm_num [BinaryForm.value]⟩,
    ⟨⟨true, 9007199253692416, -21⟩, by decide +kernel, by norm_num [BinaryForm.value]⟩, ?_, ?_⟩
  all_goals exact hor (by decide +kernel) (by decide +kernel)

end ScriptLang
