import Mathlib.Data.BitVec

/-!
# LinuxKernel.Lib.Fields

**Fields of a word** as numbers: what masks, shifts and `|` make of `toNat`.

- A mask of `k` ones takes the remainder, one of `k` ones above `n` zeros a field in its place.
- `|` adds where the bits do not meet.
-/

namespace LinuxKernel.Fields

variable {w n k : Nat} {x y mask : BitVec w}

/-- Low bits put below bits that are there. -/
theorem toNat_or (h : 2 ^ n ∣ x.toNat) (hy : y.toNat < 2 ^ n) :
    (x ||| y).toNat = x.toNat + y.toNat := by
  obtain ⟨c, hc⟩ := h
  rw [BitVec.toNat_or, hc, Nat.two_pow_add_eq_or_of_lt hy]

theorem toNat_and (hmask : mask.toNat = 2 ^ k - 1) : (x &&& mask).toNat = x.toNat % 2 ^ k := by
  rw [BitVec.toNat_and, hmask, Nat.and_two_pow_sub_one_eq_mod]

/-- A field stays where it is. -/
theorem toNat_and_field (hmask : mask.toNat = (2 ^ k - 1) * 2 ^ n) :
    (x &&& mask).toNat = x.toNat / 2 ^ n % 2 ^ k * 2 ^ n := by
  rw [BitVec.toNat_and, hmask]
  refine Nat.eq_of_testBit_eq fun i => ?_
  rw [Nat.testBit_and, Nat.testBit_mul_two_pow, Nat.testBit_mul_two_pow, Nat.testBit_two_pow_sub_one,
    Nat.testBit_mod_two_pow, Nat.testBit_div_two_pow]
  by_cases h : n ≤ i
  · rw [Nat.sub_add_cancel h]
    cases x.toNat.testBit i <;> simp [h]
  · simp [h]

/-- Below the sign an arithmetic shift is a logical one. -/
theorem toNat_sshiftRight_and (hmask : mask.toNat = 2 ^ k - 1) (hk : n + k ≤ w) :
    (x.sshiftRight n &&& mask).toNat = x.toNat / 2 ^ n % 2 ^ k := by
  rw [BitVec.toNat_and, hmask]
  refine Nat.eq_of_testBit_eq fun i => ?_
  rw [Nat.testBit_and, Nat.testBit_two_pow_sub_one, Nat.testBit_mod_two_pow,
    Nat.testBit_div_two_pow, BitVec.testBit_toNat, BitVec.getLsbD_sshiftRight, BitVec.testBit_toNat]
  by_cases h : i < k
  · rw [if_pos (by omega), Nat.add_comm n i]
    simp only [h, decide_true, Bool.and_true, Bool.true_and]
    rw [decide_eq_false (by omega), Bool.not_false, Bool.true_and]
  · simp [h]

theorem toNat_shl (x : BitVec w) (n : Nat) : (x <<< n).toNat = x.toNat * 2 ^ n % 2 ^ w := by
  rw [BitVec.toNat_shiftLeft, Nat.shiftLeft_eq]

theorem toNat_shr (x : BitVec w) (n : Nat) : (x >>> n).toNat = x.toNat / 2 ^ n := by
  rw [BitVec.toNat_ushiftRight, Nat.shiftRight_eq_div_pow]

/-- The top bit set. -/
theorem toNat_top_or {x top : BitVec (w + 1)} (htop : top.toNat = 2 ^ w) :
    (top ||| x).toNat = 2 ^ w + x.toNat % 2 ^ w := by
  have hx := x.isLt
  have hr : x.toNat % 2 ^ w < 2 ^ w := Nat.mod_lt _ (Nat.two_pow_pos w)
  have hsum : 2 ^ w + x.toNat % 2 ^ w = 2 ^ w ||| x.toNat % 2 ^ w := by
    simpa using Nat.two_pow_add_eq_or_of_lt hr 1
  rw [BitVec.toNat_or, htop, hsum]
  rcases Nat.lt_or_ge x.toNat (2 ^ w) with h | h
  · rw [Nat.mod_eq_of_lt h]
  · have hmod : x.toNat % 2 ^ w = x.toNat - 2 ^ w := by
      rw [pow_succ] at hx
      rw [Nat.mod_eq_sub_mod h, Nat.mod_eq_of_lt (by omega)]
    have hsplit : x.toNat = 2 ^ w ||| x.toNat % 2 ^ w := by
      rw [← hsum, hmod]
      omega
    calc 2 ^ w ||| x.toNat = 2 ^ w ||| (2 ^ w ||| x.toNat % 2 ^ w) := by rw [← hsplit]
      _ = 2 ^ w ||| x.toNat % 2 ^ w := by rw [← Nat.or_assoc, Nat.or_self]

end LinuxKernel.Fields
