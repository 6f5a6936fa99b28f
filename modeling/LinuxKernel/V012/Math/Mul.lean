import LinuxKernel.V012.Math.TempReal

/-!
# LinuxKernel.V012.Math.Mul

**Multiplication**, `kernel/math/mul.c`: four products of two words each make the product of four
words, which is moved up to its top bit; the two low words are dropped.

- `swd` is the status word, which an overflow is noted in; the result is then not written.
- `mul64_toNat` is the product, `fmul_truncates` what the result is worth.
-/

namespace LinuxKernel.V012.Math

open TempReal

/-! ### The source -/

/-- The products of words of the same rank first, then the mixed ones added in the middle. -/
def mul64 (a b : Wide) : Quad :=
  let lo := Wide.mull a.a b.a
  let hi := Wide.mull a.b b.b
  let c : Quad := ⟨lo.a, lo.b, hi.a, hi.b⟩
  (c.addMid (Wide.mull a.a b.b)).addMid (Wide.mull a.b b.a)

/-- `while (i && tmp[3] >= 0) { i--; shift(tmp); }` -/
def shiftUp (i : Nat) (tmp : Quad) : Nat × Quad := raise Quad.isNeg Quad.double i tmp

/-- The status word and `*result`. -/
def fmul (swd : BitVec 32) (src1 src2 result : TempReal) : BitVec 32 × TempReal :=
  let sign := (src1.exponent ^^^ src2.exponent) &&& 0x8000
  let i : ℤ := src1.exp + src2.exp - 16383 + 1
  if i < 0 then (swd, ⟨⟨0, 0⟩, sign⟩)
  else if 0x7fff < i then (setOE swd, result)
  else
    let tmp := mul64 src1.toWide src2.toWide
    let r := if tmp.isSet then shiftUp i.toNat tmp else (0, tmp)
    (swd, ⟨⟨r.2.c2, r.2.c3⟩, BitVec.ofNat 16 r.1 ||| sign⟩)

/-! ### The product -/

variable {x y : TempReal}

theorem mul64_toNat (a b : Wide) : (mul64 a b).toNat = a.toNat * b.toNat := by
  have hlo := Wide.mull_toNat a.a b.a
  have hhi := Wide.mull_toNat a.b b.b
  have hab := Wide.mull_toNat a.a b.b
  have hba := Wide.mull_toNat a.b b.a
  have hlt : a.toNat * b.toNat < 2 ^ 128 := by
    rw [show 128 = 64 + 64 from rfl, pow_add]
    exact Nat.mul_lt_mul'' a.toNat_lt b.toNat_lt
  have hsplit : a.toNat * b.toNat = (Wide.mull a.b b.b).toNat * 2 ^ 64 +
      (Wide.mull a.a b.a).toNat + (Wide.mull a.a b.b).toNat * 2 ^ 32 +
      (Wide.mull a.b b.a).toNat * 2 ^ 32 := by
    rw [hlo, hhi, hab, hba]
    unfold Wide.toNat
    ring
  unfold mul64
  dsimp only
  rw [Quad.addMid_toNat, Quad.addMid_toNat, Nat.mod_add_mod]
  unfold Quad.toNat Quad.high Quad.low
  dsimp only
  rw [show (⟨(Wide.mull a.b b.b).a, (Wide.mull a.b b.b).b⟩ : Wide) = Wide.mull a.b b.b from rfl,
    show (⟨(Wide.mull a.a b.a).a, (Wide.mull a.a b.a).b⟩ : Wide) = Wide.mull a.a b.a from rfl,
    ← hsplit, Nat.mod_eq_of_lt hlt]

theorem fmul_eq (swd : BitVec 32) (result : TempReal) (hx : x.Normal) (hy : y.Normal)
    (hlo : 2 ≤ (x.exp : ℤ) + y.exp - 16382) (hhi : (x.exp : ℤ) + y.exp - 16382 ≤ 0x7ffe) :
    ∃ k ≤ 1, ∃ w : Wide, 2 ^ 63 ≤ w.toNat ∧ w.toNat = x.m * y.m * 2 ^ k / 2 ^ 64 ∧
      (fmul swd x y result).2 = of w (x.negative ^^ y.negative) (x.exp + y.exp - 16382 - k) := by
  have hprod := mul64_toNat x.toWide y.toWide
  have hge : 2 ^ 126 ≤ x.m * y.m := by
    rw [show 126 = 63 + 63 from rfl, pow_add]
    exact Nat.mul_le_mul hx hy
  have hset : (mul64 x.toWide y.toWide).isSet = true := by
    rw [Quad.isSet_iff, hprod]
    exact Nat.ne_of_gt (Nat.lt_of_lt_of_le (by decide) hge)
  obtain ⟨k, hk, hrun, hval, htop, hmin⟩ :=
    Quad.doubles.raise_spec (x.exp + y.exp - 16382) (mul64 x.toWide y.toWide)
  rw [hprod, show x.toWide.toNat * y.toWide.toNat = x.m * y.m from rfl] at *
  -- a second turn would double a number whose top bit is already set
  have hk1 : k ≤ 1 := by
    refine Nat.le_of_not_lt fun hk1 => ?_
    have hle : 2 ^ 126 * 2 ^ 1 ≤ x.m * y.m * 2 ^ (k - 1) :=
      Nat.mul_le_mul hge (Nat.pow_le_pow_right (by decide) (by omega))
    exact absurd (Nat.lt_of_le_of_lt hle (hmin (by omega))) (by decide)
  have htop' := htop (by omega)
  refine ⟨k, hk1, (Quad.double^[k] (mul64 x.toWide y.toWide)).high, ?_, ?_, ?_⟩
  · rw [Quad.high_toNat, hval]
    omega
  · rw [Quad.high_toNat, hval]
  · unfold fmul
    dsimp only
    rw [if_neg (by omega), if_neg (by omega), sign_eq,
      show ((x.exp : ℤ) + y.exp - 16383 + 1).toNat = x.exp + y.exp - 16382 by omega]
    rw [if_pos hset, shiftUp, hrun]
    exact result_eq (by omega) _

theorem fmul_zero (swd : BitVec 32) (result : TempReal) (h : x.Zero ∨ y.Zero) :
    (fmul swd x y result).2.Zero := by
  have hx := x.exp_lt
  have hy := y.exp_lt
  have hle : ¬ (0x7fff : ℤ) < (x.exp : ℤ) + y.exp - 16383 + 1 := by
    rcases h with h | h
    · have := h.2
      omega
    · have := h.2
      omega
  have hprod : (mul64 x.toWide y.toWide).toNat = 0 := by
    rw [mul64_toNat]
    rcases h with h | h
    · rw [show x.toWide.toNat = 0 from h.1, Nat.zero_mul]
    · rw [show y.toWide.toNat = 0 from h.1, Nat.mul_zero]
  have hset : ¬ (mul64 x.toWide y.toWide).isSet = true := by
    rw [Quad.isSet_iff, not_not]
    exact hprod
  unfold fmul
  dsimp only
  rw [sign_eq]
  by_cases hneg : (x.exp : ℤ) + y.exp - 16383 + 1 < 0
  · rw [if_pos hneg]
    exact ⟨Wide.toNat_eq_zero.mpr ⟨rfl, rfl⟩, Exponent.make_exp (by decide)⟩
  · rw [if_neg hneg, if_neg hle]
    rw [if_neg hset]
    dsimp only
    rw [result_eq (by decide)]
    refine ⟨?_, of_exp (by decide)⟩
    rw [of_m, Quad.high_toNat, hprod, Nat.zero_div]

/-- Multiplication keeps the sign and rounds the magnitude down to the result's precision; a product
with zero is zero. -/
theorem fmul_truncates (swd : BitVec 32) (x y result : TempReal) :
    (x.Normal → y.Normal → 2 ≤ (x.exp : ℤ) + y.exp - 16382 → (x.exp : ℤ) + y.exp - 16382 ≤ 0x7ffe →
      (fmul swd x y result).2.Normal ∧ (fmul swd x y result).2.sgn = x.sgn * y.sgn ∧
      |(fmul swd x y result).2.value| ≤ |x.value * y.value| ∧
      |x.value * y.value| < |(fmul swd x y result).2.value| +
        2 ^ (((fmul swd x y result).2.exp : ℤ) - 16446)) ∧
    (x.Zero ∨ y.Zero → (fmul swd x y result).2.Zero) := by
  refine ⟨fun hx hy hlo hhi => ?_, fmul_zero swd result⟩
  obtain ⟨k, hk, w, hw, hwk, hr⟩ := fmul_eq swd result hx hy hlo hhi
  rw [hr]
  have he : (of w (x.negative ^^ y.negative) (x.exp + y.exp - 16382 - k)).exp =
      x.exp + y.exp - 16382 - k := of_exp (by omega)
  have hprod : |x.value * y.value| = (x.m * y.m * 2 ^ k : Nat) / (2 ^ 64 : Nat) *
      2 ^ (((x.exp + y.exp - 16382 - k : Nat) : ℤ) - 16446) := by
    have hpow : (2 : ℚ) ^ ((x.exp : ℤ) - 16446) * 2 ^ ((y.exp : ℤ) - 16446) =
        2 ^ k / 2 ^ 64 * 2 ^ (((x.exp + y.exp - 16382 - k : Nat) : ℤ) - 16446) := by
      rw [← zpow_add₀ (by decide), ← zpow_natCast, ← zpow_natCast, ← zpow_sub₀ (by decide),
        ← zpow_add₀ (by decide)]
      congr 1
      omega
    rw [abs_mul, abs_value, abs_value, mul_mul_mul_comm, hpow]
    push_cast
    ring
  obtain ⟨hle, hlt⟩ := floor_near (x.m * y.m * 2 ^ k) (2 ^ 64) (by decide)
  refine ⟨hw, sgn_of_xor, ?_, ?_⟩
  · rw [abs_value, he, of_m, hwk, hprod]
    exact mul_le_mul_of_nonneg_right hle (by positivity)
  · rw [abs_value, he, of_m, hwk, hprod, ← add_one_mul]
    exact mul_lt_mul_of_pos_right hlt (by positivity)

/-- `1.5 * -1.5` -/
theorem fmul_truncates_square :
    (fmul 0 ⟨⟨0, 0xc0000000⟩, 0x3fff⟩ ⟨⟨0, 0xc0000000⟩, 0xbfff⟩ ⟨⟨0, 0⟩, 0⟩).2.Normal ∧
      (fmul 0 ⟨⟨0, 0xc0000000⟩, 0x3fff⟩ ⟨⟨0, 0xc0000000⟩, 0xbfff⟩ ⟨⟨0, 0⟩, 0⟩).2.sgn = -1 :=
  have h := (fmul_truncates 0 ⟨⟨0, 0xc0000000⟩, 0x3fff⟩ ⟨⟨0, 0xc0000000⟩, 0xbfff⟩ ⟨⟨0, 0⟩, 0⟩).1
    (by decide) (by decide) (by decide) (by decide)
  ⟨h.1, h.2.1⟩

end LinuxKernel.V012.Math
