import LinuxKernel.V012.Math.TempReal

/-!
# LinuxKernel.V012.Math.Div

**Division**, `kernel/math/div.c`: the divisor is moved down one bit a turn and taken from what is
left of the dividend where it fits; a moving mask collects the quotient.

- The 64 turns fill the two high words only, so the test of the low words for `set_PE` never holds.
- The quotient has 63 or 64 bits; where it has 63, the last bit of the result is always 0.
- `fdiv_truncates` says when the result is right all the same.
-/

namespace LinuxKernel.V012.Math

open TempReal

/-! ### The source -/

/-- What `div64` works on; the pointer is at `c[word]`. -/
structure DivState where
  a : Quad
  b : Quad
  c : Quad
  mask : BitVec 32
  word : Nat

/-- `if (!(mask >>= 1)) { c--; mask = 0x80000000; }` -/
def nextMask (mask : BitVec 32) (word : Nat) : BitVec 32 × Nat :=
  if mask >>> 1 = 0 then (0x80000000, word - 1) else (mask >>> 1, word)

def divStep (s : DivState) : DivState :=
  let p := nextMask s.mask s.word
  let r := s.a.sub s.b
  if r.2 then { s with b := s.b.half, mask := p.1, word := p.2 }
  else { a := r.1, b := s.b.half, c := s.c.orAt p.2 p.1, mask := p.1, word := p.2 }

def div64 (a b c : Quad) : Quad := (divStep^[64] ⟨a, b, c, 0, 4⟩).c

/-- `while (b[3] >= 0) { i++; shift_left(b); }`: the turns and the divisor, which is not 0. -/
def shiftDivisor (b : Quad) : Nat × Quad :=
  let r := raise Quad.isNeg Quad.double 64 b
  (64 - r.1, r.2)

/-- From the quotient on. -/
def putQuotient (swd : BitVec 32) (i : Nat) (sign : BitVec 16) (tmp : Quad) (result : TempReal) :
    BitVec 32 × TempReal :=
  let r := if tmp.isSet then raise Quad.isNeg Quad.double i tmp else (0, tmp)
  let swd := if tmp.isSet ∧ r.2.isNeg = false then setDE swd else swd
  if 0x7fff < r.1 then (setOE swd, result)
  else
    let swd := if r.2.c0 ≠ 0 ∨ r.2.c1 ≠ 0 then setPE swd else swd
    (swd, ⟨⟨r.2.c2, r.2.c3⟩, BitVec.ofNat 16 r.1 ||| sign⟩)

/-- The status word and `*result`. -/
def fdiv (swd : BitVec 32) (src1 src2 result : TempReal) : BitVec 32 × TempReal :=
  let sign := (src1.exponent ^^^ src2.exponent) &&& 0x8000
  if src2.a = 0 ∧ src2.b = 0 then (setZE swd, result)
  else
    let i : ℤ := src1.exp - src2.exp + 16383
    if i < 0 then (setUE swd, ⟨⟨0, 0⟩, sign⟩)
    else
      let b := shiftDivisor ⟨0, 0, src2.a, src2.b⟩
      let tmp := div64 ⟨0, 0, src1.a, src1.b⟩ b.2 Quad.zero
      putQuotient swd (i.toNat + b.1) sign tmp result

/-! ### The turns -/

/-- After `j` turns the mask is at bit `128 - j` of the quotient. -/
def PointsAt (j : Nat) (mask : BitVec 32) (word : Nat) : Prop :=
  (j = 0 ∧ mask = 0 ∧ word = 4) ∨
    (1 ≤ j ∧ word < 4 ∧ ∃ n < 32, mask.toNat = 2 ^ n ∧ 32 * word + n = 128 - j)

theorem PointsAt.next {j word : Nat} {mask : BitVec 32} (hj : j < 64) (h : PointsAt j mask word) :
    PointsAt (j + 1) (nextMask mask word).1 (nextMask mask word).2 := by
  unfold nextMask
  rcases h with ⟨rfl, rfl, rfl⟩ | ⟨hj1, hword, n, hn, hmask, hpos⟩
  · exact .inr ⟨by decide, by decide, 31, by decide, by decide, by decide⟩
  · have hshift : (mask >>> 1).toNat = 2 ^ n / 2 := by
      rw [BitVec.toNat_ushiftRight, Nat.shiftRight_eq_div_pow, hmask, pow_one]
    cases n with
    | zero =>
        rw [if_pos (BitVec.eq_of_toNat_eq hshift)]
        exact .inr ⟨by omega, by omega, 31, by decide, rfl, by omega⟩
    | succ n =>
        have hhalf : 2 ^ (n + 1) / 2 = 2 ^ n := by
          rw [pow_succ, Nat.mul_div_cancel _ (by decide)]
        rw [hhalf] at hshift
        have hne : mask >>> 1 ≠ 0 := by
          intro h0
          rw [h0] at hshift
          exact absurd hshift.symm (Nat.ne_of_gt (Nat.two_pow_pos n))
        rw [if_neg hne]
        exact .inr ⟨by omega, hword, n, by omega, hshift, by omega⟩

/-- The invariant of the turns: `q` is the quotient so far, `s.a` what is left of the dividend. -/
structure Divides (x y j : Nat) (s : DivState) : Prop where
  at_mask : PointsAt j s.mask s.word
  divisor : s.b.toNat = y * 2 ^ (64 - j)
  left : s.a.toNat < 2 * s.b.toNat
  quotient : ∃ q, s.c.toNat = q * 2 ^ (128 - j) ∧ s.a.toNat + q * (2 * s.b.toNat) = x * 2 ^ 64

theorem Divides.step {x y j : Nat} {s : DivState} (hj : j < 64) (h : Divides x y j s) :
    Divides x y (j + 1) (divStep s) := by
  have hnext := h.at_mask.next hj
  obtain ⟨q, hq, hleft⟩ := h.quotient
  obtain ⟨hflag, hsub⟩ := Quad.sub_spec s.a s.b
  have hhalf := Quad.half_toNat s.b
  have hlt := h.left
  have hdiv := h.divisor
  have hpow : 2 ^ (64 - j) = 2 * 2 ^ (64 - (j + 1)) := by
    rw [← pow_succ']
    congr 1
    omega
  have hcpow : 2 ^ (128 - j) = 2 * 2 ^ (128 - (j + 1)) := by
    rw [← pow_succ']
    congr 1
    omega
  have hhalf' : 2 * s.b.half.toNat = s.b.toNat := by
    rw [hhalf, hdiv, hpow, Nat.mul_left_comm]
    omega
  have hdiv' : s.b.half.toNat = y * 2 ^ (64 - (j + 1)) := by
    rw [hdiv, hpow, Nat.mul_left_comm] at hhalf'
    omega
  unfold divStep
  dsimp only
  rw [hflag]
  by_cases hcase : s.a.toNat < s.b.toNat
  · rw [if_pos (decide_eq_true hcase)]
    refine ⟨hnext, hdiv', by dsimp only; omega, 2 * q, ?_, ?_⟩
    · rw [hq, hcpow]
      ring
    · rw [hhalf', ← hleft]
      ring
  · rw [if_neg (by rw [decide_eq_true_iff]; exact hcase)]
    have hsub' := hsub (by omega)
    refine ⟨hnext, hdiv', by dsimp only; omega, 2 * q + 1, ?_, ?_⟩
    · obtain ⟨h0, _⟩ | ⟨_, hword, n, hn, hmask, hpos⟩ := hnext
      · exact absurd h0 (by omega)
      · have hbit : 32 * (nextMask s.mask s.word).2 + n + 1 = 128 - j := by omega
        have hor := Quad.orAt_toNat hword hn hmask (c := s.c)
          (by rw [hbit]; exact ⟨q, by rw [hq, Nat.mul_comm]⟩)
        rw [hpos] at hor
        dsimp only
        rw [hor, hq, hcpow]
        ring
    · rw [hhalf', hsub', ← hleft]
      have hsplit : s.a.toNat = s.a.toNat - s.b.toNat + s.b.toNat := by omega
      rw [hsplit, Nat.add_sub_cancel]
      ring

/-- The quotient of the turns is rounded down and has no more than 64 bits. -/
theorem div64_toNat {a b : Quad} {x y : Nat} (ha : a.toNat = x * 2 ^ 64) (hb : b.toNat = y * 2 ^ 64)
    (hlt : x < 2 * y) : (div64 a b Quad.zero).toNat = 2 ^ 63 * x / y * 2 ^ 64 := by
  have hrun : ∀ j ≤ 64, Divides x y j (divStep^[j] ⟨a, b, Quad.zero, 0, 4⟩) := by
    intro j
    induction j with
    | zero =>
        refine fun _ => ⟨.inl ⟨rfl, rfl, rfl⟩, hb, ?_, 0, ?_, ?_⟩
        · rw [Function.iterate_zero_apply]
          dsimp only
          omega
        · rw [Nat.zero_mul]
          exact Quad.zero_toNat
        · rw [Nat.zero_mul, Nat.add_zero]
          exact ha
    | succ j ih =>
        intro hj
        rw [Function.iterate_succ_apply']
        exact (ih (by omega)).step (by omega)
  have hlast := hrun 64 (le_refl _)
  obtain ⟨q, hq, hleft⟩ := hlast.quotient
  have hlt' := hlast.left
  rw [hlast.divisor, Nat.sub_self, pow_zero, Nat.mul_one] at hleft hlt'
  have hmul : q * (2 * y) = 2 * (q * y) := Nat.mul_left_comm ..
  have hquot : 2 ^ 63 * x / y = q := by
    refine Nat.div_eq_of_lt_le ?_ ?_
    · omega
    · rw [Nat.succ_mul]
      omega
  unfold div64
  rw [hq, hquot]

/-! ### The quotient -/

variable {x y : TempReal}

/-- One more doubling where the significand of the dividend is the smaller one. -/
def extra (x y : TempReal) : Nat := if y.m ≤ x.m then 0 else 1

/-- The quotient of the significands, in bits of the result. -/
theorem quotient_bounds (hx : x.Normal) (hy : y.Normal) :
    2 ^ 63 ≤ 2 ^ 63 * x.m / y.m * 2 ^ extra x y ∧ 2 ^ 63 * x.m / y.m * 2 ^ extra x y < 2 ^ 64 ∧
      (extra x y = 1 → 2 ^ 63 * x.m / y.m < 2 ^ 63) := by
  have hxlt := x.m_lt
  have hylt := y.m_lt
  unfold TempReal.Normal at hx hy
  have hpos : 0 < y.m := by omega
  unfold extra
  by_cases h : y.m ≤ x.m
  · rw [if_pos h, pow_zero, Nat.mul_one]
    refine ⟨(Nat.le_div_iff_mul_le hpos).mpr (Nat.mul_le_mul_left _ h),
      (Nat.div_lt_iff_lt_mul hpos).mpr ?_, fun h => absurd h (by decide)⟩
    omega
  · rw [if_neg h, pow_one]
    have hge : 2 ^ 62 ≤ 2 ^ 63 * x.m / y.m := (Nat.le_div_iff_mul_le hpos).mpr (by omega)
    have hlt : 2 ^ 63 * x.m / y.m < 2 ^ 63 := (Nat.div_lt_iff_lt_mul hpos).mpr (by omega)
    exact ⟨by omega, by omega, fun _ => hlt⟩

/-- The doublings that the quotient needs are the ones the loop makes. -/
theorem raise_quotient {c : Quad} {q i k : Nat} (hc : c.toNat = q * 2 ^ 64) (hk : k ≤ 1)
    (hi : 2 ≤ i) (hlo : 2 ^ 63 ≤ q * 2 ^ k) (hmin : k = 1 → q < 2 ^ 63) :
    ∃ d : Quad, raise Quad.isNeg Quad.double i c = (i - k, d) ∧ d.toNat = q * 2 ^ k * 2 ^ 64 := by
  obtain ⟨k', hk', hrun, hval, htop, hmin'⟩ := Quad.doubles.raise_spec i c
  rw [hc] at hval htop hmin'
  have hone : k' ≤ 1 := by
    refine Nat.le_of_not_lt fun h => ?_
    have hle : q * 2 ^ k ≤ q * 2 ^ (k' - 1) :=
      Nat.mul_le_mul_left q (Nat.pow_le_pow_right (by decide) (by omega))
    have h' := hmin' (by omega)
    rw [Nat.mul_right_comm] at h'
    omega
  have htop' := htop (by omega)
  have hsame : k' = k := by
    rcases Nat.le_one_iff_eq_zero_or_eq_one.mp hone with rfl | rfl
    · rcases Nat.le_one_iff_eq_zero_or_eq_one.mp hk with rfl | rfl
      · rfl
      · have := hmin rfl
        omega
    · rcases Nat.le_one_iff_eq_zero_or_eq_one.mp hk with rfl | rfl
      · have := hmin' (by decide)
        omega
      · rfl
  rw [hsame] at hrun hval
  exact ⟨_, hrun, by rw [hval, Nat.mul_right_comm]⟩

theorem putQuotient_eq (swd : BitVec 32) (s : Bool) (result : TempReal) {c : Quad} {q i k : Nat}
    (hc : c.toNat = q * 2 ^ 64) (hk : k ≤ 1) (hi : 2 ≤ i) (hi' : i ≤ 0x7ffe)
    (hlo : 2 ^ 63 ≤ q * 2 ^ k) (hmin : k = 1 → q < 2 ^ 63) :
    ∃ w : Wide, w.toNat = q * 2 ^ k ∧
      putQuotient swd i (Exponent.make s 0) c result = (swd, of w s (i - k)) := by
  obtain ⟨d, hrun, hd⟩ := raise_quotient hc hk hi hlo hmin
  have hset : c.isSet = true := by
    rw [Quad.isSet_iff, hc]
    intro h0
    have hq : q = 0 := by omega
    rw [hq, Nat.zero_mul] at hlo
    exact absurd hlo (by decide)
  have hneg : d.isNeg = true := by
    rw [Quad.isNeg_iff, hd]
    omega
  have hhigh : d.high.toNat = q * 2 ^ k := by
    rw [Quad.high_toNat, hd]
    omega
  -- the low words stay clear
  have hlow : d.c0 = 0 ∧ d.c1 = 0 := by
    have h : d.low.toNat = 0 := by
      rw [Quad.low_toNat, hd]
      omega
    exact Wide.toNat_eq_zero.mp h
  refine ⟨d.high, hhigh, ?_⟩
  unfold putQuotient
  rw [if_pos hset, hrun]
  dsimp only
  have hunset : ¬ (c.isSet = true ∧ d.isNeg = false) := by
    rw [hneg]
    exact fun h => Bool.noConfusion h.2
  have hexact : ¬ (d.c0 ≠ 0 ∨ d.c1 ≠ 0) := by
    rw [hlow.1, hlow.2]
    exact fun h => h.elim (fun h => h rfl) fun h => h rfl
  rw [if_neg hunset, if_neg hexact, if_neg (by omega), result_eq (by omega)]

/-- What the division of normalised numbers comes to; the status word is never touched. -/
theorem fdiv_eq (swd : BitVec 32) (result : TempReal) (hx : x.Normal) (hy : y.Normal)
    (hlo : 2 ≤ (x.exp : ℤ) - y.exp + 16383) (hhi : (x.exp : ℤ) - y.exp + 16383 ≤ 0x7ffe) :
    ∃ w : Wide, w.toNat = 2 ^ 63 * x.m / y.m * 2 ^ extra x y ∧
      fdiv swd x y result = (swd, of w (x.negative ^^ y.negative)
        (((x.exp : ℤ) - y.exp + 16383).toNat - extra x y)) := by
  have hxlt := x.m_lt
  obtain ⟨hqlo, hqhi, hmin⟩ := quotient_bounds hx hy
  have hextra : extra x y ≤ 1 := by
    unfold extra
    split
    · decide
    · decide
  have hquad : ∀ z : TempReal, (⟨0, 0, z.a, z.b⟩ : Quad).toNat = z.m * 2 ^ 64 := by
    intro z
    rw [Quad.toNat_eq]
    unfold m Wide.toNat
    dsimp only
    rw [show (0 : BitVec 32).toNat = 0 from rfl]
    omega
  have hdivisor : shiftDivisor ⟨0, 0, y.a, y.b⟩ = (0, ⟨0, 0, y.a, y.b⟩) := by
    unfold shiftDivisor
    have hneg : (⟨0, 0, y.a, y.b⟩ : Quad).isNeg = true := hy.isNeg
    rw [raise, if_pos hneg]
    exact rfl
  have hdiv := div64_toNat (hquad x) (hquad y)
    (by unfold TempReal.Normal at hy; omega)
  obtain ⟨w, hw, hput⟩ := putQuotient_eq swd (x.negative ^^ y.negative) result
    (i := ((x.exp : ℤ) - y.exp + 16383).toNat) hdiv hextra (by omega) (by omega) hqlo hmin
  refine ⟨w, hw, ?_⟩
  have hne : ¬ (y.a = 0 ∧ y.b = 0) := by
    rw [← Wide.toNat_eq_zero]
    exact Nat.ne_of_gt hy.m_pos
  unfold fdiv
  dsimp only
  rw [if_neg hne, if_neg (by omega), hdivisor, sign_eq]
  exact hput

/-- What the division of `x` by `y` should leave: the quotient rounded down to the precision of the
result, and the flag where that lost something. -/
structure Truncates (swd swd' : BitVec 32) (x y r : TempReal) : Prop where
  normal : r.Normal
  sgn : r.sgn = x.sgn * y.sgn
  le : |r.value| ≤ |x.value / y.value|
  lt : |x.value / y.value| < |r.value| + 2 ^ ((r.exp : ℤ) - 16446)
  flag : swd' = if |r.value| = |x.value / y.value| then swd else setPE swd

theorem abs_quotient {k e : Nat} (he : (e : ℤ) + k = (x.exp : ℤ) - y.exp + 16383) :
    |x.value / y.value| =
      ((2 ^ 63 * x.m * 2 ^ k : Nat) : ℚ) / y.m * 2 ^ ((e : ℤ) - 16446) := by
  have hpow : (2 : ℚ) ^ ((x.exp : ℤ) - 16446) / 2 ^ ((y.exp : ℤ) - 16446) =
      2 ^ 63 * 2 ^ k * 2 ^ ((e : ℤ) - 16446) := by
    rw [← zpow_sub₀ (by decide), ← zpow_natCast, ← zpow_natCast, ← zpow_add₀ (by decide),
      ← zpow_add₀ (by decide)]
    congr 1
    push_cast
    omega
  rw [abs_div, abs_value, abs_value, mul_div_mul_comm, hpow]
  push_cast
  ring

/-- In units of the result the comparisons are those of numbers. -/
theorem truncates_iff {swd swd' : BitVec 32} {w : Wide} {e k : Nat} (hy : 0 < y.m)
    (he : (e : ℤ) + k = (x.exp : ℤ) - y.exp + 16383) (he' : e < 2 ^ 15) (hw : 2 ^ 63 ≤ w.toNat) :
    Truncates swd swd' x y (of w (x.negative ^^ y.negative) e) ↔
      w.toNat * y.m ≤ 2 ^ 63 * x.m * 2 ^ k ∧ 2 ^ 63 * x.m * 2 ^ k < (w.toNat + 1) * y.m ∧
      swd' = if w.toNat * y.m = 2 ^ 63 * x.m * 2 ^ k then swd else setPE swd := by
  have hunit : (0 : ℚ) < 2 ^ ((e : ℤ) - 16446) := by positivity
  have hy' : (0 : ℚ) < y.m := by exact_mod_cast hy
  have hquot := abs_quotient he
  have hvalue : |(of w (x.negative ^^ y.negative) e).value| =
      w.toNat * 2 ^ ((e : ℤ) - 16446) := by
    rw [abs_value, of_exp he', of_m]
  have hle : |(of w (x.negative ^^ y.negative) e).value| ≤ |x.value / y.value| ↔
      w.toNat * y.m ≤ 2 ^ 63 * x.m * 2 ^ k := by
    rw [hvalue, hquot, mul_le_mul_iff_left₀ hunit, le_div_iff₀ hy']
    exact_mod_cast Iff.rfl
  have hlt : |x.value / y.value| < |(of w (x.negative ^^ y.negative) e).value| +
      2 ^ (((of w (x.negative ^^ y.negative) e).exp : ℤ) - 16446) ↔
      2 ^ 63 * x.m * 2 ^ k < (w.toNat + 1) * y.m := by
    rw [hvalue, hquot, of_exp he', ← add_one_mul, mul_lt_mul_iff_left₀ hunit, div_lt_iff₀ hy']
    exact_mod_cast Iff.rfl
  have heq : |(of w (x.negative ^^ y.negative) e).value| = |x.value / y.value| ↔
      w.toNat * y.m = 2 ^ 63 * x.m * 2 ^ k := by
    rw [hvalue, hquot, mul_left_inj' (ne_of_gt hunit), eq_div_iff (ne_of_gt hy')]
    exact_mod_cast Iff.rfl
  constructor
  · intro h
    exact ⟨hle.mp h.le, hlt.mp h.lt, by simpa only [heq] using h.flag⟩
  · rintro ⟨h1, h2, h3⟩
    refine ⟨hw, ?_, hle.mpr h1, hlt.mpr h2, by simpa only [heq] using h3⟩
    exact sgn_of_xor

/-- A quotient of 63 bits, doubled, is the one of 64 bits if that is even. -/
theorem double_quotient {n d : Nat} (hd : 0 < d) :
    2 * n < (2 * (n / d) + 1) * d ↔ 2 * n / d % 2 = 0 := by
  have hsplit := Nat.div_add_mod n d
  have hmod := Nat.mod_lt n hd
  have hquot : 2 * n / d = 2 * (n / d) + 2 * (n % d) / d := by
    have h : 2 * n = 2 * (n % d) + d * (2 * (n / d)) := by
      rw [Nat.mul_left_comm]
      omega
    rw [h, Nat.add_mul_div_left _ _ hd, Nat.add_comm]
  have hlt : 2 * n < (2 * (n / d) + 1) * d ↔ 2 * (n % d) < d := by
    rw [Nat.add_mul, Nat.one_mul, Nat.mul_assoc, Nat.mul_comm (n / d) d]
    omega
  rw [hlt, hquot]
  constructor
  · intro h
    rw [Nat.div_eq_of_lt h]
    omega
  · intro h
    refine Nat.lt_of_not_le fun hle => ?_
    have h1 : 2 * (n % d) / d = 1 := Nat.div_eq_of_lt_le (by omega) (by omega)
    omega

/-- The division truncates and reports what it loses if the quotient is exact, or if the flag is set
already and the quotient has 64 bits or its last bit is 0. -/
theorem fdiv_truncates (swd : BitVec 32) (x y result : TempReal) (hx : x.Normal) (hy : y.Normal)
    (hlo : 2 ≤ (x.exp : ℤ) - y.exp + 16383) (hhi : (x.exp : ℤ) - y.exp + 16383 ≤ 0x7ffe) :
    Truncates swd (fdiv swd x y result).1 x y (fdiv swd x y result).2 ↔
      y.m ∣ 2 ^ 63 * x.m ∨
        (setPE swd = swd ∧ (y.m ≤ x.m ∨ 2 ^ 64 * x.m / y.m % 2 = 0)) := by
  obtain ⟨w, hw, hr⟩ := fdiv_eq swd result hx hy hlo hhi
  obtain ⟨hqlo, _, _⟩ := quotient_bounds hx hy
  have hpos := hy.m_pos
  have hextra : extra x y = if y.m ≤ x.m then 0 else 1 := rfl
  have hextra1 : extra x y ≤ 1 := by
    rw [hextra]
    split
    · decide
    · decide
  rw [hr, truncates_iff (k := extra x y) hpos (by omega) (by omega) (by omega)]
  have hsplit := Nat.div_add_mod (2 ^ 63 * x.m) y.m
  have hmod := Nat.mod_lt (2 ^ 63 * x.m) hpos
  have hle : w.toNat * y.m ≤ 2 ^ 63 * x.m * 2 ^ extra x y := by
    rw [hw, Nat.mul_right_comm]
    exact Nat.mul_le_mul_right _ (Nat.div_mul_le_self _ _)
  have heq : w.toNat * y.m = 2 ^ 63 * x.m * 2 ^ extra x y ↔ y.m ∣ 2 ^ 63 * x.m := by
    rw [hw, Nat.mul_right_comm, Nat.mul_left_inj (Nat.ne_of_gt (Nat.two_pow_pos _))]
    exact ⟨fun h => ⟨_, (h.symm.trans (Nat.mul_comm _ _))⟩, Nat.div_mul_cancel⟩
  have hlt : 2 ^ 63 * x.m * 2 ^ extra x y < (w.toNat + 1) * y.m ↔
      y.m ≤ x.m ∨ 2 ^ 64 * x.m / y.m % 2 = 0 := by
    rw [hw, hextra]
    by_cases h : y.m ≤ x.m
    · rw [if_pos h, pow_zero, Nat.mul_one, Nat.mul_one]
      refine iff_of_true ?_ (.inl h)
      rw [Nat.add_mul, Nat.mul_comm _ y.m]
      omega
    · rw [if_neg h, pow_one, Nat.mul_comm _ 2, Nat.mul_comm _ 2, double_quotient hpos,
        ← Nat.mul_assoc, show 2 * 2 ^ 63 = 2 ^ 64 from rfl, or_iff_right h]
  rw [hlt]
  by_cases hdvd : y.m ∣ 2 ^ 63 * x.m
  · rw [if_pos (heq.mpr hdvd)]
    refine iff_of_true ⟨hle, hlt.mp ?_, rfl⟩ (.inl hdvd)
    rw [← heq.mpr hdvd]
    exact Nat.mul_lt_mul_of_pos_right (Nat.lt_succ_self _) hpos
  · rw [if_neg (fun h => hdvd (heq.mp h)), or_iff_right hdvd]
    exact ⟨fun h => ⟨h.2.2.symm, h.2.1⟩, fun h => ⟨hle, h.2, h.1.symm⟩⟩

/-- `1 / 1` -/
theorem fdiv_truncates_one :
    Truncates 0 (fdiv 0 ⟨⟨0, 0x80000000⟩, 0x3fff⟩ ⟨⟨0, 0x80000000⟩, 0x3fff⟩ ⟨⟨0, 0⟩, 0⟩).1
      ⟨⟨0, 0x80000000⟩, 0x3fff⟩ ⟨⟨0, 0x80000000⟩, 0x3fff⟩
      (fdiv 0 ⟨⟨0, 0x80000000⟩, 0x3fff⟩ ⟨⟨0, 0x80000000⟩, 0x3fff⟩ ⟨⟨0, 0⟩, 0⟩).2 :=
  (fdiv_truncates 0 ⟨⟨0, 0x80000000⟩, 0x3fff⟩ ⟨⟨0, 0x80000000⟩, 0x3fff⟩ ⟨⟨0, 0⟩, 0⟩ (by decide)
    (by decide) (by decide) (by decide)).mpr (.inl (by decide))

/-- `1 / 7`: nothing is reported, and the last bit is lost. -/
theorem not_fdiv_truncates_seventh :
    ¬ ∀ (swd : BitVec 32) (x y result : TempReal), x.Normal → y.Normal →
      2 ≤ (x.exp : ℤ) - y.exp + 16383 → (x.exp : ℤ) - y.exp + 16383 ≤ 0x7ffe →
      Truncates swd (fdiv swd x y result).1 x y (fdiv swd x y result).2 := by
  intro hall
  have h := hall 0 ⟨⟨0, 0x80000000⟩, 0x3fff⟩ ⟨⟨0, 0xe0000000⟩, 0x4001⟩ ⟨⟨0, 0⟩, 0⟩ (by decide)
    (by decide) (by decide) (by decide)
  obtain ⟨w, hw, hr⟩ := fdiv_eq (x := ⟨⟨0, 0x80000000⟩, 0x3fff⟩) (y := ⟨⟨0, 0xe0000000⟩, 0x4001⟩) 0
    ⟨⟨0, 0⟩, 0⟩ (by decide) (by decide) (by decide) (by decide)
  rw [hr, truncates_iff (k := 1) (by decide) (by decide) (by decide) (by rw [hw]; decide), hw] at h
  exact absurd h.2.1 (by decide)

end LinuxKernel.V012.Math
