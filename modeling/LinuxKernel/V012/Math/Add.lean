import LinuxKernel.V012.Math.TempReal
import Mathlib.Tactic.Linarith

/-!
# LinuxKernel.V012.Math.Add

**Addition**, `kernel/math/add.c`: both numbers are moved down by two bits, which leaves room for a
carry and for the sign, and are added in two's complement.

- `signify` and `unsignify` go between sign and magnitude and two's complement.
- `Reads r s e`: `r` is the integer `s` at exponent `e`.
- `add_spec` says what the addition comes to, `fadd_comm` and `fadd_near` what it is worth.
-/

namespace LinuxKernel.V012.Math

open TempReal

/-! ### The source -/

def signify (a : TempReal) : TempReal :=
  let e := a.exponent + 2
  let w := a.toWide.shr 2
  { toWide := if e.msb then w.neg else w, exponent := e &&& 0x7fff }

/-- One turn of `while (a->b >= 0)`. -/
def scaleUp (a : TempReal) : TempReal :=
  { toWide := a.toWide.double, exponent := a.exponent - 1 }

/-- The loop as a whole; 64 turns are enough for a significand that is not 0. -/
def normal (a : TempReal) : TempReal := (raise (fun a => a.toWide.isNeg) scaleUp 64 a).2

def unsignify (a : TempReal) : TempReal :=
  if a.a = 0 ∧ a.b = 0 then { a with exponent := 0 }
  else
    let e := a.exponent &&& 0x7fff
    if a.toWide.isNeg then normal { toWide := a.toWide.neg, exponent := e ||| 0x8000 }
    else normal { a with exponent := e }

/-- The significand `shift < 64` places further down. -/
def align (shift : Nat) (b : Wide) : Wide :=
  if 32 ≤ shift then Wide.shr (shift - 32) ⟨b.b, 0⟩ else b.shr shift

/-- The rest of `fadd`, with the larger exponent in `a`. -/
def addFrom (a b : TempReal) (shift : Nat) : TempReal :=
  if 64 ≤ shift then a
  else
    let x := signify a
    let y := signify (b.setWide (align shift b.toWide))
    unsignify (x.setWide (x.toWide.add y.toWide))

def fadd (src1 src2 : TempReal) : TempReal :=
  if src2.exp < src1.exp then addFrom src1 src2 (src1.exp - src2.exp)
  else addFrom src2 src1 (src2.exp - src1.exp)

/-! ### The pieces -/

variable {x y a b : TempReal} {e : Nat}

theorem scaleUp_doubles : Doubles TempReal.m (fun a => a.toWide.isNeg) scaleUp 63 where
  lt := m_lt
  top_iff _ := Wide.isNeg_iff
  val_double a := Wide.double_toNat a.toWide

theorem scaleUp_exponent (k : Nat) (a : TempReal) :
    (scaleUp^[k] a).exponent = a.exponent - BitVec.ofNat 16 k := by
  induction k with
  | zero => exact (BitVec.sub_zero _).symm
  | succ k ih =>
      rw [Function.iterate_succ_apply', BitVec.ofNat_add, ← BitVec.sub_sub, ← ih]
      rfl

/-- The loop ends with a normalised significand. -/
theorem normal_spec (hm : 0 < a.m) :
    ∃ k ≤ 63, (normal a).m = a.m * 2 ^ k ∧ (normal a).Normal ∧
      (normal a).exponent = a.exponent - BitVec.ofNat 16 k := by
  obtain ⟨k, hk, hrun, hval, htop, hlt⟩ := scaleUp_doubles.raise_top (i := 64)
    (Nat.le_trans (Nat.pow_le_pow_right (by decide) (by decide)) (Nat.le_mul_of_pos_left _ hm))
  have hk63 : k < 64 := by
    refine (Nat.pow_lt_pow_iff_right (by decide : 1 < 2)).mp (Nat.lt_of_le_of_lt ?_ hlt)
    exact Nat.le_mul_of_pos_left _ hm
  unfold normal
  rw [hrun]
  exact ⟨k, by omega, hval, by rwa [TempReal.Normal, hval], scaleUp_exponent k a⟩

theorem normal_reads (hm : 0 < a.m) (he : 63 ≤ a.exp) : (normal a).Reads a.signed a.exp := by
  obtain ⟨k, hk, hmk, hnormal, hexp⟩ := normal_spec hm
  have hlt := a.exp_lt
  rw [exponent_ext a.exp_lt rfl rfl, Exponent.sub_make (by omega) hlt] at hexp
  have hsign : (normal a).negative = a.negative := by
    unfold negative
    rw [hexp, Exponent.make_msb]
    rfl
  have hne : a.signed ≠ 0 := by
    rw [signed_eq]
    split
    · omega
    · omega
  refine ⟨fun h0 => absurd h0 hne, fun _ => ?_, fun _ => ⟨k, hk, ?_, ?_, hnormal⟩⟩
  · rw [hsign, signed_eq]
    split
    case isTrue hneg => rw [hneg, decide_eq_true (by omega)]
    case isFalse hneg => rw [eq_false_of_ne_true hneg, decide_eq_false (by omega)]
  · unfold exp at *
    rw [hexp, Exponent.make_exp (by omega)]
    omega
  · rw [hmk, signed_eq]
    split
    · rw [Int.natAbs_neg, Int.natAbs_natCast]
    · rw [Int.natAbs_natCast]

theorem normal_of_reads {w : Wide} {s : Bool} (hw : 0 < w.toNat) (he : 63 ≤ e) (he' : e < 2 ^ 15) :
    (normal (of w s e)).Reads (if s then -(w.toNat : ℤ) else w.toNat) e := by
  have h := normal_reads (a := of w s e) hw (by rwa [of_exp he'])
  rwa [of_signed, of_exp he'] at h

theorem unsignify_reads (hlt : |a.toWide.toInt| < 2 ^ 63) (he : a.toWide.toInt = 0 ∨ 63 ≤ a.exp) :
    (unsignify a).Reads a.toWide.toInt a.exp := by
  have hexp := a.exp_lt
  have hsize := a.toWide.toNat_lt
  have hzero : a.a = 0 ∧ a.b = 0 ↔ a.toWide.toInt = 0 := by
    rw [Wide.toInt_eq_zero, Wide.toNat_eq_zero]
  unfold unsignify
  by_cases h0 : a.toWide.toInt = 0
  · rw [if_pos (hzero.mpr h0), h0]
    exact ⟨fun _ => ⟨Wide.toInt_eq_zero.mp h0, rfl⟩, fun h => absurd rfl h, fun h => absurd rfl h⟩
  · have he := he.resolve_left h0
    rw [if_neg (fun h => h0 (hzero.mp h)), exponent_ext hexp rfl rfl, Exponent.and_make]
    dsimp only
    rw [abs_lt] at hlt
    by_cases hneg : a.toWide.isNeg = true
    · have hint := Wide.toInt_of_le (Wide.isNeg_iff.mp hneg)
      have habs := Wide.neg_toNat a.toWide
      have hreads := normal_of_reads (w := a.toWide.neg) (s := true) (by omega) he hexp
      rw [if_pos hneg, Exponent.or_make]
      rwa [if_pos rfl, show -(a.toWide.neg.toNat : ℤ) = a.toWide.toInt by omega] at hreads
    · have hint : a.toWide.toInt = a.toWide.toNat :=
        Wide.toInt_of_lt (Nat.lt_of_not_le fun h => hneg (Wide.isNeg_iff.mpr h))
      have hreads := normal_of_reads (w := a.toWide) (s := false) (by omega) he hexp
      rw [if_neg hneg]
      rwa [if_neg Bool.false_ne_true, ← hint] at hreads

theorem signify_spec (he : a.exp + 2 < 2 ^ 15) :
    (signify a).toWide.toInt = a.sgn * ((a.m / 4 : Nat) : ℤ) ∧
      (signify a).exponent = Exponent.make false (a.exp + 2) := by
  have hm := a.m_lt
  have hshift : (a.toWide.shr 2).toNat = a.m / 4 := Wide.shr_toNat (by decide) a.toWide
  have hexp : a.exponent + 2 = Exponent.make a.negative (a.exp + 2) := by
    rw [exponent_ext a.exp_lt rfl rfl]
    exact Exponent.add_make he
  unfold signify sgn
  rw [hexp]
  dsimp only
  rw [Exponent.make_msb, Exponent.and_make]
  refine ⟨?_, rfl⟩
  cases a.negative with
  | false =>
      rw [if_neg Bool.false_ne_true, if_neg Bool.false_ne_true, one_mul,
        Wide.toInt_of_lt (by omega), hshift]
  | true =>
      rw [if_pos rfl, if_pos rfl, neg_one_mul, Wide.neg_toInt (by omega), hshift]

theorem align_toNat {shift : Nat} (h : shift < 64) (b : Wide) :
    (align shift b).toNat = b.toNat / 2 ^ shift := by
  unfold align
  by_cases h32 : 32 ≤ shift
  · have ha := b.a.isLt
    rw [if_pos h32, Wide.shr_toNat (by omega)]
    have hpow : 2 ^ shift = 2 ^ 32 * 2 ^ (shift - 32) := by rw [← pow_add, Nat.add_sub_cancel' h32]
    rw [hpow, ← Nat.div_div_eq_div_mul]
    congr 1
    unfold Wide.toNat
    dsimp only
    rw [show (0 : BitVec 32).toNat = 0 from rfl]
    omega
  · rw [if_neg h32, Wide.shr_toNat (by omega)]

/-- What the addition of two's complement numbers comes to. -/
def sum (a b : TempReal) (shift : Nat) : ℤ :=
  a.sgn * ((a.m / 4 : Nat) : ℤ) + b.sgn * ((b.m / 2 ^ shift / 4 : Nat) : ℤ)

theorem abs_sgn_mul (x : TempReal) (n : Nat) : |x.sgn * n| = n := by
  unfold sgn
  split
  · rw [neg_one_mul, abs_neg, Nat.abs_cast]
  · rw [one_mul, Nat.abs_cast]

theorem add_spec (shift : Nat) (hshift : shift < 64) (hb : b.exp ≤ a.exp)
    (he : sum a b shift = 0 ∨ 61 ≤ a.exp) (he' : a.exp + 2 < 2 ^ 15) :
    (addFrom a b shift).Reads (sum a b shift) (a.exp + 2) := by
  obtain ⟨hx, hxe⟩ := signify_spec he'
  obtain ⟨hy, _⟩ := signify_spec
    (a := b.setWide (align shift b.toWide)) (by rw [setWide_exp]; omega)
  rw [setWide_sgn, setWide_m, align_toNat hshift] at hy
  -- two bits are free, so the sum fits
  have hxle : |a.sgn * ((a.m / 4 : Nat) : ℤ)| < 2 ^ 62 := by
    have ham := a.m_lt
    rw [abs_sgn_mul]
    omega
  have hyle : |b.sgn * ((b.m / 2 ^ shift / 4 : Nat) : ℤ)| < 2 ^ 62 := by
    have hbm := b.m_lt
    have hle := Nat.div_le_self b.m (2 ^ shift)
    rw [abs_sgn_mul]
    omega
  have hlt : |sum a b shift| < 2 ^ 63 := by
    refine lt_of_le_of_lt (abs_add_le _ _) ?_
    omega
  have hbounds := abs_lt.mp hlt
  unfold addFrom
  rw [if_neg (by omega)]
  dsimp only
  have hsum : ((signify a).toWide.add
      (signify (b.setWide (align shift b.toWide))).toWide).toInt = sum a b shift := by
    have h := Wide.add_toInt (x := (signify a).toWide)
      (y := (signify (b.setWide (align shift b.toWide))).toWide)
    rw [hx, hy] at h
    exact h (le_of_lt hbounds.1) hbounds.2
  have hexp : (signify a).exp = a.exp + 2 := by
    unfold exp at *
    rw [hxe, Exponent.make_exp he']
  have hreads := unsignify_reads
    (a := (signify a).setWide ((signify a).toWide.add
      (signify (b.setWide (align shift b.toWide))).toWide))
    (by rwa [setWide_toWide, hsum])
    (by rw [setWide_toWide, setWide_exp, hsum]; exact he.imp_right fun h => by omega)
  rwa [setWide_toWide, setWide_exp, hsum, hexp] at hreads

/-! ### The sum -/

theorem signify_exponent (h : x.exp = y.exp) : (signify x).exponent = (signify y).exponent := by
  refine BitVec.eq_of_toNat_eq ?_
  unfold signify
  rw [exp_eq, exp_eq] at h
  dsimp only
  rw [BitVec.toNat_and, BitVec.toNat_and, BitVec.toNat_add, BitVec.toNat_add,
    show (0x7fff : BitVec 16).toNat = 2 ^ 15 - 1 from rfl, Nat.and_two_pow_sub_one_eq_mod,
    Nat.and_two_pow_sub_one_eq_mod]
  omega

/-- With equal exponents nothing tells the operands apart. -/
theorem addFrom_comm (h : x.exp = y.exp) : addFrom x y 0 = addFrom y x 0 := by
  have halign : ∀ w, align 0 w = w := fun w =>
    Wide.eq_of_toNat (by rw [align_toNat (by decide), pow_zero, Nat.div_one])
  unfold addFrom
  rw [if_neg (by decide), if_neg (by decide), halign, halign]
  dsimp only
  rw [Wide.add_comm]
  unfold setWide
  rw [signify_exponent h]

/-- The sum does not depend on the order, whatever the operands. -/
theorem fadd_comm (x y : TempReal) : fadd x y = fadd y x := by
  unfold fadd
  rcases Nat.lt_trichotomy x.exp y.exp with h | h | h
  · rw [if_neg (by omega), if_pos h]
  · rw [if_neg (by omega), if_neg (by omega), h, Nat.sub_self, addFrom_comm h]
  · rw [if_pos h, if_neg (by omega)]

theorem fadd_of_le (h : y.exp ≤ x.exp) : fadd x y = addFrom x y (x.exp - y.exp) := by
  rcases Nat.lt_or_eq_of_le h with h | h
  · rw [fadd, if_pos h]
  · rw [fadd_comm, fadd, if_neg (by omega)]

/-- What moving down by `d` loses is less than a unit there. -/
theorem div_near (n : Nat) {d : Nat} (hd : 0 < d) : |((n / d : Nat) : ℤ) * d - n| < d := by
  have hmod := Nat.mod_lt n hd
  have hsplit : ((n / d : Nat) : ℤ) * d = n - ((n % d : Nat) : ℤ) := by
    have h := Nat.div_add_mod n d
    rw [eq_sub_iff_add_eq, ← Nat.cast_mul, ← Nat.cast_add, Nat.mul_comm, h]
  rw [hsplit, sub_sub_cancel_left, abs_neg, Nat.abs_cast]
  exact_mod_cast hmod

/-- The sum, at the exponent of `b`, is less than eight units of `a` away. -/
theorem sum_near (a b : TempReal) (shift : Nat) :
    |sum a b shift * (4 * 2 ^ shift) - (a.signed * 2 ^ shift + b.signed)| < 8 * 2 ^ shift := by
  have ha := div_near a.m (d := 4) (by decide)
  have hb := div_near b.m (d := 2 ^ shift * 4) (by positivity)
  have hsplit : sum a b shift * (4 * 2 ^ shift) - (a.signed * 2 ^ shift + b.signed) =
      a.sgn * (((a.m / 4 : Nat) : ℤ) * (4 : Nat) - a.m) * 2 ^ shift +
        b.sgn * (((b.m / (2 ^ shift * 4) : Nat) : ℤ) * (2 ^ shift * 4 : Nat) - b.m) := by
    unfold sum signed
    rw [Nat.div_div_eq_div_mul]
    push_cast
    ring
  rw [hsplit]
  refine lt_of_le_of_lt (abs_add_le _ _) ?_
  rw [abs_mul, abs_mul, abs_mul, abs_sgn, abs_sgn, one_mul, one_mul, abs_pow]
  push_cast at ha hb ⊢
  have hpos : (0 : ℤ) < 2 ^ shift := by positivity
  rw [abs_of_pos (by decide : (0 : ℤ) < 2)]
  nlinarith

/-- The value at a lower exponent. -/
theorem value_at {x : TempReal} {e n : Nat} (h : x.exp = e + n) :
    x.value = x.signed * 2 ^ n * 2 ^ ((e : ℤ) - 16446) := by
  unfold value
  rw [mul_assoc, ← zpow_natCast, ← zpow_add₀ (by decide), h, Nat.cast_add]
  congr 2
  omega

theorem near_of_le (hy : y.exp ≤ x.exp) (hx : x.Normal ∨ x.Zero) (hlo : 64 ≤ x.exp)
    (hhi : x.exp ≤ 0x7ffc) :
    ((fadd x y).Zero ∨ (fadd x y).Normal ∧ 1 ≤ (fadd x y).exp ∧ (fadd x y).exp ≤ 0x7ffe) ∧
      |(fadd x y).value - (x.value + y.value)| < 2 ^ ((x.exp : ℤ) - 16443) := by
  obtain ⟨shift, hshift⟩ := Nat.exists_eq_add_of_le hy
  rw [fadd_of_le hy, show x.exp - y.exp = shift by omega]
  have hnormal : x.Normal := hx.resolve_right fun h => by
    have := h.2
    omega
  -- eight units of the larger operand, counted in units of the smaller one
  have hunit : (2 : ℚ) ^ ((x.exp : ℤ) - 16443) = 8 * 2 ^ shift * 2 ^ ((y.exp : ℤ) - 16446) := by
    rw [show (8 : ℚ) * 2 ^ shift = 2 ^ (3 + shift) by rw [pow_add]; norm_num, ← zpow_natCast,
      ← zpow_add₀ (by decide), hshift]
    congr 1
    push_cast
    omega
  have hpos : (0 : ℚ) < 2 ^ ((y.exp : ℤ) - 16446) := zpow_pos (by decide) _
  by_cases hlong : 64 ≤ shift
  · rw [addFrom, if_pos hlong]
    refine ⟨.inr ⟨hnormal, by omega, by omega⟩, ?_⟩
    rw [sub_add_cancel_left, abs_neg, abs_value, hunit, mul_lt_mul_iff_left₀ hpos]
    have hm : y.m < 8 * 2 ^ shift := Nat.lt_of_lt_of_le y.m_lt (Nat.le_trans
      (Nat.pow_le_pow_right (by decide) hlong) (Nat.le_mul_of_pos_left _ (by decide)))
    exact_mod_cast hm
  · have hreads := add_spec (a := x) (b := y) shift (by omega) hy
      (.inr (by omega)) (by omega)
    refine ⟨?_, ?_⟩
    · by_cases h0 : sum x y shift = 0
      · obtain ⟨hm, he⟩ := hreads.zero h0
        exact .inl ⟨hm, by unfold exp; rw [he]; rfl⟩
      · obtain ⟨k, hk, he, _, hn⟩ := hreads.scale h0
        exact .inr ⟨hn, by omega, by omega⟩
    · have hvalue : (addFrom x y shift).value =
          sum x y shift * (4 * 2 ^ shift) * 2 ^ ((y.exp : ℤ) - 16446) := by
        rw [hreads.value, show (4 : ℚ) * 2 ^ shift = 2 ^ (2 + shift) by rw [pow_add]; norm_num,
          mul_assoc, ← zpow_natCast, ← zpow_add₀ (by decide), hshift]
        congr 2
        push_cast
        omega
      have hy : y.value = y.signed * 2 ^ ((y.exp : ℤ) - 16446) := rfl
      rw [hvalue, value_at hshift, hy, ← add_mul, ← sub_mul, abs_mul, abs_of_pos hpos, hunit,
        mul_lt_mul_iff_left₀ hpos]
      exact_mod_cast sum_near x y shift

/-- Addition does not depend on the order, ends normalised and in range, and is less than eight
units of the larger operand away from the exact sum. -/
theorem fadd_near (x y : TempReal) (hx : x.Normal ∨ x.Zero) (hy : y.Normal ∨ y.Zero)
    (hlo : 64 ≤ max x.exp y.exp) (hhi : max x.exp y.exp ≤ 0x7ffc) :
    fadd x y = fadd y x ∧
      ((fadd x y).Zero ∨ (fadd x y).Normal ∧ 1 ≤ (fadd x y).exp ∧ (fadd x y).exp ≤ 0x7ffe) ∧
      |(fadd x y).value - (x.value + y.value)| < 2 ^ (((max x.exp y.exp : Nat) : ℤ) - 16443) := by
  refine ⟨fadd_comm x y, ?_⟩
  rcases Nat.le_total y.exp x.exp with h | h
  · rw [Nat.max_eq_left h] at *
    exact near_of_le h hx hlo hhi
  · rw [Nat.max_eq_right h] at *
    rw [fadd_comm x y, add_comm x.value]
    exact near_of_le h hy hlo hhi

/-- `1 + (-0.75)` -/
theorem fadd_near_quarter :
    (fadd ⟨⟨0, 0x80000000⟩, 0x3fff⟩ ⟨⟨0, 0xc0000000⟩, 0xbffe⟩).Zero ∨
      (fadd ⟨⟨0, 0x80000000⟩, 0x3fff⟩ ⟨⟨0, 0xc0000000⟩, 0xbffe⟩).Normal :=
  ((fadd_near ⟨⟨0, 0x80000000⟩, 0x3fff⟩ ⟨⟨0, 0xc0000000⟩, 0xbffe⟩ (.inl (by decide))
    (.inl (by decide)) (by decide) (by decide)).2.1).imp_right And.left

end LinuxKernel.V012.Math
