import LinuxKernel.V012.Math.GetPut
import Mathlib.Tactic.LinearCombination

/-!
# LinuxKernel.V012.Math.Compare

**Comparison**, `kernel/math/compare.c`: the difference by `fadd`, and a test of its sign.

- `Loaded`: the numbers that loads of short and long reals and of integers of 32 bits make.
- Their significands end in eleven zeros (`Coarse`), so what the addition drops neither makes two
  numbers equal nor turns a difference around.
- `fcom_exact` reads every bit of the status word.
-/

namespace LinuxKernel.V012.Math

open TempReal

/-! ### The source -/

def normalize (a : TempReal) : TempReal :=
  if a.a = 0 ∧ a.b = 0 then { a with exponent := 0 }
  else
    let r := raise Wide.isNeg Wide.double a.exp a.toWide
    { toWide := r.2, exponent := BitVec.ofNat 16 r.1 ||| (a.exponent &&& 0x8000) }

def ftst (swd : BitVec 32) (a : TempReal) : BitVec 32 :=
  let swd := clearCx swd
  let b := normalize a
  if b.a ≠ 0 ∨ b.b ≠ 0 ∨ b.exponent ≠ 0 then if b.exponent.msb then setC0 swd else swd
  else setC3 swd

/-- `exponent ^= 0x8000` -/
def changeSign (a : TempReal) : TempReal := { a with exponent := a.exponent ^^^ 0x8000 }

def fcom (swd : BitVec 32) (src1 src2 : TempReal) : BitVec 32 :=
  ftst swd (fadd (changeSign src1) src2)

/-! ### Numbers that are loaded -/

def IsNaNShort (p : BitVec 32) : Prop := p.toNat / 2 ^ 23 % 2 ^ 8 = 255 ∧ p.toNat % 2 ^ 23 ≠ 0

def IsNaNLong (p : Wide) : Prop := p.toNat / 2 ^ 52 % 2 ^ 11 = 2047 ∧ p.toNat % 2 ^ 52 ≠ 0

inductive Loaded : TempReal → Prop
  | short (p : BitVec 32) (h : ¬ IsNaNShort p) : Loaded (shortToTemp p)
  | long (p : Wide) (h : ¬ IsNaNLong p) : Loaded (longToTemp p)
  | int (w : BitVec 32) : Loaded (getLongInt w)

/-- Zero, or a number of 53 bits whose exponent is far from the ends. -/
def Coarse (x : TempReal) : Prop :=
  x.Zero ∨ (x.Normal ∧ 2 ^ 11 ∣ x.m ∧ 64 ≤ x.exp ∧ x.exp ≤ 0x7ffc)

variable {x y : TempReal}

theorem coarse_of {w : Wide} {s : Bool} {c e : Nat} (hw : w.toNat = 2 ^ 63 + c * 2 ^ 11)
    (he : 64 ≤ e) (he' : e ≤ 0x7ffc) : Coarse (of w s e) := by
  have hexp : (of w s e).exp = e := of_exp (by omega)
  refine .inr ⟨?_, ?_, by rwa [hexp], by rwa [hexp]⟩
  · unfold TempReal.Normal
    rw [of_m, hw]
    exact Nat.le_add_right ..
  · rw [of_m, hw]
    exact ⟨2 ^ 52 + c, by omega⟩

theorem Loaded.coarse (h : Loaded x) : Coarse x := by
  cases h with
  | short p _ =>
      by_cases hp : p.toNat % 2 ^ 31 = 0
      · rw [shortToTemp_zero hp]
        exact .inl of_zero
      · rw [shortToTemp_eq hp]
        exact coarse_of (c := p.toNat % 2 ^ 23 * 2 ^ 29)
          (by rw [Wide.ofNat_toNat (by omega)]; omega) (by omega) (by omega)
  | long p _ =>
      by_cases hp : p.toNat % 2 ^ 63 = 0
      · rw [longToTemp_zero hp]
        exact .inl of_zero
      · rw [longToTemp_eq hp]
        exact coarse_of (c := p.toNat % 2 ^ 52) (Wide.ofNat_toNat (by omega)) (by omega) (by omega)
  | int w =>
      have hreads := intToReal_reads (absWord w)
      have hlt : (absWord w).number.natAbs < 2 ^ 32 := by
        have h := (absWord w).a.isLt
        have habs : (absWord w).number.natAbs = (absWord w).a.toNat := by
          unfold TempInt.number Wide.toNat
          rw [show (absWord w).b.toNat = 0 from rfl]
          split
          · omega
          · omega
        omega
      unfold getLongInt
      by_cases h0 : (absWord w).number = 0
      · obtain ⟨hm, hexp⟩ := hreads.zero h0
        exact .inl ⟨hm, by unfold exp; rw [hexp]; rfl⟩
      · obtain ⟨k, hk, he, hm, hnormal⟩ := hreads.scale h0
        have hk32 : 31 < k := by
          refine Nat.lt_of_not_le fun hle => ?_
          have hpow : 2 ^ k ≤ 2 ^ 31 := Nat.pow_le_pow_right (by decide) hle
          have hmul : (absWord w).number.natAbs * 2 ^ k < 2 ^ 32 * 2 ^ 31 :=
            Nat.mul_lt_mul_of_lt_of_le hlt hpow (by decide)
          rw [← hm] at hmul
          exact absurd (Nat.lt_of_le_of_lt hnormal hmul) (by decide)
        refine .inr ⟨hnormal, ?_, by omega, by omega⟩
        rw [hm]
        exact (pow_dvd_pow 2 (by omega)).mul_left _

/-! ### The sign of the sum -/

/-- `r` is zero where `q` is, and otherwise a normalised number of the same sign. -/
structure Tells (r : TempReal) (q : ℚ) : Prop where
  zero : q = 0 → r.m = 0 ∧ r.exponent = 0
  normal : q ≠ 0 → r.Normal ∧ r.negative = decide (q < 0)

theorem normalize_of_normal (h : x.Normal) : normalize x = x := by
  have hne : ¬ (x.a = 0 ∧ x.b = 0) := by
    rw [← Wide.toNat_eq_zero]
    exact Nat.ne_of_gt h.m_pos
  have hraise : raise Wide.isNeg Wide.double x.exp x.toWide = (x.exp, x.toWide) := by
    cases x.exp with
    | zero => rfl
    | succ n => rw [raise, if_pos h.isNeg]
  unfold normalize
  rw [if_neg hne, hraise]
  dsimp only
  refine TempReal.ext rfl rfl ?_
  dsimp only
  rw [exponent_ext x.exp_lt rfl rfl, Exponent.and_sign, Exponent.ofNat_or_make x.exp_lt]

theorem ftst_of_tells {r : TempReal} {q : ℚ} (swd : BitVec 32) (h : Tells r q) :
    ftst swd r = if q = 0 then setC3 (clearCx swd)
      else if q < 0 then setC0 (clearCx swd) else clearCx swd := by
  unfold ftst
  dsimp only
  by_cases hq : q = 0
  · obtain ⟨hm, hexp⟩ := h.zero hq
    have hz := Wide.toNat_eq_zero.mp hm
    have hnorm : normalize r = { r with exponent := 0 } := if_pos hz
    rw [if_pos hq, hnorm, if_neg]
    rintro (h | h | h)
    · exact h hz.1
    · exact h hz.2
    · exact h rfl
  · obtain ⟨hnormal, hneg⟩ := h.normal hq
    have hb : r.b ≠ 0 := by
      intro h0
      have hmsb := hnormal.isNeg
      unfold Wide.isNeg at hmsb
      rw [h0] at hmsb
      exact absurd hmsb (by decide)
    rw [if_neg hq, normalize_of_normal hnormal, if_pos (.inr (.inl hb)),
      show r.exponent.msb = decide (q < 0) from hneg]
    by_cases hlt : q < 0
    · rw [if_pos hlt, if_pos (decide_eq_true hlt)]
    · rw [if_neg hlt, if_neg (by rw [decide_eq_true_iff]; exact hlt)]

/-- The larger magnitude decides. -/
theorem sgn_add {a b : TempReal} {n k : ℤ} (hk : 0 ≤ k) (hlt : k < n) :
    a.sgn * n + b.sgn * k ≠ 0 ∧ (a.sgn * n + b.sgn * k < 0 ↔ a.sgn < 0) := by
  rcases a.sgn_eq with ⟨ha, _⟩ | ⟨ha, _⟩
  · rcases b.sgn_eq with ⟨hb, _⟩ | ⟨hb, _⟩
    · rw [ha, hb]
      omega
    · rw [ha, hb]
      omega
  · rcases b.sgn_eq with ⟨hb, _⟩ | ⟨hb, _⟩
    · rw [ha, hb]
      omega
    · rw [ha, hb]
      omega

/-- The sum of coarse numbers has the sign of the exact one. -/
theorem sum_sign {a b : TempReal} (shift : Nat) (ha : a.Normal) (hda : 2 ^ 11 ∣ a.m)
    (hdb : 2 ^ 11 ∣ b.m) :
    (sum a b shift = 0 ↔ a.signed * 2 ^ shift + b.signed = 0) ∧
      (sum a b shift < 0 ↔ a.signed * 2 ^ shift + b.signed < 0) := by
  have hbm := b.m_lt
  unfold TempReal.Normal at ha
  by_cases hshift : shift ≤ 9
  · -- nothing is dropped
    have hdiva : ((a.m / 4 : Nat) : ℤ) * 4 = a.m := by
      exact_mod_cast Nat.div_mul_cancel (Nat.dvd_trans (by decide) hda)
    have hdivb : ((b.m / 2 ^ shift / 4 : Nat) : ℤ) * (4 * 2 ^ shift) = b.m := by
      have hdvd : 2 ^ shift * 4 ∣ b.m := by
        refine Nat.dvd_trans ?_ hdb
        rw [show 4 = 2 ^ 2 from rfl, ← pow_add]
        exact pow_dvd_pow 2 (by omega)
      have h := Nat.div_mul_cancel hdvd
      rw [← Nat.div_div_eq_div_mul, Nat.mul_comm _ 4] at h
      exact_mod_cast h
    have hexact : a.signed * 2 ^ shift + b.signed = sum a b shift * (4 * 2 ^ shift) := by
      unfold sum signed
      linear_combination -(a.sgn * 2 ^ shift * hdiva) - b.sgn * hdivb
    have hpos : (0 : ℤ) < 4 * 2 ^ shift := by positivity
    rw [hexact]
    refine ⟨?_, ?_⟩
    · rw [mul_eq_zero, or_iff_left (ne_of_gt hpos)]
    · rw [← mul_lt_mul_iff_left₀ hpos, zero_mul]
  · -- what is dropped is far below the larger operand
    have hB : b.m / 2 ^ shift / 4 < a.m / 4 := by
      have hle : b.m / 2 ^ shift ≤ b.m / 2 ^ 10 :=
        Nat.div_le_div_left (Nat.pow_le_pow_right (by decide) (by omega)) (by decide)
      omega
    have hD : b.m < a.m * 2 ^ shift := by
      have hle : a.m * 2 ^ 10 ≤ a.m * 2 ^ shift :=
        Nat.mul_le_mul_left _ (Nat.pow_le_pow_right (by decide) (by omega))
      omega
    obtain ⟨hne, hlt⟩ := sgn_add (a := a) (b := b) (n := (a.m / 4 : Nat))
      (k := (b.m / 2 ^ shift / 4 : Nat)) (Int.natCast_nonneg _) (by exact_mod_cast hB)
    obtain ⟨hne', hlt'⟩ := sgn_add (a := a) (b := b) (n := (a.m * 2 ^ shift : Nat)) (k := b.m)
      (Int.natCast_nonneg _) (by exact_mod_cast hD)
    have hexact : a.signed * 2 ^ shift + b.signed =
        a.sgn * (a.m * 2 ^ shift : Nat) + b.sgn * b.m := by
      unfold signed
      push_cast
      ring
    rw [hexact]
    exact ⟨iff_of_false hne hne', hlt.trans hlt'.symm⟩

/-- The larger exponent in `a`. -/
theorem addFrom_tells {a b : TempReal} {shift : Nat} (ha : Coarse a) (hb : Coarse b)
    (hshift : a.exp = b.exp + shift) : Tells (addFrom a b shift) (a.value + b.value) := by
  have hunit : (0 : ℚ) < 2 ^ ((b.exp : ℤ) - 16446) := zpow_pos (by decide) _
  have hvalue : a.value + b.value =
      ((a.signed * 2 ^ shift + b.signed : ℤ) : ℚ) * 2 ^ ((b.exp : ℤ) - 16446) := by
    rw [value_at hshift, show b.value = b.signed * 2 ^ ((b.exp : ℤ) - 16446) from rfl, ← add_mul]
    push_cast
    rfl
  have hzero : a.value + b.value = 0 ↔ a.signed * 2 ^ shift + b.signed = 0 := by
    rw [hvalue, mul_eq_zero, or_iff_left (ne_of_gt hunit), Int.cast_eq_zero]
  have hneg : a.value + b.value < 0 ↔ a.signed * 2 ^ shift + b.signed < 0 := by
    rw [hvalue, ← Int.cast_lt_zero (R := ℚ)]
    exact ⟨fun h => lt_of_not_ge fun hq => absurd h (not_lt.mpr (mul_nonneg hq hunit.le)),
      fun h => mul_neg_of_neg_of_pos h hunit⟩
  have hdb : 2 ^ 11 ∣ b.m := by
    rcases hb with hb | hb
    · rw [hb.1]
      exact dvd_zero _
    · exact hb.2.1
  rcases ha with ha | ⟨hnormal, hda, hlo, hhi⟩
  · -- two zeros
    have hbzero : b.m = 0 := by
      rcases hb with hb | hb
      · exact hb.1
      · have := ha.2
        have := hb.2.2.1
        omega
    have hsum : sum a b shift = 0 := by
      unfold sum
      rw [ha.1, hbzero, Nat.zero_div, Nat.zero_div, Nat.zero_div, Nat.cast_zero, mul_zero, mul_zero,
        add_zero]
    have hreads := add_spec (a := a) (b := b) shift (by have := ha.2; omega) (by omega)
      (.inl hsum) (by have := ha.2; omega)
    have hexact : a.value + b.value = 0 := by
      rw [hzero]
      unfold signed
      rw [ha.1, hbzero, Nat.cast_zero, mul_zero, mul_zero, zero_mul, add_zero]
    exact ⟨fun _ => hreads.zero hsum, fun h => absurd hexact h⟩
  · by_cases hlong : 64 ≤ shift
    · have hlt : b.m < a.m * 2 ^ shift := by
        have hbm := b.m_lt
        have hpow : 2 ^ 64 ≤ 2 ^ shift := Nat.pow_le_pow_right (by decide) hlong
        have hle : 1 * 2 ^ shift ≤ a.m * 2 ^ shift := Nat.mul_le_mul_right _ hnormal.m_pos
        omega
      obtain ⟨hne, hlt⟩ := sgn_add (a := a) (b := b) (n := (a.m * 2 ^ shift : Nat)) (k := b.m)
        (Int.natCast_nonneg _) (by exact_mod_cast hlt)
      have hexact : a.signed * 2 ^ shift + b.signed =
          a.sgn * (a.m * 2 ^ shift : Nat) + b.sgn * b.m := by
        unfold signed
        push_cast
        ring
      unfold addFrom
      rw [if_pos hlong]
      refine ⟨fun h => absurd (hexact ▸ hzero.mp h) hne, fun _ => ⟨hnormal, ?_⟩⟩
      have hsgn : a.negative = decide (a.sgn < 0) := by
        rcases a.sgn_eq with ⟨h1, h2⟩ | ⟨h1, h2⟩
        · rw [h1, h2]
          rfl
        · rw [h1, h2]
          rfl
      rw [hsgn, decide_eq_decide, hneg, hexact, hlt]
    · obtain ⟨hz, hn⟩ := sum_sign shift hnormal hda hdb
      have hreads := add_spec (a := a) (b := b) shift (by omega) (by omega)
        (.inr (by omega)) (by omega)
      refine ⟨fun h => hreads.zero (hz.mpr (hzero.mp h)), fun h => ?_⟩
      have hne : sum a b shift ≠ 0 := fun h' => h (hzero.mpr (hz.mp h'))
      refine ⟨hreads.normal hne, ?_⟩
      rw [hreads.sign hne, decide_eq_decide, hn, hneg]

theorem fadd_tells (hx : Coarse x) (hy : Coarse y) : Tells (fadd x y) (x.value + y.value) := by
  rcases Nat.le_total y.exp x.exp with h | h
  · rw [fadd_of_le h]
    exact addFrom_tells hx hy (by omega)
  · rw [fadd_comm, fadd_of_le h, add_comm]
    exact addFrom_tells hy hx (by omega)

/-! ### The comparison -/

theorem changeSign_eq (x : TempReal) : changeSign x = of x.toWide (!x.negative) x.exp := by
  refine TempReal.ext rfl rfl ?_
  unfold changeSign
  dsimp only
  rw [exponent_ext x.exp_lt rfl rfl]
  exact Exponent.xor_make

theorem changeSign_value (x : TempReal) : (changeSign x).value = -x.value := by
  rw [changeSign_eq]
  unfold value signed sgn
  rw [of_exp x.exp_lt, of_negative, show (of x.toWide (!x.negative) x.exp).m = x.m from rfl]
  cases x.negative with
  | false => simp
  | true => simp

theorem changeSign_coarse (h : Coarse x) : Coarse (changeSign x) := by
  rw [changeSign_eq]
  have he : (of x.toWide (!x.negative) x.exp).exp = x.exp := of_exp x.exp_lt
  unfold Coarse TempReal.Zero TempReal.Normal at *
  rw [he, of_m]
  exact h

theorem clearCx_bit (swd : BitVec 32) {i : Nat} (hi : i < 32) :
    (clearCx swd).getLsbD i = (swd.getLsbD i && !(decide (i = 8) || decide (i = 10) ||
      decide (i = 14))) := by
  have hmask : ∀ i < 32, (~~~ 0x4500 : BitVec 32).getLsbD i =
      !(decide (i = 8) || decide (i = 10) || decide (i = 14)) := by decide
  unfold clearCx
  rw [BitVec.getLsbD_and, hmask i hi]

theorem setC0_bit (swd : BitVec 32) {i : Nat} (hi : i < 32) :
    (setC0 swd).getLsbD i = (swd.getLsbD i || decide (i = 8)) := by
  have hmask : ∀ i < 32, (0x0100 : BitVec 32).getLsbD i = decide (i = 8) := by decide
  unfold setC0
  rw [BitVec.getLsbD_or, hmask i hi]

theorem setC3_bit (swd : BitVec 32) {i : Nat} (hi : i < 32) :
    (setC3 swd).getLsbD i = (swd.getLsbD i || decide (i = 14)) := by
  have hmask : ∀ i < 32, (0x4000 : BitVec 32).getLsbD i = decide (i = 14) := by decide
  unfold setC3
  rw [BitVec.getLsbD_or, hmask i hi]

/-- The bits of the status word: 14 is `C3`, 8 is `C0`, 10 is `C2`. -/
theorem fcom_exact (swd : BitVec 32) (u v : TempReal) (hu : Loaded u) (hv : Loaded v) :
    ∀ i < 32, (fcom swd u v).getLsbD i =
      if i = 14 then decide (u.value = v.value)
      else if i = 8 then decide (v.value < u.value)
      else if i = 10 then false
      else swd.getLsbD i := by
  intro i hi
  have htells := fadd_tells (changeSign_coarse hu.coarse) hv.coarse
  rw [changeSign_value] at htells
  have hzero : -u.value + v.value = 0 ↔ u.value = v.value := by
    rw [neg_add_eq_sub, sub_eq_zero, eq_comm]
  have hneg : -u.value + v.value < 0 ↔ v.value < u.value := by
    rw [neg_add_eq_sub, sub_neg]
  rw [fcom, ftst_of_tells swd htells]
  simp only [hzero, hneg]
  have hbits := clearCx_bit swd hi
  by_cases heq : u.value = v.value
  · have hlt : ¬ v.value < u.value := heq ▸ lt_irrefl _
    rw [if_pos heq, setC3_bit _ hi, hbits, decide_eq_true heq, decide_eq_false hlt]
    grind
  · rw [if_neg heq, decide_eq_false heq]
    by_cases hlt : v.value < u.value
    · rw [if_pos hlt, setC0_bit _ hi, hbits, decide_eq_true hlt]
      grind
    · rw [if_neg hlt, hbits, decide_eq_false hlt]
      grind

/-- `1` against `-0` -/
theorem fcom_exact_one : (fcom 0 (getLongInt 1) (shortToTemp 0x80000000)).getLsbD 8 =
    decide ((shortToTemp 0x80000000).value < (getLongInt 1).value) :=
  (fcom_exact 0 (getLongInt 1) (shortToTemp 0x80000000) (.int 1)
    (.short 0x80000000 fun h => absurd h.1 (by decide)) 8 (by decide)).trans
    ((if_neg (by decide)).trans (if_pos rfl))

end LinuxKernel.V012.Math
