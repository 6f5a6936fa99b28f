import LinuxKernel.Lib.Wide
import Mathlib.Algebra.Order.Field.Power
import Mathlib.Data.Nat.Cast.Order.Field
import Mathlib.Tactic.Positivity
import Mathlib.Tactic.Ring

/-!
# LinuxKernel.V012.Math.TempReal

The **temporary reals** of the emulator, `temp_real` of `include/linux/math_emu.h`: two words of
significand and a `short` with the sign and the exponent.

- `value` reads one as the rational `(-1)^s * m * 2^(e-16446)`.
- Arithmetic on the `short` is that of 16 bits; below are the cases where it does not run into the
  sign.
-/

namespace LinuxKernel.V012.Math

@[ext]
structure TempReal extends Wide where
  exponent : BitVec 16
  deriving DecidableEq, Repr

namespace TempReal

/-- `exponent & 0x7fff` -/
def exp (x : TempReal) : Nat := (x.exponent &&& 0x7fff).toNat

/-- `exponent < 0` -/
def negative (x : TempReal) : Bool := x.exponent.msb

/-- The significand. -/
def m (x : TempReal) : Nat := x.toWide.toNat

def sgn (x : TempReal) : ℤ := if x.negative then -1 else 1

/-- The significand with the sign. -/
def signed (x : TempReal) : ℤ := x.sgn * x.m

def value (x : TempReal) : ℚ := x.signed * 2 ^ ((x.exp : ℤ) - 16446)

/-- The same number with another significand. -/
def setWide (x : TempReal) (w : Wide) : TempReal := { toWide := w, exponent := x.exponent }

def Normal (x : TempReal) : Prop := 2 ^ 63 ≤ x.m

/-- Zero, of either sign. -/
def Zero (x : TempReal) : Prop := x.m = 0 ∧ x.exp = 0

instance (x : TempReal) : Decidable x.Normal := inferInstanceAs (Decidable (_ ≤ _))
instance (x : TempReal) : Decidable x.Zero := inferInstanceAs (Decidable (_ ∧ _))

variable {x y : TempReal} {e : BitVec 16}

@[simp] theorem setWide_toWide (x : TempReal) (w : Wide) : (x.setWide w).toWide = w := rfl
@[simp] theorem setWide_exp (x : TempReal) (w : Wide) : (x.setWide w).exp = x.exp := rfl
@[simp] theorem setWide_sgn (x : TempReal) (w : Wide) : (x.setWide w).sgn = x.sgn := rfl
@[simp] theorem setWide_m (x : TempReal) (w : Wide) : (x.setWide w).m = w.toNat := rfl

theorem m_lt (x : TempReal) : x.m < 2 ^ 64 := x.toWide.toNat_lt

theorem exp_eq (x : TempReal) : x.exp = x.exponent.toNat % 2 ^ 15 := by
  unfold exp
  rw [BitVec.toNat_and]
  exact Nat.and_two_pow_sub_one_eq_mod _ 15

theorem exp_lt (x : TempReal) : x.exp < 2 ^ 15 := by
  rw [exp_eq]
  exact Nat.mod_lt _ (by decide)

theorem negative_eq (x : TempReal) : x.negative = decide (2 ^ 15 ≤ x.exponent.toNat) :=
  BitVec.msb_eq_decide _

theorem exponent_toNat (x : TempReal) :
    x.exponent.toNat = x.exp + if x.negative then 2 ^ 15 else 0 := by
  have hlt := x.exponent.isLt
  rw [exp_eq, negative_eq]
  by_cases h : 2 ^ 15 ≤ x.exponent.toNat
  · rw [decide_eq_true h, if_pos rfl]
    omega
  · rw [decide_eq_false h, if_neg Bool.false_ne_true]
    omega

end TempReal

/-! ### The status word -/

def setDE (swd : BitVec 32) : BitVec 32 := swd ||| 2
def setZE (swd : BitVec 32) : BitVec 32 := swd ||| 4
def setOE (swd : BitVec 32) : BitVec 32 := swd ||| 8
def setUE (swd : BitVec 32) : BitVec 32 := swd ||| 16
def setPE (swd : BitVec 32) : BitVec 32 := swd ||| 32
def setC0 (swd : BitVec 32) : BitVec 32 := swd ||| 0x0100
def setC3 (swd : BitVec 32) : BitVec 32 := swd ||| 0x4000

/-- `clear_Cx()` -/
def clearCx (swd : BitVec 32) : BitVec 32 := swd &&& ~~~ 0x4500

/-! ### The `short` -/

namespace Exponent

/-- The sign and the exponent. -/
def make (negative : Bool) (e : Nat) : BitVec 16 := BitVec.cons negative (BitVec.ofNat 15 e)

variable {s : Bool} {e n : Nat}

theorem make_toNat (h : e < 2 ^ 15) : (make s e).toNat = e + if s then 2 ^ 15 else 0 := by
  unfold make
  rw [BitVec.toNat_cons', BitVec.toNat_ofNat, Nat.mod_eq_of_lt h, Nat.add_comm]
  cases s <;> rfl

@[simp] theorem make_msb : (make s e).msb = s := BitVec.msb_cons

theorem and_make : make s e &&& 0x7fff = make false e := by
  have hmask : (0x7fff : BitVec 16) = BitVec.cons false (BitVec.allOnes 15) := by decide
  unfold make
  rw [hmask, BitVec.cons_and_cons, BitVec.and_allOnes, Bool.and_false]

theorem or_make : make s e ||| 0x8000 = make true e := by
  have hmask : (0x8000 : BitVec 16) = BitVec.cons true 0#15 := by decide
  unfold make
  rw [hmask, BitVec.cons_or_cons, BitVec.or_zero, Bool.or_true]

theorem xor_make : make s e ^^^ 0x8000 = make (!s) e := by
  have hmask : (0x8000 : BitVec 16) = BitVec.cons true 0#15 := by decide
  unfold make
  rw [hmask, BitVec.cons_xor_cons, BitVec.xor_zero, Bool.xor_true]

theorem make_exp (h : e < 2 ^ 15) : (make s e &&& 0x7fff).toNat = e := by
  rw [and_make, make_toNat h, if_neg Bool.false_ne_true, Nat.add_zero]

theorem add_make (h : e + n < 2 ^ 15) : make s e + BitVec.ofNat 16 n = make s (e + n) := by
  refine BitVec.eq_of_toNat_eq ?_
  rw [BitVec.toNat_add, make_toNat h, make_toNat (by omega), BitVec.toNat_ofNat]
  split
  · omega
  · omega

theorem sub_make (hn : n ≤ e) (he : e < 2 ^ 15) :
    make s e - BitVec.ofNat 16 n = make s (e - n) := by
  rw [sub_eq_iff_eq_add, add_make (by omega), Nat.sub_add_cancel hn]

theorem ofNat_eq_make (h : n < 2 ^ 15) : BitVec.ofNat 16 n = make false n := by
  refine BitVec.eq_of_toNat_eq ?_
  rw [BitVec.toNat_ofNat, make_toNat h, if_neg Bool.false_ne_true]
  omega

/-- The sign of a product or a quotient. -/
theorem sign_make {s' : Bool} {e' : Nat} :
    (make s e ^^^ make s' e') &&& 0x8000 = make (s ^^ s') 0 := by
  have hmask : (0x8000 : BitVec 16) = BitVec.cons true 0#15 := by decide
  unfold make
  rw [hmask, BitVec.cons_xor_cons, BitVec.cons_and_cons, BitVec.and_zero, Bool.and_true]

theorem and_sign : make s e &&& 0x8000 = make s 0 := by
  have hmask : (0x8000 : BitVec 16) = BitVec.cons true 0#15 := by decide
  unfold make
  rw [hmask, BitVec.cons_and_cons, BitVec.and_zero, Bool.and_true]

theorem ofNat_or_make (h : n < 2 ^ 15) : BitVec.ofNat 16 n ||| make s 0 = make s n := by
  rw [ofNat_eq_make h]
  unfold make
  rw [BitVec.cons_or_cons, Bool.false_or, show BitVec.ofNat 15 0 = 0#15 from rfl, BitVec.or_zero]

end Exponent

namespace TempReal

variable {x : TempReal}

theorem Normal.m_pos (h : x.Normal) : 0 < x.m := Nat.lt_of_lt_of_le (by decide) h

theorem Normal.isNeg (h : x.Normal) : x.toWide.isNeg = true := Wide.isNeg_iff.mpr h

theorem exponent_ext {s : Bool} {n : Nat} (hn : n < 2 ^ 15) (he : x.exp = n) (hs : x.negative = s) :
    x.exponent = Exponent.make s n := by
  refine BitVec.eq_of_toNat_eq ?_
  rw [exponent_toNat, Exponent.make_toNat hn, he, hs]

/-- Put together from its parts. -/
def of (w : Wide) (s : Bool) (e : Nat) : TempReal := { toWide := w, exponent := Exponent.make s e }

section Of

variable {y : TempReal} {w : Wide} {s : Bool} {e : Nat}

theorem of_m : (of w s e).m = w.toNat := rfl

theorem of_negative : (of w s e).negative = s := Exponent.make_msb

theorem of_exp (h : e < 2 ^ 15) : (of w s e).exp = e := Exponent.make_exp h

theorem of_zero : (of ⟨0, 0⟩ s 0).Zero :=
  ⟨Wide.toNat_eq_zero.mpr ⟨rfl, rfl⟩, of_exp (by decide)⟩

theorem sign_eq (x y : TempReal) :
    (x.exponent ^^^ y.exponent) &&& 0x8000 = Exponent.make (x.negative ^^ y.negative) 0 := by
  rw [exponent_ext x.exp_lt rfl rfl, exponent_ext y.exp_lt rfl rfl, Exponent.sign_make]

theorem sgn_of_xor : (of w (x.negative ^^ y.negative) e).sgn = x.sgn * y.sgn := by
  unfold sgn
  rw [of_negative]
  cases x.negative <;> cases y.negative <;> rfl

/-- The result, where it is written from a product of four words. -/
theorem result_eq {s : Bool} {i : Nat} (hi : i < 2 ^ 15) (c : Quad) :
    (⟨⟨c.c2, c.c3⟩, BitVec.ofNat 16 i ||| Exponent.make s 0⟩ : TempReal) = of c.high s i := by
  rw [Exponent.ofNat_or_make hi]
  rfl

end Of

/-! ### As an integer -/

theorem signed_eq (x : TempReal) : x.signed = if x.negative then -(x.m : ℤ) else x.m := by
  unfold signed sgn
  split
  · exact neg_one_mul _
  · exact one_mul _

theorem of_signed {w : Wide} {s : Bool} {e : Nat} :
    (of w s e).signed = if s then -(w.toNat : ℤ) else w.toNat := by
  rw [signed_eq, of_negative, of_m]

theorem sgn_eq (x : TempReal) : x.sgn = 1 ∧ x.negative = false ∨ x.sgn = -1 ∧ x.negative = true := by
  unfold sgn
  cases x.negative with
  | false => exact .inl ⟨rfl, rfl⟩
  | true => exact .inr ⟨rfl, rfl⟩

theorem abs_sgn (x : TempReal) : |x.sgn| = 1 := by
  unfold sgn
  split
  · decide
  · decide

theorem abs_value (x : TempReal) : |x.value| = x.m * 2 ^ ((x.exp : ℤ) - 16446) := by
  unfold value signed
  rw [abs_mul, abs_of_pos (zpow_pos (by decide : (0 : ℚ) < 2) _), ← Int.cast_abs, abs_mul, abs_sgn,
    one_mul, Nat.abs_cast, Int.cast_natCast]

theorem abs_value_pos (hm : 0 < x.m) : 0 < |x.value| := by
  have hm' : (0 : ℚ) < x.m := by exact_mod_cast hm
  rw [abs_value]
  positivity

theorem value_of_sign (x : TempReal) : x.value = if x.negative then -|x.value| else |x.value| := by
  have hvalue : x.value = x.sgn * |x.value| := by
    rw [abs_value]
    unfold value signed
    push_cast
    ring
  rcases x.sgn_eq with ⟨h, hneg⟩ | ⟨h, hneg⟩
  · rw [hneg, if_neg Bool.false_ne_true]
    rwa [h, Int.cast_one, one_mul] at hvalue
  · rw [hneg, if_pos rfl]
    rwa [h, Int.cast_neg, Int.cast_one, neg_one_mul] at hvalue

/-- A quotient rounded down, in units of the result. -/
theorem floor_near (n d : Nat) (hd : 0 < d) :
    ((n / d : Nat) : ℚ) ≤ n / d ∧ (n : ℚ) / d < ((n / d : Nat) : ℚ) + 1 := by
  have hd' : (0 : ℚ) < d := by exact_mod_cast hd
  refine ⟨Nat.cast_div_le, ?_⟩
  rw [div_lt_iff₀ hd']
  exact_mod_cast Nat.lt_mul_of_div_lt (Nat.lt_succ_self _) hd

/-- `x` is the integer `n` at exponent `e`, normalised unless it is 0. -/
structure Reads (x : TempReal) (n : ℤ) (e : Nat) : Prop where
  zero : n = 0 → x.m = 0 ∧ x.exponent = 0
  sign : n ≠ 0 → x.negative = decide (n < 0)
  scale : n ≠ 0 → ∃ k ≤ 63, x.exp + k = e ∧ x.m = n.natAbs * 2 ^ k ∧ 2 ^ 63 ≤ x.m

namespace Reads

variable {n : ℤ} {e : Nat}

theorem normal (h : x.Reads n e) (hn : n ≠ 0) : x.Normal :=
  let ⟨_, _, _, _, hm⟩ := h.scale hn
  hm

theorem signed (h : x.Reads n e) (hn : n ≠ 0) : ∃ k ≤ 63, x.exp + k = e ∧ x.signed = n * 2 ^ k := by
  obtain ⟨k, hk, he, hm, _⟩ := h.scale hn
  refine ⟨k, hk, he, ?_⟩
  rw [signed_eq, h.sign hn, hm]
  by_cases hneg : n < 0
  · rw [if_pos (decide_eq_true hneg), Nat.cast_mul, Nat.cast_pow, Nat.cast_ofNat,
      Int.ofNat_natAbs_of_nonpos (by omega), neg_mul, neg_neg]
  · rw [if_neg (by rw [decide_eq_true_iff]; exact hneg), Nat.cast_mul, Nat.cast_pow,
      Nat.cast_ofNat, Int.natAbs_of_nonneg (by omega)]

theorem value (h : x.Reads n e) : x.value = n * 2 ^ ((e : ℤ) - 16446) := by
  unfold TempReal.value
  by_cases hn : n = 0
  · rw [hn, Int.cast_zero, zero_mul]
    unfold TempReal.signed
    rw [(h.zero hn).1, Nat.cast_zero, mul_zero, Int.cast_zero, zero_mul]
  · obtain ⟨k, _, he, hs⟩ := h.signed hn
    rw [hs, ← he, Int.cast_mul, Int.cast_pow, Int.cast_ofNat, mul_assoc, ← zpow_natCast,
      ← zpow_add₀ (by decide), Nat.cast_add]
    congr 2
    omega

end Reads

end TempReal

end LinuxKernel.V012.Math
