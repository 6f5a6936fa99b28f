import Mathlib.Data.BitVec

/-!
# LinuxKernel.Lib.Carry

**Arithmetic with a carry flag** on words of `w` bits, and what a chain of it comes to as a number.

- `adc`, `sbb`: the sum and the difference with the flag, and the flag they leave.
- `SameSum`: numbers that a sum with the carry added back does not tell apart.
-/

namespace LinuxKernel.Carry

variable {w : Nat} {x y : BitVec w} {cf : Bool}

def adc (x y : BitVec w) (cf : Bool) : BitVec w × Bool :=
  (x + y + BitVec.ofNat w cf.toNat, decide (2 ^ w ≤ x.toNat + y.toNat + cf.toNat))

def sbb (x y : BitVec w) (cf : Bool) : BitVec w × Bool :=
  (x - y - BitVec.ofNat w cf.toNat, decide (x.toNat < y.toNat + cf.toNat))

theorem toNat_le_one (b : Bool) : b.toNat ≤ 1 := by
  cases b <;> decide

theorem adc_toNat (x y : BitVec w) (cf : Bool) :
    (adc x y cf).1.toNat + 2 ^ w * (adc x y cf).2.toNat = x.toNat + y.toNat + cf.toNat := by
  have hx := x.isLt
  have hy := y.isLt
  have hcf := toNat_le_one cf
  unfold adc
  rw [BitVec.toNat_add, BitVec.toNat_add, BitVec.toNat_ofNat, Nat.add_mod_mod, Nat.mod_add_mod]
  by_cases hcarry : 2 ^ w ≤ x.toNat + y.toNat + cf.toNat
  · rw [decide_eq_true hcarry, Bool.toNat_true, Nat.mul_one,
      Nat.mod_eq_sub_mod hcarry, Nat.mod_eq_of_lt (by omega)]
    omega
  · rw [decide_eq_false hcarry, Bool.toNat_false, Nat.mul_zero, Nat.mod_eq_of_lt (by omega)]
    omega

theorem sbb_toNat (x y : BitVec w) (cf : Bool) :
    (sbb x y cf).1.toNat + y.toNat + cf.toNat = x.toNat + 2 ^ w * (sbb x y cf).2.toNat := by
  have hx := x.isLt
  have hy := y.isLt
  have hcf := toNat_le_one cf
  unfold sbb
  rw [BitVec.toNat_sub, BitVec.toNat_sub, BitVec.toNat_ofNat, Nat.add_mod_mod]
  cases w with
  | zero =>
      rw [pow_zero] at *
      by_cases hborrow : x.toNat < y.toNat + cf.toNat
      · rw [decide_eq_true hborrow, Bool.toNat_true]
        omega
      · rw [decide_eq_false hborrow, Bool.toNat_false]
        omega
  | succ w =>
      have hpos : 2 ≤ 2 ^ (w + 1) := by
        rw [pow_succ]
        have := Nat.one_le_two_pow (n := w)
        omega
      rw [Nat.mod_eq_of_lt (show cf.toNat < 2 ^ (w + 1) by omega)]
      by_cases hborrow : x.toNat < y.toNat + cf.toNat
      · rw [decide_eq_true hborrow, Bool.toNat_true, Nat.mul_one,
          Nat.mod_eq_sub_mod (by omega), Nat.mod_eq_of_lt (by omega)]
        omega
      · rw [decide_eq_false hborrow, Bool.toNat_false, Nat.mul_zero,
          Nat.mod_eq_sub_mod (by omega), Nat.mod_eq_sub_mod (by omega), Nat.mod_eq_of_lt (by omega)]
        omega

/-! ### Sums with the carry added back -/

/-- Alike but for multiples of `m`, and zero together. -/
def SameSum (m a b : Nat) : Prop := a ≡ b [MOD m] ∧ (a = 0 ↔ b = 0)

namespace SameSum

variable {m a b c d : Nat}

theorem refl (a : Nat) : SameSum m a a := ⟨Nat.ModEq.refl a, Iff.rfl⟩

theorem trans (h : SameSum m a b) (h' : SameSum m b c) : SameSum m a c :=
  ⟨h.1.trans h'.1, h.2.trans h'.2⟩

theorem symm (h : SameSum m a b) : SameSum m b a := ⟨h.1.symm, h.2.symm⟩

theorem add (h : SameSum m a b) (h' : SameSum m c d) : SameSum m (a + c) (b + d) := by
  refine ⟨h.1.add h'.1, ?_⟩
  have hab := h.2
  have hcd := h'.2
  omega

/-- A carry counts as one. -/
theorem carry (h : m ∣ d - 1) (hd : 0 < d) : SameSum m (a + b) (a + d * b) := by
  obtain ⟨k, hk⟩ := h
  have hsum : a + d * b = a + b + m * (k * b) := by
    have hd' : d = m * k + 1 := by omega
    rw [hd', Nat.add_mul, Nat.mul_assoc]
    omega
  refine ⟨?_, ?_⟩
  · rw [hsum, Nat.ModEq, Nat.add_mul_mod_self_left]
  · rw [hsum]
    constructor
    · intro h0
      have hb : b = 0 := by omega
      rw [hb] at *
      omega
    · omega

/-- Up to `m` they are told apart. -/
theorem eq_of_le (h : SameSum m a b) (ha : a ≤ m) (hb : b ≤ m) : a = b := by
  obtain ⟨hmod, hzero⟩ := h
  unfold Nat.ModEq at hmod
  rcases Nat.lt_or_eq_of_le ha with ha | rfl
  · rcases Nat.lt_or_eq_of_le hb with hb | rfl
    · rwa [Nat.mod_eq_of_lt ha, Nat.mod_eq_of_lt hb] at hmod
    · rw [Nat.mod_self, Nat.mod_eq_of_lt ha] at hmod
      omega
  · rcases Nat.lt_or_eq_of_le hb with hb | rfl
    · rw [Nat.mod_self, Nat.mod_eq_of_lt hb] at hmod
      omega
    · rfl

end SameSum

/-- A sum with the carry added back. -/
def endAround (x y : BitVec w) : BitVec w := (adc (adc x y false).1 0 (adc x y false).2).1

/-- The one's-complement sum. -/
def onesSum (l : List (BitVec w)) : BitVec w := l.foldl endAround 0

/-- Adding just the flag, where it does not overflow. -/
theorem adc_zero_toNat (x : BitVec w) (cf : Bool) (h : cf = true → x.toNat < 2 ^ w - 1) :
    (adc x 0 cf).1.toNat = x.toNat + cf.toNat := by
  have hsum := adc_toNat x 0 cf
  have hx := x.isLt
  have hr := (adc x 0 cf).1.isLt
  rw [show (0 : BitVec w).toNat = 0 from BitVec.toNat_zero, Nat.add_zero] at hsum
  cases hlast : (adc x 0 cf).2 with
  | false => rwa [hlast, Bool.toNat_false, Nat.mul_zero, Nat.add_zero] at hsum
  | true =>
      rw [hlast, Bool.toNat_true] at hsum
      cases cf with
      | false =>
          rw [Bool.toNat_false] at hsum
          omega
      | true =>
          have := h rfl
          rw [Bool.toNat_true] at hsum
          omega

/-- The last carry is never lost. -/
theorem endAround_toNat (x y : BitVec w) :
    (endAround x y).toNat = (adc x y false).1.toNat + (adc x y false).2.toNat := by
  refine adc_zero_toNat _ _ fun hcarry => ?_
  have hx := x.isLt
  have hy := y.isLt
  have hsum := adc_toNat x y false
  rw [hcarry, Bool.toNat_true, Bool.toNat_false] at hsum
  omega

theorem endAround_same (x y : BitVec w) :
    SameSum (2 ^ w - 1) (endAround x y).toNat (x.toNat + y.toNat) := by
  have hsum := adc_toNat x y false
  rw [Bool.toNat_false, Nat.add_zero] at hsum
  rw [endAround_toNat, ← hsum]
  exact .carry (dvd_refl _) (Nat.two_pow_pos w)

theorem onesSum_same (l : List (BitVec w)) :
    SameSum (2 ^ w - 1) (onesSum l).toNat (l.map BitVec.toNat).sum := by
  have hfold : ∀ (l : List (BitVec w)) (x : BitVec w),
      SameSum (2 ^ w - 1) (l.foldl endAround x).toNat (x.toNat + (l.map BitVec.toNat).sum) := by
    intro l
    induction l with
    | nil => exact fun x => .refl _
    | cons y l ih =>
        intro x
        rw [List.foldl_cons, List.map_cons, List.sum_cons, ← Nat.add_assoc]
        exact (ih (endAround x y)).trans ((endAround_same x y).add (.refl _))
  have hall := hfold l 0
  rwa [show (0 : BitVec w).toNat = 0 from BitVec.toNat_zero, Nat.zero_add] at hall

end LinuxKernel.Carry
