import LinuxKernel.V012.Math.Convert
import Mathlib.Data.Rat.Floor

/-!
# LinuxKernel.V012.Math.IntRound

**Rounding to an integer**: what `real_to_int` gives against what the mode asks for.

- `prescribed` is the integer that a mode asks for, ties going to the even one.
- The discarded bits are kept in one word: a fraction that does not show there is `Lost`, and only
  then the result is wrong.
-/

namespace LinuxKernel.V012.Math

open TempReal

/-- The integer that `q` is rounded to. -/
def prescribed (mode : Rounding) (q : ℚ) : ℤ :=
  match mode with
  | .nearest =>
      if q - ⌊q⌋ < 1 / 2 then ⌊q⌋
      else if 1 / 2 < q - ⌊q⌋ then ⌊q⌋ + 1
      else if Even ⌊q⌋ then ⌊q⌋ else ⌊q⌋ + 1
  | .down => ⌊q⌋
  | .up => ⌈q⌉
  | .zero => if 0 ≤ q then ⌊q⌋ else ⌈q⌉

/-- The mode would have to see bits of the fraction below the first 32. -/
def Lost (mode : Rounding) (q : ℚ) : Prop :=
  match mode with
  | .nearest => Even ⌊|q|⌋ ∧ 1 / 2 < Int.fract |q| ∧ Int.fract |q| < 1 / 2 + 1 / 2 ^ 32
  | .down => q < 0 ∧ 0 < Int.fract |q| ∧ Int.fract |q| < 1 / 2 ^ 32
  | .up => 0 < q ∧ 0 < Int.fract |q| ∧ Int.fract |q| < 1 / 2 ^ 32
  | .zero => False

/-- Whether a number with integer part `n` and fraction `f` goes away from zero. -/
def away (mode : Rounding) (sign : Bool) (n : Nat) (f : ℚ) : Bool :=
  match mode with
  | .nearest => decide (1 / 2 < f) || (decide (f = 1 / 2) && decide (n % 2 = 1))
  | .down => sign && decide (f ≠ 0)
  | .up => !sign && decide (f ≠ 0)
  | .zero => false

variable {n : Nat} {f : ℚ} {mode : Rounding}

theorem floor_add (hf : 0 ≤ f) (hf' : f < 1) : ⌊(n : ℚ) + f⌋ = n := by
  rw [Int.floor_eq_iff]
  push_cast
  exact ⟨by linarith, by linarith⟩

theorem ceil_add (hf : 0 ≤ f) (hf' : f < 1) : ⌈(n : ℚ) + f⌉ = if f = 0 then (n : ℤ) else n + 1 := by
  rw [Int.ceil_eq_iff]
  split
  case isTrue h =>
    push_cast
    exact ⟨by linarith, by linarith⟩
  case isFalse h =>
    have hpos : 0 < f := lt_of_le_of_ne hf (Ne.symm h)
    push_cast
    exact ⟨by linarith, by linarith⟩

theorem even_natCast : Even (n : ℤ) ↔ ¬ n % 2 = 1 := by
  rw [Int.even_iff]
  omega

theorem away_down {sign : Bool} : away .down sign n f = (sign && decide (f ≠ 0)) := rfl

theorem away_up {sign : Bool} : away .up sign n f = (!sign && decide (f ≠ 0)) := rfl

theorem away_nearest_lt {sign : Bool} (h : f < 1 / 2) : away .nearest sign n f = false := by
  unfold away
  rw [decide_eq_false (not_lt.mpr h.le), decide_eq_false (ne_of_lt h)]
  rfl

theorem away_nearest_half {sign : Bool} (h : f = 1 / 2) :
    away .nearest sign n f = decide (n % 2 = 1) := by
  unfold away
  rw [decide_eq_false (not_lt.mpr h.le), decide_eq_true h, Bool.false_or, Bool.true_and]

theorem away_nearest_gt {sign : Bool} (h : 1 / 2 < f) : away .nearest sign n f = true := by
  unfold away
  rw [decide_eq_true h, Bool.true_or]

theorem prescribed_add (mode : Rounding) (hf : 0 ≤ f) (hf' : f < 1) :
    prescribed mode (n + f) = n + (away mode false n f).toNat := by
  have hfloor := floor_add (n := n) hf hf'
  have hfract : (n : ℚ) + f - ((n : ℤ) : ℚ) = f := by
    push_cast
    ring
  cases mode with
  | nearest =>
      unfold prescribed
      dsimp only
      rw [hfloor, hfract]
      rcases lt_trichotomy f (1 / 2) with h | h | h
      · rw [if_pos h, away_nearest_lt h, Bool.toNat_false, Nat.cast_zero, add_zero]
      · rw [if_neg (not_lt.mpr h.ge), if_neg (not_lt.mpr h.le), away_nearest_half h]
        by_cases hodd : n % 2 = 1
        · rw [if_neg (fun h => even_natCast.mp h hodd), decide_eq_true hodd]
          rfl
        · rw [if_pos (even_natCast.mpr hodd), decide_eq_false hodd, Bool.toNat_false,
            Nat.cast_zero, add_zero]
      · rw [if_neg (not_lt.mpr h.le), if_pos h, away_nearest_gt h]
        rfl
  | down => exact hfloor.trans (add_zero _).symm
  | up =>
      refine (ceil_add hf hf').trans ?_
      rw [away_up]
      by_cases h : f = 0
      · rw [if_pos h, decide_eq_false (not_not.mpr h), Bool.and_false, Bool.toNat_false,
          Nat.cast_zero, add_zero]
      · rw [if_neg h, decide_eq_true h]
        rfl
  | zero =>
      have hle : 0 ≤ (n : ℚ) + f := by positivity
      exact (if_pos hle).trans (hfloor.trans (add_zero _).symm)

theorem prescribed_neg (mode : Rounding) (hf : 0 ≤ f) (hf' : f < 1) (hpos : 0 < (n : ℚ) + f) :
    prescribed mode (-(n + f)) = -(n + (away mode true n f).toNat) := by
  have hfloor : ⌊-((n : ℚ) + f)⌋ = -if f = 0 then (n : ℤ) else n + 1 := by
    rw [Int.floor_neg, ceil_add hf hf']
  have hceil : ⌈-((n : ℚ) + f)⌉ = -n := by
    rw [Int.ceil_neg, floor_add hf hf']
  cases mode with
  | nearest =>
      unfold prescribed
      dsimp only
      rw [hfloor]
      by_cases h0 : f = 0
      · have hzero : -((n : ℚ) + f) - ((-(n : ℤ) : ℤ) : ℚ) < 1 / 2 := by
          push_cast
          linarith
        rw [if_pos h0, if_pos hzero, away_nearest_lt (by linarith), Bool.toNat_false, Nat.cast_zero,
          add_zero]
      · have hfract : -((n : ℚ) + f) - ((-((n : ℤ) + 1) : ℤ) : ℚ) = 1 - f := by
          push_cast
          ring
        have heven : Even (-((n : ℤ) + 1)) ↔ n % 2 = 1 := by
          rw [Int.even_iff]
          omega
        rw [if_neg h0, hfract]
        rcases lt_trichotomy f (1 / 2) with h | h | h
        · rw [if_neg (by linarith), if_pos (by linarith), away_nearest_lt h, Bool.toNat_false,
            Nat.cast_zero]
          ring
        · rw [if_neg (by linarith), if_neg (by linarith), away_nearest_half h]
          by_cases hodd : n % 2 = 1
          · rw [if_pos (heven.mpr hodd), decide_eq_true hodd]
            rfl
          · rw [if_neg (fun h => hodd (heven.mp h)), decide_eq_false hodd, Bool.toNat_false,
              Nat.cast_zero]
            ring
        · rw [if_pos (by linarith), away_nearest_gt h]
          rfl
  | down =>
      refine hfloor.trans ?_
      rw [away_down]
      by_cases h : f = 0
      · rw [if_pos h, decide_eq_false (not_not.mpr h), Bool.and_false, Bool.toNat_false,
          Nat.cast_zero, add_zero]
      · rw [if_neg h, decide_eq_true h]
        rfl
  | up => exact hceil.trans (congrArg _ (add_zero _).symm)
  | zero =>
      have hlt : ¬ 0 ≤ -((n : ℚ) + f) := by linarith
      exact (if_neg hlt).trans (hceil.trans (congrArg _ (add_zero _).symm))

/-! ### What the code sees of the fraction -/

/-- `u` is the fraction `f` cut off behind 32 bits. -/
def Seen (u : Nat) (f : ℚ) : Prop := ∀ c : Nat, c ≤ u ↔ (c : ℚ) / 2 ^ 32 ≤ f

theorem seen_div (r s : Nat) : Seen (r * 2 ^ 32 / 2 ^ s) ((r : ℚ) / 2 ^ s) := by
  intro c
  rw [Nat.le_div_iff_mul_le (Nat.two_pow_pos s), div_le_div_iff₀ (by positivity) (by positivity)]
  exact_mod_cast Iff.rfl

theorem Seen.ne_zero {u : Nat} (h : Seen u f) : u ≠ 0 ↔ 1 / 2 ^ 32 ≤ f := by
  rw [← Nat.one_le_iff_ne_zero, h 1, Nat.cast_one]

/-- One of the modes that only ask whether there is a fraction. -/
theorem seen_iff {u : Nat} {c : Bool} (h : Seen u f) (hf : 0 ≤ f) :
    ((c && decide (u ≠ 0)) = (c && decide (f ≠ 0))) ↔ ¬ (c = true ∧ 0 < f ∧ f < 1 / 2 ^ 32) := by
  cases c with
  | false => exact iff_of_true rfl fun h => Bool.noConfusion h.1
  | true =>
      rw [Bool.true_and, Bool.true_and, decide_eq_decide, h.ne_zero]
      constructor
      · rintro hiff ⟨_, hpos, hlt⟩
        exact absurd (hiff.mpr (ne_of_gt hpos)) (not_le.mpr hlt)
      · intro hnot
        refine ⟨fun hle => ne_of_gt (lt_of_lt_of_le (by positivity) hle), fun hne => ?_⟩
        exact le_of_not_gt fun hlt => hnot ⟨rfl, lt_of_le_of_ne hf (Ne.symm hne), hlt⟩

/-- In the nearest mode the fraction just above one half is not told from one half. -/
theorem seen_nearest_iff {u : Nat} {sign : Bool} (h : Seen u f) :
    roundsUp .nearest sign (decide (n % 2 = 1)) u = away .nearest sign n f ↔
      ¬ (¬ n % 2 = 1 ∧ 1 / 2 < f ∧ f < 1 / 2 + 1 / 2 ^ 32) := by
  unfold roundsUp away
  by_cases hodd : n % 2 = 1
  · have hhalf : 2 ^ 31 ≤ u ↔ 1 / 2 ≤ f := by
      have h := h (2 ^ 31)
      rwa [show ((2 ^ 31 : Nat) : ℚ) / 2 ^ 32 = 1 / 2 by norm_num] at h
    refine iff_of_true ?_ fun h => h.1 hodd
    rw [decide_eq_true hodd, Bool.and_true, Bool.toNat_true, ← Bool.decide_or, decide_eq_decide,
      Nat.add_le_add_iff_right, hhalf, le_iff_lt_or_eq, eq_comm (a := f)]
  · have hhalf : 2 ^ 31 + 1 ≤ u ↔ 1 / 2 + 1 / 2 ^ 32 ≤ f := by
      have h := h (2 ^ 31 + 1)
      rwa [show ((2 ^ 31 + 1 : Nat) : ℚ) / 2 ^ 32 = 1 / 2 + 1 / 2 ^ 32 by norm_num] at h
    rw [decide_eq_false hodd, Bool.and_false, Bool.or_false, Bool.toNat_false, Nat.add_zero u,
      decide_eq_decide, hhalf]
    constructor
    · rintro hiff ⟨_, hgt, hlt⟩
      exact absurd (hiff.mpr hgt) (not_le.mpr hlt)
    · intro hnot
      refine ⟨fun hle => lt_of_lt_of_le (by norm_num) hle, fun hgt => ?_⟩
      exact le_of_not_gt fun hlt => hnot ⟨hodd, hgt, hlt⟩

variable {x : TempReal}

/-- The magnitude in integer part and fraction. -/
theorem abs_value_split (shift : Nat) (h : x.exp + shift = 16446) :
    |x.value| = ((x.m / 2 ^ shift : Nat) : ℚ) + ((x.m % 2 ^ shift : Nat) : ℚ) / 2 ^ shift := by
  have hpos : (0 : ℚ) < 2 ^ shift := by positivity
  have hpow : (2 : ℚ) ^ ((x.exp : ℤ) - 16446) = 1 / 2 ^ shift := by
    rw [show (x.exp : ℤ) - 16446 = -(shift : ℤ) by omega, zpow_neg, zpow_natCast, one_div]
  have hsplit : (x.m : ℚ) = 2 ^ shift * ((x.m / 2 ^ shift : Nat) : ℚ) +
      ((x.m % 2 ^ shift : Nat) : ℚ) := by
    exact_mod_cast (Nat.div_add_mod x.m (2 ^ shift)).symm
  rw [abs_value, hpow, mul_one_div, hsplit, add_div, mul_div_cancel_left₀ _ (ne_of_gt hpos)]

/-- The fraction that is kept. -/
theorem kept_eq (m s : Nat) : m * 2 ^ 32 / 2 ^ s % 2 ^ 32 = m % 2 ^ s * 2 ^ 32 / 2 ^ s := by
  have hpos : 0 < 2 ^ s := Nat.two_pow_pos s
  have hsplit : m * 2 ^ 32 = m % 2 ^ s * 2 ^ 32 + 2 ^ s * (m / 2 ^ s * 2 ^ 32) := by
    rw [← Nat.mul_assoc, ← Nat.add_mul, Nat.add_comm, Nat.div_add_mod]
  have hlt : m % 2 ^ s * 2 ^ 32 / 2 ^ s < 2 ^ 32 := by
    rw [Nat.div_lt_iff_lt_mul hpos, Nat.mul_comm]
    exact Nat.mul_lt_mul_of_pos_left (Nat.mod_lt _ hpos) (by decide)
  rw [hsplit, Nat.add_mul_div_left _ _ hpos, Nat.add_mul_mod_self_right, Nat.mod_eq_of_lt hlt]

theorem exp_lt_of_abs (hx : x.Normal) (hlt : |x.value| < 2 ^ 63) : x.exp < 16446 := by
  refine Nat.lt_of_not_le fun hle => absurd hlt (not_lt.mpr ?_)
  have hpow : (1 : ℚ) ≤ 2 ^ ((x.exp : ℤ) - 16446) := one_le_zpow₀ (by norm_num) (by omega)
  have hm : (2 : ℚ) ^ 63 ≤ x.m := by exact_mod_cast hx
  rw [abs_value]
  calc (2 : ℚ) ^ 63 = 2 ^ 63 * 1 := (mul_one _).symm
    _ ≤ x.m * 2 ^ ((x.exp : ℤ) - 16446) := mul_le_mul hm hpow zero_le_one (by positivity)

/-- Nothing is lost where what is kept decides as the fraction does. -/
theorem kept_iff {shift : Nat} (mode : Rounding) (hm : 0 < x.m) (h : x.exp + shift = 16446) :
    roundsUp mode x.negative (decide (x.m / 2 ^ shift % 2 = 1)) (x.m * 2 ^ 32 / 2 ^ shift % 2 ^ 32) =
        away mode x.negative (x.m / 2 ^ shift) ((x.m % 2 ^ shift : Nat) / 2 ^ shift) ↔
      ¬ Lost mode x.value := by
  have hpos : (0 : ℚ) < 2 ^ shift := by positivity
  have hf : (0 : ℚ) ≤ (x.m % 2 ^ shift : Nat) / 2 ^ shift := by positivity
  have hf' : ((x.m % 2 ^ shift : Nat) : ℚ) / 2 ^ shift < 1 := by
    rw [div_lt_one hpos]
    exact_mod_cast Nat.mod_lt _ (Nat.two_pow_pos shift)
  have hseen := seen_div (x.m % 2 ^ shift) shift
  have habs := abs_value_split _ h
  have hfloor : ⌊|x.value|⌋ = ((x.m / 2 ^ shift : Nat) : ℤ) := by rw [habs, floor_add hf hf']
  have hfract : Int.fract |x.value| = (x.m % 2 ^ shift : Nat) / 2 ^ shift := by
    rw [Int.fract, hfloor, habs, Int.cast_natCast, add_sub_cancel_left]
  have hvalue := abs_value_pos hm
  have hsign := value_of_sign x
  have hneg : x.negative = true ↔ x.value < 0 := by
    cases hs : x.negative with
    | true =>
        rw [hs, if_pos rfl] at hsign
        exact iff_of_true rfl (by linarith)
    | false =>
        rw [hs, if_neg Bool.false_ne_true] at hsign
        exact iff_of_false Bool.false_ne_true (by linarith)
  have hpos' : (!x.negative) = true ↔ 0 < x.value := by
    cases hs : x.negative with
    | true =>
        rw [hs, if_pos rfl] at hsign
        exact iff_of_false Bool.false_ne_true (by linarith)
    | false =>
        rw [hs, if_neg Bool.false_ne_true] at hsign
        exact iff_of_true rfl (by linarith)
  rw [kept_eq]
  unfold Lost
  rw [hfloor, hfract]
  cases mode with
  | nearest =>
      rw [even_natCast]
      exact seen_nearest_iff hseen
  | down =>
      rw [← hneg]
      exact seen_iff hseen hf
  | up =>
      rw [← hpos']
      exact seen_iff hseen hf
  | zero => exact iff_of_true rfl id

theorem signed_eq_iff (s b c : Bool) (n : Nat) :
    (if s then -((n + b.toNat : Nat) : ℤ) else ((n + b.toNat : Nat) : ℤ)) =
        (if s then -((n : ℤ) + c.toNat) else (n : ℤ) + c.toNat) ↔ b = c := by
  have hinj : b.toNat = c.toNat ↔ b = c := by
    revert b c
    decide
  rw [← hinj]
  cases s with
  | true =>
      rw [if_pos rfl, if_pos rfl]
      omega
  | false =>
      rw [if_neg Bool.false_ne_true, if_neg Bool.false_ne_true]
      omega

theorem prescribed_signed {f : ℚ} (mode : Rounding) (s : Bool) (n : Nat) (hf : 0 ≤ f) (hf' : f < 1)
    (hpos : 0 < (n : ℚ) + f) : prescribed mode (if s then -((n : ℚ) + f) else n + f) =
      if s then -((n : ℤ) + (away mode s n f).toNat) else n + (away mode s n f).toNat := by
  cases s with
  | true => exact prescribed_neg mode hf hf' hpos
  | false => exact prescribed_add mode hf hf'

/-- The integer has the sign of the number and is the one the mode asks for, unless the mode would
have to see what is cut off. -/
theorem realToInt_rounds (mode : Rounding) (swd : BitVec 32) (x : TempReal) (hx : x.Normal)
    (hlt : |x.value| < 2 ^ 63) :
    ((realToInt mode swd x).2.sign = x.negative ∧
        (realToInt mode swd x).2.number = prescribed mode x.value) ↔
      ¬ Lost mode x.value := by
  have hexp := exp_lt_of_abs hx hlt
  obtain ⟨shift, hshift⟩ := Nat.exists_eq_add_of_lt hexp
  have hsum : x.exp + (shift + 1) = 16446 := by omega
  obtain ⟨_, hsign, hmag⟩ := realToInt_eq mode swd _ hsum (.inl (by omega))
  have habs := abs_value_split _ hsum
  have hpos : (0 : ℚ) < 2 ^ (shift + 1) := by positivity
  have hf : (0 : ℚ) ≤ (x.m % 2 ^ (shift + 1) : Nat) / 2 ^ (shift + 1) := by positivity
  have hf' : ((x.m % 2 ^ (shift + 1) : Nat) : ℚ) / 2 ^ (shift + 1) < 1 := by
    rw [div_lt_one hpos]
    exact_mod_cast Nat.mod_lt _ (Nat.two_pow_pos (shift + 1))
  have hvalue := abs_value_pos hx.m_pos
  rw [← kept_iff mode hx.m_pos hsum, and_iff_right hsign, value_of_sign x, habs,
    prescribed_signed mode x.negative _ hf hf' (habs ▸ hvalue)]
  unfold TempInt.number
  rw [hsign, hmag]
  exact signed_eq_iff ..

/-- 2.5 to the nearest -/
theorem realToInt_rounds_half :
    ((realToInt .nearest 0 (of ⟨0, 0xa0000000⟩ false 0x4000)).2.sign =
          (of ⟨0, 0xa0000000⟩ false 0x4000).negative ∧
        (realToInt .nearest 0 (of ⟨0, 0xa0000000⟩ false 0x4000)).2.number =
          prescribed .nearest (of ⟨0, 0xa0000000⟩ false 0x4000).value) ↔
      ¬ Lost .nearest (of ⟨0, 0xa0000000⟩ false 0x4000).value :=
  realToInt_rounds .nearest 0 (of ⟨0, 0xa0000000⟩ false 0x4000) (by decide) (by
    rw [abs_value_split 62 (by decide),
      show (of ⟨0, 0xa0000000⟩ false 0x4000).m = 10 * 2 ^ 60 by decide]
    norm_num)

/-- 2 to the power of -40, upwards: the code gives 0. -/
theorem not_realToInt_rounds_tiny :
    ¬ ∀ (mode : Rounding) (swd : BitVec 32) (x : TempReal), x.Normal → |x.value| < 2 ^ 63 →
      (realToInt mode swd x).2.sign = x.negative ∧
        (realToInt mode swd x).2.number = prescribed mode x.value := by
  intro hall
  have hm : (of ⟨0, 0x80000000⟩ false 16343).m = 2 ^ 63 := by decide
  have habs := abs_value_split (x := of ⟨0, 0x80000000⟩ false 16343) 103 (by decide)
  rw [hm, show 2 ^ 63 / 2 ^ 103 = 0 by decide, show 2 ^ 63 % 2 ^ 103 = 2 ^ 63 by decide] at habs
  have hvalue := value_of_sign (of ⟨0, 0x80000000⟩ false 16343)
  rw [of_negative, if_neg Bool.false_ne_true] at hvalue
  obtain ⟨_, h⟩ := hall .up 0 (of ⟨0, 0x80000000⟩ false 16343) (by decide)
    (by rw [habs]; norm_num)
  have hceil : prescribed .up (of ⟨0, 0x80000000⟩ false 16343).value = 0 + 1 := by
    rw [hvalue, habs]
    exact (ceil_add (by positivity) (by norm_num)).trans (if_neg (by norm_num))
  rw [hceil] at h
  exact absurd h (by decide)

end LinuxKernel.V012.Math
