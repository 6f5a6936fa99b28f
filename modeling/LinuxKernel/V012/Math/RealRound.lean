import LinuxKernel.Lib.Grid
import LinuxKernel.V012.Math.Convert
import Mathlib.Tactic.FieldSimp

/-!
# LinuxKernel.V012.Math.RealRound

**Rounding to short and long reals**: the numbers of a format as a row, and what a rounding mode asks
for among them.

- `RealFormat.mag n` is the number with the pattern `n`; the next pattern is the next number, so the
  carry out of the significand is right.
- What is cut off of a temporary real is a part of the gap between two of them; `Proper` says which
  of the two the mode asks for.
-/

namespace LinuxKernel.V012.Math

open TempReal Grid

/-! ### Formats -/

/-- Bits of the fraction, the exponent of a temporary real at a field of 0, and the field of
infinity. -/
structure RealFormat where
  frac : Nat
  bias : Nat
  top : Nat
  le : frac ≤ 63
  two_le : 2 ≤ top

namespace RealFormat

def short : RealFormat := ⟨23, 16256, 255, by decide, by decide⟩

def long : RealFormat := ⟨52, 15360, 2047, by decide, by decide⟩

variable (F : RealFormat) {n : Nat}

/-- The bits of a significand that do not fit. -/
def cut : Nat := 63 - F.frac

/-- The gap above the pattern `n`. -/
def ulp (n : Nat) : ℚ := 2 ^ ((n / 2 ^ F.frac : Nat) + F.bias + F.cut - 16446 : ℤ)

def mag (n : Nat) : ℚ := (2 ^ F.frac + n % 2 ^ F.frac : Nat) * F.ulp n

/-- The smallest and the largest normal pattern. -/
def lo : Nat := 2 ^ F.frac

def hi : Nat := F.top * 2 ^ F.frac - 1

/-- A normal number of the format. -/
def Value (q : ℚ) : Prop := ∃ n, F.lo ≤ n ∧ n ≤ F.hi ∧ (q = F.mag n ∨ q = -F.mag n)

theorem ulp_pos (n : Nat) : 0 < F.ulp n := zpow_pos (by decide) _

theorem mag_pos (n : Nat) : 0 < F.mag n := by
  have hulp := F.ulp_pos n
  unfold mag
  positivity

/-- The next pattern is the next number, also where the carry raises the exponent. -/
theorem mag_succ (n : Nat) : F.mag (n + 1) = F.mag n + F.ulp n := by
  have hpos : 0 < 2 ^ F.frac := Nat.two_pow_pos _
  have hsplit := Nat.div_add_mod n (2 ^ F.frac)
  have hlt := Nat.mod_lt n hpos
  by_cases hcarry : n % 2 ^ F.frac + 1 < 2 ^ F.frac
  · have hdiv : (n + 1) / 2 ^ F.frac = n / 2 ^ F.frac := by
      refine Nat.div_eq_of_lt_le ?_ ?_
      · rw [Nat.mul_comm]
        omega
      · rw [Nat.succ_mul, Nat.mul_comm]
        omega
    have hmod : (n + 1) % 2 ^ F.frac = n % 2 ^ F.frac + 1 := by
      have h := Nat.div_add_mod (n + 1) (2 ^ F.frac)
      rw [hdiv] at h
      omega
    unfold mag ulp
    rw [hdiv, hmod]
    push_cast
    ring
  · have hdiv : (n + 1) / 2 ^ F.frac = n / 2 ^ F.frac + 1 := by
      refine Nat.div_eq_of_lt_le ?_ ?_
      · rw [Nat.succ_mul, Nat.mul_comm]
        omega
      · rw [Nat.succ_mul, Nat.succ_mul, Nat.mul_comm]
        omega
    have hmod : (n + 1) % 2 ^ F.frac = 0 := by
      have h := Nat.div_add_mod (n + 1) (2 ^ F.frac)
      rw [hdiv, Nat.mul_succ] at h
      omega
    have hlast : ((n % 2 ^ F.frac : Nat) : ℚ) = 2 ^ F.frac - 1 := by
      have h : n % 2 ^ F.frac + 1 = 2 ^ F.frac := by omega
      rw [eq_sub_iff_add_eq]
      exact_mod_cast h
    have hulp : F.ulp (n + 1) = 2 * F.ulp n := by
      unfold ulp
      rw [hdiv, ← zpow_one_add₀ (by decide)]
      congr 1
      push_cast
      ring
    unfold mag
    rw [hulp, hmod]
    push_cast
    rw [hlast]
    ring

theorem mag_strictMono : StrictMono F.mag := by
  refine strictMono_nat_of_lt_succ fun n => ?_
  rw [mag_succ]
  exact lt_add_of_pos_right _ (F.ulp_pos n)

theorem row : Row F.Value F.mag F.lo F.hi where
  mono := F.mag_strictMono
  pos := F.mag_pos _
  mem_iff _ := Iff.rfl

/-! ### A temporary real between two patterns -/

variable {x : TempReal}

/-- The pattern without the sign, cut off. -/
def trunc (x : TempReal) : Nat :=
  (x.exp - F.bias) * 2 ^ F.frac + x.m / 2 ^ F.cut % 2 ^ F.frac

/-- What is cut off. -/
def rest (x : TempReal) : Nat := x.m % 2 ^ F.cut

theorem trunc_div (x : TempReal) : F.trunc x / 2 ^ F.frac = x.exp - F.bias := by
  have hpos : 0 < 2 ^ F.frac := Nat.two_pow_pos _
  unfold trunc
  rw [Nat.mul_comm, Nat.mul_add_div hpos, Nat.div_eq_of_lt (Nat.mod_lt _ hpos), Nat.add_zero]

theorem trunc_mod (x : TempReal) : F.trunc x % 2 ^ F.frac = x.m / 2 ^ F.cut % 2 ^ F.frac := by
  unfold trunc
  rw [Nat.mul_comm, Nat.mul_add_mod, Nat.mod_mod]

theorem rest_lt (x : TempReal) : F.rest x < 2 ^ F.cut := Nat.mod_lt _ (Nat.two_pow_pos _)

/-- The bits that are kept. -/
theorem kept_bits (hx : x.Normal) :
    2 ^ F.frac + x.m / 2 ^ F.cut % 2 ^ F.frac = x.m / 2 ^ F.cut := by
  have hpow : 2 ^ F.frac * 2 ^ F.cut = 2 ^ 63 := by
    rw [← pow_add]
    congr 1
    have := F.le
    unfold cut
    omega
  have hpos : 0 < 2 ^ F.cut := Nat.two_pow_pos _
  have hlo : 2 ^ F.frac ≤ x.m / 2 ^ F.cut := by
    rw [Nat.le_div_iff_mul_le hpos, hpow]
    exact hx
  have hhi : x.m / 2 ^ F.cut < 2 * 2 ^ F.frac := by
    have hm := x.m_lt
    rw [Nat.div_lt_iff_lt_mul hpos, Nat.mul_assoc, hpow]
    omega
  rw [Nat.mod_eq_sub_mod hlo, Nat.mod_eq_of_lt (by omega)]
  omega

/-- The smallest normal number is above every significand with a lower exponent. -/
theorem mag_lo : F.mag F.lo = 2 ^ 64 * 2 ^ ((F.bias : ℤ) - 16446) := by
  have hle := F.le
  unfold mag ulp lo
  rw [Nat.mod_self, Nat.div_self (Nat.two_pow_pos _), Nat.add_zero, Nat.cast_pow, Nat.cast_ofNat,
    ← zpow_natCast, ← zpow_natCast, ← zpow_add₀ (by decide), ← zpow_add₀ (by decide)]
  congr 1
  unfold cut
  push_cast
  omega

theorem abs_value_eq (hx : x.Normal) (hb : F.bias ≤ x.exp) :
    |x.value| = F.mag (F.trunc x) + (F.rest x : ℚ) / 2 ^ F.cut * F.ulp (F.trunc x) := by
  have hulp : F.ulp (F.trunc x) = 2 ^ F.cut * 2 ^ ((x.exp : ℤ) - 16446) := by
    unfold ulp
    rw [trunc_div, ← zpow_natCast, ← zpow_add₀ (by decide)]
    congr 1
    omega
  have hsplit : (x.m : ℚ) = 2 ^ F.cut * (x.m / 2 ^ F.cut : Nat) + F.rest x := by
    exact_mod_cast (Nat.div_add_mod x.m (2 ^ F.cut)).symm
  unfold mag
  rw [trunc_mod, F.kept_bits hx, hulp, abs_value, hsplit]
  have hne : (2 : ℚ) ^ F.cut ≠ 0 := by positivity
  field_simp

/-- Within the normal range the pattern is one of the format, and so is the next one. -/
theorem trunc_mem (hx : x.Normal) (hlo : F.mag F.lo < |x.value|) (hhi : |x.value| < F.mag F.hi) :
    F.bias < x.exp ∧ x.exp < F.bias + F.top ∧ F.lo ≤ F.trunc x ∧ F.trunc x + 1 ≤ F.hi := by
  have hexp : F.bias < x.exp := by
    refine Nat.lt_of_not_le fun hle => absurd hlo (not_lt.mpr ?_)
    have hm : (x.m : ℚ) ≤ 2 ^ 64 := by exact_mod_cast x.m_lt.le
    rw [F.mag_lo, abs_value]
    exact mul_le_mul hm (zpow_le_zpow_right₀ (by norm_num) (by omega)) (by positivity)
      (by positivity)
  have habs := F.abs_value_eq hx hexp.le
  have hrest : (0 : ℚ) ≤ (F.rest x : ℚ) / 2 ^ F.cut * F.ulp (F.trunc x) :=
    mul_nonneg (by positivity) (F.ulp_pos _).le
  have hlt : F.trunc x < F.hi := F.mag_strictMono.lt_iff_lt.mp (by linarith)
  have hdiv := F.trunc_div x
  have htop : F.trunc x / 2 ^ F.frac < F.top := by
    rw [Nat.div_lt_iff_lt_mul (Nat.two_pow_pos _)]
    unfold hi at hlt
    omega
  refine ⟨hexp, by omega, ?_, hlt⟩
  unfold lo trunc
  exact Nat.le_trans (Nat.le_mul_of_pos_left _ (by omega)) (Nat.le_add_right ..)

end RealFormat

/-! ### Rounding -/

/-- What the mode asks for among the numbers of `P`. -/
def Rounds (mode : Rounding) (P : ℚ → Prop) (v r : ℚ) : Prop :=
  match mode with
  | .nearest => Nearest P v r
  | .down => Below P v r
  | .up => Above P v r
  | .zero => if 0 ≤ v then Below P v r else Above P v r

/-- Whether one more than what is cut off is right, `rest` of `2 ^ cut` being left. -/
def Proper (mode : Rounding) (sign one : Bool) (rest cut : Nat) : Prop :=
  match mode with
  | .nearest => (one = false → 2 * rest ≤ 2 ^ cut) ∧ (one = true → 2 ^ cut ≤ 2 * rest)
  | .down => one = true ↔ sign = true ∧ rest ≠ 0
  | .up => one = true ↔ sign = false ∧ rest ≠ 0
  | .zero => one = false

variable {F : RealFormat} {x : TempReal} {one : Bool}

theorem index_iff (t : Nat) (one : Bool) (p : Prop) [Decidable p] :
    (t + one.toNat = if p then t else t + 1) ↔ (one = true ↔ ¬ p) := by
  by_cases hp : p
  · rw [if_pos hp]
    cases one <;> simp [hp]
  · rw [if_neg hp]
    cases one <;> simp [hp]

/-- Away from zero. -/
theorem iff_away {rest : Nat} {p : Prop} (hp : p) :
    (one = true ↔ ¬ rest = 0) ↔ (one = true ↔ p ∧ rest ≠ 0) := by
  rw [and_iff_right hp]

/-- Towards zero. -/
theorem iff_toward {rest : Nat} {p : Prop} (hp : ¬ p) :
    one = false ↔ (one = true ↔ p ∧ rest ≠ 0) := by
  rw [iff_false_intro (fun h : p ∧ rest ≠ 0 => hp h.1), iff_false, Bool.not_eq_true]

theorem index_zero_iff (t : Nat) (one : Bool) : t + one.toNat = t ↔ one = false := by
  cases one <;> simp

theorem index_one_iff (t : Nat) (one : Bool) : t + one.toNat = t + 1 ↔ one = true := by
  cases one <;> simp

theorem index_or (t : Nat) (one : Bool) : t + one.toNat = t ∨ t + one.toNat = t + 1 := by
  cases one <;> simp

/-- Which neighbour is nearer, from the part `φ` of the gap. -/
theorem nearer_iff {v t φ u : ℚ} (hu : 0 < u) (hv : v = t + φ * u) :
    (v - t ≤ t + u - v ↔ 2 * φ ≤ 1) ∧ (t + u - v ≤ v - t ↔ 1 ≤ 2 * φ) := by
  rw [← mul_le_mul_iff_left₀ hu (b := 2 * φ), ← mul_le_mul_iff_left₀ hu (b := 1), hv]
  refine ⟨⟨fun h => by linarith, fun h => by linarith⟩, ⟨fun h => by linarith, fun h => by linarith⟩⟩

/-- The number that is stored is the one the mode asks for if adding one, or not, is proper. -/
theorem rounds_iff (mode : Rounding) (hx : x.Normal) (hlo : F.mag F.lo < |x.value|)
    (hhi : |x.value| < F.mag F.hi) :
    Rounds mode F.Value x.value (if x.negative then -F.mag (F.trunc x + one.toNat)
        else F.mag (F.trunc x + one.toNat)) ↔
      Proper mode x.negative one (F.rest x) F.cut := by
  obtain ⟨hexp, _, hmem, hmem'⟩ := F.trunc_mem hx hlo hhi
  have habs := F.abs_value_eq hx hexp.le
  have hulp := F.ulp_pos (F.trunc x)
  have hsucc := F.mag_succ (F.trunc x)
  have hcut : (0 : ℚ) < 2 ^ F.cut := by positivity
  have hrest : (0 : ℚ) ≤ (F.rest x : ℚ) / 2 ^ F.cut := by positivity
  have hrest' : (F.rest x : ℚ) / 2 ^ F.cut < 1 := by
    rw [div_lt_one hcut]
    exact_mod_cast F.rest_lt x
  have hle : F.mag (F.trunc x) ≤ |x.value| := by
    rw [habs]
    exact le_add_of_nonneg_right (mul_nonneg hrest hulp.le)
  have hlt : |x.value| < F.mag (F.trunc x + 1) := by
    rw [habs, hsucc]
    have := mul_lt_mul_of_pos_right hrest' hulp
    linarith
  have hzero : |x.value| = F.mag (F.trunc x) ↔ F.rest x = 0 := by
    rw [habs, add_eq_left, mul_eq_zero, or_iff_left (ne_of_gt hulp), div_eq_zero_iff,
      or_iff_left (ne_of_gt hcut), Nat.cast_eq_zero]
  have hbelow := F.row.below_iff (k := F.trunc x + one.toNat) hmem hmem' hle hlt
  have habove := F.row.above_iff (k := F.trunc x + one.toNat) hmem hmem' hle hlt
  rw [index_zero_iff] at hbelow
  rw [index_iff, hzero] at habove
  have hnear := F.row.nearest_iff (k := F.trunc x + one.toNat) hmem hmem' hle hlt
    (index_or _ one)
  obtain ⟨hnear1, hnear2⟩ := nearer_iff hulp habs
  have hlow : |x.value| - F.mag (F.trunc x) ≤ F.mag (F.trunc x + 1) - |x.value| ↔
      2 * F.rest x ≤ 2 ^ F.cut := by
    have hhalf : 2 * F.rest x ≤ 2 ^ F.cut ↔ 2 * ((F.rest x : ℚ) / 2 ^ F.cut) ≤ 1 := by
      rw [← mul_div_assoc, div_le_one hcut]
      exact_mod_cast Iff.rfl
    rw [hhalf, hsucc, hnear1]
  have hhigh : F.mag (F.trunc x + 1) - |x.value| ≤ |x.value| - F.mag (F.trunc x) ↔
      2 ^ F.cut ≤ 2 * F.rest x := by
    have hhalf : 2 ^ F.cut ≤ 2 * F.rest x ↔ 1 ≤ 2 * ((F.rest x : ℚ) / 2 ^ F.cut) := by
      rw [← mul_div_assoc, one_le_div hcut]
      exact_mod_cast Iff.rfl
    rw [hhalf, hsucc, hnear2]
  rw [index_zero_iff, index_one_iff, hlow, hhigh] at hnear
  have hpos := abs_value_pos hx.m_pos
  have hvalue := value_of_sign x
  generalize F.rest x = ρ at hnear habove
  generalize F.mag (F.trunc x + one.toNat) = r at hnear hbelow habove
  cases hs : x.negative with
  | false =>
      rw [hs, if_neg Bool.false_ne_true] at hvalue
      rw [hvalue, if_neg Bool.false_ne_true]
      cases mode with
      | nearest => exact hnear
      | down => exact hbelow.trans (iff_toward Bool.false_ne_true)
      | up => exact habove.trans (iff_away rfl)
      | zero =>
          unfold Rounds
          dsimp only
          rw [if_pos hpos.le]
          exact hbelow
  | true =>
      rw [hs, if_pos rfl] at hvalue
      rw [hvalue, if_pos rfl]
      cases mode with
      | nearest => exact F.row.nearest_neg.trans hnear
      | down => exact (F.row.below_neg.trans habove).trans (iff_away rfl)
      | up => exact (F.row.above_neg.trans hbelow).trans (iff_toward fun h => Bool.noConfusion h)
      | zero =>
          unfold Rounds
          dsimp only
          rw [if_neg (by linarith)]
          exact F.row.above_neg.trans hbelow

/-- The value of a number put together from a pattern. -/
theorem of_value (F : RealFormat) {w : Wide} {s : Bool} (e k : Nat) (hw : w.toNat = (2 ^ F.frac + k) * 2 ^ F.cut)
    (hk : k < 2 ^ F.frac) (he : e + F.bias < 2 ^ 15) : (of w s (e + F.bias)).value =
      if s then -F.mag (e * 2 ^ F.frac + k) else F.mag (e * 2 ^ F.frac + k) := by
  have hpos : 0 < 2 ^ F.frac := Nat.two_pow_pos _
  have habs : |(of w s (e + F.bias)).value| = F.mag (e * 2 ^ F.frac + k) := by
    unfold RealFormat.mag RealFormat.ulp
    rw [abs_value, of_exp he, of_m, hw, Nat.mul_comm e, Nat.mul_add_mod, Nat.mod_eq_of_lt hk,
      Nat.mul_add_div hpos, Nat.div_eq_of_lt hk, Nat.add_zero, Nat.cast_mul, mul_assoc,
      Nat.cast_pow 2 F.cut, Nat.cast_ofNat, ← zpow_natCast, ← zpow_add₀ (by decide)]
    congr 2
    push_cast
    ring
  rw [value_of_sign, of_negative, habs]

end LinuxKernel.V012.Math
