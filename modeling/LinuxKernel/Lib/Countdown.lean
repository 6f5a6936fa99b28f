import Mathlib.Algebra.Order.Floor.Div

/-!
# LinuxKernel.Lib.Countdown

**Countdowns that reload**: a number that is counted down to 0 and starts again at an interval.
-/

namespace LinuxKernel

/-- `value` turns to go, 0 when it is off; then `incr` between one time and the next. -/
structure Countdown where
  value : Nat
  incr : Nat

namespace Countdown

variable {c : Countdown} {n : Nat}

def fires (c : Countdown) : Bool := decide (c.value = 1)

def tick (c : Countdown) : Countdown :=
  if c.value = 1 then { c with value := c.incr } else { c with value := c.value - 1 }

def after (c : Countdown) : Nat → Countdown
  | 0 => c
  | n + 1 => c.tick.after n

/-- Turn `n`, from 1 on, is the one at `value` or a number of intervals behind it. -/
def Due (c : Countdown) (n : Nat) : Prop :=
  c.value ≠ 0 ∧ (n = c.value ∨ (c.incr ≠ 0 ∧ c.value < n ∧ c.incr ∣ n - c.value))

instance (c : Countdown) (n : Nat) : Decidable (c.Due n) :=
  inferInstanceAs (Decidable (_ ∧ _))

theorem after_succ (c : Countdown) (n : Nat) : c.after (n + 1) = (c.after n).tick := by
  induction n generalizing c with
  | zero => rfl
  | succ n ih => exact ih c.tick

/-- A turn later the same turns are due, one number less. -/
theorem due_tick (c : Countdown) (n : Nat) : c.tick.Due (n + 1) ↔ c.Due (n + 2) := by
  unfold Due tick
  by_cases h : c.value = 1
  · rw [if_pos h]
    dsimp only
    rw [h]
    have hsub : n + 2 - 1 = n + 1 := rfl
    rw [hsub]
    constructor
    · rintro ⟨hi, heq | ⟨-, hlt, hdvd⟩⟩
      · exact ⟨by decide, .inr ⟨hi, by omega, heq ▸ Nat.dvd_refl _⟩⟩
      · obtain ⟨q, hq⟩ := hdvd
        exact ⟨by decide, .inr ⟨hi, by omega, q + 1, by rw [Nat.mul_succ]; omega⟩⟩
    · rintro ⟨-, heq | ⟨hi, -, hdvd⟩⟩
      · omega
      · have hle := Nat.le_of_dvd (Nat.succ_pos n) hdvd
        refine ⟨hi, ?_⟩
        by_cases heq : n + 1 = c.incr
        · exact .inl heq
        · exact .inr ⟨hi, by omega, Nat.dvd_sub hdvd (Nat.dvd_refl _)⟩
  · rw [if_neg h]
    dsimp only
    by_cases h0 : c.value = 0
    · rw [h0]
      exact iff_of_false (fun h => h.1 rfl) fun h => h.1 rfl
    · have hsub : n + 1 - (c.value - 1) = n + 2 - c.value := by omega
      rw [hsub]
      refine and_congr (by omega) (or_congr (by omega) (and_congr_right fun _ => ?_))
      exact and_congr_left fun _ => by omega

/-- The turn behind `n` others fires exactly if it is due. -/
theorem fires_after (c : Countdown) (n : Nat) : (c.after n).fires = decide (c.Due (n + 1)) := by
  induction n generalizing c with
  | zero =>
      refine decide_eq_decide.mpr ?_
      unfold Due
      rw [after]
      omega
  | succ n ih =>
      rw [after, ih]
      exact decide_eq_decide.mpr (due_tick c n)

theorem due_value (h : c.value ≠ 0) : c.Due c.value := ⟨h, .inl rfl⟩

theorem due_next (h : c.value ≠ 0) (hi : c.incr ≠ 0) : c.Due (c.value + c.incr) :=
  ⟨h, .inr ⟨hi, by omega, by rw [Nat.add_sub_cancel_left]⟩⟩

theorem Due.value_le (h : c.Due n) : c.value ≤ n := by
  rcases h.2 with h | h <;> omega

/-- Behind the first time an interval divides what is left. -/
theorem Due.dvd (h : c.Due n) (hlt : c.value < n) : c.incr ≠ 0 ∧ c.incr ∣ n - c.value := by
  rcases h.2 with heq | hnext
  · omega
  · exact ⟨hnext.1, hnext.2.2⟩

/-- Two countdowns that fire at the same turns are equal, as far as they are on. -/
theorem sameDue_iff (c d : Countdown) :
    (∀ n, n ≠ 0 → (c.Due n ↔ d.Due n)) ↔ c.value = d.value ∧ (c.value = 0 ∨ c.incr = d.incr) := by
  have hle : ∀ c d : Countdown, (∀ n, n ≠ 0 → (c.Due n ↔ d.Due n)) → d.value ≤ c.value := by
    intro c d h
    by_cases hd : d.value = 0
    · omega
    · by_cases hc : c.value = 0
      · exact absurd hc ((h d.value hd).mpr (due_value hd)).1
      · exact ((h c.value hc).mp (due_value hc)).value_le
  have hdvd : ∀ c d : Countdown, c.value ≠ 0 → c.value = d.value →
      (∀ n, n ≠ 0 → (c.Due n ↔ d.Due n)) → d.incr ∣ c.incr := by
    intro c d hc heq h
    by_cases hi : c.incr = 0
    · rw [hi]
      exact Nat.dvd_zero _
    · have hnext := ((h _ (by omega)).mp (due_next hc hi)).dvd (by omega)
      rw [heq, Nat.add_sub_cancel_left] at hnext
      exact hnext.2
  constructor
  · intro h
    have heq : c.value = d.value :=
      Nat.le_antisymm (hle d c fun n hn => (h n hn).symm) (hle c d h)
    refine ⟨heq, or_iff_not_imp_left.mpr fun hc => ?_⟩
    exact Nat.dvd_antisymm (hdvd d c (heq ▸ hc) heq.symm fun n hn => (h n hn).symm)
      (hdvd c d hc heq h)
  · rintro ⟨heq, h0 | hi⟩ n -
    · exact iff_of_false (fun h => h.1 h0) fun h => h.1 (heq ▸ h0)
    · unfold Due
      rw [heq, hi]

end Countdown

end LinuxKernel
