import Mathlib.Algebra.Order.BigOperators.Group.Finset

/-!
# LinuxKernel.Lib.Tally

**Sums over the items a table holds.** A table gives for each name the item under it, if there is
one; `known` are the names that may be in use. `tally known w items` adds up what `w` says of the
items. A counter that a program keeps beside such a table is right when it equals a tally.

- One entry of the table changes at a time (`tally_update`).
-/

namespace LinuxKernel

universe u v

variable {ι : Type u} {β : Type v} {known : Finset ι} {w w' : β → ℕ} {items : ι → Option β}
  {i : ι} {b : β} {o : Option β}

/-- What is under one name. -/
def weight (w : β → ℕ) : Option β → ℕ
  | some b => w b
  | none => 0

@[simp] theorem weight_some : weight w (some b) = w b := rfl
@[simp] theorem weight_none : weight w none = 0 := rfl

def tally (known : Finset ι) (w : β → ℕ) (items : ι → Option β) : ℕ :=
  ∑ i ∈ known, weight w (items i)

theorem tally_mono (h : ∀ b, w b ≤ w' b) : tally known w items ≤ tally known w' items := by
  refine Finset.sum_le_sum fun i _ => ?_
  cases items i with
  | none => exact Nat.le_refl 0
  | some b => exact h b

theorem le_tally (hi : i ∈ known) (hb : items i = some b) : w b ≤ tally known w items := by
  have := Finset.single_le_sum (f := fun i => weight w (items i)) (fun j _ => Nat.zero_le _) hi
  rwa [hb] at this

theorem exists_of_tally_pos (h : 0 < tally known w items) :
    ∃ i ∈ known, ∃ b, items i = some b ∧ 0 < w b := by
  obtain ⟨i, hi, hw⟩ := Finset.exists_ne_zero_of_sum_ne_zero (Nat.pos_iff_ne_zero.mp h)
  cases hb : items i with
  | none =>
      rw [hb] at hw
      exact absurd rfl hw
  | some b =>
      rw [hb] at hw
      exact ⟨i, hi, b, hb, Nat.pos_of_ne_zero hw⟩

variable [DecidableEq ι]

variable (w items o) in
/-- **One entry changes.** What was there goes, what is there now comes. -/
theorem tally_update (hi : i ∈ known) :
    tally known w (Function.update items i o) + weight w (items i) =
      tally known w items + weight w o := by
  have hrest : ∑ j ∈ known.erase i, weight w (Function.update items i o j) =
      ∑ j ∈ known.erase i, weight w (items j) :=
    Finset.sum_congr rfl fun j hj => by rw [Function.update_of_ne (Finset.ne_of_mem_erase hj)]
  rw [tally, tally, ← Finset.add_sum_erase known _ hi, hrest, Function.update_self,
    ← Finset.add_sum_erase known (fun j => weight w (items j)) hi]
  omega

/-- A name that is not in use does not count. -/
theorem tally_insert (hi : items i = none) :
    tally (insert i known) w items = tally known w items := by
  by_cases hk : i ∈ known
  · rw [Finset.insert_eq_of_mem hk]
  · rw [tally, Finset.sum_insert hk, hi, weight_none, Nat.zero_add, tally]

end LinuxKernel
