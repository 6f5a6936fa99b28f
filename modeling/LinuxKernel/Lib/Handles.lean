import Mathlib.Algebra.BigOperators.Fin
import LinuxKernel.Lib.RefCount

/-!
# LinuxKernel.Lib.Handles

**Counts on two levels.** Slots point to files, and a file that is pointed to has
a target. A file counts the slots, a target counts the files, and what else
refers to it (`other`).

The rules are stated as agreement between two tables, as those of `RefCount`
are: a program says what its state looks like before and after.
-/

namespace LinuxKernel

universe u

section Rows

variable {α β φ : Type u} [Fintype α] [Fintype β] [DecidableEq φ]

theorem refs_eq_sum (g : β → Option φ) (f : φ) :
    refs Finset.univ g f = ∑ b, if g b = some f then 1 else 0 :=
  Finset.card_filter _ _

/-- A row of a table is filled. -/
theorem refs_row {g g' : α × β → Option φ} {a : α} (hnone : ∀ b, g (a, b) = none)
    (hother : ∀ x, x.1 ≠ a → g' x = g x) (f : φ) :
    refs Finset.univ g' f = refs Finset.univ g f + refs Finset.univ (fun b => g' (a, b)) f := by
  classical
  simp only [refs_eq_sum, Fintype.sum_prod_type]
  rw [← Finset.add_sum_erase Finset.univ _ (Finset.mem_univ a),
    ← Finset.add_sum_erase Finset.univ (fun a => ∑ b, if g (a, b) = some f then 1 else 0)
      (Finset.mem_univ a)]
  have hrow : (∑ b, if g (a, b) = some f then 1 else 0) = 0 :=
    Finset.sum_eq_zero fun b _ => by rw [hnone b]; rfl
  have hrest : ∑ x ∈ Finset.univ.erase a, (∑ b, if g' (x, b) = some f then 1 else 0) =
      ∑ x ∈ Finset.univ.erase a, (∑ b, if g (x, b) = some f then 1 else 0) :=
    Finset.sum_congr rfl fun x hx => Finset.sum_congr rfl fun b _ => by
      rw [hother (x, b) (Finset.ne_of_mem_erase hx)]
  rw [hrow, hrest, Nat.zero_add, Nat.add_comm]

end Rows

structure Handles (ι φ ν : Type u) where
  slot : ι → Option φ
  count : φ → Nat
  /-- The target of a file that is pointed to. -/
  target : φ → Option ν
  refCount : ν → Nat
  other : ν → Nat

namespace Handles

variable {ι φ ν : Type u} [Fintype ι] [Fintype φ] [DecidableEq φ] [DecidableEq ν]

structure Ok (H : Handles ι φ ν) : Prop where
  count : ∀ f, H.count f = refs Finset.univ H.slot f
  target : ∀ f, H.count f ≠ 0 ↔ ∃ i, H.target f = some i
  refCount : ∀ i, H.refCount i = refs Finset.univ H.target i + H.other i

variable {H H' : Handles ι φ ν} {x : ι} {f : φ} {i : ν}

theorem Ok.count_pos (h : Ok H) (hx : H.slot x = some f) : H.count f ≠ 0 := by
  rw [h.count]
  exact Nat.ne_of_gt (refs_pos (Finset.mem_univ x) hx)

theorem Ok.refCount_pos (h : Ok H) (hf : H.target f = some i) : H.refCount i ≠ 0 := by
  have := refs_pos (Finset.mem_univ f) hf
  rw [h.refCount]
  omega

/-- One slot changes, and the counts with it. -/
theorem Ok.count_update (h : Ok H) (hslot : ∀ y, y ≠ x → H'.slot y = H.slot y)
    (hcount : ∀ g, H'.count g + (if H.slot x = some g then 1 else 0) =
      H.count g + (if H'.slot x = some g then 1 else 0)) (g : φ) :
    H'.count g = refs Finset.univ H'.slot g := by
  have hrefs := refs_update (Finset.mem_univ x) (fun y _ hy => hslot y hy) g
  have := hcount g
  have := h.count g
  omega

/-- One target changes, and the counts with it. -/
theorem Ok.refCount_update (h : Ok H) (htarget : ∀ g, g ≠ f → H'.target g = H.target g)
    (hother : H'.other = H.other)
    (hcount : ∀ i, H'.refCount i + (if H.target f = some i then 1 else 0) =
      H.refCount i + (if H'.target f = some i then 1 else 0)) (i : ν) :
    H'.refCount i = refs Finset.univ H'.target i + H'.other i := by
  have hrefs := refs_update (Finset.mem_univ f) (fun g _ hg => htarget g hg) i
  have := hcount i
  have := h.refCount i
  rw [hother]
  omega

/-- A free slot points to a file that others point to. -/
theorem Ok.share (h : Ok H) (hx : H.slot x = none) (hf : H.count f ≠ 0)
    (hself : H'.slot x = some f) (hslot : ∀ y, y ≠ x → H'.slot y = H.slot y)
    (hcount : ∀ g, H'.count g = if g = f then H.count g + 1 else H.count g)
    (htarget : H'.target = H.target) (hrefCount : H'.refCount = H.refCount)
    (hother : H'.other = H.other) : Ok H' where
  count := h.count_update hslot fun g => by
    rw [hcount, hx, hself]
    rcases eq_or_ne g f with rfl | hg
    · simp
    · simp [hg, hg.symm]
  target g := by
    rw [htarget, ← h.target, hcount]
    by_cases hg : g = f
    · subst hg
      rw [if_pos rfl]
      exact iff_of_true (Nat.succ_ne_zero _) hf
    · rw [if_neg hg]
  refCount := by
    rw [htarget, hrefCount, hother]
    exact h.refCount

/-- A free slot points to a free file, which gets a target. -/
theorem Ok.open (h : Ok H) (hx : H.slot x = none) (hf : H.count f = 0)
    (hself : H'.slot x = some f) (hslot : ∀ y, y ≠ x → H'.slot y = H.slot y)
    (hcount : ∀ g, H'.count g = if g = f then 1 else H.count g)
    (htarget : ∀ g, H'.target g = if g = f then some i else H.target g)
    (hrefCount : ∀ j, H'.refCount j = if j = i then H.refCount j + 1 else H.refCount j)
    (hother : H'.other = H.other) : Ok H' where
  count := h.count_update hslot fun g => by
    rw [hcount, hx, hself]
    rcases eq_or_ne g f with rfl | hg
    · simp [hf]
    · simp [hg, hg.symm]
  target g := by
    rw [hcount, htarget]
    split
    · exact iff_of_true one_ne_zero ⟨i, rfl⟩
    · exact h.target g
  refCount := by
    have hnone : ∀ j, H.target f ≠ some j := fun j hj => (h.target f).mpr ⟨j, hj⟩ hf
    refine h.refCount_update (fun g hg => by rw [htarget, if_neg hg]) hother fun j => ?_
    rw [hrefCount, htarget, if_pos rfl, if_neg (hnone j)]
    rcases eq_or_ne j i with rfl | hj
    · simp
    · simp [hj, hj.symm]

/-- A slot leaves a file that others point to. -/
theorem Ok.close (h : Ok H) (hx : H.slot x = some f) (hf : H.count f ≠ 1)
    (hself : H'.slot x = none) (hslot : ∀ y, y ≠ x → H'.slot y = H.slot y)
    (hcount : ∀ g, H'.count g = if g = f then H.count g - 1 else H.count g)
    (htarget : H'.target = H.target) (hrefCount : H'.refCount = H.refCount)
    (hother : H'.other = H.other) : Ok H' where
  count := h.count_update hslot fun g => by
    have hpos := h.count_pos hx
    rw [hcount, hx, hself]
    rcases eq_or_ne g f with rfl | hg
    · simp only [if_true, reduceCtorEq, if_false]
      omega
    · simp [hg, hg.symm]
  target g := by
    have hpos := h.count_pos hx
    rw [htarget, ← h.target, hcount]
    by_cases hg : g = f
    · subst hg
      rw [if_pos rfl]
      omega
    · rw [if_neg hg]
  refCount := by
    rw [htarget, hrefCount, hother]
    exact h.refCount

/-- The last slot leaves a file, which gives its target up. -/
theorem Ok.closeLast (h : Ok H) (hx : H.slot x = some f) (hf : H.count f = 1)
    (hi : H.target f = some i)
    (hself : H'.slot x = none) (hslot : ∀ y, y ≠ x → H'.slot y = H.slot y)
    (hcount : ∀ g, H'.count g = if g = f then 0 else H.count g)
    (htarget : ∀ g, H'.target g = if g = f then none else H.target g)
    (hrefCount : ∀ j, H'.refCount j = if j = i then H.refCount j - 1 else H.refCount j)
    (hother : H'.other = H.other) : Ok H' where
  count := h.count_update hslot fun g => by
    rw [hcount, hx, hself]
    rcases eq_or_ne g f with rfl | hg
    · simp [hf]
    · simp [hg, hg.symm]
  target g := by
    rw [hcount, htarget]
    split
    · exact iff_of_false (fun hne => hne rfl) (by rintro ⟨j, hj⟩; cases hj)
    · exact h.target g
  refCount := by
    have hpos := h.refCount_pos hi
    refine h.refCount_update (fun g hg => by rw [htarget, if_neg hg]) hother fun j => ?_
    rw [hrefCount, htarget, if_pos rfl, hi]
    rcases eq_or_ne j i with rfl | hj
    · simp only [if_true, reduceCtorEq, if_false]
      omega
    · simp [hj, hj.symm]

/-- A free row of slots points to files that others point to. -/
theorem Ok.row {α β : Type u} [Fintype α] [Fintype β] {H H' : Handles (α × β) φ ν} {a : α}
    (h : Ok H) (hnone : ∀ b, H.slot (a, b) = none) (hslot : ∀ x, x.1 ≠ a → H'.slot x = H.slot x)
    (hopen : ∀ b f, H'.slot (a, b) = some f → H.count f ≠ 0)
    (hcount : ∀ f, H'.count f = H.count f + refs Finset.univ (fun b => H'.slot (a, b)) f)
    (htarget : H'.target = H.target) (hrefCount : H'.refCount = H.refCount)
    (hother : H'.other = H.other) : Ok H' where
  count f := by rw [hcount, h.count, refs_row hnone hslot]
  target f := by
    rw [htarget, ← h.target, hcount]
    refine ⟨fun hne hzero => hne ?_, fun hne => by omega⟩
    rw [hzero, Nat.zero_add, refs_eq_zero]
    exact fun b _ hb => hopen b f hb hzero
  refCount := by
    rw [htarget, hrefCount, hother]
    exact h.refCount

/-- Other references come and go. -/
theorem Ok.others (h : Ok H) (hslot : H'.slot = H.slot) (hcount : H'.count = H.count)
    (htarget : H'.target = H.target)
    (hrefCount : ∀ j, H'.refCount j + H.other j = H.refCount j + H'.other j) : Ok H' where
  count := by rw [hslot, hcount]; exact h.count
  target := by rw [htarget, hcount]; exact h.target
  refCount j := by
    have := h.refCount j
    have := hrefCount j
    rw [htarget]
    omega

/-- No count is larger than there are slots, or files and other references. -/
theorem Ok.count_le (h : Ok H) (f : φ) : H.count f ≤ Fintype.card ι := by
  rw [h.count]
  exact Finset.card_le_univ _

theorem Ok.refCount_le (h : Ok H) (i : ν) : H.refCount i ≤ Fintype.card φ + H.other i := by
  rw [h.refCount]
  exact Nat.add_le_add_right (Finset.card_le_univ _) _

end Handles

end LinuxKernel
