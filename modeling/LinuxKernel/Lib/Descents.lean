import Mathlib.Data.List.Chain

/-!
# LinuxKernel.Lib.Descents

**Lists with few descents** under a relation `r`, and the insertion of an
elevator: behind the head, at the first place that lies between its neighbours
in a list that goes round once.

- `descents r l` counts the neighbours of `l` that `r` does not put in order.
- A list with at most one of them is two ascending runs (`descents_le_one`).
- The insertion makes no second one (`descents_placeAfter_le`); all that `r` has to do is
  to compare the new element with those of the list.
-/

namespace LinuxKernel

variable {α : Type} {r : α → α → Bool} {a b x tmp : α} {l l₁ l₂ : List α}

def descents (r : α → α → Bool) : List α → Nat
  | a :: b :: l => (if r a b then 0 else 1) + descents r (b :: l)
  | _ => 0

@[simp] theorem descents_nil : descents r [] = 0 := rfl
@[simp] theorem descents_singleton : descents r [a] = 0 := rfl

theorem descents_cons_cons :
    descents r (a :: b :: l) = (if r a b then 0 else 1) + descents r (b :: l) := rfl

theorem descents_eq_zero : descents r l = 0 ↔ l.IsChain (fun a b => r a b = true) := by
  induction l with
  | nil => simp
  | cons a l ih =>
      cases l with
      | nil => simp
      | cons b l =>
          rw [descents_cons_cons, List.isChain_cons_cons, ← ih]
          by_cases hab : r a b = true
          · simp [hab]
          · simp [hab]

/-- At most one descent: two ascending runs. -/
theorem descents_le_one : descents r l ≤ 1 ↔ ∃ l₁ l₂, l = l₁ ++ l₂ ∧
    l₁.IsChain (fun a b => r a b = true) ∧ l₂.IsChain (fun a b => r a b = true) := by
  constructor
  · intro h
    induction l with
    | nil => exact ⟨[], [], rfl, .nil, .nil⟩
    | cons a l ih =>
        cases l with
        | nil => exact ⟨[a], [], rfl, .singleton a, .nil⟩
        | cons b l =>
            rw [descents_cons_cons] at h
            by_cases hab : r a b = true
            · rw [if_pos hab, Nat.zero_add] at h
              obtain ⟨l₁, l₂, hl, h₁, h₂⟩ := ih h
              cases l₁ with
              | nil =>
                  refine ⟨[], a :: b :: l, rfl, .nil, ?_⟩
                  rw [List.nil_append] at hl
                  exact List.isChain_cons_cons.mpr ⟨hab, hl ▸ h₂⟩
              | cons c l₁ =>
                  obtain ⟨rfl, rfl⟩ := List.cons.inj hl
                  exact ⟨a :: b :: l₁, l₂, rfl, List.isChain_cons_cons.mpr ⟨hab, h₁⟩, h₂⟩
            · rw [if_neg hab] at h
              have hzero : descents r (b :: l) = 0 := by omega
              exact ⟨[a], b :: l, rfl, .singleton a, descents_eq_zero.mp hzero⟩
  · rintro ⟨l₁, l₂, rfl, h₁, h₂⟩
    induction l₁ with
    | nil =>
        rw [List.nil_append, descents_eq_zero.mpr h₂]
        exact Nat.zero_le 1
    | cons a l₁ ih =>
        cases l₁ with
        | nil =>
            cases l₂ with
            | nil => simp
            | cons b l₂ =>
                rw [List.singleton_append, descents_cons_cons, descents_eq_zero.mpr h₂]
                split <;> omega
        | cons b l₁ =>
            obtain ⟨hab, hrest⟩ := List.isChain_cons_cons.mp h₁
            have hle := ih hrest
            rw [List.cons_append] at hle
            rw [List.cons_append, List.cons_append, descents_cons_cons, if_pos hab, Nat.zero_add]
            exact hle

/-- A head that stays before what follows it makes no new descent. -/
theorem descents_head_le (h : ∀ c ∈ l, r a c → r b c) : descents r (b :: l) ≤ descents r (a :: l) := by
  cases l with
  | nil => exact Nat.le_refl 0
  | cons c l =>
      rw [descents_cons_cons, descents_cons_cons]
      have hc := h c List.mem_cons_self
      by_cases hac : r a c = true
      · rw [if_pos hac, if_pos (hc hac)]
      · rw [if_neg hac]
        split <;> omega

theorem descents_tail_le : descents r l ≤ descents r (a :: l) := by
  cases l with
  | nil => exact Nat.zero_le _
  | cons b l =>
      rw [descents_cons_cons]
      exact Nat.le_add_left _ _

/-- Put `x` into the list behind `tmp`. -/
def placeAfter (r : α → α → Bool) (x tmp : α) : List α → List α
  | [] => [x]
  | next :: rest =>
      if (r tmp x || !r tmp next) && r x next then x :: next :: rest
      else next :: placeAfter r x next rest

theorem placeAfter_perm : (placeAfter r x tmp l).Perm (x :: l) := by
  induction l generalizing tmp with
  | nil => exact List.Perm.refl _
  | cons next rest ih =>
      unfold placeAfter
      split
      · exact List.Perm.refl _
      · exact (ih.cons next).trans (List.Perm.swap x next rest)

/-- Into an ascending list that starts below `x`. -/
theorem descents_placeAfter_eq_zero (h : descents r (tmp :: l) = 0) (hx : r tmp x = true)
    (htotal : ∀ y ∈ l, r x y = true ∨ r y x = true) :
    descents r (tmp :: placeAfter r x tmp l) = 0 := by
  induction l generalizing tmp with
  | nil => rw [placeAfter, descents_cons_cons, if_pos hx, descents_singleton]
  | cons next rest ih =>
      rw [descents_cons_cons, Nat.add_eq_zero_iff] at h
      obtain ⟨hstep, hrest⟩ := h
      rw [placeAfter, hx, Bool.true_or, Bool.true_and]
      by_cases hnext : r x next = true
      · rw [if_pos hnext, descents_cons_cons, if_pos hx, descents_cons_cons, if_pos hnext, hrest]
      · rw [if_neg hnext, descents_cons_cons, hstep, Nat.zero_add]
        have hafter := (htotal next List.mem_cons_self).resolve_left hnext
        exact ih hrest hafter fun y hy => htotal y (List.mem_cons_of_mem next hy)

theorem descents_placeAfter_le (h : descents r (tmp :: l) ≤ 1)
    (htotal : ∀ y ∈ l, r x y = true ∨ r y x = true) :
    descents r (tmp :: placeAfter r x tmp l) ≤ 1 := by
  induction l generalizing tmp with
  | nil =>
      rw [placeAfter, descents_cons_cons, descents_singleton]
      split <;> omega
  | cons next rest ih =>
      rw [descents_cons_cons] at h
      have hrest : ∀ y ∈ rest, r x y = true ∨ r y x = true :=
        fun y hy => htotal y (List.mem_cons_of_mem next hy)
      rw [placeAfter]
      by_cases hordered : r tmp next = true
      · rw [if_pos hordered, Nat.zero_add] at h
        rw [hordered, Bool.not_true, Bool.or_false]
        by_cases hhere : (r tmp x && r x next) = true
        · obtain ⟨hbefore, hafter⟩ := (Bool.and_eq_true _ _).mp hhere
          rw [if_pos hhere, descents_cons_cons, if_pos hbefore, descents_cons_cons, if_pos hafter]
          omega
        · rw [if_neg hhere, descents_cons_cons, if_pos hordered, Nat.zero_add]
          exact ih h hrest
      · -- the one descent is here, and what follows ascends
        rw [if_neg hordered] at h
        have hzero : descents r (next :: rest) = 0 := by omega
        rw [Bool.eq_false_iff.mpr hordered, Bool.not_false, Bool.or_true, Bool.true_and]
        by_cases hhere : r x next = true
        · rw [if_pos hhere, descents_cons_cons, descents_cons_cons, if_pos hhere, hzero]
          split <;> omega
        · rw [if_neg hhere, descents_cons_cons, if_neg hordered]
          have hafter := (htotal next List.mem_cons_self).resolve_left hhere
          rw [descents_placeAfter_eq_zero hzero hafter hrest]

end LinuxKernel
