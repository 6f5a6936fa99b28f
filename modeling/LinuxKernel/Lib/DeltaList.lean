import Mathlib.Tactic.Ring

/-!
# LinuxKernel.Lib.DeltaList

**Delta lists**: a queue of events in which an entry has the time from the one
before it, so that a tick of the clock counts down the first entry only.

An entry is due at the sum of its delta and all before it (`deadlines`). As
long as every delta is positive, a tick takes off exactly the entry whose
deadline it is, if there is one (`tick_spec`).
-/

namespace LinuxKernel.DeltaList

variable {β : Type} {t d : Int} {x : β} {l l₁ l₂ : List (Int × β)}

/-- When the entries are due, if the first delta counts from `t`. -/
def deadlines (t : Int) : List (Int × β) → List (Int × β)
  | [] => []
  | (a, x) :: l => (t + a, x) :: deadlines (t + a) l

/-- The sum of the deltas. -/
def total : List (Int × β) → Int
  | [] => 0
  | (a, _) :: l => a + total l

/-- All deltas are positive. -/
def Positive (l : List (Int × β)) : Prop := ∀ e ∈ l, 0 < e.1

theorem deadlines_append (t : Int) (l₁ l₂ : List (Int × β)) :
    deadlines t (l₁ ++ l₂) = deadlines t l₁ ++ deadlines (t + total l₁) l₂ := by
  induction l₁ generalizing t with
  | nil => simp [deadlines, total]
  | cons e l₁ ih => simp [deadlines, total, ih, add_assoc]

theorem length_deadlines : (deadlines t l).length = l.length := by
  induction l generalizing t with
  | nil => rfl
  | cons e l ih => simp [deadlines, ih]

theorem lt_deadline (hp : Positive l) {e : Int × β} (he : e ∈ deadlines t l) : t < e.1 := by
  induction l generalizing t with
  | nil => cases he
  | cons e' l ih =>
      have hpos := hp e' List.mem_cons_self
      simp only [deadlines, List.mem_cons] at he
      rcases he with rfl | he
      · change t < t + e'.1
        omega
      · have := ih (fun e h => hp e (List.mem_cons_of_mem e' h)) he
        omega

theorem total_nonneg (hp : Positive l) : 0 ≤ total l := by
  induction l with
  | nil => exact le_refl 0
  | cons e l ih =>
      have h1 := hp e List.mem_cons_self
      have h2 := ih fun e' h => hp e' (List.mem_cons_of_mem e h)
      simp only [total]
      omega

theorem deadline_le_total (hp : Positive l) {e : Int × β} (he : e ∈ deadlines t l) :
    e.1 ≤ t + total l := by
  induction l generalizing t with
  | nil => cases he
  | cons e' l ih =>
      have hrest : Positive l := fun e h => hp e (List.mem_cons_of_mem e' h)
      have hnn := total_nonneg hrest
      simp only [deadlines, List.mem_cons] at he
      rcases he with rfl | he
      · simp only [total]
        omega
      · have := ih hrest he
        simp only [total]
        omega

/-- The last entry is due at the sum. -/
theorem exists_deadline_total (hl : l ≠ []) : ∃ e ∈ deadlines t l, e.1 = t + total l := by
  induction l generalizing t with
  | nil => exact absurd rfl hl
  | cons e l ih =>
      cases l with
      | nil => exact ⟨(t + e.1, e.2), List.mem_cons_self, by simp [total]⟩
      | cons e' l =>
          obtain ⟨e'', he'', hsum⟩ := ih (t := t + e.1) (by simp)
          refine ⟨e'', List.mem_cons_of_mem _ he'', ?_⟩
          rw [hsum, total.eq_2 e.1 e.2, add_assoc]

/-- Take off the entries at the front that are due. -/
def expire : List (Int × β) → List β × List (Int × β)
  | [] => ([], [])
  | (a, x) :: l => if a ≤ 0 then (x :: (expire l).1, (expire l).2) else ([], (a, x) :: l)

/-- A tick. -/
def tick : List (Int × β) → List β × List (Int × β)
  | [] => ([], [])
  | (a, x) :: l => expire ((a - 1, x) :: l)

theorem expire_positive (hp : Positive l) : expire l = ([], l) := by
  cases l with
  | nil => rfl
  | cons e l =>
      have := hp e List.mem_cons_self
      rw [expire, if_neg (by omega)]

/-- A tick takes off what is due then, and keeps the other deadlines. -/
theorem tick_spec (hp : Positive l) :
    Positive (tick l).2 ∧
      (tick l).1.map (fun x => (t + 1, x)) = (deadlines t l).filter (fun e => e.1 ≤ t + 1) ∧
      deadlines (t + 1) (tick l).2 = (deadlines t l).filter (fun e => t + 1 < e.1) := by
  cases l with
  | nil => exact ⟨hp, rfl, rfl⟩
  | cons e l =>
      obtain ⟨a, x⟩ := e
      have ha : 0 < a := hp (a, x) List.mem_cons_self
      have hrest : Positive l := fun e h => hp e (List.mem_cons_of_mem (a, x) h)
      have hlater : ∀ e ∈ deadlines (t + a) l, t + 1 < e.1 := fun e he => by
        have := lt_deadline hrest he
        omega
      have hnone : (deadlines (t + a) l).filter (fun e => e.1 ≤ t + 1) = [] :=
        List.filter_eq_nil_iff.mpr fun e he => by
          have := hlater e he
          simp only [decide_eq_true_eq]
          omega
      have hall : (deadlines (t + a) l).filter (fun e => t + 1 < e.1) = deadlines (t + a) l :=
        List.filter_eq_self.mpr fun e he => by
          simp only [decide_eq_true_eq]
          exact hlater e he
      rw [tick, expire, deadlines, List.filter_cons, List.filter_cons, hnone, hall]
      by_cases h1 : a = 1
      · subst h1
        rw [expire_positive hrest]
        simp [hrest]
      · have hgt : 1 < a := by omega
        rw [if_neg (by omega : ¬a - 1 ≤ 0), if_neg (by simp; omega), if_pos (by simp; omega)]
        refine ⟨fun e he => ?_, rfl, ?_⟩
        · rcases List.mem_cons.mp he with rfl | he
          · change 0 < a - 1
            omega
          · exact hrest e he
        · have hsum : t + 1 + (a - 1) = t + a := by ring
          rw [deadlines, hsum]

end LinuxKernel.DeltaList
