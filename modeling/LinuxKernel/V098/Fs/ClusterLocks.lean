import LinuxKernel.V098.Fs.Clusters

/-!
# LinuxKernel.V098.Fs.ClusterLocks

**What the lock of the FAT protects.** Zero entries become used and used ones zero only in a
task that has the lock (`Turn`), and there the number of zero entries may be off by one
against `free_clusters` (`owed`, `Count`).
-/

namespace LinuxKernel.V098.Fs.Clusters

variable {sb : Fat.Super} {s s' : State} {t : Task} {c : Nat} {pc pc' : Pc}

/-! ### The lock of the FAT -/

/-- The task has the lock of the FAT. -/
def holds : Pc → Bool
  | .scan _ _ | .take _ _ | .taken _ _ | .free _ _ | .freed _ _ => true
  | .idle | .addLock _ | .addFatLock _ | .walk _ _ _ | .link _ _ _ | .zero | .skip _ _ _
  | .cut _ _ _ | .freeLock _ _ => false

structure Turn (s : State) : Prop where
  excl : ∀ t u, holds (s.pc t) = true → holds (s.pc u) = true → t = u
  locked : ∀ t, holds (s.pc t) = true → s.fatLock = true

namespace Turn

theorem others (h : Turn s) (ht : holds (s.pc t) = true) (u : Task) (hu : u ≠ t) :
    holds (s.pc u) = false := by
  by_contra hc
  exact hu (h.excl u t (by simpa using hc) ht)

theorem nobody (h : Turn s) (hlock : s.fatLock = false) (u : Task) : holds (s.pc u) = false := by
  by_contra hc
  have := h.locked u (by simpa using hc)
  rw [hlock] at this
  cases this

/-- At most the task that moves has the lock. -/
theorem of_others (hpc : s'.pc = Function.update s.pc t pc')
    (hothers : ∀ u, u ≠ t → holds (s.pc u) = false) (hlock : holds pc' = true → s'.fatLock = true) :
    Turn s' := by
  have hholds : ∀ u, holds (s'.pc u) = true → u = t := by
    intro u hu
    by_contra hne
    rw [hpc, Function.update_of_ne hne, hothers u hne] at hu
    cases hu
  refine ⟨fun u w hu hw => (hholds u hu).trans (hholds w hw).symm, fun u hu => hlock ?_⟩
  rwa [hholds u hu, hpc, Function.update_self] at hu

/-- A task without the lock goes on without it. -/
theorem keep (h : Turn s) (hpc : s'.pc = Function.update s.pc t pc') (hn : holds pc' = false)
    (hlock : s'.fatLock = s.fatLock) : Turn s' := by
  have hholds : ∀ u, holds (s'.pc u) = true → holds (s.pc u) = true := by
    intro u hu
    by_cases hut : u = t
    · rw [hut, hpc, Function.update_self, hn] at hu
      cases hu
    · rwa [hpc, Function.update_of_ne hut] at hu
  refine ⟨fun u w hu hw => h.excl u w (hholds u hu) (hholds w hw), fun u hu => ?_⟩
  rw [hlock]
  exact h.locked u (hholds u hu)

end Turn

/-! ### The number of zero entries -/

/-- What `free_clusters` is ahead of the zero entries. -/
def owed : Pc → Int
  | .taken _ _ => 1
  | .freed _ _ => -1
  | .idle | .addLock _ | .addFatLock _ | .scan _ _ | .take _ _ | .walk _ _ _ | .link _ _ _
  | .zero | .skip _ _ _ | .cut _ _ _ | .freeLock _ _ | .free _ _ => 0

def Count (sb : Fat.Super) (s : State) : Prop :=
  s.freeClusters = -1 ∨
    ((∀ t, owed (s.pc t) = 0) → s.freeClusters = zeros sb s) ∧
      ∀ t, owed (s.pc t) ≠ 0 → s.freeClusters = zeros sb s + owed (s.pc t)

theorem owed_of_not_holds (h : holds pc = false) : owed pc = 0 := by
  cases pc <;> first | rfl | cases h

theorem zeros_congr (h : ∀ c, s'.fat c = .free ↔ s.fat c = .free) : zeros sb s' = zeros sb s := by
  unfold zeros
  congr 1
  exact Finset.filter_congr fun c _ => h c

/-- One entry more is zero. -/
theorem zeros_succ (hc : 2 ≤ c ∧ c < sb.clusters + 2) (hlive : s.fat c ≠ .free)
    (hfree : s'.fat c = .free) (hother : ∀ d, d ≠ c → s'.fat d = s.fat d) :
    zeros sb s' = zeros sb s + 1 := by
  unfold zeros
  have hnew : (Finset.Ico 2 (sb.clusters + 2)).filter (fun d => s'.fat d = .free) =
      insert c ((Finset.Ico 2 (sb.clusters + 2)).filter fun d => s.fat d = .free) := by
    ext d
    rw [Finset.mem_insert, Finset.mem_filter, Finset.mem_filter]
    by_cases hd : d = c
    · rw [hd]
      exact ⟨fun _ => Or.inl rfl, fun _ => ⟨Finset.mem_Ico.mpr hc, hfree⟩⟩
    · rw [hother d hd]
      exact ⟨Or.inr, fun h => h.resolve_left hd⟩
  rw [hnew, Finset.card_insert_of_notMem]
  rw [Finset.mem_filter]
  exact fun h => hlive h.2

namespace Count

theorem keep (h : Count sb s) (hpc : s'.pc = Function.update s.pc t pc')
    (hfree : ∀ c, s'.fat c = .free ↔ s.fat c = .free) (hfc : s'.freeClusters = s.freeClusters)
    (howed : owed pc' = owed (s.pc t)) : Count sb s' := by
  have howed' : ∀ u, owed (s'.pc u) = owed (s.pc u) := by
    intro u
    rw [hpc]
    by_cases hu : u = t
    · rw [hu, Function.update_self, howed]
    · rw [Function.update_of_ne hu]
  unfold Count
  simp only [howed', hfc, zeros_congr hfree]
  exact h

/-- What the task that has the lock knows. -/
theorem holder (h : Count sb s) (hothers : ∀ u, u ≠ t → holds (s.pc u) = false) :
    s.freeClusters = -1 ∨ s.freeClusters = zeros sb s + owed (s.pc t) := by
  refine h.imp id fun h => ?_
  by_cases ht : owed (s.pc t) = 0
  · rw [ht, Int.add_zero]
    refine h.1 fun u => ?_
    by_cases hu : u = t
    · rw [hu, ht]
    · exact owed_of_not_holds (hothers u hu)
  · exact h.2 t ht

theorem of_holder (hpc : s'.pc = Function.update s.pc t pc')
    (hothers : ∀ u, u ≠ t → holds (s.pc u) = false)
    (h : s'.freeClusters = -1 ∨ s'.freeClusters = zeros sb s' + owed pc') : Count sb s' := by
  refine h.imp id fun h => ⟨fun hall => ?_, fun u hu => ?_⟩
  · have ht := hall t
    rw [hpc, Function.update_self] at ht
    rw [h, ht, Int.add_zero]
  · by_cases hut : u = t
    · rw [hut, hpc, Function.update_self]
      exact h
    · rw [hpc, Function.update_of_ne hut, owed_of_not_holds (hothers u hut)] at hu
      exact absurd rfl hu

end Count

end LinuxKernel.V098.Fs.Clusters
