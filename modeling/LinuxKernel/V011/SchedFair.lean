import LinuxKernel.V011.SchedPicks
import Mathlib.Algebra.BigOperators.Group.Finset.Piecewise
import Mathlib.Algebra.Order.BigOperators.Group.Finset

/-!
# LinuxKernel.V011.SchedFair

**Nobody starves.** As long as a task that could run has time left, `schedule` makes no
recalculation pass, and nobody gets time but by `fork`. A tick in user mode takes time from the
task that runs, or it calls `schedule` and the next one has time.
-/

namespace LinuxKernel.V011.Sched

open WaitQueue (checkSignals)

variable {s s' : State} {n m : Nat} {p q : Task}

/-- Task `n` could run and has time left, but another task runs. -/
structure Waiting (n : Nat) (s : State) : Prop where
  ready : ∃ p, Runnable s.task n p ∧ 0 < p.counter
  ne : n ≠ s.current
  current : s.current < NR_TASKS ∧ s.task s.current ≠ none

def time (p : Option Task) : Nat := p.elim 0 fun p => p.counter.toNat

/-- The time that is left to all tasks. -/
def load (task : Table) : Nat := ∑ n ∈ Finset.range NR_TASKS, time (task n)

/-- What becomes smaller while a task waits. -/
def rank (s : State) : Nat := 2 * load s.task + if time (s.task s.current) = 0 then 1 else 0

def Act.isUserTick : Act → Bool
  | .tick cpl _ => cpl
  | _ => false

theorem load_awake (s : State) : load (awake s) = load s.task :=
  Finset.sum_congr rfl fun n _ => by
    unfold awake
    split
    · cases s.task n <;> rfl
    · rfl

/-- While a task with time left is runnable, the pass is not made. -/
theorem pick_ready (h : Counted s.task) (hw : Runnable s.task n p) (hpos : 0 < p.counter) :
    0 < (pick (awake s) (NR_TASKS - 1) (-1, 0)).1 ∧
      time (awake s (pick (awake s) (NR_TASKS - 1) (-1, 0)).2) ≠ 0 := by
  have hready : Runnable (awake s) n
      { p with toTaskStruct := checkSignals s.jiffies p.toTaskStruct } := by
    refine ⟨hw.1, by rw [awake, if_pos hw.1, hw.2.1, Option.map_some], ?_⟩
    have hrun := hw.2.2
    unfold checkSignals WaitQueue.expireAlarm
    dsimp only
    split <;> split <;> simp_all
  rcases pick_last (awake_counted h) with ⟨-, hidle⟩ | ⟨x, hx, hcounter, hmax⟩
  · exact absurd hready (hidle n _)
  have hle := hmax n _ hready
  dsimp only at hle
  rw [time, hx.2.1, Option.elim_some]
  omega

theorem schedule_waiting {rounds : Nat} (h : Counted s.task) (hw : Runnable s.task n p)
    (hpos : 0 < p.counter) (hstep : schedule rounds s = .next s') : rank s' = 2 * load s.task := by
  obtain ⟨hpick, htime⟩ := pick_ready h hw hpos
  cases rounds with
  | zero => cases hstep
  | succ rounds =>
      rw [schedule, choose, if_pos (Int.ne_of_gt hpick)] at hstep
      cases hstep
      rw [rank, if_neg htime, load_awake, Nat.add_zero]

/-- One slot gets another task, or none. -/
theorem time_update (task : Table) (n : Nat) (v : Option Task) :
    (fun m => time (Function.update task n v m)) =
      Function.update (fun m => time (task m)) n (time v) := by
  funext m
  rw [Function.update_apply, Function.update_apply, apply_ite time]

theorem load_update (task : Table) (hn : n < NR_TASKS) (v : Option Task) :
    load (Function.update task n v) + time (task n) = load task + time v := by
  have hmem : n ∈ Finset.range NR_TASKS := Finset.mem_range.mpr hn
  rw [load, load, time_update, Finset.sum_update_of_mem hmem,
    Finset.sum_eq_add_sum_sdiff_singleton_of_mem hmem fun m => time (task m)]
  omega

/-- Nobody gets time, and the task that runs keeps its time. -/
theorem rank_update {v : Option Task} (hle : time v ≤ time (s.task n))
    (hcur : n = s.current → time v = time (s.task n)) :
    rank { s with task := Function.update s.task n v } ≤ rank s := by
  have hload : load (Function.update s.task n v) ≤ load s.task :=
    Finset.sum_le_sum fun m _ => by
      rw [Function.update_apply]
      split
      · next hm => exact hm ▸ hle
      · exact Nat.le_refl _
  have hsame : time (Function.update s.task n v s.current) = time (s.task s.current) := by
    rw [Function.update_apply]
    split
    · next hm => rw [hcur hm.symm, hm]
    · rfl
  rw [rank, rank]
  dsimp only
  rw [hsame]
  omega

theorem rank_setTask (hp : s.task n = some p) (hq : q.counter = p.counter) :
    rank (s.setTask n q) ≤ rank s := by
  have hsame : time (some q) = time (s.task n) := by
    rw [hp, time, time, Option.elim_some, Option.elim_some, hq]
  exact rank_update (Nat.le_of_eq hsame) fun _ => hsame

/-- A tick leaves the task that runs one unit less, if it has any. -/
theorem doTimer_eq (cpl : Bool) (hp : s.task s.current = some p) (h0 : 0 ≤ p.counter)
    (hlt : p.counter < 2 ^ 31) : doTimer s cpl =
      (s.setTask s.current { p with counter := max (p.counter - 1) 0 },
        decide (p.counter ≤ 1) && cpl) := by
  rw [doTimer, hp]
  simp only [wrap_eq (show -2 ^ 31 ≤ p.counter - 1 by omega) (by omega)]
  split
  · rw [max_eq_left (by omega), decide_eq_false (by omega), Bool.false_and]
  · rw [max_eq_right (by omega), decide_eq_true (by omega), Bool.true_and]

theorem tick_waiting {cpl : Bool} {rounds : Nat} (h : Counted s.task) (hw : Waiting n s)
    (hstep : (if (doTimer s cpl).2 = true then schedule rounds (doTimer s cpl).1
      else .next (doTimer s cpl).1) = .next s') :
    rank s' + (if cpl = true then 1 else 0) ≤ rank s := by
  obtain ⟨p, hp, hpos⟩ := hw.ready
  obtain ⟨c, hc⟩ := Option.ne_none_iff_exists'.mp hw.current.2
  obtain ⟨h0, hlt, hprio⟩ := h _ c hc
  obtain ⟨k, hk⟩ : ∃ k, k = max (c.counter - 1) 0 := ⟨_, rfl⟩
  have hload : load (s.setTask s.current { c with counter := k }).task + c.counter.toNat =
      load s.task + k.toNat := by
    have hload := load_update s.task hw.current.1 (some { c with counter := k })
    rwa [hc, time, Option.elim_some] at hload
  have hrank : rank s = 2 * load s.task + if c.counter.toNat = 0 then 1 else 0 := by
    rw [rank, hc, time, Option.elim_some]
  rw [doTimer_eq cpl hc h0 hlt, ← hk] at hstep
  rw [hrank]
  split at hstep
  · next hcall =>
    obtain ⟨hlast, rfl⟩ := Bool.and_eq_true_iff.mp hcall
    have hlast := of_decide_eq_true hlast
    have hcounted := setTask_counted (n := s.current) (p := { c with counter := k }) h
      ⟨(by omega : 0 ≤ k), (by omega : k < 2 ^ 31), hprio⟩
    have hready := (Function.update_of_ne hw.ne (some { c with counter := k }) s.task).trans hp.2.1
    rw [schedule_waiting hcounted ⟨hp.1, hready, hp.2.2⟩ hpos hstep, if_pos rfl]
    split <;> omega
  · next hcall =>
    cases hstep
    have hnew : rank (s.setTask s.current { c with counter := k }) =
        2 * load (s.setTask s.current { c with counter := k }).task +
          if k.toNat = 0 then 1 else 0 := by
      have hself : (s.setTask s.current { c with counter := k }).task s.current =
          some { c with counter := k } := Function.update_self ..
      rw [rank, show (s.setTask s.current { c with counter := k }).current = s.current from rfl,
        hself, time, Option.elim_some]
    rw [hnew]
    cases cpl with
    | true =>
        have hlast := of_decide_eq_false
          ((Bool.and_true _).symm.trans (Bool.eq_false_iff.mpr hcall))
        rw [if_pos rfl]
        split <;> split <;> omega
    | false =>
        rw [if_neg Bool.false_ne_true]
        split <;> split <;> omega

/-- While a task waits no step makes the rank larger, and a tick in user mode lowers it. -/
theorem step_waiting {a : Act} (h : Counted s.task) (hw : Waiting n s) (hfork : ∀ m, a ≠ .fork m)
    (hstep : step s a = .next s') : rank s' + (if a.isUserTick then 1 else 0) ≤ rank s := by
  obtain ⟨p, hp, hpos⟩ := hw.ready
  have hother : a.isUserTick = false → rank s' ≤ rank s →
      rank s' + (if a.isUserTick = true then 1 else 0) ≤ rank s := fun ha hle => by
    rwa [ha, if_neg Bool.false_ne_true, Nat.add_zero]
  cases a with
  | fork m => exact absurd rfl (hfork m)
  | tick cpl rounds =>
      rw [step] at hstep
      exact tick_waiting (s := { s with jiffies := s.jiffies + 1 }) h
        ⟨⟨p, hp, hpos⟩, hw.ne, hw.current⟩ hstep
  | schedule rounds =>
      refine hother rfl ?_
      rw [schedule_waiting h hp hpos hstep, rank]
      exact Nat.le_add_right _ _
  | release m =>
      rw [step] at hstep
      split at hstep
      · next hm =>
        cases hstep
        exact hother rfl (rank_update (Nat.zero_le _) fun he => absurd he hm.2)
      · cases hstep
  | nice increment =>
      rw [step] at hstep
      split at hstep
      · next q hq =>
        cases hstep
        refine hother rfl (rank_setTask hq ?_)
        rw [sysNice]
        split <;> rfl
      · cases hstep
  | setState | wakeUp | signal =>
      rw [step] at hstep
      split at hstep
      · next q hq =>
        cases hstep
        exact hother rfl (rank_setTask hq rfl)
      · cases hstep

/-- **Nobody starves**: without `fork`, and if no recalculation wraps, a task with time left is kept
waiting for no more ticks in user mode than twice the time left to all tasks, and one. -/
theorem waiting_bounded {as : List Act} (hreach : Reaches step Ok initial s)
    (hrun : run step s as = .next s')
    (hok : RunOk step (fun t a => Waiting n t ∧ (∀ m, a ≠ .fork m) ∧ Ok t a) s as) :
    as.countP Act.isUserTick ≤ 2 * load s.task + 1 := by
  have hcounted : Counted s.task := hreach.invariant (P := fun s => Counted s.task)
    initial_counted fun _ _ _ h hok hstep => step_counted h hok hstep
  have hle := hok.rank (P := fun t => Counted t.task) rank Act.isUserTick
    (fun t a t' h hok hstep => ⟨step_counted h hok.2.2 hstep,
      step_waiting h hok.1 hok.2.1 hstep⟩) hcounted hrun
  have hrank : rank s ≤ 2 * load s.task + 1 := by
    rw [rank]
    split <;> omega
  omega

/-- The first process waits for a tick. -/
theorem waiting_bounded_forked :
    [Act.tick true 1].countP Act.isUserTick ≤ 2 * load forked.task + 1 := by
  have hwait : Waiting 1 forked := ⟨⟨child initTask, ⟨by decide, rfl, rfl⟩, by decide⟩, by decide,
    by decide, by decide⟩
  have hfork : Ok initial (.fork 1) := fun t h => by cases h
  have htick : Ok forked (.tick true 1) := fun t h => by cases h
  exact waiting_bounded
    (Reaches.refl.tail hfork rfl) (Outcome.eq_next (by decide) forked)
    ⟨⟨hwait, fun m h => (by cases h), htick⟩, fun _ _ => True.intro⟩

end LinuxKernel.V011.Sched
