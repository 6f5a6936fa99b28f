import LinuxKernel.V011.Sched

/-!
# LinuxKernel.V011.SchedPicks

**`schedule` takes a runnable task, as long as no recalculation wraps.**

Priorities are positive and counters are not negative (`Good`), so after one recalculation pass
every runnable task has a positive counter. `sys_nice` keeps this, but it sets no bound: with
a priority of more than 2^30 the pass can make a counter negative.
-/

namespace LinuxKernel.V011.Sched

open WaitQueue (TaskState TaskStruct checkSignals)

variable {s s' : State} {task : Table} {n m : Nat} {p q : Task} {r : Int × Nat}

theorem wrap_eq {x : Int} (h : -2 ^ 31 ≤ x) (h' : x < 2 ^ 31) : wrap x = x := by
  rw [wrap]
  omega

theorem wrap_lt (x : Int) : wrap x < 2 ^ 31 := by
  rw [wrap]
  omega

/-! ### The selection -/

variable (task) in
/-- The larger counter, and its task. -/
theorem compare_spec (hn : Slot n) (r : Int × Nat) :
    r.1 ≤ (compare task n r).1 ∧
    (∀ p, Runnable task n p → p.counter ≤ (compare task n r).1) ∧
    (compare task n r = r ∨ ∃ p, Runnable task (compare task n r).2 p ∧
      p.counter = (compare task n r).1 ∧ r.1 < p.counter) := by
  rw [compare]
  cases hp : task n with
  | none => exact ⟨Int.le_refl _, fun p h => (nomatch hp.symm.trans h.2.1), Or.inl rfl⟩
  | some p =>
      have hsame : ∀ q, Runnable task n q → q = p := fun q hq =>
        Option.some.inj (hq.2.1.symm.trans hp)
      dsimp only
      split
      · next h =>
        refine ⟨Int.le_of_lt h.2, fun q hq => ?_, Or.inr ⟨p, ⟨hn, hp, h.1⟩, rfl, h.2⟩⟩
        exact Int.le_of_eq (congrArg Task.counter (hsame q hq))
      · next h =>
        refine ⟨Int.le_refl _, fun q hq => Int.not_lt.mp fun hlt => h ?_, Or.inl rfl⟩
        rw [← hsame q hq]
        exact ⟨hq.2.2, hlt⟩

variable (task) in
/-- The largest counter of the runnable tasks up to slot `n`, and its task. -/
theorem pick_spec (n : Nat) (hn : n < NR_TASKS) (r : Int × Nat) :
    r.1 ≤ (pick task n r).1 ∧
    (∀ m p, m ≤ n → Runnable task m p → p.counter ≤ (pick task n r).1) ∧
    (pick task n r = r ∨ ∃ p, Runnable task (pick task n r).2 p ∧
      p.counter = (pick task n r).1 ∧ r.1 < p.counter) := by
  induction n generalizing r with
  | zero => exact ⟨Int.le_refl _, fun m p hm h => absurd h.1.1 (by omega), Or.inl rfl⟩
  | succ n ih =>
      obtain ⟨hle', hmax', hfrom'⟩ := compare_spec task ⟨Nat.succ_pos n, hn⟩ r
      obtain ⟨hle, hmax, hfrom⟩ := ih (Nat.lt_of_succ_lt hn) (compare task (n + 1) r)
      rw [pick]
      refine ⟨Int.le_trans hle' hle, fun m p hm h => ?_, ?_⟩
      · rcases Nat.eq_or_lt_of_le hm with rfl | hlt
        · exact Int.le_trans (hmax' p h) hle
        · exact hmax m p (Nat.le_of_lt_succ hlt) h
      · rcases hfrom with hsame | ⟨p, hrun, hcounter, hlt⟩
        · rw [hsame]
          exact hfrom'
        · exact Or.inr ⟨p, hrun, hcounter, Int.lt_of_le_of_lt hle' hlt⟩

/-- No counter is negative. -/
def Counted (task : Table) : Prop :=
  ∀ n p, task n = some p → 0 ≤ p.counter ∧ p.counter < 2 ^ 31 ∧ 0 < p.priority ∧
    p.priority < 2 ^ 31

/-- The selection over the whole table. -/
theorem pick_last (h : Counted task) :
    ((pick task (NR_TASKS - 1) (-1, 0)).1 = -1 ∧ ∀ n p, ¬ Runnable task n p) ∨
    ∃ p, Runnable task (pick task (NR_TASKS - 1) (-1, 0)).2 p ∧
      p.counter = (pick task (NR_TASKS - 1) (-1, 0)).1 ∧
      ∀ m q, Runnable task m q → q.counter ≤ p.counter := by
  obtain ⟨-, hmax, hfrom⟩ := pick_spec task (NR_TASKS - 1) (by decide) (-1, 0)
  have hall : ∀ m q, Runnable task m q → q.counter ≤ (pick task (NR_TASKS - 1) (-1, 0)).1 :=
    fun m q hq => hmax m q (by have := hq.1.2; omega) hq
  rcases hfrom with hsame | ⟨p, hrun, hcounter, -⟩
  · refine Or.inl ⟨congrArg Prod.fst hsame, fun n p hp => ?_⟩
    have hle := hall n p hp
    have h0 := (h n p hp.2.1).1
    rw [hsame] at hle
    dsimp only at hle
    omega
  · exact Or.inr ⟨p, hrun, hcounter, fun m q hq => hcounter ▸ hall m q hq⟩

/-! ### The recalculation pass -/

theorem recalc_some (hn : Slot n) : recalc task n =
    (task n).map fun p => { p with counter := wrap (p.counter / 2 + p.priority) } := if_pos hn

theorem runnable_recalc (h : Runnable task n p) : Runnable (recalc task) n
    { p with counter := wrap (p.counter / 2 + p.priority) } := by
  refine ⟨h.1, ?_, h.2.2⟩
  rw [recalc_some h.1, h.2.1, Option.map_some]

theorem of_runnable_recalc (h : Runnable (recalc task) n q) :
    ∃ p, Runnable task n p ∧ q = { p with counter := wrap (p.counter / 2 + p.priority) } := by
  obtain ⟨hn, hq, hrun⟩ := h
  rw [recalc_some hn] at hq
  obtain ⟨p, hp, rfl⟩ := Option.map_eq_some_iff.mp hq
  exact ⟨p, ⟨hn, hp, hrun⟩, rfl⟩

/-- Without a sum that wraps, all counters are in range again. -/
theorem recalc_counted (h : Counted task)
    (hcalm : ∀ n p, Slot n → task n = some p → p.counter / 2 + p.priority < 2 ^ 31) :
    Counted (recalc task) := by
  intro n q hq
  by_cases hn : Slot n
  · rw [recalc_some hn] at hq
    obtain ⟨p, hp, rfl⟩ := Option.map_eq_some_iff.mp hq
    obtain ⟨h0, hlt, hpos, hprio⟩ := h n p hp
    have hsum := hcalm n p hn hp
    have hwrap : wrap (p.counter / 2 + p.priority) = p.counter / 2 + p.priority :=
      wrap_eq (by omega) hsum
    refine ⟨?_, ?_, hpos, hprio⟩
    · dsimp only
      omega
    · dsimp only
      omega
  · rw [recalc, if_neg hn] at hq
    exact h n q hq

/-! ### The loop -/

/-- The loop is left after one pass at most. -/
theorem choose_spec (h : Counted task)
    (hcalm : (pick task (NR_TASKS - 1) (-1, 0)).1 = 0 →
      ∀ n p, Slot n → task n = some p → p.counter / 2 + p.priority < 2 ^ 31) :
    ∃ task' next, choose 2 task = some (task', next) ∧ Counted task' ∧
      ((∃ n p, Runnable task n p) → ∃ p, Runnable task' next p ∧ 0 < p.counter ∧
        ∀ m q, Runnable task' m q → q.counter ≤ p.counter) := by
  rcases pick_last h with ⟨hnone, hidle⟩ | ⟨p, hrun, hcounter, hmax⟩
  · have hleft : choose 2 task = some (task, (pick task (NR_TASKS - 1) (-1, 0)).2) := by
      rw [choose]
      exact if_pos (by rw [hnone]; decide)
    exact ⟨task, _, hleft, h, fun ⟨n, p, hp⟩ => absurd hp (hidle n p)⟩
  by_cases hzero : (pick task (NR_TASKS - 1) (-1, 0)).1 = 0
  · have hcalm' := hcalm hzero
    have h' := recalc_counted h hcalm'
    have hagain : choose 2 task = choose 1 (recalc task) := by
      rw [choose]
      exact if_neg (not_not.mpr hzero)
    rcases pick_last h' with ⟨-, hidle⟩ | ⟨q, hrun', hcounter', hmax'⟩
    · exact absurd (runnable_recalc hrun) (hidle _ _)
    obtain ⟨q₀, hrun₀, hq⟩ := of_runnable_recalc hrun'
    have hpos : 0 < q.counter := by
      obtain ⟨h0, hlt, hprio, -⟩ := h _ q₀ hrun₀.2.1
      have hsum := hcalm' _ q₀ hrun₀.1 hrun₀.2.1
      rw [hq]
      change 0 < wrap _
      rw [wrap_eq (by omega) hsum]
      omega
    have hleft : choose 1 (recalc task) =
        some (recalc task, (pick (recalc task) (NR_TASKS - 1) (-1, 0)).2) := by
      rw [choose]
      exact if_pos (by rw [← hcounter']; exact Int.ne_of_gt hpos)
    exact ⟨recalc task, _, hagain.trans hleft, h', fun _ => ⟨q, hrun', hpos, hmax'⟩⟩
  · have hleft : choose 2 task = some (task, (pick task (NR_TASKS - 1) (-1, 0)).2) := by
      rw [choose]
      exact if_pos hzero
    have h0 := (h _ p hrun.2.1).1
    exact ⟨task, _, hleft, h, fun _ => ⟨p, hrun, by omega, hmax⟩⟩

/-- More rounds do not change the result. -/
theorem choose_mono {k : Nat} {x : Table × Nat} (h : choose n task = some x) :
    choose (n + k) task = some x := by
  induction n generalizing task with
  | zero => cases h
  | succ n ih =>
      rw [Nat.add_right_comm]
      rw [choose] at h ⊢
      split at h
      · next hleft =>
        rw [if_pos hleft]
        exact h
      · next hzero =>
        rw [if_neg hzero]
        exact ih h

theorem choose_unique {x y : Table × Nat} (hx : choose n task = some x)
    (hy : choose m task = some y) : x = y := by
  have h := choose_mono (k := m) hx
  rw [Nat.add_comm, choose_mono hy] at h
  exact (Option.some.inj h).symm

/-! ### The invariant -/

theorem awake_counted (h : Counted s.task) : Counted (awake s) := by
  intro n q hq
  rw [awake] at hq
  split at hq
  · obtain ⟨p, hp, rfl⟩ := Option.map_eq_some_iff.mp hq
    exact h n p hp
  · exact h n q hq

/-- `schedule` in a calm state. -/
theorem picks_of_counted (h : Counted s.task) (hcalm : Calm s) : Picks s := by
  obtain ⟨task, next, hrun, -, hpicks⟩ := choose_spec (awake_counted h) hcalm
  exact ⟨task, next, hrun, hpicks⟩

theorem schedule_counted {rounds : Nat} (h : Counted s.task) (hcalm : Calm s)
    (hstep : schedule rounds s = .next s') : Counted s'.task := by
  obtain ⟨task, next, hrun, hcounted, -⟩ := choose_spec (awake_counted h) hcalm
  rw [schedule] at hstep
  split at hstep
  · next r hr =>
    cases hstep
    rw [choose_unique hr hrun]
    exact hcounted
  · cases hstep

/-- A task whose counter and priority are in range. -/
theorem setTask_counted (h : Counted s.task) (hp : 0 ≤ p.counter ∧ p.counter < 2 ^ 31 ∧
    0 < p.priority ∧ p.priority < 2 ^ 31) : Counted (s.setTask n p).task := by
  intro m q hq
  change Function.update s.task n (some p) m = some q at hq
  by_cases hm : m = n
  · rw [hm, Function.update_self] at hq
    cases hq
    exact hp
  · rw [Function.update_of_ne hm] at hq
    exact h m q hq

theorem doTimer_counted (cpl : Bool) (h : Counted s.task) : Counted (doTimer s cpl).1.task := by
  rw [doTimer]
  cases hp : s.task s.current with
  | none => exact h
  | some p =>
      obtain ⟨-, -, hprio⟩ := h _ p hp
      dsimp only
      split
      · next hpos => exact setTask_counted h ⟨Int.le_of_lt hpos, wrap_lt _, hprio⟩
      · have hzero : (0 : Int) < 2 ^ 31 := by decide
        exact setTask_counted h ⟨Int.le_refl _, hzero, hprio⟩

theorem sysNice_priority (h : 0 < p.priority ∧ p.priority < 2 ^ 31) (increment : Int) :
    0 < (sysNice p increment).priority ∧ (sysNice p increment).priority < 2 ^ 31 := by
  rw [sysNice]
  split
  · next hpos => exact ⟨hpos, wrap_lt _⟩
  · exact h

/-- One step. -/
theorem step_counted {a : Act} (h : Counted s.task) (hok : Ok s a) (hstep : step s a = .next s') :
    Counted s'.task := by
  have hself : ∀ {n p}, s.task n = some p → ∀ q : Task, q.counter = p.counter →
      q.priority = p.priority → Counted (s.setTask n q).task := fun hp q hc hpr =>
    setTask_counted h (by rw [hc, hpr]; exact h _ _ hp)
  cases a with
  | fork n =>
      rw [step] at hstep
      split at hstep
      · next p hp hn =>
        split at hstep
        · cases hstep
          obtain ⟨-, -, hprio⟩ := h _ p hp
          exact setTask_counted h ⟨Int.le_of_lt hprio.1, hprio.2, hprio⟩
        · cases hstep
      · cases hstep
  | nice increment =>
      rw [step] at hstep
      split at hstep
      · next p hp =>
        cases hstep
        obtain ⟨h0, hlt, hprio⟩ := h _ p hp
        have hcounter : (sysNice p increment).counter = p.counter := by
          rw [sysNice]
          split <;> rfl
        refine setTask_counted h ⟨?_, ?_, sysNice_priority hprio increment⟩
        · rw [hcounter]
          exact h0
        · rw [hcounter]
          exact hlt
      · cases hstep
  | tick cpl rounds =>
      have htimer := doTimer_counted (s := { s with jiffies := s.jiffies + 1 }) cpl h
      rw [step] at hstep
      split at hstep
      · next hcall => exact schedule_counted htimer (hok _ (if_pos hcall)) hstep
      · cases hstep
        exact htimer
  | schedule rounds => exact schedule_counted h (hok s rfl) hstep
  | setState st =>
      rw [step] at hstep
      split at hstep
      · next p hp =>
        cases hstep
        exact hself hp _ rfl rfl
      · cases hstep
  | wakeUp n =>
      rw [step] at hstep
      split at hstep
      · next p hp =>
        cases hstep
        exact hself hp _ rfl rfl
      · cases hstep
  | signal n signal blocked alarm =>
      rw [step] at hstep
      split at hstep
      · next p hp =>
        cases hstep
        exact hself hp _ rfl rfl
      · cases hstep
  | release n =>
      rw [step] at hstep
      split at hstep
      · cases hstep
        intro m q hq
        change Function.update s.task n none m = some q at hq
        by_cases hm : m = n
        · rw [hm, Function.update_self] at hq
          cases hq
        · rw [Function.update_of_ne hm] at hq
          exact h m q hq
      · cases hstep

theorem initial_counted : Counted initial.task := by
  intro n p hp
  change (if n = 0 then some initTask else none) = some p at hp
  split at hp
  · cases hp
    decide
  · cases hp

/-- **The scheduler finds a runnable task** in every run in which no recalculation wraps. -/
theorem schedule_picks {a : Act} {t : State} (hreach : Reaches step Ok initial s)
    (hcall : called s a = some t) (hok : Ok s a) : Picks t := by
  have hcounted : Counted s.task := hreach.invariant (P := fun s => Counted s.task)
    initial_counted fun _ _ _ h hok hstep => step_counted h hok hstep
  refine picks_of_counted ?_ (hok t hcall)
  cases a with
  | tick cpl rounds =>
      have htimer := doTimer_counted (s := { s with jiffies := s.jiffies + 1 }) cpl hcounted
      rw [called] at hcall
      split at hcall
      · cases hcall
        exact htimer
      · cases hcall
  | schedule rounds =>
      cases hcall
      exact hcounted
  | _ => cases hcall

/-- The first process of the system. -/
def forked : State := initial.setTask 1 (child initTask)

set_option maxRecDepth 4000 in
theorem schedule_picks_forked : Picks forked := by
  have hfork : Ok initial (.fork 1) := fun t h => nomatch h
  have hcalm : Ok forked (.schedule 1) := by
    rintro t h hzero
    cases h
    exact absurd hzero (by decide)
  exact schedule_picks (a := .schedule 1) (Reaches.refl.tail hfork rfl) rfl hcalm

/-- Task 1 gets the priority 2^31 - 1 and sleeps, until task 2 has used up its time. -/
def niceRun : List Act :=
  [.fork 1, .schedule 1, .fork 2, .nice (16 - 2 ^ 31), .setState .uninterruptible, .schedule 1] ++
    List.replicate 15 (.tick true 2) ++ [.wakeUp 1, .setState .uninterruptible]

/-- The recalculation has made the counter of task 1 negative. -/
def niced : State := (run step initial niceRun).get initial

theorem niced_reached : Reaches step (fun _ _ => True) initial niced := by
  have hnext : (run step initial niceRun).isNext = true := by decide +kernel
  exact Reaches.of_run (Outcome.eq_next hnext initial) (RunOk.trivial step initial niceRun)

/-- Task 1 is the only runnable task, and `schedule` takes task 0. -/
theorem schedule_idles : Reaches step (fun _ _ => True) initial niced ∧ ¬ Picks niced := by
  refine ⟨niced_reached, ?_⟩
  rintro ⟨task, next, hrun, hpicks⟩
  have hnext : (choose 2 (awake niced)).map Prod.snd = some 0 := by decide +kernel
  have hstate : (awake niced 1).map (fun p => p.state) = some .running := by decide +kernel
  obtain ⟨p, hp, hrunning⟩ := Option.map_eq_some_iff.mp hstate
  obtain ⟨q, hq, -⟩ := hpicks ⟨1, p, by decide, hp, hrunning⟩
  rw [hrun] at hnext
  cases hnext
  exact absurd hq.1 (by decide)

end LinuxKernel.V011.Sched
