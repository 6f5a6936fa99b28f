import LinuxKernel.Lib.Countdown

/-!
# LinuxKernel.V098.Kernel.Itimer

**The interval timers**: `_getitimer` and `_setitimer` of `kernel/itimer.c` and their countdown
in `do_timer` (`kernel/sched.c`).

- Of a task only the six timer fields count, of a tick whether it comes in user mode and which
  task is current. What `do_timer` sends is the list of its calls of `send_sig`.
- The result of `_setitimer` has the old value also where `ovalue` is 0.
-/

namespace LinuxKernel.V098.Kernel.Itimer

abbrev Word := BitVec 32

def HZ : Nat := 100
def NR_TASKS : Nat := 64
def EINVAL : Int := 22

inductive Which
  | ITIMER_REAL
  | ITIMER_VIRTUAL
  | ITIMER_PROF
  deriving DecidableEq

namespace Which

def code : Which → Int
  | ITIMER_REAL => 0
  | ITIMER_VIRTUAL => 1
  | ITIMER_PROF => 2

end Which

inductive Signal
  | SIGALRM
  | SIGVTALRM
  | SIGPROF
  deriving DecidableEq

structure Timeval where
  tv_sec : Int
  tv_usec : Int

structure Itimerval where
  it_interval : Timeval
  it_value : Timeval

structure Task where
  it_real_value : Word
  it_prof_value : Word
  it_virt_value : Word
  it_real_incr : Word
  it_prof_incr : Word
  it_virt_incr : Word
  deriving DecidableEq

/-! ### `itimer.c` -/

/-- `value->tv_usec + (1000000 / HZ - 1)` is a `long`, the rest is `unsigned long`. -/
def tvtojiffies (value : Timeval) : Word :=
  BitVec.ofInt 32 value.tv_sec * BitVec.ofNat 32 HZ +
    BitVec.ofInt 32 (value.tv_usec + (1000000 / HZ - 1)) / BitVec.ofNat 32 (1000000 / HZ)

def jiffiestotv (jiffies : Word) : Timeval where
  tv_usec := (jiffies.toNat % HZ * (1000000 / HZ) : Nat)
  tv_sec := (jiffies.toNat / HZ : Nat)

def getitimer (current : Task) (which : Int) : Except Int Itimerval :=
  if which = 0 then .ok ⟨jiffiestotv current.it_real_incr, jiffiestotv current.it_real_value⟩
  else if which = 1 then .ok ⟨jiffiestotv current.it_virt_incr, jiffiestotv current.it_virt_value⟩
  else if which = 2 then .ok ⟨jiffiestotv current.it_prof_incr, jiffiestotv current.it_prof_value⟩
  else .error (-EINVAL)

def setitimer (current : Task) (which : Int) (value : Itimerval) :
    Except Int (Itimerval × Task) := do
  let i := tvtojiffies value.it_interval
  let j := tvtojiffies value.it_value
  let ovalue ← getitimer current which
  if which = 0 then .ok (ovalue, { current with it_real_value := j, it_real_incr := i })
  else if which = 1 then .ok (ovalue, { current with it_virt_value := j, it_virt_incr := i })
  else if which = 2 then .ok (ovalue, { current with it_prof_value := j, it_prof_incr := i })
  else .error (-EINVAL)

/-! ### `do_timer` -/

/-- `task[]`. -/
abbrev Table := Nat → Option Task

/-- A call of `send_sig`: the signal and the task. -/
abbrev Sent := List (Signal × Nat)

/-- `value && !(--value)`, with the value behind it reloaded. -/
def countDown (value incr : Word) : Word × Bool :=
  if value ≠ 0 then if value - 1 = 0 then (incr, true) else (value - 1, false)
  else (value, false)

def tickVirt (t : Task) : Task × Bool :=
  let r := countDown t.it_virt_value t.it_virt_incr
  ({ t with it_virt_value := r.1 }, r.2)

def tickReal (t : Task) : Task × Bool :=
  let r := countDown t.it_real_value t.it_real_incr
  ({ t with it_real_value := r.1 }, r.2)

def tickProf (t : Task) : Task × Bool :=
  let r := countDown t.it_prof_value t.it_prof_incr
  ({ t with it_prof_value := r.1 }, r.2)

/-- One of the three for a task of the table. -/
def tickTask (tick : Task → Task × Bool) (sig : Signal) (p : Nat) (task : Table) : Table × Sent :=
  match task p with
  | none => (task, [])
  | some t =>
      (Function.update task p (some (tick t).1), if (tick t).2 then [(sig, p)] else [])

/-- The loop over every task, with `n` of them to go. -/
def realLoop : Nat → Table → Table × Sent
  | 0, task => (task, [])
  | n + 1, task =>
      let r := tickTask tickReal .SIGALRM n task
      let rest := realLoop n r.1
      (rest.1, r.2 ++ rest.2)

structure Tick where
  /-- `(VM_MASK & regs->eflags) || (3 & regs->cs)`. -/
  user : Bool
  current : Nat

def doTimer (k : Tick) (task : Table) : Table × Sent :=
  let virt := if k.user then tickTask tickVirt .SIGVTALRM k.current task else (task, [])
  let real := realLoop NR_TASKS virt.1
  let prof := tickTask tickProf .SIGPROF k.current real.1
  (prof.1, virt.2 ++ real.2 ++ prof.2)

def runTimer (task : Table) (ticks : List Tick) : Table :=
  ticks.foldl (fun task k => (doTimer k task).1) task

/-! ### What the timers are for -/

namespace Which

def signal : Which → Signal
  | ITIMER_REAL => .SIGALRM
  | ITIMER_VIRTUAL => .SIGVTALRM
  | ITIMER_PROF => .SIGPROF

/-- The timer's clock goes on with this tick. -/
def counts (which : Which) (p : Nat) (k : Tick) : Bool :=
  match which with
  | ITIMER_REAL => true
  | ITIMER_VIRTUAL => k.user && k.current == p
  | ITIMER_PROF => k.current == p

/-- What the clock of the timer shows behind these ticks. -/
def clock (which : Which) (p : Nat) (ticks : List Tick) : Nat := ticks.countP (which.counts p)

end Which

namespace Timeval

/-- A normalized time that is not negative. -/
structure Valid (value : Timeval) : Prop where
  sec_nonneg : 0 ≤ value.tv_sec
  sec_lt : value.tv_sec < 2 ^ 31
  usec_nonneg : 0 ≤ value.tv_usec
  usec_lt : value.tv_usec < 1000000

/-- The time in ticks, rounded up. -/
def ticks (value : Timeval) : Nat :=
  ((value.tv_sec.toNat * 1000000 + value.tv_usec.toNat) * HZ) ⌈/⌉ 1000000

end Timeval

/-- Each tick sends the timer's signal exactly if the clock goes on and the tick is due. -/
def SignalsOnTime (which : Which) (p : Nat) (value : Itimerval) (task : Table) : Prop :=
  ∀ before k, (doTimer k (runTimer task before)).2.count (which.signal, p) =
    if which.counts p k ∧
        Countdown.Due ⟨value.it_value.ticks, value.it_interval.ticks⟩
          (which.clock p (before ++ [k]))
    then 1 else 0

/-- Storing back what `_getitimer` returns changes nothing. -/
def StoresBack (which : Which) (p : Nat) (task : Table) : Prop :=
  ∀ ticks t, runTimer task ticks p = some t →
    ∃ value r, getitimer t which.code = .ok value ∧ setitimer t which.code value = .ok r ∧ r.2 = t

/-- The timer that task `p` sets is on time. -/
def OnTime (which : Which) (p : Nat) (t : Task) (value : Itimerval) (task : Table) : Prop :=
  ∃ r, setitimer t which.code value = .ok r ∧
    SignalsOnTime which p value (Function.update task p (some r.2)) ∧
    StoresBack which p (Function.update task p (some r.2))

/-! ### One tick -/

variable {which which' : Which} {p q : Nat} {task : Table} {t : Task}

namespace Which

def tick : Which → Task → Task × Bool
  | ITIMER_REAL => tickReal
  | ITIMER_VIRTUAL => tickVirt
  | ITIMER_PROF => tickProf

/-- The timer of a task. -/
def view (which : Which) (t : Task) : Countdown :=
  match which with
  | ITIMER_REAL => ⟨t.it_real_value.toNat, t.it_real_incr.toNat⟩
  | ITIMER_VIRTUAL => ⟨t.it_virt_value.toNat, t.it_virt_incr.toNat⟩
  | ITIMER_PROF => ⟨t.it_prof_value.toNat, t.it_prof_incr.toNat⟩

def viewAt (which : Which) (p : Nat) (task : Table) : Option Countdown := (task p).map which.view

theorem signal_inj : which.signal = which'.signal ↔ which = which' := by
  cases which <;> cases which' <;> decide

end Which

theorem countDown_spec (value incr : Word) :
    (⟨(countDown value incr).1.toNat, incr.toNat⟩ : Countdown) =
        Countdown.tick ⟨value.toNat, incr.toNat⟩ ∧
      (countDown value incr).2 = Countdown.fires ⟨value.toNat, incr.toNat⟩ := by
  have hzero : ∀ x : Word, x = 0 ↔ x.toNat = 0 := fun x => BitVec.toNat_inj.symm
  have hlt := value.isLt
  have hsub : value.toNat ≠ 0 → (value - 1).toNat = value.toNat - 1 := by
    intro h
    have h1 : (1 : Word).toNat = 1 := rfl
    rw [BitVec.toNat_sub_of_le (BitVec.le_def.mpr (by omega)), h1]
  unfold countDown Countdown.tick Countdown.fires
  dsimp only
  by_cases h0 : value = 0
  · have hv := (hzero value).mp h0
    rw [if_neg (not_not.mpr h0), if_neg (by omega), hv]
    exact ⟨rfl, rfl⟩
  · have hv : value.toNat ≠ 0 := fun h => h0 ((hzero value).mpr h)
    rw [if_pos h0]
    by_cases h1 : value - 1 = 0
    · have hone := (hzero _).mp h1
      rw [hsub hv] at hone
      have hval : value.toNat = 1 := by omega
      rw [if_pos h1, if_pos hval, hval]
      exact ⟨rfl, rfl⟩
    · have hne : value.toNat ≠ 1 := by
        intro h
        refine h1 ((hzero _).mpr ?_)
        rw [hsub hv]
        omega
      rw [if_neg h1, if_neg hne, decide_eq_false hne, hsub hv]
      exact ⟨rfl, rfl⟩

theorem tick_fires (which : Which) (t : Task) : (which.tick t).2 = (which.view t).fires := by
  cases which with
  | ITIMER_REAL => exact (countDown_spec _ _).2
  | ITIMER_VIRTUAL => exact (countDown_spec _ _).2
  | ITIMER_PROF => exact (countDown_spec _ _).2

theorem view_tick (which : Which) (t : Task) :
    which.view (which.tick t).1 = (which.view t).tick := by
  cases which with
  | ITIMER_REAL => exact (countDown_spec _ _).1
  | ITIMER_VIRTUAL => exact (countDown_spec _ _).1
  | ITIMER_PROF => exact (countDown_spec _ _).1

theorem view_tick_of_ne (h : which ≠ which') (t : Task) :
    which.view (which'.tick t).1 = which.view t := by
  cases which <;> cases which' <;> first | rfl | exact absurd rfl h

theorem count_sent (which which' : Which) (p q : Nat) (b : Bool) :
    (if b then [(which'.signal, q)] else []).count (which.signal, p) =
      if (which = which' ∧ p = q) ∧ b then 1 else 0 := by
  cases b with
  | false => simp
  | true =>
      rw [if_pos rfl, List.count_singleton]
      refine if_congr ?_ rfl rfl
      rw [beq_iff_eq, Prod.mk.injEq, Which.signal_inj, eq_comm, eq_comm (a := q)]
      exact (and_iff_left rfl).symm

/-- What a tick of one timer of one task does to a timer, and how often it sends its signal. -/
theorem tickTask_spec (which which' : Which) (p q : Nat) (task : Table) :
    which.viewAt p (tickTask which'.tick which'.signal q task).1 =
        (if which = which' ∧ p = q then (which.viewAt p task).map Countdown.tick
          else which.viewAt p task) ∧
      (tickTask which'.tick which'.signal q task).2.count (which.signal, p) =
        if (which = which' ∧ p = q) ∧ (which.viewAt p task).any Countdown.fires then 1 else 0 := by
  unfold tickTask Which.viewAt
  cases hq : task q with
  | none =>
      dsimp only
      by_cases h : which = which' ∧ p = q
      · rw [if_pos h, h.2, hq, if_neg fun hfire => absurd hfire.2 Bool.false_ne_true]
        exact ⟨rfl, rfl⟩
      · rw [if_neg h, if_neg fun hfire => h hfire.1]
        exact ⟨rfl, rfl⟩
  | some t =>
      dsimp only
      rw [count_sent, tick_fires]
      by_cases hp : p = q
      · rw [hp, Function.update_self, hq, Option.map_some, Option.map_some]
        by_cases hw : which = which'
        · rw [if_pos ⟨hw, rfl⟩, Option.map_some, hw, view_tick]
          exact ⟨rfl, rfl⟩
        · rw [if_neg fun h => hw h.1, view_tick_of_ne hw, if_neg fun h => hw h.1.1,
            if_neg fun h => hw h.1.1]
          exact ⟨rfl, rfl⟩
      · rw [Function.update_of_ne hp, if_neg fun h => hp h.2, if_neg fun h => hp h.1.2,
          if_neg fun h => hp h.1.2]
        exact ⟨rfl, rfl⟩

theorem realLoop_spec (which : Which) (p n : Nat) (task : Table) :
    which.viewAt p (realLoop n task).1 =
        (if which = .ITIMER_REAL ∧ p < n then (which.viewAt p task).map Countdown.tick
          else which.viewAt p task) ∧
      (realLoop n task).2.count (which.signal, p) =
        if (which = .ITIMER_REAL ∧ p < n) ∧ (which.viewAt p task).any Countdown.fires
        then 1 else 0 := by
  induction n generalizing task with
  | zero =>
      have hno : ¬ (which = .ITIMER_REAL ∧ p < 0) := fun h => Nat.not_lt_zero p h.2
      rw [if_neg hno, if_neg fun h => hno h.1]
      exact ⟨rfl, rfl⟩
  | succ n ih =>
      obtain ⟨hview, hcount⟩ := tickTask_spec which .ITIMER_REAL p n task
      obtain ⟨hview', hcount'⟩ := ih (tickTask tickReal .SIGALRM n task).1
      rw [realLoop]
      dsimp only
      rw [List.count_append]
      change (which.viewAt p (tickTask tickReal .SIGALRM n task).1 = _) at hview
      change ((tickTask tickReal .SIGALRM n task).2.count _ = _) at hcount
      rw [hview', hcount', hview, hcount]
      by_cases hw : which = .ITIMER_REAL
      · rcases Nat.lt_trichotomy p n with hlt | heq | hgt
        · have hne : p ≠ n := Nat.ne_of_lt hlt
          simp [hw, hlt, hne, Nat.lt_succ_of_lt hlt]
        · simp [hw, heq]
        · have hne : p ≠ n := Nat.ne_of_gt hgt
          have hno : ¬ p < n := Nat.not_lt.mpr (Nat.le_of_lt hgt)
          have hno' : ¬ p < n + 1 := by omega
          simp [hne, hno, hno']
      · simp [hw]

/-- The step: `do_timer` counts a timer down once if its clock goes on, and sends its signal if
that was the last turn. -/
theorem doTimer_spec (which : Which) (hp : p < NR_TASKS) (k : Tick) (task : Table) :
    which.viewAt p (doTimer k task).1 =
        (if which.counts p k then (which.viewAt p task).map Countdown.tick
          else which.viewAt p task) ∧
      (doTimer k task).2.count (which.signal, p) =
        if which.counts p k ∧ (which.viewAt p task).any Countdown.fires then 1 else 0 := by
  obtain ⟨hreal, hreal'⟩ := realLoop_spec which p NR_TASKS
    (if k.user then tickTask tickVirt .SIGVTALRM k.current task else (task, [])).1
  obtain ⟨hprof, hprof'⟩ := tickTask_spec which .ITIMER_PROF p k.current
    (realLoop NR_TASKS
      (if k.user then tickTask tickVirt .SIGVTALRM k.current task else (task, [])).1).1
  obtain ⟨hvirt, hvirt'⟩ := tickTask_spec which .ITIMER_VIRTUAL p k.current task
  change which.viewAt p (tickTask tickProf .SIGPROF k.current _).1 = _ at hprof
  change (tickTask tickProf .SIGPROF k.current _).2.count _ = _ at hprof'
  change which.viewAt p (tickTask tickVirt .SIGVTALRM k.current _).1 = _ at hvirt
  change (tickTask tickVirt .SIGVTALRM k.current _).2.count _ = _ at hvirt'
  rw [doTimer]
  dsimp only
  rw [List.count_append, List.count_append, hprof, hprof', hreal, hreal']
  cases which with
  | ITIMER_REAL =>
      cases hu : k.user <;> simp [Which.counts, hp, hvirt, hvirt']
  | ITIMER_VIRTUAL =>
      cases hu : k.user <;> simp [Which.counts, hu, hvirt, hvirt', eq_comm (a := k.current)]
  | ITIMER_PROF =>
      cases hu : k.user <;> simp [Which.counts, hvirt, hvirt', eq_comm (a := k.current)]

/-! ### Runs -/

theorem view_runTimer (which : Which) (hp : p < NR_TASKS) (ticks : List Tick) (task : Table) :
    which.viewAt p (runTimer task ticks) =
      (which.viewAt p task).map (·.after (which.clock p ticks)) := by
  induction ticks using List.reverseRecOn with
  | nil => exact Option.map_id'.symm
  | append_singleton ticks k ih =>
      have hrun : runTimer task (ticks ++ [k]) = (doTimer k (runTimer task ticks)).1 := by
        rw [runTimer, List.foldl_append]
        rfl
      rw [hrun, (doTimer_spec which hp k _).1, ih, Which.clock, Which.clock, List.countP_append,
        List.countP_singleton]
      split
      next =>
        rw [Option.map_map]
        exact congrArg (Option.map · _) (funext fun c => (c.after_succ _).symm)
      next => rfl

/-- Every tick of a run sends the signal exactly if the clock goes on and the tick is due. -/
theorem count_doTimer (which : Which) (hp : p < NR_TASKS) (ht : task p = some t)
    (before : List Tick) (k : Tick) :
    (doTimer k (runTimer task before)).2.count (which.signal, p) =
      if which.counts p k ∧ (which.view t).Due (which.clock p (before ++ [k])) then 1 else 0 := by
  have hview : which.viewAt p task = some (which.view t) := by
    rw [Which.viewAt, ht, Option.map_some]
  rw [(doTimer_spec which hp k _).2, view_runTimer which hp, hview, Option.map_some,
    Option.any_some, Countdown.fires_after]
  refine if_congr (and_congr_right fun hk => ?_) rfl rfl
  rw [decide_eq_true_iff, Which.clock, Which.clock, List.countP_append, List.countP_singleton,
    if_pos hk]

/-! ### Times and ticks -/

theorem toNat_tvtojiffies {value : Timeval} (h : value.Valid) :
    (tvtojiffies value).toNat = value.ticks % 2 ^ 32 := by
  obtain ⟨hs, hs', hu, hu'⟩ := h
  obtain ⟨sec, usec⟩ := value
  obtain ⟨s, rfl⟩ := Int.eq_ofNat_of_zero_le hs
  obtain ⟨u, rfl⟩ := Int.eq_ofNat_of_zero_le hu
  have h9999 : ((u : Int) + (1000000 / HZ - 1)) = ((u + 9999 : Nat) : Int) := rfl
  have h100 : (BitVec.ofNat 32 HZ).toNat = 100 := rfl
  have h10000 : (BitVec.ofNat 32 (1000000 / HZ)).toNat = 10000 := rfl
  have hHZ : HZ = 100 := rfl
  unfold tvtojiffies Timeval.ticks
  dsimp only at hs' hu' ⊢
  rw [h9999, BitVec.ofInt_natCast, BitVec.ofInt_natCast, BitVec.toNat_add, BitVec.toNat_mul,
    BitVec.toNat_udiv, h100, h10000, BitVec.toNat_ofNat, BitVec.toNat_ofNat,
    Nat.ceilDiv_eq_add_pred_div, Int.toNat_natCast, Int.toNat_natCast, hHZ]
  omega

theorem tvtojiffies_jiffiestotv (j : Word) : tvtojiffies (jiffiestotv j) = j := by
  have hlt := j.isLt
  have hHZ : HZ = 100 := rfl
  have hvalid : (jiffiestotv j).Valid := by
    unfold jiffiestotv
    rw [hHZ]
    constructor <;> dsimp only <;> omega
  refine BitVec.eq_of_toNat_eq ?_
  rw [toNat_tvtojiffies hvalid, Timeval.ticks, jiffiestotv, Nat.ceilDiv_eq_add_pred_div, hHZ]
  dsimp only
  rw [Int.toNat_natCast, Int.toNat_natCast]
  omega

theorem storesBack (which : Which) (p : Nat) (task : Table) : StoresBack which p task := by
  intro ticks t _
  cases which with
  | ITIMER_REAL =>
      refine ⟨_, _, rfl, rfl, ?_⟩
      dsimp only
      rw [tvtojiffies_jiffiestotv, tvtojiffies_jiffiestotv]
  | ITIMER_VIRTUAL =>
      refine ⟨_, _, rfl, rfl, ?_⟩
      dsimp only
      rw [tvtojiffies_jiffiestotv, tvtojiffies_jiffiestotv]
  | ITIMER_PROF =>
      refine ⟨_, _, rfl, rfl, ?_⟩
      dsimp only
      rw [tvtojiffies_jiffiestotv, tvtojiffies_jiffiestotv]

/-- `_setitimer` starts the timer with the two times in ticks, modulo `2 ^ 32`. -/
theorem setitimer_spec (which : Which) (t : Task) {value : Itimerval}
    (hi : value.it_interval.Valid) (hv : value.it_value.Valid) :
    ∃ r, setitimer t which.code value = .ok r ∧
      which.view r.2 = ⟨value.it_value.ticks % 2 ^ 32, value.it_interval.ticks % 2 ^ 32⟩ := by
  rw [← toNat_tvtojiffies hi, ← toNat_tvtojiffies hv]
  cases which <;> exact ⟨_, rfl, rfl⟩

/-- A run of ticks in user mode that all find the task current. -/
def busy (p n : Nat) : List Tick := List.replicate n ⟨true, p⟩

theorem clock_busy (which : Which) (p n : Nat) : which.clock p (busy p n) = n := by
  have hcounts : which.counts p ⟨true, p⟩ = true := by
    cases which <;> simp [Which.counts]
  rw [Which.clock, busy, List.countP_replicate, if_pos hcounts]

/-- Signals come on time exactly if what the timer starts with is due at the same ticks. -/
theorem signalsOnTime_iff (which : Which) (hp : p < NR_TASKS) (ht : task p = some t)
    (value : Itimerval) :
    SignalsOnTime which p value task ↔ ∀ n, n ≠ 0 → ((which.view t).Due n ↔
      Countdown.Due ⟨value.it_value.ticks, value.it_interval.ticks⟩ n) := by
  constructor
  · intro h n hn
    obtain ⟨m, rfl⟩ := Nat.exists_eq_succ_of_ne_zero hn
    have htick := h (busy p m) ⟨true, p⟩
    have hcounts : which.counts p ⟨true, p⟩ = true := by
      cases which <;> simp [Which.counts]
    have hclock : which.clock p (busy p m ++ [⟨true, p⟩]) = m + 1 := by
      rw [Which.clock, List.countP_append, List.countP_singleton, if_pos hcounts]
      exact congrArg (· + 1) (clock_busy which p m)
    rw [count_doTimer which hp ht, hclock] at htick
    by_cases hdue : (which.view t).Due (m + 1)
    · rw [if_pos ⟨hcounts, hdue⟩] at htick
      refine iff_of_true hdue ?_
      by_contra hno
      rw [if_neg fun h => hno h.2] at htick
      exact absurd htick (by decide)
    · rw [if_neg fun h => hdue h.2] at htick
      refine iff_of_false hdue fun hyes => ?_
      rw [if_pos ⟨hcounts, hyes⟩] at htick
      exact absurd htick (by decide)
  · intro h before k
    rw [count_doTimer which hp ht]
    refine if_congr (and_congr_right fun hk => h _ ?_) rfl rfl
    rw [Which.clock, List.countP_append, List.countP_singleton, if_pos hk]
    exact Nat.succ_ne_zero _

theorem onTime_of (which : Which) (hp : p < NR_TASKS) (t : Task) (task : Table) {value : Itimerval}
    (hi : value.it_interval.Valid) (hv : value.it_value.Valid) :
    OnTime which p t value task ↔ value.it_value.ticks < 2 ^ 32 ∧
      (value.it_value.ticks = 0 ∨ value.it_interval.ticks < 2 ^ 32) := by
  obtain ⟨r, hr, hview⟩ := setitimer_spec which t hi hv
  have hsignals := signalsOnTime_iff which hp (Function.update_self p (some r.2) task) value
  rw [hview, Countdown.sameDue_iff] at hsignals
  dsimp only at hsignals
  have hlt := Nat.mod_lt value.it_value.ticks (show 2 ^ 32 > 0 by decide)
  have hlt' := Nat.mod_lt value.it_interval.ticks (show 2 ^ 32 > 0 by decide)
  constructor
  · rintro ⟨r', hr', hon, -⟩
    rw [hr] at hr'
    obtain rfl := Except.ok.inj hr'
    have hsame := hsignals.mp hon
    omega
  · intro h
    refine ⟨r, hr, hsignals.mpr ?_, storesBack which p _⟩
    have heq : value.it_value.ticks % 2 ^ 32 = value.it_value.ticks := Nat.mod_eq_of_lt h.1
    refine ⟨heq, h.2.imp (fun h0 => by rw [heq, h0]) Nat.mod_eq_of_lt⟩

/-- **Interval timers are on time** if and only if the time and, of a timer that is on, the
interval have less than `2 ^ 32` ticks. -/
theorem onTime_iff (which : Which) (p : Nat) (t : Task) (task : Table) (value : Itimerval)
    (hp : p < NR_TASKS) (hi : value.it_interval.Valid) (hv : value.it_value.Valid) :
    OnTime which p t value task ↔ value.it_value.ticks < 2 ^ 32 ∧
      (value.it_value.ticks = 0 ∨ value.it_interval.ticks < 2 ^ 32) :=
  onTime_of which hp t task hi hv

/-- The alarm of a second. -/
def secondValue : Itimerval := ⟨⟨0, 0⟩, ⟨1, 0⟩⟩

/-- 42949673 seconds have `2 ^ 32 + 4` ticks. -/
def longValue : Itimerval := ⟨⟨0, 0⟩, ⟨42949673, 0⟩⟩

def idleTask : Task := ⟨0, 0, 0, 0, 0, 0⟩

theorem onTime_iff_second :
    OnTime .ITIMER_REAL 1 idleTask secondValue (fun _ => none) ↔
      secondValue.it_value.ticks < 2 ^ 32 ∧
        (secondValue.it_value.ticks = 0 ∨ secondValue.it_interval.ticks < 2 ^ 32) :=
  onTime_iff .ITIMER_REAL 1 idleTask (fun _ => none) secondValue (by decide)
    ⟨by decide, by decide, by decide, by decide⟩ ⟨by decide, by decide, by decide, by decide⟩

/-- The alarm of 42949673 seconds comes behind the fourth tick. -/
theorem not_onTime :
    ¬ ∀ (which : Which) (p : Nat) (t : Task) (task : Table) (value : Itimerval), p < NR_TASKS →
      value.it_interval.Valid → value.it_value.Valid → OnTime which p t value task := by
  intro h
  have hi : longValue.it_interval.Valid := ⟨by decide, by decide, by decide, by decide⟩
  have hv : longValue.it_value.Valid := ⟨by decide, by decide, by decide, by decide⟩
  have hon := h .ITIMER_REAL 1 idleTask (fun _ => none) longValue (by decide) hi hv
  have hlt := ((onTime_of .ITIMER_REAL (by decide) idleTask _ hi hv).mp hon).1
  exact absurd hlt (by decide)

end LinuxKernel.V098.Kernel.Itimer
