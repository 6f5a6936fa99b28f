import LinuxKernel.Lib.System

/-!
# LinuxKernel.V011.Math

**Lazy switching of the 387**: `math_state_restore` and `switch_to` of
`kernel/sched.c` and `sched.h`, and what `fork`, `execve` and `exit` do to
`last_task_used_math`.

- The state of the coprocessor is a value of any type `Fpu`, and an instruction
  any function on it; `fnsave` stores the state and sets the initial one.
- A task is the page of its `task_struct`. The page of a task that has been
  waited for can be the next child's.
- `own` and `seen` are history: what each task last produced, and for every
  instruction what it found in the coprocessor against what its task last
  produced.
-/

namespace LinuxKernel.V011.Math

/-! ### The data model -/

inductive Life
  | free
  /-- Made by `fork`, and not switched to yet. -/
  | fresh
  | started
  | zombie
  deriving DecidableEq, Repr

structure State (Fpu : Type) where
  fpu : Fpu
  /-- The `TS` flag of `cr0`. -/
  ts : Bool
  current : Nat
  lastTaskUsedMath : Option Nat
  life : Nat → Life
  usedMath : Nat → Bool
  i387 : Nat → Fpu
  own : Nat → Fpu
  seen : List (Fpu × Fpu)

variable {Fpu : Type} (init : Fpu)

/-! ### The code -/

/-- `fnsave` into the `tss` of task `t`. -/
def fnsave (s : State Fpu) (t : Nat) : State Fpu :=
  { s with i387 := Function.update s.i387 t s.fpu, fpu := init }

/-- `math_state_restore`. -/
def mathStateRestore (s : State Fpu) : State Fpu :=
  if s.lastTaskUsedMath = some s.current then s
  else
    let s := match s.lastTaskUsedMath with
      | some t => fnsave init s t
      | none => s
    let s := { s with lastTaskUsedMath := some s.current }
    if s.usedMath s.current then { s with fpu := s.i387 s.current }
    else { s with fpu := init, usedMath := Function.update s.usedMath s.current true }

/-- An instruction of the coprocessor. With `TS` set it traps to
`device_not_available`, and is tried again later. -/
def instruction (s : State Fpu) (f : Fpu → Fpu) : State Fpu :=
  if s.ts then mathStateRestore init { s with ts := false }
  else
    { s with
      fpu := f s.fpu
      own := Function.update s.own s.current (f s.fpu)
      seen := s.seen ++ [(s.fpu, s.own s.current)] }

/-- `switch_to`. A task that has run before continues behind the `ljmp`. -/
def switchTo (s : State Fpu) (t : Nat) : State Fpu :=
  if t = s.current then s
  else
    { s with
      current := t
      life := Function.update s.life t .started
      ts := !(s.life t = .started && s.lastTaskUsedMath = some t) }

/-- What `copy_process` copies of the 387: `*p = *current`, and the live state
if the parent owns it. -/
def copyMath (s : State Fpu) (t : Nat) : State Fpu :=
  let s := { s with
    usedMath := Function.update s.usedMath t (s.usedMath s.current)
    i387 := Function.update s.i387 t (s.i387 s.current) }
  if s.lastTaskUsedMath = some s.current then fnsave init { s with ts := false } t else s

/-- `copy_process` into the page `t`. If `copy_mem` fails, the page is freed again. -/
def copyProcess (s : State Fpu) (t : Nat) (copied : Bool) : State Fpu :=
  let s := copyMath init s t
  if copied then
    { s with
      life := Function.update s.life t .fresh
      own := Function.update s.own t (s.own s.current) }
  else s

/-- `if (last_task_used_math == current) last_task_used_math = NULL;` -/
def disown (s : State Fpu) : State Fpu :=
  if s.lastTaskUsedMath = some s.current then { s with lastTaskUsedMath := none } else s

/-- `do_execve`. -/
def doExecve (s : State Fpu) : State Fpu :=
  let s := disown s
  { s with
    usedMath := Function.update s.usedMath s.current false
    own := Function.update s.own s.current init }

/-- `do_exit`. -/
def doExit (s : State Fpu) : State Fpu :=
  let s := disown s
  { s with life := Function.update s.life s.current .zombie }

/-! ### The system -/

inductive Op (Fpu : Type)
  | instruction (f : Fpu → Fpu)
  | switchTo (t : Nat)
  | fork (t : Nat) (copied : Bool)
  | execve
  | exit
  | release (t : Nat)

def step (s : State Fpu) : Op Fpu → Outcome (State Fpu)
  | .instruction f =>
      if s.life s.current = .started then .next (instruction init s f) else .disabled
  | .switchTo t =>
      if s.life t = .fresh ∨ s.life t = .started then .next (switchTo s t) else .disabled
  | .fork t copied =>
      if s.life s.current = .started ∧ s.life t = .free then .next (copyProcess init s t copied)
      else .disabled
  | .execve => if s.life s.current = .started then .next (doExecve init s) else .disabled
  | .exit => if s.life s.current = .started then .next (doExit s) else .disabled
  | .release t =>
      if s.life s.current = .started ∧ s.life t = .zombie then
        .next { s with life := Function.update s.life t .free }
      else .disabled

/-- After boot: `check_x87` has executed `fninit`, and `TS` is clear. -/
def initial : State Fpu where
  fpu := init
  ts := false
  current := 0
  lastTaskUsedMath := none
  life := fun t => if t = 0 then .started else .free
  usedMath := fun _ => false
  i387 := fun _ => init
  own := fun _ => init
  seen := []

/-! ### What is claimed -/

/-- Every instruction has found what its task last produced. -/
def Transparent (s : State Fpu) : Prop := ∀ e ∈ s.seen, e.1 = e.2

/-- The task that owns the coprocessor does not fork, unless it has the initial
state; and no task but the owner executes an instruction without a trap. -/
def OwnerOk (s : State Fpu) : Op Fpu → Prop
  | .fork _ _ => s.lastTaskUsedMath = some s.current → s.fpu = init
  | .instruction _ => s.ts = false → s.lastTaskUsedMath = some s.current
  | _ => True

instance (s : State Fpu) [DecidableEq Fpu] : Decidable (Transparent s) :=
  inferInstanceAs (Decidable (∀ e ∈ s.seen, e.1 = e.2))

instance (s : State Fpu) [DecidableEq Fpu] (op : Op Fpu) : Decidable (OwnerOk init s op) :=
  match op with
  | .fork _ _ => inferInstanceAs (Decidable (_ → _))
  | .instruction _ => inferInstanceAs (Decidable (_ → _))
  | .switchTo _ => isTrue True.intro
  | .execve => isTrue True.intro
  | .exit => isTrue True.intro
  | .release _ => isTrue True.intro

/-! ### Where the state is -/

/-- The state of task `t`: in the coprocessor, in its `tss`, or nowhere yet. -/
def live (s : State Fpu) (t : Nat) : Fpu :=
  if s.lastTaskUsedMath = some t then s.fpu else if s.usedMath t then s.i387 t else init

/-- The task can execute instructions, now or later. -/
def Running (s : State Fpu) (t : Nat) : Prop := s.life t = .fresh ∨ s.life t = .started

structure Inv (s : State Fpu) : Prop where
  owner : ∀ t, s.lastTaskUsedMath = some t → s.life t = .started ∧ s.usedMath t = true
  live : ∀ t, Running s t → live init s t = s.own t
  seen : Transparent s

variable {init} {s s' : State Fpu} {op : Op Fpu} {t : Nat}

/-- The states in the `tss`, with that of the owner brought up to date. -/
def saved (s : State Fpu) : Nat → Fpu :=
  match s.lastTaskUsedMath with
  | some t => Function.update s.i387 t s.fpu
  | none => s.i387

theorem saved_owner (h : s.lastTaskUsedMath = some t) : saved s t = s.fpu := by
  rw [saved, h]
  exact Function.update_self ..

theorem saved_of_ne (h : s.lastTaskUsedMath ≠ some t) : saved s t = s.i387 t := by
  cases hl : s.lastTaskUsedMath with
  | none => rw [saved, hl]
  | some u =>
      rw [saved, hl]
      have hut : t ≠ u := fun he => h (by rw [hl, he])
      exact Function.update_of_ne hut ..

theorem copyMath_frame : (copyMath init s t).life = s.life ∧ (copyMath init s t).own = s.own ∧
    (copyMath init s t).current = s.current := by
  simp only [copyMath]
  split <;> exact ⟨rfl, rfl, rfl⟩

/-- `math_state_restore` brings the `tss` of the owner up to date and makes the
current task the owner. -/
theorem mathStateRestore_eq (hne : s.lastTaskUsedMath ≠ some s.current) :
    mathStateRestore init s =
      { s with
        fpu := if s.usedMath s.current then saved s s.current else init
        lastTaskUsedMath := some s.current
        usedMath := Function.update s.usedMath s.current true
        i387 := saved s } := by
  rw [mathStateRestore, if_neg hne]
  cases hl : s.lastTaskUsedMath with
  | none =>
      cases hu : s.usedMath s.current with
      | false => simp only [hu, saved, hl, if_false, Bool.false_eq_true]
      | true =>
          have hsame := Function.update_eq_self s.current s.usedMath
          rw [hu] at hsame
          simp only [hu, saved, hl, if_true, hsame]
  | some t =>
      cases hu : s.usedMath s.current with
      | false => simp only [fnsave, hu, saved, hl, if_false, Bool.false_eq_true]
      | true =>
          have hsame := Function.update_eq_self s.current s.usedMath
          rw [hu] at hsame
          simp only [fnsave, hu, saved, hl, if_true, hsame]

theorem disown_owner : (disown s).lastTaskUsedMath = some t ↔
    s.lastTaskUsedMath = some t ∧ t ≠ s.current := by
  rw [disown]
  split
  · rename_i h
    simp [h, eq_comm]
  · rename_i h
    exact ⟨fun ht => ⟨ht, fun he => h (he ▸ ht)⟩, fun ht => ht.1⟩

/-- Only the owner is another one. -/
theorem disown_eq : ∃ o, disown s = { s with lastTaskUsedMath := o } := by
  rw [disown]
  split
  · exact ⟨none, rfl⟩
  · exact ⟨s.lastTaskUsedMath, rfl⟩

/-! ### One step -/

namespace Inv

theorem mathStateRestore (h : Inv init s) (hc : s.life s.current = .started) :
    Inv init (mathStateRestore init s) := by
  by_cases hl : s.lastTaskUsedMath = some s.current
  · rwa [Math.mathStateRestore, if_pos hl]
  rw [mathStateRestore_eq hl]
  refine ⟨fun t ht => ?_, fun t ht => ?_, h.seen⟩
  · obtain rfl : s.current = t := Option.some.inj ht
    exact ⟨hc, Function.update_self ..⟩
  · rw [← h.live t ht]
    by_cases htc : t = s.current
    · subst htc
      simp [Math.live, hl, saved_of_ne hl]
    · have htc' : ¬some s.current = some t := fun he => htc (Option.some.inj he).symm
      simp only [Math.live, if_neg htc', Function.update_of_ne htc]
      by_cases hlt : s.lastTaskUsedMath = some t
      · rw [if_pos hlt, if_pos (h.owner t hlt).2, saved_owner hlt]
      · rw [if_neg hlt, saved_of_ne hlt]

theorem instruction {f : Fpu → Fpu} (h : Inv init s) (hc : s.life s.current = .started)
    (hok : OwnerOk init s (.instruction f)) : Inv init (instruction init s f) := by
  rw [Math.instruction]
  split
  · exact Inv.mathStateRestore (s := { s with ts := false }) ⟨h.owner, h.live, h.seen⟩ hc
  · rename_i hts
    have hown : s.lastTaskUsedMath = some s.current := hok (by simpa using hts)
    refine ⟨h.owner, fun t ht => ?_, fun e he => ?_⟩
    · by_cases htc : t = s.current
      · subst htc
        simp [Math.live, hown]
      · have := h.live t ht
        simpa [Math.live, hown, Ne.symm htc, htc] using this
    · rcases List.mem_append.mp he with he | he
      · exact h.seen e he
      · obtain rfl := List.mem_singleton.mp he
        have := h.live s.current (.inr hc)
        simpa [Math.live, hown] using this

theorem switchTo (h : Inv init s) (ht : Running s t) : Inv init (switchTo s t) := by
  rw [Math.switchTo]
  split
  · exact h
  · refine ⟨fun u hu => ⟨?_, (h.owner u hu).2⟩, fun u hu => h.live u ?_, h.seen⟩
    · by_cases hut : u = t
      · subst hut
        exact Function.update_self ..
      · exact (Function.update_of_ne hut ..).trans (h.owner u hu).1
    · by_cases hut : u = t
      · subst hut
        exact ht
      · simpa [Running, hut] using hu

theorem copyMath (h : Inv init s) (hc : s.life s.current = .started) (ht : s.life t = .free)
    (hok : s.lastTaskUsedMath = some s.current → s.fpu = init) :
    Inv init (copyMath init s t) ∧ Math.live init (copyMath init s t) t = s.own s.current := by
  have htc : t ≠ s.current := fun he => by
    rw [he, hc] at ht
    cases ht
  have hnt : ¬s.lastTaskUsedMath = some t := fun he => by
    have := (h.owner t he).1
    rw [ht] at this
    cases this
  have hcur := h.live s.current (.inr hc)
  have hne : ∀ u, Running s u → u ≠ t := fun u hu he => by
    subst he
    rcases hu with hu | hu <;> (rw [ht] at hu; cases hu)
  have howner : ∀ u, s.lastTaskUsedMath = some u → u ≠ t := fun u hu he => hnt (he ▸ hu)
  rw [Math.copyMath]
  by_cases hl : s.lastTaskUsedMath = some s.current
  · -- the parent's own state is lost here, unless it is the initial one
    have hinit := hok hl
    simp only [fnsave, hl, if_true]
    refine ⟨⟨fun u hu => ?_, fun u hu => ?_, h.seen⟩, ?_⟩
    · have hut := howner u (hl.trans hu)
      simpa [hut] using h.owner u (hl.trans hu)
    · have hut := hne u hu
      have := h.live u hu
      simpa [Math.live, hl, hut, hinit] using this
    · simp only [Math.live, hl, hinit, if_true] at hcur
      simp [Math.live, Ne.symm htc, hinit, ← hcur]
  · simp only [hl, if_false]
    refine ⟨⟨fun u hu => ?_, fun u hu => ?_, h.seen⟩, ?_⟩
    · have hut := howner u hu
      simpa [hut] using h.owner u hu
    · have hut := hne u hu
      have := h.live u hu
      simpa [Math.live, hut] using this
    · rw [← hcur]
      simp [Math.live, hl, hnt]

theorem copyProcess {copied : Bool} (h : Inv init s) (hc : s.life s.current = .started)
    (ht : s.life t = .free) (hok : OwnerOk init s (.fork t copied)) :
    Inv init (copyProcess init s t copied) := by
  obtain ⟨hinv, hlive⟩ := h.copyMath hc ht hok
  obtain ⟨hlife, hown, hcurrent⟩ := copyMath_frame (s := s) (t := t)
  rw [Math.copyProcess]
  generalize Math.copyMath init s t = q at *
  cases copied with
  | false => exact hinv
  | true =>
      have hne : ∀ u, q.lastTaskUsedMath = some u → u ≠ t := fun u hu he => by
        have := (hinv.owner u hu).1
        rw [he, hlife, ht] at this
        cases this
      refine ⟨fun u hu => ?_, fun u hu => ?_, hinv.seen⟩
      · have := hinv.owner u hu
        simpa [hne u hu] using this
      · by_cases hut : u = t
        · subst hut
          have hself : Function.update q.own u (q.own q.current) u = s.own s.current := by
            rw [Function.update_self, hown, hcurrent]
          exact hlive.trans hself.symm
        · have hrun : Running q u := by simpa [Running, hut] using hu
          have := hinv.live u hrun
          simpa [Math.live, hut] using this

theorem doExecve (h : Inv init s) : Inv init (doExecve init s) := by
  obtain ⟨o, ho⟩ := disown_eq (s := s)
  have hown : ∀ t, o = some t ↔ s.lastTaskUsedMath = some t ∧ t ≠ s.current := fun t => by
    rw [← disown_owner, ho]
  rw [Math.doExecve, ho]
  refine ⟨fun t ht => ?_, fun t ht => ?_, h.seen⟩
  · obtain ⟨hl, hne⟩ := (hown t).mp ht
    exact ⟨(h.owner t hl).1, (Function.update_of_ne hne ..).trans (h.owner t hl).2⟩
  · by_cases htc : t = s.current
    · subst htc
      have hno : ¬o = some s.current := fun he => ((hown _).mp he).2 rfl
      simp [Math.live, hno]
    · have := h.live t ht
      simpa [Math.live, hown, htc] using this

theorem doExit (h : Inv init s) : Inv init (doExit s) := by
  obtain ⟨o, ho⟩ := disown_eq (s := s)
  have hown : ∀ t, o = some t ↔ s.lastTaskUsedMath = some t ∧ t ≠ s.current := fun t => by
    rw [← disown_owner, ho]
  rw [Math.doExit, ho]
  refine ⟨fun t ht => ?_, fun t ht => ?_, h.seen⟩
  · obtain ⟨hl, hne⟩ := (hown t).mp ht
    exact ⟨(Function.update_of_ne hne ..).trans (h.owner t hl).1, (h.owner t hl).2⟩
  · have htc : t ≠ s.current := fun he => by
      subst he
      simp [Running] at ht
    have hrun : Running s t := by simpa [Running, htc] using ht
    have := h.live t hrun
    simpa [Math.live, hown, htc] using this

theorem release (h : Inv init s) (ht : s.life t = .zombie) :
    Inv init { s with life := Function.update s.life t .free } := by
  refine ⟨fun u hu => ⟨?_, (h.owner u hu).2⟩, fun u hu => h.live u ?_, h.seen⟩
  · have hut : u ≠ t := fun he => by
      have := (h.owner u hu).1
      rw [he, ht] at this
      cases this
    exact (Function.update_of_ne hut ..).trans (h.owner u hu).1
  · have hut : u ≠ t := fun he => by
      subst he
      simp [Running] at hu
    simpa [Running, hut] using hu

theorem step (h : Inv init s) (hok : OwnerOk init s op) (hs : Math.step init s op = .next s') :
    Inv init s' := by
  cases op with
  | instruction f =>
      simp only [Math.step] at hs
      split at hs
      · rename_i hc
        obtain rfl := Outcome.next.inj hs
        exact h.instruction hc hok
      · cases hs
  | switchTo t =>
      simp only [Math.step] at hs
      split at hs
      · rename_i ht
        obtain rfl := Outcome.next.inj hs
        exact h.switchTo ht
      · cases hs
  | fork t copied =>
      simp only [Math.step] at hs
      split at hs
      · rename_i hc
        obtain rfl := Outcome.next.inj hs
        exact h.copyProcess hc.1 hc.2 hok
      · cases hs
  | execve =>
      simp only [Math.step] at hs
      split at hs
      · obtain rfl := Outcome.next.inj hs
        exact h.doExecve
      · cases hs
  | exit =>
      simp only [Math.step] at hs
      split at hs
      · obtain rfl := Outcome.next.inj hs
        exact h.doExit
      · cases hs
  | release t =>
      simp only [Math.step] at hs
      split at hs
      · rename_i hc
        obtain rfl := Outcome.next.inj hs
        exact h.release hc.2
      · cases hs

end Inv

/-! ### Runs -/

theorem initial_inv : Inv init (initial init) where
  owner := fun t ht => by cases ht
  live := fun t _ => by simp [live, initial]
  seen := fun e he => by cases he

variable (init) in
/-- **Lazy switching is transparent** in every run in which the owner does not
fork and only the owner uses the coprocessor without a trap. -/
theorem transparent_reaches (h : Reaches (step init) (OwnerOk init) (initial init) s) :
    Transparent s :=
  (h.invariant (P := Inv init) initial_inv fun _ _ _ ht hok hs => ht.step hok hs).seen

/-- Tasks 1 and 2 take the coprocessor in turns; then task 1 calls `execve`. -/
def turnsRun : List (Op Nat) :=
  [.fork 1 true, .fork 2 true, .switchTo 1, .instruction (· + 7), .instruction (· + 7),
    .switchTo 2, .instruction (· + 5), .instruction (· + 5), .switchTo 1, .execve,
    .instruction (· + 1), .instruction (· + 1), .exit, .switchTo 2, .release 1,
    .instruction id, .instruction id]

theorem transparent_reaches_turnsRun :
    Transparent ((run (step 0) (initial 0) turnsRun).get (initial 0)) :=
  transparent_reaches 0 (Reaches.of_run
    (Outcome.eq_next (by decide) (initial 0))
    (by
      repeat' first
        | exact True.intro
        | refine RunOk.cons (by decide) ?_))

/-- A task that owns the coprocessor executes an instruction after `op`. -/
def ownerRun (op : Op Nat) : List (Op Nat) :=
  [.fork 1 true, .switchTo 1, .instruction (· + 7), .instruction (· + 7), op, .instruction id]

/-- After `fork` the parent finds the initial state, and after `execve` a task
finds the state from before. -/
theorem not_transparent :
    (∃ s, run (step 0) (initial 0) (ownerRun (.fork 2 true)) = .next s ∧ ¬Transparent s) ∧
    (∃ s, run (step 0) (initial 0) (ownerRun .execve) = .next s ∧ ¬Transparent s) :=
  ⟨⟨_, Outcome.eq_next (by decide) (initial 0), by decide +kernel⟩,
    ⟨_, Outcome.eq_next (by decide) (initial 0), by decide +kernel⟩⟩

end LinuxKernel.V011.Math
