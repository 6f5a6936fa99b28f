import Mathlib.Tactic.Common

/-!
# LinuxKernel.V011.Kill

**`sys_kill`** (`kernel/exit.c`), and the tasks it reaches.

- A signal is given to one slot of the task table after the other, from the last one to
  slot 1.
- For `-1` the loop that is meant for process groups has become a part of the loop over all
  tasks. It runs once, below the first task that gets the signal.
-/

namespace LinuxKernel.V011.Kill

def NR_TASKS : Nat := 64
def EPERM : Int := 1
def EINVAL : Int := 22

/-- What is used of `struct task_struct`. -/
structure Task where
  pid : Int
  pgrp : Int
  euid : BitVec 16
  signal : BitVec 32

abbrev Table := Nat → Option Task

variable (cur : Task) (sig : Int)

/-- The bit of a signal. -/
def sigBit : BitVec 32 := 1 <<< (sig - 1).toNat

/-- `current->euid==p->euid`, or `suser()`. -/
def permitted (p : Task) : Bool := cur.euid = p.euid || cur.euid = 0

/-- The signal is pending. -/
def mark (p : Task) : Task := { p with signal := p.signal ||| sigBit sig }

/-- `send_sig`, for slot `n`. -/
def sendSig (task : Table) (n : Nat) (priv : Bool) : Table × Int :=
  match task n with
  | none => (task, -EINVAL)
  | some p =>
      if sig < 1 ∨ 32 < sig then (task, -EINVAL)
      else if priv || permitted cur p then (Function.update task n (some (mark sig p)), 0)
      else (task, -EPERM)

/-- One round: `if (*p && test) if (err=send_sig(sig,*p,priv)) retval = err;`. -/
def visit (priv : Bool) (test : Task → Bool) (n : Nat) (s : Table × Int) : Table × Int :=
  if (s.1 n).any test then
    let r := sendSig cur sig s.1 n priv
    (r.1, if r.2 ≠ 0 then r.2 else s.2)
  else s

/-- `while (--p > &FIRST_TASK)`, from slot `n` on, with `retval`. -/
def each (priv : Bool) (test : Task → Bool) : Nat → Table × Int → Table × Int
  | 0, s => s
  | n + 1, s => each priv test n (visit cur sig priv test (n + 1) s)

/-- The loop for -1. -/
def everyone (pid : Int) : Nat → Table × Int → Table × Int
  | 0, s => s
  | n + 1, s =>
      let r := sendSig cur sig s.1 (n + 1) false
      if r.2 ≠ 0 then everyone pid n r
      else each cur sig false (fun p => p.pgrp = -pid) n (r.1, s.2)

/-- `sys_kill`. -/
def sysKill (task : Table) (pid : Int) : Table × Int :=
  if pid = 0 then each cur sig true (fun p => p.pgrp = cur.pid) (NR_TASKS - 1) (task, 0)
  else if 0 < pid then each cur sig false (fun p => p.pid = pid) (NR_TASKS - 1) (task, 0)
  else if pid = -1 then everyone cur sig pid (NR_TASKS - 1) (task, 0)
  else (task, 0)

/-! ### What is claimed -/

/-- The tasks that a signal to `pid` is for. -/
def target (pid : Int) (p : Task) : Bool :=
  if pid = 0 then p.pgrp = cur.pgrp
  else if 0 < pid then p.pid = pid
  else if pid = -1 then true
  else p.pgrp = -pid

/-- The signal is given to the tasks of `q`. -/
def give (q : Nat → Task → Bool) (task : Table) : Table := fun n =>
  (task n).map fun p => if q n p then mark sig p else p

/-- A slot other than that of task 0. -/
def inTable (n : Nat) : Bool := 1 ≤ n && n < NR_TASKS

/-- The signal has come to exactly its targets, and an error says that one refused it. -/
structure Right (task : Table) (pid : Int) : Prop where
  table : (sysKill cur sig task pid).1 =
    give sig (fun n p => inTable n && target cur pid p && permitted cur p) task
  error : (sysKill cur sig task pid).2 ≠ 0 → ∃ n p, inTable n = true ∧ task n = some p ∧
    target cur pid p = true ∧ permitted cur p = false

/-- Slot `k` takes the signal. -/
def accepts (task : Table) (k : Nat) : Bool := (task k).any (permitted cur)

/-- A slot above `m`, up to `n`, takes the signal. -/
def acceptsAbove (task : Table) (m n : Nat) : Bool :=
  decide (∃ k, k < n + 1 ∧ m < k ∧ accepts cur task k = true)

/-- A task refuses the signal. -/
def Refused (task : Table) (pid : Int) : Prop := ∃ n p, inTable n = true ∧ task n = some p ∧
  target cur pid p = true ∧ permitted cur p = false

/-- The table is one for which `sys_kill` is right. Where a signal is pending already it does
not matter who is given it. -/
def KillOk (task : Table) (pid : Int) : Prop :=
  if pid = 0 then
    ∀ n p, inTable n = true → task n = some p → mark sig p ≠ p →
      (p.pgrp = cur.pid ↔ p.pgrp = cur.pgrp ∧ permitted cur p = true)
  else if 0 < pid then True
  else if pid = -1 then
    (∀ n p, inTable n = true → task n = some p → mark sig p ≠ p → permitted cur p = true →
      acceptsAbove cur task n (NR_TASKS - 1) = true → p.pgrp = 1) ∧
    ∀ n, inTable n = true → task n = none → acceptsAbove cur task n (NR_TASKS - 1) = false →
      Refused cur task pid
  else
    ∀ n p, inTable n = true → task n = some p → mark sig p ≠ p → p.pgrp = -pid →
      permitted cur p = false

/-! ### The loops -/

variable {cur sig} {task task' : Table} {q q' : Nat → Task → Bool} {priv : Bool}
  {test : Task → Bool} {n m k : Nat} {p : Task} {e : Int} {s : Table × Int} {pid : Int}

theorem give_eq_iff : give sig q task = give sig q' task ↔
    ∀ n p, task n = some p → mark sig p ≠ p → q n p = q' n p := by
  constructor
  · intro h n p hp hmark
    have hn := congrFun h n
    rw [give, give, hp, Option.map_some, Option.map_some, Option.some.injEq] at hn
    cases hq : q n p <;> cases hq' : q' n p <;> rw [hq, hq'] at hn
    · exact absurd hn.symm hmark
    · exact absurd hn hmark
  · intro h
    funext n
    rw [give, give]
    cases hp : task n with
    | none => rfl
    | some p =>
        rw [Option.map_some, Option.map_some]
        by_cases hmark : mark sig p = p
        · rw [hmark, ite_self, ite_self]
        · rw [h n p hp hmark]

/-- A valid signal comes to a task that it may be sent to. -/
theorem sendSig_eq (hsig : 1 ≤ sig ∧ sig ≤ 32) (hp : task n = some p) :
    sendSig cur sig task n priv =
      if priv || permitted cur p then (Function.update task n (some (mark sig p)), 0)
      else (task, -EPERM) := by
  have hvalid : ¬ (sig < 1 ∨ 32 < sig) := by omega
  rw [sendSig, hp]
  exact if_neg hvalid

theorem sendSig_none (hp : task n = none) : sendSig cur sig task n priv = (task, -EINVAL) := by
  rw [sendSig, hp]

/-- What is given in a round, or in a loop, where `test` holds. -/
def takes (cur : Task) (priv : Bool) (test : Task → Bool) (p : Task) : Bool :=
  test p && (priv || permitted cur p)

/-- A round changes its own slot only. -/
theorem visit_of_ne (hm : m ≠ n) : (visit cur sig priv test n s).1 m = s.1 m := by
  rw [visit]
  split
  · dsimp only
    rw [sendSig]
    split
    · rfl
    split
    · rfl
    split
    · exact Function.update_of_ne hm ..
    · rfl
  · rfl

theorem visit_self (hsig : 1 ≤ sig ∧ sig ≤ 32) : (visit cur sig priv test n s).1 n =
    (s.1 n).map fun p => if takes cur priv test p then mark sig p else p := by
  rw [visit]
  cases hp : s.1 n with
  | none => exact hp
  | some p =>
      rw [Option.any_some, Option.map_some, takes]
      cases htest : test p with
      | false => exact hp
      | true =>
          rw [if_pos rfl, sendSig_eq hsig hp, Bool.true_and]
          split
          · exact Function.update_self ..
          · exact hp

variable (cur priv test) in
/-- A loop over the slots up to `n`. -/
theorem each_table (hsig : 1 ≤ sig ∧ sig ≤ 32) (m : Nat) :
    (each cur sig priv test n s).1 m =
      if 1 ≤ m ∧ m ≤ n then (s.1 m).map fun p => if takes cur priv test p then mark sig p else p
      else s.1 m := by
  induction n generalizing s with
  | zero => rw [each, if_neg (by omega)]
  | succ n ih =>
      rw [each, ih]
      by_cases hm : m = n + 1
      · subst hm
        rw [if_neg (by omega), if_pos (by omega), visit_self hsig]
      · rw [visit_of_ne hm]
        exact if_congr (by omega) rfl rfl

/-- An error of a round stays. -/
theorem visit_error (h : s.2 ≠ 0) : (visit cur sig priv test n s).2 ≠ 0 := by
  rw [visit]
  split
  · dsimp only
    split
    · assumption
    · exact h
  · exact h

theorem each_error (h : s.2 ≠ 0) : (each cur sig priv test n s).2 ≠ 0 := by
  induction n generalizing s with
  | zero => exact h
  | succ n ih => exact ih (visit_error h)

/-- An error comes from a task that refuses. -/
theorem visit_refused (hsig : 1 ≤ sig ∧ sig ≤ 32) (h : (visit cur sig priv test n s).2 ≠ 0) :
    s.2 ≠ 0 ∨ ∃ p, s.1 n = some p ∧ test p = true ∧ (priv || permitted cur p) = false := by
  rw [visit] at h
  cases hp : s.1 n with
  | none =>
      rw [hp] at h
      exact Or.inl h
  | some p =>
      rw [hp, Option.any_some] at h
      cases htest : test p with
      | false =>
          rw [htest] at h
          exact Or.inl h
      | true =>
          rw [htest, if_pos rfl, sendSig_eq hsig hp] at h
          cases hperm : priv || permitted cur p with
          | false => exact Or.inr ⟨p, rfl, htest, hperm⟩
          | true =>
              rw [hperm] at h
              exact Or.inl h

theorem each_refused (hsig : 1 ≤ sig ∧ sig ≤ 32) (h : (each cur sig priv test n s).2 ≠ 0) :
    s.2 ≠ 0 ∨ ∃ m p, 1 ≤ m ∧ m ≤ n ∧ s.1 m = some p ∧ test p = true ∧
      (priv || permitted cur p) = false := by
  induction n generalizing s with
  | zero => exact Or.inl h
  | succ n ih =>
      rcases ih h with hvisit | ⟨m, p, h1, hm, hp, hrest⟩
      · refine (visit_refused hsig hvisit).imp id ?_
        rintro ⟨p, hp, hrest⟩
        exact ⟨n + 1, p, by omega, Nat.le_refl _, hp, hrest⟩
      · rw [visit_of_ne (by omega)] at hp
        exact Or.inr ⟨m, p, h1, by omega, hp, hrest⟩

/-! ### The loop for -1 -/

theorem acceptsAbove_succ_of_accepts (h : accepts cur task (n + 1) = true) (hm : m ≤ n) :
    acceptsAbove cur task m (n + 1) = true :=
  decide_eq_true ⟨n + 1, by omega, by omega, h⟩

theorem acceptsAbove_succ_of_not (h : accepts cur task (n + 1) = false) :
    acceptsAbove cur task m (n + 1) = acceptsAbove cur task m n := by
  refine decide_eq_decide.mpr ⟨?_, ?_⟩
  · rintro ⟨k, hk, hm, hacc⟩
    have hne : k ≠ n + 1 := by
      rintro rfl
      rw [h] at hacc
      cases hacc
    exact ⟨k, by omega, hm, hacc⟩
  · rintro ⟨k, hk, hm, hacc⟩
    exact ⟨k, by omega, hm, hacc⟩

theorem acceptsAbove_last (task : Table) (n : Nat) : acceptsAbove cur task n n = false :=
  decide_eq_false fun ⟨_, hk, hm, _⟩ => by omega

/-- The task is given the signal by the loop for -1. -/
def takesAll (cur : Task) (task : Table) (pid : Int) (n m : Nat) (p : Task) : Bool :=
  permitted cur p && (p.pgrp = -pid || !acceptsAbove cur task m n)

variable (pid) in
/-- A slot that is empty, or whose task refuses. -/
theorem everyone_skip (hsig : 1 ≤ sig ∧ sig ≤ 32) (h : accepts cur s.1 (n + 1) = false) :
    ∃ e, e ≠ 0 ∧ everyone cur sig pid (n + 1) s = everyone cur sig pid n (s.1, e) := by
  rw [everyone]
  cases hp : s.1 (n + 1) with
  | none =>
      rw [sendSig_none hp]
      exact ⟨-EINVAL, by decide, if_pos (by simp [EINVAL])⟩
  | some p =>
      have hperm : permitted cur p = false := by
        rwa [accepts, hp, Option.any_some] at h
      rw [sendSig_eq hsig hp, hperm]
      exact ⟨-EPERM, by decide, if_pos (by simp [EPERM])⟩

/-- The first task that takes the signal. -/
theorem everyone_take (hsig : 1 ≤ sig ∧ sig ≤ 32) (hp : s.1 (n + 1) = some p)
    (hperm : permitted cur p = true) : everyone cur sig pid (n + 1) s =
      each cur sig false (fun p => p.pgrp = -pid) n
        (Function.update s.1 (n + 1) (some (mark sig p)), s.2) := by
  rw [everyone, sendSig_eq hsig hp, hperm]
  exact if_neg fun h => h rfl

variable (cur pid) in
theorem everyone_table (hsig : 1 ≤ sig ∧ sig ≤ 32) (m : Nat) :
    (everyone cur sig pid n s).1 m =
      if 1 ≤ m ∧ m ≤ n then
        (s.1 m).map fun p => if takesAll cur s.1 pid n m p then mark sig p else p
      else s.1 m := by
  induction n generalizing s with
  | zero => rw [everyone, if_neg (by omega)]
  | succ n ih =>
      cases hacc : accepts cur s.1 (n + 1) with
      | false =>
          obtain ⟨e, -, hrun⟩ := everyone_skip pid hsig hacc
          have htakes : ∀ p, takesAll cur s.1 pid (n + 1) m p = takesAll cur s.1 pid n m p :=
            fun p => by rw [takesAll, takesAll, acceptsAbove_succ_of_not hacc]
          rw [hrun, ih]
          simp only [htakes]
          by_cases hm : m = n + 1
          · subst hm
            rw [if_neg (by omega), if_pos (by omega)]
            cases hp : s.1 (n + 1) with
            | none => rfl
            | some p =>
                have hperm : permitted cur p = false := by
                  rwa [accepts, hp, Option.any_some] at hacc
                rw [Option.map_some, takesAll, hperm]
                rfl
          · exact if_congr (by omega) rfl rfl
      | true =>
          obtain ⟨p, hp, hperm⟩ := (Option.any_eq_true _ _).mp hacc
          rw [everyone_take hsig hp hperm, each_table _ _ _ hsig]
          by_cases hm : m = n + 1
          · subst hm
            rw [if_neg (by omega), if_pos (by omega), hp, Option.map_some, takesAll, hperm,
              acceptsAbove_last]
            simp
          · dsimp only
            rw [Function.update_of_ne hm]
            by_cases hrange : 1 ≤ m ∧ m ≤ n
            · have habove := acceptsAbove_succ_of_accepts hacc hrange.2
              have htakes : ∀ p, takes cur false (fun p => decide (p.pgrp = -pid)) p =
                  takesAll cur s.1 pid (n + 1) m p := fun p => by
                rw [takes, takesAll, habove, Bool.false_or, Bool.not_true, Bool.or_false,
                  Bool.and_comm]
              rw [if_pos hrange, if_pos (by omega)]
              simp only [htakes]
            · rw [if_neg hrange, if_neg (by omega)]

theorem everyone_error (hsig : 1 ≤ sig ∧ sig ≤ 32) (h : s.2 ≠ 0) :
    (everyone cur sig pid n s).2 ≠ 0 := by
  induction n generalizing s with
  | zero => exact h
  | succ n ih =>
      cases hacc : accepts cur s.1 (n + 1) with
      | false =>
          obtain ⟨e, he, hrun⟩ := everyone_skip pid hsig hacc
          rw [hrun]
          exact ih he
      | true =>
          obtain ⟨p, hp, hperm⟩ := (Option.any_eq_true _ _).mp hacc
          rw [everyone_take hsig hp hperm]
          exact each_error h

/-- The error for an empty slot. -/
theorem everyone_empty (hsig : 1 ≤ sig ∧ sig ≤ 32) (h1 : 1 ≤ m) (hm : m ≤ n)
    (hempty : s.1 m = none) (habove : acceptsAbove cur s.1 m n = false) :
    (everyone cur sig pid n s).2 ≠ 0 := by
  induction n generalizing s with
  | zero => omega
  | succ n ih =>
      cases hacc : accepts cur s.1 (n + 1) with
      | true =>
          have hne : m ≠ n + 1 := by
            rintro rfl
            rw [accepts, hempty] at hacc
            cases hacc
          rw [acceptsAbove_succ_of_accepts hacc (by omega)] at habove
          cases habove
      | false =>
          obtain ⟨e, he, hrun⟩ := everyone_skip pid hsig hacc
          rw [hrun]
          by_cases hlast : m = n + 1
          · exact everyone_error hsig he
          · refine ih (by omega) hempty ?_
            exact (acceptsAbove_succ_of_not hacc).symm.trans habove

/-- Where the errors of the loop come from. -/
theorem everyone_refused (hsig : 1 ≤ sig ∧ sig ≤ 32) (h : (everyone cur sig pid n s).2 ≠ 0) :
    s.2 ≠ 0 ∨ (∃ m, 1 ≤ m ∧ m ≤ n ∧ s.1 m = none ∧ acceptsAbove cur s.1 m n = false) ∨
      ∃ m p, 1 ≤ m ∧ m ≤ n ∧ s.1 m = some p ∧ permitted cur p = false := by
  induction n generalizing s with
  | zero => exact Or.inl h
  | succ n ih =>
      cases hacc : accepts cur s.1 (n + 1) with
      | true =>
          obtain ⟨p, hp, hperm⟩ := (Option.any_eq_true _ _).mp hacc
          rw [everyone_take hsig hp hperm] at h
          refine (each_refused hsig h).imp id ?_
          rintro ⟨m, q, h1, hm, hq, -, hno⟩
          dsimp only at hq
          rw [Function.update_of_ne (by omega)] at hq
          exact Or.inr ⟨m, q, h1, by omega, hq, hno⟩
      | false =>
          obtain ⟨e, -, hrun⟩ := everyone_skip pid hsig hacc
          rw [hrun] at h
          rcases ih h with he | ⟨m, h1, hm, hempty, habove⟩ | ⟨m, p, h1, hm, hrest⟩
          · cases hp : s.1 (n + 1) with
            | none =>
                exact Or.inr (Or.inl ⟨n + 1, by omega, Nat.le_refl _, hp, acceptsAbove_last ..⟩)
            | some p =>
                rw [accepts, hp, Option.any_some] at hacc
                exact Or.inr (Or.inr ⟨n + 1, p, by omega, Nat.le_refl _, hp, hacc⟩)
          · rw [← acceptsAbove_succ_of_not hacc] at habove
            exact Or.inr (Or.inl ⟨m, h1, by omega, hempty, habove⟩)
          · exact Or.inr (Or.inr ⟨m, p, h1, by omega, hrest⟩)

/-! ### The call -/

theorem inTable_iff : inTable n = true ↔ 1 ≤ n ∧ n ≤ NR_TASKS - 1 := by
  rw [inTable, Bool.and_eq_true, decide_eq_true_eq, decide_eq_true_eq, NR_TASKS]
  omega

variable (sig task) in
/-- The slots of the table as those of `give`. -/
theorem eq_give {task' : Table} (h : ∀ m, task' m =
      if 1 ≤ m ∧ m ≤ NR_TASKS - 1 then (task m).map fun p => if q m p then mark sig p else p
      else task m) : task' = give sig (fun n p => inTable n && q n p) task := by
  funext m
  rw [h, give]
  cases hm : inTable m with
  | true =>
      rw [if_pos (inTable_iff.mp hm)]
      rfl
  | false =>
      rw [if_neg fun h => Bool.false_ne_true (hm.symm.trans (inTable_iff.mpr h))]
      simp

/-- Two ways of giving the signal to tasks of the table. -/
theorem give_inTable_iff :
    give sig (fun n p => inTable n && q n p) task =
      give sig (fun n p => inTable n && q' n p) task ↔
    ∀ n p, inTable n = true → task n = some p → mark sig p ≠ p → q n p = q' n p := by
  rw [give_eq_iff]
  constructor
  · intro h n p hn hp hmark
    have := h n p hp hmark
    rwa [hn, Bool.true_and, Bool.true_and] at this
  · intro h n p hp hmark
    cases hn : inTable n with
    | true => rw [Bool.true_and, Bool.true_and, h n p hn hp hmark]
    | false => rfl

/-- The tasks that have got the signal, against the targets. -/
theorem right_iff (htable : (sysKill cur sig task pid).1 =
      give sig (fun n p => inTable n && q n p) task) :
    Right cur sig task pid ↔
      (∀ n p, inTable n = true → task n = some p → mark sig p ≠ p →
        q n p = (target cur pid p && permitted cur p)) ∧
      ((sysKill cur sig task pid).2 ≠ 0 → Refused cur task pid) := by
  have hgive : (sysKill cur sig task pid).1 =
      give sig (fun n p => inTable n && target cur pid p && permitted cur p) task ↔
      ∀ n p, inTable n = true → task n = some p → mark sig p ≠ p →
        q n p = (target cur pid p && permitted cur p) := by
    rw [htable]
    simp only [Bool.and_assoc]
    exact give_inTable_iff
  exact ⟨fun h => ⟨hgive.mp h.table, h.error⟩, fun h => ⟨hgive.mpr h.1, h.2⟩⟩

/-- The caller's own pid serves for its group, and no permission is asked for. -/
theorem kill_group (hsig : 1 ≤ sig ∧ sig ≤ 32) :
    Right cur sig task 0 ↔ KillOk cur sig task 0 := by
  have hrun : sysKill cur sig task 0 = each cur sig true (fun p => p.pgrp = cur.pid) (NR_TASKS - 1)
      (task, 0) := if_pos rfl
  have hquiet : (sysKill cur sig task 0).2 = 0 := by
    by_contra h
    rw [hrun] at h
    rcases each_refused hsig h with h0 | ⟨m, p, -, -, -, -, hno⟩
    · exact h0 rfl
    · cases hno
  have htable := eq_give sig task fun m =>
    each_table cur true (fun p => p.pgrp = cur.pid) (s := (task, 0)) hsig m
  rw [← hrun] at htable
  rw [right_iff htable, KillOk, if_pos rfl, and_iff_left fun h => absurd hquiet h]
  refine forall₅_congr fun n p hn hp hmark => ?_
  rw [takes, Bool.true_or, Bool.and_true, target, if_pos rfl, Bool.eq_iff_iff, Bool.and_eq_true,
    decide_eq_true_eq, decide_eq_true_eq]

/-- One task. -/
theorem kill_one (hsig : 1 ≤ sig ∧ sig ≤ 32) (hpid : 0 < pid) : Right cur sig task pid := by
  have hne : pid ≠ 0 := by omega
  have hrun : sysKill cur sig task pid = each cur sig false (fun p => p.pid = pid) (NR_TASKS - 1)
      (task, 0) := (if_neg hne).trans (if_pos hpid)
  have htarget : ∀ p, target cur pid p = decide (p.pid = pid) := fun p => by
    rw [target, if_neg hne, if_pos hpid]
  have htable := eq_give sig task fun m =>
    each_table cur false (fun p => p.pid = pid) (s := (task, 0)) hsig m
  rw [← hrun] at htable
  rw [right_iff htable]
  refine ⟨fun n p _ _ _ => ?_, fun h => ?_⟩
  · rw [takes, Bool.false_or, htarget]
  · rw [hrun] at h
    rcases each_refused hsig h with h0 | ⟨m, p, h1, hm, hp, htest, hno⟩
    · exact absurd rfl h0
    · exact ⟨m, p, inTable_iff.mpr ⟨h1, hm⟩, hp, (htarget p).trans htest, hno⟩

/-- The groups are forgotten. -/
theorem kill_negative (hpid : pid < -1) : Right cur sig task pid ↔ KillOk cur sig task pid := by
  have hne : pid ≠ 0 := by omega
  have hpos : ¬ 0 < pid := by omega
  have hall : pid ≠ -1 := by omega
  have hrun : sysKill cur sig task pid = (task, 0) :=
    (if_neg hne).trans ((if_neg hpos).trans (if_neg hall))
  have hquiet : (sysKill cur sig task pid).2 = 0 := by rw [hrun]
  have htable : (sysKill cur sig task pid).1 =
      give sig (fun n p => inTable n && (fun _ _ => false : Nat → Task → Bool) n p) task := by
    rw [hrun]
    funext n
    simp [give]
  rw [right_iff htable, KillOk, if_neg hne, if_neg hpos, if_neg hall,
    and_iff_left fun h => absurd hquiet h]
  refine forall₅_congr fun n p hn hp hmark => ?_
  rw [target, if_neg hne, if_neg hpos, if_neg hall, eq_comm, Bool.and_eq_false_imp,
    decide_eq_true_eq]

/-- The loop for -1 stops at the first task that takes the signal. -/
theorem kill_all (hsig : 1 ≤ sig ∧ sig ≤ 32) :
    Right cur sig task (-1) ↔ KillOk cur sig task (-1) := by
  have hrun : sysKill cur sig task (-1) = everyone cur sig (-1) (NR_TASKS - 1) (task, 0) := by
    rw [sysKill, if_neg (by decide), if_neg (by decide), if_pos rfl]
  have htable := eq_give sig task fun m =>
    everyone_table cur (-1) (s := (task, 0)) hsig m
  rw [← hrun] at htable
  rw [right_iff htable, KillOk, if_neg (by decide), if_neg (by decide), if_pos rfl]
  refine and_congr ?_ ?_
  · refine forall₅_congr fun n p hn hp hmark => ?_
    have htarget : target cur (-1) p = true := rfl
    rw [htarget, Bool.true_and, takesAll]
    cases permitted cur p with
    | false => simp
    | true => cases acceptsAbove cur task n (NR_TASKS - 1) <;> simp
  · rw [hrun]
    constructor
    · intro h n hn hempty habove
      obtain ⟨h1, hle⟩ := inTable_iff.mp hn
      exact h (everyone_empty hsig h1 hle hempty habove)
    · intro h herror
      rcases everyone_refused hsig herror with h0 | ⟨m, h1, hm, hempty, habove⟩ |
        ⟨m, p, h1, hm, hp, hno⟩
      · exact absurd rfl h0
      · exact h m (inTable_iff.mpr ⟨h1, hm⟩) hempty habove
      · exact ⟨m, p, inTable_iff.mpr ⟨h1, hm⟩, hp, rfl, hno⟩

/-- **The tasks that `kill` reaches.** -/
theorem kill_right_iff (hsig : 1 ≤ sig ∧ sig ≤ 32) :
    Right cur sig task pid ↔ KillOk cur sig task pid := by
  rcases Int.lt_trichotomy pid 0 with hneg | rfl | hpos
  · by_cases hall : pid = -1
    · subst hall
      exact kill_all hsig
    · exact kill_negative (by omega)
  · exact kill_group hsig
  · refine iff_of_true (kill_one hsig hpos) ?_
    rw [KillOk, if_neg (by omega), if_pos hpos]
    trivial

/-- Task 5 in the group of task 2, both of one user. -/
def member : Task := ⟨5, 2, 100, 0⟩

def pair : Table := fun n => if n = 1 then some ⟨2, 2, 100, 0⟩ else if n = 2 then some member else none

theorem kill_right_iff_member : Right member 15 pair 2 ↔ KillOk member 15 pair 2 :=
  kill_right_iff (by decide)

set_option maxRecDepth 4000 in
/-- Task 1 does not get a signal to its group, to the caller's group, or to all tasks. -/
theorem kill_misses : ¬ Right member 15 pair (-2) ∧ ¬ Right member 15 pair 0 ∧
    ¬ Right member 15 pair (-1) := by
  have hmiss : ∀ pid, ((sysKill member 15 pair pid).1 1).map Task.signal ≠ some 0x4000 →
      (target member pid ⟨2, 2, 100, 0⟩) = true → ¬ Right member 15 pair pid := by
    intro pid hno htarget h
    have hone := congrArg (Option.map Task.signal) (congrFun h.table 1)
    refine hno (hone.trans ?_)
    have hperm : permitted member ⟨2, 2, 100, 0⟩ = true := rfl
    have hslot : pair 1 = some ⟨2, 2, 100, 0⟩ := rfl
    rw [give, hslot, Option.map_some, htarget, hperm]
    rfl
  exact ⟨hmiss (-2) (by decide) rfl, hmiss 0 (by decide) rfl, hmiss (-1) (by decide) rfl⟩

end LinuxKernel.V011.Kill
