import LinuxKernel.V011.Mm.CopyFails

/-!
# LinuxKernel.V011.Fork

**`fork`** (`fork.c`): `find_empty_process` and `copy_process`.

- Memory, the task table and the count of inodes are those of `Mm.Kernel`; a task has its pid
  and its files besides. Slot 0 of the task table is task 0.
- `sys_fork` does not sleep, so it is one step. The other steps are those of `Mm.Kernel`, and
  any change of the files and of their counts.
- The scan for a pid starts again as long as it meets one in use. A table of 64 tasks allows
  64 such rounds at most.
-/

namespace LinuxKernel.V011.Fork

open Mm Mm.Memory
open Mm.Kernel (parent Tabled)

/-! ### The data model -/

def NR_TASKS : Nat := 64
abbrev NR_OPEN : Nat := 20
def EAGAIN : Int := 11

/-- The fields of `struct task_struct` that `fork` sets or counts. -/
structure Proc where
  pid : Int
  filp : Fin NR_OPEN → Option Nat
  pwd : Option Nat
  root : Option Nat

structure State where
  kernel : Kernel.State
  proc : Nat → Proc
  fCount : Nat → Nat
  lastPid : Int

/-- There is a task in slot `n`. -/
def taken (s : State) (n : Nat) : Bool := n = 0 || (s.kernel.task n).isSome

/-! ### `find_empty_process` -/

/-- `if ((++last_pid)<0) last_pid=1`. -/
def nextPid (lastPid : Int) : Int :=
  let pid := Int.bmod (lastPid + 1) (2 ^ 32)
  if pid < 0 then 1 else pid

/-- A task has this pid. -/
def inUse (s : State) (pid : Int) : Bool :=
  (List.range NR_TASKS).any fun i => taken s i && (s.proc i).pid = pid

/-- The loop at `repeat`, for some rounds. -/
def findPid (s : State) : Nat → Int → Option Int
  | 0, _ => none
  | n + 1, lastPid =>
      if inUse s (nextPid lastPid) then findPid s n (nextPid lastPid) else some (nextPid lastPid)

/-- The first slot without a task, from slot 1 on. -/
def freeSlot (s : State) : Option Nat :=
  (List.range' 1 (NR_TASKS - 1)).find? fun i => !taken s i

/-! ### `copy_process` -/

/-- `count++`, an unsigned short. -/
def inc (count : Nat → Nat) : Option Nat → Nat → Nat
  | some i => Function.update count i ((count i + 1) % 2 ^ 16)
  | none => count

def setMem (s : State) (m : Memory) : State := { s with kernel := { s.kernel with mem := m } }

/-- `task[nr] = p`. -/
def setTask (s : State) (nr : Nat) (p : Option Task) : State :=
  { s with kernel := { s.kernel with task := Function.update s.kernel.task nr p } }

/-- The counts of what the child has open. -/
def share (s : State) (current : Task) (p : Proc) : State :=
  { s with
    kernel := { s.kernel with
      iCount := inc (inc (inc s.kernel.iCount p.pwd) p.root) current.executable }
    fCount := (List.ofFn p.filp).foldl inc s.fCount }

/-- The child may run. -/
def wake (s : State) (nr : Nat) : State :=
  { s with kernel := { s.kernel with
      phase := Function.update s.kernel.phase nr .run
      areas := Function.update s.kernel.areas nr [] } }

/-- `copy_process` for task `p`, whose fields for memory management are `current`. -/
def copyProcess (s : State) (p nr : Nat) (current : Task) : Outcome (Int × State) :=
  match s.kernel.mem.getFreePage with
  | (none, m) => .next (-EAGAIN, setMem s m)
  | (some page, m) =>
      let child := { s.proc p with pid := s.lastPid }
      let s := setTask (setMem s m) nr (some { current with page := page })
      let s := { s with proc := Function.update s.proc nr child }
      if current.dataLimit < current.codeLimit then .panic "Bad data_limit"
      else (m.copyMem (startCode p) (startCode nr) current.dataLimit).bind fun (ok, m) =>
        if ok then .next (s.lastPid, wake (share (setMem s m) current child) nr)
        else (m.freePage page).bind fun m => .next (-EAGAIN, setMem (setTask s nr none) m)

/-- `sys_fork`. -/
def fork (s : State) (p : Nat) (current : Task) : Outcome (Int × State) :=
  match findPid s (NR_TASKS + 1) s.lastPid with
  | none => .disabled
  | some pid =>
      let s := { s with lastPid := pid }
      match freeSlot s with
      | none => .next (-EAGAIN, s)
      | some nr => copyProcess s p nr current

/-! ### The system -/

inductive Act
  | fork (p : Nat)
  | kernel (a : Kernel.Act)
  /-- `open`, `close`, `chdir` and the like. -/
  | files (t : Nat) (filp : Fin NR_OPEN → Option Nat) (pwd root : Option Nat)
  | fileCount (f n : Nat)

def isFork : Kernel.Act → Bool
  | .fork _ _ => true
  | _ => false

def step (blocks : Nat → Blocks) (s : State) : Act → Outcome State
  | .fork p =>
      if p < NR_TASKS then
        match parent s.kernel p with
        | some current => (fork s p current).bind fun r => .next r.2
        | none => .disabled
      else .disabled
  | .kernel a =>
      if isFork a then .disabled
      else (Kernel.step blocks s.kernel a).bind fun k => .next { s with kernel := k }
  | .files t filp pwd root =>
      .next { s with proc := Function.update s.proc t ⟨(s.proc t).pid, filp, pwd, root⟩ }
  | .fileCount f n => .next { s with fCount := Function.update s.fCount f n }

/-- Some programs have been started, and no page has been used. -/
structure Init (s : State) : Prop where
  kernel : Kernel.Init s.kernel
  tables : ∀ d ∈ userDirs, s.kernel.mem.tableAt d = none
  lastPid : s.lastPid = 0

/-! ### What is claimed -/

/-- Nothing is left of a `fork` that failed. Only write flags of pages may be gone. -/
structure Traceless (s s' : State) : Prop where
  task : s'.kernel.task = s.kernel.task
  proc : ∀ n, taken s n = true → s'.proc n = s.proc n
  fCount : s'.fCount = s.fCount
  iCount : s'.kernel.iCount = s.kernel.iCount
  memMap : ∀ n < PAGING_PAGES, s'.kernel.mem.memMap n = s.kernel.mem.memMap n
  entry : ∀ y : Nat × Nat, y.1 < 1024 → s'.kernel.mem.entryAt y = s.kernel.mem.entryAt y ∨
    s'.kernel.mem.entryAt y = (s.kernel.mem.entryAt y).map writeProtect
  view : ViewSame s.kernel.mem s'.kernel.mem

/-- There is a new task in slot `nr`, with a pid that no task had, and `fork` returns it. -/
structure NewTask (s s' : State) (r : Int) (nr : Nat) : Prop where
  free : taken s nr = false
  new : taken s' nr = true
  pid : (s'.proc nr).pid = r
  pos : 0 < r
  fresh : ∀ n, taken s n = true → (s.proc n).pid ≠ r
  others : ∀ n, taken s n = true → taken s' n = true ∧ s'.proc n = s.proc n

variable {blocks : Nat → Blocks} {s s' : State} {p nr n : Nat} {k : Task} {x : Int} {m : Memory}

/-! ### The pid -/

/-- Pids go round from 1 to 2^31 - 1. -/
theorem nextPid_eq (h₀ : 0 ≤ x) (h : x < 2 ^ 31) : nextPid x = x % (2 ^ 31 - 1) + 1 := by
  rw [nextPid, Int.bmod_def]
  split <;> split <;> omega

theorem nextPid_range (h₀ : 0 ≤ x) (h : x < 2 ^ 31) : 0 < nextPid x ∧ nextPid x < 2 ^ 31 := by
  rw [nextPid_eq h₀ h]
  omega

theorem findPid_some {q : Int} (h₀ : 0 ≤ x) (h : x < 2 ^ 31) (hq : findPid s n x = some q) :
    0 < q ∧ q < 2 ^ 31 ∧ inUse s q = false := by
  induction n generalizing x with
  | zero => cases hq
  | succ n ih =>
      obtain ⟨hpos, hlt⟩ := nextPid_range h₀ h
      rw [findPid] at hq
      split at hq
      · exact ih (Int.le_of_lt hpos) hlt hq
      · next hfree =>
        rw [← Option.some.inj hq]
        exact ⟨hpos, hlt, Bool.eq_false_of_not_eq_true hfree⟩

/-- Without a result, the pids of all rounds are in use. -/
theorem findPid_none (h₀ : 0 ≤ x) (h : x < 2 ^ 31) (hnone : findPid s n x = none) :
    ∀ i < n, inUse s ((x + i) % (2 ^ 31 - 1) + 1) = true := by
  induction n generalizing x with
  | zero => exact fun i hi => absurd hi (Nat.not_lt_zero i)
  | succ n ih =>
      obtain ⟨hpos, hlt⟩ := nextPid_range h₀ h
      rw [findPid] at hnone
      split at hnone
      · next huse =>
        rw [nextPid_eq h₀ h] at huse hnone hpos hlt
        intro i hi
        cases i with
        | zero => simpa using huse
        | succ i =>
            have hrest := ih (Int.le_of_lt hpos) hlt hnone i (Nat.lt_of_succ_lt_succ hi)
            have hround : (x % (2 ^ 31 - 1) + 1 + i) % (2 ^ 31 - 1) =
                (x + (i + 1 : Nat)) % (2 ^ 31 - 1) := by omega
            rwa [hround] at hrest
      · cases hnone

theorem inUse_iff {q : Int} :
    inUse s q = true ↔ ∃ i < NR_TASKS, taken s i = true ∧ (s.proc i).pid = q := by
  simp [inUse]

/-- One of the pids of the rounds is free, since there are more rounds than tasks. -/
theorem findPid_finds (h₀ : 0 ≤ x) (h : x < 2 ^ 31) : ∃ q, findPid s (NR_TASKS + 1) x = some q := by
  refine Option.ne_none_iff_exists'.mp fun hnone => ?_
  have huse := findPid_none h₀ h hnone
  have hsub : (Finset.range (NR_TASKS + 1)).image (fun i : Nat => (x + i) % (2 ^ 31 - 1) + 1) ⊆
      (Finset.range NR_TASKS).image fun i => (s.proc i).pid := by
    intro q hq
    obtain ⟨i, hi, rfl⟩ := Finset.mem_image.mp hq
    obtain ⟨j, hj, -, hpid⟩ := inUse_iff.mp (huse i (Finset.mem_range.mp hi))
    exact Finset.mem_image.mpr ⟨j, Finset.mem_range.mpr hj, hpid⟩
  have hinj : Set.InjOn (fun i : Nat => (x + i) % (2 ^ 31 - 1) + 1)
      (Finset.range (NR_TASKS + 1)) := by
    intro i hi j hj hij
    have hi' := Finset.mem_range.mp (Finset.mem_coe.mp hi)
    have hj' := Finset.mem_range.mp (Finset.mem_coe.mp hj)
    rw [NR_TASKS] at hi' hj'
    dsimp only at hij
    omega
  have hcard := Finset.card_le_card hsub
  rw [Finset.card_image_of_injOn hinj, Finset.card_range] at hcard
  have hle := Finset.card_image_le (s := Finset.range NR_TASKS) (f := fun i => (s.proc i).pid)
  rw [Finset.card_range] at hle
  omega

theorem freeSlot_some (h : freeSlot s = some nr) : 0 < nr ∧ nr < 64 ∧ s.kernel.task nr = none := by
  have hmem := List.mem_of_find?_eq_some h
  have hfree := List.find?_some h
  rw [List.mem_range'_1, NR_TASKS] at hmem
  simp only [taken, Bool.not_eq_true', Bool.or_eq_false_iff, decide_eq_false_iff_not,
    Option.isSome_eq_false_iff, Option.isNone_iff_eq_none] at hfree
  exact ⟨by omega, by omega, hfree.2⟩

/-! ### What `fork` relies on -/

/-- Memory is in order, no segment is larger than a slot, and a free slot has no page tables. -/
structure Ready (s : State) : Prop where
  mem : s.kernel.mem.Inv
  range : ∀ t k, s.kernel.task t = some k → t < NR_TASKS
  limits : ∀ t k, s.kernel.task t = some k → k.codeLimit ≤ k.dataLimit ∧ k.dataLimit ≤ 2 ^ 26
  tables : ∀ d ∈ userDirs, s.kernel.task (d / 16) = none → s.kernel.mem.tableAt d = none
  lastPid : 0 ≤ s.lastPid ∧ s.lastPid < 2 ^ 31

theorem taken_lt (h : Ready s) (hn : taken s n = true) : n < NR_TASKS := by
  rw [taken, Bool.or_eq_true, decide_eq_true_eq, Option.isSome_iff_exists] at hn
  rcases hn with rfl | ⟨k, hk⟩
  · decide
  · exact h.range n k hk

theorem limits_of_parent (h : Ready s) (hp : parent s.kernel p = some k) :
    k.codeLimit ≤ k.dataLimit ∧ k.dataLimit ≤ 2 ^ 26 ∧ (p = 0 → k.dataLimit = 0xA0000) := by
  rcases Kernel.parent_some hp with ⟨-, rfl⟩ | ⟨hp0, hk, -⟩
  · exact ⟨by decide, by decide, fun _ => rfl⟩
  · exact ⟨(h.limits p k hk).1, (h.limits p k hk).2, fun h0 => by omega⟩

/-! ### `copy_process` -/

theorem not_taken (hnr : 0 < nr) (hno : s.kernel.task nr = none) : taken s nr = false := by
  rw [taken, hno]
  simp
  omega

theorem ne_of_taken (hnr : 0 < nr) (hno : s.kernel.task nr = none) (hn : taken s n = true) :
    n ≠ nr := by
  rintro rfl
  rw [not_taken hnr hno] at hn
  cases hn

/-- No page for the task structure. -/
theorem traceless_deny (s : State) (ds : List Bool) :
    Traceless s (setMem s { s.kernel.mem with deny := ds }) where
  task := rfl
  proc _ _ := rfl
  fCount := rfl
  iCount := rfl
  memMap _ _ := rfl
  entry _ _ := Or.inl rfl
  view _ _ := rfl

/-- The range of a free slot has no tables. -/
theorem no_tables (h : Ready s) (hnr : 0 < nr) (hlt : nr < 64) (hno : s.kernel.task nr = none)
    (hcount : k.dataLimit ≤ 2 ^ 26) (hm : m.pgDir = s.kernel.mem.pgDir) :
    ∀ d, 16 * nr ≤ d → d < 16 * nr + dirCount k.dataLimit → present (m.pgDir d) = false := by
  intro d hd hd'
  have hle := dirCount_le hcount
  have htable := h.tables d (mem_userDirs.mpr ⟨by omega, by omega⟩)
    (by rw [show d / 16 = nr by omega]; exact hno)
  rw [hm]
  refine Bool.eq_false_of_not_eq_true fun hpres => ?_
  simp [tableAt, hpres] at htable

/-- Memory ran out in the middle of the copy, and the page of the task structure is free again. -/
theorem memory_of_failed (h : Ready s) (hp : parent s.kernel p = some k) (hp64 : p < 64)
    (hnr : 0 < nr) (hlt : nr < 64) (hno : s.kernel.task nr = none) {page : Nat}
    (hg : s.kernel.mem.getFreePage = (some page, m)) {m₁ m₂ : Memory}
    (hm₁ : m.copyDirs (entriesCopied p) (16 * p) (16 * nr) (dirCount k.dataLimit) =
      .next (false, m₁)) (hinv₁ : m₁.Inv)
    (hm₂ : m₁.freeDirs (16 * nr) (dirCount k.dataLimit) = .next m₂) (hinv₂ : m₂.Inv)
    (hkeep : Keeps m m₂)
    (hview : ∀ y ∈ taskPages, m₂.view y =
      if 16 * nr ≤ y.1 ∧ y.1 < 16 * nr + dirCount k.dataLimit then none else m.view y) :
    ∃ m₃, m₂.freePage page = .next m₃ ∧
      (∀ n < PAGING_PAGES, m₃.memMap n = s.kernel.mem.memMap n) ∧
      (∀ y : Nat × Nat, y.1 < 1024 → m₃.entryAt y = s.kernel.mem.entryAt y ∨
        m₃.entryAt y = (s.kernel.mem.entryAt y).map writeProtect) ∧
      ViewSame s.kernel.mem m₃ := by
  obtain ⟨-, hdata, hfirst⟩ := limits_of_parent h hp
  have hmem := h.mem
  have hfr := getFreePage_fresh hmem hg
  have habsent := no_tables h hnr hlt hno hdata (pgDir_of_getFreePage hg)
  have hheld₂ : m₂.held = page :: s.kernel.mem.held := hkeep.held.trans hfr.held
  obtain ⟨m₃, hm₃, hinv₃, hview₃, hheld₃, hmem₃⟩ :=
    freePage_held hinv₂ (hheld₂ ▸ List.mem_cons_self)
  have htable₃ : m₃.tableAt = m₂.tableAt := by
    funext d
    rw [tableAt, tableAt, pgDir_freePage hm₃]
  have htable : m₃.tableAt = s.kernel.mem.tableAt :=
    htable₃.trans ((tableAt_of_failed hm₁ hm₂ habsent).trans hfr.table)
  have hsame : ViewSame s.kernel.mem m₃ := fun y hy => by
    rw [hview₃ y hy, hview y hy]
    by_cases hin : 16 * nr ≤ y.1 ∧ y.1 < 16 * nr + dirCount k.dataLimit
    · rw [if_pos hin, ← hfr.view hmem hy]
      refine (view_eq_none.mpr (entryAt_of_no_table ?_)).symm
      simp [tableAt, habsent y.1 hin.1 hin.2]
    · rw [if_neg hin, hfr.view hmem hy]
  refine ⟨m₃, hm₃, fun n hn => ?_, fun y hy => ?_, hsame⟩
  · refine memMap_eq hmem hinv₃ ?_ hsame (fun d _ => congrFun htable d) ?_ hn
    · rw [bounds_freePage hm₃, bounds_freeDirs hm₂, bounds_copyDirs hm₁,
        bounds_of_getFreePage hg]
    · rw [hheld₃, hheld₂, List.erase_cons_head]
  · have hentry₃ : m₃.entryAt y = m₂.entryAt y :=
      entryAt_congr_mem (congrFun htable₃ y.1) fun t _ => congrFun hmem₃ t
    rw [hentry₃, ← hfr.entryAt hmem hy]
    exact entryAt_of_failed hfr.inv hp64 hnr hlt hfirst hdata hm₁ hinv₁ hm₂ habsent hy

/-- `copy_process` fails without a trace, or there is a new task. -/
theorem copyProcess_spec (h : Ready s) (hp : parent s.kernel p = some k) (hp64 : p < 64)
    (hnr : 0 < nr) (hlt : nr < 64) (hno : s.kernel.task nr = none) :
    ∃ r s', copyProcess s p nr k = .next (r, s') ∧
      ((r = -EAGAIN ∧ Traceless s s') ∨
        (r = s.lastPid ∧ taken s' nr = true ∧ (s'.proc nr).pid = s.lastPid ∧
          ∀ n, taken s n = true → taken s' n = true ∧ s'.proc n = s.proc n)) := by
  obtain ⟨hcode, hdata, hfirst⟩ := limits_of_parent h hp
  have hne : p ≠ nr := by
    rintro rfl
    rcases Kernel.parent_some hp with ⟨h0, -⟩ | ⟨-, hk, -⟩
    · omega
    · rw [hno] at hk
      cases hk
  rw [copyProcess]
  split
  · next m hg =>
    rw [getFreePage_none hg]
    exact ⟨_, _, rfl, Or.inl ⟨rfl, traceless_deny s _⟩⟩
  next page m hg =>
  have hinv := (getFreePage_fresh h.mem hg).inv
  have habsent := no_tables h hnr hlt hno hdata (pgDir_of_getFreePage hg)
  dsimp only
  rw [if_neg (Nat.not_lt.mpr hcode)]
  rcases copyMem_next hinv hp64 hnr hlt hne hfirst hdata habsent with ⟨m₂, hm⟩ |
    ⟨m₁, m₂, hm₁, hinv₁, hm₂, hm⟩
  · -- the copy is complete
    rw [hm, Outcome.bind_next]
    refine ⟨_, _, rfl, Or.inr ⟨rfl, ?_, ?_, fun n hn => ?_⟩⟩
    · simp [taken, wake, share, setMem, setTask]
    · simp [wake, share, setMem, setTask]
    · have hn' := ne_of_taken hnr hno hn
      refine ⟨?_, ?_⟩
      · rw [taken] at hn ⊢
        simpa [wake, share, setMem, setTask, Function.update_of_ne hn'] using hn
      · simp [wake, share, setMem, setTask, Function.update_of_ne hn']
  · -- memory ran out
    have hspec := copyMem_spec hinv hp64 hnr hlt hne hfirst hdata
    rw [← startCode, ← startCode, hm] at hspec
    obtain ⟨hinv₂, hkeep, hview⟩ := hspec
    obtain ⟨m₃, hm₃, hmap, hentry, hsame⟩ := memory_of_failed h hp hp64 hnr hlt hno hg hm₁ hinv₁
      hm₂ hinv₂ hkeep fun y hy => (hview y hy).trans (by rw [if_neg Bool.false_ne_true])
    rw [hm, Outcome.bind_next]
    dsimp only
    rw [if_neg Bool.false_ne_true, hm₃]
    refine ⟨_, _, rfl, Or.inl ⟨rfl, ?_, fun n hn => ?_, rfl, rfl, hmap, hentry, hsame⟩⟩
    · simp only [setMem, setTask, Function.update_idem]
      rw [← hno, Function.update_eq_self]
    · exact Function.update_of_ne (ne_of_taken hnr hno hn) _ _

/-! ### `fork` -/

/-- **A failed `fork` leaves no trace, a successful one gives a fresh pid.** Either way it
returns. -/
theorem fork_all_or_nothing (h : Ready s) (hp : parent s.kernel p = some k) (hp64 : p < NR_TASKS) :
    ∃ r s', fork s p k = .next (r, s') ∧
      ((r = -EAGAIN ∧ Traceless s s') ∨ ∃ nr, NewTask s s' r nr) := by
  obtain ⟨pid, hpid⟩ := findPid_finds (s := s) h.lastPid.1 h.lastPid.2
  obtain ⟨hpos, hlt, hfree⟩ := findPid_some h.lastPid.1 h.lastPid.2 hpid
  have hready : Ready { s with lastPid := pid } :=
    ⟨h.mem, h.range, h.limits, h.tables, Int.le_of_lt hpos, hlt⟩
  rw [fork, hpid]
  dsimp only
  split
  · exact ⟨_, _, rfl, Or.inl ⟨rfl, rfl, fun _ _ => rfl, rfl, rfl, fun _ _ => rfl,
      fun _ _ => Or.inl rfl, fun _ _ => rfl⟩⟩
  · next nr hslot =>
    obtain ⟨hnr, hnr64, hno⟩ := freeSlot_some hslot
    obtain ⟨r, s', hs, ⟨hr, ht⟩ | ⟨hr, hnew, hpid', hothers⟩⟩ :=
      copyProcess_spec hready hp hp64 hnr hnr64 hno
    · exact ⟨r, s', hs, Or.inl ⟨hr, ht.task, ht.proc, ht.fCount, ht.iCount, ht.memMap, ht.entry,
        ht.view⟩⟩
    · refine ⟨r, s', hs, Or.inr ⟨nr, not_taken hnr hno, hnew, hpid'.trans hr.symm, hr ▸ hpos,
        fun n hn hEq => ?_, hothers⟩⟩
      refine Bool.false_ne_true (hfree.symm.trans (inUse_iff.mpr ⟨n, taken_lt h hn, hn, ?_⟩))
      exact hEq.trans hr

/-! ### All runs -/

structure Sane (s : State) : Prop where
  kernel : Kernel.Inv s.kernel
  tabled : Tabled s.kernel
  lastPid : 0 ≤ s.lastPid ∧ s.lastPid < 2 ^ 31

theorem Sane.ready (h : Sane s) : Ready s where
  mem := h.kernel.mem
  range t k hk := (h.kernel.range t k hk).2
  limits t k hk := (h.kernel.limits t k hk).2
  tables d hd hno := by
    have habsent := h.tabled.free hno hd rfl
    simp [tableAt, habsent]
  lastPid := h.lastPid

theorem Init.sane (h : Init s) : Sane s where
  kernel := h.kernel.inv
  tabled d hd hpres := by
    have hno := h.tables d hd
    simp [tableAt, hpres] at hno
  lastPid := by
    rw [h.lastPid]
    decide

/-- A store of a system call goes to a page of its own task. -/
def Stores (s : State) : Act → Prop
  | .kernel (.kernelStore t address _) => Private s.kernel.mem (taskSlot t address)
  | _ => True

theorem inv_kernel {a : Kernel.Act} {K : Kernel.State} (h : Kernel.Inv s.kernel)
    (hok : Stores s (.kernel a)) (hs : Kernel.step blocks s.kernel a = .next K) :
    Kernel.Inv K := by
  cases a with
  | fork p nr => exact (Kernel.fork_spec h hs).1
  | exit t => exact (Kernel.exit_spec h hs).1
  | zombie t => exact (Kernel.zombie_spec h hs).1
  | release t => exact (Kernel.release_spec h hs).1
  | fault t address => exact (Kernel.fault_spec h hs).1
  | load t => exact (Kernel.load_spec h hs).1
  | wpFault t address => exact (Kernel.wpFault_spec h hs).1
  | userStore t address v => exact (Kernel.userStore_spec h hs).1
  | verifyArea t addr size => exact (Kernel.verifyArea_step h hs).1
  | kernelStore t address v => exact (Kernel.kernelStore_spec h hs hok).1
  | sysReturn t => exact (Kernel.sysReturn_spec h hs).1
  | setCount e n => exact (Kernel.setCount_spec h hs).1

variable (blocks) in
/-- To `Mm.Kernel` a `copy_process` is a `fork`, but for the counts. -/
theorem copyProcess_kernel {r : Int} (hp : parent s.kernel p = some k) (hp64 : p < 64)
    (hnr : 0 < nr) (hlt : nr < 64) (hno : s.kernel.task nr = none)
    (hs : copyProcess s p nr k = .next (r, s')) : s'.lastPid = s.lastPid ∧
      ∃ K, Kernel.step blocks s.kernel (.fork p nr) = .next K ∧
        s'.kernel = { K with iCount := s'.kernel.iCount } := by
  rw [Kernel.step, if_pos ⟨hp64, hnr, hlt, hno⟩, hp]
  change _ ∧ ∃ K, Kernel.copyProcess s.kernel p nr k = .next K ∧ _
  rw [copyProcess] at hs
  rw [Kernel.copyProcess]
  generalize s.kernel.mem.getFreePage = q at hs ⊢
  obtain ⟨page, m⟩ := q
  cases page with
  | none =>
      obtain ⟨-, rfl⟩ := Prod.mk.inj (Outcome.next.inj hs)
      exact ⟨rfl, _, rfl, rfl⟩
  | some page =>
      dsimp only at hs ⊢
      split at hs
      · cases hs
      · next hcode =>
        rw [if_neg hcode]
        obtain ⟨⟨ok, m₂⟩, hm, hs⟩ := Outcome.bind_eq_next hs
        rw [hm, Outcome.bind_next]
        cases ok with
        | true =>
            obtain ⟨-, rfl⟩ := Prod.mk.inj (Outcome.next.inj hs)
            exact ⟨rfl, _, rfl, rfl⟩
        | false =>
            obtain ⟨m₃, hm₃, hs⟩ := Outcome.bind_eq_next hs
            obtain ⟨-, rfl⟩ := Prod.mk.inj (Outcome.next.inj hs)
            dsimp only
            rw [if_neg Bool.false_ne_true, hm₃]
            refine ⟨rfl, _, rfl, ?_⟩
            simp only [setMem, setTask, Function.update_idem]
            rw [← hno, Function.update_eq_self]

/-- The counts are not part of the invariant. -/
theorem Sane.setCounts {K : Kernel.State} (h : Kernel.Inv K) (ht : Tabled K)
    (hK : s.kernel = { K with iCount := s.kernel.iCount })
    (hpid : 0 ≤ s.lastPid ∧ s.lastPid < 2 ^ 31) : Sane s := by
  refine ⟨?_, ?_, hpid⟩
  · rw [hK]
    exact ⟨h.mem, h.range, h.limits, h.endData, h.owned, h.distinct, h.asleep, h.empty, h.areas⟩
  · rw [hK]
    exact ht

theorem Sane.fork (h : Sane s) (hp : parent s.kernel p = some k) (hp64 : p < NR_TASKS) {r : Int}
    (hs : fork s p k = .next (r, s')) : Sane s' := by
  obtain ⟨pid, hpid⟩ := findPid_finds (s := s) h.lastPid.1 h.lastPid.2
  obtain ⟨hpos, hlt, -⟩ := findPid_some h.lastPid.1 h.lastPid.2 hpid
  rw [Fork.fork, hpid] at hs
  dsimp only at hs
  split at hs
  · obtain ⟨-, rfl⟩ := Prod.mk.inj (Outcome.next.inj hs)
    exact ⟨h.kernel, h.tabled, Int.le_of_lt hpos, hlt⟩
  · next nr hslot =>
    obtain ⟨hnr, hnr64, hno⟩ := freeSlot_some hslot
    obtain ⟨hlast, K, hK, hkernel⟩ :=
      copyProcess_kernel (s := { s with lastPid := pid }) Kernel.holes hp hp64 hnr
        hnr64 hno hs
    refine .setCounts (Kernel.fork_spec h.kernel hK).1 (h.tabled.fork h.kernel hK) hkernel ?_
    rw [hlast]
    exact ⟨Int.le_of_lt hpos, hlt⟩

theorem Sane.step {a : Act} (h : Sane s) (hok : Stores s a) (hs : step blocks s a = .next s') :
    Sane s' := by
  cases a with
  | fork p =>
      rw [Fork.step] at hs
      split at hs
      · next hp64 =>
        split at hs
        · next k hp =>
          obtain ⟨⟨r, t⟩, hf, hs⟩ := Outcome.bind_eq_next hs
          obtain rfl := Outcome.next.inj hs
          exact h.fork hp hp64 hf
        · cases hs
      · cases hs
  | kernel a =>
      rw [Fork.step] at hs
      split at hs
      · cases hs
      · obtain ⟨K, hK, hs⟩ := Outcome.bind_eq_next hs
        obtain rfl := Outcome.next.inj hs
        exact ⟨inv_kernel h.kernel hok hK, h.tabled.step h.kernel hK, h.lastPid⟩
  | files t filp pwd root => exact Outcome.next.inj hs ▸ ⟨h.kernel, h.tabled, h.lastPid⟩
  | fileCount f n => exact Outcome.next.inj hs ▸ ⟨h.kernel, h.tabled, h.lastPid⟩

/-- In every state that a run comes to, `fork` finds what it relies on. -/
theorem ready_reaches (h₀ : Init s) (hr : Reaches (step blocks) Stores s s') : Ready s' :=
  (hr.invariant h₀.sane fun _ _ _ hP hok hs => hP.step hok hs).ready

/-! ### Memory that runs out -/

/-- Tasks 1 and 2, and memory for five pages more. -/
def started : State where
  kernel := { Kernel.twoTasks with
    mem := ({ Memory.boot 0x400000 0x1000000 with
      deny := [false, false, false, false, false, true] } : Memory).getFreePage.2.getFreePage.2 }
  proc n := ⟨n, fun _ => none, none, none⟩
  fCount _ := 0
  lastPid := 0

theorem started_init : Init started where
  kernel :=
    { mem := ⟨0x400000, 0x1000000, _, ⟨by decide, by decide, by decide, by decide⟩,
        (Reaches.refl.tail (a := .getFreePage) trivial rfl).tail (a := .getFreePage) trivial rfl⟩
      empty := fun x hx => by
        have hd := mem_userDirs.mp (mem_userPages.mp hx).1
        refine view_eq_none.mpr (entryAt_of_no_table ?_)
        rw [started, Kernel.getFreePage_tableAt, Kernel.getFreePage_tableAt]
        exact (FrameCount.boot_tableAt 0x400000 0x1000000 x.1).trans (if_neg (by omega))
      range := Kernel.twoTasks_init.range
      limits := Kernel.twoTasks_init.limits
      held := fun t k hk => by
        rcases Kernel.twoTasks_task hk with ⟨-, rfl⟩ | ⟨-, rfl⟩ <;> decide
      pages := Kernel.twoTasks_init.pages
      endData := Kernel.twoTasks_init.endData
      phase := fun _ => rfl
      areas := fun _ => rfl }
  tables d hd := by
    have hd := mem_userDirs.mp hd
    rw [started, Kernel.getFreePage_tableAt, Kernel.getFreePage_tableAt]
    exact (FrameCount.boot_tableAt 0x400000 0x1000000 d).trans (if_neg (by omega))
  lastPid := rfl

/-- Task 1 has a page, in a table of its own. -/
def faulted : State :=
  (step Kernel.holes started (.kernel (.fault 1 0x2000))).get started

def first : Task := ⟨0x2000, some 0, 0x1000, 0x400000, 0xfff000⟩

/-- The page table of the child is the sixth page: `copy_page_tables` fails. -/
theorem fork_all_or_nothing_faulted :
    (∃ r s', fork faulted 1 first = .next (r, s') ∧
      ((r = -EAGAIN ∧ Traceless faulted s') ∨ ∃ nr, NewTask faulted s' r nr)) ∧
    ((fork faulted 1 first).get (0, faulted)).1 = -EAGAIN ∧
    ((fork started 1 first).get (0, started)).1 = 3 := by
  have hready : Ready faulted :=
    ready_reaches started_init (.tail .refl (a := .kernel (.fault 1 0x2000)) trivial
      (Outcome.eq_next (by decide) started))
  exact ⟨fork_all_or_nothing hready rfl (by decide), by decide, by decide +kernel⟩

end LinuxKernel.V011.Fork
