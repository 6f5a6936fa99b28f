import LinuxKernel.V011.Mm.FrameCount

/-!
# LinuxKernel.V011.Mm.Kernel

**Tasks over the memory**: page faults, `fork`, `exit`, user stores, and the
system calls that check an area with `verify_area` and store into it later.

The kernel is not preemptive, so an action is what one task does between two
points where another may run. Such points are the sleep in `do_no_page`
(`Phase.noPage`), the return to user mode after a write-protect fault (the
store that faulted is an action of its own), and every point of a system call
between the check of an area and the stores into it.

* A task with an open area is in a system call, so it neither forks nor stores
  in user mode.
* A store in user mode needs the R/W bit, one in kernel mode does not. Both
  need a present page and mark it dirty when they complete.
* `areas t` is what the system call that `t` is in has verified so far.
* `oom()` runs `do_exit` for the current task.
* The blocks of the executables do not change; they are a parameter.
-/

namespace LinuxKernel.V011.Mm.Kernel

open Memory

/-- Where a task is: in user mode or in a system call, asleep in `do_no_page`
with `page` in its hands for the offset `tmp`, or past the start of `do_exit`. -/
inductive Phase
  | run
  | noPage (page tmp : Nat)
  | exiting
  deriving DecidableEq, Repr

structure State where
  mem : Memory
  task : Nat → Option Task
  phase : Nat → Phase
  areas : Nat → List (Nat × Int)
  iCount : Nat → Nat

/-- `INIT_TASK`: 640 Kb of code and data, no executable. -/
def initTask : Task where
  endData := 0
  executable := none
  codeLimit := 0xA0000
  dataLimit := 0xA0000
  page := 0

/-- The parent of a `fork`: task 0, or a task that is in no other system call. -/
def parent (s : State) (p : Nat) : Option Task :=
  if p = 0 then some initTask
  else if s.phase p = .run ∧ s.areas p = [] then s.task p
  else none

/-- `do_exit`: the code and the data range are freed. -/
def doExit (s : State) (t : Nat) (current : Task) : Outcome State :=
  (s.mem.freePageTables (startCode t) current.codeLimit).bind fun m =>
    (m.freePageTables (startCode t) current.dataLimit).bind fun m =>
      .next { s with
        mem := m
        phase := Function.update s.phase t .exiting
        areas := Function.update s.areas t [] }

/-- `copy_process`, as far as memory goes. Running out of memory is `-EAGAIN`. -/
def copyProcess (s : State) (p nr : Nat) (current : Task) : Outcome State :=
  match s.mem.getFreePage with
  | (none, m) => .next { s with mem := m }
  | (some page, m) =>
      if current.dataLimit < current.codeLimit then .panic "Bad data_limit"
      else (m.copyMem (startCode p) (startCode nr) current.dataLimit).bind fun (ok, m) =>
        if ok then
          .next { s with
            mem := m
            task := Function.update s.task nr (some { current with page := page })
            phase := Function.update s.phase nr .run
            areas := Function.update s.areas nr []
            iCount := match current.executable with
              | some e => Function.update s.iCount e (s.iCount e + 1)
              | none => s.iCount }
        else (m.freePage page).bind fun m => .next { s with mem := m }

/-- A store that completes at a linear address: the word and the dirty bit. -/
def storeWord (m : Memory) (address : Nat) (v : Word) : Memory :=
  let table := pageAddr (m.pgDir (dirNr address))
  let entry := m.mem table (pageNr address)
  (m.setWord (pageAddr entry) (address % 4096 / 4) v).setWord table (pageNr address)
    (markDirty entry)

/-- What the processor finds at a linear address. -/
def lookup (m : Memory) (address : Nat) : Option Word := m.entryAt (slot address)

/-- `address` is inside an area that the current system call has verified. -/
def Verified (s : State) (t address : Nat) : Prop :=
  ∃ a ∈ s.areas t, a.1 ≤ address ∧ (address : Int) < a.1 + a.2

instance (s : State) (t address : Nat) : Decidable (Verified s t address) :=
  inferInstanceAs (Decidable (∃ a ∈ s.areas t, _))

/-- One step. Addresses are offsets in the segment of the task. -/
inductive Act
  | fork (p nr : Nat)
  | exit (t : Nat)
  | zombie (t : Nat)
  | release (t : Nat)
  | fault (t address : Nat)
  | load (t : Nat)
  | wpFault (t address : Nat)
  | userStore (t address : Nat) (v : Word)
  | verifyArea (t addr : Nat) (size : Int)
  | kernelStore (t address : Nat) (v : Word)
  | sysReturn (t : Nat)
  | setCount (executable n : Nat)

/-- The task `t`, when it is the one that runs. -/
def current (s : State) (t : Nat) : Option Task := if s.phase t = .run then s.task t else none

def step (blocks : Nat → Blocks) (s : State) : Act → Outcome State
  | .fork p nr =>
      if p < 64 ∧ 0 < nr ∧ nr < 64 ∧ s.task nr = none then
        match parent s p with
        | some k => copyProcess s p nr k
        | none => .disabled
      else .disabled
  | .exit t =>
      match current s t with
      | some k => doExit s t k
      | none => .disabled
  | .zombie t =>
      match s.task t with
      | some k =>
          if s.phase t = .exiting then
            .next { s with
              task := Function.update s.task t (some { k with executable := none })
              iCount := match k.executable with
                | some e => Function.update s.iCount e (s.iCount e - 1)
                | none => s.iCount }
          else .disabled
      | none => .disabled
  | .release t =>
      match s.task t with
      | some k =>
          if s.phase t = .exiting ∧ k.executable = none then
            (s.mem.freePage k.page).bind fun m =>
              .next { s with
                mem := m, task := Function.update s.task t none
                phase := Function.update s.phase t .run }
          else .disabled
      | none => .disabled
  | .fault t address =>
      match current s t with
      | some k =>
          if address < k.dataLimit ∧ lookup s.mem (startCode t + address) = none then
            (s.mem.doNoPage s.task s.iCount k t (startCode t + address)).bind fun (r, m) =>
              match r with
              | .done => .next { s with mem := m }
              | .oom => doExit { s with mem := m } t k
              | .read page tmp =>
                  .next { s with mem := m, phase := Function.update s.phase t (.noPage page tmp) }
          else .disabled
      | none => .disabled
  | .load t =>
      match s.task t, s.phase t with
      | some k, .noPage page tmp =>
          match k.executable with
          | some e =>
              (s.mem.finishNoPage (blocks e) k.endData page tmp (startCode t + tmp)).bind
                fun (ok, m) =>
                  let s := { s with mem := m, phase := Function.update s.phase t .run }
                  if ok then .next s else doExit s t k
          | none => .disabled
      | _, _ => .disabled
  | .wpFault t address =>
      match current s t, lookup s.mem (startCode t + address) with
      | some k, some e =>
          if s.areas t = [] ∧ address < k.dataLimit ∧ writable e = false then
            match s.mem.doWpPage (startCode t + address) with
            | (true, m) => .next { s with mem := m }
            | (false, m) => doExit { s with mem := m } t k
          else .disabled
      | _, _ => .disabled
  | .userStore t address v =>
      match current s t, lookup s.mem (startCode t + address) with
      | some k, some e =>
          if s.areas t = [] ∧ address < k.dataLimit ∧ writable e = true then
            .next { s with mem := storeWord s.mem (startCode t + address) v }
          else .disabled
      | _, _ => .disabled
  | .verifyArea t addr size =>
      match current s t with
      | some k =>
          if addr < 2 ^ 32 ∧ -2 ^ 31 ≤ size ∧ size < 2 ^ 31 then
            match s.mem.verifyArea (startCode t) addr size with
            | (true, m) =>
                .next { s with
                  mem := m, areas := Function.update s.areas t ((addr, size) :: s.areas t) }
            | (false, m) => doExit { s with mem := m } t k
          else .disabled
      | none => .disabled
  | .kernelStore t address v =>
      match current s t, lookup s.mem (startCode t + address) with
      | some k, some _ =>
          if address < k.dataLimit ∧ Verified s t address then
            .next { s with mem := storeWord s.mem (startCode t + address) v }
          else .disabled
      | _, _ => .disabled
  | .sysReturn t => .next { s with areas := Function.update s.areas t [] }
  | .setCount e n => .next { s with iCount := Function.update s.iCount e n }

/-- The state in which some programs have been started: memory as calls of the
memory functions leave it after start-up, task structures in pages of their
own, and no user page yet. -/
structure Init (s : State) : Prop where
  mem : ∃ startMem endMem deny, FrameCount.Bounds startMem endMem ∧
    Reaches FrameCount.step (fun _ _ => True)
      { Memory.boot startMem endMem with deny := deny } s.mem
  empty : ∀ x ∈ userPages, s.mem.view x = none
  range : ∀ t k, s.task t = some k → 0 < t ∧ t < 64
  limits : ∀ t k, s.task t = some k → k.endData ≤ k.dataLimit ∧ k.codeLimit ≤ k.dataLimit ∧
    k.dataLimit ≤ 2 ^ 26
  held : ∀ t k, s.task t = some k → k.page ∈ s.mem.held
  pages : ∀ t t' k k', s.task t = some k → s.task t' = some k' → k.page = k'.page → t = t'
  endData : ∀ t t' k k', s.task t = some k → s.task t' = some k' →
    k.executable ≠ none → k.executable = k'.executable → k.endData = k'.endData
  phase : ∀ t, s.phase t = .run
  areas : ∀ t, s.areas t = []

end LinuxKernel.V011.Mm.Kernel
