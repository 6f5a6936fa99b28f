import LinuxKernel.Lib.Words
import LinuxKernel.V011.Signal

/-!
# LinuxKernel.V011.SigReturn

**The way back from a signal handler** (`do_signal` in `kernel/signal.c`, `lib/restorer.s`).

- `do_signal` puts a frame on the user's stack. The handler returns into the restorer, which
  takes the frame apart and returns to where the signal came in.
- A signal can come between any two instructions, of the handler and of the restorer too. It
  has a handler and a frame of its own, below the stack pointer of that moment.
- A handler may do anything to the registers and to memory, but for the frames that are still
  to be returned through. It may set masks, too. With `SA_NOMASK` the frame has no mask, and a
  mask that such a handler sets stays (`loose` runs).
- `popfl` in user mode does not change the system flags, and nothing else does.
-/

namespace LinuxKernel.V011.SigReturn

open Signal Words
open WaitQueue (sigBit SIGKILL)

/-! ### The data model -/

/-- An entry with `SA_NOMASK` has no mask. -/
def MaskFits (p : Task) : Prop :=
  ∀ i, (p.sigaction i).saFlags &&& SA_NOMASK ≠ 0 → (p.sigaction i).saMask = 0

/-- The user's registers and memory, and the task. -/
structure Context where
  regs : Regs
  mem : Bytes
  task : Task
  fits : MaskFits task

variable {p : Task} {i : Fin 32}

theorem MaskFits.update {sa : SigAction} (h : MaskFits p)
    (hsa : sa.saFlags &&& SA_NOMASK ≠ 0 → sa.saMask = 0) :
    MaskFits { p with sigaction := Function.update p.sigaction i sa } := by
  intro j
  change (Function.update p.sigaction i sa j).saFlags &&& SA_NOMASK ≠ 0 →
    (Function.update p.sigaction i sa j).saMask = 0
  by_cases hj : j = i
  · subst hj
    rw [Function.update_self]
    exact hsa
  · rw [Function.update_of_ne hj]
    exact h j

theorem fits_sysSignal (h : MaskFits p) (signum : Int) (handler restorer : BitVec 32) :
    MaskFits (sysSignal p signum handler restorer).1 := by
  rw [sysSignal]
  split
  · exact h
  · exact h.update fun _ => rfl

theorem fits_sysSigaction (h : MaskFits p) (signum : Int) (action : SigAction) :
    MaskFits (sysSigaction p signum action).1 := by
  rw [sysSigaction]
  split
  · exact h
  · refine h.update fun hflags => ?_
    exact if_pos hflags

theorem fits_enterHandler (h : MaskFits p) (i : Fin 32) (r : Regs) :
    MaskFits (enterHandler p i r).1 := by
  refine h.update (p := { p with blocked := p.blocked ||| (p.sigaction i).saMask })
    fun hflags => ?_
  split at hflags
  · next hshot =>
    rw [if_pos hshot]
    exact h i hflags
  · next hshot =>
    rw [if_neg hshot]
    exact h i hflags

theorem fits_doSignal (h : MaskFits p) (i : Fin 32) (r : Regs) :
    MaskFits (doSignal p i r).1 := by
  rw [doSignal]
  split
  · exact h
  · split
    · split
      · exact h
      · exact h
    · exact fits_enterHandler h i r

/-! ### The kernel -/

namespace Context

variable (c : Context)

def ssetmask (newmask : BitVec 32) : Context :=
  { c with task := sysSsetmask c.task newmask, fits := c.fits }

def signal (signum : Int) (handler restorer : BitVec 32) : Context :=
  { c with
    task := (sysSignal c.task signum handler restorer).1
    fits := fits_sysSignal c.fits signum handler restorer }

def sigaction (signum : Int) (action : SigAction) : Context :=
  { c with
    task := (sysSigaction c.task signum action).1
    fits := fits_sysSigaction c.fits signum action }

/-- Others send signals. -/
def send (bits : BitVec 32) : Context :=
  { c with task := { c.task with signal := c.task.signal ||| bits }, fits := c.fits }

/-- `ret_from_sys_call` of a task other than `task[0]`; what `do_signal` stores goes to the user's
stack. -/
def retFromSysCall : Context :=
  if fromUser c.regs = false then c
  else
    match select c.task.toTaskStruct with
    | none => c
    | some i =>
        let p := { c.task with signal := c.task.signal &&& ~~~(1#32 <<< i.val) }
        let r := doSignal p i c.regs
        ⟨r.2.1, storeWords c.mem r.2.1.esp r.2.2, r.1, fits_doSignal (p := p) c.fits i c.regs⟩

/-- The frame of signal `i + 1` has no mask. -/
def nomask (i : Fin 32) : Bool := (c.task.sigaction i).saFlags &&& SA_NOMASK ≠ 0

def longs (i : Fin 32) : Nat := if c.nomask i then 7 else 8

/-- `ret_from_sys_call` enters the handler of signal `i + 1`. -/
structure Delivers (i : Fin 32) : Prop where
  user : fromUser c.regs = true
  selected : select c.task.toTaskStruct = some i
  handler : (c.task.sigaction i).saHandler ≠ 0 ∧ (c.task.sigaction i).saHandler ≠ 1

/-- `ret_from_sys_call` takes signal `i + 1`, and nothing happens. -/
structure Ignores (i : Fin 32) : Prop where
  user : fromUser c.regs = true
  selected : select c.task.toTaskStruct = some i
  handler : (c.task.sigaction i).saHandler = 1 ∨
    (c.task.sigaction i).saHandler = 0 ∧ i.val + 1 = SIGCHLD

end Context

/-! ### Instructions -/

/-- The flags that `popfl` changes in user mode. -/
def userFlags : BitVec 32 := 0x44dd5

/-- New flags, of which the system flags are the old ones. -/
def mixFlags (new old : BitVec 32) : BitVec 32 := new &&& userFlags ||| old &&& ~~~userFlags

inductive Ins
  /-- `addl $4,%esp`. -/
  | addl
  | popEax
  | popEcx
  | popEdx
  | popfl
  | ret
  /-- `int $0x80` in `ssetmask`, whose argument is at `arg`. -/
  | ssetmask (arg : Addr)

/-- One instruction. Where `eip` and the flags do not matter, they become anything. -/
def exec (ins : Ins) (eip flags : BitVec 32) (c : Context) : Context :=
  let top := readWord c.mem c.regs.esp
  let r := { c.regs with eip := eip, esp := c.regs.esp + 4 }
  match ins with
  | .addl => { c with regs := { r with eflags := mixFlags flags c.regs.eflags } }
  | .popEax => { c with regs := { r with eax := top } }
  | .popEcx => { c with regs := { r with ecx := top } }
  | .popEdx => { c with regs := { r with edx := top } }
  | .popfl => { c with regs := { r with eflags := mixFlags top c.regs.eflags } }
  | .ret => { c with regs := { r with eip := top } }
  | .ssetmask arg =>
      { c.ssetmask (readWord c.mem arg) with
        regs := { c.regs with eip := eip, eax := c.task.blocked } }

/-- What a program does next: code of the user, up to where `esp` is as given, or an instruction.
`left` words of the frame are needed afterwards. -/
inductive Item
  | code (sets : Bool) (esp : Option Addr) (left : Nat)
  | ins (i : Ins) (left : Nat)

def popRegs : List Item :=
  [.ins .popEax 4, .ins .popEcx 3, .ins .popEdx 2, .ins .popfl 1, .ins .ret 0]

/-- The handler, and `sig_restore`, with a frame at `esp`. `loose` is for handlers that set the
mask. -/
def sigRestore (loose : Bool) (esp : Addr) : List Item :=
  .code loose (some esp) 7 :: .ins .ret 6 :: .ins .addl 5 :: popRegs

/-- The handler, and `masksig_restore`, which calls `ssetmask`. -/
def masksigRestore (esp : Addr) : List Item :=
  .code true (some esp) 8 :: .ins .ret 7 :: .ins .addl 6 ::
    .code false none 6 :: .ins (.ssetmask (esp + 8)) 5 :: .code false (some (esp + 8)) 5 ::
    .ins .addl 5 :: popRegs

/-- What runs when the handler of signal `i + 1` has been entered from `c`. -/
def program (loose : Bool) (c : Context) (i : Fin 32) : List Item :=
  if c.nomask i then sigRestore loose (c.regs.esp - 28) else masksigRestore (c.regs.esp - 32)

/-! ### Runs, with signals at any time -/

/-- What must not be written to: `P`, and the last `n` words of the frame below `top`. -/
def Live (P : Addr → Prop) (top : Addr) (n : Nat) (a : Addr) : Prop := P a ∨ Below top (4 * n) a

/-- Code of the user: instructions and system calls. -/
inductive Code (Q : Addr → Prop) (sets : Bool) (c : Context) : Context → Prop
  | run (r : Regs) (m : Bytes) (hcs : r.cs = c.regs.cs) (hss : r.ss = c.regs.ss)
      (hflags : r.eflags &&& ~~~userFlags = c.regs.eflags &&& ~~~userFlags)
      (hm : ∀ a, Q a → m a = c.mem a) : Code Q sets c { c with regs := r, mem := m }
  | signal (signum : Int) (handler restorer : BitVec 32) :
      Code Q sets c (c.signal signum handler restorer)
  | sigaction (signum : Int) (action : SigAction) : Code Q sets c (c.sigaction signum action)
  | ssetmask (newmask : BitVec 32) (h : sets = true) : Code Q sets c (c.ssetmask newmask)

/-- A program runs, and signals are handled in between. -/
inductive Exec (loose : Bool) : (Addr → Prop) → Addr → Nat → List Item → Context → Context → Prop
  | done {P top n c} : Exec loose P top n [] c c
  | code {P top n sets esp left l c c₁ c₂} : Code (Live P top n) sets c c₁ →
      Exec loose P top n (.code sets esp left :: l) c₁ c₂ → Exec loose P top n (.code sets esp left :: l) c c₂
  | leave {P top n sets esp left l c c₂} : (∀ e, esp = some e → c.regs.esp = e) →
      Exec loose P top left l c c₂ → Exec loose P top n (.code sets esp left :: l) c c₂
  | ins {P top n ins left l c c₂} (eip flags : BitVec 32) :
      Exec loose P top left l (exec ins eip flags c) c₂ → Exec loose P top n (.ins ins left :: l) c c₂
  | send {P top n l c c₂} (bits : BitVec 32) :
      Exec loose P top n l (c.send bits) c₂ → Exec loose P top n l c c₂
  | ignored {P top n l c c₂} (i : Fin 32) : c.Ignores i →
      Exec loose P top n l c.retFromSysCall c₂ → Exec loose P top n l c c₂
  /-- A signal is delivered to a handler, which returns. -/
  | handled {P top n l c c₁ c₂} (i : Fin 32) : c.Delivers i →
      (∀ a, Below c.regs.esp (4 * c.longs i) a → ¬ Live P top n a) →
      Exec loose (Live P top n) c.regs.esp (c.longs i) (program loose c i) c.retFromSysCall c₁ →
      Exec loose P top n l c₁ c₂ → Exec loose P top n l c c₂

/-- From `c`, a handler is entered, and `c'` is where it has returned to. Nobody writes to `P`. -/
def Handled (loose : Bool) (P : Addr → Prop) (i : Fin 32) (c c' : Context) : Prop :=
  c.Delivers i ∧ (∀ a, Below c.regs.esp (4 * c.longs i) a → ¬ P a) ∧
    Exec loose P c.regs.esp (c.longs i) (program loose c i) c.retFromSysCall c'

/-! ### What is claimed -/

/-- The mask, up to `SIGKILL`. -/
def Context.mask (c : Context) : BitVec 32 := c.task.blocked &&& ~~~sigBit SIGKILL

/-- `c'` goes on as `c` would have. -/
structure Same (loose : Bool) (Q : Addr → Prop) (c c' : Context) : Prop where
  regs : c'.regs = c.regs
  mask : loose = false → c'.mask = c.mask
  mem : ∀ a, Q a → c'.mem a = c.mem a

/-! ### The same without signals in between -/

variable {P Q : Addr → Prop} {top : Addr} {n left : Nat} {loose sets : Bool} {c c' c₁ c₂ : Context}
  {l : List Item}

theorem Same.refl (loose : Bool) (Q : Addr → Prop) (c : Context) : Same loose Q c c :=
  ⟨rfl, fun _ => rfl, fun _ _ => rfl⟩

theorem Same.trans (h : Same loose Q c c₁) (h' : Same loose Q c₁ c₂) : Same loose Q c c₂ :=
  ⟨h'.regs.trans h.regs, fun hl => (h'.mask hl).trans (h.mask hl),
    fun a ha => (h'.mem a ha).trans (h.mem a ha)⟩

/-- What code of the user leaves alone. -/
structure CodeRun (loose : Bool) (Q : Addr → Prop) (sets : Bool) (c c' : Context) : Prop where
  cs : c'.regs.cs = c.regs.cs
  ss : c'.regs.ss = c.regs.ss
  flags : c'.regs.eflags &&& ~~~userFlags = c.regs.eflags &&& ~~~userFlags
  mask : loose = false → sets = false → c'.mask = c.mask
  mem : ∀ a, Q a → c'.mem a = c.mem a

theorem Same.codeRun (h : Same loose Q c c') (sets : Bool) : CodeRun loose Q sets c c' :=
  ⟨congrArg Regs.cs h.regs, congrArg Regs.ss h.regs, by rw [h.regs], fun hl _ => h.mask hl, h.mem⟩

theorem CodeRun.trans (h : CodeRun loose Q sets c c₁) (h' : CodeRun loose Q sets c₁ c₂) :
    CodeRun loose Q sets c c₂ :=
  ⟨h'.cs.trans h.cs, h'.ss.trans h.ss, h'.flags.trans h.flags,
    fun hl hs => (h'.mask hl hs).trans (h.mask hl hs), fun a ha => (h'.mem a ha).trans (h.mem a ha)⟩

theorem Code.codeRun (h : Code Q sets c c') : CodeRun loose Q sets c c' := by
  cases h with
  | run r m hcs hss hflags hm => exact ⟨hcs, hss, hflags, fun _ _ => rfl, hm⟩
  | signal signum handler restorer =>
      exact ⟨rfl, rfl, rfl, fun _ _ => congrArg (· &&& _) sysSignal_blocked, fun _ _ => rfl⟩
  | sigaction signum action =>
      exact ⟨rfl, rfl, rfl, fun _ _ => congrArg (· &&& _) sysSigaction_blocked, fun _ _ => rfl⟩
  | ssetmask newmask hs => exact ⟨rfl, rfl, rfl, fun _ hno => absurd hs (by rw [hno]; decide),
      fun _ _ => rfl⟩

/-- A program from `c` to `c'`, where a handled signal is nothing. -/
def Uninterrupted (loose : Bool) (P : Addr → Prop) (top : Addr) :
    Nat → List Item → Context → Context → Prop
  | n, [], c, c' => Same loose (Live P top n) c c'
  | n, .code sets esp left :: l, c, c' =>
      ∃ c₁, CodeRun loose (Live P top n) sets c c₁ ∧ (∀ e, esp = some e → c₁.regs.esp = e) ∧
        Uninterrupted loose P top left l c₁ c'
  | n, .ins ins left :: l, c, c' =>
      ∃ c₁ eip flags, Same loose (Live P top n) c c₁ ∧
        Uninterrupted loose P top left l (exec ins eip flags c₁) c'

theorem Uninterrupted.head (hs : Same loose (Live P top n) c c₁) (h : Uninterrupted loose P top n l c₁ c₂) :
    Uninterrupted loose P top n l c c₂ := by
  cases l with
  | nil => exact hs.trans h
  | cons item l =>
      cases item with
      | code sets esp left =>
          obtain ⟨c₃, hcode, hesp, hrest⟩ := h
          exact ⟨c₃, (hs.codeRun sets).trans hcode, hesp, hrest⟩
      | ins ins left =>
          obtain ⟨c₃, eip, flags, hs', hrest⟩ := h
          exact ⟨c₃, eip, flags, hs.trans hs', hrest⟩

/-! ### The frame -/

/-- The word number `k` of the frame below `top`, counted downwards. -/
def slot (top : Addr) (k : Nat) : Addr := top - BitVec.ofNat 32 (4 * (k + 1))

theorem live_slot {k : Nat} (hk : k < n) (hn : n ≤ 8) (j : Fin 4) :
    Live P top n (slot top k + BitVec.ofNat 32 j) := by
  have hj := j.isLt
  have ht := top.isLt
  have h1 : (1 : Addr).toNat = 1 := rfl
  refine Or.inr ?_
  simp only [Below, slot, BitVec.toNat_sub, BitVec.toNat_add, BitVec.toNat_ofNat]
  omega

theorem readWord_slot {k : Nat} (hk : k < n) (hn : n ≤ 8)
    (hm : ∀ a, Live P top n a → c'.mem a = c.mem a) :
    readWord c'.mem (slot top k) = readWord c.mem (slot top k) :=
  readWord_congr fun j => hm _ (live_slot hk hn j)

theorem Live.mono {a : Addr} (ha : Live P top left a) (hle : left ≤ n) : Live P top n a := by
  rcases ha with hP | hbelow
  · exact Or.inl hP
  · exact Or.inr (hbelow.mono (by omega))

theorem mixFlags_self (f : BitVec 32) : mixFlags f f = f := by
  rw [mixFlags]
  ext k hk
  simp only [BitVec.getElem_or, BitVec.getElem_and, BitVec.getElem_not]
  cases f[k] <;> cases userFlags[k] <;> rfl

theorem mixFlags_system (new old : BitVec 32) :
    mixFlags new old &&& ~~~userFlags = old &&& ~~~userFlags := by
  rw [mixFlags]
  ext k hk
  simp only [BitVec.getElem_or, BitVec.getElem_and, BitVec.getElem_not]
  cases new[k] <;> cases old[k] <;> cases userFlags[k] <;> rfl

theorem mixFlags_congr {new old old' : BitVec 32}
    (h : old &&& ~~~userFlags = old' &&& ~~~userFlags) : mixFlags new old = mixFlags new old' := by
  rw [mixFlags, mixFlags, h]

/-- Up to now the frame of `c` is as it was, and so are the rest of memory and the system
registers. -/
structure Kept (P : Addr → Prop) (top : Addr) (n : Nat) (c c' : Context) : Prop where
  cs : c'.regs.cs = c.regs.cs
  ss : c'.regs.ss = c.regs.ss
  flags : c'.regs.eflags &&& ~~~userFlags = c.regs.eflags &&& ~~~userFlags
  mem : ∀ a, Live P top n a → c'.mem a = c.mem a

theorem Kept.refl (P : Addr → Prop) (top : Addr) (n : Nat) (c : Context) : Kept P top n c c :=
  ⟨rfl, rfl, rfl, fun _ _ => rfl⟩

theorem Kept.code (h : Kept P top n c c₁) (h' : CodeRun loose (Live P top n) sets c₁ c₂)
    (hle : left ≤ n) : Kept P top left c c₂ :=
  ⟨h'.cs.trans h.cs, h'.ss.trans h.ss, h'.flags.trans h.flags,
    fun a ha => (h'.mem a (ha.mono hle)).trans (h.mem a (ha.mono hle))⟩

theorem Kept.same (h : Kept P top n c c₁) (h' : Same loose (Live P top n) c₁ c₂) (hle : left ≤ n) :
    Kept P top left c c₂ :=
  h.code (h'.codeRun false) hle

theorem Kept.weaken (h : Kept P top n c c') (hle : left ≤ n) : Kept P top left c c' :=
  h.same (.refl false _ _) hle

theorem exec_mem (ins : Ins) (eip flags : BitVec 32) (c : Context) :
    (exec ins eip flags c).mem = c.mem := by
  cases ins <;> rfl

theorem Kept.exec (h : Kept P top n c c₁) (ins : Ins) (eip flags : BitVec 32) :
    Kept P top n c (exec ins eip flags c₁) := by
  refine ⟨?_, ?_, ?_, fun a ha => (congrFun (exec_mem ins eip flags c₁) a).trans (h.mem a ha)⟩
  · cases ins <;> exact h.cs
  · cases ins <;> exact h.ss
  · cases ins with
    | addl => exact (mixFlags_system _ _).trans h.flags
    | popfl => exact (mixFlags_system _ _).trans h.flags
    | popEax => exact h.flags
    | popEcx => exact h.flags
    | popEdx => exact h.flags
    | ret => exact h.flags
    | ssetmask arg => exact h.flags

/-- `esp` goes up by one word. -/
theorem slot_succ (top : Addr) (k : Nat) : slot top (k + 1) + 4 = slot top k := by
  have ht := top.isLt
  have h4 : (4 : Addr).toNat = 4 := rfl
  refine BitVec.eq_of_toNat_eq ?_
  simp only [slot, BitVec.toNat_sub, BitVec.toNat_add, BitVec.toNat_ofNat]
  omega

theorem slot_zero (top : Addr) : slot top 0 + 4 = top := by
  have ht := top.isLt
  have h4 : (4 : Addr).toNat = 4 := rfl
  refine BitVec.eq_of_toNat_eq ?_
  simp only [slot, BitVec.toNat_sub, BitVec.toNat_add, BitVec.toNat_ofNat]
  omega

theorem Kept.read {k : Nat} (h : Kept P top n c c') (hk : k < n) (hn : n ≤ 8) :
    readWord c'.mem (slot top k) = readWord c.mem (slot top k) :=
  readWord_slot hk hn h.mem

section

variable (eip flags : BitVec 32) (c : Context)

theorem regs_popEax : (exec .popEax eip flags c).regs = { c.regs with
    eip := eip, esp := c.regs.esp + 4, eax := readWord c.mem c.regs.esp } := rfl

theorem regs_popEcx : (exec .popEcx eip flags c).regs = { c.regs with
    eip := eip, esp := c.regs.esp + 4, ecx := readWord c.mem c.regs.esp } := rfl

theorem regs_popEdx : (exec .popEdx eip flags c).regs = { c.regs with
    eip := eip, esp := c.regs.esp + 4, edx := readWord c.mem c.regs.esp } := rfl

theorem regs_popfl : (exec .popfl eip flags c).regs = { c.regs with
    eip := eip, esp := c.regs.esp + 4
    eflags := mixFlags (readWord c.mem c.regs.esp) c.regs.eflags } := rfl

theorem regs_ret : (exec .ret eip flags c).regs = { c.regs with
    eip := readWord c.mem c.regs.esp, esp := c.regs.esp + 4 } := rfl

end

/-- The last five words of the frame are taken back. -/
theorem popRegs_spec {r : Regs} (hk : Kept P top 5 c₁ c)
    (hesp : c.regs.esp = slot top 4) (heax : readWord c₁.mem (slot top 4) = r.eax)
    (hecx : readWord c₁.mem (slot top 3) = r.ecx) (hedx : readWord c₁.mem (slot top 2) = r.edx)
    (hflags : readWord c₁.mem (slot top 1) = r.eflags)
    (heip : readWord c₁.mem (slot top 0) = r.eip)
    (hsys : c₁.regs.eflags &&& ~~~userFlags = r.eflags &&& ~~~userFlags)
    (h : Uninterrupted loose P top 5 popRegs c c') :
    c'.regs = { r with cs := c₁.regs.cs, ss := c₁.regs.ss, esp := top } ∧ (loose = false → c'.mask = c.mask) ∧
      ∀ a, P a → c'.mem a = c₁.mem a := by
  obtain ⟨d₁, e₁, f₁, hs₁, d₂, e₂, f₂, hs₂, d₃, e₃, f₃, hs₃, d₄, e₄, f₄, hs₄, d₅, e₅, f₅, hs₅,
    hs₆⟩ := h
  have hk₁ := hk.same hs₁ (Nat.le_refl 5)
  have hk₂ : Kept P top 4 c₁ d₂ := ((hk₁.exec .popEax e₁ f₁).weaken (by decide)).same hs₂
    (Nat.le_refl 4)
  have hk₃ : Kept P top 3 c₁ d₃ := ((hk₂.exec .popEcx e₂ f₂).weaken (by decide)).same hs₃
    (Nat.le_refl 3)
  have hk₄ : Kept P top 2 c₁ d₄ := ((hk₃.exec .popEdx e₃ f₃).weaken (by decide)).same hs₄
    (Nat.le_refl 2)
  have hk₅ : Kept P top 1 c₁ d₅ := ((hk₄.exec .popfl e₄ f₄).weaken (by decide)).same hs₅
    (Nat.le_refl 1)
  have hk₆ : Kept P top 0 c₁ c' := ((hk₅.exec .ret e₅ f₅).weaken (by decide)).same hs₆
    (Nat.le_refl 0)
  -- the registers after each instruction
  have h₂ : d₂.regs = { c.regs with eip := e₁, esp := slot top 3, eax := r.eax } := by
    rw [hs₂.regs, regs_popEax, hs₁.regs, hesp, slot_succ, hk₁.read (by decide) (by decide), heax]
  have h₃ : d₃.regs = { c.regs with
      eip := e₂, esp := slot top 2, eax := r.eax, ecx := r.ecx } := by
    rw [hs₃.regs, regs_popEcx, h₂]
    dsimp only
    rw [slot_succ, hk₂.read (by decide) (by decide), hecx]
  have h₄ : d₄.regs = { c.regs with
      eip := e₃, esp := slot top 1, eax := r.eax, ecx := r.ecx, edx := r.edx } := by
    rw [hs₄.regs, regs_popEdx, h₃]
    dsimp only
    rw [slot_succ, hk₃.read (by decide) (by decide), hedx]
  have h₅ : d₅.regs = { c.regs with
      eip := e₄, esp := slot top 0, eax := r.eax, ecx := r.ecx, edx := r.edx
      eflags := mixFlags r.eflags c.regs.eflags } := by
    rw [hs₅.regs, regs_popfl, h₄]
    dsimp only
    rw [slot_succ, hk₄.read (by decide) (by decide), hflags]
  have hflags' : mixFlags r.eflags c.regs.eflags = r.eflags := by
    rw [mixFlags_congr (hk.flags.trans hsys), mixFlags_self]
  refine ⟨?_, ?_, fun a ha => hk₆.mem a (Or.inl ha)⟩
  · rw [hs₆.regs, regs_ret, h₅]
    dsimp only
    rw [slot_zero, hk₅.read (by decide) (by decide), heip, hflags', hk.cs, hk.ss]
  · intro hl
    exact (hs₆.mask hl).trans ((hs₅.mask hl).trans ((hs₄.mask hl).trans ((hs₃.mask hl).trans
      ((hs₂.mask hl).trans (hs₁.mask hl)))))

/-! ### Entering a handler -/

/-- The words that `do_signal` stores, from the new `esp` on. -/
def frame (c : Context) (i : Fin 32) : List (BitVec 32) :=
  [(c.task.sigaction i).saRestorer, BitVec.ofNat 32 (i.val + 1)] ++
    (if c.nomask i then [] else [c.task.blocked]) ++
    [c.regs.eax, c.regs.ecx, c.regs.edx, c.regs.eflags, c.regs.eip]

theorem frame_length (c : Context) (i : Fin 32) : (frame c i).length = c.longs i := by
  rw [frame, Context.longs]
  split
  · rfl
  · rfl

theorem longs_le (c : Context) (i : Fin 32) : c.longs i ≤ 8 := by
  rw [Context.longs]
  split
  · decide
  · decide

theorem retFromSysCall_regs (h : c.Delivers i) : c.retFromSysCall.regs = { c.regs with
    eip := (c.task.sigaction i).saHandler
    esp := c.regs.esp - BitVec.ofNat 32 (4 * c.longs i) } := by
  rw [Context.retFromSysCall, if_neg (by rw [h.user]; decide), h.selected]
  dsimp only
  rw [doSignal, if_neg h.handler.2, if_neg h.handler.1, enterHandler, Context.longs,
    Context.nomask]
  dsimp only
  split
  · rfl
  · rfl

theorem retFromSysCall_mem (h : c.Delivers i) : c.retFromSysCall.mem =
    storeWords c.mem (c.regs.esp - BitVec.ofNat 32 (4 * c.longs i)) (frame c i) := by
  have hesp := congrArg Regs.esp (retFromSysCall_regs h)
  rw [Context.retFromSysCall, if_neg (by rw [h.user]; decide), h.selected] at hesp ⊢
  dsimp only at hesp ⊢
  rw [← hesp, doSignal, if_neg h.handler.2, if_neg h.handler.1]
  rfl

theorem retFromSysCall_blocked (h : c.Delivers i) :
    c.retFromSysCall.task.blocked = c.task.blocked ||| (c.task.sigaction i).saMask := by
  rw [Context.retFromSysCall, if_neg (by rw [h.user]; decide), h.selected]
  dsimp only
  unfold doSignal
  rw [if_neg h.handler.2, if_neg h.handler.1]
  rfl

/-- With `SA_NOMASK`, the mask stays. -/
theorem retFromSysCall_mask (h : c.Delivers i) (hno : c.nomask i = true) :
    c.retFromSysCall.mask = c.mask := by
  have hmask : (c.task.sigaction i).saMask = 0#32 := c.fits i (of_decide_eq_true hno)
  rw [Context.mask, retFromSysCall_blocked h, hmask, BitVec.or_zero, Context.mask]

theorem slot_eq (top : Addr) {k len : Nat} (hk : k < len) :
    slot top k = top - BitVec.ofNat 32 (4 * len) + BitVec.ofNat 32 (4 * (len - 1 - k)) := by
  have ht := top.isLt
  refine BitVec.eq_of_toNat_eq ?_
  simp only [slot, BitVec.toNat_sub, BitVec.toNat_add, BitVec.toNat_ofNat]
  omega

theorem readWord_frame {w : BitVec 32} (h : c.Delivers i) {k : Nat} (hk : k < c.longs i)
    (hw : (frame c i)[c.longs i - 1 - k]? = some w) :
    readWord c.retFromSysCall.mem (slot c.regs.esp k) = w := by
  have hle := longs_le c i
  obtain ⟨hlt, rfl⟩ := List.getElem?_eq_some_iff.mp hw
  rw [retFromSysCall_mem h, slot_eq c.regs.esp hk]
  exact readWord_storeWords (by rw [frame_length]; omega) hlt

/-- The kernel writes nothing but the frame. -/
theorem retFromSysCall_outside (h : c.Delivers i) {a : Addr}
    (ha : ¬ Below c.regs.esp (4 * c.longs i) a) : c.retFromSysCall.mem a = c.mem a := by
  have hle := longs_le c i
  rw [retFromSysCall_mem h]
  refine storeWords_of_le (by rw [frame_length]; omega) ?_
  have ht := c.regs.esp.isLt
  have ha' := a.isLt
  have h1 : (1 : Addr).toNat = 1 := rfl
  rw [frame_length]
  simp only [Below, BitVec.toNat_sub, BitVec.toNat_ofNat] at ha ⊢
  omega

/-- The words of the frame that both restorers take back. -/
structure Framed (c c₁ : Context) : Prop where
  eax : readWord c₁.mem (slot c.regs.esp 4) = c.regs.eax
  ecx : readWord c₁.mem (slot c.regs.esp 3) = c.regs.ecx
  edx : readWord c₁.mem (slot c.regs.esp 2) = c.regs.edx
  eflags : readWord c₁.mem (slot c.regs.esp 1) = c.regs.eflags
  eip : readWord c₁.mem (slot c.regs.esp 0) = c.regs.eip

theorem framed (h : c.Delivers i) : Framed c c.retFromSysCall := by
  cases hno : c.nomask i with
  | true =>
      have hlen : c.longs i = 7 := if_pos hno
      constructor <;>
      · refine readWord_frame h (by rw [hlen]; decide) ?_
        rw [hlen, frame, if_pos hno]
        rfl
  | false =>
      have hlen : c.longs i = 8 := if_neg (by rw [hno]; decide)
      constructor <;>
      · refine readWord_frame h (by rw [hlen]; decide) ?_
        rw [hlen, frame, if_neg (by rw [hno]; decide)]
        rfl

theorem framed_mask (h : c.Delivers i) (hno : c.nomask i = false) :
    readWord c.retFromSysCall.mem (slot c.regs.esp 5) = c.task.blocked := by
  have hlen : c.longs i = 8 := if_neg (by rw [hno]; decide)
  refine readWord_frame h (by rw [hlen]; decide) ?_
  rw [hlen, frame, if_neg (by rw [hno]; decide)]
  rfl

/-- The end of both restorers. -/
theorem popRegs_same (h : c.Delivers i) (hk : Kept P c.regs.esp 5 c.retFromSysCall c₁)
    (hesp : c₁.regs.esp = slot c.regs.esp 4) (hmask : loose = false → c₁.mask = c.mask)
    (hout : ∀ a, P a → c.retFromSysCall.mem a = c.mem a)
    (hrun : Uninterrupted loose P c.regs.esp 5 popRegs c₁ c') : Same loose P c c' := by
  have hf := framed h
  have hregs := retFromSysCall_regs h
  obtain ⟨hr, hm, hp⟩ := popRegs_spec hk hesp hf.eax hf.ecx hf.edx hf.eflags hf.eip
    (by rw [hregs]) hrun
  exact ⟨by rw [hr, hregs], fun hl => (hm hl).trans (hmask hl), fun a ha => (hp a ha).trans (hout a ha)⟩

theorem sigRestore_same (h : c.Delivers i) (hno : c.nomask i = true)
    (hout : ∀ a, P a → c.retFromSysCall.mem a = c.mem a)
    (hrun : Uninterrupted loose P c.regs.esp 7 (sigRestore loose (slot c.regs.esp 6)) c.retFromSysCall c') :
    Same loose P c c' := by
  obtain ⟨d₁, hd₁, hesp, d₂, e₂, f₂, hs₂, d₃, e₃, f₃, hs₃, hrest⟩ := hrun
  have hk₁ : Kept P c.regs.esp 7 c.retFromSysCall d₁ := (Kept.refl ..).code hd₁ (Nat.le_refl 7)
  have hk₂ := hk₁.same hs₂ (Nat.le_refl 7)
  have hk₃ : Kept P c.regs.esp 6 c.retFromSysCall d₃ :=
    ((hk₂.exec .ret e₂ f₂).weaken (by decide)).same hs₃ (Nat.le_refl 6)
  have hesp₃ : d₃.regs.esp = slot c.regs.esp 5 := by
    rw [hs₃.regs, regs_ret, hs₂.regs, hesp _ rfl]
    exact slot_succ ..
  refine popRegs_same h ((hk₃.exec .addl e₃ f₃).weaken (by decide)) ?_ ?_ hout hrest
  · change d₃.regs.esp + 4 = _
    rw [hesp₃, slot_succ]
  · intro hl
    exact (hs₃.mask hl).trans ((hs₂.mask hl).trans ((hd₁.mask hl hl).trans
      (retFromSysCall_mask h hno)))

theorem masksigRestore_same (h : c.Delivers i) (hno : c.nomask i = false)
    (hout : ∀ a, P a → c.retFromSysCall.mem a = c.mem a)
    (hrun : Uninterrupted loose P c.regs.esp 8 (masksigRestore (slot c.regs.esp 7)) c.retFromSysCall
      c') : Same loose P c c' := by
  obtain ⟨d₁, hd₁, -, d₂, e₂, f₂, hs₂, d₃, e₃, f₃, hs₃, d₄, hd₄, -, d₅, e₅, f₅, hs₅, d₆, hd₆,
    hesp, d₇, e₇, f₇, hs₇, hrest⟩ := hrun
  have hk₁ : Kept P c.regs.esp 8 c.retFromSysCall d₁ := (Kept.refl ..).code hd₁ (Nat.le_refl 8)
  have hk₂ := hk₁.same hs₂ (Nat.le_refl 8)
  have hk₃ : Kept P c.regs.esp 7 c.retFromSysCall d₃ :=
    ((hk₂.exec .ret e₂ f₂).weaken (by decide)).same hs₃ (Nat.le_refl 7)
  have hk₄ : Kept P c.regs.esp 6 c.retFromSysCall d₄ :=
    ((hk₃.exec .addl e₃ f₃).weaken (by decide)).code hd₄ (Nat.le_refl 6)
  have hk₅ := hk₄.same hs₅ (Nat.le_refl 6)
  have harg : slot c.regs.esp 7 + 8 = slot c.regs.esp 5 := by
    rw [← slot_succ c.regs.esp 5, ← slot_succ c.regs.esp 6, BitVec.add_assoc]
    rfl
  rw [harg] at hd₆ hesp
  have hread : readWord d₅.mem (slot c.regs.esp 5) = c.task.blocked :=
    (hk₅.read (by decide) (by decide)).trans (framed_mask h hno)
  have hk₇ : Kept P c.regs.esp 5 c.retFromSysCall d₇ :=
    (((hk₅.exec (.ssetmask (slot c.regs.esp 5)) e₅ f₅).weaken (by decide)).code hd₆
      (Nat.le_refl 5)).same hs₇ (Nat.le_refl 5)
  refine popRegs_same h (hk₇.exec .addl e₇ f₇) ?_ ?_ hout hrest
  · change d₇.regs.esp + 4 = _
    rw [hs₇.regs, hesp _ rfl, slot_succ]
  · intro hl
    refine (hs₇.mask hl).trans ((hd₆.mask hl rfl).trans ?_)
    change (readWord d₅.mem (slot c.regs.esp 5) &&& ~~~sigBit SIGKILL) &&& _ = _
    rw [hread, BitVec.and_assoc, BitVec.and_self, Context.mask]

theorem program_same (h : c.Delivers i)
    (hout : ∀ a, P a → c.retFromSysCall.mem a = c.mem a)
    (hrun : Uninterrupted loose P c.regs.esp (c.longs i) (program loose c i) c.retFromSysCall c') :
    Same loose P c c' := by
  cases hno : c.nomask i with
  | true =>
      rw [program, if_pos hno, Context.longs, if_pos hno] at hrun
      exact sigRestore_same h hno hout hrun
  | false =>
      have hmasked : ¬ c.nomask i = true := by rw [hno]; decide
      rw [program, if_neg hmasked, Context.longs, if_neg hmasked] at hrun
      exact masksigRestore_same h hno hout hrun

/-! ### Signals in between -/

/-- The task without signal `i + 1`. -/
def Context.taken (c : Context) (i : Fin 32) : Task :=
  { c.task with signal := c.task.signal &&& ~~~(1#32 <<< i.val) }

theorem Context.Ignores.doSignal_eq (h : c.Ignores i) :
    doSignal (c.taken i) i c.regs = (c.taken i, c.regs, []) := by
  have hsa : (c.taken i).sigaction = c.task.sigaction := rfl
  unfold doSignal
  rw [hsa]
  rcases h.handler with hone | ⟨hzero, hchld⟩
  · rw [if_pos hone]
  · rw [if_neg (by rw [hzero]; decide), if_pos hzero, if_pos hchld]

theorem Context.Ignores.same (h : c.Ignores i) (loose : Bool) (Q : Addr → Prop) :
    Same loose Q c c.retFromSysCall := by
  have hsignal := h.doSignal_eq
  rw [Context.retFromSysCall, if_neg (by rw [h.user]; decide), h.selected]
  constructor
  case regs =>
    change (doSignal (c.taken i) i c.regs).2.1 = c.regs
    rw [hsignal]
  case mask =>
    intro _
    change (doSignal (c.taken i) i c.regs).1.blocked &&& _ = _
    rw [hsignal]
    rfl
  case mem =>
    intro a _
    change storeWords c.mem _ (doSignal (c.taken i) i c.regs).2.2 a = c.mem a
    rw [hsignal]
    rfl

theorem outside_of_free (h : c.Delivers i)
    (hfree : ∀ a, Below c.regs.esp (4 * c.longs i) a → ¬ Q a) (a : Addr) (ha : Q a) :
    c.retFromSysCall.mem a = c.mem a :=
  retFromSysCall_outside h fun hbelow => hfree a hbelow ha

/-- By induction on the run: a handler that has returned left what is interrupted as it was. -/
theorem Exec.uninterrupted (h : Exec loose P top n l c c') : Uninterrupted loose P top n l c c' := by
  induction h with
  | done => exact Same.refl ..
  | code hcode _ ih =>
      obtain ⟨d, hd, hesp, hrest⟩ := ih
      exact ⟨d, hcode.codeRun.trans hd, hesp, hrest⟩
  | leave hesp _ ih => exact ⟨_, (Same.refl ..).codeRun _, hesp, ih⟩
  | ins eip flags _ ih => exact ⟨_, eip, flags, Same.refl .., ih⟩
  | send bits _ ih =>
      refine Uninterrupted.head ?_ ih
      exact ⟨rfl, fun _ => rfl, fun _ _ => rfl⟩
  | ignored i hignores _ ih => exact Uninterrupted.head (hignores.same ..) ih
  | handled i hdel hfree _ _ ihHandler ihRest =>
      exact Uninterrupted.head (program_same hdel (outside_of_free hdel hfree) ihHandler) ihRest

/-! ### Runs there are -/

theorem popRegs_exec (loose : Bool) (P : Addr → Prop) (top : Addr) (c : Context) :
    ∃ c', Exec loose P top 5 popRegs c c' ∧ c'.mask = c.mask :=
  ⟨_, .ins 0 0 (.ins 0 0 (.ins 0 0 (.ins 0 0 (.ins 0 0 .done)))), rfl⟩

/-- User code that does nothing but set `esp`. -/
theorem code_esp (Q : Addr → Prop) (sets : Bool) (c : Context) (e : Addr) :
    Code Q sets c { c with regs := { c.regs with esp := e } } :=
  .run _ _ rfl rfl rfl fun _ _ => rfl

theorem sigRestore_exec (loose : Bool) (P : Addr → Prop) (top e : Addr) (c : Context) :
    ∃ c', Exec loose P top 7 (sigRestore loose e) c c' ∧ c'.mask = c.mask := by
  obtain ⟨c', hrun, hmask⟩ := popRegs_exec loose P top
    (exec .addl 0 0 (exec .ret 0 0 { c with regs := { c.regs with esp := e } }))
  refine ⟨c', .code (code_esp _ _ c e) (.leave ?_ (.ins 0 0 (.ins 0 0 hrun))), hmask⟩
  exact fun _ he => Option.some.inj he

theorem masksigRestore_exec (loose : Bool) (P : Addr → Prop) (top e : Addr) (c : Context) :
    ∃ c', Exec loose P top 8 (masksigRestore e) c c' := by
  let c₁ : Context := { c with regs := { c.regs with esp := e } }
  let c₂ := exec (.ssetmask (e + 8)) 0 0 (exec .addl 0 0 (exec .ret 0 0 c₁))
  let c₃ : Context := { c₂ with regs := { c₂.regs with esp := e + 8 } }
  obtain ⟨c', hrun, -⟩ := popRegs_exec loose P top (exec .addl 0 0 c₃)
  refine ⟨c', .code (code_esp _ _ c e) (.leave (fun _ he => Option.some.inj he)
    (.ins 0 0 (.ins 0 0 (.leave ?_ (.ins 0 0 (.code (code_esp _ _ c₂ (e + 8))
      (.leave (fun _ he => Option.some.inj he) (.ins 0 0 hrun))))))))⟩
  exact fun _ he => nomatch he

theorem program_exec (loose : Bool) (P : Addr → Prop) (top : Addr) (c : Context) (i : Fin 32)
    (d : Context) : ∃ c', Exec loose P top (c.longs i) (program loose c i) d c' := by
  rw [Context.longs, program]
  split
  · obtain ⟨c', hrun, -⟩ := sigRestore_exec loose P top (c.regs.esp - 28) d
    exact ⟨c', hrun⟩
  · exact masksigRestore_exec loose P top (c.regs.esp - 32) d

/-- The next frame is below this one. -/
theorem below_frame (h : c.Delivers i) (hn : n ≤ 8) {a : Addr}
    (ha : Below c.retFromSysCall.regs.esp (4 * n) a) : ¬ Below c.regs.esp (4 * c.longs i) a := by
  have hle := longs_le c i
  have ht := c.regs.esp.isLt
  have ha' := a.isLt
  have h1 : (1 : Addr).toNat = 1 := rfl
  rw [retFromSysCall_regs h] at ha
  simp only [Below, BitVec.toNat_sub, BitVec.toNat_ofNat] at ha ⊢
  omega

/-- Signal 1 has a handler with a mask, the others have one with `SA_NOMASK`. -/
def twoHandlers (i : Fin 32) : SigAction :=
  if i = 0 then ⟨0x2000, 1, SA_ONESHOT, 0x4000⟩ else ⟨0x3000, 0, SA_NOMASK, 0x5000⟩

theorem twoHandlers_fits :
    ∀ i, (twoHandlers i).saFlags &&& SA_NOMASK ≠ 0 → (twoHandlers i).saMask = 0 := by
  decide

def pending (signal : BitVec 32) : Context where
  regs := ⟨1, 2, 3, 0x1000, 0x0f, 0x202, 0x3ff0000, 0x17⟩
  mem := fun _ => 0
  task := { state := .running, signal := signal, blocked := 0, alarm := 0, exitCode := 0
            sigaction := twoHandlers }
  fits := twoHandlers_fits

theorem delivers_first : (pending 3).Delivers 0 := ⟨by decide, by decide, by decide⟩

theorem delivers_second : (pending 3).retFromSysCall.Delivers 1 :=
  ⟨by decide, by decide, by decide⟩

theorem delivers_nomask : (pending 2).Delivers 1 := ⟨by decide, by decide, by decide⟩

/-- The second signal comes as soon as the first has its handler. -/
theorem pending_handled : ∃ c', Handled false (fun _ => False) 0 (pending 3) c' := by
  obtain ⟨c₁, hinner⟩ := program_exec false
    (Live (fun _ => False) (pending 3).regs.esp ((pending 3).longs 0))
    (pending 3).retFromSysCall.regs.esp (pending 3).retFromSysCall 1
    (pending 3).retFromSysCall.retFromSysCall
  obtain ⟨c', hrest⟩ := program_exec false (fun _ => False) (pending 3).regs.esp (pending 3) 0 c₁
  refine ⟨c', delivers_first, fun _ _ hno => hno, .handled 1 delivers_second ?_ hinner hrest⟩
  rintro a hbelow (hno | hlive)
  · exact hno
  · exact below_frame delivers_first (longs_le _ 1) hbelow hlive

/-! ### The result -/

/-- **A handler returns to what was interrupted**, with any signals handled in between. Entering
it, the kernel has written to its frame only. The mask is the old one if no handler that has
`SA_NOMASK` sets it. -/
theorem handler_returns (h : Handled loose P i c c') :
    c'.regs = c.regs ∧ (loose = false → c'.mask = c.mask) ∧ (∀ a, P a → c'.mem a = c.mem a) ∧
      ∀ a, ¬ Below c.regs.esp (4 * c.longs i) a → c.retFromSysCall.mem a = c.mem a := by
  obtain ⟨hdel, hfree, hrun⟩ := h
  have hsame := program_same hdel (outside_of_free hdel hfree) hrun.uninterrupted
  exact ⟨hsame.regs, hsame.mask, hsame.mem, fun a => retFromSysCall_outside hdel⟩

theorem handler_returns_nested : ∃ c', Handled false (fun _ => False) 0 (pending 3) c' ∧
    c'.regs = (pending 3).regs ∧ c'.mask = (pending 3).mask := by
  obtain ⟨c', h⟩ := pending_handled
  obtain ⟨hregs, hmask, -, -⟩ := handler_returns h
  exact ⟨c', h, hregs, hmask rfl⟩

/-- A handler with `SA_NOMASK` that sets the mask: it stays as it has been set. -/
theorem mask_not_restored : ¬ ∀ loose P i c c', Handled loose P i c c' →
    c'.regs = c.regs ∧ c'.mask = c.mask := by
  intro hall
  let c := (pending 2).retFromSysCall
  obtain ⟨c', hrun, hmask⟩ := sigRestore_exec true (fun _ => False) (pending 2).regs.esp
    ((pending 2).regs.esp - 28) (c.ssetmask 1)
  have hsame := (hall true (fun _ => False) 1 (pending 2) c'
    ⟨delivers_nomask, fun _ _ hno => hno, .code (.ssetmask 1 rfl) hrun⟩).2
  rw [hmask] at hsame
  revert hsame
  decide

end LinuxKernel.V011.SigReturn
