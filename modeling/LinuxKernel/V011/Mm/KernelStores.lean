import LinuxKernel.V011.Mm.KernelStep

/-!
# LinuxKernel.V011.Mm.KernelStores

**Kernel stores and copy on write.** A 386 store in kernel mode ignores the R/W
bit, so a system call that stores into user memory first calls `verify_area`,
which unshares the pages of the area. The store itself comes later, and the
task may have slept in between.

`verify_area` leaves every page of the area private. What can go wrong is in
`StepOk`: a page that was absent when it was checked and is then brought in by
sharing, a clean page that another task starts to share, and a size that
overflows together with the offset in the first page, so that nothing was
checked at all. In every run that stays clear of these, all checked pages stay
private.
-/

namespace LinuxKernel.V011.Mm.Kernel

open Memory

variable {blocks : Nat → Blocks} {s s' : State} {t p nr tmp address : Nat} {k : Task}

/-! ### What is claimed -/

/-- No store of a system call into an area it has verified modifies a page,
at or above `LOW_MEM`, that an entry of another task maps. -/
def StoresSafe (blocks : Nat → Blocks) (s : State) : Prop :=
  ∀ t address v s', step blocks s (.kernelStore t address v) = .next s' →
    ∀ y ∈ taskPages, y.1 / 16 ≠ t → ∀ g, LOW_MEM ≤ g → s.mem.mapsTo y = some g →
      s'.mem.mem g = s.mem.mem g

/-- Some address of the page at `tmp` of task `t` is in an area of its system call. -/
def InArea (s : State) (t tmp : Nat) : Prop :=
  ∃ b, b / 4096 * 4096 = tmp ∧ Verified s t b

/-- When the code keeps it. -/
def StepOk (s : State) : Act → Prop
  | .verifyArea _ addr size => size + (addr % 4096 : Nat) < 2 ^ 31
  | .fault t address => ∀ k p, s.task t = some k → address / 4096 * 4096 < k.endData →
      s.mem.SharesFrom s.task s.iCount k t (address / 4096 * 4096) p →
      ¬ InArea s t (address / 4096 * 4096) ∧ ¬ InArea s p (address / 4096 * 4096)
  | _ => True

/-! ### The invariant -/

/-- Every page of a checked area is private. -/
def AreasPrivate (s : State) : Prop :=
  ∀ t tmp, 0 < t → t < 64 → tmp % 4096 = 0 → tmp < 2 ^ 26 → InArea s t tmp →
    Private s.mem (taskSlot t tmp)

theorem InArea.mono {s₁ s₂ : State} (h : InArea s₁ t tmp)
    (ha : s₁.areas t = s₂.areas t ∨ s₁.areas t = []) : InArea s₂ t tmp := by
  obtain ⟨b, hb, a, hmem, hrest⟩ := h
  rcases ha with ha | ha
  · exact ⟨b, hb, a, ha ▸ hmem, hrest⟩
  · rw [ha] at hmem
    cases hmem

theorem InArea.areas_ne_nil (h : InArea s t tmp) : s.areas t ≠ [] := by
  obtain ⟨-, -, a, hmem, -⟩ := h
  exact List.ne_nil_of_mem hmem

/-- Slots of two tasks are different. -/
theorem taskSlot_ne {t' tmp' : Nat} (ht : t ≠ t') (h : tmp < 2 ^ 26) (h' : tmp' < 2 ^ 26) :
    taskSlot t tmp ≠ taskSlot t' tmp' := by
  intro hEq
  have := congrArg (fun x : Nat × Nat => x.1 / 16) hEq
  rw [taskSlot_div h, taskSlot_div h'] at this
  exact ht this

/-! ### What each kind of action does to privacy -/

theorem AreasPrivate.quiet (h : AreasPrivate s) (hq : Quiet s s') : AreasPrivate s' := by
  intro t tmp ht0 ht ha hlt hin
  exact (h t tmp ht0 ht ha hlt (hin.mono (hq.areas t))).same
    (userPages_subset (taskSlot_mem ht0 ht hlt)) hq.view

theorem AreasPrivate.exited (h : AreasPrivate s) (he : Exited s nr s') : AreasPrivate s' := by
  intro t tmp ht0 ht ha hlt hin
  have hareas : s'.areas t = s.areas t ∨ s'.areas t = [] := by
    rw [he.areas]
    by_cases htn : t = nr
    · simp [htn]
    · exact Or.inl (Function.update_of_ne htn _ _)
  refine (h t tmp ht0 ht ha hlt (hin.mono hareas)).mono (fun y hy g hyg => ?_)
    (userPages_subset (taskSlot_mem ht0 ht hlt))
  rw [← view_frame, he.view y hy] at hyg
  split at hyg
  · cases hyg
  · rwa [view_frame] at hyg

/-- A slot takes a page that nobody maps. -/
theorem AreasPrivate.fresh (h : AreasPrivate s) {x : Nat × Nat} {v : View} (hx : x ∈ taskPages)
    (he : Entered s x (some v) s') (hfresh : ∀ y ∈ taskPages, s.mem.mapsTo y ≠ some v.frame) :
    AreasPrivate s' := by
  intro t tmp ht0 ht ha hlt hin
  exact (h t tmp ht0 ht ha hlt (hin.mono (Or.inl (congrFun he.areas t)))).fresh he.view hx
    (userPages_subset (taskSlot_mem ht0 ht hlt)) hfresh

/-- A slot takes the page of another, and neither is in an area. -/
theorem AreasPrivate.share (h : AreasPrivate s) {x z : Nat × Nat} (hx : x ∈ taskPages)
    (hz : z ∈ taskPages) (he : Entered s x (s.mem.view z) s')
    (hnx : ∀ t tmp, tmp % 4096 = 0 → tmp < 2 ^ 26 → InArea s t tmp → taskSlot t tmp ≠ x)
    (hnz : ∀ t tmp, tmp % 4096 = 0 → tmp < 2 ^ 26 → InArea s t tmp → taskSlot t tmp ≠ z) :
    AreasPrivate s' := by
  intro t tmp ht0 ht ha hlt hin
  have hin : InArea s t tmp := hin.mono (Or.inl (congrFun he.areas t))
  have hmem := userPages_subset (taskSlot_mem ht0 ht hlt)
  have hpriv := h t tmp ht0 ht ha hlt hin
  intro y hy hne g hxg hyg
  rw [he.view.mapsTo_of_ne hmem (hnx t tmp ha hlt hin)] at hxg
  by_cases hyx : y = x
  · rw [hyx, he.view.mapsTo_self hx, view_frame] at hyg
    exact hpriv z hz (hnz t tmp ha hlt hin).symm g hxg hyg
  · rw [he.view.mapsTo_of_ne hy hyx] at hyg
    exact hpriv y hy hne g hxg hyg

/-- A store moves no page. -/
theorem AreasPrivate.stored (h : AreasPrivate s) (hx : taskSlot nr address ∈ taskPages)
    (hst : Stored s nr address s') : AreasPrivate s' := by
  obtain ⟨f, c, he, hf⟩ := hst
  have hmaps : ∀ y ∈ taskPages, s'.mem.mapsTo y = s.mem.mapsTo y := fun y hy => by
    by_cases hyx : y = taskSlot nr address
    · rw [hyx, he.view.mapsTo_self hx, hf]
      rfl
    · exact he.view.mapsTo_of_ne hy hyx
  intro t tmp ht0 ht ha hlt hin
  exact (h t tmp ht0 ht ha hlt (hin.mono (Or.inl (congrFun he.areas t)))).mono
    (fun y hy g hyg => hmaps y hy ▸ hyg) (userPages_subset (taskSlot_mem ht0 ht hlt))

/-- The child of a `fork` maps the pages of its parent, which has no area. -/
theorem AreasPrivate.forked (hI : Inv s) (h : AreasPrivate s) (hf : Forked s p nr k s') :
    AreasPrivate s' := by
  intro t tmp ht0 ht ha hlt hin
  have hmem := userPages_subset (taskSlot_mem ht0 ht hlt)
  have htn : t ≠ nr := by
    rintro rfl
    exact hin.areas_ne_nil (by rw [hf.areas, Function.update_self])
  have hareas : s'.areas t = s.areas t := by
    rw [hf.areas, Function.update_of_ne htn]
  have hin : InArea s t tmp := hin.mono (Or.inl hareas)
  have htp : t ≠ p := by
    rintro rfl
    rcases parent_some hf.parent with ⟨h0, -⟩ | ⟨-, -, -, hnone⟩
    · omega
    · exact hin.areas_ne_nil hnone
  have hpriv := h t tmp ht0 ht ha hlt hin
  obtain ⟨-, -, hdata, hfirst⟩ := parent_limits hI hf.parent
  intro y hy hne g hxg hyg
  rw [← view_frame, hf.view _ hmem, if_neg (fun hc => htn ((taskSlot_div hlt).symm.trans hc.2)),
    view_frame] at hxg
  rw [← view_frame, hf.view y hy] at hyg
  split at hyg
  · next hmine =>
    split at hyg
    · next hsrc =>
      rw [view_frame] at hyg
      have hcount := dirCount_le hdata
      have hlt16 : y.1 % 16 < 16 := Nat.mod_lt _ (by norm_num)
      have hzmem : (16 * p + y.1 % 16, y.2) ∈ taskPages := by
        rcases mem_taskPages.mp hy with hu | ⟨h0, -⟩
        · have hp64 : p < 64 := by
            rcases parent_some hf.parent with ⟨h0, -⟩ | ⟨-, hk, -⟩
            · omega
            · exact (hI.range p k hk).2
          have hent := hsrc.2
          unfold entriesCopied at hent
          rw [mem_taskPages, mem_userPages, mem_userDirs]
          by_cases hp0 : p = 0
          · have hdir := hsrc.1
            rw [hfirst hp0, dirCount_eq (by omega)] at hdir
            rw [if_pos hp0] at hent
            exact Or.inr ⟨by simp only; omega, hent⟩
          · rw [if_neg hp0] at hent
            exact Or.inl ⟨by simp only; omega, hent⟩
        · have := (mem_userDirs.mp (mem_userPages.mp hmine.1).1).1
          omega
      refine hpriv _ hzmem ?_ g hxg hyg
      intro hEq
      have hdiv := congrArg (fun x : Nat × Nat => x.1 / 16) hEq
      rw [taskSlot_div hlt] at hdiv
      simp only at hdiv
      omega
    · cases hyg
  · rw [view_frame] at hyg
    exact hpriv y hy hne g hxg hyg

/-- `verify_area` makes its pages private. -/
theorem AreasPrivate.verified (hI : Inv s) (h : AreasPrivate s) {addr : Nat} {size : Int}
    (hok : size + (addr % 4096 : Nat) < 2 ^ 31)
    (hs : step blocks s (.verifyArea t addr size) = .next s') : AreasPrivate s' := by
  obtain ⟨-, k, ok, m, hk, hsize, hv, hcase⟩ := verifyArea_step hI hs
  obtain ⟨-, -, -, hkeep, hnew⟩ := Memory.verifyArea_spec hI.mem hv
  have hm : AreasPrivate { s with mem := m } := fun t' tmp ht0 ht ha hlt hin =>
    hkeep _ (userPages_subset (taskSlot_mem ht0 ht hlt)) (h t' tmp ht0 ht ha hlt hin)
  cases ok with
  | false => exact hm.exited hcase
  | true =>
      rw [if_pos rfl] at hcase
      subst hcase
      intro t' tmp ht0 ht ha hlt hin
      by_cases htt : t' = t
      swap
      · refine hm t' tmp ht0 ht ha hlt (hin.mono (Or.inl ?_))
        exact Function.update_of_ne htt _ _
      subst htt
      obtain ⟨b, hpage, a, hmem, hlo, hhi⟩ := hin
      simp only [Function.update_self, List.mem_cons] at hmem
      rcases hmem with rfl | hmem
      swap
      · exact hm t' tmp ht0 ht ha hlt ⟨b, hpage, a, hmem, hlo, hhi⟩
      have hblt : b < 2 ^ 26 := by omega
      have hslot : slot (startCode t' + b) = taskSlot t' tmp := by
        rw [← hpage, taskSlot_page b hblt]
        exact slot_task ht hblt
      have hbase : startCode t' % 4096 = 0 := by
        have := startCode_page t' 0
        omega
      have hlt32 : startCode t' + b < 2 ^ 32 := by
        unfold startCode
        omega
      rw [← hslot]
      exact hnew rfl hsize.1 hok b hlo hhi hlt32 hbase
        (by rw [hslot]; exact taskSlot_mem ht0 ht hlt)

/-! ### Runs -/

/-- One action keeps the invariant and the privacy of the checked pages. -/
theorem areasPrivate_step {a : Act} (hI : Inv s) (h : AreasPrivate s) (hok : StepOk s a)
    (hs : step blocks s a = .next s') : Inv s' ∧ AreasPrivate s' := by
  cases a with
  | fork p nr =>
      obtain ⟨hI', hq | ⟨k, hf⟩⟩ := fork_spec hI hs
      · exact ⟨hI', h.quiet hq⟩
      · exact ⟨hI', h.forked hI hf⟩
  | exit t =>
      obtain ⟨hI', he⟩ := exit_spec hI hs
      exact ⟨hI', h.exited he⟩
  | zombie t =>
      obtain ⟨hI', hq⟩ := zombie_spec hI hs
      exact ⟨hI', h.quiet hq⟩
  | release t =>
      obtain ⟨hI', hq⟩ := release_spec hI hs
      exact ⟨hI', h.quiet hq⟩
  | fault t address =>
      obtain ⟨hI', hq | he | ⟨k, hk, hlt, -, hfault⟩⟩ := fault_spec hI hs
      · exact ⟨hI', h.quiet hq⟩
      · exact ⟨hI', h.exited he⟩
      obtain ⟨ht0, ht⟩ := hI.range t k hk
      have htmp : address / 4096 * 4096 < 2 ^ 26 := by omega
      have hmem := userPages_subset (taskSlot_mem ht0 ht htmp)
      refine ⟨hI', ?_⟩
      rcases hfault with ⟨f, -, hfresh, he⟩ | ⟨p, hend, hsrc, he⟩
      · exact h.fresh hmem he hfresh
      · obtain ⟨hnt, hnp⟩ := hok k p hk hend hsrc
        obtain ⟨-, -, -, ⟨hp0, hp, -⟩, -⟩ := hsrc
        refine h.share hmem (userPages_subset (taskSlot_mem hp0 hp htmp)) he ?_ ?_
        · intro t' tmp' ha' hlt' hin hEq
          by_cases htt : t' = t
          · subst htt
            rw [taskSlot_inj hlt' htmp ha' (by omega) hEq] at hin
            exact hnt hin
          · exact taskSlot_ne htt hlt' htmp hEq
        · intro t' tmp' ha' hlt' hin hEq
          by_cases htp : t' = p
          · subst htp
            rw [taskSlot_inj hlt' htmp ha' (by omega) hEq] at hin
            exact hnp hin
          · exact taskSlot_ne htp hlt' htmp hEq
  | load t =>
      obtain ⟨hI', he | ⟨k, e, tmp, f, hk, -, -, hlt, -, hfresh, he⟩⟩ := load_spec hI hs
      · exact ⟨hI', h.exited he⟩
      · obtain ⟨ht0, ht⟩ := hI.range t k hk
        exact ⟨hI', h.fresh (userPages_subset (taskSlot_mem ht0 ht hlt)) he hfresh⟩
  | wpFault t address =>
      obtain ⟨hI', hq | he | ⟨hlt, ⟨k, hk⟩, hu⟩⟩ := wpFault_spec hI hs
      · exact ⟨hI', h.quiet hq⟩
      · exact ⟨hI', h.exited he⟩
      · obtain ⟨ht0, ht⟩ := hI.range t k hk
        obtain ⟨e, -, -, -, f, hfresh, hview⟩ := hu.copy
        exact ⟨hI', h.fresh (userPages_subset (taskSlot_mem ht0 ht hlt))
          ⟨hview, hu.task, hu.areas⟩ hfresh⟩
  | userStore t address v =>
      obtain ⟨hI', hlt, ⟨k, hk⟩, hst⟩ := userStore_spec hI hs
      obtain ⟨ht0, ht⟩ := hI.range t k hk
      exact ⟨hI', h.stored (userPages_subset (taskSlot_mem ht0 ht hlt)) hst⟩
  | verifyArea t addr size => exact ⟨(verifyArea_step hI hs).1, h.verified hI hok hs⟩
  | kernelStore t address v =>
      obtain ⟨k, e, hk, hlim, hver, -⟩ := kernelStore_enabled hs
      obtain ⟨ht0, ht⟩ := hI.range t k hk
      have hlt := hI.limit_lt hk hlim
      have hpriv := h t (address / 4096 * 4096) ht0 ht (by omega) (by omega)
        ⟨address, rfl, hver⟩
      rw [taskSlot_page address hlt] at hpriv
      obtain ⟨hI', -, -, hst, -⟩ := kernelStore_spec hI hs hpriv
      exact ⟨hI', h.stored (userPages_subset (taskSlot_mem ht0 ht hlt)) hst⟩
  | sysReturn t =>
      obtain ⟨hI', hq⟩ := sysReturn_spec hI hs
      exact ⟨hI', h.quiet hq⟩
  | setCount e n =>
      obtain ⟨hI', hq⟩ := setCount_spec hI hs
      exact ⟨hI', h.quiet hq⟩

theorem AreasPrivate.storesSafe (hI : Inv s) (h : AreasPrivate s) : StoresSafe blocks s := by
  intro t address v s' hs y hy hyt g hg hyg
  obtain ⟨k, e, hk, hlim, hver, -⟩ := kernelStore_enabled hs
  obtain ⟨ht0, ht⟩ := hI.range t k hk
  have hlt := hI.limit_lt hk hlim
  have hpriv := h t (address / 4096 * 4096) ht0 ht (by omega) (by omega)
    ⟨address, rfl, hver⟩
  rw [taskSlot_page address hlt] at hpriv
  obtain ⟨-, -, -, -, hrest⟩ := kernelStore_spec hI hs hpriv
  refine hrest g (fun hxg => ?_) fun d hd htab => hI.mem.mapped_no_table hy hyg hd htab rfl
  refine hpriv y hy (fun hEq => hyt ?_) g hxg hyg
  rw [hEq, taskSlot_div hlt]

/-- **Kernel stores respect copy on write** in every run that meets `StepOk`. -/
theorem kernelStores_safe (h₀ : Init s) (hr : Reaches (step blocks) StepOk s s') :
    StoresSafe blocks s' := by
  have hinit : AreasPrivate s := fun t tmp _ _ _ _ hin => absurd (h₀.areas t) hin.areas_ne_nil
  have hrun := hr.invariant (P := fun s => Inv s ∧ AreasPrivate s) ⟨h₀.inv, hinit⟩
    fun _ _ _ hP hok hs => areasPrivate_step hP.1 hP.2 hok hs
  exact hrun.2.storesSafe hrun.1

/-! ### Runs of two tasks -/

/-- Executables made of holes: every page is zero. -/
def holes : Nat → Blocks := fun _ _ => none

/-- Tasks 1 and 2 run executable 0, which has one page of code and one of data. -/
def twoTasks : State where
  mem := (Memory.boot 0x400000 0x1000000).getFreePage.2.getFreePage.2
  task t :=
    if t = 1 then some ⟨0x2000, some 0, 0x1000, 0x400000, 0xfff000⟩
    else if t = 2 then some ⟨0x2000, some 0, 0x1000, 0x400000, 0xffe000⟩
    else none
  phase _ := .run
  areas _ := []
  iCount _ := 2

theorem getFreePage_tableAt (m : Memory) : m.getFreePage.2.tableAt = m.tableAt := by
  cases hg : m.getFreePage with
  | mk r m' =>
    cases r with
    | none => rw [getFreePage_none hg]; rfl
    | some f =>
        obtain ⟨n, -, -, -, rfl⟩ := getFreePage_some hg
        rfl

theorem twoTasks_task {k : Task} (hk : twoTasks.task t = some k) :
    t = 1 ∧ k = ⟨0x2000, some 0, 0x1000, 0x400000, 0xfff000⟩ ∨
      t = 2 ∧ k = ⟨0x2000, some 0, 0x1000, 0x400000, 0xffe000⟩ := by
  simp only [twoTasks] at hk
  split at hk
  · next h1 => exact Or.inl ⟨h1, (Option.some.inj hk).symm⟩
  · split at hk
    · next h2 => exact Or.inr ⟨h2, (Option.some.inj hk).symm⟩
    · cases hk

theorem twoTasks_init : Init twoTasks where
  mem := ⟨0x400000, 0x1000000, [], ⟨by decide, by decide, by decide, by decide⟩,
    (Reaches.refl.tail (a := .getFreePage) trivial rfl).tail (a := .getFreePage) trivial rfl⟩
  empty x hx := by
    have hd := mem_userDirs.mp (mem_userPages.mp hx).1
    refine view_eq_none.mpr (entryAt_of_no_table ?_)
    rw [twoTasks, getFreePage_tableAt, getFreePage_tableAt, FrameCount.boot_tableAt,
      if_neg (by omega)]
  range t k hk := by
    rcases twoTasks_task hk with ⟨rfl, -⟩ | ⟨rfl, -⟩ <;> decide
  limits t k hk := by
    rcases twoTasks_task hk with ⟨-, rfl⟩ | ⟨-, rfl⟩ <;> decide
  held t k hk := by
    rcases twoTasks_task hk with ⟨-, rfl⟩ | ⟨-, rfl⟩ <;> decide
  pages t t' k k' hk hk' := by
    rcases twoTasks_task hk with ⟨rfl, rfl⟩ | ⟨rfl, rfl⟩ <;>
      rcases twoTasks_task hk' with ⟨rfl, rfl⟩ | ⟨rfl, rfl⟩ <;> simp
  endData t t' k k' hk hk' _ _ := by
    rcases twoTasks_task hk with ⟨-, rfl⟩ | ⟨-, rfl⟩ <;>
      rcases twoTasks_task hk' with ⟨-, rfl⟩ | ⟨-, rfl⟩ <;> rfl
  phase _ := rfl
  areas _ := rfl

/-- The page is absent when task 1 checks it; the fault takes it from task 2. -/
def absentRun : List Act :=
  [.fault 2 0x1000, .load 2, .verifyArea 1 0x1000 4, .fault 1 0x1000]

/-- The page is private and clean when task 1 checks it; then task 2 takes it. -/
def takenRun : List Act :=
  [.fault 1 0x1000, .load 1, .verifyArea 1 0x1000 4, .fault 2 0x1000]

/-- The page is shared, and `size += start & 0xfff` is negative. -/
def overflowRun : List Act :=
  [.fault 2 0x1000, .load 2, .fault 1 0x1000, .verifyArea 1 0x1004 0x7fffffff]

/-- The state a run of the two tasks ends in. -/
def after (as : List Act) : State := (run (step holes) twoTasks as).get twoTasks

theorem after_reaches {as : List Act} (h : (run (step holes) twoTasks as).isNext = true) :
    Reaches (step holes) (fun _ _ => True) twoTasks (after as) :=
  Reaches.of_run (Outcome.eq_next h twoTasks) (RunOk.trivial _ _ _)

/-- As long as nothing has been checked every fault is fine. -/
theorem stepOk_fault {address : Nat} (ht : t < 64) (h : ∀ p < 64, s.areas p = []) :
    StepOk s (.fault t address) := by
  rintro k p - - ⟨-, -, -, ⟨-, hp, -⟩, -⟩
  exact ⟨fun hin => hin.areas_ne_nil (h t ht), fun hin => hin.areas_ne_nil (h p hp)⟩

/-- Task 1 shares the page of task 2, and then has it checked. -/
def checkedRun : List Act :=
  [.fault 2 0x1000, .load 2, .fault 1 0x1000, .verifyArea 1 0x1004 4]

theorem checkedRun_ok : RunOk (step holes) StepOk twoTasks checkedRun :=
  .cons (stepOk_fault (by decide) (by decide)) <| .cons trivial <|
    .cons (stepOk_fault (by decide) (by decide)) <| .cons (by simp [StepOk]) trivial

/-- After the check the store is possible, and safe. -/
theorem kernelStores_safe_checkedRun :
    (step holes (after checkedRun) (.kernelStore 1 0x1004 7)).isNext = true ∧
      StoresSafe holes (after checkedRun) :=
  ⟨by decide, kernelStores_safe twoTasks_init
    (Reaches.of_run (Outcome.eq_next (by decide) twoTasks) checkedRun_ok)⟩

/-- A store of task 1 that changes a page of task 2. -/
theorem not_storesSafe_of (v : Word) (address g i : Nat)
    (hnext : (step holes s (.kernelStore 1 address v)).isNext = true)
    (hmaps : s.mem.mapsTo (taskSlot 2 0x1000) = some g) (hg : LOW_MEM ≤ g)
    (hne : ((step holes s (.kernelStore 1 address v)).get s).mem.mem g i ≠ s.mem.mem g i) :
    ¬ StoresSafe holes s := by
  intro h
  refine hne (congrFun (h 1 address v _ (Outcome.eq_next hnext s) (taskSlot 2 0x1000) ?_ ?_ g hg
    hmaps) i)
  · exact userPages_subset (taskSlot_mem (by omega) (by omega) (by omega))
  · decide

/-- All three ways lose. -/
theorem kernelStores_not_safe :
    Init twoTasks ∧ ∀ as ∈ [absentRun, takenRun, overflowRun],
      Reaches (step holes) (fun _ _ => True) twoTasks (after as) ∧ ¬ StoresSafe holes (after as) := by
  refine ⟨twoTasks_init, fun as has => ?_⟩
  simp only [List.mem_cons, List.not_mem_nil, or_false] at has
  rcases has with rfl | rfl | rfl
  · refine ⟨after_reaches (by decide), ?_⟩
    exact not_storesSafe_of 7 0x1000 0xffd000 0
      (by decide) (by decide +kernel) (by decide) (by decide +kernel)
  · refine ⟨after_reaches (by decide), ?_⟩
    exact not_storesSafe_of 7 0x1000 0xffd000 0
      (by decide) (by decide +kernel) (by decide) (by decide +kernel)
  · refine ⟨after_reaches (by decide), ?_⟩
    exact not_storesSafe_of 7 0x1004 0xffd000 1
      (by decide) (by decide +kernel) (by decide) (by decide +kernel)

end LinuxKernel.V011.Mm.Kernel
