import LinuxKernel.V011.Mm.KernelStores

/-!
# LinuxKernel.V011.Mm.FileContents

**Only file contents are shared.** `try_to_share` hands out any page of another
task with the same executable whose dirty bit is clear. That is safe as long as
a clean page below `end_data` holds what the executable has there.

The processor sets the dirty bit with every store, so a page can only become
different from the file while its entry is dirty. `un_wp_page` is the one place
that loses the bit: the copy of a page is entered as `new_page | 7`, clean,
whatever the entry was before. Between that and the store that is retried (or,
after `write_verify`, a store that may never come) private data are clean.
`CopyOk` says that no dirty page with contents of its own is copied.
-/

namespace LinuxKernel.V011.Mm.Kernel

open Memory

variable {blocks : Nat → Blocks} {s s' : State} {t p nr tmp address : Nat} {k : Task}

/-! ### What is claimed -/

/-- Every present, clean entry below `end_data` of a task with an executable
refers to a page that equals the corresponding page of the executable. -/
def FileContents (blocks : Nat → Blocks) (s : State) : Prop :=
  ∀ t k e tmp w, s.task t = some k → k.executable = some e → tmp % 4096 = 0 → tmp < k.endData →
    s.mem.entryAt (taskSlot t tmp) = some w → dirty w = false →
    ∀ i < 1024, s.mem.mem (pageAddr w) i = filePage (blocks e) k.endData tmp i

/-- The copying branch of `un_wp_page` on slot `x` does not meet a dirty page
below `end_data` that differs from the executable. -/
def CopyClean (blocks : Nat → Blocks) (s : State) (m : Memory) (x : Nat × Nat) : Prop :=
  ∀ t k e tmp w, s.task t = some k → k.executable = some e → tmp % 4096 = 0 → tmp < k.endData →
    x = taskSlot t tmp → m.entryAt x = some w → writable w = false → dirty w = true →
    m.Copies (pageAddr w) → ∀ i < 1024, m.mem (pageAddr w) i = filePage (blocks e) k.endData tmp i

/-- The same for every page that the loop of `verify_area` passes. -/
def VerifyClean (blocks : Nat → Blocks) (s : State) (m : Memory) (start : Nat) : Nat → Prop
  | 0 => True
  | n + 1 => CopyClean blocks s m (slot start) ∧ ∀ m', m.writeVerify start = (true, m') →
      VerifyClean blocks s m' ((start + 4096) % 2 ^ 32) n

/-- When the code keeps it. A store in kernel mode is one to a page that no
other task maps. -/
def CopyOk (blocks : Nat → Blocks) (s : State) : Act → Prop
  | .wpFault t address => CopyClean blocks s s.mem (taskSlot t address)
  | .verifyArea t addr size =>
      VerifyClean blocks s s.mem ((addr / 4096 * 4096 + startCode t) % 2 ^ 32)
        (((Int.bmod (size + (addr % 4096 : Nat)) (2 ^ 32)).toNat + 4095) / 4096)
  | .kernelStore t address _ => Private s.mem (taskSlot t address)
  | _ => True

/-! ### The invariant, over the view of user space -/

/-- `FileContents` for the tasks of `s` over a memory `m`. -/
def CleanPages (blocks : Nat → Blocks) (task : Nat → Option Task) (m : Memory) : Prop :=
  ∀ t k e tmp v, task t = some k → k.executable = some e → tmp % 4096 = 0 → tmp < k.endData →
    m.view (taskSlot t tmp) = some v → v.dirty = false →
    ∀ i < 1024, v.data i = filePage (blocks e) k.endData tmp i

theorem CleanPages.fileContents (h : CleanPages blocks s.task s.mem) : FileContents blocks s := by
  intro t k e tmp w hk hexe ha hlt hw hd
  exact h t k e tmp ⟨pageAddr w, dirty w, s.mem.mem (pageAddr w)⟩ hk hexe ha hlt
    (by rw [Memory.view, hw, Option.map_some]) hd

/-- The slot of a page below `end_data`. -/
theorem Inv.slot_lt (h : Inv s) (hk : s.task t = some k) (hlt : tmp < k.endData) :
    0 < t ∧ t < 64 ∧ tmp < 2 ^ 26 := by
  obtain ⟨h1, -, h3⟩ := h.limits t k hk
  exact ⟨(h.range t k hk).1, (h.range t k hk).2, by omega⟩

theorem Inv.slot_mem (h : Inv s) (hk : s.task t = some k) (hlt : tmp < k.endData) :
    taskSlot t tmp ∈ taskPages := by
  obtain ⟨h1, h2, h3⟩ := h.slot_lt hk hlt
  exact userPages_subset (taskSlot_mem h1 h2 h3)

theorem CleanPages.quiet (hI : Inv s') (h : CleanPages blocks s.task s.mem) (hq : Quiet s s') :
    CleanPages blocks s'.task s'.mem := by
  intro t k e tmp v hk hexe ha hlt hv
  rw [hq.view _ (hI.slot_mem hk hlt)] at hv
  rcases hq.task t with ht | ht
  · exact h t k e tmp v (ht ▸ hk) hexe ha hlt hv
  · rw [ht k hk] at hexe
    cases hexe

theorem CleanPages.exited {m : Memory} (hI : Inv s')
    (h : CleanPages blocks s.task m) (he : Exited { s with mem := m } nr s') :
    CleanPages blocks s'.task s'.mem := by
  intro t k e tmp v hk hexe ha hlt hv
  rw [he.view _ (hI.slot_mem hk hlt)] at hv
  split at hv
  · cases hv
  · exact h t k e tmp v (he.task ▸ hk) hexe ha hlt hv

/-- A slot takes new contents, which are those of the file if it is clean and
below `end_data`. -/
theorem CleanPages.set (hI : Inv s) {m m' : Memory} (h : CleanPages blocks s.task m)
    {x : Nat × Nat} {v' : Option View} (hset : ViewSet m m' x v')
    (hnew : ∀ t k e tmp v, s.task t = some k → k.executable = some e → tmp % 4096 = 0 →
      tmp < k.endData → x = taskSlot t tmp → v' = some v → v.dirty = false →
      ∀ i < 1024, v.data i = filePage (blocks e) k.endData tmp i) :
    CleanPages blocks s.task m' := by
  intro t k e tmp v hk hexe ha hlt hv
  by_cases hx : taskSlot t tmp = x
  · rw [← hx] at hset
    rw [hset.self (hI.slot_mem hk hlt)] at hv
    exact hnew t k e tmp v hk hexe ha hlt hx.symm hv
  · rw [hset.of_ne (hI.slot_mem hk hlt) hx] at hv
    exact h t k e tmp v hk hexe ha hlt hv

/-- Two pages of tasks in one slot are the same page. -/
theorem taskSlot_eq {t' tmp' : Nat} (h : tmp < 2 ^ 26) (h' : tmp' < 2 ^ 26) (ha : tmp % 4096 = 0)
    (ha' : tmp' % 4096 = 0) (heq : taskSlot t tmp = taskSlot t' tmp') : t = t' ∧ tmp = tmp' := by
  by_cases htt : t = t'
  · subst htt
    exact ⟨rfl, taskSlot_inj h h' ha ha' heq⟩
  · exact absurd heq (taskSlot_ne htt h h')

/-- A copy of a clean page is clean by right. -/
theorem CleanPages.copied (hI : Inv s) {m m' : Memory} (h : CleanPages blocks s.task m)
    {x : Nat × Nat} {w : Word} (hw : m.entryAt x = some w) (hwp : writable w = false)
    (hcopies : m.Copies (pageAddr w)) (hcopy : Copied m m' x w)
    (hok : CopyClean blocks s m x) : CleanPages blocks s.task m' := by
  obtain ⟨f, -, hset⟩ := hcopy
  refine h.set hI hset ?_
  rintro t k e tmp v hk hexe ha hlt rfl hv -
  cases hv
  by_cases hd : dirty w = true
  · exact hok t k e tmp w hk hexe ha hlt rfl hw hwp hd hcopies
  · exact h t k e tmp ⟨pageAddr w, dirty w, m.mem (pageAddr w)⟩ hk hexe ha hlt
      (by rw [Memory.view, hw, Option.map_some]) (by simpa using hd)

/-- The loop of `verify_area`. -/
theorem CleanPages.verifyPages {n start : Nat} (hI : Inv s) {m m' : Memory} (hm : m.Inv)
    (h : CleanPages blocks s.task m) (hok : VerifyClean blocks s m start n) {ok : Bool}
    (hp : m.verifyPages start n = (ok, m')) : CleanPages blocks s.task m' := by
  induction n generalizing m start with
  | zero =>
      cases hp
      exact h
  | succ n ih =>
      unfold Memory.verifyPages at hp
      cases hw : m.writeVerify start with
      | mk ok₁ m₁ =>
        rw [hw] at hp
        obtain ⟨hinv₁, -, -, hcases⟩ := writeVerify_spec hm hw
        have h₁ : CleanPages blocks s.task m₁ := by
          rcases hcases with hsame | ⟨-, -, w, he, hwp, hcopies, hcopy⟩
          · intro t k e tmp v hk hexe ha hlt hv
            rw [hsame _ (hI.slot_mem hk hlt)] at hv
            exact h t k e tmp v hk hexe ha hlt hv
          · exact h.copied hI he hwp hcopies hcopy hok.1
        cases ok₁ with
        | true => exact ih hinv₁ h₁ (hok.2 m₁ hw) hp
        | false =>
            cases hp
            exact h₁

/-- The child of a `fork` looks like its parent. -/
theorem CleanPages.forked (hI' : Inv s') (h : CleanPages blocks s.task s.mem)
    (hf : Forked s p nr k s') : CleanPages blocks s'.task s'.mem := by
  intro t k' e tmp v hk' hexe ha hlt hv
  obtain ⟨-, -, hlt26⟩ := hI'.slot_lt hk' hlt
  obtain ⟨page, htask⟩ := hf.task
  rw [hf.view _ (hI'.slot_mem hk' hlt)] at hv
  rw [taskSlot_div hlt26] at hv
  by_cases htn : t = nr
  · subst htn
    rw [htask, Function.update_self] at hk'
    cases hk'
    have hmem := taskSlot_mem hf.range.1 hf.range.2 hlt26
    rw [if_pos ⟨hmem, rfl⟩] at hv
    split at hv
    · rw [taskSlot_mod hlt26] at hv
      rcases parent_some hf.parent with ⟨-, rfl⟩ | ⟨-, hk, -⟩
      · cases hexe
      · refine h p k e tmp v hk hexe ha hlt ?_
        rw [taskSlot, Nat.add_comm]
        exact hv
    · cases hv
  · rw [htask, Function.update_of_ne htn] at hk'
    rw [if_neg (fun hc => htn hc.2)] at hv
    exact h t k' e tmp v hk' hexe ha hlt hv

/-! ### Runs -/

/-- One action keeps clean pages equal to the file. -/
theorem cleanPages_step {a : Act} (hI : Inv s) (h : CleanPages blocks s.task s.mem)
    (hok : CopyOk blocks s a) (hs : step blocks s a = .next s') :
    Inv s' ∧ CleanPages blocks s'.task s'.mem := by
  cases a with
  | fork p nr =>
      obtain ⟨hI', hq | ⟨k, hf⟩⟩ := fork_spec hI hs
      · exact ⟨hI', h.quiet hI' hq⟩
      · exact ⟨hI', h.forked hI' hf⟩
  | exit t =>
      obtain ⟨hI', he⟩ := exit_spec hI hs
      exact ⟨hI', h.exited hI' he⟩
  | zombie t =>
      obtain ⟨hI', hq⟩ := zombie_spec hI hs
      exact ⟨hI', h.quiet hI' hq⟩
  | release t =>
      obtain ⟨hI', hq⟩ := release_spec hI hs
      exact ⟨hI', h.quiet hI' hq⟩
  | fault t address =>
      obtain ⟨hI', hq | he | ⟨k, hk, hlt, -, hfault⟩⟩ := fault_spec hI hs
      · exact ⟨hI', h.quiet hI' hq⟩
      · exact ⟨hI', h.exited hI' he⟩
      refine ⟨hI', ?_⟩
      have htmp : address / 4096 * 4096 < 2 ^ 26 := by omega
      have ha0 : address / 4096 * 4096 % 4096 = 0 := by omega
      rcases hfault with ⟨f, hcase, -, he⟩ | ⟨p, hend, hsrc, he⟩
      · rw [he.task]
        refine h.set hI he.view fun t' k' e tmp v hk' hexe ha hlt' hx _ _ => ?_
        obtain ⟨rfl, rfl⟩ := taskSlot_eq htmp (hI.slot_lt hk' hlt').2.2 ha0 ha hx
        rw [hk] at hk'
        cases hk'
        -- a zeroed page is entered only without a file behind it
        rcases hcase with hnone | hge
        · rw [hnone] at hexe
          cases hexe
        · omega
      · rw [he.task]
        obtain ⟨e₀, hexe₀, -, ⟨-, -, -, ⟨kp, hkp, hexep⟩, -⟩, -⟩ := hsrc
        have hsame : k.endData = kp.endData :=
          hI.endData t p k kp hk hkp (by simp [hexe₀]) (by rw [hexe₀, hexep])
        refine h.set hI he.view fun t' k' e tmp v hk' hexe ha hlt' hx hv hd => ?_
        obtain ⟨rfl, rfl⟩ := taskSlot_eq htmp (hI.slot_lt hk' hlt').2.2 ha0 ha hx
        rw [hk] at hk'
        cases hk'
        rw [hexe₀] at hexe
        cases hexe
        rw [hsame]
        exact h p kp e₀ _ v hkp hexep ha (by omega) hv hd
  | load t =>
      obtain ⟨hI', he | ⟨k, e, tmp, f, hk, hexe, ha, hlt, -, -, he⟩⟩ := load_spec hI hs
      · exact ⟨hI', h.exited hI' he⟩
      refine ⟨hI', ?_⟩
      rw [he.task]
      refine h.set hI he.view fun t' k' e' tmp' v hk' hexe' ha' hlt' hx hv _ => ?_
      obtain ⟨rfl, rfl⟩ := taskSlot_eq hlt (hI.slot_lt hk' hlt').2.2 ha ha' hx
      rw [hk] at hk'
      cases hk'
      rw [hexe] at hexe'
      cases hexe'
      cases hv
      exact fun i _ => rfl
  | wpFault t address =>
      obtain ⟨hI', hq | he | ⟨hlt, -, hu⟩⟩ := wpFault_spec hI hs
      · exact ⟨hI', h.quiet hI' hq⟩
      · exact ⟨hI', h.exited hI' he⟩
      · obtain ⟨w, hw, hwp, hcopies, hcopy⟩ := hu.copy
        rw [hu.task]
        exact ⟨hI', h.copied hI hw hwp hcopies hcopy hok⟩
  | userStore t address v =>
      obtain ⟨hI', -, -, f, c, he, -⟩ := userStore_spec hI hs
      rw [he.task]
      refine ⟨hI', h.set hI he.view fun t' k' e tmp v hk' hexe ha hlt' hx hv hd => ?_⟩
      cases hv
      cases hd
  | verifyArea t addr size =>
      obtain ⟨hI', k, ok, m, hk, -, hv, hcase⟩ := verifyArea_step hI hs
      have hm : CleanPages blocks s.task m := h.verifyPages hI hI.mem hok hv
      cases ok with
      | true =>
          rw [if_pos rfl] at hcase
          subst hcase
          exact ⟨hI', hm⟩
      | false => exact ⟨hI', hm.exited hI' hcase⟩
  | kernelStore t address v =>
      obtain ⟨hI', -, -, ⟨f, c, he, -⟩, -⟩ := kernelStore_spec hI hs hok
      rw [he.task]
      refine ⟨hI', h.set hI he.view fun t' k' e tmp v hk' hexe ha hlt' hx hv hd => ?_⟩
      cases hv
      cases hd
  | sysReturn t =>
      obtain ⟨hI', hq⟩ := sysReturn_spec hI hs
      exact ⟨hI', h.quiet hI' hq⟩
  | setCount e n =>
      obtain ⟨hI', hq⟩ := setCount_spec hI hs
      exact ⟨hI', h.quiet hI' hq⟩

/-- **Only file contents are shared** in every run that meets `CopyOk`. -/
theorem fileContents_reaches (h₀ : Init s) (hr : Reaches (step blocks) (CopyOk blocks) s s') :
    FileContents blocks s' := by
  have hinit : CleanPages blocks s.task s.mem := by
    intro t k e tmp v hk _ _ hlt hv
    obtain ⟨h1, h2, h3⟩ := h₀.inv.slot_lt hk hlt
    rw [h₀.empty _ (taskSlot_mem h1 h2 h3)] at hv
    cases hv
  have hrun := hr.invariant (P := fun s => Inv s ∧ CleanPages blocks s.task s.mem) ⟨h₀.inv, hinit⟩
    fun _ _ _ hP hok hs => cleanPages_step hP.1 hP.2 hok hs
  exact hrun.2.fileContents

/-- Task 1 takes the page of task 2 and writes to it before anything was stored. -/
def copyRun : List Act := [.fault 2 0x1000, .load 2, .fault 1 0x1000, .wpFault 1 0x1000]

theorem copyRun_ok : RunOk (step holes) (CopyOk holes) twoTasks copyRun := by
  refine .cons trivial <| .cons trivial <| .cons trivial <| .cons ?_ trivial
  intro t k e tmp w _ _ _ _ _ hw _ hd _
  have hclean := congrArg (Option.map dirty) hw
  rw [Option.map_some, hd] at hclean
  exact absurd hclean (by decide)

/-- The copy is clean, and it is the page of the file. -/
theorem fileContents_reaches_copyRun :
    (after copyRun).mem.mapsTo (taskSlot 1 0x1000) ≠ (after copyRun).mem.mapsTo (taskSlot 2 0x1000) ∧
      FileContents holes (after copyRun) :=
  ⟨by decide, fileContents_reaches twoTasks_init
    (Reaches.of_run (Outcome.eq_next (by decide) twoTasks) copyRun_ok)⟩

/-! ### A page that leaks -/

/-- Task 1 has a dirty page. -/
def dirtyRun : List Act :=
  [.fault 1 0x1000, .load 1, .userStore 1 0x1000 7]

/-- `fork` of a task whose one page table has no entry from `n` on. -/
theorem fork_oneTable {p nr page toTable n : Nat} {m m₁ m₂ : Memory} {k : Task}
    (hr : p < 64 ∧ 0 < nr ∧ nr < 64 ∧ s.task nr = none) (hp : parent s p = some k)
    (hcode : k.codeLimit ≤ k.dataLimit) (hdata : dirCount k.dataLimit = 1)
    (hpage : s.mem.getFreePage = (some page, m)) (h0 : startCode p ≠ 0)
    (hal : ¬(startCode p &&& 0x3fffff ≠ 0 ∨ startCode nr &&& 0x3fffff ≠ 0))
    (hto : present (m.pgDir (dirNr (startCode nr))) = false)
    (hfrom : present (m.pgDir (dirNr (startCode p))) = true)
    (htable : m.getFreePage = (some toTable, m₁)) (hn : n ≤ 1024)
    (hm₂ : ((m₁.setPgDir (dirNr (startCode nr)) (userEntry toTable)).unhold toTable).copyEntries
      (pageAddr (m.pgDir (dirNr (startCode p)))) toTable 0 n = m₂)
    (habs : ∀ j, n ≤ j → j < 1024 →
      present (m₂.mem (pageAddr (m.pgDir (dirNr (startCode p)))) j) = false) :
    step blocks s (.fork p nr) = .next { s with
      mem := m₂
      task := Function.update s.task nr (some { k with page := page })
      phase := Function.update s.phase nr .run
      areas := Function.update s.areas nr []
      iCount := match k.executable with
        | some e => Function.update s.iCount e (s.iCount e + 1)
        | none => s.iCount } := by
  obtain ⟨r, hsum⟩ := Nat.exists_eq_add_of_le hn
  have hmem : m.copyMem (startCode p) (startCode nr) k.dataLimit = .next (true, m₂) := by
    rw [copyMem, copyPageTables, if_neg hal, if_neg h0, hdata, copyDirs_one hto hfrom htable, hsum,
      copyEntries_add, hm₂, copyEntries_absent fun j h₁ h₂ => habs j (by omega) (by omega)]
    rfl
  have hproc : copyProcess s p nr k = .next { s with
      mem := m₂
      task := Function.update s.task nr (some { k with page := page })
      phase := Function.update s.phase nr .run
      areas := Function.update s.areas nr []
      iCount := match k.executable with
        | some e => Function.update s.iCount e (s.iCount e + 1)
        | none => s.iCount } := by
    rw [copyProcess, hpage]
    show ite _ _ _ = _
    rw [if_neg (Nat.not_lt.mpr hcode), hmem]
    rfl
  simp only [step]
  rw [if_pos hr, hp]
  exact hproc

/-- What the kernel has of pages after the first two calls of `fork`. -/
def forkedMem : Memory :=
  (((after dirtyRun).mem.getFreePage.2.getFreePage.2.setPgDir 48 (userEntry 0xffa000)).unhold
    0xffa000).copyEntries 0xffc000 0xffa000 0 2

/-- Task 3 is the child. -/
def forked : State :=
  { after dirtyRun with
    mem := forkedMem
    task := Function.update (after dirtyRun).task 3 (some ⟨0x2000, some 0, 0x1000, 0x400000, 0xffb000⟩)
    phase := Function.update (after dirtyRun).phase 3 .run
    areas := Function.update (after dirtyRun).areas 3 []
    iCount := Function.update (after dirtyRun).iCount 0 ((after dirtyRun).iCount 0 + 1) }

theorem forked_step : step holes (after dirtyRun) (.fork 1 3) = .next forked := by
  have hpage : (after dirtyRun).mem.getFreePage =
      (some 0xffb000, (after dirtyRun).mem.getFreePage.2) :=
    Prod.ext (by decide) rfl
  have htable : (after dirtyRun).mem.getFreePage.2.getFreePage =
      (some 0xffa000, (after dirtyRun).mem.getFreePage.2.getFreePage.2) :=
    Prod.ext (by decide) rfl
  have hdir : pageAddr ((after dirtyRun).mem.getFreePage.2.pgDir (dirNr (startCode 1))) =
      0xffc000 := by decide
  have habs : ∀ i < 32, ∀ j < 32, 2 ≤ 32 * i + j →
      present (forkedMem.mem 0xffc000 (32 * i + j)) = false := by decide
  have hfork : step holes (after dirtyRun) (.fork 1 3) = _ := fork_oneTable (n := 2)
    (k := ⟨0x2000, some 0, 0x1000, 0x400000, 0xfff000⟩)
    ⟨by decide, by decide, by decide, by decide⟩ (by decide +kernel) (by decide)
    (by decide) hpage (by decide) (by decide) (by decide) (by decide +kernel) htable
    (by decide) (show _ = forkedMem by rw [hdir]; rfl) fun j h₁ h₂ => by
      rw [hdir]
      have := habs (j / 32) (by omega) (j % 32) (by omega) (by omega)
      rwa [Nat.div_add_mod] at this
  rw [hfork]
  rfl

/-- The next write of task 1 gets it a copy, which task 2 takes before the write
is retried. -/
def leaked : State := (run (step holes) forked [.wpFault 1 0x1000, .fault 2 0x1000]).get forked

/-- The page that task 2 now has for its data holds what task 1 wrote. -/
theorem fileContents_not_reaches :
    Init twoTasks ∧ Reaches (step holes) (fun _ _ => True) twoTasks leaked ∧
      ¬ FileContents holes leaked := by
  refine ⟨twoTasks_init, ?_, fun h => ?_⟩
  · have hnext : (run (step holes) twoTasks dirtyRun).isNext = true := by decide
    refine ((after_reaches hnext).tail trivial forked_step).trans ?_
    exact Reaches.of_run (Outcome.eq_next (by decide) forked) (RunOk.trivial _ _ _)
  · obtain ⟨w, hw⟩ : ∃ w, leaked.mem.entryAt (taskSlot 2 0x1000) = some w :=
      Option.isSome_iff_exists.mp (by decide)
    have hclean : (leaked.mem.entryAt (taskSlot 2 0x1000)).map dirty = some false := by
      decide
    have hdata : (leaked.mem.entryAt (taskSlot 2 0x1000)).map
        (fun w => leaked.mem.mem (pageAddr w) 0) = some 7 := by decide
    rw [hw, Option.map_some, Option.some.injEq] at hclean hdata
    have hfile := h 2 ⟨0x2000, some 0, 0x1000, 0x400000, 0xffe000⟩ 0 0x1000 w (by decide) rfl
      (by decide) (by decide) hw hclean 0 (by decide)
    rw [hdata] at hfile
    exact absurd hfile (by decide)

end LinuxKernel.V011.Mm.Kernel
