import LinuxKernel.V011.Mm.KernelStores

/-!
# LinuxKernel.V011.Mm.Tables

**Which page tables exist**: a live task has them below its limit, and a slot of the task
table that is free has none.

A function of `mm/memory.c` changes the directory entries of one address, or of one range. From
that, one action of the kernel either leaves the tables as they are, or brings one for a live
task, or copies or frees those of a range.
-/

namespace LinuxKernel.V011.Mm

namespace Memory

variable {s s' m : Memory} {d : Nat}

/-! ### What changes the directory -/

theorem pgDir_getFreePage (s : Memory) : s.getFreePage.2.pgDir = s.pgDir := by
  cases hg : s.getFreePage with
  | mk r m =>
      cases r with
      | none =>
          rw [getFreePage_none hg]
      | some f =>
          obtain ⟨n, -, -, -, rfl⟩ := getFreePage_some hg
          rfl

theorem pgDir_of_getFreePage {r : Option Nat} (h : s.getFreePage = (r, m)) : m.pgDir = s.pgDir := by
  rw [← pgDir_getFreePage s, h]

theorem pgDir_freePage {a : Nat} (h : s.freePage a = .next s') : s'.pgDir = s.pgDir := by
  rw [freePage] at h
  split at h
  · exact Outcome.next.inj h ▸ rfl
  · split at h
    · cases h
    · split at h
      · exact Outcome.next.inj h ▸ rfl
      · cases h

theorem pgDir_putPage (page : Nat) {address : Nat} (hd : d ≠ dirNr address) :
    (s.putPage page address).2.pgDir d = s.pgDir d := by
  rw [putPage]
  split
  · rfl
  · split
    · next m hg => rw [pgDir_of_getFreePage hg]
    · next tmp m hg =>
      rw [← pgDir_of_getFreePage hg]
      exact Function.update_of_ne hd _ _

theorem pgDir_getEmptyPage {address : Nat} {r : Bool × Memory} (hd : d ≠ dirNr address)
    (h : s.getEmptyPage address = .next r) : r.2.pgDir d = s.pgDir d := by
  rw [getEmptyPage] at h
  split at h
  · next m hg =>
    rw [← Outcome.next.inj h]
    exact congrFun (pgDir_of_getFreePage hg) d
  · next tmp m hg =>
    have hput := pgDir_putPage (s := m) tmp hd
    rw [pgDir_of_getFreePage hg] at hput
    split at h
    · next m' hp =>
      rw [hp] at hput
      rw [← Outcome.next.inj h]
      exact hput
    · next m' hp =>
      rw [hp] at hput
      obtain ⟨m'', hfree, h⟩ := Outcome.bind_eq_next h
      rw [← Outcome.next.inj h]
      exact (congrFun (pgDir_freePage hfree) d).trans hput

/-! #### Freeing -/

theorem pgDir_freeEntry {t i : Nat} (h : s.freeEntry t i = .next s') : s'.pgDir = s.pgDir := by
  rw [freeEntry] at h
  split at h
  · obtain ⟨m, hfree, h⟩ := Outcome.bind_eq_next h
    rw [← Outcome.next.inj h]
    exact (pgDir_freePage hfree : m.pgDir = s.pgDir)
  · exact Outcome.next.inj h ▸ rfl

theorem pgDir_freeEntries {t i n : Nat} (h : s.freeEntries t i n = .next s') :
    s'.pgDir = s.pgDir := by
  induction n generalizing s i with
  | zero => exact Outcome.next.inj h ▸ rfl
  | succ n ih =>
      obtain ⟨m, hfree, h⟩ := Outcome.bind_eq_next h
      exact (ih h).trans (pgDir_freeEntry hfree)

/-- The range has no tables afterwards, the other directory entries are as before. -/
theorem pgDir_freeDirs {dir n : Nat} (h : s.freeDirs dir n = .next s') (d : Nat) :
    if dir ≤ d ∧ d < dir + n then present (s'.pgDir d) = false else s'.pgDir d = s.pgDir d := by
  induction n generalizing s dir with
  | zero =>
      rw [if_neg (by omega), ← Outcome.next.inj h]
  | succ n ih =>
      rw [freeDirs] at h
      split at h
      · obtain ⟨m, hentries, h⟩ := Outcome.bind_eq_next h
        obtain ⟨m', hfree, h⟩ := Outcome.bind_eq_next h
        have hdirs := (pgDir_freePage hfree).trans (pgDir_freeEntries hentries)
        have hrest := ih h
        by_cases hself : d = dir
        · subst hself
          rw [if_neg (by omega)] at hrest
          have hset : (m'.setPgDir d 0).pgDir d = 0 := Function.update_self _ _ _
          rw [if_pos (by omega), hrest, hset]
          decide
        · have hset : (m'.setPgDir dir 0).pgDir d = s.pgDir d :=
            (Function.update_of_ne hself _ _).trans (congrFun hdirs d)
          rw [hset] at hrest
          by_cases hin : dir + 1 ≤ d ∧ d < dir + 1 + n
          · rw [if_pos hin] at hrest
            rwa [if_pos (by omega)]
          · rw [if_neg hin] at hrest
            rwa [if_neg (by omega)]
      · next habsent =>
        have hrest := ih h
        by_cases hself : d = dir
        · subst hself
          rw [if_neg (by omega)] at hrest
          rw [if_pos (by omega), hrest]
          exact Bool.eq_false_of_not_eq_true habsent
        · by_cases hin : dir + 1 ≤ d ∧ d < dir + 1 + n
          · rw [if_pos hin] at hrest
            rwa [if_pos (by omega)]
          · rw [if_neg hin] at hrest
            rwa [if_neg (by omega)]

theorem pgDir_freePageTables {t size : Nat} (ht : t < 64)
    (h : s.freePageTables (startCode t) size = .next s') (d : Nat) :
    if 16 * t ≤ d ∧ d < 16 * t + dirCount size then present (s'.pgDir d) = false
    else s'.pgDir d = s.pgDir d := by
  rw [freePageTables] at h
  split at h
  · cases h
  · split at h
    · cases h
    · rw [startCode, dirNr_task ht] at h
      exact pgDir_freeDirs h d

/-! #### Copying -/

theorem pgDir_copyEntry (s : Memory) (t t' i : Nat) : (s.copyEntry t t' i).pgDir = s.pgDir := by
  rw [copyEntry]
  split
  · dsimp only
    split
    · rfl
    · rfl
  · rfl

theorem pgDir_copyEntries (s : Memory) (t t' i n : Nat) :
    (s.copyEntries t t' i n).pgDir = s.pgDir := by
  induction n generalizing s i with
  | zero => rfl
  | succ n ih => exact (ih _ _).trans (pgDir_copyEntry s t t' i)

/-- Only the target range gets tables. -/
theorem pgDir_copyDirs {nr fromDir toDir n : Nat} {r : Bool × Memory}
    (h : s.copyDirs nr fromDir toDir n = .next r) (hd : ¬ (toDir ≤ d ∧ d < toDir + n)) :
    r.2.pgDir d = s.pgDir d := by
  induction n generalizing s fromDir toDir with
  | zero => exact Outcome.next.inj h ▸ rfl
  | succ n ih =>
      rw [copyDirs] at h
      split at h
      · cases h
      · split at h
        · split at h
          · next m hg =>
            rw [← Outcome.next.inj h]
            exact congrFun (pgDir_of_getFreePage hg) d
          · next toTable m hg =>
            rw [ih h (by omega), pgDir_copyEntries, ← pgDir_of_getFreePage hg]
            exact Function.update_of_ne (by omega) _ _
        · exact ih h (by omega)

/-- `copy_mem` for task `t`: the tables outside its range are as before, and without memory
the range has none. -/
theorem pgDir_copyMem {p t limit : Nat} {r : Bool × Memory} (ht : t < 64)
    (h : s.copyMem (startCode p) (startCode t) limit = .next r) :
    (¬ (16 * t ≤ d ∧ d < 16 * t + dirCount limit) → r.2.pgDir d = s.pgDir d) ∧
    (r.1 = false → 16 * t ≤ d → d < 16 * t + dirCount limit → present (r.2.pgDir d) = false) := by
  obtain ⟨⟨ok, m⟩, hcopy, h⟩ := Outcome.bind_eq_next h
  have hout : ¬ (16 * t ≤ d ∧ d < 16 * t + dirCount limit) → m.pgDir d = s.pgDir d := by
    intro hd
    rw [copyPageTables] at hcopy
    split at hcopy
    · cases hcopy
    · rw [show dirNr (startCode t) = 16 * t from dirNr_task ht] at hcopy
      exact pgDir_copyDirs hcopy hd
  cases ok with
  | true =>
      obtain rfl := Outcome.next.inj h
      exact ⟨hout, nofun⟩
  | false =>
      obtain ⟨m', hfree, h⟩ := Outcome.bind_eq_next h
      obtain rfl := Outcome.next.inj h
      have hfreed := pgDir_freePageTables ht hfree d
      refine ⟨fun hd => ?_, fun _ hlo hhi => ?_⟩
      · rw [if_neg hd] at hfreed
        exact hfreed.trans (hout hd)
      · rwa [if_pos ⟨hlo, hhi⟩] at hfreed

/-! #### Copy on write -/

theorem pgDir_unWpPage (s : Memory) (t i : Nat) : (s.unWpPage t i).2.pgDir = s.pgDir := by
  rw [unWpPage]
  dsimp only
  split
  · rfl
  · split
    · next m hg => exact pgDir_of_getFreePage hg
    · next f m hg =>
      rw [← pgDir_of_getFreePage hg]
      split
      · rfl
      · rfl

theorem pgDir_writeVerify (s : Memory) (a : Nat) : (s.writeVerify a).2.pgDir = s.pgDir := by
  rw [writeVerify]
  split
  · dsimp only
    split
    · exact pgDir_unWpPage s _ _
    · rfl
  · rfl

theorem pgDir_verifyPages (s : Memory) (start n : Nat) :
    (s.verifyPages start n).2.pgDir = s.pgDir := by
  induction n generalizing s start with
  | zero => rfl
  | succ n ih =>
      have hpage := pgDir_writeVerify s start
      rw [verifyPages]
      split
      · next m hw =>
        rw [hw] at hpage
        exact (ih m _).trans hpage
      · next m hw =>
        rw [hw] at hpage
        exact hpage

/-! #### Page faults -/

theorem pgDir_tryToShare {address pStart curStart : Nat} {r : Share × Memory}
    (hd : d ≠ dirNr address + dirNr curStart)
    (h : s.tryToShare address pStart curStart = .next r) : r.2.pgDir d = s.pgDir d := by
  rw [tryToShare] at h
  dsimp only at h
  split at h
  · split at h
    · exact Outcome.next.inj h ▸ rfl
    · split at h
      · exact Outcome.next.inj h ▸ rfl
      · split at h
        · split at h
          · cases h
          · exact Outcome.next.inj h ▸ rfl
        · split at h
          · next m hg =>
            rw [← Outcome.next.inj h]
            exact congrFun (pgDir_of_getFreePage hg) d
          · next toTable m hg =>
            split at h
            · cases h
            · rw [← Outcome.next.inj h, ← pgDir_of_getFreePage hg]
              exact Function.update_of_ne hd _ _
  · exact Outcome.next.inj h ▸ rfl

theorem pgDir_shareLoop {task : Nat → Option Task} {executable cur address nr : Nat}
    {r : Share × Memory} (hd : d ≠ dirNr address + dirNr (startCode cur))
    (h : shareLoop task executable cur address nr s = .next r) : r.2.pgDir d = s.pgDir d := by
  induction nr generalizing s with
  | zero => exact Outcome.next.inj h ▸ rfl
  | succ nr ih =>
      rw [shareLoop] at h
      split at h
      · exact ih h
      · split at h
        · exact ih h
        · split at h
          · exact ih h
          · obtain ⟨⟨share, m⟩, hshare, h⟩ := Outcome.bind_eq_next h
            have hone : m.pgDir d = s.pgDir d := pgDir_tryToShare hd hshare
            cases share with
            | no => exact (ih h).trans hone
            | yes => exact Outcome.next.inj h ▸ hone
            | oom => exact Outcome.next.inj h ▸ hone

theorem pgDir_sharePage {task : Nat → Option Task} {iCount : Nat → Nat} {k : Task}
    {cur address : Nat} {r : Share × Memory} (hd : d ≠ dirNr address + dirNr (startCode cur))
    (h : s.sharePage task iCount k cur address = .next r) : r.2.pgDir d = s.pgDir d := by
  rw [sharePage] at h
  split at h
  · exact Outcome.next.inj h ▸ rfl
  · split at h
    · exact Outcome.next.inj h ▸ rfl
    · exact pgDir_shareLoop hd h

/-- A fault brings a table for its own address only. -/
theorem pgDir_doNoPage {task : Nat → Option Task} {iCount : Nat → Nat} {k : Task} {cur tmp : Nat}
    {r : NoPage × Memory} (hcur : cur < 64) (htmp : tmp < 2 ^ 26)
    (hd : d ≠ (taskSlot cur tmp).1)
    (h : s.doNoPage task iCount k cur (startCode cur + tmp) = .next r) :
    r.2.pgDir d = s.pgDir d := by
  have hround : (startCode cur + tmp) / 4096 * 4096 = startCode cur + tmp / 4096 * 4096 := by
    rw [startCode]
    omega
  have hdir : dirNr (startCode cur + tmp / 4096 * 4096) = (taskSlot cur tmp).1 := by
    rw [startCode, taskSlot, dirNr_eq (by omega), dirNr_eq (by omega)]
    omega
  have hsub : startCode cur + tmp / 4096 * 4096 - startCode cur = tmp / 4096 * 4096 :=
    Nat.add_sub_cancel_left _ _
  have hsum : dirNr (tmp / 4096 * 4096) + dirNr (startCode cur) = (taskSlot cur tmp).1 := by
    rw [startCode, taskSlot, dirNr_eq (by omega), dirNr_eq (by omega), dirNr_eq (by omega)]
    omega
  rw [doNoPage, hround, hsub] at h
  dsimp only at h
  split at h
  · obtain ⟨⟨ok, m⟩, hempty, h⟩ := Outcome.bind_eq_next h
    rw [← Outcome.next.inj h]
    exact pgDir_getEmptyPage (by rw [hdir]; exact hd) hempty
  · obtain ⟨⟨share, m⟩, hshare, h⟩ := Outcome.bind_eq_next h
    have hone : m.pgDir d = s.pgDir d := pgDir_sharePage (by rw [hsum]; exact hd) hshare
    cases share with
    | yes => exact Outcome.next.inj h ▸ hone
    | oom => exact Outcome.next.inj h ▸ hone
    | no =>
        dsimp only at h
        split at h
        · next m' hg =>
          rw [← Outcome.next.inj h]
          exact (congrFun (pgDir_of_getFreePage hg) d).trans hone
        · next page m' hg =>
          rw [← Outcome.next.inj h]
          exact (congrFun (pgDir_of_getFreePage hg) d).trans hone

theorem pgDir_finishNoPage {blocks : Blocks} {endData page tmp address : Nat}
    {r : Bool × Memory} (hd : d ≠ dirNr address)
    (h : s.finishNoPage blocks endData page tmp address = .next r) :
    r.2.pgDir d = s.pgDir d := by
  rw [finishNoPage] at h
  have hput := fun m : Memory => pgDir_putPage (s := m) page hd
  split at h
  · next m hp =>
    rw [← Outcome.next.inj h]
    exact (congrArg (fun r : Bool × Memory => r.2.pgDir d) hp).symm.trans (hput _)
  · next m hp =>
    obtain ⟨m', hfree, h⟩ := Outcome.bind_eq_next h
    rw [← Outcome.next.inj h]
    exact (congrFun (pgDir_freePage hfree) d).trans
      ((congrArg (fun r : Bool × Memory => r.2.pgDir d) hp).symm.trans (hput _))

end Memory

namespace Kernel

open Memory

variable {blocks : Nat → Blocks} {s s' : State} {t p nr : Nat} {k : Task} {m : Memory} {a : Act}

/-! ### Tables belong to live tasks -/

/-- Only live tasks have page tables, and only below their limit. -/
def Tabled (s : State) : Prop :=
  ∀ d, d ∈ userDirs → present (s.mem.pgDir d) = true → ∃ k, s.task (d / 16) = some k ∧
    s.phase (d / 16) ≠ .exiting ∧ d % 16 < dirCount k.dataLimit

/-- A free slot has no page tables. -/
theorem Tabled.free (h : Tabled s) (hno : s.task nr = none) {d : Nat} (hd : d ∈ userDirs)
    (hnr : d / 16 = nr) : present (s.mem.pgDir d) = false := by
  refine Bool.eq_false_of_not_eq_true fun hpres => ?_
  obtain ⟨k, hk, -⟩ := h d hd hpres
  rw [hnr, hno] at hk
  cases hk

/-- The tables stay, and the tasks that have some stay alive. -/
theorem Tabled.mono (h : Tabled s)
    (hdir : ∀ d ∈ userDirs, present (s'.mem.pgDir d) = true → present (s.mem.pgDir d) = true)
    (htask : ∀ t k, s.task t = some k → s.phase t ≠ .exiting →
      ∃ k', s'.task t = some k' ∧ k'.dataLimit = k.dataLimit ∧ s'.phase t ≠ .exiting) :
    Tabled s' := by
  intro d hd hpres
  obtain ⟨k, hk, hp, hlt⟩ := h d hd (hdir d hd hpres)
  obtain ⟨k', hk', hlimit, hp'⟩ := htask _ k hk hp
  exact ⟨k', hk', hp', hlimit ▸ hlt⟩

/-- Memory changes, and the directory does not. -/
theorem Tabled.setMem (h : Tabled s) (hm : m.pgDir = s.mem.pgDir) :
    Tabled { s with mem := m } :=
  h.mono (fun d _ hpres => by rw [← hm]; exact hpres) fun _ k hk hp => ⟨k, hk, rfl, hp⟩

/-- A live task gets a table below its limit. -/
theorem Tabled.setSlot (h : Tabled s) (hk : s.task t = some k) (hp : s.phase t ≠ .exiting)
    {tmp : Nat} (hlt : tmp < k.dataLimit) (hlimit : k.dataLimit ≤ 2 ^ 26)
    (hm : ∀ d, d ≠ (taskSlot t tmp).1 → m.pgDir d = s.mem.pgDir d) :
    Tabled { s with mem := m } := by
  intro d hd hpres
  by_cases hself : d = (taskSlot t tmp).1
  · subst hself
    have htmp : tmp < 2 ^ 26 := Nat.lt_of_lt_of_le hlt hlimit
    rw [taskSlot_div htmp, taskSlot_mod htmp]
    exact ⟨k, hk, hp, dirNr_lt_dirCount hlt hlimit⟩
  · exact h d hd (by rw [← hm d hself]; exact hpres)

/-- `do_exit` frees all tables of its task. -/
theorem Tabled.doExit (h : Tabled s) (hk : s.task t = some k) (ht : t < 64)
    (hs : doExit s t k = .next s') : Tabled s' := by
  obtain ⟨m₁, hm₁, hs⟩ := Outcome.bind_eq_next hs
  obtain ⟨m₂, hm₂, hs⟩ := Outcome.bind_eq_next hs
  obtain rfl := Outcome.next.inj hs
  intro d hd hpres
  have hcode := pgDir_freePageTables ht hm₁ d
  have hdata := pgDir_freePageTables ht hm₂ d
  change present (m₂.pgDir d) = true at hpres
  by_cases hin : 16 * t ≤ d ∧ d < 16 * t + dirCount k.dataLimit
  · rw [if_pos hin, hpres] at hdata
    cases hdata
  rw [if_neg hin] at hdata
  by_cases hin' : 16 * t ≤ d ∧ d < 16 * t + dirCount k.codeLimit
  · rw [if_pos hin', ← hdata, hpres] at hcode
    cases hcode
  rw [if_neg hin'] at hcode
  rw [hdata, hcode] at hpres
  obtain ⟨k', hk', hp, hlt⟩ := h d hd hpres
  have hne : d / 16 ≠ t := by
    rintro rfl
    obtain rfl : k = k' := Option.some.inj (hk.symm.trans hk')
    omega
  exact ⟨k', hk', fun hexit => hp ((Function.update_of_ne hne _ _).symm.trans hexit), hlt⟩

/-- `fork`: the child gets tables as far as its parent's limit, or none. -/
theorem Tabled.fork (h : Tabled s) (hI : Inv s)
    (hs : step blocks s (.fork p nr) = .next s') : Tabled s' := by
  rw [step] at hs
  split at hs
  case isFalse => cases hs
  next hcond =>
  obtain ⟨-, hnr0, hnr, hno⟩ := hcond
  split at hs
  case h_2 => cases hs
  next k hp =>
  obtain ⟨-, -, hdata, -⟩ := parent_limits hI hp
  have hcount := dirCount_le hdata
  rw [copyProcess] at hs
  split at hs
  · next m hg =>
    rw [← Outcome.next.inj hs]
    exact h.setMem (pgDir_of_getFreePage hg)
  next page m hg =>
  have hpage := pgDir_of_getFreePage hg
  split at hs
  · cases hs
  obtain ⟨⟨ok, m₂⟩, hcopy, hs⟩ := Outcome.bind_eq_next hs
  have hdirs := fun d => pgDir_copyMem (d := d) hnr hcopy
  cases ok with
  | true =>
      obtain rfl := Outcome.next.inj hs
      intro d hd hpres
      by_cases hin : 16 * nr ≤ d ∧ d < 16 * nr + dirCount k.dataLimit
      · have hdiv : d / 16 = nr := by omega
        refine ⟨{ k with page := page }, ?_, ?_, ?_⟩
        · rw [hdiv]
          exact Function.update_self _ _ _
        · rw [hdiv]
          change Function.update s.phase nr Phase.run nr ≠ _
          rw [Function.update_self]
          exact Phase.noConfusion
        · change d % 16 < dirCount k.dataLimit
          omega
      · rw [show m₂.pgDir d = s.mem.pgDir d from ((hdirs d).1 hin).trans (congrFun hpage d)]
          at hpres
        obtain ⟨k', hk', hp', hlt⟩ := h d hd hpres
        have hne : d / 16 ≠ nr := by
          rintro hEq
          rw [hEq, hno] at hk'
          cases hk'
        exact ⟨k', (Function.update_of_ne hne _ _).trans hk',
          fun hexit => hp' ((Function.update_of_ne hne _ _).symm.trans hexit), hlt⟩
  | false =>
      obtain ⟨m₃, hfree, hs⟩ := Outcome.bind_eq_next hs
      obtain rfl := Outcome.next.inj hs
      refine h.mono (fun d hd hpres => ?_) fun _ k' hk' hp' => ⟨k', hk', rfl, hp'⟩
      change present (m₃.pgDir d) = true at hpres
      rw [pgDir_freePage hfree] at hpres
      by_cases hin : 16 * nr ≤ d ∧ d < 16 * nr + dirCount k.dataLimit
      · rw [(hdirs d).2 rfl hin.1 hin.2] at hpres
        cases hpres
      · rwa [(hdirs d).1 hin, hpage] at hpres

/-- Every action keeps the tables where the live tasks are. -/
theorem Tabled.step (h : Tabled s) (hI : Inv s) (hs : step blocks s a = .next s') :
    Tabled s' := by
  have hcur : ∀ {t k}, current s t = some k →
      s.task t = some k ∧ s.phase t ≠ .exiting ∧ t < 64 ∧ k.dataLimit ≤ 2 ^ 26 := by
    intro t k hc
    obtain ⟨hk, hrun⟩ := current_some hc
    exact ⟨hk, by rw [hrun]; exact Phase.noConfusion, (hI.range t k hk).2, (hI.limits t k hk).2.2⟩
  cases a with
  | fork p nr => exact h.fork hI hs
  | exit t =>
      rw [Kernel.step] at hs
      split at hs
      · next k hc => exact h.doExit (hcur hc).1 (hcur hc).2.2.1 hs
      · cases hs
  | zombie t =>
      rw [Kernel.step] at hs
      split at hs
      · next k hk =>
        split at hs
        · next hp =>
          obtain rfl := Outcome.next.inj hs
          refine h.mono (fun _ _ hpres => hpres) fun t' k' hk' hp' => ?_
          have hne : t' ≠ t := fun hEq => hp' (hEq ▸ hp)
          exact ⟨k', (Function.update_of_ne hne _ _).trans hk', rfl, hp'⟩
        · cases hs
      · cases hs
  | release t =>
      rw [Kernel.step] at hs
      split at hs
      · next k hk =>
        split at hs
        · next hp =>
          obtain ⟨m, hfree, hs⟩ := Outcome.bind_eq_next hs
          obtain rfl := Outcome.next.inj hs
          refine h.mono (fun d _ hpres => ?_) fun t' k' hk' hp' => ?_
          · rw [← pgDir_freePage hfree]
            exact hpres
          · have hne : t' ≠ t := fun hEq => hp' (hEq ▸ hp.1)
            refine ⟨k', (Function.update_of_ne hne _ _).trans hk', rfl, fun hexit => hp' ?_⟩
            exact (Function.update_of_ne hne _ _).symm.trans hexit
        · cases hs
      · cases hs
  | fault t address =>
      rw [Kernel.step] at hs
      split at hs
      · next k hc =>
        obtain ⟨hk, hp, ht, hlimit⟩ := hcur hc
        split at hs
        · next hcond =>
          obtain ⟨⟨r, m⟩, hfault, hs⟩ := Outcome.bind_eq_next hs
          have hdir : ∀ d, d ≠ (taskSlot t address).1 → m.pgDir d = s.mem.pgDir d := fun d hd =>
            pgDir_doNoPage ht (Nat.lt_of_lt_of_le hcond.1 hlimit) hd hfault
          have hmem := h.setSlot (m := m) hk hp hcond.1 hlimit hdir
          cases r with
          | done => exact Outcome.next.inj hs ▸ hmem
          | oom => exact hmem.doExit hk ht hs
          | read page tmp =>
              obtain rfl := Outcome.next.inj hs
              refine hmem.mono (fun _ _ hpres => hpres) fun t' k' hk' hp' => ⟨k', hk', rfl, ?_⟩
              by_cases hself : t' = t
              · subst hself
                change Function.update s.phase t' (Phase.noPage page tmp) t' ≠ _
                rw [Function.update_self]
                exact Phase.noConfusion
              · exact fun hexit => hp' ((Function.update_of_ne hself _ _).symm.trans hexit)
        · cases hs
      · cases hs
  | load t =>
      rw [Kernel.step] at hs
      split at hs
      · next k page tmp hk hph =>
        split at hs
        · next e he =>
          obtain ⟨⟨ok, m⟩, hload, hs⟩ := Outcome.bind_eq_next hs
          obtain ⟨-, -, -, -, k', hk', -, hend⟩ := hI.asleep t page tmp hph
          obtain rfl : k = k' := Option.some.inj (hk.symm.trans hk')
          obtain ⟨hdata, -, hlimit⟩ := hI.limits t k hk
          have ht := (hI.range t k hk).2
          have htmp : tmp < k.dataLimit := Nat.lt_of_lt_of_le hend hdata
          have hdir : ∀ d, d ≠ (taskSlot t tmp).1 → m.pgDir d = s.mem.pgDir d := fun d hd =>
            pgDir_finishNoPage (by
              rw [← show slot (startCode t + tmp) = taskSlot t tmp from
                slot_task ht (Nat.lt_of_lt_of_le htmp hlimit)] at hd
              exact hd) hload
          have hmem : Tabled { s with mem := m, phase := Function.update s.phase t .run } := by
            refine (h.setSlot (m := m) hk (by rw [hph]; exact Phase.noConfusion) htmp hlimit hdir).mono
              (fun _ _ hpres => hpres) fun t' k' hk' hp' => ⟨k', hk', rfl, ?_⟩
            by_cases hself : t' = t
            · subst hself
              change Function.update s.phase t' Phase.run t' ≠ _
              rw [Function.update_self]
              exact Phase.noConfusion
            · exact fun hexit => hp' ((Function.update_of_ne hself _ _).symm.trans hexit)
          dsimp only at hs
          split at hs
          · exact Outcome.next.inj hs ▸ hmem
          · exact hmem.doExit hk ht hs
        · cases hs
      · cases hs
  | wpFault t address =>
      rw [Kernel.step] at hs
      split at hs
      · next k e hc _ =>
        obtain ⟨hk, hp, ht, -⟩ := hcur hc
        have hdir : (s.mem.doWpPage (startCode t + address)).2.pgDir = s.mem.pgDir :=
          pgDir_unWpPage s.mem _ _
        split at hs
        · split at hs
          · next m hm =>
            rw [hm] at hdir
            exact Outcome.next.inj hs ▸ h.setMem hdir
          · next m hm =>
            rw [hm] at hdir
            exact (h.setMem hdir).doExit hk ht hs
        · cases hs
      · cases hs
  | userStore t address v =>
      rw [Kernel.step] at hs
      split at hs
      · split at hs
        · exact Outcome.next.inj hs ▸ h.setMem rfl
        · cases hs
      · cases hs
  | verifyArea t addr size =>
      rw [Kernel.step] at hs
      split at hs
      · next k hc =>
        obtain ⟨hk, hp, ht, -⟩ := hcur hc
        have hdir : (s.mem.verifyArea (startCode t) addr size).2.pgDir = s.mem.pgDir :=
          pgDir_verifyPages s.mem _ _
        split at hs
        · split at hs
          · next m hm =>
            rw [hm] at hdir
            exact Outcome.next.inj hs ▸ h.setMem hdir
          · next m hm =>
            rw [hm] at hdir
            exact (h.setMem hdir).doExit hk ht hs
        · cases hs
      · cases hs
  | kernelStore t address v =>
      rw [Kernel.step] at hs
      split at hs
      · split at hs
        · exact Outcome.next.inj hs ▸ h.setMem rfl
        · cases hs
      · cases hs
  | sysReturn t => exact Outcome.next.inj hs ▸ h
  | setCount e n => exact Outcome.next.inj hs ▸ h

end Kernel

end LinuxKernel.V011.Mm
