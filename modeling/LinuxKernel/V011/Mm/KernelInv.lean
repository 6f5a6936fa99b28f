import LinuxKernel.V011.Mm.Kernel

/-!
# LinuxKernel.V011.Mm.KernelInv

The invariant of the task level, and what **one action** does to the address
spaces. Each action has one lemma; the claims about runs are case analyses over
them.

The kernel holds one page for each task structure and one for each task asleep
in `do_no_page`. `owns` names these pages, and the invariant says that they are
held and all different, which is what makes every `free_page` and `put_page`
legal.
-/

namespace LinuxKernel.V011.Mm.Kernel

open Memory

variable {blocks : Nat → Blocks} {s s' : State} {t p nr tmp address : Nat} {k : Task}

/-! ### Slots of tasks -/

theorem dirNr_lt_16 (h : tmp < 2 ^ 26) : dirNr tmp < 16 := by
  rw [dirNr_eq (by omega)]
  omega

theorem taskSlot_div (h : tmp < 2 ^ 26) : (taskSlot t tmp).1 / 16 = t := by
  have := dirNr_lt_16 h
  simp only [taskSlot]
  omega

theorem taskSlot_mod (h : tmp < 2 ^ 26) : (taskSlot t tmp).1 % 16 = dirNr tmp := by
  have := dirNr_lt_16 h
  simp only [taskSlot]
  omega

theorem dirNr_lt_dirCount {limit : Nat} (h : tmp < limit) (hlimit : limit ≤ 2 ^ 26) :
    dirNr tmp < dirCount limit := by
  rw [dirNr_eq (by omega), dirCount_eq hlimit]
  omega

/-- The offset of a page within its task. -/
theorem taskSlot_page (address : Nat) (h : address < 2 ^ 26) :
    taskSlot t (address / 4096 * 4096) = taskSlot t address := by
  rw [taskSlot, taskSlot, dirNr_eq (by omega), dirNr_eq (by omega), pageNr_eq, pageNr_eq]
  refine Prod.ext ?_ ?_ <;> simp only <;> omega

/-- Two pages of one task in one slot are the same. -/
theorem taskSlot_inj {tmp' : Nat} (h : tmp < 2 ^ 26) (h' : tmp' < 2 ^ 26) (ha : tmp % 4096 = 0)
    (ha' : tmp' % 4096 = 0) (heq : taskSlot t tmp = taskSlot t tmp') : tmp = tmp' := by
  simp only [taskSlot, Prod.mk.injEq] at heq
  rw [dirNr_eq (by omega), dirNr_eq (by omega), pageNr_eq, pageNr_eq] at heq
  omega

/-! ### The invariant -/

/-- The pages the kernel holds on behalf of a task: its structure (`false`) and
the page it is asleep with (`true`). -/
def owns (s : State) : Nat × Bool → Option Nat
  | (t, false) => (s.task t).map Task.page
  | (t, true) =>
      match s.phase t with
      | .noPage page _ => some page
      | _ => none

theorem owns_asleep {page : Nat} (hp : s.phase t = .noPage page tmp) :
    owns s (t, true) = some page := by
  simp only [owns, hp]

structure Inv (s : State) : Prop where
  mem : s.mem.Inv
  range : ∀ t k, s.task t = some k → 0 < t ∧ t < 64
  limits : ∀ t k, s.task t = some k → k.endData ≤ k.dataLimit ∧ k.codeLimit ≤ k.dataLimit ∧
    k.dataLimit ≤ 2 ^ 26
  endData : ∀ t t' k k', s.task t = some k → s.task t' = some k' →
    k.executable ≠ none → k.executable = k'.executable → k.endData = k'.endData
  owned : ∀ o f, owns s o = some f → f ∈ s.mem.held
  distinct : ∀ o o' f, owns s o = some f → owns s o' = some f → o = o'
  /-- A task asleep in `do_no_page` waits for a page that is still absent. -/
  asleep : ∀ t page tmp, s.phase t = .noPage page tmp →
    s.mem.mem page = (fun _ => 0) ∧ tmp % 4096 = 0 ∧ tmp < 2 ^ 26 ∧
      s.mem.view (taskSlot t tmp) = none ∧
      ∃ k, s.task t = some k ∧ k.executable ≠ none ∧ tmp < k.endData
  /-- Only live tasks have pages, and only below their limit. -/
  empty : ∀ x ∈ userPages, s.mem.view x ≠ none → ∃ k, s.task (x.1 / 16) = some k ∧
    s.phase (x.1 / 16) ≠ .exiting ∧ x.1 % 16 < dirCount k.dataLimit
  areas : ∀ t, s.areas t ≠ [] → 0 < t ∧ t < 64

theorem Init.inv (h : Init s) : Inv s where
  mem := by
    obtain ⟨startMem, endMem, deny, hb, hr⟩ := h.mem
    exact FrameCount.inv_reaches ((FrameCount.boot_inv hb).setDeny deny) hr
  range := h.range
  limits := h.limits
  endData := h.endData
  owned o f ho := by
    obtain ⟨t, b⟩ := o
    cases b with
    | false =>
        obtain ⟨k, hk, rfl⟩ := Option.map_eq_some_iff.mp ho
        exact h.held t k hk
    | true => simp [owns, h.phase] at ho
  distinct o o' f ho ho' := by
    obtain ⟨t, b⟩ := o
    obtain ⟨t', b'⟩ := o'
    cases b <;> cases b' <;> simp only [owns, h.phase] at ho ho' <;> try cases ho
    · obtain ⟨k, hk, hkf⟩ := Option.map_eq_some_iff.mp ho
      obtain ⟨k', hk', hkf'⟩ := Option.map_eq_some_iff.mp ho'
      rw [h.pages t t' k k' hk hk' (hkf.trans hkf'.symm)]
    · cases ho'
  asleep t page tmp hp := by rw [h.phase] at hp; cases hp
  empty x hx hv := absurd (h.empty x hx) hv
  areas t ht := absurd (h.areas t) ht

theorem current_some (h : current s t = some k) : s.task t = some k ∧ s.phase t = .run := by
  unfold current at h
  split at h
  · next hp => exact ⟨h, hp⟩
  · cases h

theorem Inv.limit_lt (h : Inv s) (hk : s.task t = some k) (ha : address < k.dataLimit) :
    address < 2 ^ 26 :=
  lt_of_lt_of_le ha (h.limits t k hk).2.2

/-- Memory may change in any way that keeps what is present and what is held. -/
theorem Inv.setMem (h : Inv s) {m : Memory} (hm : m.Inv) (hview : SamePresence s.mem m)
    (hkeep : Keeps s.mem m) : Inv { s with mem := m } where
  mem := hm
  range := h.range
  limits := h.limits
  endData := h.endData
  owned o f ho := by
    rw [show ({ s with mem := m } : State).mem.held = s.mem.held from hkeep.held]
    exact h.owned o f ho
  distinct := h.distinct
  asleep t page tmp hp := by
    obtain ⟨hz, ha, hlt, hno, k, hk, hexe, hend⟩ := h.asleep t page tmp hp
    have hheld : page ∈ s.mem.held := h.owned (t, true) page (owns_asleep hp)
    have hslot := taskSlot_mem (h.range t k hk).1 (h.range t k hk).2 hlt
    exact ⟨(hkeep.mem page hheld).trans hz, ha, hlt,
      (hview _ (userPages_subset hslot)).mpr hno, k, hk, hexe, hend⟩
  empty x hx hv := h.empty x hx fun hno => hv ((hview x (userPages_subset hx)).mpr hno)
  areas := h.areas

/-- A running task gets a page at an absent slot below its limit. -/
theorem Inv.setSlot (h : Inv s) {m : Memory} (hm : m.Inv) (hk : s.task t = some k)
    (hrun : s.phase t = .run) (hlt : tmp < k.dataLimit) {v : Option View}
    (hview : ViewSet s.mem m (taskSlot t tmp) v) (hkeep : Keeps s.mem m) :
    Inv { s with mem := m } where
  mem := hm
  range := h.range
  limits := h.limits
  endData := h.endData
  owned o f ho := by
    rw [show ({ s with mem := m } : State).mem.held = s.mem.held from hkeep.held]
    exact h.owned o f ho
  distinct := h.distinct
  asleep t' page tmp' hp := by
    obtain ⟨hz, ha, hlt', hno, k', hk', hexe, hend⟩ := h.asleep t' page tmp' hp
    have hheld : page ∈ s.mem.held := h.owned (t', true) page (owns_asleep hp)
    have hslot := taskSlot_mem (h.range t' k' hk').1 (h.range t' k' hk').2 hlt'
    have hne : taskSlot t' tmp' ≠ taskSlot t tmp := by
      intro hEq
      have htt := congrArg (fun x : Nat × Nat => x.1 / 16) hEq
      simp only [taskSlot_div hlt', taskSlot_div (h.limit_lt hk hlt)] at htt
      subst htt
      rw [show ({ s with mem := m } : State).phase = s.phase from rfl, hrun] at hp
      cases hp
    exact ⟨(hkeep.mem page hheld).trans hz, ha, hlt',
      (hview.of_ne (userPages_subset hslot) hne).trans hno, k', hk', hexe, hend⟩
  empty x hx hv := by
    by_cases hxt : x = taskSlot t tmp
    · have hlt26 := h.limit_lt hk hlt
      subst hxt
      rw [taskSlot_div hlt26, taskSlot_mod hlt26]
      exact ⟨k, hk, by rw [hrun]; simp, dirNr_lt_dirCount hlt (h.limits t k hk).2.2⟩
    · exact h.empty x hx (hview.of_ne (userPages_subset hx) hxt ▸ hv)
  areas := h.areas

/-! ### What an action does to the address spaces -/

/-- Nothing that user space sees changes; programs and checked areas may go away. -/
structure Quiet (s s' : State) : Prop where
  view : ViewSame s.mem s'.mem
  task : ∀ t, s'.task t = s.task t ∨ ∀ k, s'.task t = some k → k.executable = none
  areas : ∀ t, s'.areas t = s.areas t ∨ s'.areas t = []

/-- Task `t` has lost its address space. -/
structure Exited (s : State) (t : Nat) (s' : State) : Prop where
  view : ∀ y ∈ taskPages, s'.mem.view y = if y ∈ userPages ∧ y.1 / 16 = t then none
    else s.mem.view y
  task : s'.task = s.task
  areas : s'.areas = Function.update s.areas t []

/-- Slot `x` has become `v`; the tasks are the same. -/
structure Entered (s : State) (x : Nat × Nat) (v : Option View) (s' : State) : Prop where
  view : ViewSet s.mem s'.mem x v
  task : s'.task = s.task
  areas : s'.areas = s.areas

theorem Quiet.of_same {m : Memory} (h : ViewSame s.mem m) : Quiet s { s with mem := m } :=
  ⟨h, fun _ => Or.inl rfl, fun _ => Or.inl rfl⟩

theorem Exited.of_same {m : Memory} (h : ViewSame s.mem m) (he : Exited { s with mem := m } t s') :
    Exited s t s' :=
  ⟨fun y hy => by rw [he.view y hy, h y hy], he.task, he.areas⟩

theorem doExit_spec (h : Inv s) (hk : s.task t = some k)
    (hp : ∀ page tmp, s.phase t ≠ .noPage page tmp) :
    ∃ s', doExit s t k = .next s' ∧ Inv s' ∧ Exited s t s' := by
  obtain ⟨ht0, ht⟩ := h.range t k hk
  obtain ⟨hend, hcode, hdata⟩ := h.limits t k hk
  obtain ⟨m₁, hm₁, hinv₁, hkeep₁, hview₁⟩ :=
    freePageTables_task h.mem ht0 ht (show k.codeLimit ≤ 2 ^ 26 by omega)
  obtain ⟨m₂, hm₂, hinv₂, hkeep₂, hview₂⟩ := freePageTables_task hinv₁ ht0 ht hdata
  have hkeep := hkeep₁.trans hkeep₂
  have hcount : dirCount k.codeLimit ≤ dirCount k.dataLimit := by
    rw [dirCount_eq hdata, dirCount_eq (by omega)]
    omega
  have hview : ∀ y ∈ taskPages, m₂.view y =
      if y ∈ userPages ∧ y.1 / 16 = t then none else s.mem.view y := by
    intro y hy
    rw [hview₂ y hy, hview₁ y hy]
    by_cases hmine : y ∈ userPages ∧ y.1 / 16 = t
    · rw [if_pos hmine]
      by_cases hin : 16 * t ≤ y.1 ∧ y.1 < 16 * t + dirCount k.dataLimit
      · rw [if_pos hin]
      · rw [if_neg hin, if_neg (by omega)]
        -- beyond the limit there was nothing
        by_contra hv
        obtain ⟨k', hk', -, hlt⟩ := h.empty y hmine.1 hv
        rw [hmine.2, hk] at hk'
        cases hk'
        omega
    · rw [if_neg hmine]
      have hout : ¬ (16 * t ≤ y.1 ∧ y.1 < 16 * t + dirCount k.dataLimit) := by
        intro hin
        have hle := dirCount_le hdata
        rcases mem_taskPages.mp hy with hu | ⟨h0, -⟩
        · exact hmine ⟨hu, by omega⟩
        · omega
      rw [if_neg hout, if_neg (by omega)]
  set s' : State := { s with
    mem := m₂
    phase := Function.update s.phase t .exiting
    areas := Function.update s.areas t [] } with hs'
  have hexit : doExit s t k = .next s' := by
    rw [doExit, startCode, hm₁, Outcome.bind_next, hm₂, Outcome.bind_next]
  have howns : ∀ o, owns s' o = owns s o := by
    rintro ⟨t', b⟩
    cases b with
    | false => rfl
    | true =>
        by_cases htt : t' = t
        · subst htt
          simp only [owns, hs', Function.update_self]
        · simp only [owns, hs', Function.update_of_ne htt]
  refine ⟨s', hexit, ⟨hinv₂, h.range, h.limits, h.endData, ?_, ?_, ?_, ?_, ?_⟩, hview, rfl, rfl⟩
  · intro o f ho
    rw [howns] at ho
    rw [show s'.mem.held = s.mem.held from hkeep.held]
    exact h.owned o f ho
  · intro o o' f ho ho'
    rw [howns] at ho ho'
    exact h.distinct o o' f ho ho'
  · intro t' page tmp hph
    have hne : t' ≠ t := by
      rintro rfl
      simp [hs'] at hph
    have hph : s.phase t' = .noPage page tmp := by
      simpa [hs', Function.update_of_ne hne] using hph
    obtain ⟨hz, ha, hlt', hno, k', hk', hexe, hend'⟩ := h.asleep t' page tmp hph
    have hheld : page ∈ s.mem.held := h.owned (t', true) page (owns_asleep hph)
    have hslot := taskSlot_mem (h.range t' k' hk').1 (h.range t' k' hk').2 hlt'
    refine ⟨(hkeep.mem page hheld).trans hz, ha, hlt', ?_, k', hk', hexe, hend'⟩
    rw [show s'.mem = m₂ from rfl, hview _ (userPages_subset hslot), hno, ite_self]
  · intro x hx hv
    rw [show s'.mem = m₂ from rfl, hview x (userPages_subset hx)] at hv
    by_cases hxt : x.1 / 16 = t
    · simp [hx, hxt] at hv
    · rw [if_neg (fun hc => hxt hc.2)] at hv
      have hph : s'.phase (x.1 / 16) = s.phase (x.1 / 16) := Function.update_of_ne hxt _ _
      rw [hph]
      exact h.empty x hx hv
  · intro t' hne
    by_cases htt : t' = t
    · exact htt ▸ ⟨ht0, ht⟩
    · have ha : s'.areas t' = s.areas t' := Function.update_of_ne htt _ _
      rw [ha] at hne
      exact h.areas t' hne

/-- `oom()` after a change that user space does not see. -/
theorem oom_spec (h : Inv s) {m : Memory} (hm : m.Inv) (hview : ViewSame s.mem m)
    (hkeep : Keeps s.mem m) (hk : s.task t = some k) (hrun : s.phase t = .run)
    (hs : doExit { s with mem := m } t k = .next s') : Inv s' ∧ Exited s t s' := by
  have hnot : ∀ page tmp, s.phase t ≠ .noPage page tmp := fun page tmp => by simp [hrun]
  obtain ⟨s₁, hs₁, hinv, hexit⟩ :=
    doExit_spec (h.setMem hm hview.presence hkeep) hk hnot
  rw [hs₁] at hs
  cases hs
  exact ⟨hinv, hexit.of_same hview⟩

theorem exit_spec (h : Inv s) (hs : step blocks s (.exit t) = .next s') :
    Inv s' ∧ Exited s t s' := by
  simp only [step] at hs
  split at hs
  · next k hc =>
    obtain ⟨hk, hrun⟩ := current_some hc
    exact oom_spec h h.mem (ViewSame.refl _) (Keeps.refl _) hk hrun hs
  · cases hs

/-! ### Actions that user space does not see -/

theorem zombie_spec (h : Inv s) (hs : step blocks s (.zombie t) = .next s') :
    Inv s' ∧ Quiet s s' := by
  simp only [step] at hs
  split at hs
  case h_2 => cases hs
  next k hk =>
  split at hs
  case isFalse => cases hs
  next hph =>
  cases hs
  have htask : ∀ t' k', Function.update s.task t (some { k with executable := none }) t' = some k' →
      ∃ k₀, s.task t' = some k₀ ∧ k'.endData = k₀.endData ∧ k'.codeLimit = k₀.codeLimit ∧
        k'.dataLimit = k₀.dataLimit ∧ k'.page = k₀.page ∧
        (k'.executable = none ∨ k'.executable = k₀.executable) := by
    intro t' k' hk'
    by_cases htt : t' = t
    · subst htt
      rw [Function.update_self] at hk'
      cases hk'
      exact ⟨k, hk, rfl, rfl, rfl, rfl, Or.inl rfl⟩
    · rw [Function.update_of_ne htt] at hk'
      exact ⟨k', hk', rfl, rfl, rfl, rfl, Or.inr rfl⟩
  refine ⟨⟨h.mem, ?_, ?_, ?_, ?_, ?_, ?_, ?_, h.areas⟩, ViewSame.refl _, ?_, fun _ => Or.inl rfl⟩
  · intro t' k' hk'
    obtain ⟨k₀, hk₀, -⟩ := htask t' k' hk'
    exact h.range t' k₀ hk₀
  · intro t' k' hk'
    obtain ⟨k₀, hk₀, he, hc, hd, -⟩ := htask t' k' hk'
    rw [he, hc, hd]
    exact h.limits t' k₀ hk₀
  · intro t₁ t₂ k₁ k₂ hk₁ hk₂ hne heq
    obtain ⟨k₁', hk₁', he₁, -, -, -, hx₁⟩ := htask t₁ k₁ hk₁
    obtain ⟨k₂', hk₂', he₂, -, -, -, hx₂⟩ := htask t₂ k₂ hk₂
    have hx₁ := hx₁.resolve_left hne
    have hx₂ := hx₂.resolve_left (heq ▸ hne)
    rw [he₁, he₂]
    exact h.endData t₁ t₂ k₁' k₂' hk₁' hk₂' (hx₁ ▸ hne) (by rw [← hx₁, ← hx₂]; exact heq)
  · rintro ⟨t', b⟩ f ho
    cases b with
    | true => exact h.owned (t', true) f ho
    | false =>
        obtain ⟨k', hk', rfl⟩ := Option.map_eq_some_iff.mp ho
        obtain ⟨k₀, hk₀, -, -, -, hpage, -⟩ := htask t' k' hk'
        exact h.owned (t', false) _ (by simp [owns, hk₀, hpage])
  · have hback : ∀ o f, owns { s with
        task := Function.update s.task t (some { k with executable := none }) } o = some f →
        owns s o = some f := by
      rintro ⟨t', b⟩ f ho
      cases b with
      | true => exact ho
      | false =>
          obtain ⟨k', hk', rfl⟩ := Option.map_eq_some_iff.mp ho
          obtain ⟨k₀, hk₀, -, -, -, hpage, -⟩ := htask t' k' hk'
          simp [owns, hk₀, hpage]
    exact fun o o' f ho ho' => h.distinct o o' f (hback o f ho) (hback o' f ho')
  · intro t' page tmp hp
    obtain ⟨hz, ha, hlt, hno, k', hk', hrest⟩ := h.asleep t' page tmp hp
    refine ⟨hz, ha, hlt, hno, k', ?_, hrest⟩
    have hne : t' ≠ t := by
      rintro rfl
      rw [show ({ s with task := _ , iCount := _ } : State).phase t' = s.phase t' from rfl,
        hph] at hp
      cases hp
    exact (Function.update_of_ne hne _ _).trans hk'
  · intro x hx hv
    obtain ⟨k', hk', hp, hlt⟩ := h.empty x hx hv
    refine ⟨k', ?_, hp, hlt⟩
    have hne : x.1 / 16 ≠ t := fun hEq => hp (hEq ▸ hph)
    exact (Function.update_of_ne hne _ _).trans hk'
  · intro t'
    by_cases htt : t' = t
    · right
      intro k' hk'
      subst htt
      simp only [Function.update_self] at hk'
      cases hk'
      rfl
    · exact Or.inl (Function.update_of_ne htt _ _)

theorem release_spec (h : Inv s) (hs : step blocks s (.release t) = .next s') :
    Inv s' ∧ Quiet s s' := by
  simp only [step] at hs
  split at hs
  case h_2 => cases hs
  next k hk =>
  split at hs
  case isFalse => cases hs
  next hph =>
  have hheld : k.page ∈ s.mem.held := h.owned (t, false) _ (by simp [owns, hk])
  obtain ⟨m, hm, hinv, hview, hheld', hmem⟩ := freePage_held h.mem hheld
  rw [hm] at hs
  cases hs
  have hback : ∀ t' k', Function.update s.task t none t' = some k' → t' ≠ t ∧ s.task t' = some k' := by
    intro t' k' hk'
    have hne : t' ≠ t := by rintro rfl; simp at hk'
    exact ⟨hne, by rwa [Function.update_of_ne hne] at hk'⟩
  have hphase : ∀ t' page tmp, Function.update s.phase t .run t' = .noPage page tmp →
      t' ≠ t ∧ s.phase t' = .noPage page tmp := by
    intro t' page tmp hp
    have hne : t' ≠ t := by rintro rfl; simp at hp
    exact ⟨hne, by rwa [Function.update_of_ne hne] at hp⟩
  set s' : State := { s with
    mem := m
    task := Function.update s.task t none
    phase := Function.update s.phase t .run } with hs'
  have howns : ∀ o f, owns s' o = some f → owns s o = some f ∧ o ≠ (t, false) := by
    rintro ⟨t', b⟩ f ho
    cases b with
    | false =>
        obtain ⟨k', hk', rfl⟩ := Option.map_eq_some_iff.mp ho
        obtain ⟨hne, hk₀⟩ := hback t' k' hk'
        exact ⟨by simp [owns, hk₀], by simp [hne]⟩
    | true =>
        simp only [owns] at ho
        split at ho
        · next page tmp hp =>
          obtain ⟨-, hp₀⟩ := hphase t' page tmp hp
          exact ⟨by rw [owns_asleep hp₀]; exact ho, by simp⟩
        · cases ho
  refine ⟨⟨hinv, fun t' k' hk' => h.range t' k' (hback t' k' hk').2,
    fun t' k' hk' => h.limits t' k' (hback t' k' hk').2,
    fun t₁ t₂ k₁ k₂ hk₁ hk₂ => h.endData t₁ t₂ k₁ k₂ (hback _ _ hk₁).2 (hback _ _ hk₂).2,
    ?_, fun o o' f ho ho' => h.distinct o o' f (howns o f ho).1 (howns o' f ho').1,
    ?_, ?_, h.areas⟩, hview, ?_, fun _ => Or.inl rfl⟩
  · intro o f ho
    obtain ⟨ho₀, hne⟩ := howns o f ho
    have hf : f ≠ k.page := by
      rintro rfl
      exact hne (h.distinct o (t, false) _ ho₀ (by simp [owns, hk]))
    rw [hheld', List.mem_erase_of_ne hf]
    exact h.owned o f ho₀
  · intro t' page tmp hp
    obtain ⟨hne, hp₀⟩ := hphase t' page tmp hp
    obtain ⟨hz, ha, hlt, hno, k', hk', hrest⟩ := h.asleep t' page tmp hp₀
    have hslot := taskSlot_mem (h.range t' k' hk').1 (h.range t' k' hk').2 hlt
    exact ⟨by rw [hmem]; exact hz, ha, hlt, (hview _ (userPages_subset hslot)).trans hno, k',
      (Function.update_of_ne hne _ _).trans hk', hrest⟩
  · intro x hx hv
    obtain ⟨k', hk', hp, hlt⟩ := h.empty x hx (hview x (userPages_subset hx) ▸ hv)
    have hne : x.1 / 16 ≠ t := fun hEq => hp (hEq ▸ hph.1)
    exact ⟨k', (Function.update_of_ne hne _ _).trans hk',
      by rw [show s'.phase (x.1 / 16) = s.phase (x.1 / 16) from Function.update_of_ne hne _ _]
         exact hp, hlt⟩
  · intro t'
    by_cases htt : t' = t
    · right
      intro k' hk'
      exact absurd htt (hback t' k' hk').1
    · exact Or.inl (Function.update_of_ne htt _ _)

theorem sysReturn_spec (h : Inv s) (hs : step blocks s (.sysReturn t) = .next s') :
    Inv s' ∧ Quiet s s' := by
  cases hs
  refine ⟨⟨h.mem, h.range, h.limits, h.endData, h.owned, h.distinct, h.asleep, h.empty, ?_⟩,
    ViewSame.refl _, fun _ => Or.inl rfl, ?_⟩
  · intro t' hne
    by_cases htt : t' = t
    · simp [htt] at hne
    · exact h.areas t' (by simpa [Function.update_of_ne htt] using hne)
  · intro t'
    by_cases htt : t' = t
    · simp [htt]
    · exact Or.inl (Function.update_of_ne htt _ _)

theorem setCount_spec {e n : Nat} (h : Inv s) (hs : step blocks s (.setCount e n) = .next s') :
    Inv s' ∧ Quiet s s' := by
  cases hs
  exact ⟨⟨h.mem, h.range, h.limits, h.endData, h.owned, h.distinct, h.asleep, h.empty, h.areas⟩,
    ViewSame.refl _, fun _ => Or.inl rfl, fun _ => Or.inl rfl⟩

end LinuxKernel.V011.Mm.Kernel
