import LinuxKernel.V011.Mm.KernelInv

/-!
# LinuxKernel.V011.Mm.KernelStep

The actions that user space **does** see: a page comes in, an address space is
copied, a page is unshared, a word is stored. Each lemma gives the invariant
and the one way in which the views change.
-/

namespace LinuxKernel.V011.Mm.Kernel

open Memory

variable {blocks : Nat → Blocks} {s s' : State} {t p nr tmp address f : Nat} {k : Task}

/-- A page the kernel holds is mapped nowhere. -/
theorem held_unmapped {m : Memory} (h : m.Inv) (hf : f ∈ m.held) {y : Nat × Nat}
    (hy : y ∈ taskPages) : m.mapsTo y ≠ some f := by
  intro hyf
  rcases h.frame_cases hy hyf with ⟨hu, -⟩ | hlow
  · exact h.held_unmapped hf hu hyf
  · have := h.main_low (h.held_main hf)
    omega

/-- The page of an address in the segment of a task. -/
theorem startCode_page (t a : Nat) :
    (startCode t + a) / 4096 * 4096 = startCode t + a / 4096 * 4096 := by
  have hstart : startCode t = 4096 * (16384 * t) := by
    rw [startCode, ← Nat.mul_assoc, Nat.mul_comm]
  omega

/-! ### Page faults -/

/-- A running task falls asleep in `do_no_page`. -/
theorem Inv.sleep (h : Inv s) {m : Memory} {page : Nat} (hm : m.Inv) (hview : ViewSame s.mem m)
    (hheld : m.held = page :: s.mem.held) (hmem : ∀ q ∈ s.mem.held, m.mem q = s.mem.mem q)
    (hnew : page ∉ s.mem.held) (hzero : m.mem page = fun _ => 0) (hk : s.task t = some k)
    (hrun : s.phase t = .run) (ha : tmp % 4096 = 0) (hlt : tmp < 2 ^ 26)
    (hno : s.mem.view (taskSlot t tmp) = none) (hexe : k.executable ≠ none)
    (hend : tmp < k.endData) :
    Inv { s with mem := m, phase := Function.update s.phase t (.noPage page tmp) } := by
  set s' : State := { s with
    mem := m
    phase := Function.update s.phase t (.noPage page tmp) } with hs'
  have hphase : ∀ t', t' ≠ t → s'.phase t' = s.phase t' := fun t' hne =>
    Function.update_of_ne hne _ _
  have hself : s'.phase t = .noPage page tmp := Function.update_self _ _ _
  have howns : ∀ o f, owns s' o = some f → o = (t, true) ∧ f = page ∨ owns s o = some f := by
    rintro ⟨t', b⟩ f ho
    cases b with
    | false => exact Or.inr ho
    | true =>
        by_cases htt : t' = t
        · subst htt
          rw [owns_asleep hself] at ho
          exact Or.inl ⟨rfl, (Option.some.inj ho).symm⟩
        · right
          simp only [owns, hphase t' htt] at ho ⊢
          exact ho
  have hslot : ∀ t' k' tmp', s.task t' = some k' → tmp' < 2 ^ 26 →
      m.view (taskSlot t' tmp') = s.mem.view (taskSlot t' tmp') := fun t' k' tmp' hk' hlt' =>
    hview _ (userPages_subset (taskSlot_mem (h.range t' k' hk').1 (h.range t' k' hk').2 hlt'))
  refine ⟨hm, h.range, h.limits, h.endData, ?_, ?_, ?_, ?_, h.areas⟩
  · intro o f ho
    rw [show s'.mem.held = page :: s.mem.held from hheld, List.mem_cons]
    rcases howns o f ho with ⟨-, rfl⟩ | ho
    · exact Or.inl rfl
    · exact Or.inr (h.owned o f ho)
  · intro o o' f ho ho'
    rcases howns o f ho with ⟨rfl, hf⟩ | ho <;> rcases howns o' f ho' with ⟨rfl, hf'⟩ | ho'
    · rfl
    · exact absurd (hf ▸ h.owned o' f ho') hnew
    · exact absurd (hf' ▸ h.owned o f ho) hnew
    · exact h.distinct o o' f ho ho'
  · intro t' page' tmp' hp
    by_cases htt : t' = t
    · subst htt
      rw [hself] at hp
      cases hp
      exact ⟨hzero, ha, hlt, (hslot _ k _ hk hlt).trans hno, k, hk, hexe, hend⟩
    · rw [hphase t' htt] at hp
      obtain ⟨hz, ha', hlt', hno', k', hk', hrest⟩ := h.asleep t' page' tmp' hp
      exact ⟨(hmem page' (h.owned (t', true) page' (owns_asleep hp))).trans hz, ha', hlt',
        (hslot _ k' _ hk' hlt').trans hno', k', hk', hrest⟩
  · intro x hx hv
    obtain ⟨k', hk', hp, hlt'⟩ := h.empty x hx (hview x (userPages_subset hx) ▸ hv)
    refine ⟨k', hk', ?_, hlt'⟩
    by_cases htt : x.1 / 16 = t
    · rw [htt, hself]
      simp
    · rw [hphase _ htt]
      exact hp

/-- What a fault of `t` on the page `tmp` brings in at once: a zeroed page past
the data of the executable, or a page of another task. -/
def Faulted (s : State) (t tmp : Nat) (k : Task) (s' : State) : Prop :=
  (∃ f, (k.executable = none ∨ k.endData ≤ tmp) ∧ (∀ y ∈ taskPages, s.mem.mapsTo y ≠ some f) ∧
    Entered s (taskSlot t tmp) (some ⟨f, false, fun _ => 0⟩) s') ∨
  ∃ p, tmp < k.endData ∧ s.mem.SharesFrom s.task s.iCount k t tmp p ∧
    Entered s (taskSlot t tmp) (s.mem.view (taskSlot p tmp)) s'

theorem fault_spec (h : Inv s) (hs : step blocks s (.fault t address) = .next s') :
    Inv s' ∧ (Quiet s s' ∨ Exited s t s' ∨ ∃ k, s.task t = some k ∧ address < 2 ^ 26 ∧
      s.mem.view (taskSlot t address) = none ∧ Faulted s t (address / 4096 * 4096) k s') := by
  simp only [step] at hs
  split at hs
  case h_2 => cases hs
  next k hc =>
  obtain ⟨hk, hrun⟩ := current_some hc
  obtain ⟨ht0, ht⟩ := h.range t k hk
  split at hs
  case isFalse => cases hs
  next hcond =>
  obtain ⟨hlim, hlook⟩ := hcond
  have hlt := h.limit_lt hk hlim
  have hno : s.mem.entryAt (taskSlot t address) = none := by
    rw [← slot_task ht hlt]
    exact hlook
  set tmp := address / 4096 * 4096 with htmp
  have htmplt : tmp < 2 ^ 26 := by omega
  have hslot : taskSlot t tmp = taskSlot t address := taskSlot_page address hlt
  have haddr : (startCode t + address) / 4096 * 4096 = startCode t + tmp := startCode_page t address
  obtain ⟨⟨r, m⟩, hdo, hs⟩ := Outcome.bind_eq_next hs
  obtain ⟨hinv, hheld, hmem, hdone⟩ :=
    (doNoPage_spec h.mem htmplt haddr ht0 ht (by rw [hslot]; exact hno)).of_next hdo
  have hnov : s.mem.view (taskSlot t address) = none := view_eq_none.mpr hno
  cases r with
  | done =>
      cases hs
      have hkeep : Keeps s.mem m := ⟨hheld, hmem⟩
      rcases hdone with ⟨f, hcase, hfresh, hview⟩ | ⟨p, hend, hsrc, hview⟩
      · refine ⟨h.setSlot hinv hk hrun (by omega) hview hkeep, Or.inr (Or.inr ⟨k, hk, hlt, hnov,
          Or.inl ⟨f, hcase, hfresh, hview, rfl, rfl⟩⟩)⟩
      · refine ⟨h.setSlot hinv hk hrun (by omega) hview hkeep, Or.inr (Or.inr ⟨k, hk, hlt, hnov,
          Or.inr ⟨p, hend, hsrc, hview, rfl, rfl⟩⟩)⟩
  | oom =>
      obtain ⟨hinv', hexit⟩ := oom_spec h hinv hdone ⟨hheld, hmem⟩ hk hrun hs
      exact ⟨hinv', Or.inr (Or.inl hexit)⟩
  | read page tmp' =>
      cases hs
      obtain ⟨rfl, hexe, hend, hview, hzero, hnew⟩ := hdone
      refine ⟨h.sleep hinv hview hheld hmem hnew hzero hk hrun (by omega) htmplt
        (by rw [hslot]; exact hnov) hexe hend, Or.inl ⟨hview, fun _ => Or.inl rfl,
        fun _ => Or.inl rfl⟩⟩

/-- A task wakes up and has given away the page it slept with. -/
theorem Inv.wake (h : Inv s) {m : Memory} {page : Nat} {v : Option View} (hm : m.Inv)
    (hp : s.phase t = .noPage page tmp) (hk : s.task t = some k)
    (hview : ViewSet s.mem m (taskSlot t tmp) v) (hheld : m.held = s.mem.held.erase page)
    (hmem : ∀ q ∈ s.mem.held, q ≠ page → m.mem q = s.mem.mem q) :
    Inv { s with mem := m, phase := Function.update s.phase t .run } := by
  obtain ⟨-, -, hlt, -, k₀, hk₀, -, hend⟩ := h.asleep t page tmp hp
  rw [hk] at hk₀
  cases hk₀
  set s' : State := { s with
    mem := m
    phase := Function.update s.phase t .run } with hs'
  have hphase : ∀ t', t' ≠ t → s'.phase t' = s.phase t' := fun t' hne =>
    Function.update_of_ne hne _ _
  have hself : s'.phase t = .run := Function.update_self _ _ _
  have howns : ∀ o f, owns s' o = some f → owns s o = some f ∧ o ≠ (t, true) := by
    rintro ⟨t', b⟩ f ho
    cases b with
    | false => exact ⟨ho, by simp⟩
    | true =>
        have hne : t' ≠ t := by
          rintro rfl
          simp [owns, hself] at ho
        simp only [owns, hphase t' hne] at ho ⊢
        exact ⟨ho, by simp [hne]⟩
  have hother : ∀ t' k' tmp', t' ≠ t → s.task t' = some k' → tmp' < 2 ^ 26 →
      m.view (taskSlot t' tmp') = s.mem.view (taskSlot t' tmp') := by
    intro t' k' tmp' hne hk' hlt'
    refine hview.of_ne (userPages_subset
      (taskSlot_mem (h.range t' k' hk').1 (h.range t' k' hk').2 hlt')) fun hEq => hne ?_
    have := congrArg (fun x : Nat × Nat => x.1 / 16) hEq
    simpa only [taskSlot_div hlt', taskSlot_div hlt] using this
  have hnotpage : ∀ o f, owns s' o = some f → f ≠ page := by
    rintro o f ho rfl
    obtain ⟨ho₀, hne⟩ := howns o f ho
    exact hne (h.distinct o (t, true) f ho₀ (owns_asleep hp))
  refine ⟨hm, h.range, h.limits, h.endData, ?_,
    fun o o' f ho ho' => h.distinct o o' f (howns o f ho).1 (howns o' f ho').1, ?_, ?_, h.areas⟩
  · intro o f ho
    rw [show s'.mem.held = s.mem.held.erase page from hheld,
      List.mem_erase_of_ne (hnotpage o f ho)]
    exact h.owned o f (howns o f ho).1
  · intro t' page' tmp' hp'
    have hne : t' ≠ t := by
      rintro rfl
      rw [hself] at hp'
      cases hp'
    have hpage := hnotpage (t', true) page' (owns_asleep hp')
    rw [hphase t' hne] at hp'
    obtain ⟨hz, ha', hlt', hno', k', hk', hrest⟩ := h.asleep t' page' tmp' hp'
    exact ⟨(hmem page' (h.owned (t', true) page' (owns_asleep hp')) hpage).trans hz, ha', hlt',
      (hother t' k' tmp' hne hk' hlt').trans hno', k', hk', hrest⟩
  · intro x hx hv
    by_cases hxt : x = taskSlot t tmp
    · subst hxt
      rw [taskSlot_div hlt, taskSlot_mod hlt]
      have hle := (h.limits t k hk).1
      exact ⟨k, hk, by rw [hself]; simp, dirNr_lt_dirCount (by omega) (h.limits t k hk).2.2⟩
    · obtain ⟨k', hk', hp', hlt'⟩ := h.empty x hx (hview.of_ne (userPages_subset hx) hxt ▸ hv)
      refine ⟨k', hk', ?_, hlt'⟩
      by_cases htt : x.1 / 16 = t
      · rw [htt, hself]
        simp
      · rw [hphase _ htt]
        exact hp'

theorem load_spec (h : Inv s) (hs : step blocks s (.load t) = .next s') :
    Inv s' ∧ (Exited s t s' ∨ ∃ k e tmp f, s.task t = some k ∧ k.executable = some e ∧
      tmp % 4096 = 0 ∧ tmp < 2 ^ 26 ∧ tmp < k.endData ∧
      (∀ y ∈ taskPages, s.mem.mapsTo y ≠ some f) ∧
      Entered s (taskSlot t tmp) (some ⟨f, false, filePage (blocks e) k.endData tmp⟩) s') := by
  simp only [step] at hs
  split at hs
  case h_2 => cases hs
  next k page tmp hk hp =>
  obtain ⟨ht0, ht⟩ := h.range t k hk
  obtain ⟨hzero, ha, hlt, hno, k₀, hk₀, -, hend⟩ := h.asleep t page tmp hp
  rw [hk] at hk₀
  cases hk₀
  have hheld : page ∈ s.mem.held := h.owned (t, true) page (owns_asleep hp)
  split at hs
  case h_2 => cases hs
  next e hexe =>
  have hslot : slot (startCode t + tmp) = taskSlot t tmp := slot_task ht hlt
  have hd : dirNr (startCode t + tmp) ∈ userDirs := by
    have hmem : slot (startCode t + tmp) ∈ userPages := by
      rw [hslot]
      exact taskSlot_mem ht0 ht hlt
    exact (mem_userPages.mp hmem).1
  obtain ⟨ok, m, hm, hinv, hheld', hmem, hview⟩ := finishNoPage_spec h.mem hheld
    (blocks e) k.endData tmp hd (by rw [hslot]; exact view_eq_none.mp hno)
  rw [hm, Outcome.bind_next] at hs
  rw [hslot] at hview
  cases ok with
  | true =>
      cases hs
      rw [if_pos rfl, hzero] at hview
      exact ⟨h.wake hinv hp hk hview hheld' hmem, Or.inr ⟨k, e, tmp, page, hk, hexe, ha, hlt, hend,
        fun y hy => held_unmapped h.mem hheld hy, hview, rfl, rfl⟩⟩
  | false =>
      have hset : ViewSet s.mem m (taskSlot t tmp) none := fun y hy => by
        rw [hview y hy]
        by_cases hyt : y = taskSlot t tmp
        · rw [hyt, Function.update_self, hno]
        · rw [Function.update_of_ne hyt]
      have hwake := h.wake hinv hp hk hset hheld' hmem
      obtain ⟨s₁, hs₁, hinv₁, hexit⟩ := doExit_spec hwake hk
        (fun page' tmp' => by simp)
      simp only [Bool.false_eq_true, if_false] at hs
      rw [hs₁] at hs
      cases hs
      exact ⟨hinv₁, Or.inl ⟨fun y hy => by rw [hexit.view y hy]; simp only [hview y hy],
        hexit.task, hexit.areas⟩⟩

/-! ### `fork` -/

theorem parent_some (h : parent s p = some k) :
    p = 0 ∧ k = initTask ∨ 0 < p ∧ s.task p = some k ∧ s.phase p = .run ∧ s.areas p = [] := by
  unfold parent at h
  split at h
  · next hp => exact Or.inl ⟨hp, (Option.some.inj h).symm⟩
  · next hp =>
    split at h
    · next hc => exact Or.inr ⟨by omega, h, hc.1, hc.2⟩
    · cases h

/-- The new task `nr` looks like its parent `p`, task by task and page by page. -/
structure Forked (s : State) (p nr : Nat) (k : Task) (s' : State) : Prop where
  parent : parent s p = some k
  new : s.task nr = none
  range : 0 < nr ∧ nr < 64
  view : ∀ y ∈ taskPages, s'.mem.view y =
    if y ∈ userPages ∧ y.1 / 16 = nr then
      if y.1 % 16 < dirCount k.dataLimit ∧ y.2 < entriesCopied p then
        s.mem.view (16 * p + y.1 % 16, y.2)
      else none
    else s.mem.view y
  task : ∃ page, s'.task = Function.update s.task nr (some { k with page := page })
  areas : s'.areas = Function.update s.areas nr []

theorem parent_limits (h : Inv s) (hp : parent s p = some k) :
    k.endData ≤ k.dataLimit ∧ k.codeLimit ≤ k.dataLimit ∧ k.dataLimit ≤ 2 ^ 26 ∧
      (p = 0 → k.dataLimit = 0xA0000) := by
  rcases parent_some hp with ⟨-, rfl⟩ | ⟨hp0, hk, -⟩
  · exact ⟨by decide, by decide, by decide, fun _ => rfl⟩
  · obtain ⟨h1, h2, h3⟩ := h.limits p k hk
    exact ⟨h1, h2, h3, fun h0 => by omega⟩

/-- A child that has been entered in the task table. -/
theorem Inv.newTask (h : Inv s) {m : Memory} {page : Nat} {iCount : Nat → Nat} (hm : m.Inv)
    (hheld : m.held = page :: s.mem.held) (hmem : ∀ q ∈ s.mem.held, m.mem q = s.mem.mem q)
    (hnew : page ∉ s.mem.held) (hp : parent s p = some k) (hno : s.task nr = none)
    (hnr : 0 < nr ∧ nr < 64)
    (hchild : ∀ y ∈ userPages, y.1 / 16 = nr → m.view y ≠ none → y.1 % 16 < dirCount k.dataLimit)
    (hview : ∀ y ∈ userPages, y.1 / 16 ≠ nr → m.view y = s.mem.view y) :
    Inv ⟨m, Function.update s.task nr (some { k with page := page }),
      Function.update s.phase nr .run, Function.update s.areas nr [], iCount⟩ := by
  obtain ⟨hend, hcode, hdata, -⟩ := parent_limits h hp
  set s' : State := ⟨m, Function.update s.task nr (some { k with page := page }),
    Function.update s.phase nr .run, Function.update s.areas nr [], iCount⟩ with hs'
  have htask : ∀ t, t ≠ nr → s'.task t = s.task t := fun t hne => Function.update_of_ne hne _ _
  have hself : s'.task nr = some { k with page := page } := Function.update_self _ _ _
  have hphase : ∀ t, t ≠ nr → s'.phase t = s.phase t := fun t hne => Function.update_of_ne hne _ _
  have hrun : s'.phase nr = .run := Function.update_self _ _ _
  have howns : ∀ o f, owns s' o = some f → o = (nr, false) ∧ f = page ∨ owns s o = some f := by
    rintro ⟨t, b⟩ f ho
    by_cases htn : t = nr
    · subst htn
      cases b with
      | false =>
          simp only [owns, hself, Option.map_some] at ho
          exact Or.inl ⟨rfl, (Option.some.inj ho).symm⟩
      | true => simp [owns, hrun] at ho
    · right
      cases b <;> simp only [owns, htask t htn, hphase t htn] at ho ⊢ <;> exact ho
  have hsleep : ∀ t page tmp, s.phase t = .noPage page tmp → t ≠ nr := by
    rintro t page' tmp hp' rfl
    obtain ⟨-, -, -, -, k', hk', -⟩ := h.asleep t page' tmp hp'
    rw [hno] at hk'
    cases hk'
  refine ⟨hm, ?_, ?_, ?_, ?_, ?_, ?_, ?_, ?_⟩
  · intro t k' hk'
    by_cases htn : t = nr
    · exact htn ▸ hnr
    · exact h.range t k' (htask t htn ▸ hk')
  · intro t k' hk'
    by_cases htn : t = nr
    · subst htn
      rw [hself] at hk'
      cases hk'
      exact ⟨hend, hcode, hdata⟩
    · exact h.limits t k' (htask t htn ▸ hk')
  · -- the child agrees with every task its parent agrees with
    have hsrc : ∀ t k', s'.task t = some k' → k'.executable ≠ none →
        ∃ t₀ k₀, s.task t₀ = some k₀ ∧ k₀.executable = k'.executable ∧ k₀.endData = k'.endData := by
      intro t k' hk' hexe
      by_cases htn : t = nr
      · subst htn
        rw [hself] at hk'
        cases hk'
        rcases parent_some hp with ⟨-, rfl⟩ | ⟨-, hk, -⟩
        · exact absurd rfl hexe
        · exact ⟨p, k, hk, rfl, rfl⟩
      · exact ⟨t, k', htask t htn ▸ hk', rfl, rfl⟩
    intro t t' k₁ k₂ hk₁ hk₂ hexe heq
    obtain ⟨t₁, k₁', hk₁', hx₁, he₁⟩ := hsrc t k₁ hk₁ hexe
    obtain ⟨t₂, k₂', hk₂', hx₂, he₂⟩ := hsrc t' k₂ hk₂ (heq ▸ hexe)
    rw [← he₁, ← he₂]
    exact h.endData t₁ t₂ k₁' k₂' hk₁' hk₂' (hx₁ ▸ hexe) (by rw [hx₁, hx₂, heq])
  · intro o f ho
    rw [show s'.mem.held = page :: s.mem.held from hheld, List.mem_cons]
    rcases howns o f ho with ⟨-, rfl⟩ | ho
    · exact Or.inl rfl
    · exact Or.inr (h.owned o f ho)
  · intro o o' f ho ho'
    rcases howns o f ho with ⟨rfl, hf⟩ | ho <;> rcases howns o' f ho' with ⟨rfl, hf'⟩ | ho'
    · rfl
    · exact absurd (hf ▸ h.owned o' f ho') hnew
    · exact absurd (hf' ▸ h.owned o f ho) hnew
    · exact h.distinct o o' f ho ho'
  · intro t page' tmp' hp'
    have hne : t ≠ nr := by
      rintro rfl
      rw [hrun] at hp'
      cases hp'
    rw [hphase t hne] at hp'
    obtain ⟨hz, ha, hlt, hno', k', hk', hrest⟩ := h.asleep t page' tmp' hp'
    have hslot := taskSlot_mem (h.range t k' hk').1 (h.range t k' hk').2 hlt
    exact ⟨(hmem page' (h.owned (t, true) page' (owns_asleep hp'))).trans hz, ha, hlt,
      (hview _ hslot (by rw [taskSlot_div hlt]; exact hne)).trans hno', k',
      (htask t hne).trans hk', hrest⟩
  · intro x hx hv
    by_cases hxn : x.1 / 16 = nr
    · rw [hxn]
      exact ⟨_, hself, by rw [hrun]; simp, hchild x hx hxn hv⟩
    · rw [htask _ hxn, hphase _ hxn]
      exact h.empty x hx (hview x hx hxn ▸ hv)
  · intro t hne
    by_cases htn : t = nr
    · exact htn ▸ hnr
    · refine h.areas t ?_
      rwa [show s'.areas t = s.areas t from Function.update_of_ne htn _ _] at hne

theorem fork_spec (h : Inv s) (hs : step blocks s (.fork p nr) = .next s') :
    Inv s' ∧ (Quiet s s' ∨ ∃ k, Forked s p nr k s') := by
  simp only [step] at hs
  split at hs
  case isFalse => cases hs
  next hcond =>
  obtain ⟨hp64, hnr0, hnr, hno⟩ := hcond
  split at hs
  case h_2 => cases hs
  next k hp =>
  obtain ⟨-, -, hdata, hfirst⟩ := parent_limits h hp
  have hne : p ≠ nr := by
    rintro rfl
    rcases parent_some hp with ⟨h0, -⟩ | ⟨-, hk, -⟩
    · omega
    · rw [hno] at hk
      cases hk
  have habsent : ∀ y ∈ userPages, y.1 / 16 = nr → s.mem.view y = none := by
    intro y hy hyn
    by_contra hv
    obtain ⟨k', hk', -⟩ := h.empty y hy hv
    rw [hyn, hno] at hk'
    cases hk'
  unfold copyProcess at hs
  cases hg : s.mem.getFreePage with
  | mk r m =>
    rw [hg] at hs
    cases r with
    | none =>
        cases hs
        obtain rfl := getFreePage_none hg
        exact ⟨h.setMem (h.mem.setDeny _) (fun _ _ => Iff.rfl) ⟨rfl, fun _ _ => rfl⟩,
          Or.inl (.of_same fun _ _ => rfl)⟩
    | some page =>
        have hfr := getFreePage_fresh h.mem hg
        dsimp only at hs
        split at hs
        · cases hs
        obtain ⟨⟨ok, m₂⟩, hcopy, hs⟩ := Outcome.bind_eq_next hs
        obtain ⟨hinv₂, hkeep₂, hview₂⟩ :=
          (copyMem_spec hfr.inv hp64 hnr0 hnr hne hfirst hdata).of_next hcopy
        have hheld₂ : m₂.held = page :: s.mem.held := hkeep₂.held.trans hfr.held
        have hmem₂ : ∀ q ∈ s.mem.held, m₂.mem q = s.mem.mem q := fun q hq =>
          (hkeep₂.mem q (hfr.held ▸ List.mem_cons_of_mem _ hq)).trans (hfr.held_mem h.mem q hq)
        have hcount := dirCount_le hdata
        have hsrc : ∀ y ∈ userPages, y.1 / 16 = nr → y.1 % 16 < dirCount k.dataLimit →
            y.2 < entriesCopied p → (16 * p + y.1 % 16, y.2) ∈ taskPages := by
          intro y _ _ hlt hent
          unfold entriesCopied at hent
          rw [mem_taskPages, mem_userPages, mem_userDirs]
          by_cases hp0 : p = 0
          · rw [hfirst hp0, dirCount_eq (by omega)] at hlt
            rw [if_pos hp0] at hent
            exact Or.inr ⟨by simp only; omega, hent⟩
          · rw [if_neg hp0] at hent
            exact Or.inl ⟨by simp only; omega, hent⟩
        cases ok with
        | true =>
            simp only [if_true] at hs hview₂
            have hview : ∀ y ∈ taskPages, m₂.view y =
                if y ∈ userPages ∧ y.1 / 16 = nr then
                  if y.1 % 16 < dirCount k.dataLimit ∧ y.2 < entriesCopied p then
                    s.mem.view (16 * p + y.1 % 16, y.2)
                  else none
                else s.mem.view y := by
              intro y hy
              rw [hview₂ y hy]
              by_cases hmine : y ∈ userPages ∧ y.1 / 16 = nr
              · rw [if_pos hmine]
                by_cases hin : 16 * nr ≤ y.1 ∧ y.1 < 16 * nr + dirCount k.dataLimit
                · rw [if_pos hin]
                  have hmod : y.1 - 16 * nr = y.1 % 16 := by omega
                  by_cases hent : y.2 < entriesCopied p
                  · rw [if_pos hent, if_pos ⟨by omega, hent⟩, hmod,
                      hfr.view h.mem (hsrc y hmine.1 hmine.2 (by omega) hent)]
                  · rw [if_neg hent, if_neg (fun hc => hent hc.2), hfr.view h.mem hy,
                      habsent y hmine.1 hmine.2]
                · rw [if_neg hin, if_neg (by omega), hfr.view h.mem hy,
                    habsent y hmine.1 hmine.2]
              · have hout : ¬ (16 * nr ≤ y.1 ∧ y.1 < 16 * nr + dirCount k.dataLimit) := by
                  intro hin
                  rcases mem_taskPages.mp hy with hu | ⟨h0, -⟩
                  · exact hmine ⟨hu, by omega⟩
                  · omega
                rw [if_neg hmine, if_neg hout, hfr.view h.mem hy]
            cases hs
            refine ⟨h.newTask hinv₂ hheld₂ hmem₂ (hfr.not_held h.mem) hp hno ⟨hnr0, hnr⟩ ?_ ?_,
              Or.inr ⟨k, hp, hno, ⟨hnr0, hnr⟩, hview, ⟨page, rfl⟩, rfl⟩⟩
            · intro y hy hyn hv
              rw [hview y (userPages_subset hy), if_pos ⟨hy, hyn⟩] at hv
              by_contra hc
              rw [if_neg (fun hc' => hc hc'.1)] at hv
              exact hv rfl
            · intro y hy hyn
              rw [hview y (userPages_subset hy), if_neg (fun hc => hyn hc.2)]
        | false =>
            simp only [Bool.false_eq_true, if_false] at hs hview₂
            obtain ⟨m₃, hm₃, hinv₃, hsame₃, hheld₃, hmem₃⟩ :=
              freePage_held hinv₂ (hheld₂ ▸ List.mem_cons_self)
            rw [hm₃, Outcome.bind_next] at hs
            cases hs
            have hsame : ViewSame s.mem m₃ := by
              intro y hy
              rw [hsame₃ y hy, hview₂ y hy]
              by_cases hin : 16 * nr ≤ y.1 ∧ y.1 < 16 * nr + dirCount k.dataLimit
              · rw [if_pos hin]
                rcases mem_taskPages.mp hy with hu | ⟨h0, -⟩
                · rw [habsent y hu (by omega)]
                · omega
              · rw [if_neg hin, hfr.view h.mem hy]
            rw [hheld₂, List.erase_cons_head] at hheld₃
            have hkeep : Keeps s.mem m₃ := ⟨hheld₃, fun q hq => by rw [hmem₃, hmem₂ q hq]⟩
            exact ⟨h.setMem hinv₃ hsame.presence hkeep, Or.inl (.of_same hsame)⟩

/-! ### Copy on write -/

/-- The page of `t` at `address` is moved to a fresh copy. -/
structure Unshared (s : State) (t address : Nat) (s' : State) : Prop where
  copy : ∃ e, s.mem.entryAt (taskSlot t address) = some e ∧ writable e = false ∧
    s.mem.Copies (pageAddr e) ∧ Copied s.mem s'.mem (taskSlot t address) e
  task : s'.task = s.task
  areas : s'.areas = s.areas

theorem wpFault_spec (h : Inv s) (hs : step blocks s (.wpFault t address) = .next s') :
    Inv s' ∧ (Quiet s s' ∨ Exited s t s' ∨ (address < 2 ^ 26 ∧ (∃ k, s.task t = some k) ∧
      Unshared s t address s')) := by
  simp only [step] at hs
  split at hs
  case h_2 => cases hs
  next k e hc he =>
  obtain ⟨hk, hrun⟩ := current_some hc
  obtain ⟨ht0, ht⟩ := h.range t k hk
  split at hs
  case isFalse => cases hs
  next hcond =>
  obtain ⟨-, hlim, hw⟩ := hcond
  have hlt := h.limit_lt hk hlim
  have hslot : slot (startCode t + address) = taskSlot t address := slot_task ht hlt
  have hmem : slot (startCode t + address) ∈ userPages := by
    rw [hslot]
    exact taskSlot_mem ht0 ht hlt
  have hpres : present (s.mem.pgDir (dirNr (startCode t + address))) = true := by
    by_contra hn
    rw [lookup, entryAt_of_no_table (by simp [tableAt, slot, hn])] at he
    cases he
  have htab := tableAt_some.mpr ⟨hpres, rfl⟩
  cases hp : s.mem.doWpPage (startCode t + address) with
  | mk ok m =>
    obtain ⟨hinv, hkeep, -, hcases⟩ := unWpPage_spec h.mem (mem_userPages.mp hmem).1
      (pageNr_lt _) htab he hp
    rw [hp] at hs
    rcases hcases with hsame | ⟨rfl, hcopies, hcopied⟩
    · cases ok with
      | true =>
          cases hs
          exact ⟨h.setMem hinv hsame.presence hkeep, Or.inl (.of_same hsame)⟩
      | false =>
          obtain ⟨hinv', hexit⟩ := oom_spec h hinv hsame hkeep hk hrun hs
          exact ⟨hinv', Or.inr (Or.inl hexit)⟩
    · cases hs
      have hcopied : Copied s.mem m (slot (startCode t + address)) e := hcopied
      have hpresence : SamePresence s.mem m := by
        obtain ⟨f, -, hset⟩ := hcopied
        exact hset.presence (by rw [Memory.view, show s.mem.entryAt _ = some e from he]; simp)
      refine ⟨h.setMem hinv hpresence hkeep, Or.inr (Or.inr ⟨hlt, ⟨k, hk⟩, ⟨e, ?_, hw, hcopies,
        ?_⟩, rfl, rfl⟩)⟩
      · rw [← hslot]
        exact he
      · rw [← hslot]
        exact hcopied

/-- `verify_area` in a system call of `t`. -/
theorem verifyArea_step {addr : Nat} {size : Int} (h : Inv s)
    (hs : step blocks s (.verifyArea t addr size) = .next s') :
    Inv s' ∧ ∃ k ok m, s.task t = some k ∧ (-2 ^ 31 ≤ size ∧ size < 2 ^ 31) ∧
      s.mem.verifyArea (startCode t) addr size = (ok, m) ∧
      if ok then s' = { s with
        mem := m, areas := Function.update s.areas t ((addr, size) :: s.areas t) }
      else Exited { s with mem := m } t s' := by
  simp only [step] at hs
  split at hs
  case h_2 => cases hs
  next k hc =>
  obtain ⟨hk, hrun⟩ := current_some hc
  split at hs
  case isFalse => cases hs
  next hcond =>
  cases hv : s.mem.verifyArea (startCode t) addr size with
  | mk ok m =>
    rw [hv] at hs
    obtain ⟨hinv, hkeep, hpres, -⟩ := Memory.verifyArea_spec h.mem hv
    have hmem := h.setMem hinv hpres hkeep
    cases ok with
    | true =>
        cases hs
        refine ⟨⟨hmem.mem, hmem.range, hmem.limits, hmem.endData, hmem.owned, hmem.distinct,
          hmem.asleep, hmem.empty, fun t' hne => ?_⟩, k, true, m, hk, hcond.2, rfl, rfl⟩
        by_cases htt : t' = t
        · exact htt ▸ h.range t k hk
        · exact h.areas t' (by simpa [Function.update_of_ne htt] using hne)
    | false =>
        have hnot : ∀ page tmp, s.phase t ≠ .noPage page tmp := fun page tmp => by simp [hrun]
        obtain ⟨s₁, hs₁, hinv₁, hexit⟩ := doExit_spec hmem hk hnot
        dsimp only at hs
        rw [hs₁] at hs
        cases hs
        exact ⟨hinv₁, k, false, m, hk, hcond.2, rfl, hexit⟩

/-! ### Stores -/

/-- A store to a private page is seen in its slot, which becomes dirty. -/
theorem storeWord_spec {m : Memory} (h : m.Inv) (hx : slot address ∈ userPages) {e v : Word}
    (he : m.entryAt (slot address) = some e) (hp : Private m (slot address)) :
    (storeWord m address v).Inv ∧ Keeps m (storeWord m address v) ∧
      ViewSet m (storeWord m address v) (slot address) (some ⟨pageAddr e, true,
        Function.update (m.mem (pageAddr e)) (address % 4096 / 4) v⟩) ∧
      ∀ g, g ≠ pageAddr e → (∀ d ∈ userDirs, m.tableAt d ≠ some g) →
        (storeWord m address v).mem g = m.mem g := by
  have hd := (mem_userPages.mp hx).1
  have hmain := h.main_of_private hx he hp
  have hmaps := mapsTo_of_entry he
  have hpres : present (m.pgDir (dirNr address)) = true := by
    by_contra hn
    rw [entryAt_of_no_table (by simp [tableAt, slot, hn])] at he
    cases he
  have ht : m.tableAt (dirNr address) = some (pageAddr (m.pgDir (dirNr address))) :=
    tableAt_some.mpr ⟨hpres, rfl⟩
  have hword : m.mem (pageAddr (m.pgDir (dirNr address))) (pageNr address) = e := by
    have hread := entryAt_of_table ht (pageNr address)
    rw [show m.entryAt (dirNr address, pageNr address) = some e from he] at hread
    split at hread
    · exact (Option.some.inj hread).symm
    · cases hread
  unfold storeWord
  dsimp only
  rw [hword]
  set t := pageAddr (m.pgDir (dirNr address)) with htt
  set c := Function.update (m.mem (pageAddr e)) (address % 4096 / 4) v with hc
  obtain ⟨hinv₁, hentry₁⟩ := h.storePage hx hmaps hmain c
  have hview₁ := h.storePage_view hx he hmain hp c
  rw [show m.setWord (pageAddr e) (address % 4096 / 4) v = m.setPage (pageAddr e) c from rfl]
  set m₁ := m.setPage (pageAddr e) c with hm₁
  have he₁ : m₁.entryAt (dirNr address, pageNr address) = some e :=
    (hentry₁ _ (dirNr_lt address)).trans he
  have hself₁ : m₁.mem (pageAddr e) = c := by simp [hm₁, setPage]
  -- a writable page has one reference, and a private one may be read-only
  have hwrite : writable (markDirty e) = true →
      m₁.Main (pageAddr e) ∧ m₁.memMap (mapNr (pageAddr e)) = 1 := fun hw => by
    rw [writable_markDirty] at hw
    exact ⟨hmain, (h.writable_exclusive hx he hw).2⟩
  obtain ⟨hinv₂, hview₂⟩ := hinv₁.setFlags (w := markDirty e) hd (pageNr_lt address) ht he₁
    ((present_markDirty e).trans (entryAt_present he)) (pageAddr_markDirty e) hwrite
  have hkeep₂ := hinv₁.keeps_setWord hd ht (pageNr address) (markDirty e)
  refine ⟨hinv₂, ⟨rfl, fun q hq => ?_⟩, ?_, fun g hg hgt => ?_⟩
  · have hne : q ≠ pageAddr e := by
      rintro rfl
      exact h.held_unmapped hq hx hmaps
    exact (hkeep₂.mem q hq).trans (Function.update_of_ne hne _ _)
  · intro y hy
    rw [dirty_markDirty, hself₁] at hview₂
    by_cases hyx : y = slot address
    · subst hyx
      rw [Function.update_self]
      exact hview₂.self hy
    · rw [Function.update_of_ne hyx, hview₂.of_ne hy hyx, hview₁.of_ne hy hyx]
  · have hgt' : g ≠ t := fun hEq => hgt _ hd (hEq ▸ ht)
    exact (setWord_mem_of_ne hgt').trans (Function.update_of_ne hg _ _)

/-- A word of the page of `t` at `address` has been stored. -/
def Stored (s : State) (t address : Nat) (s' : State) : Prop :=
  ∃ f c, Entered s (taskSlot t address) (some ⟨f, true, c⟩) s' ∧
    s.mem.mapsTo (taskSlot t address) = some f

theorem userStore_spec {v : Word} (h : Inv s)
    (hs : step blocks s (.userStore t address v) = .next s') :
    Inv s' ∧ address < 2 ^ 26 ∧ (∃ k, s.task t = some k) ∧ Stored s t address s' := by
  simp only [step] at hs
  split at hs
  case h_2 => cases hs
  next k e hc he =>
  obtain ⟨hk, hrun⟩ := current_some hc
  obtain ⟨ht0, ht⟩ := h.range t k hk
  split at hs
  case isFalse => cases hs
  next hcond =>
  obtain ⟨-, hlim, hw⟩ := hcond
  have hlt := h.limit_lt hk hlim
  have hslot : slot (startCode t + address) = taskSlot t address := slot_task ht hlt
  have hmem : slot (startCode t + address) ∈ userPages := by
    rw [hslot]
    exact taskSlot_mem ht0 ht hlt
  obtain ⟨hinv, hkeep, hview, -⟩ := storeWord_spec (v := v) h.mem hmem he
    (h.mem.private_of_writable hmem he hw)
  cases hs
  have hpresence := hview.presence (by
    rw [Memory.view, show s.mem.entryAt _ = some e from he]; simp)
  have hmaps : s.mem.mapsTo (slot (startCode t + address)) = some (pageAddr e) :=
    mapsTo_of_entry he
  rw [hslot] at hview hmaps
  exact ⟨h.setMem hinv hpresence hkeep, hlt, ⟨k, hk⟩, _, _, ⟨hview, rfl, rfl⟩, hmaps⟩

theorem kernelStore_enabled {v : Word} (hs : step blocks s (.kernelStore t address v) = .next s') :
    ∃ k e, s.task t = some k ∧ address < k.dataLimit ∧ Verified s t address ∧
      s.mem.entryAt (slot (startCode t + address)) = some e ∧
      s' = { s with mem := storeWord s.mem (startCode t + address) v } := by
  simp only [step] at hs
  split at hs
  case h_2 => cases hs
  next k e hc he =>
  split at hs
  case isFalse => cases hs
  next hcond =>
  cases hs
  exact ⟨k, e, (current_some hc).1, hcond.1, hcond.2, he, rfl⟩

theorem kernelStore_spec {v : Word} (h : Inv s)
    (hs : step blocks s (.kernelStore t address v) = .next s')
    (hp : Private s.mem (taskSlot t address)) :
    Inv s' ∧ address < 2 ^ 26 ∧ (∃ k, s.task t = some k) ∧ Stored s t address s' ∧
      ∀ g, s.mem.mapsTo (taskSlot t address) ≠ some g →
        (∀ d ∈ userDirs, s.mem.tableAt d ≠ some g) → s'.mem.mem g = s.mem.mem g := by
  obtain ⟨k, e, hk, hlim, -, he, rfl⟩ := kernelStore_enabled hs
  obtain ⟨ht0, ht⟩ := h.range t k hk
  have hlt := h.limit_lt hk hlim
  have hslot : slot (startCode t + address) = taskSlot t address := slot_task ht hlt
  have hmem : slot (startCode t + address) ∈ userPages := by
    rw [hslot]
    exact taskSlot_mem ht0 ht hlt
  obtain ⟨hinv, hkeep, hview, hrest⟩ := storeWord_spec (v := v) h.mem hmem he
    (by rw [hslot]; exact hp)
  have hpresence := hview.presence (by rw [Memory.view, he]; simp)
  have hmaps : s.mem.mapsTo (slot (startCode t + address)) = some (pageAddr e) :=
    mapsTo_of_entry he
  rw [hslot] at hview hmaps
  refine ⟨h.setMem hinv hpresence hkeep, hlt, ⟨k, hk⟩, ⟨_, _, ⟨hview, rfl, rfl⟩, hmaps⟩,
    fun g hg hgt => hrest g ?_ hgt⟩
  rintro rfl
  exact hg hmaps

end LinuxKernel.V011.Mm.Kernel
