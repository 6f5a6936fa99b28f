import LinuxKernel.V011.Mm.Page

/-!
# LinuxKernel.V011.Mm.Table

Freeing and copying **whole address spaces**: `free_page_tables` and
`copy_page_tables`. Each loop has one lemma for its round and one for its run;
a run says what the view of every slot is afterwards.

A slot is cleared in two stores (the count, then the entry) and shared in
three, so the invariant is re-established once per round, not per store.
-/

namespace LinuxKernel.V011.Mm

namespace Memory

variable {s s' : Memory} {f d i t : Nat}

/-! ### Freeing -/

/-- An entry is cleared and its page loses a reference. -/
theorem Inv.clearSlot (h : s.Inv) (hd : d ∈ userDirs) (hi : i < 1024)
    (ht : s.tableAt d = some t) {m : Nat → Nat}
    (hdec : ∀ g, s.Main g → s.mapsTo (d, i) = some g → m (mapNr g) = s.memMap (mapNr g) - 1)
    (hkeep : ∀ n, (∀ g, s.Main g → s.mapsTo (d, i) = some g → mapNr g ≠ n) → m n = s.memMap n) :
    (({ s with memMap := m } : Memory).setWord t i 0).Inv ∧
      ViewSet s (({ s with memMap := m } : Memory).setWord t i 0) (d, i) none := by
  have hx : (d, i) ∈ userPages := mem_userPages.mpr ⟨hd, hi⟩
  set s' := ({ s with memMap := m } : Memory).setWord t i 0 with hs'
  have hentry : ∀ y : Nat × Nat, y.1 < 1024 →
      s'.entryAt y = if y = (d, i) then none else s.entryAt y := fun y hy => by
    have := h.entryAt_setWord (i := i) (w := 0#32) hd ht hy
    rw [present_zero] at this
    exact this
  have hself : s'.entryAt (d, i) = none := by
    rw [hentry (d, i) (dir_lt_of_userPages hx), if_pos rfl]
  have hother : ∀ y ∈ userPages, y ≠ (d, i) → s'.entryAt y = s.entryAt y := fun y hy hne => by
    rw [hentry y (dir_lt_of_userPages hy), if_neg hne]
  constructor
  · refine h.of_ledger rfl rfl (fun _ _ => rfl) (fun p hp => setWord_mem_of_ne ?_)
      (fun n hn => hkeep n fun g hg _ => hn g hg) ?_ ?_
    · have := h.main_low (h.table hd ht)
      omega
    · intro y hy g hyg
      by_cases hne : y = (d, i)
      · rw [hne, mapsTo, hself] at hyg
        cases hyg
      · rw [mapsTo, hother y hy hne] at hyg
        exact h.low y hy g hyg
    · refine h.ledger.unmap hx ?_ ?_ (fun _ _ => rfl) rfl ?_ ?_
      · rw [ledger_entry, hself]; rfl
      · intro y hy hne
        rw [ledger_entry, ledger_entry, hother y hy hne]
      · intro g hg hxg
        rw [ledger_maps] at hxg
        exact hdec g hg hxg
      · intro g hg hxg
        rw [ledger_maps] at hxg
        exact hkeep (mapNr g) fun g' hg' hxg' =>
          h.mapNr_ne hg' hg fun hEq => hxg (hEq ▸ hxg')
  · intro y hy
    by_cases hne : y = (d, i)
    · subst hne
      rw [Function.update_self, view_eq_none]
      exact hself
    · rw [Function.update_of_ne hne]
      exact h.view_setWord hd ht hy hne

/-- One round of the inner loop of `free_page_tables`. -/
theorem freeEntry_spec (h : s.Inv) (hd : d ∈ userDirs) (hi : i < 1024)
    (ht : s.tableAt d = some t) :
    ∃ s', s.freeEntry t i = .next s' ∧ s'.Inv ∧ ViewSet s s' (d, i) none ∧
      s'.tableAt = s.tableAt ∧ Keeps s s' := by
  have hx : (d, i) ∈ userPages := mem_userPages.mpr ⟨hd, hi⟩
  have hread := entryAt_of_table ht i
  have hmem := (h.keeps_setWord hd ht i 0).mem
  unfold freeEntry
  by_cases hpres : present (s.mem t i) = true
  · rw [if_pos hpres] at hread ⊢
    have hmaps := mapsTo_of_entry hread
    set f := pageAddr (s.mem t i) with hf
    by_cases hlow : f < LOW_MEM
    · -- a kernel page: `free_page` does not count it
      obtain ⟨hinv, hview⟩ := h.clearSlot (m := s.memMap) hd hi ht
        (fun g hg hxg => absurd (h.main_low hg) (by
          rw [hmaps] at hxg
          cases hxg
          omega)) fun _ _ => rfl
      refine ⟨_, ?_, hinv, hview, rfl, rfl, hmem⟩
      rw [freePage, if_pos hlow]
      rfl
    · have hmain : s.Main f := by
        rcases h.frame_cases (userPages_subset hx) hmaps with ⟨-, hm⟩ | hl
        · exact hm
        · exact absurd hl hlow
      have hpos := h.ledger.cnt_pos (f := f) hx (by rw [ledger_maps]; exact hmaps) hmain
      rw [ledger_cnt] at hpos
      have hle := h.count_le hx hmaps hmain
      have hunheld : f ∉ s.held := fun hmem => h.held_unmapped hmem hx hmaps
      obtain ⟨hinv, hview⟩ := h.clearSlot
        (m := Function.update s.memMap (mapNr f) ((s.memMap (mapNr f) - 1) % 256)) hd hi ht
        (fun g hg hxg => by
          rw [hmaps] at hxg
          cases hxg
          rw [Function.update_self]
          omega)
        fun n hn => Function.update_of_ne (hn f hmain hmaps).symm _ _
      refine ⟨_, ?_, hinv, hview, rfl, rfl, hmem⟩
      rw [freePage, if_neg hlow, if_neg (not_le.mpr hmain.2.2), if_pos (by omega)]
      simp [unhold, setMap, List.erase_of_not_mem hunheld]
  · rw [if_neg hpres] at hread ⊢
    have hmaps : s.mapsTo (d, i) = none := by rw [mapsTo, hread]; rfl
    obtain ⟨hinv, hview⟩ := h.clearSlot (m := s.memMap) hd hi ht
      (fun g _ hxg => by rw [hmaps] at hxg; cases hxg) fun _ _ => rfl
    exact ⟨_, rfl, hinv, hview, rfl, rfl, hmem⟩

/-- The inner loop of `free_page_tables`. -/
theorem freeEntries_spec {n : Nat} (h : s.Inv) (hd : d ∈ userDirs) (hn : i + n ≤ 1024)
    (ht : s.tableAt d = some t) :
    ∃ s', s.freeEntries t i n = .next s' ∧ s'.Inv ∧ s'.tableAt = s.tableAt ∧ Keeps s s' ∧
      ∀ y ∈ taskPages,
        s'.view y = if y.1 = d ∧ i ≤ y.2 ∧ y.2 < i + n then none else s.view y := by
  induction n generalizing s i with
  | zero =>
      refine ⟨s, rfl, h, rfl, Keeps.refl s, fun y _ => ?_⟩
      rw [if_neg (by omega)]
  | succ n ih =>
      obtain ⟨s₁, hs₁, hinv₁, hview₁, htab₁, hkeep₁⟩ := freeEntry_spec (i := i) h hd (by omega) ht
      obtain ⟨s₂, hs₂, hinv₂, htab₂, hkeep₂, hview₂⟩ :=
        ih (i := i + 1) hinv₁ (by omega) (by rw [htab₁]; exact ht)
      refine ⟨s₂, ?_, hinv₂, htab₂.trans htab₁, hkeep₁.trans hkeep₂, fun y hy => ?_⟩
      · rw [freeEntries, hs₁]
        exact hs₂
      · rw [hview₂ y hy]
        by_cases hyx : y = (d, i)
        · subst hyx
          rw [hview₁.self hy, if_neg (by simp), if_pos (by simp)]
        · rw [hview₁.of_ne hy hyx]
          have hne : ¬ (y.1 = d ∧ y.2 = i) := fun ⟨h1, h2⟩ => hyx (Prod.ext h1 h2)
          congr 1
          exact propext (by omega)

/-- A table without entries is given back. -/
theorem removeTable_spec (h : s.Inv) (hd : d ∈ userDirs) (ht : s.tableAt d = some t)
    (hempty : ∀ j < 1024, s.entryAt (d, j) = none) :
    ∃ s', s.freePage t = .next s' ∧ (s'.setPgDir d 0).Inv ∧ ViewSame s (s'.setPgDir d 0) ∧
      Keeps s (s'.setPgDir d 0) := by
  have hmain := h.table hd ht
  have hone := h.table_count hd ht
  have hlow := h.main_low hmain
  have hunheld : t ∉ s.held := fun hmem => h.held_ne_table hmem hd ht rfl
  set s₁ := (s.setMap (mapNr t) (s.memMap (mapNr t) - 1)).unhold t with hs₁
  set s₂ := s₁.setPgDir d 0 with hs₂
  have hkeep : s₂.held = s.held := List.erase_of_not_mem hunheld
  have hself : s₂.tableAt d = none := by
    simp [hs₂, tableAt, setPgDir, present_zero]
  have hother : ∀ d', d' ≠ d → s₂.tableAt d' = s.tableAt d' := fun d' hne =>
    setPgDir_tableAt_of_ne hne
  have hentry : ∀ x ∈ taskPages, s₂.entryAt x = s.entryAt x := by
    rintro ⟨d', j⟩ hx
    by_cases hne : d' = d
    · subst hne
      have hj : j < 1024 := by
        rcases mem_taskPages.mp hx with hu | ⟨-, hj⟩
        · exact (mem_userPages.mp hu).2
        · simp only at hj; omega
      have hnew : s₂.entryAt (d', j) = none := entryAt_of_no_table hself
      rw [hnew, hempty j hj]
    · exact entryAt_congr_mem (hother d' hne) fun _ _ => rfl
  have hmap : ∀ n, n ≠ mapNr t → s₂.memMap n = s.memMap n := fun n hn =>
    setMap_memMap_of_ne hn
  have hzero : s₂.memMap (mapNr t) = 0 := by
    have hset : s₂.memMap (mapNr t) = (s.memMap (mapNr t) - 1) % 256 := setMap_memMap_self _ _ _
    omega
  refine ⟨s₁, ?_, ?_, fun x hx => view_congr (hentry x hx) fun _ _ => rfl,
    hkeep, fun _ _ => rfl⟩
  · rw [freePage, if_neg (by omega), if_neg (not_le.mpr hmain.2.2), if_pos (by omega)]
  · refine h.of_ledger rfl rfl (fun d' hd' => hother d' ?_) (fun _ _ => rfl)
      (fun n hn => hmap n fun hEq => hn t hmain hEq.symm) ?_ ?_
    · rintro rfl
      simp at hd
      omega
    · intro x hx g hxg
      rw [mapsTo, hentry x (userPages_subset hx)] at hxg
      exact h.low x hx g hxg
    · refine h.ledger.remove hd ht ?_ hself (fun d' _ hne => hother d' hne) hkeep hzero ?_
      · intro x hx
        rw [ledger_entry, ledger_entry, hentry x (userPages_subset hx)]
      · intro g hg hne
        exact hmap (mapNr g) (h.mapNr_ne hg hmain hne)

/-- The outer loop of `free_page_tables`. -/
theorem freeDirs_spec {n : Nat} (h : s.Inv) (hlo : 16 ≤ d) (hhi : d + n ≤ 1024) :
    ∃ s', s.freeDirs d n = .next s' ∧ s'.Inv ∧ Keeps s s' ∧
      ∀ y ∈ taskPages, s'.view y = if d ≤ y.1 ∧ y.1 < d + n then none else s.view y := by
  induction n generalizing s d with
  | zero =>
      refine ⟨s, rfl, h, Keeps.refl s, fun y _ => ?_⟩
      rw [if_neg (by omega)]
  | succ n ih =>
      have hd : d ∈ userDirs := by simp; omega
      unfold freeDirs
      by_cases hpres : present (s.pgDir d) = true
      · rw [if_pos hpres]
        have ht : s.tableAt d = some (pageAddr (s.pgDir d)) := tableAt_some.mpr ⟨hpres, rfl⟩
        obtain ⟨s₁, hs₁, hinv₁, htab₁, hkeep₁, hview₁⟩ :=
          freeEntries_spec h hd (by omega : 0 + 1024 ≤ 1024) ht
        have ht₁ : s₁.tableAt d = some (pageAddr (s.pgDir d)) := by rw [htab₁]; exact ht
        have haddr : pageAddr (s₁.pgDir d) = pageAddr (s.pgDir d) := (tableAt_some.mp ht₁).2
        have hempty : ∀ j < 1024, s₁.entryAt (d, j) = none := fun j hj => by
          rw [← view_eq_none, hview₁ (d, j) (userPages_subset (mem_userPages.mpr ⟨hd, hj⟩)),
            if_pos ⟨rfl, by omega, by simpa using hj⟩]
        obtain ⟨s₂, hs₂, hinv₂, hview₂, hkeep₂⟩ := removeTable_spec hinv₁ hd ht₁ hempty
        obtain ⟨s₃, hs₃, hinv₃, hkeep₃, hview₃⟩ :=
          ih hinv₂ (by omega : 16 ≤ d + 1) (by omega : d + 1 + n ≤ 1024)
        refine ⟨s₃, ?_, hinv₃, (hkeep₁.trans hkeep₂).trans hkeep₃, fun y hy => ?_⟩
        · rw [hs₁, Outcome.bind_next, haddr, hs₂, Outcome.bind_next, hs₃]
        · have hy2 : y.2 < 1024 := by
            rcases mem_taskPages.mp hy with hu | ⟨-, hj⟩
            · exact (mem_userPages.mp hu).2
            · omega
          rw [hview₃ y hy, hview₂ y hy, hview₁ y hy]
          by_cases hyd : y.1 = d
          · rw [if_neg (by omega), if_pos (by omega), if_pos (by omega)]
          · rw [if_neg (by omega : ¬ (y.1 = d ∧ 0 ≤ y.2 ∧ y.2 < 0 + 1024))]
            congr 1
            exact propext (by omega)
      · rw [if_neg hpres]
        obtain ⟨s₁, hs₁, hinv₁, hkeep₁, hview₁⟩ :=
          ih h (by omega : 16 ≤ d + 1) (by omega : d + 1 + n ≤ 1024)
        refine ⟨s₁, hs₁, hinv₁, hkeep₁, fun y hy => ?_⟩
        rw [hview₁ y hy]
        by_cases hyd : y.1 = d
        · have hnone : s.view y = none := view_eq_none.mpr
            (entryAt_of_no_table (by simp [tableAt, hyd, hpres]))
          rw [hnone, ite_self, ite_self]
        · congr 1
          exact propext (by omega)

theorem dirCount_eq {size : Nat} (h : size ≤ 2 ^ 26) : dirCount size = (size + 0x3fffff) / 2 ^ 22 := by
  rw [dirCount, Nat.shiftRight_eq_div_pow, Nat.mod_eq_of_lt (by omega)]

theorem dirCount_le {size : Nat} (h : size ≤ 2 ^ 26) : dirCount size ≤ 16 := by
  rw [dirCount_eq h]
  omega

theorem aligned (nr : Nat) : (nr * 0x4000000) &&& 0x3fffff = 0 := by
  rw [show 0x3fffff = 2 ^ 22 - 1 from rfl, Nat.and_two_pow_sub_one_eq_mod]
  omega

theorem dirNr_task {nr : Nat} (h : nr < 64) : dirNr (nr * 0x4000000) = 16 * nr := by
  rw [dirNr_eq (by omega)]
  omega

/-- `free_page_tables` on a range above task 0. -/
theorem freePageTables_spec (h : s.Inv) {addr size : Nat} (hlo : 16 ≤ dirNr addr)
    (hhi : dirNr addr + dirCount size ≤ 1024) :
    (s.freePageTables addr size).Ends noFreePanic fun s' => s'.Inv ∧ Keeps s s' ∧
      ∀ y ∈ taskPages, s'.view y =
        if dirNr addr ≤ y.1 ∧ y.1 < dirNr addr + dirCount size then none else s.view y := by
  unfold freePageTables
  split
  · exact ⟨by decide, by decide⟩
  · split
    · exact ⟨by decide, by decide⟩
    · obtain ⟨s', hs', hinv, hkeep, hview⟩ := freeDirs_spec h hlo hhi
      rw [hs']
      exact ⟨hinv, hkeep, hview⟩

/-- `free_page_tables` on the range of a task does not panic. -/
theorem freePageTables_task (h : s.Inv) {nr size : Nat} (hnr : 0 < nr) (hlt : nr < 64)
    (hsize : size ≤ 2 ^ 26) :
    ∃ s', s.freePageTables (nr * 0x4000000) size = .next s' ∧ s'.Inv ∧ Keeps s s' ∧
      ∀ y ∈ taskPages, s'.view y =
        if 16 * nr ≤ y.1 ∧ y.1 < 16 * nr + dirCount size then none else s.view y := by
  have hcount := dirCount_le hsize
  obtain ⟨s', hs', hinv, hkeep, hview⟩ :=
    freeDirs_spec h (by omega : 16 ≤ 16 * nr) (by omega : 16 * nr + dirCount size ≤ 1024)
  refine ⟨s', ?_, hinv, hkeep, hview⟩
  rw [freePageTables, if_neg (not_not.mpr (aligned nr)), if_neg (by omega), dirNr_task hlt]
  exact hs'

/-! ### Sharing an entry -/

/-- New flags for a present entry; write access needs a count of one. -/
theorem Inv.setFlags (h : s.Inv) (hd : d ∈ userDirs) (hi : i < 1024) (ht : s.tableAt d = some t)
    {e w : Word} (he : s.entryAt (d, i) = some e) (hpres : present w = true)
    (haddr : pageAddr w = pageAddr e)
    (hw : writable w = true → s.Main (pageAddr e) ∧ s.memMap (mapNr (pageAddr e)) = 1) :
    (s.setWord t i w).Inv ∧
      ViewSet s (s.setWord t i w) (d, i) (some ⟨pageAddr e, dirty w, s.mem (pageAddr e)⟩) := by
  have hx : (d, i) ∈ userPages := mem_userPages.mpr ⟨hd, hi⟩
  have hself : (s.setWord t i w).entryAt (d, i) = some w := by
    rw [h.entryAt_setWord hd ht (dir_lt_of_userPages hx), if_pos rfl, if_pos hpres]
  have hother : ∀ y ∈ userPages, y ≠ (d, i) → (s.setWord t i w).entryAt y = s.entryAt y :=
    fun y hy hne => by rw [h.entryAt_setWord hd ht (dir_lt_of_userPages hy), if_neg hne]
  have hmaps : ∀ y ∈ userPages, (s.setWord t i w).mapsTo y = s.mapsTo y := fun y hy => by
    by_cases hne : y = (d, i)
    · rw [hne, mapsTo_of_entry hself, mapsTo_of_entry he, haddr]
    · rw [mapsTo, hother y hy hne, mapsTo]
  constructor
  · refine h.of_ledger rfl rfl (fun _ _ => rfl) (fun p hp => setWord_mem_of_ne ?_)
      (fun _ _ => rfl) (fun y hy g hyg => h.low y hy g (hmaps y hy ▸ hyg)) ?_
    · have := h.main_low (h.table hd ht)
      omega
    · refine h.ledger.flag (f := pageAddr e) (w := writable e) hx ?_ ?_ hw ?_
        (fun _ _ => rfl) rfl fun _ _ => rfl
      · rw [ledger_entry, he]; rfl
      · rw [ledger_entry, hself, Option.map_some, haddr]
      · intro y hy hne
        rw [ledger_entry, ledger_entry, hother y hy hne]
  · intro y hy
    by_cases hne : y = (d, i)
    · subst hne
      have hmem : (s.setWord t i w).mem (pageAddr e) = s.mem (pageAddr e) :=
        setWord_mem_of_ne (h.mapped_no_table hy (mapsTo_of_entry he) hd ht).symm
      rw [Function.update_self, Memory.view, hself, Option.map_some, haddr, hmem]
    · rw [Function.update_of_ne hne]
      exact h.view_setWord hd ht hy hne

/-- The view of an empty slot that is given the present entry `w`. -/
theorem Inv.view_enter (h : s.Inv) (hd : d ∈ userDirs)
    (ht : s.tableAt d = some t) {w : Word} (hpres : present w = true)
    (hframe : pageAddr w ≠ t) :
    ViewSet s (s.setWord t i w) (d, i) (some ⟨pageAddr w, dirty w, s.mem (pageAddr w)⟩) := by
  intro y hy
  by_cases hne : y = (d, i)
  · subst hne
    rw [Function.update_self, Memory.view, h.entryAt_setWord hd ht (dir_lt hy), if_pos rfl,
      if_pos hpres, Option.map_some, setWord_mem_of_ne hframe]
  · rw [Function.update_of_ne hne]
    exact h.view_setWord hd ht hy hne

/-- A write-protected entry is entered a second time, in an empty slot of the
same place, and its page gains a reference. -/
theorem Inv.shareSlot (h : s.Inv) {x : Nat × Nat} (hx : x ∈ userPages) (hd : d ∈ userDirs)
    (hi : i < 1024) (ht : s.tableAt d = some t) {e : Word} (he : s.entryAt x = some e)
    (hwp : writable e = false) (hno : s.entryAt (d, i) = none) (htag : pageTag x = pageTag (d, i))
    (hmain : s.Main (pageAddr e)) :
    ((s.setWord t i e).setMap (mapNr (pageAddr e)) (s.memMap (mapNr (pageAddr e)) + 1)).Inv ∧
      ViewSet s ((s.setWord t i e).setMap (mapNr (pageAddr e))
        (s.memMap (mapNr (pageAddr e)) + 1)) (d, i) (s.view x) := by
  have hy : (d, i) ∈ userPages := mem_userPages.mpr ⟨hd, hi⟩
  have hpres := entryAt_present he
  have hmaps := mapsTo_of_entry he
  have hframe := (h.mapped_no_table (userPages_subset hx) hmaps hd ht).symm
  have hne : x ≠ (d, i) := by rintro rfl; rw [he] at hno; cases hno
  set f := pageAddr e with hf
  set s' := (s.setWord t i e).setMap (mapNr f) (s.memMap (mapNr f) + 1) with hs'
  have hentry : ∀ z ∈ userPages, s'.entryAt z = if z = (d, i) then some e else s.entryAt z :=
    fun z hz => by
      rw [hs', entryAt_setMap, h.entryAt_setWord hd ht (dir_lt_of_userPages hz), if_pos hpres]
  have hself : s'.entryAt (d, i) = some e := by rw [hentry _ hy, if_pos rfl]
  have hother : ∀ z ∈ userPages, z ≠ (d, i) → s'.entryAt z = s.entryAt z := fun z hz hzn => by
    rw [hentry z hz, if_neg hzn]
  have hmap : ∀ n, n ≠ mapNr f → s'.memMap n = s.memMap n := fun n hn => setMap_memMap_of_ne hn
  have hmap_self : s'.memMap (mapNr f) = s.memMap (mapNr f) + 1 := by
    have hle := h.count_le hx hmaps hmain
    have hset : s'.memMap (mapNr f) = (s.memMap (mapNr f) + 1) % 256 := setMap_memMap_self _ _ _
    omega
  constructor
  · refine h.of_ledger rfl rfl (fun _ _ => rfl) (fun p hp => setWord_mem_of_ne ?_)
      (fun n hn => hmap n fun hEq => hn f hmain hEq.symm) ?_ ?_
    · have := h.main_low (h.table hd ht)
      omega
    · intro z hz g hzg hng
      by_cases hzn : z = (d, i)
      · rw [hzn, mapsTo_of_entry hself] at hzg
        exact absurd (Option.some.inj hzg ▸ hmain) hng
      · rw [mapsTo, hother z hz hzn] at hzg
        exact h.low z hz g hzg hng
    · refine h.ledger.share (f := f) (w := false) hmain hx ?_ hy ?_ htag ?_ ?_ ?_
        (fun _ _ => rfl) rfl hmap_self fun g hg hgf => hmap (mapNr g) (h.mapNr_ne hg hmain hgf)
      · rw [ledger_entry, he, Option.map_some, hwp]
      · rw [ledger_entry, hno]; rfl
      · rw [ledger_entry, hother x hx hne, he, Option.map_some, hwp]
      · rw [ledger_entry, hself, Option.map_some, hwp]
      · intro z hz _ hzn
        rw [ledger_entry, ledger_entry, hother z hz hzn]
  · have hview : s.view x = some ⟨f, dirty e, s.mem f⟩ := by rw [Memory.view, he, Option.map_some]
    rw [hview]
    exact h.view_enter hd ht hpres hframe

/-- An empty slot is given a read-only entry of a kernel page. -/
theorem Inv.mapLow (h : s.Inv) (hd : d ∈ userDirs) (hi : i < 1024) (ht : s.tableAt d = some t)
    {w : Word} (hpres : present w = true) (hwp : writable w = false)
    (hlow : pageAddr w < 0xA0000) (hno : s.entryAt (d, i) = none) :
    (s.setWord t i w).Inv ∧
      ViewSet s (s.setWord t i w) (d, i) (some ⟨pageAddr w, dirty w, s.mem (pageAddr w)⟩) := by
  have hy : (d, i) ∈ userPages := mem_userPages.mpr ⟨hd, hi⟩
  have htlow := h.main_low (h.table hd ht)
  have hlow' : pageAddr w < LOW_MEM := lt_trans hlow (by decide)
  have hnmain : ¬ s.Main (pageAddr w) := fun hm => by
    have := h.main_low hm
    omega
  have hself : (s.setWord t i w).entryAt (d, i) = some w := by
    rw [h.entryAt_setWord hd ht (dir_lt_of_userPages hy), if_pos rfl, if_pos hpres]
  have hother : ∀ z ∈ userPages, z ≠ (d, i) → (s.setWord t i w).entryAt z = s.entryAt z :=
    fun z hz hzn => by rw [h.entryAt_setWord hd ht (dir_lt_of_userPages hz), if_neg hzn]
  refine ⟨?_, h.view_enter hd ht hpres (by omega)⟩
  refine h.of_ledger rfl rfl (fun _ _ => rfl) (fun p hp => setWord_mem_of_ne (by omega))
    (fun _ _ => rfl) ?_ ?_
  · intro z hz g hzg hng
    by_cases hzn : z = (d, i)
    · rw [hzn, mapsTo_of_entry hself] at hzg
      cases hzg
      exact hlow
    · rw [mapsTo, hother z hz hzn] at hzg
      exact h.low z hz g hzg hng
  · refine h.ledger.mapUncounted hnmain hy ?_ ?_ ?_ (fun _ _ => rfl) rfl fun _ _ => rfl
    · rw [ledger_entry, hno]; rfl
    · rw [ledger_entry, hself, Option.map_some, hwp]
    · intro z hz hzn
      rw [ledger_entry, ledger_entry, hother z hz hzn]

/-! ### Copying -/

theorem setWord_comm {p q j : Nat} {v w : Word} (hne : p ≠ q) :
    (s.setWord p i v).setWord q j w = (s.setWord q j w).setWord p i v := by
  simp only [setWord, Function.update_of_ne hne, Function.update_of_ne hne.symm]
  rw [Function.update_comm hne]

/-- `this_page > LOW_MEM` compares the whole entry, flags included. -/
theorem lowMem_lt_iff {e : Word} (h : present e = true) :
    LOW_MEM < (writeProtect e).toNat ↔ LOW_MEM ≤ pageAddr e := by
  have h1 := pageAddr_lt_of_present ((present_writeProtect e).trans h)
  have h2 := toNat_lt_pageAddr (writeProtect e)
  have h3 := pageAddr_mod e
  rw [pageAddr_writeProtect] at h1 h2
  unfold LOW_MEM
  omega

theorem mapNr_entry {e : Word} (h : LOW_MEM ≤ pageAddr e) :
    mapNr (writeProtect e).toNat = mapNr (pageAddr e) := by
  have h1 := pageAddr_le (writeProtect e)
  have h2 := toNat_lt_pageAddr (writeProtect e)
  have h3 := pageAddr_mod e
  rw [pageAddr_writeProtect] at h1 h2
  rw [mapNr_eq, mapNr_eq]
  unfold LOW_MEM at h
  omega

/-- One round of the inner loop of `copy_page_tables`: the target slot looks
like the source slot. -/
theorem copyEntry_spec (h : s.Inv) {d' t' : Nat} (hx : (d, i) ∈ taskPages) (hi : i < 1024)
    (ht : s.tableAt d = some t) (hd' : d' ∈ userDirs) (ht' : s.tableAt d' = some t')
    (hdd : d ≠ d') (htag : d % 16 = d' % 16) (hno : s.entryAt (d', i) = none) :
    (s.copyEntry t t' i).Inv ∧ ViewSet s (s.copyEntry t t' i) (d', i) (s.view (d, i)) ∧
      (s.copyEntry t t' i).tableAt = s.tableAt ∧ Keeps s (s.copyEntry t t' i) := by
  have hread := entryAt_of_table ht i
  have htt : t ≠ t' := by
    rintro rfl
    exact hdd (h.table_inj hd' ht' (dir_lt hx) ht)
  have htag' : pageTag (d, i) = pageTag (d', i) := by simp [pageTag, htag]
  unfold copyEntry
  by_cases hpres : present (s.mem t i) = true
  · rw [if_pos hpres] at hread ⊢
    set e := s.mem t i with he
    have hwpres : present (writeProtect e) = true := (present_writeProtect e).trans hpres
    dsimp only
    by_cases hlow : LOW_MEM ≤ pageAddr e
    · rw [if_pos ((lowMem_lt_iff hpres).mpr hlow)]
      obtain ⟨hu, hmain⟩ : (d, i) ∈ userPages ∧ s.Main (pageAddr e) := by
        rcases h.frame_cases hx (mapsTo_of_entry hread) with hc | hl
        · exact hc
        · omega
      have hd := (mem_userPages.mp hu).1
      -- write-protect the source first: the order of the two stores is invisible
      obtain ⟨hinv₁, hview₁⟩ := h.setFlags (w := writeProtect e) hd hi ht hread hwpres
        (pageAddr_writeProtect e) (fun hw => by simp at hw)
      set s₁ := s.setWord t i (writeProtect e) with hs₁
      have hself₁ : s₁.entryAt (d, i) = some (writeProtect e) := by
        rw [hs₁, h.entryAt_setWord hd ht (dir_lt hx), if_pos rfl, if_pos hwpres]
      have hno₁ : s₁.entryAt (d', i) = none := by
        rw [hs₁, h.entryAt_setWord hd ht (mem_userDirs.mp hd').2, if_neg (by simp [hdd.symm]), hno]
      obtain ⟨hinv₂, hview₂⟩ := hinv₁.shareSlot hu hd' hi ht' hself₁ (writable_writeProtect e)
        hno₁ htag' (by rw [pageAddr_writeProtect]; exact hmain)
      have hsame : s₁.view (d, i) = s.view (d, i) := by
        rw [hview₁.self hx, dirty_writeProtect, Memory.view, hread, Option.map_some]
      have hsame' : ViewSame s s₁ := fun y hy => by
        by_cases hne : y = (d, i)
        · rw [hne, hsame]
        · exact hview₁.of_ne hy hne
      rw [pageAddr_writeProtect, hsame] at hview₂
      rw [pageAddr_writeProtect] at hinv₂
      have hkeep := (h.keeps_setWord hd ht i (writeProtect e)).trans
        (hinv₁.keeps_setWord hd' ht' i (writeProtect e))
      rw [mapNr_entry hlow, setWord_comm htt.symm]
      exact ⟨hinv₂, hsame'.then_set hview₂, rfl, rfl, hkeep.mem⟩
    · rw [if_neg (fun hc => hlow ((lowMem_lt_iff hpres).mp hc))]
      obtain ⟨hinv, hview⟩ := h.mapLow (w := writeProtect e) hd' hi ht' hwpres
        (writable_writeProtect e) (by
          rw [pageAddr_writeProtect]
          exact h.frame_first hx (mapsTo_of_entry hread) (by omega)) hno
      rw [pageAddr_writeProtect, dirty_writeProtect] at hview
      refine ⟨hinv, ?_, rfl, h.keeps_setWord hd' ht' i _⟩
      rw [Memory.view, hread, Option.map_some]
      exact hview
  · rw [if_neg hpres] at hread ⊢
    refine ⟨h, fun y _ => ?_, rfl, Keeps.refl s⟩
    by_cases hne : y = (d', i)
    · rw [hne, Function.update_self, Memory.view, Memory.view, hno, hread]
    · rw [Function.update_of_ne hne]

/-- The inner loop of `copy_page_tables`. -/
theorem copyEntries_spec {n d' t' : Nat} (h : s.Inv) (hn : i + n ≤ 1024)
    (hx : ∀ j, i ≤ j → j < i + n → (d, j) ∈ taskPages) (ht : s.tableAt d = some t)
    (hd' : d' ∈ userDirs) (ht' : s.tableAt d' = some t') (hdd : d ≠ d') (htag : d % 16 = d' % 16)
    (hno : ∀ j, i ≤ j → j < i + n → s.entryAt (d', j) = none) :
    (s.copyEntries t t' i n).Inv ∧ (s.copyEntries t t' i n).tableAt = s.tableAt ∧
      Keeps s (s.copyEntries t t' i n) ∧
      ∀ y ∈ taskPages, (s.copyEntries t t' i n).view y =
        if y.1 = d' ∧ i ≤ y.2 ∧ y.2 < i + n then s.view (d, y.2) else s.view y := by
  induction n generalizing s i with
  | zero =>
      refine ⟨h, rfl, Keeps.refl s, fun y _ => ?_⟩
      rw [if_neg (by omega)]
      rfl
  | succ n ih =>
      obtain ⟨hinv₁, hview₁, htab₁, hkeep₁⟩ := copyEntry_spec h (hx i (by omega) (by omega))
        (by omega) ht hd' ht' hdd htag (hno i (by omega) (by omega))
      set s₁ := s.copyEntry t t' i with hs₁
      have hmem : ∀ j, i ≤ j → j < i + (n + 1) → (d', j) ∈ taskPages := fun j _ _ =>
        userPages_subset (mem_userPages.mpr ⟨hd', by simp only; omega⟩)
      have hno₁ : ∀ j, i + 1 ≤ j → j < i + 1 + n → s₁.entryAt (d', j) = none := by
        intro j hij hjn
        rw [← view_eq_none, hview₁.of_ne (hmem j (by omega) (by omega)) (by simp; omega),
          view_eq_none]
        exact hno j (by omega) (by omega)
      obtain ⟨hinv₂, htab₂, hkeep₂, hview₂⟩ := ih (s := s₁) (i := i + 1) hinv₁ (by omega)
        (fun j hij hjn => hx j (by omega) (by omega)) (by rw [htab₁]; exact ht)
        (by rw [htab₁]; exact ht') hno₁
      refine ⟨hinv₂, htab₂.trans htab₁, hkeep₁.trans hkeep₂, fun y hy => ?_⟩
      rw [copyEntries, hview₂ y hy]
      by_cases hyx : y = (d', i)
      · subst hyx
        rw [if_neg (by simp), if_pos (by simp), hview₁.self hy]
      · have hne : ¬ (y.1 = d' ∧ y.2 = i) := fun ⟨h1, h2⟩ => hyx (Prod.ext h1 h2)
        by_cases hin : y.1 = d' ∧ i + 1 ≤ y.2 ∧ y.2 < i + 1 + n
        · rw [if_pos hin, if_pos (by omega),
            hview₁.of_ne (hx y.2 (by omega) (by omega)) (by simp [hdd])]
        · rw [if_neg hin, if_neg (by omega), hview₁.of_ne hy hyx]

/-- One round of the outer loop of `copy_page_tables` whose source table exists. -/
theorem copyTable_spec {nr d' t' : Nat} {s₁ : Memory} (h : s.Inv) (hnr : nr ≤ 1024)
    (hx : ∀ j < nr, (d, j) ∈ taskPages) (ht : s.tableAt d = some t)
    (hd' : d' ∈ userDirs) (hno : s.tableAt d' = none) (htag : d % 16 = d' % 16)
    (hg : s.getFreePage = (some t', s₁)) :
    let s₂ := ((s₁.setPgDir d' (userEntry t')).unhold t').copyEntries t t' 0 nr
    s₂.Inv ∧ Keeps s s₂ ∧ ∀ y ∈ taskPages,
      s₂.view y = if y.1 = d' ∧ y.2 < nr then s.view (d, y.2) else s.view y := by
  have hdd : d ≠ d' := by rintro rfl; rw [ht] at hno; cases hno
  have hfr := getFreePage_fresh h hg
  obtain ⟨hinv₂, ht₂, hentry₂⟩ := hfr.inv.installTable hfr.mem_held hd'
    (by rw [hfr.table]; exact hno) hfr.zero
  set s₂ := (s₁.setPgDir d' (userEntry t')).unhold t' with hs₂
  have hkeep₂ : Keeps s s₂ := ⟨by simp [hs₂, unhold, setPgDir, hfr.held],
    fun p hp => hfr.held_mem h p hp⟩
  have hsame : ViewSame s s₂ := fun y hy => by
    rw [← hfr.view h hy]
    exact view_congr (hentry₂ y (dir_lt hy)) fun _ _ => rfl
  have hold : s₂.tableAt d = some t := by
    have hset : s₂.tableAt d = s₁.tableAt d := setPgDir_tableAt_of_ne hdd
    rw [hset, hfr.table]
    exact ht
  have hempty : ∀ j, 0 ≤ j → j < 0 + nr → s₂.entryAt (d', j) = none := fun j _ _ => by
    have hlt : d' < 1024 := (mem_userDirs.mp hd').2
    rw [hentry₂ (d', j) hlt, hfr.entryAt h hlt]
    exact entryAt_of_no_table hno
  obtain ⟨hinv₃, -, hkeep₃, hview₃⟩ := copyEntries_spec hinv₂ (by omega : 0 + nr ≤ 1024)
    (fun j _ hj => hx j (by omega)) hold hd' ht₂ hdd htag hempty
  refine ⟨hinv₃, hkeep₂.trans hkeep₃, fun y hy => ?_⟩
  rw [hview₃ y hy]
  by_cases hin : y.1 = d' ∧ y.2 < nr
  · rw [if_pos hin, if_pos ⟨hin.1, by omega, by omega⟩, hsame _ (hx y.2 hin.2)]
  · rw [if_neg hin, if_neg (by omega), hsame y hy]

/-- Entries that are not present are not copied. -/
theorem copyEntries_absent {s : Memory} {fromTable toTable i n : Nat}
    (h : ∀ j, i ≤ j → j < i + n → present (s.mem fromTable j) = false) :
    s.copyEntries fromTable toTable i n = s := by
  induction n generalizing i with
  | zero => rfl
  | succ n ih =>
      have hi : s.copyEntry fromTable toTable i = s := by
        rw [copyEntry, h i (le_refl i) (by omega)]
        simp
      rw [copyEntries, hi]
      exact ih fun j h₁ h₂ => h j (by omega) (by omega)

theorem copyEntries_add {s : Memory} {fromTable toTable i a b : Nat} :
    s.copyEntries fromTable toTable i (a + b) =
      (s.copyEntries fromTable toTable i a).copyEntries fromTable toTable (i + a) b := by
  induction a generalizing s i with
  | zero => rw [Nat.zero_add]; rfl
  | succ a ih =>
      rw [Nat.add_right_comm, copyEntries, copyEntries, ih, Nat.add_right_comm i, Nat.add_assoc i]

/-- One page table is copied. -/
theorem copyDirs_one {s s' : Memory} {nr fromDir toDir toTable : Nat}
    (hto : present (s.pgDir toDir) = false) (hfrom : present (s.pgDir fromDir) = true)
    (htable : s.getFreePage = (some toTable, s')) :
    s.copyDirs nr fromDir toDir 1 = .next (true,
      ((s'.setPgDir toDir (userEntry toTable)).unhold toTable).copyEntries
        (pageAddr (s.pgDir fromDir)) toTable 0 nr) := by
  rw [copyDirs, hto, hfrom, htable]
  rfl

/-- The outer loop of `copy_page_tables`: what is copied before memory runs
out stays in the target range. -/
theorem copyDirs_spec {n nr d' : Nat} (h : s.Inv) (hnr : nr ≤ 1024)
    (hx : ∀ k < n, ∀ j < nr, (d + k, j) ∈ taskPages) (hd : d + n ≤ 1024)
    (hlo : 16 ≤ d') (hhi : d' + n ≤ 1024) (hdis : d + n ≤ d' ∨ d' + n ≤ d)
    (htag : d % 16 = d' % 16) :
    (s.copyDirs nr d d' n).Ends noFreePanic fun r => r.2.Inv ∧ Keeps s r.2 ∧
      (∀ y ∈ taskPages, ¬ (d' ≤ y.1 ∧ y.1 < d' + n) → r.2.view y = s.view y) ∧
      (r.1 = true → ∀ y ∈ taskPages, r.2.view y =
        if d' ≤ y.1 ∧ y.1 < d' + n ∧ y.2 < nr then s.view (d + (y.1 - d'), y.2)
        else s.view y) := by
  induction n generalizing s d d' with
  | zero =>
      refine ⟨h, Keeps.refl s, fun _ _ _ => rfl, fun _ y _ => ?_⟩
      rw [if_neg (by omega)]
  | succ n ih =>
      have hd' : d' ∈ userDirs := by simp; omega
      unfold copyDirs
      by_cases hto : present (s.pgDir d') = true
      · rw [if_pos hto]
        exact ⟨by decide, by decide⟩
      rw [if_neg hto]
      have hno : s.tableAt d' = none := by simp [tableAt, hto]
      have hnone : ∀ j, s.view (d', j) = none := fun j =>
        view_eq_none.mpr (entryAt_of_no_table hno)
      have hrec : ∀ s₂ : Memory, s₂.Inv → Keeps s s₂ →
          (∀ y ∈ taskPages,
            s₂.view y = if y.1 = d' ∧ y.2 < nr then s.view (d, y.2) else s.view y) →
          (s₂.copyDirs nr (d + 1) (d' + 1) n).Ends noFreePanic fun r =>
            r.2.Inv ∧ Keeps s r.2 ∧
            (∀ y ∈ taskPages, ¬ (d' ≤ y.1 ∧ y.1 < d' + (n + 1)) → r.2.view y = s.view y) ∧
            (r.1 = true → ∀ y ∈ taskPages, r.2.view y =
              if d' ≤ y.1 ∧ y.1 < d' + (n + 1) ∧ y.2 < nr then s.view (d + (y.1 - d'), y.2)
              else s.view y) := by
        intro s₂ hinv₂ hkeep₂ hview₂
        refine (ih hinv₂ (fun k hk j hj => ?_) (by omega) (by omega) (by omega)
          (by omega) (by omega)).mono ?_
        · rw [show d + 1 + k = d + (k + 1) by omega]
          exact hx (k + 1) (by omega) j hj
        rintro ⟨ok, s₃⟩ ⟨hinv₃, hkeep₃, hout₃, hview₃⟩
        refine ⟨hinv₃, hkeep₂.trans hkeep₃, fun y hy hny => ?_, fun hok y hy => ?_⟩
        · simp only at hout₃ ⊢
          rw [hout₃ y hy (by omega), hview₂ y hy, if_neg (by omega)]
        · simp only at hview₃ ⊢
          rw [hview₃ hok y hy]
          by_cases hin : d' + 1 ≤ y.1 ∧ y.1 < d' + 1 + n ∧ y.2 < nr
          · have hsrc : (d + 1 + (y.1 - (d' + 1)), y.2) ∈ taskPages := by
              rw [show d + 1 + (y.1 - (d' + 1)) = d + (y.1 - d') by omega]
              exact hx _ (by omega) _ hin.2.2
            rw [if_pos hin, if_pos (by omega), hview₂ _ hsrc, if_neg (by simp only; omega),
              show d + 1 + (y.1 - (d' + 1)) = d + (y.1 - d') by omega]
          · rw [if_neg hin, hview₂ y hy]
            by_cases hyd : y.1 = d' ∧ y.2 < nr
            · rw [if_pos hyd, if_pos (by omega), hyd.1, Nat.sub_self, Nat.add_zero]
            · rw [if_neg hyd, if_neg (by omega)]
      by_cases hfrom : present (s.pgDir d) = true
      · rw [if_pos hfrom]
        have ht : s.tableAt d = some (pageAddr (s.pgDir d)) := tableAt_some.mpr ⟨hfrom, rfl⟩
        cases hg : s.getFreePage with
        | mk r s₁ =>
          cases r with
          | none =>
              obtain rfl := getFreePage_none hg
              exact ⟨h.setDeny _, ⟨rfl, fun _ _ => rfl⟩, fun _ _ _ => rfl, fun hc => by cases hc⟩
          | some t' =>
              obtain ⟨hinv₂, hkeep₂, hview₂⟩ := copyTable_spec h hnr
                (fun j hj => hx 0 (by omega) j hj) ht hd' hno htag hg
              exact hrec _ hinv₂ hkeep₂ hview₂
      · rw [if_neg hfrom]
        have hsrc : ∀ j, s.view (d, j) = none := fun j =>
          view_eq_none.mpr (entryAt_of_no_table (by simp [tableAt, hfrom]))
        refine hrec s h (Keeps.refl s) fun y hy => ?_
        by_cases hyd : y.1 = d' ∧ y.2 < nr
        · rw [if_pos hyd, hsrc, show y = (d', y.2) from Prod.ext hyd.1 rfl, hnone]
        · rw [if_neg hyd]

/-- The number of entries that `copy_page_tables` copies of each table. -/
def entriesCopied (p : Nat) : Nat := if p = 0 then 0xA0 else 1024

/-- `copy_mem` for a child `nr` of task `p`: either the child's slots look like
the parent's, or memory ran out and they are empty. -/
theorem copyMem_spec (h : s.Inv) {p nr limit : Nat} (hp : p < 64) (hnr : 0 < nr) (hlt : nr < 64)
    (hne : p ≠ nr) (hfirst : p = 0 → limit = 0xA0000) (hlimit : limit ≤ 2 ^ 26) :
    (s.copyMem (p * 0x4000000) (nr * 0x4000000) limit).Ends noFreePanic fun r =>
      r.2.Inv ∧ Keeps s r.2 ∧ ∀ y ∈ taskPages, r.2.view y =
        if 16 * nr ≤ y.1 ∧ y.1 < 16 * nr + dirCount limit then
          if r.1 then
            if y.2 < entriesCopied p then s.view (16 * p + (y.1 - 16 * nr), y.2) else s.view y
          else none
        else s.view y := by
  have hcount := dirCount_le hlimit
  have hentries : (if p * 0x4000000 = 0 then 0xA0 else 1024) = entriesCopied p := by
    unfold entriesCopied
    congr 1
    exact propext (by omega)
  have hle : entriesCopied p ≤ 1024 := by unfold entriesCopied; split <;> omega
  have hsrc : ∀ k < dirCount limit, ∀ j < entriesCopied p, (16 * p + k, j) ∈ taskPages := by
    intro k hk j hj
    rw [mem_taskPages, mem_userPages, mem_userDirs]
    unfold entriesCopied at hj
    by_cases hp0 : p = 0
    · subst hp0
      rw [hfirst rfl, dirCount_eq (by omega)] at hk
      exact Or.inr ⟨by simp only; omega, by simpa using hj⟩
    · rw [if_neg hp0] at hj
      exact Or.inl ⟨by simp only; omega, hj⟩
  unfold copyMem copyPageTables
  rw [if_neg (by rw [aligned, aligned]; simp), hentries, dirNr_task hp, dirNr_task hlt]
  refine (copyDirs_spec h hle hsrc (by omega) (by omega) (by omega) (by omega)
    (by omega)).bind ?_
  rintro ⟨ok, s₁⟩ ⟨hinv₁, hkeep₁, hout₁, hview₁⟩
  cases ok with
  | true =>
      refine ⟨hinv₁, hkeep₁, fun y hy => ?_⟩
      rw [hview₁ rfl y hy, if_pos rfl]
      by_cases hin : 16 * nr ≤ y.1 ∧ y.1 < 16 * nr + dirCount limit
      · rw [if_pos hin]
        congr 1
        exact propext (by tauto)
      · rw [if_neg hin, if_neg (by tauto)]
  | false =>
      obtain ⟨s₂, hs₂, hinv₂, hkeep₂, hview₂⟩ := freePageTables_task hinv₁ hnr hlt hlimit
      dsimp only
      rw [if_neg (by simp), hs₂]
      refine ⟨hinv₂, hkeep₁.trans hkeep₂, fun y hy => ?_⟩
      simp only
      rw [hview₂ y hy]
      by_cases hin : 16 * nr ≤ y.1 ∧ y.1 < 16 * nr + dirCount limit
      · rw [if_pos hin, if_pos hin, if_neg (by simp)]
      · rw [if_neg hin, if_neg hin, hout₁ y hy hin]

end Memory

end LinuxKernel.V011.Mm
