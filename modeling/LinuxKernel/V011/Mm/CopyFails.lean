import LinuxKernel.V011.Mm.Tables

/-!
# LinuxKernel.V011.Mm.CopyFails

**`copy_mem` without enough memory**: `copy_page_tables` stops in the middle, and
`free_page_tables` takes back what there is.

- Afterwards the counters are what they were: they are exact before and after, and the
  entries, the tables and the held pages are the same.
- An entry of another task is the same up to the write flag.
- Where the range of the child has no tables, the copy does not panic.
-/

namespace LinuxKernel.V011.Mm

theorem writeProtect_twice (e : Word) : writeProtect (writeProtect e) = writeProtect e := by
  rw [writeProtect, writeProtect, BitVec.and_assoc, BitVec.and_self]

namespace Memory

variable {s s' m : Memory} {d p : Nat}

/-! ### Main memory stays where it is -/

/-- `main_memory_start` and `HIGH_MEMORY`. -/
def bounds (s : Memory) : Nat × Nat := (s.mainMemoryStart, s.highMemory)

theorem bounds_of_getFreePage {r : Option Nat} (h : s.getFreePage = (r, m)) :
    m.bounds = s.bounds := by
  cases r with
  | none => rw [getFreePage_none h]; rfl
  | some f =>
      obtain ⟨n, -, -, -, rfl⟩ := getFreePage_some h
      rfl

theorem bounds_freePage {a : Nat} (h : s.freePage a = .next s') : s'.bounds = s.bounds := by
  rw [freePage] at h
  split at h
  · exact Outcome.next.inj h ▸ rfl
  · split at h
    · cases h
    · split at h
      · exact Outcome.next.inj h ▸ rfl
      · cases h

theorem bounds_freeEntry {t i : Nat} (h : s.freeEntry t i = .next s') :
    s'.bounds = s.bounds := by
  rw [freeEntry] at h
  split at h
  · obtain ⟨m, hfree, h⟩ := Outcome.bind_eq_next h
    rw [← Outcome.next.inj h]
    exact (bounds_freePage hfree : m.bounds = s.bounds)
  · exact Outcome.next.inj h ▸ rfl

theorem bounds_freeEntries {t i n : Nat} (h : s.freeEntries t i n = .next s') :
    s'.bounds = s.bounds := by
  induction n generalizing s i with
  | zero => exact Outcome.next.inj h ▸ rfl
  | succ n ih =>
      obtain ⟨m, hfree, h⟩ := Outcome.bind_eq_next h
      exact (ih h).trans (bounds_freeEntry hfree)

theorem bounds_freeDirs {dir n : Nat} (h : s.freeDirs dir n = .next s') :
    s'.bounds = s.bounds := by
  induction n generalizing s dir with
  | zero => exact Outcome.next.inj h ▸ rfl
  | succ n ih =>
      rw [freeDirs] at h
      split at h
      · obtain ⟨m, hentries, h⟩ := Outcome.bind_eq_next h
        obtain ⟨m', hfree, h⟩ := Outcome.bind_eq_next h
        exact (ih h).trans ((bounds_freePage hfree).trans (bounds_freeEntries hentries))
      · exact ih h

theorem bounds_copyEntry (s : Memory) (t t' i : Nat) : (s.copyEntry t t' i).bounds = s.bounds := by
  rw [copyEntry]
  split
  · dsimp only
    split
    · rfl
    · rfl
  · rfl

theorem bounds_copyEntries (s : Memory) (t t' i n : Nat) :
    (s.copyEntries t t' i n).bounds = s.bounds := by
  induction n generalizing s i with
  | zero => rfl
  | succ n ih => exact (ih _ _).trans (bounds_copyEntry s t t' i)

theorem bounds_copyDirs {nr fromDir toDir n : Nat} {r : Bool × Memory}
    (h : s.copyDirs nr fromDir toDir n = .next r) : r.2.bounds = s.bounds := by
  induction n generalizing s fromDir toDir with
  | zero => exact Outcome.next.inj h ▸ rfl
  | succ n ih =>
      rw [copyDirs] at h
      split at h
      · cases h
      · split at h
        · split at h
          · next m hg =>
            rw [← Outcome.next.inj h]
            exact bounds_of_getFreePage hg
          · next toTable m hg =>
            rw [ih h, bounds_copyEntries]
            exact (bounds_of_getFreePage hg : m.bounds = s.bounds)
        · exact ih h

/-! ### Counters -/

/-- The counters are told by the entries, the tables and the held pages. -/
theorem memMap_eq (h : s.Inv) (h' : s'.Inv) (hbounds : s'.bounds = s.bounds)
    (hview : ViewSame s s') (htable : ∀ d ∈ userDirs, s'.tableAt d = s.tableAt d)
    (hheld : s'.held = s.held) {n : Nat} (hn : n < PAGING_PAGES) : s'.memMap n = s.memMap n := by
  have hstart : s'.mainMemoryStart = s.mainMemoryStart := congrArg Prod.fst hbounds
  have hhigh : s'.highMemory = s.highMemory := congrArg Prod.snd hbounds
  by_cases hin : mapNr s.mainMemoryStart ≤ n ∧ n < mapNr s.highMemory
  · -- the page of the counter
    obtain ⟨f, hf, rfl⟩ : ∃ f, s.Main f ∧ mapNr f = n := by
      have hlow := h.startLow
      have hmod := h.startMod
      have hmod' := h.highMod
      refine ⟨n * 4096 + 0x100000, ?_, ?_⟩
      · simp only [mapNr_eq] at hin
        unfold Main InMain
        unfold LOW_MEM at hlow
        omega
      · rw [mapNr_eq]
        omega
    have hf' : s'.Main f := by
      unfold Main at hf ⊢
      rwa [hstart, hhigh]
    rw [(FrameCount.exact_of_inv h).count f hf, (FrameCount.exact_of_inv h').count f hf', hheld,
      refs_congr (fun x hx => hview.mapsTo hx) f, refs_congr htable f]
  · rw [h.reserved n hn hin, h'.reserved n hn (by rwa [hstart, hhigh])]

/-! ### Entries of other tasks -/

/-- The entries of the table `p` are the same up to the write flag. -/
def Protects (p : Nat) (s s' : Memory) : Prop :=
  ∀ j, s'.mem p j = s.mem p j ∨ s'.mem p j = writeProtect (s.mem p j)

theorem Protects.of_eq (h : s'.mem p = s.mem p) : Protects p s s' :=
  fun j => Or.inl (congrFun h j)

theorem Protects.trans (h : Protects p s m) (h' : Protects p m s') : Protects p s s' := by
  intro j
  rcases h j with h₁ | h₁
  · rcases h' j with h₂ | h₂
    · exact Or.inl (h₂.trans h₁)
    · exact Or.inr (h₂.trans (congrArg writeProtect h₁))
  · rcases h' j with h₂ | h₂
    · exact Or.inr (h₂.trans h₁)
    · refine Or.inr (h₂.trans ?_)
      rw [h₁, writeProtect_twice]

/-- The entries of a linear page whose table stays. -/
theorem Protects.entryAt {x : Nat × Nat} (h : ∀ p, s.tableAt x.1 = some p → Protects p s s')
    (htable : s'.tableAt x.1 = s.tableAt x.1) :
    s'.entryAt x = s.entryAt x ∨ s'.entryAt x = (s.entryAt x).map writeProtect := by
  cases ht : s.tableAt x.1 with
  | none =>
      refine Or.inl ?_
      rw [entryAt_of_no_table ht, entryAt_of_no_table (htable.trans ht)]
  | some p =>
      have hold : s.entryAt x = _ := entryAt_of_table ht x.2
      have hnew : s'.entryAt x = _ := entryAt_of_table (htable.trans ht) x.2
      rcases h p ht x.2 with hsame | hwp
      · exact Or.inl (by rw [hnew, hold, hsame])
      · refine Or.inr ?_
        rw [hnew, hold, hwp, present_writeProtect]
        split
        · rfl
        · rfl

theorem protects_copyEntry (hp : p ≠ t') (t i : Nat) : Protects p s (s.copyEntry t t' i) := by
  have hto : ∀ w, (s.setWord t' i w).mem p = s.mem p := fun w => setWord_mem_of_ne hp
  rw [copyEntry]
  split
  · dsimp only
    split
    · by_cases hpt : p = t
      · subst hpt
        intro j
        change ((s.setWord t' i _).setWord p i _).mem p j = _ ∨
          ((s.setWord t' i _).setWord p i _).mem p j = _
        rw [setWord_mem_self, hto]
        by_cases hj : j = i
        · subst hj
          exact Or.inr (Function.update_self _ _ _)
        · exact Or.inl (Function.update_of_ne hj _ _)
      · exact .of_eq ((setWord_mem_of_ne hpt).trans (hto _))
    · exact .of_eq (hto _)
  · exact .of_eq rfl

theorem protects_copyEntries (hp : p ≠ t') (t i n : Nat) :
    Protects p s (s.copyEntries t t' i n) := by
  induction n generalizing s i with
  | zero => exact .of_eq rfl
  | succ n ih => exact (protects_copyEntry hp t i).trans (ih (i + 1))

/-- A table is not the page that `get_free_page` hands out. -/
theorem Fresh.ne_table {f x : Nat} (h : s.Inv) (hf : Fresh s f s') (hx : x < 1024)
    (ht : s.tableAt x = some p) : p ≠ f := by
  rintro rfl
  rcases h.tables_lt hx ht with hlow | hu
  · have := h.main_low hf.main
    omega
  · exact (h.unreferenced hf.main hf.count).2.1 x hu ht

/-- The outer loop of `copy_page_tables` writes to new tables, and clears write flags. -/
theorem protects_copyDirs {n nr d' x : Nat} {r : Bool × Memory} (h : s.Inv) (hnr : nr ≤ 1024)
    (hx : ∀ k < n, ∀ j < nr, (d + k, j) ∈ taskPages) (hlo : 16 ≤ d') (hhi : d' + n ≤ 1024)
    (htag : d % 16 = d' % 16) (hs : s.copyDirs nr d d' n = .next r) (hx1024 : x < 1024)
    (htable : s.tableAt x = some p) : Protects p s r.2 := by
  induction n generalizing s d d' with
  | zero => exact Outcome.next.inj hs ▸ .of_eq rfl
  | succ n ih =>
      have hsource : ∀ k < n, ∀ j < nr, (d + 1 + k, j) ∈ taskPages := fun k hk j hj => by
        rw [show d + 1 + k = d + (k + 1) by omega]
        exact hx (k + 1) (by omega) j hj
      rw [copyDirs] at hs
      split at hs
      · cases hs
      next hto =>
      have hno : s.tableAt d' = none := by simp [tableAt, hto]
      split at hs
      · next hfrom =>
        split at hs
        · next m hg =>
          obtain rfl := Outcome.next.inj hs
          rw [getFreePage_none hg]
          exact .of_eq rfl
        · next toTable m hg =>
          have hfr := getFreePage_fresh h hg
          have hne := hfr.ne_table h hx1024 htable
          have ht : s.tableAt d = some (pageAddr (s.pgDir d)) := tableAt_some.mpr ⟨hfrom, rfl⟩
          obtain ⟨hinv, -, -⟩ := copyTable_spec h hnr (fun j hj => hx 0 (by omega) j hj) ht
            (mem_userDirs.mpr ⟨hlo, by omega⟩) hno htag hg
          have hxd : x ≠ d' := by
            rintro rfl
            rw [hno] at htable
            cases htable
          have hkeep : ((((m.setPgDir d' (userEntry toTable)).unhold toTable).copyEntries
              (pageAddr (s.pgDir d)) toTable 0 nr)).tableAt x = some p := by
            rw [tableAt, pgDir_copyEntries]
            exact ((setPgDir_tableAt_of_ne hxd).trans (congrFun hfr.table x)).trans htable
          refine Protects.trans ?_ (ih hinv hsource (by omega) (by omega) (by omega) hs hkeep)
          refine Protects.trans (.of_eq (hfr.mem p hne)) ?_
          exact Protects.trans (s := m) (.of_eq rfl) (protects_copyEntries hne _ 0 nr)
      · exact ih h hsource (by omega) (by omega) (by omega) hs htable

/-! ### `free_page_tables` writes to the tables of its range -/

theorem mem_freePage {a : Nat} (h : s.freePage a = .next s') : s'.mem = s.mem := by
  rw [freePage] at h
  split at h
  · exact Outcome.next.inj h ▸ rfl
  · split at h
    · cases h
    · split at h
      · exact Outcome.next.inj h ▸ rfl
      · cases h

theorem mem_freeEntry {t i : Nat} (hp : p ≠ t) (h : s.freeEntry t i = .next s') :
    s'.mem p = s.mem p := by
  rw [freeEntry] at h
  split at h
  · obtain ⟨m, hfree, h⟩ := Outcome.bind_eq_next h
    rw [← Outcome.next.inj h, ← mem_freePage hfree]
    exact setWord_mem_of_ne hp
  · rw [← Outcome.next.inj h]
    exact setWord_mem_of_ne hp

theorem mem_freeEntries {t i n : Nat} (hp : p ≠ t) (h : s.freeEntries t i n = .next s') :
    s'.mem p = s.mem p := by
  induction n generalizing s i with
  | zero => exact Outcome.next.inj h ▸ rfl
  | succ n ih =>
      obtain ⟨m, hfree, h⟩ := Outcome.bind_eq_next h
      exact (ih h).trans (mem_freeEntry hp hfree)

theorem mem_freeDirs {dir n : Nat} (h : s.freeDirs dir n = .next s')
    (hp : ∀ d, dir ≤ d → d < dir + n → s.tableAt d ≠ some p) : s'.mem p = s.mem p := by
  induction n generalizing s dir with
  | zero => exact Outcome.next.inj h ▸ rfl
  | succ n ih =>
      rw [freeDirs] at h
      split at h
      · next hpres =>
        obtain ⟨m, hentries, h⟩ := Outcome.bind_eq_next h
        obtain ⟨m', hfree, h⟩ := Outcome.bind_eq_next h
        have hne : p ≠ pageAddr (s.pgDir dir) := fun hEq =>
          hp dir (Nat.le_refl _) (by omega) (tableAt_some.mpr ⟨hpres, hEq.symm⟩)
        have hdirs := (pgDir_freePage hfree).trans (pgDir_freeEntries hentries)
        rw [ih h fun d hd hd' => ?_]
        · exact (congrFun (mem_freePage hfree) p).trans (mem_freeEntries hne hentries)
        · rw [setPgDir_tableAt_of_ne (by omega), tableAt, hdirs]
          exact hp d (by omega) (by omega)
      · exact ih h fun d hd hd' => hp d (by omega) (by omega)

/-! ### `copy_mem` -/

/-- Where the target has no tables, `copy_page_tables` does not panic. -/
theorem copyDirs_next (nr fromDir : Nat) {toDir n : Nat}
    (h : ∀ d, toDir ≤ d → d < toDir + n → present (s.pgDir d) = false) :
    ∃ r, s.copyDirs nr fromDir toDir n = .next r := by
  induction n generalizing s fromDir toDir with
  | zero => exact ⟨_, rfl⟩
  | succ n ih =>
      rw [copyDirs, h toDir (Nat.le_refl _) (by omega), if_neg Bool.false_ne_true]
      split
      · dsimp only
        split
        · exact ⟨_, rfl⟩
        · next toTable m hg =>
          refine ih _ fun d hd hd' => ?_
          have hset : (((m.setPgDir toDir (userEntry toTable)).unhold toTable).copyEntries
              (pageAddr (s.pgDir fromDir)) toTable 0 nr).pgDir d = s.pgDir d := by
            rw [pgDir_copyEntries, ← pgDir_of_getFreePage hg]
            exact Function.update_of_ne (by omega) _ _
          rw [hset]
          exact h d (by omega) (by omega)
      · exact ih _ fun d hd hd' => h d (by omega) (by omega)

theorem copyPageTables_task {nr limit : Nat} (hp : p < 64) (hlt : nr < 64) :
    s.copyPageTables (startCode p) (startCode nr) limit =
      s.copyDirs (entriesCopied p) (16 * p) (16 * nr) (dirCount limit) := by
  have hentries : (if p * 0x4000000 = 0 then 0xA0 else 1024) = entriesCopied p := by
    rw [entriesCopied]
    congr 1
    exact propext (by omega)
  rw [copyPageTables, startCode, startCode, if_neg (by rw [aligned, aligned]; simp), hentries,
    dirNr_task hp, dirNr_task hlt]

theorem freePageTables_dirs {nr size : Nat} (hnr : 0 < nr) (hlt : nr < 64) :
    s.freePageTables (startCode nr) size = s.freeDirs (16 * nr) (dirCount size) := by
  rw [freePageTables, startCode, if_neg (not_not.mpr (aligned nr)), if_neg (by omega),
    dirNr_task hlt]

/-- The entries that `copy_page_tables` reads are those of its task. -/
theorem copied_taskPages {limit : Nat} (hp : p < 64) (hfirst : p = 0 → limit = 0xA0000)
    (hlimit : limit ≤ 2 ^ 26) :
    ∀ k < dirCount limit, ∀ j < entriesCopied p, (16 * p + k, j) ∈ taskPages := by
  intro k hk j hj
  have hcount := dirCount_le hlimit
  rw [mem_taskPages, mem_userPages, mem_userDirs]
  rw [entriesCopied] at hj
  by_cases hp0 : p = 0
  · subst hp0
    rw [hfirst rfl, dirCount_eq (by omega)] at hk
    exact Or.inr ⟨by simp only; omega, by simpa using hj⟩
  · rw [if_neg hp0] at hj
    exact Or.inl ⟨by simp only; omega, hj⟩

section CopyMem

variable {nr limit : Nat} {m₁ m₂ : Memory}

/-- Where the target has no tables, `copy_mem` does not panic. -/
theorem copyMem_next (h : s.Inv) (hp : p < 64) (hnr : 0 < nr) (hlt : nr < 64) (hne : p ≠ nr)
    (hfirst : p = 0 → limit = 0xA0000) (hlimit : limit ≤ 2 ^ 26)
    (hno : ∀ d, 16 * nr ≤ d → d < 16 * nr + dirCount limit → present (s.pgDir d) = false) :
    (∃ m, s.copyMem (startCode p) (startCode nr) limit = .next (true, m)) ∨
    ∃ m₁ m₂, s.copyDirs (entriesCopied p) (16 * p) (16 * nr) (dirCount limit) =
        .next (false, m₁) ∧ m₁.Inv ∧ m₁.freeDirs (16 * nr) (dirCount limit) = .next m₂ ∧
      s.copyMem (startCode p) (startCode nr) limit = .next (false, m₂) := by
  have hcount := dirCount_le hlimit
  have hle : entriesCopied p ≤ 1024 := by unfold entriesCopied; split <;> omega
  obtain ⟨⟨ok, m₁⟩, hm₁⟩ := copyDirs_next (entriesCopied p) (16 * p) hno
  have hcopied := copyDirs_spec h hle (copied_taskPages hp hfirst hlimit) (by omega) (by omega)
    (by omega) (by omega : 16 * p + dirCount limit ≤ 16 * nr ∨ 16 * nr + dirCount limit ≤ 16 * p)
    (by omega : 16 * p % 16 = 16 * nr % 16)
  rw [hm₁] at hcopied
  obtain ⟨hinv₁, -⟩ := hcopied
  rw [copyMem, copyPageTables_task hp hlt, hm₁, Outcome.bind_next]
  cases ok with
  | true => exact Or.inl ⟨m₁, rfl⟩
  | false =>
      obtain ⟨m₂, hm₂, -⟩ := freeDirs_spec hinv₁ (by omega : 16 ≤ 16 * nr)
        (by omega : 16 * nr + dirCount limit ≤ 1024)
      refine Or.inr ⟨m₁, m₂, rfl, hinv₁, hm₂, ?_⟩
      dsimp only
      rw [if_neg Bool.false_ne_true, freePageTables_dirs hnr hlt, hm₂]
      rfl

/-- The tables are the same again. -/
theorem tableAt_of_failed (hm₁ : s.copyDirs (entriesCopied p) (16 * p) (16 * nr) (dirCount limit) =
      .next (false, m₁)) (hm₂ : m₁.freeDirs (16 * nr) (dirCount limit) = .next m₂)
    (hno : ∀ d, 16 * nr ≤ d → d < 16 * nr + dirCount limit → present (s.pgDir d) = false) :
    m₂.tableAt = s.tableAt := by
  funext d
  have hfreed := pgDir_freeDirs hm₂ d
  by_cases hd : 16 * nr ≤ d ∧ d < 16 * nr + dirCount limit
  · rw [if_pos hd] at hfreed
    simp [tableAt, hfreed, hno d hd.1 hd.2]
  · rw [if_neg hd] at hfreed
    have hsame : m₂.pgDir d = s.pgDir d := hfreed.trans (pgDir_copyDirs hm₁ hd)
    rw [tableAt, tableAt, hsame]

/-- The entries are the same again, up to the write flag. -/
theorem entryAt_of_failed (h : s.Inv) (hp : p < 64) (hnr : 0 < nr) (hlt : nr < 64)
    (hfirst : p = 0 → limit = 0xA0000) (hlimit : limit ≤ 2 ^ 26)
    (hm₁ : s.copyDirs (entriesCopied p) (16 * p) (16 * nr) (dirCount limit) = .next (false, m₁))
    (hinv₁ : m₁.Inv) (hm₂ : m₁.freeDirs (16 * nr) (dirCount limit) = .next m₂)
    (hno : ∀ d, 16 * nr ≤ d → d < 16 * nr + dirCount limit → present (s.pgDir d) = false)
    {y : Nat × Nat} (hy : y.1 < 1024) :
    m₂.entryAt y = s.entryAt y ∨ m₂.entryAt y = (s.entryAt y).map writeProtect := by
  have hcount := dirCount_le hlimit
  have hle : entriesCopied p ≤ 1024 := by unfold entriesCopied; split <;> omega
  refine Protects.entryAt (fun q hq => ?_) (congrFun (tableAt_of_failed hm₁ hm₂ hno) y.1)
  have hprot := protects_copyDirs h hle (copied_taskPages hp hfirst hlimit) (by omega) (by omega)
    (by omega : 16 * p % 16 = 16 * nr % 16) hm₁ hy hq
  -- the tables that are freed are those of the child
  refine hprot.trans (.of_eq (mem_freeDirs hm₂ fun d hd hd' htd => ?_))
  have hout : ¬ (16 * nr ≤ y.1 ∧ y.1 < 16 * nr + dirCount limit) := fun hin => by
    simp [tableAt, hno y.1 hin.1 hin.2] at hq
  have hsame : m₁.pgDir y.1 = s.pgDir y.1 := pgDir_copyDirs hm₁ hout
  have hq₁ : m₁.tableAt y.1 = some q := by
    rw [tableAt, hsame]
    exact hq
  have hEq := hinv₁.table_inj (mem_userDirs.mpr ⟨by omega, by omega⟩) htd hy hq₁
  omega

end CopyMem

end Memory

end LinuxKernel.V011.Mm
