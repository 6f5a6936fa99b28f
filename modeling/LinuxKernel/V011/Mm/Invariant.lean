import Mathlib.Order.Interval.Finset.Nat
import LinuxKernel.Lib.RefCount
import LinuxKernel.V011.Mm.Memory

/-!
# LinuxKernel.V011.Mm.Invariant

The **invariant of physical memory** and the view of it that user space has.

The page tables are read as a `Ledger`: slot `(d, i)` is entry `i` of the table
in directory entry `d`, a table slot is a directory entry, and the counter is
`mem_map`. Directory entries 0 to 15 are the range of task 0: they hold the
one-to-one map of the kernel, which no counter knows about.

Two facts make the whole file work. A table is a page with one reference, so
no other table, mapping or holder can be at the same address and a store into
it changes exactly one slot (`entryAt_setWord`). And everything the kernel
writes is at or above `LOW_MEM`, so its own tables stay as they were.
-/

namespace LinuxKernel.V011.Mm

/-! ### Addresses -/

theorem dirNr_eq {a : Nat} (h : a < 2 ^ 32) : dirNr a = a / 2 ^ 22 := by
  unfold dirNr
  have hmask : (0xffc : Nat) = (2 ^ 10 - 1) <<< 2 := by decide
  have : (a >>> 20) &&& 0xffc = ((a >>> 22) % 2 ^ 10) <<< 2 := by
    rw [hmask, show a >>> 22 = (a >>> 20) >>> 2 by rw [← Nat.shiftRight_add]]
    apply Nat.eq_of_testBit_eq
    intro i
    rw [Nat.testBit_and, Nat.testBit_shiftLeft, Nat.testBit_two_pow_sub_one,
      Nat.testBit_shiftLeft, Nat.testBit_mod_two_pow, Nat.testBit_shiftRight (i := 2)]
    by_cases hi : 2 ≤ i
    · rw [show 2 + (i - 2) = i by omega]
      cases decide (i ≥ 2) <;> cases decide (i - 2 < 10) <;> simp
    · simp [hi]
  rw [this, Nat.shiftLeft_eq, Nat.shiftRight_eq_div_pow]
  omega

theorem pageNr_eq (a : Nat) : pageNr a = a / 4096 % 1024 := by
  unfold pageNr
  have hmask : (0xffc : Nat) = (2 ^ 10 - 1) <<< 2 := by decide
  have : (a >>> 10) &&& 0xffc = ((a >>> 12) % 2 ^ 10) <<< 2 := by
    rw [hmask, show a >>> 12 = (a >>> 10) >>> 2 by rw [← Nat.shiftRight_add]]
    apply Nat.eq_of_testBit_eq
    intro i
    rw [Nat.testBit_and, Nat.testBit_shiftLeft, Nat.testBit_two_pow_sub_one,
      Nat.testBit_shiftLeft, Nat.testBit_mod_two_pow, Nat.testBit_shiftRight (i := 2)]
    by_cases hi : 2 ≤ i
    · rw [show 2 + (i - 2) = i by omega]
      cases decide (i ≥ 2) <;> cases decide (i - 2 < 10) <;> simp
    · simp [hi]
  rw [this, Nat.shiftLeft_eq, Nat.shiftRight_eq_div_pow]
  omega

theorem pageNr_lt (a : Nat) : pageNr a < 1024 := by
  rw [pageNr_eq]; omega

theorem mapNr_eq (a : Nat) : mapNr a = (a - 0x100000) / 4096 := by
  rw [mapNr, Nat.shiftRight_eq_div_pow]; rfl

/-- The pages `mem_init` hands to the allocator. -/
def InMain (lo hi f : Nat) : Prop := f % 4096 = 0 ∧ lo ≤ f ∧ f < hi

theorem InMain.mapNr_inj {lo hi f g : Nat} (hlo : LOW_MEM ≤ lo) (hf : InMain lo hi f)
    (hg : InMain lo hi g) (h : mapNr f = mapNr g) : f = g := by
  obtain ⟨hf0, hf1, -⟩ := hf
  obtain ⟨hg0, hg1, -⟩ := hg
  rw [mapNr_eq, mapNr_eq] at h
  unfold LOW_MEM at hlo
  omega

/-! ### Reading the tables -/

@[irreducible] def userDirs : Finset Nat := Finset.Ico 16 1024

/-- The page-table entries outside the range of task 0. -/
@[irreducible] def userPages : Finset (Nat × Nat) := userDirs ×ˢ Finset.range 1024

@[simp] theorem mem_userDirs {d : Nat} : d ∈ userDirs ↔ 16 ≤ d ∧ d < 1024 := by
  rw [userDirs, Finset.mem_Ico]

theorem mem_userPages {x : Nat × Nat} : x ∈ userPages ↔ x.1 ∈ userDirs ∧ x.2 < 1024 := by
  simp [userPages]

/-- The page-table entries of all tasks. Task 0 runs in the first 640 Kb. -/
@[irreducible] def taskPages : Finset (Nat × Nat) := userPages ∪ {0} ×ˢ Finset.range 0xA0

theorem mem_taskPages {x : Nat × Nat} : x ∈ taskPages ↔ x ∈ userPages ∨ x.1 = 0 ∧ x.2 < 0xA0 := by
  rw [taskPages, Finset.mem_union, Finset.mem_product, Finset.mem_singleton, Finset.mem_range]

theorem userPages_subset {x : Nat × Nat} (hx : x ∈ userPages) : x ∈ taskPages :=
  mem_taskPages.mpr (Or.inl hx)

theorem dir_lt_of_userPages {x : Nat × Nat} (hx : x ∈ userPages) : x.1 < 1024 :=
  (mem_userDirs.mp (mem_userPages.mp hx).1).2

theorem dir_lt {x : Nat × Nat} (hx : x ∈ taskPages) : x.1 < 1024 := by
  rcases mem_taskPages.mp hx with hu | ⟨h0, -⟩
  · exact dir_lt_of_userPages hu
  · omega

/-- The place of a page within its task: no frame is mapped at two places. -/
def pageTag (x : Nat × Nat) : Nat × Nat := (x.1 % 16, x.2)

namespace Memory

/-- The page table of a directory entry. -/
def tableAt (s : Memory) (d : Nat) : Option Nat :=
  if present (s.pgDir d) then some (pageAddr (s.pgDir d)) else none

/-- The present entry of a linear page. -/
def entryAt (s : Memory) (x : Nat × Nat) : Option Word :=
  (s.tableAt x.1).bind fun t => if present (s.mem t x.2) then some (s.mem t x.2) else none

/-- The frame a linear page is mapped to. -/
def mapsTo (s : Memory) (x : Nat × Nat) : Option Nat := (s.entryAt x).map pageAddr

def ledger (s : Memory) : Ledger (Nat × Nat) Nat Nat where
  entry x := (s.entryAt x).map fun e => (pageAddr e, writable e)
  table := s.tableAt
  held := s.held
  cnt f := s.memMap (mapNr f)

@[simp] theorem ledger_maps (s : Memory) : s.ledger.maps = s.mapsTo := by
  funext x
  simp [Ledger.maps, ledger, mapsTo, Function.comp_def]

abbrev Main (s : Memory) : Nat → Prop := InMain s.mainMemoryStart s.highMemory

abbrev LedgerOk (s : Memory) : Prop := s.ledger.Ok userPages userDirs s.Main pageTag

/-- What user space sees at a linear page: which frame, whether it has been
written, and what it holds. The write flag is left out: it only delays a store. -/
structure View where
  frame : Nat
  dirty : Bool
  data : Nat → Word

def view (s : Memory) (x : Nat × Nat) : Option View :=
  (s.entryAt x).map fun e => ⟨pageAddr e, dirty e, s.mem (pageAddr e)⟩

@[simp] theorem view_frame (s : Memory) (x : Nat × Nat) :
    (s.view x).map View.frame = s.mapsTo x := by
  simp [view, mapsTo, Function.comp_def]

theorem view_eq_none {s : Memory} {x : Nat × Nat} : s.view x = none ↔ s.entryAt x = none := by
  simp [view]

theorem mapsTo_of_view {s : Memory} {x : Nat × Nat} {v : View} (h : s.view x = some v) :
    s.mapsTo x = some v.frame := by
  rw [← view_frame, h]; rfl

theorem mapsTo_of_entry {s : Memory} {x : Nat × Nat} {e : Word} (h : s.entryAt x = some e) :
    s.mapsTo x = some (pageAddr e) := by
  rw [mapsTo, h]; rfl

/-- The view of a page depends on its entry and on the frame it names. -/
theorem view_congr {s s' : Memory} {x : Nat × Nat} (he : s'.entryAt x = s.entryAt x)
    (hm : ∀ f, s.mapsTo x = some f → s'.mem f = s.mem f) : s'.view x = s.view x := by
  unfold view
  rw [he]
  cases hx : s.entryAt x with
  | none => rfl
  | some e =>
      have := hm (pageAddr e) (mapsTo_of_entry hx)
      simp [this]

theorem entryAt_present {s : Memory} {x : Nat × Nat} {e : Word} (h : s.entryAt x = some e) :
    present e = true := by
  unfold entryAt at h
  cases ht : s.tableAt x.1 with
  | none => simp [ht] at h
  | some t =>
      simp only [ht, Option.bind_some] at h
      split at h
      · next hp => exact Option.some.inj h ▸ hp
      · cases h

/-- An entry read through a known table. -/
theorem entryAt_of_table {s : Memory} {d t : Nat} (ht : s.tableAt d = some t) (i : Nat) :
    s.entryAt (d, i) = if present (s.mem t i) then some (s.mem t i) else none := by
  simp [entryAt, ht]

theorem entryAt_of_no_table {s : Memory} {x : Nat × Nat} (ht : s.tableAt x.1 = none) :
    s.entryAt x = none := by
  simp [entryAt, ht]

theorem tableAt_some {s : Memory} {d t : Nat} :
    s.tableAt d = some t ↔ present (s.pgDir d) = true ∧ pageAddr (s.pgDir d) = t := by
  unfold tableAt
  split <;> simp [*]

/-! ### What the stores leave alone -/

@[simp] theorem entryAt_setMap (s : Memory) (n v : Nat) :
    (s.setMap n v).entryAt = s.entryAt := rfl
@[simp] theorem entryAt_unhold (s : Memory) (p : Nat) : (s.unhold p).entryAt = s.entryAt := rfl
@[simp] theorem tableAt_unhold (s : Memory) (p : Nat) : (s.unhold p).tableAt = s.tableAt := rfl

theorem setWord_mem_of_ne {s : Memory} {p q i : Nat} {w : Word} (h : q ≠ p) :
    (s.setWord p i w).mem q = s.mem q := by
  simp [setWord, Function.update_of_ne h]

theorem setWord_mem_self (s : Memory) (p i : Nat) (w : Word) :
    (s.setWord p i w).mem p = Function.update (s.mem p) i w := by
  simp [setWord]

theorem setMap_memMap_of_ne {s : Memory} {n m v : Nat} (h : m ≠ n) :
    (s.setMap n v).memMap m = s.memMap m := by
  simp [setMap, Function.update_of_ne h]

theorem setMap_memMap_self (s : Memory) (n v : Nat) : (s.setMap n v).memMap n = v % 256 := by
  simp [setMap]

theorem setPgDir_tableAt_of_ne {s : Memory} {d d' : Nat} {w : Word} (h : d' ≠ d) :
    (s.setPgDir d w).tableAt d' = s.tableAt d' := by
  simp [tableAt, setPgDir, Function.update_of_ne h]

/-- A store into a page that is no table is invisible to the tables. -/
theorem entryAt_congr_mem {s s' : Memory} {x : Nat × Nat} (hdir : s'.tableAt x.1 = s.tableAt x.1)
    (hmem : ∀ t, s.tableAt x.1 = some t → s'.mem t = s.mem t) : s'.entryAt x = s.entryAt x := by
  unfold entryAt
  rw [hdir]
  cases ht : s.tableAt x.1 with
  | none => rfl
  | some t => simp [hmem t ht]

/-! ### The invariant -/

structure Inv (s : Memory) : Prop where
  startLow : LOW_MEM ≤ s.mainMemoryStart
  startMod : s.mainMemoryStart % 4096 = 0
  highTop : s.highMemory ≤ LOW_MEM + PAGING_MEMORY
  highMod : s.highMemory % 4096 = 0
  /-- The tables of the kernel are below `LOW_MEM` and all their pages are writable. -/
  kernel : ∀ d < 16, ∀ t, s.tableAt d = some t →
    t < LOW_MEM ∧ ∀ i < 1024, writable (s.mem t i) = true
  /-- The 160 pages that the first `fork` copies. -/
  first : s.tableAt 0 = some 0x1000 ∧ ∀ i < 0xA0, s.mem 0x1000 i = userEntry (i * 4096)
  /-- Nothing outside main memory is ever free. -/
  reserved : ∀ n < PAGING_PAGES,
    ¬ (mapNr s.mainMemoryStart ≤ n ∧ n < mapNr s.highMemory) → s.memMap n = USED
  /-- User pages are in main memory or are pages of task 0. -/
  low : ∀ x ∈ userPages, ∀ f, s.mapsTo x = some f → ¬ s.Main f → f < 0xA0000
  ledger : s.LedgerOk

theorem Inv.main_low {s : Memory} (h : s.Inv) {f : Nat} (hf : s.Main f) : LOW_MEM ≤ f :=
  le_trans h.startLow hf.2.1

theorem Inv.main_lt {s : Memory} (h : s.Inv) {f : Nat} (hf : s.Main f) : f < 2 ^ 32 := by
  have h1 := hf.2.2
  have h2 := h.highTop
  unfold LOW_MEM PAGING_MEMORY at h2
  omega

theorem Inv.mapNr_ne {s : Memory} (h : s.Inv) {f g : Nat} (hf : s.Main f) (hg : s.Main g)
    (hne : f ≠ g) : mapNr f ≠ mapNr g :=
  fun hEq => hne (InMain.mapNr_inj h.startLow hf hg hEq)

/-- A page of main memory is one of the counters the allocator owns. -/
theorem Inv.main_mapNr {s : Memory} (h : s.Inv) {f : Nat} (hf : s.Main f) :
    mapNr s.mainMemoryStart ≤ mapNr f ∧ mapNr f < mapNr s.highMemory := by
  obtain ⟨h0, h1, h2⟩ := hf
  have h3 := h.startLow
  have h4 := h.highMod
  simp only [mapNr_eq]
  unfold LOW_MEM at h3
  omega

theorem Inv.table {s : Memory} (h : s.Inv) {d t : Nat} (hd : d ∈ userDirs)
    (ht : s.tableAt d = some t) : s.Main t := (h.ledger.table d hd t ht).1

/-- A user table is at no other directory entry, user or kernel. -/
theorem Inv.table_inj {s : Memory} (h : s.Inv) {d d' t : Nat} (hd : d ∈ userDirs)
    (ht : s.tableAt d = some t) (hd' : d' < 1024) (ht' : s.tableAt d' = some t) : d' = d := by
  by_cases hk : d' < 16
  · have := (h.kernel d' hk t ht').1
    have := h.main_low (h.table hd ht)
    omega
  · exact h.ledger.table_inj (by simp; omega) hd ht' ht

theorem Inv.table_unmapped {s : Memory} (h : s.Inv) {d t : Nat} (hd : d ∈ userDirs)
    (ht : s.tableAt d = some t) {x : Nat × Nat} (hx : x ∈ userPages) : s.mapsTo x ≠ some t := by
  have := h.ledger.table_unmapped hd ht hx
  rwa [ledger_maps] at this

theorem Inv.held_unmapped {s : Memory} (h : s.Inv) {f : Nat} (hf : f ∈ s.held) {x : Nat × Nat}
    (hx : x ∈ userPages) : s.mapsTo x ≠ some f := by
  have := h.ledger.held_unmapped (f := f) hf hx
  rwa [ledger_maps] at this

/-- A held page is not a table. -/
theorem Inv.held_ne_table {s : Memory} (h : s.Inv) {f : Nat} (hf : f ∈ s.held) {d t : Nat}
    (hd : d ∈ userDirs) (ht : s.tableAt d = some t) : t ≠ f := by
  rintro rfl
  exact h.ledger.held_no_table hf hd ht

theorem Inv.held_main {s : Memory} (h : s.Inv) {f : Nat} (hf : f ∈ s.held) : s.Main f :=
  (h.ledger.held f hf).1

/-- A writable page is in main memory and mapped nowhere else. -/
theorem Inv.writable_exclusive {s : Memory} (h : s.Inv) {x : Nat × Nat} (hx : x ∈ userPages)
    {e : Word} (he : s.entryAt x = some e) (hw : writable e = true) :
    s.Main (pageAddr e) ∧ s.memMap (mapNr (pageAddr e)) = 1 :=
  h.ledger.write x hx (pageAddr e) (by simp [Memory.ledger, he, hw])

/-- A mapping with one reference is the only mapping of its frame. -/
theorem Inv.mapping_unique {s : Memory} (h : s.Inv) {f : Nat} (hf : s.Main f)
    (h1 : s.memMap (mapNr f) = 1) {x y : Nat × Nat} (hx : x ∈ userPages) (hy : y ∈ userPages)
    (hxf : s.mapsTo x = some f) (hyf : s.mapsTo y = some f) : x = y := by
  refine h.ledger.mapping_unique hf (le_of_eq h1) hx hy ?_ ?_ <;> rwa [ledger_maps]

/-- Every reference count of a mapped page is at most the number of tasks. -/
theorem Inv.count_le {s : Memory} (h : s.Inv) {x : Nat × Nat} {f : Nat} (hx : x ∈ userPages)
    (hxf : s.mapsTo x = some f) (hf : s.Main f) : s.memMap (mapNr f) ≤ 63 := by
  have hcard : (Finset.Ico 1 64).card = 63 := by simp
  rw [← hcard]
  refine h.ledger.cnt_le (f := f) (fun y => y.1 / 16) ?_ ?_ hx ?_ hf
  · intro y hy
    have := (mem_userPages.mp hy).1
    simp at this ⊢
    omega
  · intro y hy z hz htag hkey
    have hy1 := (mem_userPages.mp hy).1
    have hz1 := (mem_userPages.mp hz).1
    simp only [pageTag, Prod.mk.injEq, mem_userDirs] at *
    exact Prod.ext (by omega) htag.2
  · rwa [ledger_maps]

/-- **Storing into a table changes one slot.** -/
theorem Inv.entryAt_setWord {s : Memory} (h : s.Inv) {d t i : Nat} {w : Word} (hd : d ∈ userDirs)
    (ht : s.tableAt d = some t) {y : Nat × Nat} (hy : y.1 < 1024) :
    (s.setWord t i w).entryAt y =
      if y = (d, i) then (if present w then some w else none) else s.entryAt y := by
  obtain ⟨d', j⟩ := y
  cases ht' : s.tableAt d' with
  | none =>
      have hne : d' ≠ d := by rintro rfl; simp [ht] at ht'
      have hnew : (s.setWord t i w).entryAt (d', j) = none := entryAt_of_no_table ht'
      have hold : s.entryAt (d', j) = none := entryAt_of_no_table ht'
      rw [hnew, hold]
      simp [hne]
  | some t' =>
      have hnew : (s.setWord t i w).tableAt d' = some t' := ht'
      rw [entryAt_of_table hnew, entryAt_of_table ht']
      by_cases htt : t' = t
      · subst htt
        obtain rfl := h.table_inj hd ht hy ht'
        rw [setWord_mem_self]
        by_cases hji : j = i
        · subst hji; simp
        · simp [hji]
      · rw [setWord_mem_of_ne htt]
        have hne : d' ≠ d := by
          rintro rfl
          exact htt (Option.some.inj (ht'.symm.trans ht))
        simp [hne]

/-- Task 0 runs in kernel memory. -/
theorem Inv.first_mapsTo {s : Memory} (h : s.Inv) {i : Nat} (hi : i < 0xA0) :
    s.mapsTo (0, i) = some (i * 4096) := by
  rw [mapsTo, entryAt_of_table h.first.1, h.first.2 i hi, if_pos (present_userEntry _),
    Option.map_some, pageAddr_userEntry (by omega) (by omega)]

/-- A mapped page is a counted page of a user table or a page of the kernel. -/
theorem Inv.frame_cases {s : Memory} (h : s.Inv) {x : Nat × Nat} (hx : x ∈ taskPages) {f : Nat}
    (hxf : s.mapsTo x = some f) : x ∈ userPages ∧ s.Main f ∨ f < LOW_MEM := by
  rcases mem_taskPages.mp hx with hu | ⟨h0, hi⟩
  · by_cases hf : s.Main f
    · exact Or.inl ⟨hu, hf⟩
    · exact Or.inr (lt_trans (h.low x hu f hxf hf) (by decide))
  · obtain ⟨d, i⟩ := x
    obtain rfl : d = 0 := h0
    rw [h.first_mapsTo hi] at hxf
    cases hxf
    unfold LOW_MEM
    simp only at hi
    omega

/-- A page below `LOW_MEM` that a task has mapped is one of task 0. -/
theorem Inv.frame_first {s : Memory} (h : s.Inv) {x : Nat × Nat} (hx : x ∈ taskPages) {f : Nat}
    (hxf : s.mapsTo x = some f) (hlow : f < LOW_MEM) : f < 0xA0000 := by
  rcases mem_taskPages.mp hx with hu | ⟨h0, hi⟩
  · refine h.low x hu f hxf fun hf => ?_
    have := h.main_low hf
    omega
  · obtain ⟨d, i⟩ := x
    obtain rfl : d = 0 := h0
    rw [h.first_mapsTo hi] at hxf
    cases hxf
    simp only at hi
    omega

/-- Rebuild the invariant after a change above `LOW_MEM`. -/
theorem Inv.of_ledger {s s' : Memory} (h : s.Inv) (hstart : s'.mainMemoryStart = s.mainMemoryStart)
    (hhigh : s'.highMemory = s.highMemory) (hdir : ∀ d < 16, s'.tableAt d = s.tableAt d)
    (hmem : ∀ p < LOW_MEM, s'.mem p = s.mem p)
    (hmap : ∀ n, (∀ f, s.Main f → mapNr f ≠ n) → s'.memMap n = s.memMap n)
    (hlow : ∀ x ∈ userPages, ∀ f, s'.mapsTo x = some f → ¬ s.Main f → f < 0xA0000)
    (hok : s'.ledger.Ok userPages userDirs s.Main pageTag) : s'.Inv := by
  have hmain : s'.Main = s.Main := by unfold Main; rw [hstart, hhigh]
  refine ⟨hstart ▸ h.startLow, hstart ▸ h.startMod, hhigh ▸ h.highTop, hhigh ▸ h.highMod,
    ?_, ?_, ?_, hmain ▸ hlow, ?_⟩
  · intro d hd t ht
    rw [hdir d hd] at ht
    obtain ⟨htl, hw⟩ := h.kernel d hd t ht
    exact ⟨htl, fun i hi => by rw [hmem t htl]; exact hw i hi⟩
  · refine ⟨(hdir 0 (by omega)).trans h.first.1, fun i hi => ?_⟩
    rw [hmem 0x1000 (by decide)]
    exact h.first.2 i hi
  · intro n hn hout
    rw [hstart, hhigh] at hout
    rw [hmap n fun f hf hfn => hout (hfn ▸ h.main_mapNr hf)]
    exact h.reserved n hn hout
  · unfold LedgerOk
    rw [hmain]
    exact hok

end Memory

end LinuxKernel.V011.Mm
