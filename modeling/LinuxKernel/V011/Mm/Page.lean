import LinuxKernel.V011.Mm.Invariant

/-!
# LinuxKernel.V011.Mm.Page

What the functions of `mm/memory.c` that handle **one page** do to the
invariant and to the view of user space: `get_free_page`, `free_page`,
`put_page`, `get_empty_page`.

The first section has the primitive moves they are made of (a table is
installed, a held page is mapped, a page is stored to); each is one rule of
the ledger plus the observation that no other table is touched.
-/

namespace LinuxKernel.V011.Mm

namespace Memory

variable {s s' : Memory} {f d i : Nat}

/-- What the rest of the kernel relies on: the counter of a page is not zero
when it is given back. -/
def noFreePanic (msg : String) : Prop :=
  msg ≠ "trying to free free page" ∧ msg ≠ "trying to free nonexistent page"

theorem ledger_entry (s : Memory) (x : Nat × Nat) :
    s.ledger.entry x = (s.entryAt x).map fun e => (pageAddr e, writable e) := rfl

theorem ledger_table (s : Memory) : s.ledger.table = s.tableAt := rfl
theorem ledger_held (s : Memory) : s.ledger.held = s.held := rfl
theorem ledger_cnt (s : Memory) (f : Nat) : s.ledger.cnt f = s.memMap (mapNr f) := rfl

theorem Inv.held_count (h : s.Inv) (hf : f ∈ s.held) : s.memMap (mapNr f) = 1 :=
  (h.ledger.held f hf).2

theorem Inv.table_count (h : s.Inv) {t : Nat} (hd : d ∈ userDirs) (ht : s.tableAt d = some t) :
    s.memMap (mapNr t) = 1 :=
  (h.ledger.table d hd t ht).2

theorem Inv.tables_lt (h : s.Inv) {t : Nat} (hd : d < 1024) (ht : s.tableAt d = some t) :
    t < LOW_MEM ∨ d ∈ userDirs := by
  by_cases hk : d < 16
  · exact Or.inl (h.kernel d hk t ht).1
  · exact Or.inr (by simp; omega)

/-- Nor is a page that user space has mapped. -/
theorem Inv.mapped_no_table (h : s.Inv) {x : Nat × Nat} (hx : x ∈ taskPages)
    (hxf : s.mapsTo x = some f) {t : Nat} (hd : d ∈ userDirs) (ht : s.tableAt d = some t) :
    t ≠ f := by
  rintro rfl
  rcases h.frame_cases hx hxf with ⟨hu, -⟩ | hlow
  · exact h.table_unmapped hd ht hu hxf
  · have := h.main_low (h.table hd ht)
    omega

theorem Inv.setDeny (h : s.Inv) (ds : List Bool) : ({ s with deny := ds } : Memory).Inv :=
  ⟨h.startLow, h.startMod, h.highTop, h.highMod, h.kernel, h.first, h.reserved, h.low, h.ledger⟩

/-! ### Allocation -/

theorem scanFree_some {m : Nat → Nat} {n k : Nat} (h : scanFree m n = some k) :
    k < n ∧ m k = 0 := by
  induction n with
  | zero => cases h
  | succ n ih =>
      unfold scanFree at h
      split at h
      · next h0 =>
        cases h
        exact ⟨by omega, h0⟩
      · obtain ⟨hk, h0⟩ := ih h
        exact ⟨by omega, h0⟩

theorem getFreePage_none (h : s.getFreePage = (none, s')) : s' = { s with deny := s.deny.tail } := by
  unfold getFreePage at h
  dsimp only at h
  split at h
  · cases h; rfl
  · split at h
    · cases h; rfl
    · cases h

theorem getFreePage_some (h : s.getFreePage = (some f, s')) :
    ∃ n, n < PAGING_PAGES ∧ s.memMap n = 0 ∧ f = (n <<< 12) + LOW_MEM ∧
      s' = ((({ s with deny := s.deny.tail } : Memory).setMap n 1).setPage f fun _ => 0).hold f := by
  unfold getFreePage at h
  dsimp only at h
  split at h
  · cases h
  · split at h
    · cases h
    · next n hn =>
      cases h
      obtain ⟨hlt, h0⟩ := scanFree_some hn
      exact ⟨n, hlt, h0, rfl, rfl⟩

/-- `f` has been allocated between `s` and `s'`, and nothing else happened. -/
structure Fresh (s : Memory) (f : Nat) (s' : Memory) : Prop where
  inv : s'.Inv
  main : s.Main f
  count : s.memMap (mapNr f) = 0
  held : s'.held = f :: s.held
  zero : s'.mem f = fun _ => 0
  mem : ∀ p, p ≠ f → s'.mem p = s.mem p
  memMap : ∀ n, n ≠ mapNr f → s'.memMap n = s.memMap n
  table : s'.tableAt = s.tableAt
  start : s'.mainMemoryStart = s.mainMemoryStart
  high : s'.highMemory = s.highMemory

theorem Inv.free_main (h : s.Inv) {n : Nat} (hn : n < PAGING_PAGES) (h0 : s.memMap n = 0) :
    s.Main ((n <<< 12) + LOW_MEM) ∧ mapNr ((n <<< 12) + LOW_MEM) = n := by
  have hin : mapNr s.mainMemoryStart ≤ n ∧ n < mapNr s.highMemory := by
    by_contra hout
    have := h.reserved n hn hout
    rw [h0] at this
    exact absurd this (by decide)
  have hsl := h.startLow
  have hsm := h.startMod
  have hhm := h.highMod
  simp only [mapNr_eq, Nat.shiftLeft_eq] at hin ⊢
  unfold Main InMain
  unfold LOW_MEM at hsl ⊢
  omega

/-- A page with count zero is not mapped, not a table and not held. -/
theorem Inv.unreferenced (h : s.Inv) (hf : s.Main f) (h0 : s.memMap (mapNr f) = 0) :
    (∀ x ∈ userPages, s.mapsTo x ≠ some f) ∧ (∀ d ∈ userDirs, s.tableAt d ≠ some f) ∧
      f ∉ s.held := by
  have := h.ledger.free_unreferenced hf h0
  rw [ledger_maps] at this
  exact this

/-- A store into a page that is neither low nor a table changes no entry. -/
theorem Inv.entryAt_of_mem (h : s.Inv) (htab : s'.tableAt = s.tableAt)
    (hmem : ∀ p, p ≠ f → s'.mem p = s.mem p) (hlow : LOW_MEM ≤ f)
    (hno : ∀ d ∈ userDirs, s.tableAt d ≠ some f) {x : Nat × Nat} (hx : x.1 < 1024) :
    s'.entryAt x = s.entryAt x := by
  refine entryAt_congr_mem (by rw [htab]) fun t ht => hmem t ?_
  rintro rfl
  rcases h.tables_lt hx ht with hl | hu
  · omega
  · exact hno _ hu ht

theorem Fresh.entryAt (h : s.Inv) (hf : Fresh s f s') {x : Nat × Nat} (hx : x.1 < 1024) :
    s'.entryAt x = s.entryAt x :=
  h.entryAt_of_mem hf.table hf.mem (h.main_low hf.main)
    (h.unreferenced hf.main hf.count).2.1 hx

theorem Fresh.unmapped (h : s.Inv) (hf : Fresh s f s') {x : Nat × Nat} (hx : x ∈ taskPages) :
    s.mapsTo x ≠ some f := by
  intro hxf
  rcases h.frame_cases hx hxf with ⟨hu, -⟩ | hlow
  · exact (h.unreferenced hf.main hf.count).1 x hu hxf
  · have := h.main_low hf.main
    omega

theorem Fresh.view (h : s.Inv) (hf : Fresh s f s') {x : Nat × Nat} (hx : x ∈ taskPages) :
    s'.view x = s.view x := by
  refine view_congr (hf.entryAt h (dir_lt hx)) fun g hg => hf.mem g ?_
  rintro rfl
  exact hf.unmapped h hx hg

theorem Fresh.mem_held (hf : Fresh s f s') : f ∈ s'.held := by
  rw [hf.held]; exact List.mem_cons_self

theorem getFreePage_fresh (h : s.Inv) (hg : s.getFreePage = (some f, s')) : Fresh s f s' := by
  obtain ⟨n, hn, h0, rfl, rfl⟩ := getFreePage_some hg
  obtain ⟨hmain, hnr⟩ := h.free_main hn h0
  set f := (n <<< 12) + LOW_MEM with hf
  set s' : Memory :=
    ((({ s with deny := s.deny.tail } : Memory).setMap n 1).setPage f fun _ => 0).hold f with hs'
  have h0' : s.memMap (mapNr f) = 0 := by rw [hnr]; exact h0
  have hmem : ∀ p, p ≠ f → s'.mem p = s.mem p := fun p hp => by
    simp [hs', hold, setPage, setMap, Function.update_of_ne hp]
  have hmap : ∀ m, m ≠ mapNr f → s'.memMap m = s.memMap m := fun m hm => by
    rw [hnr] at hm
    simp [hs', hold, setPage, setMap, Function.update_of_ne hm]
  have hentry : ∀ x : Nat × Nat, x.1 < 1024 → s'.entryAt x = s.entryAt x := fun x hx =>
    h.entryAt_of_mem (show s'.tableAt = s.tableAt from rfl) hmem (h.main_low hmain) (h.unreferenced hmain h0').2.1 hx
  refine ⟨?_, hmain, h0', rfl, ?_, hmem, hmap, rfl, rfl, rfl⟩
  · refine h.of_ledger rfl rfl (fun _ _ => rfl) (fun p hp => hmem p ?_)
      (fun m hm => hmap m fun hEq => hm f hmain hEq.symm) ?_ ?_
    · have := h.main_low hmain
      omega
    · intro x hx g hg
      rw [mapsTo, hentry x (dir_lt_of_userPages hx)] at hg
      exact h.low x hx g hg
    · refine h.ledger.alloc (f := f) hmain h0' ?_ (fun _ _ => rfl) rfl ?_ ?_
      · intro x hx
        rw [ledger_entry, ledger_entry, hentry x (dir_lt_of_userPages hx)]
      · rw [ledger_cnt, hnr]
        simp [hs', hold, setPage, setMap]
      · intro g hg hgf
        exact hmap _ (h.mapNr_ne hg hmain hgf)
  · simp [hs', hold, setPage]

/-! ### Primitive moves -/

/-- The page-table entry of a linear address. -/
def slot (address : Nat) : Nat × Nat := (dirNr address, pageNr address)

theorem slot_mem {address : Nat} (hd : dirNr address ∈ userDirs) : slot address ∈ userPages :=
  mem_userPages.mpr ⟨hd, pageNr_lt address⟩

/-- The view after slot `x` has become `v`. -/
def ViewSet (s s' : Memory) (x : Nat × Nat) (v : Option View) : Prop :=
  ∀ y ∈ taskPages, s'.view y = Function.update s.view x v y

/-- User space looks the same. -/
def ViewSame (s s' : Memory) : Prop := ∀ y ∈ taskPages, s'.view y = s.view y

theorem ViewSame.refl (s : Memory) : ViewSame s s := fun _ _ => rfl

theorem ViewSame.trans {s'' : Memory} (h₁ : ViewSame s s') (h₂ : ViewSame s' s'') :
    ViewSame s s'' := fun y hy => (h₂ y hy).trans (h₁ y hy)

/-- Absent pages stay absent and present ones present. -/
def SamePresence (s s' : Memory) : Prop := ∀ y ∈ taskPages, s'.view y = none ↔ s.view y = none

theorem SamePresence.trans {s'' : Memory} (h₁ : SamePresence s s') (h₂ : SamePresence s' s'') :
    SamePresence s s'' := fun y hy => (h₂ y hy).trans (h₁ y hy)

theorem ViewSame.presence (h : ViewSame s s') : SamePresence s s' :=
  fun y hy => by rw [h y hy]

theorem ViewSet.self {x : Nat × Nat} {v : Option View} (h : ViewSet s s' x v)
    (hx : x ∈ taskPages) : s'.view x = v := by
  rw [h x hx, Function.update_self]

theorem ViewSet.of_ne {x y : Nat × Nat} {v : Option View} (h : ViewSet s s' x v)
    (hy : y ∈ taskPages) (hne : y ≠ x) : s'.view y = s.view y := by
  rw [h y hy, Function.update_of_ne hne]

theorem ViewSet.presence {x : Nat × Nat} {v : View} (h : ViewSet s s' x (some v))
    (hx : s.view x ≠ none) : SamePresence s s' := by
  intro y hy
  by_cases hyx : y = x
  · subst hyx
    rw [h.self hy]
    simp [hx]
  · rw [h.of_ne hy hyx]

theorem ViewSame.then_set {s'' : Memory} {x : Nat × Nat} {v : Option View}
    (h₁ : ViewSame s s') (h₂ : ViewSet s' s'' x v) : ViewSet s s'' x v := by
  intro y hy
  rw [h₂ y hy]
  by_cases hyx : y = x
  · rw [hyx, Function.update_self, Function.update_self]
  · rw [Function.update_of_ne hyx, Function.update_of_ne hyx, h₁ y hy]

/-- The pages the kernel holds are the same and have not been written. -/
structure Keeps (s s' : Memory) : Prop where
  held : s'.held = s.held
  mem : ∀ p ∈ s.held, s'.mem p = s.mem p

theorem Keeps.refl (s : Memory) : Keeps s s := ⟨rfl, fun _ _ => rfl⟩

theorem Keeps.trans {s'' : Memory} (h₁ : Keeps s s') (h₂ : Keeps s' s'') : Keeps s s'' :=
  ⟨h₂.held.trans h₁.held, fun p hp => (h₂.mem p (h₁.held ▸ hp)).trans (h₁.mem p hp)⟩

theorem Inv.keeps_setWord (h : s.Inv) {t : Nat} (hd : d ∈ userDirs) (ht : s.tableAt d = some t)
    (i : Nat) (w : Word) : Keeps s (s.setWord t i w) :=
  ⟨rfl, fun _ hp => setWord_mem_of_ne (h.held_ne_table hp hd ht).symm⟩

theorem Fresh.not_held (h : s.Inv) (hf : Fresh s f s') : f ∉ s.held :=
  (h.unreferenced hf.main hf.count).2.2

theorem Fresh.held_mem (h : s.Inv) (hf : Fresh s f s') : ∀ p ∈ s.held, s'.mem p = s.mem p :=
  fun p hp => hf.mem p fun hEq => hf.not_held h (hEq ▸ hp)

/-- A store into a table is seen in one slot only. -/
theorem Inv.view_setWord (h : s.Inv) {t : Nat} {w : Word} (hd : d ∈ userDirs)
    (ht : s.tableAt d = some t) {y : Nat × Nat} (hy : y ∈ taskPages) (hne : y ≠ (d, i)) :
    (s.setWord t i w).view y = s.view y := by
  refine view_congr ?_ fun g hg => setWord_mem_of_ne ?_
  · rw [h.entryAt_setWord hd ht (dir_lt hy), if_neg hne]
  · exact (h.mapped_no_table hy hg hd ht).symm

/-- A held page becomes the table of a directory entry that has none. -/
theorem Inv.installTable (h : s.Inv) (hf : f ∈ s.held) (hd : d ∈ userDirs)
    (hno : s.tableAt d = none) (hz : s.mem f = fun _ => 0) :
    ((s.setPgDir d (userEntry f)).unhold f).Inv ∧
      ((s.setPgDir d (userEntry f)).unhold f).tableAt d = some f ∧
      ∀ x : Nat × Nat, x.1 < 1024 →
        ((s.setPgDir d (userEntry f)).unhold f).entryAt x = s.entryAt x := by
  have hmain := h.held_main hf
  set s' := (s.setPgDir d (userEntry f)).unhold f with hs'
  have hself : s'.tableAt d = some f := by
    rw [tableAt_some]
    simp [hs', unhold, setPgDir, pageAddr_userEntry hmain.1 (h.main_lt hmain)]
  have hother : ∀ d', d' ≠ d → s'.tableAt d' = s.tableAt d' := fun d' hne => by
    rw [hs', tableAt_unhold]
    exact setPgDir_tableAt_of_ne hne
  have hentry : ∀ x : Nat × Nat, x.1 < 1024 → s'.entryAt x = s.entryAt x := by
    rintro ⟨d', j⟩ hx
    by_cases hne : d' = d
    · subst hne
      have hold : s.entryAt (d', j) = none := entryAt_of_no_table hno
      rw [entryAt_of_table hself, hold]
      simp [hs', unhold, setPgDir, hz, present_zero]
    · refine entryAt_congr_mem (hother d' hne) fun _ _ => rfl
  refine ⟨?_, hself, hentry⟩
  refine h.of_ledger rfl rfl (fun d' hd' => hother d' ?_) (fun _ _ => rfl) (fun _ _ => rfl) ?_ ?_
  · rintro rfl
    simp at hd
    omega
  · intro x hx g hg
    rw [mapsTo, hentry x (dir_lt_of_userPages hx)] at hg
    exact h.low x hx g hg
  · refine h.ledger.install hf hd hno ?_ hself (fun d' _ hne => hother d' hne) rfl fun _ _ => rfl
    intro x hx
    rw [ledger_entry, ledger_entry, hentry x (dir_lt_of_userPages hx)]

/-- A held page is entered in an empty slot. -/
theorem Inv.mapHeld (h : s.Inv) (hf : f ∈ s.held) {t : Nat} (hd : d ∈ userDirs) (hi : i < 1024)
    (ht : s.tableAt d = some t) (hno : s.entryAt (d, i) = none) :
    ((s.setWord t i (userEntry f)).unhold f).Inv ∧
      ViewSet s ((s.setWord t i (userEntry f)).unhold f) (d, i) (some ⟨f, false, s.mem f⟩) := by
  have hmain := h.held_main hf
  have hx : (d, i) ∈ userPages := mem_userPages.mpr ⟨hd, hi⟩
  have haddr : pageAddr (userEntry f) = f := pageAddr_userEntry hmain.1 (h.main_lt hmain)
  set s' := (s.setWord t i (userEntry f)).unhold f with hs'
  have hself : s'.entryAt (d, i) = some (userEntry f) := by
    rw [hs', entryAt_unhold, h.entryAt_setWord hd ht (by simp at hd; exact hd.2)]
    simp
  have hother : ∀ y ∈ userPages, y ≠ (d, i) → s'.entryAt y = s.entryAt y := fun y hy hne => by
    rw [hs', entryAt_unhold, h.entryAt_setWord hd ht (dir_lt_of_userPages hy), if_neg hne]
  constructor
  · refine h.of_ledger rfl rfl (fun _ _ => rfl) (fun p hp => setWord_mem_of_ne ?_)
      (fun _ _ => rfl) ?_ ?_
    · have := h.main_low (h.table hd ht)
      omega
    · intro y hy g hg hng
      by_cases hne : y = (d, i)
      · subst hne
        rw [mapsTo_of_entry hself, haddr] at hg
        exact absurd (Option.some.inj hg ▸ hmain) hng
      · rw [mapsTo, hother y hy hne] at hg
        exact h.low y hy g hg hng
    · refine h.ledger.map (x := (d, i)) (w := true) hf hx ?_ ?_ ?_ (fun _ _ => rfl) rfl
        fun _ _ => rfl
      · rw [ledger_entry, hno]; rfl
      · rw [ledger_entry, hself]
        simp [haddr]
      · intro y hy hne
        rw [ledger_entry, ledger_entry, hother y hy hne]
  · intro y hy
    by_cases hne : y = (d, i)
    · subst hne
      rw [Function.update_self, Memory.view, hself]
      have hmem : s'.mem f = s.mem f := setWord_mem_of_ne (h.held_ne_table hf hd ht).symm
      simp [haddr, hmem, dirty_userEntry hmain.1 (h.main_lt hmain)]
    · rw [Function.update_of_ne hne]
      exact h.view_setWord hd ht hy hne

/-! ### `free_page` on a held page -/

theorem freePage_held (h : s.Inv) (hf : f ∈ s.held) :
    ∃ s', s.freePage f = .next s' ∧ s'.Inv ∧ ViewSame s s' ∧ s'.held = s.held.erase f ∧
      s'.mem = s.mem := by
  have hmain := h.held_main hf
  have hone := h.held_count hf
  have hlow := h.main_low hmain
  set s' := (s.setMap (mapNr f) (s.memMap (mapNr f) - 1)).unhold f with hs'
  have hfree : s.freePage f = .next s' := by
    unfold freePage
    rw [if_neg (by omega), if_neg (not_le.mpr hmain.2.2), if_pos (by omega)]
  refine ⟨s', hfree, ?_, fun _ _ => rfl, rfl, rfl⟩
  have hmap : ∀ m, m ≠ mapNr f → s'.memMap m = s.memMap m := fun m hm =>
    setMap_memMap_of_ne hm
  refine h.of_ledger rfl rfl (fun _ _ => rfl) (fun _ _ => rfl)
    (fun m hm => hmap m fun hEq => hm f hmain hEq.symm) (fun x hx => h.low x hx) ?_
  have hzero : s'.memMap (mapNr f) = 0 := by
    have hself : s'.memMap (mapNr f) = (s.memMap (mapNr f) - 1) % 256 := setMap_memMap_self _ _ _
    omega
  exact h.ledger.drop hf (fun _ _ => rfl) (fun _ _ => rfl) rfl hzero fun g hg hne =>
    hmap (mapNr g) (h.mapNr_ne hg hmain hne)

/-! ### `put_page` and `get_empty_page` -/

/-- `put_page` either enters the page, or runs out of memory and changes nothing. -/
theorem putPage_spec (h : s.Inv) (hf : f ∈ s.held) {address : Nat}
    (hd : dirNr address ∈ userDirs) (hno : s.entryAt (slot address) = none) {ok : Bool}
    (hp : s.putPage f address = (ok, s')) :
    s'.Inv ∧ (∀ p ∈ s.held, s'.mem p = s.mem p) ∧
      if ok then ViewSet s s' (slot address) (some ⟨f, false, s.mem f⟩) ∧
        s'.held = s.held.erase f
      else ViewSame s s' ∧ s'.held = s.held := by
  unfold putPage at hp
  split at hp
  · next hpres =>
    cases hp
    have ht : s.tableAt (dirNr address) = some (pageAddr (s.pgDir (dirNr address))) :=
      tableAt_some.mpr ⟨hpres, rfl⟩
    obtain ⟨hinv, hview⟩ := h.mapHeld hf hd (pageNr_lt address) ht hno
    exact ⟨hinv, (h.keeps_setWord hd ht _ _).mem, hview, rfl⟩
  · next hpres =>
    have hnot : s.tableAt (dirNr address) = none := by simp [tableAt, hpres]
    cases hg : s.getFreePage with
    | mk r s₁ =>
      rw [hg] at hp
      cases r with
      | none =>
          cases hp
          obtain rfl := getFreePage_none hg
          exact ⟨h.setDeny _, fun _ _ => rfl, fun _ _ => rfl, rfl⟩
      | some tmp =>
          cases hp
          have hfr := getFreePage_fresh h hg
          have hne : f ≠ tmp := by
            rintro rfl
            have := h.held_count hf
            rw [hfr.count] at this
            omega
          obtain ⟨hinv₂, ht₂, hentry₂⟩ := hfr.inv.installTable (hfr.mem_held) hd
            (by rw [hfr.table]; exact hnot) hfr.zero
          set s₂ := (s₁.setPgDir (dirNr address) (userEntry tmp)).unhold tmp with hs₂
          have hheld₂ : s₂.held = s.held := by
            simp [hs₂, unhold, setPgDir, hfr.held]
          have hentry : ∀ x : Nat × Nat, x.1 < 1024 → s₂.entryAt x = s.entryAt x :=
            fun x hx => (hentry₂ x hx).trans (hfr.entryAt h hx)
          have hmem₂ : s₂.mem f = s.mem f := hfr.mem f hne
          have hd' : dirNr address < 1024 := (mem_userDirs.mp hd).2
          obtain ⟨hinv, hview⟩ := hinv₂.mapHeld (hheld₂ ▸ hf) hd (pageNr_lt address) ht₂
            ((hentry _ hd').trans hno)
          have hsame : ViewSame s s₂ := by
            intro y hy
            refine view_congr (hentry y (dir_lt hy)) fun g hyg => hfr.mem g ?_
            rintro rfl
            exact hfr.unmapped h hy hyg
          rw [hmem₂] at hview
          refine ⟨hinv, fun p hp => ?_, hsame.then_set hview, ?_⟩
          · have hkeep := (hinv₂.keeps_setWord hd ht₂ (pageNr address) (userEntry f)).mem p
              (hheld₂ ▸ hp)
            exact hkeep.trans (hfr.held_mem h p hp)
          · simp only [unhold, setWord]
            rw [hheld₂]

/-- `get_empty_page` enters a fresh zeroed page, or runs out of memory and
changes nothing. -/
theorem getEmptyPage_spec (h : s.Inv) {address : Nat} (hd : dirNr address ∈ userDirs)
    (hno : s.entryAt (slot address) = none) :
    ∃ ok s', s.getEmptyPage address = .next (ok, s') ∧ s'.Inv ∧ Keeps s s' ∧
      if ok then ∃ f, (∀ x ∈ taskPages, s.mapsTo x ≠ some f) ∧
        ViewSet s s' (slot address) (some ⟨f, false, fun _ => 0⟩)
      else ViewSame s s' := by
  unfold getEmptyPage
  cases hg : s.getFreePage with
  | mk r s₁ =>
    cases r with
    | none =>
        obtain rfl := getFreePage_none hg
        exact ⟨false, _, rfl, h.setDeny _, ⟨rfl, fun _ _ => rfl⟩, fun _ _ => rfl⟩
    | some tmp =>
        have hfr := getFreePage_fresh h hg
        have hsame : ViewSame s s₁ := fun y hy => hfr.view h hy
        have hd' : dirNr address < 1024 := (mem_userDirs.mp hd).2
        have hno₁ : s₁.entryAt (slot address) = none := (hfr.entryAt h hd').trans hno
        cases hp : s₁.putPage tmp address with
        | mk ok s₂ =>
          obtain ⟨hinv₂, hmem₂, hspec⟩ := putPage_spec hfr.inv hfr.mem_held hd hno₁ hp
          have hmem : ∀ p ∈ s.held, s₂.mem p = s.mem p := fun p hp =>
            (hmem₂ p (hfr.held ▸ List.mem_cons_of_mem _ hp)).trans (hfr.held_mem h p hp)
          dsimp only
          rw [hp]
          cases ok with
          | true =>
              obtain ⟨hview, hheld⟩ := hspec
              rw [hfr.held, List.erase_cons_head] at hheld
              rw [hfr.zero] at hview
              exact ⟨true, s₂, rfl, hinv₂, ⟨hheld, hmem⟩, tmp, fun x hx => hfr.unmapped h hx,
                hsame.then_set hview⟩
          | false =>
              obtain ⟨hview, hheld⟩ := hspec
              obtain ⟨s₃, hfree, hinv₃, hsame₃, hheld₃, hmem₃⟩ :=
                freePage_held hinv₂ (hheld ▸ hfr.mem_held)
              rw [hheld, hfr.held, List.erase_cons_head] at hheld₃
              refine ⟨false, s₃, ?_, hinv₃, ⟨hheld₃, fun p hp => by rw [hmem₃, hmem p hp]⟩,
                (hsame.trans hview).trans hsame₃⟩
              dsimp only
              rw [hfree]
              rfl

end Memory

end LinuxKernel.V011.Mm
