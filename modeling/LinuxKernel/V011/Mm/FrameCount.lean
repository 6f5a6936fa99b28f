import LinuxKernel.V011.Mm.Task

/-!
# LinuxKernel.V011.Mm.FrameCount

**Frame reference counts are exact.** The system here is the memory alone: an
action is one call of a function of `mm/memory.c` (or of `copy_mem`), and the
actions come in any order, for any task.

The guards say what every caller provides: a page is freed or entered by who
holds it, a page is entered where none is present, `un_wp_page` gets a present
entry of a user table, and task 0 only ever copies its 640 Kb. The task table
that `share_page` walks is part of the action, so it may be any at every fault.
-/

namespace LinuxKernel.V011.Mm.FrameCount

open Memory

/-- One call. `doNoPage` ends in `bread_page`, and `finishNoPage` is the rest
of it, at any later time. -/
inductive Act
  | getFreePage
  | freePage (page : Nat)
  | putPage (page address : Nat)
  | getEmptyPage (address : Nat)
  | copyMem (p nr limit : Nat)
  | freePageTables (addr size : Nat)
  | unWpPage (address : Nat)
  | writeVerify (address : Nat)
  | verifyArea (base addr : Nat) (size : Int)
  | tryToShare (address p cur : Nat)
  | doNoPage (task : Nat → Option Task) (iCount : Nat → Nat) (current : Task)
      (cur tmp address : Nat)
  | finishNoPage (blocks : Blocks) (endData page tmp address : Nat)

/-- No page is present at a linear address above task 0. -/
def Absent (s : Memory) (address : Nat) : Prop :=
  dirNr address ∈ userDirs ∧ s.entryAt (slot address) = none

instance (s : Memory) (address : Nat) : Decidable (Absent s address) :=
  decidable_of_iff ((16 ≤ dirNr address ∧ dirNr address < 1024) ∧ s.entryAt (slot address) = none)
    (by rw [Absent, mem_userDirs])

def step (s : Memory) : Act → Outcome Memory
  | .getFreePage => .next s.getFreePage.2
  | .freePage page => if page ∈ s.held then s.freePage page else .disabled
  | .putPage page address =>
      if page ∈ s.held ∧ Absent s address then .next (s.putPage page address).2 else .disabled
  | .getEmptyPage address =>
      if Absent s address then (s.getEmptyPage address).bind fun r => .next r.2 else .disabled
  | .copyMem p nr limit =>
      if p < 64 ∧ 0 < nr ∧ nr < 64 ∧ p ≠ nr ∧ (p = 0 → limit = 0xA0000) ∧ limit ≤ 2 ^ 26 then
        (s.copyMem (startCode p) (startCode nr) limit).bind fun r => .next r.2
      else .disabled
  | .freePageTables addr size =>
      if 16 ≤ dirNr addr ∧ dirNr addr + dirCount size ≤ 1024 then s.freePageTables addr size
      else .disabled
  | .unWpPage address =>
      if 16 ≤ dirNr address ∧ s.entryAt (slot address) ≠ none then
        .next (s.doWpPage address).2
      else .disabled
  | .writeVerify address => .next (s.writeVerify address).2
  | .verifyArea base addr size => .next (s.verifyArea base addr size).2
  | .tryToShare address p cur =>
      if address < 2 ^ 26 ∧ 0 < p ∧ p < 64 ∧ 0 < cur ∧ cur < 64 then
        (s.tryToShare address (startCode p) (startCode cur)).bind fun r => .next r.2
      else .disabled
  | .doNoPage task iCount current cur tmp address =>
      if tmp < 2 ^ 26 ∧ address / 4096 * 4096 = startCode cur + tmp ∧ 0 < cur ∧ cur < 64 ∧
          s.entryAt (taskSlot cur tmp) = none then
        (s.doNoPage task iCount current cur address).bind fun r => .next r.2
      else .disabled
  | .finishNoPage blocks endData page tmp address =>
      if page ∈ s.held ∧ Absent s address then
        (s.finishNoPage blocks endData page tmp address).bind fun r => .next r.2
      else .disabled

/-! ### Start-up -/

/-- The bounds `main` passes to `mem_init`. -/
structure Bounds (startMem endMem : Nat) : Prop where
  startLow : LOW_MEM ≤ startMem
  startMod : startMem % 4096 = 0
  endTop : endMem ≤ LOW_MEM + PAGING_MEMORY
  endMod : endMem % 4096 = 0

theorem boot_tableAt (startMem endMem d : Nat) :
    (Memory.boot startMem endMem).tableAt d = if d < 4 then some (0x1000 * (d + 1)) else none := by
  by_cases hd : d < 4
  · have hdir : (Memory.boot startMem endMem).pgDir d = userEntry (0x1000 * (d + 1)) := if_pos hd
    rw [if_pos hd, tableAt_some, hdir]
    exact ⟨present_userEntry _, pageAddr_userEntry (by omega) (by omega)⟩
  · have hdir : (Memory.boot startMem endMem).pgDir d = 0 := if_neg hd
    simp [tableAt, hdir, hd, present_zero]

theorem boot_mapsTo {startMem endMem : Nat} {x : Nat × Nat} (hx : x ∈ userPages) :
    (Memory.boot startMem endMem).mapsTo x = none := by
  have hd := mem_userDirs.mp (mem_userPages.mp hx).1
  rw [mapsTo, entryAt_of_no_table (by rw [boot_tableAt, if_neg (by omega)]), Option.map_none]

theorem boot_inv {startMem endMem : Nat} (hb : Bounds startMem endMem) :
    (Memory.boot startMem endMem).Inv := by
  have hno : ∀ d ∈ userDirs, (Memory.boot startMem endMem).tableAt d = none := fun d hd => by
    have := mem_userDirs.mp hd
    rw [boot_tableAt, if_neg (by omega)]
  refine ⟨hb.startLow, hb.startMod, hb.endTop, hb.endMod, ?_, ?_, ?_, ?_, ?_⟩
  · intro d _ t ht
    rw [boot_tableAt] at ht
    split at ht
    · next hd =>
      cases ht
      refine ⟨by unfold LOW_MEM; omega, fun i _ => ?_⟩
      simp only [Memory.boot]
      rw [if_pos (by omega)]
      exact writable_userEntry _
    · cases ht
  · refine ⟨by rw [boot_tableAt]; rfl, fun i hi => ?_⟩
    simp only [Memory.boot]
    rw [if_pos (by omega), show ((0x1000 / 0x1000 - 1) * 1024 + i) * 4096 = i * 4096 by omega]
  · intro n _ hout
    simp only [Memory.boot, memInit] at hout ⊢
    have hlow := hb.startLow
    have hmod := hb.startMod
    have hend := hb.endMod
    unfold LOW_MEM at hlow
    rw [mapNr_eq, mapNr_eq] at hout
    rw [if_neg]
    rw [mapNr_eq, Nat.shiftRight_eq_div_pow]
    omega
  · intro x hx f hxf
    rw [boot_mapsTo hx] at hxf
    cases hxf
  · have hmaps : ∀ x ∈ userPages, ∀ f, (Memory.boot startMem endMem).ledger.maps x ≠ some f :=
      fun x hx f => by rw [ledger_maps, boot_mapsTo hx]; simp
    refine ⟨?_, ?_, ?_, ?_, ?_⟩
    · intro d hd f hf
      rw [ledger_table, hno d hd] at hf
      cases hf
    · intro f hf
      cases hf
    · intro x hx f hxf
      exact absurd (by rw [Ledger.maps, hxf]; rfl) (hmaps x hx f)
    · intro x hx _ _ f _ hxf
      exact absurd hxf (hmaps x hx f)
    · intro f hf
      obtain ⟨hf0, hf1, hf2⟩ : f % 4096 = 0 ∧ startMem ≤ f ∧ f < endMem := hf
      have hcnt : (Memory.boot startMem endMem).ledger.cnt f = 0 := by
        rw [ledger_cnt]
        simp only [Memory.boot, memInit]
        have hlow := hb.startLow
        have hmod := hb.startMod
        have hend := hb.endMod
        unfold LOW_MEM at hlow
        rw [if_pos]
        rw [mapNr_eq, mapNr_eq, Nat.shiftRight_eq_div_pow]
        omega
      rw [hcnt, refs_eq_zero.mpr fun x hx => hmaps x hx f, refs_eq_zero.mpr fun d hd => by
        rw [ledger_table, hno d hd]; simp]
      rfl

/-! ### One step -/

/-- Every call keeps the invariant, and none of them frees a free page. -/
theorem step_ends {s : Memory} (h : s.Inv) (a : Act) : (step s a).Ends noFreePanic Memory.Inv := by
  cases a with
  | getFreePage =>
      cases hg : s.getFreePage with
      | mk r s₁ =>
        simp only [step, hg]
        cases r with
        | none =>
            obtain rfl := getFreePage_none hg
            exact h.setDeny _
        | some f => exact (getFreePage_fresh h hg).inv
  | freePage page =>
      simp only [step]
      split
      · next hf =>
        obtain ⟨s₁, hs₁, hinv, -⟩ := freePage_held h hf
        rw [hs₁]
        exact hinv
      · trivial
  | putPage page address =>
      simp only [step]
      split
      · next hc => exact (putPage_spec h hc.1 hc.2.1 hc.2.2 rfl).1
      · trivial
  | getEmptyPage address =>
      simp only [step]
      split
      · next hc =>
        obtain ⟨ok, s₁, hs₁, hinv, -⟩ := getEmptyPage_spec h hc.1 hc.2
        rw [hs₁]
        exact hinv
      · trivial
  | copyMem p nr limit =>
      simp only [step]
      split
      · next hc =>
        obtain ⟨hp, hnr, hlt, hne, hfirst, hlimit⟩ := hc
        exact (copyMem_spec h hp hnr hlt hne hfirst hlimit).bind fun r hr => hr.1
      · trivial
  | freePageTables addr size =>
      simp only [step]
      split
      · next hc => exact (freePageTables_spec h hc.1 hc.2).mono fun _ hr => hr.1
      · trivial
  | unWpPage address =>
      simp only [step]
      split
      · next hc =>
        obtain ⟨hlo, hne⟩ := hc
        have hd : dirNr address ∈ userDirs := mem_userDirs.mpr ⟨hlo, dirNr_lt address⟩
        obtain ⟨e, he⟩ := Option.ne_none_iff_exists'.mp hne
        have hpres : present (s.pgDir (dirNr address)) = true := by
          by_contra hn
          rw [entryAt_of_no_table (by simp [tableAt, slot, hn])] at he
          cases he
        exact (unWpPage_spec h hd (pageNr_lt address) (tableAt_some.mpr ⟨hpres, rfl⟩) he rfl).1
      · trivial
  | writeVerify address => exact (writeVerify_spec h rfl).1
  | verifyArea base addr size => exact (verifyArea_spec h rfl).1
  | tryToShare address p cur =>
      simp only [step]
      split
      · next hc =>
        obtain ⟨ha, hp, hplt, hcur, hclt⟩ := hc
        exact (tryToShare_spec h ha hp hplt hcur hclt).bind fun r hr => hr.1
      · trivial
  | doNoPage task iCount current cur tmp address =>
      simp only [step]
      split
      · next hc =>
        obtain ⟨hlt, haddr, hcur, hclt, hno⟩ := hc
        exact (doNoPage_spec h hlt haddr hcur hclt hno).bind fun r hr => hr.1
      · trivial
  | finishNoPage blocks endData page tmp address =>
      simp only [step]
      split
      · next hc =>
        obtain ⟨ok, s₁, hs₁, hinv, -⟩ := finishNoPage_spec h hc.1 blocks endData tmp
          hc.2.1 hc.2.2
        rw [hs₁]
        exact hinv
      · trivial

theorem inv_reaches {s s' : Memory} (h : s.Inv) (hr : Reaches step (fun _ _ => True) s s') :
    s'.Inv :=
  hr.invariant h fun _ a _ hInv _ hs => (step_ends hInv a).of_next hs

/-! ### What is claimed -/

/-- The counter of every page of main memory is its page-table entries, its
directory entries and its holders, taken together. -/
structure Exact (s : Memory) : Prop where
  count : ∀ f, s.Main f →
    s.memMap (mapNr f) = refs taskPages s.mapsTo f + refs userDirs s.tableAt f + s.held.count f
  /-- `get_free_page` never returns a page that is in use. -/
  unused : ∀ f s', s.getFreePage = (some f, s') →
    (∀ x ∈ taskPages, s.mapsTo x ≠ some f) ∧ (∀ d ∈ userDirs, s.tableAt d ≠ some f) ∧ f ∉ s.held
  /-- No call of any function frees a free page. -/
  noPanic : ∀ a, step s a ≠ .panic "trying to free free page"
  /-- The counters stay far from the end of an unsigned char. -/
  small : ∀ f, s.Main f → s.memMap (mapNr f) ≤ 63

/-- A page of main memory has at most one reference per task. -/
theorem count_small {s : Memory} (h : s.Inv) {f : Nat} (hf : s.Main f) :
    s.memMap (mapNr f) ≤ 63 := by
  have hex := h.ledger.exact f hf
  rw [ledger_maps, ledger_table, ledger_held, ledger_cnt] at hex
  by_cases hmapped : ∃ x ∈ userPages, s.mapsTo x = some f
  · obtain ⟨x, hx, hxf⟩ := hmapped
    exact h.count_le hx hxf hf
  by_cases htable : ∃ d ∈ userDirs, s.tableAt d = some f
  · obtain ⟨d, hd, ht⟩ := htable
    have := h.table_count hd ht
    omega
  by_cases hheld : f ∈ s.held
  · have := h.held_count hheld
    omega
  · have h1 := refs_eq_zero.mpr fun x hx hxf => hmapped ⟨x, hx, hxf⟩
    have h2 := refs_eq_zero.mpr fun d hd ht => htable ⟨d, hd, ht⟩
    have h3 := List.count_eq_zero.mpr hheld
    omega

/-- Task 0 refers to no page of main memory. -/
theorem refs_taskPages {s : Memory} (h : s.Inv) {f : Nat} (hf : s.Main f) :
    refs taskPages s.mapsTo f = refs userPages s.mapsTo f := by
  refine refs_of_subset (fun x hx => userPages_subset hx) fun x hx hxu hxf => ?_
  rcases h.frame_cases hx hxf with ⟨hu, -⟩ | hlow
  · exact hxu hu
  · have := h.main_low hf
    omega

theorem exact_of_inv {s : Memory} (h : s.Inv) : Exact s where
  count f hf := by
    have hex := h.ledger.exact f hf
    rw [ledger_maps, ledger_table, ledger_held, ledger_cnt] at hex
    rw [refs_taskPages h hf]
    exact hex
  unused f s' hg := by
    have hfr := getFreePage_fresh h hg
    obtain ⟨-, htab, hheld⟩ := h.unreferenced hfr.main hfr.count
    exact ⟨fun x hx => hfr.unmapped h hx, htab, hheld⟩
  noPanic a hp := by
    have hends := step_ends h a
    rw [hp] at hends
    exact hends.1 rfl
  small f hf := count_small h hf

/-- **Frame reference counts are exact** in every state that calls in any order
reach from start-up, whichever calls of `get_free_page` fail. -/
theorem frameCounts_exact {startMem endMem : Nat} (hb : Bounds startMem endMem)
    (deny : List Bool) {s : Memory}
    (hr : Reaches step (fun _ _ => True) { Memory.boot startMem endMem with deny := deny } s) :
    Exact s :=
  exact_of_inv (inv_reaches ((boot_inv hb).setDeny deny) hr)

/-- 16 Mb of memory, of which 4 Mb are kernel and buffers; the second of two
allocations fails. -/
theorem frameCounts_exact_twoCalls :
    Exact ({ Memory.boot 0x400000 0x1000000 with
      deny := [false, true] } : Memory).getFreePage.2.getFreePage.2 :=
  frameCounts_exact ⟨by decide, by decide, by decide, by decide⟩ [false, true]
    ((Reaches.refl.tail (a := .getFreePage) trivial rfl).tail (a := .getFreePage) trivial rfl)

end LinuxKernel.V011.Mm.FrameCount
