import LinuxKernel.V098.Mm.PageRange

/-!
# LinuxKernel.V098.Mm.PageRangeSound

**Ranges are unmapped exactly, but for `rss`.** The address space is flat here: `s.entry p` is
the entry of page `p`, whatever table it is in.

- `Cleared` is what a part of a call has done; two parts one behind the other make one
  (`Cleared.trans`).
- `rss` counts pages in memory. Both functions lower it for an entry with a swap slot too.
-/

namespace LinuxKernel.V098.Mm.PageRange

open FreePages (PAGE_SIZE MAP_NR Reserved)

/-! ### The address space -/

/-- What an entry has. -/
inductive Item
  | page (addr : Nat)
  | slot (nr : Nat)

namespace Entry

def item : Entry → Option Item
  | empty => none
  | present page _ => some (.page page)
  | swapped nr => some (.slot nr)

def isPresent : Entry → Bool
  | present _ _ => true
  | _ => false

def isSwapped : Entry → Bool
  | swapped _ => true
  | _ => false

end Entry

def Mem.release (m : Mem) : Item → Mem
  | .page addr => m.freePage addr
  | .slot nr => m.swapFree nr

namespace State

/-- The entry of page `p`. -/
def entry (s : State) (p : Nat) : Entry := s.entryAt (p / 1024) (p % 1024)

/-- The page of table `i`. -/
def table (s : State) (i : Nat) : Option Nat := (s.dir i).map Table.page

def item (s : State) (p : Nat) : Option Item := (s.entry p).item

def tableItem (s : State) (i : Nat) : Option Item := (s.table i).map Item.page

end State

/-- The pages that the bytes from `start` on are in. -/
def pagesOf (start size : Nat) : List Nat :=
  List.range' (start / PAGE_SIZE) ((size + 0xfff) / PAGE_SIZE)

/-- The tables of these `n` pages whose pages are all among them. -/
def tablesIn (first n : Nat) : List Nat :=
  (List.range 1024).filter fun i => first ≤ 1024 * i ∧ 1024 * (i + 1) ≤ first + n

def tablesOf (start size : Nat) : List Nat :=
  tablesIn (start / PAGE_SIZE) ((size + 0xfff) / PAGE_SIZE)

variable {s s' s'' : State} {ps qs slots slots' : List Nat}
  {i j n p poff pcnt size start addr : Nat} {e : Entry} {x : Item}

/-- The range is unmapped, and nothing else has changed. -/
structure Unmapped (s s' : State) (start size : Nat) : Prop where
  entry : ∀ p, s'.entry p = if p ∈ pagesOf start size then .empty else s.entry p
  table : ∀ i, s'.table i = if i ∈ tablesOf start size then none else s.table i
  /-- Everything is released once. -/
  mem : ∃ rel : List Item, rel.Perm ((pagesOf start size).filterMap s.item ++
      (tablesOf start size).filterMap s.tableItem) ∧ s'.mem = rel.foldl Mem.release s.mem
  rss : s'.rss = s.rss - (pagesOf start size).countP fun p => (s.entry p).isPresent

/-! ### Parts of a call -/

/-- These entries and tables are gone. -/
structure Cleared (s s' : State) (ps slots : List Nat) : Prop where
  entry : ∀ p, s'.entry p = if p ∈ ps then .empty else s.entry p
  table : ∀ i, s'.table i = if i ∈ slots then none else s.table i
  mem : ∃ rel : List Item, rel.Perm (ps.filterMap s.item ++ slots.filterMap s.tableItem) ∧
    s'.mem = rel.foldl Mem.release s.mem
  rss : s'.rss = s.rss - (ps.filterMap s.item).length

theorem Cleared.refl (s : State) : Cleared s s [] [] where
  entry := fun _ => (if_neg List.not_mem_nil).symm
  table := fun _ => (if_neg List.not_mem_nil).symm
  mem := ⟨[], .refl _, rfl⟩
  rss := (sub_zero s.rss).symm

theorem Cleared.item_eq (h : Cleared s s' ps slots) (hp : p ∉ ps) : s'.item p = s.item p := by
  rw [State.item, h.entry, if_neg hp, State.item]

theorem Cleared.tableItem_eq (h : Cleared s s' ps slots) (hi : i ∉ slots) :
    s'.tableItem i = s.tableItem i := by
  rw [State.tableItem, h.table, if_neg hi, State.tableItem]

/-- One part behind the other. -/
theorem Cleared.trans (h : Cleared s s' ps slots) (h' : Cleared s' s'' qs slots')
    (hps : ∀ p ∈ qs, p ∉ ps) (hslots : ∀ i ∈ slots', i ∉ slots) :
    Cleared s s'' (ps ++ qs) (slots ++ slots') := by
  have hitems : qs.filterMap s'.item = qs.filterMap s.item :=
    List.filterMap_congr fun p hp => h.item_eq (hps p hp)
  have htables : slots'.filterMap s'.tableItem = slots'.filterMap s.tableItem :=
    List.filterMap_congr fun i hi => h.tableItem_eq (hslots i hi)
  refine ⟨fun p => ?_, fun i => ?_, ?_, ?_⟩
  · rw [h'.entry, h.entry]
    by_cases hq : p ∈ qs
    · rw [if_pos hq, if_pos (List.mem_append_right _ hq)]
    · rw [if_neg hq]
      simp only [List.mem_append, hq, or_false]
  · rw [h'.table, h.table]
    by_cases hi : i ∈ slots'
    · rw [if_pos hi, if_pos (List.mem_append_right _ hi)]
    · rw [if_neg hi]
      simp only [List.mem_append, hi, or_false]
  · obtain ⟨rel, hperm, hmem⟩ := h.mem
    obtain ⟨rel', hperm', hmem'⟩ := h'.mem
    refine ⟨rel ++ rel', ?_, by rw [List.foldl_append, ← hmem, hmem']⟩
    rw [hitems, htables] at hperm'
    rw [List.filterMap_append, List.filterMap_append]
    refine (hperm.append hperm').trans ?_
    rw [List.append_assoc, List.append_assoc]
    exact (List.perm_append_comm_assoc _ _ _).append_left _
  · rw [h'.rss, h.rss, hitems, List.filterMap_append, List.length_append, Nat.cast_add, sub_sub]

theorem Cleared.perm (h : Cleared s s' ps slots) (hperm : slots.Perm slots') :
    Cleared s s' ps slots' where
  entry := h.entry
  table := fun i => by simp only [h.table, hperm.mem_iff]
  mem := by
    obtain ⟨rel, hrel, hmem⟩ := h.mem
    exact ⟨rel, hrel.trans ((hperm.filterMap _).append_left _), hmem⟩
  rss := h.rss

/-! ### Entries -/

@[simp] theorem setEntry_table (s : State) (i j : Nat) (e : Entry) (k : Nat) :
    (s.setEntry i j e).table k = s.table k := by
  unfold State.table State.setEntry
  dsimp only
  by_cases hk : k = i
  · rw [hk, Function.update_self]
    cases s.dir i <;> rfl
  · rw [Function.update_of_ne hk]

theorem setEntry_entryAt (hdir : s.dir i ≠ none) (k l : Nat) :
    (s.setEntry i j e).entryAt k l = if k = i ∧ l = j then e else s.entryAt k l := by
  unfold State.entryAt State.setEntry
  dsimp only
  by_cases hk : k = i
  · rw [hk, Function.update_self]
    cases ht : s.dir i with
    | none => exact absurd ht hdir
    | some t =>
        dsimp only [Option.map_some]
        rw [Function.update_apply]
        simp only [true_and]
  · rw [Function.update_of_ne hk, if_neg fun h => hk h.1]

/-- The entry of one page. -/
theorem setEntry_entry (hdir : s.dir i ≠ none) (hj : j < 1024) (p : Nat) :
    (s.setEntry i j e).entry p = if p = 1024 * i + j then e else s.entry p := by
  unfold State.entry
  rw [setEntry_entryAt hdir]
  congr 1
  exact propext ⟨fun h => by omega, fun h => by omega⟩

theorem entry_mul_add (s : State) (i : Nat) (hj : j < 1024) :
    s.entry (1024 * i + j) = s.entryAt i j := by
  unfold State.entry
  rw [Nat.mul_add_div (by decide), Nat.div_eq_of_lt hj, Nat.mul_add_mod, Nat.mod_eq_of_lt hj,
    Nat.add_zero]

theorem dir_ne_none (h : s.entryAt i j ≠ .empty) : s.dir i ≠ none := by
  intro hnone
  unfold State.entryAt at h
  rw [hnone] at h
  exact h rfl

theorem item_eq_none (h : e.item = none) : e = .empty := by
  cases e with
  | empty => rfl
  | present page mask => cases h
  | swapped nr => cases h

theorem dropEntry_none (h : (s.entryAt i j).item = none) : dropEntry s i j = s := by
  unfold dropEntry
  rw [item_eq_none h]

theorem dropEntry_some (h : (s.entryAt i j).item = some x) :
    dropEntry s i j =
      { s.setEntry i j .empty with rss := s.rss - 1, mem := s.mem.release x } := by
  unfold dropEntry
  cases he : s.entryAt i j with
  | empty =>
      rw [he] at h
      cases h
  | present page mask =>
      rw [he] at h
      cases h
      rfl
  | swapped nr =>
      rw [he] at h
      cases h
      rfl

/-- One entry. -/
theorem dropEntry_cleared (s : State) (i : Nat) (hj : j < 1024) :
    Cleared s (dropEntry s i j) [1024 * i + j] [] := by
  have hentry := entry_mul_add s i hj
  have hat : s.item (1024 * i + j) = (s.entryAt i j).item := congrArg Entry.item hentry
  cases hitem : (s.entryAt i j).item with
  | none =>
      have hitems : [1024 * i + j].filterMap s.item = [] := by
        rw [List.filterMap_cons_none (hat.trans hitem), List.filterMap_nil]
      rw [dropEntry_none hitem]
      refine ⟨fun p => ?_, fun i => (if_neg List.not_mem_nil).symm, ⟨[], ?_, rfl⟩, ?_⟩
      · by_cases hp : p ∈ [1024 * i + j]
        · rw [if_pos hp, List.mem_singleton.mp hp, hentry, item_eq_none hitem]
        · rw [if_neg hp]
      · rw [hitems]
        exact .refl _
      · rw [hitems]
        exact (sub_zero s.rss).symm
  | some x =>
      have hitems : [1024 * i + j].filterMap s.item = [x] := by
        rw [List.filterMap_cons_some (hat.trans hitem), List.filterMap_nil]
      have hdir : s.dir i ≠ none := dir_ne_none fun he => by
        rw [he] at hitem
        cases hitem
      rw [dropEntry_some hitem]
      refine ⟨fun p => ?_, fun k => ?_, ⟨[x], ?_, rfl⟩, ?_⟩
      · refine (setEntry_entry hdir hj p).trans ?_
        simp only [List.mem_singleton]
      · rw [if_neg List.not_mem_nil]
        exact setEntry_table s i j .empty k
      · rw [hitems]
        exact .refl _
      · rw [hitems]
        rfl

/-- Some entries of one table. -/
theorem unmapEntries_cleared (s : State) (i : Nat) (hle : j + n ≤ 1024) :
    Cleared s (unmapEntries i n j s) (List.range' (1024 * i + j) n) [] := by
  induction n generalizing s j with
  | zero => exact .refl s
  | succ n ih =>
      have hone := dropEntry_cleared s i (show j < 1024 by omega)
      have hrest := ih (dropEntry s i j) (show j + 1 + n ≤ 1024 by omega)
      rw [List.range'_succ]
      refine hone.trans hrest (fun p hp hp' => ?_) fun k hk => absurd hk List.not_mem_nil
      rw [List.mem_singleton.mp hp', List.mem_range'_1] at hp
      omega

/-! ### Tables -/

/-- A table without entries. -/
theorem freeTable_cleared {page : Nat} (htable : s.table i = some page)
    (hempty : ∀ j < 1024, s.entryAt i j = .empty) : Cleared s (freeTable s i page) [] [i] := by
  refine ⟨fun p => ?_, fun k => ?_, ⟨[.page page], ?_, rfl⟩, (sub_zero s.rss).symm⟩
  · rw [if_neg List.not_mem_nil]
    unfold State.entry State.entryAt freeTable State.setDir
    dsimp only
    by_cases hp : p / 1024 = i
    · rw [hp, Function.update_self]
      exact (hempty _ (Nat.mod_lt p (by decide))).symm
    · rw [Function.update_of_ne hp]
  · unfold State.table freeTable State.setDir
    dsimp only
    rw [Function.update_apply]
    by_cases hk : k = i
    · rw [if_pos hk, if_pos (List.mem_singleton.mpr hk), Option.map_none]
    · rw [if_neg hk, if_neg (mt List.mem_singleton.mp hk)]
  · have hitem : s.tableItem i = some (.page page) := by rw [State.tableItem, htable]; rfl
    rw [List.filterMap_cons_some hitem]
    exact .refl _

/-- A missing table. -/
theorem cleared_missing (hdir : s.dir i = none) (hle : j + n ≤ 1024) :
    Cleared s s (List.range' (1024 * i + j) n) (if n = 1024 then [i] else []) := by
  have hentry : ∀ p ∈ List.range' (1024 * i + j) n, s.entry p = .empty := by
    intro p hp
    rw [List.mem_range'_1] at hp
    unfold State.entry State.entryAt
    rw [show p / 1024 = i by omega, hdir]
  have htable : s.table i = none := by rw [State.table, hdir]; rfl
  have hitems : (List.range' (1024 * i + j) n).filterMap s.item = [] := by
    rw [List.filterMap_eq_nil_iff]
    intro p hp
    rw [State.item, hentry p hp]
    rfl
  have htables : (if n = 1024 then [i] else []).filterMap s.tableItem = [] := by
    split
    next => rw [List.filterMap_cons_none (by rw [State.tableItem, htable]; rfl), List.filterMap_nil]
    next => rfl
  refine ⟨fun p => ?_, fun k => ?_, ⟨[], ?_, rfl⟩, ?_⟩
  · split
    next hp => exact hentry p hp
    next => rfl
  · by_cases hk : k = i
    · rw [hk, htable, ite_self]
    · rw [if_neg]
      split
      next => exact mt List.mem_singleton.mp hk
      next => exact List.not_mem_nil
  · rw [hitems, htables]
    exact .refl _
  · rw [hitems]
    exact (sub_zero s.rss).symm

/-- What one turn does with a table that is there. -/
theorem cleared_table {t : Table} (hdir : s.dir i = some t) (hle : j + n ≤ 1024) :
    Cleared s (if n = 1024 then freeTable (unmapEntries i n j s) i t.page
      else unmapEntries i n j s) (List.range' (1024 * i + j) n) (if n = 1024 then [i] else []) := by
  have hentries := unmapEntries_cleared s i hle
  split
  next hn =>
    obtain rfl : j = 0 := by omega
    have htable : (unmapEntries i n 0 s).table i = some t.page := by
      rw [hentries.table, if_neg List.not_mem_nil, State.table, hdir]
      rfl
    have hfree := freeTable_cleared htable fun l hl => by
      rw [← entry_mul_add _ i hl, hentries.entry, if_pos]
      rw [List.mem_range'_1]
      omega
    have hboth := hentries.trans hfree (fun p hp => absurd hp List.not_mem_nil)
      fun k _ => List.not_mem_nil
    rwa [List.append_nil, List.nil_append] at hboth
  next => exact hentries

/-! ### The loop over the directory -/

/-- The pages of the first table, then the others. -/
theorem range'_split (hpoff : poff < 1024) (hcnt : pcnt = min (1024 - poff) size) :
    List.range' (1024 * i + poff) size =
      List.range' (1024 * i + poff) pcnt ++ List.range' (1024 * (i + 1)) (size - pcnt) := by
  by_cases hlast : size - pcnt = 0
  · rw [hlast, List.range'_zero, List.append_nil, show pcnt = size by omega]
  · rw [show 1024 * (i + 1) = 1024 * i + poff + pcnt by omega, List.range'_append_1,
      show pcnt + (size - pcnt) = size by omega]

theorem nodup_tablesIn (first n : Nat) : (tablesIn first n).Nodup := List.nodup_range.filter _

theorem mem_tablesIn {first : Nat} :
    i ∈ tablesIn first n ↔ i < 1024 ∧ first ≤ 1024 * i ∧ 1024 * (i + 1) ≤ first + n := by
  rw [tablesIn, List.mem_filter, List.mem_range, decide_eq_true_iff]

@[simp] theorem tablesIn_zero (first : Nat) : tablesIn first 0 = [] := by
  rw [List.eq_nil_iff_forall_not_mem]
  intro k hk
  rw [mem_tablesIn] at hk
  omega

theorem tablesIn_split (hpoff : poff < 1024) (hcnt : pcnt = min (1024 - poff) size)
    (hend : 1024 * i + poff + size ≤ 2 ^ 20) :
    ((if pcnt = 1024 then [i] else []) ++ tablesIn (1024 * (i + 1)) (size - pcnt)).Perm
      (tablesIn (1024 * i + poff) size) := by
  have hmem : ∀ k, k ∈ (if pcnt = 1024 then [i] else []) ↔ pcnt = 1024 ∧ k = i := by
    intro k
    split
    next h => rw [List.mem_singleton, and_iff_right h]
    next h => exact iff_of_false List.not_mem_nil fun h' => h h'.1
  have hnd : ((if pcnt = 1024 then [i] else []) ++
      tablesIn (1024 * (i + 1)) (size - pcnt)).Nodup := by
    rw [List.nodup_append]
    refine ⟨?_, nodup_tablesIn _ _, fun k hk l hl => ?_⟩
    · split
      next => exact List.nodup_singleton i
      next => exact List.nodup_nil
    · rw [hmem] at hk
      rw [mem_tablesIn] at hl
      omega
  refine (List.perm_ext_iff_of_nodup hnd (nodup_tablesIn _ _)).mpr fun k => ?_
  rw [List.mem_append, hmem, mem_tablesIn, mem_tablesIn]
  omega

theorem unmapLoop_cleared (s : State) (i size poff pcnt : Nat) (hpoff : poff < 1024)
    (hcnt : pcnt = min (1024 - poff) size) (hn : size ≤ n)
    (hend : 1024 * i + poff + size ≤ 2 ^ 20) :
    ∃ s', unmapLoop n i size poff pcnt s = some s' ∧
      Cleared s s' (List.range' (1024 * i + poff) size) (tablesIn (1024 * i + poff) size) := by
  induction n generalizing s i size poff pcnt with
  | zero =>
      obtain rfl := Nat.le_zero.mp hn
      refine ⟨s, if_pos rfl, ?_⟩
      rw [tablesIn_zero]
      exact .refl s
  | succ n ih =>
      by_cases hsize : size = 0
      · subst hsize
        refine ⟨s, by rw [unmapLoop, if_pos rfl], ?_⟩
        rw [tablesIn_zero]
        exact .refl s
      · have hturn : ∃ s₁, Cleared s s₁ (List.range' (1024 * i + poff) pcnt)
            (if pcnt = 1024 then [i] else []) ∧ unmapLoop (n + 1) i size poff pcnt s =
              unmapLoop n (i + 1) (size - pcnt) 0
                (if size - pcnt > 1024 then 1024 else size - pcnt) s₁ := by
          rw [unmapLoop, if_neg hsize]
          dsimp only
          cases hdir : s.dir i with
          | none => exact ⟨s, cleared_missing hdir (by omega), rfl⟩
          | some t => exact ⟨_, cleared_table hdir (by omega), rfl⟩
        obtain ⟨s₁, hfirst, heq⟩ := hturn
        obtain ⟨s', hs', hrest⟩ := ih s₁ (i + 1) (size - pcnt) 0
          (if size - pcnt > 1024 then 1024 else size - pcnt) (by decide) (by split <;> omega)
          (by omega) (by omega)
        refine ⟨s', heq.trans hs', ?_⟩
        rw [range'_split hpoff hcnt]
        refine (hfirst.trans hrest (fun p hp hp' => ?_) fun k hk hk' => ?_).perm
          (tablesIn_split hpoff hcnt hend)
        · rw [List.mem_range'_1] at hp hp'
          omega
        · rw [Nat.add_zero, mem_tablesIn] at hk
          split at hk'
          next => rw [List.mem_singleton.mp hk'] at hk; omega
          next => exact absurd hk' List.not_mem_nil

/-! ### `unmap_page_range` -/

/-- Every entry that is not empty is in memory or swapped out. -/
theorem length_filterMap_item (s : State) (ps : List Nat) :
    (ps.filterMap s.item).length =
      (ps.countP fun p => (s.entry p).isPresent) + ps.countP fun p => (s.entry p).isSwapped := by
  induction ps with
  | nil => rfl
  | cons p ps ih =>
      rw [List.countP_cons, List.countP_cons]
      cases he : s.entry p with
      | empty =>
          rw [List.filterMap_cons_none (by rw [State.item, he]; rfl), ih]
          rfl
      | present page mask =>
          rw [List.filterMap_cons_some (by rw [State.item, he]; rfl), List.length_cons, ih]
          simp only [Entry.isPresent, Entry.isSwapped, if_true, Bool.false_eq_true, if_false]
          omega
      | swapped nr =>
          rw [List.filterMap_cons_some (by rw [State.item, he]; rfl), List.length_cons, ih]
          simp only [Entry.isPresent, Entry.isSwapped, if_true, Bool.false_eq_true, if_false]
          omega

/-- No page of the range is swapped out. -/
def InMemory (s : State) (start size : Nat) : Prop :=
  ∀ p ∈ pagesOf start size, (s.entry p).isSwapped = false

theorem countP_isSwapped_eq_zero :
    ((pagesOf start size).countP fun p => (s.entry p).isSwapped) = 0 ↔ InMemory s start size := by
  rw [List.countP_eq_zero]
  exact forall₂_congr fun p _ => Bool.eq_false_iff.symm

/-- Within the address space of a task. -/
structure InTask (start size : Nat) : Prop where
  aligned : start % PAGE_SIZE = 0
  ne_zero : start ≠ 0
  low : start + size ≤ TASK_SIZE

theorem InTask.low_pages (h : InTask start size) :
    start / PAGE_SIZE + (size + 0xfff) / PAGE_SIZE ≤ 2 ^ 20 := by
  have haligned := h.aligned
  have hlow := h.low
  simp only [PAGE_SIZE, TASK_SIZE] at *
  omega

/-- Where the range starts. -/
theorem slot_add (start : Nat) :
    1024 * (start / 2 ^ 22) + start / PAGE_SIZE % 1024 = start / PAGE_SIZE := by
  simp only [PAGE_SIZE]
  omega

theorem firstCount_eq (size poff : Nat) : firstCount size poff = min (1024 - poff) size := by
  unfold firstCount
  split <;> omega

theorem unmapPageRange_cleared (s : State) (h : InTask start size) :
    ∃ s', unmapPageRange s start size = .next s' ∧
      Cleared s s' (pagesOf start size) (tablesOf start size) := by
  have hlow := h.low_pages
  rw [← slot_add] at hlow
  obtain ⟨s', hs', hcleared⟩ := unmapLoop_cleared (n := (size + 0xfff) / PAGE_SIZE + 1) s
    (start / 2 ^ 22) ((size + 0xfff) / PAGE_SIZE) (start / PAGE_SIZE % 1024) _
    (Nat.mod_lt _ (by decide)) (firstCount_eq _ _) (Nat.le_succ _) hlow
  rw [slot_add] at hcleared
  refine ⟨s', ?_, hcleared⟩
  unfold unmapPageRange
  rw [if_neg (not_not.mpr h.aligned), if_neg h.ne_zero]
  dsimp only
  rw [hs']

/-- Only `rss` can go wrong. -/
theorem Cleared.unmapped_iff (h : Cleared s s' (pagesOf start size) (tablesOf start size)) :
    Unmapped s s' start size ↔ InMemory s start size := by
  rw [← countP_isSwapped_eq_zero]
  have hrss := h.rss
  rw [length_filterMap_item] at hrss
  constructor
  · intro hu
    have hu := hu.rss
    omega
  · intro hzero
    rw [hzero, Nat.add_zero] at hrss
    exact ⟨h.entry, h.table, h.mem, hrss⟩

end LinuxKernel.V098.Mm.PageRange
