import LinuxKernel.V098.Mm.PageRangeSound

/-!
# LinuxKernel.V098.Mm.PageRangeRemap

**Ranges are remapped page after page, but for `rss`.** A `View` is what a state comes to when
the address space is flat; `View.replace` is what `remap_page_range` is for, on one page.

- The loops over tables and entries come to one loop over the pages (`remapLoop_view`).
- Each swapped-out page of the range leaves `rss` one too low.
-/

namespace LinuxKernel.V098.Mm.PageRange

open FreePages (PAGE_SIZE MAP_NR Reserved)

variable {gets : Nat → Option Nat} {s : State} {e : Entry} {d : Int}
  {i j n p q addr permiss mask size poff pcnt : Nat}

/-! ### What it is for -/

structure View where
  entry : Nat → Entry
  table : Nat → Option Nat
  rss : Int
  mem : Mem

def State.view (s : State) : View := ⟨s.entry, s.table, s.rss, s.mem⟩

namespace View

/-- The table of page `p`, if it has none. -/
def ensure (gets : Nat → Option Nat) (v : View) (p : Nat) : View :=
  match v.table (p / 1024), gets (p / 1024) with
  | none, some page =>
      { v with
        table := Function.update v.table (p / 1024) (some page)
        mem := { v.mem with memMap := Function.update v.mem.memMap (MAP_NR page) 1 } }
  | _, _ => v

/-- Page `p` is unmapped. -/
def remove (v : View) (p : Nat) : View :=
  { v with
    entry := Function.update v.entry p .empty
    rss := if (v.entry p).isPresent then v.rss - 1 else v.rss
    mem :=
      match (v.entry p).item with
      | none => v.mem
      | some x => v.mem.release x }

/-- There is a page at `addr`. -/
def Exists (v : View) (addr : Nat) : Prop :=
  addr < v.mem.highMemory ∧ v.mem.memMap (MAP_NR addr) ≠ 0

instance (v : View) (addr : Nat) : Decidable (v.Exists addr) := inferInstanceAs (Decidable (_ ∧ _))

/-- Page `p` is mapped to `addr`, if there is a page. -/
def place (v : View) (p addr mask : Nat) : View :=
  if v.Exists addr then
    { v with
      entry := Function.update v.entry p (.present addr mask)
      rss := v.rss + 1
      mem := v.mem.share addr }
  else v

def replace (gets : Nat → Option Nat) (mask : Nat) (v : View) (p addr : Nat) : View :=
  ((v.ensure gets p).remove p).place p addr mask

/-- `n` pages from `p` on are mapped to what is from `addr` on. -/
def remap (gets : Nat → Option Nat) (mask : Nat) : Nat → Nat → Nat → View → View
  | 0, _, _, v => v
  | n + 1, p, addr, v => remap gets mask n (p + 1) (addr + PAGE_SIZE) (v.replace gets mask p addr)

/-- `rss` is too low by `d`. -/
def lower (v : View) (d : Int) : View := { v with rss := v.rss - d }

end View

/-- `get_free_page` has a page for each table that is missing. -/
def HasTables (gets : Nat → Option Nat) (s : State) (start size : Nat) : Prop :=
  ∀ p ∈ pagesOf start size, s.table (p / 1024) = none → gets (p / 1024) ≠ none

/-! ### Views -/

@[simp] theorem lower_zero (v : View) : v.lower 0 = v := by
  unfold View.lower
  rw [sub_zero]

theorem lower_lower (v : View) (d d' : Int) : (v.lower d).lower d' = v.lower (d + d') := by
  unfold View.lower
  dsimp only
  rw [sub_sub]

theorem ensure_lower (v : View) : (v.lower d).ensure gets p = (v.ensure gets p).lower d := by
  unfold View.ensure View.lower
  dsimp only
  split <;> rfl

theorem remove_lower (v : View) : (v.lower d).remove p = (v.remove p).lower d := by
  unfold View.remove View.lower
  dsimp only
  congr 1
  split <;> omega

theorem place_lower (v : View) : (v.lower d).place p addr mask = (v.place p addr mask).lower d := by
  unfold View.place
  by_cases h : v.Exists addr
  · rw [if_pos h, if_pos (show (v.lower d).Exists addr from h)]
    unfold View.lower
    dsimp only
    congr 1
    omega
  · rw [if_neg h, if_neg (show ¬ (v.lower d).Exists addr from h)]

theorem replace_lower (v : View) :
    (v.lower d).replace gets mask p addr = (v.replace gets mask p addr).lower d := by
  unfold View.replace
  rw [ensure_lower, remove_lower, place_lower]

theorem remap_lower (v : View) :
    (v.lower d).remap gets mask n p addr = (v.remap gets mask n p addr).lower d := by
  induction n generalizing v p addr with
  | zero => rfl
  | succ n ih => rw [View.remap, replace_lower, ih, View.remap]

theorem remap_add (v : View) (m n p addr : Nat) :
    v.remap gets mask (m + n) p addr =
      (v.remap gets mask m p addr).remap gets mask n (p + m) (addr + m * PAGE_SIZE) := by
  induction m generalizing v p addr with
  | zero => rw [Nat.zero_add, Nat.zero_mul, View.remap, Nat.add_zero, Nat.add_zero]
  | succ m ih =>
      rw [Nat.succ_add, View.remap, ih, View.remap]
      congr 1
      · omega
      · rw [Nat.succ_mul]
        omega

@[simp] theorem ensure_entry (v : View) : (v.ensure gets p).entry = v.entry := by
  unfold View.ensure
  split <;> rfl

theorem replace_entry (v : View) (hq : q ≠ p) :
    (v.replace gets mask p addr).entry q = v.entry q := by
  have hremove : ((v.ensure gets p).remove p).entry q = v.entry q := by
    refine (Function.update_of_ne hq _ _).trans ?_
    rw [ensure_entry]
  unfold View.replace View.place
  split
  next => exact (Function.update_of_ne hq _ _).trans hremove
  next => exact hremove

theorem remap_entry (v : View) (hq : q ∉ List.range' p n) :
    (v.remap gets mask n p addr).entry q = v.entry q := by
  induction n generalizing v p addr with
  | zero => rfl
  | succ n ih =>
      rw [List.range'_succ, List.mem_cons, not_or] at hq
      rw [View.remap, ih _ hq.2, replace_entry _ hq.1]

theorem ensure_of_some {v : View} (h : v.table (p / 1024) ≠ none) : v.ensure gets p = v := by
  unfold View.ensure
  split
  next hnone _ => exact absurd hnone h
  next => rfl

/-! ### One page -/

theorem setEntry_same (hj : j < 1024) (he : s.entry (1024 * i + j) = e) :
    (s.setEntry i j e).entry = s.entry := by
  funext p
  by_cases hdir : s.dir i = none
  · unfold State.setEntry State.entry State.entryAt
    dsimp only
    rw [hdir, Option.map_none, ← hdir, Function.update_eq_self]
  · rw [setEntry_entry hdir hj]
    split
    next hp => rw [hp, he]
    next => rfl

theorem setEntry_update (hdir : s.dir i ≠ none) (hj : j < 1024) :
    (s.setEntry i j e).entry = Function.update s.entry (1024 * i + j) e := by
  funext p
  rw [setEntry_entry hdir hj, Function.update_apply]

/-- How many of these pages are swapped out. -/
def swappedIn (entry : Nat → Entry) (ps : List Nat) : Nat :=
  ps.countP fun p => (entry p).isSwapped

theorem dropEntry_view (s : State) (i : Nat) (hj : j < 1024) :
    (dropEntry s i j).view =
      (s.view.remove (1024 * i + j)).lower (swappedIn s.entry [1024 * i + j]) := by
  have hat := entry_mul_add s i hj
  have hview : s.view.entry (1024 * i + j) = s.entryAt i j := hat
  cases he : s.entryAt i j with
  | empty =>
      have hsame : Function.update s.entry (1024 * i + j) .empty = s.entry := by
        rw [← he, ← hat, Function.update_eq_self]
      rw [dropEntry_none (by rw [he]; rfl), swappedIn, List.countP_singleton, hat, he]
      unfold View.remove
      rw [hview, he]
      change _ = (View.mk (Function.update s.entry _ _) s.table s.rss s.mem).lower 0
      rw [hsame, lower_zero]
      rfl
  | present page mask =>
      have hdir : s.dir i ≠ none := dir_ne_none fun h => by rw [he] at h; cases h
      rw [dropEntry_some (x := .page page) (by rw [he]; rfl), swappedIn, List.countP_singleton, hat,
        he]
      unfold View.remove
      rw [hview, he]
      change View.mk (s.setEntry i j .empty).entry (s.setEntry i j .empty).table _ _ =
        (View.mk (Function.update s.entry _ _) s.table (s.rss - 1) _).lower 0
      rw [lower_zero, setEntry_update hdir hj, funext (setEntry_table s i j .empty)]
      rfl
  | swapped nr =>
      have hdir : s.dir i ≠ none := dir_ne_none fun h => by rw [he] at h; cases h
      rw [dropEntry_some (x := .slot nr) (by rw [he]; rfl), swappedIn, List.countP_singleton, hat,
        he]
      unfold View.remove
      rw [hview, he]
      change View.mk (s.setEntry i j .empty).entry (s.setEntry i j .empty).table _ _ =
        (View.mk (Function.update s.entry _ _) s.table s.rss _).lower 1
      rw [setEntry_update hdir hj, funext (setEntry_table s i j .empty)]
      rfl

theorem mapEntry_view (hdir : s.dir i ≠ none) (hj : j < 1024) (hmask : mask ≠ 4)
    (hempty : s.entry (1024 * i + j) = .empty) :
    (mapEntry s i j addr mask).view = s.view.place (1024 * i + j) addr mask := by
  unfold mapEntry View.place
  by_cases h : s.view.Exists addr
  · have hmap : ¬ (mask = 4 ∨ addr ≥ s.mem.highMemory ∨ s.mem.memMap (MAP_NR addr) = 0) := by
      rintro (h4 | hhigh | hzero)
      · exact hmask h4
      · exact absurd h.1 (Nat.not_lt.mpr hhigh)
      · exact h.2 hzero
    rw [if_neg hmap, if_pos h]
    change View.mk (s.setEntry i j _).entry (s.setEntry i j _).table _ _ = _
    rw [setEntry_update hdir hj, funext (setEntry_table s i j _)]
    rfl
  · have hmap : mask = 4 ∨ addr ≥ s.mem.highMemory ∨ s.mem.memMap (MAP_NR addr) = 0 := by
      right
      by_contra hno
      rw [not_or, ge_iff_le, Nat.not_le] at hno
      exact h hno
    rw [if_pos hmap, if_neg h]
    change View.mk (s.setEntry i j _).entry (s.setEntry i j _).table _ _ = _
    rw [setEntry_same hj hempty, funext (setEntry_table s i j _)]
    rfl

theorem dropEntry_dir (hdir : s.dir i ≠ none) : (dropEntry s i j).dir i ≠ none := by
  cases hitem : (s.entryAt i j).item with
  | none => rwa [dropEntry_none hitem]
  | some x =>
      rw [dropEntry_some hitem]
      change Function.update s.dir i _ i ≠ none
      rw [Function.update_self]
      exact fun h => hdir (Option.map_eq_none_iff.mp h)

theorem mapEntry_dir (hdir : s.dir i ≠ none) : (mapEntry s i j addr mask).dir i ≠ none := by
  have hset : ∀ e, (s.setEntry i j e).dir i ≠ none := by
    intro e
    change Function.update s.dir i _ i ≠ none
    rw [Function.update_self]
    exact fun h => hdir (Option.map_eq_none_iff.mp h)
  unfold mapEntry
  split
  next => exact hset _
  next => exact hset _

theorem table_ne_none (h : s.dir i ≠ none) : s.table i ≠ none := fun h' =>
  h (Option.map_eq_none_iff.mp h')

/-- One turn of the inner loop. -/
theorem turn_view (gets : Nat → Option Nat) (addr : Nat) (hdir : s.dir i ≠ none) (hj : j < 1024)
    (hmask : mask ≠ 4) :
    (mapEntry (dropEntry s i j) i j addr mask).view =
      (s.view.replace gets mask (1024 * i + j) addr).lower (swappedIn s.entry [1024 * i + j]) := by
  have hdrop := dropEntry_view s i hj
  have htable : s.view.table ((1024 * i + j) / 1024) ≠ none := by
    rw [Nat.mul_add_div (by decide), Nat.div_eq_of_lt hj, Nat.add_zero]
    exact table_ne_none hdir
  rw [mapEntry_view (dropEntry_dir hdir) hj hmask, hdrop, place_lower, View.replace,
    ensure_of_some htable]
  rw [show (dropEntry s i j).entry = (dropEntry s i j).view.entry from rfl, hdrop]
  exact Function.update_self ..

/-! ### The loops -/

theorem swappedIn_append (entry : Nat → Entry) (ps qs : List Nat) :
    (swappedIn entry (ps ++ qs) : Int) = swappedIn entry ps + swappedIn entry qs := by
  unfold swappedIn
  rw [List.countP_append, Nat.cast_add]

theorem swappedIn_congr {entry entry' : Nat → Entry} {ps : List Nat}
    (h : ∀ p ∈ ps, entry' p = entry p) : swappedIn entry' ps = swappedIn entry ps :=
  List.countP_congr fun p hp => by rw [h p hp]

theorem remapEntries_view (gets : Nat → Option Nat) (s : State) (j addr : Nat)
    (hdir : s.dir i ≠ none) (hle : j + n ≤ 1024) (hmask : protection permiss ≠ 4)
    (haddr : addr + n * PAGE_SIZE ≤ 2 ^ 32) :
    (remapEntries permiss i n j addr s).2.view =
      (s.view.remap gets (protection permiss) n (1024 * i + j) addr).lower
        (swappedIn s.entry (List.range' (1024 * i + j) n)) ∧
    (n ≠ 0 → (remapEntries permiss i n j addr s).1 = (addr + n * PAGE_SIZE) % 2 ^ 32) := by
  induction n generalizing s j addr with
  | zero => exact ⟨(lower_zero _).symm, fun h => absurd rfl h⟩
  | succ n ih =>
      have hj : j < 1024 := by omega
      have hturn := turn_view gets addr hdir hj hmask
      rw [remapEntries, View.remap, List.range'_succ, ← List.singleton_append,
        swappedIn_append]
      by_cases hn : n = 0
      · subst hn
        refine ⟨?_, fun _ => ?_⟩
        · rw [remapEntries, View.remap, hturn]
          congr 1
        · rw [remapEntries, Nat.zero_add, Nat.one_mul]
      · have hnext : (addr + PAGE_SIZE) % 2 ^ 32 = addr + PAGE_SIZE := by
          refine Nat.mod_eq_of_lt ?_
          rw [Nat.succ_mul] at haddr
          have hpos := Nat.mul_le_mul_right PAGE_SIZE (Nat.one_le_iff_ne_zero.mpr hn)
          unfold PAGE_SIZE at *
          omega
        rw [hnext]
        obtain ⟨hview, hto⟩ := ih (mapEntry (dropEntry s i j) i j addr (protection permiss))
          (j + 1) (addr + PAGE_SIZE) (mapEntry_dir (dropEntry_dir hdir)) (by omega)
          (by rw [Nat.succ_mul] at haddr; omega)
        have hsame : swappedIn (mapEntry (dropEntry s i j) i j addr (protection permiss)).entry
            (List.range' (1024 * i + (j + 1)) n) =
            swappedIn s.entry (List.range' (1024 * i + (j + 1)) n) := by
          refine swappedIn_congr fun q hq => ?_
          rw [List.mem_range'_1] at hq
          refine (congrFun (congrArg View.entry hturn) q).trans ?_
          exact replace_entry s.view (by omega)
        rw [hsame, hturn, remap_lower, lower_lower] at hview
        refine ⟨hview, fun _ => ?_⟩
        rw [hto hn, Nat.succ_mul, Nat.add_assoc, Nat.add_comm PAGE_SIZE]

theorem newTable_view {page : Nat} (hdir : s.dir i = none) (hgets : gets i = some page)
    (hp : p / 1024 = i) : (newTable s i page).view = s.view.ensure gets p := by
  have htable : s.view.table (p / 1024) = none := by
    rw [hp]
    exact congrArg (Option.map Table.page) hdir
  unfold View.ensure
  rw [htable, hp, hgets]
  have hentry : (newTable s i page).entry = s.entry := by
    funext q
    unfold newTable State.setDir State.entry State.entryAt
    dsimp only
    by_cases hq : q / 1024 = i
    · rw [hq, Function.update_self, hdir]
    · rw [Function.update_of_ne hq]
  have htables : (newTable s i page).table = Function.update s.table i (some page) := by
    funext k
    unfold newTable State.setDir State.table
    dsimp only
    by_cases hk : k = i
    · rw [hk, Function.update_self, Function.update_self]
      rfl
    · rw [Function.update_of_ne hk, Function.update_of_ne hk]
  unfold State.view
  rw [hentry, htables]
  rfl

theorem ensure_ensure (v : View) : (v.ensure gets p).ensure gets p = v.ensure gets p := by
  cases hv : v.table (p / 1024) with
  | some page =>
      have hsome : v.ensure gets p = v := ensure_of_some fun h => by rw [hv] at h; cases h
      rw [hsome, hsome]
  | none =>
      cases hg : gets (p / 1024) with
      | none =>
          have hsame : v.ensure gets p = v := by
            unfold View.ensure
            rw [hv, hg]
          rw [hsame, hsame]
      | some page =>
          refine ensure_of_some ?_
          unfold View.ensure
          rw [hv, hg]
          dsimp only
          rw [Function.update_self]
          exact fun h => by cases h

/-- The first page makes the table for all of them. -/
theorem remap_ensure (v : View) (hn : n ≠ 0) :
    (v.ensure gets p).remap gets mask n p addr = v.remap gets mask n p addr := by
  obtain ⟨m, rfl⟩ := Nat.exists_eq_succ_of_ne_zero hn
  rw [View.remap, View.remap, View.replace, View.replace, ensure_ensure]

theorem remap_table (v : View) (hq : (v.table q).isSome) :
    ((v.remap gets mask n p addr).table q).isSome := by
  induction n generalizing v p addr with
  | zero => exact hq
  | succ n ih =>
      refine ih _ ?_
      have hensure : ((v.ensure gets p).table q).isSome := by
        unfold View.ensure
        split
        next page _ _ =>
          dsimp only
          by_cases hk : q = p / 1024
          · rw [hk, Function.update_self]
            rfl
          · rwa [Function.update_of_ne hk]
        next => exact hq
      unfold View.replace View.place
      split
      next => exact hensure
      next => exact hensure

/-- One turn of the loop over the directory. -/
theorem dirTurn_view (s : State) (i j addr : Nat) (hn : n ≠ 0) (hle : j + n ≤ 1024)
    (hmask : protection permiss ≠ 4) (haddr : addr + n * PAGE_SIZE ≤ 2 ^ 32)
    (htables : s.table i = none → gets i ≠ none) :
    ∃ s₁, (match s.dir i with
        | none => (gets i).map fun page => remapEntries permiss i n j addr (newTable s i page)
        | some _ => some (remapEntries permiss i n j addr s)) =
          some ((addr + n * PAGE_SIZE) % 2 ^ 32, s₁) ∧
      s₁.view = (s.view.remap gets (protection permiss) n (1024 * i + j) addr).lower
        (swappedIn s.entry (List.range' (1024 * i + j) n)) := by
  cases hdir : s.dir i with
  | some t =>
      have hsome : s.dir i ≠ none := by
        rw [hdir]
        exact fun h => by cases h
      obtain ⟨hview, hto⟩ := remapEntries_view gets s j addr hsome hle hmask haddr
      exact ⟨_, congrArg some (Prod.ext (hto hn) rfl), hview⟩
  | none =>
      have htable : s.table i = none := by rw [State.table, hdir]; rfl
      obtain ⟨page, hpage⟩ := Option.ne_none_iff_exists'.mp (htables htable)
      have hnew : (newTable s i page).view = s.view.ensure gets (1024 * i + j) :=
        newTable_view hdir hpage (by omega)
      have hsome : (newTable s i page).dir i ≠ none := by
        change Function.update s.dir i _ i ≠ none
        rw [Function.update_self]
        exact fun h => by cases h
      obtain ⟨hview, hto⟩ := remapEntries_view gets (newTable s i page) j addr hsome hle hmask haddr
      have hentry : (newTable s i page).entry = s.entry := by
        rw [show (newTable s i page).entry = (newTable s i page).view.entry from rfl, hnew,
          ensure_entry]
        rfl
      rw [hnew, remap_ensure _ hn, hentry] at hview
      refine ⟨_, ?_, hview⟩
      rw [hpage]
      exact congrArg some (Prod.ext (hto hn) rfl)

theorem remapLoop_view (s : State) (i size poff pcnt addr : Nat) (hpoff : poff < 1024)
    (hcnt : pcnt = min (1024 - poff) size) (hn : size ≤ n) (hmask : protection permiss ≠ 4)
    (haddr : addr + size * PAGE_SIZE ≤ 2 ^ 32)
    (htables : ∀ p ∈ List.range' (1024 * i + poff) size,
      s.table (p / 1024) = none → gets (p / 1024) ≠ none) :
    ∃ s', remapLoop gets permiss n i size poff pcnt addr s = some (0, s') ∧
      s'.view = (s.view.remap gets (protection permiss) size (1024 * i + poff) addr).lower
        (swappedIn s.entry (List.range' (1024 * i + poff) size)) := by
  induction n generalizing s i size poff pcnt addr with
  | zero =>
      obtain rfl := Nat.le_zero.mp hn
      exact ⟨s, if_pos rfl, (lower_zero _).symm⟩
  | succ n ih =>
      by_cases hsize : size = 0
      · subst hsize
        exact ⟨s, by rw [remapLoop, if_pos rfl], (lower_zero _).symm⟩
      · have hpos : pcnt ≠ 0 := by omega
        have hsum : pcnt + (size - pcnt) = size := by omega
        rw [← hsum, Nat.add_mul] at haddr
        obtain ⟨s₁, hturn, hview⟩ := dirTurn_view s i poff addr hpos (by omega) hmask
          (by omega) fun hnone => by
            have hfirst := htables (1024 * i + poff) (by rw [List.mem_range'_1]; omega)
            rw [show (1024 * i + poff) / 1024 = i by omega] at hfirst
            exact hfirst hnone
        have heq : remapLoop gets permiss (n + 1) i size poff pcnt addr s =
            remapLoop gets permiss n (i + 1) (size - pcnt) 0
              (if size - pcnt > 1024 then 1024 else size - pcnt)
              ((addr + pcnt * PAGE_SIZE) % 2 ^ 32) s₁ := by
          rw [remapLoop, if_neg hsize]
          dsimp only
          cases hdir : s.dir i with
          | none =>
              rw [hdir] at hturn
              dsimp only at hturn ⊢
              cases hg : gets i with
              | none =>
                  rw [hg] at hturn
                  cases hturn
              | some page =>
                  rw [hg, Option.map_some] at hturn
                  dsimp only
                  rw [Option.some.inj hturn]
          | some t =>
              rw [hdir] at hturn
              dsimp only at hturn ⊢
              rw [Option.some.inj hturn]
        -- behind the last page `to` may have come round to zero
        have hto : size - pcnt = 0 ∨
            (addr + pcnt * PAGE_SIZE) % 2 ^ 32 = addr + pcnt * PAGE_SIZE := by
          refine (Nat.eq_zero_or_pos (size - pcnt)).imp id fun hrest => Nat.mod_eq_of_lt ?_
          have hpage := Nat.mul_le_mul_right PAGE_SIZE hrest
          have hone : 0 < PAGE_SIZE := by decide
          omega
        have hlow := Nat.mod_lt (addr + pcnt * PAGE_SIZE) (show 2 ^ 32 > 0 by decide)
        have haddr' : (addr + pcnt * PAGE_SIZE) % 2 ^ 32 + (size - pcnt) * PAGE_SIZE ≤ 2 ^ 32 := by
          rcases hto with h0 | h0
          · rw [h0]
            omega
          · rw [h0]
            omega
        have htables' : ∀ p ∈ List.range' (1024 * (i + 1) + 0) (size - pcnt),
            s₁.table (p / 1024) = none → gets (p / 1024) ≠ none := by
          intro p hp hnone
          rw [Nat.add_zero, List.mem_range'_1] at hp
          refine htables p (by rw [List.mem_range'_1]; omega) ?_
          by_contra hsome
          have htable : s₁.table (p / 1024) = (s.view.remap gets (protection permiss) pcnt
              (1024 * i + poff) addr).table (p / 1024) :=
            congrFun (congrArg View.table hview) (p / 1024)
          have hkept : (s₁.table (p / 1024)).isSome := by
            rw [htable]
            exact remap_table s.view (Option.isSome_iff_ne_none.mpr hsome)
          rw [hnone] at hkept
          cases hkept
        obtain ⟨s', hs', hview'⟩ := ih s₁ (i + 1) (size - pcnt) 0
          (if size - pcnt > 1024 then 1024 else size - pcnt)
          ((addr + pcnt * PAGE_SIZE) % 2 ^ 32) (by decide) (by split <;> omega) (by omega) haddr'
          htables'
        refine ⟨s', heq.trans hs', hview'.trans ?_⟩
        have hentries : ∀ q ∈ List.range' (1024 * (i + 1) + 0) (size - pcnt),
            s₁.entry q = s.entry q := by
          intro q hq
          rw [Nat.add_zero, List.mem_range'_1] at hq
          refine (congrFun (congrArg View.entry hview) q).trans (remap_entry s.view ?_)
          rw [List.mem_range'_1]
          omega
        have hpages : (s.view.remap gets (protection permiss) pcnt (1024 * i + poff) addr).remap
            gets (protection permiss) (size - pcnt) (1024 * (i + 1) + 0)
            ((addr + pcnt * PAGE_SIZE) % 2 ^ 32) =
            s.view.remap gets (protection permiss) size (1024 * i + poff) addr := by
          rw [← congrArg (fun m => s.view.remap gets (protection permiss) m (1024 * i + poff) addr)
            hsum, remap_add]
          rcases hto with h0 | h0
          · rw [h0]
            rfl
          · rw [h0]
            by_cases hrest : size - pcnt = 0
            · rw [hrest]
              rfl
            · rw [show 1024 * (i + 1) + 0 = 1024 * i + poff + pcnt by omega]
        rw [swappedIn_congr hentries, hview, remap_lower, lower_lower, hpages,
          range'_split hpoff hcnt, swappedIn_append, Nat.add_zero]

/-! ### `remap_page_range` -/

/-- The range is mapped to what is from `addr` on. -/
def Remapped (gets : Nat → Option Nat) (s s' : State) (start addr size permiss : Nat) : Prop :=
  s'.view = s.view.remap gets (protection permiss) ((size + 0xfff) / PAGE_SIZE)
    (start / PAGE_SIZE) addr

/-- A call that `get_free_page` does not stop, with addresses that do not come round to zero, and
a protection that allows anything at all. -/
structure Mappable (gets : Nat → Option Nat) (s : State) (start addr size permiss : Nat) : Prop
    where
  aligned : addr % PAGE_SIZE = 0
  low : addr + (size + 0xfff) / PAGE_SIZE * PAGE_SIZE ≤ 2 ^ 32
  allowed : protection permiss ≠ 4
  tables : HasTables gets s start size

theorem lower_eq_iff {v : View} : v.lower d = v ↔ d = 0 := by
  constructor
  · intro h
    have hrss : v.rss - d = v.rss := congrArg View.rss h
    omega
  · rintro rfl
    exact lower_zero v

theorem remapPageRange_iff {start : Nat} (h : InTask start size)
    (hm : Mappable gets s start addr size permiss) :
    ∃ s', remapPageRange gets s start addr size permiss = .next (0, s') ∧
      (Remapped gets s s' start addr size permiss ↔ InMemory s start size) := by
  have htables := hm.tables
  unfold HasTables pagesOf at htables
  rw [← slot_add start] at htables
  obtain ⟨s', hs', hview⟩ := remapLoop_view (n := (size + 0xfff) / PAGE_SIZE + 1) s
    (start / 2 ^ 22) ((size + 0xfff) / PAGE_SIZE) (start / PAGE_SIZE % 1024) _ addr
    (Nat.mod_lt _ (by decide)) (firstCount_eq _ _) (Nat.le_succ _) hm.allowed hm.low htables
  rw [slot_add] at hview
  refine ⟨s', ?_, ?_⟩
  · have hgood : ¬ (start % PAGE_SIZE ≠ 0 ∨ addr % PAGE_SIZE ≠ 0) := by
      rintro (hbad | hbad)
      · exact hbad h.aligned
      · exact hbad hm.aligned
    unfold remapPageRange
    rw [if_neg hgood]
    dsimp only
    rw [hs']
  · unfold Remapped
    rw [hview, lower_eq_iff, Nat.cast_eq_zero]
    exact countP_isSwapped_eq_zero

/-- Both functions do what they are for exactly when no page of the range is swapped out. -/
theorem range_iff (gets : Nat → Option Nat) (s : State) (start size : Nat)
    (h : InTask start size) :
    (∃ s', unmapPageRange s start size = .next s' ∧
      (Unmapped s s' start size ↔ InMemory s start size)) ∧
    ∀ addr permiss, Mappable gets s start addr size permiss →
      ∃ s', remapPageRange gets s start addr size permiss = .next (0, s') ∧
        (Remapped gets s s' start addr size permiss ↔ InMemory s start size) := by
  refine ⟨?_, fun addr permiss hm => remapPageRange_iff h hm⟩
  obtain ⟨s', hs', hcleared⟩ := unmapPageRange_cleared s h
  exact ⟨s', hs', hcleared.unmapped_iff⟩

/-! ### One page -/

/-- Page 1024 has this entry. -/
def onePage (e : Entry) : State where
  dir i := if i = 1 then some ⟨0x5000, fun j => if j = 0 then e else .empty⟩ else none
  rss := 7
  mem := {
    highMemory := 0x100000
    memMap := fun i => if i = 0 then FreePages.MAP_PAGE_RESERVED else 1
    swap := SwapLocks.fileSystem fun b => b }

theorem inTask_onePage : InTask 0x400000 0x1000 := ⟨by decide, by decide, by decide⟩

theorem range_iff_onePage :
    (∃ s', unmapPageRange (onePage (.present 0x6000 7)) 0x400000 0x1000 = .next s' ∧
      (Unmapped (onePage (.present 0x6000 7)) s' 0x400000 0x1000 ↔
        InMemory (onePage (.present 0x6000 7)) 0x400000 0x1000)) ∧
    ∃ s', remapPageRange (fun _ => none) (onePage (.present 0x6000 7)) 0x400000 0x7000 0x1000 3 =
        .next (0, s') ∧
      (Remapped (fun _ => none) (onePage (.present 0x6000 7)) s' 0x400000 0x7000 0x1000 3 ↔
        InMemory (onePage (.present 0x6000 7)) 0x400000 0x1000) := by
  have h := range_iff (fun _ => none) (onePage (.present 0x6000 7)) 0x400000 0x1000 inTask_onePage
  refine ⟨h.1, h.2 0x7000 3 ⟨by decide, by decide, by decide, fun p hp hnone => ?_⟩⟩
  have hp' : p = 1024 := by
    rw [pagesOf, List.mem_range'_1] at hp
    simp only [PAGE_SIZE] at hp
    omega
  rw [hp'] at hnone
  cases hnone

/-- `rss` is lowered for a page that is swapped out. -/
theorem not_unmapped :
    ¬ ∀ s start size, InTask start size →
      ∃ s', unmapPageRange s start size = .next s' ∧ Unmapped s s' start size := by
  intro hall
  obtain ⟨s', hs', hu⟩ := hall (onePage (.swapped 5)) 0x400000 0x1000 inTask_onePage
  obtain ⟨t, ht, hcleared⟩ := unmapPageRange_cleared (onePage (.swapped 5)) inTask_onePage
  obtain rfl : s' = t := Outcome.next.inj (hs'.symm.trans ht)
  have hmem := hcleared.unmapped_iff.mp hu 1024 (by decide)
  cases hmem

end LinuxKernel.V098.Mm.PageRange
