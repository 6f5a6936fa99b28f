import LinuxKernel.V011.Fs.DirNames
import LinuxKernel.V011.Fs.DirRefs
import LinuxKernel.V011.Fs.DirSlots

/-!
# LinuxKernel.V011.Fs.DirLookup

**`find_entry` after `add_entry`.**

`add_entry` gives a free entry the name, and its caller stores an inode number. All other
entries stay (`Put`), so that a later search finds the new entry if it comes to it, and
otherwise what it found before.
-/

namespace LinuxKernel.V011.Fs.DirBlocks

open Dir

variable {env : Env} {s s' : State} {name n : List UInt8} {b inum : Short} {i j k de : Nat}

/-! ### What is written -/

/-- `de->inode = inum`, by the caller of `add_entry`. -/
def State.store (s : State) (p : Short × Nat) (inum : Short) : State :=
  s.setData p.1 (putWord (s.data p.1) (8 * p.2) inum)

/-- Entry `de` of buffer `b` is written, and nothing else. -/
structure Written (s s' : State) (b : Short) (de : Nat) (d : DirEntry) : Prop where
  zone : s'.dir.zone = s.dir.zone
  data : ∀ x, x ≠ b → s'.data x = s.data x
  entry : ∀ j, entryAt (s'.data b) j = if j = de then d else entryAt (s.data b) j

theorem inode_putWord (d : Block) (de : Nat) (v : Short) (j : Nat) :
    (entryAt (putWord d (8 * de) v) j).inode = if j = de then v else (entryAt d j).inode := by
  change word (putWord d (8 * de) v) (8 * j) = _
  rw [word_putWord]
  exact if_congr (by omega) rfl rfl

theorem name_putWord (d : Block) (de : Nat) (v : Short) (j : Nat) :
    (entryAt (putWord d (8 * de) v) j).name = (entryAt d j).name := by
  funext k
  have hk : k.val < 14 := k.isLt
  change UInt8.ofBitVec (putWord d (8 * de) v (16 * j + 2 + k)) = _
  rw [putWord, Function.update_of_ne (by omega), Function.update_of_ne (by omega)]
  rfl

theorem inode_putName (d : Block) (de : Nat) (nm : Fin NAME_LEN → UInt8) (j : Nat) :
    (entryAt (putName d de nm) j).inode = (entryAt d j).inode := by
  change word (putName d de nm) (8 * j) = word d (8 * j)
  have hout : ∀ i, ¬ (16 * de + 2 ≤ i ∧ i < 16 * de + 16) → putName d de nm i = d i :=
    fun i h => dif_neg h
  rw [word, word, hout _ (by omega), hout _ (by omega)]

theorem name_putName (d : Block) (de : Nat) (nm : Fin NAME_LEN → UInt8) (j : Nat) :
    (entryAt (putName d de nm) j).name = if j = de then nm else (entryAt d j).name := by
  funext k
  have hk : k.val < 14 := k.isLt
  change UInt8.ofBitVec (putName d de nm (16 * j + 2 + k)) = _
  rw [putName]
  by_cases h : j = de
  · subst h
    rw [if_pos rfl]
    have hpos : 16 * j + 2 + k.val - (16 * j + 2) = k.val := Nat.add_sub_cancel_left ..
    rw [dif_pos (by omega)]
    simp only [hpos]
  · rw [if_neg h, dif_neg (by omega)]
    rfl

theorem entry_ext {d d' : DirEntry} (hi : d.inode = d'.inode) (hn : d.name = d'.name) :
    d = d' := by
  cases d
  cases d'
  congr

/-- A name and an inode number in one entry. -/
theorem entryAt_stored {d d' : Block} (h : ∀ j, j ≠ de → entryAt d' j = entryAt d j)
    (nm : Fin NAME_LEN → UInt8) (inum : Short) (j : Nat) :
    entryAt (putWord (putName d' de nm) (8 * de) inum) j =
      if j = de then ⟨inum, nm⟩ else entryAt d j := by
  refine entry_ext ?_ ?_
  · rw [inode_putWord, inode_putName]
    split
    · rfl
    · next hj => rw [h j hj]
  · rw [name_putWord, name_putName]
    split
    · rfl
    · next hj => rw [h j hj]

theorem setData_self (s : State) (b : Short) (d : Block) : (s.setData b d).data b = d :=
  Function.update_self ..

theorem setData_of_ne {x : Short} (hx : x ≠ b) (s : State) (d : Block) :
    (s.setData b d).data x = s.data x := Function.update_of_ne hx ..

/-- The directory, made large enough for entry `i`. -/
def State.sized (s : State) (i : Nat) (b : Short) (de : Nat) : State :=
  if s.dir.size ≤ i * 16 then
    { s.setData b (putWord (s.data b) (8 * de) 0) with dir := { s.dir with size := (i + 1) * 16 } }
  else s

theorem addHere_eq (h : (addHere s name i b de).2 = true) : (addHere s name i b de).1 =
    (s.sized i b de).setData b (putName ((s.sized i b de).data b) de (padded name)) := by
  change (if (entryAt ((s.sized i b de).data b) de).inode = 0 then _ else (s.sized i b de, false)).2
    = true at h
  split at h
  · next hfree => exact congrArg Prod.fst (if_pos hfree)
  · cases h

theorem sized_zone (s : State) (i : Nat) (b : Short) (de : Nat) :
    (s.sized i b de).dir.zone = s.dir.zone := by
  rw [State.sized]
  split <;> rfl

theorem sized_size (s : State) (i : Nat) (b : Short) (de : Nat) :
    (s.sized i b de).dir.size = if s.dir.size ≤ i * 16 then (i + 1) * 16 else s.dir.size := by
  rw [State.sized]
  split <;> rfl

theorem sized_data {x : Short} (hx : x ≠ b) (s : State) (i de : Nat) :
    (s.sized i b de).data x = s.data x := by
  rw [State.sized]
  split
  · exact setData_of_ne hx ..
  · rfl

theorem sized_entry (hj : j ≠ de) (s : State) (i : Nat) (b : Short) :
    entryAt ((s.sized i b de).data b) j = entryAt (s.data b) j := by
  rw [State.sized]
  split
  · change entryAt ((s.setData b _).data b) j = _
    rw [setData_self]
    refine entry_ext ?_ (name_putWord ..)
    rw [inode_putWord, if_neg hj]
  · rfl

/-- `add_entry` and its caller write one entry. -/
theorem addHere_written (inum : Short) (h : (addHere s name i b de).2 = true) :
    Written s ((addHere s name i b de).1.store (b, de) inum) b de ⟨inum, padded name⟩ ∧
      ((addHere s name i b de).1.store (b, de) inum).dir.size =
        if s.dir.size ≤ i * 16 then (i + 1) * 16 else s.dir.size := by
  rw [addHere_eq h]
  refine ⟨⟨sized_zone s i b de, fun x hx => ?_, fun j => ?_⟩, sized_size s i b de⟩
  · rw [State.store, setData_of_ne hx, setData_of_ne hx, sized_data hx]
  · rw [State.store, setData_self, setData_self]
    exact entryAt_stored (fun j hj => sized_entry hj s i b) _ inum j

/-- The blocks of the directory are where they were. -/
theorem Written.ptr {d : DirEntry} (h : Written s s' b de d) (hsound : Sound s)
    (hb : DirBlocks.ptr s (slotOf k) = b) (x : Slot) :
    DirBlocks.ptr s' x = DirBlocks.ptr s x := by
  have hup : ∀ {x q w}, x.up = some (q, w) → DirBlocks.ptr s' q = DirBlocks.ptr s q →
      DirBlocks.ptr s' x = DirBlocks.ptr s x := by
    intro x q w hx hq
    rw [ptr_up hx, ptr_up hx, hq]
    refine indirectOf_data fun hq0 => h.data _ fun he => slotOf_ne_up hx k ?_
    exact (hsound q (slotOf k) hq0 (he.trans hb.symm)).symm
  have hzone : ∀ i, DirBlocks.ptr s' (.zone i) = DirBlocks.ptr s (.zone i) := fun i =>
    congrFun h.zone i
  cases x with
  | zone i => exact hzone i
  | single w => exact hup rfl (hzone 7)
  | double w => exact hup rfl (hzone 8)
  | leaf w v => exact hup rfl (hup rfl (hzone 8))

/-! ### What `add_entry` does -/

/-- The number of entries. -/
def State.entries (s : State) : Nat := s.dir.size / 16

/-- Entry `i`, at `p`, is given to `d`. It was the first free one, or it is new. -/
structure Put (env : Env) (s s' : State) (i : Nat) (p : Short × Nat) (d : DirEntry) : Prop where
  le : i ≤ s.entries
  used : ∀ j, j < i → (entry env s j).inode ≠ 0
  free : i < s.entries → (entry env s i).inode = 0
  size : s'.dir.size = if i < s.entries then s.dir.size else s.dir.size + 16
  place : p = (blockOf env s' (i / 64), i % 64)
  entry : DirBlocks.entry env s' i = d
  others : ∀ j, j < s.entries → j ≠ i → DirBlocks.entry env s' j = DirBlocks.entry env s j
  blocks : ∀ k, 64 * k < s.entries → blockOf env s' k = blockOf env s k
  present : ∀ k, 64 * k < s'.entries → Present env s' k

/-- The buffer of the free entry is the block of the directory. -/
structure Lands (env : Env) (s : State) (name : List UInt8) (i : Nat) (r : State × Short) :
    Prop where
  small : i / 64 < MAX_BLOCKS
  sound : Sound r.1
  extend : Extends s r.1
  num : ptr r.1 (slotOf (i / 64)) = r.2
  mapped : r.2 ≠ 0
  done : (addHere (r.1.hold r.2) name i r.2 (i % 64)).2 = true

variable (name) in
theorem Reached.lands {r : State × Short} (h : Reached env s j i r) (hsound : Sound s)
    (hread : ∀ k l, env.read k l = true) (hfresh : ∀ k, Fresh env s k) : Lands env s name i r := by
  rcases h.block with ⟨hp, rfl⟩ | ⟨hfirst, -, hmap, hmake, h0⟩
  · refine ⟨hp.small, hsound, .refl s, (blockOf_slot hread hp.small).symm, hp.mapped, ?_⟩
    have hnot := h.free.resolve_right (not_not.mpr hp)
    rw [Taken, not_and_or, Nat.not_lt, not_not] at hnot
    exact addHere_free hnot
  · have hsmall : i / 64 < MAX_BLOCKS := by
      by_contra hbig
      rw [bmap_big env s true (Nat.not_lt.mp hbig)] at hmake
      cases hmake
    obtain ⟨hsound', hextend, hnum⟩ := bmap_gets hsound hread (hfresh _) hmake h0
    refine ⟨hsmall, hsound', hextend, hnum, h0, addHere_free (Or.inr ?_)⟩
    have hmade := bmap_made env hmap
    rw [hmake] at hmade
    change word (r.1.data r.2) (8 * (i % 64)) = 0
    rw [hmade.zero h0, word_zero]

theorem addEntry_reached {p : Short × Nat} (hadd : addEntry env s name = .next (s', some p)) :
    ∃ i r, Reached env s 0 i r ∧ p = (r.2, i % 64) ∧
      s' = (addHere (r.1.hold r.2) (name.take NAME_LEN) i r.2 (i % 64)).1 := by
  rw [addEntry] at hadd
  split at hadd
  · cases hadd
  next hgo =>
  rw [not_or] at hgo
  have hspec := addLoop_spec (name.take NAME_LEN) (present_zero hgo.2) rfl
    (Nat.zero_le 64) (show 64 * MAX_BLOCKS < 0 + (MAX_BLOCKS * DIR_ENTRIES_PER_BLOCK + 1) by decide)
  have hpanic : ∀ msg, (.panic msg : Outcome (State × Option (Short × Nat))) ≠ .next (s', some p) := by
    intro msg he
    cases he
  rcases hspec with ⟨-, ho⟩ | ⟨-, ⟨msg, -, ho⟩ | ⟨t, -, ho⟩ | ⟨i, r, -, hreach, -, ho⟩⟩
  · exact absurd (ho.symm.trans hadd) (hpanic _)
  · exact absurd (ho.symm.trans hadd) (hpanic _)
  · cases ho.symm.trans hadd
  · cases ho.symm.trans hadd
    exact ⟨i, r, hreach, rfl, rfl⟩

theorem addEntry_name {p : Short × Nat} (hadd : addEntry env s name = .next (s', some p)) :
    name ≠ [] := by
  rintro rfl
  rw [addEntry, if_pos (Or.inl List.take_nil)] at hadd
  cases hadd

theorem addEntry_first {p : Short × Nat} (hadd : addEntry env s name = .next (s', some p)) :
    Present env s 0 := by
  rw [addEntry] at hadd
  split at hadd
  · cases hadd
  · next hgo => exact present_zero (not_or.mp hgo).2

variable (inum) in
theorem addEntry_put {p : Short × Nat} (hsound : Sound s) (hmod : s.dir.size % 16 = 0)
    (hall : ∀ k, 64 * k < s.entries → Present env s k) (hread : ∀ k l, env.read k l = true)
    (hfresh : ∀ k, Fresh env s k) (hadd : addEntry env s name = .next (s', some p)) :
    ∃ i, Put env s (s'.store p inum) i p ⟨inum, padded (name.take NAME_LEN)⟩ := by
  obtain ⟨i, r, hreach, rfl, rfl⟩ := addEntry_reached hadd
  have hland := hreach.lands (name.take NAME_LEN) hsound hread hfresh
  obtain ⟨hwrite, hsize⟩ := addHere_written inum hland.done
  set t := State.store (addHere (r.1.hold r.2) (name.take NAME_LEN) i r.2 (i % 64)).1
    (r.2, i % 64) inum
  have hnum : ∀ x, ptr t x = ptr r.1 x := hwrite.ptr (s := r.1.hold r.2) hland.sound hland.num
  have hsmall : ∀ k, 64 * k < s.entries → k < MAX_BLOCKS := fun k hk => (hall k hk).small
  have hkept : ∀ k, 64 * k < s.entries → blockOf env t k = blockOf env s k := fun k hk => by
    have hne := (hall k hk).mapped
    rw [blockOf_slot hread (hsmall k hk)] at hne ⊢
    rw [blockOf_slot hread (hsmall k hk), hnum, hland.extend.num _ hne]
  have hhere : blockOf env t (i / 64) = r.2 := by
    rw [blockOf_slot hread hland.small, hnum, hland.num]
  have hle : i ≤ s.entries := by
    by_contra hlt
    have htaken := (hreach.full s.entries (Nat.zero_le _) (Nat.not_le.mp hlt)).2.1
    rw [State.entries] at htaken
    omega
  have hgrown : t.dir.size = if i < s.entries then s.dir.size else s.dir.size + 16 := by
    rw [hsize]
    change (if r.1.dir.size ≤ i * 16 then _ else r.1.dir.size) = _
    rw [hland.extend.size]
    rw [State.entries] at hle ⊢
    split <;> split <;> omega
  refine ⟨i, hle, fun j hj => (hreach.full j (Nat.zero_le j) hj).2.2, fun hlt => ?_, hgrown,
    by rw [hhere], ?_, fun j hj hne => ?_, hkept, fun k hk => ?_⟩
  · have hp : Present env s (i / 64) := hall _ (by omega)
    by_contra hused
    refine hreach.free.elim (fun hnot => hnot ⟨?_, hused⟩) fun hnot => hnot hp
    rw [State.entries] at hlt
    omega
  · rw [DirBlocks.entry, DIR_ENTRIES_PER_BLOCK, hhere, hwrite.entry, if_pos rfl]
  · have hk : 64 * (j / 64) < s.entries := by omega
    have hne0 := (hall _ hk).mapped
    rw [DirBlocks.entry, DirBlocks.entry, DIR_ENTRIES_PER_BLOCK, hkept _ hk]
    rw [blockOf_slot hread (hsmall _ hk)] at hne0 ⊢
    have hold := hland.extend.data _ hne0
    by_cases hsame : j / 64 = i / 64
    · have hb : ptr s (slotOf (j / 64)) = r.2 := by
        rw [← hland.extend.num _ hne0, hsame, hland.num]
      rw [hb] at hold ⊢
      have hmodne : j % 64 ≠ i % 64 := by omega
      rw [hwrite.entry, if_neg hmodne]
      exact congrArg (entryAt · (j % 64)) hold
    · have hb : ptr s (slotOf (j / 64)) ≠ r.2 := fun he => hsame (slotOf_inj (hsmall _ hk) hland.small
        (hland.sound _ _ (by rwa [hland.extend.num _ hne0]) (by
          rw [hland.extend.num _ hne0, he, hland.num])))
      rw [hwrite.data _ hb]
      exact congrArg (entryAt · (j % 64)) hold
  · by_cases hold : 64 * k < s.entries
    · exact ⟨hsmall k hold, hkept k hold ▸ (hall k hold).mapped, hread k 2⟩
    · have hki : i / 64 = k := by
        rw [State.entries, hgrown] at hk
        rw [State.entries] at hold hle hk
        split at hk <;> omega
      exact ⟨hki ▸ hland.small, by rw [← hki, hhere]; exact hland.mapped, hread k 2⟩

/-! ### What `find_entry` returns -/

/-- The entry that is returned. -/
def answer (o : Outcome (State × Option (Short × Nat))) : Outcome (Option (Short × Nat)) :=
  o.bind fun r => .next r.2

/-- `..` leads to no other directory. -/
def Place.Stays (place : Place) (n : List UInt8) : Prop :=
  n.take NAME_LEN = [46, 46] → place.isRoot = false → place.imount = none

theorem Place.Stays.dir {place : Place} (h : place.Stays n) (dir : Inode) :
    place.dir dir (n.take NAME_LEN) = dir := by
  rw [Place.dir]
  split
  · next hup => rw [h hup.1 hup.2, Option.getD_none]
  · rfl

variable (env name) in
/-- The search does not go past the largest file. -/
theorem findLoop_small {entries m : Nat} (hbig : entries ≤ 64 * MAX_BLOCKS) (s : State) (i : Nat)
    (bh : Option Short) (de : Nat) : (findLoop env name entries m s i bh de).Ends
      (· ≠ "_bmap: block>big") fun _ => True := by
  have hrelse : ∀ (s : State) (b : Short),
      (s.brelse b).Ends (· ≠ "_bmap: block>big") fun _ => True := fun s b => by
    rw [State.brelse]
    split
    · exact (by decide : "Trying to free free buffer" ≠ "_bmap: block>big")
    · trivial
  have hend : ∀ (s : State) (bh : Option Short), ((s.brelse? bh).bind fun s =>
      .next (s, (none : Option (Short × Nat)))).Ends (· ≠ "_bmap: block>big") fun _ => True := by
    intro s bh
    cases bh with
    | none => trivial
    | some b => exact (hrelse s b).bind fun _ _ => trivial
  induction m generalizing s i bh de with
  | zero => exact hend s bh
  | succ m ih =>
      by_cases hi : i < entries
      case neg =>
        rw [findLoop_done (Nat.not_lt.mp hi)]
        exact hend s bh
      have hk : i / DIR_ENTRIES_PER_BLOCK < MAX_BLOCKS := by
        rw [DIR_ENTRIES_PER_BLOCK]
        omega
      cases bh with
      | none =>
          rw [findLoop, if_pos hi]
          exact (by decide : "NULL pointer" ≠ "_bmap: block>big")
      | some b =>
          rw [findLoop, if_pos hi]
          dsimp only
          split
          · refine (hrelse s b).bind fun t _ => ?_
            rw [bmap_eq hk, Outcome.bind_next]
            split
            · exact ih ..
            dsimp only
            split
            · trivial
            · exact ih ..
          split
          · trivial
          · exact ih ..

/-- In a directory without holes `find_entry` returns the first entry with the name. -/
theorem findEntry_first {place : Place} (hall : ∀ k, 64 * k < s.entries → Present env s k)
    (h0 : Present env s 0) (hstays : place.Stays n) (hn : n ≠ []) :
    ∃ r, First env s (place.name (n.take NAME_LEN)) s.entries 0 r ∧
      answer (findEntry env place s n) =
        .next (r.map fun j => (blockOf env s (j / 64), j % 64)) := by
  have hsmall : s.entries ≤ 64 * MAX_BLOCKS := by
    by_contra hlt
    exact Nat.lt_irrefl _ (hall MAX_BLOCKS (Nat.not_le.mp hlt)).small
  have hgo : ¬ (s.dir.zone 0 = 0 ∨ env.read 0 2 = false) := by
    rintro (hzone | hread)
    · exact h0.mapped hzone
    · exact Bool.false_ne_true (hread.symm.trans h0.read)
  have hname : n.take NAME_LEN ≠ [] := fun h => hn (take_eq_nil.mp h)
  have hcall : findEntry env place s n = findLoop env (place.name (n.take NAME_LEN)) s.entries
      s.entries (s.hold (s.dir.zone 0)) 0 (some (s.dir.zone 0)) 0 := by
    rw [findEntry, if_neg hname]
    simp only [hstays.dir]
    exact if_neg hgo
  have hspec := findLoop_spec (place.name (n.take NAME_LEN)) h0 rfl (Nat.zero_le 64)
    (Nat.le_add_left s.entries 0)
  rw [hcall]
  rcases hspec with ⟨⟨k, -, -, -, hno, hlt, -⟩, -⟩ | ⟨-, ho | ⟨r, hfirst, ho⟩⟩
  · exact absurd (hall k (by omega)) hno
  · have hend := findLoop_small env (place.name (n.take NAME_LEN))
      (m := s.entries) hsmall (s.hold (blockOf env s 0)) 0 (some (blockOf env s 0)) 0
    have hpanic : "_bmap: block>big" ≠ "_bmap: block>big" :=
      (congrArg (Outcome.Ends (· ≠ "_bmap: block>big") fun _ => True) ho).mp hend
    exact absurd rfl hpanic
  · refine ⟨r, hfirst, (congrArg answer ho).trans ?_⟩
    cases r <;> rfl

/-! ### Lookups -/

/-- The entry is in use, with this name. -/
def Live (env : Env) (s : State) (n : List UInt8) (j : Nat) : Prop :=
  (entry env s j).inode ≠ 0 ∧ str (entry env s j).name = n

instance (env : Env) (s : State) (n : List UInt8) (j : Nat) : Decidable (Live env s n j) :=
  inferInstanceAs (Decidable (_ ∧ _))

theorem matches_iff (hlen : n.length ≤ NAME_LEN) (hn : 0 ∉ n) :
    Matches env s n j ↔ Live env s n j := by
  have h : matchEntry (namelen n) n (entry env s j) = true ↔ _ := matchEntry_iff hn
  rwa [namelen, Nat.min_eq_left hlen, List.take_of_length_le hlen] at h

theorem Put.entries {p : Short × Nat} {d : DirEntry} (h : Put env s s' i p d) :
    s'.entries = if i < s.entries then s.entries else i + 1 := by
  have hsize := h.size
  have hle := h.le
  by_cases hi : i < s.entries
  · rw [if_pos hi] at hsize ⊢
    rw [State.entries, State.entries, hsize]
  · rw [if_neg hi] at hsize ⊢
    rw [State.entries] at hle hi ⊢
    omega

/-- An entry that is not the new one was there before. -/
theorem Put.old {p : Short × Nat} {d : DirEntry} (h : Put env s s' i p d) (hj : j < s'.entries)
    (hne : j ≠ i) : j < s.entries := by
  have hle := h.le
  rw [h.entries] at hj
  split at hj <;> omega

/-- The new entry has the new name, and the others are as before. -/
theorem Put.live_iff {p : Short × Nat} (h : Put env s s' i p ⟨inum, padded name⟩)
    (hinum : inum ≠ 0) (hlen : name.length ≤ NAME_LEN) (hname : 0 ∉ name) (hj : j < s'.entries) :
    Live env s' n j ↔ if j = i then name = n else Live env s n j := by
  split
  · next he => rw [Live, he, h.entry, and_iff_right hinum, str_padded hlen hname]
  · next hne => rw [Live, Live, h.others j (h.old hj hne) hne]

/-- The entry that is found for `n`, before and after. -/
theorem Put.first {p : Short × Nat} {r : Option Nat} (h : Put env s s' i p ⟨inum, padded name⟩)
    (hinum : inum ≠ 0) (hlen : name.length ≤ NAME_LEN) (hname : 0 ∉ name)
    (hall : ∀ k, 64 * k < s.entries → Present env s k) (hnlen : n.length ≤ NAME_LEN) (hn : 0 ∉ n)
    (hr : First env s n s.entries 0 r) : First env s' n s'.entries 0
      (if n = name ∧ ∀ j, j < i → ¬ Live env s n j then some i else r) := by
  have hgrown := h.entries
  have hle := h.le
  have hfree : ∀ {j}, j < s.entries → Matches env s n j → j ≠ i := fun hj hm he =>
    ((matches_iff hnlen hn).mp hm).1 (he ▸ h.free (he ▸ hj))
  have hmatch : ∀ {j}, j < s'.entries → (Matches env s' n j ↔ if j = i then name = n
      else Matches env s n j) := fun hj => by
    rw [matches_iff hnlen hn, matches_iff hnlen hn]
    exact h.live_iff hinum hlen hname hj
  have hwithin : ∀ {j}, j < s.entries → j < s'.entries := fun hj => by
    rw [hgrown]
    split <;> omega
  have hi : i < s'.entries := by
    rw [hgrown]
    split <;> omega
  split
  · next hnew =>
    refine ⟨Nat.zero_le i, hi, h.present _ (by omega), ?_, fun j _ hj => ?_⟩
    · rw [hmatch hi, if_pos rfl]
      exact hnew.1.symm
    · rw [hmatch (by omega), if_neg (Nat.ne_of_lt hj), matches_iff hnlen hn]
      exact hnew.2 j hj
  next hno =>
  -- an earlier entry has the name of the new one
  have hearlier : n = name → ∃ j, j < i ∧ Matches env s n j := fun he => by
    by_contra hnone
    exact hno ⟨he, fun j hj hl => hnone ⟨j, hj, (matches_iff hnlen hn).mpr hl⟩⟩
  cases r with
  | none =>
      have hnone : ∀ j, j < s.entries → ¬ Matches env s n j := fun j hj =>
        hr j (Nat.zero_le j) hj (hall _ (by omega))
      intro j _ hj _
      rw [hmatch hj]
      split
      · intro he
        obtain ⟨j', hj', hm⟩ := hearlier he.symm
        exact hnone j' (by omega) hm
      · next hne => exact hnone j (h.old hj hne)
  | some m =>
      obtain ⟨-, hm, -, hfound, hbefore⟩ := hr
      refine ⟨Nat.zero_le m, hwithin hm, h.present _ (by have := hwithin hm; omega), ?_,
        fun j _ hj => ?_⟩
      · rw [hmatch (hwithin hm), if_neg (hfree hm hfound)]
        exact hfound
      · rw [hmatch (hwithin (by omega))]
        split
        · intro he
          obtain ⟨j', hj', hm'⟩ := hearlier he.symm
          exact hbefore j' (Nat.zero_le j') (by omega) hm'
        · exact hbefore j (Nat.zero_le j) hj

/-- There is only one first entry. -/
theorem First.unique {m : Nat} {r r' : Option Nat} (hr : First env s n m 0 r)
    (hr' : First env s n m 0 r') : r = r' := by
  cases r with
  | none =>
      cases r' with
      | none => rfl
      | some j => exact absurd hr'.2.2.2.1 (hr j (Nat.zero_le j) hr'.2.1 hr'.2.2.1)
  | some i =>
      cases r' with
      | none => exact absurd hr.2.2.2.1 (hr' i (Nat.zero_le i) hr.2.1 hr.2.2.1)
      | some j =>
          have hij : ¬ i < j := fun h => hr'.2.2.2.2 i (Nat.zero_le i) h hr.2.2.2.1
          have hji : ¬ j < i := fun h => hr.2.2.2.2 j (Nat.zero_le j) h hr'.2.2.2.1
          exact congrArg some (Nat.le_antisymm (Nat.not_lt.mp hji) (Nat.not_lt.mp hij))

/-- The name that is looked for is no longer than the one that is given, and has no NUL. -/
theorem Place.name_ok (place : Place) (hn : 0 ∉ n) :
    (place.name (n.take NAME_LEN)).length ≤ NAME_LEN ∧ 0 ∉ place.name (n.take NAME_LEN) := by
  rw [Place.name]
  split
  · exact ⟨by decide, by decide⟩
  · exact ⟨List.length_take_le .., fun h => hn (List.mem_of_mem_take h)⟩

/-- **Lookup after `add_entry`.** -/
theorem findEntry_addEntry {place : Place} {p : Short × Nat} (hsound : Sound s)
    (hmod : s.dir.size % 16 = 0) (hall : ∀ k, 64 * k < s.entries → Present env s k)
    (hread : ∀ k l, env.read k l = true) (hfresh : ∀ k, Fresh env s k) (hname : 0 ∉ name)
    (hn : 0 ∉ n) (hstays : place.Stays n) (hinum : inum ≠ 0)
    (hadd : addEntry env s name = .next (s', some p)) :
    ∃ i, Put env s (s'.store p inum) i p ⟨inum, padded (name.take NAME_LEN)⟩ ∧
      answer (findEntry env place (s'.store p inum) n) =
        if place.name (n.take NAME_LEN) = name.take NAME_LEN ∧
            ∀ j, j < i → ¬ Live env s (place.name (n.take NAME_LEN)) j then .next (some p)
        else answer (findEntry env place s n) := by
  obtain ⟨i, hput⟩ := addEntry_put inum hsound hmod hall hread hfresh hadd
  refine ⟨i, hput, ?_⟩
  by_cases hempty : n = []
  · have hnil : place.name (n.take NAME_LEN) = [] := by
      rw [hempty]
      exact if_neg fun h => nomatch h.1
    have hnone : ∀ t : State, findEntry env place t n = .next (t, none) := fun t =>
      if_pos (take_eq_nil.mpr hempty)
    rw [if_neg fun h => addEntry_name hadd (take_eq_nil.mp (h.1.symm.trans hnil)), hnone, hnone]
    rfl
  have h0 := addEntry_first hadd
  have h0' : Present env (s'.store p inum) 0 := hput.present 0 (by
    have hle := hput.le
    rw [hput.entries]
    split <;> omega)
  obtain ⟨r, hr, hfind⟩ := findEntry_first hall h0 hstays hempty
  obtain ⟨r', hr', hfind'⟩ := findEntry_first hput.present h0' hstays hempty
  obtain ⟨hnlen, hnzero⟩ := place.name_ok hn
  have hfirst := hput.first hinum (List.length_take_le ..)
    (fun h => hname (List.mem_of_mem_take h)) hall hnlen hnzero hr
  rw [hfind', hr'.unique hfirst]
  split
  · exact congrArg (fun q => Outcome.next (some q)) hput.place.symm
  · rw [hfind]
    cases r with
    | none => rfl
    | some j =>
        have hj : j < s.entries := hr.2.1
        rw [Option.map_some, Option.map_some, hput.blocks _ (by omega)]

/-! ### Directories that are not like that -/

theorem addEntry_here {z : Short} (hname : name ≠ []) (h0 : Present env s 0)
    (hz : s.dir.zone 0 = z)
    (hfree : (addHere (s.hold z) (name.take NAME_LEN) 0 z 0).2 = true) :
    addEntry env s name =
      .next ((addHere (s.hold z) (name.take NAME_LEN) 0 z 0).1, some (z, 0)) := by
  subst hz
  have hgo : ¬ (name.take NAME_LEN = [] ∨ s.dir.zone 0 = 0 ∨ env.read 0 2 = false) := by
    rintro (h | h | h)
    · exact hname (take_eq_nil.mp h)
    · exact h0.mapped h
    · exact Bool.false_ne_true (h.symm.trans h0.read)
  rw [addEntry, if_neg hgo, addLoop_here (by decide), if_pos hfree]

/-- A directory with free entries in block 5, and a second block. -/
def smallDir (size : Nat) (second : Short) : State :=
  start ⟨2, size, fun i => if i = 0 then 5 else if i = 1 then second else 0⟩ fun _ _ => 0

theorem smallDir_present (size : Nat) (second : Short) : Present quiet (smallDir size second) 0 :=
  ⟨by decide, show (5 : Short) ≠ 0 by decide, rfl⟩

/-- The directory after the entry is written. -/
def smallAdded (size : Nat) (second : Short) (name : List UInt8) : State :=
  (addHere ((smallDir size second).hold 5) (name.take NAME_LEN) 0 5 0).1

theorem smallDir_add (size : Nat) (second : Short) (hname : name ≠ []) :
    addEntry quiet (smallDir size second) name =
      .next (smallAdded size second name, some (5, 0)) :=
  addEntry_here hname (smallDir_present size second) rfl (addHere_free (Or.inr (word_zero 0)))

theorem smallDir_ptr (size : Nat) (x : Slot) : ptr (smallDir size 0) x ≠ 0 → x = .zone 0 := by
  have hzone : ∀ i : Nat, i ≠ 0 → (smallDir size 0).dir.zone i = 0 := fun i hi => by
    change (if i = 0 then 5 else if i = 1 then 0 else 0) = (0 : Short)
    rw [if_neg hi, ite_self]
  intro hx
  cases x with
  | zone i =>
      by_contra hne
      exact hx (hzone i fun hi => hne (congrArg Slot.zone (Fin.ext hi)))
  | single w =>
      refine absurd ?_ hx
      rw [ptr, hzone 7 (by decide), indirectOf_zero]
  | double w =>
      refine absurd ?_ hx
      rw [ptr, hzone 8 (by decide), indirectOf_zero]
  | leaf w v =>
      refine absurd ?_ hx
      rw [ptr, hzone 8 (by decide), indirectOf_zero, indirectOf_zero]

theorem findEntry_addEntry_small :
    ∃ i, Put quiet (smallDir 32 0) ((smallAdded 32 0 [97]).store (5, 0) 7) i (5, 0)
        ⟨7, padded [97]⟩ ∧
      answer (findEntry quiet ⟨true, none⟩ ((smallAdded 32 0 [97]).store (5, 0) 7) [97]) =
        if Place.name ⟨true, none⟩ [97] = [97] ∧
            ∀ j, j < i → ¬ Live quiet (smallDir 32 0) (Place.name ⟨true, none⟩ [97]) j then
          .next (some (5, 0))
        else answer (findEntry quiet ⟨true, none⟩ (smallDir 32 0) [97]) := by
  have hsound : Sound (smallDir 32 0) := fun x y hx he =>
    (smallDir_ptr 32 x hx).trans (smallDir_ptr 32 y (he ▸ hx)).symm
  have hall : ∀ k, 64 * k < (smallDir 32 0).entries → Present quiet (smallDir 32 0) k := by
    intro k hk
    have hk2 : 64 * k < 2 := hk
    obtain rfl : k = 0 := by omega
    exact smallDir_present 32 0
  have hname : (0 : UInt8) ∉ [97] := by decide
  exact findEntry_addEntry hsound rfl hall (fun _ _ => rfl) (fun _ _ h => absurd rfl h) hname
    hname (fun h => absurd h (by decide)) (by decide) (smallDir_add 32 0 (by decide))

/-- `..` in the root of the process is `.`; an entry beyond `i_size` is not found; a block that
is used twice has each entry twice; a block that cannot be read has none. -/
theorem lookup_not_added :
    (addEntry quiet (smallDir 0 0) [46, 46] = .next (smallAdded 0 0 [46, 46], some (5, 0)) ∧
      answer (findEntry quiet ⟨true, none⟩ ((smallAdded 0 0 [46, 46]).store (5, 0) 7) [46, 46]) =
        .next none) ∧
    (addEntry quiet (smallDir 8 0) [97] = .next (smallAdded 8 0 [97], some (5, 0)) ∧
      answer (findEntry quiet ⟨false, none⟩ ((smallAdded 8 0 [97]).store (5, 0) 7) [97]) =
        .next none) ∧
    (addEntry quiet (smallDir 1040 5) [97] = .next (smallAdded 1040 5 [97], some (5, 0)) ∧
      (entry quiet (smallDir 1040 5) 64).inode = 0 ∧
      (entry quiet ((smallAdded 1040 5 [97]).store (5, 0) 7) 64).inode = 7) ∧
    answer (findEntry ⟨fun _ _ => false, fun _ _ => 0⟩ ⟨false, none⟩
      ((smallAdded 32 0 [97]).store (5, 0) 7) [97]) = .next none :=
  ⟨⟨smallDir_add 0 0 (by decide), by decide⟩, ⟨smallDir_add 8 0 (by decide), by decide⟩,
    ⟨smallDir_add 1040 5 (by decide), by decide, by decide⟩, by decide⟩

end LinuxKernel.V011.Fs.DirBlocks
