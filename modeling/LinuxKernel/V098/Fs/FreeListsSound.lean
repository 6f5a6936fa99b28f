import LinuxKernel.V098.Fs.FreeListsExact

/-!
# LinuxKernel.V098.Fs.FreeListsSound

The functions for **inodes**, and all runs: the lists are exact, the lock is given back and
nothing is left referenced, exactly as long as every block that is given back is in the data
zone and `ext_new_inode` finds a free inode (`sound_iff_served`).
-/

namespace LinuxKernel.V098.Fs.FreeLists

variable {sb : Super} {s s' : State} {t u : Task} {pc pc' : Pc} {b j k l : Nat}

/-! ### Inodes -/

/-- No other task works on the in-core inode. -/
def Alone (s : State) (t : Task) (k : Nat) : Prop := ∀ u, u ≠ t → slot (s.pc u) ≠ some k

namespace Core

theorem alone (h : Core sb s) (hs : slot (s.pc t) = some k) : Alone s t k := fun u hu hk =>
  hu (h.slots.one u t k hk hs)

theorem slots_take (h : Core sb s) (hpc : s'.pc = Function.update s.pc t pc')
    (ha : Alone s t k) (hs' : slot pc' = some k) (hk : s'.busy k = true)
    (hbusy : ∀ l, l ≠ k → s'.busy l = s.busy l) :
    Holders (fun t => slot (s'.pc t)) fun k => s'.busy k = true := by
  refine h.slots.take ha ((view_self hpc slot).trans hs') (fun u hu => view_other hpc slot hu) hk
    fun u l hu hl hm => ?_
  rw [hbusy l fun hlk => ha u hu (hlk ▸ hl)]
  exact hm

theorem slots_drop (h : Core sb s) (hpc : s'.pc = Function.update s.pc t pc')
    (ha : Alone s t k) (hs' : slot pc' = none) (hbusy : ∀ l, l ≠ k → s'.busy l = s.busy l) :
    Holders (fun t => slot (s'.pc t)) fun k => s'.busy k = true := by
  refine h.slots.drop ((view_self hpc slot).trans hs') (fun u hu => view_other hpc slot hu)
    fun u l hu hl _ hm => ?_
  rw [hbusy l fun hlk => ha u hu (hlk ▸ hl)]
  exact hm

theorem ifreeing_other (hpc : s'.pc = Function.update s.pc t pc') (ha : Alone s t k)
    (htable : ∀ l, l ≠ k → s'.table l = s.table l) (hu : u ≠ t) :
    ifreeing sb s'.table (s'.pc u) = ifreeing sb s.table (s.pc u) := by
  rw [view_other hpc (ifreeing sb s'.table) hu]
  exact ifreeing_congr fun l hl => htable l fun hlk => ha u hu (hlk ▸ hl)

/-- A task that gives back nothing, and what is marked stays so. -/
theorem igiving_keep (h : Core sb s) (hpc : s'.pc = Function.update s.pc t pc')
    (ha : Alone s t k) (htable : ∀ l, l ≠ k → s'.table l = s.table l)
    (hif : ifreeing sb s.table (s.pc t) = none) (hif' : ifreeing sb s'.table pc' = none)
    (howner : ∀ i, s.inodes.owner i = .giving → s'.inodes.owner i = .giving) :
    Holders (fun t => ifreeing sb s'.table (s'.pc t))
      fun ino => ValidInode sb ino ∧ s'.inodes.owner ino = .giving := by
  refine h.igiving.keep (fun u => ?_) fun _ i _ hm => ⟨hm.1, howner i hm.2⟩
  by_cases hu : u = t
  · rw [hu, view_self hpc (ifreeing sb s'.table), hif, hif']
  · exact ifreeing_other hpc ha htable hu

theorem igiving_take {ino : Nat} (h : Core sb s) (hpc : s'.pc = Function.update s.pc t pc')
    (ha : Alone s t k) (htable : ∀ l, l ≠ k → s'.table l = s.table l)
    (hif' : ifreeing sb s'.table pc' = some ino) (hv : ValidInode sb ino)
    (hgive : s.inodes.owner ino = .giving ∧
      ∀ u, u ≠ t → ifreeing sb s.table (s.pc u) ≠ some ino)
    (howner : s'.inodes.owner = s.inodes.owner) :
    Holders (fun t => ifreeing sb s'.table (s'.pc t))
      fun ino => ValidInode sb ino ∧ s'.inodes.owner ino = .giving := by
  rw [howner]
  exact h.igiving.take hgive.2 ((view_self hpc (ifreeing sb s'.table)).trans hif')
    (fun u hu => ifreeing_other hpc ha htable hu) ⟨hv, hgive.1⟩ fun _ _ _ _ hm => hm

theorem igiving_drop {ino : Nat} (h : Core sb s) (hpc : s'.pc = Function.update s.pc t pc')
    (ha : Alone s t k) (htable : ∀ l, l ≠ k → s'.table l = s.table l)
    (hif' : ifreeing sb s'.table pc' = none)
    (hone : ∀ u, u ≠ t → ifreeing sb s.table (s.pc u) ≠ some ino)
    (howner : s'.inodes.owner = Function.update s.inodes.owner ino .free) :
    Holders (fun t => ifreeing sb s'.table (s'.pc t))
      fun ino => ValidInode sb ino ∧ s'.inodes.owner ino = .giving := by
  refine h.igiving.drop ((view_self hpc (ifreeing sb s'.table)).trans hif')
    (fun u hu => ifreeing_other hpc ha htable hu) fun u i hu hi _ hm => ⟨hm.1, ?_⟩
  have hne : i ≠ ino := by
    rintro rfl
    exact hone u hu hi
  rw [howner, Function.update_of_ne hne]
  exact hm.2

/-- A step in the functions for inodes, with the in-core inode `k`. -/
theorem of_inode (h : Core sb s) (hpc : s'.pc = Function.update s.pc t pc')
    (hf : freeing sb (s.pc t) = none) (hf' : freeing sb pc' = none) (ha : Alone s t k)
    (htable : ∀ l, l ≠ k → s'.table l = s.table l) (hblocks : s'.blocks = s.blocks)
    (hat : At s'.table pc') (turn : ∃ a, Turn sb s' a)
    (igiving : Holders (fun t => ifreeing sb s'.table (s'.pc t))
      fun ino => ValidInode sb ino ∧ s'.inodes.owner ino = .giving)
    (slots : Holders (fun t => slot (s'.pc t)) fun k => s'.busy k = true) : Core sb s' := by
  refine ⟨turn, ?_, igiving, slots, fun u => ?_⟩
  · rw [hblocks]
    exact h.giving.keep (view_keep hpc (freeing sb) (hf'.trans hf.symm)) fun _ _ _ hm => hm
  · by_cases hu : u = t
    · rw [hu, hpc, Function.update_self]
      exact hat
    · rw [hpc, Function.update_of_ne hu]
      exact (h.at_ u).congr fun l hl => htable l fun hlk => ha u hu (hlk ▸ hl)

end Core

/-- A task that works on the in-core inode `k`. -/
theorem Named.put (h : Named s (some k)) (hpc : s'.pc = Function.update s.pc t pc')
    (htable : ∀ l, l ≠ k → s'.table l = s.table l)
    (hnew : ∀ l, l ≠ k → newSlot (s.pc t) ≠ some l)
    (hk : (s'.table k).dev = false → (s'.table k).count ≠ 0 → newSlot pc' = some k) :
    Named s' none := by
  intro l _ hdev hcount
  by_cases hl : l = k
  · subst hl
    exact ⟨t, (view_self hpc newSlot).trans (hk hdev hcount)⟩
  · rw [htable l hl] at hdev hcount
    obtain ⟨u, hu⟩ := h l (fun hc => hl (Option.some.inj hc).symm) hdev hcount
    have hut : u ≠ t := by
      rintro rfl
      exact hnew l hl hu
    exact ⟨u, (view_other hpc newSlot hut).trans hu⟩

/-- A task at the start of `ext_new_inode`, or waiting in it, with the in-core inode `k`. -/
structure Starts (sb : Super) (s : State) (t : Task) (k : Nat) : Prop extends Core sb s where
  pc : s.pc t = .idle ∨ s.pc t = .inewWait k
  named : Named s (some k)
  alone : Alone s t k
  busy : s.busy k = true
  inode : (s.table k).dev = false ∧ (s.table k).count = 1

namespace Starts

theorem waits (h : Starts sb s t k) :
    holder (s.pc t) = none ∧ freeing sb (s.pc t) = none ∧
      ifreeing sb s.table (s.pc t) = none ∧ ∀ l, l ≠ k → newSlot (s.pc t) ≠ some l := by
  rcases h.pc with hpc | hpc
  · rw [hpc]
    exact ⟨rfl, rfl, rfl, fun l _ hc => (nomatch hc)⟩
  · rw [hpc]
    exact ⟨rfl, rfl, rfl, fun l hl hc => hl (Option.some.inj hc).symm⟩

end Starts

theorem Inv.starts (h : Inv sb s) (hpc : s.pc t = .inewWait k) : Starts sb s t k := by
  have hs : slot (s.pc t) = some k := by rw [hpc]; rfl
  have hat := h.at_ t
  rw [hpc] at hat
  exact { h with
    pc := Or.inr hpc
    named := fun l _ => h.named l nofun
    alone := h.toCore.alone hs
    busy := h.slots.marked t k hs
    inode := hat }

theorem Inv.starts_empty (h : Inv sb s) (hpc : s.pc t = .idle) (hc : (s.table k).count = 0) :
    Starts sb (getEmptyInode s k) t k := by
  have hfree : ∀ u, slot (s.pc u) ≠ some k := fun u hu => (h.at_ u).count hu hc
  have htable : ∀ l, l ≠ k → (getEmptyInode s k).table l = s.table l := fun l hl =>
    Function.update_of_ne hl _ _
  have hself : (getEmptyInode s k).table k = { Inode.zero with count := 1 } :=
    Function.update_self _ _ _
  obtain ⟨a, ha⟩ := h.turn
  refine ⟨⟨⟨a, ha.mutex, ha.blocks, ha.inodes⟩, h.giving, ?_, ?_, fun u => ?_⟩, Or.inl hpc,
    fun l hl hdev hcount => ?_, fun u _ => hfree u, Function.update_self _ _ _, ?_⟩
  · refine h.igiving.keep (fun u => ?_) fun _ _ _ hm => hm
    exact ifreeing_congr fun l hl => htable l fun hlk => hfree u (hlk ▸ hl)
  · refine h.slots.keep (fun u => rfl) fun u l hu hm => ?_
    have hlk : l ≠ k := fun hlk => hfree u (hlk ▸ hu)
    exact (Function.update_of_ne hlk _ _).trans hm
  · exact (h.at_ u).congr fun l hl => htable l fun hlk => hfree u (hlk ▸ hl)
  · rw [htable l fun hlk => hl (hlk ▸ rfl)] at hdev hcount
    exact h.named l nofun hdev hcount
  · rw [hself]
    exact ⟨rfl, rfl⟩

namespace Starts

/-- `r` is `s` with the super block locked and the inode `j` off the list. -/
theorem newInodeReturn {r : State} (h : Core sb s) (hn : Named s (some k)) (ha : Alone s t k)
    (hnew : ∀ l, l ≠ k → newSlot (s.pc t) ≠ some l) (hf : freeing sb (s.pc t) = none)
    (hif : ifreeing sb s.table (s.pc t) = none) (hrpc : r.pc = s.pc)
    (htable : ∀ l, l ≠ k → r.table l = s.table l) (hbusy : r.busy = s.busy)
    (hblocks : r.blocks = s.blocks) (howner : r.inodes.owner = s.inodes.owner)
    (hh : s.lock = false ∨ holds (s.pc t) = true)
    (hb : PoolOk blockKind (ValidBlock sb) s.blocks .exact)
    (hi : PoolOk inodeKind (ValidInode sb) r.inodes
      { taken := some j, owed := 1, loaded := true }) : Inv sb (newInodeReturn r t k j) := by
  obtain ⟨a, hturn⟩ := h.turn
  have hpc : (FreeLists.newInodeReturn r t k j).pc = Function.update s.pc t .idle := by
    rw [← hrpc]
    rfl
  have htable' : ∀ l, l ≠ k → (FreeLists.newInodeReturn r t k j).table l = s.table l :=
    fun l hl => (Function.update_of_ne hl _ _).trans (htable l hl)
  have hbusy' : ∀ l, l ≠ k → (FreeLists.newInodeReturn r t k j).busy l = s.busy l := fun l hl =>
    (Function.update_of_ne hl _ _).trans (congrFun hbusy l)
  have hself : (FreeLists.newInodeReturn r t k j).table k =
      { dev := true, count := 1, nlink := 1, sb := true, ino := j } := Function.update_self _ _ _
  have hmark : ∀ i, s.inodes.owner i = .giving →
      (FreeLists.newInodeReturn r t k j).inodes.owner i = .giving := by
    intro i hgive
    have hij : i ≠ j := by
      rintro rfl
      have := (hi.taken i rfl).2
      rw [howner, hgive] at this
      cases this
    exact (Function.update_of_ne hij _ _).trans ((congrFun howner i).trans hgive)
  refine ⟨h.of_inode hpc hf rfl ha htable' hblocks trivial
    ⟨_, hturn.leave hpc hh rfl (by rw [← hblocks] at hb; exact hb) hi.pay.handOut⟩
    (h.igiving_keep hpc ha htable' hif rfl hmark) (h.slots_drop hpc ha rfl hbusy'),
    hn.put hpc htable' hnew fun hdev _ => ?_⟩
  rw [hself] at hdev
  cases hdev

/-- A step of `ext_new_inode` to where it waits. -/
theorem wait {r : State} (h : Starts sb s t k) (hrpc : r.pc = Function.update s.pc t pc')
    (hpc' : pc' = .inewWait k ∨ pc' = .inewBread k j)
    (htable : ∀ l, l ≠ k → r.table l = s.table l)
    (hinode : (r.table k).dev = false ∧ (r.table k).count = 1) (hbusy : r.busy = s.busy)
    (hblocks : r.blocks = s.blocks) (howner : r.inodes.owner = s.inodes.owner)
    (turn : ∃ a, Turn sb r a) : Inv sb r := by
  obtain ⟨-, hf, hif, hnew⟩ := h.waits
  have hat : At r.table pc' := by rcases hpc' with rfl | rfl <;> exact hinode
  have hf' : freeing sb pc' = none := by rcases hpc' with rfl | rfl <;> rfl
  have hif' : ifreeing sb r.table pc' = none := by rcases hpc' with rfl | rfl <;> rfl
  have hs' : newSlot pc' = some k := by rcases hpc' with rfl | rfl <;> rfl
  refine ⟨h.toCore.of_inode hrpc hf hf' h.alone htable hblocks hat turn
    (h.toCore.igiving_keep hrpc h.alone htable hif hif' fun i hi => by rw [howner, hi])
    (h.toCore.slots_take hrpc h.alone (slot_of_newSlot hs') ?_ fun l _ => by rw [hbusy]),
    h.named.put hrpc htable hnew fun _ _ => hs'⟩
  rw [hbusy]
  exact h.busy

theorem newInodeLock (h : Starts sb s t k) (hl : s.lock = false)
    (hc : s.inodes.cached ≠ none) :
    (newInodeLock sb { s with table := Function.update s.table k { s.table k with sb := true } }
      t k).Ends (fun _ => False) (Inv sb) := by
  obtain ⟨a, ha⟩ := h.turn
  obtain ⟨hb, hi⟩ := ha.exact_of_unlocked hl
  obtain ⟨-, hf, hif, hnew⟩ := h.waits
  have htable : ∀ l, l ≠ k →
      Function.update s.table k { s.table k with sb := true } l = s.table l := fun l hl =>
    Function.update_of_ne hl _ _
  unfold FreeLists.newInodeLock
  rw [if_neg (by simp [hl])]
  dsimp only
  split
  · next hefi =>
      rw [Pool.efb, Option.map_eq_none_iff] at hefi
      exact absurd hefi hc
  · next efi hefi =>
      split
      · next j free hfree =>
          exact newInodeReturn h.toCore h.named h.alone hnew hf hif rfl htable rfl rfl rfl
            (Or.inl hl) hb (hi.popEntry (inodeKind_sound sb) hefi hfree)
      · next hfree =>
          have hpop := hi.popHeader (inodeKind_sound sb) hefi hfree
          have hnext : ¬ sb.ninodes < (s.inodes.header efi).next := by
            rw [Nat.not_lt]
            by_cases hz : (s.inodes.header efi).next = 0
            · rw [hz]
              exact Nat.zero_le _
            · exact (hpop.first_valid hz).1.2
          rw [if_neg hnext]
          split
          · exact newInodeReturn h.toCore h.named h.alone hnew hf hif rfl htable rfl rfl rfl
              (Or.inl hl) hb hpop.load
          · refine h.wait (j := s.inodes.first) rfl (Or.inr rfl) htable ?_ rfl rfl rfl
              ⟨_, ha.acquire rfl hl rfl rfl hb hpop⟩
            change (Function.update s.table k { s.table k with sb := true } k).dev = false ∧
              (Function.update s.table k { s.table k with sb := true } k).count = 1
            rw [Function.update_self]
            exact h.inode

theorem newInode (h : Starts sb s t k) :
    (newInode sb s t k).Ends (fun _ => False)
      fun s' => (s.lock = false → s.inodes.cached ≠ none) → Inv sb s' := by
  obtain ⟨a, ha⟩ := h.turn
  unfold FreeLists.newInode
  split
  · intro _
    exact h.wait (j := 0) rfl (Or.inl rfl) (fun _ _ => rfl) h.inode rfl rfl rfl
      ⟨a, ha.keep rfl h.waits.1 rfl rfl ha.blocks ha.inodes⟩
  · next hl =>
      have hl : s.lock = false := by simpa using hl
      dsimp only
      split
      · next hc => exact fun hok => absurd hc (hok hl)
      · next hc => exact (h.newInodeLock hl hc).mono fun _ hi _ => hi

end Starts

/-- A task at the start of `ext_free_inode`, or waiting in it, with the in-core inode `k`. -/
structure Gives (sb : Super) (s : State) (t : Task) (k : Nat) : Prop extends Inv sb s where
  pc : s.pc t = .idle ∨ s.pc t = .ifreeWait k
  alone : Alone s t k
  busy : s.busy k = true
  inode : (s.table k).dev = true ∧ (s.table k).count ≠ 0
  ino : ValidInode sb (s.table k).ino → s.inodes.owner (s.table k).ino = .giving ∧
    ∀ u, u ≠ t → ifreeing sb s.table (s.pc u) ≠ some (s.table k).ino

theorem Inv.gives (h : Inv sb s) (hpc : s.pc t = .ifreeWait k) : Gives sb s t k := by
  have hs : slot (s.pc t) = some k := by rw [hpc]; rfl
  have hat := h.at_ t
  rw [hpc] at hat
  refine ⟨h, Or.inr hpc, h.toCore.alone hs, h.slots.marked t k hs, hat, fun hv => ?_⟩
  have hif : ifreeing sb s.table (s.pc t) = some (s.table k).ino := by
    rw [hpc, ifreeing, if_pos hv]
  exact ⟨(h.igiving.marked t _ hif).2, fun u hu hiu => hu (h.igiving.one u t _ hiu hif)⟩

namespace Gives

theorem waits (h : Gives sb s t k) :
    holder (s.pc t) = none ∧ freeing sb (s.pc t) = none ∧
      (¬ ValidInode sb (s.table k).ino → ifreeing sb s.table (s.pc t) = none) ∧
      newSlot (s.pc t) = none := by
  rcases h.pc with hpc | hpc
  · rw [hpc]
    exact ⟨rfl, rfl, fun _ => rfl, rfl⟩
  · rw [hpc]
    exact ⟨rfl, rfl, fun hv => if_neg hv, rfl⟩

/-- The steps of `ext_free_inode` that leave the in-core inode alone. -/
theorem go {r : State} (h : Gives sb s t k) (hrpc : r.pc = Function.update s.pc t pc')
    (hpc' : pc' = .ifreeWait k ∨ pc' = .ifreeBread k ∧ ValidInode sb (s.table k).ino)
    (htable : r.table = s.table) (hbusy : r.busy = s.busy) (hblocks : r.blocks = s.blocks)
    (hinodes : r.inodes = s.inodes) (turn : ∃ a, Turn sb r a) : Inv sb r := by
  obtain ⟨-, hf, hif, hnew⟩ := h.waits
  have htable' : ∀ l, l ≠ k → r.table l = s.table l := fun l _ => by rw [htable]
  have hs' : slot pc' = some k := by rcases hpc' with rfl | ⟨rfl, -⟩ <;> rfl
  have hf' : freeing sb pc' = none := by rcases hpc' with rfl | ⟨rfl, -⟩ <;> rfl
  have hat : At r.table pc' := by
    rw [htable]
    rcases hpc' with rfl | ⟨rfl, -⟩ <;> exact h.inode
  have hig : Holders (fun t => ifreeing sb r.table (r.pc t))
      fun ino => ValidInode sb ino ∧ r.inodes.owner ino = .giving := by
    by_cases hv : ValidInode sb (s.table k).ino
    · refine h.igiving_take hrpc h.alone htable' ?_ hv (h.ino hv) (by rw [hinodes])
      rw [htable]
      rcases hpc' with rfl | ⟨rfl, -⟩
      · exact if_pos hv
      · rfl
    · refine h.igiving_keep hrpc h.alone htable' (hif hv) ?_ fun i hi => by rw [hinodes, hi]
      rw [htable]
      rcases hpc' with rfl | ⟨rfl, hv'⟩
      · exact if_neg hv
      · exact absurd hv' hv
  refine ⟨h.toCore.of_inode hrpc hf hf' h.alone htable' hblocks hat turn hig
    (h.slots_take hrpc h.alone hs' ?_ fun l _ => by rw [hbusy]), ?_⟩
  · rw [hbusy]
    exact h.busy
  · intro l _ hdev hcount
    rw [htable] at hdev hcount
    obtain ⟨u, hu⟩ := h.named l nofun hdev hcount
    have hut : u ≠ t := by
      rintro rfl
      rw [hnew] at hu
      cases hu
    exact ⟨u, (view_other hrpc newSlot hut).trans hu⟩

end Gives

/-- `r` is `s` with the inode of `k` on the list. -/
theorem Inv.freeInodeClear {r : State} (h : Inv sb s) (ha : Alone s t k)
    (hf : freeing sb (s.pc t) = none) (hnew : newSlot (s.pc t) = none)
    (hone : ∀ u, u ≠ t → ifreeing sb s.table (s.pc u) ≠ some (s.table k).ino)
    (hrpc : r.pc = s.pc) (htable : r.table = s.table) (hbusy : r.busy = s.busy)
    (hblocks : r.blocks = s.blocks)
    (howner : r.inodes.owner = Function.update s.inodes.owner (s.table k).ino .free)
    (hh : s.lock = false ∨ holds (s.pc t) = true)
    (hb : PoolOk blockKind (ValidBlock sb) s.blocks .exact)
    (hi : PoolOk inodeKind (ValidInode sb) r.inodes .exact) :
    Inv sb (freeInodeClear r t k) := by
  obtain ⟨a, hturn⟩ := h.turn
  have hpc : (FreeLists.freeInodeClear r t k).pc = Function.update s.pc t .idle := by
    rw [← hrpc]
    rfl
  have htable' : ∀ l, l ≠ k → (FreeLists.freeInodeClear r t k).table l = s.table l :=
    fun l hl => (Function.update_of_ne hl _ _).trans (congrFun htable l)
  have hbusy' : ∀ l, l ≠ k → (FreeLists.freeInodeClear r t k).busy l = s.busy l := fun l hl =>
    (Function.update_of_ne hl _ _).trans (congrFun hbusy l)
  have hself : (FreeLists.freeInodeClear r t k).table k = .zero := Function.update_self _ _ _
  have hnamed : Named s (some k) := fun l _ => h.named l nofun
  refine ⟨h.toCore.of_inode hpc hf rfl ha htable' hblocks trivial
    ⟨_, hturn.leave hpc hh rfl (by rw [← hblocks] at hb; exact hb) hi⟩
    (h.toCore.igiving_drop hpc ha htable' rfl hone howner) (h.toCore.slots_drop hpc ha rfl hbusy'),
    hnamed.put hpc htable' (fun l _ hc => by rw [hnew] at hc; cases hc) fun _ hcount => ?_⟩
  rw [hself] at hcount
  exact absurd rfl hcount

namespace Gives

theorem freeInodeLock (h : Gives sb s t k) : Inv sb (freeInodeLock sb s t k) := by
  obtain ⟨a, ha⟩ := h.turn
  obtain ⟨hh, hf, hif, hnew⟩ := h.waits
  unfold FreeLists.freeInodeLock
  split
  · exact h.go rfl (Or.inl rfl) rfl rfl rfl rfl
      ⟨a, ha.keep rfl hh rfl rfl ha.blocks ha.inodes⟩
  · next hl =>
      have hl : s.lock = false := by simpa using hl
      obtain ⟨hb, hi⟩ := ha.exact_of_unlocked hl
      dsimp only
      split
      · next hbad =>
          have hv : ¬ ValidInode sb (s.table k).ino := by
            rintro ⟨h1, h2⟩
            omega
          have hpc : (freeSuper { s with lock := true, busy := Function.update s.busy k false }
            t).pc = Function.update s.pc t .idle := rfl
          refine ⟨h.toCore.of_inode hpc hf rfl h.alone (fun _ _ => rfl) rfl trivial
            ⟨_, ha.pass hpc hl rfl rfl hb hi⟩
            (h.igiving_keep hpc h.alone (fun _ _ => rfl) (hif hv) rfl fun _ hi => hi)
            (h.slots_drop hpc h.alone rfl fun l hl => Function.update_of_ne hl _ _), ?_⟩
          have hnamed : Named s (some k) := fun l _ => h.named l nofun
          refine hnamed.put hpc (fun _ _ => rfl) (fun l _ hc => by rw [hnew] at hc; cases hc)
            fun hdev _ => ?_
          rw [show (freeSuper { s with lock := true, busy := Function.update s.busy k false }
            t).table k = s.table k from rfl, h.inode.1] at hdev
          cases hdev
      · next hgood =>
          have hv : ValidInode sb (s.table k).ino := by
            refine ⟨?_, ?_⟩ <;> omega
          have hread : Inv sb (setPc { s with lock := true } t (.ifreeBread k)) :=
            h.go rfl (Or.inr ⟨rfl, hv⟩) rfl rfl rfl rfl ⟨_, ha.acquire rfl hl rfl rfl hb hi⟩
          split
          · exact hread
          · next efi hefi =>
              split
              · exact hread
              · next hroom =>
                  exact h.toInv.freeInodeClear h.alone hf hnew (h.ino hv).2 rfl rfl rfl rfl rfl
                    (Or.inl hl) hb
                    (hi.pushEntry (inodeKind_sound sb) hefi hroom hv (h.ino hv).1)

end Gives

namespace Inv

theorem freeInodeRead (h : Inv sb s) (hpc : s.pc t = .ifreeBread k) :
    Inv sb (freeInodeRead s t k) := by
  obtain ⟨a, ha⟩ := h.turn
  obtain ⟨rfl, -⟩ := ha.of_holder hpc rfl
  have hs : slot (s.pc t) = some k := by rw [hpc]; rfl
  have hif : ifreeing sb s.table (s.pc t) = some (s.table k).ino := by rw [hpc]; rfl
  have hm := h.igiving.marked t _ hif
  exact h.freeInodeClear (h.toCore.alone hs) (by rw [hpc]; rfl) (by rw [hpc]; rfl)
    (fun u hu hiu => hu (h.igiving.one u t _ hiu hif)) rfl rfl rfl rfl rfl
    (Or.inr (by rw [hpc]; rfl)) ha.blocks (ha.inodes.pushHeader (inodeKind_sound sb) hm.1 hm.2)

theorem newInodeReturn (h : Inv sb s) (hpc : s.pc t = .inewBread k j) :
    Inv sb (newInodeReturn { s with inodes := s.inodes.load inodeKind } t k j) := by
  obtain ⟨a, ha⟩ := h.turn
  obtain ⟨rfl, -⟩ := ha.of_holder hpc rfl
  have hs : slot (s.pc t) = some k := by rw [hpc]; rfl
  refine Starts.newInodeReturn h.toCore (fun l _ => h.named l nofun) (h.toCore.alone hs)
    (fun l hl hc => ?_) (by rw [hpc]; rfl) (by rw [hpc]; rfl) rfl (fun _ _ => rfl) rfl rfl rfl
    (Or.inr (by rw [hpc]; rfl)) ha.blocks ha.inodes.load
  rw [hpc] at hc
  exact hl (Option.some.inj hc).symm

/-! ### Every step -/

theorem of_init (h : Init sb s) : Inv sb s := by
  refine ⟨⟨⟨none, ⟨?_, fun t u ht _ => ?_, fun hl => ?_, h.lock⟩,
    PoolOk.exact_iff.mpr h.blocks, PoolOk.exact_iff.mpr h.inodes⟩,
    ⟨fun t b hb => ?_, fun t u b hb _ => ?_⟩, ⟨fun t i hi => ?_, fun t u i hi _ => ?_⟩,
    ⟨fun t k hk => ?_, fun t u k hk _ => ?_⟩, fun t => ?_⟩, fun k _ hdev hcount => ?_⟩
  · intro t b hb
    rw [h.idle t] at hb
    cases hb
  · rw [h.idle t] at ht
    exact absurd rfl ht
  · rw [h.lock] at hl
    cases hl
  · rw [h.idle t] at hb
    cases hb
  · rw [h.idle t] at hb
    cases hb
  · rw [h.idle t] at hi
    cases hi
  · rw [h.idle t] at hi
    cases hi
  · rw [h.idle t] at hk
    cases hk
  · rw [h.idle t] at hk
    cases hk
  · rw [h.idle t]
    trivial
  · rcases h.table k with hd | hc
    · rw [hd] at hdev
      cases hdev
    · exact absurd hc hcount

/-- The caller of `ext_free_block` no longer has the block. -/
theorem giveBlock (h : Inv sb s) (hb : ValidBlock sb b → s.blocks.owner b = .user) :
    Inv sb { s with blocks := s.blocks.setOwner b .giving } := by
  obtain ⟨a, ha⟩ := h.turn
  refine ⟨⟨⟨a, ha.mutex, ha.blocks.giveBack hb, ha.inodes⟩, ?_, h.igiving, h.slots, h.at_⟩, h.named⟩
  refine h.giving.keep (fun u => rfl) fun u c _ hm => ⟨hm.1, ?_⟩
  change Function.update s.blocks.owner b .giving c = .giving
  by_cases hcb : c = b
  · rw [hcb, Function.update_self]
  · rw [Function.update_of_ne hcb]
    exact hm.2

/-- The caller of `ext_free_inode` no longer has the inode. -/
theorem giveInode (h : Inv sb s) (hpc : s.pc t = .idle) (hk : s.busy k = false)
    (hdev : (s.table k).dev = true) (hcount : (s.table k).count ≠ 0)
    (hi : ValidInode sb (s.table k).ino → s.inodes.owner (s.table k).ino = .user) :
    Gives sb { s with
      inodes := s.inodes.setOwner (s.table k).ino .giving
      busy := Function.update s.busy k true } t k := by
  obtain ⟨a, ha⟩ := h.turn
  have hfree : ∀ u, slot (s.pc u) ≠ some k := fun u hu => by
    have := h.slots.marked u k hu
    rw [hk] at this
    cases this
  refine ⟨⟨⟨⟨a, ha.mutex, ha.blocks, ha.inodes.giveBack hi⟩, h.giving, ?_, ?_, h.at_⟩, h.named⟩,
    Or.inl hpc, fun u _ => hfree u, Function.update_self _ _ _, ⟨hdev, hcount⟩,
    fun hv => ⟨Function.update_self _ _ _, fun u _ hu => ?_⟩⟩
  · refine h.igiving.keep (fun u => rfl) fun u c _ hm => ⟨hm.1, ?_⟩
    change Function.update s.inodes.owner (s.table k).ino .giving c = .giving
    by_cases hc : c = (s.table k).ino
    · rw [hc, Function.update_self]
    · rw [Function.update_of_ne hc]
      exact hm.2
  · refine h.slots.keep (fun u => rfl) fun u l hu hm => ?_
    have hlk : l ≠ k := fun hlk => hfree u (hlk ▸ hu)
    exact (Function.update_of_ne hlk _ _).trans hm
  · have := (h.igiving.marked u _ hu).2
    rw [hi hv] at this
    cases this

theorem go (h : Inv sb s) (hz : 0 < sb.firstDataZone) :
    (go sb s t).Ends (fun _ => False) fun s' => Served sb s (.go t) → Inv sb s' := by
  unfold FreeLists.go
  simp only [Served]
  cases hpc : s.pc t with
  | idle => trivial
  | freeWait b =>
      intro hok
      have hf : freeing sb (s.pc t) = if ValidBlock sb b then some b else none := by
        rw [hpc, freeing]
      refine h.freeBlockLock (by rw [hpc]; rfl) (by rw [hpc]; rfl) (fun hv => ?_)
        (fun hv => hf.trans (if_neg hv)) hok
      have hf' := hf.trans (if_pos hv)
      exact ⟨(h.giving.marked t b hf').2, fun u hu hub => hu (h.giving.one u t b hub hf')⟩
  | freeHash b => exact fun _ => h.freeBlockInsert hz hpc
  | freeBread b => exact fun _ => h.freeBlockRead hz hpc
  | newWait =>
      exact (h.newBlock hz (by rw [hpc]; rfl) (by rw [hpc]; rfl) (by rw [hpc]; rfl)).mono
        fun _ hi _ => hi
  | newLock =>
      have := h.at_ t
      rw [hpc] at this
      exact this.elim
  | newBread j =>
      obtain ⟨a, ha⟩ := h.turn
      obtain ⟨rfl, hl⟩ := ha.of_holder hpc rfl
      exact (Inv.newBlockGet (r := { s with blocks := s.blocks.load blockKind }) h rfl rfl rfl rfl
        rfl hl (by rw [hpc]; rfl) (by rw [hpc]; rfl) (Or.inr (by rw [hpc]; rfl)) ha.blocks.load
        ha.inodes).mono fun _ hi _ => hi
  | newGet j => exact fun _ => h.newBlockReturn hpc
  | ifreeWait k => exact fun _ => (h.gives hpc).freeInodeLock
  | ifreeBread k => exact fun _ => h.freeInodeRead hpc
  | inewWait k => exact (h.starts hpc).newInode
  | inewLock k =>
      have := h.at_ t
      rw [hpc] at this
      exact this.elim
  | inewBread k j => exact fun _ => h.newInodeReturn hpc

theorem step (h : Inv sb s) (hz : 0 < sb.firstDataZone) (a : Act) :
    (step sb s a).Ends (fun _ => False) fun s' => Served sb s a → Inv sb s' := by
  cases a with
  | freeBlock t b =>
      unfold FreeLists.step
      dsimp only
      split
      · next hg =>
          intro hok
          have hnone : ∀ u, ValidBlock sb b → freeing sb (s.pc u) ≠ some b := by
            intro u hv hu
            have := (h.giving.marked u b hu).2
            rw [hg.2 hv] at this
            cases this
          refine (h.giveBlock hg.2).freeBlockLock (by rw [hg.1]; rfl) (by rw [hg.1]; rfl)
            (fun hv => ⟨Function.update_self _ _ _, fun u _ => hnone u hv⟩) (fun _ => ?_) hok
          rw [hg.1]
          rfl
      · trivial
  | newBlock t =>
      unfold FreeLists.step
      dsimp only
      split
      · next hpc =>
          exact (h.newBlock hz (by rw [hpc]; rfl) (by rw [hpc]; rfl) (by rw [hpc]; rfl)).mono
            fun _ hi _ => hi
      · trivial
  | freeInode t k =>
      unfold FreeLists.step
      dsimp only
      split
      · next hg =>
          obtain ⟨hpc, hk, hdev, hcount, hi⟩ := hg
          intro _
          unfold extFreeInode
          dsimp only
          rw [if_neg (by rw [hdev]; exact Bool.noConfusion)]
          split
          · exact h
          · split
            · exact h
            · split
              · exact h
              · exact (h.giveInode hpc hk hdev hcount hi).freeInodeLock
      · trivial
  | newInode t k =>
      unfold FreeLists.step
      dsimp only
      split
      · next hg => exact (h.starts_empty hg.1 hg.2).newInode
      · trivial
  | vfs k inode =>
      unfold FreeLists.step
      dsimp only
      split
      · next hg =>
          obtain ⟨hk, -, hnew⟩ := hg
          intro _
          have hfree : ∀ u l, slot (s.pc u) = some l → l ≠ k := by
            rintro u l hu rfl
            have := h.slots.marked u l hu
            rw [hk] at this
            cases this
          have htable : ∀ u l, slot (s.pc u) = some l →
              Function.update s.table k inode l = s.table l := fun u l hu =>
            Function.update_of_ne (hfree u l hu) _ _
          obtain ⟨a, ha⟩ := h.turn
          refine ⟨⟨⟨a, ha.mutex, ha.blocks, ha.inodes⟩, h.giving, ?_, h.slots,
            fun u => (h.at_ u).congr (htable u)⟩, fun l _ hdev hcount => ?_⟩
          · exact h.igiving.keep (fun u => ifreeing_congr (htable u)) fun _ _ _ hm => hm
          · dsimp only at hdev hcount
            by_cases hl : l = k
            · rw [hl, Function.update_self] at hdev hcount
              rcases hnew with hd | hc
              · rw [hd] at hdev
                cases hdev
              · exact absurd hc hcount
            · rw [Function.update_of_ne hl] at hdev hcount
              exact h.named l nofun hdev hcount
      · trivial
  | go t => exact h.go hz

theorem sound (h : Inv sb s) (hz : 0 < sb.firstDataZone) : Sound sb s := by
  obtain ⟨a, ha⟩ := h.turn
  refine ⟨fun hl => PoolOk.exact_iff.mp (ha.exact_of_unlocked hl).1,
    fun hl => PoolOk.exact_iff.mp (ha.exact_of_unlocked hl).2, ⟨ha.blocks.apart, ha.inodes.apart⟩,
    fun hl => ?_, fun k => h.named k nofun, fun act msg hp => ?_⟩
  · obtain ⟨t, ht⟩ := ha.mutex.held hl
    refine ⟨t, ?_⟩
    by_contra hc
    exact ht (if_neg hc)
  · have := h.step hz act
    rw [hp] at this
    exact this

/-- A block outside the data zone leaves the super block locked. -/
theorem not_sound_freeBlockLock (h : Inv sb s) (hl : s.lock = false) (hv : ¬ ValidBlock sb b) :
    ¬ Sound sb (FreeLists.freeBlockLock sb s t b) := by
  obtain ⟨a, ha⟩ := h.turn
  have hr : FreeLists.freeBlockLock sb s t b = setPc { s with lock := true } t .idle := by
    unfold FreeLists.freeBlockLock
    rw [if_neg (by simp [hl])]
    refine if_pos ?_
    by_contra hc
    rw [not_or, Nat.not_lt, Nat.not_le] at hc
    exact hv hc
  rw [hr]
  intro hs
  obtain ⟨u, hu⟩ := hs.lock rfl
  have hpc : (setPc { s with lock := true } t .idle).pc = Function.update s.pc t .idle := rfl
  by_cases hut : u = t
  · rw [hut, view_self hpc holds] at hu
    cases hu
  · rw [view_other hpc holds hut] at hu
    have hm := ha.mutex
    rw [hl] at hm
    have := hm.nobody hm.none_of_unlocked u
    rw [holder, if_pos hu] at this
    cases this

end Inv

/-- Without a free inode the in-core inode keeps its reference. -/
theorem Starts.not_sound_newInode (h : Starts sb s t k) (hl : s.lock = false)
    (hc : s.inodes.cached = none) (hs : FreeLists.newInode sb s t k = .next s') :
    ¬ Sound sb s' := by
  unfold FreeLists.newInode at hs
  rw [if_neg (by simp [hl])] at hs
  dsimp only at hs
  rw [if_pos hc] at hs
  obtain rfl := Outcome.next.inj hs
  intro hsound
  have hself : (Function.update s.table k { s.table k with sb := true }) k =
      { s.table k with sb := true } := Function.update_self _ _ _
  obtain ⟨u, hu⟩ := hsound.table k (by
    change (Function.update s.table k { s.table k with sb := true } k).dev = false
    rw [hself]
    exact h.inode.1) (by
    change (Function.update s.table k { s.table k with sb := true } k).count ≠ 0
    rw [hself]
    exact h.inode.2.trans_ne Nat.one_ne_zero)
  change newSlot (Function.update s.pc t .idle u) = some k at hu
  by_cases hut : u = t
  · rw [hut, Function.update_self] at hu
    cases hu
  · rw [Function.update_of_ne hut] at hu
    exact h.alone u hut (slot_of_newSlot hu)

theorem Inv.served (h : Inv sb s) {a : Act} (hstep : FreeLists.step sb s a = .next s')
    (hsound : Sound sb s') : Served sb s a := by
  cases a with
  | freeBlock t b =>
      unfold FreeLists.step at hstep
      dsimp only at hstep
      split at hstep
      · next hg =>
          obtain rfl := Outcome.next.inj hstep
          intro hl
          by_contra hv
          exact (h.giveBlock hg.2).not_sound_freeBlockLock hl hv hsound
      · cases hstep
  | newInode t k =>
      unfold FreeLists.step at hstep
      dsimp only at hstep
      split at hstep
      · next hg =>
          exact fun hl hc => (h.starts_empty hg.1 hg.2).not_sound_newInode hl hc hstep hsound
      · cases hstep
  | go t =>
      simp only [Served]
      have hstep : FreeLists.go sb s t = .next s' := hstep
      cases hpc : s.pc t with
      | freeWait b =>
          intro hl
          by_contra hv
          rw [FreeLists.go, hpc] at hstep
          obtain rfl := Outcome.next.inj hstep
          exact h.not_sound_freeBlockLock hl hv hsound
      | inewWait k =>
          rw [FreeLists.go, hpc] at hstep
          exact fun hl hc => (h.starts hpc).not_sound_newInode hl hc hstep hsound
      | _ => trivial
  | newBlock t => trivial
  | freeInode t k => trivial
  | vfs k inode => trivial

/-! ### All runs -/

/-- Every state of a run is sound exactly if every block that is given back is in the data
zone and every call of `ext_new_inode` finds a free inode. -/
theorem sound_iff_served {as : List Act} (hinit : Init sb s)
    (hrun : run (step sb) s as = .next s') :
    (∀ bs, bs <+: as → ∀ r, run (step sb) s bs = .next r → Sound sb r) ↔
      RunOk (step sb) (Served sb) s as :=
  RunOk.iff_prefixes_of (fun _ h => Inv.sound h hinit.zone)
    (fun _ a _ h hs => ⟨(h.step hinit.zone a).of_next hs, fun hr => h.served hs hr⟩)
    (Inv.of_init hinit) hrun

/-! ### Two runs -/

def disk : Super := { firstDataZone := 3, nzones := 6, ninodes := 2 }

/-- Blocks 4 and 5 and inode 2 are free. -/
def mounted : State where
  blocks :=
    { header := fun n => if n = 4 then { free := [5], next := 0 } else { free := [], next := 0 }
      first := 4
      cached := some 4
      count := 2
      owner := fun n => if n = 4 ∨ n = 5 then .free else .user }
  inodes :=
    { header := fun _ => { free := [], next := 0 }
      first := 2
      cached := some 2
      count := 1
      owner := fun n => if n = 2 then .free else .user }
  lock := false
  table := fun _ => .zero
  pc := fun _ => .idle
  busy := fun _ => false

/-- Both blocks are taken and given back, and so is the inode. -/
def servedRun : List Act :=
  [.newBlock 1, .newBlock 2, .go 1, .go 2, .go 2, .freeBlock 1 5, .freeBlock 2 4, .go 1, .go 1,
    .go 2, .go 2, .newInode 1 0, .vfs 0 { dev := true, count := 1, nlink := 0, sb := true, ino := 2 },
    .freeInode 2 0, .go 2]

theorem init_mounted : Init disk mounted where
  idle _ := rfl
  lock := rfl
  busy _ := rfl
  zone := by decide
  blocks :=
    ⟨⟨{4, 5}, ⟨[4], ⟨by decide, by decide⟩, by decide, by decide, by decide⟩, fun n => by
      rw [Finset.mem_insert, Finset.mem_singleton, ValidBlock]
      change _ ↔ (3 ≤ n ∧ n < 6) ∧ (if n = 4 ∨ n = 5 then Owner.free else Owner.user) = .free
      split
      · next h => exact ⟨fun _ => ⟨by omega, rfl⟩, fun _ => h⟩
      · next h => exact ⟨fun hc => absurd hc h, fun hc => (nomatch hc.2)⟩, rfl⟩, rfl⟩
  inodes :=
    ⟨⟨{2}, ⟨[2], ⟨by decide, by decide⟩, by decide, by decide, by decide⟩, fun n => by
      rw [Finset.mem_singleton, ValidInode]
      change _ ↔ (1 ≤ n ∧ n ≤ 2) ∧ (if n = 2 then Owner.free else Owner.user) = .free
      split
      · next h => exact ⟨fun _ => ⟨by omega, rfl⟩, fun _ => h⟩
      · next h => exact ⟨fun hc => absurd hc h, fun hc => (nomatch hc.2)⟩, rfl⟩, rfl⟩
  owner b := by
    change (if b = 4 ∨ b = 5 then Owner.free else Owner.user) ≠ .giving
    split <;> exact Owner.noConfusion
  iowner ino := by
    change (if ino = 2 then Owner.free else Owner.user) ≠ .giving
    split <;> exact Owner.noConfusion
  table _ := Or.inr rfl

theorem sound_iff_served_servedRun :
    RunOk (step disk) (Served disk) mounted servedRun ∧
      ∀ bs, bs <+: servedRun → ∀ r, run (step disk) mounted bs = .next r → Sound disk r := by
  have hok : RunOk (step disk) (Served disk) mounted servedRun := by
    unfold servedRun
    repeat' refine RunOk.cons (by decide) ?_
    exact True.intro
  exact ⟨hok, (sound_iff_served init_mounted (Outcome.eq_next (by decide) mounted)).mpr hok⟩

/-- A block outside the data zone is given back. -/
theorem freeLists_not_sound :
    ∃ s, Init disk mounted ∧ run (step disk) mounted [.freeBlock 1 9] = .next s ∧
      ¬ Sound disk s := by
  refine ⟨(step disk mounted (.freeBlock 1 9)).get mounted, init_mounted, rfl, fun h => ?_⟩
  obtain ⟨u, hu⟩ := h.lock rfl
  have hpc : ((step disk mounted (.freeBlock 1 9)).get mounted).pc u = .idle := by
    change Function.update (fun _ => Pc.idle) 1 Pc.idle u = .idle
    by_cases h1 : u = 1
    · rw [h1, Function.update_self]
    · rw [Function.update_of_ne h1]
  rw [hpc] at hu
  cases hu

end LinuxKernel.V098.Fs.FreeLists
