import LinuxKernel.Lib.Holders
import LinuxKernel.V098.Fs.FreeListPools

/-!
# LinuxKernel.V098.Fs.FreeListsExact

**The lists are exact** whenever the super block is unlocked. The task that has it locked says
what the two lists are short of (`blockStage`, `inodeStage`); blocks and inodes that are being
given back and in-core inodes that are worked on have one task each.
-/

namespace LinuxKernel.V098.Fs.FreeLists

variable {sb : Super} {s s' : State} {t u : Task} {pc pc' : Pc} {b j k l : Nat}

/-! ### What a task has -/

def holder (pc : Pc) : Option Pc := if holds pc then some pc else none

/-- The block of the data zone that the task gives back. -/
def freeing (sb : Super) : Pc → Option Nat
  | .freeWait b => if ValidBlock sb b then some b else none
  | .freeHash b | .freeBread b => some b
  | .idle | .newWait | .newLock | .newBread _ | .newGet _ | .ifreeWait _ | .ifreeBread _
  | .inewWait _ | .inewLock _ | .inewBread _ _ => none

/-- The inode that the task gives back. -/
def ifreeing (sb : Super) (table : Nat → Inode) : Pc → Option Nat
  | .ifreeWait k => if ValidInode sb (table k).ino then some (table k).ino else none
  | .ifreeBread k => some (table k).ino
  | .idle | .freeWait _ | .freeHash _ | .freeBread _ | .newWait | .newLock | .newBread _
  | .newGet _ | .inewWait _ | .inewLock _ | .inewBread _ _ => none

/-- The in-core inode that the task works on. -/
def slot : Pc → Option Nat
  | .ifreeWait k | .ifreeBread k | .inewWait k | .inewLock k | .inewBread k _ => some k
  | .idle | .freeWait _ | .freeHash _ | .freeBread _ | .newWait | .newLock | .newBread _
  | .newGet _ => none

/-- What the task knows of its in-core inode. No task ever waits in `lock_super` behind
`get_super`. -/
def At (table : Nat → Inode) : Pc → Prop
  | .newLock | .inewLock _ => False
  | .ifreeWait k | .ifreeBread k => (table k).dev = true ∧ (table k).count ≠ 0
  | .inewWait k | .inewBread k _ => (table k).dev = false ∧ (table k).count = 1
  | .idle | .freeWait _ | .freeHash _ | .freeBread _ | .newWait | .newBread _ | .newGet _ => True

def blockStage : Option Pc → Stage
  | some (.newBread j) => { taken := some j, owed := 1, loaded := false }
  | some (.newGet j) => { taken := some j, owed := 0, loaded := true }
  | _ => .exact

def inodeStage : Option Pc → Stage
  | some (.inewBread _ j) => { taken := some j, owed := 1, loaded := false }
  | _ => .exact

theorem slot_of_newSlot (h : newSlot pc = some k) : slot pc = some k := by
  cases pc <;> first | exact h | cases h

theorem At.congr {table table' : Nat → Inode} (h : At table pc)
    (hs : ∀ k, slot pc = some k → table' k = table k) : At table' pc := by
  cases pc with
  | ifreeWait k => rw [At, hs k rfl]; exact h
  | ifreeBread k => rw [At, hs k rfl]; exact h
  | inewWait k => rw [At, hs k rfl]; exact h
  | inewBread k j => rw [At, hs k rfl]; exact h
  | _ => exact h

theorem At.count {table : Nat → Inode} (h : At table pc) (hs : slot pc = some k) :
    (table k).count ≠ 0 := by
  cases pc with
  | ifreeWait l => cases hs; exact h.2
  | ifreeBread l => cases hs; exact h.2
  | inewWait l => cases hs; rw [h.2]; exact Nat.one_ne_zero
  | inewBread l j => cases hs; rw [h.2]; exact Nat.one_ne_zero
  | inewLock l => exact h.elim
  | _ => cases hs

theorem ifreeing_congr {table table' : Nat → Inode}
    (hs : ∀ k, slot pc = some k → table' k = table k) :
    ifreeing sb table' pc = ifreeing sb table pc := by
  cases pc with
  | ifreeWait k => rw [ifreeing, ifreeing, hs k rfl]
  | ifreeBread k => rw [ifreeing, ifreeing, hs k rfl]
  | _ => rfl

/-! ### The invariant -/

structure Turn (sb : Super) (s : State) (a : Option Pc) : Prop where
  mutex : Mutex (fun t => holder (s.pc t)) s.lock a
  blocks : PoolOk blockKind (ValidBlock sb) s.blocks (blockStage a)
  inodes : PoolOk inodeKind (ValidInode sb) s.inodes (inodeStage a)

structure Core (sb : Super) (s : State) : Prop where
  turn : ∃ a, Turn sb s a
  giving : Holders (fun t => freeing sb (s.pc t))
    fun b => ValidBlock sb b ∧ s.blocks.owner b = .giving
  igiving : Holders (fun t => ifreeing sb s.table (s.pc t))
    fun ino => ValidInode sb ino ∧ s.inodes.owner ino = .giving
  slots : Holders (fun t => slot (s.pc t)) fun k => s.busy k = true
  at_ : ∀ t, At s.table (s.pc t)

/-- The in-core inodes apart from `e` that have no device but a reference are those of tasks. -/
def Named (s : State) (e : Option Nat) : Prop :=
  ∀ k, e ≠ some k → (s.table k).dev = false → (s.table k).count ≠ 0 →
    ∃ t, newSlot (s.pc t) = some k

structure Inv (sb : Super) (s : State) : Prop extends Core sb s where
  named : Named s none

theorem view_other {α : Type} (hpc : s'.pc = Function.update s.pc t pc') (g : Pc → α)
    (hu : u ≠ t) : g (s'.pc u) = g (s.pc u) := by
  rw [hpc, Function.update_of_ne hu]

theorem view_self {α : Type} (hpc : s'.pc = Function.update s.pc t pc') (g : Pc → α) :
    g (s'.pc t) = g pc' := by
  rw [hpc, Function.update_self]

theorem view_keep {α : Type} (hpc : s'.pc = Function.update s.pc t pc') (g : Pc → α)
    (hg : g pc' = g (s.pc t)) (u : Task) : g (s'.pc u) = g (s.pc u) := by
  by_cases hu : u = t
  · rw [hu, view_self hpc g, hg]
  · exact view_other hpc g hu

namespace Turn

variable {a : Option Pc}

theorem exact_of_unlocked (h : Turn sb s a) (hl : s.lock = false) :
    PoolOk blockKind (ValidBlock sb) s.blocks .exact ∧
      PoolOk inodeKind (ValidInode sb) s.inodes .exact := by
  have hm := h.mutex
  rw [hl] at hm
  have ha := hm.none_of_unlocked
  subst ha
  exact ⟨h.blocks, h.inodes⟩

/-- A task without the lock goes on without it. -/
theorem keep (h : Turn sb s a) (hpc : s'.pc = Function.update s.pc t pc')
    (hh : holder (s.pc t) = none) (hh' : holder pc' = none) (hlock : s'.lock = s.lock)
    (hb : PoolOk blockKind (ValidBlock sb) s'.blocks (blockStage a))
    (hi : PoolOk inodeKind (ValidInode sb) s'.inodes (inodeStage a)) : Turn sb s' a := by
  refine ⟨?_, hb, hi⟩
  rw [hlock]
  exact h.mutex.keep (view_keep hpc holder (hh'.trans hh.symm))

theorem acquire (h : Turn sb s a) (hpc : s'.pc = Function.update s.pc t pc')
    (hl : s.lock = false) (hh' : holds pc' = true) (hlock : s'.lock = true)
    (hb : PoolOk blockKind (ValidBlock sb) s'.blocks (blockStage (some pc')))
    (hi : PoolOk inodeKind (ValidInode sb) s'.inodes (inodeStage (some pc'))) :
    Turn sb s' (some pc') := by
  have hm := h.mutex
  rw [hl] at hm
  refine ⟨?_, hb, hi⟩
  rw [hlock]
  exact hm.acquire ((view_self hpc holder).trans (if_pos hh')) fun u hu => view_other hpc holder hu

/-- The task that has the lock goes on with it. -/
theorem move (h : Turn sb s a) (hpc : s'.pc = Function.update s.pc t pc')
    (hh : holds (s.pc t) = true) (hh' : holds pc' = true) (hlock : s'.lock = true)
    (hb : PoolOk blockKind (ValidBlock sb) s'.blocks (blockStage (some pc')))
    (hi : PoolOk inodeKind (ValidInode sb) s'.inodes (inodeStage (some pc'))) :
    Turn sb s' (some pc') := by
  refine ⟨?_, hb, hi⟩
  rw [hlock]
  have ht : holder (s.pc t) ≠ none := by
    rw [holder, if_pos hh]
    exact Option.some_ne_none _
  exact h.mutex.move ht ((view_self hpc holder).trans (if_pos hh')) fun u hu =>
    view_other hpc holder hu

theorem release (h : Turn sb s a) (hpc : s'.pc = Function.update s.pc t pc')
    (hh : holds (s.pc t) = true) (hh' : holds pc' = false) (hlock : s'.lock = false)
    (hb : PoolOk blockKind (ValidBlock sb) s'.blocks .exact)
    (hi : PoolOk inodeKind (ValidInode sb) s'.inodes .exact) : Turn sb s' none := by
  refine ⟨?_, hb, hi⟩
  rw [hlock]
  have ht : holder (s.pc t) ≠ none := by
    rw [holder, if_pos hh]
    exact Option.some_ne_none _
  have hnone : holder pc' = none := by rw [holder, hh']; rfl
  exact h.mutex.release ht ((view_self hpc holder).trans hnone) fun u hu =>
    view_other hpc holder hu

/-- The lock is taken and given back in one step. -/
theorem pass (h : Turn sb s a) (hpc : s'.pc = Function.update s.pc t pc')
    (hl : s.lock = false) (hh' : holds pc' = false) (hlock : s'.lock = false)
    (hb : PoolOk blockKind (ValidBlock sb) s'.blocks .exact)
    (hi : PoolOk inodeKind (ValidInode sb) s'.inodes .exact) : Turn sb s' none := by
  have hm := h.mutex
  rw [hl] at hm
  have ha := hm.none_of_unlocked
  subst ha
  have hnone : holder pc' = none := by rw [holder, hh']; rfl
  refine ⟨?_, hb, hi⟩
  rw [hlock]
  exact hm.keep (view_keep hpc holder (hnone.trans (hm.nobody rfl t).symm))

/-- A task that gets the lock, or has it, goes on with it. -/
theorem enter (h : Turn sb s a) (hpc : s'.pc = Function.update s.pc t pc')
    (hh : s.lock = false ∨ holds (s.pc t) = true) (hh' : holds pc' = true) (hlock : s'.lock = true)
    (hb : PoolOk blockKind (ValidBlock sb) s'.blocks (blockStage (some pc')))
    (hi : PoolOk inodeKind (ValidInode sb) s'.inodes (inodeStage (some pc'))) :
    Turn sb s' (some pc') := by
  rcases hh with hl | hh
  · exact h.acquire hpc hl hh' hlock hb hi
  · exact h.move hpc hh hh' hlock hb hi

/-- A task that gets the lock, or has it, returns without it. -/
theorem leave (h : Turn sb s a) (hpc : s'.pc = Function.update s.pc t .idle)
    (hh : s.lock = false ∨ holds (s.pc t) = true) (hlock : s'.lock = false)
    (hb : PoolOk blockKind (ValidBlock sb) s'.blocks .exact)
    (hi : PoolOk inodeKind (ValidInode sb) s'.inodes .exact) : Turn sb s' none := by
  rcases hh with hl | hh
  · exact h.pass hpc hl rfl hlock hb hi
  · exact h.release hpc hh rfl hlock hb hi

/-- What the task that has the lock knows. -/
theorem of_holder (h : Turn sb s a) (hpc : s.pc t = pc) (hh : holds pc = true) :
    a = some pc ∧ s.lock = true := by
  have ha : a = some pc := h.mutex.holds t pc (by rw [hpc, holder, if_pos hh])
  refine ⟨ha, ?_⟩
  rw [h.mutex.lock_eq, ha]
  rfl

end Turn

/-! ### Blocks -/

namespace Core

/-- A step in the functions for blocks. -/
theorem of_block (h : Core sb s) (hpc : s'.pc = Function.update s.pc t pc')
    (hs : slot (s.pc t) = none) (hs' : slot pc' = none) (hat : At s'.table pc')
    (htable : s'.table = s.table) (hbusy : s'.busy = s.busy) (hinodes : s'.inodes = s.inodes)
    (turn : ∃ a, Turn sb s' a)
    (giving : Holders (fun t => freeing sb (s'.pc t))
      fun b => ValidBlock sb b ∧ s'.blocks.owner b = .giving) : Core sb s' := by
  have hifree : ∀ {pc : Pc}, slot pc = none → ifreeing sb s.table pc = none := by
    intro pc hpc
    cases pc <;> first | rfl | cases hpc
  refine ⟨turn, giving, ?_, ?_, fun u => ?_⟩
  · rw [htable, hinodes]
    exact h.igiving.keep
      (view_keep hpc (ifreeing sb s.table) ((hifree hs').trans (hifree hs).symm)) fun _ _ _ hm => hm
  · rw [hbusy]
    exact h.slots.keep (view_keep hpc slot (hs'.trans hs.symm)) fun _ _ _ hm => hm
  · by_cases hu : u = t
    · rw [hu, hpc, Function.update_self]
      exact hat
    · rw [hpc, Function.update_of_ne hu, htable]
      exact h.at_ u

end Core

theorem Named.of_block {e : Option Nat} (h : Named s e)
    (hpc : s'.pc = Function.update s.pc t pc') (hs : slot (s.pc t) = none)
    (htable : s'.table = s.table) : Named s' e := by
  intro k hk hdev hcount
  rw [htable] at hdev hcount
  obtain ⟨u, hu⟩ := h k hk hdev hcount
  refine ⟨u, ?_⟩
  have hut : u ≠ t := by
    rintro rfl
    rw [slot_of_newSlot hu] at hs
    cases hs
  rw [view_other hpc newSlot hut, hu]

namespace Inv

/-- A step in the functions for blocks. -/
theorem of_block (h : Inv sb s) (hpc : s'.pc = Function.update s.pc t pc')
    (hs : slot (s.pc t) = none) (hs' : slot pc' = none) (hat : At s'.table pc')
    (htable : s'.table = s.table) (hbusy : s'.busy = s.busy) (hinodes : s'.inodes = s.inodes)
    (turn : ∃ a, Turn sb s' a)
    (giving : Holders (fun t => freeing sb (s'.pc t))
      fun b => ValidBlock sb b ∧ s'.blocks.owner b = .giving) : Inv sb s' :=
  ⟨h.toCore.of_block hpc hs hs' hat htable hbusy hinodes turn giving,
    h.named.of_block hpc hs htable⟩

/-- The task gives back the same block as before, or none. -/
theorem giving_keep (h : Core sb s) (hpc : s'.pc = Function.update s.pc t pc')
    (hf : freeing sb pc' = freeing sb (s.pc t)) (howner : s'.blocks.owner = s.blocks.owner) :
    Holders (fun t => freeing sb (s'.pc t))
      fun b => ValidBlock sb b ∧ s'.blocks.owner b = .giving := by
  rw [howner]
  exact h.giving.keep (view_keep hpc (freeing sb) hf) fun _ _ _ hm => hm

/-- The block that a task gives back is on the list. -/
theorem giving_drop (h : Core sb s) (hpc : s'.pc = Function.update s.pc t pc')
    (hf : freeing sb (s.pc t) = some b) (hf' : freeing sb pc' = none)
    (howner : s'.blocks.owner = Function.update s.blocks.owner b .free) :
    Holders (fun t => freeing sb (s'.pc t))
      fun b => ValidBlock sb b ∧ s'.blocks.owner b = .giving := by
  refine h.giving.drop ((view_self hpc (freeing sb)).trans hf')
    (fun u hu => view_other hpc (freeing sb) hu) fun u c _ _ hc hm => ⟨hm.1, ?_⟩
  have hcb : c ≠ b := by
    rintro rfl
    exact hc hf
  rw [howner, Function.update_of_ne hcb]
  exact hm.2

theorem freeBlockLock (h : Inv sb s) (hh : holder (s.pc t) = none) (hs : slot (s.pc t) = none)
    (hgive : ValidBlock sb b →
      s.blocks.owner b = .giving ∧ ∀ u, u ≠ t → freeing sb (s.pc u) ≠ some b)
    (hnone : ¬ ValidBlock sb b → freeing sb (s.pc t) = none)
    (hok : s.lock = false → ValidBlock sb b) : Inv sb (freeBlockLock sb s t b) := by
  obtain ⟨a, ha⟩ := h.turn
  unfold FreeLists.freeBlockLock
  split
  · have hpc : (setPc s t (.freeWait b)).pc = Function.update s.pc t (.freeWait b) := rfl
    refine h.of_block hpc hs rfl trivial rfl rfl rfl
      ⟨a, ha.keep hpc hh rfl rfl ha.blocks ha.inodes⟩ ?_
    by_cases hv : ValidBlock sb b
    · exact h.giving.take (hgive hv).2 ((view_self hpc (freeing sb)).trans (if_pos hv))
        (fun u hu => view_other hpc (freeing sb) hu) ⟨hv, (hgive hv).1⟩ fun _ _ _ _ hm => hm
    · exact giving_keep h.toCore rfl ((if_neg hv).trans (hnone hv).symm) rfl
  · next hl =>
      have hl : s.lock = false := by simpa using hl
      have hv := hok hl
      obtain ⟨hb, hi⟩ := ha.exact_of_unlocked hl
      dsimp only
      rw [if_neg (by rw [not_or, Nat.not_lt, Nat.not_le]; exact hv)]
      have hpc : (setPc { s with lock := true } t (.freeHash b)).pc =
        Function.update s.pc t (.freeHash b) := rfl
      refine h.of_block hpc hs rfl trivial rfl rfl rfl ⟨_, ha.acquire hpc hl rfl rfl hb hi⟩ ?_
      exact h.giving.take (hgive hv).2 (view_self hpc (freeing sb))
        (fun u hu => view_other hpc (freeing sb) hu) ⟨hv, (hgive hv).1⟩ fun _ _ _ _ hm => hm

theorem freeBlockInsert (h : Inv sb s) (hz : 0 < sb.firstDataZone) (hpc : s.pc t = .freeHash b) :
    Inv sb (freeBlockInsert s t b) := by
  obtain ⟨a, ha⟩ := h.turn
  obtain ⟨rfl, hl⟩ := ha.of_holder hpc rfl
  have hs : slot (s.pc t) = none := by rw [hpc]; rfl
  have hh : holds (s.pc t) = true := by rw [hpc]; rfl
  have hf : freeing sb (s.pc t) = some b := by rw [hpc]; rfl
  have hm := h.giving.marked t b hf
  have hread : Inv sb (setPc s t (.freeBread b)) :=
    h.of_block rfl hs rfl trivial rfl rfl rfl
      ⟨_, ha.move rfl hh rfl hl ha.blocks ha.inodes⟩ (giving_keep h.toCore rfl hf.symm rfl)
  unfold FreeLists.freeBlockInsert
  split
  · exact hread
  · next efb hefb =>
      split
      · exact hread
      · next hroom =>
          exact h.of_block rfl hs rfl trivial rfl rfl rfl
            ⟨_, ha.release rfl hh rfl rfl
              (ha.blocks.pushEntry (blockKind_sound hz) hefb hroom hm.1 hm.2) ha.inodes⟩
            (giving_drop h.toCore rfl hf rfl rfl)

theorem freeBlockRead (h : Inv sb s) (hz : 0 < sb.firstDataZone) (hpc : s.pc t = .freeBread b) :
    Inv sb (freeBlockRead s t b) := by
  obtain ⟨a, ha⟩ := h.turn
  obtain ⟨rfl, hl⟩ := ha.of_holder hpc rfl
  have hs : slot (s.pc t) = none := by rw [hpc]; rfl
  have hh : holds (s.pc t) = true := by rw [hpc]; rfl
  have hf : freeing sb (s.pc t) = some b := by rw [hpc]; rfl
  have hm := h.giving.marked t b hf
  exact h.of_block rfl hs rfl trivial rfl rfl rfl
    ⟨_, ha.release rfl hh rfl rfl (ha.blocks.pushHeader (blockKind_sound hz) hm.1 hm.2) ha.inodes⟩
    (giving_drop h.toCore rfl hf rfl rfl)

/-- `r` is `s` with the block `j` off the list. -/
theorem newBlockGet {r : State} (h : Inv sb s) (hrpc : r.pc = s.pc) (htable : r.table = s.table)
    (hbusy : r.busy = s.busy) (hinodes : r.inodes = s.inodes)
    (howner : r.blocks.owner = s.blocks.owner) (hlock : r.lock = true)
    (hs : slot (s.pc t) = none) (hf : freeing sb (s.pc t) = none)
    (hh : s.lock = false ∨ holds (s.pc t) = true)
    (hb : PoolOk blockKind (ValidBlock sb) r.blocks { taken := some j, owed := 1, loaded := true })
    (hi : PoolOk inodeKind (ValidInode sb) s.inodes .exact) :
    (newBlockGet sb r t j).Ends (fun _ => False) (Inv sb) := by
  obtain ⟨a, ha⟩ := h.turn
  have hv := (hb.taken j rfl).1
  unfold FreeLists.newBlockGet
  rw [if_neg (by rw [not_or, Nat.not_lt, Nat.not_lt]; exact ⟨hv.1, Nat.le_of_lt hv.2⟩)]
  have hpc : (setPc { r with blocks := r.blocks.pay } t (.newGet j)).pc =
      Function.update s.pc t (.newGet j) := by
    rw [← hrpc]
    rfl
  refine h.of_block hpc hs rfl trivial htable hbusy hinodes
    ⟨_, ha.enter hpc hh rfl hlock hb.pay ?_⟩ (giving_keep h.toCore hpc hf.symm howner)
  change PoolOk inodeKind (ValidInode sb) r.inodes _
  rw [hinodes]
  exact hi

theorem newBlockLock (h : Inv sb s) (hz : 0 < sb.firstDataZone) (hl : s.lock = false)
    (hs : slot (s.pc t) = none) (hf : freeing sb (s.pc t) = none)
    (hc : s.blocks.cached ≠ none) : (newBlockLock sb s t).Ends (fun _ => False) (Inv sb) := by
  obtain ⟨a, ha⟩ := h.turn
  obtain ⟨hb, hi⟩ := ha.exact_of_unlocked hl
  unfold FreeLists.newBlockLock
  rw [if_neg (by simp [hl])]
  dsimp only
  split
  · next hefb =>
      rw [Pool.efb, Option.map_eq_none_iff] at hefb
      exact absurd hefb hc
  · next efb hefb =>
      split
      · next j free hfree =>
          exact h.newBlockGet rfl rfl rfl rfl rfl rfl hs hf (Or.inl hl)
            (hb.popEntry (blockKind_sound hz) hefb hfree) hi
      · next hfree =>
          have hpop := hb.popHeader (blockKind_sound hz) hefb hfree
          split
          · exact h.newBlockGet rfl rfl rfl rfl rfl rfl hs hf (Or.inl hl) hpop.load hi
          · refine h.of_block rfl hs rfl trivial rfl rfl rfl
              ⟨_, ha.acquire rfl hl rfl rfl hpop hi⟩ (giving_keep h.toCore rfl hf.symm rfl)

theorem newBlock (h : Inv sb s) (hz : 0 < sb.firstDataZone) (hh : holder (s.pc t) = none)
    (hs : slot (s.pc t) = none) (hf : freeing sb (s.pc t) = none) :
    (newBlock sb s t).Ends (fun _ => False) (Inv sb) := by
  obtain ⟨a, ha⟩ := h.turn
  have hwait : ∀ pc', holder pc' = none → slot pc' = none → freeing sb pc' = none →
      At s.table pc' → Inv sb (setPc s t pc') := fun pc' hh' hs' hf' hat =>
    h.of_block rfl hs hs' hat rfl rfl rfl ⟨a, ha.keep rfl hh hh' rfl ha.blocks ha.inodes⟩
      (giving_keep h.toCore rfl (hf'.trans hf.symm) rfl)
  unfold FreeLists.newBlock
  split
  · exact hwait .newWait rfl rfl rfl trivial
  · next hl =>
      split
      · exact hwait .idle rfl rfl rfl trivial
      · next hc => exact h.newBlockLock hz (by simpa using hl) hs hf hc

theorem newBlockReturn (h : Inv sb s) (hpc : s.pc t = .newGet j) :
    Inv sb (newBlockReturn s t j) := by
  obtain ⟨a, ha⟩ := h.turn
  obtain ⟨rfl, hl⟩ := ha.of_holder hpc rfl
  have hs : slot (s.pc t) = none := by rw [hpc]; rfl
  have hh : holds (s.pc t) = true := by rw [hpc]; rfl
  have hf : freeing sb (s.pc t) = none := by rw [hpc]; rfl
  have hj := ha.blocks.taken j rfl
  refine h.of_block rfl hs rfl trivial rfl rfl rfl
    ⟨_, ha.release rfl hh rfl rfl ha.blocks.handOut ha.inodes⟩ ?_
  have hpc' : (FreeLists.newBlockReturn s t j).pc = Function.update s.pc t .idle := rfl
  refine h.giving.keep (view_keep hpc' (freeing sb) hf.symm) fun u c _ hm => ⟨hm.1, ?_⟩
  have hcj : c ≠ j := by
    rintro rfl
    rw [hj.2] at hm
    cases hm.2
  exact (Function.update_of_ne hcj _ _).trans hm.2

end Inv

end LinuxKernel.V098.Fs.FreeLists
