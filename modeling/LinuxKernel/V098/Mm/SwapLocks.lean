import LinuxKernel.Lib.Holders
import LinuxKernel.Lib.System

/-!
# LinuxKernel.V098.Mm.SwapLocks

**The locks of swap slots**: `rw_swap_page` and `swap_free` of `mm/swap.c`, call by call.

- A step of a task goes no further than to the next place where it may sleep: in `sleep_on`,
  `bmap`, `ll_rw_page` or `ll_rw_swap_file`. A call that comes while the same task is in another
  one has a number of its own here.
- `lock_queue` has the tasks that no `wake_up` has come to since they went to sleep.
- `swapFile` is what `bmap` finds in the file, block by block; 0 is a hole.
-/

namespace LinuxKernel.V098.Mm.SwapLocks

abbrev Task := Nat

def SWP_USED : Nat := 1
def SWAP_BITS : Nat := 4096

structure SwapInfo where
  flags : Nat
  swapFile : Option (Nat → Nat)
  swapDevice : Nat
  swapMap : Nat → Nat
  swapLockmap : Nat → Bool
  lowestBit : Nat
  highestBit : Nat

inductive Call
  | rwSwapPage (nr : Nat)
  | swapFree (nr : Nat)

/-- The area and the slot of a number. -/
def slotOf (nr : Nat) : Nat × Nat := (nr / 2 ^ 24, nr % 2 ^ 24)

def Call.slot : Call → Nat × Nat
  | rwSwapPage nr => slotOf nr
  | swapFree nr => slotOf nr

inductive Pc
  /-- In neither function. -/
  | out
  /-- At `while (setbit(p->swap_lockmap,nr))`. -/
  | testing (c : Call)
  | asleep (c : Call)
  /-- In `rw_swap_page`, before `bmap` for the block with number `i` of the four. -/
  | mapping (nr i : Nat)
  /-- In `rw_swap_page`, before `clrbit`. -/
  | ending (nr : Nat)
  /-- In `swap_free`, with the lock. -/
  | freeing (nr : Nat)

structure State where
  nrSwapfiles : Nat
  swapInfo : Nat → SwapInfo
  lockQueue : List Task
  pc : Task → Pc

/-! ### Steps -/

namespace State

def setPc (s : State) (t : Task) (pc : Pc) : State := { s with pc := Function.update s.pc t pc }

def setInfo (s : State) (a : Nat) (p : SwapInfo) : State :=
  { s with swapInfo := Function.update s.swapInfo a p }

def bit (s : State) (x : Nat × Nat) : Bool := (s.swapInfo x.1).swapLockmap x.2

/-- `setbit` or `clrbit`. -/
def putBit (s : State) (x : Nat × Nat) (v : Bool) : State :=
  s.setInfo x.1 { s.swapInfo x.1 with
    swapLockmap := Function.update (s.swapInfo x.1).swapLockmap x.2 v }

end State

def Pc.woken : Pc → Pc
  | asleep c => testing c
  | pc => pc

/-- `wake_up(&lock_queue)`. -/
def wakeUp (s : State) : State :=
  { s with
    lockQueue := []
    pc := fun u => if u ∈ s.lockQueue then (s.pc u).woken else s.pc u }

/-- The checks at the start of either function. -/
def passes (s : State) (nr : Nat) : Bool :=
  decide ((slotOf nr).1 < s.nrSwapfiles) && decide ((slotOf nr).2 < SWAP_BITS) &&
    decide ((s.swapInfo (slotOf nr).1).flags &&& SWP_USED ≠ 0)

/-- Up to `setbit`. Number 0 is nothing to `swap_free`. -/
def enter (s : State) (t : Task) (c : Call) : State :=
  match c with
  | .rwSwapPage nr => if passes s nr then s.setPc t (.testing c) else s
  | .swapFree nr => if nr ≠ 0 ∧ passes s nr then s.setPc t (.testing c) else s

/-- Behind `setbit`, with the lock. -/
def locked (s : State) (c : Call) : Pc :=
  match c with
  | .rwSwapPage nr =>
      let p := s.swapInfo (slotOf nr).1
      if p.swapDevice ≠ 0 then .ending nr
      else if p.swapFile.isSome then .mapping nr 0
      else .ending nr
  | .swapFree nr => .freeing nr

def test (s : State) (t : Task) (c : Call) : State :=
  if s.bit c.slot then { s.setPc t (.asleep c) with lockQueue := t :: s.lockQueue }
  else (s.putBit c.slot true).setPc t (locked s c)

/-- `clrbit`, `wake_up` and the return. -/
def unlock (s : State) (t : Task) (nr : Nat) : State :=
  wakeUp ((s.putBit (slotOf nr) false).setPc t .out)

/-- What `bmap` says about block `i` of a slot. -/
def zone (s : State) (nr i : Nat) : Nat :=
  match (s.swapInfo (slotOf nr).1).swapFile with
  | none => 0
  | some bmap => bmap ((slotOf nr).2 * 4 + i)

/-- One turn of the loop over the four blocks. -/
def mapBlock (s : State) (t : Task) (nr i : Nat) : State :=
  if zone s nr i = 0 then s.setPc t .out
  else if i + 1 < 4 then s.setPc t (.mapping nr (i + 1))
  else s.setPc t (.ending nr)

/-- The counts of `swap_free`. -/
def countFree (s : State) (nr : Nat) : State :=
  let p := s.swapInfo (slotOf nr).1
  let n := (slotOf nr).2
  s.setInfo (slotOf nr).1 { p with
    lowestBit := if n < p.lowestBit then n else p.lowestBit
    highestBit := if n > p.highestBit then n else p.highestBit
    swapMap :=
      if p.swapMap n = 0 then p.swapMap else Function.update p.swapMap n (p.swapMap n - 1) }

inductive Act
  | call (t : Task) (c : Call)
  | go (t : Task)

def step (s : State) : Act → Outcome State
  | .call t c =>
      match s.pc t with
      | .out => .next (enter s t c)
      | _ => .disabled
  | .go t =>
      match s.pc t with
      | .out => .disabled
      | .testing c => .next (test s t c)
      | .asleep _ => .disabled
      | .mapping nr i => .next (mapBlock s t nr i)
      | .ending nr => .next (unlock s t nr)
      | .freeing nr => .next (unlock (countFree s nr) t nr)

/-! ### What the locks are for -/

/-- The slot that a call has locked. -/
def Pc.holds : Pc → Option (Nat × Nat)
  | mapping nr _ => some (slotOf nr)
  | ending nr => some (slotOf nr)
  | freeing nr => some (slotOf nr)
  | _ => none

/-- A bit that is set belongs to one call that is still under way, and so does the bit that a
sleeper waits for. -/
structure Sound (s : State) : Prop where
  cleared : ∀ x, s.bit x = true → ∃ t, (s.pc t).holds = some x
  one : ∀ t u x, (s.pc t).holds = some x → (s.pc u).holds = some x → t = u
  waiting : ∀ t c, s.pc t = .asleep c → ∃ u, (s.pc u).holds = some c.slot

/-- A call that is over with this step has cleared its bit and woken everyone. -/
def Returned (s s' : State) : Prop :=
  ∀ t x, (s.pc t).holds = some x → (s'.pc t).holds = none →
    s'.bit x = false ∧ ∀ u c, s'.pc u ≠ .asleep c

/-- No call is under way, and no slot is locked. -/
structure Idle (s : State) : Prop where
  out : ∀ t, s.pc t = .out
  clear : ∀ x, s.bit x = false

/-- Every state and every step of a run. -/
def Released (s : State) (as : List Act) : Prop :=
  (∀ bs, bs <+: as → ∀ u, run step s bs = .next u → Sound u) ∧
    ∀ bs a, bs ++ [a] <+: as → ∀ u v, run step s bs = .next u → step u a = .next v → Returned u v

/-- The step does not find a missing block of a swap file. -/
def Mapped (s : State) : Act → Prop
  | .call _ _ => True
  | .go t => ∀ nr i, s.pc t = .mapping nr i → zone s nr i ≠ 0

/-! ### Updates -/

variable {s s' : State} {t u : Task} {c : Call} {x : Nat × Nat} {nr i : Nat} {pc : Pc} {a : Act}

theorem bit_putBit (s : State) (x y : Nat × Nat) (v : Bool) :
    (s.putBit x v).bit y = if y = x then v else s.bit y := by
  unfold State.putBit State.setInfo State.bit
  by_cases h1 : y.1 = x.1
  · by_cases h2 : y.2 = x.2
    · have h : y = x := Prod.ext h1 h2
      rw [if_pos h, h]
      simp
    · rw [if_neg fun h => h2 (congrArg Prod.snd h), h1]
      simp [h2]
  · rw [if_neg fun h => h1 (congrArg Prod.fst h)]
    simp [h1]

@[simp] theorem putBit_pc (v : Bool) : (s.putBit x v).pc = s.pc := rfl
@[simp] theorem setPc_self : (s.setPc t pc).pc t = pc := by
  simp [State.setPc]
theorem setPc_of_ne (h : u ≠ t) : (s.setPc t pc).pc u = s.pc u := by
  simp [State.setPc, h]

theorem countFree_bit (s : State) (nr : Nat) (x : Nat × Nat) :
    (countFree s nr).bit x = s.bit x := by
  unfold countFree State.setInfo State.bit
  by_cases h : x.1 = (slotOf nr).1
  · rw [h]
    simp
  · simp [h]

theorem woken_holds (pc : Pc) : pc.woken.holds = pc.holds := by
  cases pc <;> rfl

theorem wakeUp_holds (s : State) (u : Task) : ((wakeUp s).pc u).holds = (s.pc u).holds := by
  unfold wakeUp
  dsimp only
  split
  next => exact woken_holds _
  next => rfl

/-! ### The invariant -/

structure Inv (s : State) : Prop where
  holders : Holders (fun t => (s.pc t).holds) fun x => s.bit x = true
  held : ∀ x, s.bit x = true → ∃ t, (s.pc t).holds = some x
  queued : ∀ t c, s.pc t = .asleep c → t ∈ s.lockQueue
  waiting : ∀ t c, s.pc t = .asleep c → s.bit c.slot = true

theorem Inv.sound (h : Inv s) : Sound s where
  cleared := h.held
  one := h.holders.one
  waiting := fun t c ht => h.held _ (h.waiting t c ht)

theorem Idle.inv (h : Idle s) : Inv s where
  holders :=
    ⟨fun t x ht => by simp [h.out t, Pc.holds] at ht, fun t u x ht => by
      simp [h.out t, Pc.holds] at ht⟩
  held := fun x hx => by simp [h.clear x] at hx
  queued := fun t c ht => by simp [h.out t] at ht
  waiting := fun t c ht => by simp [h.out t] at ht

/-- A task goes on without a change to what it holds, and does not fall asleep. -/
theorem Inv.setPc (h : Inv s) (hpc : pc.holds = (s.pc t).holds) (hawake : ∀ c, pc ≠ .asleep c) :
    Inv (s.setPc t pc) := by
  have hholds : ∀ u, ((s.setPc t pc).pc u).holds = (s.pc u).holds := by
    intro u
    by_cases hu : u = t
    · rw [hu, setPc_self, hpc]
    · rw [setPc_of_ne hu]
  have hasleep : ∀ u c, (s.setPc t pc).pc u = .asleep c → s.pc u = .asleep c := by
    intro u c hu
    by_cases hut : u = t
    · rw [hut, setPc_self] at hu
      exact absurd hu (hawake c)
    · rwa [setPc_of_ne hut] at hu
  refine ⟨h.holders.keep hholds fun _ _ _ hb => hb, fun x hx => ?_, fun u c hu => ?_,
    fun u c hu => h.waiting u c (hasleep u c hu)⟩
  · obtain ⟨u, hu⟩ := h.held x hx
    exact ⟨u, (hholds u).trans hu⟩
  · exact h.queued u c (hasleep u c hu)

theorem Inv.enter (h : Inv s) (ht : s.pc t = .out) (c : Call) : Inv (enter s t c) := by
  have hgo : Inv (s.setPc t (.testing c)) := h.setPc (by rw [ht]; rfl) fun c' hc => by cases hc
  unfold SwapLocks.enter
  cases c with
  | rwSwapPage nr =>
      dsimp only
      split
      next => exact hgo
      next => exact h
  | swapFree nr =>
      dsimp only
      split
      next => exact hgo
      next => exact h

theorem locked_holds (s : State) (c : Call) : (locked s c).holds = some c.slot := by
  cases c with
  | rwSwapPage nr =>
      dsimp only [locked]
      split_ifs <;> rfl
  | swapFree nr => rfl

/-- The task takes the lock, or waits for the one who has it. -/
theorem Inv.test (h : Inv s) (ht : s.pc t = .testing c) : Inv (test s t c) := by
  have hnone : (s.pc t).holds = none := by rw [ht]; rfl
  unfold SwapLocks.test
  split
  next hset =>
    have hholds : ∀ u, ((s.setPc t (.asleep c)).pc u).holds = (s.pc u).holds := by
      intro u
      by_cases hu : u = t
      · rw [hu, setPc_self, hnone]
        rfl
      · rw [setPc_of_ne hu]
    refine ⟨h.holders.keep hholds fun _ _ _ hb => hb, fun x hx => ?_, fun u c' hu => ?_,
      fun u c' hu => ?_⟩
    · obtain ⟨u, hu⟩ := h.held x hx
      exact ⟨u, (hholds u).trans hu⟩
    · by_cases hut : u = t
      · exact hut ▸ List.mem_cons_self
      · exact List.mem_cons_of_mem t (h.queued u c' ((setPc_of_ne hut).symm.trans hu))
    · by_cases hut : u = t
      · obtain rfl : c = c' := Pc.asleep.inj (setPc_self.symm.trans (hut ▸ hu))
        exact hset
      · exact h.waiting u c' ((setPc_of_ne hut).symm.trans hu)
  next hclear =>
    have hself : (((s.putBit c.slot true).setPc t (locked s c)).pc t).holds = some c.slot := by
      rw [setPc_self, locked_holds]
    have hother : ∀ u, u ≠ t →
        (((s.putBit c.slot true).setPc t (locked s c)).pc u).holds = (s.pc u).holds := by
      intro u hu
      rw [setPc_of_ne hu, putBit_pc]
    have hasleep : ∀ u c', ((s.putBit c.slot true).setPc t (locked s c)).pc u = .asleep c' →
        s.pc u = .asleep c' := by
      intro u c' hu
      by_cases hut : u = t
      · rw [hut] at hu
        rw [hu] at hself
        cases hself
      · exact (setPc_of_ne hut).symm.trans hu
    have hbit : ∀ y, ((s.putBit c.slot true).setPc t (locked s c)).bit y =
        if y = c.slot then true else s.bit y := fun y => bit_putBit s c.slot y true
    have hmono : ∀ y, s.bit y = true →
        ((s.putBit c.slot true).setPc t (locked s c)).bit y = true := by
      intro y hy
      rw [hbit]
      split
      next => rfl
      next => exact hy
    refine ⟨h.holders.take (fun u _ => h.holders.free hclear u) hself hother ?_
      fun _ y _ _ hy => hmono y hy, fun x hx => ?_, fun u c' hu => h.queued u c' (hasleep u c' hu),
      fun u c' hu => hmono _ (h.waiting u c' (hasleep u c' hu))⟩
    · rw [hbit, if_pos rfl]
    · rw [hbit] at hx
      by_cases hxc : x = c.slot
      · exact ⟨t, hxc ▸ hself⟩
      · rw [if_neg hxc] at hx
        obtain ⟨u, hu⟩ := h.held x hx
        refine ⟨u, (hother u ?_).trans hu⟩
        rintro rfl
        rw [hnone] at hu
        cases hu

theorem unlock_bit (s : State) (t : Task) (nr : Nat) (x : Nat × Nat) :
    (unlock s t nr).bit x = if x = slotOf nr then false else s.bit x :=
  bit_putBit s (slotOf nr) x false

theorem unlock_holds (s : State) (t : Task) (nr : Nat) (u : Task) :
    ((unlock s t nr).pc u).holds = if u = t then none else (s.pc u).holds := by
  rw [unlock, wakeUp_holds]
  by_cases hu : u = t
  · rw [hu, setPc_self, if_pos rfl]
    rfl
  · rw [setPc_of_ne hu, if_neg hu, putBit_pc]

/-- No one sleeps behind the release: everyone asleep is in the queue. -/
theorem unlock_awake (h : ∀ u c, s.pc u = .asleep c → u ∈ s.lockQueue) (t : Task) (nr : Nat)
    (u : Task) (c : Call) : (unlock s t nr).pc u ≠ .asleep c := by
  intro hu
  unfold unlock wakeUp at hu
  dsimp only at hu
  split at hu
  next =>
    cases hpc : ((s.putBit (slotOf nr) false).setPc t .out).pc u <;>
      · rw [hpc] at hu
        cases hu
  next hq =>
    by_cases hut : u = t
    · rw [hut, setPc_self] at hu
      cases hu
    · rw [setPc_of_ne hut, putBit_pc] at hu
      exact hq (h u c hu)

/-- The task that holds a slot releases it. -/
theorem Inv.unlock (h : Inv s) (ht : (s.pc t).holds = some (slotOf nr)) : Inv (unlock s t nr) := by
  have hawake := unlock_awake h.queued t nr
  refine ⟨h.holders.drop (t := t) ?_ (fun u hu => ?_) fun u x hu hx hne hb => ?_, fun x hx => ?_,
    fun u c hu => absurd hu (hawake u c), fun u c hu => absurd hu (hawake u c)⟩
  · rw [unlock_holds, if_pos rfl]
  · rw [unlock_holds, if_neg hu]
  · have hxn : x ≠ slotOf nr := by
      rintro rfl
      exact hne ht
    rw [unlock_bit, if_neg hxn]
    exact hb
  · rw [unlock_bit] at hx
    by_cases hxn : x = slotOf nr
    · rw [if_pos hxn] at hx
      cases hx
    · rw [if_neg hxn] at hx
      obtain ⟨u, hu⟩ := h.held x hx
      refine ⟨u, ?_⟩
      rw [unlock_holds, if_neg]
      · exact hu
      · rintro rfl
        exact hxn (Option.some.inj (hu.symm.trans ht))

theorem Inv.countFree (h : Inv s) (nr : Nat) : Inv (countFree s nr) where
  holders := h.holders.keep (fun _ => rfl) fun _ x _ hx => (countFree_bit s nr x).trans hx
  held := fun x hx => h.held x ((countFree_bit s nr x).symm.trans hx)
  queued := h.queued
  waiting := fun t c ht => (countFree_bit s nr _).trans (h.waiting t c ht)

/-- A release ends in a state with the bit cleared and nobody asleep. -/
theorem returned_unlock (h : Inv s) (ht : (s.pc t).holds = some (slotOf nr))
    (hpc : s'.pc = s.pc) (hq : s'.lockQueue = s.lockQueue) :
    Returned s (unlock s' t nr) := by
  intro u x hu hnone
  rw [unlock_holds, hpc] at hnone
  have hut : u = t := by
    by_contra hne
    rw [if_neg hne, hu] at hnone
    cases hnone
  have hx : x = slotOf nr := Option.some.inj (hu.symm.trans (hut ▸ ht))
  refine ⟨by rw [unlock_bit, if_pos hx], unlock_awake (fun w c hw => ?_) t nr⟩
  rw [hq]
  rw [hpc] at hw
  exact h.queued w c hw

/-- A step that changes nobody's lock ends no call. -/
theorem returned_of_keeps (h : ∀ u x, (s.pc u).holds = some x → (s'.pc u).holds = some x) :
    Returned s s' := by
  intro u x hu hnone
  rw [h u x hu] at hnone
  cases hnone

theorem setPc_keeps (hpc : pc.holds = (s.pc t).holds) (u : Task) :
    ((s.setPc t pc).pc u).holds = (s.pc u).holds := by
  by_cases hu : u = t
  · rw [hu, setPc_self, hpc]
  · rw [setPc_of_ne hu]

/-! ### Steps and runs -/

theorem mapBlock_eq (h : zone s nr i ≠ 0) :
    ∃ pc, mapBlock s t nr i = s.setPc t pc ∧ pc.holds = some (slotOf nr) ∧
      ∀ c, pc ≠ .asleep c := by
  unfold mapBlock
  rw [if_neg h]
  split
  next => exact ⟨_, rfl, rfl, fun c hc => by cases hc⟩
  next => exact ⟨_, rfl, rfl, fun c hc => by cases hc⟩

/-- A step that finds no missing block keeps the invariant, and a call that it ends has released
its slot. -/
theorem Inv.step (h : Inv s) (hok : Mapped s a) (hs : SwapLocks.step s a = .next s') :
    Inv s' ∧ Returned s s' := by
  cases a with
  | call t c =>
      cases ht : s.pc t <;> simp only [SwapLocks.step, ht] at hs <;> try cases hs
      refine ⟨h.enter ht c, returned_of_keeps fun u x hu => ?_⟩
      have hkeep : ((s.setPc t (.testing c)).pc u).holds = (s.pc u).holds :=
        setPc_keeps (by rw [ht]; rfl) u
      unfold SwapLocks.enter
      cases c with
      | rwSwapPage nr =>
          dsimp only
          split
          next => exact hkeep.trans hu
          next => exact hu
      | swapFree nr =>
          dsimp only
          split
          next => exact hkeep.trans hu
          next => exact hu
  | go t =>
      cases ht : s.pc t with
      | out => simp only [SwapLocks.step, ht] at hs; cases hs
      | asleep c => simp only [SwapLocks.step, ht] at hs; cases hs
      | testing c =>
          simp only [SwapLocks.step, ht] at hs
          cases hs
          refine ⟨h.test ht, returned_of_keeps fun u x hu => ?_⟩
          have hut : u ≠ t := by
            rintro rfl
            rw [ht] at hu
            cases hu
          unfold SwapLocks.test
          split
          next => exact (congrArg Pc.holds (setPc_of_ne hut)).trans hu
          next => exact (congrArg Pc.holds (setPc_of_ne hut)).trans hu
      | mapping nr i =>
          simp only [SwapLocks.step, ht] at hs
          cases hs
          obtain ⟨pc, heq, hholds, hawake⟩ := mapBlock_eq (t := t) (hok nr i ht)
          have hpc : pc.holds = (s.pc t).holds := by rw [hholds, ht]; rfl
          rw [heq]
          exact ⟨h.setPc hpc hawake, returned_of_keeps fun u x hu => (setPc_keeps hpc u).trans hu⟩
      | ending nr =>
          simp only [SwapLocks.step, ht] at hs
          cases hs
          have hholds : (s.pc t).holds = some (slotOf nr) := by rw [ht]; rfl
          exact ⟨h.unlock hholds, returned_unlock h hholds rfl rfl⟩
      | freeing nr =>
          simp only [SwapLocks.step, ht] at hs
          cases hs
          have hholds : (s.pc t).holds = some (slotOf nr) := by rw [ht]; rfl
          exact ⟨(h.countFree nr).unlock hholds,
            returned_unlock h hholds rfl rfl⟩

/-- Where a step finds a missing block, a bit stays set that nobody holds. -/
theorem Inv.not_sound (h : Inv s) (hbad : ¬ Mapped s a) (hs : SwapLocks.step s a = .next s') :
    ¬ Sound s' := by
  intro hsound
  cases a with
  | call t c => exact hbad trivial
  | go t =>
      unfold Mapped at hbad
      obtain ⟨nr, i, ht, hzone⟩ : ∃ nr i, s.pc t = .mapping nr i ∧ zone s nr i = 0 := by
        simpa using hbad
      simp only [SwapLocks.step, ht] at hs
      cases hs
      rw [mapBlock, if_pos hzone] at hsound
      have hholds : (s.pc t).holds = some (slotOf nr) := by rw [ht]; rfl
      obtain ⟨u, hu⟩ := hsound.cleared (slotOf nr) (h.holders.marked t _ hholds)
      by_cases hut : u = t
      · rw [hut, setPc_self] at hu
        cases hu
      · rw [setPc_of_ne hut] at hu
        exact hut (h.holders.one u t _ hu hholds)

theorem sound_iff {as : List Act} (h₀ : Idle s) (hrun : run step s as = .next s') :
    (∀ bs, bs <+: as → ∀ u, run step s bs = .next u → Sound u) ↔ RunOk step Mapped s as :=
  RunOk.iff_prefixes_of (P := Inv) (fun _ h => h.sound)
    (fun _ _ _ ht hs => ⟨fun hok => (ht.step hok hs).1, fun hsound => by
      by_contra hbad
      exact ht.not_sound hbad hs hsound⟩) h₀.inv hrun

/-- **Swap slots do not stay locked** in a run if and only if no step of it finds a missing
block of a swap file. -/
theorem released_iff (s s' : State) (as : List Act) (h₀ : Idle s)
    (hrun : run step s as = .next s') : Released s as ↔ RunOk step Mapped s as := by
  have hsound := sound_iff h₀ hrun
  refine ⟨fun h => hsound.mp h.1, fun hok => ⟨hsound.mpr hok, ?_⟩⟩
  intro bs a hpre u v hu hv
  have hbs : bs <+: as := (List.prefix_append bs [a]).trans hpre
  have hinv : Inv u := (Reaches.of_run hu (hok.of_prefix hbs)).invariant h₀.inv
    fun w b w' hw hokb hs => (hw.step hokb hs).1
  exact (hinv.step ((hok.of_prefix hpre).last hu) hv).2

/-- One area in a file, without slots in use. -/
def swapFileArea (bmap : Nat → Nat) : SwapInfo :=
  ⟨3, some bmap, 0, fun _ => 1, fun _ => false, 1, 100⟩

def fileSystem (bmap : Nat → Nat) : State :=
  ⟨1, fun _ => swapFileArea bmap, [], fun _ => .out⟩

theorem idle_fileSystem (bmap : Nat → Nat) : Idle (fileSystem bmap) := ⟨fun _ => rfl, fun _ => rfl⟩

/-- Two tasks write one slot; the second one waits for the first. -/
def twoWrites : List Act :=
  [.call 1 (.rwSwapPage 1), .call 2 (.rwSwapPage 1), .go 1, .go 2, .go 1, .go 1, .go 1, .go 1,
    .go 1, .go 2]

theorem released_iff_twoWrites :
    Released (fileSystem fun b => b + 1) twoWrites ↔
      RunOk step Mapped (fileSystem fun b => b + 1) twoWrites :=
  released_iff _ _ twoWrites (idle_fileSystem _)
    (Outcome.eq_next (by decide) (fileSystem fun b => b + 1))

/-- The write of a slot whose first block is missing. -/
def holeWrite : List Act := [.call 1 (.rwSwapPage 1), .go 1, .go 1]

/-- A slot with a missing block stays locked. -/
theorem not_released :
    ¬ ∀ (s s' : State) (as : List Act), Idle s → run step s as = .next s' → Released s as := by
  intro h
  have hrun := Outcome.eq_next (o := run step (fileSystem fun _ => 0) holeWrite) (by decide)
    (fileSystem fun _ => 0)
  have hok := (sound_iff (idle_fileSystem _) hrun).mp (h _ _ holeWrite (idle_fileSystem _) hrun).1
  exact ((hok.2 _ rfl).2 _ rfl).1 1 0 rfl rfl

end LinuxKernel.V098.Mm.SwapLocks
