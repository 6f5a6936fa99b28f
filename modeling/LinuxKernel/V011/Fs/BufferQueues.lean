import LinuxKernel.Lib.Cycle
import LinuxKernel.V011.Fs.BufferIndex

/-!
# LinuxKernel.V011.Fs.BufferQueues

**The buffer queues are well formed** after `buffer_init` and any pairs of
`remove_from_queues` and `insert_into_queues`, as the end of `getblk` makes
them, whatever the device and the block.

- A hash queue may have two buffers for one block here: nobody looks for the block first.
- The free list is one circle in both directions with all the buffers.
- `insert_into_queues` stores through the `b_next` it has just read from the head of the
  hash queue, which is `NULL` when the queue is empty. `nullStore` says that it has.
-/

namespace LinuxKernel.V011.Fs

variable {n : Nat}

namespace Cache

/-- The last store of `insert_into_queues` goes through `NULL`. -/
def storesNull (c : Cache n) (b : Fin n) : Bool :=
  c.dev b ≠ 0 && (c.hashTable (hashfn (c.dev b) (c.blocknr b))).isNone

/-- The free list, starting at `free_list`. -/
def FreeCircle (c : Cache n) (l : List (Fin n)) : Prop :=
  l.Nodup ∧ (∀ b, b ∈ l) ∧ DoubleCycle c.nextFree c.prevFree l ∧ c.freeList = l.head?

structure WellFormed (c : Cache n) : Prop where
  /-- Each hash queue is linked both ways, ends with `NULL` both ways, and has exactly the
  buffers with a device that hash to it. -/
  hash : Queued c.next c.prev c.hashTable c.queue
  free : ∃ l, c.FreeCircle l

end Cache

namespace BufferQueues

/-- The end of `getblk(dev, block)`, with `bh` as the buffer found. -/
structure Act (n : Nat) where
  bh : Fin n
  dev : Dev
  block : BlockNr

structure State (n : Nat) where
  cache : Cache n
  nullStore : Bool

/-- `remove_from_queues(bh)`, the new device and block, and `insert_into_queues(bh)`. -/
def step (s : State n) (a : Act n) : Outcome (State n) :=
  let c := { s.cache with
    count := Function.update s.cache.count a.bh 1
    dirt := Function.update s.cache.dirt a.bh false
    uptodate := Function.update s.cache.uptodate a.bh false }
  (c.removeFromQueues a.bh).bind fun c =>
    let c := { c with
      dev := Function.update c.dev a.bh a.dev
      blocknr := Function.update c.blocknr a.bh a.block }
    (c.insertIntoQueues a.bh).bind fun c' =>
      .next ⟨c', s.nullStore || c.storesNull a.bh⟩

/-- After `buffer_init`. -/
def initial (n : Nat) (disk : Dev → BlockNr → Block) (data : Fin n → Block) : State n :=
  ⟨bufferInit n disk data, false⟩

/-- The queues are well formed, and nothing was stored through `NULL`. -/
def Sound (s : State n) : Prop := s.cache.WellFormed ∧ s.nullStore = false

end BufferQueues

/-! ### The free list -/

namespace Cache

variable {c : Cache n} {b f : Fin n} {l : List (Fin n)}

/-- A buffer off the free list; the last one stays linked to itself. -/
theorem removeFromQueues_free (h : c.FreeCircle l) (b : Fin n) :
    ∃ prevFree nextFree freeList, c.removeFromQueues b = .next
        { c.unhash b with prevFree := prevFree, nextFree := nextFree, freeList := freeList } ∧
      ((l.erase b = [] ∧ freeList = some b ∧ prevFree b = some b) ∨
        ∃ f l', l.erase b = f :: l' ∧ freeList = some f ∧ DoubleCycle nextFree prevFree (f :: l')) := by
  obtain ⟨hnd, hall, hcircle, hhead⟩ := h
  obtain ⟨l₁, l₂, rfl⟩ := List.append_of_mem (hall b)
  have hb : b ∉ l₁ := fun hb =>
    (List.disjoint_of_nodup_append hnd) hb List.mem_cons_self
  have herase : (l₁ ++ b :: l₂).erase b = l₁ ++ l₂ := by
    rw [List.erase_append_right _ hb, List.erase_cons_head]
  have hrot : DoubleCycle c.nextFree c.prevFree (b :: (l₂ ++ l₁)) := hcircle.rotate
  have hnd' : (b :: (l₂ ++ l₁)).Nodup := by
    have hperm : (l₁ ++ b :: l₂).Perm (b :: l₂ ++ l₁) := List.perm_append_comm
    exact hperm.nodup_iff.mp hnd
  have hnext := hrot.next_head
  have hprev := hrot.prev_head
  have hnull : ¬(((c.unhash b).prevFree b).isNone ∨ ((c.unhash b).nextFree b).isNone) := by
    change ¬((c.prevFree b).isNone ∨ (c.nextFree b).isNone)
    rw [hnext, hprev]
    simp
  rw [removeFromQueues, if_neg hnull, herase]
  refine ⟨_, _, _, rfl, ?_⟩
  change (l₁ ++ l₂ = [] ∧ (if c.freeList = some b then storeAt c.nextFree (c.prevFree b)
      (c.nextFree b) b else c.freeList) = some b ∧ _) ∨ ∃ f l', l₁ ++ l₂ = f :: l' ∧
        (if c.freeList = some b then storeAt c.nextFree (c.prevFree b) (c.nextFree b) b
          else c.freeList) = some f ∧ _
  by_cases hl : l₁ ++ l₂ = []
  · left
    obtain ⟨rfl, rfl⟩ := List.append_eq_nil_iff.mp hl
    have hn : c.nextFree b = some b := hnext
    have hp : c.prevFree b = some b := hprev
    have hnb : storeAt c.nextFree (c.prevFree b) (c.nextFree b) b = some b := by
      rw [storeAt_apply, hn, ite_self]
    refine ⟨rfl, ?_, ?_⟩
    · have hfree : c.freeList = some b := hhead
      rw [hnb, if_pos hfree]
    · change storeAt c.prevFree (storeAt c.nextFree (c.prevFree b) (c.nextFree b) b) (c.prevFree b) b
        = some b
      rw [storeAt_apply, hp, ite_self]
  · right
    obtain ⟨f, l', hfl⟩ := List.exists_cons_of_ne_nil hl
    have hl' : l₂ ++ l₁ ≠ [] := fun he => hl (by
      obtain ⟨rfl, rfl⟩ := List.append_eq_nil_iff.mp he
      rfl)
    have hpb : c.prevFree b ≠ some b := fun he => by
      have hmem : b ∈ l₂ ++ l₁ := by
        rw [hprev] at he
        cases hlast : (l₂ ++ l₁).getLast? with
        | none => exact absurd (List.getLast?_eq_none_iff.mp hlast) hl'
        | some z =>
            rw [hlast] at he
            exact Option.some.inj he ▸ List.mem_of_getLast? hlast
      exact (List.nodup_cons.mp hnd').1 hmem
    have hnb : storeAt c.nextFree (c.prevFree b) (c.nextFree b) b = c.nextFree b := by
      rw [storeAt_apply, if_neg hpb]
    refine ⟨f, l', hfl, ?_, ?_⟩
    · rw [hnb]
      cases l₁ with
      | nil =>
          have hfree : c.freeList = some b := hhead
          rw [if_pos hfree, hnext]
          rw [List.nil_append] at hfl
          rw [List.append_nil, hfl]
          rfl
      | cons g l₁ =>
          rw [List.cons_append, List.cons.injEq] at hfl
          have hgb : c.freeList ≠ some b := by
            rw [hhead]
            intro he
            exact hb (Option.some.inj he ▸ List.mem_cons_self)
          rw [if_neg hgb, hhead, ← hfl.1]
          rfl
    · rw [← hfl]
      refine DoubleCycle.rotate (hrot.remove hl' hnd' (fun a ha => ?_) (fun a hab ha => ?_)
        (fun a ha => ?_) fun a hab ha => ?_)
      · change storeAt c.nextFree (c.prevFree b) (c.nextFree b) a = _
        rw [storeAt_apply, if_pos ha]
      · change storeAt c.nextFree (c.prevFree b) (c.nextFree b) a = _
        rw [storeAt_apply, if_neg ha]
      · change storeAt c.prevFree (storeAt c.nextFree (c.prevFree b) (c.nextFree b) b)
          (c.prevFree b) a = _
        rw [hnb, storeAt_apply, if_pos ha]
      · change storeAt c.prevFree (storeAt c.nextFree (c.prevFree b) (c.nextFree b) b)
          (c.prevFree b) a = _
        rw [hnb, storeAt_apply, if_neg ha]

/-- What `insert_into_queues` does, if the free list has a buffer before its first one. -/
theorem insertIntoQueues_eq {z : Fin n} (hf : c.freeList = some f) (hz : c.prevFree f = some z) :
    c.insertIntoQueues b = .next { c.rehash b with
      nextFree := storeAt (Function.update c.nextFree b (some f))
        (Function.update c.prevFree b (some z) f) (some b)
      prevFree := Function.update (Function.update c.prevFree b (some z)) f (some b) } := by
  rw [insertIntoQueues]
  split
  · next hnone =>
    rw [hf] at hnone
    cases hnone
  · next g hg =>
    obtain rfl : f = g := Option.some.inj (hf.symm.trans hg)
    have hnull : ¬(c.prevFree f).isNone := by
      rw [hz]
      exact Bool.false_ne_true
    rw [if_neg hnull]
    dsimp only
    rw [hz, rehash, rehash]
    split <;> rfl

/-- The only buffer goes back on the free list. -/
theorem insertIntoQueues_alone (hf : c.freeList = some b) (hp : c.prevFree b = some b) :
    ∃ prevFree nextFree, c.insertIntoQueues b = .next
        { c.rehash b with prevFree := prevFree, nextFree := nextFree } ∧
      DoubleCycle nextFree prevFree [b] := by
  refine ⟨_, _, insertIntoQueues_eq hf hp, ⟨?_, True.intro⟩, ?_, True.intro⟩
  · rw [storeAt_apply, Function.update_self, if_pos rfl]
    rfl
  · rw [Function.update_self]
    rfl

/-- A buffer goes to the end of the free list. -/
theorem insertIntoQueues_free (hf : c.freeList = some f)
    (hc : DoubleCycle c.nextFree c.prevFree (f :: l)) (hb : b ∉ f :: l) (hnd : (f :: l).Nodup) :
    ∃ prevFree nextFree, c.insertIntoQueues b = .next
        { c.rehash b with prevFree := prevFree, nextFree := nextFree } ∧
      DoubleCycle nextFree prevFree (f :: l ++ [b]) := by
  have hbf : b ≠ f := fun he => hb (he ▸ List.mem_cons_self)
  obtain ⟨z, hz⟩ : ∃ z, c.prevFree f = some z := by
    rw [hc.prev_head]
    cases l.getLast? with
    | none => exact ⟨f, rfl⟩
    | some z => exact ⟨z, rfl⟩
  refine ⟨_, _, insertIntoQueues_eq hf hz, hc.insert hb hnd ?_ (fun a ha => ?_)
    (fun a hab ha => ?_) ?_ (Function.update_self ..) fun a hab haf => ?_⟩
  · rw [storeAt_apply, Function.update_of_ne hbf.symm, Function.update_self]
    split
    · next he =>
      -- `b` is not the last one
      have hmem : b ∈ f :: l := by
        rw [hc.prev_head] at he
        cases hlast : l.getLast? with
        | none =>
            rw [hlast] at he
            exact absurd (Option.some.inj he).symm hbf
        | some y =>
            rw [hlast] at he
            obtain rfl : y = b := Option.some.inj he
            exact List.mem_cons_of_mem f (List.mem_of_getLast? hlast)
      exact absurd hmem hb
    · rfl
  · rw [storeAt_apply, Function.update_of_ne hbf.symm, if_pos ha]
  · rw [storeAt_apply, Function.update_of_ne hbf.symm, if_neg ha, Function.update_of_ne hab]
  · rw [Function.update_of_ne hbf, Function.update_self, hz]
  · rw [Function.update_of_ne haf, Function.update_of_ne hab]

end Cache

/-! ### The invariant -/

namespace BufferQueues

open Cache

variable {s s' : State n} {c : Cache n} {a : Act n} {as : List (Act n)}

structure Inv (c : Cache n) : Prop where
  wellFormed : c.WellFormed
  unlinked : Unlinked c.next c.prev c.queue

/-- The queue that the buffer goes to is empty, once it is off its old one. -/
def ToEmpty (c : Cache n) (a : Act n) : Prop :=
  a.dev ≠ 0 ∧ (c.unhash a.bh).hashTable (hashfn a.dev a.block) = none

/-- A pair keeps the queues well formed, and stores through `NULL` if it puts the buffer on
an empty queue. -/
theorem Inv.step (h : Inv s.cache) (a : Act n) :
    ∃ s', step s a = .next s' ∧ Inv s'.cache ∧
      s'.cache.dev = Function.update s.cache.dev a.bh a.dev ∧
      (s'.nullStore = true ↔ s.nullStore = true ∨ ToEmpty s.cache a) := by
  obtain ⟨l, hfree⟩ := h.wellFormed.free
  set c₀ : Cache n := { s.cache with
    count := Function.update s.cache.count a.bh 1
    dirt := Function.update s.cache.dirt a.bh false
    uptodate := Function.update s.cache.uptodate a.bh false } with hc₀
  obtain ⟨pf, nf, fl, hremove, hlist⟩ := removeFromQueues_free (c := c₀) hfree a.bh
  set c₂ : Cache n := { c₀.unhash a.bh with
    prevFree := pf
    nextFree := nf
    freeList := fl
    dev := Function.update s.cache.dev a.bh a.dev
    blocknr := Function.update s.cache.blocknr a.bh a.block } with hc₂
  obtain ⟨pf', nf', hinsert, l', hl'⟩ : ∃ pf' nf', c₂.insertIntoQueues a.bh = .next
        { c₂.rehash a.bh with prevFree := pf', nextFree := nf' } ∧
      ∃ l', l'.Nodup ∧ (∀ b, b ∈ l') ∧ DoubleCycle nf' pf' l' ∧ fl = l'.head? := by
    obtain ⟨hnd, hall, -, -⟩ := hfree
    have hsplit : ∀ b, b = a.bh ∨ b ∈ l.erase a.bh := fun b =>
      or_iff_not_imp_left.mpr fun hb => (List.mem_erase_of_ne hb).mpr (hall b)
    rcases hlist with ⟨hnil, hfl, hpf⟩ | ⟨f, l', hl', hfl, hcircle⟩
    · obtain ⟨pf', nf', hins, hcircle⟩ := insertIntoQueues_alone (c := c₂) hfl hpf
      refine ⟨pf', nf', hins, [a.bh], List.nodup_singleton _, fun b => ?_, hcircle, hfl⟩
      rcases hsplit b with rfl | hb
      · exact List.mem_singleton_self _
      · rw [hnil] at hb
        cases hb
    · have hnot : a.bh ∉ f :: l' := hl' ▸ hnd.not_mem_erase
      have hnd' : (f :: l').Nodup := hl' ▸ hnd.erase a.bh
      obtain ⟨pf', nf', hins, hcircle'⟩ :=
        insertIntoQueues_free (c := c₂) hfl hcircle hnot hnd'
      refine ⟨pf', nf', hins, f :: l' ++ [a.bh], ?_, fun b => ?_, hcircle', hfl⟩
      · exact (List.perm_append_singleton _ _).nodup_iff.mpr (List.nodup_cons.mpr ⟨hnot, hnd'⟩)
      · rcases hsplit b with rfl | hb
        · exact List.mem_append_right _ (List.mem_singleton_self _)
        · exact List.mem_append_left _ (hl' ▸ hb)
  have hqueue : ∀ b, b ≠ a.bh → c₂.queue b = c₀.queue b := fun b hab => by
    simp only [hc₂, hc₀, queue, Function.update_of_ne hab]
  obtain ⟨hq, hu⟩ := reassign_queued (c := c₀) c₂ h.wellFormed.hash h.unlinked rfl rfl rfl
    hqueue
  have hqueue' : Cache.queue { c₂.rehash a.bh with prevFree := pf', nextFree := nf' } =
      c₂.queue := by
    funext b
    simp only [queue, rehash_dev, rehash_blocknr]
  refine ⟨⟨{ c₂.rehash a.bh with prevFree := pf', nextFree := nf' },
    s.nullStore || c₂.storesNull a.bh⟩, ?_, ⟨⟨?_, l', hl'.1, hl'.2.1, hl'.2.2.1, ?_⟩, ?_⟩,
    rehash_dev, ?_⟩
  · rw [BufferQueues.step, ← hc₀, hremove]
    change (c₂.insertIntoQueues a.bh).bind _ = _
    rw [hinsert]
    rfl
  · exact hqueue' ▸ hq
  · exact rehash_freeList.trans hl'.2.2.2
  · exact hqueue' ▸ hu
  · change (s.nullStore || c₂.storesNull a.bh) = true ↔ _
    have hdev : c₂.dev a.bh = a.dev := Function.update_self ..
    have hblock : c₂.blocknr a.bh = a.block := Function.update_self ..
    have htable : c₂.hashTable = (s.cache.unhash a.bh).hashTable := rfl
    rw [Bool.or_eq_true, storesNull, hdev, hblock, htable, Bool.and_eq_true, decide_eq_true_eq,
      Option.isNone_iff_eq_none]
    rfl

/-! ### Runs -/

/-- No buffer has a device. -/
def Blank (c : Cache n) : Prop := ∀ b, c.dev b = 0

theorem Blank.hashTable (h : Blank c) (hc : Inv c) (i : Nat) : c.hashTable i = none := by
  cases ht : c.hashTable i with
  | none => rfl
  | some b => exact absurd (h b) (queue_eq_some.mp (hc.wellFormed.hash.head_key ht)).1

/-- The first buffer that gets a device goes to an empty queue. -/
theorem Blank.toEmpty_iff (h : Blank c) (hc : Inv c) : ToEmpty c a ↔ a.dev ≠ 0 := by
  refine and_iff_left ?_
  rw [unhash_hashTable, h.hashTable hc, if_neg]
  exact fun he => nomatch he.2

theorem run_inv (h : Inv s.cache) (as : List (Act n)) :
    ∃ s', run step s as = .next s' ∧ Inv s'.cache ∧ (s.nullStore = true → s'.nullStore = true) ∧
      (Blank s.cache → s.nullStore = false → (s'.nullStore = false ↔ ∀ a ∈ as, a.dev = 0)) := by
  induction as generalizing s with
  | nil => exact ⟨s, rfl, h, id, fun _ hs => ⟨fun _ a ha => absurd ha List.not_mem_nil, fun _ => hs⟩⟩
  | cons a as ih =>
      obtain ⟨s₁, hs₁, h₁, hdev, hnull⟩ := h.step a
      obtain ⟨s', hs', hinv, hkeep, hblank⟩ := ih h₁
      refine ⟨s', by rw [run, hs₁]; exact hs', hinv, fun ht => hkeep (hnull.mpr (Or.inl ht)),
        fun hb hs => ?_⟩
      rw [hb.toEmpty_iff h, hs, or_iff_right Bool.false_ne_true] at hnull
      rw [List.forall_mem_cons]
      by_cases h0 : a.dev = 0
      · have hb₁ : Blank s₁.cache := fun b => by
          rw [hdev, Function.update_apply]
          split
          · exact h0
          · exact hb b
        have hs₁' : s₁.nullStore = false := by
          rw [← Bool.not_eq_true, hnull]
          exact fun hne => hne h0
        rw [hblank hb₁ hs₁']
        exact (and_iff_right h0).symm
      · rw [hkeep (hnull.mpr h0)]
        exact ⟨fun he => absurd he.symm Bool.false_ne_true, fun hall => absurd hall.1 h0⟩

/-! ### `buffer_init` -/

theorem freeCircle_bufferInit (disk : Dev → BlockNr → Block) (data : Fin n → Block) :
    (bufferInit n disk data).FreeCircle (List.finRange n) := by
  refine ⟨List.nodup_finRange n, List.mem_finRange, ⟨?_, ?_⟩, ?_⟩
  · refine path_iff_getElem.mpr fun i hi => ?_
    rw [List.length_finRange] at hi
    rw [List.getElem_finRange]
    simp only [bufferInit, Fin.val_cast]
    by_cases hlast : i + 1 < n
    · rw [dif_pos hlast, List.getElem?_eq_getElem (by rw [List.length_finRange]; exact hlast),
        List.getElem_finRange]
      rfl
    · have hpos : 0 < n := by omega
      rw [dif_neg hlast, List.getElem?_eq_none (by rw [List.length_finRange]; omega), Option.none_or,
        List.head?_eq_getElem?, List.getElem?_eq_getElem (by rw [List.length_finRange]; exact hpos),
        List.getElem_finRange]
      rfl
  · refine path_iff_getElem.mpr fun i hi => ?_
    rw [List.length_reverse, List.length_finRange] at hi
    have hlen : (List.finRange n).length = n := List.length_finRange
    rw [List.getElem_reverse, List.getElem_finRange]
    simp only [bufferInit, Fin.val_cast, hlen]
    by_cases hfirst : i + 1 < n
    · rw [dif_pos (by omega), List.getElem?_reverse (by rw [hlen]; exact hfirst),
        List.getElem?_eq_getElem (by rw [hlen]; omega), List.getElem_finRange, Option.some_or]
      exact congrArg some (Fin.ext (by simp only [Fin.val_cast]; omega))
    · rw [dif_neg (by omega), List.getElem?_eq_none (by rw [List.length_reverse, hlen]; omega),
        Option.none_or, List.head?_reverse, List.getLast?_eq_getElem?,
        List.getElem?_eq_getElem (by rw [hlen]; omega), List.getElem_finRange]
      exact congrArg some (Fin.ext (by simp only [Fin.val_cast]; omega))
  · simp only [bufferInit]
    cases n with
    | zero => rfl
    | succ n => rw [dif_pos (Nat.succ_pos n), List.finRange_succ]; rfl

theorem inv_initial (disk : Dev → BlockNr → Block) (data : Fin n → Block) :
    Inv (initial n disk data).cache := by
  refine ⟨⟨fun i => ⟨[], rfl, List.nodup_nil, fun b => ?_⟩, _, freeCircle_bufferInit disk data⟩,
    fun b _ => ⟨rfl, rfl⟩⟩
  simp [initial, bufferInit, queue]

/-- **The buffer queues.** They stay well formed, and a store goes through `NULL` as soon as
a buffer gets a device. -/
theorem queues_sound_iff (disk : Dev → BlockNr → Block) (data : Fin n → Block)
    (as : List (Act n)) :
    ∃ s, run step (initial n disk data) as = .next s ∧ s.cache.WellFormed ∧
      (Sound s ↔ ∀ a ∈ as, a.dev = 0) := by
  obtain ⟨s, hs, hinv, -, hnull⟩ := run_inv (inv_initial disk data) as
  exact ⟨s, hs, hinv.wellFormed,
    (and_iff_right hinv.wellFormed).trans (hnull (fun _ => rfl) rfl)⟩

/-- The first buffer of a disk. -/
theorem queues_not_sound : ∃ s, run step (initial 1 (fun _ _ _ => 0) fun _ _ => 0)
    [⟨0, 0x301, 1⟩] = .next s ∧ ¬ Sound s := by
  refine ⟨_, Outcome.eq_next (by decide) (initial 1 (fun _ _ _ => 0) fun _ _ => 0),
    fun h => ?_⟩
  exact absurd h.2 (by decide)

end BufferQueues

end LinuxKernel.V011.Fs
