import Mathlib.Data.Fintype.Card
import LinuxKernel.V011.Fs.BufferTasks

/-!
# LinuxKernel.V011.Fs.BufferIndex

The **hash queues index the buffers**: queue `h` holds exactly the buffers that
have a device and hash to `h`, and no two of them are for the same block.

Only `assign` touches what this is about, so every other operation keeps it
(`SameIndex`), and `assign` keeps it because `find_buffer` has just failed.
-/

namespace LinuxKernel.V011.Fs

variable {n : Nat}

namespace Cache

/-- The hash queue a buffer belongs on. -/
def queue (c : Cache n) (b : Fin n) : Option Nat :=
  if c.dev b = 0 then none else some (hashfn (c.dev b) (c.blocknr b))

/-- At most one buffer for a block. -/
def Unique (c : Cache n) : Prop :=
  ∀ a b, c.dev a ≠ 0 → c.dev a = c.dev b → c.blocknr a = c.blocknr b → a = b

structure Indexed (c : Cache n) : Prop where
  queued : Queued c.next c.prev c.hashTable c.queue
  unlinked : Unlinked c.next c.prev c.queue
  unique : c.Unique
  free : ∀ b, (c.prevFree b).isSome ∧ (c.nextFree b).isSome ∧ c.freeList.isSome

/-- The buffers are for the same blocks, and linked the same way. -/
structure SameIndex (c c' : Cache n) : Prop where
  dev : c'.dev = c.dev
  blocknr : c'.blocknr = c.blocknr
  prev : c'.prev = c.prev
  next : c'.next = c.next
  hashTable : c'.hashTable = c.hashTable
  prevFree : c'.prevFree = c.prevFree
  nextFree : c'.nextFree = c.nextFree
  freeList : c'.freeList = c.freeList

variable {c c' c'' : Cache n} {b : Fin n} {dev : Dev} {block : BlockNr}

theorem SameIndex.refl (c : Cache n) : SameIndex c c := ⟨rfl, rfl, rfl, rfl, rfl, rfl, rfl, rfl⟩

theorem Indexed.same (h : c.Indexed) (hs : SameIndex c c') : c'.Indexed := by
  have hq : c'.queue = c.queue := by
    funext b
    rw [queue, queue, hs.dev, hs.blocknr]
  refine ⟨?_, ?_, ?_, ?_⟩
  · rw [hs.next, hs.prev, hs.hashTable, hq]
    exact h.queued
  · rw [hs.next, hs.prev, hq]
    exact h.unlinked
  · rw [Unique, hs.dev, hs.blocknr]
    exact h.unique
  · rw [hs.prevFree, hs.nextFree, hs.freeList]
    exact h.free

/-! ### `find_buffer` -/

theorem queue_eq_some {h : Nat} :
    c.queue b = some h ↔ c.dev b ≠ 0 ∧ hashfn (c.dev b) (c.blocknr b) = h := by
  rw [queue]
  split
  · next h0 => simp [h0]
  · next h0 => exact ⟨fun he => ⟨h0, Option.some.inj he⟩, fun he => congrArg some he.2⟩

/-- The loop of `find_buffer` ends, with a buffer for the block if there is one. -/
theorem Indexed.findBuffer (h : c.Indexed) (dev : Dev) (block : BlockNr) :
    ∃ r, c.findBuffer dev block = some r ∧
      (∀ b, r = some b → c.dev b = dev ∧ c.blocknr b = block) ∧
      (r = none → dev ≠ 0 → ∀ b, c.dev b = dev → c.blocknr b ≠ block) := by
  obtain ⟨l, hl, hnd, hmem⟩ := h.queued (hashfn dev block)
  have hlen : l.length ≤ n := by
    simpa using hnd.length_le_card
  refine ⟨_, hl.chain.walk_eq hlen, fun b hb => by simpa using List.find?_some hb, ?_⟩
  intro hnone hdev b hb hblock
  have hin : b ∈ l := (hmem b).mpr (queue_eq_some.mpr ⟨by rwa [hb], by rw [hb, hblock]⟩)
  simpa [hb, hblock] using List.find?_eq_none.mp hnone b hin

/-! ### `remove_from_queues` and `insert_into_queues` -/

theorem unhash_next (a : Fin n) :
    (c.unhash b).next a = if c.prev b = some a then c.next b else c.next a := by
  have hp : storeAt c.prev (c.next b) (c.prev b) b = c.prev b := by
    rw [storeAt_apply, ite_self]
  change storeAt c.next (storeAt c.prev (c.next b) (c.prev b) b) (c.next b) a = _
  rw [hp, storeAt_apply]

theorem unhash_prev (a : Fin n) :
    (c.unhash b).prev a = if c.next b = some a then c.prev b else c.prev a :=
  storeAt_apply ..

theorem unhash_hashTable (i : Nat) :
    (c.unhash b).hashTable i =
      if i = hashfn (c.dev b) (c.blocknr b) ∧ c.hashTable i = some b then c.next b
      else c.hashTable i := by
  have hn : (c.unhash b).next b = c.next b := by
    rw [unhash_next, ite_self]
  change (if c.hashTable (hashfn (c.dev b) (c.blocknr b)) = some b then
    Function.update c.hashTable (hashfn (c.dev b) (c.blocknr b)) ((c.unhash b).next b)
    else c.hashTable) i = _
  rw [hn]
  by_cases hi : i = hashfn (c.dev b) (c.blocknr b)
  · subst hi
    split
    · next hh => rw [if_pos ⟨rfl, hh⟩, Function.update_self]
    · next hh => rw [if_neg fun h => hh h.2]
  · conv_rhs => rw [if_neg fun h => hi h.1]
    split
    · rw [Function.update_of_ne hi]
    · rfl

/-- A buffer off its queue. -/
theorem unhash_queued (hq : Queued c.next c.prev c.hashTable c.queue)
    (hu : Unlinked c.next c.prev c.queue) (b : Fin n) :
    Queued (c.unhash b).next (c.unhash b).prev (c.unhash b).hashTable
      (Function.update c.queue b none) := by
  refine hq.remove (hu _) unhash_next unhash_prev (fun i hi => ?_) fun i hi => ?_
  · rw [unhash_hashTable, (queue_eq_some.mp hi).2]
    simp only [true_and]
  · rw [unhash_hashTable, if_neg]
    exact fun he => hi (hq.head_key he.2)

theorem rehash_hashTable :
    (c.rehash b).hashTable = if c.dev b = 0 then c.hashTable
      else Function.update c.hashTable (hashfn (c.dev b) (c.blocknr b)) (some b) := by
  rw [rehash]
  split <;> rfl

theorem rehash_next_self : (c.rehash b).next b =
    if c.dev b = 0 then none else c.hashTable (hashfn (c.dev b) (c.blocknr b)) := by
  rw [rehash]
  split <;> simp only [Function.update_self]

theorem rehash_next_of_ne {a : Fin n} (hab : a ≠ b) : (c.rehash b).next a = c.next a := by
  rw [rehash]
  split <;> simp only [Function.update_of_ne hab]

theorem rehash_prev_self (hb : ∀ i, c.hashTable i ≠ some b) : (c.rehash b).prev b = none := by
  rw [rehash]
  split
  · simp only [Function.update_self]
  · simp only [Function.update_self, storeAt_apply, if_neg (hb _)]

theorem rehash_prev_of_ne {a : Fin n} (hab : a ≠ b) : (c.rehash b).prev a =
    if c.dev b ≠ 0 ∧ c.hashTable (hashfn (c.dev b) (c.blocknr b)) = some a then some b
    else c.prev a := by
  rw [rehash]
  split
  · next h0 =>
    rw [if_neg fun hc => hc.1 h0]
    exact Function.update_of_ne hab _ _
  · next h0 =>
    simp only [Function.update_self, storeAt_apply, Function.update_of_ne hab,
      and_iff_right (a := c.dev b ≠ 0) h0]

/-- A buffer that is on no queue, on the queue it belongs on. -/
theorem rehash_queued (hq : Queued c.next c.prev c.hashTable (Function.update c.queue b none))
    (hu : ∀ a, a ≠ b → c.queue a = none → c.next a = none ∧ c.prev a = none) :
    Queued (c.rehash b).next (c.rehash b).prev (c.rehash b).hashTable c.queue ∧
      Unlinked (c.rehash b).next (c.rehash b).prev c.queue := by
  have hb : ∀ i, c.hashTable i ≠ some b := fun i hi => by
    have hk := hq.head_key hi
    rw [Function.update_self] at hk
    cases hk
  have hne : ∀ a, a ≠ b → c.queue a = none → (c.rehash b).next a = none ∧
      (c.rehash b).prev a = none := fun a hab ha => by
    obtain ⟨hn, hp⟩ := hu a hab ha
    refine ⟨by rw [rehash_next_of_ne hab, hn], ?_⟩
    rw [rehash_prev_of_ne hab, if_neg, hp]
    intro hc
    have hk := hq.head_key hc.2
    rw [Function.update_of_ne hab, ha] at hk
    cases hk
  by_cases h0 : c.dev b = 0
  · have hqb : c.queue b = none := by rw [queue, if_pos h0]
    have hself : Function.update c.queue b none = c.queue := by
      rw [← hqb, Function.update_eq_self]
    constructor
    · rw [rehash_hashTable, if_pos h0, ← hself]
      intro i
      obtain ⟨l, hl, hnd, hmem⟩ := hq i
      have hlb : ∀ a ∈ l, a ≠ b := fun a ha hab => by
        have hk := (hmem a).mp ha
        rw [hab, Function.update_self] at hk
        cases hk
      refine ⟨l, hl.congr (fun a ha => rehash_next_of_ne (hlb a ha)) fun a ha => ?_, hnd, hmem⟩
      rw [rehash_prev_of_ne (hlb a ha), if_neg fun hc => hc.1 h0]
    · intro a ha
      by_cases hab : a = b
      · subst hab
        exact ⟨by rw [rehash_next_self, if_pos h0], rehash_prev_self hb⟩
      · exact hne a hab ha
  · have hqb : c.queue b = some (hashfn (c.dev b) (c.blocknr b)) := by rw [queue, if_neg h0]
    constructor
    · have hins : Queued (c.rehash b).next (c.rehash b).prev _ _ :=
        hq.insert _ _ (Function.update_self ..) (i := hashfn (c.dev b) (c.blocknr b))
          (by rw [rehash_next_self, if_neg h0]) (fun a => rehash_next_of_ne)
          (rehash_prev_self hb) fun a hab => by
            rw [rehash_prev_of_ne hab]
            simp only [ne_eq, h0, not_false_eq_true, true_and]
      rw [Function.update_idem, ← hqb, Function.update_eq_self] at hins
      rw [rehash_hashTable, if_neg h0]
      exact hins
    · intro a ha
      refine hne a (fun hab => ?_) ha
      rw [hab, hqb] at ha
      cases ha

/-- A buffer that has been taken off its queue and given another device and block. -/
theorem reassign_queued (c₂ : Cache n) (hq : Queued c.next c.prev c.hashTable c.queue)
    (hu : Unlinked c.next c.prev c.queue) (hn : c₂.next = (c.unhash b).next)
    (hp : c₂.prev = (c.unhash b).prev) (hh : c₂.hashTable = (c.unhash b).hashTable)
    (hqueue : ∀ a, a ≠ b → c₂.queue a = c.queue a) :
    Queued (c₂.rehash b).next (c₂.rehash b).prev (c₂.rehash b).hashTable c₂.queue ∧
      Unlinked (c₂.rehash b).next (c₂.rehash b).prev c₂.queue := by
  have hupdate : Function.update c₂.queue b none = Function.update c.queue b none := by
    funext a
    by_cases hab : a = b
    · rw [hab, Function.update_self, Function.update_self]
    · rw [Function.update_of_ne hab, Function.update_of_ne hab, hqueue a hab]
  refine rehash_queued ?_ fun a hab ha => ?_
  · rw [hn, hp, hh, hupdate]
    exact unhash_queued hq hu b
  · rw [hn, hp]
    exact hq.remove_unlinked hu unhash_next unhash_prev (hqueue a hab ▸ ha)

/-! ### The end of `getblk` -/

/-- What `assign` changes apart from the queues. -/
structure Assigned (c c' : Cache n) (b : Fin n) (dev : Dev) (block : BlockNr) : Prop where
  dev : c'.dev = Function.update c.dev b dev
  blocknr : c'.blocknr = Function.update c.blocknr b block
  count : c'.count = Function.update c.count b 1
  dirt : c'.dirt = Function.update c.dirt b false
  uptodate : c'.uptodate = Function.update c.uptodate b false
  lock : c'.lock = c.lock
  data : c'.data = c.data
  request : c'.request = c.request
  disk : c'.disk = c.disk

theorem isSome_storeAt {f : Fin n → Option (Fin n)} (hf : ∀ a, (f a).isSome) {x v : Option (Fin n)}
    (hv : v.isSome) (a : Fin n) : (storeAt f x v a).isSome := by
  rw [storeAt_apply]
  split
  · exact hv
  · exact hf a

theorem isSome_update {f : Fin n → Option (Fin n)} (hf : ∀ a, (f a).isSome) {v : Option (Fin n)}
    (hv : v.isSome) (x a : Fin n) : (Function.update f x v a).isSome := by
  rw [Function.update_apply]
  split
  · exact hv
  · exact hf a

/-- A free list without null pointers. -/
def FreeOk (c : Cache n) : Prop :=
  ∀ b, (c.prevFree b).isSome ∧ (c.nextFree b).isSome ∧ c.freeList.isSome

/-- Both halves work, whatever the free list looks like. -/
theorem removeFromQueues_spec (h : c.FreeOk) (b : Fin n) :
    ∃ prevFree nextFree freeList, c.removeFromQueues b = .next
        { c.unhash b with prevFree := prevFree, nextFree := nextFree, freeList := freeList } ∧
      ∀ a, (prevFree a).isSome ∧ (nextFree a).isSome ∧ freeList.isSome := by
  have hp : ∀ a, (c.prevFree a).isSome := fun a => (h a).1
  have hn : ∀ a, (c.nextFree a).isSome := fun a => (h a).2.1
  have hnull : ¬(((c.unhash b).prevFree b).isNone ∨ ((c.unhash b).nextFree b).isNone) := by
    have hb := h b
    simp only [unhash, Option.isNone_iff_eq_none, not_or, ← Option.isSome_iff_ne_none]
    exact ⟨hb.1, hb.2.1⟩
  rw [removeFromQueues, if_neg hnull]
  have hn' : ∀ a, (storeAt c.nextFree (c.prevFree b) (c.nextFree b) a).isSome :=
    isSome_storeAt hn (hn b)
  refine ⟨_, _, _, rfl, fun a => ⟨isSome_storeAt hp (hp b) a, hn' a, ?_⟩⟩
  split
  · exact hn' b
  · exact (h b).2.2

theorem insertIntoQueues_spec (h : c.FreeOk) (b : Fin n) :
    ∃ prevFree nextFree, c.insertIntoQueues b = .next
        { c.rehash b with prevFree := prevFree, nextFree := nextFree } ∧
      ∀ a, (prevFree a).isSome ∧ (nextFree a).isSome := by
  have hp : ∀ a, (c.prevFree a).isSome := fun a => (h a).1
  have hn : ∀ a, (c.nextFree a).isSome := fun a => (h a).2.1
  rw [insertIntoQueues]
  split
  · next hnone =>
    have hsome := (h b).2.2
    rw [hnone] at hsome
    cases hsome
  · next f hf =>
    have hnull : ¬(c.prevFree f).isNone := by
      rw [Option.isNone_iff_eq_none, ← ne_eq, ← Option.isSome_iff_ne_none]
      exact hp f
    have hp' : ∀ a, (Function.update (Function.update c.prevFree b (c.prevFree f)) f (some b)
        a).isSome := isSome_update (isSome_update hp (hp f) b) rfl f
    have hn' : ∀ a, (storeAt (Function.update c.nextFree b (some f))
        (Function.update c.prevFree b (c.prevFree f) f) (some b) a).isSome :=
      isSome_storeAt (isSome_update hn rfl b) rfl
    simp only [if_neg hnull]
    refine ⟨_, _, ?_, fun a => ⟨hp' a, hn' a⟩⟩
    rw [rehash, rehash]
    split <;> rfl

theorem rehash_dev : (c.rehash b).dev = c.dev := by
  rw [rehash]
  split <;> rfl

theorem rehash_blocknr : (c.rehash b).blocknr = c.blocknr := by
  rw [rehash]
  split <;> rfl

theorem rehash_freeList : (c.rehash b).freeList = c.freeList := by
  rw [rehash]
  split <;> rfl

/-- The rest of a buffer head, which the hash queues have nothing to do with. -/
theorem rehash_rest : (c.rehash b).count = c.count ∧ (c.rehash b).dirt = c.dirt ∧
    (c.rehash b).uptodate = c.uptodate ∧ (c.rehash b).lock = c.lock ∧
    (c.rehash b).data = c.data ∧ (c.rehash b).request = c.request ∧
    (c.rehash b).disk = c.disk := by
  rw [rehash]
  split <;> exact ⟨rfl, rfl, rfl, rfl, rfl, rfl, rfl⟩

/-- The end of `getblk`, when `find_buffer` has failed. -/
theorem Indexed.assign (h : c.Indexed) (hfind : c.findBuffer dev block = some none) (b : Fin n) :
    ∃ c', c.assign b dev block = .next c' ∧ c'.Indexed ∧ Assigned c c' b dev block := by
  obtain ⟨r, hr, -, hnone⟩ := h.findBuffer dev block
  obtain rfl : r = none := Option.some.inj (hr.symm.trans hfind)
  set c₀ : Cache n := { c with
    count := Function.update c.count b 1
    dirt := Function.update c.dirt b false
    uptodate := Function.update c.uptodate b false } with hc₀
  have h₀ : c₀.Indexed := h.same ⟨rfl, rfl, rfl, rfl, rfl, rfl, rfl, rfl⟩
  obtain ⟨pf, nf, fl, hremove, hfree⟩ := removeFromQueues_spec h₀.free b
  set c₂ : Cache n := { c₀.unhash b with
    prevFree := pf
    nextFree := nf
    freeList := fl
    dev := Function.update c.dev b dev
    blocknr := Function.update c.blocknr b block } with hc₂
  obtain ⟨pf', nf', hinsert, hfree'⟩ := insertIntoQueues_spec (c := c₂) hfree b
  refine ⟨{ c₂.rehash b with prevFree := pf', nextFree := nf' }, ?_, ?_, ?_⟩
  · rw [Cache.assign, ← hc₀, hremove]
    exact hinsert
  · have hqueue : ∀ a, a ≠ b → c₂.queue a = c₀.queue a := fun a hab => by
      simp only [hc₂, hc₀, queue, Function.update_of_ne hab]
    obtain ⟨hq, hu⟩ := reassign_queued c₂ h₀.queued h₀.unlinked rfl rfl rfl hqueue
    have hqueue' : Cache.queue { c₂.rehash b with prevFree := pf', nextFree := nf' } = c₂.queue := by
      funext a
      simp only [queue, rehash_dev, rehash_blocknr]
    refine ⟨hqueue' ▸ hq, hqueue' ▸ hu, ?_, fun a => ⟨(hfree' a).1, (hfree' a).2, ?_⟩⟩
    · intro x y hx hdev hblock
      simp only [rehash_dev, rehash_blocknr, hc₂, Function.update_apply] at hx hdev hblock
      by_cases hxb : x = b
      · by_cases hyb : y = b
        · rw [hxb, hyb]
        · rw [if_pos hxb] at hx hdev hblock
          rw [if_neg hyb] at hdev hblock
          exact absurd hblock.symm (hnone rfl hx y hdev.symm)
      · rw [if_neg hxb] at hx hdev hblock
        by_cases hyb : y = b
        · rw [if_pos hyb] at hdev hblock
          exact absurd hblock (hnone rfl (hdev ▸ hx) x hdev)
        · rw [if_neg hyb] at hdev hblock
          exact h.unique x y hx hdev hblock
    · simp only [rehash_freeList]
      exact (hfree a).2.2
  · obtain ⟨hcount, hdirt, hup, hlock, hdata, hreq, hdisk⟩ := rehash_rest (c := c₂) (b := b)
    exact ⟨rehash_dev, rehash_blocknr, hcount, hdirt, hup, hlock, hdata, hreq, hdisk⟩

end Cache

end LinuxKernel.V011.Fs
