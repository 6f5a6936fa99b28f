import LinuxKernel.V011.Malloc

/-!
# LinuxKernel.V011.MallocSound

**The allocator never overlaps or loses objects.**

`Heap s L` says that the lists in the memory of `s` are those of the `Layout` `L`:
which descriptors are free, which are in which chain, and which objects of a
bucket are free. Every part of `malloc` and `free_s` takes one layout to another.
Between calls no bucket is empty; inside `malloc` and `free_s` one may be.
-/

namespace LinuxKernel.V011.Malloc

/-! ### Sizes and pages -/

theorem bucketDirSize_pos (i : Fin 9) : 0 < bucketDirSize i := by revert i; decide

theorem bucketDirSize_mul (i : Fin 9) :
    bucketDirSize i * (PAGE_SIZE / bucketDirSize i - 1) + bucketDirSize i = PAGE_SIZE := by
  revert i; decide

theorem slots_length_lt (i : Fin 9) : PAGE_SIZE / bucketDirSize i - 1 + 1 < 2 ^ 16 := by
  revert i; decide

theorem le_of_bucketFor {len : Nat} {i : Fin 9} (h : bucketFor len = some i) :
    len ≤ bucketDirSize i := by
  simpa using List.find?_some h

theorem bucketFor_isSome {len : Nat} (h : len ≤ PAGE_SIZE) : ∃ i, bucketFor len = some i := by
  cases hb : bucketFor len with
  | some i => exact ⟨i, rfl⟩
  | none =>
      have := List.find?_eq_none.mp hb 8 (List.mem_finRange 8)
      simp only [decide_eq_true_eq] at this
      exact absurd h this

theorem pageOf_add {page r : Nat} (hp : page % PAGE_SIZE = 0) (hr : r < PAGE_SIZE) :
    pageOf (page + r) = page := by
  unfold pageOf PAGE_SIZE at *
  omega

theorem mem_slots {page o : Nat} {i : Fin 9} :
    o ∈ slots page (bucketDirSize i) ↔
      ∃ k, k ≤ PAGE_SIZE / bucketDirSize i - 1 ∧ page + bucketDirSize i * k = o :=
  mem_addresses

/-- Where a slot ends in its page. -/
theorem slot_end {i : Fin 9} {k : Nat} (hk : k ≤ PAGE_SIZE / bucketDirSize i - 1) :
    bucketDirSize i * k + bucketDirSize i ≤ PAGE_SIZE := by
  rw [← bucketDirSize_mul i]
  exact Nat.add_le_add_right (Nat.mul_le_mul_left _ hk) _

theorem pageOf_slot {page o : Nat} {i : Fin 9} (hp : page % PAGE_SIZE = 0)
    (ho : o ∈ slots page (bucketDirSize i)) : pageOf o = page := by
  obtain ⟨k, hk, rfl⟩ := mem_slots.mp ho
  have := slot_end hk
  have := bucketDirSize_pos i
  exact pageOf_add hp (by omega)

theorem mem_liveIn {s : State} {page o : Nat} :
    o ∈ s.liveIn page ↔ pageOf o = page ∧ ∃ e ∈ s.live, e.1 = o := by
  unfold State.liveIn
  simp only [List.mem_filter, List.mem_map, decide_eq_true_eq]
  exact and_comm

theorem mem_descriptors {s : State} {d : Nat} :
    d ∈ s.descriptors ↔ ∃ p ∈ s.descPages, d ∈ addresses 16 p (PAGE_SIZE / 16 - 1) :=
  List.mem_flatMap

/-- A descriptor lies in its page of descriptors. -/
theorem pageOf_descriptor {page d : Nat} (hp : page % PAGE_SIZE = 0)
    (hd : d ∈ addresses 16 page (PAGE_SIZE / 16 - 1)) : pageOf d = page := by
  obtain ⟨k, hk, rfl⟩ := mem_addresses.mp hd
  refine pageOf_add hp ?_
  unfold PAGE_SIZE at *
  omega

/-! ### Layouts -/

structure Layout where
  chains : Fin 9 → List Nat
  free : List Nat
  objs : Nat → List Nat

/-- The free objects of `d` are `objs` now. -/
def Layout.setObjs (L : Layout) (d : Nat) (objs : List Nat) : Layout :=
  { L with objs := Function.update L.objs d objs }

theorem setObjs_self (L : Layout) (d : Nat) (objs : List Nat) :
    (L.setObjs d objs).objs d = objs := by
  simp [Layout.setObjs]

theorem setObjs_of_ne (L : Layout) {d e : Nat} (he : e ≠ d) (objs : List Nat) :
    (L.setObjs d objs).objs e = L.objs e := by
  simp [Layout.setObjs, he]

/-- Which descriptor is on which list. -/
structure Lists (s : State) (L : Layout) : Prop where
  chain : ∀ i, Chain s.next (s.chain i) (L.chains i)
  free : Chain s.next s.freeBucketDesc L.free
  descs : ∀ d, d ∈ s.descriptors ↔ d ∈ L.free ∨ ∃ i, d ∈ L.chains i
  freeApart : ∀ d ∈ L.free, ∀ i, d ∉ L.chains i
  apart : ∀ i j d, d ∈ L.chains i → d ∈ L.chains j → i = j

/-- The bucket of `d` has the free objects `objs`. -/
structure InBucket (s : State) (i : Fin 9) (d : Nat) (objs : List Nat) : Prop where
  size : (s.desc d).bucketSize = bucketDirSize i
  aligned : (s.desc d).page % PAGE_SIZE = 0
  held : (s.desc d).page ∈ s.held
  chain : Chain s.mem (s.desc d).freeptr objs
  split : (objs ++ s.liveIn (s.desc d).page).Perm (slots (s.desc d).page (bucketDirSize i))
  refcnt : (s.desc d).refcnt = (s.liveIn (s.desc d).page).length

/-- Which pages are held for what. -/
structure Pages (s : State) (L : Layout) : Prop where
  page : ∀ i j d e, d ∈ L.chains i → e ∈ L.chains j → (s.desc d).page = (s.desc e).page → d = e
  descPage : ∀ p ∈ s.descPages, p % PAGE_SIZE = 0 ∧ p ∈ s.held ∧
    ∀ i, ∀ d ∈ L.chains i, (s.desc d).page ≠ p
  descPages : s.descPages.Nodup
  held : ∀ p ∈ s.held, p ∈ s.descPages ∨ ∃ i, ∃ d ∈ L.chains i, (s.desc d).page = p
  heldNodup : s.held.Nodup

structure Heap (s : State) (L : Layout) : Prop where
  lists : Lists s L
  bucket : ∀ i, ∀ d ∈ L.chains i, InBucket s i d (L.objs d)
  pages : Pages s L
  live : ∀ e ∈ s.live, ∃ i, bucketFor e.2 = some i ∧ ∃ d ∈ L.chains i, pageOf e.1 = (s.desc d).page
  liveNodup : (s.live.map Prod.fst).Nodup

/-- No bucket is empty. -/
def Layout.InUse (s : State) (L : Layout) : Prop := ∀ i, ∀ d ∈ L.chains i, (s.desc d).refcnt ≠ 0

variable {s s' : State} {L L' : Layout} {i j : Fin 9} {d e : Nat} {objs : List Nat}

/-- What a bucket depends on. -/
theorem InBucket.congr (h : InBucket s i d objs) (hpage : (s'.desc d).page = (s.desc d).page)
    (hfree : (s'.desc d).freeptr = (s.desc d).freeptr)
    (hrefcnt : (s'.desc d).refcnt = (s.desc d).refcnt)
    (hsize : (s'.desc d).bucketSize = (s.desc d).bucketSize)
    (hheld : (s.desc d).page ∈ s'.held) (hmem : ∀ o ∈ objs, s'.mem o = s.mem o)
    (hlive : s'.liveIn (s.desc d).page = s.liveIn (s.desc d).page) : InBucket s' i d objs where
  size := hsize.trans h.size
  aligned := by rw [hpage]; exact h.aligned
  held := by rw [hpage]; exact hheld
  chain := by rw [hfree]; exact h.chain.congr hmem
  split := by rw [hpage, hlive]; exact h.split
  refcnt := by rw [hpage, hlive, hrefcnt]; exact h.refcnt

theorem InBucket.pageOf_obj (h : InBucket s i d objs) {o : Nat} (ho : o ∈ objs) :
    pageOf o = (s.desc d).page :=
  pageOf_slot h.aligned (h.split.subset (List.mem_append_left _ ho))

theorem InBucket.slot_of_live (h : InBucket s i d objs) {a : Nat × Nat} (ha : a ∈ s.live)
    (hp : pageOf a.1 = (s.desc d).page) : a.1 ∈ slots (s.desc d).page (bucketDirSize i) :=
  h.split.subset (List.mem_append_right _ (mem_liveIn.mpr ⟨hp, a, ha, rfl⟩))

theorem InBucket.notLive (h : InBucket s i d objs) {o : Nat} (ho : o ∈ objs) :
    o ∉ s.live.map Prod.fst := by
  intro hl
  obtain ⟨a, ha, rfl⟩ := List.mem_map.mp hl
  have hnd : (objs ++ s.liveIn (s.desc d).page).Nodup :=
    h.split.nodup_iff.mpr (addresses_nodup (bucketDirSize_pos i))
  exact (List.nodup_append.mp hnd).2.2 _ ho _ (mem_liveIn.mpr ⟨h.pageOf_obj ho, a, ha, rfl⟩) rfl

theorem InBucket.refcnt_lt (h : InBucket s i d objs) : (s.desc d).refcnt + objs.length < 2 ^ 16 := by
  have hlen := h.split.length_eq
  rw [List.length_append, slots, length_addresses] at hlen
  have := slots_length_lt i
  rw [h.refcnt]
  omega

namespace Heap

theorem chain_length (h : Heap s L) (i : Fin 9) : (L.chains i).length ≤ s.bound := by
  have hlen : s.descriptors.length = s.bound := by
    unfold State.descriptors State.bound
    rw [List.length_flatMap]
    simp only [length_addresses, List.map_const', List.sum_replicate_nat]
    exact Nat.mul_comm _ _
  rw [← hlen]
  refine (h.lists.chain i).nodup.length_le_of_subset fun d hd => ?_
  exact (h.lists.descs d).mpr (Or.inr ⟨i, hd⟩)

/-- Pages of buckets are not pages of other buckets. -/
theorem page_ne (h : Heap s L) (hd : d ∈ L.chains i) (he : e ∈ L.chains j) (hne : e ≠ d) :
    (s.desc e).page ≠ (s.desc d).page := fun hp => hne (h.pages.page j i e d he hd hp)

end Heap

/-! ### What the memory promises -/

theorem objects_of_heap (h : Heap s L) : Objects s where
  inside a ha := by
    obtain ⟨i, hi, d, hd, hp⟩ := h.live a ha
    have hb := h.bucket i d hd
    obtain ⟨k, hk, hak⟩ := mem_slots.mp (hb.slot_of_live ha hp)
    have hend := slot_end hk
    have hpos := bucketDirSize_pos i
    refine ⟨i, hi, le_of_bucketFor hi, ?_⟩
    rw [hp, ← hak]
    have heq : (s.desc d).page + bucketDirSize i * k + bucketDirSize i - 1 =
        (s.desc d).page + (bucketDirSize i * k + bucketDirSize i - 1) := by omega
    rw [heq]
    exact pageOf_add hb.aligned (by omega)
  disjoint := by
    have hnd : s.live.Pairwise fun a b => a.1 ≠ b.1 := List.pairwise_map.mp h.liveNodup
    refine hnd.imp_of_mem fun {a b} ha hb hne i j hi hj => ?_
    obtain ⟨i', hi', d, hd, hpa⟩ := h.live a ha
    obtain ⟨j', hj', e, he, hpb⟩ := h.live b hb
    obtain rfl : i = i' := Option.some.inj (hi.symm.trans hi')
    obtain rfl : j = j' := Option.some.inj (hj.symm.trans hj')
    have hbd := h.bucket i d hd
    have hbe := h.bucket j e he
    obtain ⟨k, hk, hak⟩ := mem_slots.mp (hbd.slot_of_live ha hpa)
    obtain ⟨l, hl, hbl⟩ := mem_slots.mp (hbe.slot_of_live hb hpb)
    by_cases hde : d = e
    · subst hde
      obtain rfl := h.lists.apart i j d hd he
      rcases Nat.lt_trichotomy k l with hkl | rfl | hkl
      · left
        have := Nat.mul_le_mul_left (bucketDirSize i) (Nat.succ_le_of_lt hkl)
        rw [Nat.mul_succ] at this
        omega
      · exact absurd (hak.symm.trans hbl) hne
      · right
        have := Nat.mul_le_mul_left (bucketDirSize i) (Nat.succ_le_of_lt hkl)
        rw [Nat.mul_succ] at this
        omega
    · have hpne : (s.desc d).page ≠ (s.desc e).page := fun hp => hde (h.pages.page i j d e hd he hp)
      have hendk := slot_end hk
      have hendl := slot_end hl
      have hda := hbd.aligned
      have hea := hbe.aligned
      unfold PAGE_SIZE at *
      omega

theorem sound_of_heap (h : Heap s L) (hu : L.InUse s) : Sound s where
  objects := objects_of_heap h
  lists := by
    refine ⟨L.free, L.chains, h.lists.free, h.lists.chain, ?_, fun i d hd => ?_, ?_⟩
    · have hchains : ((List.finRange 9).flatMap L.chains).Nodup := by
        rw [List.nodup_flatMap]
        refine ⟨fun i _ => (h.lists.chain i).nodup, (List.nodup_finRange 9).imp fun {i j} hij => ?_⟩
        exact List.disjoint_left.mpr fun d hi hj => hij (h.lists.apart i j d hi hj)
      have hlists : (L.free ++ (List.finRange 9).flatMap L.chains).Nodup := by
        refine h.lists.free.nodup.append hchains (List.disjoint_left.mpr fun d hd hc => ?_)
        obtain ⟨i, -, hi⟩ := List.mem_flatMap.mp hc
        exact h.lists.freeApart d hd i hi
      have hdescs : s.descriptors.Nodup := by
        unfold State.descriptors
        rw [List.nodup_flatMap]
        refine ⟨fun p _ => addresses_nodup (by decide), h.pages.descPages.imp_of_mem ?_⟩
        intro p q hp hq hpq
        refine List.disjoint_left.mpr fun d hdp hdq => hpq ?_
        exact (pageOf_descriptor (h.pages.descPage p hp).1 hdp).symm.trans
          (pageOf_descriptor (h.pages.descPage q hq).1 hdq)
      refine (List.perm_ext_iff_of_nodup hlists hdescs).mpr fun d => ?_
      rw [h.lists.descs, List.mem_append, List.mem_flatMap]
      simp only [List.mem_finRange, true_and]
    · have hb := h.bucket i d hd
      exact {
        size := hb.size
        page := ⟨hb.held, fun hp => (h.pages.descPage _ hp).2.2 i d hd rfl⟩
        refcnt := hb.refcnt
        nonempty := hu i d hd
        free := ⟨L.objs d, hb.chain, hb.split⟩ }
    · rw [List.nodup_flatMap]
      refine ⟨fun i _ => ?_, (List.nodup_finRange 9).imp fun {i j} hij => ?_⟩
      · exact (h.lists.chain i).nodup.map_on fun d hd e he hp => h.pages.page i i d e hd he hp
      · refine List.disjoint_left.mpr fun p hi hj => ?_
        obtain ⟨d, hd, rfl⟩ := List.mem_map.mp hi
        obtain ⟨e, he, hp⟩ := List.mem_map.mp hj
        obtain rfl := h.pages.page j i e d he hd hp
        exact hij (h.lists.apart i j e hd he)
  pages := by
    refine ⟨h.pages.heldNodup, fun p => ⟨fun hp => ?_, ?_⟩⟩
    · refine (h.pages.held p hp).imp id ?_
      rintro ⟨i, d, hd, rfl⟩ hnil
      refine hu i d hd ?_
      rw [(h.bucket i d hd).refcnt, hnil, List.length_nil]
    · rintro (hp | hne)
      · exact (h.pages.descPage p hp).2.1
      · obtain ⟨o, ho⟩ := List.exists_mem_of_ne_nil _ hne
        obtain ⟨rfl, a, ha, rfl⟩ := mem_liveIn.mp ho
        obtain ⟨i, -, d, hd, hp⟩ := h.live a ha
        rw [hp]
        exact (h.bucket i d hd).held

/-! ### Objects are taken and put back -/

theorem Lists.congr (h : Lists s L) (hnext : s'.next = s.next) (hchain : s'.chain = s.chain)
    (hfree : s'.freeBucketDesc = s.freeBucketDesc) (hpages : s'.descPages = s.descPages)
    (hchains : L'.chains = L.chains) (hlist : L'.free = L.free) : Lists s' L' where
  chain := by rw [hnext, hchain, hchains]; exact h.chain
  free := by rw [hnext, hfree, hlist]; exact h.free
  descs := by
    unfold State.descriptors
    rw [hpages, hchains, hlist]
    exact h.descs
  freeApart := by rw [hchains, hlist]; exact h.freeApart
  apart := by rw [hchains]; exact h.apart

theorem Pages.congr (h : Pages s L) (hpage : ∀ d, (s'.desc d).page = (s.desc d).page)
    (hpages : s'.descPages = s.descPages) (hheld : s'.held = s.held)
    (hchains : L'.chains = L.chains) : Pages s' L' where
  page := by simp only [hpage, hchains]; exact h.page
  descPage := by simp only [hpage, hchains, hpages, hheld]; exact h.descPage
  descPages := by rw [hpages]; exact h.descPages
  held := by simp only [hpage, hchains, hpages, hheld]; exact h.held
  heldNodup := by rw [hheld]; exact h.heldNodup

theorem liveIn_cons {s' : State} {o len : Nat} (hlive : s'.live = (o, len) :: s.live) (p : Nat) :
    s'.liveIn p = if pageOf o = p then o :: s.liveIn p else s.liveIn p := by
  unfold State.liveIn
  rw [hlive, List.map_cons, List.filter_cons]
  simp only [decide_eq_true_eq]

theorem takeObject_heap (h : Heap s L) (hd : d ∈ L.chains i) {len o : Nat}
    (hlen : bucketFor len = some i) (ho : (s.desc d).freeptr = some o)
    (hu : ∀ j, ∀ e ∈ L.chains j, e ≠ d → (s.desc e).refcnt ≠ 0) :
    ∃ s' L', takeObject s d len = .next s' ∧ Heap s' L' ∧ L'.InUse s' := by
  have hb := h.bucket i d hd
  obtain ⟨rest, hobjs, hrest⟩ : ∃ rest, L.objs d = o :: rest ∧ Chain s.mem (s.mem o) rest := by
    have hc := hb.chain
    rw [ho] at hc
    cases hl : L.objs d with
    | nil =>
        rw [hl] at hc
        cases hc
    | cons a rest =>
        rw [hl] at hc
        obtain ⟨ha, hc⟩ := hc
        cases ha
        exact ⟨rest, rfl, hc⟩
  have hmem : o ∈ L.objs d := by rw [hobjs]; exact List.mem_cons_self
  have hpage := hb.pageOf_obj hmem
  have hrefcnt : ((s.desc d).refcnt + 1) % 2 ^ 16 = (s.desc d).refcnt + 1 := by
    have := hb.refcnt_lt
    rw [hobjs, List.length_cons] at this
    exact Nat.mod_eq_of_lt (by omega)
  let b : BucketDesc := { s.desc d with
    freeptr := s.mem o, refcnt := ((s.desc d).refcnt + 1) % 2 ^ 16 }
  let s' : State := { s with desc := Function.update s.desc d b, live := (o, len) :: s.live }
  let L' := L.setObjs d rest
  have hself : s'.desc d = b := Function.update_self d b s.desc
  have hne : ∀ e, e ≠ d → s'.desc e = s.desc e := fun e he => Function.update_of_ne he b s.desc
  have hpages : ∀ e, (s'.desc e).page = (s.desc e).page := by
    intro e
    by_cases he : e = d
    · rw [he, hself]
    · rw [hne e he]
  have hnext : s'.next = s.next := by
    funext e
    change (s'.desc e).next = (s.desc e).next
    by_cases he : e = d
    · rw [he, hself]
    · rw [hne e he]
  have hlive : ∀ p, s'.liveIn p = if pageOf o = p then o :: s.liveIn p else s.liveIn p :=
    liveIn_cons rfl
  have htake : takeObject s d len = .next s' := by
    unfold takeObject
    dsimp only
    rw [ho]
  refine ⟨s', L', htake, ?_, fun j e he => ?_⟩
  · refine ⟨h.lists.congr hnext rfl rfl rfl rfl rfl, fun j e he => ?_,
      h.pages.congr hpages rfl rfl rfl, ?_, ?_⟩
    · by_cases hed : e = d
      · subst hed
        obtain rfl := h.lists.apart i j e hd he
        rw [setObjs_self]
        have hlive' : s'.liveIn (s.desc e).page = o :: s.liveIn (s.desc e).page := by
          rw [hlive, if_pos hpage]
        constructor
        case size => rw [hself]; exact hb.size
        case aligned => rw [hself]; exact hb.aligned
        case held => rw [hself]; exact hb.held
        case chain => rw [hself]; exact hrest
        case split =>
          rw [hpages, hlive']
          refine List.Perm.trans List.perm_middle ?_
          have := hb.split
          rwa [hobjs] at this
        case refcnt =>
          rw [hpages, hlive', List.length_cons, ← hb.refcnt, hself]
          exact hrefcnt
      · rw [setObjs_of_ne L hed]
        have hpe : pageOf o ≠ (s.desc e).page := by
          rw [hpage]
          exact (h.page_ne hd he hed).symm
        exact (h.bucket j e he).congr (hpages e) (by rw [hne e hed]) (by rw [hne e hed])
          (by rw [hne e hed]) (h.bucket j e he).held (fun _ _ => rfl) (by rw [hlive, if_neg hpe])
    · intro a ha
      rcases List.mem_cons.mp ha with rfl | ha
      · exact ⟨i, hlen, d, hd, hpage.trans (hpages d).symm⟩
      · obtain ⟨j, hj, e, he, hp⟩ := h.live a ha
        exact ⟨j, hj, e, he, hp.trans (hpages e).symm⟩
    · change ((o, len) :: s.live |>.map Prod.fst).Nodup
      rw [List.map_cons, List.nodup_cons]
      exact ⟨hb.notLive hmem, h.liveNodup⟩
  · by_cases hed : e = d
    · subst hed
      have hpos : b.refcnt ≠ 0 := by
        change ((s.desc e).refcnt + 1) % 2 ^ 16 ≠ 0
        rw [hrefcnt]
        exact Nat.succ_ne_zero _
      rwa [hself]
    · rw [hne e hed]
      exact hu j e he hed

theorem liveIn_filter {s' : State} {o : Nat} (hlive : s'.live = s.live.filter fun a => a.1 ≠ o)
    (p : Nat) : s'.liveIn p = (s.liveIn p).filter (· ≠ o) := by
  have hmap : (s.live.filter fun a => a.1 ≠ o).map Prod.fst =
      (s.live.map Prod.fst).filter (· ≠ o) := by
    rw [List.filter_map]
    rfl
  unfold State.liveIn
  rw [hlive, hmap, List.filter_comm]

/-- What `putObject` leaves alone. -/
theorem putObject_desc (s : State) (d obj e : Nat) :
    ((putObject s d obj).desc e).page = (s.desc e).page ∧
      ((putObject s d obj).desc e).next = (s.desc e).next ∧
      (e ≠ d → (putObject s d obj).desc e = s.desc e) := by
  unfold putObject
  dsimp only
  by_cases he : e = d
  · subst he
    rw [Function.update_self]
    exact ⟨rfl, rfl, fun hne => absurd rfl hne⟩
  · rw [Function.update_of_ne he]
    exact ⟨rfl, rfl, fun _ => rfl⟩

theorem putObject_heap (h : Heap s L) (hd : d ∈ L.chains i) {a : Nat × Nat} (ha : a ∈ s.live)
    (hp : pageOf a.1 = (s.desc d).page) :
    Heap (putObject s d a.1) (L.setObjs d (a.1 :: L.objs d)) := by
  have hb := h.bucket i d hd
  set s' := putObject s d a.1 with hs'
  have hpages : ∀ e, (s'.desc e).page = (s.desc e).page := fun e => (putObject_desc s d a.1 e).1
  have hnext : s'.next = s.next := funext fun e => (putObject_desc s d a.1 e).2.1
  have hne : ∀ e, e ≠ d → s'.desc e = s.desc e := fun e => (putObject_desc s d a.1 e).2.2
  have hself : s'.desc d = { s.desc d with
      freeptr := some a.1, refcnt := ((s.desc d).refcnt + (2 ^ 16 - 1)) % 2 ^ 16 } :=
    Function.update_self d _ s.desc
  have hlive : ∀ p, s'.liveIn p = (s.liveIn p).filter (· ≠ a.1) := liveIn_filter rfl
  have hmem : ∀ o, o ≠ a.1 → s'.mem o = s.mem o := fun o ho => Function.update_of_ne ho _ s.mem
  have haIn : a.1 ∈ s.liveIn (s.desc d).page := mem_liveIn.mpr ⟨hp, a, ha, rfl⟩
  have hnot : ∀ j, ∀ e ∈ L.chains j, ∀ o ∈ L.objs e, o ≠ a.1 := by
    rintro j e he o ho rfl
    exact (h.bucket j e he).notLive ho (List.mem_map_of_mem ha)
  have hnd : (s.liveIn (s.desc d).page).Nodup := h.liveNodup.filter _
  -- the object leaves the list of those in use
  have hperm : (s.liveIn (s.desc d).page).Perm (a.1 :: s'.liveIn (s.desc d).page) := by
    have hfilter : s'.liveIn (s.desc d).page = (s.liveIn (s.desc d).page).erase a.1 := by
      rw [hlive, hnd.erase_eq_filter]
      exact List.filter_congr fun o _ => by rw [bne, beq_eq_decide, decide_not]
    rw [hfilter]
    exact List.perm_cons_erase haIn
  refine ⟨h.lists.congr hnext rfl rfl rfl rfl rfl, fun j e he => ?_,
    h.pages.congr hpages rfl rfl rfl, ?_, ?_⟩
  · by_cases hed : e = d
    · subst hed
      obtain rfl := h.lists.apart i j e hd he
      rw [setObjs_self]
      constructor
      case size => rw [hself]; exact hb.size
      case aligned => rw [hself]; exact hb.aligned
      case held => rw [hself]; exact hb.held
      case chain =>
        rw [hself]
        refine ⟨rfl, ?_⟩
        have hlink : s'.mem a.1 = (s.desc e).freeptr := Function.update_self a.1 _ s.mem
        rw [hlink]
        exact hb.chain.congr fun o ho => hmem o (hnot i e hd o ho)
      case split =>
        rw [hpages]
        refine List.Perm.trans ?_ hb.split
        refine List.Perm.trans List.perm_middle.symm ?_
        exact hperm.symm.append_left _
      case refcnt =>
        have hlen := hperm.length_eq
        rw [List.length_cons, ← hb.refcnt] at hlen
        have hlt := hb.refcnt_lt
        rw [hpages, hself]
        change ((s.desc e).refcnt + (2 ^ 16 - 1)) % 2 ^ 16 = _
        omega
    · rw [setObjs_of_ne L hed]
      have hlive' : s'.liveIn (s.desc e).page = s.liveIn (s.desc e).page := by
        rw [hlive, List.filter_eq_self]
        intro o ho
        have hpo := (mem_liveIn.mp ho).1
        have hpe := h.page_ne hd he hed
        simp only [ne_eq, decide_eq_true_eq]
        rintro rfl
        exact hpe (hpo.symm.trans hp)
      exact (h.bucket j e he).congr (hpages e) (by rw [hne e hed]) (by rw [hne e hed])
        (by rw [hne e hed]) (h.bucket j e he).held (fun o ho => hmem o (hnot j e he o ho)) hlive'
  · intro c hc
    obtain ⟨j, hj, e, he, hpe⟩ := h.live c (List.mem_filter.mp hc).1
    exact ⟨j, hj, e, he, hpe.trans (hpages e).symm⟩
  · exact h.liveNodup.sublist (List.filter_sublist.map Prod.fst)

/-! ### Descriptors and buckets are made -/

/-- Only the links change. -/
theorem linkDescs_fields (desc : Nat → BucketDesc) (a n : Nat) (last : Option Nat) (e : Nat) :
    ∃ v, linkDescs desc a last n e = { desc e with next := v } := by
  have hset : ∀ (desc : Nat → BucketDesc) a v, ∃ w, setNext desc a v e = { desc e with next := w } := by
    intro desc a v
    unfold setNext
    split
    · exact ⟨v, rfl⟩
    · exact ⟨(desc e).next, rfl⟩
  induction n generalizing desc a with
  | zero => exact hset desc a last
  | succ n ih =>
      obtain ⟨v, hv⟩ := ih (setNext desc a (some (a + 16))) (a + 16)
      obtain ⟨w, hw⟩ := hset desc a (some (a + 16))
      exact ⟨v, by rw [linkDescs, hv, hw]⟩

theorem linkDescs_next (desc : Nat → BucketDesc) (a n : Nat) (last : Option Nat) :
    (fun e => (linkDescs desc a last n e).next) =
      thread (fun e => (desc e).next) 16 a last n := by
  have hset : ∀ (desc : Nat → BucketDesc) a v,
      (fun e => (setNext desc a v e).next) = Function.update (fun e => (desc e).next) a v := by
    intro desc a v
    funext e
    rw [Function.update_apply, setNext]
    split <;> rfl
  induction n generalizing desc a with
  | zero => exact hset desc a last
  | succ n ih => rw [linkDescs, ih, hset, thread]

theorem pageOf_mem_of_descriptor (h : Heap s L) (hd : d ∈ s.descriptors) :
    pageOf d ∈ s.held := by
  obtain ⟨p, hp, hd⟩ := mem_descriptors.mp hd
  have hpage := h.pages.descPage p hp
  rw [pageOf_descriptor hpage.1 hd]
  exact hpage.2.1

theorem initBucketDesc_heap (h : Heap s L) {first : Nat} (hf : s.fresh first) :
    ∃ s' L', initBucketDesc s (some first) = .next s' ∧ Heap s' L' ∧ L'.chains = L.chains ∧
      s'.freeBucketDesc = some first ∧ s'.chain = s.chain ∧
      ∀ e, (s'.desc e).refcnt = (s.desc e).refcnt ∧ (s'.desc e).freeptr = (s.desc e).freeptr := by
  obtain ⟨haligned, hnew⟩ := hf
  -- the loop is not to be run here
  obtain ⟨n, hn⟩ : ∃ n, PAGE_SIZE / 16 - 1 = n := ⟨_, rfl⟩
  let block := addresses 16 first n
  let s' : State := { s with
    desc := linkDescs s.desc first s.freeBucketDesc n
    freeBucketDesc := some first
    held := first :: s.held
    descPages := first :: s.descPages }
  let L' : Layout := { L with free := block ++ L.free }
  have hinit : initBucketDesc s (some first) = .next s' := by
    rw [initBucketDesc, hn]
    exact if_pos ⟨haligned, hnew⟩
  have hdesc : ∀ e, ∃ v, s'.desc e = { s.desc e with next := v } :=
    linkDescs_fields s.desc first n s.freeBucketDesc
  have hnext : s'.next = thread s.next 16 first s.freeBucketDesc n :=
    linkDescs_next s.desc first n s.freeBucketDesc
  have hdescs : s'.descriptors = block ++ s.descriptors := by
    unfold State.descriptors
    rw [hn]
    rfl
  have hold : ∀ e ∈ s.descriptors, e ∉ block := by
    intro e he hb
    refine hnew ?_
    rw [← pageOf_descriptor haligned (by rw [hn]; exact hb)]
    exact pageOf_mem_of_descriptor h he
  have hchain : ∀ i, ∀ e ∈ L.chains i, e ∉ block := fun i e he =>
    hold e ((h.lists.descs e).mpr (Or.inr ⟨i, he⟩))
  have hpages : ∀ e, (s'.desc e).page = (s.desc e).page := fun e => by
    obtain ⟨v, hv⟩ := hdesc e
    rw [hv]
  refine ⟨s', L', hinit, ⟨?_, fun i e he => ?_, ?_, ?_, h.liveNodup⟩, rfl, rfl, rfl, fun e => ?_⟩
  · constructor
    case chain =>
      intro i
      rw [hnext]
      exact (h.lists.chain i).congr fun e he => thread_of_notMem (hchain i e he)
    case free =>
      rw [hnext]
      refine chain_thread (by decide) h.lists.free fun e he => ?_
      exact hold e ((h.lists.descs e).mpr (Or.inl he))
    case descs =>
      intro e
      rw [hdescs]
      change _ ↔ e ∈ block ++ L.free ∨ _
      rw [List.mem_append, List.mem_append, h.lists.descs, or_assoc]
    case freeApart =>
      intro e he i hi
      rcases List.mem_append.mp he with hb | hl
      · exact hchain i e hi hb
      · exact h.lists.freeApart e hl i hi
    case apart => exact h.lists.apart
  · have hb := h.bucket i e he
    obtain ⟨v, hv⟩ := hdesc e
    exact hb.congr (by rw [hv]) (by rw [hv]) (by rw [hv]) (by rw [hv])
      (List.mem_cons_of_mem _ hb.held) (fun _ _ => rfl) rfl
  · constructor
    case page => simp only [hpages]; exact h.pages.page
    case descPage =>
      intro p hp
      simp only [hpages]
      rcases List.mem_cons.mp hp with rfl | hp
      · refine ⟨haligned, List.mem_cons_self, ?_⟩
        rintro i e he rfl
        exact hnew (h.bucket i e he).held
      · obtain ⟨h₁, h₂, h₃⟩ := h.pages.descPage p hp
        exact ⟨h₁, List.mem_cons_of_mem _ h₂, h₃⟩
    case descPages =>
      refine List.nodup_cons.mpr ⟨fun hp => hnew ?_, h.pages.descPages⟩
      exact (h.pages.descPage first hp).2.1
    case held =>
      intro p hp
      simp only [hpages]
      rcases List.mem_cons.mp hp with rfl | hp
      · exact Or.inl List.mem_cons_self
      · exact (h.pages.held p hp).imp (List.mem_cons_of_mem _) id
    case heldNodup => exact List.nodup_cons.mpr ⟨hnew, h.pages.heldNodup⟩
  · intro a ha
    simp only [hpages]
    exact h.live a ha
  · obtain ⟨v, hv⟩ := hdesc e
    exact ⟨by rw [hv], by rw [hv]⟩

theorem newBucket_heap (h : Heap s L) (i : Fin 9) (hd : s.freeBucketDesc = some d) {cp : Nat}
    (hf : s.fresh cp) :
    ∃ s' L', newBucket s i d (some cp) = .next s' ∧ Heap s' L' ∧ d ∈ L'.chains i ∧
      (s'.desc d).freeptr = some cp ∧
      ∀ j, ∀ e ∈ L'.chains j, e ≠ d → e ∈ L.chains j ∧ s'.desc e = s.desc e := by
  obtain ⟨haligned, hnew⟩ := hf
  obtain ⟨rest, hfree, hrest⟩ : ∃ rest, L.free = d :: rest ∧ Chain s.next (s.next d) rest := by
    have hc := h.lists.free
    rw [hd] at hc
    cases hl : L.free with
    | nil =>
        rw [hl] at hc
        cases hc
    | cons a rest =>
        rw [hl] at hc
        obtain ⟨ha, hc⟩ := hc
        cases ha
        exact ⟨rest, rfl, hc⟩
  have hdfree : d ∈ L.free := by rw [hfree]; exact List.mem_cons_self
  have hdrest : d ∉ rest := by
    have := h.lists.free.nodup
    rw [hfree] at this
    exact (List.nodup_cons.mp this).1
  have hdchain : ∀ j, d ∉ L.chains j := h.lists.freeApart d hdfree
  let block := slots cp (bucketDirSize i)
  let b : BucketDesc := {
    page := cp, next := s.chain i, freeptr := some cp, refcnt := 0
    bucketSize := bucketDirSize i }
  let s' : State := { s with
    freeBucketDesc := (s.desc d).next
    desc := Function.update s.desc d b
    mem := thread s.mem (bucketDirSize i) cp none (PAGE_SIZE / bucketDirSize i - 1)
    chain := Function.update s.chain i (some d)
    held := cp :: s.held }
  let L' : Layout := {
    chains := Function.update L.chains i (d :: L.chains i)
    free := rest
    objs := Function.update L.objs d block }
  have hmake : newBucket s i d (some cp) = .next s' := if_pos ⟨haligned, hnew⟩
  have hself : s'.desc d = b := Function.update_self d b s.desc
  have hne : ∀ e, e ≠ d → s'.desc e = s.desc e := fun e he => Function.update_of_ne he b s.desc
  have hnext : ∀ e, e ≠ d → s'.next e = s.next e := fun e he => congrArg BucketDesc.next (hne e he)
  have hchains : ∀ j e, e ∈ L'.chains j ↔ j = i ∧ e = d ∨ e ∈ L.chains j := by
    intro j e
    change e ∈ Function.update L.chains i (d :: L.chains i) j ↔ _
    rw [Function.update_apply]
    split
    · next hj =>
        subst hj
        simp
    · next hj => simp [hj]
  have hned : ∀ j e, e ∈ L.chains j → e ≠ d := by
    rintro j e he rfl
    exact hdchain j he
  have hpageNe : ∀ j e, e ∈ L.chains j → (s.desc e).page ≠ cp := by
    rintro j e he rfl
    exact hnew (h.bucket j e he).held
  have hempty : s.liveIn cp = [] := by
    refine List.eq_nil_iff_forall_not_mem.mpr fun o ho => ?_
    obtain ⟨rfl, a, ha, rfl⟩ := mem_liveIn.mp ho
    obtain ⟨j, -, e, he, hp⟩ := h.live a ha
    exact hpageNe j e he hp.symm
  refine ⟨s', L', hmake, ⟨?_, fun j e he => ?_, ?_, ?_, h.liveNodup⟩,
    (hchains i d).mpr (Or.inl ⟨rfl, rfl⟩), by rw [hself], ?_⟩
  · constructor
    case chain =>
      intro j
      change Chain s'.next (Function.update s.chain i (some d) j)
        (Function.update L.chains i (d :: L.chains i) j)
      have hold : Chain s'.next (s.chain j) (L.chains j) :=
        (h.lists.chain j).congr fun e he => hnext e (hned j e he)
      by_cases hj : j = i
      · subst hj
        rw [Function.update_self, Function.update_self]
        refine ⟨rfl, ?_⟩
        have hlink : s'.next d = s.chain j := congrArg BucketDesc.next hself
        rw [hlink]
        exact hold
      · rw [Function.update_of_ne hj, Function.update_of_ne hj]
        exact hold
    case free =>
      refine hrest.congr fun e he => hnext e ?_
      rintro rfl
      exact hdrest he
    case descs =>
      intro e
      change e ∈ s.descriptors ↔ e ∈ rest ∨ _
      rw [h.lists.descs, hfree, List.mem_cons]
      simp only [hchains]
      constructor
      · rintro ((rfl | hr) | ⟨j, hj⟩)
        · exact Or.inr ⟨i, Or.inl ⟨rfl, rfl⟩⟩
        · exact Or.inl hr
        · exact Or.inr ⟨j, Or.inr hj⟩
      · rintro (hr | ⟨j, ⟨-, rfl⟩ | hj⟩)
        · exact Or.inl (Or.inr hr)
        · exact Or.inl (Or.inl rfl)
        · exact Or.inr ⟨j, hj⟩
    case freeApart =>
      intro e he j hj
      rcases (hchains j e).mp hj with ⟨-, rfl⟩ | hj
      · exact hdrest he
      · exact h.lists.freeApart e (by rw [hfree]; exact List.mem_cons_of_mem _ he) j hj
    case apart =>
      intro j k e hj hk
      rcases (hchains j e).mp hj with ⟨rfl, rfl⟩ | hj' <;>
        rcases (hchains k e).mp hk with ⟨rfl, he⟩ | hk'
      · rfl
      · exact absurd hk' (hdchain k)
      · exact absurd (he ▸ hj') (hdchain j)
      · exact h.lists.apart j k e hj' hk'
  · rcases (hchains j e).mp he with ⟨rfl, rfl⟩ | he
    · change InBucket s' j e (Function.update L.objs e block e)
      rw [Function.update_self]
      constructor
      case size => rw [hself]
      case aligned => rw [hself]; exact haligned
      case held => rw [hself]; exact List.mem_cons_self
      case chain =>
        rw [hself]
        have hthread := chain_thread (n := PAGE_SIZE / bucketDirSize j - 1) (a := cp)
          (bucketDirSize_pos j) (show Chain s.mem _ [] from rfl) (by simp)
        rwa [List.append_nil] at hthread
      case split =>
        rw [hself]
        have hnil : s'.liveIn cp = [] := hempty
        change (block ++ s'.liveIn cp).Perm block
        rw [hnil, List.append_nil]
      case refcnt =>
        rw [hself]
        change 0 = (s.liveIn cp).length
        rw [hempty]
        rfl
    · change InBucket s' j e (Function.update L.objs d block e)
      have hed := hned j e he
      have hb := h.bucket j e he
      rw [Function.update_of_ne hed]
      refine hb.congr (by rw [hne e hed]) (by rw [hne e hed]) (by rw [hne e hed])
        (by rw [hne e hed]) (List.mem_cons_of_mem _ hb.held) (fun o ho => ?_) rfl
      refine thread_of_notMem fun hblock => hpageNe j e he ?_
      exact (hb.pageOf_obj ho).symm.trans (pageOf_slot haligned hblock)
  · constructor
    case page =>
      intro j k e f he hf hp
      rcases (hchains j e).mp he with ⟨rfl, rfl⟩ | he' <;>
        rcases (hchains k f).mp hf with ⟨rfl, rfl⟩ | hf'
      · rfl
      · rw [hself, hne f (hned k f hf')] at hp
        exact absurd hp.symm (hpageNe k f hf')
      · rw [hself, hne e (hned j e he')] at hp
        exact absurd hp (hpageNe j e he')
      · rw [hne e (hned j e he'), hne f (hned k f hf')] at hp
        exact h.pages.page j k e f he' hf' hp
    case descPage =>
      intro p hp
      obtain ⟨h₁, h₂, h₃⟩ := h.pages.descPage p hp
      refine ⟨h₁, List.mem_cons_of_mem _ h₂, fun j e he => ?_⟩
      rcases (hchains j e).mp he with ⟨rfl, rfl⟩ | he
      · rw [hself]
        rintro rfl
        exact hnew h₂
      · rw [hne e (hned j e he)]
        exact h₃ j e he
    case descPages => exact h.pages.descPages
    case held =>
      intro p hp
      rcases List.mem_cons.mp hp with rfl | hp
      · exact Or.inr ⟨i, d, (hchains i d).mpr (Or.inl ⟨rfl, rfl⟩), by rw [hself]⟩
      · refine (h.pages.held p hp).imp id ?_
        rintro ⟨j, e, he, hpe⟩
        exact ⟨j, e, (hchains j e).mpr (Or.inr he), by rw [hne e (hned j e he), hpe]⟩
    case heldNodup => exact List.nodup_cons.mpr ⟨hnew, h.pages.heldNodup⟩
  · intro a ha
    obtain ⟨j, hj, e, he, hp⟩ := h.live a ha
    exact ⟨j, hj, e, (hchains j e).mpr (Or.inr he), by rw [hne e (hned j e he), hp]⟩
  · intro j e he hed
    rcases (hchains j e).mp he with ⟨-, rfl⟩ | he
    · exact absurd rfl hed
    · exact ⟨he, hne e hed⟩

/-! ### Buckets are given back -/

/-- `d` is out of chain `i`, where `last` was before it. -/
structure Unchained (s s' : State) (i : Fin 9) (d : Nat) (last : Option Nat) : Prop where
  next : ∀ e, s'.next e = if last = some e then s.next d else s.next e
  chain : ∀ j, s'.chain j = if j = i ∧ last.isNone then s.next d else s.chain j
  desc : ∀ e, ∃ v, s'.desc e = { s.desc e with next := v }
  mem : s'.mem = s.mem
  freeBucketDesc : s'.freeBucketDesc = s.freeBucketDesc
  held : s'.held = s.held
  descPages : s'.descPages = s.descPages
  live : s'.live = s.live

/-- `prev` is right, and the chains are not corrupted. -/
theorem unchain_eq {l₁ l₂ : List Nat} (hc : Chain s.next (s.chain i) (l₁ ++ d :: l₂)) :
    ∃ s', unchain s i d l₁.getLast? = .next s' ∧ Unchained s s' i d l₁.getLast? := by
  have hlink := hc.link
  unfold unchain
  cases hl : l₁.getLast? with
  | none =>
      rw [hl] at hlink
      dsimp only at hlink
      have hstale : stale s i d none = false := by
        rw [stale, hlink]
        simp
      rw [hstale, if_neg Bool.false_ne_true]
      dsimp only
      rw [if_neg (fun h => h hlink)]
      refine ⟨_, rfl, fun e => ?_, fun j => ?_, fun e => ⟨s.next e, rfl⟩, rfl, rfl, rfl, rfl, rfl⟩
      · rw [if_neg (by simp)]
        rfl
      · simp only [Function.update_apply, Option.isNone_none, and_true]
  | some p =>
      rw [hl] at hlink
      dsimp only at hlink
      have hstale : stale s i d (some p) = false := by
        rw [stale, hlink]
        simp
      rw [hstale, if_neg Bool.false_ne_true]
      refine ⟨_, rfl, fun e => ?_, fun j => ?_, fun e => ?_, rfl, rfl, rfl, rfl, rfl⟩
      · unfold State.next setNext
        dsimp only
        by_cases hep : e = p
        · rw [if_pos hep, if_pos (congrArg some hep.symm)]
        · rw [if_neg hep, if_neg (fun h => hep (Option.some.inj h).symm)]
      · simp
      · dsimp only
        unfold setNext
        split
        · exact ⟨_, rfl⟩
        · exact ⟨(s.desc e).next, rfl⟩

theorem freeBucket_heap (h : Heap s L) {l₁ l₂ : List Nat} (hi : L.chains i = l₁ ++ d :: l₂)
    (hzero : (s.desc d).refcnt = 0) :
    ∃ s' L', freeBucket s i d l₁.getLast? = .next s' ∧ Heap s' L' ∧
      ∀ j, ∀ e ∈ L'.chains j, e ∈ L.chains j ∧ e ≠ d ∧ (s'.desc e).refcnt = (s.desc e).refcnt := by
  have hchain : Chain s.next (s.chain i) (l₁ ++ d :: l₂) := hi ▸ h.lists.chain i
  have hd : d ∈ L.chains i := by
    rw [hi]
    exact List.mem_append_right _ List.mem_cons_self
  have hb := h.bucket i d hd
  obtain ⟨s₁, hs₁, hu⟩ := unchain_eq hchain
  obtain ⟨v, hv⟩ := hu.desc d
  have hpage : (s₁.desc d).page = (s.desc d).page := by rw [hv]
  let s' : State := { s₁ with
    held := s₁.held.erase (s₁.desc d).page
    desc := setNext s₁.desc d s₁.freeBucketDesc
    freeBucketDesc := some d }
  let L' : Layout := { L with
    chains := Function.update L.chains i (l₁ ++ l₂)
    free := d :: L.free }
  have hfree : freeBucket s i d l₁.getLast? = .next s' := by
    have hheld : (s₁.desc d).page ∈ s₁.held := by rw [hu.held, hpage]; exact hb.held
    rw [freeBucket, hs₁, Outcome.bind_next, freePage, if_pos hheld, Outcome.bind_next]
  have hdesc : ∀ e, ∃ v, s'.desc e = { s.desc e with next := v } := by
    intro e
    obtain ⟨v, hv⟩ := hu.desc e
    change ∃ v, setNext s₁.desc d s₁.freeBucketDesc e = { s.desc e with next := v }
    unfold setNext
    split
    · exact ⟨s₁.freeBucketDesc, by rw [hv]⟩
    · exact ⟨v, hv⟩
  have hpages : ∀ e, (s'.desc e).page = (s.desc e).page := fun e => by
    obtain ⟨v, hv⟩ := hdesc e
    rw [hv]
  have hnextD : s'.next d = s.freeBucketDesc := by
    change (setNext s₁.desc d s₁.freeBucketDesc d).next = _
    rw [setNext, if_pos rfl, hu.freeBucketDesc]
  have hnext : ∀ e, e ≠ d → s'.next e = s₁.next e := by
    intro e he
    change (setNext s₁.desc d s₁.freeBucketDesc e).next = _
    rw [setNext, if_neg he]
    rfl
  have hnd := hchain.nodup
  have hdnot : d ∉ l₁ ++ l₂ := List.Nodup.notMem (List.nodup_middle.mp hnd)
  have hchains : ∀ j e, e ∈ L'.chains j ↔ e ∈ L.chains j ∧ e ≠ d := by
    intro j e
    change e ∈ Function.update L.chains i (l₁ ++ l₂) j ↔ _
    rw [Function.update_apply]
    split
    · next hj =>
        subst hj
        rw [hi]
        constructor
        · intro he
          refine ⟨?_, fun hed => hdnot (hed ▸ he)⟩
          rcases List.mem_append.mp he with he | he
          · exact List.mem_append_left _ he
          · exact List.mem_append_right _ (List.mem_cons_of_mem _ he)
        · rintro ⟨he, hne⟩
          rcases List.mem_append.mp he with he | he
          · exact List.mem_append_left _ he
          · exact List.mem_append_right _ ((List.mem_cons.mp he).resolve_left hne)
    · next hj =>
        refine ⟨fun he => ⟨he, ?_⟩, And.left⟩
        rintro rfl
        exact hj (h.lists.apart j i e he hd)
  -- what is on no part of chain `i` keeps its link
  have hkeep : ∀ e, e ∉ L.chains i → s'.next e = s.next e := by
    intro e he
    have hed : e ≠ d := fun hed => he (hed ▸ hd)
    rw [hnext e hed, hu.next, if_neg]
    intro hl
    refine he ?_
    rw [hi]
    exact List.mem_append_left _ (List.mem_of_getLast? hl)
  have herase : ∀ p, p ∈ s'.held ↔ p ≠ (s.desc d).page ∧ p ∈ s.held := by
    intro p
    change p ∈ s₁.held.erase (s₁.desc d).page ↔ _
    rw [hu.held, hpage]
    exact h.pages.heldNodup.mem_erase_iff
  have hlive : s'.live = s.live := hu.live
  have hliveIn : ∀ p, s'.liveIn p = s.liveIn p := fun p => by
    unfold State.liveIn
    rw [hlive]
  have hpagesDesc : s'.descPages = s.descPages := hu.descPages
  refine ⟨s', L', hfree, ⟨?_, fun j e he => ?_, ?_, ?_, ?_⟩, fun j e he => ?_⟩
  · constructor
    case chain =>
      intro j
      change Chain s'.next (s₁.chain j) (Function.update L.chains i (l₁ ++ l₂) j)
      rw [hu.chain]
      by_cases hj : j = i
      · subst hj
        rw [Function.update_self]
        have hun := (hchain.unlink hu.next).congr fun e he =>
          hnext e fun hed => hdnot (hed ▸ he)
        simpa only [true_and] using hun
      · rw [Function.update_of_ne hj, if_neg (fun hji => hj hji.1)]
        exact (h.lists.chain j).congr fun e he => hkeep e fun hei => hj (h.lists.apart j i e he hei)
    case free =>
      refine ⟨rfl, ?_⟩
      rw [hnextD]
      exact h.lists.free.congr fun e he => hkeep e (h.lists.freeApart e he i)
    case descs =>
      intro e
      have hdescs : s'.descriptors = s.descriptors := by
        unfold State.descriptors
        rw [hpagesDesc]
      change _ ↔ e ∈ d :: L.free ∨ _
      rw [hdescs, h.lists.descs, List.mem_cons]
      simp only [hchains]
      constructor
      · rintro (he | ⟨j, he⟩)
        · exact Or.inl (Or.inr he)
        · by_cases hed : e = d
          · exact Or.inl (Or.inl hed)
          · exact Or.inr ⟨j, he, hed⟩
      · rintro ((rfl | he) | ⟨j, he, -⟩)
        · exact Or.inr ⟨i, hd⟩
        · exact Or.inl he
        · exact Or.inr ⟨j, he⟩
    case freeApart =>
      intro e he j hj
      obtain ⟨hej, hed⟩ := (hchains j e).mp hj
      exact h.lists.freeApart e ((List.mem_cons.mp he).resolve_left hed) j hej
    case apart =>
      intro j k e hj hk
      exact h.lists.apart j k e ((hchains j e).mp hj).1 ((hchains k e).mp hk).1
  · obtain ⟨hej, hed⟩ := (hchains j e).mp he
    have hbe := h.bucket j e hej
    obtain ⟨v, hv⟩ := hdesc e
    exact hbe.congr (by rw [hv]) (by rw [hv]) (by rw [hv]) (by rw [hv])
      ((herase _).mpr ⟨h.page_ne hd hej hed, hbe.held⟩) (fun o _ => congrFun hu.mem o) (hliveIn _)
  · constructor
    case page =>
      intro j k e f he hf hp
      rw [hpages, hpages] at hp
      exact h.pages.page j k e f ((hchains j e).mp he).1 ((hchains k f).mp hf).1 hp
    case descPage =>
      intro p hp
      rw [hpagesDesc] at hp
      obtain ⟨h₁, h₂, h₃⟩ := h.pages.descPage p hp
      refine ⟨h₁, (herase p).mpr ⟨(h₃ i d hd).symm, h₂⟩, fun j e he => ?_⟩
      rw [hpages]
      exact h₃ j e ((hchains j e).mp he).1
    case descPages => rw [hpagesDesc]; exact h.pages.descPages
    case held =>
      intro p hp
      obtain ⟨hne, hp⟩ := (herase p).mp hp
      rw [hpagesDesc]
      refine (h.pages.held p hp).imp id ?_
      rintro ⟨j, e, he, rfl⟩
      exact ⟨j, e, (hchains j e).mpr ⟨he, fun hed => hne (by rw [hed])⟩, hpages e⟩
    case heldNodup =>
      change (s₁.held.erase (s₁.desc d).page).Nodup
      rw [hu.held]
      exact h.pages.heldNodup.erase _
  · rw [hlive]
    intro a ha
    obtain ⟨j, hj, e, he, hp⟩ := h.live a ha
    refine ⟨j, hj, e, (hchains j e).mpr ⟨he, ?_⟩, by rw [hpages, hp]⟩
    -- the bucket of an object in use is not empty
    rintro rfl
    have hmem := mem_liveIn.mpr ⟨hp, a, ha, rfl⟩
    rw [hb.refcnt] at hzero
    rw [List.eq_nil_of_length_eq_zero hzero] at hmem
    cases hmem
  · rw [hlive]
    exact h.liveNodup
  · obtain ⟨hej, hed⟩ := (hchains j e).mp he
    obtain ⟨v, hv⟩ := hdesc e
    exact ⟨hej, hed, by rw [hv]⟩

/-! ### Calls -/

/-- The only panics are for want of memory. -/
def OutOfMemory (msg : String) : Prop :=
  msg = "Out of memory in init_bucket_desc()" ∨ msg = "Out of memory in kernel malloc()"

/-- Between calls: the lists are in order, and no bucket is empty. -/
def Good (s : State) : Prop := ∃ L, Heap s L ∧ L.InUse s

theorem malloc_good (hg : Good s) {len : Nat} (hlen : len ≤ PAGE_SIZE) (page page' : Option Nat) :
    (malloc s len page page').Ends OutOfMemory Good := by
  obtain ⟨L, h, hu⟩ := hg
  obtain ⟨i, hi⟩ := bucketFor_isSome hlen
  unfold malloc
  rw [hi]
  dsimp only
  rw [(h.lists.chain i).walk_eq (h.chain_length i)]
  cases hf : (L.chains i).find? fun d => (s.desc d).freeptr.isSome with
  | some d =>
      have hd := List.mem_of_find?_eq_some hf
      have hsome : (s.desc d).freeptr.isSome = true :=
        List.find?_some (p := fun d => (s.desc d).freeptr.isSome) hf
      obtain ⟨o, ho⟩ := Option.isSome_iff_exists.mp hsome
      obtain ⟨s', L', hs', h', hu'⟩ := takeObject_heap h hd hi ho fun j e he _ => hu j e he
      dsimp only
      rw [hs']
      exact ⟨L', h', hu'⟩
  | none =>
      dsimp only
      -- there is a free descriptor now
      refine Outcome.Ends.bind (P := fun t => ∃ L', Heap t L' ∧ L'.InUse t ∧
        t.freeBucketDesc.isSome) ?_ ?_
      · split
        · cases page with
          | none => exact Or.inl rfl
          | some first =>
              by_cases hfresh : s.fresh first
              · obtain ⟨t, L', ht, h', hchains, hfree, -, hdesc⟩ := initBucketDesc_heap h hfresh
                rw [ht]
                refine ⟨L', h', fun j e he => ?_, by rw [hfree]; rfl⟩
                rw [hchains] at he
                rw [(hdesc e).1]
                exact hu j e he
              · rw [initBucketDesc, if_neg hfresh]
                exact True.intro
        · next hsome =>
            refine ⟨L, h, hu, ?_⟩
            simpa [Option.isSome_iff_ne_none] using hsome
      · rintro t ⟨L', h', hu', hsome⟩
        obtain ⟨d, hd⟩ := Option.isSome_iff_exists.mp hsome
        rw [hd]
        dsimp only
        cases page' with
        | none => exact Or.inr rfl
        | some cp =>
            by_cases hfresh : t.fresh cp
            · obtain ⟨u, L'', hu₁, h'', hmem, hfree, hold⟩ := newBucket_heap h' i hd hfresh
              rw [hu₁, Outcome.bind_next]
              obtain ⟨v, L₃, hv, h₃, hu₃⟩ := takeObject_heap h'' hmem hi hfree fun j e he hne => by
                obtain ⟨he', hdesc⟩ := hold j e he hne
                rw [hdesc]
                exact hu' j e he'
              rw [hv]
              exact ⟨L₃, h₃, hu₃⟩
            · have hdis : newBucket t i d (some cp) = .disabled := if_neg hfresh
              rw [hdis]
              exact True.intro

/-- `free_s` finds the bucket, from any size up to that of the object. -/
theorem findBucket_eq (h : Heap s L) (hd : d ∈ L.chains i) {size : Nat}
    (hsize : size ≤ bucketDirSize i) {is : List (Fin 9)} (his : i ∈ is) :
    ∃ l₁ l₂, L.chains i = l₁ ++ d :: l₂ ∧
      findBucket s (s.desc d).page size is = some (some (i, d, l₁.getLast?)) := by
  induction is with
  | nil => cases his
  | cons j is ih =>
      rw [findBucket]
      have hother : ∀ e ∈ L.chains j, (s.desc e).page = (s.desc d).page → e = d ∧ j = i := by
        intro e he hp
        obtain rfl := h.pages.page j i e d he hd hp
        exact ⟨rfl, h.lists.apart j i e he hd⟩
      by_cases hj : j = i
      · subst hj
        rw [if_neg (by omega)]
        rcases (h.lists.chain j).walkPrev_cases (P := fun e => (s.desc e).page = (s.desc d).page)
          (h.chain_length j) none with ⟨hall, -⟩ | ⟨l₁, e, l₂, hl, he, -, hw⟩
        · exact absurd (hall d hd) (by simp)
        · obtain ⟨rfl, -⟩ := hother e (by rw [hl]; simp) (of_decide_eq_true he)
          refine ⟨l₁, l₂, hl, ?_⟩
          rw [hw, Option.or_none]
      · obtain ⟨l₁, l₂, hl, hrest⟩ := ih ((List.mem_cons.mp his).resolve_left (Ne.symm hj))
        refine ⟨l₁, l₂, hl, ?_⟩
        split
        · exact hrest
        · rcases (h.lists.chain j).walkPrev_cases (P := fun e => (s.desc e).page = (s.desc d).page)
            (h.chain_length j) none with ⟨-, prev', hw⟩ | ⟨k₁, e, k₂, hk, he, -, -⟩
          · rw [hw]
            exact hrest
          · exact absurd (hother e (by rw [hk]; simp) (of_decide_eq_true he)).2 hj

theorem freeS_good (hg : Good s) {a : Nat × Nat} (ha : a ∈ s.live) {size : Nat}
    (hsize : size = 0 ∨ size = a.2) : (freeS s a.1 size).Ends OutOfMemory Good := by
  obtain ⟨L, h, hu⟩ := hg
  obtain ⟨i, hi, d, hd, hp⟩ := h.live a ha
  have hle : size ≤ bucketDirSize i := by
    rcases hsize with rfl | rfl
    · exact Nat.zero_le _
    · exact le_of_bucketFor hi
  obtain ⟨l₁, l₂, hl, hfind⟩ := findBucket_eq h hd hle (List.mem_finRange i)
  have hput := putObject_heap h hd ha hp
  unfold freeS
  rw [hp, hfind]
  dsimp only
  have hrefcnt : ∀ e, e ≠ d → ((putObject s d a.1).desc e).refcnt = (s.desc e).refcnt :=
    fun e he => by rw [(putObject_desc s d a.1 e).2.2 he]
  split
  · next hzero =>
      obtain ⟨s', L', hs', h', hold⟩ := freeBucket_heap hput hl hzero
      rw [hs']
      refine ⟨L', h', fun j e he => ?_⟩
      obtain ⟨he', hed, hre⟩ := hold j e he
      rw [hre, hrefcnt e hed]
      exact hu j e he'
  · next hpos =>
      refine ⟨_, hput, fun j e he => ?_⟩
      by_cases hed : e = d
      · rw [hed]
        exact hpos
      · rw [hrefcnt e hed]
        exact hu j e he

/-- A store into an object in use changes no link. -/
theorem store_good (hg : Good s) {a : Nat × Nat} (ha : a ∈ s.live) {x : Nat} (hx : a.1 ≤ x)
    (hx' : x < a.1 + a.2) (v : Option Nat) :
    Good { s with mem := Function.update s.mem x v } := by
  obtain ⟨L, h, hu⟩ := hg
  obtain ⟨i, hi, d, hd, hp⟩ := h.live a ha
  have hb := h.bucket i d hd
  obtain ⟨k, hk, hak⟩ := mem_slots.mp (hb.slot_of_live ha hp)
  have hend := slot_end hk
  have hle := le_of_bucketFor hi
  have hpx : pageOf x = (s.desc d).page := by
    have hxe : x = (s.desc d).page + (x - (s.desc d).page) := by omega
    rw [hxe]
    exact pageOf_add hb.aligned (by omega)
  have hnot : ∀ j, ∀ e ∈ L.chains j, x ∉ L.objs e := by
    intro j e he hxo
    have hbe := h.bucket j e he
    have hpe : (s.desc e).page = (s.desc d).page := (hbe.pageOf_obj hxo).symm.trans hpx
    obtain rfl := h.pages.page j i e d he hd hpe
    obtain rfl := h.lists.apart j i e he hd
    obtain ⟨l, -, hxl⟩ := mem_slots.mp (hbe.split.subset (List.mem_append_left _ hxo))
    -- both are slots, so `x` is the object itself
    have hkl : k = l := by
      have hlt : bucketDirSize j * l < bucketDirSize j * (k + 1) := by
        rw [Nat.mul_succ]
        omega
      have hle' : bucketDirSize j * k < bucketDirSize j * (l + 1) := by
        have := bucketDirSize_pos j
        rw [Nat.mul_succ]
        omega
      have h₁ := Nat.lt_of_mul_lt_mul_left hlt
      have h₂ := Nat.lt_of_mul_lt_mul_left hle'
      omega
    have hxa : x = a.1 := by rw [← hxl, ← hak, hkl]
    exact hbe.notLive hxo (hxa ▸ List.mem_map_of_mem ha)
  refine ⟨L, ⟨h.lists.congr rfl rfl rfl rfl rfl rfl, fun j e he => ?_,
    h.pages.congr (fun _ => rfl) rfl rfl rfl, h.live, h.liveNodup⟩, hu⟩
  have hb := h.bucket j e he
  refine hb.congr rfl rfl rfl rfl hb.held (fun o ho => ?_) rfl
  have hox : o ≠ x := fun hox => hnot j e he (hox ▸ ho)
  exact Function.update_of_ne hox v s.mem

/-- **Every call keeps the lists in order**, and panics at most for want of memory. -/
theorem step_good (hg : Good s) {op : Op} (hok : Ok s op) :
    (step s op).Ends OutOfMemory Good := by
  cases op with
  | malloc len page page' => exact malloc_good hg hok page page'
  | freeS obj size =>
      obtain ⟨a, ha, rfl, hsize⟩ := hok
      exact freeS_good hg ha hsize
  | store x v =>
      rw [step]
      split
      · next hx =>
          obtain ⟨a, ha, hx, hx'⟩ := hx
          exact store_good hg ha hx hx' v
      · exact True.intro

theorem good_initial (desc : Nat → BucketDesc) (mem : Nat → Option Nat) :
    Good (initial desc mem) := by
  refine ⟨⟨fun _ => [], [], fun _ => []⟩, ⟨?_, fun i d hd => ?_, ?_, fun a ha => ?_, List.nodup_nil⟩,
    fun i d hd => ?_⟩
  · exact {
      chain := fun i => rfl
      free := rfl
      descs := fun d => by simp [State.descriptors, initial]
      freeApart := fun d hd => absurd hd List.not_mem_nil
      apart := fun i j d hd => absurd hd List.not_mem_nil }
  · exact absurd hd List.not_mem_nil
  · exact {
      page := fun i j d e hd => absurd hd List.not_mem_nil
      descPage := fun p hp => absurd hp List.not_mem_nil
      descPages := List.nodup_nil
      held := fun p hp => absurd hp List.not_mem_nil
      heldNodup := List.nodup_nil }
  · exact absurd ha List.not_mem_nil
  · exact absurd hd List.not_mem_nil

/-- **The allocator never overlaps or loses objects**, in every state between calls; and
the calls panic at most for want of memory. -/
theorem malloc_sound_reaches {desc : Nat → BucketDesc} {mem : Nat → Option Nat}
    (h : Reaches step Ok (initial desc mem) s) :
    Sound s ∧ ∀ op msg, Ok s op → step s op = .panic msg →
      msg = "Out of memory in init_bucket_desc()" ∨ msg = "Out of memory in kernel malloc()" := by
  have hgood : Good s := h.invariant (good_initial desc mem) fun t op t' ht hok hs =>
    (step_good ht hok).of_next hs
  obtain ⟨L, hL, hu⟩ := id hgood
  refine ⟨sound_of_heap hL hu, fun op msg hok hp => ?_⟩
  have hends := step_good hgood hok
  rw [hp] at hends
  exact hends

/-- Two sizes, a store, and a bucket that is given back. -/
def twoSizesRun : List Op :=
  [.malloc 20 (some 4096) (some 8192), .malloc 2000 none (some 12288), .malloc 30 none none,
    .store 8224 (some 1), .freeS 8192 0, .freeS 12288 2000, .malloc 0 none (some 12288)]

theorem malloc_sound_reaches_twoSizesRun :
    let s₀ := initial (fun _ => ⟨0, none, none, 0, 0⟩) fun _ => none
    let s := (run step s₀ twoSizesRun).get s₀
    (Sound s ∧ ∀ op msg, Ok s op → step s op = .panic msg →
      msg = "Out of memory in init_bucket_desc()" ∨ msg = "Out of memory in kernel malloc()") ∧
      s.live = [(12288, 0), (8224, 30)] ∧ s.held = [12288, 8192, 4096] := by
  intro s₀ s
  have hrun := Outcome.eq_next (o := run step s₀ twoSizesRun) (by decide +kernel) s₀
  have hok : RunOk step Ok s₀ twoSizesRun := by
    repeat' first | exact True.intro | refine RunOk.cons (by decide +kernel) ?_
  exact ⟨malloc_sound_reaches (Reaches.of_run hrun hok), by decide +kernel⟩

end LinuxKernel.V011.Malloc
