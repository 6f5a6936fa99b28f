import LinuxKernel.V011.Fs.Super

/-!
# LinuxKernel.V011.Fs.SuperMaps

**When `read_super` survives a disk.** The loops over the bitmaps are bounded
by two numbers from the disk, the arrays they fill have eight slots.

- `Filled` is what a loop has done when it ends: the slots from `i` on have
  buffers up to the first read that failed, and each of these buffers one
  reference more.
- A loop leaves its array where nothing fails in the first eight reads and
  there are more to do.
-/

namespace LinuxKernel.V011.Fs.Super

variable {s : State} {dev : BitVec 16} {ok : Nat → Bool} {left i k : Nat} {l l' : Loop}
  {disk : DSuper} {reads : Reads}

/-! ### The loops -/

/-- The loop has read `k` blocks. -/
structure Filled (dev : BitVec 16) (ok : Nat → Bool) (left i k : Nat) (l l' : Loop) : Prop where
  le : k ≤ left
  fits : i + k ≤ 8
  read : ∀ j < k, ok (i + j) = true
  stop : k < left → i + k < 8 ∧ ok (i + k) = false
  block : l'.block = l.block + k
  count : ∀ b, l'.count b + refs Finset.univ l.map b = l.count b + refs Finset.univ l'.map b
  map : ∀ x : Fin 8, l'.map x =
    if i ≤ x.val ∧ x.val < i + k then some (dev, l.block + (x.val - i)) else l.map x

/-- A read that succeeded, and the rest of the loop. -/
theorem Filled.cons (hi : i < 8) (hok : ok i = true) (hnone : l.map ⟨i, hi⟩ = none)
    (h : Filled dev ok left (i + 1) k
      ⟨Function.update l.map ⟨i, hi⟩ (some (dev, l.block)),
        Function.update l.count (dev, l.block) (l.count (dev, l.block) + 1), l.block + 1⟩ l') :
    Filled dev ok (left + 1) i (k + 1) l l' where
  le := Nat.succ_le_succ h.le
  fits := by
    have := h.fits
    omega
  read j hj := by
    cases j with
    | zero => exact hok
    | succ j =>
        have := h.read j (by omega)
        rwa [Nat.add_assoc, Nat.add_comm 1 j] at this
  stop hk := by
    have := h.stop (by omega)
    rwa [Nat.add_assoc, Nat.add_comm 1 k] at this
  block := by
    have := h.block
    dsimp only at this
    omega
  count b := by
    have hmap := refs_update (S := Finset.univ) (Finset.mem_univ (⟨i, hi⟩ : Fin 8))
      (g := l.map) (k := Function.update l.map ⟨i, hi⟩ (some (dev, l.block)))
      (fun y _ hy => Function.update_of_ne hy _ _) b
    rw [hnone, if_neg (Option.some_ne_none b).symm, Function.update_self] at hmap
    have hrest := h.count b
    dsimp only at hrest
    rw [Function.update_apply] at hrest
    by_cases hb : b = (dev, l.block)
    · subst hb
      rw [if_pos rfl] at hmap hrest
      omega
    · rw [if_neg hb] at hrest
      rw [if_neg fun he => hb (Option.some.inj he).symm] at hmap
      omega
  map x := by
    rw [h.map]
    dsimp only
    by_cases hx : x.val = i
    · obtain rfl : x = ⟨i, hi⟩ := Fin.ext hx
      rw [if_neg (by dsimp only; omega), if_pos (by dsimp only; omega), Function.update_self]
      exact congrArg (fun n => some (dev, n)) (by dsimp only; omega)
    · have hne : x ≠ ⟨i, hi⟩ := fun he => hx (congrArg Fin.val he)
      rw [Function.update_of_ne hne]
      by_cases hin : i + 1 ≤ x.val ∧ x.val < i + 1 + k
      · rw [if_pos hin, if_pos (by omega)]
        exact congrArg (fun n => some (dev, n)) (by omega)
      · rw [if_neg hin, if_neg (by omega)]

/-- The loop ends behind the array, or with a read that fails, or when it is done. -/
theorem fill_cases (hi : i ≤ 8) (hnone : ∀ x : Fin 8, i ≤ x.val → l.map x = none) :
    (fill dev ok left i l = .error .outside ∧ 8 < i + left ∧ ∀ j, i ≤ j → j < 8 → ok j = true) ∨
      ∃ k l', fill dev ok left i l = .ok l' ∧ Filled dev ok left i k l l' := by
  induction left generalizing i l with
  | zero =>
      refine Or.inr ⟨0, l, rfl, Nat.le_refl 0, hi, fun j hj => absurd hj (Nat.not_lt_zero j),
        fun hk => absurd hk (Nat.lt_irrefl 0), rfl, fun _ => rfl, fun x => (if_neg ?_).symm⟩
      omega
  | succ left ih =>
      by_cases hlt : i < 8
      · cases hok : ok i with
        | true =>
            rw [fill, dif_pos hlt, if_pos hok]
            dsimp only
            refine (ih hlt fun x hx => ?_).imp (fun ⟨he, hmany, hall⟩ => ⟨he, by omega, fun j hij hj => ?_⟩)
              fun ⟨k, l', he, hf⟩ => ⟨k + 1, l', he, hf.cons hlt hok (hnone _ (Nat.le_refl i))⟩
            · dsimp only
              rw [Function.update_of_ne (fun he => by rw [he] at hx; exact Nat.lt_irrefl i hx)]
              exact hnone x (by omega)
            · by_cases hj' : j = i
              · rw [hj', hok]
              · exact hall j (by omega) hj
        | false =>
            have hsame : Function.update l.map ⟨i, hlt⟩ none = l.map := by
              rw [← hnone ⟨i, hlt⟩ (Nat.le_refl i), Function.update_eq_self]
            rw [fill, dif_pos hlt, hok, if_neg Bool.false_ne_true, hsame]
            refine Or.inr ⟨0, l, rfl, Nat.zero_le _, hi, fun j hj => absurd hj (Nat.not_lt_zero j),
              fun _ => ⟨hlt, hok⟩, rfl, fun _ => rfl, fun x => (if_neg ?_).symm⟩
            omega
      · obtain rfl : i = 8 := by omega
        refine Or.inl ⟨by rw [fill, dif_neg (Nat.lt_irrefl 8)], by omega, fun j hij hj => ?_⟩
        omega

/-! ### Releasing -/

/-- `brelse` of all slots takes one reference from each. -/
theorem brelseAll_ok {map : Slots} {is : List (Fin 8)} {count base : Buffer → Nat}
    (h : ∀ b, count b = base b + is.countP fun x => map x = some b) :
    brelseAll map is count = .ok base := by
  induction is generalizing count with
  | nil => exact congrArg Except.ok (funext h)
  | cons x is ih =>
      simp only [List.countP_cons, decide_eq_true_eq] at h
      rw [brelseAll]
      cases hx : map x with
      | none =>
          refine ih fun b => ?_
          rw [h b, hx, if_neg (Option.some_ne_none b).symm, Nat.add_zero]
      | some c =>
          have hc := h c
          rw [hx, if_pos rfl] at hc
          rw [brelse, if_neg (by omega)]
          refine ih fun b => ?_
          rw [Function.update_apply]
          by_cases hb : b = c
          · subst hb
            rw [if_pos rfl]
            omega
          · rw [if_neg hb, h b, hx, if_neg fun he => hb (Option.some.inj he).symm, Nat.add_zero]

/-- What two loops have taken is given back. -/
theorem release_maps (im zm : Slots) (count base : Buffer → Nat)
    (h : ∀ b, count b = base b + refs Finset.univ im b + refs Finset.univ zm b) :
    ∃ mid, brelseAll im (List.finRange 8) count = .ok mid ∧
      brelseAll zm (List.finRange 8) mid = .ok base := by
  refine ⟨fun b => base b + refs Finset.univ zm b, brelseAll_ok fun b => ?_, brelseAll_ok fun b => ?_⟩
  · rw [h b, refs_eq_countP im]
    exact Nat.add_right_comm _ _ _
  · rw [refs_eq_countP]

/-! ### `read_super` -/

/-- The loops stay in their arrays, and bitmaps that can be read are not empty. -/
structure Sane (disk : DSuper) (reads : Reads) : Prop where
  imap : disk.imapBlocks.toNat ≤ 8 ∨ ∃ j < 8, reads.imap j = false
  zmap : disk.zmapBlocks.toNat ≤ 8 ∨ ∃ j < 8, reads.zmap j = false
  nonempty : (∀ j < disk.imapBlocks.toNat, reads.imap j = true) →
    (∀ j < disk.zmapBlocks.toNat, reads.zmap j = true) →
    0 < disk.imapBlocks.toNat ∧ 0 < disk.zmapBlocks.toNat

/-- A loop from the start of its array. -/
theorem fill_start (dev : BitVec 16) (ok : Nat → Bool) (n : Nat) (count : Buffer → Nat)
    (block : Nat) :
    (fill dev ok n 0 ⟨fun _ => none, count, block⟩ = .error .outside ∧
        ¬ (n ≤ 8 ∨ ∃ j < 8, ok j = false)) ∨
      ∃ k l', fill dev ok n 0 ⟨fun _ => none, count, block⟩ = .ok l' ∧
        Filled dev ok n 0 k ⟨fun _ => none, count, block⟩ l' ∧ (n ≤ 8 ∨ ∃ j < 8, ok j = false) := by
  refine (fill_cases (Nat.zero_le 8) fun _ _ => rfl).imp (fun ⟨he, hmany, hall⟩ => ⟨he, ?_⟩)
    fun ⟨k, l', he, hf⟩ => ⟨k, l', he, hf, ?_⟩
  · rintro (hn | ⟨j, hj, hno⟩)
    · omega
    · rw [hall j (Nat.zero_le j) hj] at hno
      cases hno
  · rcases Nat.lt_or_ge k n with hk | hk
    · obtain ⟨hlt, hno⟩ := hf.stop hk
      exact Or.inr ⟨_, hlt, hno⟩
    · have := hf.fits
      exact Or.inl (by omega)

/-- All blocks are read exactly where no read fails. -/
theorem Filled.all_iff (h : Filled dev ok left 0 k l l') : k = left ↔ ∀ j < left, ok j = true := by
  constructor
  · rintro rfl j hj
    exact Nat.zero_add j ▸ h.read j hj
  · intro hall
    by_contra hne
    have hlt := Nat.lt_of_le_of_ne h.le hne
    have hno := (h.stop hlt).2
    rw [Nat.zero_add, hall k hlt] at hno
    cases hno

theorem Filled.count_start {count : Buffer → Nat} {block : Nat}
    (h : Filled dev ok left 0 k ⟨fun _ => none, count, block⟩ l') (b : Buffer) :
    l'.count b = count b + refs Finset.univ l'.map b := by
  have hcount := h.count b
  have hzero : refs Finset.univ (fun _ : Fin 8 => (none : Option Buffer)) b = 0 :=
    refs_eq_zero.mpr fun _ _ => (Option.some_ne_none b).symm
  dsimp only at hcount
  rwa [hzero, Nat.add_zero] at hcount

/-- The first slot has a buffer where anything was read. -/
theorem Filled.first {count : Buffer → Nat} {block : Nat}
    (h : Filled dev ok left 0 k ⟨fun _ => none, count, block⟩ l') :
    l'.map 0 = if 0 < k then some (dev, block) else none := by
  rw [h.map]
  refine if_congr ?_ rfl rfl
  change 0 ≤ 0 ∧ 0 < 0 + k ↔ 0 < k
  omega

/-- Slot `i` has been taken for the call, and is the call's alone. -/
structure Freed (i : Fin 8) (s s' : State) : Prop where
  others : ∀ j, j ≠ i → s'.super j = s.super j
  dev : (s'.super i).dev = 0
  lock : (s'.super i).lock = false
  count : s'.count = s.count

theorem fail_freed (s : State) (i : Fin 8) : (fail s i).2 = none ∧ Freed i s (fail s i).1 := by
  refine ⟨rfl, fun j hj => ?_, ?_, ?_, rfl⟩
  · simp only [fail, freeSuper, State.set, Function.update_of_ne hj]
  · simp only [fail, freeSuper, State.set, Function.update_self]
  · simp only [fail, freeSuper, State.set, Function.update_self]

theorem Freed.of_set {i : Fin 8} {sb : SuperBlock} {count : Buffer → Nat} {first : Buffer → BitVec 8}
    {s' : State} (hcount : count = s.count)
    (h : Freed i { s.set i sb with count, first } s') : Freed i s s' where
  others j hj := (h.others j hj).trans (Function.update_of_ne hj _ _)
  dev := h.dev
  lock := h.lock
  count := h.count.trans hcount

/-- Behind the loops: blocks that are missing are given back, and if none is, the first slots
are looked at. -/
theorem checkMaps_iff {i : Fin 8} {k m : Nat} {im zm : Loop} {P : State → Prop}
    (hP : ∀ s', Freed i s s' → P s')
    (him : Filled (s.super i).dev reads.imap (s.super i).disk.imapBlocks.toNat 0 k ⟨fun _ => none, s.count, 2⟩ im)
    (hzm : Filled (s.super i).dev reads.zmap (s.super i).disk.zmapBlocks.toNat 0 m
      ⟨fun _ => none, im.count, im.block⟩ zm) :
    (∃ r, checkMaps s i im zm = .ok r ∧ (r.2 = none → P r.1)) ↔
      (k = (s.super i).disk.imapBlocks.toNat → m = (s.super i).disk.zmapBlocks.toNat →
        0 < k ∧ 0 < m) := by
  have hblock : zm.block = 2 + k + m := by rw [hzm.block, him.block]
  have hk := him.le
  have hm := hzm.le
  unfold checkMaps
  dsimp only
  by_cases hall : k = (s.super i).disk.imapBlocks.toNat ∧ m = (s.super i).disk.zmapBlocks.toNat
  · rw [if_neg (not_not.mpr (by rw [hblock, hall.1, hall.2])), ← hall.1, ← hall.2]
    have h0 := him.first
    have h0' := hzm.first
    by_cases hpos : 0 < k ∧ 0 < m
    · refine iff_of_true ?_ fun _ _ => hpos
      rw [if_pos hpos.1] at h0
      rw [if_pos hpos.2] at h0'
      rw [h0, h0']
      exact ⟨_, rfl, fun hnone => by cases hnone⟩
    · refine iff_of_false (fun ⟨r, hr, _⟩ => ?_) fun h => hpos (h rfl rfl)
      by_cases hk0 : 0 < k
      · rw [if_pos hk0] at h0
        rw [if_neg fun hm0 => hpos ⟨hk0, hm0⟩] at h0'
        rw [h0, h0'] at hr
        cases hr
      · rw [if_neg hk0] at h0
        rw [h0] at hr
        cases hr
  · rw [if_pos (by rw [hblock]; omega)]
    refine iff_of_true ?_ fun h₁ h₂ => absurd ⟨h₁, h₂⟩ hall
    obtain ⟨mid, hmid, hbase⟩ := release_maps im.map zm.map zm.count s.count fun b => by rw [hzm.count_start, him.count_start]
    rw [hmid]
    dsimp only [Except.bind]
    rw [hbase]
    exact ⟨_, rfl, fun _ => hP _ ((fail_freed _ i).2.of_set rfl)⟩

/-- `read_super` from the loops on. -/
theorem readMaps_iff {i : Fin 8} {P : State → Prop} (hP : ∀ s', Freed i s s' → P s') :
    (∃ r, readMaps s i reads = .ok r ∧ (r.2 = none → P r.1)) ↔
      Sane (s.super i).disk reads := by
  unfold readMaps
  dsimp only
  rcases fill_start (s.super i).dev reads.imap (s.super i).disk.imapBlocks.toNat s.count 2 with
    ⟨him, hno⟩ | ⟨k, im, him, hfim, hyes⟩
  · rw [him]
    exact iff_of_false (fun ⟨r, hr, _⟩ => by cases hr) fun h => hno h.imap
  rw [him]
  dsimp only [Except.bind]
  rcases fill_start (s.super i).dev reads.zmap (s.super i).disk.zmapBlocks.toNat im.count im.block
    with ⟨hzm, hno⟩ | ⟨m, zm, hzm, hfzm, hyes'⟩
  · rw [hzm]
    exact iff_of_false (fun ⟨r, hr, _⟩ => by cases hr) fun h => hno h.zmap
  rw [hzm]
  dsimp only
  rw [checkMaps_iff hP hfim hfzm, hfim.all_iff, hfzm.all_iff]
  constructor
  · intro h
    refine ⟨hyes, hyes', fun hi hz => ?_⟩
    rw [← hfim.all_iff.mpr hi, ← hfzm.all_iff.mpr hz]
    exact h hi hz
  · intro h hi hz
    rw [hfim.all_iff.mpr hi, hfzm.all_iff.mpr hz]
    exact h.nonempty hi hz

/-- The loops are reached: there is a device, not mounted yet, a free slot, and a super block. -/
def Mounts (s : State) (dev : BitVec 16) (disk : DSuper) (reads : Reads) : Prop :=
  dev ≠ 0 ∧ getSuper s dev = none ∧ (∃ i, (s.super i).dev = 0) ∧ reads.super = true ∧
    disk.magic = SUPER_MAGIC

theorem Freed.undone {i : Fin 8} {s' : State} {sb : SuperBlock} (h : Freed i (s.set i sb) s')
    (hfree : (s.super i).dev = 0) : Undone s s' where
  super j := by
    by_cases hj : j = i
    · subst hj
      exact Or.inr ⟨hfree, h.dev, h.lock⟩
    · exact Or.inl ((h.others j hj).trans (Function.update_of_ne hj _ _))
  count := h.count

theorem Undone.refl (s : State) : Undone s s := ⟨fun _ => .inl rfl, rfl⟩

theorem set_set (s : State) (i : Fin 8) (sb sb' : SuperBlock) :
    (s.set i sb).set i sb' = s.set i sb' := by
  unfold State.set
  rw [Function.update_idem]

/-- **`read_super` survives a disk** exactly where it does not come to the loops, or its numbers
fit the arrays. -/
theorem survives_iff (checkDiskChange : BitVec 16 → State → State) (s : State) (dev : BitVec 16)
    (disk : DSuper) (reads : Reads) :
    Survives checkDiskChange s dev disk reads ↔
      (Mounts (checkDiskChange dev s) dev disk reads → Sane disk reads) := by
  unfold Survives readSuper Mounts
  by_cases hdev : dev = 0
  · rw [if_pos hdev, if_pos hdev]
    exact iff_of_true ⟨_, rfl, fun _ => .refl s⟩ fun h => absurd hdev h.1
  rw [if_neg hdev, if_neg hdev]
  generalize checkDiskChange dev s = s₁
  dsimp only
  cases hget : getSuper s₁ dev with
  | some i => exact iff_of_true ⟨_, rfl, fun hr => by cases hr⟩ fun h => by cases h.2.1
  | none =>
      dsimp only
      cases hfind : (List.finRange 8).find? fun i => decide ((s₁.super i).dev = 0) with
      | none =>
          refine iff_of_true ⟨_, rfl, fun _ => .refl s₁⟩ fun h => ?_
          obtain ⟨i, hi⟩ := h.2.2.1
          have hno := List.find?_eq_none.mp hfind i (List.mem_finRange i)
          exact absurd (decide_eq_true hi) hno
      | some i =>
          have hfree : (s₁.super i).dev = 0 := of_decide_eq_true (List.find?_some (p := fun i => decide ((s₁.super i).dev = 0)) hfind)
          dsimp only
          cases hsuper : reads.super with
          | false =>
              rw [if_neg Bool.false_ne_true]
              exact iff_of_true ⟨_, rfl, fun _ => (fail_freed _ i).2.undone hfree⟩
                fun h => absurd h.2.2.2.1 Bool.false_ne_true
          | true =>
              rw [if_pos rfl, set_set]
              by_cases hmagic : disk.magic = SUPER_MAGIC
              · rw [if_neg (not_not.mpr hmagic), readMaps_iff fun s' h => h.undone hfree]
                simp only [State.set, Function.update_self]
                exact ⟨fun h _ => h, fun h => h ⟨hdev, True.intro, ⟨i, hfree⟩, True.intro, hmagic⟩⟩
              · rw [if_pos hmagic]
                exact iff_of_true ⟨_, rfl, fun _ => (fail_freed _ i).2.undone hfree⟩
                  fun h => absurd h.2.2.2.2 hmagic

/-- A table without mounted file systems. -/
def unmounted : State where
  super _ := ⟨⟨0, 0, 0, 0, 0, 0, 0, 0⟩, fun _ => none, fun _ => none, 0, none, none, 0, false, false,
    false⟩
  count _ := 0
  first _ := 0

/-- A super block that gives the sizes of the bitmaps. -/
def sized (imapBlocks zmapBlocks : BitVec 16) : DSuper :=
  ⟨0, 0, imapBlocks, zmapBlocks, 0, 0, 0, SUPER_MAGIC⟩

/-- A disk whose super block says that there are nine blocks of inode map, and where every block
can be read: the ninth pointer goes into the first slot of the zone map. -/
theorem not_survives :
    ¬ ∀ s dev disk reads, Survives (fun _ s => s) s dev disk reads := by
  intro hall
  obtain ⟨r, hr, -⟩ := hall unmounted 0x301 (sized 9 1) ⟨true, fun _ => true, fun _ => true⟩
  have hstop : readSuper (fun _ s => s) unmounted 0x301 (sized 9 1)
      ⟨true, fun _ => true, fun _ => true⟩ = .error .outside := rfl
  rw [hstop] at hr
  cases hr

end LinuxKernel.V011.Fs.Super
