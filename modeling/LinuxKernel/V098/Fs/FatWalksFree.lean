import Mathlib.Data.DFinsupp.WellFounded
import LinuxKernel.Lib.Fields
import LinuxKernel.V098.Fs.FatWalksEnd

/-!
# LinuxKernel.V098.Fs.FatWalksFree

**Where `fat_free` ends**, and the four loops together.

- `fat_free` stores 0 in each entry that it follows, which lowers the first byte that changes. What
  is stored in the copies comes behind that entry, unless the FAT has one sector and the entry lies
  in two.
- `not_walks_end` has a FAT on which that goes on for ever.
-/

namespace LinuxKernel.V098.Fs.FatWalks

open Loop

variable {sb : Super} {bad : Int → Bool} {s s' : State} {this n c : Nat}

/-! ### `fat_free` -/

/-- The bytes of the device, one behind the other. -/
def byteAt (s : State) (i : Nat) : Nat := (s.byte (i / 512 : Nat) (i % 512)).toNat

/-- Where the first byte of an entry is. -/
def firstPlace (sb : Super) (this : Nat) : Nat := sb.fatStart * 512 + Fat.firstByte sb.toSuper this

theorem firstPlace_eq (sb : Super) (this : Nat) :
    (firstSector sb this * 512 + Fat.firstOffset sb.toSuper this = firstPlace sb this ∧
      Fat.firstOffset sb.toSuper this < 512) ∧
    lastSector sb this * 512 + Fat.lastOffset sb.toSuper this = firstPlace sb this + 1 ∧
      Fat.lastOffset sb.toSuper this < 512 := by
  unfold firstPlace firstSector lastSector Fat.firstSector Fat.lastSector Fat.firstOffset
    Fat.lastOffset Fat.firstByte Fat.lastByte
  split
  · omega
  · omega

/-- Stored over an entry, 0 adds no bit, and takes one away unless the entry is free. -/
theorem encode_zero (sb : Super) (this : Nat) (p q : BitVec 8) :
    (Fat.encode sb.toSuper this 0 p.toNat q.toNat).1.toNat ≤ p.toNat ∧
      (Fat.encode sb.toSuper this 0 p.toNat q.toNat).2.toNat ≤ q.toNat ∧
      ((Fat.encode sb.toSuper this 0 p.toNat q.toNat).1.toNat = p.toNat →
        (Fat.encode sb.toSuper this 0 p.toNat q.toNat).2.toNat = q.toNat →
        Fat.decode sb.toSuper this p.toNat q.toNat = 0) := by
  have hp := p.isLt
  have hq := q.isLt
  have hlow : p.toNat &&& 0xf = p.toNat % 2 ^ 4 := Nat.and_two_pow_sub_one_eq_mod _ 4
  have hhigh : q.toNat &&& 0xf0 = q.toNat / 2 ^ 4 * 2 ^ 4 := by
    have h : (q &&& 0xf0).toNat = q.toNat / 2 ^ 4 % 2 ^ 4 * 2 ^ 4 := Fields.toNat_and_field rfl
    rw [BitVec.toNat_and, Nat.mod_eq_of_lt (show q.toNat / 2 ^ 4 < 2 ^ 4 by omega)] at h
    exact h
  unfold Fat.encode Fat.decode
  by_cases hbits : sb.fatBits = 16
  · simp only [if_pos hbits, BitVec.toNat_ofNat, Nat.zero_shiftRight, Nat.zero_mod]
    refine ⟨Nat.zero_le _, Nat.zero_le _, fun h0 h1 => ?_⟩
    rw [← h0, ← h1]
    rfl
  · simp only [if_neg hbits]
    by_cases hodd : this % 2 = 1
    · simp only [if_pos hodd, BitVec.toNat_ofNat, Nat.zero_shiftRight, Nat.zero_shiftLeft,
        Nat.zero_mod, Nat.or_zero, hlow]
      refine ⟨?_, Nat.zero_le _, fun h0 h1 => ?_⟩
      · omega
      · have hzero : p.toNat >>> 4 = 0 := by
          rw [Nat.shiftRight_eq_div_pow]
          omega
        rw [hzero, ← h1]
        rfl
    · simp only [if_neg hodd, BitVec.toNat_ofNat, Nat.zero_and, Nat.zero_shiftRight, Nat.zero_mod,
        Nat.or_zero, hhigh]
      refine ⟨Nat.zero_le _, by omega, fun h0 h1 => ?_⟩
      have hzero : p.toNat + q.toNat <<< 8 &&& 0xfff = 0 := by
        have hmask : p.toNat + q.toNat <<< 8 &&& 0xfff = (p.toNat + q.toNat <<< 8) % 2 ^ 12 :=
          Nat.and_two_pow_sub_one_eq_mod _ 12
        rw [hmask, Nat.shiftLeft_eq]
        omega
      rw [hzero]
      rfl

theorem byteAt_eq {sector o i : Nat} (hi : sector * 512 + o = i) (ho : o < 512) (s : State) :
    byteAt s i = (s.byte sector o).toNat := by
  unfold byteAt
  rw [show i / 512 = sector by omega, show i % 512 = o by omega]

theorem byteAt_setByte {sector o : Nat} (ho : o < 512) (s : State) (x : BitVec 8) (i : Nat) :
    byteAt (setByte s sector o x) i = if i = sector * 512 + o then x.toNat else byteAt s i := by
  by_cases hi : i = sector * 512 + o
  · rw [if_pos hi, byteAt_eq hi.symm ho, setByte]
    dsimp only
    rw [if_pos ⟨rfl, rfl⟩]
  · rw [if_neg hi]
    unfold byteAt setByte
    dsimp only
    rw [if_neg fun h => hi (by omega)]

/-- The copies lie behind the sectors of the entry. -/
theorem writeCopies_byteAt (hover : ¬ Overlaps sb this) {i : Nat}
    (hi : i / 512 ≤ lastSector sb this) :
    ∀ (n copy : Nat) (s : State), 0 < copy → copy + n ≤ sb.fats →
      byteAt (writeCopies sb bad this n copy s) i = byteAt s i
  | 0, _, _, _, _ => rfl
  | n + 1, copy, s, hcopy, hn => by
      have hlength : 0 < sb.fatLength := by
        refine Nat.pos_of_ne_zero fun h0 => ?_
        have hroom := sb.room
        rw [h0, Nat.zero_mul, Nat.zero_mul, Nat.zero_div] at hroom
        omega
      have hmul : sb.fatLength ≤ sb.fatLength * copy := Nat.le_mul_of_pos_right _ hcopy
      have hbehind : lastSector sb this < firstSector sb this + sb.fatLength * copy := by
        rcases sectors_cases sb this with heq | hnext
        · omega
        · have h1 : sb.fatLength ≠ 1 := fun h1 => hover ⟨by omega, h1, by omega⟩
          omega
      have hbehind' : ((i / 512 : Nat) : Int) < firstSector sb this + sb.fatLength * copy := by
        exact_mod_cast Nat.lt_of_le_of_lt hi hbehind
      have hcopied (s : State) (c sector : Int) (hc : ((i / 512 : Nat) : Int) ≠ c) :
          byteAt (memcpy s c sector) i = byteAt s i := by
        unfold byteAt memcpy
        dsimp only
        rw [if_neg hc]
      rw [writeCopies]
      dsimp only
      split
      · rfl
      · split
        · rw [writeCopies_byteAt hover hi n (copy + 1) _ (by omega) (by omega),
            hcopied _ _ _ (by omega)]
          rfl
        · split
          · exact hcopied _ _ _ (by omega)
          · rw [writeCopies_byteAt hover hi n (copy + 1) _ (by omega) (by omega),
              hcopied _ _ _ (by omega)]
            exact hcopied _ _ _ (by omega)

/-- Freeing an entry that is not free lowers the first byte that it changes. -/
theorem fatAccess_lowers (hover : ¬ Overlaps sb this)
    (h : (fatAccess sb bad s this (some 0)).1 = .cluster c) :
    ∃ i ≤ firstPlace sb this + 1,
      (∀ j < i, byteAt (fatAccess sb bad s this (some 0)).2 j = byteAt s j) ∧
        byteAt (fatAccess sb bad s this (some 0)).2 i < byteAt s i := by
  obtain ⟨⟨hfirst, hfirst'⟩, hlast, hlast'⟩ := firstPlace_eq sb this
  rcases fatAccess_cases sb bad s this (some 0) with hfree | ⟨l, heq⟩
  · rw [hfree] at h
    cases h
  rw [heq] at h ⊢
  dsimp only at h ⊢
  generalize hz : ({ s with seen := this :: s.seen, log := l } : State) = z
  have hbyte (i : Nat) : byteAt z i = byteAt s i := by rw [← hz]; rfl
  have hp : (pFirst sb s this).toNat = byteAt s (firstPlace sb this) :=
    (byteAt_eq hfirst hfirst' s).symm
  have hq : (pLast sb s this).toNat = byteAt s (firstPlace sb this + 1) :=
    (byteAt_eq hlast hlast' s).symm
  have hne : Fat.decode sb.toSuper this (pFirst sb s this).toNat (pLast sb s this).toNat ≠ 0 := by
    intro h0
    unfold entry at h
    rw [h0] at h
    cases h
  obtain ⟨hle, hle', hzero⟩ := encode_zero sb this (pFirst sb s this) (pLast sb s this)
  generalize firstPlace sb this = pos at *
  -- what the bytes up to the second one of the entry are
  generalize hx : Fat.encode sb.toSuper this 0 (pFirst sb s this).toNat (pLast sb s this).toNat =
    x at *
  have hafter (i : Nat) (hi : i ≤ pos + 1) : byteAt (access sb bad z this (some 0)) i =
      if i = pos + 1 then x.2.toNat else if i = pos then x.1.toNat else byteAt s i := by
    unfold access
    dsimp only
    rw [writeCopies_byteAt hover (by omega) _ 1 _ (by decide) (by have := sb.hasFat; omega), write,
      byteAt_setByte hlast', byteAt_setByte hfirst', hlast, hfirst, hbyte,
      show pFirst sb z this = pFirst sb s this by rw [← hz]; rfl,
      show pLast sb z this = pLast sb s this by rw [← hz]; rfl, hx]
  by_cases hsame : x.1.toNat = (pFirst sb s this).toNat
  · refine ⟨pos + 1, le_refl _, fun j hj => ?_, ?_⟩
    · rw [hafter j (by omega), if_neg (by omega)]
      split
      case isTrue heq => rw [hsame, hp, heq]
      case isFalse => rfl
    · rw [hafter _ (le_refl _), if_pos rfl, ← hq]
      exact Nat.lt_of_le_of_ne hle' fun h => hne (hzero hsame h)
  · refine ⟨pos, by omega, fun j hj => ?_, ?_⟩
    · rw [hafter j (by omega), if_neg (by omega), if_neg (by omega)]
    · rw [hafter pos (by omega), if_neg (by omega), if_pos rfl, ← hp]
      exact Nat.lt_of_le_of_ne hle hsame

/-- No entry that is freed lies in two sectors, where the first copy is written between them. -/
def Apart (sb : Super) (bad : Int → Bool) (z : FreePc × State) : Prop :=
  ∀ t n, Visits (freeTurn sb bad) z t → t.1 = .free n → ¬ Overlaps sb n

theorem Apart.again {z z' : FreePc × State} (h : Apart sb bad z)
    (hturn : freeTurn sb bad z = .again z') : Apart sb bad z' :=
  fun t n ht => h t n (ht.head hturn)

/-- The turns of the second loop go from entry to entry. -/
theorem freeTurn_free {t' : FreePc × State} (h : freeTurn sb bad (.free n, s) = .again t') :
    ∃ c, (fatAccess sb bad s n (some 0)).1 = .cluster c ∧
      t' = (.free c, (fatAccess sb bad s n (some 0)).2) := by
  unfold freeTurn at h
  dsimp only at h
  cases hread : fatAccess sb bad s n (some 0) with
  | mk e z =>
      rw [hread] at h
      cases e with
      | free | eof => cases h
      | cluster c =>
          cases h
          exact ⟨c, rfl, rfl⟩

theorem free_ends (hapart : Apart sb bad (.free this, s)) :
    Ends (freeTurn sb bad) (.free this, s) := by
  let last := max this (2 ^ 16)
  have hbound (t : FreePc × State) (ht : Visits (freeTurn sb bad) (.free this, s) t) :
      ∃ n ≤ last, t.1 = .free n := by
    refine ht.invariant (P := fun t => ∃ n ≤ last, t.1 = .free n) ⟨this, le_max_left _ _, rfl⟩ ?_
    rintro ⟨_, z⟩ t' _ ⟨n, _, rfl⟩ hturn
    obtain ⟨c, hc, rfl⟩ := freeTurn_free hturn
    exact ⟨c, (Nat.le_of_lt (fatAccess_lt hc)).trans (le_max_right _ _), rfl⟩
  -- the bytes of the entries that may be freed, the first ones counting most
  let size := sb.fatStart * 512 + 2 * last + 3
  have hwf : WellFounded (Pi.Lex (ι := Fin size) (β := fun _ => Nat) (· < ·) fun {_} => (· < ·)) :=
    Pi.Lex.wellFounded _ fun _ => Nat.lt_wfRel.wf
  refine ends_of_wellFounded hwf (fun t i => byteAt t.2 i) fun t t' ht hturn => ?_
  obtain ⟨n, hn, hpc⟩ := hbound t ht
  obtain ⟨pc, z⟩ := t
  cases hpc
  obtain ⟨c, hc, rfl⟩ := freeTurn_free hturn
  obtain ⟨i, hi, hbefore, hlower⟩ := fatAccess_lowers (hapart _ n ht rfl) hc
  have hsize : i < size := by
    have hplace : firstPlace sb n ≤ sb.fatStart * 512 + 2 * n := by
      unfold firstPlace Fat.firstByte
      split <;> omega
    omega
  exact ⟨⟨i, hsize⟩, fun j hj => hbefore j hj, hlower⟩

/-- Skipping comes to an end, as does what is behind it. -/
theorem skip_ends :
    ∀ (skip last this : Nat) (s : State), Apart sb bad (.skip skip last this, s) →
      Ends (freeTurn sb bad) (.skip skip last this, s)
  | 0, last, this, s, h => by
      have hturn : freeTurn sb bad (.skip 0 last this, s) = .again (cut sb bad s last this) := rfl
      rw [ends_iff_of_again hturn]
      exact free_ends (h.again hturn)
  | skip + 1, last, this, s, h => by
      cases hturn : freeTurn sb bad (.skip (skip + 1) last this, s) with
      | done r => exact ends_of_done hturn
      | again t =>
          have hapart := h.again hturn
          rw [ends_iff_of_again hturn]
          unfold freeTurn at hturn
          dsimp only at hturn
          cases hread : fatAccess sb bad s this none with
          | mk e z =>
              rw [hread] at hturn
              cases e with
              | free | eof => cases hturn
              | cluster c =>
                  cases hturn
                  exact skip_ends skip this c z hapart

theorem freeTurn_ends {z : FreePc × State} (h : Apart sb bad z) : Ends (freeTurn sb bad) z := by
  obtain ⟨pc, s⟩ := z
  cases pc with
  | skip skip last this => exact skip_ends skip last this s h
  | free this => exact free_ends h

theorem freeTurn_stays {z : FreePc × State} (h : Safe sb z.2) :
    Stays sb (freeTurn sb bad) Prod.snd Prod.snd z := by
  refine stays_of_turn h fun t hsafe => ?_
  obtain ⟨pc, s⟩ := t
  cases pc with
  | skip skip last this =>
      cases skip with
      | zero =>
          unfold freeTurn cut
          dsimp only
          split
          · exact hsafe
          · exact hsafe.fatAccess bad last _
      | succ skip =>
          have hnext := hsafe.fatAccess bad this none
          unfold freeTurn
          dsimp only
          cases hread : fatAccess sb bad s this none with
          | mk e z =>
              rw [hread] at hnext
              cases e <;> exact hnext
  | free this =>
      have hnext := hsafe.fatAccess bad this (some 0)
      unfold freeTurn
      dsimp only
      cases hread : fatAccess sb bad s this (some 0) with
      | mk e z =>
          rw [hread] at hnext
          cases e <;> exact hnext

/-! ### The walks -/

/-- Before a walk. -/
def fresh (byte : Int → Nat → BitVec 8) : State :=
  { byte := byte, log := [], seen := [], scanned := [] }

theorem fresh_safe (byte : Int → Nat → BitVec 8) : Safe sb (fresh byte) :=
  fun _ _ h => absurd h List.not_mem_nil

/-- `get_cluster` always ends, the two searches end unless a number comes twice, and `fat_free`
ends unless it frees an entry that the first copy is written over. None of them leaves the FAT and
the data as long as the numbers have entries and the scanned ones are clusters. -/
theorem walks_end (sb : Super) (bad : Int → Bool) (byte : Int → Nat → BitVec 8)
    (start cluster skip number : Nat) (ino : Int) (w : Wanted) :
    (Ends (getTurn sb bad cluster) ⟨0, start, fresh byte⟩ ∧
      Stays sb (getTurn sb bad cluster) Get.disk Prod.snd ⟨0, start, fresh byte⟩) ∧
    ((Ends (searchTurn sb bad) ⟨start, fresh byte⟩ ↔ Acyclic (follow sb bad (fresh byte)) start) ∧
      Stays sb (searchTurn sb bad) Search.disk Prod.snd ⟨start, fresh byte⟩) ∧
    ((Ends (rawTurn sb bad w) (start, ⟨number, ino, fresh byte⟩) ↔
        Acyclic (scanOn sb bad w ⟨number, ino, fresh byte⟩) start) ∧
      Stays sb (rawTurn sb bad w) (fun t => t.2.disk) Scanned.disk
        (start, ⟨number, ino, fresh byte⟩)) ∧
    (Apart sb bad (.skip skip 0 start, fresh byte) →
        Ends (freeTurn sb bad) (.skip skip 0 start, fresh byte)) ∧
      Stays sb (freeTurn sb bad) Prod.snd Prod.snd (.skip skip 0 start, fresh byte) :=
  ⟨⟨getTurn_ends cluster _, getTurn_stays cluster (fresh_safe byte)⟩,
    ⟨searchTurn_ends_iff _, searchTurn_stays (fresh_safe byte)⟩,
    ⟨rawTurn_ends_iff _, rawTurn_stays (fresh_safe byte)⟩,
    freeTurn_ends, freeTurn_stays (fresh_safe byte)⟩

/-- Two copies of one sector, one sector of directory entries and four clusters. -/
def fourClusters : Super where
  toSuper := Fat.fourClusters
  clusterSize := 1
  dirEntries := 16
  hasSectors := Nat.one_pos

/-- The same with one copy. -/
def oneCopy : Super :=
  { fourClusters with fats := 1, hasFat := Nat.one_pos, bits := rfl, room := by decide }

/-- `fat_free` on a FAT without a second copy. -/
theorem walks_end_oneCopy :
    Ends (freeTurn oneCopy fun _ => false) (.skip 0 0 2, fresh fun _ _ => 0) :=
  (walks_end oneCopy (fun _ => false) (fun _ _ => 0) 2 0 0 0 0 ⟨none, false⟩).2.2.2.1
    fun _ _ _ _ h => absurd h.2.2 (by decide)

/-- 2 follows 3 and 3 follows 2. -/
def twoCycle (sector : Int) (o : Nat) : BitVec 8 :=
  if sector = 1 then if o = 3 then 0x03 else if o = 4 then 0x20 else 0 else 0

/-- Entry 341 begins in the FAT and ends in its copy, where entry 512 is, and the FAT has 512 for
the one and 341 for the other. -/
structure Restores (s : State) (this : Nat) : Prop where
  fat : s.byte 1 0 = 0x20 ∧ s.byte 1 256 = 0x55 ∧ s.byte 1 257 = 1 ∧ s.byte 1 511 = 0
  copy : s.byte 2 0 = 0x20
  entry : this = 341 ∨ this = 512 ∧ s.byte 2 256 = 0x55 ∧ s.byte 2 257 = 1

/-- Freeing 341 writes the FAT over its copy, entry 512 included. -/
theorem free_341 (h511 : s.byte 1 511 = 0) (hcopy : s.byte 2 0 = 0x20) :
    (fatAccess fourClusters (fun _ => false) s 341 (some 0)).1 = .cluster 512 ∧
      (fatAccess fourClusters (fun _ => false) s 341 (some 0)).2.byte 1 = s.byte 1 ∧
      (fatAccess fourClusters (fun _ => false) s 341 (some 0)).2.byte 2 = s.byte 1 := by
  have hsector : firstSector fourClusters 341 = 1 ∧ lastSector fourClusters 341 = 2 := by decide
  have hoffset : Fat.firstOffset fourClusters.toSuper 341 = 511 ∧
      Fat.lastOffset fourClusters.toSuper 341 = 0 := by decide
  have hread : Fat.decode fourClusters.toSuper 341 0 32 = 512 := by decide
  have hwrite : Fat.encode fourClusters.toSuper 341 0 0 32 = (0, 0) := by decide
  have hfats : fourClusters.fats = 2 ∧ fourClusters.fatLength = 1 := by decide
  refine ⟨?_, funext fun o => ?_, funext fun o => ?_⟩
  · simp [fatAccess, entry, pFirst, pLast, touch, hsector, hoffset, h511, hcopy, hread]
  · simp [fatAccess, access, write, writeCopies, pFirst, pLast, touch, hsector, hoffset, hwrite,
      hfats, h511, hcopy, setByte, memcpy]
    exact fun h => by rw [h, h511]; rfl
  · simp [fatAccess, access, write, writeCopies, pFirst, pLast, touch, hsector, hoffset, hwrite,
      hfats, h511, hcopy, setByte, memcpy]
    exact fun h => by rw [h, h511]; rfl

theorem free_512 (h256 : s.byte 2 256 = 0x55) (h257 : s.byte 2 257 = 1) :
    (fatAccess fourClusters (fun _ => false) s 512 (some 0)).1 = .cluster 341 ∧
      (fatAccess fourClusters (fun _ => false) s 512 (some 0)).2.byte 1 = s.byte 1 ∧
      (fatAccess fourClusters (fun _ => false) s 512 (some 0)).2.byte 2 0 = s.byte 2 0 := by
  have hsector : firstSector fourClusters 512 = 2 ∧ lastSector fourClusters 512 = 2 := by decide
  have hoffset : Fat.firstOffset fourClusters.toSuper 512 = 256 ∧
      Fat.lastOffset fourClusters.toSuper 512 = 257 := by decide
  have hread : Fat.decode fourClusters.toSuper 512 0x55 1 = 341 := by decide
  have hfats : fourClusters.fats = 2 ∧ fourClusters.fatLength = 1 := by decide
  refine ⟨?_, funext fun o => ?_, ?_⟩
  · simp [fatAccess, entry, pFirst, pLast, touch, hsector, hoffset, h256, h257, hread]
  · simp [fatAccess, access, write, writeCopies, pFirst, pLast, touch, hsector, hfats, setByte,
      memcpy]
  · simp [fatAccess, access, write, writeCopies, pFirst, pLast, touch, hsector, hoffset, hfats,
      setByte, memcpy]

theorem Restores.again (h : Restores s this) : ∃ c,
    (fatAccess fourClusters (fun _ => false) s this (some 0)).1 = .cluster c ∧
      Restores (fatAccess fourClusters (fun _ => false) s this (some 0)).2 c := by
  obtain ⟨hfat, hcopy, rfl | ⟨rfl, h256, h257⟩⟩ := h
  · obtain ⟨hnext, h1, h2⟩ := free_341 hfat.2.2.2 hcopy
    refine ⟨512, hnext, ?_, ?_, .inr ⟨rfl, ?_⟩⟩
    · rwa [h1]
    · rw [h2, hfat.1]
    · rw [h2]
      exact ⟨hfat.2.1, hfat.2.2.1⟩
  · obtain ⟨hnext, h1, h2⟩ := free_512 h256 h257
    exact ⟨341, hnext, by rwa [h1], by rw [h2, hcopy], .inl rfl⟩

theorem not_free_ends (h : Restores s this) :
    ¬ Ends (freeTurn fourClusters fun _ => false) (.free this, s) := by
  refine not_ends_of_invariant (P := fun z => ∃ n, z.1 = .free n ∧ Restores z.2 n) ⟨this, rfl, h⟩ ?_
  rintro ⟨_, z⟩ ⟨n, rfl, hz⟩
  obtain ⟨c, hnext, hz'⟩ := hz.again
  refine ⟨(.free c, (fatAccess fourClusters (fun _ => false) z n (some 0)).2), ?_, c, rfl, hz'⟩
  unfold freeTurn
  dsimp only
  cases hread : fatAccess fourClusters (fun _ => false) z n (some 0) with
  | mk e z' =>
      rw [hread] at hnext
      rw [show e = .cluster c from hnext]

def restoring (_ : Int) (o : Nat) : BitVec 8 :=
  if o = 0 then 0x20 else if o = 256 then 0x55 else if o = 257 then 1 else 0

/-- Two clusters behind each other, an entry that is restored each time it has been freed, and a
number far behind the last cluster. -/
theorem not_walks_end :
    ¬ Ends (searchTurn fourClusters fun _ => false) ⟨2, fresh twoCycle⟩ ∧
    ¬ Ends (freeTurn fourClusters fun _ => false) (.free 341, fresh restoring) ∧
    ¬ ∀ t, Visits (searchTurn fourClusters fun _ => false) ⟨4000, fresh fun _ _ => 1⟩ t →
      InAreas fourClusters t.disk := by
  refine ⟨?_, not_free_ends ⟨by decide, by decide, .inl rfl⟩, fun hall => ?_⟩
  · rw [searchTurn_ends_iff]
    intro h
    exact absurd (h 0 2 (by decide) (by decide)) (by decide)
  · have hin := hall _ (.turn .start rfl) 12 (by decide)
    unfold InFat InData at hin
    exact absurd hin (by decide)

end LinuxKernel.V098.Fs.FatWalks
