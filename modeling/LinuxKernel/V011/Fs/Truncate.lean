import LinuxKernel.V011.Fs.BitmapExact

/-!
# LinuxKernel.V011.Fs.Truncate

**`truncate`** (`fs/truncate.c`) frees the zones of the file, each once, and nothing else.

`read` is what `bread` delivers for a block: only a task that has a reference to a buffer changes
what it holds, and the file's blocks are not referenced.
-/

namespace LinuxKernel.V011.Fs.Bitmap

/-! ### The code -/

abbrev ZoneNr := BitVec 16

/-- What the blocks of the device hold, if they can be read, and what `getblk` leaves open. -/
structure Device where
  read : BlockNr → Option Block
  evict : BlockNr → Evict

/-- The fields of `struct m_inode` that `truncate` looks at or sets. -/
structure Inode where
  mode : BitVec 16
  size : BitVec 32
  zone : Nat → ZoneNr
  dirt : Bool

def blockOf (z : ZoneNr) : BlockNr := blockNr z.toNat

/-- `((unsigned short *) bh->b_data)[i]` for all `i`. -/
def entries (data : Block) : List ZoneNr :=
  (List.range 512).map fun i => data (2 * i + 1) ++ data (2 * i)

def bread (d : Device) (c : Buffers) (b : BlockNr) : Outcome (Buffers × Option Block) :=
  let c := getblk c b (d.evict b)
  match d.read b with
  | some data =>
      .next (Function.update c b ((c b).map fun x => { x with data, uptodate := true }), some data)
  | none => (brelse c b).bind fun c => .next (c, none)

def freeZone (s : State) (z : ZoneNr) : Outcome State := freeBlock s z.toNat

/-- A loop `if (*p) free(dev,*p)`. -/
def freeAll (free : State → ZoneNr → Outcome State) : List ZoneNr → State → Outcome State
  | [], s => .next s
  | z :: zs, s => if z = 0 then freeAll free zs s else (free s z).bind (freeAll free zs)

/-- What `free_ind` and `free_dind` share: `free` is for an entry. -/
def freeTree (d : Device) (free : State → ZoneNr → Outcome State) (s : State) (block : ZoneNr) :
    Outcome State :=
  if block = 0 then .next s
  else (bread d s.buf (blockOf block)).bind fun r =>
    match r.2 with
    | some data =>
        (freeAll free (entries data) { s with buf := r.1 }).bind fun s =>
          (brelse s.buf (blockOf block)).bind fun c => freeZone { s with buf := c } block
    | none => freeZone { s with buf := r.1 } block

def freeInd (d : Device) : State → ZoneNr → Outcome State := freeTree d freeZone

def freeDind (d : Device) : State → ZoneNr → Outcome State := freeTree d (freeInd d)

/-- `S_ISREG` or `S_ISDIR`. -/
def Inode.HasZones (i : Inode) : Prop := i.mode &&& 0xF000 = 0x8000 ∨ i.mode &&& 0xF000 = 0x4000

instance (i : Inode) : Decidable i.HasZones := inferInstanceAs (Decidable (_ ∨ _))

def truncate (d : Device) (s : State) (i : Inode) : Outcome (State × Inode) :=
  if i.HasZones then
    (freeAll freeZone ((List.range 7).map i.zone) s).bind fun s =>
      (freeInd d s (i.zone 7)).bind fun s =>
        (freeDind d s (i.zone 8)).bind fun s =>
          .next (s, { i with size := 0, dirt := true
                             zone := fun k => if k < 9 then 0 else i.zone k })
  else .next (s, i)

/-! ### The zones of a file -/

def single (z : ZoneNr) : List ZoneNr := if z = 0 then [] else [z]

/-- A block of zone numbers: what is below each of them, and the block itself. -/
def tree (d : Device) (sub : ZoneNr → List ZoneNr) (z : ZoneNr) : List ZoneNr :=
  if z = 0 then [] else (d.read (blockOf z)).elim [] (fun data => (entries data).flatMap sub) ++ [z]

def zones (d : Device) (i : Inode) : List ZoneNr :=
  ((List.range 7).map i.zone).flatMap single ++ tree d single (i.zone 7) ++
    tree d (tree d single) (i.zone 8)

/-- A zone in use, and nobody has a reference to its buffer. -/
structure InUse (s : State) (sb : SuperBlock) (z : ZoneNr) : Prop where
  low : sb.firstdatazone.toNat ≤ z.toNat
  high : z.toNat < sb.nzones.toNat
  bit : ∀ k, zone sb k = z.toNat → mapBit s sb k = some true
  count : bufCount s.buf (blockOf z) = 0

/-! ### What has been freed so far -/

/-- The zones `l` are freed, there are `held` references more, and nothing else has changed. -/
structure Now (s₀ : State) (sb : SuperBlock) (l : List ZoneNr) (held : BlockNr → BitVec 8)
    (s : State) : Prop where
  super : s.super = some sb
  bits : ∀ k, mapBit s sb k = if ∃ z ∈ l, zone sb k = z.toNat then some false else mapBit s₀ sb k
  counts : ∀ b, bufCount s.buf b = bufCount s₀.buf b + held b
  unused : ∀ b, bufCount s₀.buf b = 0 ∨ held b = 0

/-- A list that can be freed next. -/
structure Next (s₀ : State) (sb : SuperBlock) (l : List ZoneNr) (held : BlockNr → BitVec 8)
    (l' : List ZoneNr) : Prop where
  nodup : (l ++ l').Nodup
  use : ∀ z ∈ l', InUse s₀ sb z
  free : ∀ z ∈ l', held (blockOf z) = 0

variable {d : Device} {s₀ s s' : State} {sb : SuperBlock} {l l₁ l₂ : List ZoneNr} {z w : ZoneNr}
  {b : BlockNr} {held : BlockNr → BitVec 8}

theorem blockOf_inj (h : blockOf z = blockOf w) : z = w := by
  have htoNat : ∀ v : ZoneNr, (blockOf v).toNat = v.toNat := fun v => by
    rw [blockOf, blockNr, BitVec.ofInt_natCast, BitVec.toNat_ofNat]
    exact Nat.mod_eq_of_lt (by omega)
  exact BitVec.eq_of_toNat_eq (by rw [← htoNat z, h, htoNat w])

theorem Next.first (h : Next s₀ sb l held (l₁ ++ l₂)) : Next s₀ sb l held l₁ :=
  ⟨(List.nodup_append.mp (List.append_assoc .. ▸ h.nodup)).1,
    fun z hz => h.use z (List.mem_append_left l₂ hz),
    fun z hz => h.free z (List.mem_append_left l₂ hz)⟩

theorem Next.rest (h : Next s₀ sb l held (l₁ ++ l₂)) : Next s₀ sb (l ++ l₁) held l₂ :=
  ⟨List.append_assoc .. ▸ h.nodup, fun z hz => h.use z (List.mem_append_right l₁ hz),
    fun z hz => h.free z (List.mem_append_right l₁ hz)⟩

theorem Now.mounted (h : Now s₀ sb l held s) (hm : Mounted s₀ sb) : Mounted s sb := by
  refine ⟨h.super, fun i b hi => ?_⟩
  rw [h.counts, (h.unused b).resolve_left (hm.2 i b hi)]
  exact (BitVec.add_zero _).symm ▸ hm.2 i b hi

theorem Now.count (h : Now s₀ sb l held s) (hb : bufCount s₀.buf b = 0) :
    bufCount s.buf b = held b := (h.counts b).trans (hb ▸ BitVec.zero_add _)

theorem clearMap_super {k : Nat} (h : clearMap s sb k = .next s') : s'.super = s.super := by
  rw [clearMap] at h
  split at h
  · cases h
  · split at h
    · cases h
      rfl
    · cases h

theorem freeBlock_super {z : Int} (h : freeBlock s z = .next s') : s'.super = s.super := by
  rw [freeBlock] at h
  split at h
  · cases h
  · split at h
    · cases h
    · dsimp only at h
      split at h
      · exact clearMap_super h
      · split at h
        · cases h
          rfl
        · obtain ⟨c, -, hclear⟩ := Outcome.bind_eq_next h
          exact (clearMap_super hclear :)

theorem Now.free (h : Now s₀ sb l held s) (hm : Mounted s₀ sb) (hn : Next s₀ sb l held [z]) :
    ∃ s', freeZone s z = .next s' ∧ Now s₀ sb (l ++ [z]) held s' := by
  have hz := hn.use z List.mem_cons_self
  obtain ⟨k, hk⟩ : ∃ k, zone sb k = z.toNat :=
    ⟨z.toNat + 1 - sb.firstdatazone.toNat, by have := hz.low; rw [zone]; omega⟩
  have hnot : ¬ ∃ w ∈ l, zone sb k = w.toNat := by
    rintro ⟨w, hw, hkw⟩
    exact (List.nodup_append.mp hn.nodup).2.2 w hw z List.mem_cons_self
      (BitVec.eq_of_toNat_eq (Int.ofNat_inj.mp (hkw.symm.trans hk)))
  have hbit : mapBit s sb k = some true := by rw [h.bits, if_neg hnot, hz.bit k hk]
  obtain ⟨s', hs', hbits, hcounts⟩ := freeBlock_unused (h.mounted hm) (Int.ofNat_le.mpr hz.low)
    (Int.ofNat_lt.mpr hz.high) hk ((h.count hz.count).trans (hn.free z List.mem_cons_self)) hbit
  refine ⟨s', hs', (freeBlock_super hs').trans h.super, fun j => ?_,
    fun b => (hcounts b).trans (h.counts b), h.unused⟩
  have hj : j = k ↔ zone sb j = z.toNat := by rw [← hk, zone, zone]; omega
  rw [hbits, h.bits]
  simp only [hj, List.mem_append, List.mem_singleton, or_and_right, exists_or, exists_eq_left]
  split <;> split <;> simp_all

/-- There are `n` references to one buffer now. -/
theorem Now.update {c : Buffers} {n : BitVec 8} (h : Now s₀ sb l held s)
    (hb : bufCount s₀.buf b = 0) (hbits : mapBit { s with buf := c } sb = mapBit s sb)
    (hcounts : ∀ b', bufCount c b' = if b' = b then n else bufCount s.buf b') :
    Now s₀ sb l (Function.update held b n) { s with buf := c } := by
  refine ⟨h.super, fun k => hbits ▸ h.bits k, fun b' => (hcounts b').trans ?_, fun b' => ?_⟩
  · rw [Function.update_apply]
    split
    · next hb' => exact hb' ▸ hb ▸ (BitVec.zero_add n).symm
    · exact h.counts b'
  · rw [Function.update_apply]
    split
    · next hb' => exact .inl (hb' ▸ hb)
    · exact h.unused b'

theorem Now.bread (h : Now s₀ sb l held s) (hm : Mounted s₀ sb) (hb : bufCount s₀.buf b = 0)
    (hfree : held b = 0) : ∃ c, bread d s.buf b = .next (c, d.read b) ∧
      Now s₀ sb l (Function.update held b (if (d.read b).isSome then 1 else 0))
        { s with buf := c } := by
  have hzero : bufCount s.buf b = 0 := (h.count hb).trans hfree
  obtain ⟨⟨x, hx, hcount⟩, helse⟩ := getblk_spec s.buf b (d.evict b)
  have hone : x.count = 1 := hcount.trans (by rw [hzero]; rfl)
  have hnow : ∀ y : Buf, Now s₀ sb l (Function.update held b y.count)
      { s with buf := Function.update (getblk s.buf b (d.evict b)) b (some y) } := fun y => by
    have helse' := helse.trans (elsewhere_update (getblk s.buf b (d.evict b)) b (some y))
    have hbits := ((h.mounted hm).elsewhere { s with buf := _ } hzero helse' rfl).2
    refine h.update hb hbits fun b' => ?_
    rw [bufCount_update]
    exact ite_congr rfl (fun _ => rfl) fun hne => (helse b' hne).1
  rw [Bitmap.bread]
  cases hread : d.read b with
  | some data =>
      dsimp only
      rw [hx, Option.map_some]
      exact ⟨_, rfl, hone ▸ hnow { x with data, uptodate := true }⟩
  | none =>
      dsimp only
      rw [Bitmap.brelse, bufCount_eq hx, hone, if_neg (by decide), hx, Option.map_some, hone]
      have hgone := hnow { x with count := x.count - 1 }
      rw [hone] at hgone
      exact ⟨_, rfl, hgone⟩

theorem Now.brelse (h : Now s₀ sb l held s) (hm : Mounted s₀ sb) (hb : bufCount s₀.buf b = 0)
    (hheld : held b = 1) : ∃ c, brelse s.buf b = .next c ∧
      Now s₀ sb l (Function.update held b 0) { s with buf := c } := by
  have hone : bufCount s.buf b = 1 := (h.count hb).trans hheld
  obtain ⟨x, hx, -⟩ := exists_of_bufCount_ne (c := s.buf) (b := b) (by rw [hone]; decide)
  have hmap : ∀ i b', sb.zmap i = some b' → b' ≠ b := fun i b' hi he => hm.2 i b' hi (he ▸ hb)
  have hnow := h.update hb (mapBit_congr fun i b' hi => (bufData_update s.buf b
    (some { x with count := x.count - 1 }) b').trans (if_neg (hmap i b' hi)))
    (bufCount_update s.buf b _)
  rw [Option.elim_some, (bufCount_eq hx).symm.trans hone] at hnow
  rw [Bitmap.brelse, hone, if_neg (by decide), hx, Option.map_some,
    (bufCount_eq hx).symm.trans hone]
  exact ⟨_, rfl, hnow⟩

/-! ### The loops -/

/-- `free` frees the zones `sub z`, whatever has been freed before. -/
def Frees (s₀ : State) (sb : SuperBlock) (free : State → ZoneNr → Outcome State)
    (sub : ZoneNr → List ZoneNr) : Prop :=
  ∀ l held s z, Now s₀ sb l held s → Next s₀ sb l held (sub z) → z ≠ 0 →
    ∃ s', free s z = .next s' ∧ Now s₀ sb (l ++ sub z) held s'

theorem frees_single (hm : Mounted s₀ sb) : Frees s₀ sb freeZone single := by
  intro l held s z h hn hz
  rw [single, if_neg hz] at hn ⊢
  exact h.free hm hn

variable {free : State → ZoneNr → Outcome State} {sub : ZoneNr → List ZoneNr}

theorem Frees.all (hfree : Frees s₀ sb free sub) (hzero : sub 0 = []) (zs : List ZoneNr)
    (h : Now s₀ sb l held s) (hn : Next s₀ sb l held (zs.flatMap sub)) :
    ∃ s', freeAll free zs s = .next s' ∧ Now s₀ sb (l ++ zs.flatMap sub) held s' := by
  induction zs generalizing l s with
  | nil => exact ⟨s, rfl, by rwa [List.flatMap_nil, List.append_nil]⟩
  | cons z zs ih =>
      rw [List.flatMap_cons] at hn ⊢
      rw [freeAll]
      by_cases hz : z = 0
      · rw [if_pos hz]
        rw [hz, hzero, List.nil_append] at hn ⊢
        exact ih h hn
      · obtain ⟨s₁, hs₁, h₁⟩ := hfree l held s z h hn.first hz
        rw [if_neg hz, hs₁, Outcome.bind_next, ← List.append_assoc]
        exact ih h₁ hn.rest

/-- `free_ind` or `free_dind`: the zones below, and then the block itself. -/
theorem Frees.tree (hfree : Frees s₀ sb free sub) (hm : Mounted s₀ sb) (hzero : sub 0 = []) :
    Frees s₀ sb (freeTree d free) (tree d sub) := by
  intro l held s z h hn hz
  rw [Bitmap.tree, if_neg hz] at hn ⊢
  have hlast : z ∈ (d.read (blockOf z)).elim [] (fun data => (entries data).flatMap sub) ++ [z] :=
    List.mem_append_right _ List.mem_cons_self
  have huse := (hn.use z hlast).count
  have hfreeZ := hn.free z hlast
  have hsame : Function.update held (blockOf z) 0 = held :=
    Function.update_eq_self_iff.mpr hfreeZ.symm
  obtain ⟨c, hc, h₁⟩ := h.bread (d := d) hm huse hfreeZ
  rw [freeTree, if_neg hz, hc, Outcome.bind_next, ← List.append_assoc]
  cases hread : d.read (blockOf z) with
  | none =>
      rw [hread, Option.elim_none, List.nil_append] at hn
      rw [hread] at h₁
      rw [Option.elim_none, List.append_nil]
      change Now s₀ sb l (Function.update held (blockOf z) 0) _ at h₁
      exact Now.free (hsame ▸ h₁) hm hn
  | some data =>
      rw [hread, Option.elim_some] at hn
      rw [hread] at h₁
      have hn₁ : Next s₀ sb l (Function.update held (blockOf z) 1) ((entries data).flatMap sub) :=
        ⟨hn.first.nodup, hn.first.use, fun w hw => by
          have hne : w ≠ z := fun he =>
            (List.nodup_append.mp hn.rest.nodup).2.2 w (List.mem_append_right l hw) z
              List.mem_cons_self he
          rw [Function.update_of_ne fun hb => hne (blockOf_inj hb)]
          exact hn.first.free w hw⟩
      obtain ⟨s₂, hs₂, h₂⟩ := hfree.all hzero _ h₁ hn₁
      obtain ⟨c₃, hc₃, h₃⟩ := h₂.brelse hm huse (Function.update_self ..)
      rw [Function.update_idem, hsame] at h₃
      rw [Option.elim_some]
      dsimp only
      rw [hs₂, Outcome.bind_next, hc₃]
      exact h₃.free hm hn.rest

/-- The block itself may be missing. -/
theorem Frees.root (h : Frees s₀ sb (freeTree d free) (Bitmap.tree d sub))
    (hnow : Now s₀ sb l held s) (hn : Next s₀ sb l held (Bitmap.tree d sub z)) :
    ∃ s', freeTree d free s z = .next s' ∧ Now s₀ sb (l ++ Bitmap.tree d sub z) held s' := by
  by_cases hz : z = 0
  · subst hz
    exact ⟨s, if_pos rfl, by rwa [Bitmap.tree, if_pos rfl, List.append_nil]⟩
  · exact h l held s z hnow hn hz

/-- **`truncate` frees the zones of a file**, those below unreadable blocks apart: each of them
once, no other bit of the map changes, no reference to a buffer is lost, and the inode has no
zone any more. -/
theorem truncate_frees (d : Device) (s : State) (sb : SuperBlock) (i : Inode) (hm : Mounted s sb)
    (hmode : i.HasZones) (h : (zones d i).Nodup ∧ ∀ z ∈ zones d i, InUse s sb z) :
    ∃ s' i', truncate d s i = .next (s', i') ∧ (i'.size = 0 ∧ ∀ k < 9, i'.zone k = 0) ∧
      (∀ k, mapBit s' sb k =
        if ∃ z ∈ zones d i, zone sb k = z.toNat then some false else mapBit s sb k) ∧
      ∀ b, bufCount s'.buf b = bufCount s.buf b := by
  have h₀ : Now s sb [] (fun _ => 0) s :=
    ⟨hm.1, fun k => (if_neg fun ⟨_, hw, _⟩ => List.not_mem_nil hw).symm,
      fun b => (BitVec.add_zero _).symm, fun _ => .inr rfl⟩
  have hn : Next s sb [] (fun _ => 0) (zones d i) := ⟨h.1, h.2, fun _ _ => rfl⟩
  rw [zones] at hn
  have hind : Frees s sb (freeInd d) (tree d single) := (frees_single hm).tree hm (if_pos rfl)
  obtain ⟨s₁, hs₁, h₁⟩ := (frees_single hm).all (if_pos rfl) _ h₀ hn.first.first
  obtain ⟨s₂, hs₂, h₂⟩ := hind.root h₁ hn.first.rest
  obtain ⟨s₃, hs₃, h₃⟩ := (hind.tree hm (if_pos rfl)).root h₂ hn.rest
  rw [truncate, if_pos hmode, hs₁, Outcome.bind_next, freeInd, hs₂, Outcome.bind_next, freeDind,
    hs₃]
  exact ⟨s₃, _, rfl, ⟨rfl, fun k hk => if_pos hk⟩, h₃.bits, fun b =>
    (h₃.counts b).trans (BitVec.add_zero _)⟩

/-- A file of one zone. -/
def oneZoneFile : Inode := ⟨0x81A4, 1, fun k => if k = 0 then 5 else 0, false⟩

def unreadable : Device := ⟨fun _ => none, fun _ => noEvict⟩

theorem truncate_frees_oneZoneFile :
    ∃ s' i', truncate unreadable zoneUsed oneZoneFile = .next (s', i') ∧
      (i'.size = 0 ∧ ∀ k < 9, i'.zone k = 0) ∧
      (∀ k, mapBit s' oneZone k = if ∃ z ∈ zones unreadable oneZoneFile, zone oneZone k = z.toNat
        then some false else mapBit zoneUsed oneZone k) ∧
      ∀ b, bufCount s'.buf b = bufCount zoneUsed.buf b := by
  have hzones : zones unreadable oneZoneFile = [5] := by decide
  refine truncate_frees unreadable zoneUsed oneZone oneZoneFile zoneUsed_mounted (by decide) ?_
  rw [hzones]
  refine ⟨List.nodup_singleton _, fun z hz => ?_⟩
  obtain rfl := List.mem_singleton.mp hz
  refine ⟨by decide, by decide, fun k hk => ?_, by decide⟩
  have hone : k = 1 := by
    change (k : Int) + 5 - 1 = 5 at hk
    omega
  subst hone
  decide

end LinuxKernel.V011.Fs.Bitmap
