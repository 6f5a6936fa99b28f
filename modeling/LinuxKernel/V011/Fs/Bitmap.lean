import LinuxKernel.Lib.Bits
import LinuxKernel.V011.Fs.Buffer

/-!
# LinuxKernel.V011.Fs.Bitmap

The **zone map** (`fs/bitmap.c`): `new_block` and `free_block` on a mounted device.

- The buffers of the device are known by their blocks; there is one for each block that is
  in the cache. `getblk` of a block that is not takes an unused buffer, and may have others
  written out first: `Evict` says which.
- One task runs, so a buffer that is waited for is unlocked when it goes on.
- The blocks of the map are buffers too. `s_zmap` points at them.
-/

namespace LinuxKernel.V011.Fs.Bitmap

open Bits

/-! ### The data model -/

def Z_MAP_SLOTS : Nat := 8
/-- The bits of a block of the map. -/
def BITS : Nat := 8192

/-- `struct buffer_head`. -/
structure Buf where
  data : Block
  uptodate : Bool
  dirt : Bool
  count : BitVec 8

abbrev Buffers := BlockNr → Option Buf

/-- `struct super_block`. -/
structure SuperBlock where
  nzones : BitVec 16
  firstdatazone : BitVec 16
  /-- The blocks of the buffers `s_zmap` points at. -/
  zmap : Nat → Option BlockNr
  slots : ∀ i, Z_MAP_SLOTS ≤ i → zmap i = none
  distinct : ∀ i j b, zmap i = some b → zmap j = some b → i = j

structure State where
  super : Option SuperBlock
  buf : Buffers

/-- What `getblk` leaves open: the block that loses its buffer, the buffers that are
written out, and what the buffer holds. -/
structure Evict where
  victim : Option BlockNr
  written : BlockNr → Bool
  stale : Block

/-! ### Buffers -/

def bufCount (c : Buffers) (b : BlockNr) : BitVec 8 := (c b).elim 0 Buf.count

def bufData (c : Buffers) (b : BlockNr) : Block := (c b).elim (fun _ => 0) Buf.data

def evict (c : Buffers) (e : Evict) (b : BlockNr) : Option Buf :=
  if e.victim = some b ∧ bufCount c b = 0 then none
  else (c b).map fun x => if e.written b then { x with dirt := false } else x

def getblk (c : Buffers) (b : BlockNr) (e : Evict) : Buffers :=
  match c b with
  | some x => Function.update c b (some { x with count := x.count + 1 })
  | none =>
      Function.update (evict c e) b
        (some { data := e.stale, uptodate := false, dirt := false, count := 1 })

def getHashTable (c : Buffers) (b : BlockNr) : Option Buffers :=
  (c b).map fun x => Function.update c b (some { x with count := x.count + 1 })

def brelse (c : Buffers) (b : BlockNr) : Outcome Buffers :=
  if bufCount c b = 0 then .panic "Trying to free free buffer"
  else .next (Function.update c b ((c b).map fun x => { x with count := x.count - 1 }))

/-! ### The code -/

/-- `find_first_zero`. -/
def findFirstZero (data : Block) : Nat := scan data (BITS / 32) 0

/-- `set_bit` or `clear_bit` on a block of the map, which gets dirty. -/
def putBit (c : Buffers) (b : BlockNr) (j : Nat) (v : Bool) : Buffers :=
  Function.update c b ((c b).map fun x => { x with data := put x.data j v, dirt := true })

/-- One round of the loop of `new_block` over the map. -/
def searchBlock (c : Buffers) (sb : SuperBlock) (i : Nat) : Option (Nat × BlockNr × Nat) :=
  (sb.zmap i).bind fun bh =>
    if findFirstZero (bufData c bh) < BITS then some (i, bh, findFirstZero (bufData c bh))
    else none

def searchMap (c : Buffers) (sb : SuperBlock) : Option (Nat × BlockNr × Nat) :=
  (List.range Z_MAP_SLOTS).findSome? (searchBlock c sb)

/-- The end of `new_block`: the buffer of block `z`. -/
def clearBlock (c : Buffers) (b : BlockNr) (e : Evict) : Outcome Buffers :=
  let c := getblk c b e
  if bufCount c b ≠ 1 then .panic "new block: count is != 1"
  else
    let c := Function.update c b
      ((c b).map fun x => { x with data := fun _ => 0, uptodate := true, dirt := true })
    brelse c b

/-- A block number as an `int`. -/
def blockNr (z : Int) : BlockNr := BitVec.ofInt 32 z

/-- `new_block`. -/
def newBlock (s : State) (e : Evict) : Outcome (State × Int) :=
  match s.super with
  | none => .panic "trying to get new block from nonexistant device"
  | some sb =>
      match searchMap s.buf sb with
      | none => .next (s, 0)
      | some (i, bh, j) =>
          if bit (bufData s.buf bh) j then .panic "new_block: bit already set"
          else
            let c := putBit s.buf bh j true
            let z : Int := j + (i * BITS + sb.firstdatazone.toNat) - 1
            if z ≥ sb.nzones.toNat then .next ({ s with buf := c }, 0)
            else (clearBlock c (blockNr z) e).bind fun c => .next ({ s with buf := c }, z)

/-- The end of `free_block`: bit `k` of the map. -/
def clearMap (s : State) (sb : SuperBlock) (k : Nat) : Outcome State :=
  match sb.zmap (k / BITS) with
  | none => .panic "NULL pointer"
  | some bh =>
      if bit (bufData s.buf bh) (k % BITS) then
        .next { s with buf := putBit s.buf bh (k % BITS) false }
      else .panic "free_block: bit already cleared"

/-- `free_block`. -/
def freeBlock (s : State) (z : Int) : Outcome State :=
  match s.super with
  | none => .panic "trying to free block on nonexistent device"
  | some sb =>
      if z < sb.firstdatazone.toNat ∨ z ≥ sb.nzones.toNat then
        .panic "trying to free block not in datazone"
      else
        let k := (z - (sb.firstdatazone.toNat - 1)).toNat
        match getHashTable s.buf (blockNr z) with
        | none => clearMap s sb k
        | some c =>
            if bufCount c (blockNr z) ≠ 1 then .next { s with buf := c }
            else
              let c := Function.update c (blockNr z)
                ((c (blockNr z)).map fun x => { x with dirt := false, uptodate := false })
              (brelse c (blockNr z)).bind fun c => clearMap { s with buf := c } sb k

/-! ### The zone map as a function -/

/-- Bit `k` of the zone map, if the map has one. -/
def mapBit (s : State) (sb : SuperBlock) (k : Nat) : Option Bool :=
  (sb.zmap (k / BITS)).map fun bh => bit (bufData s.buf bh) (k % BITS)

/-- The super block holds a reference to each block of the map. -/
def Mounted (s : State) (sb : SuperBlock) : Prop :=
  s.super = some sb ∧ ∀ i b, sb.zmap i = some b → bufCount s.buf b ≠ 0

/-- The first clear bit. -/
structure FirstClear (s : State) (sb : SuperBlock) (k : Nat) : Prop where
  clear : mapBit s sb k = some false
  first : ∀ j < k, mapBit s sb j ≠ some false

variable {s s' : State} {sb : SuperBlock} {c c' : Buffers} {e : Evict} {b bh : BlockNr} {i j k : Nat}

@[simp] theorem bufData_update (c : Buffers) (b : BlockNr) (x : Option Buf) (b' : BlockNr) :
    bufData (Function.update c b x) b' = if b' = b then x.elim (fun _ => 0) Buf.data else bufData c b' := by
  rw [bufData, Function.update_apply]
  split <;> rfl

@[simp] theorem bufCount_update (c : Buffers) (b : BlockNr) (x : Option Buf) (b' : BlockNr) :
    bufCount (Function.update c b x) b' = if b' = b then x.elim 0 Buf.count else bufCount c b' := by
  rw [bufCount, Function.update_apply]
  split <;> rfl

/-- A buffer with references is in the cache. -/
theorem exists_of_bufCount_ne (h : bufCount c b ≠ 0) : ∃ x, c b = some x ∧ x.count ≠ 0 := by
  cases hx : c b with
  | none => rw [bufCount, hx] at h; exact absurd rfl h
  | some x => rw [bufCount, hx] at h; exact ⟨x, rfl, h⟩

theorem bufCount_eq {x : Buf} (h : c b = some x) : bufCount c b = x.count := by rw [bufCount, h]; rfl

theorem bufData_eq {x : Buf} (h : c b = some x) : bufData c b = x.data := by rw [bufData, h]; rfl

/-- What changes no block of the map changes no bit. -/
theorem mapBit_congr (h : ∀ i b, sb.zmap i = some b → bufData s'.buf b = bufData s.buf b) :
    mapBit s' sb = mapBit s sb := by
  funext k
  rw [mapBit, mapBit]
  cases hb : sb.zmap (k / BITS) with
  | none => rfl
  | some b => simp only [Option.map_some, h _ _ hb]

theorem mapBit_eq (hz : sb.zmap i = some bh) (hj : j < BITS) :
    mapBit s sb (i * BITS + j) = some (bit (bufData s.buf bh) j) := by
  have hdiv : (i * BITS + j) / BITS = i := by
    unfold BITS at hj ⊢
    omega
  have hmod : (i * BITS + j) % BITS = j := by
    unfold BITS at hj ⊢
    omega
  rw [mapBit, hdiv, hmod, hz, Option.map_some]

/-- A bit of a block of the map is a bit of the map, and no other changes with it. -/
theorem mapBit_putBit {v : Bool} (hm : Mounted s sb) (hz : sb.zmap i = some bh) (hj : j < BITS)
    (k : Nat) : mapBit { s with buf := putBit s.buf bh j v } sb k =
      if k = i * BITS + j then some v else mapBit s sb k := by
  obtain ⟨x, hx, -⟩ := exists_of_bufCount_ne (hm.2 i bh hz)
  have hk : k = i * BITS + j ↔ k / BITS = i ∧ k % BITS = j := by
    unfold BITS at hj ⊢
    omega
  rw [mapBit, mapBit]
  cases hb : sb.zmap (k / BITS) with
  | none =>
      rw [if_neg]
      · rfl
      · rw [hk]
        rintro ⟨hi, -⟩
        rw [hi, hz] at hb
        cases hb
  | some b =>
      simp only [Option.map_some, putBit, bufData_update, hx, Option.elim_some]
      by_cases hbh : b = bh
      · have hi : k / BITS = i := sb.distinct _ _ bh (hbh ▸ hb) hz
        rw [if_pos hbh, bit_put, hbh, bufData_eq hx]
        by_cases hkj : k % BITS = j
        · rw [if_pos hkj, if_pos (hk.mpr ⟨hi, hkj⟩)]
        · rw [if_neg hkj, if_neg fun h => hkj (hk.mp h).2]
      · rw [if_neg hbh, if_neg]
        rw [hk]
        rintro ⟨hi, -⟩
        rw [hi, hz] at hb
        exact hbh (Option.some.inj hb).symm

/-! ### The search -/

theorem findFirstZero_spec (data : Block) :
    (∀ j < findFirstZero data, bit data j = true) ∧
      (findFirstZero data < BITS → bit data (findFirstZero data) = false) := by
  obtain ⟨-, hset, hclear⟩ := scan_spec data (BITS / 32) 0
  exact ⟨fun j hj => hset j (Nat.zero_le j) hj, hclear⟩

theorem searchBlock_eq_none (h : searchBlock s.buf sb (k / BITS) = none) :
    mapBit s sb k ≠ some false := by
  rw [searchBlock] at h
  rw [mapBit]
  cases hb : sb.zmap (k / BITS) with
  | none => exact nofun
  | some bh =>
      rw [hb, Option.bind_some] at h
      split at h
      case isTrue => cases h
      next hge =>
      rw [Option.map_some, (findFirstZero_spec (bufData s.buf bh)).1 (k % BITS)]
      · exact fun h => nomatch h
      · exact Nat.lt_of_lt_of_le (Nat.mod_lt k (by decide)) (Nat.not_lt.mp hge)

theorem searchMap_eq_none (h : searchMap s.buf sb = none) (k : Nat) :
    mapBit s sb k ≠ some false := by
  by_cases hi : k / BITS < Z_MAP_SLOTS
  · exact searchBlock_eq_none (List.findSome?_eq_none_iff.mp h _ (List.mem_range.mpr hi))
  · rw [mapBit, sb.slots _ (Nat.not_lt.mp hi)]
    exact nofun

theorem searchMap_eq_some (h : searchMap s.buf sb = some (i, bh, j)) :
    sb.zmap i = some bh ∧ j < BITS ∧ FirstClear s sb (i * BITS + j) := by
  obtain ⟨l₁, m, l₂, hl, hm, hbefore⟩ := List.findSome?_eq_some_iff.mp h
  have hl₁ : l₁ = List.range m := by
    rw [List.range_eq_range'] at hl
    obtain ⟨n, -, hl₁, hl₂⟩ := List.range'_eq_append_iff.mp hl
    obtain ⟨hmn, -⟩ := List.range'_eq_cons_iff.mp hl₂.symm
    rw [hl₁, List.range_eq_range', ← hmn, Nat.zero_add, Nat.mul_one]
  rw [searchBlock] at hm
  cases hb : sb.zmap m with
  | none => rw [hb] at hm; cases hm
  | some bh' =>
      rw [hb, Option.bind_some] at hm
      split at hm
      case isFalse => cases hm
      next hj =>
      cases hm
      obtain ⟨hset, hclear⟩ := findFirstZero_spec (bufData s.buf bh)
      set j := findFirstZero (bufData s.buf bh)
      refine ⟨hb, hj, (mapBit_eq hb hj).trans (congrArg some (hclear hj)), fun k hk => ?_⟩
      by_cases hki : k / BITS = i
      · have hkj : k % BITS < j := by
          unfold BITS at hk hki ⊢
          omega
        rw [mapBit, hki, hb, Option.map_some, hset (k % BITS) hkj]
        exact fun h => nomatch h
      · refine searchBlock_eq_none (hbefore _ (hl₁ ▸ List.mem_range.mpr ?_))
        unfold BITS at hk hki hj ⊢
        omega

end LinuxKernel.V011.Fs.Bitmap
