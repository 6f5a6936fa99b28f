import LinuxKernel.V011.Fs.Bitmap

/-!
# LinuxKernel.V011.Fs.BitmapExact

**What `new_block` and `free_block` do to the map and to the references.**

- `new_block` sets the bit before it looks whether the zone exists, so a map with a clear
  bit too many loses it.
- `free_block` gives up when somebody else has a reference to the buffer of the block. It
  keeps the reference it has just taken, and the bit.
-/

namespace LinuxKernel.V011.Fs.Bitmap

open Bits

variable {s s' : State} {sb : SuperBlock} {c c' : Buffers} {e : Evict} {b : BlockNr}
  {i j k : Nat} {z : Int}

/-! ### Buffers -/

/-- Only the buffer of block `b` has changed, among those with references. -/
def Elsewhere (c c' : Buffers) (b : BlockNr) : Prop :=
  ∀ b', b' ≠ b → bufCount c' b' = bufCount c b' ∧
    (bufCount c b' ≠ 0 → bufData c' b' = bufData c b')

theorem Elsewhere.trans {c'' : Buffers} (h : Elsewhere c c' b) (h' : Elsewhere c' c'' b) :
    Elsewhere c c'' b := fun b' hb =>
  ⟨(h' b' hb).1.trans (h b' hb).1, fun hc =>
    ((h' b' hb).2 ((h b' hb).1 ▸ hc)).trans ((h b' hb).2 hc)⟩

theorem elsewhere_update (c : Buffers) (b : BlockNr) (x : Option Buf) :
    Elsewhere c (Function.update c b x) b := fun b' hb => by
  rw [bufCount_update, if_neg hb, bufData_update, if_neg hb]
  exact ⟨rfl, fun _ => rfl⟩

/-- A buffer that loses its block had no references. -/
theorem elsewhere_evict (c : Buffers) (e : Evict) (b : BlockNr) : Elsewhere c (evict c e) b := by
  intro b' _
  rw [bufCount, bufData, evict]
  split
  · next h => exact ⟨h.2.symm, fun hne => absurd h.2 hne⟩
  · cases hb : c b' with
    | none => exact ⟨(by rw [bufCount, hb]; rfl), fun _ => by rw [bufData, hb]; rfl⟩
    | some x =>
        rw [bufCount_eq hb, bufData_eq hb, Option.map_some]
        split <;> exact ⟨rfl, fun _ => rfl⟩

theorem getblk_spec (c : Buffers) (b : BlockNr) (e : Evict) :
    (∃ x, getblk c b e b = some x ∧ x.count = bufCount c b + 1) ∧ Elsewhere c (getblk c b e) b := by
  rw [getblk]
  cases hb : c b with
  | none =>
      rw [bufCount, hb]
      exact ⟨⟨_, Function.update_self .., rfl⟩, (elsewhere_evict c e b).trans (elsewhere_update _ _ _)⟩
  | some x =>
      rw [bufCount_eq hb]
      exact ⟨⟨_, Function.update_self .., rfl⟩, elsewhere_update _ _ _⟩

theorem succ_eq_one_iff {v : BitVec 8} : v + 1 = 1 ↔ v = 0 := by bv_omega

theorem clearBlock_used (h : bufCount c b ≠ 0) :
    clearBlock c b e = .panic "new block: count is != 1" := by
  obtain ⟨⟨x, hx, hcount⟩, -⟩ := getblk_spec c b e
  rw [clearBlock]
  refine if_pos ?_
  rw [bufCount_eq hx, hcount]
  exact fun he => h (succ_eq_one_iff.mp he)

/-- The buffer of a new block: zeroed, up to date, dirty and unused. -/
def fresh : Buf where
  data _ := 0
  uptodate := true
  dirt := true
  count := 0

theorem clearBlock_unused (h : bufCount c b = 0) :
    ∃ c', clearBlock c b e = .next c' ∧ c' b = some fresh ∧ Elsewhere c c' b := by
  obtain ⟨⟨x, hx, hcount⟩, helse⟩ := getblk_spec c b e
  have hone : x.count = 1 := hcount.trans (succ_eq_one_iff.mpr h)
  rw [clearBlock]
  rw [if_neg (not_not.mpr ((bufCount_eq hx).trans hone)), brelse, if_neg]
  · refine ⟨_, rfl, ?_, (helse.trans (elsewhere_update _ _ _)).trans (elsewhere_update _ _ _)⟩
    rw [Function.update_self, Function.update_self, hx, Option.map_some, Option.map_some, hone]
    rfl
  · rw [bufCount_update, if_pos rfl, hx, Option.map_some, Option.elim_some]
    rw [hone]
    decide

/-! ### The map -/

variable (s') in
/-- The map does not see a buffer it has no reference to. -/
theorem Mounted.elsewhere (hm : Mounted s sb) (hb : bufCount s.buf b = 0)
    (h : Elsewhere s.buf s'.buf b) (hsuper : s'.super = s.super) :
    Mounted s' sb ∧ mapBit s' sb = mapBit s sb := by
  have hne : ∀ i b', sb.zmap i = some b' → b' ≠ b := fun i b' hi he => hm.2 i b' hi (he ▸ hb)
  refine ⟨⟨hsuper.trans hm.1, fun i b' hi => ?_⟩, mapBit_congr fun i b' hi => ?_⟩
  · rw [(h b' (hne i b' hi)).1]
    exact hm.2 i b' hi
  · exact (h b' (hne i b' hi)).2 (hm.2 i b' hi)

theorem putBit_count {v : Bool} (c : Buffers) (bh : BlockNr) (j : Nat) (b : BlockNr) :
    bufCount (putBit c bh j v) b = bufCount c b := by
  rw [putBit, bufCount_update]
  split
  · next h =>
    rw [h]
    cases hb : c bh with
    | none => rw [bufCount, hb]; rfl
    | some x => rw [bufCount_eq hb]; rfl
  · rfl

theorem Mounted.putBit {bh : BlockNr} {v : Bool} (hm : Mounted s sb) :
    Mounted { s with buf := putBit s.buf bh j v } sb :=
  ⟨hm.1, fun i b hi => by
    rw [putBit_count]
    exact hm.2 i b hi⟩

/-! ### `new_block` -/

/-- The zone of bit `k`. -/
def zone (sb : SuperBlock) (k : Nat) : Int := k + sb.firstdatazone.toNat - 1

theorem FirstClear.unique (h : FirstClear s sb j) (h' : FirstClear s sb k) : j = k := by
  rcases Nat.lt_trichotomy j k with hlt | heq | hlt
  · exact absurd h.clear (h'.first j hlt)
  · exact heq
  · exact absurd h'.clear (h.first k hlt)

/-- The state after `set_bit`. -/
structure Marked (s s' : State) (sb : SuperBlock) (k : Nat) : Prop where
  super : s'.super = s.super
  mounted : Mounted s' sb
  bits : ∀ j, mapBit s' sb j = if j = k then some true else mapBit s sb j
  counts : ∀ b, bufCount s'.buf b = bufCount s.buf b

theorem newBlock_full (hm : Mounted s sb) (h : ∀ k, mapBit s sb k ≠ some false) :
    newBlock s e = .next (s, 0) := by
  rw [newBlock, hm.1]
  cases hsearch : searchMap s.buf sb with
  | none => simp only [hsearch]
  | some r => exact absurd (searchMap_eq_some hsearch).2.2.clear (h _)

/-- With a clear bit, the first one is set; then the zone is looked at. -/
theorem newBlock_eq (hm : Mounted s sb) (h : FirstClear s sb k) :
    ∃ s₁, Marked s s₁ sb k ∧ newBlock s e =
      if zone sb k ≥ sb.nzones.toNat then .next (s₁, 0)
      else (clearBlock s₁.buf (blockNr (zone sb k)) e).bind fun c =>
        .next ({ s₁ with buf := c }, zone sb k) := by
  rw [newBlock, hm.1]
  cases hsearch : searchMap s.buf sb with
  | none => exact absurd h.clear (searchMap_eq_none hsearch k)
  | some r =>
      obtain ⟨i, bh, j⟩ := r
      obtain ⟨hz, hj, hfirst⟩ := searchMap_eq_some hsearch
      obtain rfl := h.unique hfirst
      obtain ⟨x, hx, -⟩ := exists_of_bufCount_ne (hm.2 i bh hz)
      have hclear : bit (bufData s.buf bh) j = false := by
        have hc := hfirst.clear
        rw [mapBit_eq hz hj] at hc
        exact Option.some.inj hc
      refine ⟨{ s with buf := putBit s.buf bh j true }, ⟨rfl, hm.putBit, ?_, ?_⟩, ?_⟩
      · exact mapBit_putBit hm hz hj
      · exact putBit_count s.buf bh j
      · have hzone : (j : Int) + (i * BITS + sb.firstdatazone.toNat) - 1 =
            zone sb (i * BITS + j) := by
          rw [zone]
          push_cast
          omega
        simp only [hsearch, hclear, Bool.false_eq_true, if_false, hzone, hm.1]

/-! ### `free_block` -/

theorem clearMap_spec (hm : Mounted s sb) (h : mapBit s sb k = some true) :
    ∃ s', clearMap s sb k = .next s' ∧
      (∀ j, mapBit s' sb j = if j = k then some false else mapBit s sb j) ∧
      ∀ b, bufCount s'.buf b = bufCount s.buf b := by
  rw [clearMap]
  rw [mapBit] at h
  cases hz : sb.zmap (k / BITS) with
  | none => rw [hz] at h; cases h
  | some bh =>
      rw [hz, Option.map_some, Option.some.injEq] at h
      refine ⟨_, if_pos h, fun j => ?_, putBit_count s.buf bh _⟩
      have hbits := mapBit_putBit (v := false) hm hz (Nat.mod_lt k (by decide)) j
      rwa [Nat.div_add_mod'] at hbits

/-- The tests at the start of `free_block`. -/
theorem freeBlock_eq (hm : Mounted s sb) (hlow : sb.firstdatazone.toNat ≤ z)
    (hhigh : z < sb.nzones.toNat) (hz : zone sb k = z) : freeBlock s z =
      match getHashTable s.buf (blockNr z) with
      | none => clearMap s sb k
      | some c =>
          if bufCount c (blockNr z) ≠ 1 then .next { s with buf := c }
          else (brelse (Function.update c (blockNr z) ((c (blockNr z)).map fun x =>
            { x with dirt := false, uptodate := false })) (blockNr z)).bind fun c =>
              clearMap { s with buf := c } sb k := by
  have hk : (z - (sb.firstdatazone.toNat - 1)).toNat = k := by
    rw [zone] at hz
    omega
  rw [freeBlock, hm.1]
  simp only [hk]
  exact if_neg (by omega)

/-- With another reference to the buffer nothing is freed. -/
theorem freeBlock_used (hm : Mounted s sb) (hlow : sb.firstdatazone.toNat ≤ z)
    (hhigh : z < sb.nzones.toNat) (hz : zone sb k = z) (hb : bufCount s.buf (blockNr z) ≠ 0) :
    ∃ s', freeBlock s z = .next s' ∧ mapBit s' sb = mapBit s sb := by
  obtain ⟨x, hx, hcount⟩ := exists_of_bufCount_ne hb
  rw [freeBlock_eq hm hlow hhigh hz, getHashTable, hx, Option.map_some]
  refine ⟨_, if_pos ?_, mapBit_congr fun i b _ => ?_⟩
  · rw [bufCount_update, if_pos rfl]
    exact fun he => hcount (succ_eq_one_iff.mp he)
  · change bufData (Function.update s.buf (blockNr z) _) b = _
    rw [bufData_update]
    split
    · next h => rw [h, bufData_eq hx]; rfl
    · rfl

/-- Without one, the bit is cleared and the counts stay. -/
theorem freeBlock_unused (hm : Mounted s sb) (hlow : sb.firstdatazone.toNat ≤ z)
    (hhigh : z < sb.nzones.toNat) (hz : zone sb k = z) (hb : bufCount s.buf (blockNr z) = 0)
    (hbit : mapBit s sb k = some true) :
    ∃ s', freeBlock s z = .next s' ∧
      (∀ j, mapBit s' sb j = if j = k then some false else mapBit s sb j) ∧
      ∀ b, bufCount s'.buf b = bufCount s.buf b := by
  rw [freeBlock_eq hm hlow hhigh hz, getHashTable]
  cases hx : s.buf (blockNr z) with
  | none => exact clearMap_spec hm hbit
  | some x =>
      have hcount : x.count = 0 := (bufCount_eq hx).symm.trans hb
      have hone : x.count + 1 = 1 := succ_eq_one_iff.mpr hcount
      simp only [Option.map_some, bufCount_update, Function.update_self, Option.elim_some, hone,
        ne_eq, not_true_eq_false, if_false, Function.update_idem, brelse, if_true]
      rw [if_neg (by decide)]
      set c := Function.update s.buf (blockNr z)
        (some { data := x.data, uptodate := false, dirt := false, count := (1 : BitVec 8) - 1 }) with hc
      have hsame : ∀ b, bufCount c b = bufCount s.buf b := fun b => by
        rw [hc, bufCount_update]
        split
        · next h => rw [h, hb]; rfl
        · rfl
      obtain ⟨hm', hbits⟩ := Mounted.elsewhere { s with buf := c } hm hb
        (elsewhere_update _ _ _) rfl
      obtain ⟨s', hs', hclear, hcounts⟩ := clearMap_spec hm' (hbits ▸ hbit)
      exact ⟨s', hs', hbits ▸ hclear, fun b => (hcounts b).trans (hsame b)⟩

/-! ### A zone is allocated and freed -/

/-- `new_block` has given zone `z`. -/
structure Allocates (s s' : State) (sb : SuperBlock) (z : Int) : Prop where
  low : sb.firstdatazone.toNat ≤ z
  high : z < sb.nzones.toNat
  bits : ∃ k, zone sb k = z ∧ mapBit s sb k = some false ∧
    ∀ j, mapBit s' sb j = if j = k then some true else mapBit s sb j
  buffer : s'.buf (blockNr z) = some fresh

/-- `free_block` restores the map of `s` and leaves the references alone. By then `b` is the
buffer of the zone, with the references others have to it. -/
def Restores (s s' : State) (sb : SuperBlock) (z : Int) (b : Option Buf) : Prop :=
  ∃ s'', freeBlock { s' with buf := Function.update s'.buf (blockNr z) b } z = .next s'' ∧
    mapBit s'' sb = mapBit s sb ∧
      ∀ x, bufCount s''.buf x = bufCount (Function.update s'.buf (blockNr z) b) x

/-- A zone that can be freed again, or nothing. -/
def Exact (s : State) (sb : SuperBlock) (e : Evict) (b : Option Buf) : Prop :=
  ∃ s' z, newBlock s e = .next (s', z) ∧
    (Allocates s s' sb z ∧ Restores s s' sb z b ∨ z = 0 ∧ mapBit s' sb = mapBit s sb)

def Full (s : State) (sb : SuperBlock) : Prop := ∀ k, mapBit s sb k ≠ some false

/-- The first clear bit is one of a zone, whose buffer nobody has a reference to. -/
structure Usable (s : State) (sb : SuperBlock) (k : Nat) : Prop where
  first : FirstClear s sb k
  pos : 0 < k
  inside : zone sb k < sb.nzones.toNat
  unused : bufCount s.buf (blockNr (zone sb k)) = 0

theorem full_or_firstClear (s : State) (sb : SuperBlock) :
    Full s sb ∨ ∃ k, FirstClear s sb k := by
  cases h : searchMap s.buf sb with
  | none => exact Or.inl (searchMap_eq_none h)
  | some r => exact Or.inr ⟨_, (searchMap_eq_some h).2.2⟩

theorem Marked.changed (h : Marked s s' sb k) (hk : FirstClear s sb k) :
    mapBit s' sb ≠ mapBit s sb := fun he => by
  have hbit := congrFun he k
  rw [h.bits, if_pos rfl, hk.clear] at hbit
  cases hbit

/-- The bit of an allocated zone is the one that was set. -/
theorem Marked.zone_eq (h : Marked s s' sb k) (hk : FirstClear s sb k) {t : State} {z : Int}
    (ht : mapBit t sb = mapBit s' sb) (ha : Allocates s t sb z) : z = zone sb k := by
  obtain ⟨j, hj, -, hbits⟩ := ha.bits
  have hbit := hbits k
  rw [ht, h.bits, if_pos rfl, hk.clear] at hbit
  by_cases hkj : k = j
  · rw [← hj, hkj]
  · rw [if_neg hkj] at hbit
    cases hbit

/-- A zone from the inside of the map. -/
theorem newBlock_usable (hm : Mounted s sb) (h : FirstClear s sb k)
    (hinside : zone sb k < sb.nzones.toNat)
    (hunused : bufCount s.buf (blockNr (zone sb k)) = 0) :
    ∃ s₁ s', Marked s s₁ sb k ∧ newBlock s e = .next (s', zone sb k) ∧
      mapBit s' sb = mapBit s₁ sb ∧ s'.buf (blockNr (zone sb k)) = some fresh ∧ Mounted s' sb := by
  obtain ⟨s₁, hmark, hnew⟩ := newBlock_eq (e := e) hm h
  obtain ⟨c, hc, hfresh, helse⟩ := clearBlock_unused (e := e)
    ((hmark.counts (blockNr (zone sb k))).trans hunused)
  obtain ⟨hm', hbits⟩ := Mounted.elsewhere { s₁ with buf := c } hmark.mounted
    ((hmark.counts _).trans hunused) helse rfl
  refine ⟨s₁, _, hmark, ?_, hbits, hfresh, hm'⟩
  rw [hnew, if_neg (Int.not_le.mpr hinside), hc]
  rfl

/-- Other references to the buffer of a new zone are not in the map. -/
theorem Marked.others {s₁ : State} (h : Marked s s₁ sb k) (hm : Mounted s' sb)
    (hbits : mapBit s' sb = mapBit s₁ sb) (hfresh : s'.buf (blockNr z) = some fresh)
    (b : Option Buf) : Mounted { s' with buf := Function.update s'.buf (blockNr z) b } sb ∧
      ∀ j, mapBit { s' with buf := Function.update s'.buf (blockNr z) b } sb j =
        if j = k then some true else mapBit s sb j := by
  obtain ⟨hm', hsame⟩ := Mounted.elsewhere
    { s' with buf := Function.update s'.buf (blockNr z) b } hm
    (bufCount_eq hfresh) (elsewhere_update _ _ _) rfl
  exact ⟨hm', fun j => by rw [hsame, hbits, h.bits]⟩

/-- What `free_block` needs to undo `new_block`. -/
theorem restores_iff {s₁ : State} {b : Option Buf} (hmark : Marked s s₁ sb k)
    (hk : FirstClear s sb k) (hm : Mounted s' sb) (hbits : mapBit s' sb = mapBit s₁ sb)
    (hfresh : s'.buf (blockNr (zone sb k)) = some fresh)
    (hlow : sb.firstdatazone.toNat ≤ zone sb k) (hhigh : zone sb k < sb.nzones.toNat) :
    Restores s s' sb (zone sb k) b ↔ ∀ x ∈ b, x.count = 0 := by
  obtain ⟨hm', hbits'⟩ := hmark.others hm hbits hfresh b
  have hcount : bufCount (Function.update s'.buf (blockNr (zone sb k)) b) (blockNr (zone sb k)) =
      b.elim 0 Buf.count := by rw [bufCount_update, if_pos rfl]
  constructor
  · rintro ⟨s'', hfree, hrestored, -⟩ x hx
    by_contra hne
    obtain ⟨t, ht, hkept⟩ := freeBlock_used hm' hlow hhigh rfl (by rw [hcount, hx]; exact hne)
    obtain rfl : s'' = t := Outcome.next.inj (hfree.symm.trans ht)
    have hbit := congrFun (hrestored.symm.trans hkept) k
    rw [hbits', if_pos rfl, hk.clear] at hbit
    cases hbit
  · intro hb
    have hzero : b.elim 0 Buf.count = 0 := by
      cases b with
      | none => rfl
      | some x => exact hb x rfl
    obtain ⟨t, ht, hclear, hcounts⟩ := freeBlock_unused hm' hlow hhigh rfl (hcount.trans hzero)
      ((hbits' k).trans (if_pos rfl))
    refine ⟨t, ht, funext fun j => ?_, hcounts⟩
    rw [hclear, hbits']
    split
    · next h => rw [h, hk.clear]
    · rfl

/-- A clear bit past the last zone is lost. -/
theorem not_exact_of_outside {b : Option Buf} (hm : Mounted s sb) (hk : FirstClear s sb k)
    (hout : sb.nzones.toNat ≤ zone sb k) : ¬ Exact s sb e b := by
  rintro ⟨s', z, hnew, hcase⟩
  obtain ⟨s₁, hmark, hnew'⟩ := newBlock_eq (e := e) hm hk
  rw [hnew', if_pos hout] at hnew
  cases hnew
  rcases hcase with ⟨ha, -⟩ | ⟨-, hsame⟩
  · exact absurd ha.high (hmark.zone_eq hk rfl ha ▸ Int.not_lt.mpr hout)
  · exact absurd hsame (hmark.changed hk)

/-- **Zone allocation.** It is exact if the map is full, or if the first clear bit belongs to
an unused zone and nobody else holds the buffer when it is freed. -/
theorem newBlock_exact_iff {b : Option Buf} (hm : Mounted s sb) :
    Exact s sb e b ↔ Full s sb ∨ (∃ k, Usable s sb k) ∧ ∀ x ∈ b, x.count = 0 := by
  rcases full_or_firstClear s sb with hfull | ⟨k, hk⟩
  · exact ⟨fun _ => Or.inl hfull, fun _ => ⟨s, 0, newBlock_full hm hfull, Or.inr ⟨rfl, rfl⟩⟩⟩
  constructor
  · intro hexact
    by_cases hinside : zone sb k ≥ sb.nzones.toNat
    · exact absurd hexact (not_exact_of_outside hm hk hinside)
    · obtain ⟨s', z, hnew, hcase⟩ := hexact
      obtain ⟨s₁, hmark, hnew'⟩ := newBlock_eq (e := e) hm hk
      rw [hnew', if_neg hinside] at hnew
      by_cases hunused : bufCount s.buf (blockNr (zone sb k)) = 0
      · obtain ⟨s₂, s₃, hmark₂, hnew₂, hbits, hfresh, hm'⟩ :=
          newBlock_usable (e := e) hm hk (Int.not_le.mp hinside) hunused
        rw [hnew', if_neg hinside, hnew] at hnew₂
        cases hnew₂
        rcases hcase with ⟨ha, hr⟩ | ⟨-, hsame⟩
        · have hpos : 0 < k := by
            have hlow := ha.low
            rw [zone] at hlow
            omega
          exact Or.inr ⟨⟨k, hk, hpos, ha.high, hunused⟩,
            (restores_iff hmark₂ hk hm' hbits hfresh ha.low ha.high).mp hr⟩
        · exact absurd (hbits.symm.trans hsame) (hmark₂.changed hk)
      · rw [clearBlock_used fun h => hunused ((hmark.counts _).symm.trans h)] at hnew
        cases hnew
  · rintro (hfull | ⟨⟨k', hk', hpos, hinside, hunused⟩, hb⟩)
    · exact absurd hk.clear (hfull k)
    · obtain rfl := hk.unique hk'
      obtain ⟨s₁, s', hmark, hnew, hbits, hfresh, hm'⟩ :=
        newBlock_usable (e := e) hm hk hinside hunused
      have hlow : (sb.firstdatazone.toNat : Int) ≤ zone sb k := by
        rw [zone]
        omega
      refine ⟨s', _, hnew, Or.inl ⟨⟨hlow, hinside, ⟨k, rfl, hk.clear, fun j => ?_⟩, hfresh⟩, ?_⟩⟩
      · rw [hbits, hmark.bits]
      · exact (restores_iff hmark hk hm' hbits hfresh hlow hinside).mpr hb

/-- One data zone, and one block of the map. -/
def oneZone : SuperBlock where
  nzones := 6
  firstdatazone := 5
  zmap i := if i = 0 then some 3 else none
  slots i hi := if_neg (Nat.pos_iff_ne_zero.mp (Nat.lt_of_lt_of_le (by decide) hi))
  distinct i j b hi hj := by
    split at hi
    · next hi0 =>
      split at hj
      · next hj0 => exact hi0.trans hj0.symm
      · cases hj
    · cases hi

/-- The zone is in use, and nothing is known about the bits after it. -/
def zoneUsed : State where
  super := some oneZone
  buf b :=
    if b = 3 then some { data := Function.update (fun _ => 0) 0 3, uptodate := true, dirt := false, count := 1 }
    else none

def noEvict : Evict where
  victim := none
  written _ := false
  stale _ := 0

theorem zoneUsed_mounted : Mounted zoneUsed oneZone := by
  refine ⟨rfl, fun i b hi => ?_⟩
  change (if i = 0 then some 3 else none) = some b at hi
  split at hi
  · cases hi
    decide
  · cases hi

theorem zoneUsed_firstClear : FirstClear zoneUsed oneZone 2 :=
  ⟨by decide, by decide⟩

/-- `new_block` takes the bit after the last zone and returns 0. -/
theorem newBlock_not_exact : Mounted zoneUsed oneZone ∧
    oneZone.firstdatazone.toNat ≤ oneZone.nzones.toNat ∧ ¬ Exact zoneUsed oneZone noEvict none :=
  ⟨zoneUsed_mounted, by decide,
    not_exact_of_outside zoneUsed_mounted zoneUsed_firstClear (by decide)⟩

theorem newBlock_exact_iff_zoneUsed : Exact zoneUsed oneZone noEvict none ↔
    Full zoneUsed oneZone ∨ (∃ k, Usable zoneUsed oneZone k) ∧ ∀ x ∈ (none : Option Buf), x.count = 0 :=
  newBlock_exact_iff zoneUsed_mounted

end LinuxKernel.V011.Fs.Bitmap
