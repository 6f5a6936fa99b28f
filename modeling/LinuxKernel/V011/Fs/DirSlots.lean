import LinuxKernel.V011.Fs.DirBmap

/-!
# LinuxKernel.V011.Fs.DirSlots

**The places where an inode keeps its block numbers**: its zones, and the words of its
indirect blocks.

A directory is `Sound` if no block is used twice. `create_block` then fills free places
only, with blocks that are new, and changes no block with entries.
-/

namespace LinuxKernel.V011.Fs.DirBlocks

open Dir

/-- A place for a block number. -/
inductive Slot
  | zone (i : Fin 9)
  | single (w : Fin 512)
  | double (w : Fin 512)
  | leaf (w v : Fin 512)
  deriving DecidableEq

variable {env : Env} {s s' s'' : State} {x y q : Slot} {w v : Fin 512} {z b : Short} {k : Nat}

/-- The block number in a place. -/
def ptr (s : State) : Slot → Short
  | .zone i => s.dir.zone i
  | .single w => indirectOf s (s.dir.zone 7) w true
  | .double w => indirectOf s (s.dir.zone 8) w true
  | .leaf w v => indirectOf s (indirectOf s (s.dir.zone 8) w true) v true

/-- The indirect block of a place is itself in a place. -/
def Slot.up : Slot → Option (Slot × Fin 512)
  | .zone _ => none
  | .single w => some (.zone 7, w)
  | .double w => some (.zone 8, w)
  | .leaf w v => some (.double w, v)

/-- The place of block `k` of the directory. -/
def slotOf (k : Nat) : Slot :=
  if k < 7 then .zone (.ofNat 9 k)
  else if k - 7 < 512 then .single (.ofNat 512 (k - 7))
  else .leaf (.ofNat 512 ((k - 7 - 512) / 512)) (.ofNat 512 ((k - 7 - 512) % 512))

/-- No block is in two places. -/
def Sound (s : State) : Prop := ∀ x y, ptr s x ≠ 0 → ptr s x = ptr s y → x = y

theorem ptr_up (h : x.up = some (q, w)) : ptr s x = indirectOf s (ptr s q) w true := by
  cases x with
  | zone i => cases h
  | single w => cases h; rfl
  | double w => cases h; rfl
  | leaf w v => cases h; rfl

theorem up_inj (hx : x.up = some (q, w)) (hy : y.up = some (q, w)) : x = y := by
  cases x <;> cases y <;> cases hx <;> cases hy <;> rfl

theorem up_ne (h : x.up = some (q, w)) : q ≠ x := by
  cases x <;> cases h <;> exact nofun

theorem blockOf_slot (hread : ∀ k l, env.read k l = true) (hk : k < MAX_BLOCKS) :
    blockOf env s k = ptr s (slotOf k) := by
  rw [blockOf, slotOf]
  split
  · next h => rw [ptr, Fin.val_ofNat, Nat.mod_eq_of_lt (by omega)]
  split
  · next h => rw [ptr, Fin.val_ofNat, Nat.mod_eq_of_lt h, hread]
  · next h7 h =>
    rw [MAX_BLOCKS] at hk
    have hdiv : (k - 7 - 512) / 512 % 512 = (k - 7 - 512) / 512 := Nat.mod_eq_of_lt (by omega)
    have hmod : (k - 7 - 512) % 512 % 512 = (k - 7 - 512) % 512 := Nat.mod_mod _ _
    rw [ptr, Fin.val_ofNat, Fin.val_ofNat, hdiv, hmod, hread, hread]

theorem slotOf_inj {k k' : Nat} (hk : k < MAX_BLOCKS) (hk' : k' < MAX_BLOCKS)
    (h : slotOf k = slotOf k') : k = k' := by
  rw [MAX_BLOCKS] at hk hk'
  rw [slotOf, slotOf] at h
  split at h
  · split at h
    · simp only [Slot.zone.injEq, Fin.ext_iff, Fin.val_ofNat] at h
      omega
    · split at h <;> cases h
  split at h
  · split at h
    · cases h
    split at h
    · simp only [Slot.single.injEq, Fin.ext_iff, Fin.val_ofNat] at h
      omega
    · cases h
  · split at h
    · cases h
    split at h
    · cases h
    · simp only [Slot.leaf.injEq, Fin.ext_iff, Fin.val_ofNat] at h
      omega

/-! ### A new block number -/

/-- A block number that was missing is there, and its block is empty. -/
structure Links (s s' : State) (x : Slot) (z : Short) : Prop where
  num : ∀ y, ptr s' y = if y = x then z else ptr s y
  data : ∀ b, b ≠ z → (∀ q w, x.up = some (q, w) → b ≠ ptr s q) → s'.data b = s.data b
  zero : s'.data z = fun _ => 0
  size : s'.dir.size = s.dir.size

theorem indirectOf_data {w : Nat} (h : b ≠ 0 → s'.data b = s.data b) :
    indirectOf s' b w true = indirectOf s b w true := by
  rw [indirectOf, indirectOf]
  split
  · rfl
  · next hb => rw [h fun h0 => hb (Or.inl h0)]

/-- What is known of a change of one block number determines all others. -/
theorem ptr_of_change (hsound : Sound s) (hx : ptr s x = 0) (hz : ∀ y, ptr s y ≠ z)
    (hzone : ∀ i : Fin 9, s'.dir.zone i = if x = .zone i then z else s.dir.zone i)
    (hzero : s'.data z = fun _ => 0)
    (hdata : ∀ b, b ≠ z → (∀ q w, x.up = some (q, w) → b ≠ ptr s q) → s'.data b = s.data b)
    (hword : ∀ q w, x.up = some (q, w) → ptr s q ≠ 0 ∧ ∀ v : Fin 512,
      word (s'.data (ptr s q)) v = if v = w then z else word (s.data (ptr s q)) v) (y : Slot) :
    ptr s' y = if y = x then z else ptr s y := by
  have hup : ∀ {y q v}, y.up = some (q, v) → ptr s' q = (if q = x then z else ptr s q) →
      ptr s' y = if y = x then z else ptr s y := by
    intro y q v hy hq
    rw [ptr_up hy, ptr_up hy, hq]
    by_cases hqx : q = x
    · have hyx : y ≠ x := fun he => up_ne hy (hqx.trans he.symm)
      rw [if_pos hqx, if_neg hyx, hqx, hx, indirectOf_zero, indirectOf]
      split
      · rfl
      · rw [hzero, word_zero]
    rw [if_neg hqx]
    by_cases hup : ∃ w, x.up = some (q, w)
    · obtain ⟨w, hw⟩ := hup
      obtain ⟨hq0, hwords⟩ := hword q w hw
      have hcond : ¬ (ptr s q = 0 ∨ true = false) := not_or.mpr ⟨hq0, Bool.false_ne_true.symm⟩
      rw [indirectOf, indirectOf, if_neg hcond, if_neg hcond, hwords]
      refine if_congr ⟨fun hv => up_inj hy (hv ▸ hw), fun hyx => ?_⟩ rfl rfl
      rw [hyx, hw] at hy
      cases hy
      rfl
    · have hyx : y ≠ x := fun he => hup ⟨v, he ▸ hy⟩
      rw [if_neg hyx]
      refine indirectOf_data fun hq0 => hdata _ (hz q) fun q' w hw he => hup ?_
      exact ⟨w, hsound q q' hq0 he ▸ hw⟩
  have hz9 : ∀ i, ptr s' (.zone i) = if .zone i = x then z else ptr s (.zone i) := fun i => by
    rw [ptr, hzone]
    exact if_congr eq_comm rfl rfl
  cases y with
  | zone i => exact hz9 i
  | single w => exact hup rfl (hz9 7)
  | double w => exact hup rfl (hz9 8)
  | leaf w v => exact hup rfl (hup rfl (hz9 8))

theorem Links.sound (h : Links s s' x z) (hsound : Sound s) (hz : ∀ y, ptr s y ≠ z) :
    Sound s' := by
  intro y y' hne heq
  rw [h.num, h.num] at heq
  rw [h.num] at hne
  split at heq
  · next hy =>
    split at heq
    · next hy' => rw [hy, hy']
    · exact absurd heq.symm (hz y')
  · next hy =>
    rw [if_neg hy] at hne
    split at heq
    · exact absurd heq (hz y)
    · exact hsound y y' hne heq

/-- `new_block`, and the block number goes into a zone. -/
theorem links_zone {i : Fin 9} (hsound : Sound s) (hx : s.dir.zone i = 0) (hz : ∀ y, ptr s y ≠ z) :
    Links s { s.setData z fun _ => 0 with
      dir := { s.dir with zone := Function.update s.dir.zone i z } } (.zone i) z := by
  have hzero : Function.update s.data z (fun _ => 0) z = fun _ => 0 := Function.update_self ..
  have hdata : ∀ b, b ≠ z → Function.update s.data z (fun _ => 0) b = s.data b := fun b hb =>
    Function.update_of_ne hb _ _
  refine ⟨ptr_of_change hsound hx hz (fun j => ?_) hzero (fun b hb _ => hdata b hb) nofun,
    fun b hb _ => hdata b hb, hzero, rfl⟩
  change Function.update s.dir.zone i z j = _
  rw [Function.update_apply]
  exact if_congr ⟨fun h => by rw [Fin.ext h], fun h => by cases h; rfl⟩ rfl rfl

/-- `new_block`, and the block number goes into a word of an indirect block. -/
theorem links_word (hsound : Sound s) (hup : x.up = some (q, w)) (hq : ptr s q ≠ 0)
    (hx : ptr s x = 0) (hz : ∀ y, ptr s y ≠ z) :
    Links s ((s.setData z fun _ => 0).setData (ptr s q)
      (putWord ((s.setData z fun _ => 0).data (ptr s q)) w z)) x z := by
  have hqz := hz q
  have hold : (s.setData z fun _ => 0).data (ptr s q) = s.data (ptr s q) :=
    Function.update_of_ne hqz _ _
  rw [hold]
  set s' := (s.setData z fun _ => 0).setData (ptr s q) (putWord (s.data (ptr s q)) w z)
  have hzero : s'.data z = fun _ => 0 := by
    change Function.update (Function.update s.data z _) (ptr s q) _ z = _
    rw [Function.update_of_ne (Ne.symm hqz), Function.update_self]
  have hdata : ∀ b, b ≠ z → (∀ q w, x.up = some (q, w) → b ≠ ptr s q) → s'.data b = s.data b := by
    intro b hb hne
    change Function.update (Function.update s.data z _) (ptr s q) _ b = _
    rw [Function.update_of_ne (hne q w hup), Function.update_of_ne hb]
  have hself : s'.data (ptr s q) = putWord (s.data (ptr s q)) w z := Function.update_self ..
  refine ⟨ptr_of_change hsound hx hz (fun j => ?_) hzero hdata fun q' w' hup' => ?_, hdata, hzero,
    rfl⟩
  · refine (if_neg fun hxj => ?_).symm
    rw [hxj] at hup
    cases hup
  · rw [hup] at hup'
    cases hup'
    refine ⟨hq, fun v => ?_⟩
    rw [hself, word_putWord]
    exact if_congr Fin.ext_iff.symm rfl rfl

/-- What was there stays, and so do the blocks with entries. -/
structure Extends (s s' : State) : Prop where
  num : ∀ x, ptr s x ≠ 0 → ptr s' x = ptr s x
  data : ∀ k, ptr s (slotOf k) ≠ 0 → s'.data (ptr s (slotOf k)) = s.data (ptr s (slotOf k))
  size : s'.dir.size = s.dir.size

theorem Extends.refl (s : State) : Extends s s := ⟨fun _ _ => rfl, fun _ _ => rfl, rfl⟩

theorem Extends.trans (h : Extends s s') (h' : Extends s' s'') : Extends s s'' := by
  refine ⟨fun x hx => ?_, fun k hk => ?_, h'.size.trans h.size⟩
  · rw [h'.num x (by rwa [h.num x hx]), h.num x hx]
  · have hkeep := h.num _ hk
    have hdata := h'.data k (by rwa [hkeep])
    rw [hkeep] at hdata
    exact hdata.trans (h.data k hk)

/-- Blocks with entries are not indirect blocks. -/
theorem slotOf_ne_up (h : x.up = some (q, w)) (k : Nat) : slotOf k ≠ q := by
  have hzone : ∀ i : Nat, 7 ≤ i → i < 9 → slotOf k ≠ .zone (.ofNat 9 i) := fun i h7 h9 he => by
    rw [slotOf] at he
    split at he
    · simp only [Slot.zone.injEq, Fin.ext_iff, Fin.val_ofNat] at he
      omega
    · split at he <;> cases he
  cases x with
  | zone i => cases h
  | single w =>
      cases h
      exact hzone 7 (by decide) (by decide)
  | double w =>
      cases h
      exact hzone 8 (by decide) (by decide)
  | leaf w v =>
      cases h
      rw [slotOf]
      split
      · exact nofun
      · split <;> exact nofun

theorem Links.extends (h : Links s s' x z) (hsound : Sound s) (hx : ptr s x = 0)
    (hz : ∀ y, ptr s y ≠ z) : Extends s s' := by
  refine ⟨fun y hy => ?_, fun k hk => ?_, h.size⟩
  · rw [h.num, if_neg]
    rintro rfl
    exact hy hx
  · exact h.data _ (hz _) fun q w hup he => slotOf_ne_up hup k (hsound _ q hk he)

/-! ### `create_block` -/

/-- There is a block number in place `x`, which may have been `z`, that is new. -/
structure Gets (s : State) (r : State × Short) (x : Slot) (z : Short) : Prop where
  sound : Sound r.1
  extend : Extends s r.1
  num : ptr r.1 x = r.2
  others : ∀ y, ptr r.1 y = ptr s y ∨ ptr r.1 y = z

theorem Gets.kept (hsound : Sound s) (h : ptr s x = b) : Gets s (s, b) x z :=
  ⟨hsound, .refl s, h, fun _ => Or.inl rfl⟩

theorem Links.gets (h : Links s s' x z) (hsound : Sound s) (hx : ptr s x = 0)
    (hz : ∀ y, ptr s y ≠ z) : Gets s (s', z) x z := by
  refine ⟨h.sound hsound hz, h.extends hsound hx hz, (h.num x).trans (if_pos rfl), fun y => ?_⟩
  rw [h.num]
  split
  · exact Or.inr rfl
  · exact Or.inl rfl

theorem inodeZone_gets {i : Fin 9} {r : State × Short} (hsound : Sound s)
    (hz : z ≠ 0 → ∀ y, ptr s y ≠ z) (hr : inodeZone s i true z = .next r) (h0 : r.2 ≠ 0) :
    Gets s r (.zone i) z := by
  by_cases hx : s.dir.zone i = 0
  · rw [inodeZone, if_pos ⟨rfl, hx⟩, State.newBlock] at hr
    split at hr
    · next hzero =>
      cases hr
      exact absurd hzero h0
    · next hzero =>
      split at hr
      · cases hr
      · cases hr
        exact (links_zone hsound hx (hz hzero)).gets hsound hx (hz hzero)
  · rw [inodeZone_kept hx] at hr
    cases hr
    exact .kept hsound rfl

theorem indirect_ne_zero {w : Nat} {ok : Bool} {r : State × Short}
    (hr : indirect s b w true ok z = .next r) (h0 : r.2 ≠ 0) : b ≠ 0 := by
  rintro rfl
  rw [indirect, if_pos (Or.inl rfl)] at hr
  cases hr
  exact h0 rfl

theorem indirect_gets {r : State × Short} (hsound : Sound s) (hup : x.up = some (q, w))
    (hb : ptr s q = b) (hz : z ≠ 0 → ∀ y, ptr s y ≠ z)
    (hr : indirect s b w true true z = .next r) (h0 : r.2 ≠ 0) : Gets s r x z := by
  have hq : b ≠ 0 := indirect_ne_zero hr h0
  subst hb
  by_cases hx : ptr s x = 0
  · have hword : word (s.data (ptr s q)) w = 0 := by
      rw [ptr_up hup, indirectOf, if_neg (not_or.mpr ⟨hq, Bool.false_ne_true.symm⟩)] at hx
      exact hx
    rw [indirect, if_neg (not_or.mpr ⟨hq, Bool.false_ne_true.symm⟩)] at hr
    simp only [true_and] at hr
    rw [if_pos (show word ((s.hold (ptr s q)).data (ptr s q)) w = 0 from hword),
      State.newBlock] at hr
    split at hr
    · next hzero =>
      rw [Outcome.bind_next] at hr
      change (((s.setData _ _).hold _).brelse _ |>.bind _) = _ at hr
      rw [brelse_hold] at hr
      cases hr
      exact absurd hzero h0
    · next hzero =>
      split at hr
      · cases hr
      · rw [Outcome.bind_next] at hr
        change ((((s.setData z _).setData _ _).hold _).brelse _ |>.bind _) = _ at hr
        rw [brelse_hold] at hr
        cases hr
        exact (links_word hsound hup hq hx (hz hzero)).gets hsound hx (hz hzero)
  · rw [ptr_up hup] at hx
    rw [indirect_kept hx] at hr
    cases hr
    exact .kept hsound (ptr_up hup)

/-- What `new_block` gives for block `k` is not in use. -/
def Fresh (env : Env) (s : State) (k : Nat) : Prop :=
  ∀ l, env.alloc k l ≠ 0 → (∀ y, ptr s y ≠ env.alloc k l) ∧
    ∀ l', l' ≠ l → env.alloc k l' ≠ env.alloc k l

theorem Gets.fresh {r : State × Short} {l l' : Nat} (h : Gets s r x (env.alloc k l))
    (hfresh : Fresh env s k) (hne : l ≠ l') (hz : env.alloc k l' ≠ 0) (y : Slot) :
    ptr r.1 y ≠ env.alloc k l' := by
  obtain ⟨hnew, hother⟩ := hfresh l' hz
  rcases h.others y with hy | hy
  · rw [hy]
    exact hnew y
  · rw [hy]
    exact hother l hne

/-- `create_block` in a sound directory. -/
theorem bmap_gets {r : State × Short} (hsound : Sound s) (hread : ∀ k l, env.read k l = true)
    (hfresh : Fresh env s k) (hr : bmap env s k true = .next r) (h0 : r.2 ≠ 0) :
    Sound r.1 ∧ Extends s r.1 ∧ ptr r.1 (slotOf k) = r.2 := by
  have hnew : ∀ l, env.alloc k l ≠ 0 → ∀ y, ptr s y ≠ env.alloc k l := fun l hl => (hfresh l hl).1
  by_cases hbig : MAX_BLOCKS ≤ k
  · rw [bmap_big env s true hbig] at hr
    cases hr
  rw [bmap, if_neg hbig] at hr
  rw [slotOf]
  split at hr
  · next h7 =>
    rw [if_pos h7]
    have hval : (Fin.ofNat 9 k).val = k := Nat.mod_eq_of_lt (by omega)
    have hgets := inodeZone_gets (i := Fin.ofNat 9 k) hsound (hnew 0) (hval.symm ▸ hr) h0
    exact ⟨hgets.sound, hgets.extend, hgets.num⟩
  next h7 =>
  rw [if_neg h7]
  split at hr
  · next h512 =>
    rw [if_pos h512]
    obtain ⟨r₁, hr₁, hr⟩ := Outcome.bind_eq_next hr
    have hval : (Fin.ofNat 512 (k - 7)).val = k - 7 := Nat.mod_eq_of_lt h512
    rw [hread, ← hval] at hr
    have hget₁ := inodeZone_gets (i := 7) hsound (hnew 0) hr₁ (indirect_ne_zero hr h0)
    have hget := indirect_gets (x := .single (.ofNat 512 (k - 7))) hget₁.sound rfl hget₁.num
      (hget₁.fresh hfresh (by decide)) hr h0
    exact ⟨hget.sound, hget₁.extend.trans hget.extend, hget.num⟩
  · next h512 =>
    rw [if_neg h512]
    obtain ⟨r₁, hr₁, hr⟩ := Outcome.bind_eq_next hr
    obtain ⟨r₂, hr₂, hr⟩ := Outcome.bind_eq_next hr
    rw [MAX_BLOCKS] at hbig
    have hdiv : (Fin.ofNat 512 ((k - 7 - 512) / 512)).val = (k - 7 - 512) / 512 :=
      Nat.mod_eq_of_lt (by omega)
    have hmod : (Fin.ofNat 512 ((k - 7 - 512) % 512)).val = (k - 7 - 512) % 512 :=
      Nat.mod_mod _ _
    rw [hread, ← hdiv] at hr₂
    rw [hread, ← hmod] at hr
    have hr₂0 := indirect_ne_zero hr h0
    have hget₁ := inodeZone_gets (i := 8) hsound (hnew 0) hr₁ (indirect_ne_zero hr₂ hr₂0)
    have hget₂ := indirect_gets (x := .double (.ofNat 512 ((k - 7 - 512) / 512))) hget₁.sound rfl
      hget₁.num (hget₁.fresh hfresh (by decide)) hr₂ hr₂0
    have hfresh₂ : env.alloc k 2 ≠ 0 → ∀ y, ptr r₂.1 y ≠ env.alloc k 2 := fun hz y => by
      rcases hget₂.others y with hy | hy
      · rw [hy]
        exact hget₁.fresh hfresh (by decide) hz y
      · rw [hy]
        exact (hfresh 2 hz).2 1 (by decide)
    have hget := indirect_gets (x := .leaf (.ofNat 512 ((k - 7 - 512) / 512))
      (.ofNat 512 ((k - 7 - 512) % 512))) hget₂.sound rfl hget₂.num hfresh₂ hr h0
    exact ⟨hget.sound, (hget₁.extend.trans hget₂.extend).trans hget.extend, hget.num⟩

end LinuxKernel.V011.Fs.DirBlocks
