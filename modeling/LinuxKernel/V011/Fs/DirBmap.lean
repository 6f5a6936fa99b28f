import LinuxKernel.V011.Fs.DirBlocks

/-!
# LinuxKernel.V011.Fs.DirBmap

**What `_bmap` does for a directory.** Without `create` it only reads, so block `k` is a
function of the state (`blockOf`). With `create` it finds the same blocks, and a block it
makes is empty (`Made`).
-/

namespace LinuxKernel.V011.Fs.DirBlocks

open Dir

variable {env : Env} {s s' : State} {name : List UInt8} {b : Short} {i j k m n de : Nat}

/-! ### Buffers -/

theorem brelse_hold (s : State) (b : Short) : (s.hold b).brelse b = .next s := by
  rw [State.brelse, State.hold, if_neg]
  · simp only [Function.update_self, Function.update_idem, Nat.add_sub_cancel,
      Function.update_eq_self]
  · simp only [Function.update_self]
    exact Nat.succ_ne_zero _

theorem hold_count_ne (s : State) (b : Short) : (s.hold b).count b ≠ 0 := by
  simp only [State.hold, Function.update_self]
  exact Nat.succ_ne_zero _

/-! ### `_bmap` -/

/-- Word `w` of an indirect block that can be read. -/
def indirectOf (s : State) (b : Short) (w : Nat) (ok : Bool) : Short :=
  if b = 0 ∨ ok = false then 0 else word (s.data b) w

/-- Block `k` of the directory, 0 if it has none. -/
def blockOf (env : Env) (s : State) (k : Nat) : Short :=
  if k < 7 then s.dir.zone k
  else if k - 7 < 512 then indirectOf s (s.dir.zone 7) (k - 7) (env.read k 0)
  else indirectOf s (indirectOf s (s.dir.zone 8) ((k - 7 - 512) / 512) (env.read k 0))
    ((k - 7 - 512) % 512) (env.read k 1)

theorem inodeZone_eq (s : State) (i : Nat) (z : Short) :
    inodeZone s i false z = .next (s, s.dir.zone i) := if_neg fun h => nomatch h.1

theorem indirect_eq (s : State) (b : Short) (w : Nat) (ok : Bool) (z : Short) :
    indirect s b w false ok z = .next (s, indirectOf s b w ok) := by
  rw [indirect, indirectOf]
  split
  · rfl
  · simp only [Bool.false_eq_true, false_and, if_false, brelse_hold, Outcome.bind_next]
    rfl

/-- Without `create`, `_bmap` leaves everything as it is. -/
theorem bmap_eq (hk : k < MAX_BLOCKS) : bmap env s k false = .next (s, blockOf env s k) := by
  rw [bmap, if_neg (Nat.not_le.mpr hk), blockOf]
  split
  · exact inodeZone_eq ..
  split
  · rw [inodeZone_eq, Outcome.bind_next, indirect_eq]
  · rw [inodeZone_eq, Outcome.bind_next, indirect_eq, Outcome.bind_next, indirect_eq]

theorem bmap_big (env : Env) (s : State) (create : Bool) (hk : MAX_BLOCKS ≤ k) :
    bmap env s k create = .panic "_bmap: block>big" := if_pos hk

/-- Block `k` is there and can be read. -/
structure Present (env : Env) (s : State) (k : Nat) : Prop where
  small : k < MAX_BLOCKS
  mapped : blockOf env s k ≠ 0
  read : env.read k 2 = true

/-- Entry `j` of the directory. -/
def entry (env : Env) (s : State) (j : Nat) : DirEntry :=
  entryAt (s.data (blockOf env s (j / DIR_ENTRIES_PER_BLOCK))) (j % DIR_ENTRIES_PER_BLOCK)

theorem entry_eq (hm : j / 64 = m) (hde : j % 64 = de) :
    entry env s j = entryAt (s.data (blockOf env s m)) de := by
  subst hm
  subst hde
  rfl

theorem matchEntry_unused {len : Nat} {d : DirEntry} (h : d.inode = 0) :
    matchEntry len name d = false := if_pos (Or.inl h)

/-! ### Words of a block -/

theorem append_halves (v : Short) : (v >>> 8).setWidth 8 ++ v.setWidth 8 = v := by
  refine BitVec.eq_of_getLsbD_eq fun i hi => ?_
  rw [BitVec.getLsbD_append, BitVec.getLsbD_setWidth, BitVec.getLsbD_setWidth,
    BitVec.getLsbD_ushiftRight]
  split
  · next h => simp [h]
  · next h =>
    have h8 : 8 + (i - 8) = i := by omega
    have hlt : i - 8 < 8 := by omega
    simp [h8, hlt]

theorem word_putWord (d : Block) (i : Nat) (v : Short) (j : Nat) :
    word (putWord d i v) j = if j = i then v else word d j := by
  rw [word, putWord]
  by_cases h : j = i
  · rw [if_pos h, h, Function.update_self, Function.update_of_ne (by omega), Function.update_self]
    exact append_halves v
  · rw [if_neg h, Function.update_of_ne (by omega), Function.update_of_ne (by omega),
      Function.update_of_ne (by omega), Function.update_of_ne (by omega), word]

theorem word_zero (i : Nat) : word (fun _ => 0) i = 0 := by
  change 0#8 ++ 0#8 = 0#16
  decide

/-! ### `create_block` -/

/-- A panic that is not about references. -/
def Fine (msg : String) : Prop := msg ≠ "NULL pointer" ∧ msg ≠ "Trying to free free buffer"

/-- A block that may have been made: no reference has come or gone, and a new block is
empty. -/
structure Made (s : State) (r : State × Short) : Prop where
  count : r.1.count = s.count
  size : r.1.dir.size = s.dir.size
  zero : r.2 ≠ 0 → r.1.data r.2 = fun _ => 0

theorem Made.indirectOf {r : State × Short} (h : Made s r) (w : Nat) (ok : Bool) :
    indirectOf r.1 r.2 w ok = 0 := by
  rw [DirBlocks.indirectOf]
  split
  · rfl
  · next hne => rw [h.zero fun h0 => hne (Or.inl h0), word_zero]

theorem Made.trans {r r' : State × Short} (h : Made s r) (h' : Made r.1 r') : Made s r' :=
  ⟨h'.count.trans h.count, h'.size.trans h.size, h'.zero⟩

theorem inodeZone_kept {z : Short} (h : s.dir.zone i ≠ 0) :
    inodeZone s i true z = .next (s, s.dir.zone i) := if_neg fun hc => h hc.2

theorem inodeZone_made {z : Short} (h : s.dir.zone i = 0) :
    (inodeZone s i true z).Ends Fine (Made s) := by
  rw [inodeZone, if_pos ⟨rfl, h⟩, State.newBlock]
  split
  · next hz => exact ⟨rfl, rfl, fun hne => absurd hz hne⟩
  split
  · exact ⟨by decide, by decide⟩
  · exact ⟨rfl, rfl, fun _ => Function.update_self ..⟩

theorem indirect_kept {w : Nat} {ok : Bool} {z : Short} (h : indirectOf s b w ok ≠ 0) :
    indirect s b w true ok z = .next (s, indirectOf s b w ok) := by
  rw [indirectOf] at h
  rw [indirect, indirectOf]
  split
  · rfl
  · next hb =>
    rw [if_neg hb] at h
    simp only [true_and]
    rw [if_neg (show ¬ word ((s.hold b).data b) w = 0 from h), brelse_hold]
    rfl

theorem indirect_made {w : Nat} {ok : Bool} {z : Short} (h : indirectOf s b w ok = 0) :
    (indirect s b w true ok z).Ends Fine (Made s) := by
  rw [indirectOf] at h
  rw [indirect]
  split
  · exact ⟨rfl, rfl, fun hne => absurd rfl hne⟩
  · next hb =>
    rw [if_neg hb] at h
    simp only [true_and]
    rw [if_pos (show word ((s.hold b).data b) w = 0 from h), State.newBlock]
    split
    · next hz =>
      rw [Outcome.bind_next]
      change (((s.setData b _).hold b).brelse b |>.bind _).Ends _ _
      rw [brelse_hold]
      exact ⟨rfl, rfl, fun hne => absurd hz hne⟩
    split
    · exact ⟨by decide, by decide⟩
    · next hz hcount =>
      have hzb : z ≠ b := fun he => hcount (he ▸ hold_count_ne s b)
      rw [Outcome.bind_next]
      change ((((s.setData z _).setData b _).hold b).brelse b |>.bind _).Ends _ _
      rw [brelse_hold]
      refine ⟨rfl, rfl, fun _ => ?_⟩
      change Function.update (Function.update s.data z _) b _ z = _
      rw [Function.update_of_ne hzb, Function.update_self]

theorem indirectOf_zero (s : State) (w : Nat) (ok : Bool) : indirectOf s 0 w ok = 0 :=
  if_pos (Or.inl rfl)

/-- A block that is there is found with `create` too. -/
theorem bmap_kept (hk : k < MAX_BLOCKS) (h : blockOf env s k ≠ 0) :
    bmap env s k true = .next (s, blockOf env s k) := by
  have hzone : ∀ {b w ok}, indirectOf s b w ok ≠ 0 → b ≠ 0 := fun hne h0 =>
    hne (by rw [h0, indirectOf_zero])
  rw [blockOf] at h ⊢
  rw [bmap, if_neg (Nat.not_le.mpr hk)]
  split
  · next h7 =>
    rw [if_pos h7] at h
    exact inodeZone_kept h
  next h7 =>
  rw [if_neg h7] at h
  split
  · next h512 =>
    rw [if_pos h512] at h
    rw [inodeZone_kept (hzone h), Outcome.bind_next, indirect_kept h]
  · next h512 =>
    rw [if_neg h512] at h
    rw [inodeZone_kept (hzone (hzone h)), Outcome.bind_next, indirect_kept (hzone h),
      Outcome.bind_next, indirect_kept h]

/-- The step after one that made a block. -/
theorem Made.next {o : Outcome (State × Short)} (h : o.Ends Fine (Made s)) (w : Nat) (ok : Bool)
    (z : Short) :
    (o.bind fun r => indirect r.1 r.2 w true ok z).Ends Fine (Made s) :=
  h.bind fun _ hr => (indirect_made (hr.indirectOf w ok)).mono fun _ hr' => hr.trans hr'

theorem newBlock_ne_disabled (s : State) (z : Short) : s.newBlock z ≠ .disabled := by
  rw [State.newBlock]
  split
  · exact nofun
  · split <;> exact nofun

theorem brelse_ne_disabled (s : State) (b : Short) : s.brelse b ≠ .disabled := by
  rw [State.brelse]
  split <;> exact nofun

theorem inodeZone_ne_disabled (s : State) (i : Nat) (create : Bool) (z : Short) :
    inodeZone s i create z ≠ .disabled := by
  rw [inodeZone]
  split
  · exact Outcome.bind_ne_disabled (newBlock_ne_disabled s z) fun _ => nofun
  · exact nofun

theorem indirect_ne_disabled (s : State) (b : Short) (w : Nat) (create ok : Bool) (z : Short) :
    indirect s b w create ok z ≠ .disabled := by
  rw [indirect]
  split
  · exact nofun
  · dsimp only
    split
    · exact Outcome.bind_ne_disabled (newBlock_ne_disabled _ z) fun s =>
        Outcome.bind_ne_disabled (brelse_ne_disabled _ b) fun _ => nofun
    · exact Outcome.bind_ne_disabled (brelse_ne_disabled _ b) fun _ => nofun

theorem bmap_ne_disabled (env : Env) (s : State) (k : Nat) (create : Bool) :
    bmap env s k create ≠ .disabled := by
  rw [bmap]
  split
  · exact nofun
  split
  · exact inodeZone_ne_disabled s k create _
  split
  · exact Outcome.bind_ne_disabled (inodeZone_ne_disabled s 7 create _) fun r =>
      indirect_ne_disabled r.1 r.2 _ create _ _
  · exact Outcome.bind_ne_disabled (inodeZone_ne_disabled s 8 create _) fun r =>
      Outcome.bind_ne_disabled (indirect_ne_disabled r.1 r.2 _ create _ _) fun r =>
        indirect_ne_disabled r.1 r.2 _ create _ _

variable (env) in
theorem bmap_made (h : blockOf env s k = 0) : (bmap env s k true).Ends Fine (Made s) := by
  rw [blockOf] at h
  rw [bmap]
  split
  · exact ⟨by decide, by decide⟩
  split
  · next h7 =>
    rw [if_pos h7] at h
    exact inodeZone_made h
  next h7 =>
  rw [if_neg h7] at h
  split
  · next h512 =>
    rw [if_pos h512] at h
    by_cases hzone : s.dir.zone 7 = 0
    · exact Made.next (inodeZone_made hzone) ..
    · rw [inodeZone_kept hzone, Outcome.bind_next]
      exact indirect_made h
  · next h512 =>
    rw [if_neg h512] at h
    by_cases hzone : s.dir.zone 8 = 0
    · exact (inodeZone_made hzone).bind fun _ hr => Made.next
        ((indirect_made (hr.indirectOf _ _)).mono fun _ hr' => hr.trans hr') ..
    · rw [inodeZone_kept hzone, Outcome.bind_next]
      by_cases hfirst : indirectOf s (s.dir.zone 8) ((k - 7 - 512) / 512) (env.read k 0) = 0
      · exact Made.next (indirect_made hfirst) ..
      · rw [indirect_kept hfirst, Outcome.bind_next]
        exact indirect_made h

end LinuxKernel.V011.Fs.DirBlocks
