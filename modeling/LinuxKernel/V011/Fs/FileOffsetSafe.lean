import LinuxKernel.V011.Fs.FileOffset

/-!
# LinuxKernel.V011.Fs.FileOffsetSafe

**Which calls get to a panic of `_bmap`.**

`sys_lseek` keeps every position non-negative, and `sys_read` clips to `i_size`, so a read
is safe as long as the file is no longer than a file can be. `file_write` has no test: a
write that asks for a block past the last one panics, and no other call does.
-/

namespace LinuxKernel.V011.Fs.FileOffset

variable {s s' : State} {pos left i count size offset origin : Word} {blocks fd : Nat} {f : File}

/-- The bytes of the longest file. -/
def MAX_SIZE : Nat := MAX_BLOCKS * BLOCK_SIZE

/-! ### Numbers that are not negative -/

/-- Not negative as an `int`. -/
def NonNeg (w : Word) : Prop := w.toNat < 2 ^ 31

theorem toInt_eq {w : Word} (h : NonNeg w) : w.toInt = w.toNat := by
  rw [NonNeg] at h
  exact BitVec.toInt_eq_toNat_of_lt (by omega)

theorem not_slt_zero {w : Word} : w.slt 0 = false ↔ NonNeg w := by
  rw [NonNeg, ← Bool.not_eq_true, BitVec.slt_iff_toInt_lt, BitVec.toInt_eq_toNat_cond]
  have := w.isLt
  simp
  omega

theorem slt_iff {a b : Word} (ha : NonNeg a) (hb : NonNeg b) :
    a.slt b = true ↔ a.toNat < b.toNat := by
  rw [BitVec.slt_iff_toInt_lt, toInt_eq ha, toInt_eq hb]
  omega

theorem sle_iff {a b : Word} (ha : NonNeg a) (hb : NonNeg b) :
    a.sle b = true ↔ a.toNat ≤ b.toNat := by
  rw [BitVec.sle_iff_toInt_le, toInt_eq ha, toInt_eq hb]
  omega

theorem msb_eq {w : Word} (h : NonNeg w) : w.msb = false := by
  rw [BitVec.msb_eq_false_iff_two_mul_lt]
  rw [NonNeg] at h
  omega

theorem sdiv_blockSize (h : NonNeg pos) : (pos.sdiv blockSize).toNat = pos.toNat / BLOCK_SIZE := by
  have hb : blockSize.msb = false := by decide
  rw [BitVec.sdiv, msb_eq h, hb]
  exact BitVec.toNat_udiv

theorem srem_blockSize (h : NonNeg pos) : (pos.srem blockSize).toNat = pos.toNat % BLOCK_SIZE := by
  have hb : blockSize.msb = false := by decide
  rw [BitVec.srem, msb_eq h, hb]
  exact BitVec.toNat_umod

theorem bmapPanic_eq (h : NonNeg pos) : bmapPanic (pos.sdiv blockSize) =
    if pos.toNat / BLOCK_SIZE < MAX_BLOCKS then none else some "_bmap: block>big" := by
  have hdiv := sdiv_blockSize h
  have hnn : NonNeg (pos.sdiv blockSize) := by
    rw [NonNeg] at h ⊢
    rw [hdiv]
    exact Nat.lt_of_le_of_lt (Nat.div_le_self _ _) h
  have hmax : (BitVec.ofNat 32 MAX_BLOCKS : Word).toNat = MAX_BLOCKS := by decide
  have hle : (BitVec.ofNat 32 MAX_BLOCKS).sle (pos.sdiv blockSize) = true ↔
      MAX_BLOCKS ≤ pos.toNat / BLOCK_SIZE := by
    rw [sle_iff (by rw [NonNeg, hmax]; decide) hnn, hmax, hdiv]
  rw [bmapPanic, if_neg (by rw [not_slt_zero.mpr hnn]; exact Bool.false_ne_true)]
  by_cases hlt : pos.toNat / BLOCK_SIZE < MAX_BLOCKS
  · rw [if_pos hlt, if_neg fun hs => absurd (hle.mp hs) (Nat.not_le.mpr hlt)]
  · rw [if_neg hlt, if_pos (hle.mpr (Nat.not_lt.mp hlt))]

/-! ### The loops -/

theorem minWord_toNat {a b : Word} (ha : NonNeg a) (hb : NonNeg b) :
    (minWord a b).toNat = min a.toNat b.toNat := by
  rw [minWord]
  split
  · next h => exact (Nat.min_eq_left (Nat.le_of_lt ((slt_iff ha hb).mp h))).symm
  · next h => exact (Nat.min_eq_right (Nat.not_lt.mp fun hlt => h ((slt_iff ha hb).mpr hlt))).symm

/-- What is left of a block. -/
theorem rest_toNat (h : NonNeg pos) :
    (blockSize - pos.srem blockSize).toNat = BLOCK_SIZE - pos.toNat % BLOCK_SIZE := by
  have hrem := srem_blockSize h
  have hblock : blockSize.toNat = BLOCK_SIZE := by decide
  have hlt : pos.toNat % BLOCK_SIZE < BLOCK_SIZE := Nat.mod_lt _ (by decide)
  rw [BitVec.toNat_sub_of_le, hrem, hblock]
  rw [BitVec.le_def, hrem, hblock]
  exact Nat.le_of_lt hlt

theorem rest_nonNeg (h : NonNeg pos) : NonNeg (blockSize - pos.srem blockSize) := by
  rw [NonNeg, rest_toNat h]
  exact Nat.lt_of_le_of_lt (Nat.sub_le _ _) (by decide)

/-- A position inside the longest file has a block. -/
theorem bmapPanic_inside (hp : NonNeg pos) (hlt : pos.toNat < MAX_SIZE) :
    bmapPanic (pos.sdiv blockSize) = none := by
  rw [bmapPanic_eq hp, if_pos]
  exact (Nat.div_lt_iff_lt_mul (by decide)).mpr hlt

theorem of_bmapPanic_none (hp : NonNeg pos) (h : bmapPanic (pos.sdiv blockSize) = none) :
    pos.toNat / BLOCK_SIZE < MAX_BLOCKS := by
  rw [bmapPanic_eq hp] at h
  by_contra hbig
  rw [if_neg hbig] at h
  cases h

variable (blocks) in
/-- A read inside the longest file comes to its end. -/
theorem readLoop_spec (hsum : pos.toNat + left.toNat ≤ MAX_SIZE) :
    ∃ r, readLoop pos left blocks = .next r ∧ NonNeg r.1 := by
  have hmax : MAX_SIZE < 2 ^ 31 := by decide
  have hp : NonNeg pos := by rw [NonNeg]; omega
  fun_induction readLoop pos left blocks with
  | case1 pos => exact ⟨_, rfl, hp⟩
  | case2 blocks pos left hne msg hpanic =>
      have hpos : left.toNat ≠ 0 := fun h => hne (BitVec.eq_of_toNat_eq h)
      rw [bmapPanic_inside hp (by omega)] at hpanic
      cases hpanic
  | case3 pos left hne hpanic => exact ⟨_, rfl, hp⟩
  | case4 pos left hne hpanic blocks chars ih =>
      have hl : NonNeg left := by rw [NonNeg]; omega
      have hle : chars.toNat ≤ left.toNat :=
        minWord_toNat (rest_nonNeg hp) hl ▸ Nat.min_le_right _ _
      have hsum' : (pos + chars).toNat + (left - chars).toNat ≤ MAX_SIZE := by
        rw [BitVec.toNat_add, BitVec.toNat_sub_of_le (BitVec.le_def.mpr hle),
          Nat.mod_eq_of_lt (by omega)]
        omega
      exact ih hsum' (by rw [NonNeg]; omega)

/-- A write of `rem` bytes at `pos` that gets `blocks` blocks asks for block `b` of the
file. -/
def Asks (pos rem blocks b : Nat) : Prop :=
  0 < rem ∧ pos / BLOCK_SIZE ≤ b ∧ b ≤ pos / BLOCK_SIZE + blocks ∧ b * BLOCK_SIZE < pos + rem

/-- No block that the write asks for is past the last one. -/
def Fits (pos rem blocks : Nat) : Prop := ∀ b, Asks pos rem blocks b → b < MAX_BLOCKS

theorem asks_first {pos rem blocks : Nat} (h : 0 < rem) :
    Asks pos rem blocks (pos / BLOCK_SIZE) := by
  refine ⟨h, Nat.le_refl _, Nat.le_add_right _ _, ?_⟩
  unfold BLOCK_SIZE
  omega

/-- The blocks after the first one are those of the rest of the write. -/
theorem fits_succ {pos rem blocks : Nat} (hfirst : pos / BLOCK_SIZE < MAX_BLOCKS) :
    Fits pos rem (blocks + 1) ↔
      Fits (pos + min rem (BLOCK_SIZE - pos % BLOCK_SIZE))
        (rem - min rem (BLOCK_SIZE - pos % BLOCK_SIZE)) blocks := by
  unfold Fits Asks BLOCK_SIZE at *
  constructor
  · rintro h b ⟨hrem, hlow, hhigh, hb⟩
    exact h b ⟨by omega, by omega, by omega, by omega⟩
  · rintro h b ⟨hrem, hlow, hhigh, hb⟩
    by_cases hb0 : b = pos / 1024
    · exact hb0 ▸ hfirst
    · exact h b ⟨by omega, by omega, by omega, by omega⟩

variable (blocks) in
/-- A write comes to its end if it fits, and to the panic if it does not. -/
theorem writeLoop_spec (hp : NonNeg pos) (hc : NonNeg count) (hi : i.toNat ≤ count.toNat)
    (hsize : size.toNat ≤ MAX_SIZE) :
    (Fits pos.toNat (count.toNat - i.toNat) blocks → ∃ r, writeLoop pos i count size blocks =
      .next r ∧ NonNeg r.1 ∧ r.2.2.toNat ≤ MAX_SIZE) ∧
    (¬ Fits pos.toNat (count.toNat - i.toNat) blocks →
      writeLoop pos i count size blocks = .panic "_bmap: block>big") := by
  fun_induction writeLoop pos i count size blocks with
  | case1 blocks pos i size hlt msg hpanic =>
      have hrem : i.toNat < count.toNat := (slt_iff (Nat.lt_of_le_of_lt hi hc) hc).mp hlt
      rw [bmapPanic_eq hp] at hpanic
      split at hpanic
      case isTrue => cases hpanic
      next hbig =>
      cases hpanic
      exact ⟨fun hfits => absurd (hfits _ (asks_first (by omega))) hbig, fun _ => rfl⟩
  | case2 pos i size hlt hpanic =>
      have hfirst := of_bmapPanic_none hp hpanic
      refine ⟨fun _ => ⟨_, rfl, hp, hsize⟩, fun hno => absurd (fun b hb => ?_) hno⟩
      obtain ⟨-, hlow, hhigh, -⟩ := hb
      omega
  | case3 pos i size hlt hpanic blocks c pos' ih =>
      have hin : NonNeg i := Nat.lt_of_le_of_lt hi hc
      have hrem : i.toNat < count.toNat := (slt_iff hin hc).mp hlt
      have hfirst := of_bmapPanic_none hp hpanic
      have hleft : (count - i).toNat = count.toNat - i.toNat :=
        BitVec.toNat_sub_of_le (BitVec.le_def.mpr hi)
      have hcount : c.toNat = min (count.toNat - i.toNat) (BLOCK_SIZE - pos.toNat % BLOCK_SIZE) := by
        have hmin := minWord_toNat (a := count - i) (by rw [NonNeg] at hc ⊢; omega) (rest_nonNeg hp)
        rwa [hleft, rest_toNat hp] at hmin
      have hend : pos.toNat + c.toNat ≤ MAX_SIZE := by
        have hblock : pos.toNat / BLOCK_SIZE + 1 ≤ MAX_BLOCKS := hfirst
        unfold MAX_SIZE
        unfold BLOCK_SIZE at hcount hblock ⊢
        omega
      have hmax : MAX_SIZE < 2 ^ 31 := by decide
      have hpos' : pos'.toNat = pos.toNat + c.toNat := by
        rw [BitVec.toNat_add, Nat.mod_eq_of_lt (by omega)]
      have hi' : (i + c).toNat = i.toNat + c.toNat := by
        rw [NonNeg] at hc
        rw [BitVec.toNat_add, Nat.mod_eq_of_lt (by omega)]
      have hrec := ih (by rw [NonNeg, hpos']; omega) (by omega) (by split <;> omega)
      rw [hpos', hi', Nat.sub_add_eq, hcount, ← fits_succ hfirst] at hrec
      exact hrec
  | case4 blocks pos i size hge =>
      have hdone : count.toNat - i.toNat = 0 := by
        rw [slt_iff (Nat.lt_of_le_of_lt hi hc) hc] at hge
        omega
      rw [hdone]
      exact ⟨fun _ => ⟨_, rfl, hp, hsize⟩, fun hno => absurd (fun b hb => absurd hb.1 (Nat.lt_irrefl 0)) hno⟩

/-! ### Calls -/

/-- The file is no longer than a file can be, and no position is negative. -/
structure Sane (s : State) : Prop where
  size : s.size.toNat ≤ MAX_SIZE
  pos : ∀ fd f, s.filp fd = some f → NonNeg f.pos

theorem Sane.setPos (h : Sane s) (hp : NonNeg pos) : Sane (s.setPos fd f pos) := by
  refine ⟨h.size, fun fd' f' hf => ?_⟩
  change Function.update s.filp fd _ fd' = some f' at hf
  rw [Function.update_apply] at hf
  split at hf
  · cases hf
    exact hp
  · exact h.pos fd' f' hf

theorem Sane.sysOpen (h : Sane s) (err : Option Int) (trunc append : Bool) :
    Sane (sysOpen s err trunc append).1 := by
  rw [FileOffset.sysOpen]
  split
  · exact h
  · next fd _ =>
    cases err with
    | some err => exact h
    | none =>
        refine ⟨?_, fun fd' f' hf => ?_⟩
        · change (if trunc = true then (0 : Word) else s.size).toNat ≤ MAX_SIZE
          split
          · exact Nat.zero_le _
          · exact h.size
        · change Function.update s.filp fd _ fd' = some f' at hf
          rw [Function.update_apply] at hf
          split at hf
          · cases hf
            exact Nat.two_pow_pos 31
          · exact h.pos fd' f' hf

/-- `sys_lseek` refuses a negative position. -/
theorem Sane.sysLseek (h : Sane s) (fd : Nat) (offset origin : Word) :
    Sane (sysLseek s fd offset origin).1 := by
  have hset : ∀ f p, Sane (if p.slt 0 = true then (s, - EINVAL)
      else (s.setPos fd f p, p.toInt)).1 := fun f p => by
    split
    · exact h
    · next hp => exact h.setPos (not_slt_zero.mp (Bool.not_eq_true _ ▸ hp))
  rw [FileOffset.sysLseek]
  split
  · exact h
  · split
    · exact h
    · split
      · exact hset _ _
      · split
        · exact hset _ _
        · split
          · exact hset _ _
          · exact h

/-- What `sys_read` leaves of the count ends inside the file. -/
theorem clip_inside (hsize : size.toNat ≤ MAX_SIZE) (hp : NonNeg pos) (hc : NonNeg count)
    (hn : ¬ (if size.ult (count + pos) = true then size - pos else count).sle 0 = true) :
    pos.toNat + (if size.ult (count + pos) = true then size - pos else count).toNat ≤
      MAX_SIZE := by
  have hmax : MAX_SIZE < 2 ^ 31 := by decide
  rw [NonNeg] at hp hc
  have hsum : (count + pos).toNat = count.toNat + pos.toNat := by
    rw [BitVec.toNat_add, Nat.mod_eq_of_lt (by omega)]
  split at hn
  · next hclip =>
    have hle : pos.toNat ≤ size.toNat := by
      by_contra hgt
      refine hn ?_
      rw [BitVec.sle_iff_toInt_le, BitVec.toInt_eq_toNat_cond, BitVec.toNat_sub]
      split
      · omega
      · simp
        omega
    rw [if_pos hclip, BitVec.toNat_sub_of_le (BitVec.le_def.mpr hle)]
    omega
  · next hclip =>
    rw [if_neg hclip]
    rw [BitVec.ult_eq_decide, decide_eq_true_eq, hsum] at hclip
    omega

/-- `sys_read` clips the count to the file. -/
theorem Sane.sysRead (h : Sane s) (fd : Nat) (count : Word) (blocks : Nat) :
    ∃ r, sysRead s fd count blocks = .next r ∧ Sane r.1 := by
  rw [FileOffset.sysRead]
  cases hf : s.filp fd with
  | none => exact ⟨_, rfl, h⟩
  | some f =>
      have hpos := h.pos fd f hf
      simp only
      by_cases hargs : NR_OPEN ≤ fd ∨ count.slt 0 = true
      · exact ⟨_, if_pos hargs, h⟩
      rw [if_neg hargs]
      by_cases hzero : count = 0
      · exact ⟨_, if_pos hzero, h⟩
      rw [if_neg hzero]
      set n := if s.size.ult (count + f.pos) = true then s.size - f.pos else count with hn
      by_cases hclip : n.sle 0 = true
      · exact ⟨_, if_pos hclip, h⟩
      rw [if_neg hclip]
      have hcount : NonNeg count := not_slt_zero.mp
        (Bool.not_eq_true _ ▸ fun hs => hargs (Or.inr hs))
      obtain ⟨r, hr, hnn⟩ := readLoop_spec blocks (clip_inside h.size hpos hcount hclip)
      rw [fileRead, hr]
      exact ⟨_, rfl, h.setPos hnn⟩

/-- The bytes of a write end inside the longest file, or it runs out of blocks before. -/
def Ok (s : State) : Call → Prop
  | .write fd count blocks => fd < NR_OPEN → NonNeg count → ∀ f, s.filp fd = some f →
      Fits (if f.append then s.size else f.pos).toNat count.toNat blocks
  | _ => True

/-- A write that fits keeps the file sane, and one that does not panics. -/
theorem Sane.sysWrite (h : Sane s) (fd : Nat) (count : Word) (blocks : Nat) :
    (Ok s (.write fd count blocks) → ∃ r, sysWrite s fd count blocks = .next r ∧ Sane r.1) ∧
      (¬ Ok s (.write fd count blocks) →
        sysWrite s fd count blocks = .panic "_bmap: block>big") := by
  rw [FileOffset.sysWrite]
  cases hf : s.filp fd with
  | none =>
      refine ⟨fun _ => ⟨_, rfl, h⟩, fun hno => absurd (fun _ _ f hf' => ?_) hno⟩
      rw [hf] at hf'
      cases hf'
  | some f =>
      simp only
      by_cases hargs : NR_OPEN ≤ fd ∨ count.slt 0 = true
      · refine ⟨fun _ => ⟨_, if_pos hargs, h⟩, fun hno => absurd (fun hfd hnn => ?_) hno⟩
        rcases hargs with hge | hneg
        · exact absurd hfd (Nat.not_lt.mpr hge)
        · rw [not_slt_zero.mpr hnn] at hneg
          cases hneg
      rw [if_neg hargs]
      have hcount : NonNeg count := not_slt_zero.mp
        (Bool.not_eq_true _ ▸ fun hs => hargs (Or.inr hs))
      by_cases hzero : count = 0
      · refine ⟨fun _ => ⟨_, if_pos hzero, h⟩, fun hno => absurd (fun _ _ _ _ b hb => ?_) hno⟩
        rw [hzero] at hb
        exact absurd hb.1 (Nat.lt_irrefl 0)
      rw [if_neg hzero, fileWrite]
      have hstart : NonNeg (if f.append then s.size else f.pos) := by
        split
        · exact Nat.lt_of_le_of_lt h.size (by decide)
        · exact h.pos fd f hf
      have hok : Ok s (.write fd count blocks) ↔
          Fits (if f.append then s.size else f.pos).toNat (count.toNat - (0 : Word).toNat) blocks := by
        refine ⟨fun ho => ho (Nat.not_le.mp fun hge => hargs (Or.inl hge)) hcount f hf,
          fun hfits _ _ f' hf' => ?_⟩
        obtain rfl : f = f' := Option.some.inj (hf.symm.trans hf')
        exact hfits
      obtain ⟨hfit, hpanic⟩ := writeLoop_spec (i := 0) blocks hstart hcount
        (Nat.zero_le _) h.size
      rw [← hok] at hfit hpanic
      refine ⟨fun ho => ?_, fun hno => by rw [hpanic hno]; rfl⟩
      obtain ⟨r, hr, hnn, hsize⟩ := hfit ho
      have hs : Sane { s with size := r.2.2 } := ⟨hsize, h.pos⟩
      rw [hr]
      refine ⟨_, rfl, ?_⟩
      change Sane (if f.append = true then { s with size := r.2.2 } else _)
      split
      · exact hs
      · exact hs.setPos hnn

/-- **The step lemma.** -/
theorem Sane.step (h : Sane s) (a : Call) :
    (Ok s a → ∃ s', step s a = .next s' ∧ Sane s') ∧
      (¬ Ok s a → ∃ m, step s a = .panic m) := by
  cases a with
  | openFile err trunc append =>
      exact ⟨fun _ => ⟨_, rfl, h.sysOpen err trunc append⟩, fun hno => absurd True.intro hno⟩
  | lseek fd offset origin =>
      exact ⟨fun _ => ⟨_, rfl, h.sysLseek fd offset origin⟩, fun hno => absurd True.intro hno⟩
  | read fd count blocks =>
      obtain ⟨r, hr, hs⟩ := h.sysRead fd count blocks
      exact ⟨fun _ => ⟨r.1, by rw [FileOffset.step, call, hr]; rfl, hs⟩,
        fun hno => absurd True.intro hno⟩
  | write fd count blocks =>
      obtain ⟨hfit, hpanic⟩ := h.sysWrite fd count blocks
      refine ⟨fun hok => ?_, fun hno => ⟨_, by rw [FileOffset.step, call, hpanic hno]; rfl⟩⟩
      obtain ⟨r, hr, hs⟩ := hfit hok
      exact ⟨r.1, by rw [FileOffset.step, call, hr]; rfl, hs⟩

/-- **User offsets.** From a sane file, a sequence of calls comes to no panic exactly if
every write fits. -/
theorem offsets_safe_iff (h : Sane s) (as : List Call) :
    (∀ m, run step s as ≠ .panic m) ↔ RunOk step Ok s as :=
  RunOk.iff_no_panic (fun _ a ht => ht.step a) h

/-- A file on the hard disk that nobody has opened. -/
def newFile : State where
  dev := 0x301
  size := 0
  filp _ := none

/-- `lseek` to the last position there is, and one byte. -/
def farWrite : List Call :=
  [.openFile none false false, .lseek 0 0x7fffffff 0, .write 0 1 0]

theorem newFile_sane : Sane newFile := ⟨Nat.zero_le _, nofun⟩

theorem farWrite_panics : Sane newFile ∧ run step newFile farWrite = .panic "_bmap: block>big" :=
  ⟨newFile_sane, rfl⟩

theorem offsets_safe_iff_farWrite :
    (∀ m, run step newFile farWrite ≠ .panic m) ↔ RunOk step Ok newFile farWrite :=
  offsets_safe_iff newFile_sane farWrite

end LinuxKernel.V011.Fs.FileOffset
