import LinuxKernel.Lib.Index

/-!
# LinuxKernel.V098.Kernel.Ioport

**The io permission bitmap** of `kernel/ioport.c`: `sys_ioperm`.

- Memory is seen from the start of the bitmap on, in words of 32 bits. Bit `k` is bit `k % 32` of
  word `k / 32`; a bit that is 0 permits the port.
- All numbers are `unsigned long`, so the sums in the code are sums modulo `2 ^ 32`.
-/

namespace LinuxKernel.V098.Kernel.Ioport

abbrev Word := BitVec 32

abbrev Words := Nat → Word

def EPERM : Int := 1
def EINVAL : Int := 22

/-- In words. -/
def IO_BITMAP_SIZE : Nat := 32

/-- `sizeof(current->tss.io_bitmap)`. -/
def sizeofBitmap : Nat := 4 * IO_BITMAP_SIZE

/-- `*iop &= ~mask` or `*iop |= mask`. -/
def putMask (turnOn : Int) (mask : Word) (words : Words) (iop : Nat) : Words :=
  Function.update words iop
    (if turnOn ≠ 0 then words iop &&& ~~~mask else words iop ||| mask)

/-- `while (numl--) *iop++ = mask;`, with `iop` behind it. -/
def fill (mask : Word) : Nat → Words → Nat → Words × Nat
  | 0, words, iop => (words, iop)
  | numl + 1, words, iop => fill mask numl (Function.update words iop mask) (iop + 1)

/-- The whole words and the last one. Behind the loop `numl` is -1. -/
def putRest (turnOn : Int) (rindex numl : Word) (words : Words) (iop : Nat) : Words :=
  if numl ≠ 0 then
    let numl := if rindex ≠ 0 then numl - 1 else numl
    let s := fill (if turnOn ≠ 0 then 0 else BitVec.allOnes 32) numl.toNat words iop
    let numl : Word := -1
    if numl ≠ 0 ∧ rindex ≠ 0 then
      putMask turnOn (~~~(BitVec.allOnes 32 <<< rindex.toNat)) s.1 s.2
    else s.1
  else words

/-- What it returns, and the memory behind it. -/
def sysIoperm (suser : Bool) (words : Words) («from» num : Word) (turnOn : Int) : Int × Words :=
  let froml := «from» >>> 5
  let lindex := «from» &&& 0x1f
  let tnum := lindex + num
  let numl := (tnum + 0x1f) >>> 5
  let rindex := tnum &&& 0x1f
  if ¬ suser then (-EPERM, words)
  else if froml * 32 + tnum > BitVec.ofNat 32 (sizeofBitmap * 8 - 8) then (-EINVAL, words)
  else if numl ≠ 0 then
    let iop := froml.toNat
    if lindex ≠ 0 then
      let mask := BitVec.allOnes 32 <<< lindex.toNat
      let numl := numl - 1
      let mask :=
        if numl = 0 ∧ rindex ≠ 0 then mask &&& ~~~(BitVec.allOnes 32 <<< rindex.toNat) else mask
      (0, putRest turnOn rindex numl (putMask turnOn mask words iop) (iop + 1))
    else (0, putRest turnOn rindex numl words iop)
  else (0, words)

/-! ### What the call is for -/

def bit (words : Words) (k : Nat) : Bool := (words (k / 32)).getLsbD (k % 32)

/-- The named ports, and no others, get the value. -/
def Changes (lo n : Nat) (v : Bool) (words words' : Words) : Prop :=
  ∀ k, bit words' k = if lo ≤ k ∧ k < lo + n then v else bit words k

/-- The call fails and changes nothing, or the ports lie in the bitmap and exactly their bits
have the value. -/
def Exact (words : Words) («from» num : Word) (turnOn : Int) : Prop :=
  let r := sysIoperm true words «from» num turnOn
  (r.1 = -EINVAL ∧ r.2 = words) ∨
    («from».toNat + num.toNat ≤ sizeofBitmap * 8 ∧
      Changes «from».toNat num.toNat (decide (turnOn = 0)) words r.2)

/-! ### Masks -/

variable {words : Words} {turnOn : Int} {mask : Word} {k w iop numl lo n : Nat}

theorem bit_putMask (iop k : Nat) : bit (putMask turnOn mask words iop) k =
    if k / 32 = iop ∧ mask.getLsbD (k % 32) = true then decide (turnOn = 0) else bit words k := by
  have hk : k % 32 < 32 := Nat.mod_lt k (by decide)
  unfold bit putMask
  by_cases hw : k / 32 = iop
  · rw [hw, Function.update_self]
    by_cases hon : turnOn = 0
    · cases hm : mask.getLsbD (k % 32) <;> simp [hon, hm]
    · rw [if_pos hon, decide_eq_false hon, BitVec.getLsbD_and, BitVec.getLsbD_not,
        decide_eq_true hk]
      cases hm : mask.getLsbD (k % 32) <;> simp
  · rw [Function.update_of_ne hw, if_neg fun h => hw h.1]

theorem getLsbD_high (l i : Nat) (hi : i < 32) :
    (BitVec.allOnes 32 <<< l).getLsbD i = decide (l ≤ i) := by
  rw [BitVec.getLsbD_shiftLeft, BitVec.getLsbD_allOnes]
  by_cases h : l ≤ i
  · simp [h, hi, Nat.not_lt.mpr h, Nat.lt_of_le_of_lt (Nat.sub_le i l) hi]
  · simp [h, Nat.not_le.mp h]

theorem getLsbD_low (r i : Nat) (hi : i < 32) :
    (~~~(BitVec.allOnes 32 <<< r)).getLsbD i = decide (i < r) := by
  rw [BitVec.getLsbD_not, getLsbD_high r i hi]
  by_cases h : r ≤ i
  · simp [h, Nat.not_lt.mpr h]
  · simp [h, hi, Nat.not_le.mp h]

theorem fill_iop (mask : Word) (numl : Nat) (words : Words) (iop : Nat) :
    (fill mask numl words iop).2 = iop + numl := by
  induction numl generalizing words iop with
  | zero => rfl
  | succ numl ih =>
      rw [fill, ih]
      omega

theorem fill_word (mask : Word) (numl : Nat) (words : Words) (iop w : Nat) :
    (fill mask numl words iop).1 w = if iop ≤ w ∧ w < iop + numl then mask else words w := by
  induction numl generalizing words iop with
  | zero =>
      rw [if_neg (by omega)]
      rfl
  | succ numl ih =>
      rw [fill, ih]
      by_cases hw : w = iop
      · rw [hw, if_neg (by omega), Function.update_self, if_pos (by omega)]
      · rw [Function.update_of_ne hw]
        exact if_congr (by omega) rfl rfl

/-! ### The three parts -/

theorem Changes.none (words : Words) (lo : Nat) (v : Bool) : Changes lo 0 v words words :=
  fun _ => (if_neg (by omega)).symm

/-- Two pieces that lie side by side. -/
theorem Changes.append {words' words'' : Words} {v : Bool} {m : Nat}
    (h : Changes lo n v words words') (h' : Changes (lo + n) m v words' words'') :
    Changes lo (n + m) v words words'' := by
  intro k
  rw [h' k, h k]
  split_ifs <;> first | rfl | omega

theorem changes_fill (turnOn : Int) (numl : Nat) (words : Words) (iop : Nat) :
    Changes (32 * iop) (32 * numl) (decide (turnOn = 0)) words
      (fill (if turnOn ≠ 0 then 0 else BitVec.allOnes 32) numl words iop).1 := by
  intro k
  have hk : k % 32 < 32 := Nat.mod_lt k (by decide)
  unfold bit
  rw [fill_word]
  by_cases h : iop ≤ k / 32 ∧ k / 32 < iop + numl
  · have hin : 32 * iop ≤ k ∧ k < 32 * iop + 32 * numl := by omega
    rw [if_pos h, if_pos hin]
    by_cases hon : turnOn = 0
    · rw [if_neg (not_not.mpr hon), BitVec.getLsbD_allOnes, decide_eq_true hk, decide_eq_true hon]
    · rw [if_pos hon, decide_eq_false hon]
      exact BitVec.getLsbD_zero
  · rw [if_neg h, if_neg (by omega)]

/-- The low bits of a word. -/
theorem changes_low (turnOn : Int) (r : Nat) (hr : r < 32) (words : Words) (iop : Nat) :
    Changes (32 * iop) r (decide (turnOn = 0)) words
      (putMask turnOn (~~~(BitVec.allOnes 32 <<< r)) words iop) := by
  intro k
  have hk : k % 32 < 32 := Nat.mod_lt k (by decide)
  rw [bit_putMask, getLsbD_low r _ hk]
  exact if_congr (by rw [decide_eq_true_iff]; omega) rfl rfl

theorem putRest_of_eq (turnOn : Int) {numl : Word} (rindex : Word) (words : Words) (iop : Nat)
    (h : numl = 0) : putRest turnOn rindex numl words iop = words :=
  if_neg (not_not.mpr h)

/-- The whole words and the low bits of the last one, for `n` bits in all. -/
theorem changes_putRest (turnOn : Int) (rindex numl : Word) (words : Words) (iop : Nat)
    (hr : rindex.toNat = n % 32) (hn : numl.toNat = (n + 31) / 32) :
    Changes (32 * iop) n (decide (turnOn = 0)) words (putRest turnOn rindex numl words iop) := by
  have hzero : ∀ x : Word, x = 0 ↔ x.toNat = 0 := fun x => BitVec.toNat_inj.symm
  by_cases h0 : numl = 0
  · have hnum := (hzero numl).mp h0
    rw [putRest_of_eq _ _ _ _ h0, show n = 0 by omega]
    exact Changes.none words _ _
  · rw [putRest, if_pos h0]
    dsimp only
    have hpos : numl.toNat ≠ 0 := fun h => h0 ((hzero numl).mpr h)
    by_cases hr0 : rindex = 0
    · have hr0' := (hzero rindex).mp hr0
      rw [if_neg fun h => h.2 hr0, if_neg (not_not.mpr hr0)]
      have hfill := changes_fill turnOn numl.toNat words iop
      rwa [show 32 * numl.toNat = n by omega] at hfill
    · have hr0' : rindex.toNat ≠ 0 := fun h => hr0 ((hzero rindex).mpr h)
      have hone : (numl - 1).toNat = n / 32 := by
        have h1 : (1 : Word).toNat = 1 := rfl
        rw [BitVec.toNat_sub_of_le (BitVec.le_def.mpr (by omega)), h1]
        omega
      rw [if_pos ⟨by decide, hr0⟩, if_pos hr0, fill_iop, hone]
      have hfill := changes_fill turnOn (n / 32) words iop
      have hlow := changes_low turnOn rindex.toNat (by omega)
        (fill (if turnOn ≠ 0 then 0 else BitVec.allOnes 32) (n / 32) words iop).1 (iop + n / 32)
      rw [Nat.mul_add] at hlow
      have hall := hfill.append hlow
      rwa [show 32 * (n / 32) + rindex.toNat = n by omega] at hall

/-- The bits from `l` on in a word, up to `m` of them. -/
theorem changes_high (turnOn : Int) (l m : Nat) (words : Words) (iop : Nat)
    (hm : ∀ i < 32, mask.getLsbD i = decide (l ≤ i ∧ i < l + m)) (hlm : l + m ≤ 32) :
    Changes (32 * iop + l) m (decide (turnOn = 0)) words (putMask turnOn mask words iop) := by
  intro k
  have hk : k % 32 < 32 := Nat.mod_lt k (by decide)
  rw [bit_putMask, hm _ hk]
  exact if_congr (by rw [decide_eq_true_iff]; omega) rfl rfl

/-- The first word when the bits do not start at a word. -/
theorem changes_first (turnOn : Int) (lindex rindex numl : Word) (words : Words) (iop : Nat)
    (hl : lindex.toNat < 32) (hl0 : lindex.toNat ≠ 0) (hr : rindex.toNat = (lindex.toNat + n) % 32)
    (hn : numl.toNat = (lindex.toNat + n + 31) / 32 - 1) :
    Changes (32 * iop + lindex.toNat) (min n (32 - lindex.toNat)) (decide (turnOn = 0)) words
      (putMask turnOn
        (if numl = 0 ∧ rindex ≠ 0 then BitVec.allOnes 32 <<< lindex.toNat &&&
            ~~~(BitVec.allOnes 32 <<< rindex.toNat)
          else BitVec.allOnes 32 <<< lindex.toNat) words iop) := by
  have hzero : ∀ x : Word, x = 0 ↔ x.toNat = 0 := fun x => BitVec.toNat_inj.symm
  refine changes_high turnOn _ _ words iop (fun i hi => ?_) (by omega)
  by_cases h : numl = 0 ∧ rindex ≠ 0
  · have h0 := (hzero numl).mp h.1
    have h1 : rindex.toNat ≠ 0 := fun hr0 => h.2 ((hzero rindex).mpr hr0)
    rw [if_pos h, BitVec.getLsbD_and, getLsbD_high _ i hi, getLsbD_low _ i hi, ← Bool.decide_and]
    exact decide_eq_decide.mpr (by omega)
  · rw [if_neg h, getLsbD_high _ i hi]
    have hlong : n ≥ 32 - lindex.toNat := by
      by_contra hshort
      refine h ⟨(hzero numl).mpr (by omega), fun hr0 => ?_⟩
      have := (hzero rindex).mp hr0
      omega
    exact decide_eq_decide.mpr (by omega)

/-! ### The whole call -/

theorem toNat_low (x : Word) : (x &&& 0x1f).toNat = x.toNat % 32 := by
  rw [BitVec.toNat_and]
  exact Nat.and_two_pow_sub_one_eq_mod x.toNat 5

theorem toNat_shift (x : Word) : (x >>> 5).toNat = x.toNat / 32 := by
  rw [BitVec.toNat_ushiftRight, Nat.shiftRight_eq_div_pow]

/-- The test adds up to the sum of the two numbers, modulo `2 ^ 32`. -/
theorem check_eq («from» num : Word) :
    («from» >>> 5) * 32 + ((«from» &&& 0x1f) + num) = «from» + num := by
  have h32 : (32 : Word).toNat = 32 := rfl
  refine BitVec.eq_of_toNat_eq ?_
  rw [BitVec.toNat_add, BitVec.toNat_mul, BitVec.toNat_add, toNat_low, toNat_shift, h32,
    BitVec.toNat_add]
  omega

/-- What the call comes to for the superuser. -/
theorem sysIoperm_einval (words : Words) («from» num : Word) (turnOn : Int)
    (h : 1016 < («from».toNat + num.toNat) % 2 ^ 32) :
    sysIoperm true words «from» num turnOn = (-EINVAL, words) := by
  have h1016 : (BitVec.ofNat 32 (sizeofBitmap * 8 - 8)).toNat = 1016 := rfl
  unfold sysIoperm
  dsimp only
  rw [if_neg (by decide), if_pos]
  rw [gt_iff_lt, BitVec.lt_def, check_eq, BitVec.toNat_add, h1016]
  exact h

theorem sysIoperm_ok (words : Words) («from» num : Word) (turnOn : Int)
    (h : («from».toNat + num.toNat) % 2 ^ 32 ≤ 1016) :
    (sysIoperm true words «from» num turnOn).1 = 0 := by
  have h1016 : (BitVec.ofNat 32 (sizeofBitmap * 8 - 8)).toNat = 1016 := rfl
  unfold sysIoperm
  dsimp only
  rw [if_neg (by decide), if_neg]
  · split_ifs <;> rfl
  · rw [gt_iff_lt, BitVec.lt_def, check_eq, BitVec.toNat_add, h1016]
    omega

theorem changes_sysIoperm (words : Words) («from» num : Word) (turnOn : Int)
    (h : «from».toNat + num.toNat ≤ 1016) :
    Changes «from».toNat num.toNat (decide (turnOn = 0)) words
      (sysIoperm true words «from» num turnOn).2 := by
  have hzero : ∀ x : Word, x = 0 ↔ x.toNat = 0 := fun x => BitVec.toNat_inj.symm
  have h1016 : (BitVec.ofNat 32 (sizeofBitmap * 8 - 8)).toNat = 1016 := rfl
  have h31 : (0x1f : Word).toNat = 31 := rfl
  have hl : («from» &&& 0x1f).toNat = «from».toNat % 32 := toNat_low «from»
  have ht : ((«from» &&& 0x1f) + num).toNat = «from».toNat % 32 + num.toNat := by
    rw [BitVec.toNat_add, hl]
    omega
  have hn : (((«from» &&& 0x1f) + num + 0x1f) >>> 5).toNat =
      («from».toNat % 32 + num.toNat + 31) / 32 := by
    rw [toNat_shift, BitVec.toNat_add, ht, h31]
    omega
  have hr : (((«from» &&& 0x1f) + num) &&& 0x1f).toNat = («from».toNat % 32 + num.toNat) % 32 := by
    rw [toNat_low, ht]
  have hiop : («from» >>> 5).toNat = «from».toNat / 32 := toNat_shift «from»
  unfold sysIoperm
  dsimp only
  rw [if_neg (by decide), if_neg]
  swap
  · rw [gt_iff_lt, BitVec.lt_def, check_eq, BitVec.toNat_add, h1016]
    omega
  generalize hlx : «from» &&& 0x1f = lindex at *
  generalize hrx : (lindex + num) &&& 0x1f = rindex at *
  generalize hnx : (lindex + num + 0x1f) >>> 5 = numl at *
  rw [hiop]
  by_cases hnuml : numl = 0
  · have h0 := (hzero numl).mp hnuml
    rw [if_neg (not_not.mpr hnuml), show num.toNat = 0 by omega]
    exact Changes.none words _ _
  · have hpos : numl.toNat ≠ 0 := fun h0 => hnuml ((hzero numl).mpr h0)
    rw [if_pos hnuml]
    by_cases hlindex : lindex = 0
    · have h0 := (hzero lindex).mp hlindex
      rw [if_neg (not_not.mpr hlindex)]
      have hrest := changes_putRest turnOn rindex numl words («from».toNat / 32) (n := num.toNat)
        (by omega) (by omega)
      rwa [show 32 * («from».toNat / 32) = «from».toNat by omega] at hrest
    · have hl0 : lindex.toNat ≠ 0 := fun h0 => hlindex ((hzero lindex).mpr h0)
      have hone : (numl - 1).toNat = numl.toNat - 1 := by
        have h1 : (1 : Word).toNat = 1 := rfl
        rw [BitVec.toNat_sub_of_le (BitVec.le_def.mpr (by omega)), h1]
      rw [if_pos hlindex]
      have hfirst := changes_first turnOn lindex rindex (numl - 1) words («from».toNat / 32)
        (n := num.toNat) (by omega) hl0 (by omega) (by omega)
      have hstart : 32 * («from».toNat / 32) + lindex.toNat = «from».toNat := by omega
      by_cases hshort : lindex.toNat + num.toNat ≤ 32
      · have hnone : numl - 1 = 0 := (hzero _).mpr (by omega)
        rw [Nat.min_eq_left (by omega), hstart] at hfirst
        dsimp only
        rwa [putRest_of_eq _ _ _ _ hnone]
      · have hrest := changes_putRest turnOn rindex (numl - 1)
          (putMask turnOn (if numl - 1 = 0 ∧ rindex ≠ 0 then BitVec.allOnes 32 <<< lindex.toNat &&&
              ~~~(BitVec.allOnes 32 <<< rindex.toNat)
            else BitVec.allOnes 32 <<< lindex.toNat) words («from».toNat / 32))
          («from».toNat / 32 + 1) (n := num.toNat - (32 - lindex.toNat)) (by omega) (by omega)
        rw [Nat.min_eq_right (by omega), hstart] at hfirst
        have hnext : 32 * («from».toNat / 32 + 1) = «from».toNat + (32 - lindex.toNat) := by omega
        rw [hnext] at hrest
        have hall := hfirst.append hrest
        have hwhole : 32 - lindex.toNat + (num.toNat - (32 - lindex.toNat)) = num.toNat := by omega
        rwa [hwhole] at hall

/-- **ioperm is exact** if and only if the sum of its numbers does not wrap into the bitmap. -/
theorem sysIoperm_exact_iff (words : Words) («from» num : Word) (turnOn : Int) :
    Exact words «from» num turnOn ↔
      «from».toNat + num.toNat < 2 ^ 32 ∨ 1016 < («from».toNat + num.toNat) % 2 ^ 32 := by
  constructor
  · intro h
    by_contra hno
    obtain ⟨hwrap, hlow⟩ := not_or.mp hno
    cases h with
    | inl herr =>
        rw [sysIoperm_ok words «from» num turnOn (by omega)] at herr
        exact absurd herr.1 (by decide)
    | inr hin =>
        have hcap : sizeofBitmap * 8 = 1024 := rfl
        omega
  · intro h
    by_cases hlow : («from».toNat + num.toNat) % 2 ^ 32 ≤ 1016
    · have hsum : «from».toNat + num.toNat ≤ 1016 := by omega
      have hcap : sizeofBitmap * 8 = 1024 := rfl
      exact .inr ⟨by omega, changes_sysIoperm words «from» num turnOn hsum⟩
    · left
      rw [sysIoperm_einval words «from» num turnOn (by omega)]
      exact ⟨rfl, rfl⟩

/-- A call with a sum of `2 ^ 32` succeeds. -/
theorem not_sysIoperm_exact :
    ¬ ∀ (words : Words) («from» num : Word) (turnOn : Int), Exact words «from» num turnOn := by
  intro h
  have hcap : sizeofBitmap * 8 = 1024 := rfl
  have h1 : (1 : Word).toNat = 1 := rfl
  have hf : (0xffffffff : Word).toNat = 4294967295 := rfl
  have hok := sysIoperm_ok (fun _ => 0) 1 0xffffffff 1 (by rw [h1, hf]; decide)
  cases h (fun _ => 0) 1 0xffffffff 1 with
  | inl herr =>
      rw [hok] at herr
      exact absurd herr.1 (by decide)
  | inr hin =>
      rw [h1, hf] at hin
      omega

end LinuxKernel.V098.Kernel.Ioport
