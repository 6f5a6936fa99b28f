import Mathlib.Tactic.NormNum

/-!
# LinuxKernel.V011.Mm.Entry

Page-directory and page-table **entries** of the 386: a page address in the
upper 20 bits and flag bits below. `mm/memory.c` tests and sets them with
literal masks; the masks keep their source spelling here, and the lemmas below
are all the later modules use of them.

Words are `BitVec 32`, page addresses are natural numbers.
-/

namespace LinuxKernel.V011.Mm

/-- A 32-bit word of physical memory. -/
abbrev Word := BitVec 32

/-- `1 & entry`. -/
def present (e : Word) : Bool := 1#32 &&& e != 0#32

/-- `2 & entry`: the page may be written in user mode. -/
def writable (e : Word) : Bool := 2#32 &&& e != 0#32

/-- `0x40 & entry`: the page has been written. -/
def dirty (e : Word) : Bool := 0x40#32 &&& e != 0#32

/-- `0xfffff000 & entry`, the address of the page. -/
def pageAddr (e : Word) : Nat := (0xfffff000#32 &&& e).toNat

/-- `page | 7`: present, writable, user. -/
def userEntry (page : Nat) : Word := BitVec.ofNat 32 page ||| 7#32

/-- `entry & ~2`. -/
def writeProtect (e : Word) : Word := e &&& ~~~2#32

/-- `entry | 2`. -/
def allowWrite (e : Word) : Word := e ||| 2#32

/-- The processor sets the accessed and the dirty bit when a store completes. -/
def markDirty (e : Word) : Word := e ||| 0x60#32

/-! ### The upper 20 bits -/

/-- Masking with `0xfffff000` rounds down to a page address. -/
theorem pageAddr_eq (e : Word) : pageAddr e = e.toNat / 4096 * 4096 := by
  have he := e.isLt
  have hmask : (0xfffff000#32).toNat = (2 ^ 20 - 1) <<< 12 := by decide
  unfold pageAddr
  rw [BitVec.toNat_and, hmask, show 4096 = 2 ^ 12 from rfl]
  apply Nat.eq_of_testBit_eq
  intro i
  rw [Nat.testBit_and, Nat.testBit_shiftLeft, Nat.testBit_two_pow_sub_one,
    Nat.testBit_mul_two_pow, Nat.testBit_div_two_pow]
  by_cases hi : 12 ≤ i
  · rw [show i - 12 + 12 = i by omega]
    by_cases hi32 : i < 32
    · simp [hi, show i - 12 < 20 by omega]
    · have : e.toNat.testBit i = false :=
        Nat.testBit_lt_two_pow (lt_of_lt_of_le he (Nat.pow_le_pow_right (by norm_num) (by omega)))
      simp [this]
  · simp [hi]

theorem pageAddr_mod (e : Word) : pageAddr e % 4096 = 0 := by
  rw [pageAddr_eq]; omega

theorem pageAddr_le (e : Word) : pageAddr e ≤ e.toNat := by
  rw [pageAddr_eq]; omega

theorem toNat_lt_pageAddr (e : Word) : e.toNat < pageAddr e + 4096 := by
  rw [pageAddr_eq]; omega

theorem pageAddr_lt (e : Word) : pageAddr e < 2 ^ 32 := lt_of_le_of_lt (pageAddr_le e) e.isLt

/-- Or-ing flags below `0x1000` to a word keeps its page address. -/
theorem pageAddr_or {e flags : Word} (h : 0xfffff000#32 &&& flags = 0#32) :
    pageAddr (e ||| flags) = pageAddr e := by
  unfold pageAddr
  rw [BitVec.and_or_distrib_left, h, BitVec.or_zero]

theorem pageAddr_userEntry {page : Nat} (hmod : page % 4096 = 0) (hlt : page < 2 ^ 32) :
    pageAddr (userEntry page) = page := by
  unfold userEntry
  rw [pageAddr_or (by decide), pageAddr_eq, BitVec.toNat_ofNat, Nat.mod_eq_of_lt hlt]
  omega

@[simp] theorem pageAddr_allowWrite (e : Word) : pageAddr (allowWrite e) = pageAddr e :=
  pageAddr_or (by decide)

@[simp] theorem pageAddr_markDirty (e : Word) : pageAddr (markDirty e) = pageAddr e :=
  pageAddr_or (by decide)

@[simp] theorem pageAddr_writeProtect (e : Word) : pageAddr (writeProtect e) = pageAddr e := by
  unfold pageAddr writeProtect
  rw [BitVec.and_comm e, ← BitVec.and_assoc,
    show 0xfffff000#32 &&& ~~~2#32 = 0xfffff000#32 by decide]

/-! ### The flag bits -/

@[simp] theorem present_userEntry (page : Nat) : present (userEntry page) = true := by
  unfold present userEntry
  rw [BitVec.and_or_distrib_left, show 1#32 &&& 7#32 = 1#32 by decide, bne_iff_ne]
  intro h
  have := congrArg (·.getLsbD 0) h
  simp at this

@[simp] theorem writable_userEntry (page : Nat) : writable (userEntry page) = true := by
  unfold writable userEntry
  rw [BitVec.and_or_distrib_left, show 2#32 &&& 7#32 = 2#32 by decide, bne_iff_ne]
  intro h
  have := congrArg (·.getLsbD 1) h
  simp at this

/-- A page address has no flag bits. -/
theorem and_ofNat_eq_zero {m : Word} {page : Nat} (hmod : page % 4096 = 0) (hlt : page < 2 ^ 32)
    (hm : m.toNat < 4096) : m &&& BitVec.ofNat 32 page = 0#32 := by
  apply BitVec.eq_of_toNat_eq
  rw [BitVec.toNat_and, BitVec.toNat_ofNat, Nat.mod_eq_of_lt hlt]
  apply Nat.eq_of_testBit_eq
  intro i
  obtain ⟨k, rfl⟩ := Nat.dvd_of_mod_eq_zero hmod
  rw [Nat.testBit_and, show 4096 * k = k * 2 ^ 12 by omega, Nat.testBit_mul_two_pow]
  by_cases hi : 12 ≤ i
  · have h12 : 2 ^ 12 ≤ 2 ^ i := Nat.pow_le_pow_right (by norm_num) hi
    have : m.toNat.testBit i = false := Nat.testBit_lt_two_pow (lt_of_lt_of_le hm h12)
    simp [this]
  · simp [hi]

/-- A page freshly entered in a table is clean. -/
theorem dirty_userEntry {page : Nat} (hmod : page % 4096 = 0) (hlt : page < 2 ^ 32) :
    dirty (userEntry page) = false := by
  unfold dirty userEntry
  rw [BitVec.and_or_distrib_left, and_ofNat_eq_zero hmod hlt (by decide)]
  decide

@[simp] theorem present_writeProtect (e : Word) : present (writeProtect e) = present e := by
  unfold present writeProtect
  rw [BitVec.and_comm e, ← BitVec.and_assoc, show 1#32 &&& ~~~2#32 = 1#32 by decide]

@[simp] theorem dirty_writeProtect (e : Word) : dirty (writeProtect e) = dirty e := by
  unfold dirty writeProtect
  rw [BitVec.and_comm e, ← BitVec.and_assoc, show 0x40#32 &&& ~~~2#32 = 0x40#32 by decide]

@[simp] theorem writable_writeProtect (e : Word) : writable (writeProtect e) = false := by
  unfold writable writeProtect
  rw [BitVec.and_comm e, ← BitVec.and_assoc, show 2#32 &&& ~~~2#32 = 0#32 by decide,
    BitVec.zero_and]
  decide

@[simp] theorem present_allowWrite (e : Word) : present (allowWrite e) = present e := by
  unfold present allowWrite
  rw [BitVec.and_or_distrib_left, show 1#32 &&& 2#32 = 0#32 by decide, BitVec.or_zero]

@[simp] theorem dirty_allowWrite (e : Word) : dirty (allowWrite e) = dirty e := by
  unfold dirty allowWrite
  rw [BitVec.and_or_distrib_left, show 0x40#32 &&& 2#32 = 0#32 by decide, BitVec.or_zero]

@[simp] theorem present_markDirty (e : Word) : present (markDirty e) = present e := by
  unfold present markDirty
  rw [BitVec.and_or_distrib_left, show 1#32 &&& 0x60#32 = 0#32 by decide, BitVec.or_zero]

@[simp] theorem writable_markDirty (e : Word) : writable (markDirty e) = writable e := by
  unfold writable markDirty
  rw [BitVec.and_or_distrib_left, show 2#32 &&& 0x60#32 = 0#32 by decide, BitVec.or_zero]

@[simp] theorem dirty_markDirty (e : Word) : dirty (markDirty e) = true := by
  unfold dirty markDirty
  rw [BitVec.and_or_distrib_left, show 0x40#32 &&& 0x60#32 = 0x40#32 by decide, bne_iff_ne]
  intro h
  have := congrArg (·.getLsbD 6) h
  simp at this

/-- A present entry is not a bare page address. -/
theorem pageAddr_lt_of_present {e : Word} (h : present e = true) : pageAddr e < e.toNat := by
  rcases Nat.lt_or_eq_of_le (pageAddr_le e) with hlt | heq
  · exact hlt
  · have hz : 1#32 &&& e = 0#32 := by
      have he : e = BitVec.ofNat 32 (pageAddr e) := by
        rw [heq]; exact (BitVec.ofNat_toNat 32 e ▸ by simp)
      rw [he]
      exact and_ofNat_eq_zero (pageAddr_mod e) (pageAddr_lt e) (by decide)
    simp [present, hz] at h

theorem present_zero : present 0#32 = false := by decide

/-! ### Tests of two flags at once -/

/-- Masking with a single bit. -/
theorem bit_and (n : Nat) (e : Word) :
    BitVec.twoPow 32 n &&& e = if e.getLsbD n then BitVec.twoPow 32 n else 0#32 := by
  rw [BitVec.and_comm, BitVec.and_twoPow]

theorem present_eq (e : Word) : present e = e.getLsbD 0 := by
  have h := bit_and 0 e
  rw [show BitVec.twoPow 32 0 = 1#32 by decide] at h
  rw [present, h]
  cases e.getLsbD 0 <;> decide

theorem writable_eq (e : Word) : writable e = e.getLsbD 1 := by
  have h := bit_and 1 e
  rw [show BitVec.twoPow 32 1 = 2#32 by decide] at h
  rw [writable, h]
  cases e.getLsbD 1 <;> decide

theorem dirty_eq (e : Word) : dirty e = e.getLsbD 6 := by
  have h := bit_and 6 e
  rw [show BitVec.twoPow 32 6 = 0x40#32 by decide] at h
  rw [dirty, h]
  cases e.getLsbD 6 <;> decide

/-- The test `(3 & entry) == 1`: present and read-only. -/
theorem readOnly_iff (e : Word) : 3#32 &&& e = 1#32 ↔ present e = true ∧ writable e = false := by
  have h0 := bit_and 0 e
  have h1 := bit_and 1 e
  rw [show BitVec.twoPow 32 0 = 1#32 by decide] at h0
  rw [show BitVec.twoPow 32 1 = 2#32 by decide] at h1
  rw [show 3#32 = 1#32 ||| 2#32 by decide, BitVec.and_or_distrib_right, h0, h1, present_eq,
    writable_eq]
  cases e.getLsbD 0 <;> cases e.getLsbD 1 <;> decide

/-- The test `(entry & 0x41) == 1`: present and clean. -/
theorem clean_iff (e : Word) : e &&& 0x41#32 = 1#32 ↔ present e = true ∧ dirty e = false := by
  have h0 := bit_and 0 e
  have h6 := bit_and 6 e
  rw [show BitVec.twoPow 32 0 = 1#32 by decide] at h0
  rw [show BitVec.twoPow 32 6 = 0x40#32 by decide] at h6
  rw [BitVec.and_comm, show 0x41#32 = 1#32 ||| 0x40#32 by decide, BitVec.and_or_distrib_right,
    h0, h6, present_eq, dirty_eq]
  cases e.getLsbD 0 <;> cases e.getLsbD 6 <;> decide
end LinuxKernel.V011.Mm
