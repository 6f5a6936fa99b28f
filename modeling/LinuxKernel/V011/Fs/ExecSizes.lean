import LinuxKernel.V011.Fs.Exec

/-!
# LinuxKernel.V011.Fs.ExecSizes

**The sizes of a program.** `do_execve` adds three fields of the header and compares the sum
with a bound, and four with the size of the file. All are unsigned, so what it accepts fits
only if neither sum wraps.
-/

namespace LinuxKernel.V011.Fs.Exec

/-- `end_code`, `end_data` and `brk` of the new program. -/
structure Ends where
  endCode : BitVec 32
  endData : BitVec 32
  brk : BitVec 32

/-- The three assignments of `do_execve`. -/
def setEnds (ex : Header) : Ends :=
  let endCode := ex.text
  let endData := ex.data + endCode
  { endCode, endData, brk := ex.bss + endData }

/-- Text, data and bss of the program. -/
def Header.total (ex : Header) : Nat := ex.text.toNat + ex.data.toNat + ex.bss.toNat

/-- What the file has of the program. -/
def Header.fileSize (ex : Header) : Nat :=
  ex.text.toNat + ex.data.toNat + ex.syms.toNat + BLOCK_SIZE

/-- The program fits into the data segment and the file, and its parts are one behind the
other, below the arguments. -/
structure Fits (ex : Header) (size : BitVec 32) : Prop where
  total : ex.total ≤ 0x3000000
  file : ex.fileSize ≤ size.toNat
  code : (setEnds ex).endCode ≤ (setEnds ex).endData
  data : (setEnds ex).endData ≤ (setEnds ex).brk
  arguments : (setEnds ex).brk.toNat ≤ PAGES

/-- Neither sum wraps. -/
def SumsFit (ex : Header) : Prop := ex.total < 2 ^ 32 ∧ ex.fileSize < 2 ^ 32

instance (ex : Header) : Decidable (SumsFit ex) := inferInstanceAs (Decidable (_ ∧ _))

/-- What the tests of the header say. -/
theorem sums_of_checkExec {ex : Header} {size : BitVec 32} (h : checkExec ex size = none) :
    ex.total % 2 ^ 32 ≤ 0x3000000 ∧ ex.fileSize % 2 ^ 32 ≤ size.toNat := by
  rw [checkExec] at h
  split at h
  · cases h
  next hno =>
  simp only [not_or, BitVec.not_lt, BitVec.le_def, BitVec.toNat_add] at hno
  obtain ⟨-, -, -, htotal, hfile⟩ := hno
  have hbound : (0x3000000#32).toNat = 0x3000000 := rfl
  have htxtoff : (1024 : BitVec 32).toNat = 1024 := rfl
  rw [Header.total, Header.fileSize, BLOCK_SIZE]
  exact ⟨by omega, by omega⟩

/-- **Accepted programs** fit exactly if their sizes do not wrap. -/
theorem accepted_fits_iff {ex : Header} {size : BitVec 32} (h : checkExec ex size = none) :
    Fits ex size ↔ SumsFit ex := by
  obtain ⟨htotal, hfile⟩ := sums_of_checkExec h
  constructor
  · intro hfits
    have hsize := size.isLt
    exact ⟨Nat.lt_of_le_of_lt hfits.total (by decide), Nat.lt_of_le_of_lt hfits.file hsize⟩
  · rintro ⟨hno, hno'⟩
    rw [Nat.mod_eq_of_lt hno] at htotal
    rw [Nat.mod_eq_of_lt hno'] at hfile
    have hsum : ex.text.toNat + ex.data.toNat + ex.bss.toNat ≤ 0x3000000 := htotal
    have hend : (setEnds ex).endData.toNat = ex.data.toNat + ex.text.toNat := by
      change (ex.data + ex.text).toNat = _
      rw [BitVec.toNat_add, Nat.mod_eq_of_lt (by omega)]
    have hbrk : (setEnds ex).brk.toNat = ex.bss.toNat + (setEnds ex).endData.toNat := by
      change (ex.bss + (setEnds ex).endData).toNat = _
      rw [BitVec.toNat_add, Nat.mod_eq_of_lt (by omega)]
    refine ⟨htotal, hfile, ?_, ?_, ?_⟩
    · rw [BitVec.le_def, hend]
      exact Nat.le_add_left ..
    · rw [BitVec.le_def, hbrk]
      exact Nat.le_add_left ..
    · rw [hbrk, hend, PAGES, DATA_LIMIT, MAX_ARG_PAGES, PAGE_SIZE]
      omega

/-- 4 kB of text, and a page of symbols. -/
def smallProgram : Header := ⟨ZMAGIC, 0x1000, 0, 0x200, 0x40, 0, 0, 0⟩

theorem accepted_fits_iff_smallProgram : Fits smallProgram 0x2000 ↔ SumsFit smallProgram :=
  accepted_fits_iff (by decide)

/-- 2 GB of text and 2 GB of data, in a file of 1024 bytes. -/
def hugeProgram : Header := ⟨ZMAGIC, 0x80000000, 0x80000000, 0, 0, 0, 0, 0⟩

theorem accepted_not_fits : checkExec hugeProgram 1024 = none ∧ ¬ Fits hugeProgram 1024 :=
  ⟨by decide, fun h => absurd h.total (by decide)⟩

end LinuxKernel.V011.Fs.Exec
