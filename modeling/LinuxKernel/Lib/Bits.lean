import Mathlib.Logic.Function.Basic

/-!
# LinuxKernel.Lib.Bits

**Bit maps in byte-addressed memory**: single bits, and the search for the
first one that is clear, word by word.

Bit `k` is bit `k % 8` of byte `k / 8`. Words have 32 bits, little end first, so
bit `k` is bit `k % 32` of word `k / 32` as well.
-/

namespace LinuxKernel.Bits

variable {f : Nat → BitVec 8} {j k w : Nat}

def bit (f : Nat → BitVec 8) (k : Nat) : Bool := (f (k / 8)).getLsbD (k % 8)

/-- A byte with bit `i` as given. -/
def putByte (b : BitVec 8) (i : Nat) (v : Bool) : BitVec 8 :=
  if v then b ||| (1#8 <<< i) else b &&& ~~~(1#8 <<< i)

def put (f : Nat → BitVec 8) (k : Nat) (v : Bool) : Nat → BitVec 8 :=
  Function.update f (k / 8) (putByte (f (k / 8)) (k % 8) v)

theorem getLsbD_putByte {b : BitVec 8} {i m : Nat} {v : Bool} (hi : i < 8) (hm : m < 8) :
    (putByte b i v).getLsbD m = if m = i then v else b.getLsbD m := by
  have hone : (1#8 <<< i).getLsbD m = decide (m = i) := by
    rw [BitVec.getLsbD_shiftLeft, BitVec.getLsbD_one]
    by_cases h : m = i
    · simp [h, hi]
    · by_cases hlt : m < i
      · simp [h, hlt]
      · have hpos : m - i ≠ 0 := by omega
        simp [h, hpos]
  cases v with
  | false =>
      rw [putByte, if_neg Bool.false_ne_true, BitVec.getLsbD_and, BitVec.getLsbD_not, hone]
      by_cases h : m = i <;> simp [h, hm, hi]
  | true =>
      rw [putByte, if_pos rfl, BitVec.getLsbD_or, hone]
      by_cases h : m = i <;> simp [h]

/-- Only the bit itself changes. -/
theorem bit_put (f : Nat → BitVec 8) (k : Nat) (v : Bool) (j : Nat) :
    bit (put f k v) j = if j = k then v else bit f j := by
  have h8 : ∀ i, i % 8 < 8 := fun i => Nat.mod_lt i (by decide)
  rw [bit, put]
  by_cases hbyte : j / 8 = k / 8
  · rw [hbyte, Function.update_self, getLsbD_putByte (h8 k) (h8 j), bit, hbyte]
    by_cases h : j = k
    · rw [if_pos h, if_pos (congrArg (· % 8) h)]
    · rw [if_neg h, if_neg (by omega)]
  · rw [Function.update_of_ne hbyte, if_neg fun h => hbyte (congrArg (· / 8) h), bit]

/-! ### Words -/

/-- Word `w`. -/
def word (f : Nat → BitVec 8) (w : Nat) : BitVec 32 :=
  f (4 * w + 3) ++ f (4 * w + 2) ++ f (4 * w + 1) ++ f (4 * w)

theorem getLsbD_word {i : Nat} (hi : i < 32) : (word f w).getLsbD i = bit f (32 * w + i) := by
  have hbit : ∀ n r, 4 * w + n = (32 * w + i) / 8 → r = (32 * w + i) % 8 →
      (f (4 * w + n)).getLsbD r = bit f (32 * w + i) := fun n r hn hr => by rw [bit, hn, hr]
  simp only [word, BitVec.getLsbD_append]
  split
  · exact hbit 0 i (by omega) (by omega)
  · split
    · exact hbit 1 (i - 8) (by omega) (by omega)
    · split
      · exact hbit 2 (i - 8 - 8) (by omega) (by omega)
      · exact hbit 3 (i - 8 - 8 - 8) (by omega) (by omega)

/-- The lowest bit that is set (`bsf`). -/
def lowest (v : BitVec 32) : Option Nat := (List.range 32).find? fun i => v.getLsbD i

/-- The first clear bit from word `w` on, or the end after `k` words. -/
def scan (f : Nat → BitVec 8) : Nat → Nat → Nat
  | 0, w => 32 * w
  | k + 1, w =>
      match lowest (~~~ word f w) with
      | some i => 32 * w + i
      | none => scan f k (w + 1)

theorem lowest_eq_some {v : BitVec 32} {i : Nat} (h : lowest v = some i) :
    i < 32 ∧ v.getLsbD i = true ∧ ∀ j < i, v.getLsbD j = false := by
  obtain ⟨hi, hv, hbefore⟩ := List.find?_range_eq_some.mp h
  exact ⟨by simpa using hv, by simpa using hi, fun j hj => by simpa using hbefore j hj⟩

theorem lowest_eq_none {v : BitVec 32} (h : lowest v = none) : ∀ i < 32, v.getLsbD i = false :=
  fun i hi => by simpa using List.find?_eq_none.mp h i (List.mem_range.mpr hi)

theorem getLsbD_not_word {i : Nat} (hi : i < 32) :
    (~~~ word f w).getLsbD i = !bit f (32 * w + i) := by
  rw [BitVec.getLsbD_not, getLsbD_word hi, decide_eq_true hi, Bool.true_and]

/-- All bits before the result are set, and the result is clear unless it is the end. -/
theorem scan_spec (f : Nat → BitVec 8) (k w : Nat) :
    scan f k w ≤ 32 * (w + k) ∧ (∀ j, 32 * w ≤ j → j < scan f k w → bit f j = true) ∧
      (scan f k w < 32 * (w + k) → bit f (scan f k w) = false) := by
  induction k generalizing w with
  | zero =>
      exact ⟨Nat.le_refl _, fun j hj hlt => absurd hlt (Nat.not_lt_of_ge hj),
        fun h => absurd h (Nat.lt_irrefl _)⟩
  | succ k ih =>
      rw [scan]
      cases hlow : lowest (~~~ word f w) with
      | some i =>
          obtain ⟨hlt, hclear, hset⟩ := lowest_eq_some hlow
          refine ⟨?_, fun j hj hji => ?_, fun _ => ?_⟩
          · change 32 * w + i ≤ _
            omega
          · change j < 32 * w + i at hji
            have hb := hset (j - 32 * w) (by omega)
            rw [getLsbD_not_word (by omega), Nat.add_sub_cancel' hj] at hb
            simpa using hb
          · change bit f (32 * w + i) = false
            rw [getLsbD_not_word hlt] at hclear
            simpa using hclear
      | none =>
          obtain ⟨hle, hset, hclear⟩ := ih (w + 1)
          have hw : w + 1 + k = w + (k + 1) := by omega
          refine ⟨hw ▸ hle, fun j hj hlt => ?_, fun h => hclear (hw ▸ h)⟩
          by_cases hjw : 32 * (w + 1) ≤ j
          · exact hset j hjw hlt
          · have hb := lowest_eq_none hlow (j - 32 * w) (by omega)
            rw [getLsbD_not_word (by omega), Nat.add_sub_cancel' hj] at hb
            simpa using hb

end LinuxKernel.Bits
