import Mathlib.Data.BitVec

/-!
# LinuxKernel.Lib.Words

**Words in a byte memory** with 32-bit addresses that wrap, least significant byte first, at any
alignment.
-/

namespace LinuxKernel.Words

abbrev Addr := BitVec 32
abbrev Bytes := Addr → BitVec 8

/-- The word at `a`. -/
def readWord (m : Bytes) (a : Addr) : BitVec 32 := m (a + 3) ++ m (a + 2) ++ m (a + 1) ++ m a

def storeWord (m : Bytes) (a : Addr) (w : BitVec 32) : Bytes := fun x =>
  if (x - a).toNat < 4 then w.extractLsb' (8 * (x - a).toNat) 8 else m x

/-- Words one after the other, from `a` upwards. -/
def storeWords (m : Bytes) (a : Addr) : List (BitVec 32) → Bytes
  | [] => m
  | w :: ws => storeWords (storeWord m a w) (a + 4) ws

/-- `a` is one of the `n` bytes below `top`. -/
def Below (top : Addr) (n : Nat) (a : Addr) : Prop := (top - 1 - a).toNat < n

variable {m m' : Bytes} {a top x : Addr} {w : BitVec 32} {ws : List (BitVec 32)} {n k : Nat}

theorem Below.mono (h : Below top k a) (hk : k ≤ n) : Below top n a := Nat.lt_of_lt_of_le h hk

theorem readWord_congr (h : ∀ i : Fin 4, m' (a + BitVec.ofNat 32 i) = m (a + BitVec.ofNat 32 i)) :
    readWord m' a = readWord m a := by
  have h0 : m' a = m a := by simpa using h 0
  have h1 : m' (a + 1) = m (a + 1) := h 1
  have h2 : m' (a + 2) = m (a + 2) := h 2
  have h3 : m' (a + 3) = m (a + 3) := h 3
  rw [readWord, readWord, h0, h1, h2, h3]

theorem storeWord_of_le (h : 4 ≤ (x - a).toNat) : storeWord m a w x = m x :=
  if_neg (Nat.not_lt.mpr h)

theorem storeWord_byte (i : Fin 4) :
    storeWord m a w (a + BitVec.ofNat 32 i) = w.extractLsb' (8 * i) 8 := by
  have hsub : (a + BitVec.ofNat 32 i - a).toNat = i := by
    have hi := i.isLt
    rw [BitVec.toNat_sub, BitVec.toNat_add, BitVec.toNat_ofNat]
    omega
  rw [storeWord, hsub, if_pos i.isLt]

theorem readWord_storeWord_self : readWord (storeWord m a w) a = w := by
  have h0 : storeWord m a w a = w.extractLsb' 0 8 := by simpa using storeWord_byte (m := m) 0
  have h1 : storeWord m a w (a + 1) = w.extractLsb' 8 8 := storeWord_byte (m := m) 1
  have h2 : storeWord m a w (a + 2) = w.extractLsb' 16 8 := storeWord_byte (m := m) 2
  have h3 : storeWord m a w (a + 3) = w.extractLsb' 24 8 := storeWord_byte (m := m) 3
  rw [readWord, h0, h1, h2, h3]
  ext i hi
  simp only [BitVec.getElem_append, BitVec.getElem_extractLsb']
  split
  · rw [Nat.zero_add]
    exact BitVec.getLsbD_eq_getElem hi
  · split
    · rw [show 8 + (i - 8) = i by omega]
      exact BitVec.getLsbD_eq_getElem hi
    · split
      · rw [show 16 + (i - 8 - 8) = i by omega]
        exact BitVec.getLsbD_eq_getElem hi
      · rw [show 24 + (i - 8 - 8 - 8) = i by omega]
        exact BitVec.getLsbD_eq_getElem hi

theorem storeWords_of_le (hlen : 4 * ws.length ≤ 2 ^ 32) (h : 4 * ws.length ≤ (x - a).toNat) :
    storeWords m a ws x = m x := by
  induction ws generalizing m a with
  | nil => rfl
  | cons w ws ih =>
      rw [List.length_cons] at h hlen
      rw [storeWords, ih (by omega), storeWord_of_le (by omega)]
      bv_omega

/-- Each word is found where it has been put. -/
theorem readWord_storeWords (hlen : 4 * ws.length ≤ 2 ^ 32) (hk : k < ws.length) :
    readWord (storeWords m a ws) (a + BitVec.ofNat 32 (4 * k)) = ws[k] := by
  induction ws generalizing m a k with
  | nil => cases hk
  | cons w ws ih =>
      rw [List.length_cons] at hk hlen
      cases k with
      | zero =>
          rw [storeWords, Nat.mul_zero, BitVec.ofNat_eq_ofNat, BitVec.add_zero]
          refine Eq.trans (readWord_congr fun i => ?_) (readWord_storeWord_self (m := m) (a := a))
          refine storeWords_of_le (by omega) ?_
          have hi := i.isLt
          have ha := a.isLt
          simp only [BitVec.toNat_sub, BitVec.toNat_add, BitVec.toNat_ofNat]
          omega
      | succ k =>
          have hrest := ih (m := storeWord m a w) (a := a + 4) (k := k) (by omega) (by omega)
          have haddr : a + 4 + BitVec.ofNat 32 (4 * k) = a + BitVec.ofNat 32 (4 * (k + 1)) := by
            rw [BitVec.add_assoc, Nat.mul_succ, Nat.add_comm, BitVec.ofNat_add]
            rfl
          rw [haddr] at hrest
          exact hrest

end LinuxKernel.Words
