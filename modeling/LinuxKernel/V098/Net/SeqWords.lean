import Mathlib.Data.BitVec

/-!
# LinuxKernel.V098.Net.SeqWords

**Comparing sequence numbers around the wrap**: `before`, `after` and `between` of
`net/tcp/tcp.h` on words of 32 bits.

- `before_ahead_iff`: where a number is before one that is not at most 32766 ahead.
- `steady_iff`: which distances are compared alike wherever the two numbers are.
- A number from 0xfff000 on counts as one that is about to wrap, where only the last 4096
  numbers below `2 ^ 32` are.
-/

namespace LinuxKernel.V098.Net.SeqWords

abbrev Word := BitVec 32

def before (seq1 seq2 : Word) : Bool :=
  if seq1 = seq2 then false
  else if seq1 < seq2 then
    if seq2 - seq1 < 32767 then true else false
  else if seq2 < 4096 ∧ seq1 > 0xffffff - 4096 then true
  else false

def after (seq1 seq2 : Word) : Bool := before seq2 seq1

/-- is s2<=s1<=s3 ? -/
def between (seq1 seq2 seq3 : Word) : Bool := after (seq1 + 1) seq2 && before seq1 (seq3 + 1)

variable {x y a d : Word}

/-- How far it is from `x` on to `y`. -/
def distance (x y : Word) : Nat := (y - x).toNat

theorem distance_eq (x y : Word) :
    distance x y =
      if x.toNat ≤ y.toNat then y.toNat - x.toNat else 2 ^ 32 + y.toNat - x.toNat := by
  have hx := x.isLt
  have hy := y.isLt
  rw [distance, BitVec.toNat_sub]
  split <;> omega

/-- What the code computes. -/
theorem before_iff : before x y = true ↔
    (x.toNat < y.toNat ∧ y.toNat < x.toNat + 32767) ∨
      (y.toNat < x.toNat ∧ y.toNat < 4096 ∧ 0xffffff - 4096 < x.toNat) := by
  have hx := x.isLt
  have hy := y.isLt
  unfold before
  by_cases heq : x = y
  · rw [if_pos heq, heq]
    simp
  · have hne : x.toNat ≠ y.toNat := fun h => heq (BitVec.eq_of_toNat_eq h)
    have hdist : (32767 : Word).toNat = 32767 := rfl
    have hlow : (4096 : Word).toNat = 4096 := rfl
    have hhigh : (0xffffff - 4096 : Word).toNat = 0xffffff - 4096 := rfl
    rw [if_neg heq]
    simp only [BitVec.lt_def, gt_iff_lt, hdist, hlow, hhigh, BitVec.toNat_sub]
    split_ifs <;> simp only [true_iff, false_iff] <;> omega

/-! ### Close numbers -/

theorem toNat_add_eq (x d : Word) :
    (x + d).toNat = if x.toNat + d.toNat < 2 ^ 32 then x.toNat + d.toNat
      else x.toNat + d.toNat - 2 ^ 32 := by
  have hx := x.isLt
  have hd := d.isLt
  rw [BitVec.toNat_add]
  split <;> omega

/-- Up to 4096 ahead. -/
theorem before_add (h : d ≠ 0) (hd : d.toNat ≤ 4096) : before x (x + d) = true := by
  have hx := x.isLt
  have hpos : d.toNat ≠ 0 := fun h0 => h (BitVec.eq_of_toNat_eq h0)
  rw [before_iff, toNat_add_eq]
  split <;> omega

theorem not_before_add (hd : d.toNat ≤ 4096) : before (x + d) x = false := by
  have hx := x.isLt
  rw [Bool.eq_false_iff, ne_eq, before_iff, toNat_add_eq]
  split <;> omega

/-- Less than 4096 ahead, and between two numbers as far from each other. -/
theorem between_add (hd : d.toNat < 4096) : between (a + d) a (a + 2 * d) = true := by
  have hone : (d + 1).toNat = d.toNat + 1 := by
    rw [toNat_add_eq]
    exact if_pos (by
      change d.toNat + 1 < 2 ^ 32
      omega)
  have hsucc : d + 1 ≠ 0 := by
    intro h0
    rw [h0] at hone
    exact absurd hone (Nat.succ_ne_zero _).symm
  have hlow : a + d + 1 = a + (d + 1) := add_assoc _ _ _
  have hhigh : a + 2 * d + 1 = a + d + (d + 1) := by
    rw [two_mul, ← add_assoc, ← add_assoc]
  unfold between after
  rw [hlow, hhigh, before_add hsucc (by omega), before_add hsucc (by omega), Bool.and_self]

/-! ### Numbers that are taken for ones about to wrap -/

/-- The second number is taken for one behind the wrap, too far from the first one. -/
def Mistaken (x y : Word) : Prop :=
  y.toNat < 4096 ∧ 0xffffff - 4096 < x.toNat ∧ 32766 < distance x y

/-- Only there a number is before one that is not at most 32766 ahead. -/
theorem before_ahead_iff :
    (before x y = true → 1 ≤ distance x y ∧ distance x y ≤ 32766) ↔ ¬ Mistaken x y := by
  have hx := x.isLt
  have hy := y.isLt
  unfold Mistaken
  rw [before_iff, distance_eq]
  split <;> omega

/-! ### Steady distances -/

/-- The two numbers are compared alike wherever they are. -/
def Steady (x y : Word) : Prop :=
  distance x y ≤ 4096 ∨ 2 ^ 32 - (0xffffff - 4096) + 4095 ≤ distance x y

instance (x y : Word) : Decidable (Steady x y) := inferInstanceAs (Decidable (_ ∨ _))

@[simp] theorem distance_add (x y c : Word) : distance (x + c) (y + c) = distance x y := by
  rw [distance, distance, add_sub_add_right_eq_sub]

/-- What a steady comparison comes to. -/
theorem Steady.before_eq (h : Steady x y) :
    before x y = decide (1 ≤ distance x y ∧ distance x y ≤ 4096) := by
  have hx := x.isLt
  have hy := y.isLt
  unfold Steady at h
  rw [distance_eq] at *
  rw [Bool.eq_iff_iff, before_iff, decide_eq_true_iff]
  split at h <;> split <;> omega

theorem Steady.before_shift (h : Steady x y) (c : Word) : before (x + c) (y + c) = before x y := by
  have h' : Steady (x + c) (y + c) := by
    unfold Steady
    rwa [distance_add]
  rw [h.before_eq, h'.before_eq, distance_add]

/-- Only steady distances are compared alike everywhere. -/
theorem steady_iff : Steady x y ↔ ∀ c, before (x + c) (y + c) = before x y := by
  refine ⟨fun h c => h.before_shift c, fun hall => ?_⟩
  by_contra hno
  have hat : ∀ n < 2 ^ 32, before x y = true ↔ (n + distance x y < 2 ^ 32 ∧ distance x y ≠ 0 ∧
      distance x y < 32767) ∨ (2 ^ 32 ≤ n + distance x y ∧ n + distance x y < 2 ^ 32 + 4096 ∧
        0xffffff - 4096 < n) := by
    intro n hn
    have hk := (y - x).isLt
    have hto : (BitVec.ofNat 32 n).toNat = n := by
      rw [BitVec.toNat_ofNat, Nat.mod_eq_of_lt hn]
    have hshift := hall (BitVec.ofNat 32 n - x)
    rw [add_sub_cancel, add_sub_left_comm, Bool.eq_iff_iff, before_iff, toNat_add_eq, hto] at hshift
    rw [← hshift]
    unfold distance
    split <;> omega
  have hk := (y - x).isLt
  unfold Steady at hno
  -- at 0, at the last number, and where the second number is just behind the wrap
  have hzero := hat 0 (by decide)
  have hlast := hat (2 ^ 32 - 1) (by decide)
  have hwrap := hat (max (2 ^ 32 - distance x y) (0xffffff - 4096 + 1))
  unfold distance at *
  rw [hzero] at hlast hwrap
  omega

end LinuxKernel.V098.Net.SeqWords
