import Mathlib.Algebra.Group.Fin.Basic
import Mathlib.Tactic.Abel

/-!
# LinuxKernel.Lib.Ring

**Ring buffers**: `n` slots, filled at `head` and emptied at `tail`, both
counted modulo `n`. One slot stays free, so that `head = tail` means empty.

`contents` reads the buffer as a list, oldest first; each operation has a
theorem that says what it does to the list.
-/

namespace LinuxKernel

structure Ring (n : Nat) (α : Type) where
  buf : Fin n → α
  head : Fin n
  tail : Fin n

namespace Ring

variable {n : Nat} [NeZero n] {α : Type} {buf buf' : Fin n → α} {t d : Fin n} {k : Nat}
  {r : Ring n α} {c : α}

/-- How many slots are in use. -/
def chars (r : Ring n α) : Nat := (r.head - r.tail).val

/-- How many more can be filled. -/
def left (r : Ring n α) : Nat := (r.tail - r.head - 1).val

def isEmpty (r : Ring n α) : Bool := r.head = r.tail

def isFull (r : Ring n α) : Bool := r.left = 0

/-- Fill the slot at `head`. -/
def put (r : Ring n α) (c : α) : Ring n α :=
  { r with buf := Function.update r.buf r.head c, head := r.head + 1 }

/-- The oldest entry. -/
def first (r : Ring n α) : α := r.buf r.tail

/-- Give up the slot at `tail`. -/
def get (r : Ring n α) : Ring n α := { r with tail := r.tail + 1 }

/-- The newest entry. -/
def last (r : Ring n α) : α := r.buf (r.head - 1)

/-- Take the newest entry back. -/
def dec (r : Ring n α) : Ring n α := { r with head := r.head - 1 }

/-- Forget all entries. -/
def flush (r : Ring n α) : Ring n α := { r with head := r.tail }

/-- `k` slots from `t` on. -/
def span (buf : Fin n → α) (t : Fin n) : Nat → List α
  | 0 => []
  | k + 1 => buf t :: span buf (t + 1) k

def contents (r : Ring n α) : List α := span r.buf r.tail r.chars

/-! ### Counting modulo `n` -/

theorem val_add_one_eq (h : d + 1 ≠ 0) : (d + 1).val = d.val + 1 := by
  have hval : (d + 1).val = (d.val + 1) % n := by
    rw [Fin.val_add, Fin.val_one', Nat.add_mod_mod]
  have hd := d.isLt
  by_cases hlt : d.val + 1 < n
  · rw [hval, Nat.mod_eq_of_lt hlt]
  · have hn : d.val + 1 = n := by omega
    rw [hn, Nat.mod_self] at hval
    exact absurd (Fin.val_eq_zero_iff.mp hval) h

theorem isEmpty_iff : r.isEmpty = true ↔ r.head - r.tail = 0 := by
  rw [isEmpty, decide_eq_true_eq, sub_eq_zero]

theorem isFull_iff : r.isFull = true ↔ r.head - r.tail + 1 = 0 := by
  have hneg : r.tail - r.head - 1 = -(r.head - r.tail + 1) := by abel
  rw [isFull, decide_eq_true_eq, left, Fin.val_eq_zero_iff, hneg, neg_eq_zero]

theorem chars_pos (h : r.isEmpty = false) : 0 < r.chars := by
  rw [← Bool.not_eq_true, isEmpty_iff] at h
  exact Nat.pos_of_ne_zero fun h0 => h (Fin.val_eq_zero_iff.mp h0)

theorem chars_put (h : r.isFull = false) : (r.put c).chars = r.chars + 1 := by
  rw [← Bool.not_eq_true, isFull_iff] at h
  have hd : r.head + 1 - r.tail = r.head - r.tail + 1 := by abel
  rw [chars, put, hd, val_add_one_eq h, chars]

/-- One entry too many, and there are none. -/
theorem isEmpty_put (h : r.isFull = true) : (r.put c).isEmpty = true := by
  have hd : r.head + 1 - r.tail = r.head - r.tail + 1 := by abel
  rw [isFull_iff] at h
  rw [isEmpty_iff, put, hd, h]

theorem chars_of_isEmpty (h : r.isEmpty = true) : r.chars = 0 := by
  rw [chars, isEmpty_iff.1 h, Fin.val_zero]

theorem left_put (h : r.isFull = false) : (r.put c).left = r.left - 1 := by
  have hne : r.tail - r.head - 1 ≠ 0 := by
    intro h0
    rw [isFull, left, h0] at h
    cases h
  have hd : r.tail - (r.head + 1) - 1 = r.tail - r.head - 1 - 1 := by abel
  rw [left, put, hd, Fin.val_sub_one_of_ne_zero hne, left]

theorem chars_get (h : r.isEmpty = false) : r.get.chars = r.chars - 1 := by
  rw [← Bool.not_eq_true, isEmpty_iff] at h
  have hd : r.head - (r.tail + 1) = r.head - r.tail - 1 := by abel
  rw [chars, get, hd, Fin.val_sub_one_of_ne_zero h, chars]

theorem chars_dec (h : r.isEmpty = false) : r.dec.chars = r.chars - 1 := by
  rw [← Bool.not_eq_true, isEmpty_iff] at h
  have hd : r.head - 1 - r.tail = r.head - r.tail - 1 := by abel
  rw [chars, dec, hd, Fin.val_sub_one_of_ne_zero h, chars]

/-! ### The contents -/

theorem length_span : (span buf t k).length = k := by
  induction k generalizing t with
  | zero => rfl
  | succ k ih => rw [span, List.length_cons, ih]

theorem span_snoc : span buf t (k + 1) = span buf t k ++ [buf (t + Fin.ofNat n k)] := by
  induction k generalizing t with
  | zero =>
      have h0 : t + Fin.ofNat n 0 = t := add_zero t
      rw [h0]
      rfl
  | succ k ih =>
      have hk : t + 1 + Fin.ofNat n k = t + Fin.ofNat n (k + 1) := by
        rw [add_assoc]
        congr 1
        ext
        simp [Fin.val_add, add_comm]
      rw [span, ih, span, hk, List.cons_append]

/-- Only the slots of the span matter. -/
theorem span_congr (h : ∀ i, i < k → buf' (t + Fin.ofNat n i) = buf (t + Fin.ofNat n i)) :
    span buf' t k = span buf t k := by
  induction k with
  | zero => rfl
  | succ k ih =>
      rw [span_snoc, span_snoc, ih fun i hi => h i (by omega), h k (by omega)]

theorem length_contents : r.contents.length = r.chars := length_span

theorem contents_eq_nil (h : r.isEmpty = true) : r.contents = [] := by
  rw [isEmpty_iff] at h
  rw [← List.length_eq_zero_iff, length_contents, chars, h]
  rfl

theorem isEmpty_eq : r.isEmpty = r.contents.isEmpty := by
  cases h : r.isEmpty with
  | true => rw [contents_eq_nil h]; rfl
  | false =>
      have := chars_pos h
      rw [← length_contents] at this
      cases hc : r.contents with
      | nil => simp [hc] at this
      | cons c l => rfl

/-- The slot at `head`, counted from `tail`. -/
theorem tail_add_chars : r.tail + Fin.ofNat n r.chars = r.head := by
  have h : Fin.ofNat n r.chars = r.head - r.tail := Fin.ofNat_val_eq_self _
  rw [h]
  abel

theorem contents_put (h : r.isFull = false) : (r.put c).contents = r.contents ++ [c] := by
  rw [contents, chars_put h, span_snoc]
  have hhead : (r.put c).tail + Fin.ofNat n r.chars = r.head := tail_add_chars (r := r)
  have hlast : (r.put c).buf ((r.put c).tail + Fin.ofNat n r.chars) = c := by
    rw [hhead]
    exact Function.update_self ..
  rw [hlast]
  congr 1
  refine span_congr fun i hi => Function.update_of_ne (fun he => ?_) ..
  -- a slot before `head` is not `head`
  have hd : r.head - r.tail = Fin.ofNat n i := by
    rw [← he]
    change r.tail + Fin.ofNat n i - r.tail = _
    abel
  have hval := congrArg Fin.val hd
  have hlt : r.chars < n := (r.head - r.tail).isLt
  rw [Fin.val_ofNat, Nat.mod_eq_of_lt (by omega)] at hval
  change r.chars = i at hval
  omega

theorem contents_get (h : r.isEmpty = false) : r.contents = r.first :: r.get.contents := by
  obtain ⟨k, hk⟩ : ∃ k, r.chars = k + 1 := ⟨r.chars - 1, by have := chars_pos h; omega⟩
  have hk' : r.get.chars = k := by rw [chars_get h, hk]; rfl
  rw [contents, contents, hk, hk']
  rfl

theorem contents_dec (h : r.isEmpty = false) : r.contents = r.dec.contents ++ [r.last] := by
  obtain ⟨k, hk⟩ : ∃ k, r.chars = k + 1 := ⟨r.chars - 1, by have := chars_pos h; omega⟩
  have hk' : r.dec.chars = k := by rw [chars_dec h, hk]; rfl
  have hlast : r.tail + Fin.ofNat n k = r.head - 1 := by
    have := tail_add_chars (r := r.dec)
    rwa [hk'] at this
  rw [contents, contents, hk, hk', span_snoc, hlast]
  rfl

end Ring

end LinuxKernel
