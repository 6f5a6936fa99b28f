import LinuxKernel.V011.Mm.Wp

/-!
# LinuxKernel.V011.Mm.VerifyArea

**Which pages `verify_area` checks** (`kernel/fork.c`): the addresses that its
loop passes to `write_verify`, as the loop computes them.

`size` is an `int`, and the offset in the first page is added to it in place.
The loop goes on while it is positive; where the sum has wrapped around it is
negative from the start.
-/

namespace LinuxKernel.V011.Mm

open Memory (verifyAddr)

/-- The loop of `verify_area`: what `write_verify` is called with. -/
def verifyLoop (start : Nat) (size : Int) : List Nat :=
  if 0 < size then start :: verifyLoop ((start + 4096) % 2 ^ 32) (size - 4096) else []
termination_by size.toNat

/-- `verify_area` in a data segment that starts at `base`. -/
def verifyCalls (base addr : Nat) (size : Int) : List Nat :=
  verifyLoop ((addr / 4096 * 4096 + base) % 2 ^ 32) (Int.bmod (size + (addr % 4096 : Nat)) (2 ^ 32))

/-- The calls are those for the pages of the area, and no others. -/
def Covers (base addr : Nat) (size : Int) : Prop :=
  ∀ a, a ∈ verifyCalls base addr size ↔
    ∃ b : Nat, addr ≤ b ∧ (b : Int) < addr + size ∧ a = (base + b / 4096 * 4096) % 2 ^ 32

/-! ### The loop -/

theorem verifyLoop_of_pos {start : Nat} {size : Int} (h : 0 < size) :
    verifyLoop start size = start :: verifyLoop ((start + 4096) % 2 ^ 32) (size - 4096) := by
  rw [verifyLoop, if_pos h]

theorem verifyLoop_of_nonpos {start : Nat} {size : Int} (h : size ≤ 0) :
    verifyLoop start size = [] := by
  rw [verifyLoop, if_neg (Int.not_lt.mpr h)]

/-- It passes one page for each 4096 bytes begun. -/
theorem mem_verifyLoop {start a : Nat} {size : Int} (hstart : start < 2 ^ 32) :
    a ∈ verifyLoop start size ↔ ∃ k : Nat, 4096 * (k : Int) < size ∧ a = verifyAddr start k := by
  induction start, size using verifyLoop.induct with
  | case1 start size hpos ih =>
      rw [verifyLoop_of_pos hpos, List.mem_cons, ih (Nat.mod_lt _ (by decide))]
      constructor
      · rintro (rfl | ⟨k, hk, rfl⟩)
        · refine ⟨0, by omega, ?_⟩
          unfold verifyAddr
          omega
        · refine ⟨k + 1, by omega, ?_⟩
          unfold verifyAddr
          omega
      · rintro ⟨k, hk, rfl⟩
        cases k with
        | zero =>
            left
            unfold verifyAddr
            omega
        | succ k =>
            refine Or.inr ⟨k, by omega, ?_⟩
            unfold verifyAddr
            omega
  | case2 start size hneg =>
      rw [verifyLoop_of_nonpos (Int.not_lt.mp hneg)]
      constructor
      · intro h
        cases h
      · rintro ⟨k, hk, -⟩
        omega

/-! ### With the memory -/

namespace Memory

/-- Apply `write_verify` to one address after the other, until it calls `oom`. -/
def writeVerifyAll (s : Memory) : List Nat → Bool × Memory
  | [] => (true, s)
  | a :: as =>
      match s.writeVerify a with
      | (true, s) => writeVerifyAll s as
      | (false, s) => (false, s)

theorem verifyPages_eq (s : Memory) (start : Nat) (size : Int) :
    s.verifyPages start ((size.toNat + 4095) / 4096) = s.writeVerifyAll (verifyLoop start size) := by
  induction start, size using verifyLoop.induct generalizing s with
  | case1 start size hpos ih =>
      obtain ⟨n, hn⟩ : ∃ n, (size.toNat + 4095) / 4096 = n + 1 := ⟨(size.toNat - 1) / 4096, by omega⟩
      rw [verifyLoop_of_pos hpos, hn, verifyPages, writeVerifyAll]
      have hrest : ((size - 4096).toNat + 4095) / 4096 = n := by omega
      rw [hrest] at ih
      cases hw : s.writeVerify start with
      | mk ok s' =>
          cases ok with
          | true => exact ih s'
          | false => rfl
  | case2 start size hneg =>
      have hzero : (size.toNat + 4095) / 4096 = 0 := by omega
      rw [verifyLoop_of_nonpos (Int.not_lt.mp hneg), hzero]
      rfl

/-- `verify_area` is `write_verify` of these addresses, in this order. -/
theorem verifyArea_eq (s : Memory) (base addr : Nat) (size : Int) :
    s.verifyArea base addr size = s.writeVerifyAll (verifyCalls base addr size) :=
  verifyPages_eq s _ _

end Memory

/-! ### What is covered -/

variable {base addr : Nat} {size : Int}

/-- The loop does not start. -/
theorem verifyCalls_of_wrap (h : 2 ^ 31 ≤ size + (addr % 4096 : Nat)) (hint : size < 2 ^ 31) :
    verifyCalls base addr size = [] := by
  refine verifyLoop_of_nonpos ?_
  have hwrap : Int.bmod (size + (addr % 4096 : Nat)) (2 ^ 32) =
      size + (addr % 4096 : Nat) - 2 ^ 32 := by
    rw [Int.bmod_def]
    omega
  omega

theorem mem_verifyCalls (hbase : base % 4096 = 0) (h0 : 0 ≤ size)
    (h : size + (addr % 4096 : Nat) < 2 ^ 31) (a : Nat) :
    a ∈ verifyCalls base addr size ↔ ∃ k : Nat, 4096 * (k : Int) < size + (addr % 4096 : Nat) ∧
      a = (base + (addr / 4096 + k) * 4096) % 2 ^ 32 := by
  have hsize : Int.bmod (size + (addr % 4096 : Nat)) (2 ^ 32) = size + (addr % 4096 : Nat) := by
    rw [Int.bmod_def]
    omega
  have haddr : ∀ k, verifyAddr ((addr / 4096 * 4096 + base) % 2 ^ 32) k =
      (base + (addr / 4096 + k) * 4096) % 2 ^ 32 := fun k => by
    unfold verifyAddr
    omega
  rw [verifyCalls, hsize, mem_verifyLoop (Nat.mod_lt _ (by decide))]
  simp only [haddr]

theorem covers_of_fits (hbase : base % 4096 = 0) (hpos : 0 < size)
    (h : size + (addr % 4096 : Nat) < 2 ^ 31) : Covers base addr size := by
  intro a
  rw [mem_verifyCalls hbase hpos.le h]
  constructor
  · rintro ⟨k, hk, rfl⟩
    -- the first page has `addr`, every other page its first byte
    by_cases hfirst : k = 0
    · exact ⟨addr, Nat.le_refl _, by omega, by rw [hfirst, Nat.add_zero]⟩
    · refine ⟨(addr / 4096 + k) * 4096, by omega, by omega, ?_⟩
      rw [Nat.mul_div_cancel _ (by decide)]
  · rintro ⟨b, hlo, hhi, rfl⟩
    refine ⟨b / 4096 - addr / 4096, by omega, ?_⟩
    rw [Nat.add_sub_cancel' (Nat.div_le_div_right hlo)]

/-- **`verify_area` covers the area** exactly where adding the offset does not leave the `int`s,
and an empty area starts at a page. -/
theorem covers_iff (hbase : base % 4096 = 0) (h0 : 0 ≤ size) (hint : size < 2 ^ 31) :
    Covers base addr size ↔
      size + (addr % 4096 : Nat) < 2 ^ 31 ∧ (size = 0 → addr % 4096 = 0) := by
  constructor
  · intro hcov
    have hfits : size + (addr % 4096 : Nat) < 2 ^ 31 := by
      by_contra hwrap
      have hmem := (hcov _).mpr ⟨addr, Nat.le_refl _, by omega, rfl⟩
      rw [verifyCalls_of_wrap (Int.not_lt.mp hwrap) hint] at hmem
      cases hmem
    refine ⟨hfits, fun hzero => ?_⟩
    by_contra hoff
    obtain ⟨b, hlo, hhi, -⟩ := (hcov _).mp
      ((mem_verifyCalls hbase h0 hfits _).mpr ⟨0, by omega, rfl⟩)
    omega
  · rintro ⟨hfits, hzero⟩
    rcases h0.lt_or_eq with hpos | rfl
    · exact covers_of_fits hbase hpos hfits
    · intro a
      rw [mem_verifyCalls hbase h0 hfits, hzero rfl]
      constructor
      · rintro ⟨k, hk, -⟩
        omega
      · rintro ⟨b, hlo, hhi, -⟩
        omega

/-- Four bytes over the end of a page. -/
theorem covers_iff_word : Covers 0x4000000 0x1ffe 4 :=
  (covers_iff (by decide) (by decide) (by decide)).mpr (by decide)

/-- A `read` of the largest count to an odd address: no page is checked. -/
theorem not_covers : ¬ Covers 0x4000000 0x1001 0x7fffffff := by
  intro hcov
  have hmem := (hcov _).mpr ⟨0x1001, Nat.le_refl _, by decide, rfl⟩
  rw [verifyCalls, verifyLoop_of_nonpos (by decide)] at hmem
  cases hmem

end LinuxKernel.V011.Mm
