import LinuxKernel.Lib.Index

/-!
# LinuxKernel.Lib.Ints

**The `int`s of C** on a 32-bit machine, as integers that an operation wraps around.
-/

namespace LinuxKernel

/-- What an `int` of 32 bits holds of `n`. -/
def int32 (n : Int) : Int := Int.bmod n (2 ^ 32)

theorem int32_eq {n : Int} (h : -2 ^ 31 ≤ n) (h' : n < 2 ^ 31) : int32 n = n :=
  Int.bmod_eq_of_le (by omega) (by omega)

theorem int32_of_lt {n : Int} (h : n < -2 ^ 31) (h' : -2 ^ 31 - 2 ^ 31 ≤ n) :
    int32 n = n + 2 ^ 32 := by
  unfold int32
  rw [Int.bmod_def]
  omega

theorem int32_of_le {n : Int} (h : 2 ^ 31 ≤ n) (h' : n < 2 ^ 31 + 2 ^ 31) :
    int32 n = n - 2 ^ 32 := by
  unfold int32
  rw [Int.bmod_def]
  omega

end LinuxKernel
