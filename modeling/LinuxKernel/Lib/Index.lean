import Mathlib.Algebra.GroupWithZero.Nat
import Mathlib.Algebra.Ring.Int.Defs
import Mathlib.Order.Fin.Basic

/-!
# LinuxKernel.Lib.Index

The literal `0` as an **index into a table** of a fixed size. `Fin n` has a
`0` where `n` is not zero; for the sizes that tables here have, that is an
instance of its own.
-/

namespace LinuxKernel

instance neZero_8 : NeZero 8 := ⟨by decide⟩

instance neZero_32 : NeZero 32 := ⟨by decide⟩

instance neZero_64 : NeZero 64 := ⟨by decide⟩

instance neZero_1024 : NeZero 1024 := ⟨by decide⟩

end LinuxKernel
