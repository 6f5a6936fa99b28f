import LinuxKernel.Lib.Carry

/-!
# LinuxKernel.Lib.Wide

**Numbers of two and of four words** of 32 bits, and what instructions on the words, chained through
the carry flag, make of the numbers.

- `Wide`: the low word `a` and the high word `b`; `toInt` reads it in two's complement.
- `Quad`: four words, the lowest first.
- Each operation has one lemma: what it does to `toNat` or `toInt`.
- `Doubles`: the loop that doubles a number until its top bit is set.
-/

namespace LinuxKernel

open Carry

/-! ### Two words -/

@[ext]
structure Wide where
  a : BitVec 32
  b : BitVec 32
  deriving DecidableEq, Repr

namespace Wide

def toNat (x : Wide) : Nat := x.b.toNat * 2 ^ 32 + x.a.toNat

def ofNat (n : Nat) : Wide := ⟨BitVec.ofNat 32 n, BitVec.ofNat 32 (n / 2 ^ 32)⟩

/-- The high word is negative. -/
def isNeg (x : Wide) : Bool := x.b.msb

/-- `addl ; adcl` -/
def add (x y : Wide) : Wide :=
  let r := adc x.a y.a false
  ⟨r.1, (adc x.b y.b r.2).1⟩

/-- `addl %0,%0 ; adcl %1,%1` -/
def double (x : Wide) : Wide := add x x

/-- `notl ; notl ; addl $1 ; adcl $0` -/
def neg (x : Wide) : Wide := add ⟨~~~ x.a, ~~~ x.b⟩ ⟨1, 0⟩

/-- `shrdl %n,%hi,%lo` -/
def shrd (n : Nat) (hi lo : BitVec 32) : BitVec 32 :=
  BitVec.ofNat 32 ((hi.toNat * 2 ^ 32 + lo.toNat) / 2 ^ n)

/-- `shrdl ; shrl` -/
def shr (n : Nat) (x : Wide) : Wide := ⟨shrd n x.b x.a, x.b >>> n⟩

/-- `mull` -/
def mull (x y : BitVec 32) : Wide := ofNat (x.toNat * y.toNat)

variable {x y : Wide} {n : Nat}

theorem toNat_lt (x : Wide) : x.toNat < 2 ^ 64 := by
  have ha := x.a.isLt
  have hb := x.b.isLt
  unfold toNat
  omega

theorem eq_of_toNat (h : x.toNat = y.toNat) : x = y := by
  have ha := x.a.isLt
  have ha' := y.a.isLt
  unfold toNat at h
  refine Wide.ext (BitVec.eq_of_toNat_eq ?_) (BitVec.eq_of_toNat_eq ?_)
  · omega
  · omega

theorem toNat_eq_zero : x.toNat = 0 ↔ x.a = 0 ∧ x.b = 0 := by
  refine ⟨fun h => ?_, fun h => ?_⟩
  · unfold toNat at h
    exact ⟨BitVec.eq_of_toNat_eq (show x.a.toNat = 0 by omega),
      BitVec.eq_of_toNat_eq (show x.b.toNat = 0 by omega)⟩
  · unfold toNat
    rw [h.1, h.2]
    rfl

theorem ofNat_toNat (h : n < 2 ^ 64) : (ofNat n).toNat = n := by
  unfold ofNat toNat
  dsimp only
  rw [BitVec.toNat_ofNat, BitVec.toNat_ofNat]
  omega

theorem mull_toNat (x y : BitVec 32) : (mull x y).toNat = x.toNat * y.toNat := by
  refine ofNat_toNat ?_
  rw [show 64 = 32 + 32 from rfl, pow_add]
  exact Nat.mul_lt_mul'' x.isLt y.isLt

theorem isNeg_iff : x.isNeg = true ↔ 2 ^ 63 ≤ x.toNat := by
  have ha := x.a.isLt
  unfold isNeg toNat
  rw [BitVec.msb_eq_decide, decide_eq_true_iff]
  omega

theorem add_toNat (x y : Wide) : (add x y).toNat = (x.toNat + y.toNat) % 2 ^ 64 := by
  have hlow := adc_toNat x.a y.a false
  have hhigh := adc_toNat x.b y.b (adc x.a y.a false).2
  have ha := (adc x.a y.a false).1.isLt
  have hb := (adc x.b y.b (adc x.a y.a false).2).1.isLt
  rw [Bool.toNat_false] at hlow
  unfold add toNat
  dsimp only
  omega

theorem add_comm (x y : Wide) : add x y = add y x :=
  eq_of_toNat (by rw [add_toNat, add_toNat, Nat.add_comm])

theorem double_toNat (x : Wide) : (double x).toNat = 2 * x.toNat % 2 ^ 64 := by
  rw [double, add_toNat, Nat.two_mul]

theorem neg_toNat (x : Wide) : (neg x).toNat = (2 ^ 64 - x.toNat) % 2 ^ 64 := by
  have ha := x.a.isLt
  have hb := x.b.isLt
  rw [neg, add_toNat]
  unfold toNat
  dsimp only
  rw [BitVec.toNat_not, BitVec.toNat_not, show (1 : BitVec 32).toNat = 1 from rfl,
    show (0 : BitVec 32).toNat = 0 from rfl]
  congr 1
  omega

theorem shr_toNat (hn : n ≤ 32) (x : Wide) : (shr n x).toNat = x.toNat / 2 ^ n := by
  have ha := x.a.isLt
  have hb := x.b.isLt
  obtain ⟨k, hk⟩ := Nat.exists_eq_add_of_le hn
  have hpow : (2 : Nat) ^ 32 = 2 ^ n * 2 ^ k := by rw [hk, pow_add]
  have hpos : 0 < 2 ^ n := Nat.two_pow_pos n
  unfold shr toNat shrd
  dsimp only
  rw [BitVec.toNat_ofNat, BitVec.toNat_ushiftRight, Nat.shiftRight_eq_div_pow]
  -- the high word moves down by whole words
  have hhigh : (x.b.toNat * 2 ^ 32 + x.a.toNat) / 2 ^ n / 2 ^ 32 = x.b.toNat / 2 ^ n := by
    rw [Nat.div_div_eq_div_mul, Nat.mul_comm (2 ^ n), ← Nat.div_div_eq_div_mul]
    congr 1
    omega
  rw [← hhigh]
  omega

/-! ### Two's complement -/

def toInt (x : Wide) : Int := if x.isNeg then (x.toNat : Int) - 2 ^ 64 else x.toNat

theorem toInt_of_lt (h : x.toNat < 2 ^ 63) : x.toInt = x.toNat := by
  unfold toInt
  rw [if_neg]
  intro hneg
  have := isNeg_iff.mp hneg
  omega

theorem toInt_of_le (h : 2 ^ 63 ≤ x.toNat) : x.toInt = (x.toNat : Int) - 2 ^ 64 := by
  unfold toInt
  rw [if_pos (isNeg_iff.mpr h)]

theorem toInt_eq_zero : x.toInt = 0 ↔ x.toNat = 0 := by
  have hlt := x.toNat_lt
  by_cases h : 2 ^ 63 ≤ x.toNat
  · rw [toInt_of_le h]
    omega
  · rw [toInt_of_lt (by omega)]
    omega

/-- A sum that fits. -/
theorem add_toInt (hmin : -2 ^ 63 ≤ x.toInt + y.toInt) (hmax : x.toInt + y.toInt < 2 ^ 63) :
    (add x y).toInt = x.toInt + y.toInt := by
  have hx := x.toNat_lt
  have hy := y.toNat_lt
  have hsum := add_toNat x y
  rcases Nat.lt_or_ge x.toNat (2 ^ 63) with hx' | hx'
  · rw [toInt_of_lt hx'] at *
    rcases Nat.lt_or_ge y.toNat (2 ^ 63) with hy' | hy'
    · rw [toInt_of_lt hy'] at *
      rw [toInt_of_lt (by omega)]
      omega
    · rw [toInt_of_le hy'] at *
      rcases Nat.lt_or_ge (add x y).toNat (2 ^ 63) with hr | hr
      · rw [toInt_of_lt hr]
        omega
      · rw [toInt_of_le hr]
        omega
  · rw [toInt_of_le hx'] at *
    rcases Nat.lt_or_ge y.toNat (2 ^ 63) with hy' | hy'
    · rw [toInt_of_lt hy'] at *
      rcases Nat.lt_or_ge (add x y).toNat (2 ^ 63) with hr | hr
      · rw [toInt_of_lt hr]
        omega
      · rw [toInt_of_le hr]
        omega
    · rw [toInt_of_le hy'] at *
      rw [toInt_of_le (by omega)]
      omega

theorem neg_toInt (h : x.toNat < 2 ^ 63) : (neg x).toInt = -x.toNat := by
  have hneg := neg_toNat x
  rcases Nat.eq_zero_or_pos x.toNat with h0 | h0
  · rw [toInt_of_lt (by omega)]
    omega
  · rw [toInt_of_le (by omega)]
    omega

end Wide

/-! ### Four words -/

@[ext]
structure Quad where
  c0 : BitVec 32
  c1 : BitVec 32
  c2 : BitVec 32
  c3 : BitVec 32
  deriving DecidableEq, Repr

namespace Quad

def low (c : Quad) : Wide := ⟨c.c0, c.c1⟩

def high (c : Quad) : Wide := ⟨c.c2, c.c3⟩

def toNat (c : Quad) : Nat := c.high.toNat * 2 ^ 64 + c.low.toNat

def zero : Quad := ⟨0, 0, 0, 0⟩

/-- `c[3] < 0` -/
def isNeg (c : Quad) : Bool := c.c3.msb

/-- `c[0] || c[1] || c[2] || c[3]` -/
def isSet (c : Quad) : Bool := c != zero

/-- `addl ; adcl ; adcl ; adcl` of the number to itself -/
def double (c : Quad) : Quad :=
  let r0 := adc c.c0 c.c0 false
  let r1 := adc c.c1 c.c1 r0.2
  let r2 := adc c.c2 c.c2 r1.2
  ⟨r0.1, r1.1, r2.1, (adc c.c3 c.c3 r2.2).1⟩

/-- `rcrl $1`, and `shrl $1` where the flag is clear -/
def rcr (x : BitVec 32) (cf : Bool) : BitVec 32 × Bool :=
  (BitVec.ofNat 32 (cf.toNat * 2 ^ 31 + x.toNat / 2), decide (x.toNat % 2 = 1))

/-- `shrl ; rcrl ; rcrl ; rcrl` -/
def half (c : Quad) : Quad :=
  let r3 := rcr c.c3 false
  let r2 := rcr c.c2 r3.2
  let r1 := rcr c.c1 r2.2
  ⟨(rcr c.c0 r1.2).1, r1.1, r2.1, r3.1⟩

/-- `subl ; sbbl ; sbbl ; sbbl`: what is left, and the flag. -/
def sub (c d : Quad) : Quad × Bool :=
  let r0 := sbb c.c0 d.c0 false
  let r1 := sbb c.c1 d.c1 r0.2
  let r2 := sbb c.c2 d.c2 r1.2
  let r3 := sbb c.c3 d.c3 r2.2
  (⟨r0.1, r1.1, r2.1, r3.1⟩, r3.2)

/-- `addl` to the second word, `adcl` to the third and `adcl $0` to the last. -/
def addMid (c : Quad) (p : Wide) : Quad :=
  let r1 := adc c.c1 p.a false
  let r2 := adc c.c2 p.b r1.2
  ⟨c.c0, r1.1, r2.1, (adc c.c3 0 r2.2).1⟩

/-- `c[i] |= mask` -/
def orAt (i : Nat) (mask : BitVec 32) (c : Quad) : Quad :=
  match i with
  | 0 => { c with c0 := c.c0 ||| mask }
  | 1 => { c with c1 := c.c1 ||| mask }
  | 2 => { c with c2 := c.c2 ||| mask }
  | _ => { c with c3 := c.c3 ||| mask }

variable {c d : Quad} {n : Nat}

theorem toNat_eq (c : Quad) :
    c.toNat = c.c3.toNat * 2 ^ 96 + c.c2.toNat * 2 ^ 64 + c.c1.toNat * 2 ^ 32 + c.c0.toNat := by
  unfold toNat high low Wide.toNat
  dsimp only
  omega

theorem zero_toNat : zero.toNat = 0 := by
  rw [toNat_eq]
  unfold zero
  rw [show (0 : BitVec 32).toNat = 0 from rfl]
  omega

theorem eq_of_toNat (h : c.toNat = d.toNat) : c = d := by
  have hlow := c.low.toNat_lt
  have hlow' := d.low.toNat_lt
  unfold toNat at h
  have hl := Wide.eq_of_toNat (x := c.low) (y := d.low) (by omega)
  have hh := Wide.eq_of_toNat (x := c.high) (y := d.high) (by omega)
  exact Quad.ext (congrArg Wide.a hl) (congrArg Wide.b hl) (congrArg Wide.a hh)
    (congrArg Wide.b hh)

theorem isSet_iff : c.isSet = true ↔ c.toNat ≠ 0 := by
  unfold isSet
  rw [bne_iff_ne, not_iff_not]
  refine ⟨fun h => by rw [h]; rfl, fun h => ?_⟩
  rw [toNat_eq] at h
  exact Quad.ext (BitVec.eq_of_toNat_eq (show c.c0.toNat = 0 by omega))
    (BitVec.eq_of_toNat_eq (show c.c1.toNat = 0 by omega))
    (BitVec.eq_of_toNat_eq (show c.c2.toNat = 0 by omega))
    (BitVec.eq_of_toNat_eq (show c.c3.toNat = 0 by omega))

theorem high_toNat (c : Quad) : c.high.toNat = c.toNat / 2 ^ 64 := by
  have h := c.low.toNat_lt
  unfold toNat
  omega

theorem low_toNat (c : Quad) : c.low.toNat = c.toNat % 2 ^ 64 := by
  have h := c.low.toNat_lt
  unfold toNat
  omega

theorem toNat_lt (c : Quad) : c.toNat < 2 ^ 128 := by
  have hlow := c.low.toNat_lt
  have hhigh := c.high.toNat_lt
  unfold toNat
  omega

theorem isNeg_iff : c.isNeg = true ↔ 2 ^ 127 ≤ c.toNat := by
  have h := Wide.isNeg_iff (x := c.high)
  have hlow := c.low.toNat_lt
  unfold toNat
  unfold Wide.isNeg at h
  unfold isNeg
  rw [show c.c3 = c.high.b from rfl, h]
  omega

theorem double_toNat (c : Quad) : c.double.toNat = 2 * c.toNat % 2 ^ 128 := by
  have h0 := adc_toNat c.c0 c.c0 false
  have h1 := adc_toNat c.c1 c.c1 (adc c.c0 c.c0 false).2
  have h2 := adc_toNat c.c2 c.c2 (adc c.c1 c.c1 (adc c.c0 c.c0 false).2).2
  have h3 := adc_toNat c.c3 c.c3 (adc c.c2 c.c2 (adc c.c1 c.c1 (adc c.c0 c.c0 false).2).2).2
  have hlt := c.double.toNat_lt
  rw [toNat_eq] at *
  rw [toNat_eq]
  rw [Bool.toNat_false] at h0
  unfold double at *
  dsimp only at *
  omega

theorem rcr_toNat (x : BitVec 32) (cf : Bool) :
    2 * (rcr x cf).1.toNat + (rcr x cf).2.toNat = cf.toNat * 2 ^ 32 + x.toNat := by
  have hx := x.isLt
  have hcf := toNat_le_one cf
  unfold rcr
  rw [BitVec.toNat_ofNat, Nat.mod_eq_of_lt (by omega)]
  by_cases h : x.toNat % 2 = 1
  · rw [decide_eq_true h, Bool.toNat_true]
    omega
  · rw [decide_eq_false h, Bool.toNat_false]
    omega

theorem half_toNat (c : Quad) : c.half.toNat = c.toNat / 2 := by
  have h3 := rcr_toNat c.c3 false
  have h2 := rcr_toNat c.c2 (rcr c.c3 false).2
  have h1 := rcr_toNat c.c1 (rcr c.c2 (rcr c.c3 false).2).2
  have h0 := rcr_toNat c.c0 (rcr c.c1 (rcr c.c2 (rcr c.c3 false).2).2).2
  have hlast := toNat_le_one (rcr c.c0 (rcr c.c1 (rcr c.c2 (rcr c.c3 false).2).2).2).2
  rw [Bool.toNat_false] at h3
  rw [toNat_eq, toNat_eq]
  unfold half
  dsimp only
  omega

theorem sub_toNat (c d : Quad) :
    (c.sub d).1.toNat + d.toNat = c.toNat + 2 ^ 128 * (c.sub d).2.toNat := by
  have h0 := sbb_toNat c.c0 d.c0 false
  have h1 := sbb_toNat c.c1 d.c1 (sbb c.c0 d.c0 false).2
  have h2 := sbb_toNat c.c2 d.c2 (sbb c.c1 d.c1 (sbb c.c0 d.c0 false).2).2
  have h3 := sbb_toNat c.c3 d.c3 (sbb c.c2 d.c2 (sbb c.c1 d.c1 (sbb c.c0 d.c0 false).2).2).2
  rw [Bool.toNat_false] at h0
  rw [toNat_eq, toNat_eq, toNat_eq]
  unfold sub
  dsimp only
  omega

/-- The flag tells which number is larger. -/
theorem sub_spec (c d : Quad) :
    (c.sub d).2 = decide (c.toNat < d.toNat) ∧
      (d.toNat ≤ c.toNat → (c.sub d).1.toNat = c.toNat - d.toNat) := by
  have h := sub_toNat c d
  have hr := (c.sub d).1.toNat_lt
  have hc := c.toNat_lt
  have hd := d.toNat_lt
  cases hcf : (c.sub d).2 with
  | false =>
      rw [hcf, Bool.toNat_false] at h
      exact ⟨(decide_eq_false (by omega)).symm, fun _ => by omega⟩
  | true =>
      rw [hcf, Bool.toNat_true] at h
      exact ⟨(decide_eq_true (by omega)).symm, fun _ => by omega⟩

theorem addMid_toNat (c : Quad) (p : Wide) :
    (c.addMid p).toNat = (c.toNat + p.toNat * 2 ^ 32) % 2 ^ 128 := by
  have h1 := adc_toNat c.c1 p.a false
  have h2 := adc_toNat c.c2 p.b (adc c.c1 p.a false).2
  have h3 := adc_toNat c.c3 0 (adc c.c2 p.b (adc c.c1 p.a false).2).2
  have hlt := (c.addMid p).toNat_lt
  rw [Bool.toNat_false] at h1
  rw [show (0 : BitVec 32).toNat = 0 from BitVec.toNat_zero] at h3
  rw [toNat_eq] at *
  rw [toNat_eq]
  unfold addMid Wide.toNat at *
  dsimp only at *
  omega

/-- A bit below everything that is set. -/
theorem or_toNat {x mask : BitVec 32} (hmask : mask.toNat = 2 ^ n) (h : 2 ^ (n + 1) ∣ x.toNat) :
    (x ||| mask).toNat = x.toNat + 2 ^ n := by
  obtain ⟨k, hk⟩ := h
  have hlt : 2 ^ n < 2 ^ (n + 1) := Nat.pow_lt_pow_right (by decide) (by omega)
  rw [BitVec.toNat_or, hmask, hk, Nat.two_pow_add_eq_or_of_lt hlt]

theorem orAt_toNat {i : Nat} {mask : BitVec 32} (hi : i < 4) (hn : n < 32)
    (hmask : mask.toNat = 2 ^ n) (h : 2 ^ (32 * i + n + 1) ∣ c.toNat) :
    (c.orAt i mask).toNat = c.toNat + 2 ^ (32 * i + n) := by
  have h0 := c.c0.isLt
  have h1 := c.c1.isLt
  have h2 := c.c2.isLt
  have h3 := c.c3.isLt
  -- the bits of word `i` above the new one are bits of the number
  have hshift : 2 ^ (n + 1) ∣ c.toNat / 2 ^ (32 * i) := by
    refine Nat.dvd_div_of_mul_dvd ?_
    rwa [← pow_add, ← Nat.add_assoc]
  have hword : ∀ {x u : Nat}, c.toNat / 2 ^ (32 * i) = x + 2 ^ 32 * u → 2 ^ (n + 1) ∣ x := by
    intro x u hxu
    rw [hxu] at hshift
    exact (Nat.dvd_add_left ((pow_dvd_pow 2 (by omega)).mul_right u)).mp hshift
  have hpow : 2 ^ (32 * i + n) = 2 ^ (32 * i) * 2 ^ n := pow_add ..
  rw [hpow]
  rw [toNat_eq] at hword
  match i with
  | 0 =>
      have hor := or_toNat hmask (hword (x := c.c0.toNat)
        (u := c.c3.toNat * 2 ^ 64 + c.c2.toNat * 2 ^ 32 + c.c1.toNat) (by omega))
      rw [show c.orAt 0 mask = ⟨c.c0 ||| mask, c.c1, c.c2, c.c3⟩ from rfl, toNat_eq, toNat_eq]
      dsimp only
      omega
  | 1 =>
      have hor := or_toNat hmask (hword (x := c.c1.toNat)
        (u := c.c3.toNat * 2 ^ 32 + c.c2.toNat) (by omega))
      rw [show c.orAt 1 mask = ⟨c.c0, c.c1 ||| mask, c.c2, c.c3⟩ from rfl, toNat_eq, toNat_eq]
      dsimp only
      omega
  | 2 =>
      have hor := or_toNat hmask (hword (x := c.c2.toNat) (u := c.c3.toNat) (by omega))
      rw [show c.orAt 2 mask = ⟨c.c0, c.c1, c.c2 ||| mask, c.c3⟩ from rfl, toNat_eq, toNat_eq]
      dsimp only
      omega
  | 3 =>
      have hor := or_toNat hmask (hword (x := c.c3.toNat) (u := 0) (by omega))
      rw [show c.orAt 3 mask = ⟨c.c0, c.c1, c.c2, c.c3 ||| mask⟩ from rfl, toNat_eq, toNat_eq]
      dsimp only
      omega

end Quad

/-! ### Doubling until the top bit is set -/

section Raise

variable {α : Type*}

/-- `while (i && !top) { i--; double }` -/
def raise (top : α → Bool) (double : α → α) : Nat → α → Nat × α
  | 0, x => (0, x)
  | i + 1, x => if top x then (i + 1, x) else raise top double i (double x)

/-- `top` tells whether the highest of `w + 1` bits is set, `double` doubles. -/
structure Doubles (val : α → Nat) (top : α → Bool) (double : α → α) (w : Nat) : Prop where
  lt : ∀ x, val x < 2 ^ (w + 1)
  top_iff : ∀ x, top x = true ↔ 2 ^ w ≤ val x
  val_double : ∀ x, val (double x) = 2 * val x % 2 ^ (w + 1)

variable {val : α → Nat} {top : α → Bool} {double : α → α} {w i : Nat} {x : α}

/-- The loop doubles `k` times, no more than it takes; it ends by `i` only if it has to. -/
theorem Doubles.raise_spec (h : Doubles val top double w) (i : Nat) (x : α) :
    ∃ k ≤ i, raise top double i x = (i - k, double^[k] x) ∧
      val (double^[k] x) = val x * 2 ^ k ∧ (k < i → 2 ^ w ≤ val x * 2 ^ k) ∧
      (0 < k → val x * 2 ^ (k - 1) < 2 ^ w) := by
  induction i generalizing x with
  | zero => exact ⟨0, le_refl _, rfl, (Nat.mul_one _).symm, fun h => absurd h (by decide),
      fun h => absurd h (by decide)⟩
  | succ i ih =>
      unfold raise
      cases htop : top x with
      | true =>
          have hx := (h.top_iff x).mp htop
          refine ⟨0, Nat.zero_le _, by rw [if_pos rfl, Nat.sub_zero]; rfl, (Nat.mul_one _).symm,
            fun _ => by rwa [pow_zero, Nat.mul_one], fun h => absurd h (by decide)⟩
      | false =>
          have hx : val x < 2 ^ w := by
            refine Nat.lt_of_not_le fun hle => ?_
            rw [(h.top_iff x).mpr hle] at htop
            exact absurd htop (by decide)
          have hval : val (double x) = val x * 2 := by
            rw [h.val_double, Nat.mod_eq_of_lt (by rw [pow_succ]; omega), Nat.mul_comm]
          obtain ⟨k, hk, hrun, hvalk, htopk, hmin⟩ := ih (double x)
          have hpow : val x * 2 ^ (k + 1) = val (double x) * 2 ^ k := by
            rw [hval, pow_succ, Nat.mul_assoc, Nat.mul_comm 2]
          refine ⟨k + 1, by omega, ?_, ?_, ?_, ?_⟩
          · rw [if_neg Bool.false_ne_true, hrun, Nat.add_sub_add_right, Function.iterate_succ_apply]
          · rw [Function.iterate_succ_apply, hvalk, hpow]
          · intro hlt
            rw [hpow]
            exact htopk (by omega)
          · intro _
            rw [Nat.add_sub_cancel]
            cases k with
            | zero => rwa [pow_zero, Nat.mul_one]
            | succ k =>
                have hmink := hmin (by omega)
                rw [Nat.add_sub_cancel, hval] at hmink
                rwa [pow_succ, ← Nat.mul_assoc, Nat.mul_right_comm]

/-- With turns enough the top bit is set at the end. -/
theorem Doubles.raise_top (h : Doubles val top double w) (hi : 2 ^ w ≤ val x * 2 ^ i) :
    ∃ k ≤ i, raise top double i x = (i - k, double^[k] x) ∧
      val (double^[k] x) = val x * 2 ^ k ∧ 2 ^ w ≤ val x * 2 ^ k ∧ val x * 2 ^ k < 2 ^ (w + 1) := by
  obtain ⟨k, hk, hrun, hval, htop, _⟩ := h.raise_spec i x
  have hlt := h.lt (double^[k] x)
  refine ⟨k, hk, hrun, hval, ?_, hval ▸ hlt⟩
  rcases Nat.lt_or_eq_of_le hk with hk | rfl
  · exact htop hk
  · exact hi

end Raise

theorem Quad.doubles : Doubles Quad.toNat Quad.isNeg Quad.double 127 where
  lt := Quad.toNat_lt
  top_iff _ := Quad.isNeg_iff
  val_double := Quad.double_toNat

end LinuxKernel
