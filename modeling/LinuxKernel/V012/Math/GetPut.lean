import LinuxKernel.V012.Math.Convert

/-!
# LinuxKernel.V012.Math.GetPut

**Integers and packed decimals in user memory**, `kernel/math/get_put.c`.

- A load takes the bits at the address, a store returns the bits it puts there, after the status
  word where the conversion may touch it.
- A packed decimal has two digits a byte, the lowest byte first, and the sign in the tenth byte.
- `put_get` is the round trip of the integer in between; the decimal digits follow by dividing what
  was multiplied.
-/

namespace LinuxKernel.V012.Math

open TempReal

/-! ### Integers -/

/-- `if (ti.sign = (ti.a < 0)) ti.a = - ti.a;` -/
def absWord (a : BitVec 32) : TempInt :=
  { toWide := ⟨if a.msb then -a else a, 0⟩, sign := a.msb }

def getShortInt (w : BitVec 16) : TempReal := intToReal (absWord (w.signExtend 32))

def getLongInt (w : BitVec 32) : TempReal := intToReal (absWord w)

def getLonglongInt (w : Wide) : TempReal :=
  intToReal { toWide := if w.isNeg then w.neg else w, sign := w.isNeg }

/-- `if (ti.sign) ti.a = -ti.a;` -/
def signedWord (ti : TempInt) : BitVec 32 := if ti.sign then -ti.a else ti.a

def putShortInt (mode : Rounding) (swd : BitVec 32) (tmp : TempReal) : BitVec 32 × BitVec 16 :=
  let r := realToInt mode swd tmp
  (r.1, (signedWord r.2).setWidth 16)

def putLongInt (mode : Rounding) (swd : BitVec 32) (tmp : TempReal) : BitVec 32 × BitVec 32 :=
  let r := realToInt mode swd tmp
  (r.1, signedWord r.2)

def putLonglongInt (mode : Rounding) (swd : BitVec 32) (tmp : TempReal) : BitVec 32 × Wide :=
  let r := realToInt mode swd tmp
  (r.1, if r.2.sign then r.2.toWide.neg else r.2.toWide)

/-! ### Packed decimals -/

/-- `MUL10` -/
def mul10 (x : Wide) : Wide :=
  let y := x.double
  y.double.double.add y

/-- `ADD64` -/
def add64 (val : BitVec 32) (x : Wide) : Wide := x.add ⟨val, 0⟩

/-- One turn of `get_BCD`: the two digits of `c` behind the ones that are there. -/
def pushDigits (i : Wide) (c : BitVec 8) : Wide :=
  add64 ((c &&& 0xf).setWidth 32) (mul10 (add64 ((c >>> 4).setWidth 32) (mul10 i)))

/-- The digits after `k` turns, from the byte before the sign down. -/
def getDigits (p : Nat → BitVec 8) : Nat → Wide
  | 0 => ⟨0, 0⟩
  | k + 1 => pushDigits (getDigits p k) (p (8 - k))

/-- `p n` is the byte at `addr + n`. -/
def getBCD (p : Nat → BitVec 8) : TempReal :=
  intToReal { toWide := getDigits p 9, sign := decide (0x80 &&& p 9 ≠ 0) }

/-- `divl`: the quotient and the remainder of `edx:eax`. -/
def divl (edx eax d : BitVec 32) : BitVec 32 × BitVec 32 :=
  let n := edx.toNat * 2 ^ 32 + eax.toNat
  (BitVec.ofNat 32 (n / d.toNat), BitVec.ofNat 32 (n % d.toNat))

/-- `DIV10`: the number and `rem`. -/
def div10 (x : Wide) : Wide × BitVec 32 :=
  let hi := divl 0 x.b 10
  let lo := divl hi.2 x.a 10
  (⟨lo.1, hi.1⟩, lo.2)

/-- One turn of `put_BCD`. -/
def popDigits (i : Wide) : Wide × BitVec 8 :=
  let r0 := div10 i
  let r1 := div10 r0.1
  (r1.1, r0.2.setWidth 8 + (r1.2 <<< 4).setWidth 8)

/-- What is left after `k` turns. -/
def leftDigits (i : Wide) : Nat → Wide
  | 0 => i
  | k + 1 => (popDigits (leftDigits i k)).1

/-- The bytes behind the address, as far as they are put. -/
def putBCD (mode : Rounding) (swd : BitVec 32) (tmp : TempReal) (p : Nat → BitVec 8) :
    BitVec 32 × (Nat → BitVec 8) :=
  let r := realToInt mode swd tmp
  (r.1, fun n =>
    if n < 9 then (popDigits (leftDigits r.2.toWide n)).2
    else if n = 9 then if r.2.sign then 0x80 else 0
    else p n)

/-! ### The integer in between -/

variable {ti : TempInt} {mode : Rounding} {swd : BitVec 32}

theorem intToReal_reads (ti : TempInt) : (intToReal ti).Reads ti.number 16446 := by
  have hzero : ti.a ≠ 0 ∨ ti.b ≠ 0 ↔ ti.toWide.toNat ≠ 0 := by
    rw [ne_eq, ne_eq, ne_eq, ← not_and_or, ← Wide.toNat_eq_zero]
  unfold intToReal
  by_cases h : ti.toWide.toNat = 0
  · have hnumber : ti.number = 0 := by
      unfold TempInt.number
      rw [h, Nat.cast_zero, neg_zero, ite_self]
    rw [if_neg (fun h' => hzero.mp h' h), hnumber]
    exact ⟨fun _ => ⟨Wide.toNat_eq_zero.mpr ⟨rfl, rfl⟩, rfl⟩, fun h => absurd rfl h,
      fun h => absurd rfl h⟩
  · have hexp : (16383 + 63 + if ti.sign then 0x8000 else 0 : BitVec 16) =
        Exponent.make ti.sign 16446 := by
      cases ti.sign <;> decide
    rw [if_pos (hzero.mpr h), hexp]
    exact normal_of_reads (Nat.pos_of_ne_zero h) (by decide) (by decide)

/-- An integer comes back as sign and magnitude. -/
theorem realToInt_of_reads (mode : Rounding) (swd : BitVec 32) {x : TempReal} {n : ℤ}
    (h : x.Reads n 16446) (hn : n.natAbs < 2 ^ 64 - 1) :
    (realToInt mode swd x).1 = swd ∧ (realToInt mode swd x).2.sign = decide (n < 0) ∧
      (realToInt mode swd x).2.toWide.toNat = n.natAbs := by
  by_cases h0 : n = 0
  · obtain ⟨hm, hexp⟩ := h.zero h0
    have he : x.exp = 0 := by
      unfold exp
      rw [hexp]
      rfl
    have hneg : x.negative = false := by
      unfold negative
      rw [hexp]
      rfl
    obtain ⟨h1, h2, h3⟩ := realToInt_eq mode swd (x := x) 16446 (by rw [he])
      (.inl (by decide))
    refine ⟨h1, by rw [h2, hneg, h0]; rfl, ?_⟩
    rw [h3, hm, Nat.zero_div, Nat.zero_mul, Nat.zero_div, Nat.zero_mod (2 ^ 32), roundsUp_zero, h0]
    rfl
  · obtain ⟨k, hk, he, hm, _⟩ := h.scale h0
    have hpow : 0 < 2 ^ k := Nat.two_pow_pos k
    obtain ⟨h1, h2, h3⟩ := realToInt_eq mode swd (x := x) _ he
      (by
        rcases Nat.eq_zero_or_pos k with rfl | hk
        · rw [hm, pow_zero, Nat.mul_one]
          exact .inr hn
        · exact .inl hk)
    refine ⟨h1, h2.trans (h.sign h0), ?_⟩
    rw [h3, hm, Nat.mul_div_cancel _ hpow, Nat.mul_right_comm, Nat.mul_div_cancel _ hpow,
      Nat.mul_mod_left, roundsUp_zero, Bool.toNat_false, Nat.add_zero]

/-- Loading and storing in any mode gives the number back; a zero loses its sign. -/
theorem put_get (mode : Rounding) (swd : BitVec 32) (ti : TempInt)
    (h : ti.toWide.toNat < 2 ^ 64 - 1) :
    (realToInt mode swd (intToReal ti)).1 = swd ∧
      (realToInt mode swd (intToReal ti)).2.toWide = ti.toWide ∧
      (realToInt mode swd (intToReal ti)).2.sign = (ti.sign && decide (ti.toWide.toNat ≠ 0)) := by
  have habs : ti.number.natAbs = ti.toWide.toNat := by
    unfold TempInt.number
    split
    · rw [Int.natAbs_neg, Int.natAbs_natCast]
    · rw [Int.natAbs_natCast]
  have hneg : decide (ti.number < 0) = (ti.sign && decide (ti.toWide.toNat ≠ 0)) := by
    unfold TempInt.number
    cases ti.sign with
    | false =>
        rw [if_neg Bool.false_ne_true, Bool.false_and]
        exact decide_eq_false (by omega)
    | true =>
        rw [if_pos rfl, Bool.true_and, decide_eq_decide]
        omega
  obtain ⟨h1, h2, h3⟩ := realToInt_of_reads mode swd (intToReal_reads ti) (by rwa [habs])
  exact ⟨h1, Wide.eq_of_toNat (h3.trans habs), h2.trans hneg⟩

/-! ### Round trips -/

theorem signedWord_absWord (mode : Rounding) (swd w : BitVec 32) :
    (realToInt mode swd (intToReal (absWord w))).1 = swd ∧
      signedWord (realToInt mode swd (intToReal (absWord w))).2 = w := by
  have hlt : (absWord w).toWide.toNat < 2 ^ 64 - 1 := by
    have h := (absWord w).a.isLt
    unfold Wide.toNat
    rw [show (absWord w).b.toNat = 0 from rfl]
    omega
  obtain ⟨h1, h2, h3⟩ := put_get mode swd (absWord w) hlt
  refine ⟨h1, ?_⟩
  have hne : w.msb = true → decide ((absWord w).toWide.toNat ≠ 0) = true := by
    intro hneg
    rw [decide_eq_true_iff, ne_eq, Wide.toNat_eq_zero]
    rintro ⟨h0, _⟩
    rw [show (absWord w).a = -w from if_pos hneg] at h0
    rw [BitVec.neg_eq_zero_iff.mp h0] at hneg
    exact absurd hneg (by decide)
  unfold signedWord
  rw [h3, show (realToInt mode swd (intToReal (absWord w))).2.a = (absWord w).a from
    congrArg Wide.a h2]
  generalize decide ((absWord w).toWide.toNat ≠ 0) = nonzero at hne
  unfold absWord
  dsimp only
  cases hneg : w.msb with
  | true => rw [hne hneg, Bool.and_true, if_pos rfl, if_pos rfl, BitVec.neg_neg]
  | false => rw [Bool.false_and, if_neg Bool.false_ne_true, if_neg Bool.false_ne_true]

theorem put_get_short (mode : Rounding) (swd : BitVec 32) (w : BitVec 16) :
    putShortInt mode swd (getShortInt w) = (swd, w) := by
  obtain ⟨h1, h2⟩ := signedWord_absWord mode swd (w.signExtend 32)
  unfold putShortInt getShortInt
  dsimp only
  rw [h1, h2]
  refine congrArg _ (BitVec.eq_of_getLsbD_eq fun i hi => ?_)
  rw [BitVec.getLsbD_setWidth, BitVec.getLsbD_signExtend, if_pos hi, decide_eq_true hi,
    decide_eq_true (show i < 32 by omega), Bool.true_and, Bool.true_and]

theorem put_get_long (mode : Rounding) (swd w : BitVec 32) :
    putLongInt mode swd (getLongInt w) = (swd, w) := by
  obtain ⟨h1, h2⟩ := signedWord_absWord mode swd w
  unfold putLongInt getLongInt
  dsimp only
  rw [h1, h2]

theorem put_get_longlong (mode : Rounding) (swd : BitVec 32) (w : Wide) :
    putLonglongInt mode swd (getLonglongInt w) = (swd, w) := by
  have hw := w.toNat_lt
  have hneg := Wide.neg_toNat w
  have habs : (if w.isNeg then w.neg else w).toNat ≤ 2 ^ 63 := by
    by_cases h : w.isNeg = true
    · have hle := Wide.isNeg_iff.mp h
      rw [if_pos h, hneg]
      omega
    · rw [if_neg h]
      exact Nat.le_of_not_lt fun hlt => h (Wide.isNeg_iff.mpr (Nat.le_of_lt hlt))
  obtain ⟨h1, h2, h3⟩ := put_get mode swd
    { toWide := if w.isNeg then w.neg else w, sign := w.isNeg } (by dsimp only; omega)
  unfold putLonglongInt getLonglongInt
  dsimp only at h1 h2 h3 ⊢
  rw [h1, h2, h3]
  by_cases h : w.isNeg = true
  · have hle := Wide.isNeg_iff.mp h
    have hnegneg := Wide.neg_toNat w.neg
    rw [if_pos h, h, decide_eq_true (by omega), Bool.and_true, if_pos rfl]
    exact congrArg _ (Wide.eq_of_toNat (by omega))
  · rw [if_neg h, eq_false_of_ne_true h, Bool.false_and, if_neg Bool.false_ne_true]

/-! ### Digits -/

theorem mul10_toNat {x : Wide} (h : 10 * x.toNat < 2 ^ 64) : (mul10 x).toNat = 10 * x.toNat := by
  unfold mul10
  dsimp only
  rw [Wide.add_toNat, Wide.double_toNat, Wide.double_toNat, Wide.double_toNat]
  omega

theorem add64_toNat {x : Wide} (val : BitVec 32) (h : x.toNat + val.toNat < 2 ^ 64) :
    (add64 val x).toNat = x.toNat + val.toNat := by
  unfold add64
  rw [Wide.add_toNat]
  unfold Wide.toNat at *
  dsimp only
  rw [show (0 : BitVec 32).toNat = 0 from rfl]
  omega

/-- The number in a byte of two digits. -/
def digits (c : BitVec 8) : Nat := 10 * (c.toNat / 16) + c.toNat % 16

theorem pushDigits_toNat {i : Wide} {c : BitVec 8} (h : 100 * i.toNat + digits c < 2 ^ 64) :
    (pushDigits i c).toNat = 100 * i.toNat + digits c := by
  have hc := c.isLt
  have hhi : ((c >>> 4).setWidth 32).toNat = c.toNat / 16 := by
    rw [BitVec.toNat_setWidth, Fields.toNat_shr]
    omega
  have hlo : ((c &&& 0xf).setWidth 32).toNat = c.toNat % 16 := by
    rw [BitVec.toNat_setWidth, Fields.toNat_and (k := 4) rfl]
    omega
  unfold digits at *
  unfold pushDigits
  have h10 := mul10_toNat (x := i) (by omega)
  have hadd := add64_toNat (x := mul10 i) ((c >>> 4).setWidth 32) (by omega)
  have h10' := mul10_toNat (x := add64 ((c >>> 4).setWidth 32) (mul10 i)) (by omega)
  rw [add64_toNat _ (by omega)]
  omega

/-- Without an overflow `divl` divides. -/
theorem divl_spec (edx eax d : BitVec 32) (h : edx.toNat < d.toNat) :
    (divl edx eax d).1.toNat = (edx.toNat * 2 ^ 32 + eax.toNat) / d.toNat ∧
      (divl edx eax d).2.toNat = (edx.toNat * 2 ^ 32 + eax.toNat) % d.toNat := by
  have heax := eax.isLt
  have hd := d.isLt
  have hquot : (edx.toNat * 2 ^ 32 + eax.toNat) / d.toNat < 2 ^ 32 := by
    rw [Nat.div_lt_iff_lt_mul (by omega)]
    calc edx.toNat * 2 ^ 32 + eax.toNat < (edx.toNat + 1) * 2 ^ 32 := by omega
      _ ≤ d.toNat * 2 ^ 32 := Nat.mul_le_mul_right _ h
      _ = 2 ^ 32 * d.toNat := Nat.mul_comm ..
  have hrem : (edx.toNat * 2 ^ 32 + eax.toNat) % d.toNat < d.toNat := Nat.mod_lt _ (by omega)
  unfold divl
  dsimp only
  rw [BitVec.toNat_ofNat, BitVec.toNat_ofNat, Nat.mod_eq_of_lt hquot,
    Nat.mod_eq_of_lt (Nat.lt_trans hrem hd)]
  exact ⟨rfl, rfl⟩

theorem div10_spec (x : Wide) :
    (div10 x).1.toNat = x.toNat / 10 ∧ (div10 x).2.toNat = x.toNat % 10 := by
  have hten : (10 : BitVec 32).toNat = 10 := rfl
  have hzero : (0 : BitVec 32).toNat = 0 := rfl
  obtain ⟨hq, hr⟩ := divl_spec 0 x.b 10 (by decide)
  rw [hten, hzero, Nat.zero_mul, Nat.zero_add] at hq hr
  obtain ⟨hq', hr'⟩ := divl_spec (divl 0 x.b 10).2 x.a 10
    (by rw [hten]; omega)
  rw [hten, hr] at hq' hr'
  unfold div10 Wide.toNat
  dsimp only
  omega

theorem popDigits_spec {x : Wide} {c : BitVec 8} {n : Nat} (hx : x.toNat = 100 * n + digits c)
    (hhi : c.toNat / 16 ≤ 9) (hlo : c.toNat % 16 ≤ 9) :
    (popDigits x).1.toNat = n ∧ (popDigits x).2 = c := by
  have hc := c.isLt
  obtain ⟨hq0, hr0⟩ := div10_spec x
  obtain ⟨hq1, hr1⟩ := div10_spec (div10 x).1
  unfold digits at hx
  unfold popDigits
  dsimp only
  refine ⟨by omega, BitVec.eq_of_toNat_eq ?_⟩
  rw [BitVec.toNat_add, BitVec.toNat_setWidth, BitVec.toNat_setWidth, Fields.toNat_shl, hr0, hr1]
  omega

/-- A packed decimal: two digits in each byte below the sign, and no sign but minus on a number that
is not 0. -/
structure Packed (p : Nat → BitVec 8) : Prop where
  high : ∀ n < 9, (p n).toNat / 16 ≤ 9
  low : ∀ n < 9, (p n).toNat % 16 ≤ 9
  sign : p 9 = 0 ∨ p 9 = 0x80
  zero : p 9 = 0x80 → ∃ n < 9, p n ≠ 0

variable {p : Nat → BitVec 8}

theorem getDigits_spec (h : Packed p) {k : Nat} (hk : k ≤ 9) :
    (getDigits p k).toNat < 100 ^ k ∧
      (k < 9 → (getDigits p (k + 1)).toNat = 100 * (getDigits p k).toNat + digits (p (8 - k))) := by
  have hdigits : ∀ n < 9, digits (p n) < 100 := by
    intro n hn
    have hhi := h.high n hn
    have hlo := h.low n hn
    unfold digits
    omega
  have hstep : ∀ k < 9, (getDigits p k).toNat < 100 ^ k →
      (getDigits p (k + 1)).toNat = 100 * (getDigits p k).toNat + digits (p (8 - k)) := by
    intro k hk hlt
    have hpow : 100 ^ k ≤ 100 ^ 8 := Nat.pow_le_pow_right (by decide) (by omega)
    have hdig := hdigits (8 - k) (by omega)
    exact pushDigits_toNat (by omega)
  have hlt : (getDigits p k).toNat < 100 ^ k := by
    induction k with
    | zero =>
        rw [pow_zero, Wide.toNat_eq_zero.mpr ⟨rfl, rfl⟩]
        exact Nat.one_pos
    | succ k ih =>
        have hlt := ih (by omega)
        have hdig := hdigits (8 - k) (by omega)
        rw [hstep k (by omega) hlt, pow_succ]
        omega
  exact ⟨hlt, fun hk9 => hstep k hk9 hlt⟩

/-- Taking two digits off undoes putting them there. -/
theorem popDigits_getDigits (h : Packed p) {n : Nat} (hn : n < 9) :
    popDigits (getDigits p (9 - n)) = (getDigits p (9 - (n + 1)), p n) := by
  have hpush := (getDigits_spec h (k := 9 - (n + 1)) (by omega)).2 (by omega)
  rw [show 9 - (n + 1) + 1 = 9 - n by omega, show 8 - (9 - (n + 1)) = n by omega] at hpush
  obtain ⟨hleft, hbyte⟩ := popDigits_spec hpush (h.high n hn) (h.low n hn)
  exact Prod.ext (Wide.eq_of_toNat hleft) hbyte

theorem leftDigits_eq (h : Packed p) {n : Nat} (hn : n ≤ 9) :
    leftDigits (getDigits p 9) n = getDigits p (9 - n) := by
  induction n with
  | zero => rfl
  | succ n ih =>
      unfold leftDigits
      rw [ih (by omega), popDigits_getDigits h (by omega)]

/-- A number that is not 0 where a digit is not. -/
theorem getDigits_ne_zero (h : Packed p) {n : Nat} (hn : n < 9) (hne : p n ≠ 0) :
    (getDigits p 9).toNat ≠ 0 := by
  have hzero : ∀ k ≤ 9, (getDigits p 9).toNat = 0 → (getDigits p (9 - k)).toNat = 0 := by
    intro k hk h0
    induction k with
    | zero => exact h0
    | succ k ih =>
        have hpush := (getDigits_spec h (k := 9 - (k + 1)) (by omega)).2 (by omega)
        rw [show 9 - (k + 1) + 1 = 9 - k by omega, ih (by omega)] at hpush
        omega
  intro h0
  have hpush := (getDigits_spec h (k := 9 - (n + 1)) (by omega)).2 (by omega)
  rw [show 9 - (n + 1) + 1 = 9 - n by omega, show 8 - (9 - (n + 1)) = n by omega,
    hzero n (by omega) h0] at hpush
  refine hne (BitVec.eq_of_toNat_eq (show (p n).toNat = 0 from ?_))
  unfold digits at hpush
  omega

theorem put_get_bcd (mode : Rounding) (swd : BitVec 32) (q : Nat → BitVec 8) (h : Packed p) :
    (putBCD mode swd (getBCD p) q).1 = swd ∧
      ∀ n < 10, (putBCD mode swd (getBCD p) q).2 n = p n := by
  have hlt := (getDigits_spec h (k := 9) (by decide)).1
  obtain ⟨h1, h2, h3⟩ := put_get mode swd
    { toWide := getDigits p 9, sign := decide (0x80 &&& p 9 ≠ 0) } (by dsimp only; omega)
  unfold putBCD getBCD
  dsimp only at h1 h2 h3 ⊢
  refine ⟨h1, fun n hn => ?_⟩
  rw [h2, h3]
  by_cases hn9 : n < 9
  · rw [if_pos hn9, leftDigits_eq h (by omega), popDigits_getDigits h hn9]
  · have hn9' : n = 9 := by omega
    subst hn9'
    rw [if_neg hn9, if_pos rfl]
    rcases h.sign with h9 | h9
    · rw [h9, decide_eq_false (by decide), Bool.false_and, if_neg Bool.false_ne_true]
    · obtain ⟨k, hk, hne⟩ := h.zero h9
      rw [decide_eq_true (getDigits_ne_zero h hk hne), h9]
      rfl

/-- Integers of every size and packed decimals come back bit for bit in every mode. -/
theorem put_get_same (mode : Rounding) (swd : BitVec 32) :
    (∀ w : BitVec 16, (putShortInt mode swd (getShortInt w)).2 = w) ∧
    (∀ w : BitVec 32, (putLongInt mode swd (getLongInt w)).2 = w) ∧
    (∀ w : Wide, (putLonglongInt mode swd (getLonglongInt w)).2 = w) ∧
    ∀ p q : Nat → BitVec 8, Packed p → ∀ n < 10, (putBCD mode swd (getBCD p) q).2 n = p n := by
  refine ⟨fun w => ?_, fun w => ?_, fun w => ?_, fun p q h => (put_get_bcd mode swd q h).2⟩
  · rw [put_get_short]
  · rw [put_get_long]
  · rw [put_get_longlong]

/-- -12 -/
theorem put_get_same_dozen :
    ∀ n < 10, (putBCD .down 0 (getBCD fun n => if n = 0 then 0x12 else if n = 9 then 0x80 else 0)
      fun _ => 0).2 n = if n = 0 then 0x12 else if n = 9 then 0x80 else 0 :=
  (put_get_same .down 0).2.2.2 _ _
    { high := by decide, low := by decide, sign := by decide, zero := by decide }

end LinuxKernel.V012.Math
