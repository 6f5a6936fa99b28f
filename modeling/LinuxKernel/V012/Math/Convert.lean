import LinuxKernel.Lib.Fields
import LinuxKernel.V012.Math.Add

/-!
# LinuxKernel.V012.Math.Convert

**Conversions**, `kernel/math/convert.c`: short and long reals and integers to temporary reals and
back.

- A `long_real` has the two words of a `Wide`; a `temp_int` is a magnitude with its sign.
- Stores go by the rounding mode of the control word.
- Each load has a lemma for the significand, the exponent and the sign it makes, each store one for
  the fields it packs.
-/

namespace LinuxKernel.V012.Math

open TempReal

/-! ### The source -/

/-- `ROUNDING` -/
inductive Rounding
  | nearest
  | down
  | up
  | zero
  deriving DecidableEq, Repr

/-- `(I387.cwd >> 10) & 3` -/
def rounding (cwd : BitVec 32) : Rounding :=
  match (cwd.sshiftRight 10 &&& 3).toNat with
  | 0 => .nearest
  | 1 => .down
  | 2 => .up
  | _ => .zero

def shortToTemp (a : BitVec 32) : TempReal :=
  if a &&& 0x7fffffff = 0 then ⟨⟨0, 0⟩, if a ≠ 0 then 0x8000 else 0⟩
  else
    let e := ((a.sshiftRight 23 &&& 0xff) - 127 + 16383).setWidth 16
    let e := if a.msb then e ||| 0x8000 else e
    ⟨⟨0, a <<< 8 ||| 0x80000000⟩, e⟩

def longToTemp (a : Wide) : TempReal :=
  if a.a = 0 ∧ a.b &&& 0x7fffffff = 0 then ⟨⟨0, 0⟩, if a.b ≠ 0 then 0x8000 else 0⟩
  else
    let e := ((a.b.sshiftRight 20 &&& 0x7ff) - 1023 + 16383).setWidth 16
    let e := if a.b.msb then e ||| 0x8000 else e
    ⟨⟨a.a <<< 11, 0x80000000 ||| a.b <<< 11 ||| a.a >>> 21⟩, e⟩

/-- `*b` before the rounding. -/
def shortFields (a : TempReal) : BitVec 32 :=
  let b := (a.exponent.signExtend 32 - 16383 + 127) <<< 23 &&& 0x7f800000
  let b := if a.exponent.msb then b ||| 0x80000000 else b
  b ||| (a.b.sshiftRight 8 &&& 0x007fffff)

/-- Whether `temp_to_short` adds one. -/
def shortRounds (mode : Rounding) (a : TempReal) : Bool :=
  match mode with
  | .nearest => decide (0x80 < (a.b &&& 0xff).toNat)
  | .down => a.exponent.msb && decide (a.b &&& 0xff ≠ 0)
  | .up => !a.exponent.msb && decide (a.b &&& 0xff ≠ 0)
  | .zero => false

def tempToShort (mode : Rounding) (a : TempReal) : BitVec 32 :=
  if a.exponent &&& 0x7fff = 0 then if a.exponent ≠ 0 then 0x80000000 else 0
  else if shortRounds mode a then shortFields a + 1 else shortFields a

/-- `b->a` and `b->b` before the rounding. -/
def longFields (a : TempReal) : Wide :=
  let b := ((0x7fff &&& a.exponent.signExtend 32) - 16383 + 1023) <<< 20 &&& 0x7ff00000
  let b := if a.exponent.msb then b ||| 0x80000000 else b
  ⟨a.b <<< 21 ||| (a.a.sshiftRight 11 &&& 0x001fffff), b ||| (a.b.sshiftRight 11 &&& 0x000fffff)⟩

/-- Whether `temp_to_long` adds one; two of the modes look at the wrong word. -/
def longRounds (mode : Rounding) (a : TempReal) : Bool :=
  match mode with
  | .nearest => decide (0x400 < (a.a &&& 0x7ff).toNat)
  | .down => a.exponent.msb && decide (a.b &&& 0xff ≠ 0)
  | .up => !a.exponent.msb && decide (a.b &&& 0xff ≠ 0)
  | .zero => false

def tempToLong (mode : Rounding) (a : TempReal) : Wide :=
  if a.exponent &&& 0x7fff = 0 then ⟨0, if a.exponent ≠ 0 then 0x80000000 else 0⟩
  else if longRounds mode a then (longFields a).add ⟨1, 0⟩ else longFields a

/-- `temp_int` -/
structure TempInt extends Wide where
  sign : Bool
  deriving DecidableEq, Repr

/-- What a `temp_int` stands for. -/
def TempInt.number (ti : TempInt) : ℤ := if ti.sign then -(ti.toWide.toNat : ℤ) else ti.toWide.toNat

/-- `shrdl ; shrdl ; shrl` on `b->b`, `b->a` and `underflow`. -/
def move (b a underflow : BitVec 32) (n : Nat) : Wide × BitVec 32 :=
  (⟨Wide.shrd n b a, b >>> n⟩, Wide.shrd n a underflow)

/-- The number and `underflow` before the rounding. -/
def shiftedOut (shift : Nat) (a : TempReal) : Wide × BitVec 32 :=
  if shift < 32 then move a.b a.a 0 shift
  else if shift < 64 then move 0 a.b a.a (shift - 32)
  else move 0 0 a.b (shift - 64)

/-- What is added in the end. -/
def intRounds (mode : Rounding) (sign : Bool) (b : Wide) (underflow : BitVec 32) : Wide :=
  match mode with
  | .nearest =>
      let r := Carry.adc (0x7fffffff + (b.a &&& 1)) underflow false
      let r0 := Carry.adc b.a 0 r.2
      ⟨r0.1, (Carry.adc b.b 0 r0.2).1⟩
  | .up => if !sign && decide (underflow ≠ 0) then b.add ⟨1, 0⟩ else b
  | .down => if sign && decide (underflow ≠ 0) then b.add ⟨1, 0⟩ else b
  | .zero => b

/-- The status word and `*b`. -/
def realToInt (mode : Rounding) (swd : BitVec 32) (a : TempReal) : BitVec 32 × TempInt :=
  let shift : ℤ := 16383 + 63 - a.exp
  let sign := a.exponent.msb
  if shift < 0 then (setOE swd, { toWide := ⟨0, 0⟩, sign := sign })
  else if 96 ≤ shift then (swd, { toWide := ⟨0, 0⟩, sign := sign })
  else
    let r := shiftedOut shift.toNat a
    (swd, { toWide := intRounds mode sign r.1 r.2, sign := sign })

def intToReal (a : TempInt) : TempReal :=
  if a.a ≠ 0 ∨ a.b ≠ 0 then
    normal { toWide := a.toWide, exponent := 16383 + 63 + if a.sign then 0x8000 else 0 }
  else ⟨⟨0, 0⟩, 0⟩

/-! ### Fields -/

variable {x : TempReal} {a : BitVec 32} {l : Wide}

theorem m_eq (x : TempReal) : x.m = x.b.toNat * 2 ^ 32 + x.a.toNat := rfl

/-- A sign in front of an exponent that has been put together. -/
theorem sign_exponent {e : BitVec 16} {s : Bool} {n : Nat} (h : e = Exponent.make false n) :
    (if s then e ||| 0x8000 else e) = Exponent.make s n := by
  rw [h]
  cases s with
  | false => rfl
  | true => exact Exponent.or_make

theorem shortToTemp_eq (h : a.toNat % 2 ^ 31 ≠ 0) :
    shortToTemp a = of (Wide.ofNat (2 ^ 63 + a.toNat % 2 ^ 23 * 2 ^ 40)) a.msb
      (a.toNat / 2 ^ 23 % 2 ^ 8 + 16256) := by
  have ha := a.isLt
  have hlow : (a &&& 0x7fffffff).toNat = a.toNat % 2 ^ 31 := Fields.toNat_and rfl
  have hexp : (a.sshiftRight 23 &&& 0xff).toNat = a.toNat / 2 ^ 23 % 2 ^ 8 :=
    Fields.toNat_sshiftRight_and rfl (by decide)
  have hne : a &&& 0x7fffffff ≠ 0 := by
    intro h0
    rw [h0] at hlow
    exact h hlow.symm
  have htop : (a <<< 8 ||| 0x80000000).toNat = 2 ^ 31 + a.toNat * 2 ^ 8 % 2 ^ 32 % 2 ^ 31 := by
    rw [BitVec.or_comm, Fields.toNat_top_or rfl, Fields.toNat_shl]
  have he : ((a.sshiftRight 23 &&& 0xff) - 127 + 16383).setWidth 16 =
      Exponent.make false (a.toNat / 2 ^ 23 % 2 ^ 8 + 16256) := by
    refine BitVec.eq_of_toNat_eq ?_
    rw [Exponent.make_toNat (by omega), BitVec.toNat_setWidth, BitVec.toNat_add, BitVec.toNat_sub,
      hexp, if_neg Bool.false_ne_true, show (127 : BitVec 32).toNat = 127 from rfl,
      show (16383 : BitVec 32).toNat = 16383 from rfl]
    omega
  unfold shortToTemp
  dsimp only
  rw [if_neg hne, sign_exponent he]
  refine congrArg (fun w => of w _ _) (Wide.eq_of_toNat ?_)
  rw [Wide.ofNat_toNat (by omega)]
  unfold Wide.toNat
  dsimp only
  rw [htop, show (0 : BitVec 32).toNat = 0 from rfl]
  omega

theorem shortToTemp_zero (h : a.toNat % 2 ^ 31 = 0) : shortToTemp a = of ⟨0, 0⟩ a.msb 0 := by
  have ha := a.isLt
  have hlow : (a &&& 0x7fffffff).toNat = a.toNat % 2 ^ 31 := Fields.toNat_and rfl
  have hmsb : a.msb = decide (a ≠ 0) := by
    rw [BitVec.msb_eq_decide, decide_eq_decide, ne_eq, ← BitVec.toNat_inj,
      show (0 : BitVec 32).toNat = 0 from rfl]
    omega
  have hzero : a &&& 0x7fffffff = 0 :=
    BitVec.eq_of_toNat_eq (show (a &&& 0x7fffffff).toNat = 0 by omega)
  unfold shortToTemp
  rw [if_pos hzero, hmsb]
  by_cases h0 : a ≠ 0
  · rw [if_pos h0, decide_eq_true h0]
    exact rfl
  · rw [if_neg h0, decide_eq_false h0]
    exact rfl

theorem longToTemp_zero (h : l.toNat % 2 ^ 63 = 0) : longToTemp l = of ⟨0, 0⟩ l.isNeg 0 := by
  have ha := l.a.isLt
  have hb := l.b.isLt
  have hlow : (l.b &&& 0x7fffffff).toNat = l.b.toNat % 2 ^ 31 := Fields.toNat_and rfl
  unfold Wide.toNat at h
  have hmsb : l.isNeg = decide (l.b ≠ 0) := by
    unfold Wide.isNeg
    rw [BitVec.msb_eq_decide, decide_eq_decide, ne_eq, ← BitVec.toNat_inj,
      show (0 : BitVec 32).toNat = 0 from rfl]
    omega
  have hzero : l.a = 0 ∧ l.b &&& 0x7fffffff = 0 :=
    ⟨BitVec.eq_of_toNat_eq (show l.a.toNat = 0 by omega),
      BitVec.eq_of_toNat_eq (show (l.b &&& 0x7fffffff).toNat = 0 by omega)⟩
  unfold longToTemp
  rw [if_pos hzero, hmsb]
  by_cases h0 : l.b ≠ 0
  · rw [if_pos h0, decide_eq_true h0]
    exact rfl
  · rw [if_neg h0, decide_eq_false h0]
    exact rfl

theorem longToTemp_eq (h : l.toNat % 2 ^ 63 ≠ 0) :
    longToTemp l = of (Wide.ofNat (2 ^ 63 + l.toNat % 2 ^ 52 * 2 ^ 11)) l.isNeg
      (l.toNat / 2 ^ 52 % 2 ^ 11 + 15360) := by
  have ha := l.a.isLt
  have hb := l.b.isLt
  have hlow : (l.b &&& 0x7fffffff).toNat = l.b.toNat % 2 ^ 31 := Fields.toNat_and rfl
  have hexp : (l.b.sshiftRight 20 &&& 0x7ff).toNat = l.b.toNat / 2 ^ 20 % 2 ^ 11 :=
    Fields.toNat_sshiftRight_and rfl (by decide)
  have hl : l.toNat = l.b.toNat * 2 ^ 32 + l.a.toNat := rfl
  have hne : ¬ (l.a = 0 ∧ l.b &&& 0x7fffffff = 0) := by
    rintro ⟨h0, h1⟩
    rw [h1] at hlow
    have h0' : l.a.toNat = 0 := by
      rw [h0]
      rfl
    have h1' : l.b.toNat % 2 ^ 31 = 0 := hlow.symm
    omega
  have hhigh : (0x80000000 ||| l.b <<< 11).toNat =
      2 ^ 31 + l.b.toNat * 2 ^ 11 % 2 ^ 32 % 2 ^ 31 := by
    rw [Fields.toNat_top_or rfl, Fields.toNat_shl]
  have hmiddle : (0x80000000 ||| l.b <<< 11 ||| l.a >>> 21).toNat =
      2 ^ 31 + l.b.toNat * 2 ^ 11 % 2 ^ 32 % 2 ^ 31 + l.a.toNat / 2 ^ 21 := by
    rw [Fields.toNat_or (n := 11) (by rw [hhigh]; omega) (by rw [Fields.toNat_shr]; omega), hhigh,
      Fields.toNat_shr]
  have he : ((l.b.sshiftRight 20 &&& 0x7ff) - 1023 + 16383).setWidth 16 =
      Exponent.make false (l.toNat / 2 ^ 52 % 2 ^ 11 + 15360) := by
    refine BitVec.eq_of_toNat_eq ?_
    rw [Exponent.make_toNat (by omega), BitVec.toNat_setWidth, BitVec.toNat_add, BitVec.toNat_sub,
      hexp, if_neg Bool.false_ne_true, show (1023 : BitVec 32).toNat = 1023 from rfl,
      show (16383 : BitVec 32).toNat = 16383 from rfl]
    omega
  unfold longToTemp
  dsimp only
  rw [if_neg hne, sign_exponent he]
  refine congrArg (fun w => of w _ _) (Wide.eq_of_toNat ?_)
  rw [Wide.ofNat_toNat (by omega)]
  unfold Wide.toNat
  dsimp only
  rw [hmiddle, Fields.toNat_shl]
  omega

/-- The sign in front of an exponent field. -/
theorem sign_field {b : BitVec 32} (hb : b.toNat < 2 ^ 31) (s : Bool) :
    (if s then b ||| 0x80000000 else b).toNat = (if s then 2 ^ 31 else 0) + b.toNat := by
  cases s with
  | false => exact (Nat.zero_add _).symm
  | true =>
      rw [if_pos rfl, if_pos rfl, BitVec.or_comm, Fields.toNat_or (n := 31) (dvd_refl _) hb]
      rfl

theorem signExtend_toNat (x : TempReal) : (x.exponent.signExtend 32).toNat =
    x.exp + if x.negative then 2 ^ 15 + (2 ^ 32 - 2 ^ 16) else 0 := by
  have h := x.exponent_toNat
  have hlt := x.exponent.isLt
  rw [BitVec.toNat_signExtend, BitVec.toNat_setWidth, Nat.mod_eq_of_lt (by omega), h,
    show x.exponent.msb = x.negative from rfl]
  cases x.negative with
  | false => rfl
  | true => exact Nat.add_assoc ..

theorem shortFields_toNat (he : 16256 ≤ x.exp) : (shortFields x).toNat =
    (if x.negative then 2 ^ 31 else 0) + (x.exp - 16256) % 2 ^ 8 * 2 ^ 23 +
      x.m / 2 ^ 40 % 2 ^ 23 := by
  have hm := m_eq x
  have ha := x.a.isLt
  have hexp := x.exp_lt
  have hz : (x.exponent.signExtend 32 - 16383 + 127).toNat % 2 ^ 8 = (x.exp - 16256) % 2 ^ 8 := by
    rw [BitVec.toNat_add, BitVec.toNat_sub, signExtend_toNat,
      show (127 : BitVec 32).toNat = 127 from rfl, show (16383 : BitVec 32).toNat = 16383 from rfl]
    split
    · omega
    · omega
  have hfield : ((x.exponent.signExtend 32 - 16383 + 127) <<< 23 &&& 0x7f800000).toNat =
      (x.exp - 16256) % 2 ^ 8 * 2 ^ 23 := by
    rw [Fields.toNat_and_field (k := 8) (n := 23) rfl, Fields.toNat_shl, ← hz]
    omega
  have hfrac : (x.b.sshiftRight 8 &&& 0x007fffff).toNat = x.m / 2 ^ 40 % 2 ^ 23 := by
    rw [Fields.toNat_sshiftRight_and (k := 23) rfl (by decide), hm]
    omega
  unfold shortFields
  dsimp only
  have hsign := sign_field (b := (x.exponent.signExtend 32 - 16383 + 127) <<< 23 &&& 0x7f800000)
    (by rw [hfield]; omega) x.negative
  rw [show x.exponent.msb = x.negative from rfl, Fields.toNat_or (n := 23), hsign, hfield, hfrac]
  · rw [hsign, hfield]
    split
    · omega
    · omega
  · rw [hfrac]
    omega

theorem longFields_toNat (he : 15360 ≤ x.exp) : (longFields x).toNat =
    (if x.negative then 2 ^ 63 else 0) + (x.exp - 15360) % 2 ^ 11 * 2 ^ 52 +
      x.m / 2 ^ 11 % 2 ^ 52 := by
  have hm := m_eq x
  have ha := x.a.isLt
  have hexp := x.exp_lt
  have hz : ((0x7fff &&& x.exponent.signExtend 32) - 16383 + 1023).toNat % 2 ^ 11 =
      (x.exp - 15360) % 2 ^ 11 := by
    have hmask : (0x7fff &&& x.exponent.signExtend 32).toNat = x.exp := by
      rw [BitVec.and_comm, Fields.toNat_and (k := 15) rfl, signExtend_toNat]
      split
      · omega
      · omega
    rw [BitVec.toNat_add, BitVec.toNat_sub, hmask,
      show (1023 : BitVec 32).toNat = 1023 from rfl, show (16383 : BitVec 32).toNat = 16383 from rfl]
    omega
  have hfield : (((0x7fff &&& x.exponent.signExtend 32) - 16383 + 1023) <<< 20 &&&
      0x7ff00000).toNat = (x.exp - 15360) % 2 ^ 11 * 2 ^ 20 := by
    rw [Fields.toNat_and_field (k := 11) (n := 20) rfl, Fields.toNat_shl, ← hz]
    omega
  have hfrac : (x.b.sshiftRight 11 &&& 0x000fffff).toNat = x.b.toNat / 2 ^ 11 % 2 ^ 20 :=
    Fields.toNat_sshiftRight_and (k := 20) rfl (by decide)
  have hlow : (x.a.sshiftRight 11 &&& 0x001fffff).toNat = x.a.toNat / 2 ^ 11 % 2 ^ 21 :=
    Fields.toNat_sshiftRight_and (k := 21) rfl (by decide)
  have hword : (x.b <<< 21 ||| (x.a.sshiftRight 11 &&& 0x001fffff)).toNat =
      x.b.toNat * 2 ^ 21 % 2 ^ 32 + x.a.toNat / 2 ^ 11 % 2 ^ 21 := by
    rw [Fields.toNat_or (n := 21) (by rw [Fields.toNat_shl]; omega) (by rw [hlow]; omega),
      Fields.toNat_shl, hlow]
  unfold longFields
  dsimp only
  have hsign := sign_field
    (b := ((0x7fff &&& x.exponent.signExtend 32) - 16383 + 1023) <<< 20 &&& 0x7ff00000)
    (by rw [hfield]; omega) x.negative
  unfold Wide.toNat
  dsimp only
  rw [hword, show x.exponent.msb = x.negative from rfl, Fields.toNat_or (n := 20), hsign, hfield,
    hfrac, hm]
  · split
    · omega
    · omega
  · rw [hsign, hfield]
    split
    · omega
    · omega
  · rw [hfrac]
    omega

/-! ### Moving down to an integer -/

theorem move_toNat (b a u : BitVec 32) {n : Nat} (hn : n ≤ 32) :
    (move b a u n).1.toNat * 2 ^ 32 + (move b a u n).2.toNat =
      (b.toNat * 2 ^ 64 + a.toNat * 2 ^ 32 + u.toNat) / 2 ^ n := by
  have ha := a.isLt
  have hu := u.isLt
  have hpos : 0 < 2 ^ n := Nat.two_pow_pos n
  obtain ⟨k, hk⟩ := Nat.exists_eq_add_of_le hn
  have hpow : (2 : Nat) ^ 32 = 2 ^ n * 2 ^ k := by rw [hk, pow_add]
  -- the words of the quotient, the highest first
  have hhigh : b.toNat / 2 ^ n =
      (b.toNat * 2 ^ 64 + a.toNat * 2 ^ 32 + u.toNat) / 2 ^ n / 2 ^ 32 / 2 ^ 32 := by
    rw [Nat.div_right_comm _ (2 ^ n) (2 ^ 32), Nat.div_right_comm (_ / 2 ^ 32) (2 ^ n)]
    refine congrArg (· / 2 ^ n) ?_
    omega
  have hmid : (b.toNat * 2 ^ 32 + a.toNat) / 2 ^ n =
      (b.toNat * 2 ^ 64 + a.toNat * 2 ^ 32 + u.toNat) / 2 ^ n / 2 ^ 32 := by
    rw [Nat.div_right_comm]
    refine congrArg (· / 2 ^ n) ?_
    omega
  have hlow : (a.toNat * 2 ^ 32 + u.toNat) / 2 ^ n + 2 ^ 32 * (b.toNat * 2 ^ k) =
      (b.toNat * 2 ^ 64 + a.toNat * 2 ^ 32 + u.toNat) / 2 ^ n := by
    have hsplit : b.toNat * 2 ^ 64 + a.toNat * 2 ^ 32 + u.toNat =
        a.toNat * 2 ^ 32 + u.toNat + 2 ^ n * (2 ^ 32 * (b.toNat * 2 ^ k)) := by
      have h : 2 ^ n * (2 ^ 32 * (b.toNat * 2 ^ k)) = b.toNat * 2 ^ 32 * (2 ^ n * 2 ^ k) := by ring
      rw [h, ← hpow]
      omega
    rw [hsplit, Nat.add_mul_div_left _ _ hpos]
  unfold move Wide.toNat Wide.shrd
  dsimp only
  rw [BitVec.toNat_ofNat, BitVec.toNat_ofNat, Fields.toNat_shr]
  omega

theorem shiftedOut_toNat (shift : Nat) (h : shift < 96) (x : TempReal) :
    (shiftedOut shift x).1.toNat * 2 ^ 32 + (shiftedOut shift x).2.toNat =
      x.m * 2 ^ 32 / 2 ^ shift := by
  have hm := m_eq x
  have ha := x.a.isLt
  have hzero : (0 : BitVec 32).toNat = 0 := rfl
  unfold shiftedOut
  by_cases h32 : shift < 32
  · rw [if_pos h32, move_toNat _ _ _ (by omega), hm, hzero]
    refine congrArg (· / 2 ^ shift) ?_
    omega
  · have hsplit : 2 ^ shift = 2 ^ 32 * 2 ^ (shift - 32) := by
      rw [← pow_add]
      congr 1
      omega
    rw [if_neg h32, hsplit, ← Nat.div_div_eq_div_mul, Nat.mul_div_cancel _ (by decide)]
    by_cases h64 : shift < 64
    · rw [if_pos h64, move_toNat _ _ _ (by omega), hm, hzero]
      refine congrArg (· / 2 ^ (shift - 32)) ?_
      omega
    · have hsplit' : 2 ^ (shift - 32) = 2 ^ 32 * 2 ^ (shift - 64) := by
        rw [← pow_add]
        congr 1
        omega
      rw [if_neg h64, move_toNat _ _ _ (by omega), hsplit', ← Nat.div_div_eq_div_mul, hm, hzero]
      refine congrArg (· / 2 ^ (shift - 64)) ?_
      omega

/-- `addl $1 ; adcl $0` -/
theorem add_one_toNat {w : Wide} (h : w.toNat < 2 ^ 64 - 1) : (w.add ⟨1, 0⟩).toNat = w.toNat + 1 := by
  rw [Wide.add_toNat]
  unfold Wide.toNat at *
  dsimp only
  rw [show (1 : BitVec 32).toNat = 1 from rfl, show (0 : BitVec 32).toNat = 0 from rfl]
  omega

/-- Whether `real_to_int` adds one. -/
def roundsUp (mode : Rounding) (sign : Bool) (low : Bool) (underflow : Nat) : Bool :=
  match mode with
  | .nearest => decide (2 ^ 31 + 1 ≤ underflow + low.toNat)
  | .up => !sign && decide (underflow ≠ 0)
  | .down => sign && decide (underflow ≠ 0)
  | .zero => false

/-- `adcl $0 ; adcl $0` -/
theorem adc_zero_toNat {w : Wide} (cf : Bool) (h : w.toNat < 2 ^ 64 - 1) :
    (⟨(Carry.adc w.a 0 cf).1, (Carry.adc w.b 0 (Carry.adc w.a 0 cf).2).1⟩ : Wide).toNat =
      w.toNat + cf.toNat := by
  have hlow := Carry.adc_toNat w.a 0 cf
  have hhigh := Carry.adc_toNat w.b 0 (Carry.adc w.a 0 cf).2
  have hcf := Carry.toNat_le_one cf
  have ha := (Carry.adc w.a 0 cf).1.isLt
  have hb := (Carry.adc w.b 0 (Carry.adc w.a 0 cf).2).1.isLt
  rw [show (0 : BitVec 32).toNat = 0 from rfl] at hlow hhigh
  unfold Wide.toNat at *
  dsimp only
  omega

/-- The carry out of `underflow` is the decision of the nearest mode. -/
theorem nearest_carry (a u : BitVec 32) :
    (Carry.adc (0x7fffffff + (a &&& 1)) u false).2 =
      decide (2 ^ 31 + 1 ≤ u.toNat + (decide (a.toNat % 2 = 1)).toNat) := by
  have hlow : (a &&& 1).toNat = a.toNat % 2 := Fields.toNat_and (k := 1) rfl
  have hsum : (0x7fffffff + (a &&& 1)).toNat = 2 ^ 31 - 1 + a.toNat % 2 := by
    rw [BitVec.toNat_add, hlow, show (0x7fffffff : BitVec 32).toNat = 2 ^ 31 - 1 from rfl]
    omega
  unfold Carry.adc
  dsimp only
  rw [hsum, decide_eq_decide, Bool.toNat_false]
  by_cases h : a.toNat % 2 = 1
  · rw [decide_eq_true h, Bool.toNat_true]
    omega
  · rw [decide_eq_false h, Bool.toNat_false]
    omega

theorem intRounds_toNat (mode : Rounding) (sign : Bool) {w : Wide} (u : BitVec 32)
    (h : w.toNat < 2 ^ 64 - 1) : (intRounds mode sign w u).toNat =
      w.toNat + (roundsUp mode sign (decide (w.toNat % 2 = 1)) u.toNat).toNat := by
  have hu : (u ≠ 0) = (u.toNat ≠ 0) := by
    rw [ne_eq, ne_eq, ← BitVec.toNat_inj]
    rfl
  have hite : ∀ c : Bool, (if c then w.add ⟨1, 0⟩ else w).toNat = w.toNat + c.toNat := by
    intro c
    cases c with
    | false => rw [if_neg Bool.false_ne_true, Bool.toNat_false, Nat.add_zero]
    | true => rw [if_pos rfl, add_one_toNat h, Bool.toNat_true]
  cases mode with
  | nearest =>
      have hodd : w.toNat % 2 = w.a.toNat % 2 := by
        unfold Wide.toNat
        omega
      unfold intRounds roundsUp
      dsimp only
      rw [adc_zero_toNat _ h, nearest_carry, hodd]
  | up =>
      unfold intRounds roundsUp
      dsimp only
      rw [hite]
      simp only [hu]
  | down =>
      unfold intRounds roundsUp
      dsimp only
      rw [hite]
      simp only [hu]
  | zero =>
      unfold intRounds roundsUp
      rw [Bool.toNat_false, Nat.add_zero]

/-- Without a fraction no mode has anything to round. -/
theorem roundsUp_zero (mode : Rounding) (sign low : Bool) : roundsUp mode sign low 0 = false := by
  cases mode with
  | nearest => cases low <;> rfl
  | up => exact Bool.and_false _
  | down => exact Bool.and_false _
  | zero => rfl

/-- What `real_to_int` makes of a number that is not too large: the significand moved down, and one
more where the mode says so. -/
theorem realToInt_eq (mode : Rounding) (swd : BitVec 32) (shift : Nat) (h : x.exp + shift = 16446)
    (hpos : 0 < shift ∨ x.m < 2 ^ 64 - 1) :
    (realToInt mode swd x).1 = swd ∧ (realToInt mode swd x).2.sign = x.negative ∧
      (realToInt mode swd x).2.toWide.toNat = x.m / 2 ^ shift +
        (roundsUp mode x.negative (decide (x.m / 2 ^ shift % 2 = 1))
          (x.m * 2 ^ 32 / 2 ^ shift % 2 ^ 32)).toNat := by
  have hm := x.m_lt
  have hshift : (16383 + 63 - (x.exp : ℤ)).toNat = shift := by omega
  unfold realToInt
  dsimp only
  rw [if_neg (by omega)]
  by_cases h96 : 96 ≤ shift
  · have hpow : 2 ^ 96 ≤ 2 ^ shift := Nat.pow_le_pow_right (by decide) h96
    rw [if_pos (by omega), Nat.div_eq_of_lt (by omega : x.m < 2 ^ shift),
      Nat.div_eq_of_lt (by omega : x.m * 2 ^ 32 < 2 ^ shift), Nat.zero_mod (2 ^ 32), roundsUp_zero,
      Bool.toNat_false, Nat.add_zero]
    exact ⟨rfl, rfl, Wide.toNat_eq_zero.mpr ⟨rfl, rfl⟩⟩
  · rw [if_neg (by omega), hshift]
    have hout := shiftedOut_toNat shift (by omega) x
    have hu := (shiftedOut shift x).2.isLt
    have hint : (shiftedOut shift x).1.toNat = x.m / 2 ^ shift := by
      have hdiv : x.m * 2 ^ 32 / 2 ^ shift / 2 ^ 32 = x.m / 2 ^ shift := by
        rw [Nat.div_right_comm, Nat.mul_div_cancel _ (by decide)]
      omega
    have hlow : (shiftedOut shift x).2.toNat = x.m * 2 ^ 32 / 2 ^ shift % 2 ^ 32 := by omega
    refine ⟨rfl, rfl, ?_⟩
    rw [intRounds_toNat, hint, hlow]
    · rfl
    · rw [hint]
      rcases hpos with hpos | hpos
      · have hle : x.m / 2 ^ shift ≤ x.m / 2 ^ 1 :=
          Nat.div_le_div_left (Nat.pow_le_pow_right (by decide) hpos) (by decide)
        omega
      · exact Nat.lt_of_le_of_lt (Nat.div_le_self _ _) hpos

end LinuxKernel.V012.Math
