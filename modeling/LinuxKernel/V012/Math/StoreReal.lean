import LinuxKernel.V012.Math.RealRound

/-!
# LinuxKernel.V012.Math.StoreReal

**Storing short and long reals**: what `temp_to_short` and `temp_to_long` give against what the
rounding mode asks for.

- `ShortSeen` and `LongSeen` say when the bits that the code tests stand for those that are cut off.
- A short real comes back as it was in every mode; a long one does not, where the mode looks at the
  wrong word (`LongKept`).
-/

namespace LinuxKernel.V012.Math

open TempReal

variable {x : TempReal}

/-! ### Short reals -/

theorem short_value {p : BitVec 32} (hp : p.toNat % 2 ^ 31 ≠ 0) : (shortToTemp p).value =
    if p.msb then -RealFormat.short.mag (p.toNat % 2 ^ 31)
    else RealFormat.short.mag (p.toNat % 2 ^ 31) := by
  have hsplit : p.toNat % 2 ^ 31 =
      p.toNat / 2 ^ 23 % 2 ^ 8 * 2 ^ RealFormat.short.frac + p.toNat % 2 ^ 23 := by
    rw [show RealFormat.short.frac = 23 from rfl]
    omega
  rw [shortToTemp_eq hp, hsplit]
  refine of_value RealFormat.short (p.toNat / 2 ^ 23 % 2 ^ 8) (p.toNat % 2 ^ 23) ?_
    (Nat.mod_lt _ (by decide)) ?_
  · rw [Wide.ofNat_toNat (by omega), show RealFormat.short.frac = 23 from rfl,
      show RealFormat.short.cut = 40 from rfl]
    omega
  · rw [show RealFormat.short.bias = 16256 from rfl]
    omega

/-- The pattern with the sign in front. -/
theorem exists_short (s : Bool) {n : Nat} (hn : n < 2 ^ 31) :
    ∃ p : BitVec 32, p.toNat = (if s then 2 ^ 31 else 0) + n ∧ p.msb = s := by
  refine ⟨BitVec.cons s (BitVec.ofNat 31 n), ?_, BitVec.msb_cons⟩
  rw [BitVec.toNat_cons', BitVec.toNat_ofNat, Nat.mod_eq_of_lt hn]
  cases s with
  | false => rw [Bool.toNat_false, Nat.zero_shiftLeft, if_neg Bool.false_ne_true]
  | true => rw [Bool.toNat_true, Nat.one_shiftLeft, if_pos rfl]

/-- A normal number of 32 bits. -/
def ShortValue (q : ℚ) : Prop :=
  ∃ p : BitVec 32, (1 ≤ p.toNat / 2 ^ 23 % 2 ^ 8 ∧ p.toNat / 2 ^ 23 % 2 ^ 8 ≤ 254) ∧
    (shortToTemp p).value = q

theorem shortValue_eq : ShortValue = RealFormat.short.Value := by
  have hlo : RealFormat.short.lo = 2 ^ 23 := rfl
  have hhi : RealFormat.short.hi = 255 * 2 ^ 23 - 1 := rfl
  funext q
  refine propext ⟨?_, ?_⟩
  · rintro ⟨p, ⟨h1, h2⟩, rfl⟩
    refine ⟨p.toNat % 2 ^ 31, by omega, by omega, ?_⟩
    rw [short_value (by omega)]
    cases p.msb with
    | false => exact .inl rfl
    | true => exact .inr rfl
  · rintro ⟨n, h1, h2, hq⟩
    rcases hq with rfl | rfl
    · obtain ⟨p, hp, hs⟩ := exists_short false (n := n) (by omega)
      rw [if_neg Bool.false_ne_true, Nat.zero_add] at hp
      refine ⟨p, by omega, ?_⟩
      rw [short_value (by omega), hs, if_neg Bool.false_ne_true,
        show p.toNat % 2 ^ 31 = n by omega]
    · obtain ⟨p, hp, hs⟩ := exists_short true (n := n) (by omega)
      rw [if_pos rfl] at hp
      refine ⟨p, by omega, ?_⟩
      rw [short_value (by omega), hs, if_pos rfl, show p.toNat % 2 ^ 31 = n by omega]

/-- The bits of a temporary real that a short real has no room for are those that the code tests. -/
def ShortSeen (mode : Rounding) (x : TempReal) : Prop :=
  match mode with
  | .nearest => ¬ (x.b &&& 0xff = 0x80 ∧ x.a ≠ 0)
  | .down => x.negative = true → x.a ≠ 0 → x.b &&& 0xff ≠ 0
  | .up => x.negative = false → x.a ≠ 0 → x.b &&& 0xff ≠ 0
  | .zero => True

theorem short_rest (x : TempReal) :
    RealFormat.short.rest x = (x.b &&& 0xff).toNat * 2 ^ 32 + x.a.toNat := by
  have hb : (x.b &&& 0xff).toNat = x.b.toNat % 2 ^ 8 := Fields.toNat_and (k := 8) rfl
  have ha := x.a.isLt
  rw [hb, RealFormat.rest, show RealFormat.short.cut = 40 from rfl, m_eq]
  omega

theorem ne_zero_iff (a : BitVec 32) : a ≠ 0 ↔ a.toNat ≠ 0 := by
  rw [ne_eq, ne_eq, ← BitVec.toNat_inj]
  rfl

/-- Where only the high part `n` of what is cut off is tested. -/
theorem tested_iff {p : Prop} {n k : Nat} :
    (p ∧ n ≠ 0 ↔ p ∧ n * 2 ^ 32 + k ≠ 0) ↔ (p → k ≠ 0 → n ≠ 0) := by
  by_cases hp : p
  · rw [and_iff_right hp, and_iff_right hp, forall_prop_of_true hp]
    omega
  · exact iff_of_true (iff_of_false (fun h => hp h.1) fun h => hp h.1) fun h => absurd h hp

theorem shortRounds_proper (mode : Rounding) (x : TempReal) :
    Proper mode x.negative (shortRounds mode x) (RealFormat.short.rest x) RealFormat.short.cut ↔
      ShortSeen mode x := by
  have ha := x.a.isLt
  have ha0 := ne_zero_iff x.a
  have hb0 := ne_zero_iff (x.b &&& 0xff)
  have hrest := short_rest x
  have hcut : RealFormat.short.cut = 40 := rfl
  have hmsb : x.exponent.msb = x.negative := rfl
  cases mode with
  | nearest =>
      have h80 : x.b &&& 0xff = 0x80 ↔ (x.b &&& 0xff).toNat = 0x80 := by
        rw [← BitVec.toNat_inj]
        rfl
      unfold Proper ShortSeen shortRounds
      dsimp only
      rw [hrest, hcut, h80, ha0, decide_eq_true_iff, decide_eq_false_iff_not]
      omega
  | down =>
      unfold Proper ShortSeen shortRounds
      dsimp only
      rw [hrest, hmsb, Bool.and_eq_true, decide_eq_true_iff, hb0, ha0]
      exact tested_iff
  | up =>
      unfold Proper ShortSeen shortRounds
      dsimp only
      rw [hrest, hmsb, Bool.and_eq_true, decide_eq_true_iff, hb0, ha0, Bool.not_eq_true']
      exact tested_iff
  | zero => exact iff_of_true rfl trivial

theorem tempToShort_toNat (mode : Rounding) (hx : x.Normal)
    (hlo : RealFormat.short.mag RealFormat.short.lo < |x.value|)
    (hhi : |x.value| < RealFormat.short.mag RealFormat.short.hi) :
    (tempToShort mode x).toNat = (if x.negative then 2 ^ 31 else 0) +
      (RealFormat.short.trunc x + (shortRounds mode x).toNat) := by
  obtain ⟨hexp, hexp', hmem, hmem'⟩ := RealFormat.short.trunc_mem hx hlo hhi
  have hbias : RealFormat.short.bias = 16256 := rfl
  have htop : RealFormat.short.top = 255 := rfl
  have hhi' : RealFormat.short.hi = 255 * 2 ^ 23 - 1 := rfl
  have hfields := shortFields_toNat (x := x) (by omega)
  have htrunc : RealFormat.short.trunc x =
      (x.exp - 16256) % 2 ^ 8 * 2 ^ 23 + x.m / 2 ^ 40 % 2 ^ 23 := by
    unfold RealFormat.trunc
    rw [hbias, show RealFormat.short.frac = 23 from rfl, show RealFormat.short.cut = 40 from rfl,
      Nat.mod_eq_of_lt (show x.exp - 16256 < 2 ^ 8 by omega)]
  have hne : x.exponent &&& 0x7fff ≠ 0 := by
    intro h0
    have : x.exp = 0 := by
      unfold exp
      rw [h0]
      rfl
    omega
  unfold tempToShort
  rw [if_neg hne, htrunc]
  rw [htrunc, hhi'] at hmem'
  cases shortRounds mode x with
  | false => rw [if_neg Bool.false_ne_true, hfields, Bool.toNat_false, Nat.add_zero, Nat.add_assoc]
  | true =>
      rw [if_pos rfl, BitVec.toNat_add, hfields, show (1 : BitVec 32).toNat = 1 from rfl,
        Bool.toNat_true]
      split
      · omega
      · omega

/-- The number that `temp_to_short` stores. -/
theorem tempToShort_value (mode : Rounding) (hx : x.Normal)
    (hlo : RealFormat.short.mag RealFormat.short.lo < |x.value|)
    (hhi : |x.value| < RealFormat.short.mag RealFormat.short.hi) :
    (shortToTemp (tempToShort mode x)).value =
      if x.negative then -RealFormat.short.mag (RealFormat.short.trunc x + (shortRounds mode x).toNat)
      else RealFormat.short.mag (RealFormat.short.trunc x + (shortRounds mode x).toNat) := by
  obtain ⟨_, _, hmem, hmem'⟩ := RealFormat.short.trunc_mem hx hlo hhi
  have hpattern := tempToShort_toNat mode hx hlo hhi
  have hone := Carry.toNat_le_one (shortRounds mode x)
  have hhi' : RealFormat.short.hi = 255 * 2 ^ 23 - 1 := rfl
  have hlo' : RealFormat.short.lo = 2 ^ 23 := rfl
  have hlow : (tempToShort mode x).toNat % 2 ^ 31 =
      RealFormat.short.trunc x + (shortRounds mode x).toNat := by
    rw [hpattern]
    split
    · omega
    · omega
  have hmsb : (tempToShort mode x).msb = x.negative := by
    rw [BitVec.msb_eq_decide, hpattern]
    cases x.negative with
    | false =>
        rw [if_neg Bool.false_ne_true]
        exact decide_eq_false (by omega)
    | true =>
        rw [if_pos rfl]
        exact decide_eq_true (by omega)
  rw [short_value (by omega), hlow, hmsb]

theorem short_rounds (mode : Rounding) (x : TempReal) (hx : x.Normal)
    (hlo : (shortToTemp 0x00800000).value < |x.value|)
    (hhi : |x.value| < (shortToTemp 0x7f7fffff).value) :
    Rounds mode ShortValue x.value (shortToTemp (tempToShort mode x)).value ↔ ShortSeen mode x := by
  have h1 : (shortToTemp 0x00800000).value = RealFormat.short.mag RealFormat.short.lo :=
    short_value (p := 0x00800000) (by decide)
  have h2 : (shortToTemp 0x7f7fffff).value = RealFormat.short.mag RealFormat.short.hi :=
    short_value (p := 0x7f7fffff) (by decide)
  rw [h1] at hlo
  rw [h2] at hhi
  rw [shortValue_eq, tempToShort_value mode hx hlo hhi, rounds_iff mode hx hlo hhi,
    shortRounds_proper]

theorem exponent_ne_zero (h : x.exp ≠ 0) : x.exponent &&& 0x7fff ≠ 0 := by
  intro h0
  unfold exp at h
  rw [h0] at h
  exact h rfl

/-- A short real comes back in every mode. -/
theorem short_kept (mode : Rounding) (p : BitVec 32) : tempToShort mode (shortToTemp p) = p := by
  have hp := p.isLt
  by_cases h0 : p.toNat % 2 ^ 31 = 0
  · rw [shortToTemp_zero h0]
    unfold tempToShort
    rw [show (of ⟨0, 0⟩ p.msb 0).exponent = Exponent.make p.msb 0 from rfl, Exponent.and_make,
      if_pos (by decide)]
    refine BitVec.eq_of_toNat_eq ?_
    cases hs : p.msb with
    | false =>
        rw [BitVec.msb_eq_decide, decide_eq_false_iff_not] at hs
        rw [if_neg (by decide), show (0 : BitVec 32).toNat = 0 from rfl]
        omega
    | true =>
        rw [BitVec.msb_eq_decide, decide_eq_true_iff] at hs
        rw [if_pos (by decide), show (0x80000000 : BitVec 32).toNat = 2 ^ 31 from rfl]
        omega
  · have hexp : (shortToTemp p).exp = p.toNat / 2 ^ 23 % 2 ^ 8 + 16256 := by
      rw [shortToTemp_eq h0]
      exact of_exp (by omega)
    have hm : (shortToTemp p).m = 2 ^ 63 + p.toNat % 2 ^ 23 * 2 ^ 40 := by
      rw [shortToTemp_eq h0, of_m, Wide.ofNat_toNat (by omega)]
    have hneg : (shortToTemp p).negative = p.msb := by
      rw [shortToTemp_eq h0]
      exact of_negative
    have hlow : (shortToTemp p).b &&& 0xff = 0 := by
      have ha := (shortToTemp p).a.isLt
      refine BitVec.eq_of_toNat_eq ?_
      rw [Fields.toNat_and (k := 8) rfl, show (0 : BitVec 32).toNat = 0 from rfl]
      rw [m_eq] at hm
      omega
    have hrounds : shortRounds mode (shortToTemp p) = false := by
      unfold shortRounds
      rw [hlow]
      cases mode with
      | nearest => rfl
      | down => exact Bool.and_false _
      | up => exact Bool.and_false _
      | zero => rfl
    have hfields := shortFields_toNat (x := shortToTemp p) (by omega)
    rw [hexp, hm, hneg, BitVec.msb_eq_decide] at hfields
    unfold tempToShort
    rw [if_neg (exponent_ne_zero (by omega)), hrounds, if_neg Bool.false_ne_true]
    refine BitVec.eq_of_toNat_eq ?_
    rw [hfields]
    by_cases hs : 2 ^ (32 - 1) ≤ p.toNat
    · rw [decide_eq_true hs, if_pos rfl]
      omega
    · rw [decide_eq_false hs, if_neg Bool.false_ne_true]
      omega

/-! ### Long reals -/

theorem long_value {l : Wide} (hl : l.toNat % 2 ^ 63 ≠ 0) : (longToTemp l).value =
    if l.isNeg then -RealFormat.long.mag (l.toNat % 2 ^ 63)
    else RealFormat.long.mag (l.toNat % 2 ^ 63) := by
  have hsplit : l.toNat % 2 ^ 63 =
      l.toNat / 2 ^ 52 % 2 ^ 11 * 2 ^ RealFormat.long.frac + l.toNat % 2 ^ 52 := by
    rw [show RealFormat.long.frac = 52 from rfl]
    omega
  rw [longToTemp_eq hl, hsplit]
  refine of_value RealFormat.long (l.toNat / 2 ^ 52 % 2 ^ 11) (l.toNat % 2 ^ 52) ?_
    (Nat.mod_lt _ (by decide)) ?_
  · rw [Wide.ofNat_toNat (by omega), show RealFormat.long.frac = 52 from rfl,
      show RealFormat.long.cut = 11 from rfl]
    omega
  · rw [show RealFormat.long.bias = 15360 from rfl]
    omega

/-- A normal number of 64 bits. -/
def LongValue (q : ℚ) : Prop :=
  ∃ l : Wide, (1 ≤ l.toNat / 2 ^ 52 % 2 ^ 11 ∧ l.toNat / 2 ^ 52 % 2 ^ 11 ≤ 2046) ∧
    (longToTemp l).value = q

theorem isNeg_eq (l : Wide) : l.isNeg = decide (2 ^ 63 ≤ l.toNat) := by
  rw [Bool.eq_iff_iff, decide_eq_true_iff]
  exact Wide.isNeg_iff

theorem longValue_eq : LongValue = RealFormat.long.Value := by
  have hlo : RealFormat.long.lo = 2 ^ 52 := rfl
  have hhi : RealFormat.long.hi = 2047 * 2 ^ 52 - 1 := rfl
  funext q
  refine propext ⟨?_, ?_⟩
  · rintro ⟨l, ⟨h1, h2⟩, rfl⟩
    refine ⟨l.toNat % 2 ^ 63, by omega, by omega, ?_⟩
    rw [long_value (by omega)]
    cases l.isNeg with
    | false => exact .inl rfl
    | true => exact .inr rfl
  · rintro ⟨n, h1, h2, hq⟩
    rcases hq with rfl | rfl
    · have hl := Wide.ofNat_toNat (n := n) (by omega)
      refine ⟨Wide.ofNat n, by omega, ?_⟩
      rw [long_value (by omega), isNeg_eq, decide_eq_false (by omega), if_neg Bool.false_ne_true,
        show (Wide.ofNat n).toNat % 2 ^ 63 = n by omega]
    · have hl := Wide.ofNat_toNat (n := 2 ^ 63 + n) (by omega)
      refine ⟨Wide.ofNat (2 ^ 63 + n), by omega, ?_⟩
      rw [long_value (by omega), isNeg_eq, decide_eq_true (by omega), if_pos rfl,
        show (Wide.ofNat (2 ^ 63 + n)).toNat % 2 ^ 63 = n by omega]

/-- The low bits of the high word, which two of the modes test, are clear as the bits are that a long
real has no room for. -/
def LongSeen (mode : Rounding) (x : TempReal) : Prop :=
  match mode with
  | .nearest => True
  | .down => x.negative = true → (x.b &&& 0xff ≠ 0 ↔ x.a &&& 0x7ff ≠ 0)
  | .up => x.negative = false → (x.b &&& 0xff ≠ 0 ↔ x.a &&& 0x7ff ≠ 0)
  | .zero => True

theorem long_rest (x : TempReal) : RealFormat.long.rest x = (x.a &&& 0x7ff).toNat := by
  rw [Fields.toNat_and (k := 11) rfl, RealFormat.rest, show RealFormat.long.cut = 11 from rfl, m_eq]
  omega

theorem longRounds_proper (mode : Rounding) (x : TempReal) :
    Proper mode x.negative (longRounds mode x) (RealFormat.long.rest x) RealFormat.long.cut ↔
      LongSeen mode x := by
  have ha0 := ne_zero_iff (x.a &&& 0x7ff)
  have hrest := long_rest x
  have hcut : RealFormat.long.cut = 11 := rfl
  have hmsb : x.exponent.msb = x.negative := rfl
  cases mode with
  | nearest =>
      unfold Proper LongSeen longRounds
      dsimp only
      rw [hrest, hcut, decide_eq_true_iff, decide_eq_false_iff_not, iff_true]
      omega
  | down =>
      unfold Proper LongSeen longRounds
      dsimp only
      rw [hrest, hmsb, Bool.and_eq_true, decide_eq_true_iff, ← ha0]
      exact and_congr_right_iff
  | up =>
      unfold Proper LongSeen longRounds
      dsimp only
      rw [hrest, hmsb, Bool.and_eq_true, decide_eq_true_iff, ← ha0, Bool.not_eq_true']
      exact and_congr_right_iff
  | zero => exact iff_of_true rfl trivial

theorem tempToLong_toNat (mode : Rounding) (hx : x.Normal)
    (hlo : RealFormat.long.mag RealFormat.long.lo < |x.value|)
    (hhi : |x.value| < RealFormat.long.mag RealFormat.long.hi) :
    (tempToLong mode x).toNat = (if x.negative then 2 ^ 63 else 0) +
      (RealFormat.long.trunc x + (longRounds mode x).toNat) := by
  obtain ⟨hexp, hexp', hmem, hmem'⟩ := RealFormat.long.trunc_mem hx hlo hhi
  have hbias : RealFormat.long.bias = 15360 := rfl
  have htop : RealFormat.long.top = 2047 := rfl
  have hhi' : RealFormat.long.hi = 2047 * 2 ^ 52 - 1 := rfl
  have hfields := longFields_toNat (x := x) (by omega)
  have htrunc : RealFormat.long.trunc x =
      (x.exp - 15360) % 2 ^ 11 * 2 ^ 52 + x.m / 2 ^ 11 % 2 ^ 52 := by
    unfold RealFormat.trunc
    rw [hbias, show RealFormat.long.frac = 52 from rfl, show RealFormat.long.cut = 11 from rfl,
      Nat.mod_eq_of_lt (show x.exp - 15360 < 2 ^ 11 by omega)]
  unfold tempToLong
  rw [if_neg (exponent_ne_zero (by omega)), htrunc]
  rw [htrunc, hhi'] at hmem'
  cases longRounds mode x with
  | false => rw [if_neg Bool.false_ne_true, hfields, Bool.toNat_false, Nat.add_zero, Nat.add_assoc]
  | true =>
      have hlt : (longFields x).toNat < 2 ^ 64 - 1 := by
        rw [hfields]
        split
        · omega
        · omega
      rw [if_pos rfl, add_one_toNat hlt, hfields, Bool.toNat_true, Nat.add_assoc, Nat.add_assoc,
        Nat.add_assoc]

/-- The number that `temp_to_long` stores. -/
theorem tempToLong_value (mode : Rounding) (hx : x.Normal)
    (hlo : RealFormat.long.mag RealFormat.long.lo < |x.value|)
    (hhi : |x.value| < RealFormat.long.mag RealFormat.long.hi) :
    (longToTemp (tempToLong mode x)).value =
      if x.negative then -RealFormat.long.mag (RealFormat.long.trunc x + (longRounds mode x).toNat)
      else RealFormat.long.mag (RealFormat.long.trunc x + (longRounds mode x).toNat) := by
  obtain ⟨_, _, hmem, hmem'⟩ := RealFormat.long.trunc_mem hx hlo hhi
  have hpattern := tempToLong_toNat mode hx hlo hhi
  have hone := Carry.toNat_le_one (longRounds mode x)
  have hhi' : RealFormat.long.hi = 2047 * 2 ^ 52 - 1 := rfl
  have hlo' : RealFormat.long.lo = 2 ^ 52 := rfl
  have hlow : (tempToLong mode x).toNat % 2 ^ 63 =
      RealFormat.long.trunc x + (longRounds mode x).toNat := by
    rw [hpattern]
    split
    · omega
    · omega
  have hneg : (tempToLong mode x).isNeg = x.negative := by
    rw [isNeg_eq, hpattern]
    cases x.negative with
    | false =>
        rw [if_neg Bool.false_ne_true]
        exact decide_eq_false (by omega)
    | true =>
        rw [if_pos rfl]
        exact decide_eq_true (by omega)
  rw [long_value (by omega), hlow, hneg]

theorem long_rounds (mode : Rounding) (x : TempReal) (hx : x.Normal)
    (hlo : (longToTemp ⟨0, 0x00100000⟩).value < |x.value|)
    (hhi : |x.value| < (longToTemp ⟨0xffffffff, 0x7fefffff⟩).value) :
    Rounds mode LongValue x.value (longToTemp (tempToLong mode x)).value ↔ LongSeen mode x := by
  have h1 : (longToTemp ⟨0, 0x00100000⟩).value = RealFormat.long.mag RealFormat.long.lo :=
    long_value (by decide)
  have h2 : (longToTemp ⟨0xffffffff, 0x7fefffff⟩).value = RealFormat.long.mag RealFormat.long.hi :=
    long_value (by decide)
  rw [h1] at hlo
  rw [h2] at hhi
  rw [longValue_eq, tempToLong_value mode hx hlo hhi, rounds_iff mode hx hlo hhi, longRounds_proper]

/-- The bits of a long real that the directed modes find in the wrong place are clear. -/
def LongKept (mode : Rounding) (l : Wide) : Prop :=
  match mode with
  | .nearest => True
  | .down => l.isNeg = true → l.a.toNat / 2 ^ 21 % 2 ^ 8 = 0
  | .up => l.isNeg = false → l.a.toNat / 2 ^ 21 % 2 ^ 8 = 0
  | .zero => True

theorem long_zero_kept (mode : Rounding) {l : Wide} (h0 : l.toNat % 2 ^ 63 = 0) :
    tempToLong mode (longToTemp l) = l := by
  have hl := l.toNat_lt
  rw [longToTemp_zero h0]
  unfold tempToLong
  rw [show (of ⟨0, 0⟩ l.isNeg 0).exponent = Exponent.make l.isNeg 0 from rfl, Exponent.and_make,
    if_pos (by decide)]
  refine Wide.eq_of_toNat ?_
  cases hs : l.isNeg with
  | false =>
      rw [isNeg_eq, decide_eq_false_iff_not] at hs
      rw [if_neg (by decide), Wide.toNat_eq_zero.mpr ⟨rfl, rfl⟩]
      omega
  | true =>
      rw [isNeg_eq, decide_eq_true_iff] at hs
      rw [if_pos (by decide)]
      unfold Wide.toNat at *
      dsimp only
      rw [show (0x80000000 : BitVec 32).toNat = 2 ^ 31 from rfl, show (0 : BitVec 32).toNat = 0 from rfl]
      omega

/-- The parts of a long real in a temporary one. -/
theorem longToTemp_parts {l : Wide} (h0 : l.toNat % 2 ^ 63 ≠ 0) :
    (longToTemp l).exp = l.toNat / 2 ^ 52 % 2 ^ 11 + 15360 ∧ (longToTemp l).negative = l.isNeg ∧
      (longToTemp l).m = 2 ^ 63 + l.toNat % 2 ^ 52 * 2 ^ 11 := by
  rw [longToTemp_eq h0]
  exact ⟨of_exp (by omega), of_negative, Wide.ofNat_toNat (by omega)⟩

theorem longFields_longToTemp {l : Wide} (h0 : l.toNat % 2 ^ 63 ≠ 0) :
    longFields (longToTemp l) = l := by
  have hl := l.toNat_lt
  obtain ⟨hexp, hneg, hm⟩ := longToTemp_parts h0
  have hfields := longFields_toNat (x := longToTemp l) (by omega)
  rw [hexp, hneg, hm, isNeg_eq] at hfields
  refine Wide.eq_of_toNat ?_
  rw [hfields]
  by_cases hs : 2 ^ 63 ≤ l.toNat
  · rw [decide_eq_true hs, if_pos rfl]
    omega
  · rw [decide_eq_false hs, if_neg Bool.false_ne_true]
    omega

theorem longRounds_longToTemp (mode : Rounding) {l : Wide} (h0 : l.toNat % 2 ^ 63 ≠ 0) :
    longRounds mode (longToTemp l) = false ↔ LongKept mode l := by
  obtain ⟨_, hneg, hm⟩ := longToTemp_parts h0
  have ha := (longToTemp l).a.isLt
  have hla := l.a.isLt
  rw [m_eq] at hm
  have hsplit : l.toNat = l.b.toNat * 2 ^ 32 + l.a.toNat := rfl
  have hmsb : (longToTemp l).exponent.msb = l.isNeg := hneg
  have hlow : ((longToTemp l).a &&& 0x7ff).toNat = 0 := by
    rw [Fields.toNat_and (k := 11) rfl]
    omega
  have hhigh : (longToTemp l).b &&& 0xff ≠ 0 ↔ l.a.toNat / 2 ^ 21 % 2 ^ 8 ≠ 0 := by
    rw [ne_zero_iff, Fields.toNat_and (k := 8) rfl]
    omega
  unfold longRounds LongKept
  cases mode with
  | nearest =>
      dsimp only
      rw [hlow]
      exact iff_of_true rfl trivial
  | down =>
      dsimp only
      rw [hmsb, ← Bool.not_eq_true, Bool.and_eq_true, decide_eq_true_iff, hhigh, not_and, not_not]
  | up =>
      dsimp only
      rw [hmsb, ← Bool.not_eq_true, Bool.and_eq_true, decide_eq_true_iff, hhigh, not_and, not_not,
        Bool.not_eq_true']
  | zero => exact iff_of_true rfl trivial

theorem long_kept (mode : Rounding) (l : Wide) :
    tempToLong mode (longToTemp l) = l ↔ LongKept mode l := by
  by_cases h0 : l.toNat % 2 ^ 63 = 0
  · refine iff_of_true (long_zero_kept mode h0) ?_
    have ha : l.a.toNat = 0 := by
      unfold Wide.toNat at h0
      omega
    unfold LongKept
    rw [ha]
    cases mode with
    | nearest => trivial
    | down => exact fun _ => rfl
    | up => exact fun _ => rfl
    | zero => trivial
  · obtain ⟨hexp, _, _⟩ := longToTemp_parts h0
    rw [← longRounds_longToTemp mode h0]
    unfold tempToLong
    rw [if_neg (exponent_ne_zero (by omega)), longFields_longToTemp h0]
    cases longRounds mode (longToTemp l) with
    | false => exact iff_of_true (if_neg Bool.false_ne_true) rfl
    | true =>
        refine iff_of_false (fun h => ?_) fun h => Bool.noConfusion h
        have hl := l.toNat_lt
        have hadd := Wide.add_toNat l ⟨1, 0⟩
        rw [if_pos rfl] at h
        rw [h, show (⟨1, 0⟩ : Wide).toNat = 1 by decide] at hadd
        omega

/-- Stores give back what was loaded and round as the mode asks, apart from the bits that the code
does not test or tests in the wrong word. -/
theorem stores_exact (mode : Rounding) :
    (∀ p : BitVec 32, tempToShort mode (shortToTemp p) = p) ∧
    (∀ l : Wide, tempToLong mode (longToTemp l) = l ↔ LongKept mode l) ∧
    (∀ x : TempReal, x.Normal → (shortToTemp 0x00800000).value < |x.value| →
      |x.value| < (shortToTemp 0x7f7fffff).value →
      (Rounds mode ShortValue x.value (shortToTemp (tempToShort mode x)).value ↔
        ShortSeen mode x)) ∧
    ∀ x : TempReal, x.Normal → (longToTemp ⟨0, 0x00100000⟩).value < |x.value| →
      |x.value| < (longToTemp ⟨0xffffffff, 0x7fefffff⟩).value →
      (Rounds mode LongValue x.value (longToTemp (tempToLong mode x)).value ↔ LongSeen mode x) :=
  ⟨short_kept mode, long_kept mode, short_rounds mode, long_rounds mode⟩

/-- 1.5 as a short real -/
theorem stores_exact_half :
    Rounds .nearest ShortValue (of ⟨0, 0xc0000000⟩ false 16383).value
        (shortToTemp (tempToShort .nearest (of ⟨0, 0xc0000000⟩ false 16383))).value ↔
      ShortSeen .nearest (of ⟨0, 0xc0000000⟩ false 16383) := by
  have habs := abs_value (of ⟨0, 0xc0000000⟩ false 16383)
  rw [of_exp (by decide), show (of ⟨0, 0xc0000000⟩ false 16383).m = 3 * 2 ^ 62 by decide] at habs
  refine (stores_exact .nearest).2.2.1 (of ⟨0, 0xc0000000⟩ false 16383) (by decide) ?_ ?_
  · have hmag : (shortToTemp 0x00800000).value = 2 ^ 64 * 2 ^ ((16256 : ℤ) - 16446) :=
      (short_value (p := 0x00800000) (by decide)).trans RealFormat.short.mag_lo
    rw [habs, hmag]
    norm_num
  · have hmag : (shortToTemp 0x7f7fffff).value =
        (2 ^ 23 + 8388607 : Nat) * 2 ^ (((254 : Nat) : ℤ) + (16256 : Nat) + (40 : Nat) - 16446) :=
      short_value (p := 0x7f7fffff) (by decide)
    rw [habs, hmag]
    norm_num

/-- A negative long real that the mode towards minus infinity does not give back. -/
theorem not_stores_exact :
    ¬ ∀ (mode : Rounding) (l : Wide), tempToLong mode (longToTemp l) = l := by
  intro hall
  exact absurd (hall .down ⟨0x00200000, 0xbff00000⟩) (by decide)

end LinuxKernel.V012.Math
