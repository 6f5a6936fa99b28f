import LinuxKernel.V011.Vsprintf

/-!
# LinuxKernel.V011.VsprintfNumber

**What `number` writes.** `Spec` is a conversion of a number as it stands in a
format, and `IsField` says which fields print a value the way the conversion
asks for.

- The digits are only described by what they read back to, so `IsField` has no
  division in it.
- `number` writes such a field wherever counting `size` down does not leave the
  `int`s. Where it does, the next loop pads with some 2^31 characters.
-/

namespace LinuxKernel.V011.Vsprintf

/-! ### Conversions -/

inductive Conv
  | d
  | i
  | u
  | o
  | x
  | X
  | p
  deriving DecidableEq

namespace Conv

def char : Conv → Char
  | d => 'd'
  | i => 'i'
  | u => 'u'
  | o => 'o'
  | x => 'x'
  | X => 'X'
  | p => 'p'

def base : Conv → Nat
  | d | i | u => 10
  | o => 8
  | x | X | p => 16

def signed : Conv → Bool
  | d | i => true
  | _ => false

def small : Conv → Bool
  | x => true
  | _ => false

end Conv

inductive Flag
  | minus
  | plus
  | space
  | hash
  | zero
  deriving DecidableEq

def Flag.char : Flag → Char
  | minus => '-'
  | plus => '+'
  | space => ' '
  | hash => '#'
  | zero => '0'

/-- A width or a precision: none, a number in the format, or `*` and an argument. -/
inductive Size
  | none
  | lit (n : Int)
  | star (n : Int)

structure Spec where
  flags : List Flag
  width : Size
  precision : Size
  conv : Conv

/-- The decimal numeral of a number. -/
def numeral (n : Int) : List Char :=
  if n < 0 then '-' :: Nat.toDigits 10 n.natAbs else Nat.toDigits 10 n.natAbs

/-- The number that a width or precision in the format stands for. -/
def Size.toNat : Size → Nat
  | lit n => n.toNat
  | _ => 0

namespace Spec

variable (s : Spec) (v : BitVec 32)

def has (f : Flag) : Bool := f ∈ s.flags

/-- A `%p` without a width has width 8 and zeros. -/
def bare : Bool :=
  match s.conv, s.width with
  | .p, .none => true
  | _, _ => false

def minWidth : Nat := if s.bare then 8 else s.width.toNat

def zeropad : Bool := s.has .zero || s.bare

def negative : Bool := s.conv.signed && v.msb

/-- The value without its sign. -/
def magnitude : Nat := if s.conv.signed then v.toInt.natAbs else v.toNat

def signText : List Char :=
  if s.negative v then ['-'] else if s.has .plus then ['+'] else if s.has .space then [' '] else []

def prefixText : List Char :=
  if s.has .hash then
    if s.conv.base = 8 then ['0']
    else if s.conv.base = 16 then ['0', if s.conv.small then 'x' else 'X'] else []
  else []

/-- How many digits there are at least, with leading zeros. -/
def digitCount : Nat := max s.precision.toNat (Nat.toDigits s.conv.base (s.magnitude v)).length

/-- The length of the field without padding. -/
def natural : Nat := (s.signText v).length + s.prefixText.length + s.digitCount v

end Spec

/-! ### Reading back -/

def digitVal (c : Char) : Nat :=
  if c ≤ '9' then c.toNat - 48 else if c ≤ 'Z' then c.toNat - 55 else c.toNat - 87

/-- The number that digits stand for. -/
def value (base : Nat) (cs : List Char) : Nat := cs.foldl (fun n c => n * base + digitVal c) 0

/-- `ds` are the digits of `n`, in the letters of the conversion. -/
structure Numeral (conv : Conv) (n : Nat) (ds : List Char) : Prop where
  length : ds.length = (Nat.toDigits conv.base n).length
  digits : ∀ c ∈ ds, ∃ d < conv.base, c = digit conv.small d
  value : value conv.base ds = n

/-- The field prints `v`. -/
structure IsField (s : Spec) (v : BitVec 32) (out : List Char) : Prop where
  length : out.length = max s.minWidth (s.natural v)
  /-- Padding, sign, prefix, zeros and digits, in the order of the flags. -/
  layout : ∃ ds, Numeral s.conv (s.magnitude v) ds ∧
    let zeros := List.replicate (s.digitCount v - ds.length) '0'
    let fill := s.minWidth - s.natural v
    out =
      if s.has .minus then
        s.signText v ++ s.prefixText ++ zeros ++ ds ++ List.replicate fill ' '
      else if s.zeropad then
        s.signText v ++ s.prefixText ++ List.replicate fill '0' ++ zeros ++ ds
      else List.replicate fill ' ' ++ s.signText v ++ s.prefixText ++ zeros ++ ds
  /-- Sign and digits read back to the argument. -/
  value : (if s.signText v = ['-'] then -(s.magnitude v : Int) else s.magnitude v) =
    if s.conv.signed then v.toInt else v.toNat

/-- What `type` is when the parser calls `number`. -/
def Spec.type (s : Spec) : Flags where
  zeropad := s.zeropad
  sign := s.conv.signed
  plus := s.has .plus
  space := s.has .space
  left := s.has .minus
  special := s.has .hash
  small := s.conv.small

/-- How many loops count a negative `size` down, before the last one looks at it. -/
def Spec.extra (s : Spec) : Int := if s.has .minus then 0 else if s.zeropad then 1 else 2

/-! ### Counting down -/

theorem int32_wrap : int32 (-2 ^ 31 - 1) = 2 ^ 31 - 1 := by
  rw [int32_of_lt (by omega) (by omega)]
  omega

theorem countdown_of_le {c : Char} {bound size : Int} (h : size ≤ bound) :
    countdown c bound size = ([], int32 (size - 1)) := by
  rw [countdown, if_neg (Int.not_lt.mpr h)]

theorem countdown_of_lt {c : Char} {bound size : Int} (h : bound < size) :
    countdown c bound size = (List.replicate (size - bound).toNat c, int32 (bound - 1)) := by
  fun_induction countdown c bound size with
  | case1 size hlt r ih =>
      obtain ⟨n, hn⟩ : ∃ n : Nat, (size - bound).toNat = n + 1 := ⟨(size - bound).toNat - 1, by omega⟩
      have hr : r = (List.replicate n c, int32 (bound - 1)) := by
        change countdown c bound (size - 1) = _
        by_cases hnext : bound < size - 1
        · rw [ih hnext, show (size - 1 - bound).toNat = n by omega]
        · obtain rfl : n = 0 := by omega
          rw [show size - 1 = bound by omega, countdown_of_le (Int.le_refl bound)]
          rfl
      rw [hn, List.replicate_succ, hr]
  | case2 size hge => exact absurd h hge

/-! ### Digits -/

theorem digitVal_digit (small : Bool) {d : Nat} (hd : d < 36) :
    digitVal (digit small d) = d := by
  have hall : ∀ small, ∀ d < 36, digitVal (digit small d) = d := by decide
  exact hall small d hd

theorem value_append (base : Nat) (cs : List Char) (c : Char) :
    value base (cs ++ [c]) = value base cs * base + digitVal c := by
  rw [value, List.foldl_append]
  rfl

variable {small : Bool} {base : Nat}

theorem divLoop_of_pos {num : Nat} (hnum : num ≠ 0) (hbase : 1 < base) :
    divLoop small base num = digit small (num % base) :: divLoop small base (num / base) := by
  rw [divLoop, dif_pos ⟨hnum, hbase⟩]

theorem divLoop_zero : divLoop small base 0 = [] := by
  rw [divLoop, dif_neg fun h => h.1 rfl]

/-- What is in `tmp`, read from its end. -/
theorem divLoop_reads (small : Bool) (hbase : 1 < base) (hle : base ≤ 36) (num : Nat) :
    value base (divLoop small base num).reverse = num ∧
      ∀ c ∈ divLoop small base num, ∃ d < base, c = digit small d := by
  induction num using Nat.strong_induction_on with
  | _ num ih =>
      by_cases hnum : num = 0
      · subst hnum
        rw [divLoop_zero]
        exact ⟨rfl, fun c hc => absurd hc List.not_mem_nil⟩
      · have hmod := Nat.mod_lt num (Nat.lt_of_succ_lt hbase)
        obtain ⟨hval, hdig⟩ := ih (num / base) (Nat.div_lt_self (Nat.pos_of_ne_zero hnum) hbase)
        rw [divLoop_of_pos hnum hbase, List.reverse_cons, value_append, hval,
          digitVal_digit small (Nat.lt_of_lt_of_le hmod hle), List.forall_mem_cons]
        exact ⟨Nat.div_add_mod' num base, ⟨_, hmod, rfl⟩, hdig⟩

theorem divLoop_length (hbase : 1 < base) {num : Nat} (hnum : num ≠ 0) :
    (divLoop small base num).length = (Nat.toDigits base num).length := by
  induction num using Nat.strong_induction_on with
  | _ num ih =>
      rw [divLoop_of_pos hnum hbase, Nat.toDigits_eq_if hbase, List.length_cons]
      by_cases hlt : num < base
      · rw [if_pos hlt, Nat.div_eq_of_lt hlt, divLoop_zero]
        rfl
      · have hdiv : num / base ≠ 0 := Nat.div_ne_zero_iff.mpr ⟨by omega, Nat.not_lt.mp hlt⟩
        rw [if_neg hlt, List.length_append,
          ih _ (Nat.div_lt_self (Nat.pos_of_ne_zero hnum) hbase) hdiv]
        rfl

/-- `tmp` of `number`. -/
def tmp (small : Bool) (base num : Nat) : List Char :=
  if num = 0 then ['0'] else divLoop small base num

theorem tmp_numeral (conv : Conv) (n : Nat) :
    Numeral conv n (tmp conv.small conv.base n).reverse := by
  have hbase : 1 < conv.base ∧ conv.base ≤ 36 := by cases conv <;> decide
  unfold tmp
  split
  next hn =>
    subst hn
    refine ⟨?_, ?_, ?_⟩
    · rw [Nat.toDigits_zero]
      rfl
    · intro c hc
      refine ⟨0, Nat.lt_of_succ_lt hbase.1, ?_⟩
      rw [List.mem_singleton.mp hc]
      cases conv.small <;> rfl
    · exact Nat.zero_mul conv.base
  next hn =>
    obtain ⟨hval, hdig⟩ := divLoop_reads conv.small hbase.1 hbase.2 n
    exact ⟨(List.length_reverse ..).trans (divLoop_length hbase.1 hn),
      fun c hc => hdig c (List.mem_reverse.mp hc), hval⟩

theorem magnitude_lt (s : Spec) (v : BitVec 32) : s.magnitude v < 2 ^ 32 := by
  unfold Spec.magnitude
  have hlt := v.isLt
  have hle := BitVec.le_toInt v
  have hint := BitVec.toInt_lt (x := v)
  split <;> omega

/-- A 32-bit number has at most eleven digits. -/
theorem toDigits_length_le (s : Spec) (v : BitVec 32) :
    (Nat.toDigits s.conv.base (s.magnitude v)).length ≤ 11 := by
  have hbase : 8 ≤ s.conv.base := by cases s.conv <;> decide
  rw [Nat.length_toDigits_le_iff (by omega) (by decide)]
  calc s.magnitude v < 2 ^ 32 := magnitude_lt s v
    _ ≤ 8 ^ 11 := by decide
    _ ≤ s.conv.base ^ 11 := Nat.pow_le_pow_left hbase 11

/-! ### Padding -/

/-- The four loops that count `size` down: what is written before the sign, before the digits
and behind them. -/
def pads (left zeropad : Bool) (size : Int) : List Char × List Char × List Char :=
  let (before, size) := if zeropad || left then ([], size) else countdown ' ' 0 size
  let (inside, size) :=
    if left then ([], size) else countdown (if zeropad then '0' else ' ') 0 size
  (before, inside, (countdown ' ' 0 size).1)

/-- One of the loops. -/
theorem countdown_zero (c : Char) (size : Int) :
    countdown c 0 size =
      (List.replicate size.toNat c, if 0 < size then -1 else int32 (size - 1)) := by
  by_cases h : 0 < size
  · rw [countdown_of_lt h, if_pos h, Int.sub_zero]
    rfl
  · rw [countdown_of_le (Int.not_lt.mp h), if_neg h, Int.toNat_of_nonpos (Int.not_lt.mp h)]
    rfl

/-- Behind a loop `size` is negative, unless it has wrapped around. -/
theorem countdown_left {n : Int} (h : -2 ^ 31 < n) :
    -2 ^ 31 ≤ (if 0 < n then -1 else int32 (n - 1)) ∧
      min (n - 1) (-1) ≤ (if 0 < n then -1 else int32 (n - 1)) ∧
      (if 0 < n then -1 else int32 (n - 1)) < 0 := by
  split
  next hpos => omega
  next hpos =>
    rw [int32_eq (by omega) (by omega)]
    omega

theorem replicate_neg {n : Int} (h : n < 0) (c : Char) : List.replicate n.toNat c = [] := by
  rw [Int.toNat_of_nonpos h.le]
  rfl

theorem pads_left (zeropad : Bool) (n : Int) :
    pads true zeropad n = ([], [], (countdown ' ' 0 n).1) := by
  cases zeropad <;> rfl

theorem pads_zeros (n : Int) :
    pads false true n =
      ([], (countdown '0' 0 n).1, (countdown ' ' 0 (countdown '0' 0 n).2).1) := rfl

theorem pads_spaces (n : Int) :
    pads false false n =
      ((countdown ' ' 0 n).1, (countdown ' ' 0 (countdown ' ' 0 n).2).1,
        (countdown ' ' 0 (countdown ' ' 0 (countdown ' ' 0 n).2).2).1) := rfl

/-- What is missing is written by one of the loops. -/
theorem pads_fit {left zeropad : Bool} {n : Int}
    (hfit : -2 ^ 31 + (if left then 0 else if zeropad then 1 else 2) ≤ n) :
    pads left zeropad n =
      if left then ([], [], List.replicate n.toNat ' ')
      else if zeropad then ([], List.replicate n.toNat '0', [])
      else (List.replicate n.toNat ' ', [], []) := by
  cases left with
  | true => rw [pads_left, countdown_zero, if_pos rfl]
  | false =>
      rw [if_neg Bool.false_ne_true] at hfit ⊢
      obtain ⟨hlo, hge, hneg⟩ := countdown_left (n := n) (by split at hfit <;> omega)
      cases zeropad with
      | true => rw [pads_zeros, countdown_zero, countdown_zero, replicate_neg hneg, if_pos rfl]
      | false =>
          rw [if_neg Bool.false_ne_true] at hfit ⊢
          obtain ⟨-, -, hneg'⟩ := countdown_left
            (n := if 0 < n then -1 else int32 (n - 1)) (by omega)
          rw [pads_spaces, countdown_zero ' ' n]
          dsimp only
          rw [countdown_zero]
          dsimp only
          rw [countdown_zero, replicate_neg hneg, replicate_neg hneg']

/-- A positive `size` is padded. -/
theorem pads_pos (left zeropad : Bool) {n : Int} (h : 0 < n) :
    0 < (pads left zeropad n).1.length + (pads left zeropad n).2.1.length +
      (pads left zeropad n).2.2.length := by
  have hlen : ∀ c, (countdown c 0 n).1.length = n.toNat := fun c => by
    rw [countdown_zero, List.length_replicate]
  cases left with
  | true =>
      rw [pads_left, hlen]
      omega
  | false =>
      cases zeropad with
      | true =>
          rw [pads_zeros, hlen]
          omega
      | false =>
          rw [pads_spaces, hlen]
          omega

/-- Counted down too far, `size` is positive for the next loop. -/
theorem pads_wrap {left zeropad : Bool} {n : Int} (hlo : -2 ^ 31 ≤ n)
    (hwrap : n < -2 ^ 31 + if left then 0 else if zeropad then 1 else 2) :
    0 < (pads left zeropad n).1.length + (pads left zeropad n).2.1.length +
      (pads left zeropad n).2.2.length := by
  cases left with
  | true =>
      rw [if_pos rfl] at hwrap
      omega
  | false =>
      rw [if_neg Bool.false_ne_true] at hwrap
      have hsize : ¬ 0 < n := by split at hwrap <;> omega
      obtain ⟨m, hmin, hm⟩ : ∃ m, int32 (-2 ^ 31 - 1) = m ∧ 0 < m :=
        ⟨2 ^ 31 - 1, int32_wrap, by decide⟩
      cases zeropad with
      | true =>
          rw [if_pos rfl] at hwrap
          obtain rfl : n = -2 ^ 31 := by omega
          rw [pads_zeros, countdown_zero '0', if_neg hsize, hmin, countdown_zero]
          dsimp only
          rw [List.length_replicate, List.length_replicate]
          omega
      | false =>
          rw [if_neg Bool.false_ne_true] at hwrap
          rw [pads_spaces, countdown_zero ' ' n, if_neg hsize]
          dsimp only
          by_cases hfirst : n = -2 ^ 31
          · rw [hfirst, hmin, countdown_zero]
            dsimp only
            rw [List.length_replicate, List.length_replicate]
            omega
          · obtain rfl : n = -2 ^ 31 + 1 := by omega
            have hnext : int32 (-2 ^ 31 + 1 - 1) = -2 ^ 31 := by decide
            rw [hnext, countdown_zero ' ' (-2 ^ 31), if_neg (by decide), hmin, countdown_zero]
            dsimp only
            rw [List.length_replicate, List.length_replicate, List.length_replicate]
            omega

/-! ### `number` -/

/-- The width and the precision that the parser has read, -1 for none. -/
structure Sized (s : Spec) (size precision : Int) : Prop where
  width : size.toNat = s.minWidth
  size : -1 ≤ size ∧ size < 2 ^ 31
  digits : precision.toNat = s.precision.toNat
  precision : -1 ≤ precision ∧ precision < 2 ^ 31

variable {s : Spec} {v : BitVec 32} {size precision : Int}

theorem toNat_neg_of_msb (h : v.msb = true) : (-v).toNat = v.toInt.natAbs := by
  have hneg := BitVec.toInt_neg_of_msb_true h
  have hv := BitVec.toInt_eq_msb_cond v
  rw [if_pos h] at hv
  have hlo := BitVec.le_toInt v
  rw [BitVec.toNat_neg]
  omega

theorem toNat_of_msb (h : v.msb = false) : v.toNat = v.toInt.natAbs := by
  rw [BitVec.toInt_eq_toNat_of_msb h]
  exact (Int.natAbs_natCast _).symm

/-- What is divided. -/
theorem toNat_magnitude (s : Spec) (v : BitVec 32) :
    (if s.negative v then -v else v).toNat = s.magnitude v := by
  unfold Spec.negative Spec.magnitude
  cases s.conv.signed with
  | false => rfl
  | true =>
      rw [Bool.true_and, if_pos rfl]
      cases hmsb : v.msb with
      | true => exact toNat_neg_of_msb hmsb
      | false => exact toNat_of_msb hmsb

theorem signText_eq_iff (s : Spec) (v : BitVec 32) :
    s.signText v = ['-'] ↔ s.negative v = true := by
  unfold Spec.signText
  split
  next h => exact iff_of_true rfl h
  next h =>
    refine iff_of_false (fun he => ?_) h
    split at he
    · cases he
    · split at he <;> cases he

/-- The sign and what is divided give the argument. -/
theorem value_eq (s : Spec) (v : BitVec 32) :
    (if s.signText v = ['-'] then -(s.magnitude v : Int) else s.magnitude v) =
      if s.conv.signed then v.toInt else v.toNat := by
  simp only [signText_eq_iff]
  unfold Spec.negative Spec.magnitude
  cases s.conv.signed with
  | false => rfl
  | true =>
      rw [Bool.true_and, if_pos rfl, if_pos rfl]
      have hv := BitVec.toInt_eq_msb_cond v
      have hlt := v.isLt
      cases hmsb : v.msb with
      | true =>
          rw [hmsb, if_pos rfl] at hv
          rw [if_pos rfl]
          omega
      | false =>
          rw [hmsb, if_neg Bool.false_ne_true] at hv
          rw [if_neg Bool.false_ne_true]
          omega

/-- The length of the sign and of the prefix. -/
theorem text_length_le (s : Spec) (v : BitVec 32) :
    (s.signText v).length ≤ 1 ∧ s.prefixText.length ≤ 2 := by
  unfold Spec.signText Spec.prefixText
  constructor
  · split
    · exact Nat.le_refl 1
    · split
      · exact Nat.le_refl 1
      · split
        · exact Nat.le_refl 1
        · exact Nat.zero_le 1
  · split
    · split
      · exact Nat.le_succ 1
      · split
        · exact Nat.le_refl 2
        · exact Nat.zero_le 2
    · exact Nat.zero_le 2

/-- `size` behind the sign. -/
theorem size_sign (hlo : -1 ≤ size) (hhi : size < 2 ^ 31) (s : Spec) (v : BitVec 32) :
    (if s.signText v ≠ [] then int32 (size - 1) else size) = size - (s.signText v).length := by
  split
  next h =>
    have hpos := List.length_pos_iff.mpr h
    have hle := (text_length_le s v).1
    rw [int32_eq (by omega) (by omega)]
    omega
  next h => rw [not_not.mp h, List.length_nil, Int.natCast_zero, Int.sub_zero]

/-- `size` behind the prefix. -/
theorem size_prefix (hlo : -2 ≤ size) (hhi : size < 2 ^ 31) (s : Spec) :
    (if s.has .hash then
      if s.conv.base = 16 then int32 (size - 2)
      else if s.conv.base = 8 then int32 (size - 1) else size
      else size) = size - s.prefixText.length := by
  unfold Spec.prefixText
  cases s.has .hash with
  | false => exact (Int.sub_zero size).symm
  | true =>
      rw [if_pos rfl, if_pos rfl]
      by_cases h16 : s.conv.base = 16
      · rw [if_pos h16, if_neg (by omega), if_pos h16, int32_eq (by omega) (by omega)]
        rfl
      · rw [if_neg h16, if_neg h16]
        split
        · rw [int32_eq (by omega) (by omega)]
          rfl
        · exact (Int.sub_zero size).symm

theorem prefixText_eq (s : Spec) :
    (if s.has .hash then
      if s.conv.base = 8 then ['0']
      else if s.conv.base = 16 then ['0', digit s.conv.small 33] else []
      else []) = s.prefixText := by
  unfold Spec.prefixText
  cases s.conv.small <;> rfl

/-- The precision, when it is not below the number of digits. -/
theorem precision_eq (h : Sized s size precision) (v : BitVec 32) :
    (if ((Nat.toDigits s.conv.base (s.magnitude v)).length : Int) > precision then
      ((Nat.toDigits s.conv.base (s.magnitude v)).length : Int) else precision) =
      s.digitCount v := by
  have hpos : 0 < (Nat.toDigits s.conv.base (s.magnitude v)).length := Nat.length_toDigits_pos
  have hdigits := h.digits
  have hlo := h.precision.1
  unfold Spec.digitCount
  split <;> omega

theorem countdown_zeros (n m : Nat) : (countdown '0' n m).1 = List.replicate (m - n) '0' := by
  by_cases h : (n : Int) < m
  · rw [countdown_of_lt h]
    exact congrArg (fun k => List.replicate k '0') (by omega)
  · rw [countdown_of_le (Int.not_lt.mp h), show m - n = 0 by omega]
    rfl

/-- The loops of `emit`, put together. -/
theorem emit_eq (type : Flags) (sign special tmp : List Char) (size : Int) (precision : Nat) :
    emit type sign special tmp size precision =
      let q := pads type.left (type.zeropad && !type.left) size
      q.1 ++ sign ++ special ++ q.2.1 ++ List.replicate (precision - tmp.length) '0' ++
        tmp.reverse ++ q.2.2 := by
  unfold emit pads
  dsimp only
  rw [countdown_zeros]

theorem number_eq (h : Sized s size precision) :
    number v s.conv.base size precision s.type =
      let q := pads (s.has .minus) (s.zeropad && !s.has .minus) (int32 (size - s.natural v))
      let ds := (tmp s.conv.small s.conv.base (s.magnitude v)).reverse
      q.1 ++ s.signText v ++ s.prefixText ++ q.2.1 ++
        List.replicate (s.digitCount v - ds.length) '0' ++ ds ++ q.2.2 := by
  have hnum := toNat_magnitude s v
  have hlen := (tmp_numeral s.conv (s.magnitude v)).length
  obtain ⟨hsign, hprefix⟩ := text_length_le s v
  have htmp : (if (if s.negative v then -v else v) = 0 then ['0']
      else divLoop s.conv.small s.conv.base (if s.negative v then -v else v).toNat) =
      tmp s.conv.small s.conv.base (s.magnitude v) := by
    rw [hnum, tmp]
    refine if_congr ?_ rfl rfl
    rw [← hnum, ← BitVec.toNat_inj]
    rfl
  have hlo : -2 ≤ size - (s.signText v).length := by
    have := h.size.1
    omega
  have hhi : size - (s.signText v).length < 2 ^ 31 := by
    have := h.size.2
    omega
  have hsize : size - (s.signText v).length - s.prefixText.length - (s.digitCount v : Int) =
      size - s.natural v := by
    unfold Spec.natural
    omega
  rw [List.length_reverse] at hlen
  have hnumber : number v s.conv.base size precision s.type =
      emit s.type (s.signText v) s.prefixText (tmp s.conv.small s.conv.base (s.magnitude v))
        (int32 (size - s.natural v)) (s.digitCount v) := by
    have hneg : (s.conv.signed && v.msb) = s.negative v := rfl
    have hsgn : (if s.negative v then ['-'] else if s.has .plus then ['+']
        else if s.has .space then [' '] else []) = s.signText v := rfl
    have htype : s.type = ⟨s.zeropad, s.conv.signed, s.has .plus, s.has .space, s.has .minus,
      s.has .hash, s.conv.small⟩ := rfl
    rw [htype]
    unfold number
    dsimp only
    rw [hneg, hsgn, htmp, hlen, precision_eq h v, prefixText_eq,
      size_sign h.size.1 h.size.2, size_prefix hlo hhi, hsize]
  rw [hnumber, emit_eq]
  dsimp only
  rw [List.length_reverse]
  rfl

/-- The loops of `number` count `size` down to `size - natural` and a little further. -/
def Fits (s : Spec) (v : BitVec 32) (size : Int) : Prop := -2 ^ 31 + s.extra ≤ size - s.natural v

theorem extra_eq (s : Spec) :
    s.extra = if s.has .minus then 0 else if s.zeropad && !s.has .minus then 1 else 2 := by
  unfold Spec.extra
  cases s.has .minus with
  | true => rfl
  | false => rw [Bool.not_false, Bool.and_true]

theorem natural_lt (h : Sized s size precision) (v : BitVec 32) : s.natural v < 2 ^ 31 + 3 := by
  have hprec := h.precision
  have hdigits := h.digits
  have hlen := toDigits_length_le s v
  obtain ⟨hsign, hprefix⟩ := text_length_le s v
  unfold Spec.natural Spec.digitCount
  omega

/-- The field without its padding. -/
theorem number_length (h : Sized s size precision) :
    let q := pads (s.has .minus) (s.zeropad && !s.has .minus) (int32 (size - s.natural v))
    (number v s.conv.base size precision s.type).length =
      q.1.length + q.2.1.length + q.2.2.length + s.natural v := by
  have hlen := (tmp_numeral s.conv (s.magnitude v)).length
  have hle : (tmp s.conv.small s.conv.base (s.magnitude v)).reverse.length ≤ s.digitCount v := by
    rw [hlen]
    exact Nat.le_max_right _ _
  rw [number_eq h]
  simp only [List.length_append, List.length_replicate]
  unfold Spec.natural
  omega

/-- **`number` writes the field**, exactly where `size` does not wrap around. -/
theorem number_isField_iff (h : Sized s size precision) :
    IsField s v (number v s.conv.base size precision s.type) ↔ Fits s v size := by
  have hlt := natural_lt h v
  have hlo := h.size.1
  have hhi := h.size.2
  have hwidth := h.width
  have hlength := number_length (v := v) h
  unfold Fits
  rw [extra_eq]
  constructor
  · intro hfield
    by_contra hno
    have hpad : 0 < (number v s.conv.base size precision s.type).length - s.natural v := by
      rw [hlength, Nat.add_sub_cancel]
      by_cases hmin : size - s.natural v < -2 ^ 31
      · refine pads_pos _ _ ?_
        rw [int32_of_lt hmin (by omega)]
        omega
      · rw [int32_eq (by omega) (by omega)]
        exact pads_wrap (by omega) (by omega)
    have hmax := hfield.length
    have : size - s.natural v < 0 := by split at hno <;> [skip; split at hno] <;> omega
    omega
  · intro hfit
    have hmin : -2 ^ 31 ≤ size - s.natural v := by split at hfit <;> [skip; split at hfit] <;> omega
    have hpads := pads_fit hfit
    have hfill : (size - s.natural v).toNat = s.minWidth - s.natural v := by omega
    rw [hfill] at hpads
    rw [int32_eq hmin (by omega), hpads] at hlength
    refine ⟨?_, ⟨_, tmp_numeral s.conv (s.magnitude v), ?_⟩, value_eq s v⟩
    · rw [hlength]
      cases s.has .minus <;> cases s.zeropad <;>
        simp only [Bool.false_eq_true, if_true, if_false, Bool.not_false, Bool.not_true,
          Bool.and_true, Bool.and_false, List.length_nil, List.length_replicate] <;> omega
    · rw [number_eq h, int32_eq hmin (by omega), hpads]
      cases s.has .minus <;> cases s.zeropad <;>
        simp only [Bool.false_eq_true, if_true, if_false, Bool.not_false, Bool.not_true,
          Bool.and_true, Bool.and_false, List.nil_append, List.append_nil]

end LinuxKernel.V011.Vsprintf
