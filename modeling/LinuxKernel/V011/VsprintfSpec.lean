import LinuxKernel.V011.VsprintfFormat

/-!
# LinuxKernel.V011.VsprintfSpec

**Formatted numbers read back.** `Spec.ReadsBack` is what a conversion of a
number should do: print the field that its flags, width and precision ask for,
and with a `*` print what it prints with the number in the format.

- Without a `*` it does so wherever `number` does.
- With a `*` it never does.
-/

namespace LinuxKernel.V011.Vsprintf

/-! ### Texts -/

def Size.text : Size → List Char
  | none => []
  | lit n => numeral n
  | star _ => ['*']

def Size.args : Size → List Arg
  | star n => [.int (BitVec.ofInt 32 n)]
  | _ => []

/-- The size with its number in the format. -/
def Size.written : Size → Size
  | star n => lit n
  | size => size

def Size.isStar : Size → Bool
  | star _ => true
  | _ => false

/-- The precision with its `.`. -/
def Size.pointText : Size → List Char
  | none => []
  | size => '.' :: size.text

namespace Spec

variable (s : Spec) (v : BitVec 32)

def text : List Char :=
  '%' :: (s.flags.map Flag.char ++ (s.width.text ++ (s.precision.pointText ++ [s.conv.char])))

def args : List Arg := s.width.args ++ (s.precision.args ++ [.int v])

/-- The conversion with the arguments of its `*`s as numerals. -/
def written : Spec := { s with width := s.width.written, precision := s.precision.written }

def plain : Bool := !s.width.isStar && !s.precision.isStar

/-- The numbers are `int`s: a width in the format is positive, as a 0 is a flag there, and a
precision in the format has no sign. -/
structure Proper : Prop where
  width : ∀ n, s.width = .lit n → 0 < n ∧ n < 2 ^ 31
  precision : ∀ n, s.precision = .lit n → 0 ≤ n ∧ n < 2 ^ 31
  star : ∀ n, s.width = .star n ∨ s.precision = .star n → -2 ^ 31 ≤ n ∧ n < 2 ^ 31

/-- What the conversion should do with `v`. -/
structure ReadsBack : Prop where
  field : s.plain = true → ∃ out, vsprintf s.text (s.args v) = some ⟨out, []⟩ ∧ IsField s v out
  star : vsprintf s.text (s.args v) = vsprintf s.written.text (s.written.args v)

/-- The width with which `number` is called. -/
def size : Int :=
  match s.width with
  | .lit n => n
  | _ => if s.bare then 8 else -1

end Spec

/-! ### Without a `*` -/

/-- The digits of a size in the format. -/
def Size.digits : Size → Option Nat
  | lit n => some n.toNat
  | _ => Option.none

theorem numeral_of_nonneg {n : Int} (h : 0 ≤ n) : numeral n = Nat.toDigits 10 n.toNat := by
  unfold numeral
  rw [if_neg (Int.not_lt.mpr h)]
  exact congrArg (Nat.toDigits 10) (by omega)

theorem Size.text_eq {z : Size} (hstar : z.isStar = false) (h : ∀ n, z = .lit n → 0 ≤ n) :
    z.text = digitsOf z.digits ∧ z.pointText = pointDigits z.digits ∧ z.args = [] := by
  cases z with
  | none => exact ⟨rfl, rfl, rfl⟩
  | lit n =>
      have hn := numeral_of_nonneg (h n rfl)
      exact ⟨hn, congrArg ('.' :: ·) hn, rfl⟩
  | star n => cases hstar

variable {s : Spec} {v : BitVec 32}

theorem widthOf_lit {n : Int} (h : 0 ≤ n) (h' : n < 2 ^ 31) : widthOf (some n.toNat) = n := by
  rw [widthOf, Int.toNat_of_nonneg h, int32_eq (by omega) h']

theorem precisionOf_lit {n : Int} (h : 0 ≤ n) (h' : n < 2 ^ 31) :
    precisionOf (some n.toNat) = n := by
  rw [precisionOf, Int.toNat_of_nonneg h, int32_eq (by omega) h', if_neg (Int.not_lt.mpr h)]

theorem plain_iff : s.plain = true ↔ s.width.isStar = false ∧ s.precision.isStar = false := by
  unfold Spec.plain
  rw [Bool.and_eq_true, Bool.not_eq_true', Bool.not_eq_true']

theorem text_plain (hp : s.Proper) (h : s.plain = true) :
    s.text = plainText s.flags s.width.digits s.precision.digits s.conv ∧
      s.args v = [.int v] := by
  obtain ⟨hw, hprec⟩ := plain_iff.mp h
  obtain ⟨hwidth, -, hwargs⟩ := Size.text_eq hw fun n hn => (hp.width n hn).1.le
  obtain ⟨-, hpoint, hpargs⟩ := Size.text_eq hprec fun n hn => (hp.precision n hn).1
  unfold Spec.text Spec.args
  rw [hwidth, hpoint, hwargs, hpargs]
  exact ⟨rfl, rfl⟩

/-- The width is absent or a number in the format. -/
theorem width_cases (hp : s.Proper) (h : s.plain = true) :
    s.width = .none ∨ ∃ n, s.width = .lit n ∧ 0 < n ∧ n < 2 ^ 31 := by
  cases hw : s.width with
  | none => exact .inl rfl
  | lit n => exact .inr ⟨n, rfl, hp.width n hw⟩
  | star n =>
      have hstar := (plain_iff.mp h).1
      rw [hw] at hstar
      cases hstar

theorem precision_cases (hp : s.Proper) (h : s.plain = true) :
    s.precision = .none ∨ ∃ n, s.precision = .lit n ∧ 0 ≤ n ∧ n < 2 ^ 31 := by
  cases hw : s.precision with
  | none => exact .inl rfl
  | lit n => exact .inr ⟨n, rfl, hp.precision n hw⟩
  | star n =>
      have hstar := (plain_iff.mp h).2
      rw [hw] at hstar
      cases hstar

theorem bare_of_none (h : s.width = .none) : s.bare = decide (s.conv = .p) := by
  unfold Spec.bare
  rw [h]
  cases s.conv <;> rfl

theorem bare_of_lit {n : Int} (h : s.width = .lit n) : s.bare = false := by
  unfold Spec.bare
  rw [h]
  cases s.conv <;> rfl

/-- The width with which the `switch` calls `number`. -/
theorem callWidth_eq (hp : s.Proper) (h : s.plain = true) :
    callWidth (widthOf s.width.digits) s.conv = s.size := by
  unfold Spec.size callWidth
  obtain hw | ⟨n, hw, hn, hlt⟩ := width_cases hp h
  · rw [bare_of_none hw, hw]
    by_cases hconv : s.conv = .p <;> simp [hconv, Size.digits, widthOf]
  · rw [hw, Size.digits, widthOf_lit hn.le hlt, if_neg fun hc => by omega]

theorem callFlags_eq (hp : s.Proper) (h : s.plain = true) :
    callFlags (.of s.flags) (widthOf s.width.digits) s.conv = s.type := by
  have hpad : (decide (Flag.zero ∈ s.flags) ||
      (s.conv = .p && widthOf s.width.digits = -1 : Bool)) = s.zeropad := by
    unfold Spec.zeropad Spec.has
    obtain hw | ⟨n, hw, hn, hlt⟩ := width_cases hp h
    · rw [bare_of_none hw, hw]
      simp [Size.digits, widthOf]
    · rw [bare_of_lit hw, hw, Size.digits, widthOf_lit hn.le hlt,
        decide_eq_false (show n ≠ -1 by omega), Bool.and_false]
  unfold callFlags Spec.type
  dsimp only [Flags.of]
  rw [hpad]
  rfl

theorem sized (hp : s.Proper) (h : s.plain = true) :
    Sized s s.size (precisionOf s.precision.digits) := by
  have hwidth : s.size.toNat = s.minWidth ∧ -1 ≤ s.size ∧ s.size < 2 ^ 31 := by
    unfold Spec.size Spec.minWidth
    obtain hw | ⟨n, hw, hn, hlt⟩ := width_cases hp h
    · rw [hw]
      dsimp only
      split
      · exact ⟨rfl, by decide, by decide⟩
      · exact ⟨rfl, by decide, by decide⟩
    · rw [hw, bare_of_lit hw]
      dsimp only
      exact ⟨rfl, by omega, hlt⟩
  have hprec : (precisionOf s.precision.digits).toNat = s.precision.toNat ∧
      -1 ≤ precisionOf s.precision.digits ∧ precisionOf s.precision.digits < 2 ^ 31 := by
    obtain hz | ⟨n, hz, hn, hlt⟩ := precision_cases hp h
    · rw [hz]
      exact ⟨rfl, by decide, by decide⟩
    · rw [hz, Size.digits, precisionOf_lit hn hlt]
      exact ⟨rfl, by omega, hlt⟩
  exact ⟨hwidth.1, hwidth.2, hprec.1, hprec.2⟩

/-- A conversion without `*` is one call of `number`. -/
theorem vsprintf_text (hp : s.Proper) (h : s.plain = true) :
    vsprintf s.text (s.args v) =
      some ⟨number v s.conv.base s.size (precisionOf s.precision.digits) s.type, []⟩ := by
  have hpos : ∀ n, s.width.digits = some n → 0 < n := by
    intro n hn
    obtain hw | ⟨m, hw, hm, -⟩ := width_cases hp h
    · rw [hw] at hn
      cases hn
    · rw [hw] at hn
      have hmn := Option.some.inj hn
      omega
  obtain ⟨htext, hargs⟩ := text_plain (v := v) hp h
  rw [htext, hargs, vsprintf_plain _ hpos, plainField, callWidth_eq hp h, callFlags_eq hp h]

theorem written_plain (h : s.plain = true) : s.written = s := by
  obtain ⟨hw, hz⟩ := plain_iff.mp h
  obtain ⟨flags, width, precision, conv⟩ := s
  cases width with
  | star n => cases hw
  | _ =>
      cases precision with
      | star n => cases hz
      | _ => rfl

/-! ### With a `*` -/

theorem mem_countdown {c d : Char} {bound size : Int} (h : d ∈ (countdown c bound size).1) :
    d = c := by
  fun_induction countdown c bound size with
  | case1 size hlt r ih =>
      obtain rfl | h := List.mem_cons.mp h
      · rfl
      · exact ih h
  | case2 size hge => exact absurd h List.not_mem_nil

/-- The digits hold no `%`. -/
theorem percent_not_mem_divLoop {small : Bool} {base num : Nat} (hbase : 1 < base)
    (hle : base ≤ 16) : '%' ∉ divLoop small base num := by
  intro hmem
  obtain ⟨d, hd, heq⟩ := (divLoop_reads small hbase (by omega) num).2 _ hmem
  have hall : ∀ small, ∀ d < 16, '%' ≠ digit small d := by decide
  exact hall small d (by omega) heq

theorem percent_not_mem_emit {type : Flags} {sign special tmp : List Char} {size precision : Int}
    (hsign : '%' ∉ sign) (hspecial : '%' ∉ special) (htmp : '%' ∉ tmp) :
    '%' ∉ emit type sign special tmp size precision := by
  have hspace : ∀ size, '%' ∉ (countdown ' ' 0 size).1 := fun size hmem =>
    absurd (mem_countdown hmem) (by decide)
  have hzero : ∀ bound size, '%' ∉ (countdown '0' bound size).1 := fun bound size hmem =>
    absurd (mem_countdown hmem) (by decide)
  unfold emit
  cases type.left <;> cases type.zeropad <;> simp [*]

theorem percent_not_mem_number {num : BitVec 32} {base : Nat} {size precision : Int}
    {type : Flags} (hbase : 1 < base) (hle : base ≤ 16) :
    '%' ∉ number num base size precision type := by
  have hletter : ∀ small, '%' ≠ digit small 33 := by decide
  have htmp : ∀ n : BitVec 32,
      '%' ∉ if n = 0 then ['0'] else divLoop type.small base n.toNat := by
    intro n
    split
    · exact (by decide : '%' ∉ ['0'])
    · exact percent_not_mem_divLoop hbase hle
  unfold number
  dsimp only
  refine percent_not_mem_emit ?_ ?_ (htmp _)
  · split
    · decide
    · split
      · decide
      · split <;> decide
  · split
    · split
      · decide
      · split
        · simp [hletter]
        · decide
    · decide

theorem percent_not_mem_digits {p : Option Nat} : '%' ∉ digitsOf p := by
  cases p with
  | none => exact List.not_mem_nil
  | some n => exact fun hmem => absurd (isDigit_toDigits (n := n) hmem) (by decide)

theorem conv_ne_percent (conv : Conv) : '%' ≠ conv.char := by
  cases conv <;> decide

theorem numeral_of_neg {n : Int} (h : n < 0) :
    numeral n = '-' :: digitsOf (some n.natAbs) := by
  unfold numeral
  rw [if_pos h]
  rfl

theorem percent_not_mem_numeral (n : Int) : '%' ∉ numeral n := by
  rcases Int.lt_or_le n 0 with h | h
  · rw [numeral_of_neg h]
    exact List.not_mem_cons_of_ne_of_not_mem (by decide) percent_not_mem_digits
  · rw [numeral_of_nonneg h]
    exact percent_not_mem_digits (p := some n.toNat)

theorem percent_not_mem_point (z : Size) (conv : Conv) :
    '%' ∉ z.pointText ++ [conv.char] := by
  have hconv : '%' ∉ [conv.char] := fun hmem =>
    conv_ne_percent conv (List.mem_singleton.mp hmem)
  refine List.not_mem_append ?_ hconv
  cases z with
  | none => exact List.not_mem_nil
  | lit n => exact List.not_mem_cons_of_ne_of_not_mem (by decide) (percent_not_mem_numeral n)
  | star n => exact List.not_mem_cons_of_ne_of_not_mem (by decide) (by decide : '%' ∉ ['*'])

/-- A character that is no conversion is printed behind a `%`. -/
theorem convert_star (out : Printed) (f : Flags) (width precision : Int) (cs : List Char)
    (args : List Arg) :
    convert out ⟨f, width, precision, '*' :: cs, args⟩ = some (out.put ['%', '*'], cs, args) :=
  rfl

theorem convert_minus (out : Printed) (f : Flags) (width precision : Int) (cs : List Char)
    (args : List Arg) :
    convert out ⟨f, width, precision, '-' :: cs, args⟩ = some (out.put ['%', '-'], cs, args) :=
  rfl

/-- The text of a conversion with a `*` is printed itself from the `*` on. -/
theorem vsprintf_of_conversion {cs cs' : List Char} {args args' : List Arg} {c : Char}
    (h : conversion ⟨[], []⟩ cs args = some (⟨['%', c], []⟩, cs', args')) (hcs : '%' ∉ cs') :
    vsprintf ('%' :: cs) args = some ⟨'%' :: c :: cs', []⟩ := by
  rw [vsprintf, format_percent h, format_plain _ _ hcs]
  rfl

/-- The parser stays on a `*` for the width. -/
theorem conversion_star (fs : List Flag) (n : Int) (cs : List Char) (args : List Arg) :
    conversion ⟨[], []⟩ (fs.map Flag.char ++ ('*' :: cs)) (.int (BitVec.ofInt 32 n) :: args) =
      some (⟨['%', '*'], []⟩, cs, args) := by
  have hflag : NoFlag ('*' :: cs) := by
    intro c cs' g heq
    rw [← (List.cons.inj heq).1]
    cases g <;> decide
  unfold conversion
  dsimp only
  rw [parseFlags_map, foldl_none, parseFlags_stop hflag]
  dsimp only
  unfold parseWidth
  dsimp only
  rw [if_neg (by decide), if_pos rfl]
  split
  · exact convert_star _ _ _ _ _ _
  · exact convert_star _ _ _ _ _ _

/-- Nor does it leave a `*` or a sign behind the `.`. -/
theorem conversion_point (fs : List Flag) {w : Option Nat} (hw : ∀ n, w = some n → 0 < n)
    (cs : List Char) (args : List Arg) :
    (∀ n, conversion ⟨[], []⟩ (fs.map Flag.char ++ (digitsOf w ++ ('.' :: '*' :: cs)))
      (.int n :: args) = some (⟨['%', '*'], []⟩, cs, args)) ∧
    conversion ⟨[], []⟩ (fs.map Flag.char ++ (digitsOf w ++ ('.' :: '-' :: cs))) args =
      some (⟨['%', '-'], []⟩, cs, args) := by
  constructor
  · intro n
    rw [conversion_width _ fs hw stops_point, parsePrecision_point, if_neg (by decide), if_pos rfl]
    exact convert_star _ _ _ _ _ _
  · rw [conversion_width _ fs hw stops_point, parsePrecision_point, if_neg (by decide),
      if_neg (by decide)]
    exact convert_minus _ _ _ _ _ _

/-- A width in the format is read as flags and digits. -/
theorem width_text (fs : List Flag) {z : Size} (h : z.isStar = false) :
    ∃ (fs' : List Flag) (w : Option Nat), (∀ n, w = some n → 0 < n) ∧
      ∀ cs, fs.map Flag.char ++ (z.text ++ cs) = fs'.map Flag.char ++ (digitsOf w ++ cs) := by
  cases z with
  | none => exact ⟨fs, none, fun n hn => (by cases hn), fun cs => rfl⟩
  | star n => cases h
  | lit n =>
      rcases lt_trichotomy n 0 with hn | rfl | hn
      · refine ⟨fs ++ [.minus], some n.natAbs, fun m hm => ?_, fun cs => ?_⟩
        · rw [← Option.some.inj hm]
          exact Int.natAbs_pos.mpr hn.ne
        · rw [Size.text, numeral_of_neg hn, List.map_append, List.append_assoc]
          rfl
      · refine ⟨fs ++ [.zero], none, fun m hm => (by cases hm), fun cs => ?_⟩
        rw [List.map_append, List.append_assoc]
        rfl
      · refine ⟨fs, some n.toNat, fun m hm => ?_, fun cs => ?_⟩
        · rw [← Option.some.inj hm]
          omega
        · rw [Size.text, numeral_of_nonneg hn.le]
          rfl

theorem Size.args_eq_nil {z : Size} (h : z.isStar = false) : z.args = [] := by
  cases z with
  | star n => cases h
  | _ => rfl

theorem Size.isStar_written (z : Size) : z.written.isStar = false := by
  cases z <;> rfl

/-- With a `*`, the format is printed. -/
theorem vsprintf_star (v : BitVec 32) (h : s.plain = false) :
    ∃ cs, vsprintf s.text (s.args v) = some ⟨'%' :: '*' :: cs, []⟩ := by
  obtain ⟨flags, width, precision, conv⟩ := s
  by_cases hw : width.isStar = true
  · cases width with
    | star n =>
        exact ⟨_, vsprintf_of_conversion (conversion_star flags n _ _)
          (percent_not_mem_point precision conv)⟩
    | none => cases hw
    | lit n => cases hw
  · have hw := Bool.eq_false_iff.mpr hw
    cases precision with
    | star n =>
        obtain ⟨fs, w, hpos, htext⟩ := width_text flags hw
        have hconv := (conversion_point fs hpos [conv.char] [.int v]).1 (BitVec.ofInt 32 n)
        refine ⟨[conv.char], ?_⟩
        unfold Spec.text Spec.args
        dsimp only
        rw [htext, Size.args_eq_nil hw]
        exact vsprintf_of_conversion hconv fun hmem =>
          conv_ne_percent conv (List.mem_singleton.mp hmem)
    | none =>
        unfold Spec.plain at h
        rw [hw] at h
        cases h
    | lit n =>
        unfold Spec.plain at h
        rw [hw] at h
        cases h

/-- With the numbers in the format, it is not. -/
theorem vsprintf_written (s : Spec) (v : BitVec 32) :
    ∃ out, vsprintf s.written.text (s.written.args v) = some ⟨out, []⟩ ∧
      ∀ cs, out ≠ '%' :: '*' :: cs := by
  obtain ⟨flags, width, precision, conv⟩ := s
  obtain ⟨fs, w, hpos, htext⟩ := width_text flags width.isStar_written
  have hargs : Spec.args (Spec.written ⟨flags, width, precision, conv⟩) v = [.int v] := by
    unfold Spec.args Spec.written
    dsimp only
    rw [Size.args_eq_nil width.isStar_written, Size.args_eq_nil precision.isStar_written]
    rfl
  have hnum : ∀ p, ∀ cs, plainField fs w p conv v ≠ '%' :: '*' :: cs := by
    have hbase : 1 < conv.base ∧ conv.base ≤ 16 := by cases conv <;> decide
    intro p cs heq
    refine percent_not_mem_number hbase.1 hbase.2 (?_ : '%' ∈ plainField fs w p conv v)
    rw [heq]
    exact List.mem_cons_self
  have hplain : ∀ p, precision.written.pointText = pointDigits p →
      ∃ out, vsprintf (Spec.text (Spec.written ⟨flags, width, precision, conv⟩)) [.int v] =
        some ⟨out, []⟩ ∧ ∀ cs, out ≠ '%' :: '*' :: cs := by
    intro p hp
    refine ⟨_, ?_, hnum p⟩
    unfold Spec.text Spec.written
    dsimp only
    rw [htext, hp]
    exact vsprintf_plain fs hpos p conv v
  rw [hargs]
  cases hz : precision.written with
  | none => exact hplain none (congrArg Size.pointText hz)
  | star n =>
      have hstar := precision.isStar_written
      rw [hz] at hstar
      cases hstar
  | lit n =>
      rcases Int.lt_or_le n 0 with hn | hn
      · have hconv := (conversion_point fs hpos (digitsOf (some n.natAbs) ++ [conv.char])
          [.int v]).2
        have htext' : Spec.text (Spec.written ⟨flags, width, precision, conv⟩) =
            '%' :: (fs.map Flag.char ++
              (digitsOf w ++ ('.' :: '-' :: (digitsOf (some n.natAbs) ++ [conv.char])))) := by
          unfold Spec.text Spec.written
          dsimp only
          rw [htext, hz, Size.pointText, Size.text, numeral_of_neg hn]
          · rfl
          · exact Size.noConfusion
        have hvs := vsprintf_of_conversion hconv fun hmem =>
          (List.mem_append.mp hmem).elim percent_not_mem_digits fun hmem =>
            conv_ne_percent conv (List.mem_singleton.mp hmem)
        rw [htext']
        refine ⟨_, hvs, fun cs heq => ?_⟩
        exact absurd (List.cons.inj (List.cons.inj heq).2).1 (by decide)
      · refine hplain (some n.toNat) ?_
        rw [hz, Size.pointText, Size.text, numeral_of_nonneg hn]
        · rfl
        · exact Size.noConfusion

/-! ### Reading back -/

/-- **A conversion reads back** exactly if neither its width nor its precision is a `*`, and
`number` does not count its width down out of the `int`s. -/
theorem readsBack_iff {s : Spec} {v : BitVec 32} (hp : s.Proper) :
    s.ReadsBack v ↔ s.plain = true ∧ Fits s v s.size := by
  constructor
  · intro h
    have hplain : s.plain = true := by
      by_contra hstar
      obtain ⟨cs, hcs⟩ := vsprintf_star v (Bool.eq_false_iff.mpr hstar)
      obtain ⟨out, hout, hne⟩ := vsprintf_written s v
      have heq := h.star
      rw [hcs, hout] at heq
      exact hne cs (congrArg Printed.text (Option.some.inj heq)).symm
    obtain ⟨out, hout, hfield⟩ := h.field hplain
    have htext := vsprintf_text (v := v) hp hplain
    rw [hout] at htext
    have heq : out = _ := congrArg Printed.text (Option.some.inj htext)
    rw [heq] at hfield
    exact ⟨hplain, (number_isField_iff (sized hp hplain)).mp hfield⟩
  · rintro ⟨hplain, hfits⟩
    refine ⟨fun _ => ⟨_, vsprintf_text hp hplain, ?_⟩, ?_⟩
    · exact (number_isField_iff (sized hp hplain)).mpr hfits
    · rw [written_plain hplain]

/-- `%+08d` and -2^31. -/
theorem readsBack_min : Spec.ReadsBack ⟨[.plus, .zero], .lit 8, .none, .d⟩ (BitVec.intMin 32) := by
  refine (readsBack_iff ⟨?_, ?_, ?_⟩).mpr ⟨rfl, ?_⟩
  · rintro n hn
    cases hn
    decide
  · rintro n hn
    cases hn
  · rintro n (hn | hn) <;> cases hn
  · unfold Fits
    decide

/-- `%*d` with 5 and 7. -/
theorem not_readsBack :
    Spec.Proper ⟨[], .star 5, .none, .d⟩ ∧ ¬ Spec.ReadsBack ⟨[], .star 5, .none, .d⟩ 7 := by
  refine ⟨⟨fun n hn => (by cases hn), fun n hn => (by cases hn), fun n hn => ?_⟩, fun h => ?_⟩
  · obtain hn | hn := hn
    · cases hn
      decide
    · cases hn
  · have hleft := vsprintf_of_conversion (conversion_star [] 5 ['d'] [.int 7]) (by decide)
    have hright := vsprintf_plain (w := some 5) []
      (fun n hn => (Option.some.inj hn).symm ▸ Nat.succ_pos 4) none .d 7
    have hout : ['%', '*', 'd'] = plainField [] (some 5) none .d 7 :=
      congrArg Printed.text (Option.some.inj (hleft.symm.trans (h.star.trans hright)))
    have hmem : '%' ∈ plainField [] (some 5) none .d 7 := hout ▸ List.mem_cons_self
    exact percent_not_mem_number (by decide) (by decide) hmem

end LinuxKernel.V011.Vsprintf
