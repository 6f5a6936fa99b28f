import LinuxKernel.V011.VsprintfNumber

/-!
# LinuxKernel.V011.VsprintfFormat

**What `vsprintf` reads from a format**, and what it prints for one conversion
of a number.

- With the width and the precision in the format, the conversion is one call of
  `number` with these numbers.
- A `*` takes its argument, but the parser stays on it: the `switch` then finds
  a `*` where the conversion should be, and prints `%*` and the rest of the
  format.
-/

namespace LinuxKernel.V011.Vsprintf

/-! ### Numerals -/

theorem isDigit_toDigits {n : Nat} {c : Char} (hc : c ∈ Nat.toDigits 10 n) : isDigit c = true :=
  Nat.isDigit_of_mem_toDigits (by decide) (by decide) hc

/-- The numeral of a positive number does not start with 0. -/
theorem toDigits_head {n : Nat} (h : 0 < n) :
    ∃ c cs, Nat.toDigits 10 n = c :: cs ∧ isDigit c = true ∧ c ≠ '0' := by
  induction n using Nat.strong_induction_on with
  | _ n ih =>
      rw [Nat.toDigits_eq_if (by decide)]
      by_cases hlt : n < 10
      · have hall : ∀ m < 10, 0 < m → isDigit (Nat.digitChar m) = true ∧ Nat.digitChar m ≠ '0' := by
          decide
        rw [if_pos hlt]
        exact ⟨_, [], rfl, hall n hlt h⟩
      · obtain ⟨c, cs, hcs, hc⟩ := ih (n / 10) (Nat.div_lt_self h (by decide)) (by omega)
        rw [if_neg hlt, hcs]
        exact ⟨c, _, rfl, hc⟩

/-- One digit of `skip_atoi`. -/
def addDigit (i : Int) (c : Char) : Int := int32 (i * 10 + c.toNat - 48)

theorem skipAtoi_append {i : Int} {ds cs : List Char} (h : ∀ c ∈ ds, isDigit c = true) :
    skipAtoi i (ds ++ cs) = skipAtoi (ds.foldl addDigit i) cs := by
  induction ds generalizing i with
  | nil => rfl
  | cons d ds ih =>
      obtain ⟨hd, hds⟩ := List.forall_mem_cons.mp h
      rw [List.cons_append, skipAtoi, if_pos hd, ih hds]
      rfl

theorem foldl_toDigits (n : Nat) : (Nat.toDigits 10 n).foldl addDigit 0 = int32 n := by
  induction n using Nat.strong_induction_on with
  | _ n ih =>
      rw [Nat.toDigits_eq_if (by decide)]
      by_cases hlt : n < 10
      · rw [if_pos hlt, List.foldl_cons, List.foldl_nil, addDigit,
          Nat.toNat_digitChar_of_lt_ten hlt]
        exact congrArg int32 (by omega)
      · rw [if_neg hlt, List.foldl_append, ih _ (by omega), List.foldl_cons, List.foldl_nil,
          addDigit, Nat.toNat_digitChar_of_lt_ten (Nat.mod_lt n (by decide))]
        unfold int32
        rw [Int.bmod_def, Int.bmod_def, Int.bmod_def]
        omega

/-- `skip_atoi` stops here. -/
def NoDigit (cs : List Char) : Prop := ∀ c cs', cs = c :: cs' → isDigit c = false

theorem skipAtoi_toDigits (n : Nat) {cs : List Char} (h : NoDigit cs) :
    skipAtoi 0 (Nat.toDigits 10 n ++ cs) = (int32 n, cs) := by
  rw [skipAtoi_append fun _ => isDigit_toDigits, foldl_toDigits]
  cases cs with
  | nil => rfl
  | cons c cs => rw [skipAtoi, h c cs rfl, if_neg Bool.false_ne_true]

/-! ### Flags -/

def Flags.add (f : Flags) : Flag → Flags
  | .minus => { f with left := true }
  | .plus => { f with plus := true }
  | .space => { f with space := true }
  | .hash => { f with special := true }
  | .zero => { f with zeropad := true }

/-- The flags that the parser reads. -/
def Flags.of (fs : List Flag) : Flags where
  zeropad := Flag.zero ∈ fs
  sign := false
  plus := Flag.plus ∈ fs
  space := Flag.space ∈ fs
  left := Flag.minus ∈ fs
  special := Flag.hash ∈ fs
  small := false

theorem parseFlags_char (f : Flags) (g : Flag) (cs : List Char) :
    parseFlags f (g.char :: cs) = parseFlags (f.add g) cs := by
  cases g <;> rfl

theorem parseFlags_map (f : Flags) (fs : List Flag) (cs : List Char) :
    parseFlags f (fs.map Flag.char ++ cs) = parseFlags (fs.foldl Flags.add f) cs := by
  induction fs generalizing f with
  | nil => rfl
  | cons g fs ih =>
      rw [List.map_cons, List.cons_append, parseFlags_char, ih]
      rfl

theorem foldl_add (fs : List Flag) (f : Flags) :
    fs.foldl Flags.add f =
      ⟨f.zeropad || decide (Flag.zero ∈ fs), f.sign, f.plus || decide (Flag.plus ∈ fs),
        f.space || decide (Flag.space ∈ fs), f.left || decide (Flag.minus ∈ fs),
        f.special || decide (Flag.hash ∈ fs), f.small⟩ := by
  induction fs generalizing f with
  | nil => simp
  | cons g fs ih =>
      rw [List.foldl_cons, ih]
      cases g <;> simp [Flags.add]

theorem foldl_none (fs : List Flag) : fs.foldl Flags.add .none = .of fs := foldl_add fs .none

/-- The flags end here. -/
def NoFlag (cs : List Char) : Prop := ∀ c cs' (g : Flag), cs = c :: cs' → c ≠ g.char

theorem parseFlags_stop {f : Flags} {cs : List Char} (h : NoFlag cs) :
    parseFlags f cs = (f, cs) := by
  cases cs with
  | nil => rfl
  | cons c cs =>
      have hne := fun g => h c cs g rfl
      unfold parseFlags
      split
      · rename_i heq; exact absurd (List.cons.inj heq).1 (hne .minus)
      · rename_i heq; exact absurd (List.cons.inj heq).1 (hne .plus)
      · rename_i heq; exact absurd (List.cons.inj heq).1 (hne .space)
      · rename_i heq; exact absurd (List.cons.inj heq).1 (hne .hash)
      · rename_i heq; exact absurd (List.cons.inj heq).1 (hne .zero)
      · rfl

theorem char_ne_flag (conv : Conv) (g : Flag) : conv.char ≠ g.char := by
  cases conv <;> cases g <;> decide

theorem isDigit_conv (conv : Conv) : isDigit conv.char = false := by
  cases conv <;> rfl

theorem conv_ne (conv : Conv) : conv.char ≠ '*' ∧ conv.char ≠ '.' := by
  cases conv <;> exact ⟨by decide, by decide⟩

/-! ### Width and precision -/

/-- A width or precision in the format, as digits. -/
def digitsOf : Option Nat → List Char
  | none => []
  | some n => Nat.toDigits 10 n

/-- A precision in the format, with its `.`. -/
def pointDigits : Option Nat → List Char
  | none => []
  | some n => '.' :: Nat.toDigits 10 n

/-- The width that the parser reads. -/
def widthOf : Option Nat → Int
  | none => -1
  | some n => int32 n

/-- The precision that the parser reads. -/
def precisionOf : Option Nat → Int
  | none => -1
  | some n => if int32 n < 0 then 0 else int32 n

theorem parseWidth_digits (f : Flags) (w : Option Nat) (args : List Arg) {cs : List Char}
    (hdigit : NoDigit cs) (hstar : ∀ cs', cs ≠ '*' :: cs') :
    parseWidth f (digitsOf w ++ cs) args = some ⟨f, widthOf w, -1, cs, args⟩ := by
  cases w with
  | none =>
      cases cs with
      | nil => rfl
      | cons c cs =>
          have hc : c ≠ '*' := fun hc => hstar cs (congrArg (· :: cs) hc)
          change parseWidth f (c :: cs) args = _
          unfold parseWidth
          dsimp only
          rw [hdigit c cs rfl, if_neg Bool.false_ne_true, if_neg hc]
          rfl
  | some n =>
      have hread := skipAtoi_toDigits n hdigit
      change parseWidth f (Nat.toDigits 10 n ++ cs) args = _
      cases hds : Nat.toDigits 10 n with
      | nil => exact absurd hds (List.ne_nil_of_length_pos Nat.length_toDigits_pos)
      | cons d ds =>
          have hd : isDigit d = true := isDigit_toDigits (n := n) (hds ▸ List.mem_cons_self)
          rw [hds] at hread
          unfold parseWidth
          rw [List.cons_append] at hread ⊢
          dsimp only
          rw [if_pos hd, hread, widthOf]

theorem parsePrecision_point (f : Flags) (width : Int) (c : Char) (cs : List Char)
    (args : List Arg) :
    parsePrecision ⟨f, width, -1, '.' :: c :: cs, args⟩ =
      if isDigit c then
        some ⟨f, width, if (skipAtoi 0 (c :: cs)).1 < 0 then 0 else (skipAtoi 0 (c :: cs)).1,
          (skipAtoi 0 (c :: cs)).2, args⟩
      else if c = '*' then
        match args with
        | .int n :: args =>
            some ⟨f, width, if n.toInt < 0 then 0 else n.toInt, c :: cs, args⟩
        | _ => none
      else some ⟨f, width, 0, c :: cs, args⟩ := rfl

theorem parsePrecision_digits (f : Flags) (width : Int) (p : Option Nat) (args : List Arg)
    {cs : List Char} (hdigit : NoDigit cs) (hpoint : ∀ cs', cs ≠ '.' :: cs') :
    parsePrecision ⟨f, width, -1, pointDigits p ++ cs, args⟩ =
      some ⟨f, width, precisionOf p, cs, args⟩ := by
  cases p with
  | none =>
      change parsePrecision ⟨f, width, -1, cs, args⟩ = _
      unfold parsePrecision
      dsimp only
      split
      · exact absurd rfl (hpoint _)
      · rfl
  | some n =>
      have hread := skipAtoi_toDigits n hdigit
      change parsePrecision ⟨f, width, -1, '.' :: (Nat.toDigits 10 n ++ cs), args⟩ = _
      cases hds : Nat.toDigits 10 n with
      | nil => exact absurd hds (List.ne_nil_of_length_pos Nat.length_toDigits_pos)
      | cons d ds =>
          have hd : isDigit d = true := isDigit_toDigits (n := n) (hds ▸ List.mem_cons_self)
          rw [hds] at hread
          rw [List.cons_append] at hread ⊢
          rw [parsePrecision_point, if_pos hd, hread, precisionOf]

/-- The flags with which the `switch` calls `number`. -/
def callFlags (f : Flags) (width : Int) (conv : Conv) : Flags :=
  { f with
    sign := conv.signed
    small := conv.small
    zeropad := f.zeropad || (conv = .p && width = -1) }

/-- The width with which the `switch` calls `number`. -/
def callWidth (width : Int) (conv : Conv) : Int := if conv = .p ∧ width = -1 then 8 else width

theorem convert_number (out : Printed) (fs : List Flag) (width precision : Int) (conv : Conv)
    (v : BitVec 32) :
    convert out ⟨.of fs, width, precision, [conv.char], [.int v]⟩ =
      some (out.put (number v conv.base (callWidth width conv) precision
        (callFlags (.of fs) width conv)), [], []) := by
  cases conv with
  | p =>
      by_cases hw : width = -1
      · simp [convert, skipQualifier, putNumber, Conv.char, hw, callWidth, callFlags, Conv.base,
          Conv.signed, Conv.small, Flags.of]
      · simp [convert, skipQualifier, putNumber, Conv.char, hw, callWidth, callFlags, Conv.base,
          Conv.signed, Conv.small, Flags.of]
  | _ =>
      simp [convert, skipQualifier, putNumber, Conv.char, callWidth, callFlags, Conv.base,
        Conv.signed, Conv.small, Flags.of]

/-! ### One conversion -/

/-- The width ends before this character, and flags do. -/
structure Stops (c : Char) : Prop where
  digit : isDigit c = false
  flag : ∀ g : Flag, c ≠ g.char
  star : c ≠ '*'

theorem stops_point : Stops '.' := by
  refine ⟨rfl, fun g => ?_, by decide⟩
  cases g <;> decide

theorem stops_conv (conv : Conv) : Stops conv.char :=
  ⟨isDigit_conv conv, char_ne_flag conv, (conv_ne conv).1⟩

theorem noDigit_cons {c : Char} (h : isDigit c = false) (cs : List Char) : NoDigit (c :: cs) := by
  intro d ds heq
  rw [← (List.cons.inj heq).1]
  exact h

/-- A digit of `skip_atoi` but 0 is no flag. -/
theorem ne_flag_of_isDigit {c : Char} (h : isDigit c = true) (hzero : c ≠ '0') (g : Flag) :
    c ≠ g.char := by
  rintro rfl
  cases g with
  | zero => exact hzero rfl
  | _ => exact absurd h (by decide)

/-- Behind the flags stands a positive width, or what stands behind it. -/
theorem behind_flags {w : Option Nat} (hw : ∀ n, w = some n → 0 < n) {c : Char} (h : Stops c)
    (cs : List Char) : NoFlag (digitsOf w ++ c :: cs) := by
  intro d ds g heq
  cases w with
  | some n =>
      obtain ⟨d', ds', hds, hd, hzero⟩ := toDigits_head (hw n rfl)
      rw [digitsOf, hds] at heq
      rw [← (List.cons.inj heq).1]
      exact ne_flag_of_isDigit hd hzero g
  | none =>
      rw [← (List.cons.inj heq).1]
      exact h.flag g

/-- The parser behind flags and width. -/
theorem conversion_width (out : Printed) (fs : List Flag) {w : Option Nat}
    (hw : ∀ n, w = some n → 0 < n) {c : Char} (h : Stops c) (cs : List Char) (args : List Arg) :
    conversion out (fs.map Flag.char ++ (digitsOf w ++ c :: cs)) args =
      (parsePrecision ⟨.of fs, widthOf w, -1, c :: cs, args⟩).bind (convert out) := by
  unfold conversion
  dsimp only
  rw [parseFlags_map, foldl_none, parseFlags_stop (behind_flags hw h cs)]
  dsimp only
  rw [parseWidth_digits _ w _ (noDigit_cons h.digit cs) fun cs' heq =>
    h.star (List.cons.inj heq).1, Option.bind_some]

/-- A precision or the conversion. -/
theorem point_cons (p : Option Nat) (conv : Conv) :
    ∃ c cs, pointDigits p ++ [conv.char] = c :: cs ∧ Stops c := by
  cases p with
  | none => exact ⟨_, _, rfl, stops_conv conv⟩
  | some n => exact ⟨_, _, rfl, stops_point⟩

/-- The text of a conversion without `*`. -/
def plainText (fs : List Flag) (w p : Option Nat) (conv : Conv) : List Char :=
  '%' :: (fs.map Flag.char ++ (digitsOf w ++ (pointDigits p ++ [conv.char])))

/-- What a conversion without `*` writes. -/
def plainField (fs : List Flag) (w p : Option Nat) (conv : Conv) (v : BitVec 32) : List Char :=
  number v conv.base (callWidth (widthOf w) conv) (precisionOf p)
    (callFlags (.of fs) (widthOf w) conv)

theorem conversion_number (out : Printed) (fs : List Flag) {w : Option Nat}
    (hw : ∀ n, w = some n → 0 < n) (p : Option Nat) (conv : Conv) (v : BitVec 32) :
    conversion out (fs.map Flag.char ++ (digitsOf w ++ (pointDigits p ++ [conv.char])))
      [.int v] = some (out.put (plainField fs w p conv v), [], []) := by
  obtain ⟨c, cs, hcs, hstops⟩ := point_cons p conv
  have hdigit := noDigit_cons (isDigit_conv conv) []
  have hpoint : ∀ cs', [conv.char] ≠ '.' :: cs' := fun cs' heq =>
    (conv_ne conv).2 (List.cons.inj heq).1
  rw [hcs, conversion_width _ fs hw hstops, ← hcs, parsePrecision_digits _ _ p _ hdigit hpoint,
    Option.bind_some, convert_number]
  rfl

/-- The loop over the format, behind a `%`. -/
theorem format_percent {out out' : Printed} {cs cs' : List Char} {args args' : List Arg}
    (h : conversion out cs args = some (out', cs', args')) :
    format out ('%' :: cs) args = format out' cs' args' := by
  rw [format, if_pos rfl]
  split
  · rename_i heq
    rw [h] at heq
    cases heq
  · rename_i heq
    rw [h] at heq
    cases heq
    rfl

theorem format_nil (out : Printed) (args : List Arg) : format out [] args = some out := by
  rw [format]

/-- **A conversion without `*`** is one call of `number`. -/
theorem vsprintf_plain (fs : List Flag) {w : Option Nat} (hw : ∀ n, w = some n → 0 < n)
    (p : Option Nat) (conv : Conv) (v : BitVec 32) :
    vsprintf (plainText fs w p conv) [.int v] = some ⟨plainField fs w p conv v, []⟩ := by
  rw [vsprintf, plainText, format_percent (conversion_number _ fs hw p conv v), format_nil]
  rfl

/-- Characters that are not `%` are printed. -/
theorem format_plain (out : Printed) {cs : List Char} (args : List Arg) (h : '%' ∉ cs) :
    format out cs args = some (out.put cs) := by
  induction cs generalizing out with
  | nil =>
      rw [format_nil, Printed.put, List.append_nil]
  | cons c cs ih =>
      obtain ⟨hc, hcs⟩ := List.ne_and_not_mem_of_not_mem_cons h
      rw [format, if_neg fun heq => hc heq.symm, ih _ hcs, Printed.put, Printed.put, Printed.put,
        List.append_assoc]
      rfl

end LinuxKernel.V011.Vsprintf
