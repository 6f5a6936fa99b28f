import LinuxKernel.Lib.Ints

/-!
# LinuxKernel.V011.Vsprintf

**Formatted output**: `vsprintf` of `kernel/vsprintf.c` with `skip_atoi` and
`number`.

- The format is the list of its characters up to the 0; what is written to the
  buffer is collected in `Printed`.
- The widths and precisions are `int`s, and each operation on them wraps around
  as the `int`s do. The loops that pad count them down in place.
- A conversion that wants another argument than it is given, or one more, is
  `none`.
-/

namespace LinuxKernel.V011.Vsprintf

def isDigit (c : Char) : Bool := '0' ≤ c && c ≤ '9'

/-- `skip_atoi`, with what it has read so far. -/
def skipAtoi (i : Int) : List Char → Int × List Char
  | [] => (i, [])
  | c :: cs => if isDigit c then skipAtoi (int32 (i * 10 + c.toNat - 48)) cs else (i, c :: cs)

/-- The flags of `number`. -/
structure Flags where
  zeropad : Bool
  sign : Bool
  plus : Bool
  space : Bool
  left : Bool
  special : Bool
  small : Bool

def Flags.none : Flags := ⟨false, false, false, false, false, false, false⟩

def digitsLarge : List Char :=
  ['0', '1', '2', '3', '4', '5', '6', '7', '8', '9', 'A', 'B', 'C', 'D', 'E', 'F', 'G', 'H', 'I',
    'J', 'K', 'L', 'M', 'N', 'O', 'P', 'Q', 'R', 'S', 'T', 'U', 'V', 'W', 'X', 'Y', 'Z']

def digitsSmall : List Char :=
  ['0', '1', '2', '3', '4', '5', '6', '7', '8', '9', 'a', 'b', 'c', 'd', 'e', 'f', 'g', 'h', 'i',
    'j', 'k', 'l', 'm', 'n', 'o', 'p', 'q', 'r', 's', 't', 'u', 'v', 'w', 'x', 'y', 'z']

/-- `digits[n]`. -/
def digit (small : Bool) (n : Nat) : Char :=
  (if small then digitsSmall else digitsLarge).getD n ' '

/-- `while (size-- > bound) *str++ = c;`: what is written, and `size` behind the loop. -/
def countdown (c : Char) (bound size : Int) : List Char × Int :=
  if bound < size then
    let r := countdown c bound (size - 1)
    (c :: r.1, r.2)
  else ([], int32 (size - 1))
termination_by (size - bound).toNat

/-- The loop that fills `tmp`, with `do_div`: the last digit comes first. -/
def divLoop (small : Bool) (base num : Nat) : List Char :=
  if _h : num ≠ 0 ∧ 1 < base then digit small (num % base) :: divLoop small base (num / base)
  else []
termination_by num
decreasing_by exact Nat.div_lt_self (Nat.pos_of_ne_zero _h.1) _h.2

/-- The second half of `number`: what is written, with `size` for the padding. -/
def emit (type : Flags) (sign special tmp : List Char) (size precision : Int) : List Char :=
  let zeropad := type.zeropad && !type.left
  let c := if zeropad then '0' else ' '
  let (before, size) := if zeropad || type.left then ([], size) else countdown ' ' 0 size
  let (inside, size) := if type.left then ([], size) else countdown c 0 size
  let zeros := (countdown '0' tmp.length precision).1
  let after := (countdown ' ' 0 size).1
  before ++ sign ++ special ++ inside ++ zeros ++ tmp.reverse ++ after

/-- `number`. The callers' `base` is 8, 10 or 16. -/
def number (num : BitVec 32) (base : Nat) (size precision : Int) (type : Flags) : List Char :=
  let negative := type.sign && num.msb
  let sign :=
    if negative then ['-'] else if type.plus then ['+'] else if type.space then [' '] else []
  let num := if negative then -num else num
  let size := if sign ≠ [] then int32 (size - 1) else size
  let size :=
    if type.special then
      if base = 16 then int32 (size - 2) else if base = 8 then int32 (size - 1) else size
    else size
  let special :=
    if type.special then
      if base = 8 then ['0'] else if base = 16 then ['0', digit type.small 33] else []
    else []
  let tmp := if num = 0 then ['0'] else divLoop type.small base num.toNat
  let precision : Int := if tmp.length > precision then tmp.length else precision
  emit type sign special tmp (int32 (size - precision)) precision

/-! ### The format -/

/-- An argument: a number, a string, or a pointer to an `int`. -/
inductive Arg
  | int (n : BitVec 32)
  | str (s : List Char)
  | ptr (address : Nat)

/-- What has been written to the buffer, and through the pointers of `%n`. -/
structure Printed where
  text : List Char
  stores : List (Nat × Nat)

def Printed.put (p : Printed) (cs : List Char) : Printed := { p with text := p.text ++ cs }

/-- The flags behind a `%`. -/
def parseFlags (f : Flags) : List Char → Flags × List Char
  | '-' :: cs => parseFlags { f with left := true } cs
  | '+' :: cs => parseFlags { f with plus := true } cs
  | ' ' :: cs => parseFlags { f with space := true } cs
  | '#' :: cs => parseFlags { f with special := true } cs
  | '0' :: cs => parseFlags { f with zeropad := true } cs
  | cs => (f, cs)

/-- What the parser has read of a conversion. -/
structure Parsed where
  flags : Flags
  fieldWidth : Int
  precision : Int
  rest : List Char
  args : List Arg

/-- The field width. -/
def parseWidth (f : Flags) (cs : List Char) (args : List Arg) : Option Parsed :=
  match cs with
  | [] => some ⟨f, -1, -1, [], args⟩
  | c :: cs' =>
      if isDigit c then
        let r := skipAtoi 0 cs
        some ⟨f, r.1, -1, r.2, args⟩
      else if c = '*' then
        match args with
        | .int n :: args =>
            if n.toInt < 0 then some ⟨{ f with left := true }, int32 (-n.toInt), -1, cs, args⟩
            else some ⟨f, n.toInt, -1, c :: cs', args⟩
        | _ => none
      else some ⟨f, -1, -1, cs, args⟩

/-- The precision. -/
def parsePrecision (p : Parsed) : Option Parsed :=
  match p.rest with
  | '.' :: cs =>
      match cs with
      | [] => some { p with precision := 0, rest := [] }
      | c :: cs' =>
          if isDigit c then
            let r := skipAtoi 0 cs
            some { p with precision := if r.1 < 0 then 0 else r.1, rest := r.2 }
          else if c = '*' then
            match p.args with
            | .int n :: args =>
                some { p with precision := if n.toInt < 0 then 0 else n.toInt, rest := c :: cs', args }
            | _ => none
          else some { p with precision := 0, rest := cs }
  | _ => some p

/-- The qualifier, which nothing uses. -/
def skipQualifier (cs : List Char) : List Char :=
  match cs with
  | 'h' :: cs | 'l' :: cs | 'L' :: cs => cs
  | _ => cs

/-- `%c`. -/
def putChar (p : Parsed) (n : BitVec 32) : List Char :=
  let (before, width) :=
    if p.flags.left then ([], p.fieldWidth) else countdown ' ' 1 p.fieldWidth
  before ++ [Char.ofNat (n.toNat % 256)] ++ (countdown ' ' 1 width).1

/-- `%s`. -/
def putString (p : Parsed) (s : List Char) : List Char :=
  let len : Int := if p.precision < 0 then s.length else min s.length p.precision
  let (before, width) :=
    if p.flags.left then ([], p.fieldWidth) else countdown ' ' len p.fieldWidth
  before ++ s.take len.toNat ++ (countdown ' ' len width).1

/-- The conversion of a number with the flags `f`. -/
def putNumber (out : Printed) (p : Parsed) (base : Nat) (width : Int) (f : Flags) (cs : List Char) :
    Option (Printed × List Char × List Arg) :=
  match p.args with
  | .int n :: args => some (out.put (number n base width p.precision f), cs, args)
  | _ => none

/-- The `switch` over the conversion. -/
def convert (out : Printed) (p : Parsed) : Option (Printed × List Char × List Arg) :=
  match skipQualifier p.rest with
  | [] => some (out.put ['%'], [], p.args)
  | c :: cs =>
      match c with
      | 'c' =>
          match p.args with
          | .int n :: args => some (out.put (putChar p n), cs, args)
          | _ => none
      | 's' =>
          match p.args with
          | .str s :: args => some (out.put (putString p s), cs, args)
          | _ => none
      | 'o' => putNumber out p 8 p.fieldWidth p.flags cs
      | 'p' =>
          if p.fieldWidth = -1 then putNumber out p 16 8 { p.flags with zeropad := true } cs
          else putNumber out p 16 p.fieldWidth p.flags cs
      | 'x' => putNumber out p 16 p.fieldWidth { p.flags with small := true } cs
      | 'X' => putNumber out p 16 p.fieldWidth p.flags cs
      | 'd' => putNumber out p 10 p.fieldWidth { p.flags with sign := true } cs
      | 'i' => putNumber out p 10 p.fieldWidth { p.flags with sign := true } cs
      | 'u' => putNumber out p 10 p.fieldWidth p.flags cs
      | 'n' =>
          match p.args with
          | .ptr a :: args =>
              some ({ out with stores := out.stores ++ [(a, out.text.length)] }, cs, args)
          | _ => none
      | _ => some (out.put (if c = '%' then [c] else ['%', c]), cs, p.args)

/-- What follows a `%`. -/
def conversion (out : Printed) (cs : List Char) (args : List Arg) :
    Option (Printed × List Char × List Arg) :=
  let r := parseFlags .none cs
  (parseWidth r.1 r.2 args).bind fun p => (parsePrecision p).bind (convert out)

/-! A conversion uses up the characters it reads. -/

theorem skipAtoi_length (i : Int) (cs : List Char) : (skipAtoi i cs).2.length ≤ cs.length := by
  induction cs generalizing i with
  | nil => exact Nat.le_refl _
  | cons c cs ih =>
      unfold skipAtoi
      split
      · exact Nat.le_succ_of_le (ih _)
      · exact Nat.le_refl _

theorem parseFlags_length (f : Flags) (cs : List Char) :
    (parseFlags f cs).2.length ≤ cs.length := by
  fun_induction parseFlags f cs with
  | case6 => exact Nat.le_refl _
  | _ => exact Nat.le_succ_of_le ‹_›

theorem parseWidth_length {f : Flags} {cs : List Char} {args : List Arg} {p : Parsed}
    (h : parseWidth f cs args = some p) : p.rest.length ≤ cs.length := by
  unfold parseWidth at h
  grind [skipAtoi_length]

theorem parsePrecision_length {p q : Parsed} (h : parsePrecision p = some q) :
    q.rest.length ≤ p.rest.length := by
  unfold parsePrecision at h
  grind [skipAtoi_length]

theorem skipQualifier_length (cs : List Char) : (skipQualifier cs).length ≤ cs.length := by
  unfold skipQualifier
  grind

theorem convert_length {out : Printed} {p : Parsed} {r : Printed × List Char × List Arg}
    (h : convert out p = some r) : r.2.1.length ≤ p.rest.length := by
  have hskip := skipQualifier_length p.rest
  unfold convert putNumber at h
  grind

theorem conversion_length {out : Printed} {cs : List Char} {args : List Arg}
    {r : Printed × List Char × List Arg} (h : conversion out cs args = some r) :
    r.2.1.length ≤ cs.length := by
  obtain ⟨p, hp, hq⟩ := Option.bind_eq_some_iff.mp h
  obtain ⟨q, hq, hr⟩ := Option.bind_eq_some_iff.mp hq
  calc r.2.1.length ≤ q.rest.length := convert_length hr
    _ ≤ p.rest.length := parsePrecision_length hq
    _ ≤ (parseFlags .none cs).2.length := parseWidth_length hp
    _ ≤ cs.length := parseFlags_length _ _

/-- The loop over the format. -/
def format (out : Printed) (fmt : List Char) (args : List Arg) : Option Printed :=
  match fmt with
  | [] => some out
  | c :: cs =>
      if c = '%' then
        match _h : conversion out cs args with
        | none => none
        | some (out, rest, args) => format out rest args
      else format (out.put [c]) cs args
termination_by fmt.length
decreasing_by
  · exact Nat.lt_succ_of_le (conversion_length _h)
  · exact Nat.lt_succ_self _

/-- `vsprintf`. -/
def vsprintf (fmt : List Char) (args : List Arg) : Option Printed := format ⟨[], []⟩ fmt args

end LinuxKernel.V011.Vsprintf
