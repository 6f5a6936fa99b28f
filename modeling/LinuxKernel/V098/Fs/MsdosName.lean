import LinuxKernel.Lib.Index
import Mathlib.Data.BitVec

/-!
# LinuxKernel.V098.Fs.MsdosName

**Names on an MS-DOS file system**: `msdos_format_name` and `msdos_create_entry` of
`fs/msdos/namei.c` and the names that `msdos_readdir` (`fs/msdos/dir.c`) returns.

- A name is the list of its bytes; `char` is signed.
- Of a directory entry only the name, the extension and the attributes count.
- What the names are compared by is the base, up to the first dot, cut to 8 characters, and the
  extension, behind it, cut to 3 (`Agree`).
-/

namespace LinuxKernel.V098.Fs.MsdosName

abbrev Byte := BitVec 8

def EINVAL : Int := 22
def DELETED_FLAG : Byte := 0xe5
def MSDOS_NAME : Nat := 11
def ATTR_VOLUME : Byte := 8
def ATTR_DIR : Byte := 16
def ATTR_ARCH : Byte := 32

/-- The option `check` of the mount: `'r'`, `'n'` or `'s'`. -/
inductive NameCheck
  | relaxed
  | normal
  | strict
  deriving DecidableEq

def ch (c : Char) : Byte := BitVec.ofNat 8 c.toNat

def str (s : String) : List Byte := s.toList.map ch

def blank : Byte := ch ' '
def dot : Byte := ch '.'

def reservedNames : List (List Byte) :=
  ["CON     ", "PRN     ", "NUL     ", "AUX     ", "LPT1    ", "LPT2    ", "LPT3    ",
    "LPT4    ", "COM1    ", "COM2    ", "COM3    ", "COM4    "].map str

def badChars : List Byte := str "*?<>|\" "
def badIfStrict : List Byte := str "+=,;"

/-- The NUL at the end of the string is found as well. -/
def strchr (s : List Byte) (c : Byte) : Prop := c = 0 ∨ c ∈ s

instance (s : List Byte) (c : Byte) : Decidable (strchr s c) := inferInstanceAs (Decidable (_ ∨ _))

/-- `c < ' '`. -/
def below (c : Byte) : Prop := c.toInt < 32

instance (c : Byte) : Decidable (below c) := inferInstanceAs (Decidable (_ < _))

def isUpper (c : Byte) : Prop := 'A'.toNat ≤ c.toNat ∧ c.toNat ≤ 'Z'.toNat

instance (c : Byte) : Decidable (isUpper c) := inferInstanceAs (Decidable (_ ∧ _))

def isLower (c : Byte) : Prop := 'a'.toNat ≤ c.toNat ∧ c.toNat ≤ 'z'.toNat

instance (c : Byte) : Decidable (isLower c) := inferInstanceAs (Decidable (_ ∧ _))

def lower (c : Byte) : Byte := if isUpper c then c + 32 else c
def upper (c : Byte) : Byte := if isLower c then c - 32 else c

/-! ### `msdos_format_name` -/

structure Walk where
  /-- From `res` up to `walk`. -/
  stored : List Byte
  c : Byte
  space : Bool
  /-- What is left of the name. -/
  rest : List Byte

/-- The loop for the base, with room for `n` more characters. -/
def baseLoop (conv : NameCheck) : Nat → Walk → Except Int Walk
  | 0, w => .ok w
  | n + 1, w =>
      match w.rest with
      | [] => .ok w
      | c :: rest =>
          if conv ≠ .relaxed ∧ strchr badChars c then .error (-EINVAL)
          else if conv = .strict ∧ strchr badIfStrict c then .error (-EINVAL)
          else if isUpper c ∧ conv = .strict then .error (-EINVAL)
          else if below (lower c) ∨ lower c = ch ':' ∨ lower c = ch '\\' then .error (-EINVAL)
          else if lower c = dot then .ok { w with c := lower c, rest := rest }
          else baseLoop conv n
            ⟨w.stored ++ [upper (lower c)], lower c, decide (lower c = blank), rest⟩

/-- A base of 8 characters that is not at its end. -/
def strictDot (conv : NameCheck) (w : Walk) : Except Int Walk :=
  match w.rest with
  | [] => .ok w
  | c :: rest =>
      if conv = .strict ∧ w.c ≠ dot then
        if c ≠ dot then .error (-EINVAL) else .ok { w with c := c, rest := rest }
      else .ok w

/-- `while (c != '.' && len--) c = get_fs_byte(name++);` -/
def skipToDot : Byte → List Byte → Byte × List Byte
  | c, [] => (c, [])
  | c, x :: xs => if c ≠ dot then skipToDot x xs else (c, x :: xs)

/-- The loop for the extension. -/
def extLoop (conv : NameCheck) : Nat → Walk → Except Int Walk
  | 0, w => .ok w
  | n + 1, w =>
      match w.rest with
      | [] => .ok w
      | c :: rest =>
          if conv ≠ .relaxed ∧ strchr badChars c then .error (-EINVAL)
          else if conv = .strict ∧ strchr badIfStrict c then .error (-EINVAL)
          else if below c ∨ c = ch ':' ∨ c = ch '\\' ∨ c = dot then .error (-EINVAL)
          else if isUpper c ∧ conv = .strict then .error (-EINVAL)
          else extLoop conv n
            ⟨w.stored ++ [upper (lower c)], lower c, decide (lower c = blank), rest⟩

/-- With blanks up to `n` characters. -/
def pad (n : Nat) (l : List Byte) : List Byte := l ++ List.replicate (n - l.length) blank

/-- From the dot on. -/
def formatExt (conv : NameCheck) (w : Walk) : Except Int (List Byte) :=
  if w.c = dot then
    match extLoop conv 3 { w with stored := pad 8 w.stored } with
    | .error e => .error e
    | .ok w =>
        if w.space then .error (-EINVAL)
        else if conv = .strict ∧ w.rest ≠ [] then .error (-EINVAL)
        else .ok w.stored
  else .ok w.stored

/-- Up to the dot. -/
def formatBase (conv : NameCheck) (name : List Byte) : Except Int Walk :=
  match baseLoop conv 8 ⟨[], 0, false, name⟩ with
  | .error e => .error e
  | .ok w =>
      if w.space then .error (-EINVAL)
      else
        match strictDot conv w with
        | .error e => .error e
        | .ok w =>
            let s := skipToDot w.c w.rest
            if w.stored = [] then .error (-EINVAL) else .ok { w with c := s.1, rest := s.2 }

/-- The 11 bytes. -/
def formatName (conv : NameCheck) (name : List Byte) : Except Int (List Byte) :=
  if name.head? = some DELETED_FLAG then .error (-EINVAL)
  else if name = [dot] ∨ name = [dot, dot] then .ok (pad MSDOS_NAME name)
  else
    match formatBase conv name with
    | .error e => .error e
    | .ok w =>
        match formatExt conv w with
        | .error e => .error e
        | .ok stored =>
            if (pad MSDOS_NAME stored).take 8 ∈ reservedNames then .error (-EINVAL)
            else .ok (pad MSDOS_NAME stored)

/-! ### Directory entries -/

structure DirEntry where
  name : List Byte
  ext : List Byte
  attr : Byte

/-- What `msdos_create_entry` makes of an entry. -/
def createEntry (res : List Byte) (isDir : Bool) : DirEntry where
  name := res.take 8
  ext := res.drop 8
  attr := if isDir then ATTR_DIR else ATTR_ARCH

/-- The loops of `msdos_readdir`: what is put at `d_name`, and `last`. -/
def nameLoop : List Byte → List Byte → Nat → List Byte × Nat
  | [], buf, last => (buf, last)
  | c :: cs, buf, last =>
      if c = 0 then (buf, last)
      else nameLoop cs (buf ++ [lower c]) (if lower c ≠ blank then buf.length + 1 else last)

/-- The name that `msdos_readdir` returns for an entry, unless it goes on to the next one. -/
def readdirName (de : DirEntry) : Option (List Byte) :=
  if de.name.headD 0 ≠ 0 ∧ de.name.headD 0 ≠ DELETED_FLAG ∧ de.attr &&& ATTR_VOLUME = 0 then
    let base := nameLoop de.name [] 0
    let all :=
      if de.ext.headD 0 ≠ 0 ∧ de.ext.headD 0 ≠ blank then
        nameLoop de.ext (base.1.take base.2 ++ [dot]) base.2
      else base
    if all.2 ≠ 0 then some (all.1.take all.2) else none
  else none

/-! ### What the names are for -/

/-- Up to the first dot. -/
def baseOf (name : List Byte) : List Byte := name.takeWhile (· ≠ dot)

/-- Behind the first dot. -/
def extOf (name : List Byte) : List Byte := (name.dropWhile (· ≠ dot)).tail

/-- The names agree in what counts, but for the case of letters. -/
def Agree (name name' : List Byte) : Prop :=
  ((baseOf name).take 8).map lower = ((baseOf name').take 8).map lower ∧
    ((extOf name).take 3).map lower = ((extOf name').take 3).map lower

/-- The entry with the name `res` is listed under a name that is accepted and leads back to
`res`. -/
def ReadsBack (conv : NameCheck) (res : List Byte) (isDir : Bool) : Prop :=
  ∃ name, readdirName (createEntry res isDir) = some name ∧ formatName conv name = .ok res

/-! ### Characters -/

variable {conv conv' : NameCheck} {name name' rest stored l l' buf res res' : List Byte}
  {a b c x : Byte} {n k last : Nat} {sp : Bool} {w : Walk}

theorem toNat_lower (c : Byte) :
    (lower c).toNat = if 65 ≤ c.toNat ∧ c.toNat ≤ 90 then c.toNat + 32 else c.toNat := by
  have h32 : (32 : Byte).toNat = 32 := rfl
  unfold lower
  by_cases h : isUpper c
  · have h' : 65 ≤ c.toNat ∧ c.toNat ≤ 90 := h
    rw [if_pos h, if_pos h', BitVec.toNat_add, h32]
    omega
  · have h' : ¬ (65 ≤ c.toNat ∧ c.toNat ≤ 90) := h
    rw [if_neg h, if_neg h']

theorem toNat_upper (c : Byte) :
    (upper c).toNat = if 97 ≤ c.toNat ∧ c.toNat ≤ 122 then c.toNat - 32 else c.toNat := by
  have h32 : (32 : Byte).toNat = 32 := rfl
  unfold upper
  by_cases h : isLower c
  · have h' : 97 ≤ c.toNat ∧ c.toNat ≤ 122 := h
    rw [if_pos h, if_pos h', BitVec.toNat_sub_of_le (BitVec.le_def.mpr (by omega)), h32]
  · have h' : ¬ (97 ≤ c.toNat ∧ c.toNat ≤ 122) := h
    rw [if_neg h, if_neg h']

theorem upper_lower (c : Byte) : upper (lower c) = upper c := by
  refine BitVec.eq_of_toNat_eq ?_
  rw [toNat_upper, toNat_upper, toNat_lower]
  split_ifs <;> omega

theorem lower_upper (c : Byte) : lower (upper c) = lower c := by
  refine BitVec.eq_of_toNat_eq ?_
  rw [toNat_lower, toNat_lower, toNat_upper]
  split_ifs <;> omega

theorem not_isUpper_lower (c : Byte) : ¬ isUpper (lower c) := by
  have h := toNat_lower c
  intro hup
  have hup' : 65 ≤ (lower c).toNat ∧ (lower c).toNat ≤ 90 := hup
  split_ifs at h <;> omega

theorem upper_inj : upper a = upper b ↔ lower a = lower b :=
  ⟨fun h => by rw [← lower_upper a, h, lower_upper], fun h => by
    rw [← upper_lower a, h, upper_lower]⟩

theorem map_upper_inj : l.map upper = l'.map upper ↔ l.map lower = l'.map lower := by
  induction l generalizing l' with
  | nil => cases l' <;> simp
  | cons x xs ih =>
      cases l' with
      | nil => simp
      | cons y ys =>
          rw [List.map_cons, List.map_cons, List.map_cons, List.map_cons, List.cons_eq_cons,
            List.cons_eq_cons, upper_inj, ih]

/-- No letter. -/
def Plain (x : Byte) : Prop := ¬ isUpper x ∧ ¬ isLower x

instance (x : Byte) : Decidable (Plain x) := inferInstanceAs (Decidable (_ ∧ _))

theorem lower_eq_iff (h : Plain x) : lower c = x ↔ c = x := by
  have hno : ¬ (65 ≤ x.toNat ∧ x.toNat ≤ 90) := h.1
  have hno' : ¬ (97 ≤ x.toNat ∧ x.toNat ≤ 122) := h.2
  rw [← BitVec.toNat_inj, ← BitVec.toNat_inj, toNat_lower]
  split_ifs <;> omega

theorem upper_eq_iff (h : Plain x) : upper c = x ↔ c = x := by
  have hno : ¬ (65 ≤ x.toNat ∧ x.toNat ≤ 90) := h.1
  have hno' : ¬ (97 ≤ x.toNat ∧ x.toNat ≤ 122) := h.2
  rw [← BitVec.toNat_inj, ← BitVec.toNat_inj, toNat_upper]
  split_ifs <;> omega

theorem strchr_lower {s : List Byte} (hs : ∀ x ∈ s, Plain x) (c : Byte) :
    strchr s (lower c) ↔ strchr s c := by
  refine or_congr (lower_eq_iff (by decide)) ⟨fun h => ?_, fun h => ?_⟩
  · rwa [(lower_eq_iff (hs _ h)).mp rfl]
  · rwa [(lower_eq_iff (hs _ h)).mpr rfl]

theorem below_iff (c : Byte) : below c ↔ c.toNat < 32 ∨ 128 ≤ c.toNat := by
  have hlt := c.isLt
  unfold below
  rw [BitVec.toInt_eq_toNat_cond]
  split <;> omega

theorem below_lower (c : Byte) : below (lower c) ↔ below c := by
  rw [below_iff, below_iff, toNat_lower]
  split_ifs <;> omega

theorem blank_plain : Plain blank := by decide
theorem dot_plain : Plain dot := by decide

/-- The character passes the checks of `msdos_format_name`. -/
structure Passes (conv : NameCheck) (c : Byte) : Prop where
  bad : ¬ (conv ≠ .relaxed ∧ strchr badChars c)
  strict : ¬ (conv = .strict ∧ strchr badIfStrict c)
  upper : ¬ (isUpper c ∧ conv = .strict)
  code : ¬ (below c ∨ c = ch ':' ∨ c = ch '\\')

theorem passes_dot (conv : NameCheck) : Passes conv dot where
  bad := fun h => absurd h.2 (by decide)
  strict := fun h => absurd h.2 (by decide)
  upper := fun h => absurd h.1 (by decide)
  code := by decide

theorem Passes.lower (h : Passes conv c) : Passes conv (lower c) where
  bad := fun hbad => h.bad ⟨hbad.1, (strchr_lower (by decide) c).mp hbad.2⟩
  strict := fun hbad => h.strict ⟨hbad.1, (strchr_lower (by decide) c).mp hbad.2⟩
  upper := fun hup => not_isUpper_lower c hup.1
  code := fun hcode => h.code (hcode.imp (below_lower c).mp
    (Or.imp (lower_eq_iff (by decide)).mp (lower_eq_iff (by decide)).mp))

theorem Passes.ne_zero (h : Passes conv c) : c ≠ 0 := by
  rintro rfl
  exact h.code (.inl (by decide))

theorem Passes.ne_deleted (h : Passes conv c) : c ≠ DELETED_FLAG := by
  rintro rfl
  exact h.code (.inl (by decide))

theorem upper_ne (h : Plain x) (hc : c ≠ x) : upper c ≠ x := fun heq => hc ((upper_eq_iff h).mp heq)

/-! ### Blanks at the end -/

/-- Whether the last character is a blank; `sp` where there is none. -/
def endsBlank (sp : Bool) (l : List Byte) : Bool :=
  match l.getLast? with
  | none => sp
  | some x => decide (x = blank)

theorem endsBlank_cons (sp : Bool) (x : Byte) (l : List Byte) :
    endsBlank sp (x :: l) = endsBlank (decide (x = blank)) l := by
  cases l with
  | nil => rfl
  | cons y l => rfl

theorem endsBlank_false_iff : endsBlank false l = false ↔ l.getLast? ≠ some blank := by
  unfold endsBlank
  cases l.getLast? <;> simp

theorem getLast?_map_ne {f : Byte → Byte} (hf : ∀ c, f c = blank ↔ c = blank) :
    (l.map f).getLast? ≠ some blank ↔ l.getLast? ≠ some blank := by
  rw [List.getLast?_map]
  cases l.getLast? <;> simp [hf]

theorem pad_length (h : l.length ≤ n) : (pad n l).length = n := by
  rw [pad, List.length_append, List.length_replicate]
  omega

/-- Padding tells apart what does not end with a blank. -/
theorem pad_inj (hl : l.getLast? ≠ some blank) (hl' : l'.getLast? ≠ some blank) :
    pad n l = pad k l' → l = l' := by
  have key : ∀ {l l' : List Byte} {n k : Nat}, l'.getLast? ≠ some blank →
      (∃ m, l' = l ++ m ∧ List.replicate n blank = m ++ List.replicate k blank) → l = l' := by
    rintro l l' n k hne ⟨m, rfl, hm⟩
    cases hlast : m.getLast? with
    | none =>
        rw [List.getLast?_eq_none_iff.mp hlast, List.append_nil]
    | some y =>
        have hy : y ∈ List.replicate n blank := by
          rw [hm]
          exact List.mem_append_left _ (List.mem_of_getLast? hlast)
        rw [List.getLast?_append, hlast, (List.mem_replicate.mp hy).2] at hne
        exact absurd rfl hne
  intro h
  rcases List.append_eq_append_iff.mp h with ⟨m, hm, hm'⟩ | ⟨m, hm, hm'⟩
  · exact key hl' ⟨m, hm, hm'⟩
  · exact (key hl ⟨m, hm, hm'⟩).symm

/-! ### The loops -/

@[simp] theorem baseOf_dot (rest : List Byte) : baseOf (dot :: rest) = [] := by simp [baseOf]
@[simp] theorem extOf_dot (rest : List Byte) : extOf (dot :: rest) = rest := by simp [extOf]

theorem baseOf_cons (h : x ≠ dot) (rest : List Byte) : baseOf (x :: rest) = x :: baseOf rest := by
  simp [baseOf, h]

theorem extOf_cons (h : x ≠ dot) (rest : List Byte) : extOf (x :: rest) = extOf rest := by
  simp [extOf, h]

/-- There is a dot in the name. -/
def HasDot (name : List Byte) : Prop := dot ∈ name

theorem hasDot_cons (h : x ≠ dot) : HasDot (x :: rest) ↔ HasDot rest := by
  simp [HasDot, h.symm]

theorem extOf_of_not (h : ¬ HasDot name) : extOf name = [] := by
  induction name with
  | nil => rfl
  | cons x rest ih =>
      have hx : x ≠ dot := fun heq => h (heq ▸ List.mem_cons_self)
      rw [extOf_cons hx]
      exact ih fun hd => h (List.mem_cons_of_mem x hd)

/-- What the loop for the base leaves behind. -/
structure BaseEnd (n : Nat) (rest : List Byte) (w : Walk) : Prop where
  dotted : w.c = dot → HasDot rest ∧ (baseOf rest).length < n ∧ w.rest = extOf rest
  full : w.c ≠ dot → (HasDot rest → n ≤ (baseOf rest).length) ∧ w.rest = rest.drop n

theorem baseLoop_ok (stored : List Byte) (sp : Bool)
    (hok : ∀ x ∈ (baseOf rest).take n, Passes conv x) (hc : c ≠ dot) :
    ∃ w, baseLoop conv n ⟨stored, c, sp, rest⟩ = .ok w ∧
      w.stored = stored ++ ((baseOf rest).take n).map upper ∧
      w.space = endsBlank sp ((baseOf rest).take n) ∧ BaseEnd n rest w := by
  induction n generalizing stored c sp rest with
  | zero =>
      exact ⟨_, rfl, (List.append_nil stored).symm, rfl, fun h => absurd h hc, fun _ =>
        ⟨fun _ => Nat.zero_le _, rfl⟩⟩
  | succ n ih =>
      cases rest with
      | nil =>
          exact ⟨_, rfl, (List.append_nil stored).symm, rfl, fun h => absurd h hc, fun _ =>
            ⟨fun h => absurd h List.not_mem_nil, rfl⟩⟩
      | cons x xs =>
          rw [baseLoop]
          dsimp only
          by_cases hx : x = dot
          · have hdot : lower dot = dot := by decide
            have hpass := passes_dot conv
            rw [hx, if_neg hpass.bad, if_neg hpass.strict, if_neg hpass.upper, hdot,
              if_neg hpass.code, if_pos rfl]
            refine ⟨_, rfl, by simp, by simp [endsBlank], fun _ => ?_, fun h => absurd rfl h⟩
            exact ⟨List.mem_cons_self, by simp, (extOf_dot xs).symm⟩
          · rw [baseOf_cons hx, List.take_succ_cons] at hok ⊢
            have hpass := hok x List.mem_cons_self
            have hlow : lower x ≠ dot := fun h => hx ((lower_eq_iff dot_plain).mp h)
            rw [if_neg hpass.bad, if_neg hpass.strict, if_neg hpass.upper, if_neg hpass.lower.code,
              if_neg hlow]
            obtain ⟨w, hw, hstored, hspace, hend⟩ := ih (stored ++ [upper (lower x)])
              (decide (lower x = blank)) (fun y hy => hok y (List.mem_cons_of_mem x hy)) hlow
            refine ⟨w, hw, ?_, ?_, fun h => ?_, fun h => ?_⟩
            · rw [hstored, upper_lower, List.append_assoc]
              rfl
            · rw [hspace, endsBlank_cons, decide_eq_decide.mpr (lower_eq_iff blank_plain)]
            · obtain ⟨hd, hlen, hrest⟩ := hend.dotted h
              rw [hasDot_cons hx, baseOf_cons hx, extOf_cons hx]
              exact ⟨hd, Nat.succ_lt_succ hlen, hrest⟩
            · obtain ⟨hd, hrest⟩ := hend.full h
              rw [hasDot_cons hx, baseOf_cons hx]
              exact ⟨fun h => Nat.succ_le_succ (hd h), hrest⟩

theorem baseLoop_error (stored : List Byte) (c : Byte) (sp : Bool)
    (hno : ¬ ∀ x ∈ (baseOf rest).take n, Passes conv x) :
    ∃ e, baseLoop conv n ⟨stored, c, sp, rest⟩ = .error e := by
  induction n generalizing stored c sp rest with
  | zero => exact absurd (fun x hx => absurd hx List.not_mem_nil) hno
  | succ n ih =>
      cases rest with
      | nil => exact absurd (fun x hx => absurd hx List.not_mem_nil) hno
      | cons x xs =>
          by_cases hx : x = dot
          · refine absurd (fun y hy => ?_) hno
            rw [hx, baseOf_dot] at hy
            exact absurd hy List.not_mem_nil
          · rw [baseOf_cons hx, List.take_succ_cons] at hno
            rw [baseLoop]
            dsimp only
            have hlow : lower x ≠ dot := fun h => hx ((lower_eq_iff dot_plain).mp h)
            by_cases hbad : conv ≠ .relaxed ∧ strchr badChars x
            · exact ⟨_, if_pos hbad⟩
            by_cases hstrict : conv = .strict ∧ strchr badIfStrict x
            · exact ⟨_, by rw [if_neg hbad, if_pos hstrict]⟩
            by_cases hup : isUpper x ∧ conv = .strict
            · exact ⟨_, by rw [if_neg hbad, if_neg hstrict, if_pos hup]⟩
            by_cases hcode : below (lower x) ∨ lower x = ch ':' ∨ lower x = ch '\\'
            · exact ⟨_, by rw [if_neg hbad, if_neg hstrict, if_neg hup, if_pos hcode]⟩
            rw [if_neg hbad, if_neg hstrict, if_neg hup, if_neg hcode, if_neg hlow]
            have hpass : Passes conv x := ⟨hbad, hstrict, hup, fun h => hcode (h.imp
              (below_lower x).mpr
              (Or.imp (lower_eq_iff (by decide)).mpr (lower_eq_iff (by decide)).mpr))⟩
            refine ih _ _ _ fun hall => hno fun y hy => ?_
            cases List.mem_cons.mp hy with
            | inl heq => exact heq ▸ hpass
            | inr hmem => exact hall y hmem

theorem extLoop_ok (stored : List Byte) (c : Byte) (sp : Bool)
    (hok : ∀ x ∈ rest.take n, Passes conv x ∧ x ≠ dot) :
    ∃ w, extLoop conv n ⟨stored, c, sp, rest⟩ = .ok w ∧
      w.stored = stored ++ (rest.take n).map upper ∧ w.space = endsBlank sp (rest.take n) ∧
      w.rest = rest.drop n := by
  induction n generalizing stored c sp rest with
  | zero => exact ⟨_, rfl, (List.append_nil stored).symm, rfl, rfl⟩
  | succ n ih =>
      cases rest with
      | nil => exact ⟨_, rfl, (List.append_nil stored).symm, rfl, rfl⟩
      | cons x xs =>
          rw [List.take_succ_cons] at hok ⊢
          obtain ⟨hpass, hx⟩ := hok x List.mem_cons_self
          have hcode : ¬ (below x ∨ x = ch ':' ∨ x = ch '\\' ∨ x = dot) := by
            rintro (h | h | h | h)
            · exact hpass.code (.inl h)
            · exact hpass.code (.inr (.inl h))
            · exact hpass.code (.inr (.inr h))
            · exact hx h
          rw [extLoop]
          dsimp only
          rw [if_neg hpass.bad, if_neg hpass.strict, if_neg hcode, if_neg hpass.upper]
          obtain ⟨w, hw, hstored, hspace, hrest⟩ := ih (stored ++ [upper (lower x)]) (lower x)
            (decide (lower x = blank)) (fun y hy => hok y (List.mem_cons_of_mem x hy))
          refine ⟨w, hw, ?_, ?_, hrest⟩
          · rw [hstored, upper_lower, List.append_assoc]
            rfl
          · rw [hspace, endsBlank_cons, decide_eq_decide.mpr (lower_eq_iff blank_plain)]

theorem extLoop_error (stored : List Byte) (c : Byte) (sp : Bool)
    (hno : ¬ ∀ x ∈ rest.take n, Passes conv x ∧ x ≠ dot) :
    ∃ e, extLoop conv n ⟨stored, c, sp, rest⟩ = .error e := by
  induction n generalizing stored c sp rest with
  | zero => exact absurd (fun x hx => absurd hx List.not_mem_nil) hno
  | succ n ih =>
      cases rest with
      | nil => exact absurd (fun x hx => absurd hx List.not_mem_nil) hno
      | cons x xs =>
          rw [List.take_succ_cons] at hno
          rw [extLoop]
          dsimp only
          by_cases hbad : conv ≠ .relaxed ∧ strchr badChars x
          · exact ⟨_, if_pos hbad⟩
          by_cases hstrict : conv = .strict ∧ strchr badIfStrict x
          · exact ⟨_, by rw [if_neg hbad, if_pos hstrict]⟩
          by_cases hcode : below x ∨ x = ch ':' ∨ x = ch '\\' ∨ x = dot
          · exact ⟨_, by rw [if_neg hbad, if_neg hstrict, if_pos hcode]⟩
          by_cases hup : isUpper x ∧ conv = .strict
          · exact ⟨_, by rw [if_neg hbad, if_neg hstrict, if_neg hcode, if_pos hup]⟩
          rw [if_neg hbad, if_neg hstrict, if_neg hcode, if_neg hup]
          have hpass : Passes conv x := ⟨hbad, hstrict, hup, fun h => hcode (by tauto)⟩
          have hx : x ≠ dot := fun h => hcode (.inr (.inr (.inr h)))
          refine ih _ _ _ fun hall => hno fun y hy => ?_
          cases List.mem_cons.mp hy with
          | inl heq => exact heq ▸ ⟨hpass, hx⟩
          | inr hmem => exact hall y hmem

theorem skipToDot_dot (rest : List Byte) : skipToDot dot rest = (dot, rest) := by
  cases rest <;> simp [skipToDot]

theorem skipToDot_spec (rest : List Byte) (hc : c ≠ dot) :
    ((skipToDot c rest).1 = dot ↔ HasDot rest) ∧ (skipToDot c rest).2 = extOf rest := by
  induction rest generalizing c with
  | nil => exact ⟨iff_of_false hc List.not_mem_nil, rfl⟩
  | cons x xs ih =>
      rw [skipToDot, if_pos hc]
      by_cases hx : x = dot
      · rw [hx, skipToDot_dot]
        exact ⟨iff_of_true rfl List.mem_cons_self, (extOf_dot xs).symm⟩
      · rw [hasDot_cons hx, extOf_cons hx]
        exact ih hx

/-! ### The base -/

theorem drop_of_le (h : n ≤ (baseOf rest).length) :
    (HasDot (rest.drop n) ↔ HasDot rest) ∧ extOf (rest.drop n) = extOf rest := by
  induction n generalizing rest with
  | zero => exact ⟨Iff.rfl, rfl⟩
  | succ n ih =>
      cases rest with
      | nil => exact ⟨Iff.rfl, rfl⟩
      | cons x xs =>
          by_cases hx : x = dot
          · rw [hx, baseOf_dot] at h
            exact absurd h (Nat.not_succ_le_zero n)
          · rw [baseOf_cons hx] at h
            rw [List.drop_succ_cons, hasDot_cons hx, extOf_cons hx]
            exact ih (Nat.le_of_succ_le_succ h)

/-- The character behind `n` of the base is the dot if and only if the base is over. -/
theorem head_drop (h : n ≤ (baseOf rest).length) (hrest : rest.drop n = x :: l) :
    x = dot ↔ (baseOf rest).length ≤ n := by
  induction n generalizing rest with
  | zero =>
      rw [List.drop_zero] at hrest
      rw [hrest]
      by_cases hx : x = dot
      · rw [hx, baseOf_dot]
        exact iff_of_true rfl (Nat.le_refl _)
      · rw [baseOf_cons hx]
        exact iff_of_false hx (Nat.not_succ_le_zero _)
  | succ n ih =>
      cases rest with
      | nil => cases hrest
      | cons y ys =>
          by_cases hy : y = dot
          · rw [hy, baseOf_dot] at h
            exact absurd h (Nat.not_succ_le_zero n)
          · rw [baseOf_cons hy] at h ⊢
            rw [ih (Nat.le_of_succ_le_succ h) hrest]
            exact Nat.succ_le_succ_iff.symm

theorem baseOf_of_not (h : ¬ HasDot name) : baseOf name = name := by
  induction name with
  | nil => rfl
  | cons x rest ih =>
      have hx : x ≠ dot := fun heq => h (heq ▸ List.mem_cons_self)
      rw [baseOf_cons hx, ih fun hd => h (List.mem_cons_of_mem x hd)]

theorem BaseEnd.le_of_drop (h : BaseEnd n rest w) (hc : w.c ≠ dot) (hrest : w.rest = x :: l) :
    n ≤ (baseOf rest).length ∧ rest.drop n = x :: l := by
  obtain ⟨hd, hdrop⟩ := h.full hc
  rw [hdrop] at hrest
  refine ⟨?_, hrest⟩
  by_cases hdot : HasDot rest
  · exact hd hdot
  · rw [baseOf_of_not hdot]
    have hlen := congrArg List.length hrest
    rw [List.length_drop, List.length_cons] at hlen
    omega

/-- The dot is found, or there is none. -/
theorem BaseEnd.skip (h : BaseEnd n rest w) :
    ((skipToDot w.c w.rest).1 = dot ↔ HasDot rest) ∧ (skipToDot w.c w.rest).2 = extOf rest := by
  by_cases hc : w.c = dot
  · obtain ⟨hd, -, hrest⟩ := h.dotted hc
    rw [hc, skipToDot_dot]
    exact ⟨iff_of_true rfl hd, hrest⟩
  · obtain ⟨hskip, hskip'⟩ := skipToDot_spec w.rest hc
    rw [hskip, hskip', (h.full hc).2]
    by_cases hle : n ≤ (baseOf rest).length
    · exact drop_of_le hle
    · have hdot : ¬ HasDot rest := fun hd => hle ((h.full hc).1 hd)
      rw [baseOf_of_not hdot] at hle
      rw [List.drop_eq_nil_of_le (Nat.le_of_not_le hle), extOf_of_not hdot]
      exact ⟨iff_of_false List.not_mem_nil hdot, rfl⟩

theorem strictDot_ok (h : BaseEnd 8 name w) (hlen : conv = .strict → (baseOf name).length ≤ 8) :
    ∃ w', strictDot conv w = .ok w' ∧ w'.stored = w.stored ∧ w'.space = w.space ∧
      ((skipToDot w'.c w'.rest).1 = dot ↔ HasDot name) ∧
      (skipToDot w'.c w'.rest).2 = extOf name := by
  unfold strictDot
  cases hrest : w.rest with
  | nil => exact ⟨w, rfl, rfl, rfl, h.skip⟩
  | cons x l =>
      dsimp only
      by_cases hstrict : conv = .strict ∧ w.c ≠ dot
      · obtain ⟨hle, hdrop⟩ := h.le_of_drop hstrict.2 hrest
        have hx : x = dot := (head_drop hle hdrop).mpr (hlen hstrict.1)
        have hskip := h.skip
        rw [hrest, skipToDot, if_pos hstrict.2] at hskip
        rw [if_pos hstrict, if_neg (not_not.mpr hx)]
        exact ⟨_, rfl, rfl, rfl, hskip⟩
      · rw [if_neg hstrict]
        exact ⟨w, rfl, rfl, rfl, h.skip⟩

theorem strictDot_error (h : BaseEnd 8 name w)
    (hlen : ¬ (conv = .strict → (baseOf name).length ≤ 8)) : ∃ e, strictDot conv w = .error e := by
  obtain ⟨hstrict, hlong⟩ : conv = .strict ∧ ¬ (baseOf name).length ≤ 8 := by
    simpa only [Classical.not_imp] using hlen
  have hc : w.c ≠ dot := fun hdot => hlong (Nat.le_of_lt (h.dotted hdot).2.1)
  cases hrest : w.rest with
  | nil =>
      have hdrop := (h.full hc).2
      rw [hrest] at hdrop
      have hbase : (baseOf name).length ≤ name.length := (List.takeWhile_sublist _).length_le
      have hlen := congrArg List.length hdrop
      rw [List.length_drop, List.length_nil] at hlen
      omega
  | cons x l =>
      obtain ⟨hle, hdrop⟩ := h.le_of_drop hc hrest
      have hx : x ≠ dot := fun heq => hlong ((head_drop hle hdrop).mp heq)
      exact ⟨-EINVAL, by unfold strictDot; rw [hrest]; simp [hstrict, hc, hx]⟩

/-- What `msdos_format_name` wants of the base. -/
structure BaseOk (conv : NameCheck) (name : List Byte) : Prop where
  ne_nil : baseOf name ≠ []
  passes : ∀ x ∈ (baseOf name).take 8, Passes conv x
  last : ((baseOf name).take 8).getLast? ≠ some blank
  len : conv = .strict → (baseOf name).length ≤ 8

theorem formatBase_ok (h : BaseOk conv name) :
    ∃ w, formatBase conv name = .ok w ∧ w.stored = ((baseOf name).take 8).map upper ∧
      w.space = false ∧ (w.c = dot ↔ HasDot name) ∧ w.rest = extOf name := by
  obtain ⟨w, hw, hstored, hspace, hend⟩ := baseLoop_ok [] false h.passes
    (show (0 : Byte) ≠ dot by decide)
  rw [endsBlank_false_iff.mpr h.last] at hspace
  obtain ⟨w', hw', hstored', hspace', hskip, hskip'⟩ := strictDot_ok hend h.len
  have hne : w'.stored ≠ [] := by
    rw [hstored', hstored, List.nil_append]
    simpa using h.ne_nil
  unfold formatBase
  rw [hw]
  dsimp only
  rw [if_neg (by rw [hspace]; decide), hw']
  dsimp only
  rw [if_neg hne]
  exact ⟨_, rfl, by rw [hstored', hstored, List.nil_append], hspace'.trans hspace, hskip, hskip'⟩

theorem formatBase_error (h : ¬ BaseOk conv name) : ∃ e, formatBase conv name = .error e := by
  unfold formatBase
  by_cases hpasses : ∀ x ∈ (baseOf name).take 8, Passes conv x
  · obtain ⟨w, hw, hstored, hspace, hend⟩ := baseLoop_ok [] false hpasses
      (show (0 : Byte) ≠ dot by decide)
    rw [hw]
    dsimp only
    by_cases hsp : w.space = true
    · exact ⟨_, if_pos hsp⟩
    · rw [if_neg hsp]
      have hlast : ((baseOf name).take 8).getLast? ≠ some blank := by
        rw [← endsBlank_false_iff, ← hspace]
        exact Bool.eq_false_of_not_eq_true hsp
      by_cases hlen : conv = .strict → (baseOf name).length ≤ 8
      · obtain ⟨w', hw', hstored', -⟩ := strictDot_ok hend hlen
        rw [hw']
        dsimp only
        have hnil : baseOf name = [] := by
          by_contra hne
          exact h ⟨hne, hpasses, hlast, hlen⟩
        refine ⟨_, if_pos ?_⟩
        rw [hstored', hstored, hnil]
        rfl
      · obtain ⟨e, he⟩ := strictDot_error hend hlen
        rw [he]
        exact ⟨e, rfl⟩
  · obtain ⟨e, he⟩ := baseLoop_error [] 0 false hpasses
    rw [he]
    exact ⟨e, rfl⟩

/-! ### The extension -/

/-- What it wants of the extension. -/
structure ExtOk (conv : NameCheck) (name : List Byte) : Prop where
  passes : ∀ x ∈ (extOf name).take 3, Passes conv x ∧ x ≠ dot
  last : ((extOf name).take 3).getLast? ≠ some blank
  len : conv = .strict → (extOf name).length ≤ 3

theorem pad_pad (h : l.length ≤ 8) (l' : List Byte) :
    pad MSDOS_NAME (pad 8 l ++ l') = pad 8 l ++ pad 3 l' := by
  have hlen := pad_length h
  have hsub : MSDOS_NAME - (pad 8 l ++ l').length = 3 - l'.length := by
    rw [List.length_append, hlen]
    exact Nat.add_sub_add_left 8 3 _
  rw [pad, hsub, List.append_assoc]
  rfl

theorem pad_name (h : l.length ≤ 8) : pad MSDOS_NAME l = pad 8 l ++ pad 3 [] := by
  have hsub : MSDOS_NAME - l.length = (8 - l.length) + 3 := by
    unfold MSDOS_NAME
    omega
  rw [pad, hsub, List.replicate_add, ← List.append_assoc]
  rfl

/-- The 11 bytes for a name. -/
def packed (name : List Byte) : List Byte :=
  pad 8 (((baseOf name).take 8).map upper) ++ pad 3 (((extOf name).take 3).map upper)

theorem length_take_map (n : Nat) (l : List Byte) : ((l.take n).map upper).length ≤ n := by
  rw [List.length_map]
  exact List.length_take_le n l

theorem formatExt_ok (h : ExtOk conv name) (hstored : w.stored = ((baseOf name).take 8).map upper)
    (hspace : w.space = false) (hdot : w.c = dot ↔ HasDot name) (hrest : w.rest = extOf name) :
    ∃ stored, formatExt conv w = .ok stored ∧ pad MSDOS_NAME stored = packed name := by
  unfold formatExt packed
  rw [hrest, hstored, hspace]
  by_cases hc : w.c = dot
  · obtain ⟨w', hw', hstored', hspace', hrest'⟩ := extLoop_ok
      (pad 8 (((baseOf name).take 8).map upper)) w.c false h.passes
    rw [endsBlank_false_iff.mpr h.last] at hspace'
    have hlen : ¬ (conv = .strict ∧ w'.rest ≠ []) := by
      rintro ⟨hstrict, hne⟩
      rw [hrest'] at hne
      exact hne (List.drop_eq_nil_of_le (h.len hstrict))
    rw [if_pos hc, hw']
    dsimp only
    rw [if_neg (by rw [hspace']; decide), if_neg hlen]
    exact ⟨_, rfl, by rw [hstored', pad_pad (length_take_map 8 _)]⟩
  · rw [if_neg hc, extOf_of_not fun hd => hc (hdot.mpr hd)]
    exact ⟨_, rfl, pad_name (length_take_map 8 _)⟩

theorem formatExt_error (h : ¬ ExtOk conv name) (hspace : w.space = false)
    (hdot : w.c = dot ↔ HasDot name) (hrest : w.rest = extOf name) :
    ∃ e, formatExt conv w = .error e := by
  have hc : w.c = dot := by
    rw [hdot]
    by_contra hno
    have hnil := extOf_of_not hno
    refine h ⟨fun x hx => ?_, ?_, fun _ => ?_⟩
    · rw [hnil] at hx
      exact absurd hx List.not_mem_nil
    · rw [hnil]
      exact fun hx => absurd hx (by decide)
    · rw [hnil]
      exact Nat.zero_le 3
  unfold formatExt
  rw [if_pos hc, hrest, hspace]
  by_cases hpasses : ∀ x ∈ (extOf name).take 3, Passes conv x ∧ x ≠ dot
  · obtain ⟨w', hw', -, hspace', hrest'⟩ := extLoop_ok (pad 8 w.stored) w.c false
      hpasses
    rw [hw']
    dsimp only
    by_cases hsp : w'.space = true
    · exact ⟨_, if_pos hsp⟩
    · rw [if_neg hsp]
      have hlast : ((extOf name).take 3).getLast? ≠ some blank := by
        rw [← endsBlank_false_iff, ← hspace']
        exact Bool.eq_false_of_not_eq_true hsp
      refine ⟨-EINVAL, if_pos ?_⟩
      by_contra hno
      refine h ⟨hpasses, hlast, fun hstrict => ?_⟩
      by_contra hlong
      refine hno ⟨hstrict, ?_⟩
      rw [hrest']
      exact fun hnil => hlong (List.drop_eq_nil_iff.mp hnil)
  · obtain ⟨e, he⟩ := extLoop_error (pad 8 w.stored) w.c false hpasses
    rw [he]
    exact ⟨e, rfl⟩

/-! ### The whole name -/

/-- `.` and `..`. -/
def Special (name : List Byte) : Prop := name = [dot] ∨ name = [dot, dot]

/-- What `msdos_format_name` accepts besides. -/
structure Accepts (conv : NameCheck) (name : List Byte) : Prop where
  base : BaseOk conv name
  ext : ExtOk conv name
  free : (packed name).take 8 ∉ reservedNames

theorem BaseOk.head (h : BaseOk conv name) : ∃ x l, name = x :: l ∧ x ≠ dot ∧ Passes conv x := by
  cases name with
  | nil => exact absurd rfl h.ne_nil
  | cons x l =>
      have hx : x ≠ dot := by
        rintro rfl
        exact h.ne_nil (baseOf_dot l)
      refine ⟨x, l, rfl, hx, h.passes x ?_⟩
      rw [baseOf_cons hx]
      exact List.mem_cons_self

theorem formatName_of_special (h : Special name) :
    formatName conv name = .ok (pad MSDOS_NAME name) := by
  unfold Special at h
  unfold formatName
  rw [if_neg, if_pos h]
  rcases h with rfl | rfl <;> decide

/-- **What `msdos_format_name` does** to a name that is not special. -/
theorem formatName_iff (hs : ¬ Special name) :
    formatName conv name = .ok res ↔ Accepts conv name ∧ res = packed name := by
  unfold Special at hs
  by_cases hbase : BaseOk conv name
  · obtain ⟨x, l, hname, hx, hpass⟩ := hbase.head
    have hdel : ¬ name.head? = some DELETED_FLAG := by
      rw [hname]
      exact fun h => hpass.ne_deleted (Option.some.inj h)
    obtain ⟨w, hw, hstored, hspace, hdot, hrest⟩ := formatBase_ok hbase
    unfold formatName
    rw [if_neg hdel, if_neg hs, hw]
    dsimp only
    by_cases hext : ExtOk conv name
    · obtain ⟨stored, he, hpad⟩ := formatExt_ok hext hstored hspace hdot hrest
      rw [he]
      dsimp only
      rw [hpad]
      by_cases hres : (packed name).take 8 ∈ reservedNames
      · rw [if_pos hres]
        exact iff_of_false (fun h => by cases h) fun h => h.1.free hres
      · rw [if_neg hres]
        exact ⟨fun h => ⟨⟨hbase, hext, hres⟩, (Except.ok.inj h).symm⟩, fun h => by rw [h.2]⟩
    · obtain ⟨e, he⟩ := formatExt_error hext hspace hdot hrest
      rw [he]
      exact iff_of_false (fun h => by cases h) fun h => hext h.1.ext
  · obtain ⟨e, he⟩ := formatBase_error hbase
    unfold formatName
    rw [if_neg hs, he]
    refine iff_of_false (fun h => ?_) fun h => hbase h.1.base
    split at h <;> cases h

/-! ### Names that agree -/

theorem packed_inj (h : Accepts conv name) (h' : Accepts conv' name') :
    packed name = packed name' ↔ Agree name name' := by
  have hup : ∀ c, upper c = blank ↔ c = blank := fun c => upper_eq_iff blank_plain
  unfold packed Agree
  rw [← map_upper_inj, ← map_upper_inj]
  constructor
  · intro heq
    have hlen : (pad 8 (((baseOf name).take 8).map upper)).length =
        (pad 8 (((baseOf name').take 8).map upper)).length := by
      rw [pad_length (length_take_map 8 _), pad_length (length_take_map 8 _)]
    obtain ⟨hb, he⟩ := List.append_inj heq hlen
    exact ⟨pad_inj ((getLast?_map_ne hup).mpr h.base.last) ((getLast?_map_ne hup).mpr h'.base.last)
      hb, pad_inj ((getLast?_map_ne hup).mpr h.ext.last) ((getLast?_map_ne hup).mpr h'.ext.last) he⟩
  · rintro ⟨hb, he⟩
    rw [hb, he]

/-- The base of an accepted name starts the 11 bytes. -/
theorem head_packed (h : Accepts conv name) : ∃ x l, packed name = upper x :: l ∧ x ≠ dot ∧
    Passes conv x ∧ baseOf name ≠ [] := by
  obtain ⟨x, l, rfl, hx, hpass⟩ := h.base.head
  unfold packed
  rw [baseOf_cons hx]
  exact ⟨x, _, rfl, hx, hpass, List.cons_ne_nil _ _⟩

theorem not_agree_special (h : Accepts conv name) (h' : Special name') :
    packed name ≠ pad MSDOS_NAME name' ∧ ¬ Agree name name' := by
  obtain ⟨x, l, hpacked, hx, -, hne⟩ := head_packed h
  have hbase : baseOf name' = [] := by
    rcases h' with rfl | rfl <;> decide
  obtain ⟨l', hl'⟩ : ∃ l', pad MSDOS_NAME name' = dot :: l' := by
    rcases h' with rfl | rfl
    · exact ⟨_, rfl⟩
    · exact ⟨_, rfl⟩
  constructor
  · rw [hpacked, hl']
    exact fun heq => upper_ne dot_plain hx (List.cons.inj heq).1
  · intro hagree
    have hb := hagree.1
    rw [hbase, List.take_nil, List.map_nil, List.map_eq_nil_iff, List.take_eq_nil_iff] at hb
    exact hb.elim (fun h => absurd h (by decide)) hne

/-- Two accepted names have the same 11 bytes if and only if they agree. -/
theorem formatName_inj (h : formatName conv name = .ok res)
    (h' : formatName conv' name' = .ok res') : res = res' ↔ Agree name name' := by
  by_cases hs : Special name
  · rw [formatName_of_special hs] at h
    obtain rfl := Except.ok.inj h
    by_cases hs' : Special name'
    · rw [formatName_of_special hs'] at h'
      obtain rfl := Except.ok.inj h'
      rcases hs with rfl | rfl <;> rcases hs' with rfl | rfl
      · exact iff_of_true rfl ⟨rfl, rfl⟩
      · exact iff_of_false (by decide) fun h => absurd h.2 (by decide)
      · exact iff_of_false (by decide) fun h => absurd h.2 (by decide)
      · exact iff_of_true rfl ⟨rfl, rfl⟩
    · obtain ⟨hacc, rfl⟩ := (formatName_iff hs').mp h'
      obtain ⟨hne, hno⟩ := not_agree_special hacc hs
      exact iff_of_false (Ne.symm hne) fun h => hno ⟨h.1.symm, h.2.symm⟩
  · obtain ⟨hacc, rfl⟩ := (formatName_iff hs).mp h
    by_cases hs' : Special name'
    · rw [formatName_of_special hs'] at h'
      obtain rfl := Except.ok.inj h'
      obtain ⟨hne, hno⟩ := not_agree_special hacc hs'
      exact iff_of_false hne hno
    · obtain ⟨hacc', rfl⟩ := (formatName_iff hs').mp h'
      exact packed_inj hacc hacc'

/-! ### Listed names -/

theorem nameLoop_fst (h : ∀ x ∈ l, x ≠ 0) (buf : List Byte) (last : Nat) :
    (nameLoop l buf last).1 = buf ++ l.map lower := by
  induction l generalizing buf last with
  | nil => exact (List.append_nil buf).symm
  | cons x xs ih =>
      rw [nameLoop, if_neg (h x List.mem_cons_self),
        ih fun y hy => h y (List.mem_cons_of_mem x hy), List.append_assoc]
      rfl

theorem nameLoop_snd (h : ∀ x ∈ l, x ≠ 0) (hlast : l.getLast? ≠ some blank) (hne : l ≠ [])
    (buf : List Byte) (last : Nat) : (nameLoop l buf last).2 = buf.length + l.length := by
  induction l generalizing buf last with
  | nil => exact absurd rfl hne
  | cons x xs ih =>
      rw [nameLoop, if_neg (h x List.mem_cons_self)]
      cases xs with
      | nil =>
          have hx : lower x ≠ blank := fun heq =>
            hlast (congrArg some ((lower_eq_iff blank_plain).mp heq))
          rw [nameLoop, if_pos hx]
          rfl
      | cons y ys =>
          rw [ih (fun z hz => h z (List.mem_cons_of_mem x hz)) hlast (List.cons_ne_nil y ys),
            List.length_append]
          simp only [List.length_cons, List.length_nil]
          omega

theorem nameLoop_append (h : ∀ x ∈ l, x ≠ 0) (l' buf : List Byte) (last : Nat) :
    nameLoop (l ++ l') buf last = nameLoop l' (nameLoop l buf last).1 (nameLoop l buf last).2 := by
  induction l generalizing buf last with
  | nil => rfl
  | cons x xs ih =>
      have hx := h x List.mem_cons_self
      rw [List.cons_append, nameLoop, if_neg hx, nameLoop, if_neg hx,
        ih fun y hy => h y (List.mem_cons_of_mem x hy)]

theorem nameLoop_blanks (m : Nat) (buf : List Byte) (last : Nat) :
    nameLoop (List.replicate m blank) buf last = (buf ++ List.replicate m blank, last) := by
  have hb : lower blank = blank := by decide
  induction m generalizing buf with
  | zero => exact Prod.ext (List.append_nil buf).symm rfl
  | succ m ih =>
      rw [List.replicate_succ, nameLoop, if_neg (by decide), hb, if_neg fun h => h rfl, ih,
        List.append_assoc]
      rfl

/-- The loop for a padded name comes to the name without the blanks. -/
theorem nameLoop_pad (h : ∀ x ∈ l, x ≠ 0) (hlast : l.getLast? ≠ some blank) (hne : l ≠ [])
    (buf : List Byte) (last : Nat) :
    (nameLoop (pad n l) buf last).2 = buf.length + l.length ∧
      (nameLoop (pad n l) buf last).1.take (buf.length + l.length) = buf ++ l.map lower := by
  have hlen : buf.length + l.length = (buf ++ l.map lower).length := by
    rw [List.length_append, List.length_map]
  rw [pad, nameLoop_append h, nameLoop_blanks, nameLoop_fst h, nameLoop_snd h hlast hne]
  exact ⟨rfl, by rw [hlen, List.take_left]⟩

/-- What `msdos_readdir` makes of an accepted name: without an extension that starts with a
blank. -/
def listed (name : List Byte) : List Byte :=
  ((baseOf name).take 8).map lower ++
    match (extOf name).take 3 with
    | [] => []
    | x :: ext => if x = blank then [] else dot :: (x :: ext).map lower

theorem map_lower_upper (l : List Byte) : (l.map upper).map lower = l.map lower := by
  rw [List.map_map]
  exact List.map_congr_left fun c _ => lower_upper c

theorem passes_upper_ne (h : ∀ x ∈ l, Passes conv x) : ∀ x ∈ l.map upper, x ≠ 0 := by
  intro x hx
  obtain ⟨c, hc, rfl⟩ := List.mem_map.mp hx
  exact upper_ne (by decide) (h c hc).ne_zero

theorem readdirName_packed (h : Accepts conv name) (isDir : Bool) :
    readdirName (createEntry (packed name) isDir) = some (listed name) := by
  have hup : ∀ c, upper c = blank ↔ c = blank := fun c => upper_eq_iff blank_plain
  have hname : (packed name).take 8 = pad 8 (((baseOf name).take 8).map upper) :=
    List.take_left' (pad_length (length_take_map 8 _))
  have hext : (packed name).drop 8 = pad 3 (((extOf name).take 3).map upper) :=
    List.drop_left' (pad_length (length_take_map 8 _))
  obtain ⟨x, l, hpacked, -, hpass, hne⟩ := head_packed h
  have hhead : ((packed name).take 8).headD 0 = upper x := by rw [hpacked]; rfl
  have hzero : upper x ≠ 0 := upper_ne (by decide) hpass.ne_zero
  have hdel : upper x ≠ DELETED_FLAG := upper_ne (by decide) hpass.ne_deleted
  have hattr : (if isDir then ATTR_DIR else ATTR_ARCH) &&& ATTR_VOLUME = 0 := by
    cases isDir <;> decide
  have hbne : ((baseOf name).take 8).map upper ≠ [] := by simpa using hne
  obtain ⟨hlast, hbase⟩ := nameLoop_pad (n := 8) (passes_upper_ne h.base.passes)
    ((getLast?_map_ne hup).mpr h.base.last) hbne [] 0
  rw [map_lower_upper, List.nil_append] at hbase
  have hpos : (((baseOf name).take 8).map upper).length ≠ 0 := fun h0 =>
    hbne (List.length_eq_zero_iff.mp h0)
  unfold readdirName createEntry
  dsimp only
  rw [hhead, if_pos ⟨hzero, hdel, hattr⟩, hname, hext]
  unfold listed
  have hstop : ∀ e : List Byte, e = [] ∨ e.head? = some blank →
      ¬ ((pad 3 (e.map upper)).headD 0 ≠ 0 ∧ (pad 3 (e.map upper)).headD 0 ≠ blank) := by
    rintro e he ⟨-, hno⟩
    refine hno ?_
    cases e with
    | nil => rfl
    | cons y ys =>
        have hy : y = blank := by simpa using he
        rw [hy]
        rfl
  have hplain : (if ([] : List Byte).length + (((baseOf name).take 8).map upper).length ≠ 0 then
      some (((baseOf name).take 8).map lower) else none) =
        some (((baseOf name).take 8).map lower) :=
    if_pos (by simpa using hpos)
  cases hx : (extOf name).take 3 with
  | nil =>
      rw [if_neg (hstop [] (.inl rfl)), hlast, hbase, hplain]
      exact congrArg some (List.append_nil _).symm
  | cons y ys =>
      dsimp only
      by_cases hy : y = blank
      · rw [if_neg (hstop (y :: ys) (.inr (congrArg some hy))), hlast, hbase, hplain, if_pos hy]
        exact congrArg some (List.append_nil _).symm
      · have hyp : ∀ z ∈ y :: ys, Passes conv z := fun z hz => (h.ext.passes z (hx ▸ hz)).1
        have hgo : (pad 3 ((y :: ys).map upper)).headD 0 ≠ 0 ∧
            (pad 3 ((y :: ys).map upper)).headD 0 ≠ blank :=
          ⟨upper_ne (by decide) (hyp y List.mem_cons_self).ne_zero, upper_ne blank_plain hy⟩
        have hylast := h.ext.last
        rw [hx] at hylast
        obtain ⟨hlast', hext'⟩ := nameLoop_pad (n := 3) (passes_upper_ne hyp)
          ((getLast?_map_ne hup).mpr hylast) (by simp)
          (((baseOf name).take 8).map lower ++ [dot])
          (([] : List Byte).length + (((baseOf name).take 8).map upper).length)
        rw [if_pos hgo, hlast, hbase, hlast', hext', map_lower_upper, if_neg hy, if_pos (by simp)]
        rw [List.append_assoc]
        rfl

/-! ### Reading back -/

theorem baseOf_append_dot (h : ∀ x ∈ l, x ≠ dot) (l' : List Byte) :
    baseOf (l ++ dot :: l') = l ∧ extOf (l ++ dot :: l') = l' := by
  induction l with
  | nil => exact ⟨baseOf_dot l', extOf_dot l'⟩
  | cons x xs ih =>
      have hx := h x List.mem_cons_self
      obtain ⟨hb, he⟩ := ih fun y hy => h y (List.mem_cons_of_mem x hy)
      rw [List.cons_append, baseOf_cons hx, extOf_cons hx, hb, he]
      exact ⟨rfl, rfl⟩

theorem dot_not_mem_baseOf (name : List Byte) : dot ∉ baseOf name := by
  induction name with
  | nil => exact List.not_mem_nil
  | cons x rest ih =>
      by_cases hx : x = dot
      · rw [hx, baseOf_dot]
        exact List.not_mem_nil
      · rw [baseOf_cons hx, List.mem_cons]
        exact fun h => h.elim (fun heq => hx heq.symm) ih

theorem not_hasDot_base (name : List Byte) : ∀ x ∈ ((baseOf name).take 8).map lower, x ≠ dot := by
  intro x hx
  obtain ⟨c, hc, rfl⟩ := List.mem_map.mp hx
  have hne : c ≠ dot := by
    rintro rfl
    exact dot_not_mem_baseOf name (List.mem_of_mem_take hc)
  exact fun h => hne ((lower_eq_iff dot_plain).mp h)

/-- Base and extension of a listed name. -/
theorem baseOf_listed (name : List Byte) : baseOf (listed name) = ((baseOf name).take 8).map lower ∧
    extOf (listed name) =
      if (extOf name).head? = some blank then [] else ((extOf name).take 3).map lower := by
  have hplain : baseOf (((baseOf name).take 8).map lower ++ []) = ((baseOf name).take 8).map lower ∧
      extOf (((baseOf name).take 8).map lower ++ []) = [] := by
    have hno : ¬ HasDot (((baseOf name).take 8).map lower) := fun h => not_hasDot_base name _ h rfl
    rw [List.append_nil]
    exact ⟨baseOf_of_not hno, extOf_of_not hno⟩
  unfold listed
  cases hx : extOf name with
  | nil => exact hplain
  | cons y ys =>
      rw [List.take_succ_cons, List.head?_cons]
      dsimp only
      by_cases hy : y = blank
      · rw [if_pos hy, if_pos (congrArg some hy)]
        exact hplain
      · rw [if_neg hy, if_neg fun h => hy (Option.some.inj h)]
        exact baseOf_append_dot (not_hasDot_base name) _

theorem take_map_lower (n : Nat) (l : List Byte) :
    ((l.take n).map lower).take n = (l.take n).map lower := by
  rw [← List.map_take, List.take_take, Nat.min_self]

theorem map_upper_lower (l : List Byte) : (l.map lower).map upper = l.map upper := by
  rw [List.map_map]
  exact List.map_congr_left fun c _ => upper_lower c

theorem passes_map_lower (h : ∀ x ∈ l, Passes conv x) : ∀ x ∈ l.map lower, Passes conv x := by
  intro x hx
  obtain ⟨c, hc, rfl⟩ := List.mem_map.mp hx
  exact (h c hc).lower

/-- The listed name leads back to the 11 bytes exactly if the extension does not start with a
blank. -/
theorem formatName_listed (h : Accepts conv name) :
    formatName conv (listed name) = .ok (packed name) ↔ (extOf name).head? ≠ some blank := by
  have hlow : ∀ c, lower c = blank ↔ c = blank := fun c => lower_eq_iff blank_plain
  obtain ⟨hb, he⟩ := baseOf_listed name
  have hspecial : ¬ Special (listed name) := by
    have hne : baseOf (listed name) ≠ [] := by
      rw [hb]
      simpa using h.base.ne_nil
    rintro (heq | heq)
    · exact hne (by rw [heq]; decide)
    · exact hne (by rw [heq]; decide)
  rw [formatName_iff hspecial]
  constructor
  · rintro ⟨-, heq⟩ hblank
    unfold packed at heq
    rw [hb, he, if_pos hblank, take_map_lower, map_upper_lower] at heq
    have hext := List.append_cancel_left heq
    have hnil : ((extOf name).take 3).map upper = [] :=
      pad_inj ((getLast?_map_ne fun c => upper_eq_iff blank_plain).mpr h.ext.last) (by decide) hext
    have hnil' : (extOf name).take 3 = [] := List.map_eq_nil_iff.mp hnil
    cases hx : extOf name with
    | nil => rw [hx] at hblank; cases hblank
    | cons y ys => rw [hx] at hnil'; cases hnil'
  · intro hblank
    rw [if_neg hblank] at he
    have hpacked : packed (listed name) = packed name := by
      unfold packed
      rw [hb, he, take_map_lower, take_map_lower, map_upper_lower, map_upper_lower]
    refine ⟨⟨⟨?_, ?_, ?_, fun _ => ?_⟩, ⟨?_, ?_, fun _ => ?_⟩, ?_⟩, hpacked.symm⟩
    · rw [hb]
      simpa using h.base.ne_nil
    · rw [hb, take_map_lower]
      exact passes_map_lower h.base.passes
    · rw [hb, take_map_lower]
      exact (getLast?_map_ne hlow).mpr h.base.last
    · rw [hb, List.length_map]
      exact List.length_take_le 8 _
    · rw [he, take_map_lower]
      intro x hx
      obtain ⟨c, hc, rfl⟩ := List.mem_map.mp hx
      exact ⟨(h.ext.passes c hc).1.lower, fun heq =>
        (h.ext.passes c hc).2 ((lower_eq_iff dot_plain).mp heq)⟩
    · rw [he, take_map_lower]
      exact (getLast?_map_ne hlow).mpr h.ext.last
    · rw [he, List.length_map]
      exact List.length_take_le 3 _
    · rw [hpacked]
      exact h.free

/-- `.` and `..` are listed as they are. -/
theorem readsBack_special (h : Special name) (conv : NameCheck) (isDir : Bool) :
    ReadsBack conv (pad MSDOS_NAME name) isDir := by
  refine ⟨name, ?_, formatName_of_special h⟩
  rcases h with rfl | rfl <;> cases isDir <;> decide

theorem readsBack_of (h : formatName conv name = .ok res) (isDir : Bool) :
    ReadsBack conv res isDir ↔ (extOf name).head? ≠ some blank := by
  by_cases hs : Special name
  · rw [formatName_of_special hs] at h
    obtain rfl := Except.ok.inj h
    refine iff_of_true (readsBack_special hs conv isDir) ?_
    rcases hs with rfl | rfl <;> decide
  · obtain ⟨hacc, rfl⟩ := (formatName_iff hs).mp h
    rw [← formatName_listed hacc]
    constructor
    · rintro ⟨name', hname', hback⟩
      rw [readdirName_packed hacc] at hname'
      exact Option.some.inj hname' ▸ hback
    · exact fun hback => ⟨_, readdirName_packed hacc isDir, hback⟩

/-- **Listed names can be looked up** if and only if the extension does not start with a blank;
and two names have the same 11 bytes if and only if they agree. -/
theorem lookup_readsBack_iff (conv : NameCheck) (name res : List Byte) (isDir : Bool)
    (h : formatName conv name = .ok res) :
    (ReadsBack conv res isDir ↔ (extOf name).head? ≠ some blank) ∧
      ∀ conv' name' res', formatName conv' name' = .ok res' → (res = res' ↔ Agree name name') :=
  ⟨readsBack_of h isDir, fun _ _ _ h' => formatName_inj h h'⟩

theorem formatName_file :
    formatName .normal (str "Readme.Text") = .ok (str "README  TEX") := by decide

theorem lookup_readsBack_iff_file :
    (ReadsBack .normal (str "README  TEX") false ↔
        (extOf (str "Readme.Text")).head? ≠ some blank) ∧
      ∀ conv' name' res', formatName conv' name' = .ok res' →
        (str "README  TEX" = res' ↔ Agree (str "Readme.Text") name') :=
  lookup_readsBack_iff .normal (str "Readme.Text") (str "README  TEX") false formatName_file

theorem formatName_blank : formatName .relaxed (str "a. b") = .ok (str "A        B ") := by decide

/-- The extension of "a. b" is not listed. -/
theorem not_lookup_readsBack :
    ¬ ∀ (conv : NameCheck) (name res : List Byte) (isDir : Bool), formatName conv name = .ok res →
      ReadsBack conv res isDir := fun h =>
  (readsBack_of formatName_blank false).mp (h _ _ _ false formatName_blank) (by decide)

end LinuxKernel.V098.Fs.MsdosName
