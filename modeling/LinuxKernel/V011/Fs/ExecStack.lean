import LinuxKernel.V011.Fs.Exec

/-!
# LinuxKernel.V011.Fs.ExecStack

**The new stack names the given strings**, unless a script is executed without
any arguments, or the header of a program makes the kernel clear the stack.

- `copy_strings` is followed byte by byte (`Holds`): the bytes behind `p` are those
  copied so far.
- `create_tables` finds in them one string after the other.
-/

namespace LinuxKernel.V011.Fs.Exec

/-! ### What is claimed -/

/-- `get_fs_long`. -/
def longAt (mem : Mem) (a : Nat) : Nat :=
  (mem a).toNat + 256 * ((mem (a + 1)).toNat +
    256 * ((mem (a + 2)).toNat + 256 * (mem (a + 3)).toNat))

/-- The bytes from `a` on. -/
def BytesAt (mem : Mem) (a : Nat) (bs : List Byte) : Prop :=
  ∀ i b, bs[i]? = some b → mem (a + i) = b

/-- A table of pointers to strings, with a zero behind it. -/
structure TableAt (mem : Mem) (a : Nat) (ss : List CString) : Prop where
  strings : ∀ i s, ss[i]? = some s → BytesAt mem (longAt mem (a + 4 * i)) s.stored
  last : longAt mem (a + 4 * ss.length) = 0

/-- The stack names these strings. -/
structure Names (mem : Mem) (sp : Nat) (args envs : List CString) : Prop where
  argc : longAt mem sp = args.length
  argv : TableAt mem (longAt mem (sp + 4)) args
  envp : TableAt mem (longAt mem (sp + 8)) envs

/-- What is behind the last `/`. -/
def baseName (l : List Byte) : List Byte := (l.reverse.takeWhile fun c => c ≠ 0x2f).reverse

/-- The words of a script: the interpreter, and what is behind the blank that ends it. -/
def words (data : Nat → Byte) : List Byte × Option (List Byte) :=
  let buf := (CString.of ((List.range 1022).map fun i => data (i + 2))).bytes
  let line := (buf.takeWhile (· ≠ 0x0a)).dropWhile blank
  (line.takeWhile fun c => !blank c,
    match line.dropWhile fun c => !blank c with
    | [] => none
    | _ :: rest => some rest)

/-- The arguments that a program is to have. -/
def arguments (data : Nat → Byte) (filename : CString) (argv : List CString) : List CString :=
  if isScript data then
    let (interp, arg) := words data
    CString.of (baseName interp) :: (arg.map CString.of).toList ++ filename :: argv.drop 1
  else argv

/-! ### The first line -/

theorem baseName_of_notMem {w : List Byte} (h : 0x2f ∉ w) : baseName w = w := by
  unfold baseName
  rw [List.takeWhile_eq_self_iff.mpr, List.reverse_reverse]
  intro c hc
  rw [List.mem_reverse] at hc
  exact decide_eq_true fun he => h (he ▸ hc)

theorem baseName_slash (w t : List Byte) : baseName (w ++ 0x2f :: t) = baseName t := by
  unfold baseName
  rw [List.reverse_append, List.reverse_cons, List.append_assoc, List.takeWhile_append]
  split
  · next hlen =>
      rw [List.singleton_append, List.takeWhile_cons_of_neg (by decide), List.append_nil]
      exact congrArg List.reverse
        ((List.takeWhile_prefix _).eq_of_length hlen).symm
  · rfl

/-- `i_name` is behind the last `/` so far, and `cp` at the blank. -/
theorem scanName_eq {w : List Byte} (h : 0x2f ∉ w) (cp : List Byte) :
    scanName (w ++ cp) cp =
      (baseName (w ++ cp.takeWhile fun c => !blank c) ++ cp.dropWhile fun c => !blank c,
        cp.dropWhile fun c => !blank c) := by
  induction cp generalizing w with
  | nil => rw [scanName, List.takeWhile_nil, List.dropWhile_nil, List.append_nil, List.append_nil,
      baseName_of_notMem h]
  | cons c cp ih =>
      unfold scanName
      cases hc : blank c with
      | true =>
          simp [hc, baseName_of_notMem h]
      | false =>
          simp only [hc, Bool.not_false, List.takeWhile_cons_of_pos, List.dropWhile_cons_of_pos,
            Bool.false_eq_true, if_false]
          by_cases hs : c = 0x2f
          · subst hs
            rw [if_pos rfl, baseName_slash]
            exact ih List.not_mem_nil
          · have hw : 0x2f ∉ w ++ [c] := by
              rw [List.mem_append, List.mem_singleton]
              rintro (hw | hw)
              · exact h hw
              · exact hs hw.symm
            rw [if_neg hs]
            have := ih hw
            rwa [List.append_assoc, List.append_assoc] at this

/-- The code finds the words of the line. -/
theorem parseScript_words {data : Nat → Byte} {i : Interp} (h : parseScript data = some i) :
    i.name = CString.of (baseName (words data).1) ∧
      i.arg = (words data).2.map CString.of := by
  unfold parseScript at h
  unfold words
  dsimp only at h ⊢
  set buf := (CString.of ((List.range 1022).map fun i => data (i + 2))).bytes
  split at h
  case isFalse => cases h
  case isTrue hline =>
    set cp := (buf.takeWhile (· ≠ 0x0a)).dropWhile blank
    split at h
    case isTrue => cases h
    case isFalse hcp =>
      have hscan := scanName_eq (w := []) List.not_mem_nil cp
      rw [List.nil_append, List.nil_append] at hscan
      rw [hscan] at h
      obtain rfl := Option.some.inj h
      refine ⟨?_, ?_⟩
      · dsimp only
        rw [List.length_append, Nat.add_sub_cancel, List.take_left]
      · dsimp only
        cases List.dropWhile (fun c => !blank c) cp with
        | nil => rfl
        | cons c rest => rfl

/-! ### `copy_strings` -/

/-- All strings, one behind the other. -/
def flat (ss : List CString) : List Byte := ss.flatMap CString.stored

theorem flat_append (ss ss' : List CString) : flat (ss ++ ss') = flat ss ++ flat ss' :=
  List.flatMap_append

theorem flat_cons (s : CString) (ss : List CString) : flat (s :: ss) = s.stored ++ flat ss :=
  List.flatMap_cons

theorem stored_length (s : CString) : s.stored.length = s.bytes.length + 1 :=
  List.length_append

theorem length_le_flat (ss : List CString) : ss.length ≤ (flat ss).length := by
  induction ss with
  | nil => exact Nat.le_refl 0
  | cons s ss ih =>
      rw [flat_cons, List.length_append, stored_length, List.length_cons]
      omega

/-- A byte of the area, where there is a page. -/
def byteAt (page : Nat → Option (Nat → Byte)) (a : Nat) : Option Byte :=
  (page (a / PAGE_SIZE)).map fun pg => pg (a % PAGE_SIZE)

/-- The bytes of the area from `p` on. -/
def Holds (page : Nat → Option (Nat → Byte)) (p : Nat) (bs : List Byte) : Prop :=
  ∀ i b, bs[i]? = some b → byteAt page (p + i) = some b

theorem holds_nil (page : Nat → Option (Nat → Byte)) (p : Nat) : Holds page p [] :=
  fun i b h => by cases h

theorem byteAt_writeByte_self (page : Nat → Option (Nat → Byte)) (p : Nat) (b : Byte) :
    byteAt (writeByte page (p / PAGE_SIZE) (p % PAGE_SIZE) b) p = some b := by
  simp [byteAt, writeByte]

theorem byteAt_writeByte {page : Nat → Option (Nat → Byte)} {p a : Nat} {x : Byte} (b : Byte)
    (h : byteAt page a = some x) (ha : a ≠ p) :
    byteAt (writeByte page (p / PAGE_SIZE) (p % PAGE_SIZE) b) a = some x := by
  unfold byteAt writeByte
  by_cases hpag : a / PAGE_SIZE = p / PAGE_SIZE
  · have hoff : a % PAGE_SIZE ≠ p % PAGE_SIZE := fun hoff =>
      ha (by rw [← Nat.div_add_mod a PAGE_SIZE, hpag, hoff, Nat.div_add_mod])
    rw [byteAt, hpag] at h
    obtain ⟨pg, hpg, hx⟩ := Option.map_eq_some_iff.mp h
    rw [if_pos hpag, hpg, Option.map_some]
    dsimp only
    rw [if_neg hoff]
    exact congrArg some hx
  · rw [if_neg hpag]
    exact h

theorem Holds.cons {page : Nat → Option (Nat → Byte)} {p : Nat} {bs : List Byte} (b : Byte)
    (h : Holds page (p + 1) bs) :
    Holds (writeByte page (p / PAGE_SIZE) (p % PAGE_SIZE) b) p (b :: bs) := by
  intro i x hx
  cases i with
  | zero =>
      obtain rfl := Option.some.inj hx
      exact byteAt_writeByte_self page p b
  | succ i =>
      have := h i x hx
      refine byteAt_writeByte b ?_ (by omega)
      rwa [Nat.add_assoc, Nat.add_comm 1 i] at this

/-- `offset` and `pag` belong to `p`, or the page is looked up first. -/
def Placed (c : Cursor) : Prop :=
  c.offset = 0 ∨ c.offset = (c.p % PAGE_SIZE : Nat) ∧ c.pag = c.p / PAGE_SIZE

/-- `l` has been copied in front of `bs`. -/
structure Copied (c : Cursor) (l bs : List Byte) (c' : Cursor) : Prop where
  placed : Placed c'
  p : c'.p + l.length = c.p
  holds : Holds c'.page c'.p (l ++ bs)

variable {room : Nat → Bool} {c c' : Cursor} {bs : List Byte}

theorem copyByte_copied (hc : Placed c) (h : Holds c.page c.p bs) {b : Byte}
    (hrun : copyByte room c b = .next (some c')) : Copied c [b] bs c' := by
  unfold copyByte at hrun
  split at hrun
  case isTrue => cases hrun
  case isFalse hp =>
    have hsucc : c.p - 1 + 1 = c.p := Nat.succ_pred_eq_of_ne_zero hp
    rw [← hsucc] at h
    dsimp only at hrun
    split at hrun
    case isTrue =>
      split at hrun
      case isTrue => cases hrun
      case isFalse =>
        obtain rfl := Option.some.inj (Outcome.next.inj hrun)
        exact ⟨Or.inr ⟨rfl, rfl⟩, hsucc, h.cons b⟩
    case isFalse hneg =>
      obtain rfl := Option.some.inj (Outcome.next.inj hrun)
      rcases hc with hzero | ⟨hoffset, hpag⟩
      · omega
      · have hoff : c.offset - 1 = ((c.p - 1) % PAGE_SIZE : Nat) := by
          unfold PAGE_SIZE at hoffset ⊢
          omega
        have hpag' : c.pag = (c.p - 1) / PAGE_SIZE := by
          unfold PAGE_SIZE at hoffset hpag ⊢
          omega
        refine ⟨Or.inr ⟨hoff, hpag'⟩, hsucc, ?_⟩
        dsimp only
        rw [hoff, hpag', Int.toNat_natCast]
        exact h.cons b

theorem copyBytes_copied {l : List Byte} (hc : Placed c) (h : Holds c.page c.p bs)
    (hrun : copyBytes room l c = .next (some c')) : Copied c l.reverse bs c' := by
  induction l generalizing c bs with
  | nil =>
      obtain rfl := Option.some.inj (Outcome.next.inj hrun)
      exact ⟨hc, rfl, h⟩
  | cons b l ih =>
      obtain ⟨r, hr, hrest⟩ := Outcome.bind_eq_next hrun
      cases r with
      | none => cases hrest
      | some c₁ =>
          have h₁ := copyByte_copied hc h hr
          have h₂ := ih h₁.placed h₁.holds hrest
          have hp₁ := h₁.p
          have hp₂ := h₂.p
          refine ⟨h₂.placed, ?_, ?_⟩
          · rw [List.length_reverse] at hp₂ ⊢
            rw [List.length_singleton] at hp₁
            rw [List.length_cons]
            omega
          · rw [List.reverse_cons, List.append_assoc]
            exact h₂.holds

theorem copyLoop_copied {argv : List CString} {n : Nat} (hc : Placed c)
    (h : Holds c.page c.p bs) (hrun : copyLoop room argv n c = .next (some c')) :
    Copied c (flat (argv.take n)) bs c' := by
  induction n generalizing c bs with
  | zero =>
      obtain rfl := Option.some.inj (Outcome.next.inj hrun)
      rw [List.take_zero]
      exact ⟨hc, rfl, h⟩
  | succ n ih =>
      rw [copyLoop] at hrun
      cases hs : argv[n]? with
      | none =>
          rw [hs] at hrun
          cases hrun
      | some s =>
          rw [hs] at hrun
          obtain ⟨r, hr, hrest⟩ := Outcome.bind_eq_next hrun
          cases r with
          | none => cases hrest
          | some c₁ =>
              have h₁ := copyBytes_copied hc h hr
              rw [List.reverse_reverse] at h₁
              have h₂ := ih h₁.placed h₁.holds hrest
              have htake : flat (argv.take (n + 1)) = flat (argv.take n) ++ s.stored := by
                rw [List.take_add_one, hs, flat_append]
                exact congrArg _ (List.append_nil _)
              have hp₁ := h₁.p
              have hp₂ := h₂.p
              rw [htake]
              refine ⟨h₂.placed, ?_, ?_⟩
              · rw [List.length_append]
                omega
              · rw [List.append_assoc]
                exact h₂.holds

/-- The strings so far, in front of the end of the area. -/
def Filled (a : Area) (bs : List Byte) : Prop :=
  a.p ≠ 0 → Holds a.page a.p bs ∧ a.p + bs.length = start.p

theorem copyStrings_filled {argc : Int} {argv : List CString} {a a' : Area} (h : Filled a bs)
    (hrun : copyStrings room argc argv a = .next a') :
    Filled a' (flat (argv.take argc.toNat) ++ bs) := by
  unfold copyStrings at hrun
  split at hrun
  case isTrue hp =>
    obtain rfl := Outcome.next.inj hrun
    exact fun hne => absurd hp hne
  case isFalse hp =>
    obtain ⟨r, hr, hrest⟩ := Outcome.bind_eq_next hrun
    cases r with
    | none =>
        obtain rfl := Outcome.next.inj hrest
        exact fun hne => absurd rfl hne
    | some c =>
        obtain rfl := Outcome.next.inj hrest
        obtain ⟨hholds, hlength⟩ := h hp
        have hcopied := copyLoop_copied (c := { a with offset := 0, pag := 0 }) (Or.inl rfl) hholds hr
        refine fun _ => ⟨hcopied.holds, ?_⟩
        have hp' := hcopied.p
        dsimp only at hp'
        rw [List.length_append]
        omega

theorem start_filled : Filled start [] := fun _ => ⟨holds_nil _ _, rfl⟩

/-! ### `create_tables` -/

variable {mem mem' : Mem} {a n p p' table table' v : Nat} {ss : List CString}

theorem putLong_of_lt {x : Nat} (h : x < a ∨ a + 4 ≤ x) : putLong mem a v x = mem x :=
  if_neg (by omega)

theorem longAt_putLong (hv : v < 2 ^ 32) : longAt (putLong mem a v) a = v := by
  have hbyte : ∀ k, k < 4 → (putLong mem a v (a + k)).toNat = v / 256 ^ k % 256 := fun k hk => by
    rw [putLong, if_pos (by omega), Nat.add_sub_cancel_left, BitVec.toNat_ofNat]
  have h0 : (putLong mem a v a).toNat = v / 256 ^ 0 % 256 := hbyte 0 (by omega)
  have h1 := hbyte 1 (by omega)
  have h2 := hbyte 2 (by omega)
  have h3 := hbyte 3 (by omega)
  rw [longAt, h0, h1, h2, h3]
  omega

theorem longAt_congr (h : ∀ x, a ≤ x → x < a + 4 → mem' x = mem x) :
    longAt mem' a = longAt mem a := by
  unfold longAt
  rw [h a (by omega) (by omega), h (a + 1) (by omega) (by omega), h (a + 2) (by omega) (by omega),
    h (a + 3) (by omega) (by omega)]

theorem longAt_putLong_of_ne {b : Nat} (h : a + 4 ≤ b ∨ b + 4 ≤ a) :
    longAt (putLong mem b v) a = longAt mem a :=
  longAt_congr fun x _ _ => putLong_of_lt (by omega)

theorem BytesAt.congr {l : List Byte} (h : BytesAt mem a l)
    (hmem : ∀ x, a ≤ x → x < a + l.length → mem' x = mem x) : BytesAt mem' a l := by
  intro i b hb
  have hi : i < l.length := (List.getElem?_eq_some_iff.mp hb).1
  rw [hmem (a + i) (by omega) (by omega), h i b hb]

theorem BytesAt.left {l l' : List Byte} (h : BytesAt mem a (l ++ l')) : BytesAt mem a l := by
  intro i b hb
  have hi : i < l.length := (List.getElem?_eq_some_iff.mp hb).1
  exact h i b (by rw [List.getElem?_append_left hi, hb])

theorem BytesAt.right {l l' : List Byte} (h : BytesAt mem a (l ++ l')) :
    BytesAt mem (a + l.length) l' := by
  intro i b hb
  rw [Nat.add_assoc]
  refine h (l.length + i) b ?_
  rw [List.getElem?_append_right (Nat.le_add_right _ _), Nat.add_sub_cancel_left, hb]

/-- The scan stops behind the NUL of the string. -/
theorem skipString_eq {l : List Byte} (hl : ∀ b ∈ l, b ≠ 0) (h : BytesAt mem p (l ++ [0]))
    (hn : l.length < n) : skipString mem n p = .next (p + l.length + 1) := by
  induction l generalizing n p with
  | nil =>
      obtain ⟨n, rfl⟩ : ∃ m, n = m + 1 := ⟨n - 1, by omega⟩
      have hzero : mem p = 0 := h 0 0 rfl
      rw [skipString, if_pos hzero]
      rfl
  | cons b l ih =>
      obtain ⟨n, rfl⟩ : ∃ m, n = m + 1 := ⟨n - 1, by omega⟩
      have hb : mem p = b := h 0 b rfl
      rw [List.length_cons] at hn
      have hrest : BytesAt mem (p + 1) (l ++ [0]) := BytesAt.right (l := [b]) h
      rw [skipString, if_neg (by rw [hb]; exact hl b List.mem_cons_self),
        ih (fun b' hb' => hl b' (List.mem_cons_of_mem b hb')) hrest (by omega), List.length_cons]
      exact congrArg Outcome.next (by omega)

/-- The table is written, and nothing else. -/
theorem fillTable_frame (hrun : fillTable n mem p table = .next (mem', p', table')) :
    table' = table + 4 * n ∧ ∀ x, x < table ∨ table + 4 * n ≤ x → mem' x = mem x := by
  induction n generalizing mem p table with
  | zero =>
      cases Outcome.next.inj hrun
      exact ⟨rfl, fun x _ => rfl⟩
  | succ n ih =>
      obtain ⟨q, hq, hrest⟩ := Outcome.bind_eq_next hrun
      obtain ⟨htable, hmem⟩ := ih hrest
      refine ⟨by omega, fun x hx => ?_⟩
      rw [hmem x (by omega), putLong_of_lt (by omega)]

/-- A pointer to each of the strings at `p`. -/
theorem fillTable_eq (h : BytesAt mem p (flat ss)) (htable : table + 4 * ss.length ≤ p)
    (hlimit : p + (flat ss).length ≤ DATA_LIMIT) :
    ∃ mem', fillTable ss.length mem p table =
        .next (mem', p + (flat ss).length, table + 4 * ss.length) ∧
      ∀ i s, ss[i]? = some s → p ≤ longAt mem' (table + 4 * i) ∧
        BytesAt mem (longAt mem' (table + 4 * i)) s.stored := by
  induction ss generalizing mem p table with
  | nil => exact ⟨mem, rfl, fun i s hs => by cases hs⟩
  | cons s ss ih =>
      rw [flat_cons] at h hlimit ⊢
      rw [List.length_append] at hlimit
      have hlen := stored_length s
      rw [List.length_cons] at htable
      set mem₁ := putLong mem table p with hmem₁
      have hkeep : ∀ x, p ≤ x → mem₁ x = mem x := fun x hx => putLong_of_lt (by omega)
      have hflat : BytesAt mem₁ p (s.stored ++ flat ss) := h.congr fun x hx _ => hkeep x hx
      have hskip : skipString mem₁ (DATA_LIMIT - p) p = .next (p + s.stored.length) := by
        rw [skipString_eq s.nonzero hflat.left (by omega), hlen]
        rfl
      obtain ⟨mem', hrun, hstrings⟩ := ih hflat.right
        (show table + 4 + 4 * ss.length ≤ p + s.stored.length by omega) (by omega)
      refine ⟨mem', ?_, fun i s' hs' => ?_⟩
      · rw [List.length_cons, fillTable]
        change (skipString mem₁ (DATA_LIMIT - p) p).bind _ = _
        rw [hskip, Outcome.bind_next, hrun, List.length_append]
        refine congrArg Outcome.next (Prod.ext rfl (Prod.ext ?_ ?_)) <;> dsimp only <;> omega
      · cases i with
        | zero =>
            obtain rfl := Option.some.inj hs'
            have hlong : longAt mem' (table + 4 * 0) = p := by
              obtain ⟨-, hframe⟩ := fillTable_frame hrun
              rw [Nat.mul_zero, Nat.add_zero,
                longAt_congr fun x _ hx => hframe x (by omega), hmem₁]
              unfold DATA_LIMIT at hlimit
              exact longAt_putLong (by omega)
            rw [hlong]
            exact ⟨Nat.le_refl p, h.left⟩
        | succ i =>
            obtain ⟨hle, hbytes⟩ := hstrings i s' hs'
            have hindex : table + 4 * (i + 1) = table + 4 + 4 * i := by omega
            rw [hindex]
            refine ⟨by omega, fun j b hb => ?_⟩
            rw [← hbytes j b hb]
            exact (hkeep _ (by omega)).symm

/-- The stack pointer that `create_tables` returns. -/
def stackTop (p argc envc : Nat) : Nat := p / 4 * 4 - 4 * (envc + 1) - 4 * (argc + 1) - 12

/-- `argc` is on the stack, and so are the pointers to the two tables. -/
theorem createTables_frame {argc envc sp : Nat} (hp : 4 * argc + 4 * envc + 24 ≤ p)
    (hlimit : p < DATA_LIMIT) (hrun : createTables mem p argc envc = .next (mem', sp)) :
    sp = stackTop p argc envc ∧ longAt mem' sp = argc ∧ longAt mem' (sp + 4) = sp + 12 ∧
      longAt mem' (sp + 8) = sp + 12 + 4 * (argc + 1) := by
  unfold createTables at hrun
  dsimp only at hrun
  set envp := p / 4 * 4 - 4 * (envc + 1) with henvp
  set argv := envp - 4 * (argc + 1) with hargv
  obtain ⟨⟨mem₁, p₁, table₁⟩, hrun₁, hrest⟩ := Outcome.bind_eq_next hrun
  obtain ⟨⟨mem₂, p₂, table₂⟩, hrun₂, hlast⟩ := Outcome.bind_eq_next hrest
  obtain ⟨htable₁, hframe₁⟩ := fillTable_frame hrun₁
  obtain ⟨htable₂, hframe₂⟩ := fillTable_frame hrun₂
  obtain ⟨rfl, rfl⟩ := Prod.mk.inj (Outcome.next.inj hlast)
  dsimp only at htable₁ hframe₁ htable₂ hframe₂ ⊢
  unfold DATA_LIMIT at hlimit
  have hargv12 : argv - 12 + 12 = argv := by omega
  have henv : argv + 4 * (argc + 1) = envp := by omega
  -- below the tables there are the three words
  have hkeep : ∀ x, x < argv → putLong mem₂ table₂ 0 x =
      putLong (putLong (putLong mem (argv - 12 + 8) envp) (argv - 12 + 4) argv) (argv - 12) argc x :=
    fun x hx => by
      rw [putLong_of_lt (by omega), hframe₂ x (by omega), putLong_of_lt (by omega),
        hframe₁ x (by omega)]
  refine ⟨rfl, ?_, ?_, ?_⟩
  · rw [longAt_congr fun x _ hx => hkeep x (by omega), longAt_putLong (by omega)]
  · rw [longAt_congr fun x _ hx => hkeep x (by omega), longAt_putLong_of_ne (by omega),
      longAt_putLong (by omega), hargv12]
  · rw [longAt_congr fun x _ hx => hkeep x (by omega), longAt_putLong_of_ne (by omega),
      longAt_putLong_of_ne (by omega), longAt_putLong (by omega), hargv12, henv]

/-- **The tables.** What is below the stack does not matter. -/
theorem createTables_names {args envs : List CString} (h : BytesAt mem p (flat (args ++ envs)))
    (hp : 4 * args.length + 4 * envs.length + 24 ≤ p)
    (hlimit : p + (flat (args ++ envs)).length < DATA_LIMIT) :
    ∃ mem', createTables mem p args.length envs.length =
        .next (mem', stackTop p args.length envs.length) ∧
      ∀ mem'', (∀ x, stackTop p args.length envs.length ≤ x → mem'' x = mem' x) →
        Names mem'' (stackTop p args.length envs.length) args envs := by
  rw [flat_append] at h hlimit
  rw [List.length_append] at hlimit
  set sp := stackTop p args.length envs.length with hsp
  set argv := p / 4 * 4 - 4 * (envs.length + 1) - 4 * (args.length + 1) with hargv
  set envp := p / 4 * 4 - 4 * (envs.length + 1) with henvp
  set mem₀ := putLong (putLong (putLong mem (sp + 8) envp) (sp + 4) argv) sp args.length with hmem₀
  have hspargv : sp + 12 = argv := by
    rw [hsp, stackTop]
    omega
  have henv : argv + 4 * (args.length + 1) = envp := by omega
  have henvp4 : envp + 4 * (envs.length + 1) ≤ p := by omega
  have hkeep₀ : ∀ x, p ≤ x → mem₀ x = mem x := fun x hx => by
    rw [hmem₀, putLong_of_lt (by omega), putLong_of_lt (by omega), putLong_of_lt (by omega)]
  have h₀ : BytesAt mem₀ p (flat args ++ flat envs) := h.congr fun x hx _ => hkeep₀ x hx
  obtain ⟨mem₁, hrun₁, hstrings₁⟩ := fillTable_eq h₀.left
    (show argv + 4 * args.length ≤ p by omega) (by omega)
  obtain ⟨-, hframe₁⟩ := fillTable_frame hrun₁
  set mem₁' := putLong mem₁ (argv + 4 * args.length) 0 with hmem₁'
  have hkeep₁ : ∀ x, p ≤ x → mem₁' x = mem₀ x := fun x hx => by
    rw [hmem₁', putLong_of_lt (by omega), hframe₁ x (by omega)]
  obtain ⟨mem₂, hrun₂, hstrings₂⟩ := fillTable_eq
    (h₀.right.congr fun x hx _ => hkeep₁ x (by omega))
    (show envp + 4 * envs.length ≤ p + (flat args).length by omega) (by omega)
  obtain ⟨-, hframe₂⟩ := fillTable_frame hrun₂
  set mem₂' := putLong mem₂ (envp + 4 * envs.length) 0 with hmem₂'
  have hkeep₂ : ∀ x, x < envp ∨ p ≤ x → mem₂' x = mem₁' x := fun x hx => by
    rw [hmem₂', putLong_of_lt (by omega), hframe₂ x (by omega)]
  have hrun : createTables mem p args.length envs.length = .next (mem₂', sp) := by
    unfold createTables
    change (fillTable args.length mem₀ p argv).bind _ = _
    rw [hrun₁, Outcome.bind_next]
    change (fillTable envs.length mem₁' (p + (flat args).length) envp).bind _ = _
    rw [hrun₂, Outcome.bind_next]
    rfl
  obtain ⟨-, hargc, hargv', henvp'⟩ := createTables_frame hp (by omega) hrun
  refine ⟨mem₂', hrun, fun mem'' hmem'' => ?_⟩
  have hlong : ∀ b, sp ≤ b → longAt mem'' b = longAt mem₂' b := fun b hb =>
    longAt_congr fun x hx _ => hmem'' x (by omega)
  refine ⟨by rw [hlong sp (Nat.le_refl sp), hargc], ?_, ?_⟩
  · rw [hlong _ (by omega), hargv', hspargv]
    refine ⟨fun i s hs => ?_, ?_⟩
    · have hi : i < args.length := (List.getElem?_eq_some_iff.mp hs).1
      have hptr : longAt mem₂' (argv + 4 * i) = longAt mem₁ (argv + 4 * i) :=
        longAt_congr fun x _ hx => by
          rw [hkeep₂ x (by omega), hmem₁', putLong_of_lt (by omega)]
      obtain ⟨hle, hbytes⟩ := hstrings₁ i s hs
      rw [hlong _ (by omega), hptr]
      exact hbytes.congr fun x hx _ => by
        rw [hmem'' x (by omega), hkeep₂ x (by omega), hkeep₁ x (by omega)]
    · rw [hlong _ (by omega), longAt_congr fun x _ hx => hkeep₂ x (by omega), hmem₁',
        longAt_putLong (by omega)]
  · rw [hlong _ (by omega), henvp', hspargv, henv]
    refine ⟨fun i s hs => ?_, ?_⟩
    · have hi : i < envs.length := (List.getElem?_eq_some_iff.mp hs).1
      have hptr : longAt mem₂' (envp + 4 * i) = longAt mem₂ (envp + 4 * i) :=
        longAt_congr fun x _ hx => by rw [hmem₂', putLong_of_lt (by omega)]
      obtain ⟨hle, hbytes⟩ := hstrings₂ i s hs
      rw [hlong _ (by omega), hptr]
      exact hbytes.congr fun x hx _ => by rw [hmem'' x (by omega), hkeep₂ x (by omega)]
    · rw [hlong _ (by omega), hmem₂', longAt_putLong (by omega)]

/-! ### `do_execve` -/

theorem clearBytes_eq (hrun : clearBytes n mem a = .next mem') (x : Nat) :
    mem' x = if a ≤ x ∧ x < a + n then 0 else mem x := by
  induction n generalizing mem a with
  | zero =>
      obtain rfl := Outcome.next.inj hrun
      rw [if_neg (by omega)]
  | succ n ih =>
      rw [clearBytes] at hrun
      split at hrun
      case isFalse => cases hrun
      case isTrue =>
        rw [ih hrun]
        by_cases hx : x = a
        · rw [if_neg (by omega), if_pos hx, if_pos (by omega)]
        · rw [if_neg hx]
          exact if_congr (by omega) rfl rfl

theorem changeLdt_bytes {page : Nat → Option (Nat → Byte)} (h : Holds page p bs)
    (hlimit : p + bs.length ≤ MAX_ARG_PAGES * PAGE_SIZE) (image : Mem) :
    BytesAt (changeLdt page image) (p + PAGES) bs := by
  intro i b hb
  have hi : i < bs.length := (List.getElem?_eq_some_iff.mp hb).1
  obtain ⟨pg, hpg, hx⟩ := Option.map_eq_some_iff.mp (h i b hb)
  have hsize : PAGES + MAX_ARG_PAGES * PAGE_SIZE = DATA_LIMIT := rfl
  have hindex : p + PAGES + i - PAGES = p + i := by omega
  unfold changeLdt
  rw [if_pos (by omega), hindex, hpg]
  exact hx

/-- The page rest behind text and data, which is cleared, ends below the new stack. -/
def Apart (ex : Header) (args envs : List CString) : Prop :=
  let i := (ex.text + ex.data).toNat
  i + (PAGE_SIZE - i % PAGE_SIZE) % PAGE_SIZE ≤
    stackTop (DATA_LIMIT - 4 - (flat (args ++ envs)).length) args.length envs.length

theorem finish_apart {image : Mem} {ex : Header} {ar : Area} {argc envc : Nat} {r : Loaded}
    {args envs : List CString} (h : Filled ar (flat (args ++ envs))) (hp : ar.p ≠ 0)
    (henvc : envc = envs.length) (hargc : argc ≤ args.length)
    (hrun : finish image ex ar argc envc = .next (.ok r)) :
    (argc = args.length → Apart ex args envs → Names r.mem r.sp args envs) ∧
      (Names r.mem r.sp args envs → argc = args.length) := by
  obtain ⟨hholds, hlength⟩ := h hp
  subst henvc
  have hstart : start.p = 131068 := rfl
  have hsize : MAX_ARG_PAGES * PAGE_SIZE = 131072 := rfl
  have hpages : PAGES = 66977792 := rfl
  have hdata : DATA_LIMIT = 67108864 := rfl
  have hle := length_le_flat (args ++ envs)
  rw [List.length_append] at hle
  have hbytes := changeLdt_bytes hholds (by omega) image
  obtain ⟨⟨mem₁, sp⟩, hrun₁, hrest⟩ := Outcome.bind_eq_next hrun
  obtain ⟨mem₂, hclear, hlast⟩ := Outcome.bind_eq_next hrest
  obtain rfl : (⟨mem₂, sp, ex.entry⟩ : Loaded) = r := Except.ok.inj (Outcome.next.inj hlast)
  have hmem := clearBytes_eq hclear
  set i := (ex.text + ex.data).toNat with hi
  set n := (PAGE_SIZE - i % PAGE_SIZE) % PAGE_SIZE with hn
  obtain ⟨hsp, hlong, -, -⟩ := createTables_frame (by omega) (by omega) hrun₁
  dsimp only
  refine ⟨fun hfull hapart => ?_, fun hnames => ?_⟩
  · subst hfull
    obtain ⟨mem', hrun', hnames⟩ := createTables_names hbytes (by omega) (by omega)
    obtain ⟨rfl, -⟩ := Prod.mk.inj (Outcome.next.inj (hrun'.symm.trans hrun₁))
    have hpeq : DATA_LIMIT - 4 - (flat (args ++ envs)).length = ar.p + PAGES := by omega
    have hend : i + n ≤ sp := by
      have : i + n ≤ stackTop (DATA_LIMIT - 4 - (flat (args ++ envs)).length) args.length
        envs.length := hapart
      rw [hpeq] at this
      rw [hsp]
      exact this
    rw [hsp]
    refine hnames mem₂ fun x hx => ?_
    rw [hmem, if_neg (by omega)]
  · have hbyte : ∀ x, (mem₂ x).toNat ≤ (mem₁ x).toNat := fun x => by
      rw [hmem]
      split
      · exact Nat.zero_le _
      · exact Nat.le_refl _
    have hle₂ : longAt mem₂ sp ≤ longAt mem₁ sp := by
      have h0 := hbyte sp
      have h1 := hbyte (sp + 1)
      have h2 := hbyte (sp + 2)
      have h3 := hbyte (sp + 3)
      unfold longAt
      omega
    have := hnames.argc
    omega

/-- The first block of the file. -/
def firstBlock (namei : CString → Option Inode) (filename : CString) : Option (Nat → Byte) :=
  (namei filename).bind Inode.block

/-- The header of the program that is executed for the file. -/
def programHeader (namei : CString → Option Inode) (filename : CString) : Option Header :=
  (firstBlock namei filename).bind fun data =>
    if isScript data then
      (parseScript data).bind fun i => (firstBlock namei i.interp).map readExec
    else some (readExec data)

theorem readBlock_block {cur : Cred} {inode : Inode} {data : Nat → Byte}
    (h : readBlock cur inode = .ok data) : inode.block = some data := by
  unfold readBlock at h
  split at h
  · cases h
  · split at h
    · cases h
    · cases hb : inode.block with
      | none =>
          rw [hb] at h
          cases h
      | some d =>
          rw [hb] at h
          exact congrArg some (Except.ok.inj h)

/-- The five calls for a script leave all its strings. -/
theorem scriptStrings_filled {i : Interp} {filename : CString} {argv envp : List CString} {ar : Area}
    (hrun : scriptStrings room i filename argv envp = .next ar) :
    Filled ar (flat (i.name :: i.arg.toList ++ filename :: argv.drop 1 ++ envp)) := by
  obtain ⟨a₁, h₁, hrest⟩ := Outcome.bind_eq_next hrun
  obtain ⟨a₂, h₂, hrest⟩ := Outcome.bind_eq_next hrest
  obtain ⟨a₃, h₃, hrest⟩ := Outcome.bind_eq_next hrest
  obtain ⟨a₄, h₄, h₅⟩ := Outcome.bind_eq_next hrest
  have f₁ := copyStrings_filled start_filled h₁
  rw [Int.toNat_natCast, List.take_length, List.append_nil] at f₁
  have f₂ := copyStrings_filled f₁ h₂
  have hdrop : (argv.drop 1).take ((argv.length : Int) - 1).toNat = argv.drop 1 := by
    refine List.take_of_length_le ?_
    rw [List.length_drop]
    omega
  rw [hdrop, ← flat_append] at f₂
  have f₃ := copyStrings_filled f₂ h₃
  have hone : ∀ s : CString, [s].take (1 : Int).toNat = [s] := fun s => rfl
  rw [hone, ← flat_append] at f₃
  have f₄ : Filled a₄ (flat (i.arg.toList ++ filename :: (argv.drop 1 ++ envp))) := by
    cases harg : i.arg with
    | none =>
        rw [harg] at h₄
        obtain rfl := Outcome.next.inj h₄
        exact f₃
    | some iArg =>
        rw [harg] at h₄
        have := copyStrings_filled f₃ h₄
        rwa [hone, ← flat_append] at this
  have f₅ := copyStrings_filled f₄ h₅
  rw [hone, ← flat_append] at f₅
  have hlist : i.name :: i.arg.toList ++ filename :: argv.drop 1 ++ envp =
      [i.name] ++ (i.arg.toList ++ filename :: (argv.drop 1 ++ envp)) := by
    simp
  rw [hlist]
  exact f₅

/-- A script without arguments has one string more than `argc` says. -/
theorem arguments_script {data : Nat → Byte} {i : Interp} (hscript : isScript data = true)
    (hparse : parseScript data = some i) (filename : CString) (argv : List CString) :
    arguments data filename argv = i.name :: i.arg.toList ++ filename :: argv.drop 1 ∧
      (scriptArgc i argv).toNat + (1 - argv.length) =
        (arguments data filename argv).length := by
  obtain ⟨hname, harg⟩ := parseScript_words hparse
  have hargs : arguments data filename argv =
      i.name :: i.arg.toList ++ filename :: argv.drop 1 := by
    rw [arguments, if_pos hscript, hname, harg]
  refine ⟨hargs, ?_⟩
  rw [hargs]
  unfold scriptArgc
  have hopt : i.arg.toList.length = if i.arg.isSome then 1 else 0 := by
    cases i.arg <;> rfl
  rw [List.length_append, List.length_cons, List.length_cons, List.length_drop, hopt]
  split <;> omega

/-- A successful `do_execve` of a file: the stack names the arguments, if the file is no script
without arguments and the program clears nothing of the stack; and it does not, if it is
such a script. -/
theorem names_of_execve {cur : Cred} {namei : CString → Option Inode} {image : Mem}
    {filename : CString} {argv envp : List CString} {r : Loaded}
    (hrun : doExecve cur namei room image filename argv envp = .next (.ok r)) :
    ∃ data ex, firstBlock namei filename = some data ∧ programHeader namei filename = some ex ∧
      ((isScript data = true → argv ≠ []) → Apart ex (arguments data filename argv) envp →
        Names r.mem r.sp (arguments data filename argv) envp) ∧
      (Names r.mem r.sp (arguments data filename argv) envp → isScript data = true → argv ≠ []) := by
  unfold doExecve at hrun
  cases hnamei : namei filename with
  | none =>
      rw [hnamei] at hrun
      cases hrun
  | some inode =>
      rw [hnamei] at hrun
      dsimp only at hrun
      cases hblock : readBlock cur inode with
      | error e =>
          rw [hblock] at hrun
          cases hrun
      | ok data =>
          rw [hblock] at hrun
          dsimp only at hrun
          have hfirst : firstBlock namei filename = some data := by
            rw [firstBlock, hnamei]
            exact readBlock_block hblock
          cases hscript : isScript data with
          | true =>
              rw [hscript, if_pos rfl] at hrun
              cases hparse : parseScript data with
              | none =>
                  rw [hparse] at hrun
                  cases hrun
              | some i =>
                  rw [hparse] at hrun
                  obtain ⟨ar, har, hrest⟩ := Outcome.bind_eq_next hrun
                  split at hrest
                  case isTrue => cases hrest
                  case isFalse hp =>
                    split at hrest
                    case h_1 => cases hrest
                    case h_2 inode' hnamei' =>
                      split at hrest
                      case h_1 => cases hrest
                      case h_2 data' hblock' =>
                        split at hrest
                        case h_1 => cases hrest
                        case h_2 =>
                          obtain ⟨hargs, hlength⟩ := arguments_script hscript hparse filename argv
                          have hfilled := scriptStrings_filled har
                          rw [← hargs] at hfilled
                          obtain ⟨hnames, hargc⟩ := finish_apart hfilled hp rfl (by omega) hrest
                          refine ⟨data, readExec data', hfirst, ?_, fun hne => hnames ?_,
                            fun h _ => ?_⟩
                          · rw [programHeader, hfirst, Option.bind_some, hscript, if_pos rfl, hparse,
                              Option.bind_some, firstBlock, hnamei', Option.bind_some,
                              readBlock_block hblock']
                            rfl
                          · have := List.length_pos_iff.mpr (hne hscript)
                            omega
                          · have := hargc h
                            rw [← List.length_pos_iff]
                            omega
          | false =>
              rw [hscript] at hrun
              simp only [Bool.false_eq_true, if_false] at hrun
              split at hrun
              case h_1 => cases hrun
              case h_2 hcheck =>
                obtain ⟨a₁, h₁, hrest⟩ := Outcome.bind_eq_next hrun
                obtain ⟨a₂, h₂, hrest⟩ := Outcome.bind_eq_next hrest
                have f₁ := copyStrings_filled start_filled h₁
                rw [Int.toNat_natCast, List.take_length, List.append_nil] at f₁
                have f₂ := copyStrings_filled f₁ h₂
                rw [Int.toNat_natCast, List.take_length, ← flat_append] at f₂
                split at hrest
                case isTrue => cases hrest
                case isFalse hp =>
                  obtain ⟨hnames, -⟩ := finish_apart f₂ hp rfl (Nat.le_refl _) hrest
                  have hargs : arguments data filename argv = argv := by
                    rw [arguments, hscript]
                    rfl
                  refine ⟨data, readExec data, hfirst, ?_, ?_⟩
                  · rw [programHeader, hfirst, Option.bind_some, hscript]
                    rfl
                  · rw [hargs]
                    refine ⟨fun _ => hnames rfl, fun _ h => ?_⟩
                    rw [hscript] at h
                    cases h

/-- The string of these characters. -/
def ascii (l : List Nat) : CString := CString.of (l.map fun c => BitVec.ofNat 8 c)

def blockOf (l : List Nat) : Nat → Byte := fun i => BitVec.ofNat 8 (l.getD i 0)

/-- An interpreter `/sh`, and `#!/sh -x` in every other file. -/
def twoFiles (c : CString) : Option Inode :=
  some {
    mode := 0o100755, uid := 0, gid := 0, size := 5000
    block := some (if c.bytes = (ascii [0x2f, 0x73, 0x68]).bytes then blockOf [0x0b, 1]
      else blockOf [0x23, 0x21, 0x2f, 0x73, 0x68, 0x20, 0x2d, 0x78, 0x0a]) }

def scriptFile : CString := ascii [0x66]

def oneEnv : List CString := [ascii [0x45, 0x3d]]

/-- `f` with one string in the environment. -/
def scriptCall (argv : List CString) : Outcome (Except Int Loaded) :=
  doExecve ⟨0, 0⟩ twoFiles (fun _ => true) (fun _ => 0) scriptFile argv oneEnv

def loadedOf : Outcome (Except Int Loaded) → Option Loaded
  | .next (.ok r) => some r
  | _ => none

theorem eq_loaded {o : Outcome (Except Int Loaded)} (h : (loadedOf o).isSome = true) :
    o = .next (.ok ((loadedOf o).get h)) := by
  cases o with
  | next e =>
      cases e with
      | error e => cases h
      | ok r => rfl
  | panic m => cases h
  | disabled => cases h

def twoArgs : List CString := [ascii [0x66], ascii [0x61]]

theorem names_of_execve_script : ∃ r data ex,
    scriptCall twoArgs = .next (.ok r) ∧ longAt r.mem r.sp = 4 ∧
      firstBlock twoFiles scriptFile = some data ∧ programHeader twoFiles scriptFile = some ex ∧
      ((isScript data = true → twoArgs ≠ []) → Apart ex (arguments data scriptFile twoArgs) oneEnv →
        Names r.mem r.sp (arguments data scriptFile twoArgs) oneEnv) ∧
      (Names r.mem r.sp (arguments data scriptFile twoArgs) oneEnv →
        isScript data = true → twoArgs ≠ []) := by
  have hsome : (loadedOf (scriptCall twoArgs)).isSome = true := by decide +kernel
  have hfour : longAt ((loadedOf (scriptCall twoArgs)).get hsome).mem
      ((loadedOf (scriptCall twoArgs)).get hsome).sp = 4 := by decide +kernel +revert
  have hrun := eq_loaded hsome
  obtain ⟨data, ex, h⟩ := names_of_execve hrun
  exact ⟨_, data, ex, hrun, hfour, h⟩

/-- Without arguments `argc` is two, and the script is the first string of the environment. -/
theorem not_names : ¬ ∀ (cur : Cred) (namei : CString → Option Inode) (room : Nat → Bool)
    (image : Mem) (filename : CString) (argv envp : List CString) (r : Loaded)
    (data : Nat → Byte), doExecve cur namei room image filename argv envp = .next (.ok r) →
      firstBlock namei filename = some data →
        Names r.mem r.sp (arguments data filename argv) envp := by
  intro h
  have hsome : (loadedOf (scriptCall [])).isSome = true := by decide +kernel
  have htwo : longAt ((loadedOf (scriptCall [])).get hsome).mem
      ((loadedOf (scriptCall [])).get hsome).sp = 2 := by decide +kernel +revert
  have hrun := eq_loaded hsome
  have hfirst : firstBlock twoFiles scriptFile =
      some ((firstBlock twoFiles scriptFile).getD fun _ => 0) := rfl
  have hargc := (h _ _ _ _ _ _ _ _ _ hrun hfirst).argc
  have hthree : (arguments ((firstBlock twoFiles scriptFile).getD fun _ => 0) scriptFile
      []).length = 3 := by decide +kernel
  omega

end LinuxKernel.V011.Fs.Exec
