import LinuxKernel.V011.Fs.ExecStack

/-!
# LinuxKernel.V011.Fs.ExecStrings

**What `copy_strings` does to the area of the arguments.**

It goes down from `p`, and takes a page where it has none. Nothing stops it at the beginning of
the area: strings that do not fit are copied on below `page[0]`, unless `get_free_page` finds no
page before.
-/

namespace LinuxKernel.V011.Fs.Exec

variable {room : Nat → Bool} {a a' : Area} {c c' c'' : Cursor} {l : List Byte} {b : Byte}

/-! ### What is written -/

/-- Only pages that were there, or that `get_free_page` has given, are written, and only
between the two positions. -/
structure Writes (room : Nat → Bool) (a a' : Area) : Prop where
  page : ∀ i, a'.page i ≠ a.page i → PAGE_SIZE * i < a.p ∧ ((a.page i).isSome ∨ room i = true)
  bytes : ∀ x v, x < a'.p ∨ a.p ≤ x → byteAt a.page x = some v → byteAt a'.page x = some v

theorem Writes.refl (room : Nat → Bool) (a : Area) : Writes room a a :=
  ⟨fun _ h => absurd rfl h, fun _ _ _ h => h⟩

theorem Writes.trans {a'' : Area} (h : Writes room a a') (h' : Writes room a' a'')
    (hp : a'.p ≤ a.p) (hp' : a''.p ≤ a'.p) : Writes room a a'' := by
  refine ⟨fun i hne => ?_, fun x v hx hv => ?_⟩
  · by_cases hsame : a'.page i = a.page i
    · have hlast := h'.page i fun he => hne (he.trans hsame)
      rw [hsame] at hlast
      exact ⟨Nat.lt_of_lt_of_le hlast.1 hp, hlast.2⟩
    · exact h.page i hsame
  · exact h'.bytes x v (by omega) (h.bytes x v (by omega) hv)

/-! ### One byte -/

/-- The cursor is at a page that is there, or looks for one. -/
def Tracked (c : Cursor) : Prop := Placed c ∧ (c.offset ≠ 0 → (c.page c.pag).isSome)

/-- There is no page for a part of the area below `p`. -/
def Lacks (room : Nat → Bool) (a : Area) : Prop :=
  ∃ i, PAGE_SIZE * i < a.p ∧ a.page i = none ∧ room i = false

/-- One byte is copied. -/
structure Moved (room : Nat → Bool) (c c' : Cursor) : Prop where
  tracked : Tracked c'
  p : c'.p + 1 = c.p
  lacks : Lacks room c'.toArea ↔ Lacks room c.toArea
  writes : Writes room c.toArea c'.toArea

/-- A byte in a page that is there or can be had. -/
theorem writeByte_moved {q : Nat} (hq : q + 1 = c.p)
    (hroom : (c.page (q / PAGE_SIZE)).isSome ∨ room (q / PAGE_SIZE) = true) :
    Moved room c ⟨⟨writeByte c.page (q / PAGE_SIZE) (q % PAGE_SIZE) b, q⟩,
      (q % PAGE_SIZE : Nat), q / PAGE_SIZE⟩ := by
  have hself : (writeByte c.page (q / PAGE_SIZE) (q % PAGE_SIZE) b (q / PAGE_SIZE)).isSome := by
    rw [writeByte, if_pos rfl]
    rfl
  have hother : ∀ i, i ≠ q / PAGE_SIZE →
      writeByte c.page (q / PAGE_SIZE) (q % PAGE_SIZE) b i = c.page i := fun i hi => if_neg hi
  have hdiv : PAGE_SIZE * (q / PAGE_SIZE) ≤ q := Nat.mul_div_le q PAGE_SIZE
  refine ⟨⟨Or.inr ⟨rfl, rfl⟩, fun _ => hself⟩, hq, ⟨?_, ?_⟩, ⟨fun i hne => ?_, fun x v hx hv => ?_⟩⟩
  · rintro ⟨i, hi, hnone, hno⟩
    have hne : i ≠ q / PAGE_SIZE := by
      rintro rfl
      exact Option.some_ne_none _ ((Option.some_get hself).trans hnone)
    have hlt : PAGE_SIZE * i < q := hi
    exact ⟨i, by omega, (hother i hne).symm.trans hnone, hno⟩
  · rintro ⟨i, hi, hnone, hno⟩
    have hne : i ≠ q / PAGE_SIZE := by
      rintro rfl
      rw [hnone, hno] at hroom
      exact hroom.elim Bool.false_ne_true Bool.false_ne_true
    have hlt : PAGE_SIZE * i < q := by
      rcases Nat.lt_or_ge (PAGE_SIZE * i) q with h | h
      · exact h
      · refine absurd (Nat.eq_div_of_mul_eq_right (by decide) ?_) hne
        omega
    exact ⟨i, hlt, (hother i hne).trans hnone, hno⟩
  · by_cases hi : i = q / PAGE_SIZE
    · subst hi
      exact ⟨by omega, hroom⟩
    · exact absurd (hother i hi) hne
  · have hxq : x ≠ q := by
      have hx' : x < q ∨ c.p ≤ x := hx
      omega
    exact byteAt_writeByte b hv hxq

/-- `copyByte` in the area. -/
theorem copyByte_ends (hc : Tracked c) (b : Byte) (hp : c.p ≠ 0) :
    copyByte room c b = .next none ∧ Lacks room c.toArea ∨
      ∃ c', copyByte room c b = .next (some c') ∧ Moved room c c' := by
  obtain ⟨q, hq⟩ := Nat.exists_eq_succ_of_ne_zero hp
  have hpred : c.p - 1 = q := by omega
  rw [copyByte, if_neg hp]
  simp only [hpred]
  split
  · next hfirst =>
    split
    · next hno =>
      rw [Bool.and_eq_true, Option.isNone_iff_eq_none, Bool.not_eq_true'] at hno
      refine Or.inl ⟨rfl, q / PAGE_SIZE, ?_, hno.1, hno.2⟩
      have := Nat.mul_div_le q PAGE_SIZE
      change _ < c.p
      omega
    · next hyes =>
      refine Or.inr ⟨_, rfl, writeByte_moved hq.symm ?_⟩
      by_contra hno
      rw [not_or, Option.not_isSome_iff_eq_none, Bool.not_eq_true] at hno
      rw [hno.1, hno.2] at hyes
      exact hyes rfl
  · next hfirst =>
    obtain ⟨hplaced, hthere⟩ := hc
    rcases hplaced with hzero | ⟨hoffset, hpag⟩
    · omega
    have hoff : c.offset - 1 = (q % PAGE_SIZE : Nat) := by
      unfold PAGE_SIZE at hoffset ⊢
      omega
    have hpag' : c.pag = q / PAGE_SIZE := by
      unfold PAGE_SIZE at hoffset hpag ⊢
      omega
    have hsome := hthere (by omega)
    rw [hpag'] at hsome
    refine Or.inr ⟨_, rfl, ?_⟩
    rw [hoff, hpag', Int.toNat_natCast]
    exact writeByte_moved hq.symm (Or.inl hsome)

/-! ### All strings -/

variable (room) in
/-- Bytes are copied, or there is no page for one of them, or they go on below the area. -/
theorem copyBytes_ends (hc : Tracked c) (l : List Byte) :
    (∃ c', copyBytes room l c = .next (some c') ∧ c'.p + l.length = c.p ∧
      Writes room c.toArea c'.toArea) ∨
    (copyBytes room l c = .next none ∧ Lacks room c.toArea) ∨
    (copyBytes room l c = .panic "page[]" ∧ c.p < l.length ∧ ¬ Lacks room c.toArea) := by
  induction l generalizing c with
  | nil => exact Or.inl ⟨c, rfl, rfl, .refl room _⟩
  | cons b l ih =>
      rw [copyBytes, List.length_cons]
      by_cases hp : c.p = 0
      · have hno : ¬ Lacks room c.toArea := fun ⟨i, hi, _⟩ => Nat.not_lt_zero _ (hp ▸ hi)
        rw [copyByte, if_pos hp]
        exact Or.inr (Or.inr ⟨rfl, by omega, hno⟩)
      rcases copyByte_ends hc b hp with ⟨hrun, hlacks⟩ | ⟨c', hrun, hmoved⟩
      · rw [hrun]
        exact Or.inr (Or.inl ⟨rfl, hlacks⟩)
      · rw [hrun, Outcome.bind_next]
        have hp' := hmoved.p
        rcases ih hmoved.tracked with ⟨c'', hrest, hlen, hwrites⟩ | ⟨hrest, hlacks⟩ |
          ⟨hrest, hlt, hno⟩
        · refine Or.inl ⟨c'', hrest, by omega, hmoved.writes.trans hwrites ?_ ?_⟩
          · exact Nat.le_of_lt (by omega)
          · exact Nat.le.intro hlen
        · exact Or.inr (Or.inl ⟨hrest, hmoved.lacks.mp hlacks⟩)
        · exact Or.inr (Or.inr ⟨hrest, by omega, fun h => hno (hmoved.lacks.mpr h)⟩)

theorem copyBytes_append (l l' : List Byte) (c : Cursor) :
    copyBytes room (l ++ l') c = (copyBytes room l c).bind fun
      | none => .next none
      | some c => copyBytes room l' c := by
  induction l generalizing c with
  | nil => rfl
  | cons b l ih =>
      rw [List.cons_append, copyBytes, copyBytes]
      cases copyByte room c b with
      | next r =>
          cases r with
          | none => rfl
          | some c => exact ih c
      | panic msg => rfl
      | disabled => rfl

/-- The strings are copied as one. -/
theorem copyLoop_eq {argv : List CString} {n : Nat} (hn : n ≤ argv.length) (c : Cursor) :
    copyLoop room argv n c = copyBytes room (flat (argv.take n)).reverse c := by
  induction n generalizing c with
  | zero => rfl
  | succ n ih =>
      have hs : argv[n]? = some argv[n] := List.getElem?_eq_getElem hn
      have htake : flat (argv.take (n + 1)) = flat (argv.take n) ++ argv[n].stored := by
        rw [List.take_add_one, hs, flat_append]
        exact congrArg _ (List.append_nil _)
      rw [copyLoop, hs, htake, List.reverse_append, copyBytes_append]
      refine congrArg (Outcome.bind _) (funext fun r => ?_)
      cases r with
      | none => rfl
      | some c => exact ih (Nat.le_of_succ_le hn) c

/-- What is promised of `copy_strings`: it returns 0, or all strings are in the area, one behind
the other, up to where the area began before. -/
def Promised (room : Nat → Bool) (ss : List CString) (a : Area) (o : Outcome Area) : Prop :=
  ∃ a', o = .next a' ∧ (a.p < (flat ss).length → a'.p = 0) ∧
    (a'.p = 0 ∨ a'.p + (flat ss).length = a.p ∧ Holds a'.page a'.p (flat ss) ∧ Writes room a a')

variable (room) in
/-- The three ways in which `copy_strings` ends. -/
theorem copyStrings_ends (argc : Int) (argv : List CString) (hargc : argc.toNat ≤ argv.length)
    (hp : a.p ≠ 0) :
    (∃ a', copyStrings room argc argv a = .next a' ∧
      a'.p + (flat (argv.take argc.toNat)).length = a.p ∧
      Holds a'.page a'.p (flat (argv.take argc.toNat)) ∧ Writes room a a') ∨
    (copyStrings room argc argv a = .next { a with p := 0 } ∧ Lacks room a) ∨
    (copyStrings room argc argv a = .panic "page[]" ∧
      a.p < (flat (argv.take argc.toNat)).length ∧ ¬ Lacks room a) := by
  have htracked : Tracked { a with offset := 0, pag := 0 } := ⟨Or.inl rfl, fun h => absurd rfl h⟩
  have hends := copyBytes_ends room htracked (flat (argv.take argc.toNat)).reverse
  rw [← copyLoop_eq hargc, List.length_reverse] at hends
  rw [copyStrings, if_neg hp]
  rcases hends with ⟨c, hrun, hlen, hwrites⟩ | ⟨hrun, hlacks⟩ | ⟨hrun, hlt, hno⟩
  · have hcopied := copyLoop_copied (c := { a with offset := 0, pag := 0 }) (Or.inl rfl)
      (holds_nil a.page a.p) hrun
    have hholds := hcopied.holds
    rw [List.append_nil] at hholds
    rw [hrun]
    exact Or.inl ⟨c.toArea, rfl, hlen, hholds, hwrites⟩
  · rw [hrun]
    exact Or.inr (Or.inl ⟨rfl, hlacks⟩)
  · rw [hrun]
    exact Or.inr (Or.inr ⟨rfl, hlt, hno⟩)

/-- **Argument copying** does what it should exactly if the strings fit, or a page is missing
before the beginning of the area is reached. -/
theorem copyStrings_promised_iff {argc : Int} {argv : List CString}
    (hargc : argc.toNat ≤ argv.length) :
    Promised room (argv.take argc.toNat) a (copyStrings room argc argv a) ↔
      a.p = 0 ∨ (flat (argv.take argc.toNat)).length ≤ a.p ∨ Lacks room a := by
  by_cases hp : a.p = 0
  · refine iff_of_true ⟨a, ?_, fun _ => hp, Or.inl hp⟩ (Or.inl hp)
    rw [copyStrings, if_pos hp]
  rw [or_iff_right hp]
  rcases copyStrings_ends room argc argv hargc hp with ⟨a', hrun, hlen, hholds, hwrites⟩ |
    ⟨hrun, hlacks⟩ | ⟨hrun, hlt, hno⟩
  · refine iff_of_true ⟨a', hrun, fun hlt => ?_, Or.inr ⟨hlen, hholds, hwrites⟩⟩ (Or.inl ?_)
    · omega
    · exact Nat.le.intro ((Nat.add_comm ..).trans hlen)
  · exact iff_of_true ⟨_, hrun, fun _ => rfl, Or.inl rfl⟩ (Or.inr hlacks)
  · refine iff_of_false ?_ (not_or.mpr ⟨Nat.not_le.mpr hlt, hno⟩)
    rintro ⟨a', hnext, -⟩
    rw [hrun] at hnext
    cases hnext

/-- The string `ls`, with all of the area free. -/
theorem copyStrings_promised_iff_ls :
    Promised (fun _ => true) ([CString.of [0x6c, 0x73]].take (1 : Int).toNat) start
        (copyStrings (fun _ => true) 1 [CString.of [0x6c, 0x73]] start) ↔
      start.p = 0 ∨ (flat ([CString.of [0x6c, 0x73]].take (1 : Int).toNat)).length ≤ start.p ∨
        Lacks (fun _ => true) start :=
  copyStrings_promised_iff (Nat.le_refl 1)

/-- A string of `n` letters. -/
def letters (n : Nat) : CString where
  bytes := List.replicate n 0x61
  nonzero b hb := by
    rw [List.eq_of_mem_replicate hb]
    decide

theorem length_letters (n : Nat) : (flat [letters n]).length = n + 1 := by
  rw [flat_cons, List.length_append, stored_length]
  exact congrArg (· + 1) List.length_replicate

/-- A string as long as the area. -/
def longString : CString := letters start.p

/-- Its first byte goes below `page[0]`. -/
theorem copyStrings_below :
    copyStrings (fun _ => true) 1 [longString] start = .panic "page[]" := by
  have hlen : (flat ([longString].take (1 : Int).toNat)).length = start.p + 1 :=
    length_letters start.p
  rcases copyStrings_ends (fun _ => true) 1 [longString] (a := start)
    (Nat.le_refl 1) (by decide) with ⟨a', -, hends, -⟩ | ⟨-, i, -, -, hno⟩ | ⟨hrun, -⟩
  · omega
  · cases hno
  · exact hrun

theorem copyStrings_not_promised : ¬ Promised (fun _ => true) [longString] start
    (copyStrings (fun _ => true) 1 [longString] start) := by
  rw [copyStrings_below]
  rintro ⟨a', hnext, -⟩
  cases hnext

end LinuxKernel.V011.Fs.Exec
