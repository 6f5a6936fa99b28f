import LinuxKernel.V011.TtyQueues

/-!
# LinuxKernel.V011.TtyWrite

**`tty_write` on several terminals** (`tty_io.c`): calls on different terminals take turns, and
`cr_flag`, which ties the two halves of a newline together, is one for all of them.

- A step takes a call from one place where it can lose the processor to the next: the sleep in
  `sleep_if_full`, a page fault in `get_fs_byte`, and `schedule`.
- The calls on one terminal come one after another. The output flags of a terminal are fixed.
- What takes characters out of a write queue, or echoes into it, is an action that sets the
  number of characters there; `tty->write` is one of these.

`put` and `reported` are what a terminal has been given and what has been reported of it. `half`
is for statements only: the terminal that has the first half of a newline.
-/

namespace LinuxKernel.V011.TtyWrite

open LinuxKernel.V011.Tty (Termios)
open LinuxKernel.V011.TtyQueues (Byte Stray WriterPc OPOST OLCUC ONLCR OCRNL ONLRET oFlag outMap
  outCase)

/-! ### The data model -/

def TTY_BUF_SIZE : Nat := 1024

/-- The terminals of `tty_table`. -/
abbrev Channel := Fin 3

/-- A call of `tty_write`. -/
structure Call where
  /-- The `nr` bytes from `b` on. -/
  rest : List Byte
  /-- The bytes from `buf` to `b`. -/
  done : List Byte
  pc : WriterPc
  deriving DecidableEq

structure Line where
  /-- `CHARS(tty->write_q)`. -/
  chars : Nat
  call : Option Call
  /-- What `tty_write` has put in the write queue. -/
  put : List Byte
  /-- The bytes that the calls which are through have reported as written. -/
  reported : List Byte
  deriving DecidableEq

structure State where
  line : Channel → Line
  crFlag : Bool
  half : Option Channel

structure Machine where
  termios : Channel → Termios
  stray : Stray

namespace Line

/-- `LEFT(tty->write_q)`. -/
def left (l : Line) : Nat := TTY_BUF_SIZE - 1 - l.chars

/-- `PUTCH`. -/
def putch (l : Line) (c : Byte) : Line :=
  { l with chars := (l.chars + 1) % TTY_BUF_SIZE, put := l.put ++ [c] }

def setCall (l : Line) (c : Call) : Line := { l with call := some c }

/-- The call returns `b-buf`. -/
def leave (l : Line) (c : Call) : Line :=
  { l with call := none, reported := l.reported ++ c.done }

/-- All the bytes written: those reported, and those that the call is through with. -/
def written (l : Line) : List Byte :=
  l.reported ++ (l.call.map Call.done).getD []

end Line

def setLine (s : State) (t : Channel) (l : Line) : State :=
  { s with line := Function.update s.line t l }

/-! ### `tty_write` -/

/-- The test for the first half of a newline, without `cr_flag`. -/
def twoHalves (t : Termios) (c : Byte) : Bool := oFlag t OPOST && c = 10 && oFlag t ONLCR

/-- The inner loop, behind `get_fs_byte`. -/
def putByte (m : Machine) (s : State) (t : Channel) (l : Line) (done : List Byte) (b : Byte)
    (rest : List Byte) : State :=
  let c := outMap (m.termios t) b
  if twoHalves (m.termios t) c && !s.crFlag then
    { setLine s t ((l.putch 13).setCall ⟨b :: rest, done, .inner⟩) with
      crFlag := true, half := some t }
  else
    { setLine s t
        ((l.putch (outCase m.stray (m.termios t) c)).setCall ⟨rest, done ++ [b], .inner⟩) with
      crFlag := false, half := none }

/-- A call goes on. -/
def goOn (m : Machine) (s : State) (t : Channel) (l : Line) (c : Call) (signal : Bool) :
    Outcome State :=
  match c.pc with
  | .head =>
      if c.rest = [] then .next (setLine s t (l.leave c))
      else if l.left = 0 then .next (setLine s t (l.setCall { c with pc := .asleep }))
      else if signal then .next (setLine s t (l.leave c))
      else .next (setLine s t (l.setCall { c with pc := .inner }))
  | .asleep =>
      if signal then .next (setLine s t (l.leave c))
      else if l.left < 128 then .disabled
      else .next (setLine s t (l.setCall { c with pc := .inner }))
  | .inner =>
      if c.rest ≠ [] ∧ l.left ≠ 0 then .next (setLine s t (l.setCall { c with pc := .byte }))
      -- `tty->write`, and `schedule` unless all is written
      else .next (setLine s t (l.setCall { c with pc := .head }))
  | .byte =>
      match c.rest with
      | [] => .disabled
      | b :: rest => .next (putByte m s t l c.done b rest)

inductive Action
  /-- `tty_write(t, buf, nr)`. -/
  | call (t : Channel) (buf : List Byte)
  /-- With whether a signal is there when it is looked for. -/
  | goOn (t : Channel) (signal : Bool)
  /-- `tty->write`, an interrupt of the line, or an echo. -/
  | queue (t : Channel) (chars : Fin TTY_BUF_SIZE)
  deriving DecidableEq

def step (m : Machine) (s : State) : Action → Outcome State
  | .call t buf =>
      match (s.line t).call with
      | none => .next (setLine s t ((s.line t).setCall ⟨buf, [], .head⟩))
      | some _ => .disabled
  | .goOn t signal =>
      match (s.line t).call with
      | none => .disabled
      | some c => goOn m s t (s.line t) c signal
  | .queue t chars => .next (setLine s t { s.line t with chars := chars })

/-- Nothing is written yet. -/
def start : State where
  line _ := ⟨0, none, [], []⟩
  crFlag := false
  half := none

/-! ### What a terminal should get -/

/-- The image of a byte under the output flags. -/
def image (m : Machine) (t : Channel) (b : Byte) : List Byte :=
  let c := outMap (m.termios t) b
  if twoHalves (m.termios t) c then [13, outCase m.stray (m.termios t) c]
  else [outCase m.stray (m.termios t) c]

/-- The image of what has been written, and the first half of a newline. -/
def promised (m : Machine) (s : State) (t : Channel) : List Byte :=
  (s.line t).written.flatMap (image m t) ++ if s.half = some t then [13] else []

/-- The terminal that an action is about. -/
def Action.channel : Action → Channel
  | .call t _ => t
  | .goOn t _ => t
  | .queue t _ => t

/-- A call that goes on now puts a character. -/
def puts (l : Line) : Bool := l.call.any (·.pc = .byte)

/-- A call that goes on now, with a signal, returns. -/
def returns (l : Line) : Bool :=
  l.call.any fun c => c.pc = .asleep || (c.pc = .head && l.left ≠ 0)

/-- The second half of a newline follows the first. -/
def Whole (s : State) (a : Action) : Prop :=
  ∀ h t signal, s.half = some h → a = .goOn t signal →
    if t = h then ¬ (signal ∧ returns (s.line t)) else ¬ puts (s.line t)

instance (s : State) (a : Action) : Decidable (Whole s a) :=
  inferInstanceAs (Decidable (∀ (h t : Channel) (signal : Bool), s.half = some h →
    a = .goOn t signal → if t = h then ¬ (signal ∧ returns (s.line t)) else ¬ puts (s.line t)))

/-- Only terminal `t` is used. -/
def Alone (t : Channel) (_ : State) (a : Action) : Prop := a.channel = t

/-! ### What a call does next -/

variable {m : Machine} {s s' u : State} {t h : Channel} {l l' : Line} {c : Call} {signal : Bool}
  {b : Byte} {rest done : List Byte} {a : Action}

@[simp] theorem setLine_self : (setLine s t l).line t = l := by
  simp [setLine]

theorem setLine_of_ne (hne : h ≠ t) : (setLine s t l).line h = s.line h := by
  simp [setLine, hne]

theorem written_setCall (l : Line) (c : Call) :
    (l.setCall c).written = l.reported ++ c.done := rfl

theorem written_of_call (hl : l.call = some c) : l.written = l.reported ++ c.done := by
  rw [Line.written, hl]
  rfl

theorem written_leave (hl : l.call = some c) : (l.leave c).written = l.written := by
  rw [written_of_call hl]
  exact List.append_nil _

/-- The call is over, at the end of the bytes or with a signal, or it goes on with the same
bytes. -/
def Goes (l : Line) (c : Call) (signal : Bool) (l' : Line) : Prop :=
  l'.put = l.put ∧ l'.written = l.written ∧
    (c.rest = [] ∨ (signal ∧ returns l) ∨ ∃ c', l'.call = some c' ∧ c'.rest = c.rest)

theorem goes_setCall (hl : l.call = some c) (pc : WriterPc) :
    Goes l c signal (l.setCall { c with pc := pc }) :=
  ⟨rfl, (written_of_call hl).symm, Or.inr (Or.inr ⟨_, rfl, rfl⟩)⟩

/-- Apart from `putByte`, a call looks at its own terminal only. -/
theorem goOn_cases (hl : l.call = some c) (hstep : goOn m s t l c signal = .next s') :
    (∃ l', Goes l c signal l' ∧ s' = setLine s t l' ∧
      ∀ u, goOn m u t l c signal = .next (setLine u t l')) ∨
    ∃ b rest, c.pc = .byte ∧ c.rest = b :: rest ∧ s' = putByte m s t l c.done b rest := by
  rw [goOn] at hstep
  cases hpc : c.pc with
  | head =>
      rw [hpc] at hstep
      refine Or.inl ?_
      by_cases hnr : c.rest = []
      · refine ⟨l.leave c, ⟨rfl, written_leave hl, Or.inl hnr⟩, ?_, fun u => ?_⟩
        · simpa [hnr] using hstep.symm
        · simp [goOn, hpc, hnr]
      · by_cases hfull : l.left = 0
        · refine ⟨_, goes_setCall hl .asleep, ?_, fun u => ?_⟩
          · simpa [hnr, hfull] using hstep.symm
          · simp [goOn, hpc, hnr, hfull]
        · cases signal with
          | true =>
              have hreturns : returns l := by simp [returns, hl, hpc, hfull]
              refine ⟨l.leave c, ⟨rfl, written_leave hl, Or.inr (Or.inl ⟨rfl, hreturns⟩)⟩, ?_,
                fun u => ?_⟩
              · simpa [hnr, hfull] using hstep.symm
              · simp [goOn, hpc, hnr, hfull]
          | false =>
              refine ⟨_, goes_setCall hl .inner, ?_, fun u => ?_⟩
              · simpa [hnr, hfull] using hstep.symm
              · simp [goOn, hpc, hnr, hfull]
  | asleep =>
      rw [hpc] at hstep
      refine Or.inl ?_
      cases signal with
      | true =>
          have hreturns : returns l := by simp [returns, hl, hpc]
          refine ⟨l.leave c, ⟨rfl, written_leave hl, Or.inr (Or.inl ⟨rfl, hreturns⟩)⟩, ?_,
            fun u => ?_⟩
          · simpa using hstep.symm
          · simp [goOn, hpc]
      | false =>
          by_cases hleft : l.left < 128
          · simp [hleft] at hstep
          · refine ⟨_, goes_setCall hl .inner, ?_, fun u => ?_⟩
            · simpa [hleft] using hstep.symm
            · simp [goOn, hpc, hleft]
  | inner =>
      rw [hpc] at hstep
      dsimp only at hstep
      refine Or.inl ?_
      by_cases hmore : c.rest ≠ [] ∧ l.left ≠ 0
      · rw [if_pos hmore] at hstep
        refine ⟨_, goes_setCall hl .byte, (Outcome.next.inj hstep).symm, fun u => ?_⟩
        rw [goOn, hpc]
        exact if_pos hmore
      · rw [if_neg hmore] at hstep
        refine ⟨_, goes_setCall hl .head, (Outcome.next.inj hstep).symm, fun u => ?_⟩
        rw [goOn, hpc]
        exact if_neg hmore
  | byte =>
      rw [hpc] at hstep
      refine Or.inr ?_
      cases hrest : c.rest with
      | nil => simp [hrest] at hstep
      | cons b rest =>
          refine ⟨b, rest, rfl, rfl, ?_⟩
          simpa [hrest] using hstep.symm

/-- What an action does: a line changes on its own, or a call puts a character. -/
theorem step_cases (hstep : step m s a = .next s') :
    (∃ l', s' = setLine s a.channel l' ∧
      (∀ u, u.line a.channel = s.line a.channel → step m u a = .next (setLine u a.channel l')) ∧
      l'.put = (s.line a.channel).put ∧ l'.written = (s.line a.channel).written ∧
      ∀ c, (s.line a.channel).call = some c → c.rest = [] ∨
        (∃ signal, a = .goOn a.channel signal ∧ signal ∧ returns (s.line a.channel)) ∨
        ∃ c', l'.call = some c' ∧ c'.rest = c.rest) ∨
    ∃ t signal c b rest, a = .goOn t signal ∧ (s.line t).call = some c ∧ c.pc = .byte ∧
      c.rest = b :: rest ∧ s' = putByte m s t (s.line t) c.done b rest := by
  cases a with
  | call t buf =>
      rw [step] at hstep
      cases hcall : (s.line t).call with
      | some c => simp [hcall] at hstep
      | none =>
          rw [hcall] at hstep
          refine Or.inl ⟨_, (Outcome.next.inj hstep).symm, fun u hu => ?_, rfl, ?_,
            fun c hc => nomatch hcall.symm.trans hc⟩
          · change u.line t = s.line t at hu
            rw [step, hu, hcall]
            rfl
          · change (s.line t).reported ++ [] = (s.line t).written
            rw [Line.written, hcall]
            rfl
  | queue t chars =>
      refine Or.inl ⟨_, (Outcome.next.inj hstep).symm, fun u hu => ?_, rfl, rfl,
        fun c hc => Or.inr (Or.inr ⟨c, hc, rfl⟩)⟩
      change u.line t = _ at hu
      rw [step, hu]
      rfl
  | goOn t signal =>
      rw [step] at hstep
      cases hcall : (s.line t).call with
      | none => simp [hcall] at hstep
      | some c =>
          rw [hcall] at hstep
          rcases goOn_cases hcall hstep with ⟨l', ⟨hput, hwritten, hgoes⟩, rfl, hall⟩ |
            ⟨b, rest, hpc, hrest, rfl⟩
          · refine Or.inl ⟨l', rfl, fun u hu => ?_, hput, hwritten, fun c' hc' => ?_⟩
            · change u.line t = s.line t at hu
              rw [step, hu, hcall]
              exact hall u
            · obtain rfl : c = c' := Option.some.inj (hcall.symm.trans hc')
              rcases hgoes with hnil | hsignal | hsame
              · exact Or.inl hnil
              · exact Or.inr (Or.inl ⟨signal, rfl, hsignal⟩)
              · exact Or.inr (Or.inr hsame)
          · exact Or.inr ⟨t, signal, c, b, rest, rfl, hcall, hpc, hrest, rfl⟩

/-! ### One character -/

section PutByte

/-- The first half of a newline. -/
theorem putByte_first (htwo : twoHalves (m.termios t) (outMap (m.termios t) b) = true)
    (hcr : s.crFlag = false) : putByte m s t l done b rest =
      { setLine s t ((l.putch 13).setCall ⟨b :: rest, done, .inner⟩) with
        crFlag := true, half := some t } :=
  if_pos (by rw [htwo, hcr]; rfl)

/-- Anything else. -/
theorem putByte_last
    (hlast : twoHalves (m.termios t) (outMap (m.termios t) b) = false ∨ s.crFlag = true) :
    putByte m s t l done b rest =
      { setLine s t ((l.putch (outCase m.stray (m.termios t) (outMap (m.termios t) b))).setCall
          ⟨rest, done ++ [b], .inner⟩) with
        crFlag := false, half := none } := by
  refine if_neg ?_
  rcases hlast with htwo | hcr
  · rw [htwo]
    exact Bool.false_ne_true
  · rw [hcr]
    simp

theorem putByte_of_ne (hne : h ≠ t) : (putByte m s t l done b rest).line h = s.line h := by
  rw [putByte]
  dsimp only
  split
  · exact setLine_of_ne hne
  · exact setLine_of_ne hne

/-- Afterwards, no other terminal has half a newline. -/
theorem half_putByte (hne : h ≠ t) : (putByte m s t l done b rest).half ≠ some h := by
  rw [putByte]
  dsimp only
  split
  · exact fun h' => hne (Option.some.inj h').symm
  · exact nofun

theorem cr_putByte : (putByte m s t l done b rest).crFlag =
    (putByte m s t l done b rest).half.isSome := by
  rw [putByte]
  dsimp only
  split
  · rfl
  · rfl

variable (rest done) in
/-- The character does not depend on the other terminals, apart from `cr_flag`. -/
theorem putByte_congr (hcr : s.crFlag = u.crFlag) :
    (putByte m s t l done b rest).line t = (putByte m u t l done b rest).line t ∧
    (putByte m s t l done b rest).half = (putByte m u t l done b rest).half := by
  rw [putByte, putByte, hcr]
  dsimp only
  split
  · exact ⟨setLine_self.trans setLine_self.symm, rfl⟩
  · exact ⟨setLine_self.trans setLine_self.symm, rfl⟩

theorem image_first (htwo : twoHalves (m.termios t) (outMap (m.termios t) b) = true) :
    image m t b = [13, outCase m.stray (m.termios t) (outMap (m.termios t) b)] := if_pos htwo

theorem image_last (htwo : twoHalves (m.termios t) (outMap (m.termios t) b) = false) :
    image m t b = [outCase m.stray (m.termios t) (outMap (m.termios t) b)] :=
  if_neg (by rw [htwo]; exact Bool.false_ne_true)

end PutByte

/-! ### The invariant -/

structure Sound (m : Machine) (s : State) : Prop where
  put : ∀ t, (s.line t).put = promised m s t
  cr : s.crFlag = s.half.isSome
  /-- The call with half a newline is still at its byte. -/
  next : ∀ h, s.half = some h → ∃ c b rest, (s.line h).call = some c ∧ c.rest = b :: rest ∧
    twoHalves (m.termios h) (outMap (m.termios h) b) = true

theorem sound_start : Sound m start where
  put _ := rfl
  cr := rfl
  next _ := nofun

/-- A call puts a character: nobody else has half a newline. -/
theorem half_of_puts (hok : Whole s a) (ha : a = .goOn t signal) (hcall : (s.line t).call = some c)
    (hpc : c.pc = .byte) : s.half = none ∨ s.half = some t := by
  cases hhalf : s.half with
  | none => exact Or.inl rfl
  | some h =>
      refine Or.inr (congrArg some (Classical.byContradiction fun hne => ?_))
      have hnot := hok h t signal hhalf ha
      rw [if_neg (Ne.symm hne)] at hnot
      exact hnot (by simp [puts, hcall, hpc])

/-- What a line that changes on its own keeps. -/
theorem Sound.setLine (hs : Sound m s) (hput : l.put = (s.line t).put)
    (hwritten : l.written = (s.line t).written)
    (hnext : s.half = some t → ∃ c b rest, l.call = some c ∧ c.rest = b :: rest ∧
      twoHalves (m.termios t) (outMap (m.termios t) b) = true) : Sound m (setLine s t l) where
  put u := by
    by_cases hu : u = t
    · subst hu
      rw [setLine_self, hput, hs.put u, promised, promised, setLine_self, hwritten]
      rfl
    · rw [setLine_of_ne hu, hs.put u, promised, promised, setLine_of_ne hu]
      rfl
  cr := hs.cr
  next h hh := by
    by_cases hu : h = t
    · subst hu
      rw [setLine_self]
      exact hnext hh
    · rw [setLine_of_ne hu]
      exact hs.next h hh

/-- A character, with the newline whole. -/
theorem Sound.putByte (hs : Sound m s) (hhalf : s.half = none ∨ s.half = some t)
    (hcall : (s.line t).call = some c) (hrest : c.rest = b :: rest) :
    Sound m (putByte m s t (s.line t) c.done b rest) := by
  have hother : ∀ u, u ≠ t → s.half ≠ some u := by
    rintro u hu hsome
    rcases hhalf with hnone | hsome'
    · exact nomatch hnone.symm.trans hsome
    · exact hu (Option.some.inj (hsome.symm.trans hsome'))
  -- the terminal itself, for each kind of character
  have hself : ((TtyWrite.putByte m s t (s.line t) c.done b rest).line t).put =
      promised m (TtyWrite.putByte m s t (s.line t) c.done b rest) t ∧
      ((TtyWrite.putByte m s t (s.line t) c.done b rest).half = some t →
        ∃ c' b' rest', ((TtyWrite.putByte m s t (s.line t) c.done b rest).line t).call = some c' ∧
          c'.rest = b' :: rest' ∧
          twoHalves (m.termios t) (outMap (m.termios t) b') = true) := by
    have hput := hs.put t
    rw [promised, written_of_call hcall] at hput
    by_cases htwo : twoHalves (m.termios t) (outMap (m.termios t) b) = true
    · rcases hhalf with hnone | hsome
      · have hcr : s.crFlag = false := by rw [hs.cr, hnone]; rfl
        rw [putByte_first htwo hcr]
        refine ⟨?_, fun _ => ⟨_, b, rest, congrArg Line.call setLine_self, rfl, htwo⟩⟩
        rw [promised]
        dsimp only
        rw [setLine_self, written_setCall]
        change (s.line t).put ++ [13] = _
        rw [hput, hnone]
        simp [Line.putch]
      · have hcr : s.crFlag = true := by rw [hs.cr, hsome]; rfl
        rw [putByte_last (Or.inr hcr)]
        refine ⟨?_, nofun⟩
        rw [promised]
        dsimp only
        rw [setLine_self, written_setCall]
        change (s.line t).put ++ [_] = _
        rw [hput, hsome]
        simp [Line.putch, image_first htwo]
    · have htwo := Bool.eq_false_of_not_eq_true htwo
      have hnone : s.half = none := by
        refine hhalf.resolve_right fun hsome => ?_
        obtain ⟨c', b', rest', hcall', hrest', htwo'⟩ := hs.next t hsome
        obtain rfl : c = c' := Option.some.inj (hcall.symm.trans hcall')
        obtain rfl : b = b' := (List.cons.inj (hrest.symm.trans hrest')).1
        exact nomatch htwo.symm.trans htwo'
      rw [putByte_last (Or.inl htwo)]
      refine ⟨?_, nofun⟩
      rw [promised]
      dsimp only
      rw [setLine_self, written_setCall]
      change (s.line t).put ++ [_] = _
      rw [hput, hnone]
      simp [Line.putch, image_last htwo]
  refine ⟨fun u => ?_, cr_putByte, fun h hh => ?_⟩
  · by_cases hu : u = t
    · subst hu
      exact hself.1
    · rw [putByte_of_ne hu, hs.put u, promised, promised, putByte_of_ne hu,
        if_neg (hother u hu), if_neg (half_putByte hu)]
  · obtain rfl : h = t := Classical.byContradiction fun hne => half_putByte hne hh
    exact hself.2 hh

theorem Sound.step (hs : Sound m s) (hok : Whole s a) (hstep : step m s a = .next s') :
    Sound m s' := by
  rcases step_cases hstep with ⟨l', rfl, -, hput, hwritten, hgoes⟩ |
    ⟨t, signal, c, b, rest, ha, hcall, hpc, hrest, rfl⟩
  · refine hs.setLine hput hwritten fun hhalf => ?_
    obtain ⟨c, b, rest, hcall, hrest, htwo⟩ := hs.next _ hhalf
    rcases hgoes c hcall with hnil | ⟨signal, ha, hreturns⟩ | ⟨c', hcall', hrest'⟩
    · exact nomatch hnil.symm.trans hrest
    · have hnot := hok _ _ signal hhalf ha
      rw [if_pos rfl] at hnot
      exact absurd hreturns hnot
    · exact ⟨c', b, rest, hcall', hrest'.trans hrest, htwo⟩
  · exact hs.putByte (half_of_puts hok ha hcall hpc) hcall hrest

/-! ### The terminal alone -/

/-- With only terminal `t` in use, `u` comes to the same. -/
structure Follows (t : Channel) (s u : State) : Prop where
  line : u.line t = s.line t
  half : u.half = if s.half = some t then some t else none
  cr : u.crFlag = u.half.isSome

theorem follows_putByte (hs : Sound m s) (hu : Follows t s u)
    (hhalf : s.half = none ∨ s.half = some t) :
    Follows t (putByte m s t (s.line t) done b rest) (putByte m u t (u.line t) done b rest) := by
  have hcr : u.crFlag = s.crFlag := by
    rw [hu.cr, hu.half, hs.cr]
    rcases hhalf with hnone | hsome
    · rw [hnone]
      rfl
    · rw [hsome, if_pos rfl]
  obtain ⟨hline, hhalf'⟩ := putByte_congr (m := m) (l := s.line t) (t := t) (b := b)
    rest done hcr
  rw [hu.line]
  refine ⟨hline, hhalf'.trans ?_, cr_putByte⟩
  cases hnew : (putByte m s t (s.line t) done b rest).half with
  | none => rfl
  | some h =>
      obtain rfl : h = t := Classical.byContradiction fun hne => half_putByte hne hnew
      rw [if_pos rfl]

theorem Follows.step (hs : Sound m s) (hok : Whole s a) (hu : Follows t s u)
    (hstep : step m s a = .next s') :
    ∃ u', Reaches (step m) (Alone t) u u' ∧ Follows t s' u' := by
  rcases step_cases hstep with ⟨l', rfl, hall, -, -, -⟩ |
    ⟨h, signal, c, b, rest, rfl, hcall, hpc, hrest, rfl⟩
  · by_cases ht : a.channel = t
    · subst ht
      refine ⟨_, Reaches.refl.tail rfl (hall u hu.line), ?_, hu.half, hu.cr⟩
      rw [setLine_self, setLine_self]
    · exact ⟨u, .refl, hu.line.trans (setLine_of_ne (Ne.symm ht)).symm, hu.half, hu.cr⟩
  · have hhalf := half_of_puts hok rfl hcall hpc
    by_cases ht : h = t
    · subst ht
      refine ⟨_, Reaches.refl.tail (a := .goOn h signal) rfl ?_, follows_putByte hs hu hhalf⟩
      rw [TtyWrite.step, hu.line, hcall]
      dsimp only
      rw [goOn, hpc]
      dsimp only
      rw [hrest]
    · refine ⟨u, .refl, hu.line.trans (putByte_of_ne (Ne.symm ht)).symm, ?_, hu.cr⟩
      rw [if_neg (half_putByte (Ne.symm ht)), hu.half, if_neg]
      rcases hhalf with hnone | hsome
      · rw [hnone]
        exact nofun
      · rw [hsome]
        exact fun h' => ht (Option.some.inj h')

/-! ### All runs -/

/-- As long as the second half of every newline follows its first half, a terminal gets the
image of what its calls report, as it does alone. -/
theorem put_image (h : Reaches (step m) Whole start s) (t : Channel) :
    (s.line t).put = promised m s t ∧
    ((s.line t).call = none → (s.line t).put = (s.line t).reported.flatMap (image m t)) ∧
    ∃ u, Reaches (step m) (Alone t) start u ∧ u.line t = s.line t := by
  have hinv : Sound m s ∧ ∃ u, Reaches (step m) (Alone t) start u ∧ Follows t s u := by
    refine h.invariant (P := fun s => Sound m s ∧ ∃ u, Reaches (step m) (Alone t) start u ∧
      Follows t s u) ⟨sound_start, start, .refl, rfl, rfl, rfl⟩ ?_
    rintro s a s' ⟨hs, u, hreach, hu⟩ hok hstep
    obtain ⟨u', hreach', hu'⟩ := hu.step hs hok hstep
    exact ⟨hs.step hok hstep, u', hreach.trans hreach', hu'⟩
  obtain ⟨hs, u, hreach, hu⟩ := hinv
  refine ⟨hs.put t, fun hcall => ?_, u, hreach, hu.line⟩
  have hhalf : s.half ≠ some t := fun hsome => by
    obtain ⟨c, b, rest, hcall', -⟩ := hs.next t hsome
    exact nomatch hcall.symm.trans hcall'
  rw [hs.put t, promised, if_neg hhalf, Line.written, hcall, List.append_nil]
  exact congrArg _ (List.append_nil _)

/-! ### A newline in two halves -/

/-- All terminals write CR before NL. -/
def crnl : Machine where
  termios _ := ⟨0, OPOST ||| ONLCR, 0, 0, 0, fun _ => 0⟩
  stray := ⟨fun _ => false, fun _ => false⟩

/-- Terminal 1 writes a newline between two characters of terminal 0. -/
def betweenRun : List Action :=
  [.call 0 [97, 10], .call 1 [10], .goOn 0 false, .goOn 0 false, .goOn 0 false,
    .goOn 1 false, .goOn 1 false, .goOn 1 false, .goOn 1 false, .goOn 1 false, .goOn 1 false,
    .goOn 1 false, .goOn 0 false, .goOn 0 false, .goOn 0 false, .goOn 0 false, .goOn 0 false,
    .goOn 0 false]

def between : State := (run (step crnl) start betweenRun).get start

theorem put_image_between :
    ((between.line 0).call = none →
      (between.line 0).put = (between.line 0).reported.flatMap (image crnl 0)) ∧
    (between.line 0).call = none ∧ (between.line 0).put = [97, 13, 10] := by
  have hreach : Reaches (step crnl) Whole start between := by
    refine Reaches.of_run (Outcome.eq_next (by decide) start) ?_
    iterate 18 refine RunOk.cons (by decide) ?_
    trivial
  exact ⟨(put_image hreach 0).2.1, by decide, by decide +kernel⟩

/-- The first half of a newline fills the queue of terminal 1, and terminal 0 writes one. -/
def filledRun : List Action :=
  [.queue 1 ⟨1022, by decide⟩, .call 1 [10], .goOn 1 false, .goOn 1 false, .goOn 1 false, .goOn 1 false,
    .call 0 [10], .goOn 0 false, .goOn 0 false, .goOn 0 false, .goOn 0 false, .goOn 0 false]

theorem put_not_image : ¬ ∀ (m : Machine) (s : State) (t : Channel),
    Reaches (step m) (fun _ _ => True) start s → (s.line t).call = none →
      (s.line t).put = (s.line t).reported.flatMap (image m t) := by
  intro h
  have hrun : run (step crnl) start filledRun =
      .next ((run (step crnl) start filledRun).get start) :=
    Outcome.eq_next (by decide) start
  have hput := h crnl _ 0 (Reaches.of_run hrun (RunOk.trivial _ _ _)) (by decide)
  revert hput
  decide

end LinuxKernel.V011.TtyWrite
