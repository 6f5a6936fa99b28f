import LinuxKernel.V011.ConWrite

/-!
# LinuxKernel.V011.ConPrints

**`con_write` prints what is in its queue** when each ESC Z but one at the end is answered
without an echo. The last one may be answered with any echo: its queue is empty by then, and an
echo that is printed comes to an ESC Z again only at its own end.

The calls return, since an answer has no `Z` in it.
-/

namespace LinuxKernel.V011.ConWrite

open TtyQueues
open LinuxKernel.V011.Tty (Termios ECHO)

/-! ### What an echo does to the parser -/

section Parser

variable {v : Console.Video} {t : Termios} {console : Console.State} {c : Byte}

theorem responds_z (h : responds console c = true) : c = 90 := by
  rw [responds, Bool.and_eq_true, decide_eq_true_eq, decide_eq_true_eq] at h
  exact congrArg UInt8.toBitVec h.2

theorem gotoxy_state (newX newY : Nat) :
    (Console.gotoxy v console newX newY).state = console.state := by
  unfold Console.gotoxy
  split
  · rfl
  · rfl

theorem moveOrigin_state : (Console.moveOrigin v console).state = console.state := by
  unfold Console.moveOrigin
  dsimp only
  split
  · rfl
  · rfl

theorem scrup_state : (Console.scrup v console).state = console.state := by
  unfold Console.scrup
  split
  · split
    · exact moveOrigin_state
    · rfl
  · rfl

theorem lf_state : (Console.lf v console).state = console.state := by
  unfold Console.lf
  split
  · rfl
  · exact scrup_state

theorem printByte_state (c : UInt8) : (Console.printByte v console c).state = console.state := by
  unfold Console.printByte
  dsimp only
  split
  · exact lf_state
  · rfl

theorem csiPar_caret : (Console.csiPar v console 94).state = .plain := by
  have hsemi : ¬ ((94 : UInt8) = Console.ch ';' ∧ console.npar < Console.NPAR - 1) :=
    fun h => absurd h.1 (by decide)
  unfold Console.csiPar
  rw [if_neg hsemi, if_neg (by decide)]
  simp [Console.csi, Console.ch]

/-- The `^` of an echo is in no escape sequence, and ends the one it is in. -/
theorem feed_caret : (feed v t console 94).state ≠ .esc := by
  have h94 : UInt8.ofBitVec 94 = 94 := rfl
  rw [feed, h94]
  unfold Console.conByte
  split
  case h_1 hs =>
    unfold Console.plainByte
    rw [if_pos (by decide), printByte_state, hs]
    decide
  case h_2 hs =>
    unfold Console.escByte
    dsimp only
    rw [if_neg (by decide), if_neg (by decide), if_neg (by decide), if_neg (by decide),
      if_neg (by decide)]
    split
    · exact nofun
    · split
      · unfold Console.restoreCur
        rw [gotoxy_state]
        exact nofun
      · exact nofun
  case h_3 hs =>
    unfold Console.csiStart
    dsimp only
    rw [if_neg (by decide), csiPar_caret]
    exact nofun
  case h_4 hs =>
    rw [csiPar_caret]
    exact nofun
theorem answers_of_ne {cs : List Byte} (h : ∀ c ∈ cs, c ≠ 90) : answers v t console cs = 0 := by
  induction cs generalizing console with
  | nil => rfl
  | cons c cs ih =>
      rw [List.forall_mem_cons] at h
      rw [answers, if_neg fun hr => h.1 (responds_z hr), ih h.2]

theorem answers_eraseEcho (c : Byte) : answers v t console (eraseEcho c) = 0 := by
  refine answers_of_ne ?_
  unfold eraseEcho
  split
  · decide
  · decide

/-- An echo has an ESC Z at its end at most, and only that of a `Z` has. -/
theorem answers_echo (v : Console.Video) (t : Termios) (console : Console.State) (c : Byte) :
    answers v t console (echo t c) ≤ (if c = 90 then 1 else 0) ∧
    answers v t console (echo t c).dropLast = 0 := by
  unfold echo
  split
  · refine ⟨?_, answers_of_ne (by decide)⟩
    rw [answers_of_ne (by decide)]
    exact Nat.zero_le _
  · split
    · split
      · -- after the `^` there is no ESC
        have hcaret : answers v t console [94] = 0 := answers_of_ne (by decide)
        refine ⟨?_, hcaret⟩
        rw [answers, if_neg fun hr => absurd (responds_z hr) (by decide), answers, if_neg, answers]
        · exact Nat.zero_le _
        · rw [responds, decide_eq_false feed_caret]
          exact nofun
      · exact ⟨Nat.zero_le _, rfl⟩
    · refine ⟨?_, rfl⟩
      rw [answers, answers, Nat.add_zero]
      split
      next hr => rw [if_pos (responds_z hr)]
      next => exact Nat.zero_le _

theorem length_eraseEcho (c : Byte) : (eraseEcho c).length ≤ 2 := by
  unfold eraseEcho
  split
  · decide
  · decide

theorem length_echo (t : Termios) (c : Byte) : (echo t c).length ≤ 2 := by
  unfold echo
  split
  · decide
  · split
    · split
      · exact Nat.le_refl 2
      · decide
    · exact Nat.le_succ 1

end Parser

/-! ### What a step does -/

variable {v : Console.Video} {stray : Stray} {s₀ s s' : State} {rest l : List Frame}
  {echoed printed : List Byte}

/-- From `s₀` to `s`, the characters have been printed that were in the queue, and those of the
echoes, up to what is still in the queue. -/
structure Follows (v : Console.Video) (s₀ s : State) (echoed printed : List Byte) : Prop where
  termios : s.tty.termios = s₀.tty.termios
  accepted : s.tty.writeQ.accepted = s₀.tty.writeQ.accepted ++ echoed
  taken : s.tty.writeQ.taken = s₀.tty.writeQ.taken ++ printed
  order : printed ++ s.tty.writeQ.ring.contents = s₀.tty.writeQ.ring.contents ++ echoed
  console : s.console = printed.foldl (feed v s₀.tty.termios) s₀.console

/-- A step prints the first character of the queue, or puts an echo into an empty one, or does
neither. -/
inductive Moves (v : Console.Video) (s s' : State) : Prop
  | none : s'.tty.termios = s.tty.termios → s'.tty.writeQ = s.tty.writeQ →
      s'.console = s.console → Moves v s s'
  | print : s'.tty.termios = s.tty.termios → s'.tty.writeQ = s.tty.writeQ.getch →
      s.tty.writeQ.ring.isEmpty = false →
      s'.console = feed v s.tty.termios s.console s.tty.writeQ.ring.first → Moves v s s'
  | echo {out : List Byte} : s'.tty.termios = s.tty.termios →
      s'.tty.writeQ = s.tty.writeQ.putAll out → s.tty.writeQ.ring.isEmpty = true →
      out.length ≤ 2 → s'.console = s.console → Moves v s s'

theorem putAll_accepted (q : TtyQueue) (cs : List Byte) :
    (q.putAll cs).accepted = q.accepted ++ cs := by
  induction cs generalizing q with
  | nil => exact (List.append_nil _).symm
  | cons c cs ih =>
      change ((q.putch c).putAll cs).accepted = _
      rw [ih, List.append_cons]
      rfl

theorem putAll_taken (q : TtyQueue) (cs : List Byte) : (q.putAll cs).taken = q.taken := by
  induction cs generalizing q with
  | nil => rfl
  | cons c cs ih => exact ih (q.putch c)

theorem Follows.moves (h : Follows v s₀ s echoed printed) (hm : Moves v s s') :
    ∃ echoed' printed', Follows v s₀ s' echoed' printed' := by
  cases hm with
  | none ht hw hc =>
      refine ⟨echoed, printed, ht.trans h.termios, ?_, ?_, ?_, hc.trans h.console⟩
      · rw [hw, h.accepted]
      · rw [hw, h.taken]
      · rw [hw, h.order]
  | print ht hw hne hc =>
      refine ⟨echoed, printed ++ [s.tty.writeQ.ring.first], ht.trans h.termios, ?_, ?_, ?_, ?_⟩
      · rw [hw]
        exact h.accepted
      · rw [hw, ← List.append_assoc, ← h.taken]
        rfl
      · rw [hw, ← h.order, Ring.contents_get hne, List.append_assoc]
        rfl
      · rw [hc, List.foldl_append, ← h.console, h.termios]
        rfl
  | @echo out ht hw hempty hlen hc =>
      refine ⟨echoed ++ out, printed, ht.trans h.termios, ?_, ?_, ?_, hc.trans h.console⟩
      · rw [hw, putAll_accepted, h.accepted, List.append_assoc]
      · rw [hw, putAll_taken, h.taken]
      · have horder := h.order
        rw [Ring.contents_eq_nil hempty, List.append_nil] at horder
        rw [hw, contents_putAll (by rw [left_of_empty hempty]; omega),
          Ring.contents_eq_nil hempty, List.nil_append, horder, List.append_assoc]

/-! ### The calls return -/

def charWeight (c : Byte) : Nat := if c = 90 then 81 else 10

def frameWeight : Frame → Nat
  | .store _ => 7
  | .kill => 5
  | _ => 1

def weigh (cs : List Byte) : Nat := (cs.map charWeight).sum

/-- It gets less with every step. A `Z` in the read queue may bring one more answer, and that has
seven characters. -/
def weight (v : Console.Video) (s : State) : Nat :=
  weigh s.tty.readQ.ring.contents + 5 * s.tty.secondary.ring.chars + s.tty.writeQ.ring.chars +
    71 * answers v s.tty.termios s.console s.tty.writeQ.ring.contents +
    (s.stack.map frameWeight).sum

theorem chars_putch_le (q : TtyQueue) (c : Byte) :
    (q.putch c).ring.chars ≤ q.ring.chars + 1 := by
  cases hfull : q.ring.isFull with
  | true =>
      have hempty : (q.putch c).ring.isEmpty = true := Ring.isEmpty_put hfull
      rw [Ring.chars_of_isEmpty hempty]
      exact Nat.zero_le _
  | false => exact Nat.le_of_eq (Ring.chars_put hfull)

theorem weigh_append (cs cs' : List Byte) : weigh (cs ++ cs') = weigh cs + weigh cs' := by
  rw [weigh, List.map_append, List.sum_append_nat, weigh, weigh]

theorem weigh_putAll_le (q : TtyQueue) (cs : List Byte) :
    weigh (q.putAll cs).ring.contents ≤ weigh q.ring.contents + weigh cs := by
  induction cs generalizing q with
  | nil => exact Nat.le_refl _
  | cons c cs ih =>
      have hput : weigh (q.putch c).ring.contents ≤ weigh q.ring.contents + weigh [c] := by
        cases hfull : q.ring.isFull with
        | true =>
            have hempty : (q.putch c).ring.isEmpty = true := Ring.isEmpty_put hfull
            rw [Ring.contents_eq_nil hempty]
            exact Nat.zero_le _
        | false =>
            have hcontents : (q.putch c).ring.contents = q.ring.contents ++ [c] :=
              Ring.contents_put hfull
            rw [hcontents, weigh_append]
      have hrest := ih (q.putch c)
      have hcons : weigh (c :: cs) = weigh [c] + weigh cs := weigh_append [c] cs
      change weigh ((q.putch c).putAll cs).ring.contents ≤ _
      omega

/-! ### The invariant -/

/-- The frames below a call of `copy_to_cooked` or `con_write`: each call of `con_write` there has
printed all of its characters, and the last was a `Z` that `copy_to_cooked` has echoed. -/
inductive Waiting (rest : List Frame) : List Frame → Prop
  | caller : Waiting rest rest
  | store (c : Byte) {l} : Waiting rest l → Waiting rest (.store c :: .conWrite 0 :: l)

/-- A frame of `copy_to_cooked`. It erases nothing where there is nothing. -/
def Cooks (t : Tty) : Frame → Prop
  | .conWrite _ => False
  | .erase => t.secondary.ring.isEmpty = false
  | .killDec => t.secondary.ring.isEmpty = false
  | _ => True

/-- `copy_to_cooked`, at `f`, goes on without an echo, and so will the answers to come. -/
def Quiet (v : Console.Video) (stray : Stray) (s : State) (f : Frame) : Prop :=
  s.tty.termios.lFlag ECHO = false ∨ f = .cook ∧ s.tty.secondary.ring.isFull = true ∨
    (f = .cook ∨ f = .kill ∧ atLineStart s.tty = true) ∧
      (∀ c ∈ s.tty.readQ.ring.contents, discarded stray s.tty c) ∧
      (0 < early v s → ∀ c ∈ RESPONSE, discarded stray s.tty c)

inductive Inv (v : Console.Video) (stray : Stray) (rest : List Frame) (s : State) : Prop
  | returned : s.stack = rest → Inv v stray rest s
  | write {n : Nat} {l : List Frame} : s.stack = .conWrite n :: l → Waiting rest l →
      n = s.tty.writeQ.ring.chars → Calm v stray s → Inv v stray rest s
  | cook {n : Nat} {f : Frame} {l : List Frame} : s.stack = f :: .conWrite n :: l →
      Waiting rest l → n = s.tty.writeQ.ring.chars → Cooks s.tty f →
      (n = 0 ∨ Quiet v stray s f) → Inv v stray rest s
  /-- The echo for a character that is erased is printed. -/
  | erase {n : Nat} {f : Frame} {l : List Frame} :
      s.stack = .conWrite n :: f :: .conWrite 0 :: l → Waiting rest l →
      n = s.tty.writeQ.ring.chars → Cooks s.tty f →
      answers v s.tty.termios s.console s.tty.writeQ.ring.contents = 0 → Inv v stray rest s

/-- What is to be shown of a step to `s'`. -/
structure Good (v : Console.Video) (stray : Stray) (rest : List Frame) (s s' : State) : Prop where
  inv : Inv v stray rest s'
  moves : Moves v s s'
  weight_lt : weight v s' < weight v s

/-! ### `con_write` goes on -/

theorem weight_frames {s' : State} (hread : s'.tty.readQ = s.tty.readQ)
    (hsecondary : s'.tty.secondary = s.tty.secondary) (hwrite : s'.tty.writeQ = s.tty.writeQ)
    (ht : s'.tty.termios = s.tty.termios) (hc : s'.console = s.console)
    (hstack : (s'.stack.map frameWeight).sum < (s.stack.map frameWeight).sum) :
    weight v s' < weight v s := by
  unfold weight
  rw [hread, hsecondary, hwrite, ht, hc]
  omega

/-- A call of `con_write` returns. -/
theorem good_pop (hs : s.stack = .conWrite 0 :: l) (hinv : Inv v stray rest { s with stack := l }) :
    Good v stray rest s { s with stack := l } := by
  refine ⟨hinv, .none rfl rfl rfl, weight_frames rfl rfl rfl rfl rfl ?_⟩
  change (l.map frameWeight).sum < (s.stack.map frameWeight).sum
  rw [hs, List.map_cons, List.sum_cons, frameWeight]
  · omega
  · nofun
  · nofun

theorem print_moves {n : Nat} (hne : s.tty.writeQ.ring.isEmpty = false) :
    Moves v s (conRound s v n l) :=
  .print conRound_termios conRound_writeQ hne conRound_console

/-- A character that is printed is gone, and so is the ESC Z it ends. -/
theorem weight_print {n : Nat} (hs : s.stack = .conWrite (n + 1) :: l)
    (hne : s.tty.writeQ.ring.isEmpty = false) :
    weight v (conRound s v n l) < weight v s := by
  have hcontents := Ring.contents_get hne
  have hchars : (conRound s v n l).tty.writeQ.ring.chars = s.tty.writeQ.ring.chars - 1 := by
    rw [conRound_writeQ]
    exact Ring.chars_get hne
  have hpos := Ring.chars_pos hne
  obtain ⟨-, hrest⟩ := conRound_contents (v := v) (l := l) (n := n) hcontents
  unfold weight
  rw [hs, hchars, hrest, conRound_termios, conRound_console, conRound_secondary, hcontents, answers]
  cases hanswer : responds s.console s.tty.writeQ.ring.first with
  | true =>
      obtain ⟨hstack, hread⟩ := conRound_answer (v := v) (l := l) (n := n) hanswer
      have hweigh := weigh_putAll_le s.tty.readQ RESPONSE
      have hseven : weigh RESPONSE = 70 := by decide
      rw [hstack, hread, if_pos rfl]
      simp only [List.map_cons, List.sum_cons, frameWeight]
      omega
  | false =>
      obtain ⟨hstack, hread⟩ := conRound_plain (v := v) (l := l) (n := n) hanswer
      rw [hstack, hread, if_neg (by decide)]
      simp only [List.map_cons, List.sum_cons, frameWeight]
      omega

/-- What `Calm` says once the character is printed: an answer that is not the last of the queue
is given without an echo. -/
theorem calm_print {n : Nat} {c : Byte} {cs : List Byte} (h : Calm v stray s)
    (hw : s.tty.writeQ.ring.contents = c :: cs) (hcs : cs ≠ []) :
    if responds s.console s.tty.writeQ.ring.first then Quiet v stray (conRound s v n l) .cook
    else Calm v stray (conRound s v n l) := by
  have hsplit := early_conRound (v := v) (l := l) (n := n) hw hcs
  have hsame : ∀ c, discarded stray (conRound s v n l).tty c = discarded stray s.tty c :=
    discarded_congr conRound_termios conRound_secondary
  unfold Quiet Calm
  rw [conRound_termios, conRound_secondary]
  rcases h with hecho | hfull | ⟨hfirst, hlater⟩
  · split
    · exact Or.inl hecho
    · exact Or.inl hecho
  · split
    · exact Or.inr (Or.inl ⟨rfl, hfull⟩)
    · exact Or.inr (Or.inl hfull)
  · change 0 < early v s → _ at hfirst
    change 1 < early v s → _ at hlater
    split at hsplit
    case isTrue hanswer =>
      rw [if_pos hanswer, (conRound_answer hanswer).2]
      exact Or.inr (Or.inr ⟨Or.inl rfl, fun c hc => (hsame c).trans (hfirst (by omega) c hc),
        fun hpos c hc => (hsame c).trans (hlater (by omega) c hc)⟩)
    case isFalse hanswer =>
      rw [if_neg hanswer, (conRound_plain (Bool.eq_false_iff.2 hanswer)).2]
      rw [Nat.zero_add] at hsplit
      rw [hsplit] at hfirst hlater
      have htermios := conRound_termios (v := v) (s := s) (n := n) (l := l)
      unfold early at hfirst hlater
      rw [htermios] at hfirst hlater
      exact Or.inr (Or.inr ⟨fun hpos c hc => (hsame c).trans (hfirst hpos c hc),
        fun hpos c hc => (hsame c).trans (hlater hpos c hc)⟩)

theorem calm_of_early {s : State} (h : early v s = 0) : Calm v stray s := by
  refine Or.inr (Or.inr ⟨fun hpos => ?_, fun hpos => ?_⟩)
  · change 0 < early v s at hpos
    omega
  · change 1 < early v s at hpos
    omega

/-- There is a character for each round of the loop. -/
theorem chars_print {n : Nat} (hnr : n + 1 = s.tty.writeQ.ring.chars) :
    s.tty.writeQ.ring.isEmpty = false ∧ n = (conRound s v n l).tty.writeQ.ring.chars := by
  have hne : s.tty.writeQ.ring.isEmpty = false := by
    rw [← Bool.not_eq_true]
    intro hempty
    rw [Ring.chars_of_isEmpty hempty] at hnr
    cases hnr
  have hget : s.tty.writeQ.getch.ring.chars = s.tty.writeQ.ring.chars - 1 := Ring.chars_get hne
  refine ⟨hne, ?_⟩
  rw [conRound_writeQ, hget, ← hnr]
  rfl

theorem good_write {n : Nat} (hs : s.stack = .conWrite n :: l) (hl : Waiting rest l)
    (hnr : n = s.tty.writeQ.ring.chars) (hcalm : Calm v stray s) :
    underflows s = false ∧
      ∃ s', exec ⟨.console v, stray⟩ s = .next s' ∧ Good v stray rest s s' := by
  unfold underflows
  rw [TtyQueues.exec, hs]
  cases n with
  | zero =>
      refine ⟨rfl, _, rfl, good_pop hs ?_⟩
      cases hl with
      | caller => exact .returned rfl
      | store c hl => exact .cook rfl hl hnr True.intro (Or.inl rfl)
  | succ n =>
      obtain ⟨hne, hlen⟩ := chars_print (v := v) (l := l) hnr
      have hcontents := Ring.contents_get hne
      refine ⟨hne, _, rfl, ?_, print_moves hne, weight_print hs hne⟩
      by_cases hcs : s.tty.writeQ.ring.get.contents = []
      · -- the last one: nothing is left for an echo to print
        have hrest := (conRound_contents (v := v) (l := l) (n := n) hcontents).2
        have hzero : n = 0 := by
          rw [hlen, ← Ring.length_contents, hrest, hcs]
          rfl
        cases hanswer : responds s.console s.tty.writeQ.ring.first with
        | true => exact .cook (conRound_answer hanswer).1 hl hlen True.intro (Or.inl hzero)
        | false =>
            refine .write (conRound_plain hanswer).1 hl hlen (calm_of_early ?_)
            rw [early, hrest, hcs]
            rfl
      · have hprint := calm_print (n := n) (l := l) hcalm hcontents hcs
        cases hanswer : responds s.console s.tty.writeQ.ring.first with
        | true =>
            rw [hanswer, if_pos rfl] at hprint
            exact .cook (conRound_answer hanswer).1 hl hlen True.intro (Or.inr hprint)
        | false =>
            rw [hanswer, if_neg (by decide)] at hprint
            exact .write (conRound_plain hanswer).1 hl hlen hprint

theorem Cooks.congr {t t' : Tty} {f : Frame} (h : Cooks t f) (hs : t'.secondary = t.secondary) :
    Cooks t' f := by
  cases f with
  | conWrite n => exact h
  | erase =>
      rw [Cooks, hs]
      exact h
  | killDec =>
      rw [Cooks, hs]
      exact h
  | cook => exact h
  | store c => exact h
  | kill => exact h

theorem good_erase {n : Nat} {f : Frame} (hs : s.stack = .conWrite n :: f :: .conWrite 0 :: l)
    (hl : Waiting rest l) (hnr : n = s.tty.writeQ.ring.chars) (hf : Cooks s.tty f)
    (hz : answers v s.tty.termios s.console s.tty.writeQ.ring.contents = 0) :
    underflows s = false ∧
      ∃ s', exec ⟨.console v, stray⟩ s = .next s' ∧ Good v stray rest s s' := by
  unfold underflows
  rw [TtyQueues.exec, hs]
  cases n with
  | zero => exact ⟨rfl, _, rfl, good_pop hs (.cook rfl hl hnr hf (Or.inl rfl))⟩
  | succ n =>
      obtain ⟨hne, hlen⟩ := chars_print (v := v) (l := f :: .conWrite 0 :: l) hnr
      have hcontents := Ring.contents_get hne
      obtain ⟨-, hrest⟩ := conRound_contents (v := v) (l := f :: .conWrite 0 :: l) (n := n)
        hcontents
      rw [hcontents, answers, Nat.add_eq_zero_iff] at hz
      have hanswer : responds s.console s.tty.writeQ.ring.first = false := by
        rw [← Bool.not_eq_true]
        intro hr
        rw [if_pos hr] at hz
        exact absurd hz.1 (by decide)
      refine ⟨hne, _, rfl, ?_, print_moves hne, weight_print hs hne⟩
      refine .erase (conRound_plain hanswer).1 hl hlen (hf.congr conRound_secondary) ?_
      rw [hrest, conRound_termios, conRound_console]
      exact hz.2

/-! ### `copy_to_cooked` goes on -/

theorem weight_echo {t : Tty} {out : List Byte} {f g : Frame} (hs : s.stack = g :: l)
    (hempty : s.tty.writeQ.ring.isEmpty = true) (ht : t.termios = s.tty.termios)
    (hw : t.writeQ = s.tty.writeQ) (hsecondary : t.secondary = s.tty.secondary)
    (hlen : out.length ≤ 2)
    (hlt : weigh t.readQ.ring.contents + 71 * answers v s.tty.termios s.console out +
      frameWeight f + 3 < weigh s.tty.readQ.ring.contents + frameWeight g) :
    weight v (doRound ⟨.console v, stray⟩ s l (.next t (some out) f)) < weight v s := by
  have hcontents : (t.writeQ.putAll out).ring.contents = out := by
    rw [hw, contents_putAll (by rw [left_of_empty hempty]; omega), Ring.contents_eq_nil hempty]
    rfl
  have hchars : (t.writeQ.putAll out).ring.chars = out.length := by
    rw [← Ring.length_contents, hcontents]
  have hold : answers v s.tty.termios s.console s.tty.writeQ.ring.contents = 0 := by
    rw [Ring.contents_eq_nil hempty]
    rfl
  change weigh t.readQ.ring.contents + 5 * t.secondary.ring.chars +
      (t.writeQ.putAll out).ring.chars + 71 * answers v t.termios s.console
        (t.writeQ.putAll out).ring.contents +
      (1 + (frameWeight f + (l.map frameWeight).sum)) < _
  unfold weight
  rw [hs, List.map_cons, List.sum_cons, hcontents, hchars, hold, ht, hsecondary,
    Ring.chars_of_isEmpty hempty]
  omega

theorem echo_moves {t : Tty} {out : List Byte} {f : Frame}
    (hempty : s.tty.writeQ.ring.isEmpty = true) (ht : t.termios = s.tty.termios)
    (hw : t.writeQ = s.tty.writeQ) (hlen : out.length ≤ 2) :
    Moves v s (doRound ⟨.console v, stray⟩ s l (.next t (some out) f)) :=
  .echo ht (congrArg (TtyQueue.putAll · out) hw) hempty hlen rfl

theorem weigh_get (hempty : s.tty.readQ.ring.isEmpty = false) {t : Tty} (htook : Took s.tty t) :
    weigh s.tty.readQ.ring.contents =
      charWeight s.tty.readQ.ring.first + weigh t.readQ.ring.contents := by
  rw [Ring.contents_get hempty, htook.readQ, weigh, List.map_cons, List.sum_cons, weigh]

theorem ten_le_charWeight (c : Byte) : 10 ≤ charWeight c := by
  unfold charWeight
  split
  · decide
  · exact Nat.le_refl 10

/-- A character is taken, and there is no echo. -/
theorem weight_took {t : Tty} {f g : Frame} (hs : s.stack = g :: l) (htook : Took s.tty t)
    (hempty : s.tty.readQ.ring.isEmpty = false) (hf : frameWeight f ≤ 7) :
    weight v { s with tty := t, stack := f :: l } < weight v s := by
  have hget := weigh_get hempty htook
  have hten := ten_le_charWeight s.tty.readQ.ring.first
  change weigh t.readQ.ring.contents + 5 * t.secondary.ring.chars + t.writeQ.ring.chars +
    71 * answers v t.termios s.console t.writeQ.ring.contents +
    (frameWeight f + (l.map frameWeight).sum) < _
  unfold weight
  rw [hs, List.map_cons, List.sum_cons, htook.secondary, htook.writeQ, htook.termios]
  omega

theorem took_moves {t : Tty} {st : List Frame} (htook : Took s.tty t) :
    Moves v s { s with tty := t, stack := st } :=
  .none htook.termios htook.writeQ rfl

/-- An echo for an erased character is going to be printed. -/
theorem good_eraseEcho {t : Tty} {f g : Frame} {n : Nat} (c : Byte)
    (hs : s.stack = g :: .conWrite n :: l) (hl : Waiting rest l) (hzero : n = 0)
    (hempty : s.tty.writeQ.ring.isEmpty = true) (ht : t.termios = s.tty.termios)
    (hw : t.writeQ = s.tty.writeQ) (hsecondary : t.secondary = s.tty.secondary)
    (hf : Cooks s.tty f)
    (hlt : weigh t.readQ.ring.contents + frameWeight f + 3 <
      weigh s.tty.readQ.ring.contents + frameWeight g) :
    Good v stray rest s
      (doRound ⟨.console v, stray⟩ s (.conWrite n :: l) (.next t (some (eraseEcho c)) f)) := by
  have hlen := length_eraseEcho c
  have hcontents : (t.writeQ.putAll (eraseEcho c)).ring.contents = eraseEcho c := by
    rw [hw, contents_putAll (by rw [left_of_empty hempty]; omega), Ring.contents_eq_nil hempty]
    rfl
  refine ⟨?_, echo_moves hempty ht hw hlen, weight_echo hs hempty ht hw hsecondary hlen ?_⟩
  · subst hzero
    refine .erase rfl hl rfl (hf.congr hsecondary) ?_
    change answers v t.termios s.console (t.writeQ.putAll (eraseEcho c)).ring.contents = 0
    rw [hcontents]
    exact answers_eraseEcho c
  · rw [answers_eraseEcho]
    exact hlt

/-- The echo of a character is going to be printed. -/
theorem good_echo {t : Tty} {n : Nat} {c' : Byte} (hs : s.stack = .cook :: .conWrite n :: l)
    (hl : Waiting rest l) (hzero : n = 0) (hempty : s.tty.writeQ.ring.isEmpty = true)
    (hread : s.tty.readQ.ring.isEmpty = false) (htook : Took s.tty t)
    (hz : s.tty.readQ.ring.first ≠ 90 → c' ≠ 90) :
    Good v stray rest s (doRound ⟨.console v, stray⟩ s (.conWrite n :: l)
      (.next t (some (echo s.tty.termios c')) (.store c'))) := by
  have hlen := length_echo s.tty.termios c'
  have hcontents : (t.writeQ.putAll (echo s.tty.termios c')).ring.contents =
      echo s.tty.termios c' := by
    rw [htook.writeQ, contents_putAll (by rw [left_of_empty hempty]; omega),
      Ring.contents_eq_nil hempty]
    rfl
  obtain ⟨hle, hearly⟩ := answers_echo v s.tty.termios s.console c'
  refine ⟨?_, echo_moves hempty htook.termios htook.writeQ hlen,
    weight_echo hs hempty htook.termios htook.writeQ htook.secondary hlen ?_⟩
  · subst hzero
    refine .write rfl (hl.store c') rfl (calm_of_early ?_)
    change answers v t.termios s.console
      (t.writeQ.putAll (echo s.tty.termios c')).ring.contents.dropLast = 0
    rw [hcontents, htook.termios]
    exact hearly
  · have hget := weigh_get hread htook
    have hchar : 71 * (if c' = 90 then 1 else 0) + 10 ≤ charWeight s.tty.readQ.ring.first := by
      unfold charWeight
      split
      case isTrue hc' =>
        rw [if_pos (Classical.not_not.1 fun hne => hz hne hc')]
      case isFalse => exact ten_le_charWeight _
    have hframes : frameWeight (.store c') = 7 ∧ frameWeight .cook = 1 := ⟨rfl, rfl⟩
    omega

/-- An empty write queue, or silence. -/
theorem quiet_cases {n : Nat} {f : Frame} (hnr : n = s.tty.writeQ.ring.chars)
    (h : n = 0 ∨ Quiet v stray s f) :
    n = 0 ∧ s.tty.writeQ.ring.isEmpty = true ∨ Quiet v stray s f := by
  refine h.imp_left fun hzero => ⟨hzero, ?_⟩
  rw [← Bool.not_eq_false]
  intro hne
  have hpos := Ring.chars_pos hne
  omega

theorem early_of_empty (h : s.tty.writeQ.ring.isEmpty = true) : early v s = 0 := by
  rw [early, Ring.contents_eq_nil h]
  rfl

theorem Quiet.drop {t : Tty} {f : Frame} {st : List Frame} (h : Quiet v stray s .cook)
    (hfull : s.tty.secondary.ring.isFull = false) (hempty : s.tty.readQ.ring.isEmpty = false)
    (htook : Took s.tty t) (hf : f = .cook ∨ f = .kill ∧ atLineStart s.tty = true) :
    Quiet v stray { s with tty := t, stack := st } f := by
  rcases h with hecho | ⟨-, hf'⟩ | ⟨-, hall, hlater⟩
  · refine Or.inl ?_
    change t.termios.lFlag ECHO = false
    rw [htook.termios]
    exact hecho
  · rw [hfull] at hf'
    cases hf'
  · have hsame : ∀ c, discarded stray t c = discarded stray s.tty c :=
      discarded_congr htook.termios htook.secondary
    have hearly : early v { s with tty := t, stack := st } = early v s :=
      early_congr htook.termios htook.writeQ rfl
    refine Or.inr (Or.inr ⟨?_, fun c hc => ?_, fun hpos c hc => ?_⟩)
    · refine hf.imp_right (And.imp_right fun hline => ?_)
      rw [← hline]
      exact atLineStart_congr htook.termios htook.secondary
    · refine (hsame c).trans (hall c ?_)
      rw [Ring.contents_get hempty]
      change c ∈ t.readQ.ring.contents at hc
      rw [htook.readQ] at hc
      exact List.mem_cons_of_mem _ hc
    · rw [hearly] at hpos
      exact (hsame c).trans (hlater hpos c hc)

/-- With an echo, a silent `copy_to_cooked` drops what it takes. -/
theorem Quiet.echo_off (h : Quiet v stray s .cook) (hempty : s.tty.readQ.ring.isEmpty = false)
    (hfull : s.tty.secondary.ring.isFull = false)
    (hdisc : discarded stray s.tty s.tty.readQ.ring.first = false) :
    s.tty.termios.lFlag ECHO = false := by
  rcases h with hecho | ⟨-, hf⟩ | ⟨-, hall, -⟩
  · exact hecho
  · rw [hfull] at hf
    cases hf
  · have hfirst := hall s.tty.readQ.ring.first (by
      rw [Ring.contents_get hempty]
      exact List.mem_cons_self)
    rw [hdisc] at hfirst
    cases hfirst

theorem quiet_off {t : Tty} {f : Frame} {st : List Frame} (ht : t.termios = s.tty.termios)
    (hecho : s.tty.termios.lFlag ECHO = false) :
    Quiet v stray { s with tty := t, stack := st } f := by
  refine Or.inl ?_
  change t.termios.lFlag ECHO = false
  rw [ht]
  exact hecho

theorem not_atLineStart {t : Tty} (h : atLineStart t = false) :
    t.secondary.ring.isEmpty = false := by
  rw [atLineStart, Bool.or_eq_false_iff] at h
  exact h.1

/-- `copy_to_cooked` returns. -/
theorem calm_leave (h : s.tty.writeQ.ring.isEmpty = true ∨ Quiet v stray s .cook)
    (hleave : s.tty.readQ.ring.isEmpty = true ∨ s.tty.secondary.ring.isFull = true) :
    Calm v stray { s with stack := l } := by
  rcases h with hempty | hecho | ⟨-, hfull⟩ | ⟨-, hall, hlater⟩
  · exact calm_of_early (early_of_empty hempty)
  · exact Or.inl hecho
  · exact Or.inr (Or.inl hfull)
  · rcases hleave with hread | hfull
    · refine Or.inr (Or.inr ⟨fun hpos => ?_, fun hpos => hlater (Nat.lt_of_succ_lt hpos)⟩)
      change ∀ c ∈ (s.tty.readQ.putAll RESPONSE).ring.contents, discarded stray s.tty c
      rw [contents_answer hread]
      exact hlater hpos
    · exact Or.inr (Or.inl hfull)

theorem good_cook {n : Nat} (hs : s.stack = .cook :: .conWrite n :: l) (hl : Waiting rest l)
    (hnr : n = s.tty.writeQ.ring.chars) (h : n = 0 ∨ Quiet v stray s .cook) :
    Good v stray rest s (doRound ⟨.console v, stray⟩ s (.conWrite n :: l)
      (cookRound stray s.tty)) := by
  have hq := quiet_cases hnr h
  by_cases hleave : s.tty.readQ.ring.isEmpty = true ∨ s.tty.secondary.ring.isFull = true
  · rw [cookRound_leave hleave]
    refine ⟨.write rfl hl hnr (calm_leave (hq.imp_left And.right) hleave), .none rfl rfl rfl,
      weight_frames rfl rfl rfl rfl rfl ?_⟩
    rw [hs]
    exact Nat.lt_add_of_pos_left Nat.one_pos
  · rw [not_or, Bool.not_eq_true, Bool.not_eq_true] at hleave
    obtain ⟨hempty, hfull⟩ := hleave
    have hcooked := cookRound_cases stray hempty hfull
    generalize cookRound stray s.tty = r at hcooked
    cases hcooked with
    | @drop t htook hdisc =>
        refine ⟨.cook rfl hl ?_ True.intro (h.imp_right (·.drop hfull hempty htook (Or.inl rfl))),
          took_moves htook, weight_took hs htook hempty (by decide)⟩
        rw [hnr, ← htook.writeQ]
        rfl
    | @killNone t htook hdisc hline =>
        refine ⟨.cook rfl hl ?_ True.intro
          (h.imp_right (·.drop hfull hempty htook (Or.inr ⟨rfl, hline⟩))),
          took_moves htook, weight_took hs htook hempty (by decide)⟩
        rw [hnr, ← htook.writeQ]
        rfl
    | @kill t htook hdisc hline =>
        refine ⟨.cook rfl hl ?_ True.intro (h.imp_right fun hquiet =>
          quiet_off htook.termios (hquiet.echo_off hempty hfull hdisc)),
          took_moves htook, weight_took hs htook hempty (by decide)⟩
        rw [hnr, ← htook.writeQ]
        rfl
    | @erase t htook hdisc hline =>
        have hsome := not_atLineStart hline
        cases hecho : s.tty.termios.lFlag ECHO with
        | true =>
            obtain ⟨hzero, hnone⟩ := hq.resolve_right fun hquiet => by
              rw [hquiet.echo_off hempty hfull hdisc] at hecho
              cases hecho
            refine good_eraseEcho _ hs hl hzero hnone htook.termios htook.writeQ htook.secondary
              hsome ?_
            have hget := weigh_get hempty htook
            have hten := ten_le_charWeight s.tty.readQ.ring.first
            have hframes : frameWeight .erase = 1 ∧ frameWeight .cook = 1 := ⟨rfl, rfl⟩
            omega
        | false =>
            refine ⟨.cook rfl hl ?_ (Cooks.congr (f := .erase) hsome htook.secondary)
              (Or.inr (quiet_off htook.termios hecho)),
              took_moves htook, weight_took hs htook hempty (by decide)⟩
            rw [hnr, ← htook.writeQ]
            rfl
    | @store t c' htook hdisc hz =>
        cases hecho : s.tty.termios.lFlag ECHO with
        | true =>
            obtain ⟨hzero, hnone⟩ := hq.resolve_right fun hquiet => by
              rw [hquiet.echo_off hempty hfull hdisc] at hecho
              cases hecho
            exact good_echo hs hl hzero hnone hempty htook hz
        | false =>
            refine ⟨.cook rfl hl ?_ True.intro (Or.inr (quiet_off htook.termios hecho)),
              took_moves htook, weight_took hs htook hempty (Nat.le_refl 7)⟩
            rw [hnr, ← htook.writeQ]
            rfl

/-- Behind an echo in `copy_to_cooked`: the secondary queue changes. -/
theorem good_secondary {n : Nat} {f g : Frame} {q : TtyQueue}
    (hs : s.stack = g :: .conWrite n :: l) (hl : Waiting rest l)
    (hnr : n = s.tty.writeQ.ring.chars) (h : n = 0 ∨ Quiet v stray s g) (hg : g ≠ .cook)
    (hg' : g ≠ .kill) (hf : Cooks { s.tty with secondary := q } f)
    (hlt : 5 * q.ring.chars + frameWeight f < 5 * s.tty.secondary.ring.chars + frameWeight g) :
    Good v stray rest s
      { s with tty := { s.tty with secondary := q }, stack := f :: .conWrite n :: l } := by
  refine ⟨.cook rfl hl hnr hf (h.imp_right fun hquiet => ?_), .none rfl rfl rfl, ?_⟩
  · rcases hquiet with hecho | ⟨hcook, -⟩ | ⟨hcook | ⟨hkill, -⟩, -⟩
    · exact quiet_off rfl hecho
    · exact absurd hcook hg
    · exact absurd hcook hg
    · exact absurd hkill hg'
  · change weigh s.tty.readQ.ring.contents + 5 * q.ring.chars + s.tty.writeQ.ring.chars +
      71 * answers v s.tty.termios s.console s.tty.writeQ.ring.contents +
      (frameWeight f + ((Frame.conWrite n :: l).map frameWeight).sum) < _
    unfold weight
    rw [hs, List.map_cons (f := frameWeight) (a := g), List.sum_cons (a := frameWeight g)]
    omega

theorem good_kill {n : Nat} (hs : s.stack = .kill :: .conWrite n :: l) (hl : Waiting rest l)
    (hnr : n = s.tty.writeQ.ring.chars) (h : n = 0 ∨ Quiet v stray s .kill) :
    Good v stray rest s (doRound ⟨.console v, stray⟩ s (.conWrite n :: l)
      (eraseRound s.tty .killDec)) := by
  cases hline : atLineStart s.tty with
  | true =>
      rw [eraseRound_end hline]
      refine ⟨.cook rfl hl hnr True.intro (h.imp_right fun hquiet => ?_), .none rfl rfl rfl,
        weight_frames rfl rfl rfl rfl rfl ?_⟩
      · rcases hquiet with hecho | ⟨hcook, -⟩ | ⟨-, hall, hlater⟩
        · exact Or.inl hecho
        · cases hcook
        · exact Or.inr (Or.inr ⟨Or.inl rfl, hall, hlater⟩)
      · rw [hs]
        exact Nat.add_lt_add_right (by decide) _
  | false =>
      rw [eraseRound_one hline]
      have hsome := not_atLineStart hline
      cases hecho : s.tty.termios.lFlag ECHO with
      | true =>
          obtain ⟨hzero, hnone⟩ := (quiet_cases hnr h).resolve_right fun hquiet => by
            rcases hquiet with hoff | ⟨hcook, -⟩ | ⟨hcook | ⟨-, hstart⟩, -⟩
            · rw [hecho] at hoff
              cases hoff
            · cases hcook
            · cases hcook
            · rw [hline] at hstart
              cases hstart
          refine good_eraseEcho _ hs hl hzero hnone rfl rfl rfl hsome ?_
          have hframes : frameWeight .killDec = 1 ∧ frameWeight .kill = 5 := ⟨rfl, rfl⟩
          omega
      | false =>
          refine ⟨.cook rfl hl hnr hsome (Or.inr (quiet_off rfl hecho)), .none rfl rfl rfl,
            weight_frames rfl rfl rfl rfl rfl ?_⟩
          rw [hs]
          exact Nat.add_lt_add_right (by decide) _

/-! ### A whole call -/

/-- Every step is a good one. -/
theorem Inv.exec (h : Inv v stray rest s) (hrest : s.stack ≠ rest) :
    underflows s = false ∧
      ∃ s', exec ⟨.console v, stray⟩ s = .next s' ∧ Good v stray rest s s' := by
  cases h with
  | returned hs => exact absurd hs hrest
  | write hs hl hnr hcalm => exact good_write hs hl hnr hcalm
  | erase hs hl hnr hf hz => exact good_erase hs hl hnr hf hz
  | @cook n f l hs hl hnr hf hquiet =>
      unfold underflows
      rw [TtyQueues.exec, hs]
      cases f with
      | conWrite n => exact hf.elim
      | cook => exact ⟨rfl, _, rfl, good_cook hs hl hnr hquiet⟩
      | kill => exact ⟨rfl, _, rfl, good_kill hs hl hnr hquiet⟩
      | store c =>
          have hput := chars_putch_le s.tty.secondary c
          have hframes : frameWeight .cook = 1 ∧ frameWeight (.store c) = 7 := ⟨rfl, rfl⟩
          exact ⟨rfl, _, rfl, good_secondary hs hl hnr hquiet Frame.noConfusion Frame.noConfusion True.intro (by omega)⟩
      | erase =>
          have hdec : s.tty.secondary.dec.ring.chars = s.tty.secondary.ring.chars - 1 :=
            Ring.chars_dec hf
          have hpos := Ring.chars_pos hf
          have hframes : frameWeight .cook = 1 ∧ frameWeight .erase = 1 := ⟨rfl, rfl⟩
          exact ⟨rfl, _, rfl, good_secondary hs hl hnr hquiet Frame.noConfusion Frame.noConfusion True.intro (by omega)⟩
      | killDec =>
          have hdec : s.tty.secondary.dec.ring.chars = s.tty.secondary.ring.chars - 1 :=
            Ring.chars_dec hf
          have hpos := Ring.chars_pos hf
          have hframes : frameWeight .kill = 5 ∧ frameWeight .killDec = 1 := ⟨rfl, rfl⟩
          exact ⟨rfl, _, rfl, good_secondary hs hl hnr hquiet Frame.noConfusion Frame.noConfusion True.intro (by omega)⟩

theorem Waiting.length_le (h : Waiting rest l) : rest.length ≤ l.length := by
  induction h with
  | caller => exact Nat.le_refl _
  | store c _ ih => exact Nat.le_add_right_of_le (Nat.le_add_right_of_le ih)

theorem Inv.length_lt (h : Inv v stray rest s) (hrest : s.stack ≠ rest) :
    rest.length < s.stack.length := by
  cases h with
  | returned hs => exact absurd hs hrest
  | write hs hl =>
      rw [hs]
      exact Nat.lt_succ_of_le hl.length_le
  | cook hs hl =>
      rw [hs]
      exact Nat.lt_succ_of_le (Nat.le_succ_of_le hl.length_le)
  | erase hs hl =>
      rw [hs]
      exact Nat.lt_succ_of_le (Nat.le_succ_of_le (Nat.le_succ_of_le hl.length_le))

/-- By induction on the weight: the call returns, and has printed what it should. -/
theorem Inv.returns (h : Inv v stray rest s) (hf : Follows v s₀ s echoed printed) :
    ∃ s' echoed' printed', Returns ⟨.console v, stray⟩ rest s s' ∧
      Follows v s₀ s' echoed' printed' := by
  generalize hn : weight v s = n
  induction n using Nat.strong_induction_on generalizing s echoed printed with
  | _ n ih =>
      by_cases hrest : s.stack = rest
      · exact ⟨s, echoed, printed, .done hrest, hf⟩
      · obtain ⟨hu, s₁, hstep, hgood⟩ := h.exec hrest
        obtain ⟨echoed₁, printed₁, hf₁⟩ := hf.moves hgood.moves
        obtain ⟨s', echoed', printed', hret, hf'⟩ :=
          ih (weight v s₁) (hn ▸ hgood.weight_lt) hgood.inv hf₁ rfl
        exact ⟨s', echoed', printed', .step (h.length_lt hrest) hu hstep hret, hf'⟩

theorem owes_call (v : Console.Video) (stray : Stray) (s : State) :
    Owes (pending s.stack) 0 (callWrite ⟨.console v, stray⟩ s) := by
  change pending s.stack + s.tty.writeQ.ring.chars + 0 ≤
    s.tty.writeQ.ring.chars + pending s.stack
  omega

/-- Silence is enough. -/
theorem prints_of_calm (h : Calm v stray s) : Prints v stray s := by
  have hinv : Inv v stray s.stack (callWrite ⟨.console v, stray⟩ s) :=
    .write rfl .caller rfl h
  have hstart : Follows v s (callWrite ⟨.console v, stray⟩ s) [] [] :=
    ⟨rfl, (List.append_nil _).symm, (List.append_nil _).symm, (List.append_nil _).symm, rfl⟩
  obtain ⟨s', echoed, printed, hret, hf⟩ := hinv.returns hstart
  have hempty := ((owes_call v stray s).returns hret).2
  have horder := hf.order
  rw [Ring.contents_eq_nil hempty, List.append_nil] at horder
  refine ⟨s', echoed, hret, hempty, hf.accepted, ?_, ?_⟩
  · rw [hf.taken, horder]
  · rw [hf.console, horder]

/-- And with an echo before the end, the call does not return. -/
theorem calm_of_prints (h : Prints v stray s) : Calm v stray s := by
  obtain ⟨s', echoed, hret, -⟩ := h
  by_contra hcalm
  simp only [Calm, not_or, Bool.not_eq_true, Bool.not_eq_false] at hcalm
  obtain ⟨hecho, hfull, hloud⟩ := hcalm
  refine Loud.not_returns (s := callWrite ⟨.console v, stray⟩ s) ?_ hecho hfull (owes_call v stray s) hret
  refine .write rfl rfl ?_
  have hheard : ∀ cs, ¬ (∀ c ∈ cs, discarded stray s.tty c = true) → Heard stray s.tty cs := by
    intro cs hnot
    simp only [not_forall, Bool.not_eq_true] at hnot
    obtain ⟨c, hc, hdisc⟩ := hnot
    exact ⟨c, hc, hdisc⟩
  rw [Classical.not_and_iff_not_or_not, Classical.not_imp, Classical.not_imp] at hloud
  exact hloud.imp (And.imp_right (hheard _)) (And.imp_right (hheard _))

/-- **`con_write` prints the characters of its queue, each one once and in order, takes none from
an empty queue and leaves it empty** exactly if each ESC Z but one at the end of the queue is
answered without an echo. -/
theorem prints_iff (v : Console.Video) (stray : Stray) (s : State) :
    Prints v stray s ↔ Calm v stray s :=
  ⟨calm_of_prints, prints_of_calm⟩

/-- ESC Z and one more character, with an echo. -/
def answerQueued : State :=
  { newConsole with
    tty := { consoleTty with writeQ := newQueue.putAll [27, 90, 120] } }

theorem not_prints : ¬ ∀ v stray s, Prints v stray s := by
  intro h
  have hcalm := calm_of_prints (h card.video ⟨fun _ => false, fun _ => false⟩ answerQueued)
  unfold Calm at hcalm
  revert hcalm
  decide

end LinuxKernel.V011.ConWrite
