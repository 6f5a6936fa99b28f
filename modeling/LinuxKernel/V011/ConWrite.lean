import LinuxKernel.V011.TtyOverrun

/-!
# LinuxKernel.V011.ConWrite

**One call of `con_write`** (`chr_drv/console.c`), with all that it calls: `respond`,
`copy_to_cooked`, and `con_write` again for each echo.

- `con_write` counts the characters of the write queue once, before its loop.
- Nothing else touches the terminal in the meantime. The read queue and the secondary queue
  hold anything, and so does the parser of escape sequences.
- What a call takes out of the write queue is what it prints.
-/

namespace LinuxKernel.V011.ConWrite

open TtyQueues
open LinuxKernel.V011.Tty (Termios VINTR VQUIT VERASE VKILL VSTART VSTOP ISIG ICANON ECHO ECHOCTL)

/-! ### A call -/

/-- `con_write` comes to a `GETCH` from an empty queue. -/
def underflows (s : State) : Bool :=
  match s.stack with
  | .conWrite (_ + 1) :: _ => s.tty.writeQ.ring.isEmpty
  | _ => false

/-- From `s` on, everything above `rest` on the stack returns, in `s'`. No character is taken
from an empty queue. -/
inductive Returns (m : Machine) (rest : List Frame) : State → State → Prop
  | done {s} : s.stack = rest → Returns m rest s s
  | step {s s₁ s'} : rest.length < s.stack.length → underflows s = false →
      exec m s = .next s₁ → Returns m rest s₁ s' → Returns m rest s s'

/-- A character is printed. -/
def feed (v : Console.Video) (t : Termios) (console : Console.State) (c : Byte) : Console.State :=
  Console.conByte v console (UInt8.ofBitVec (t.cCc VERASE)) (UInt8.ofBitVec c)

/-- `tty->write` returns, with the queue empty, and has printed what was in the queue and what
has been put there since, in this order. -/
def Prints (v : Console.Video) (stray : Stray) (s : State) : Prop :=
  let m : Machine := ⟨.console v, stray⟩
  ∃ s' echoed, Returns m s.stack (callWrite m s) s' ∧ s'.tty.writeQ.ring.isEmpty = true ∧
    s'.tty.writeQ.accepted = s.tty.writeQ.accepted ++ echoed ∧
    s'.tty.writeQ.taken = s.tty.writeQ.taken ++ (s.tty.writeQ.ring.contents ++ echoed) ∧
    s'.console =
      (s.tty.writeQ.ring.contents ++ echoed).foldl (feed v s.tty.termios) s.console

/-! ### When it does -/

/-- How many of the characters are the end of an ESC Z. -/
def answers (v : Console.Video) (t : Termios) : Console.State → List Byte → Nat
  | _, [] => 0
  | console, c :: cs =>
      (if responds console c then 1 else 0) + answers v t (feed v t console c) cs

/-- `copy_to_cooked` drops `c`, and echoes nothing. -/
def discarded (stray : Stray) (t : Tty) (c : Byte) : Bool :=
  match Tty.translate ⟨id, stray.upper⟩ t.termios c with
  | none => true
  | some c =>
      if t.termios.lFlag ICANON && (t.termios.isCc VKILL c || t.termios.isCc VERASE c) then
        atLineStart t
      else
        t.termios.lFlag ICANON && (t.termios.isCc VSTOP c || t.termios.isCc VSTART c) ||
          t.termios.lFlag ISIG && (t.termios.isCc VINTR c || t.termios.isCc VQUIT c)

/-- Each ESC Z but one at the end of the write queue is answered without an echo: there is no
`ECHO`, or the secondary queue is full, or `copy_to_cooked` drops all of the read queue. That is
what it holds already, with the answer, and from the second ESC Z on the answer alone. -/
def Calm (v : Console.Video) (stray : Stray) (s : State) : Prop :=
  let n := answers v s.tty.termios s.console s.tty.writeQ.ring.contents.dropLast
  s.tty.termios.lFlag ECHO = false ∨ s.tty.secondary.ring.isFull = true ∨
    (0 < n → ∀ c ∈ (s.tty.readQ.putAll RESPONSE).ring.contents, discarded stray s.tty c) ∧
      (1 < n → ∀ c ∈ RESPONSE, discarded stray s.tty c)

/-! ### Rounds of `copy_to_cooked` -/

section Rounds

variable {stray : Stray} {t t' : Tty} {c : Byte}

/-- A round takes the first character out of the read queue. -/
structure Took (t t' : Tty) : Prop where
  termios : t'.termios = t.termios
  writeQ : t'.writeQ = t.writeQ
  secondary : t'.secondary = t.secondary
  readQ : t'.readQ.ring = t.readQ.ring.get

/-- Where a round is through with the character `c`. -/
inductive Cooked (stray : Stray) (t : Tty) (c : Byte) : Round → Prop
  | drop {t' : Tty} : Took t t' → discarded stray t c = true → Cooked stray t c (.next t' none .cook)
  | killNone {t' : Tty} : Took t t' → discarded stray t c = true → atLineStart t = true →
      Cooked stray t c (.next t' none .kill)
  | kill {t' : Tty} : Took t t' → discarded stray t c = false → atLineStart t = false →
      Cooked stray t c (.next t' none .kill)
  | erase {t' : Tty} : Took t t' → discarded stray t c = false → atLineStart t = false →
      Cooked stray t c (.next t'
        (if t.termios.lFlag ECHO then some (eraseEcho t.secondary.ring.last) else none) .erase)
  | store {t' : Tty} (c' : Byte) : Took t t' → discarded stray t c = false → (c ≠ 90 → c' ≠ 90) →
      Cooked stray t c (.next t'
        (if t.termios.lFlag ECHO then some (echo t.termios c') else none) (.store c'))

/-- `tolower` makes no `Z`. -/
theorem tolower_ne_z {d : Tty.Driver} (hc : c ≠ 90) : Tty.tolower d c ≠ 90 := by
  by_cases hcolon : c = 58
  · subst hcolon
    simp [Tty.tolower]
  · have hsum : c + 32 ≠ 90 := by
      intro hz
      have h90 : (90 : Byte) = 58 + 32 := rfl
      rw [h90, BitVec.add_left_inj] at hz
      exact hcolon hz
    unfold Tty.tolower
    dsimp only
    split
    · split
      · exact hsum
      · exact hc
    · split
      · exact hsum
      · exact hc

theorem translate_ne_z {d : Tty.Driver} {t : Termios} {c' : Byte} (h : Tty.translate d t c = some c')
    (hc : c ≠ 90) : c' ≠ 90 := by
  have hline : ∀ c₁, (if c = 13 then
      if t.iFlag Tty.ICRNL then some 10 else if t.iFlag Tty.IGNCR then none else some c
    else if c = 10 && t.iFlag Tty.INLCR then some 13 else some c) = some c₁ → c₁ ≠ 90 := by
    intro c₁ h₁
    split at h₁
    · split at h₁
      · cases h₁
        decide
      · split at h₁
        · cases h₁
        · cases h₁
          exact hc
    · split at h₁
      · cases h₁
        decide
      · cases h₁
        exact hc
  unfold Tty.translate at h
  dsimp only at h
  split at h
  · obtain ⟨c₁, h₁, rfl⟩ := Option.map_eq_some_iff.1 h
    exact tolower_ne_z (hline c₁ h₁)
  · exact hline c' h

theorem cookRound_leave (h : t.readQ.ring.isEmpty = true ∨ t.secondary.ring.isFull = true) :
    cookRound stray t = .leave := by
  rw [cookRound, if_pos]
  rcases h with hempty | hfull
  · rw [hempty]
    rfl
  · rw [hfull, Bool.or_true]

theorem eraseRound_end {f : Frame} (h : atLineStart t = true) :
    eraseRound t f = .next t none .cook := by
  rw [eraseRound, if_pos h]

theorem eraseRound_one {f : Frame} (h : atLineStart t = false) : eraseRound t f =
    .next t (if t.termios.lFlag ECHO then some (eraseEcho t.secondary.ring.last) else none) f := by
  rw [eraseRound, if_neg (by rw [h]; decide)]

variable (stray) in
theorem cookRound_cases (hempty : t.readQ.ring.isEmpty = false)
    (hfull : t.secondary.ring.isFull = false) :
    Cooked stray t t.readQ.ring.first (cookRound stray t) := by
  have htook : Took t { t with readQ := t.readQ.getch } := ⟨rfl, rfl, rfl, rfl⟩
  unfold cookRound
  rw [if_neg (by rw [hempty, hfull]; decide)]
  dsimp only
  cases hc : Tty.translate ⟨id, stray.upper⟩ t.termios t.readQ.ring.first with
  | none => exact .drop htook (by rw [discarded, hc])
  | some c' =>
      have hdisc := discarded.eq_def stray t t.readQ.ring.first
      rw [hc] at hdisc
      dsimp only at hdisc ⊢
      -- the tests of `cookRound`, one after the other
      split
      case isTrue hkill =>
        rw [Bool.and_eq_true] at hkill
        rw [if_pos (by rw [hkill.1, hkill.2]; rfl)] at hdisc
        cases hline : atLineStart t with
        | true => exact .killNone htook (hdisc.trans hline) hline
        | false => exact .kill htook (hdisc.trans hline) hline
      case isFalse hkill =>
        split
        case isTrue herase =>
          rw [Bool.and_eq_true] at herase
          rw [if_pos (by rw [herase.1, herase.2, Bool.or_true]; rfl)] at hdisc
          cases hline : atLineStart t with
          | true =>
              rw [eraseRound_end (t := { t with readQ := t.readQ.getch }) hline]
              exact .drop htook (hdisc.trans hline)
          | false =>
              rw [eraseRound_one (t := { t with readQ := t.readQ.getch }) hline]
              exact .erase htook (hdisc.trans hline) hline
        case isFalse herase =>
          rw [if_neg (by grind)] at hdisc
          split
          case isTrue hstop =>
            exact .drop ⟨rfl, rfl, rfl, rfl⟩ (by grind)
          case isFalse hstop =>
            split
            case isTrue hstart =>
              exact .drop ⟨rfl, rfl, rfl, rfl⟩ (by grind)
            case isFalse hstart =>
              split
              case isTrue hsig => exact .drop htook (by grind)
              case isFalse hsig =>
                refine .store c' ?_ (by grind) (translate_ne_z hc)
                split
                · exact ⟨rfl, rfl, rfl, rfl⟩
                · exact htook

end Rounds

/-! ### What is left to print -/

/-- The characters that the calls of `con_write` are going to take. -/
def pending : List Frame → Nat
  | [] => 0
  | .conWrite n :: l => n + pending l
  | _ :: l => pending l

variable {v : Console.Video} {stray : Stray} {s s' : State} {rest l : List Frame} {k n : Nat}

/-- They are more than the queue has, by `k` at least, not counting the callers' `b`. -/
def Owes (b k : Nat) (s : State) : Prop := b + s.tty.writeQ.ring.chars + k ≤ pending s.stack

theorem pending_cons_le (f : Frame) (l : List Frame) : pending l ≤ pending (f :: l) := by
  cases f with
  | conWrite n => exact Nat.le_add_left ..
  | cook => exact Nat.le_refl _
  | store c => exact Nat.le_refl _
  | erase => exact Nat.le_refl _
  | kill => exact Nat.le_refl _
  | killDec => exact Nat.le_refl _

/-- An echo is printed with all that is in the queue. What was in it already is owed twice. -/
theorem owes_echo {b : Nat} (v : Console.Video) (stray : Stray) (t : Tty) (out : List Byte)
    (f : Frame) (h : b + s.tty.writeQ.ring.chars + k ≤ pending l) :
    Owes b (s.tty.writeQ.ring.chars + k)
      (doRound ⟨.console v, stray⟩ s l (.next t (some out) f)) := by
  have hle := pending_cons_le f l
  change b + (t.writeQ.putAll out).ring.chars + (s.tty.writeQ.ring.chars + k) ≤
    (t.writeQ.putAll out).ring.chars + pending (f :: l)
  omega

theorem owes_round {b : Nat} {r : Round} (hr : r.IsTame s.tty)
    (h : b + s.tty.writeQ.ring.chars + k ≤ pending l) :
    Owes b k (doRound ⟨.console v, stray⟩ s l r) := by
  cases r with
  | leave => exact h
  | next t out f =>
      cases out with
      | none =>
          have hle := pending_cons_le f l
          change b + t.writeQ.ring.chars + k ≤ pending (f :: l)
          rw [hr.writeQ]
          omega
      | some out =>
          have howes := owes_echo v stray t out f h
          unfold Owes at howes ⊢
          omega

theorem conRound_writeQ : (conRound s v n l).tty.writeQ = s.tty.writeQ.getch := by
  unfold conRound
  dsimp only
  split
  · rfl
  · rfl

theorem pending_conRound : pending (conRound s v n l).stack = n + pending l := by
  unfold conRound
  dsimp only
  split
  · rfl
  · rfl

/-- A step does not lessen what is owed. -/
theorem Owes.exec {b : Nat} (h : Owes b k s) (hu : underflows s = false)
    (hstep : exec ⟨.console v, stray⟩ s = .next s') : Owes b k s' := by
  unfold Owes at h
  cases hs : s.stack with
  | nil =>
      rw [TtyQueues.exec, hs] at hstep
      cases hstep
  | cons f l =>
      rw [hs] at h
      rw [TtyQueues.exec, hs] at hstep
      cases f with
      | cook =>
          cases hstep
          exact owes_round (cookRound_tame _ _) h
      | kill =>
          cases hstep
          exact owes_round (eraseRound_tame id rfl rfl nofun) h
      | erase =>
          cases hstep
          exact h
      | killDec =>
          cases hstep
          exact h
      | store c =>
          cases hstep
          exact h
      | conWrite n =>
          cases n with
          | zero =>
              cases hstep
              change b + s.tty.writeQ.ring.chars + k ≤ pending l
              have hpop : pending (.conWrite 0 :: l) = pending l := Nat.zero_add _
              omega
          | succ n =>
              rw [underflows, hs] at hu
              cases hstep
              have hget : s.tty.writeQ.getch.ring.chars = s.tty.writeQ.ring.chars - 1 :=
                Ring.chars_get hu
              have hpos := Ring.chars_pos hu
              have hnr : pending (.conWrite (n + 1) :: l) = n + 1 + pending l := rfl
              unfold Owes
              rw [conRound_writeQ, pending_conRound, hget]
              omega

/-- **A call of `con_write` that returns leaves an empty queue**, and nothing is owed. -/
theorem Owes.returns (h : Owes (pending rest) k s) (hret : Returns ⟨.console v, stray⟩ rest s s') :
    k = 0 ∧ s'.tty.writeQ.ring.isEmpty = true := by
  induction hret with
  | done hs =>
      unfold Owes at h
      rw [hs] at h
      refine ⟨by omega, ?_⟩
      rw [← Bool.not_eq_false]
      intro hne
      have hpos := Ring.chars_pos hne
      omega
  | step _ hu hstep _ ih => exact ih (h.exec hu hstep)

/-! ### One character -/

theorem conRound_secondary : (conRound s v n l).tty.secondary = s.tty.secondary := by
  unfold conRound
  dsimp only
  split
  · rfl
  · rfl

theorem conRound_termios : (conRound s v n l).tty.termios = s.tty.termios := by
  unfold conRound
  dsimp only
  split
  · rfl
  · rfl

theorem conRound_console : (conRound s v n l).console =
    feed v s.tty.termios s.console s.tty.writeQ.ring.first := by
  unfold conRound
  dsimp only
  split
  · rfl
  · rfl

theorem conRound_plain (h : responds s.console s.tty.writeQ.ring.first = false) :
    (conRound s v n l).stack = .conWrite n :: l ∧
      (conRound s v n l).tty.readQ = s.tty.readQ := by
  unfold conRound
  dsimp only
  rw [if_neg (by rw [h]; decide)]
  exact ⟨rfl, rfl⟩

theorem conRound_answer (h : responds s.console s.tty.writeQ.ring.first = true) :
    (conRound s v n l).stack = .cook :: .conWrite n :: l ∧
      (conRound s v n l).tty.readQ = s.tty.readQ.putAll RESPONSE := by
  unfold conRound
  dsimp only
  rw [if_pos h]
  exact ⟨rfl, rfl⟩

theorem conRound_contents {c : Byte} {cs : List Byte}
    (h : s.tty.writeQ.ring.contents = c :: cs) :
    s.tty.writeQ.ring.first = c ∧ (conRound s v n l).tty.writeQ.ring.contents = cs := by
  have hne : s.tty.writeQ.ring.isEmpty = false := by
    rw [Ring.isEmpty_eq, h]
    rfl
  have hget := Ring.contents_get hne
  rw [h] at hget
  obtain ⟨hfirst, hrest⟩ := List.cons_eq_cons.1 hget
  refine ⟨hfirst.symm, ?_⟩
  rw [conRound_writeQ]
  exact hrest.symm

/-- How many ESC Z there are in the write queue, but for one at its end. -/
def early (v : Console.Video) (s : State) : Nat :=
  answers v s.tty.termios s.console s.tty.writeQ.ring.contents.dropLast

/-- The first of the characters is printed. -/
theorem early_conRound {c : Byte} {cs : List Byte} (h : s.tty.writeQ.ring.contents = c :: cs)
    (hcs : cs ≠ []) : early v s =
      (if responds s.console s.tty.writeQ.ring.first then 1 else 0) +
        early v (conRound s v n l) := by
  obtain ⟨hfirst, hrest⟩ := conRound_contents (v := v) (l := l) (n := n) h
  unfold early
  rw [h, List.dropLast_cons_of_ne_nil hcs, hrest, conRound_termios, conRound_console, hfirst]
  rfl

/-! ### An echo while there is something left -/

/-- The echo of `copy_to_cooked` comes at one of these. -/
def Heard (stray : Stray) (t : Tty) (cs : List Byte) : Prop :=
  ∃ c ∈ cs, discarded stray t c = false

theorem atLineStart_congr {t t' : Tty} (ht : t'.termios = t.termios)
    (hs : t'.secondary = t.secondary) : atLineStart t' = atLineStart t := by
  rw [atLineStart, ht, hs, atLineStart]

theorem discarded_congr {t t' : Tty} (ht : t'.termios = t.termios)
    (hs : t'.secondary = t.secondary) (c : Byte) : discarded stray t' c = discarded stray t c := by
  unfold discarded TtyQueues.atLineStart
  rw [ht, hs]

theorem Heard.congr {t t' : Tty} {cs : List Byte} (h : Heard stray t cs)
    (ht : t'.termios = t.termios) (hs : t'.secondary = t.secondary) : Heard stray t' cs := by
  obtain ⟨c, hc, hdisc⟩ := h
  exact ⟨c, hc, (discarded_congr ht hs c).trans hdisc⟩

/-- In `copy_to_cooked` an echo is still to come. -/
def Rings (v : Console.Video) (stray : Stray) (s : State) : Prop :=
  Heard stray s.tty s.tty.readQ.ring.contents ∨ 0 < early v s ∧ Heard stray s.tty RESPONSE

/-- The ways to it, with characters left in the write queue. -/
inductive Loud (v : Console.Video) (stray : Stray) (s : State) : Prop
  | write {n : Nat} {l : List Frame} : s.stack = .conWrite n :: l → n = s.tty.writeQ.ring.chars →
      (0 < early v s ∧ Heard stray s.tty (s.tty.readQ.putAll RESPONSE).ring.contents ∨
        1 < early v s ∧ Heard stray s.tty RESPONSE) → Loud v stray s
  | cook {n : Nat} {l : List Frame} : s.stack = .cook :: .conWrite n :: l → n = s.tty.writeQ.ring.chars → 0 < n →
      Rings v stray s → Loud v stray s
  | kill {n : Nat} {l : List Frame} : s.stack = .kill :: .conWrite n :: l → n = s.tty.writeQ.ring.chars → 0 < n →
      (atLineStart s.tty = false ∨ Rings v stray s) → Loud v stray s

theorem contents_putAll {q : TtyQueue} {cs : List Byte} (h : cs.length ≤ q.ring.left) :
    (q.putAll cs).ring.contents = q.ring.contents ++ cs := by
  induction cs generalizing q with
  | nil => exact (List.append_nil _).symm
  | cons c cs ih =>
      rw [List.length_cons] at h
      have hfull : q.ring.isFull = false := by
        rw [← Bool.not_eq_true, TtyQueue.isFull_iff_left]
        omega
      have hleft : (q.putch c).ring.left = q.ring.left - 1 := Ring.left_put hfull
      have hput : (q.putch c).ring.contents = q.ring.contents ++ [c] := Ring.contents_put hfull
      change ((q.putch c).putAll cs).ring.contents = _
      rw [ih (by omega), hput, List.append_assoc]
      rfl

theorem left_of_empty {q : TtyQueue} (h : q.ring.isEmpty = true) : q.ring.left = 1023 := by
  have heq : q.ring.head = q.ring.tail := by
    rw [Ring.isEmpty, decide_eq_true_eq] at h
    exact h
  rw [Ring.left, heq, sub_self]
  rfl

theorem contents_answer {q : TtyQueue} (h : q.ring.isEmpty = true) :
    (q.putAll RESPONSE).ring.contents = RESPONSE := by
  rw [contents_putAll (by rw [left_of_empty h]; decide), Ring.contents_eq_nil h]
  rfl

theorem early_pos_split (h : 0 < early v s) :
    ∃ c cs, s.tty.writeQ.ring.contents = c :: cs ∧ cs ≠ [] := by
  unfold early at h
  cases hw : s.tty.writeQ.ring.contents with
  | nil =>
      rw [hw] at h
      cases h
  | cons c cs =>
      refine ⟨c, cs, rfl, fun hnil => ?_⟩
      rw [hw, hnil] at h
      cases h

theorem early_congr (ht : s'.tty.termios = s.tty.termios) (hw : s'.tty.writeQ = s.tty.writeQ)
    (hc : s'.console = s.console) : early v s' = early v s := by
  rw [early, ht, hw, hc, early]

/-- A character is dropped. -/
theorem Rings.drop {t : Tty} {st : List Frame} (h : Rings v stray s) (htook : Took s.tty t)
    (hempty : s.tty.readQ.ring.isEmpty = false)
    (hdisc : discarded stray s.tty s.tty.readQ.ring.first = true) :
    Rings v stray { s with tty := t, stack := st } := by
  have hearly : early v { s with tty := t, stack := st } = early v s :=
    early_congr htook.termios htook.writeQ rfl
  rcases h with ⟨c, hc, hloud⟩ | ⟨hpos, hheard⟩
  · refine Or.inl ⟨c, ?_, (discarded_congr htook.termios htook.secondary c).trans hloud⟩
    rw [Ring.contents_get hempty, List.mem_cons] at hc
    change c ∈ t.readQ.ring.contents
    rw [htook.readQ]
    refine hc.resolve_left fun hfirst => ?_
    rw [hfirst, hdisc] at hloud
    cases hloud
  · refine Or.inr ⟨?_, hheard.congr htook.termios htook.secondary⟩
    rw [hearly]
    exact hpos

/-- A step on the way, unless it is the one to the echo. -/
theorem Loud.exec {b : Nat} (h : Loud v stray s) (hecho : s.tty.termios.lFlag ECHO = true)
    (hfull : s.tty.secondary.ring.isFull = false) (howes : Owes b 0 s)
    (hstep : exec ⟨.console v, stray⟩ s = .next s') :
    (Loud v stray s' ∧ s'.tty.termios = s.tty.termios ∧ s'.tty.secondary = s.tty.secondary) ∨
      Owes b 1 s' := by
  cases h with
  | @write n l hs hnr hloud =>
      have hearly : 0 < early v s := by
        rcases hloud with ⟨h, -⟩ | ⟨h, -⟩
        · exact h
        · exact Nat.lt_of_succ_lt h
      obtain ⟨c, cs, hw, hcs⟩ := early_pos_split hearly
      have hlen : s.tty.writeQ.ring.chars = cs.length + 1 := by
        rw [← Ring.length_contents, hw, List.length_cons]
      rw [hnr, hlen] at hs
      rw [TtyQueues.exec, hs] at hstep
      cases hstep
      obtain ⟨-, hrest⟩ := conRound_contents (v := v) (l := l) (n := cs.length) hw
      have hchars : cs.length = (conRound s v cs.length l).tty.writeQ.ring.chars := by
        rw [← Ring.length_contents, hrest]
      have hsplit := early_conRound (v := v) (l := l) (n := cs.length) hw hcs
      have htermios := conRound_termios (v := v) (s := s) (l := l) (n := cs.length)
      have hsecondary := conRound_secondary (v := v) (s := s) (l := l) (n := cs.length)
      refine Or.inl ⟨?_, htermios, hsecondary⟩
      cases hanswer : responds s.console s.tty.writeQ.ring.first with
      | true =>
          obtain ⟨hstack, hread⟩ := conRound_answer (v := v) (l := l) (n := cs.length) hanswer
          rw [hanswer, if_pos rfl] at hsplit
          refine .cook hstack hchars (List.length_pos_iff.2 hcs) ?_
          rcases hloud with ⟨-, hheard⟩ | ⟨htwo, hheard⟩
          · refine Or.inl ?_
            rw [hread]
            exact hheard.congr htermios hsecondary
          · exact Or.inr ⟨by omega, hheard.congr htermios hsecondary⟩
      | false =>
          obtain ⟨hstack, hread⟩ := conRound_plain (v := v) (l := l) (n := cs.length) hanswer
          rw [hanswer, if_neg (by decide), Nat.zero_add] at hsplit
          refine .write hstack hchars ?_
          rw [hread, ← hsplit]
          exact hloud.imp (And.imp_right (·.congr htermios hsecondary))
            (And.imp_right (·.congr htermios hsecondary))
  | @cook n l hs hnr hpos hrings =>
      have howes' : b + s.tty.writeQ.ring.chars + 0 ≤ pending (.conWrite n :: l) := by
        rw [Owes, hs] at howes
        exact howes
      rw [TtyQueues.exec, hs] at hstep
      cases hstep
      cases hempty : s.tty.readQ.ring.isEmpty with
      | true =>
          rw [cookRound_leave (Or.inl hempty)]
          refine Or.inl ⟨.write rfl hnr (Or.inl ?_), rfl, rfl⟩
          rcases hrings with ⟨c, hc, -⟩ | hlater
          · rw [Ring.contents_eq_nil hempty] at hc
            cases hc
          · change 0 < early v s ∧ Heard stray s.tty (s.tty.readQ.putAll RESPONSE).ring.contents
            rw [contents_answer hempty]
            exact hlater
      | false =>
          have hcooked := cookRound_cases stray hempty hfull
          generalize hr : cookRound stray s.tty = r at hcooked
          have hmore : ∀ {t out f}, Owes b 1
              (doRound ⟨.console v, stray⟩ s (.conWrite n :: l) (.next t (some out) f)) := by
            intro t out f
            have hlate := owes_echo v stray t out f howes'
            unfold Owes at hlate ⊢
            omega
          cases hcooked with
          | drop htook hdisc =>
              refine Or.inl ⟨.cook rfl ?_ hpos (hrings.drop htook hempty hdisc), htook.termios,
                htook.secondary⟩
              rw [hnr, ← htook.writeQ]
              rfl
          | killNone htook hdisc hline =>
              refine Or.inl ⟨.kill rfl ?_ hpos (Or.inr (hrings.drop htook hempty hdisc)),
                htook.termios, htook.secondary⟩
              rw [hnr, ← htook.writeQ]
              rfl
          | kill htook hdisc hline =>
              refine Or.inl ⟨.kill rfl ?_ hpos (Or.inl ?_), htook.termios, htook.secondary⟩
              · rw [hnr, ← htook.writeQ]
                rfl
              · rw [← hline]
                exact atLineStart_congr htook.termios htook.secondary
          | erase htook hdisc hline =>
              rw [if_pos hecho]
              exact Or.inr hmore
          | store c' htook hdisc hz =>
              rw [if_pos hecho]
              exact Or.inr hmore
  | @kill n l hs hnr hpos hloud =>
      have howes' : b + s.tty.writeQ.ring.chars + 0 ≤ pending (.conWrite n :: l) := by
        rw [Owes, hs] at howes
        exact howes
      rw [TtyQueues.exec, hs] at hstep
      cases hstep
      cases hline : atLineStart s.tty with
      | true =>
          rw [eraseRound_end hline]
          rw [hline] at hloud
          exact Or.inl ⟨.cook rfl hnr hpos (hloud.resolve_left nofun), rfl, rfl⟩
      | false =>
          rw [eraseRound_one hline, if_pos hecho]
          have hlate := owes_echo v stray s.tty (eraseEcho s.tty.secondary.ring.last) .killDec howes'
          refine Or.inr ?_
          unfold Owes at hlate ⊢
          omega

theorem Loud.chars_pos (h : Loud v stray s) : 0 < s.tty.writeQ.ring.chars := by
  cases h with
  | write hs hnr hloud =>
      have hearly : 0 < early v s := by
        rcases hloud with ⟨h, -⟩ | ⟨h, -⟩
        · exact h
        · exact Nat.lt_of_succ_lt h
      obtain ⟨c, cs, hw, -⟩ := early_pos_split hearly
      rw [← Ring.length_contents, hw, List.length_cons]
      exact Nat.succ_pos _
  | cook hs hnr hpos hrings => exact hnr ▸ hpos
  | kill hs hnr hpos hloud => exact hnr ▸ hpos

/-- **With an echo to come while there are characters left, the call does not return** before it
takes a character from an empty queue. -/
theorem Loud.not_returns (h : Loud v stray s) (hecho : s.tty.termios.lFlag ECHO = true)
    (hfull : s.tty.secondary.ring.isFull = false) (howes : Owes (pending rest) 0 s) :
    ¬ Returns ⟨.console v, stray⟩ rest s s' := by
  intro hret
  induction hret with
  | done hs =>
      have hpos := h.chars_pos
      rw [Owes, hs] at howes
      omega
  | step hlen hu hstep hrest ih =>
      rcases h.exec hecho hfull howes hstep with ⟨hloud, ht, hs⟩ | hmore
      · rw [← ht] at hecho
        rw [← hs] at hfull
        exact ih hloud hecho hfull (howes.exec hu hstep)
      · exact absurd (hmore.returns hrest).1 (by decide)

end LinuxKernel.V011.ConWrite
