import LinuxKernel.V011.TtyQueues

/-!
# LinuxKernel.V011.TtyOverrun

**No queue of a terminal is overrun** as long as there is room for what is put into it
without a test: the echo of a character, the answer to ESC Z, and what comes behind a
test that has been overtaken.

The receive interrupts test before they put. On a serial line the test of
`copy_to_cooked` cannot be overtaken either, so nothing is asked there (`Steady`).
-/

namespace LinuxKernel.V011.TtyQueues

/-! ### One queue -/

theorem dropLast_sublist_of_concat {α : Type} {l l' : List α} {a : α}
    (h : List.Sublist l (l' ++ [a])) : List.Sublist l.dropLast l' := by
  obtain ⟨l₁, l₂, rfl, h₁, h₂⟩ := List.sublist_append_iff.1 h
  cases h₂ with
  | cons _ hnil =>
      rw [List.sublist_nil.1 hnil, List.append_nil]
      exact (List.dropLast_sublist _).trans h₁
  | cons_cons _ hnil =>
      rw [List.sublist_nil.1 hnil, List.dropLast_concat]
      exact h₁

namespace TtyQueue

variable {q : TtyQueue} {c : Byte} {cs : List Byte}

/-- The queue has never been overrun, and nothing it has accepted is lost. -/
structure Kept (q : TtyQueue) : Prop where
  room : q.overrun = false
  order : List.Sublist q.accepted (q.taken ++ q.ring.contents)

theorem isFull_iff_left : q.ring.isFull = true ↔ q.ring.left = 0 := decide_eq_true_iff

theorem Kept.putch (h : Kept q) (hfull : q.ring.isFull = false) : Kept (q.putch c) where
  room := by
    change (q.overrun || q.ring.isFull) = false
    rw [h.room, hfull]
    rfl
  order := by
    change List.Sublist (q.accepted ++ [c]) (q.taken ++ (q.ring.put c).contents)
    rw [Ring.contents_put hfull, ← List.append_assoc]
    exact h.order.append_right [c]

/-- Once overrun, a queue stays so. -/
theorem overrun_putAll (h : q.overrun = true) : (q.putAll cs).overrun = true := by
  induction cs generalizing q with
  | nil => exact h
  | cons c cs ih =>
      refine ih (q := q.putch c) ?_
      change (q.overrun || q.ring.isFull) = true
      rw [h]
      rfl

variable (cs) in
/-- A queue takes as many characters as there is room for. -/
theorem Kept.putAll_iff (h : Kept q) : Kept (q.putAll cs) ↔ cs.length ≤ q.ring.left := by
  induction cs generalizing q with
  | nil => exact ⟨fun _ => Nat.zero_le _, fun _ => h⟩
  | cons c cs ih =>
      change Kept ((q.putch c).putAll cs) ↔ cs.length + 1 ≤ q.ring.left
      cases hfull : q.ring.isFull with
      | true =>
          rw [isFull_iff_left.1 hfull]
          refine ⟨fun hk => ?_, fun hle => absurd hle (Nat.not_succ_le_zero _)⟩
          have hover : ((q.putch c).putAll cs).overrun = true := by
            refine overrun_putAll ?_
            change (q.overrun || q.ring.isFull) = true
            rw [hfull, Bool.or_true]
          rw [hk.room] at hover
          cases hover
      | false =>
          have hleft : q.ring.left ≠ 0 := by
            intro h0
            rw [isFull_iff_left.2 h0] at hfull
            cases hfull
          have hput : (q.putch c).ring.left = q.ring.left - 1 := Ring.left_put hfull
          rw [ih (h.putch hfull), hput]
          omega

theorem Kept.putch_iff (h : Kept q) : Kept (q.putch c) ↔ q.ring.isFull = false := by
  refine ⟨fun hk => ?_, h.putch⟩
  have hroom := hk.room
  change (q.overrun || q.ring.isFull) = false at hroom
  rw [h.room, Bool.false_or] at hroom
  exact hroom

theorem Kept.getch (h : Kept q) : Kept q.getch where
  room := h.room
  order := by
    change List.Sublist q.accepted (q.taken ++ [q.ring.first] ++ q.ring.get.contents)
    cases hempty : q.ring.isEmpty with
    | true =>
        have horder := h.order
        rw [Ring.contents_eq_nil hempty, List.append_nil] at horder
        rw [List.append_assoc]
        exact horder.trans (List.sublist_append_left _ _)
    | false =>
        rw [List.append_assoc, List.singleton_append, ← Ring.contents_get hempty]
        exact h.order

theorem Kept.dec (h : Kept q) : Kept q.dec where
  room := h.room
  order := by
    change List.Sublist q.accepted.dropLast (q.taken ++ q.ring.dec.contents)
    have horder := h.order
    cases hempty : q.ring.isEmpty with
    | true =>
        rw [Ring.contents_eq_nil hempty, List.append_nil] at horder
        exact ((List.dropLast_sublist _).trans horder).trans (List.sublist_append_left _ _)
    | false =>
        rw [Ring.contents_dec hempty, ← List.append_assoc] at horder
        exact dropLast_sublist_of_concat horder

/-- The interrupts test before they put. -/
theorem Kept.receive (h : Kept q) : Kept (q.receive cs) := by
  unfold TtyQueue.receive
  split
  case isTrue hle => exact (h.putAll_iff _).2 hle
  case isFalse => exact h

end TtyQueue

/-! ### The three queues -/

/-- No `PUTCH` has found a queue full, and nothing accepted is lost. -/
structure Intact (t : Tty) : Prop where
  readQ : t.readQ.Kept
  writeQ : t.writeQ.Kept
  secondary : t.secondary.Kept

/-- There is room for the echo of a round. -/
def EchoFits (t : Tty) : Round → Prop
  | .next _ (some out) _ => out.length ≤ t.writeQ.ring.left
  | _ => True

/-- There is room for what the step puts without a test, or behind a test that has been
overtaken since. -/
def Room (m : Machine) (s : State) : Op → Prop
  | .exec =>
      match s.stack with
      | .cook :: _ => EchoFits s.tty (cookRound m.stray s.tty)
      | .kill :: _ => EchoFits s.tty (eraseRound s.tty .killDec)
      | .store _ :: _ => m.kind = .serial ∨ s.tty.secondary.ring.isFull = false
      | .conWrite (_ + 1) :: _ =>
          responds s.console s.tty.writeQ.ring.first → RESPONSE.length ≤ s.tty.readQ.ring.left
      | _ => True
  | .goOn t _ _ =>
      match s.writer t with
      | some ⟨_, .byte⟩ => s.tty.writeQ.ring.isFull = false
      | _ => True
  | _ => True

/-- On a serial line there is one frame at most, and the test of `copy_to_cooked` still
holds when the character is stored. -/
def Steady (m : Machine) (s : State) : Prop :=
  m.kind = .serial → s.stack = [] ∨
    ∃ f, s.stack = [f] ∧ ∀ c, f = .store c → s.tty.secondary.ring.isFull = false

structure Sound (m : Machine) (s : State) : Prop where
  intact : Intact s.tty
  steady : Steady m s

/-! ### Rounds -/

section Rounds

variable {m : Machine} {s s' : State} {t t' : Tty} {r : Round} {f : Frame} {rest : List Frame}
  {out : Option (List Byte)}

/-- Up to `tty->write`, a round does not touch the write and the secondary queue, and it
stores no character when there is no room for one. -/
structure Tame (t t' : Tty) (f : Frame) : Prop where
  readQ : t.readQ.Kept → t'.readQ.Kept
  writeQ : t'.writeQ = t.writeQ
  secondary : t'.secondary = t.secondary
  store : ∀ c, f = .store c → t.secondary.ring.isFull = false

def Round.IsTame (t : Tty) : Round → Prop
  | .leave => True
  | .next t' _ f => Tame t t' f

theorem eraseRound_tame (h : t.readQ.Kept → t'.readQ.Kept) (hw : t'.writeQ = t.writeQ)
    (hs : t'.secondary = t.secondary) (hf : ∀ c, f ≠ .store c) :
    (eraseRound t' f).IsTame t := by
  unfold eraseRound
  split
  · exact ⟨h, hw, hs, nofun⟩
  · exact ⟨h, hw, hs, fun c hc => absurd hc (hf c)⟩

theorem storeRound_tame {c : Byte} (h : t.readQ.Kept → t'.readQ.Kept) (hw : t'.writeQ = t.writeQ)
    (hs : t'.secondary = t.secondary) (hfull : t.secondary.ring.isFull = false) :
    (storeRound t' c).IsTame t := by
  unfold storeRound
  split
  · exact ⟨h, hw, hs, fun _ _ => hfull⟩
  · exact ⟨h, hw, hs, fun _ _ => hfull⟩

theorem Round.isTame_ite {p : Prop} [Decidable p] {r r' : Round} (h : r.IsTame t)
    (h' : r'.IsTame t) : (if p then r else r').IsTame t := by
  split
  · exact h
  · exact h'

theorem cookRound_tame (stray : Stray) (t : Tty) : (cookRound stray t).IsTame t := by
  unfold cookRound
  split
  case isTrue => exact True.intro
  case isFalse hgo =>
    have hfull : t.secondary.ring.isFull = false := by
      rw [Bool.or_eq_true, not_or] at hgo
      exact Bool.eq_false_iff.2 hgo.2
    have hread : t.readQ.Kept → t.readQ.getch.Kept := TtyQueue.Kept.getch
    dsimp only
    split
    · exact ⟨hread, rfl, rfl, nofun⟩
    · refine Round.isTame_ite ⟨hread, rfl, rfl, nofun⟩ ?_
      refine Round.isTame_ite (eraseRound_tame hread rfl rfl nofun) ?_
      refine Round.isTame_ite ⟨hread, rfl, rfl, nofun⟩ ?_
      refine Round.isTame_ite ⟨hread, rfl, rfl, nofun⟩ ?_
      refine Round.isTame_ite ⟨hread, rfl, rfl, nofun⟩ ?_
      exact storeRound_tame hread rfl rfl hfull

theorem callWrite_tty : (callWrite m s).tty = s.tty := by
  unfold callWrite
  split
  · rfl
  · split
    · rfl
    · rfl

/-- A round keeps the queues exactly when there is room for its echo. -/
theorem doRound_intact (h : Intact s.tty) (hr : r.IsTame s.tty) :
    Intact (doRound m s rest r).tty ↔ EchoFits s.tty r := by
  cases r with
  | leave => exact ⟨fun _ => True.intro, fun _ => h⟩
  | next t' out f =>
      have hread := hr.readQ h.readQ
      have hsecondary : t'.secondary.Kept := hr.secondary ▸ h.secondary
      have hwrite : t'.writeQ.Kept := hr.writeQ ▸ h.writeQ
      cases out with
      | none => exact ⟨fun _ => True.intro, fun _ => ⟨hread, hwrite, hsecondary⟩⟩
      | some out =>
          unfold doRound
          rw [callWrite_tty]
          have hput := hwrite.putAll_iff out
          rw [hr.writeQ] at hput
          refine ⟨fun hi => hput.1 ?_, fun hf => ⟨hread, ?_, hsecondary⟩⟩
          · rw [← hr.writeQ]
            exact hi.writeQ
          · change (t'.writeQ.putAll out).Kept
            rw [hr.writeQ]
            exact hput.2 hf

theorem doRound_steady (hr : r.IsTame s.tty) (hrest : m.kind = .serial → rest = []) :
    Steady m (doRound m s rest r) := by
  intro hm
  cases r with
  | leave => exact Or.inl (hrest hm)
  | next t' out f =>
      have hstore : ∀ c, f = .store c → t'.secondary.ring.isFull = false := fun c hc => by
        rw [hr.secondary]
        exact hr.store c hc
      refine Or.inr ⟨f, ?_⟩
      cases out with
      | none =>
          refine ⟨?_, hstore⟩
          rw [hrest hm]
          rfl
      | some out =>
          unfold doRound
          rw [callWrite_tty]
          refine ⟨?_, hstore⟩
          unfold callWrite
          rw [hm]
          dsimp only
          rw [hrest hm]
          split
          · rfl
          · rfl

/-- What `con_write` prints is taken out of its queue, and there has to be room for the answer. -/
theorem conRound_intact {v : Console.Video} {nr : Nat} (h : Intact s.tty) :
    Intact (conRound s v nr rest).tty ↔
      (responds s.console s.tty.writeQ.ring.first → RESPONSE.length ≤ s.tty.readQ.ring.left) := by
  unfold conRound
  dsimp only
  split
  case isTrue hr =>
    have hput := h.readQ.putAll_iff RESPONSE
    exact ⟨fun hi _ => hput.1 hi.readQ, fun hroom =>
      ⟨hput.2 (hroom hr), h.writeQ.getch, h.secondary⟩⟩
  case isFalse hr =>
    exact ⟨fun _ hr' => absurd hr' hr, fun _ => ⟨h.readQ, h.writeQ.getch, h.secondary⟩⟩

/-- `putByte` puts one character, whichever. -/
theorem putByte_intact {task : Task} {nr : Nat} {c : Byte} (h : Intact s.tty) :
    Intact (putByte m s task nr c).tty ↔ s.tty.writeQ.ring.isFull = false := by
  have hput : ∀ c', (s.tty.writeQ.putch c').Kept ↔ s.tty.writeQ.ring.isFull = false := fun c' =>
    h.writeQ.putch_iff
  unfold putByte
  dsimp only
  split
  · exact ⟨fun hi => (hput _).1 hi.writeQ, fun hf => ⟨h.readQ, (hput _).2 hf, h.secondary⟩⟩
  · exact ⟨fun hi => (hput _).1 hi.writeQ, fun hf => ⟨h.readQ, (hput _).2 hf, h.secondary⟩⟩

theorem putByte_stack {task : Task} {nr : Nat} {c : Byte} :
    (putByte m s task nr c).stack = s.stack := by
  unfold putByte
  dsimp only
  split
  · rfl
  · rfl

/-! ### Steps -/

/-- What a step does to the condition of the run: with room it keeps everything, and without
it a queue is overrun. -/
def Decides (m : Machine) (s s' : State) (op : Op) : Prop :=
  Steady m s' ∧ (Intact s'.tty ↔ Room m s op)

theorem Sound.exec (h : Sound m s) (hstep : exec m s = .next s') : Decides m s s' .exec := by
  have hi := h.intact
  unfold TtyQueues.exec at hstep
  unfold Decides Room
  dsimp only
  cases hstack : s.stack with
  | nil =>
      rw [hstack] at hstep
      cases hstep
  | cons f rest =>
      rw [hstack] at hstep
      -- a serial line has this one frame only
      have hserial : m.kind = .serial → rest = [] ∧
          ∀ c, f = .store c → s.tty.secondary.ring.isFull = false := fun hm => by
        rcases h.steady hm with hnil | ⟨f', hf', hstore⟩
        · rw [hstack] at hnil
          cases hnil
        · rw [hstack] at hf'
          obtain ⟨rfl, rfl⟩ := List.cons.inj hf'
          exact ⟨rfl, hstore⟩
      have hrest : m.kind = .serial → rest = [] := fun hm => (hserial hm).1
      have hone : ∀ {g : Frame} {t' : Tty}, (∀ c, g ≠ .store c) →
          Steady m { s with tty := t', stack := g :: rest } := fun hg hm =>
        Or.inr ⟨_, by rw [hrest hm], fun c hc => absurd hc (hg c)⟩
      cases f with
      | cook =>
          cases hstep
          exact ⟨doRound_steady (cookRound_tame _ _) hrest, doRound_intact hi (cookRound_tame _ _)⟩
      | kill =>
          cases hstep
          have htame : (eraseRound s.tty .killDec).IsTame s.tty :=
            eraseRound_tame id rfl rfl nofun
          exact ⟨doRound_steady htame hrest, doRound_intact hi htame⟩
      | erase =>
          cases hstep
          exact ⟨hone nofun, fun _ => True.intro, fun _ => ⟨hi.readQ, hi.writeQ, hi.secondary.dec⟩⟩
      | killDec =>
          cases hstep
          exact ⟨hone nofun, fun _ => True.intro, fun _ => ⟨hi.readQ, hi.writeQ, hi.secondary.dec⟩⟩
      | store c =>
          cases hstep
          refine ⟨hone nofun, fun hi' => Or.inr (hi.secondary.putch_iff.1 hi'.secondary),
            fun hroom => ⟨hi.readQ, hi.writeQ, hi.secondary.putch ?_⟩⟩
          rcases hroom with hm | hfull
          · exact (hserial hm).2 c rfl
          · exact hfull
      | conWrite nr =>
          cases nr with
          | zero =>
              cases hstep
              exact ⟨fun hm => Or.inl (hrest hm), fun _ => True.intro, fun _ => hi⟩
          | succ nr =>
              dsimp only at hstep
              split at hstep
              case h_1 v hm =>
                cases hstep
                refine ⟨fun hm' => ?_, conRound_intact hi⟩
                rw [hm] at hm'
                cases hm'
              case h_2 => cases hstep

/-- On a serial line nothing else goes on before the handler is through. -/
theorem stack_of_mayRun (hm : m.kind = .serial) (hrun : mayRun m s = true) : s.stack = [] := by
  unfold mayRun at hrun
  rw [hm] at hrun
  exact List.isEmpty_iff.1 hrun

theorem steady_of_stack (hrun : mayRun m s = true) (hstack : s'.stack = s.stack) :
    Steady m s' :=
  fun hm => Or.inl (hstack.trans (stack_of_mayRun hm hrun))

theorem callWrite_steady (hrun : mayRun m s = true) (hstack : s'.stack = s.stack) :
    Steady m (callWrite m s') := by
  intro hm
  unfold callWrite
  rw [hm]
  dsimp only
  split
  · exact steady_of_stack hrun hstack hm
  · exact steady_of_stack hrun hstack hm

theorem Sound.goOn (h : Sound m s) {task : Task} {w : Writer} (hw : s.writer task = some w)
    {signal : Bool} {c : Byte} (hrun : mayRun m s = true)
    (hstep : goOn m s task w signal c = .next s') : Decides m s s' (.goOn task signal c) := by
  have hi := h.intact
  have hset : ∀ w', Steady m (setWriter s task w') ∧ Intact (setWriter s task w').tty :=
    fun w' => ⟨steady_of_stack hrun rfl, hi⟩
  obtain ⟨nr, pc⟩ := w
  unfold Decides Room
  dsimp only
  rw [hw]
  unfold TtyQueues.goOn at hstep
  cases pc with
  | head =>
      dsimp only at hstep
      split at hstep
      · cases hstep
        exact ⟨(hset _).1, fun _ => True.intro, fun _ => hi⟩
      split at hstep
      · cases hstep
        exact ⟨(hset _).1, fun _ => True.intro, fun _ => hi⟩
      split at hstep
      · cases hstep
        exact ⟨(hset _).1, fun _ => True.intro, fun _ => hi⟩
      · cases hstep
        exact ⟨(hset _).1, fun _ => True.intro, fun _ => hi⟩
  | asleep =>
      dsimp only at hstep
      split at hstep
      · cases hstep
        exact ⟨(hset _).1, fun _ => True.intro, fun _ => hi⟩
      split at hstep
      · cases hstep
      · cases hstep
        exact ⟨(hset _).1, fun _ => True.intro, fun _ => hi⟩
  | inner =>
      dsimp only at hstep
      split at hstep
      · cases hstep
        exact ⟨(hset _).1, fun _ => True.intro, fun _ => hi⟩
      · cases hstep
        refine ⟨callWrite_steady hrun rfl, fun _ => True.intro, fun _ => ?_⟩
        rw [callWrite_tty]
        exact hi
  | byte =>
      cases hstep
      exact ⟨steady_of_stack hrun putByte_stack, putByte_intact hi⟩

theorem Sound.step (h : Sound m s) {op : Op} (hstep : step m s op = .next s') :
    Decides m s s' op := by
  have hi := h.intact
  unfold TtyQueues.step at hstep
  cases op with
  | received cs =>
      dsimp only at hstep
      split at hstep
      case isTrue hrun =>
        cases hstep
        refine ⟨fun hm => Or.inr ⟨.cook, ?_, nofun⟩, fun _ => True.intro, fun _ =>
          ⟨hi.readQ.receive, hi.writeQ, hi.secondary⟩⟩
        change Frame.cook :: s.stack = _
        rw [stack_of_mayRun hm (Bool.and_eq_true_iff.1 hrun).1]
      case isFalse => cases hstep
  | exec => exact h.exec hstep
  | transmit =>
      dsimp only at hstep
      split at hstep
      case isTrue hrun =>
        cases hstep
        unfold transmitStep
        split
        · exact ⟨steady_of_stack (Bool.and_eq_true_iff.1 hrun).1 rfl, fun _ => True.intro,
            fun _ => hi⟩
        · exact ⟨steady_of_stack (Bool.and_eq_true_iff.1 hrun).1 rfl, fun _ => True.intro,
            fun _ => ⟨hi.readQ, hi.writeQ.getch, hi.secondary⟩⟩
      case isFalse => cases hstep
  | write t nr =>
      dsimp only at hstep
      split at hstep
      case isTrue hrun =>
        cases hstep
        exact ⟨steady_of_stack (Bool.and_eq_true_iff.1 hrun).1 rfl, fun _ => True.intro,
          fun _ => hi⟩
      case isFalse => cases hstep
  | goOn t signal c =>
      dsimp only at hstep
      cases hw : s.writer t with
      | none =>
          rw [hw] at hstep
          cases hstep
      | some w =>
          rw [hw] at hstep
          dsimp only at hstep
          split at hstep
          case isTrue hrun => exact h.goOn hw hrun hstep
          case isFalse => cases hstep
  | read =>
      dsimp only at hstep
      split at hstep
      case isTrue hrun =>
        unfold readStep at hstep
        split at hstep
        · cases hstep
        · cases hstep
          exact ⟨steady_of_stack hrun rfl, fun _ => True.intro, fun _ =>
            ⟨hi.readQ, hi.writeQ, hi.secondary.getch⟩⟩
      case isFalse => cases hstep
  | setTermios t =>
      dsimp only at hstep
      split at hstep
      case isTrue hrun =>
        cases hstep
        exact ⟨steady_of_stack hrun rfl, fun _ => True.intro, fun _ =>
          ⟨hi.readQ, hi.writeQ, hi.secondary⟩⟩
      case isFalse => cases hstep
  | otherWriter crFlag =>
      cases hstep
      exact ⟨h.steady, fun _ => True.intro, fun _ => hi⟩

end Rounds

/-! ### Runs -/

/-- Empty queues, and nobody at work. -/
structure Init (s : State) : Prop where
  readQ : s.tty.readQ.ring.isEmpty = true ∧ s.tty.readQ.accepted = [] ∧ s.tty.readQ.overrun = false
  writeQ : s.tty.writeQ.ring.isEmpty = true ∧ s.tty.writeQ.accepted = [] ∧
    s.tty.writeQ.overrun = false
  secondary : s.tty.secondary.ring.isEmpty = true ∧ s.tty.secondary.accepted = [] ∧
    s.tty.secondary.overrun = false
  stack : s.stack = []

theorem kept_of_new {q : TtyQueue}
    (h : q.ring.isEmpty = true ∧ q.accepted = [] ∧ q.overrun = false) : q.Kept := by
  refine ⟨h.2.2, ?_⟩
  rw [h.2.1]
  exact List.nil_sublist _

theorem Init.sound {m : Machine} {s : State} (h : Init s) : Sound m s :=
  ⟨⟨kept_of_new h.readQ, kept_of_new h.writeQ, kept_of_new h.secondary⟩,
    fun _ => Or.inl h.stack⟩

/-- **No queue is overrun**, and nothing accepted is lost, in every state of a run, exactly
when all its steps find room. -/
theorem intact_iff (m : Machine) {s s' : State} (h : Init s) {ops : List Op}
    (hrun : run (step m) s ops = .next s') :
    (∀ pre, pre <+: ops → ∀ u, run (step m) s pre = .next u → Intact u.tty) ↔
      RunOk (step m) (Room m) s ops :=
  RunOk.iff_prefixes_of (P := Sound m) (Q := fun u => Intact u.tty) (fun _ hs => hs.intact)
    (fun _ _ _ hs hstep =>
      have hd := hs.step hstep
      ⟨fun hroom => ⟨hd.2.2 hroom, hd.1⟩, hd.2.1⟩) h.sound hrun

/-! ### Concrete runs -/

def newQueue : TtyQueue := ⟨⟨fun _ => 0, 0, 0⟩, [], [], false⟩

/-- `INIT_C_CC`. -/
def INIT_C_CC (i : Fin 17) : Byte :=
  [3, 28, 127, 21, 4, 0, 1, 0, 17, 19, 26, 0, 18, 15, 23, 22, 0].getD i 0

/-- The console of `tty_table`. -/
def consoleTty : Tty where
  termios := ⟨Tty.ICRNL, OPOST ||| ONLCR, 0,
    Tty.ISIG ||| Tty.ICANON ||| Tty.ECHO ||| Tty.ECHOCTL, 0, INIT_C_CC⟩
  stopped := false
  readQ := newQueue
  writeQ := newQueue
  secondary := newQueue
  data := 0

/-- A colour card with 80 columns. -/
def card : Console.Boot := ⟨0, 5, 3, 80, 0⟩

def newConsole : State :=
  ⟨consoleTty, Console.conInit card fun _ => 0, false, [], fun _ => none, false⟩

def consoleMachine : Machine := ⟨.console card.video, ⟨fun _ => false, fun _ => false⟩⟩

theorem init_newConsole : Init newConsole :=
  ⟨⟨by decide, rfl, rfl⟩, ⟨by decide, rfl, rfl⟩, ⟨by decide, rfl, rfl⟩, rfl⟩

/-- `tty_write` of one character. -/
def writeOne (c : Byte) : List Op := [.goOn 0 false 0, .goOn 0 false c]

/-- A key is typed, and echoed. -/
def keyRun : List Op := [.received [97], .exec, .exec, .exec, .exec, .exec]

theorem intact_iff_keyRun :
    (∀ pre, pre <+: keyRun → ∀ u, run (step consoleMachine) newConsole pre = .next u →
      Intact u.tty) ↔ RunOk (step consoleMachine) (Room consoleMachine) newConsole keyRun :=
  intact_iff consoleMachine init_newConsole
    (Outcome.eq_next (by decide) newConsole)

/-- ESC Z and one more character are written, and then a key is typed: the echo of the answer
takes the character from the `con_write` that gives the answer, which then takes one that
is not there. -/
def answerRun : List Op :=
  [.write 0 3, .goOn 0 false 0] ++ writeOne 27 ++ writeOne 90 ++ writeOne 120 ++
    [.goOn 0 false 0] ++ List.replicate 35 .exec ++ [.received [97], .exec]

theorem not_intact : ∃ u, run (step consoleMachine) newConsole answerRun = .next u ∧
    ¬ Intact u.tty := by
  refine ⟨(run (step consoleMachine) newConsole answerRun).get newConsole,
    Outcome.eq_next (by decide) newConsole, fun h => ?_⟩
  have hroom := h.writeQ.room
  revert hroom
  decide

end LinuxKernel.V011.TtyQueues
