import LinuxKernel.V098.Net.TcpWords

/-!
# LinuxKernel.V098.Net.SeqShift

**A connection and the same connection with other numbers.** `shift c` adds `c` to every
sequence number.

- Where each comparison that a call makes is of numbers at a steady distance, the call decides
  alike on both.
- Elsewhere a segment far beyond the window can be let in, just because the numbers are about to
  wrap.
-/

namespace LinuxKernel.V098.Net.SeqWords

open TcpRcv (Sent)

/-! ### Shifts -/

def Header.shift (c : Word) (th : Header) : Header :=
  { th with seq := th.seq + c, ackSeq := th.ackSeq + c }

def Skb.shift (c : Word) (e : Skb) : Skb := { e with seq := e.seq + c, ackSeq := e.ackSeq + c }

def Segment.shift (c : Word) (x : Segment) : Segment := { x with seq := x.seq + c }

def Out.shift (c : Word) : Out → Out
  | ack seq ackSeq => ack (seq + c) (ackSeq + c)
  | segment x => segment (x.shift c)
  | retransmit x => retransmit (x.shift c)

def Sock.shift (c : Word) (s : Sock) : Sock :=
  { s with
    sendSeq := s.sendSeq + c
    ackedSeq := s.ackedSeq + c
    copiedSeq := s.copiedSeq + c
    rcvAckSeq := s.rcvAckSeq + c
    windowSeq := s.windowSeq + c
    finSeq := s.finSeq + c
    rqueue := s.rqueue.map (Skb.shift c)
    sendQueue := s.sendQueue.map (Segment.shift c)
    writeQueue := s.writeQueue.map (Segment.shift c)
    out := s.out.map (Out.shift c) }

/-! ### The comparisons that a call makes -/

def SteadyBetween (seq1 seq2 seq3 : Word) : Prop :=
  Steady seq2 (seq1 + 1) ∧ (before seq2 (seq1 + 1) = true → Steady seq1 (seq3 + 1))

structure SteadySequence (s : Sock) (th : Header) (len : Int) : Prop where
  start : SteadyBetween th.seq s.ackedSeq (s.ackedSeq + s.window)
  last : between th.seq s.ackedSeq (s.ackedSeq + s.window) = false →
    SteadyBetween (lastSeq th len) (s.ackedSeq + 1) (s.ackedSeq + s.window)
  far : inWindow s th len = false → Steady (s.ackedSeq + s.window) th.seq
  late : inWindow s th len = false → tooFar s th = false → th.ack = true → len = th.doff * 4 →
    Steady (s.ackedSeq - 4096) th.seq

/-- The segments up to the first one that is not before `seq`. -/
def SteadyRun (seq : Word) : List Segment → Prop
  | [] => True
  | x :: l => Steady x.seq seq ∧ (before x.seq seq = true → SteadyRun seq l)

structure SteadyAck (s : Sock) (th : Header) : Prop where
  ack : SteadyBetween th.ackSeq s.rcvAckSeq s.sendSeq
  beyond : between th.ackSeq s.rcvAckSeq s.sendSeq = false → Steady s.sendSeq th.ackSeq
  sends : between th.ackSeq s.rcvAckSeq s.sendSeq = true → SteadyRun (th.ackSeq + 1) s.sendQueue
  writes : between th.ackSeq s.rcvAckSeq s.sendSeq = true →
    SteadyRun (th.ackSeq + th.window) s.writeQueue

/-- The segments from the last one of the ring back. -/
def SteadyBack (seq : Word) : List Skb → Prop
  | [] => True
  | e :: l => Steady e.seq (seq + 1) ∧ (before e.seq (seq + 1) = false → SteadyBack seq l)

/-- The segments behind the new one. -/
def SteadyNext (ackedSeq : Word) : List Skb → Prop
  | [] => True
  | e :: l =>
      Steady e.seq (ackedSeq + 1) ∧ (before e.seq (ackedSeq + 1) = true → SteadyNext e.ackSeq l)

structure SteadyData (s : Sock) (th : Header) (len : Int) : Prop where
  back : SteadyBack th.seq s.rqueue.reverse
  copied : Steady s.ackedSeq s.copiedSeq
  due : Steady th.seq ((catchUp s).ackedSeq + 1)
  next : before th.seq ((catchUp s).ackedSeq + 1) = true →
    SteadyNext (newSkb th len).ackSeq (behind s.rqueue th.seq)

/-- The segment goes on the ring. -/
def Queues (s : Sock) (th : Header) (len : Int) : Prop :=
  ¬ (len - th.doff * 4 = 0 ∧ !th.fin ∧ !th.urg ∧ !th.psh) ∧ s.rcvShutdown = false

variable {s : Sock} {th : Header} {len : Int} {r : Sent} {c x y z a : Word} {l q : List Skb}

/-! ### Comparisons -/

theorem add_shift (x y c : Word) : x + c + y = x + y + c := add_right_comm x c y

theorem Steady.shift (h : Steady x (y + z)) (c : Word) :
    before (x + c) (y + c + z) = before x (y + z) := by
  rw [add_shift, h.before_shift]

theorem SteadyBetween.shift (h : SteadyBetween x y z) (c : Word) :
    between (x + c) (y + c) (z + c) = between x y z := by
  unfold between after
  rw [h.1.shift c]
  cases hfirst : before y (x + 1) with
  | false => rfl
  | true => rw [(h.2 hfirst).shift c]

/-- Both branches are shifted, and the test comes out alike. -/
theorem ite_shift {α β : Type} {f : α → β} {p p' : Prop} [Decidable p] [Decidable p'] {t e : α}
    {t' e' : β} (h : p' ↔ p) (ht : p → t' = f t) (he : ¬ p → e' = f e) :
    (if p' then t' else e') = f (if p then t else e) := by
  by_cases hp : p
  · rw [if_pos hp, if_pos (h.mpr hp), ht hp]
  · rw [if_neg hp, if_neg (mt h.mp hp), he hp]

/-! ### `tcp_send_ack` and `tcp_sequence` -/

theorem tcpSendAck_shift (s : Sock) (x y : Word) (r : Sent) (c : Word) :
    tcpSendAck (s.shift c) (x + c) (y + c) r = (tcpSendAck s x y r).shift c := by
  cases r with
  | noMemory => rfl
  | noRoute => rfl
  | sent space =>
      exact ite_shift (add_left_inj c) (fun _ => rfl) fun _ => rfl

theorem lastSeq_shift : lastSeq (th.shift c) len = lastSeq th len + c := add_shift _ _ _

theorem SteadySequence.inWindow_shift (h : SteadySequence s th len) (c : Word) :
    inWindow (s.shift c) (th.shift c) len = inWindow s th len := by
  have hstart : between (th.seq + c) (s.ackedSeq + c) (s.ackedSeq + c + s.window) =
      between th.seq s.ackedSeq (s.ackedSeq + s.window) := by
    rw [add_shift]
    exact h.start.shift c
  unfold inWindow
  rw [lastSeq_shift]
  change (between (th.seq + c) (s.ackedSeq + c) (s.ackedSeq + c + s.window) ||
    between (lastSeq th len + c) (s.ackedSeq + c + 1) (s.ackedSeq + c + s.window)) = _
  rw [hstart]
  cases hfirst : between th.seq s.ackedSeq (s.ackedSeq + s.window) with
  | true => rfl
  | false =>
      rw [add_shift s.ackedSeq 1, add_shift s.ackedSeq s.window, (h.last hfirst).shift c]

theorem SteadySequence.tooFar_shift (h : SteadySequence s th len) (hout : inWindow s th len = false)
    (c : Word) : tooFar (s.shift c) (th.shift c) = tooFar s th := by
  change before (s.ackedSeq + c + s.window) (th.seq + c) = before (s.ackedSeq + s.window) th.seq
  rw [add_shift, (h.far hout).before_shift]

theorem SteadySequence.lateAck_shift (h : SteadySequence s th len)
    (hout : inWindow s th len = false) (hnear : tooFar s th = false) (c : Word) :
    lateAck (s.shift c) (th.shift c) len = lateAck s th len := by
  have hsub : s.ackedSeq + c - 4096 = s.ackedSeq - 4096 + c := add_sub_right_comm _ _ _
  change (th.ack && len = th.doff * 4 && before (s.ackedSeq + c - 4096) (th.seq + c) &&
    !th.fin && !th.syn) = _
  rw [hsub]
  cases hack : th.ack with
  | false => simp [lateAck, hack]
  | true =>
      by_cases hlen : len = th.doff * 4
      · rw [(h.late hout hnear hack hlen).before_shift]
        unfold lateAck after
        rw [hack]
      · simp [lateAck, hlen]

/-- The decision of `tcp_sequence` and what it leaves are the same, but for the shift. -/
theorem SteadySequence.tcpSequence_shift (h : SteadySequence s th len) (r : Sent) (c : Word) :
    tcpSequence (s.shift c) (th.shift c) len r =
      (tcpSequence s th len r).map id (Sock.shift c) := by
  unfold tcpSequence
  rw [h.inWindow_shift]
  cases hin : inWindow s th len with
  | true => rfl
  | false =>
      rw [h.tooFar_shift hin]
      cases hfar : tooFar s th with
      | true => exact congrArg (Prod.mk false) (tcpSendAck_shift s s.sendSeq s.ackedSeq r c)
      | false =>
          rw [h.lateAck_shift hin hfar]
          refine congrArg (Prod.mk (lateAck s th len)) ?_
          refine ite_shift Iff.rfl (fun _ => rfl) fun _ => ?_
          rw [← tcpSendAck_shift]
          exact congrArg (tcpSendAck · _ _ r) (ite_shift Iff.rfl (fun _ => rfl) fun _ => rfl)

/-! ### `tcp_ack` -/

theorem SteadyRun.takeAcked_shift (c : Word) {ack : Word} :
    ∀ {l : List Segment} {n : Nat}, SteadyRun (ack + 1) l →
      takeAcked (ack + c) (l.map (Segment.shift c)) n =
        ((takeAcked ack l n).1.map (Segment.shift c), (takeAcked ack l n).2)
  | [], _, _ => rfl
  | x :: l, n, h => by
      have hshift : before (x.seq + c) (ack + c + 1) = before x.seq (ack + 1) := h.1.shift c
      rw [List.map_cons, takeAcked, takeAcked]
      change (if before (x.seq + c) (ack + c + 1) then _ else _) = _
      rw [hshift]
      cases hbefore : before x.seq (ack + 1) with
      | false => rfl
      | true => exact takeAcked_shift c (h.2 hbefore)

theorem queueXmit_shift (s : Sock) (x : Segment) (c : Word) :
    queueXmit (s.shift c) (x.shift c) = (queueXmit s x).shift c := by
  refine ite_shift Iff.rfl (fun _ => rfl) fun _ => ?_
  unfold Sock.shift
  rw [List.map_append]
  rfl

theorem queueXmit_windowSeq (s : Sock) (x : Segment) : (queueXmit s x).windowSeq = s.windowSeq := by
  unfold queueXmit
  cases x.free <;> rfl

theorem SteadyRun.writeXmit_shift (c : Word) :
    ∀ {l : List Segment} {s : Sock}, SteadyRun s.windowSeq l →
      writeXmit (l.map (Segment.shift c)) (s.shift c) = (writeXmit l s).shift c
  | [], _, _ => rfl
  | x :: l, s, h => by
      have hshift : before (x.shift c).seq (s.shift c).windowSeq = before x.seq s.windowSeq :=
        h.1.before_shift c
      rw [List.map_cons, writeXmit, writeXmit]
      refine ite_shift (and_congr_left' (by rw [hshift])) (fun hgo => ?_) fun _ => rfl
      rw [queueXmit_shift]
      refine writeXmit_shift c ?_
      rw [queueXmit_windowSeq]
      exact h.2 hgo.1

theorem ipRetransmit_shift (c : Word) (congWindow : Nat) :
    ∀ (l : List Segment) (n : Int), ipRetransmit congWindow (l.map (Segment.shift c)) n =
      (ipRetransmit congWindow l n).map (Segment.shift c)
  | [], _ => rfl
  | x :: l, n => by
      rw [List.map_cons, ipRetransmit, ipRetransmit, ipRetransmit_shift c congWindow l]
      split <;> rfl

theorem retransmit_shift (s : Sock) (c : Word) :
    retransmit (s.shift c) = (retransmit s).shift c := by
  have hempty : (s.shift c).sendQueue ≠ [] ↔ s.sendQueue ≠ [] := not_congr List.map_eq_nil_iff
  refine ite_shift (and_congr_right' hempty) (fun _ => ?_) fun _ => rfl
  have hout : (ipRetransmit (s.shift c).congWindow (s.shift c).sendQueue
        (s.shift c).retransmits).reverse.map Out.retransmit ++ (s.shift c).out =
      ((ipRetransmit s.congWindow s.sendQueue s.retransmits).reverse.map Out.retransmit ++
        s.out).map (Out.shift c) := by
    have hsent := ipRetransmit_shift c s.congWindow s.sendQueue s.retransmits
    rw [List.map_append, List.map_map]
    change (ipRetransmit s.congWindow (s.sendQueue.map (Segment.shift c)) s.retransmits).reverse.map
      Out.retransmit ++ _ = _
    rw [hsent, ← List.map_reverse, List.map_map]
    rfl
  rw [hout]
  rfl

theorem tryXmit_shift (h : SteadyRun s.windowSeq s.writeQueue) (c : Word) :
    tryXmit (s.shift c) = (tryXmit s).shift c := by
  have hqueue : (s.shift c).writeQueue = s.writeQueue.map (Segment.shift c) := rfl
  unfold tryXmit
  rw [hqueue]
  cases hwrites : s.writeQueue with
  | nil => rfl
  | cons x l =>
      rw [hwrites] at h
      have hshift : after (s.shift c).windowSeq (x.shift c).seq = after s.windowSeq x.seq :=
        h.1.before_shift c
      refine ite_shift (and_congr_right' (by rw [hshift])) (fun _ => ?_) fun _ => rfl
      exact h.writeXmit_shift c

theorem ackTimeWait_shift (s : Sock) (c : Word) :
    ackTimeWait (s.shift c) = (ackTimeWait s).shift c :=
  ite_shift Iff.rfl (fun _ => rfl) fun _ => rfl

theorem ackFinWait_shift (s : Sock) (c : Word) :
    ackFinWait (s.shift c) = (ackFinWait s).shift c :=
  ite_shift (and_congr_right' (add_left_inj c)) (fun _ => rfl) fun _ => rfl

theorem ackLast_shift (s : Sock) (c : Word) : ackLast (s.shift c) = (ackLast s).shift c :=
  ite_shift (and_congr_right' (add_left_inj c))
    (fun _ => ite_shift (not_congr (add_left_inj c)) (fun _ => rfl) fun _ => rfl) fun _ => rfl

theorem openWindow_shift (s : Sock) (x c : Word) :
    openWindow (s.shift c) (x + c) = (openWindow s x).shift c :=
  ite_shift (and_congr_right' (not_congr (add_left_inj c)))
    (fun _ => rfl) fun _ => rfl

theorem ackWindow_shift (s : Sock) (th : Header) (c : Word) :
    ackWindow (s.shift c) (th.shift c) = (ackWindow s th).shift c := by
  unfold ackWindow
  rw [← openWindow_shift]
  refine congrArg (openWindow · (th.ackSeq + c)) ?_
  change { s.shift c with windowSeq := th.ackSeq + c + th.window } = _
  rw [add_shift]
  rfl

theorem ackSends_shift {ack : Word} (h : SteadyRun (ack + 1) s.sendQueue) (c : Word) :
    ackSends (s.shift c) (ack + c) = (ackSends s ack).shift c := by
  have hsends : takeAcked (ack + c) (s.shift c).sendQueue s.packetsOut = _ := h.takeAcked_shift c
  unfold ackSends
  dsimp only
  change { s.shift c with
    rcvAckSeq := ack + c
    sendQueue := (takeAcked (ack + c) (s.shift c).sendQueue s.packetsOut).1
    packetsOut := (takeAcked (ack + c) (s.shift c).sendQueue s.packetsOut).2 } = _
  rw [hsends]
  rfl

theorem ackWindow_sendQueue (s : Sock) (th : Header) :
    (ackWindow s th).sendQueue = s.sendQueue := by
  unfold ackWindow openWindow
  split <;> rfl

theorem ackWindow_writeQueue (s : Sock) (th : Header) :
    (ackWindow s th).writeQueue = s.writeQueue := by
  unfold ackWindow openWindow
  split <;> rfl

theorem ackWindow_windowSeq (s : Sock) (th : Header) :
    (ackWindow s th).windowSeq = th.ackSeq + th.window := by
  unfold ackWindow openWindow
  split <;> rfl

theorem retransmit_writeQueue (s : Sock) : (retransmit s).writeQueue = s.writeQueue := by
  unfold retransmit
  split <;> rfl

theorem retransmit_windowSeq (s : Sock) : (retransmit s).windowSeq = s.windowSeq := by
  unfold retransmit
  split <;> rfl

theorem takeAck_shift (hsends : SteadyRun (th.ackSeq + 1) s.sendQueue)
    (hwrites : SteadyRun (th.ackSeq + th.window) s.writeQueue) (c : Word) :
    takeAck (s.shift c) (th.shift c) = (takeAck s th).shift c := by
  have hsends' : SteadyRun (th.ackSeq + 1) (ackWindow s th).sendQueue := by
    rwa [ackWindow_sendQueue]
  have hwrites' : SteadyRun (retransmit (ackSends (ackWindow s th) th.ackSeq)).windowSeq
      (retransmit (ackSends (ackWindow s th) th.ackSeq)).writeQueue := by
    rw [retransmit_writeQueue, retransmit_windowSeq]
    change SteadyRun (ackWindow s th).windowSeq (ackWindow s th).writeQueue
    rwa [ackWindow_writeQueue, ackWindow_windowSeq]
  have hacked : ackSends ((ackWindow s th).shift c) (th.shift c).ackSeq =
      (ackSends (ackWindow s th) th.ackSeq).shift c := ackSends_shift hsends' c
  unfold takeAck
  dsimp only
  rw [ackWindow_shift, hacked, retransmit_shift, tryXmit_shift hwrites', ackTimeWait_shift,
    ackFinWait_shift, ackLast_shift]

/-- What `tcp_ack` returns and what it leaves are the same, but for the shift. -/
theorem SteadyAck.tcpAck_shift (h : SteadyAck s th) (c : Word) :
    tcpAck (s.shift c) (th.shift c) = (tcpAck s th).map id (Sock.shift c) := by
  have hbetween : between (th.shift c).ackSeq (s.shift c).rcvAckSeq (s.shift c).sendSeq =
      between th.ackSeq s.rcvAckSeq s.sendSeq := h.ack.shift c
  unfold tcpAck
  dsimp only
  refine ite_shift (by rw [hbetween]) (fun hin => ?_) fun hout => ?_
  · exact congrArg (Prod.mk true) (takeAck_shift (h.sends hin) (h.writes hin) c)
  · have hafter : after (th.shift c).ackSeq (s.shift c).sendSeq = after th.ackSeq s.sendSeq :=
      (h.beyond (Bool.eq_false_of_not_eq_true hout)).before_shift c
    exact ite_shift (or_congr_left (by rw [hafter])) (fun _ => rfl) fun _ => rfl

/-! ### `tcp_data` -/

theorem SteadyBack.walk_shift (c : Word) {seq : Word} :
    ∀ {l : List Skb}, SteadyBack seq l →
      ((l.map (Skb.shift c)).dropWhile fun e => !isBehind (seq + c) e) =
          (l.dropWhile fun e => !isBehind seq e).map (Skb.shift c) ∧
        ((l.map (Skb.shift c)).takeWhile fun e => !isBehind (seq + c) e) =
          (l.takeWhile fun e => !isBehind seq e).map (Skb.shift c)
  | [], _ => ⟨rfl, rfl⟩
  | e :: l, h => by
      have hshift : isBehind (seq + c) (e.shift c) = isBehind seq e := h.1.shift c
      rw [List.map_cons, List.dropWhile_cons, List.takeWhile_cons, List.dropWhile_cons,
        List.takeWhile_cons, hshift]
      cases hstop : isBehind seq e with
      | true => exact ⟨rfl, rfl⟩
      | false =>
          obtain ⟨hdrop, htake⟩ := walk_shift c (h.2 hstop)
          exact ⟨hdrop, congrArg (e.shift c :: ·) htake⟩

theorem front_shift {seq : Word} (h : SteadyBack seq q.reverse) (c : Word) :
    front (q.map (Skb.shift c)) (seq + c) = (front q seq).map (Skb.shift c) := by
  unfold front List.rdropWhile
  rw [← List.map_reverse, (h.walk_shift c).1, List.map_reverse]

theorem behind_shift {seq : Word} (h : SteadyBack seq q.reverse) (c : Word) :
    behind (q.map (Skb.shift c)) (seq + c) = (behind q seq).map (Skb.shift c) := by
  unfold behind List.rtakeWhile
  rw [← List.map_reverse, (h.walk_shift c).2, List.map_reverse]

theorem SteadyNext.ackNext_shift (c : Word) :
    ∀ {l : List Skb} {a : Word}, SteadyNext a l →
      ackNext (a + c) (l.map (Skb.shift c)) =
        ((ackNext a l).1 + c, (ackNext a l).2.map (Skb.shift c))
  | [], _, _ => rfl
  | e :: l, a, h => by
      have hshift : before (e.shift c).seq (a + c + 1) = before e.seq (a + 1) := h.1.shift c
      rw [List.map_cons, ackNext, ackNext, hshift]
      cases hbefore : before e.seq (a + 1) with
      | false => rfl
      | true =>
          have hwalk : ackNext (e.shift c).ackSeq (l.map (Skb.shift c)) = _ :=
            ackNext_shift c (h.2 hbefore)
          dsimp only
          rw [hwalk]
          rfl

theorem SteadyNext.head_shift (c : Word) (h : SteadyNext a l) :
    ((l.map (Skb.shift c)).head?.any fun e => before e.seq (a + c + 1)) =
      l.head?.any fun e => before e.seq (a + 1) := by
  cases l with
  | nil => rfl
  | cons e l => exact h.1.shift c

theorem newSkb_shift (th : Header) (len : Int) (c : Word) :
    newSkb (th.shift c) len = (newSkb th len).shift c :=
  congrArg (Skb.mk (th.seq + c) · (len - th.doff * 4) false) (add_shift _ _ _)

theorem ackQueue_shift (hback : SteadyBack th.seq s.rqueue.reverse)
    (hnext : SteadyNext (newSkb th len).ackSeq (behind s.rqueue th.seq)) (c : Word) :
    ackQueue (s.shift c) (th.shift c) len = (ackQueue s th len).shift c := by
  have hfront : front (s.shift c).rqueue (th.shift c).seq = _ := front_shift hback c
  have hbehind : behind (s.shift c).rqueue (th.shift c).seq = _ := behind_shift hback c
  have hwalk : ackNext ((newSkb th len).shift c).ackSeq _ = _ := hnext.ackNext_shift c
  have hhead : Option.any (fun e : Skb => before e.seq (((newSkb th len).shift c).ackSeq + 1)) _ =
      _ := hnext.head_shift c
  unfold ackQueue
  rw [hfront, hbehind, newSkb_shift]
  dsimp only
  rw [hwalk, hhead]
  unfold Sock.shift
  rw [List.map_append]
  rfl

theorem ackData_shift (hback : SteadyBack th.seq s.rqueue.reverse)
    (hnext : SteadyNext (newSkb th len).ackSeq (behind s.rqueue th.seq)) (r : Sent) (c : Word) :
    ackData (s.shift c) (th.shift c) len r = (ackData s th len r).shift c := by
  unfold ackData
  rw [ackQueue_shift hback hnext]
  exact ite_shift Iff.rfl (fun _ => tcpSendAck_shift _ _ _ r c) fun _ => rfl

theorem catchUp_shift (h : Steady s.ackedSeq s.copiedSeq) (c : Word) :
    catchUp (s.shift c) = (catchUp s).shift c := by
  have hshift : before (s.shift c).ackedSeq (s.shift c).copiedSeq =
      before s.ackedSeq s.copiedSeq := h.before_shift c
  exact ite_shift (by rw [hshift]) (fun _ => rfl) fun _ => rfl

theorem catchUp_rqueue (s : Sock) : (catchUp s).rqueue = s.rqueue := by
  unfold catchUp
  split <;> rfl

theorem SteadyData.queueData_shift (h : SteadyData s th len) (r : Sent) (c : Word) :
    queueData (s.shift c) (th.shift c) len r = (queueData s th len r).shift c := by
  have hback : SteadyBack th.seq (catchUp s).rqueue.reverse := by
    rw [catchUp_rqueue]
    exact h.back
  have hdue : before (th.shift c).seq (((catchUp s).shift c).ackedSeq + 1) =
      before th.seq ((catchUp s).ackedSeq + 1) := h.due.shift c
  unfold queueData
  rw [catchUp_shift h.copied]
  refine ite_shift (by rw [hdue]) (fun hnow => ?_) fun _ => ?_
  · refine ackData_shift hback ?_ r c
    rw [catchUp_rqueue]
    exact h.next hnow
  · have hfront : front ((catchUp s).shift c).rqueue (th.shift c).seq = _ := front_shift hback c
    have hbehind : behind ((catchUp s).shift c).rqueue (th.shift c).seq = _ := behind_shift hback c
    rw [hfront, hbehind, newSkb_shift]
    dsimp only
    rw [List.getLast?_map]
    have hqueued : { (catchUp s).shift c with
        rqueue := (front (catchUp s).rqueue th.seq).map (Skb.shift c) ++
          (newSkb th len).shift c :: (behind (catchUp s).rqueue th.seq).map (Skb.shift c) } =
        Sock.shift c { catchUp s with
          rqueue := front (catchUp s).rqueue th.seq ++
            newSkb th len :: behind (catchUp s).rqueue th.seq } := by
      unfold Sock.shift
      rw [List.map_append]
      rfl
    rw [hqueued]
    cases (front (catchUp s).rqueue th.seq).getLast? with
    | none => rfl
    | some e => exact ite_shift Iff.rfl (fun _ => rfl) fun _ => tcpSendAck_shift _ _ _ r c

theorem dataState_shift (s : Sock) (c : Word) : dataState (s.shift c) = (dataState s).shift c :=
  ite_shift (and_congr_right' (add_left_inj c)) (fun _ => rfl) fun _ => rfl

theorem discardData_shift (s : Sock) (th : Header) (len : Int) (r : Sent) (c : Word) :
    discardData (s.shift c) (th.shift c) len r = (discardData s th len r).shift c := by
  have hacked : tcpSendAck (setAcked (s.shift c) ((newSkb th len).shift c).ackSeq)
        (s.shift c).sendSeq ((newSkb th len).shift c).ackSeq r =
      (tcpSendAck (setAcked s (newSkb th len).ackSeq) s.sendSeq (newSkb th len).ackSeq r).shift c :=
    tcpSendAck_shift (setAcked s (newSkb th len).ackSeq) s.sendSeq (newSkb th len).ackSeq r c
  unfold discardData
  dsimp only
  rw [newSkb_shift, hacked]
  exact ite_shift (and_congr_right' (add_left_inj c)) (fun _ => rfl) fun _ => rfl

theorem SteadyData.addBytes (h : SteadyData s th len) :
    SteadyData (addBytes s th len) th len := by
  have hacked : (catchUp (SeqWords.addBytes s th len)).ackedSeq = (catchUp s).ackedSeq := by
    unfold catchUp SeqWords.addBytes
    dsimp only
    split <;> rfl
  exact
    { back := h.back
      copied := h.copied
      due := by
        rw [hacked]
        exact h.due
      next := by
        rw [hacked]
        exact h.next }

/-- What `tcp_data` leaves is the same, but for the shift. -/
theorem tcpData_shift (h : Queues s th len → SteadyData s th len) (r : Sent) (c : Word) :
    tcpData (s.shift c) (th.shift c) len r = (tcpData s th len r).shift c := by
  have hbytes : addBytes (s.shift c) (th.shift c) len = (addBytes s th len).shift c := rfl
  unfold tcpData
  rw [hbytes]
  refine ite_shift Iff.rfl (fun _ => ?_) fun hdata => ?_
  · refine ite_shift Iff.rfl (fun _ => rfl) fun _ => ?_
    exact tcpSendAck_shift (addBytes s th len) _ _ r c
  · refine ite_shift Iff.rfl (fun _ => discardData_shift _ th len r c) fun hopen => ?_
    have hqueue := h ⟨hdata, Bool.eq_false_of_not_eq_true hopen⟩
    rw [← dataState_shift, ← hqueue.addBytes.queueData_shift]

/-! ### Near the wrap -/

/-- A connection that is 40000 before the wrap. -/
def atWrap : Sock where
  state := .established
  sendSeq := 100
  ackedSeq := 2 ^ 32 - 40000
  copiedSeq := 2 ^ 32 - 40000
  rcvAckSeq := 90
  windowSeq := 600
  finSeq := 0
  window := 60000
  mtu := 576
  bytesRcv := 0
  maxUnacked := 1024
  delayAcks := false
  ackBacklog := 0
  maxAckBacklog := 2
  rcvShutdown := false
  expGrowth := false
  congWindow := 1
  packetsOut := 1
  retransmits := 0
  rqueue := []
  sendQueue := [⟨95, false⟩]
  writeQueue := [⟨100, false⟩]
  out := []

/-- A segment of one byte. -/
def byteAt (seq : Word) : Header where
  seq := seq
  ackSeq := 95
  window := 500
  doff := 5
  fin := false
  syn := false
  rst := false
  psh := false
  ack := true
  urg := false

/-- Close numbers compare right across the wrap; a number is before one that is not ahead just where
it is taken for one that is about to wrap; two numbers are compared alike everywhere just at a
steady distance; and a call that compares only such numbers decides alike wherever the numbers of
the connection are. -/
theorem decides_alike (s : Sock) (th : Header) (len : Int) (r : Sent) (c x y a d : Word) :
    (d ≠ 0 → d.toNat < 4096 → before a (a + d) = true ∧ before (a + d) a = false ∧
        between (a + d) a (a + 2 * d) = true) ∧
      ((before x y = true → 1 ≤ (y - x).toNat ∧ (y - x).toNat ≤ 32766) ↔ ¬ Mistaken x y) ∧
      ((∀ c, before (x + c) (y + c) = before x y) ↔ Steady x y) ∧
      (SteadySequence s th len → tcpSequence (s.shift c) (th.shift c) len r =
        (tcpSequence s th len r).map id (Sock.shift c)) ∧
      (SteadyAck s th →
        tcpAck (s.shift c) (th.shift c) = (tcpAck s th).map id (Sock.shift c)) ∧
      ((Queues s th len → SteadyData s th len) →
        tcpData (s.shift c) (th.shift c) len r = (tcpData s th len r).shift c) := by
  refine ⟨fun hne hd => ⟨before_add hne hd.le, not_before_add hd.le, between_add hd⟩,
    before_ahead_iff, steady_iff.symm, ?_, ?_, ?_⟩
  · intro hsteady
    exact hsteady.tcpSequence_shift r c
  · intro hsteady
    exact hsteady.tcpAck_shift c
  · intro hsteady
    exact tcpData_shift hsteady r c

/-- A byte that is due right at the wrap. -/
theorem decides_alike_atWrap :
    let s := { atWrap with ackedSeq := 2 ^ 32 - 1, copiedSeq := 2 ^ 32 - 1, window := 4000 }
    (before (2 ^ 32 - 1) 0 = true ∧ before 0 (2 ^ 32 - 1) = false ∧
        between 0 (2 ^ 32 - 1) 1 = true) ∧
      tcpSequence (s.shift 77) ((byteAt (2 ^ 32 - 1)).shift 77) 21 (.sent 4000) =
        (tcpSequence s (byteAt (2 ^ 32 - 1)) 21 (.sent 4000)).map id (Sock.shift 77) ∧
      tcpAck (s.shift 77) ((byteAt (2 ^ 32 - 1)).shift 77) =
        (tcpAck s (byteAt (2 ^ 32 - 1))).map id (Sock.shift 77) ∧
      tcpData (s.shift 77) ((byteAt (2 ^ 32 - 1)).shift 77) 21 (.sent 4000) =
        (tcpData s (byteAt (2 ^ 32 - 1)) 21 (.sent 4000)).shift 77 := by
  intro s
  obtain ⟨hclose, -, -, hsequence, hack, hdata⟩ :=
    decides_alike s (byteAt (2 ^ 32 - 1)) 21 (.sent 4000) 77 0 0 (2 ^ 32 - 1) 1
  refine ⟨hclose (by decide) (by decide), hsequence ?_, hack ?_, hdata fun _ => ?_⟩
  · exact
      { start := ⟨by decide, fun _ => by decide⟩
        last := fun _ => ⟨by decide, fun _ => by decide⟩
        far := fun _ => by decide
        late := fun _ _ _ _ => by decide }
  · exact
      { ack := ⟨by decide, fun _ => by decide⟩
        beyond := fun _ => by decide
        sends := fun _ => ⟨by decide, fun _ => trivial⟩
        writes := fun _ => ⟨by decide, fun _ => trivial⟩ }
  · exact
      { back := trivial
        copied := by decide
        due := by decide
        next := fun _ => trivial }

/-- A number far from the wrap is before one just behind it; and a byte is let in that the same
connection throws away elsewhere. -/
theorem not_decides_alike :
    (¬ ∀ x y : Word, before x y = true → 1 ≤ (y - x).toNat ∧ (y - x).toNat ≤ 32766) ∧
      ¬ ∀ (s : Sock) (th : Header) (len : Int) (r : Sent) (c : Word),
        (tcpSequence (s.shift c) (th.shift c) len r).1 = (tcpSequence s th len r).1 := by
  refine ⟨fun hall => ?_, fun hall => ?_⟩
  · exact absurd (hall 0x1000000 0 (by decide)) (by decide)
  · exact absurd (hall atWrap (byteAt 5) 21 .noRoute 50000) (by decide)

end LinuxKernel.V098.Net.SeqWords
