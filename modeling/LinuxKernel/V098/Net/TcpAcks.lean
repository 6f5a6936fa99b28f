import LinuxKernel.V098.Net.TcpRcv

/-!
# LinuxKernel.V098.Net.TcpAcks

`acked_seq` is **one past the last byte that has come in without a gap**.

- `ackNext_spec` is about the walk over the ring, `Inv` what holds between the steps.
-/

namespace LinuxKernel.V098.Net.TcpRcv

variable {s s' : State} {p : Packet} {e : Skb} {q l : List Skb} {n m seq lo : Nat} {r : Sent}

/-! ### Where a segment goes -/

theorem isBehind_iff (he : e.seq < SEQ_WRAP) :
    isBehind seq e = true ↔ e.seq ≤ seq ∧ seq + 1 < e.seq + 32767 := by
  rw [isBehind, after, before_iff he, Nat.lt_succ_iff]

theorem filter_append_filter (hs : q.Pairwise (·.seq ≤ ·.seq)) (seq : Nat) :
    (q.filter fun e => e.seq ≤ seq) ++ (q.filter fun e => seq < e.seq) = q := by
  induction q with
  | nil => rfl
  | cons e q ih =>
      obtain ⟨he, hs⟩ := List.pairwise_cons.mp hs
      by_cases hle : e.seq ≤ seq
      · rw [List.filter_cons_of_pos (by simpa using hle),
          List.filter_cons_of_neg (by simpa using hle), List.cons_append, ih hs]
      · -- and all behind it begin later too
        have hgt : ∀ x ∈ e :: q, seq < x.seq := by
          intro x hx
          rcases List.mem_cons.mp hx with rfl | hx
          · exact Nat.lt_of_not_le hle
          · exact (Nat.lt_of_not_le hle).trans_le (he x hx)
        rw [List.filter_eq_nil_iff.mpr fun x hx => by simpa using hgt x hx,
          List.filter_eq_self.mpr fun x hx => by simpa using hgt x hx, List.nil_append]

/-- The ring in two, where the new segment goes. -/
theorem front_behind (hs : q.Pairwise (·.seq ≤ ·.seq)) (hr : ∀ e ∈ q, e.seq < SEQ_WRAP)
    (hn : Near q seq) : front q seq = (q.filter fun e => e.seq ≤ seq) ∧
      behind q seq = q.filter fun e => seq < e.seq := by
  have hpass : ∀ x ∈ q.filter fun e => seq < e.seq, (!isBehind seq x) = true := by
    intro x hx
    obtain ⟨hx, hlt⟩ := List.mem_filter.mp hx
    rw [Bool.not_eq_true', Bool.eq_false_iff, Ne, isBehind_iff (hr x hx)]
    exact fun h => Nat.not_le.mpr (of_decide_eq_true hlt) h.1
  have hstop : ∀ hne : (q.filter fun e => e.seq ≤ seq) ≠ [],
      ¬ (!isBehind seq ((q.filter fun e => e.seq ≤ seq).getLast hne)) = true := by
    intro hne
    obtain ⟨hx, hle⟩ := List.mem_filter.mp (List.getLast_mem hne)
    rw [Bool.not_eq_true', Bool.not_eq_false, isBehind_iff (hr _ hx)]
    exact ⟨of_decide_eq_true hle, hn _ (List.getLast?_eq_some_getLast hne)⟩
  have hfront : front q seq = q.filter fun e => e.seq ≤ seq := by
    have hdrop : (q.filter fun e => seq < e.seq).rdropWhile (fun e => !isBehind seq e) = [] :=
      List.rdropWhile_eq_nil_iff.mpr hpass
    rw [List.rdropWhile, List.reverse_eq_nil_iff] at hdrop
    rw [front]
    conv_lhs => rw [← filter_append_filter hs seq]
    rw [List.rdropWhile, List.reverse_append, List.dropWhile_append, hdrop]
    exact List.rdropWhile_eq_self_iff.mpr hstop
  refine ⟨hfront, ?_⟩
  have hsplit : front q seq ++ behind q seq = q := List.rdropWhile_append_rtakeWhile
  rw [hfront] at hsplit
  exact List.append_cancel_left (hsplit.trans (filter_append_filter hs seq).symm)

/-! ### The walk -/

/-- A segment but for its mark. -/
def plain (e : Skb) : Skb := { e with acked := false }

theorem eq_of_plain {x : Skb} (h : plain e = plain x) :
    e.seq = x.seq ∧ e.len = x.len ∧ e.ackSeq = x.ackSeq ∧ e.used = x.used := by
  refine ⟨?_, ?_, ?_, ?_⟩
  · exact show (plain e).seq = (plain x).seq from congrArg _ h
  · exact show (plain e).len = (plain x).len from congrArg _ h
  · exact show (plain e).ackSeq = (plain x).ackSeq from congrArg _ h
  · exact show (plain e).used = (plain x).used from congrArg _ h

theorem map_plain_ackNext (n : Nat) (l : List Skb) : (ackNext n l).2.map plain = l.map plain := by
  induction l generalizing n with
  | nil => rfl
  | cons e l ih =>
      unfold ackNext
      split
      · rw [List.map_cons, List.map_cons, ih]
        rfl
      · rfl

/-- What holds of a segment on the ring, whatever has been read. -/
structure Sized (e : Skb) : Prop where
  ackSeq : e.ackSeq = e.seq + e.len
  range : e.seq + e.len < SEQ_WRAP
  len : e.len + 1 < 32767

/-- The walk comes to the end of what is there without a gap. -/
theorem ackNext_spec (hs : l.Pairwise (·.seq ≤ ·.seq)) (hl : ∀ e ∈ l, Sized e) (hd : NoDip n l)
    (hm : ∀ e ∈ l, m ≤ e.seq) (hn : n + 1 < m + 32767) :
    n ≤ (ackNext n l).1 ∧ (∀ e ∈ l, e.seq ≤ (ackNext n l).1 → e.seq + e.len ≤ (ackNext n l).1) ∧
      ∀ b, n ≤ b → b < (ackNext n l).1 → ∃ e ∈ l, e.seq ≤ b ∧ b < e.seq + e.len := by
  induction l generalizing n m with
  | nil => exact ⟨Nat.le_refl n, fun e he => absurd he List.not_mem_nil,
      fun b hb hb' => absurd (hb.trans_lt hb') (Nat.lt_irrefl n)⟩
  | cons e l ih =>
      obtain ⟨he, hs⟩ := List.pairwise_cons.mp hs
      have hsize := hl e List.mem_cons_self
      have hl' := fun x hx => hl x (List.mem_cons_of_mem e hx)
      have hbefore : before e.seq (n + 1) = true ↔ e.seq ≤ n := by
        have := hm e List.mem_cons_self
        rw [before_iff ((Nat.le_add_right _ _).trans_lt hsize.range)]
        omega
      unfold ackNext
      split
      · next hle =>
          rw [hbefore] at hle
          obtain ⟨hne, hd⟩ := hd hle
          have hlen := hsize.len
          rw [hsize.ackSeq]
          obtain ⟨hge, hall, hcover⟩ := ih hs hl' hd he (by omega)
          refine ⟨hne.trans hge, fun x hx hxn => ?_, fun b hb hb' => ?_⟩
          · rcases List.mem_cons.mp hx with rfl | hx
            · exact hge
            · exact hall x hx hxn
          · by_cases hbe : b < e.seq + e.len
            · exact ⟨e, List.mem_cons_self, hle.trans hb, hbe⟩
            · obtain ⟨x, hx, hxb⟩ := hcover b (Nat.le_of_not_lt hbe) hb'
              exact ⟨x, List.mem_cons_of_mem e hx, hxb⟩
      · next hgt =>
          rw [hbefore] at hgt
          refine ⟨Nat.le_refl n, fun x hx hxn => ?_, fun b hb hb' =>
            absurd (hb.trans_lt hb') (Nat.lt_irrefl n)⟩
          rcases List.mem_cons.mp hx with rfl | hx
          · exact absurd hxn hgt
          · exact absurd ((he x hx).trans hxn) hgt

/-! ### The invariant -/

/-- A segment on the ring has come in, and its bytes have been read if it is marked so. -/
structure OnRing (got : List (Nat × Nat)) (copiedSeq : Nat) (e : Skb) : Prop where
  sized : Sized e
  got : (e.seq, e.len) ∈ got
  used : e.used = true → e.seq + e.len ≤ copiedSeq + 1

/-- `lo` is what `acked_seq` has come to before. -/
structure Inv (lo : Nat) (s : State) : Prop where
  floor : lo ≤ s.ackedSeq
  sorted : s.rqueue.Pairwise (·.seq ≤ ·.seq)
  ring : ∀ e ∈ s.rqueue, OnRing s.got s.copiedSeq e
  held : ∀ b, s.start ≤ b → b < s.ackedSeq → Held s b
  first : ¬ Held s s.ackedSeq
  kept : ∀ b, Held s b → b ≤ s.copiedSeq ∨ ∃ e ∈ s.rqueue, e.seq ≤ b ∧ b < e.seq + e.len
  copied : s.copiedSeq < s.ackedSeq
  start : s.start ≤ s.ackedSeq
  range : s.ackedSeq < SEQ_WRAP
  acks : ∀ a ∈ s.acks, a ≤ s.ackedSeq
  order : s.acks.Pairwise (· ≥ ·)

namespace Inv

theorem of_init (h : Init s) : Inv 0 s := by
  have hnone : ∀ b, ¬ Held s b := by
    rintro b ⟨g, hg, -⟩
    rw [h.got] at hg
    exact List.not_mem_nil hg
  constructor
  · exact Nat.zero_le _
  · rw [h.rqueue]
    exact List.Pairwise.nil
  · rw [h.rqueue]
    exact fun e he => absurd he List.not_mem_nil
  · intro b hb hb'
    rw [h.acked] at hb'
    exact absurd (hb.trans_lt hb') (Nat.lt_irrefl _)
  · exact hnone _
  · exact fun b hb => absurd hb (hnone b)
  · rw [h.acked, ← h.copied]
    exact Nat.lt_succ_self _
  · exact h.acked.ge
  · rw [h.acked]
    exact h.range
  · rw [h.acks]
    exact fun a ha => absurd ha List.not_mem_nil
  · rw [h.acks]
    exact List.Pairwise.nil

theorem sound (h : Inv lo s) : Sound s := ⟨h.held, h.first, h.acks, h.order⟩

/-- The other fields do not matter. -/
theorem congr (h : Inv lo s) (ha : s'.ackedSeq = s.ackedSeq) (hc : s'.copiedSeq = s.copiedSeq)
    (hq : s'.rqueue = s.rqueue) (hst : s'.start = s.start) (hg : s'.got = s.got)
    (hk : s'.acks = s.acks) : Inv lo s' := by
  have hheld : ∀ b, Held s' b ↔ Held s b := fun b => by rw [Held, Held, hg]
  constructor
  · rw [ha]
    exact h.floor
  · rw [hq]
    exact h.sorted
  · rw [hq]
    intro e he
    obtain ⟨hsize, hgot, hused⟩ := h.ring e he
    exact ⟨hsize, by rwa [hg], by rwa [hc]⟩
  · intro b hb hb'
    rw [hst] at hb
    rw [ha] at hb'
    exact (hheld b).mpr (h.held b hb hb')
  · rw [hheld, ha]
    exact h.first
  · intro b hb
    rw [hc, hq]
    exact h.kept b ((hheld b).mp hb)
  · rw [hc, ha]
    exact h.copied
  · rw [hst, ha]
    exact h.start
  · rw [ha]
    exact h.range
  · rw [hk, ha]
    exact h.acks
  · rw [hk]
    exact h.order

/-- `acked_seq` goes out. -/
theorem addAck (h : Inv lo s) (ha : s'.ackedSeq = s.ackedSeq) (hc : s'.copiedSeq = s.copiedSeq)
    (hq : s'.rqueue = s.rqueue) (hst : s'.start = s.start) (hg : s'.got = s.got)
    (hk : s'.acks = s.ackedSeq :: s.acks) : Inv lo s' := by
  have h' : Inv lo { s with acks := s.ackedSeq :: s.acks } :=
    { h with
      acks := fun a hm => by
        rcases List.mem_cons.mp hm with rfl | hm
        · exact Nat.le_refl _
        · exact h.acks a hm
      order := List.pairwise_cons.mpr ⟨h.acks, h.order⟩ }
  exact h'.congr ha hc hq hst hg hk

theorem addBacklog (h : Inv lo s) : Inv lo (addBacklog s) := h.congr rfl rfl rfl rfl rfl rfl

theorem tcpSendAck (h : Inv lo s) (r : Sent) : Inv lo (tcpSendAck s s.ackedSeq r) := by
  cases r with
  | noMemory => exact h.addBacklog
  | noRoute => exact h
  | sent space =>
      unfold TcpRcv.tcpSendAck
      dsimp only
      rw [if_pos rfl]
      exact h.addAck rfl rfl rfl rfl rfl rfl

/-! ### A segment comes in -/

/-- A segment is on the ring, and `acked_seq` is where it has to be. -/
theorem insert (h : Inv lo s) (hlen : p.data + 1 < 32767)
    (hq : s'.rqueue.map plain = ((s.rqueue.filter fun e => e.seq ≤ p.seq) ++ newSkb p ::
      s.rqueue.filter fun e => p.seq < e.seq).map plain)
    (hc : s'.copiedSeq = s.copiedSeq) (hst : s'.start = s.start)
    (hg : s'.got = (p.seq, p.data) :: s.got) (hk : s'.acks = s.acks)
    (hle : s.ackedSeq ≤ s'.ackedSeq) (hr : s'.ackedSeq < SEQ_WRAP)
    (hheld : ∀ b, s.ackedSeq ≤ b → b < s'.ackedSeq → Held s' b) (hfirst : ¬ Held s' s'.ackedSeq) :
    Inv lo s' := by
  have hgrow : ∀ b, Held s b → Held s' b := fun b ⟨g, hg', hb⟩ =>
    ⟨g, by rw [hg]; exact List.mem_cons_of_mem _ hg', hb⟩
  -- a segment of the new ring is the new one, or was there
  have hold : ∀ e ∈ s'.rqueue, plain e = plain (newSkb p) ∨ ∃ x ∈ s.rqueue, plain e = plain x := by
    intro e he
    have hmem : plain e ∈ s'.rqueue.map plain := List.mem_map_of_mem he
    rw [hq, List.map_append, List.map_cons, List.mem_append, List.mem_cons] at hmem
    rcases hmem with hmem | hmem | hmem
    · obtain ⟨x, hx, hxe⟩ := List.mem_map.mp hmem
      exact Or.inr ⟨x, (List.mem_filter.mp hx).1, hxe.symm⟩
    · exact Or.inl hmem
    · obtain ⟨x, hx, hxe⟩ := List.mem_map.mp hmem
      exact Or.inr ⟨x, (List.mem_filter.mp hx).1, hxe.symm⟩
  constructor
  · exact h.floor.trans hle
  · have hpw : ((s.rqueue.filter fun e => e.seq ≤ p.seq) ++ newSkb p ::
        s.rqueue.filter fun e => p.seq < e.seq).Pairwise (·.seq ≤ ·.seq) := by
      refine List.pairwise_append.mpr ⟨h.sorted.filter _, List.pairwise_cons.mpr
        ⟨fun x hx => ?_, h.sorted.filter _⟩, fun x hx y hy => ?_⟩
      · exact Nat.le_of_lt (of_decide_eq_true (List.mem_filter.mp hx).2)
      · have hxp : x.seq ≤ p.seq := of_decide_eq_true (List.mem_filter.mp hx).2
        rcases List.mem_cons.mp hy with rfl | hy
        · exact hxp
        · exact hxp.trans (Nat.le_of_lt (of_decide_eq_true (List.mem_filter.mp hy).2))
    have hmap := (List.pairwise_map (f := plain) (R := fun a b : Skb => a.seq ≤ b.seq)).mpr hpw
    rw [← hq] at hmap
    exact (List.pairwise_map (f := plain) (R := fun a b : Skb => a.seq ≤ b.seq)).mp hmap
  · intro e he
    rcases hold e he with he | ⟨x, hx, he⟩
    · obtain ⟨h1, h2, h3, h4⟩ := eq_of_plain he
      refine ⟨⟨by rw [h1, h2, h3]; rfl, by rw [h1, h2]; exact p.range, by rw [h2]; exact hlen⟩, ?_, ?_⟩
      · rw [hg, h1, h2]
        exact List.mem_cons_self
      · rw [h4]
        exact nofun
    · obtain ⟨h1, h2, h3, h4⟩ := eq_of_plain he
      obtain ⟨⟨hack, hrange, hlen'⟩, hgot, hused⟩ := h.ring x hx
      refine ⟨⟨by rw [h1, h2, h3, hack], by rwa [h1, h2], by rwa [h2]⟩, ?_, ?_⟩
      · rw [hg, h1, h2]
        exact List.mem_cons_of_mem _ hgot
      · rw [h4, h1, h2, hc]
        exact hused
  · intro b hb hb'
    rw [hst] at hb
    by_cases hba : b < s.ackedSeq
    · exact hgrow b (h.held b hb hba)
    · exact hheld b (Nat.le_of_not_lt hba) hb'
  · exact hfirst
  · rintro b ⟨g, hgm, hb⟩
    rw [hc]
    -- what is on the old ring is on the new one
    have hmem : ∀ x, x ∈ s.rqueue ∨ x = newSkb p → x.seq ≤ b → b < x.seq + x.len →
        ∃ e ∈ s'.rqueue, e.seq ≤ b ∧ b < e.seq + e.len := by
      intro x hx hxb hbx
      have hin : plain x ∈ s'.rqueue.map plain := by
        rw [hq]
        refine List.mem_map_of_mem ?_
        rw [List.mem_append, List.mem_cons]
        rcases hx with hx | rfl
        · by_cases hxp : x.seq ≤ p.seq
          · exact Or.inl (List.mem_filter.mpr ⟨hx, decide_eq_true hxp⟩)
          · exact Or.inr (Or.inr (List.mem_filter.mpr ⟨hx, decide_eq_true (Nat.lt_of_not_le hxp)⟩))
        · exact Or.inr (Or.inl rfl)
      obtain ⟨e, he, hex⟩ := List.mem_map.mp hin
      obtain ⟨hseq, hlen', -⟩ := eq_of_plain hex
      exact ⟨e, he, by rw [hseq]; exact hxb, by rw [hseq, hlen']; exact hbx⟩
    rw [hg] at hgm
    rcases List.mem_cons.mp hgm with rfl | hgm
    · exact Or.inr (hmem (newSkb p) (Or.inr rfl) hb.1 hb.2)
    · rcases h.kept b ⟨g, hgm, hb⟩ with hbc | ⟨x, hx, hxb, hbx⟩
      · exact Or.inl hbc
      · exact Or.inr (hmem x (Or.inl hx) hxb hbx)
  · rw [hc]
    exact h.copied.trans_le hle
  · rw [hst]
    exact h.start.trans hle
  · exact hr
  · rw [hk]
    exact fun a ha => (h.acks a ha).trans hle
  · rw [hk]
    exact h.order

theorem ringRange (h : Inv lo s) : ∀ e ∈ s.rqueue, e.seq < SEQ_WRAP := fun e he =>
  (Nat.le_add_right _ _).trans_lt (h.ring e he).sized.range

/-- The segment begins where the next bytes are due, or before. -/
theorem ackData (h : Inv lo s) (hlen : p.data + 1 < 32767) (hn : Near s.rqueue p.seq)
    (hle : p.seq ≤ s.ackedSeq) (hend : s.ackedSeq ≤ p.seq + p.data)
    (hd : NoDip (p.seq + p.data) (s.rqueue.filter fun e => p.seq < e.seq)) (r : Sent) :
    Inv lo (ackData { s with got := (p.seq, p.data) :: s.got } p r) := by
  obtain ⟨hfront, hbehind⟩ := front_behind h.sorted h.ringRange hn
  obtain ⟨hge, hall, hcover⟩ := ackNext_spec (h.sorted.filter _)
    (fun e he => (h.ring e (List.mem_filter.mp he).1).sized) hd
    (fun e he => Nat.le_of_lt (of_decide_eq_true (List.mem_filter.mp he).2))
    (show p.seq + p.data + 1 < p.seq + 32767 by omega)
  let walked := ackNext (p.seq + p.data) (s.rqueue.filter fun e => p.seq < e.seq)
  have hrange : walked.1 < SEQ_WRAP := by
    by_cases hmore : p.seq + p.data < walked.1
    · obtain ⟨e, he, -, hlt⟩ := hcover (walked.1 - 1) (Nat.le_sub_one_of_lt hmore)
        (Nat.sub_lt (Nat.zero_lt_of_lt hmore) Nat.one_pos)
      have := (h.ring e (List.mem_filter.mp he).1).sized.range
      change walked.1 - 1 < e.seq + e.len at hlt
      omega
    · exact (Nat.le_of_not_lt hmore).trans_lt p.range
  have hkey : ∀ k : Nat, Inv lo { s with
      got := (p.seq, p.data) :: s.got
      ackedSeq := walked.1
      rqueue := (s.rqueue.filter fun e => e.seq ≤ p.seq) ++
        { newSkb p with acked := true } :: walked.2
      ackBacklog := k } := by
    intro k
    refine h.insert hlen ?_ rfl rfl rfl rfl (hend.trans hge) hrange (fun b hb hb' => ?_) ?_
    · rw [List.map_append, List.map_append, List.map_cons, List.map_cons, map_plain_ackNext]
      rfl
    · by_cases hbe : b < p.seq + p.data
      · exact ⟨_, List.mem_cons_self, hle.trans hb, hbe⟩
      · obtain ⟨e, he, hb⟩ := hcover b (Nat.le_of_not_lt hbe) hb'
        exact ⟨_, List.mem_cons_of_mem _ (h.ring e (List.mem_filter.mp he).1).got, hb⟩
    · rintro ⟨g, hg, hgb⟩
      change g.1 ≤ walked.1 ∧ walked.1 < g.1 + g.2 at hgb
      have hgew : p.seq + p.data ≤ walked.1 := hge
      rcases List.mem_cons.mp hg with rfl | hg
      · exact absurd hgb.2 (Nat.not_lt.mpr hge)
      · rcases h.kept walked.1 ⟨g, hg, hgb⟩ with hread | ⟨e, he, heb, hbe⟩
        · have := h.copied
          omega
        · by_cases hep : e.seq ≤ p.seq
          · -- then `acked_seq` was in it before
            exact h.first ⟨_, (h.ring e he).got, hep.trans hle, (hend.trans hge).trans_lt hbe⟩
          · have hin : e ∈ s.rqueue.filter fun e => p.seq < e.seq :=
              List.mem_filter.mpr ⟨he, decide_eq_true (Nat.lt_of_not_le hep)⟩
            exact absurd hbe (Nat.not_lt.mpr (hall e hin heb))
  unfold TcpRcv.ackData
  dsimp only
  rw [hfront, hbehind]
  split
  · split
    · exact (hkey _).tcpSendAck r
    · exact (hkey _).addBacklog
  · split
    · exact (hkey _).tcpSendAck r
    · exact (hkey _).addBacklog

theorem queueData (h : Inv lo s) (hlen : p.data + 1 < 32767) (hn : Near s.rqueue p.seq)
    (hfits : p.seq ≤ s.ackedSeq → s.ackedSeq ≤ p.seq + p.data ∧
      NoDip (p.seq + p.data) (s.rqueue.filter fun e => p.seq < e.seq)) (r : Sent) :
    Inv lo (queueData s p r) := by
  have hcopied : before s.ackedSeq s.copiedSeq = false := by
    rw [Bool.eq_false_iff, Ne, before_iff h.range]
    exact fun hb => Nat.lt_asymm hb.1 h.copied
  have hpseq : p.seq < SEQ_WRAP := (Nat.le_add_right _ _).trans_lt p.range
  unfold TcpRcv.queueData
  simp only [hcopied, Bool.false_eq_true, if_false]
  split
  · next hb =>
      rw [before_iff hpseq] at hb
      have hle := Nat.le_of_lt_succ hb.1
      obtain ⟨hend, hd⟩ := hfits hle
      exact h.ackData hlen hn hle hend hd r
  · next hb =>
      have hgt : s.ackedSeq < p.seq := by
        by_contra hle
        obtain ⟨hend, -⟩ := hfits (Nat.le_of_not_lt hle)
        rw [before_iff hpseq] at hb
        omega
      obtain ⟨hfront, hbehind⟩ := front_behind h.sorted h.ringRange hn
      have hin : Inv lo { s with
          got := (p.seq, p.data) :: s.got
          rqueue := front s.rqueue p.seq ++ newSkb p :: behind s.rqueue p.seq } := by
        refine h.insert hlen (by rw [hfront, hbehind]) rfl rfl rfl rfl (Nat.le_refl _) h.range
          (fun b hb hb' => absurd (hb.trans_lt hb') (Nat.lt_irrefl _)) ?_
        rintro ⟨g, hg, hgb⟩
        rcases List.mem_cons.mp hg with rfl | hg
        · exact absurd hgb.1 (Nat.not_le.mpr hgt)
        · exact h.first ⟨g, hg, hgb⟩
      split
      · split
        · exact hin
        · exact hin.tcpSendAck r
      · exact hin

theorem tcpSequence (h : Inv lo s) (r : Sent) : Inv lo (tcpSequence s p r).2 := by
  unfold TcpRcv.tcpSequence
  split
  · exact h
  · split
    · exact h.tcpSendAck r
    · dsimp only
      split
      · have h' : Inv lo { s with delayAcks := false } := h.congr rfl rfl rfl rfl rfl rfl
        exact h'.tcpSendAck r
      · exact h.tcpSendAck r

end Inv

/-- `tcp_sequence` leaves these alone. -/
theorem tcpSendAck_same (s : State) (n : Nat) (r : Sent) :
    (tcpSendAck s n r).rqueue = s.rqueue ∧ (tcpSendAck s n r).ackedSeq = s.ackedSeq := by
  cases r with
  | noMemory => exact ⟨rfl, rfl⟩
  | noRoute => exact ⟨rfl, rfl⟩
  | sent space =>
      unfold tcpSendAck
      dsimp only
      split <;> exact ⟨rfl, rfl⟩

theorem tcpSequence_same (s : State) (p : Packet) (r : Sent) :
    (tcpSequence s p r).2.rqueue = s.rqueue ∧ (tcpSequence s p r).2.ackedSeq = s.ackedSeq := by
  unfold tcpSequence
  split
  · exact ⟨rfl, rfl⟩
  · split
    · exact tcpSendAck_same s _ r
    · dsimp only
      split
      · exact tcpSendAck_same { s with delayAcks := false } _ r
      · exact tcpSendAck_same s _ r

namespace Inv

theorem tcpRcv {e : Env} (h : Inv lo s) (hok : RcvFits s p e) : Inv lo (tcpRcv s p e) := by
  unfold TcpRcv.tcpRcv
  split
  · exact h
  · next hroom =>
      dsimp only
      have hseq : Inv lo (TcpRcv.tcpSequence s p e.resync).2 := h.tcpSequence e.resync
      split
      · next hacc =>
          split
          · exact hseq
          · next hack =>
              unfold TcpRcv.tcpData
              dsimp only
              have hseq' : Inv lo { (TcpRcv.tcpSequence s p e.resync).2 with
                  bytesRcv := ((TcpRcv.tcpSequence s p e.resync).2.bytesRcv + p.data) % 2 ^ 16 } :=
                hseq.congr rfl rfl rfl rfl rfl rfl
              split
              · split
                · exact hseq'
                · exact hseq'.tcpSendAck e.reply
              · next hdata =>
                  have hqueued : Queued s p e := by
                    refine ⟨Nat.lt_of_not_le hroom, hacc, fun ha => ?_, fun hd => ?_⟩
                    · by_contra hno
                      exact hack ⟨ha, Bool.eq_false_iff.mpr hno⟩
                    · by_contra hno
                      exact hdata ⟨hd, Bool.eq_false_iff.mpr hno⟩
                  obtain ⟨hn, hfits⟩ := hok hqueued
                  obtain ⟨hq, ha⟩ := tcpSequence_same s p e.resync
                  have hlen : p.data + 1 < 32767 := by
                    have hroom := hqueued.1
                    have hmem := p.fits
                    unfold SK_RMEM_MAX at hroom
                    unfold SK_BUFF at hmem
                    unfold Packet.data
                    omega
                  refine hseq'.queueData hlen ?_ ?_ e.reply
                  · change Near (TcpRcv.tcpSequence s p e.resync).2.rqueue p.seq
                    rwa [hq]
                  · change p.seq ≤ (TcpRcv.tcpSequence s p e.resync).2.ackedSeq →
                      (TcpRcv.tcpSequence s p e.resync).2.ackedSeq ≤ _ ∧
                        NoDip _ ((TcpRcv.tcpSequence s p e.resync).2.rqueue.filter _)
                    rwa [hq, ha]
      · exact hseq

/-! ### `tcp_read` -/

/-- A segment whose bytes have all been read is marked. -/
theorem setUsed {i : Nat} (h : Inv lo s) (hi : s.rqueue[i]? = some e)
    (hread : e.seq + e.len ≤ s.copiedSeq + 1) : Inv lo (setUsed s i) := by
  -- the segments are the same but for the mark
  have hmap : ∀ {β : Type} (f : Skb → β), (∀ x, f { x with used := true } = f x) →
      (TcpRcv.setUsed s i).rqueue.map f = s.rqueue.map f := by
    intro β f hf
    change (s.rqueue.modify i _).map f = _
    refine List.ext_getElem? fun j => ?_
    rw [List.getElem?_map, List.getElem?_map, List.getElem?_modify]
    cases s.rqueue[j]? with
    | none => rfl
    | some x =>
        change some (f (if i = j then { x with used := true } else x)) = some (f x)
        split
        · rw [hf]
        · rfl
  have hold : ∀ x ∈ (TcpRcv.setUsed s i).rqueue, x ∈ s.rqueue ∨ x = { e with used := true } := by
    intro x hx
    obtain ⟨j, hj⟩ := List.mem_iff_getElem?.mp hx
    change (s.rqueue.modify i _)[j]? = some x at hj
    rw [List.getElem?_modify] at hj
    obtain ⟨y, hy, hyx⟩ := Option.map_eq_some_iff.mp hj
    split at hyx
    · next hij =>
        subst hij
        obtain rfl : e = y := Option.some.inj (hi.symm.trans hy)
        exact Or.inr hyx.symm
    · rw [← hyx]
      exact Or.inl (List.mem_of_getElem? hy)
  have he : e ∈ s.rqueue := List.mem_of_getElem? hi
  exact { h with
    sorted := by
      have hseq := (List.pairwise_map (f := Skb.seq) (R := (· ≤ ·))).mpr h.sorted
      rw [← hmap Skb.seq fun _ => rfl] at hseq
      exact List.pairwise_map.mp hseq
    ring := by
      intro x hx
      rcases hold x hx with hx | rfl
      · exact h.ring x hx
      · exact ⟨⟨(h.ring e he).sized.ackSeq, (h.ring e he).sized.range, (h.ring e he).sized.len⟩,
          (h.ring e he).got, fun _ => hread⟩
    kept := by
      intro b hb
      rcases h.kept b hb with hb | ⟨x, hx, hxb⟩
      · exact Or.inl hb
      · have hin : (x.seq, x.len) ∈ s.rqueue.map fun x => (x.seq, x.len) :=
          List.mem_map_of_mem (f := fun x : Skb => (x.seq, x.len)) hx
        rw [← hmap (fun x => (x.seq, x.len)) fun _ => rfl] at hin
        obtain ⟨y, hy, hyx⟩ := List.mem_map.mp hin
        obtain ⟨h1, h2⟩ := Prod.mk.inj hyx
        exact Or.inr ⟨y, hy, by rw [h1, h2]; exact hxb⟩ }

/-- Bytes of a segment are read. -/
theorem advance (h : Inv lo s) (he : e ∈ s.rqueue) (hle : e.seq ≤ s.copiedSeq + 1)
    (hn : s.copiedSeq + 1 + n ≤ e.seq + e.len) : Inv lo { s with copiedSeq := s.copiedSeq + n } := by
  have hcopied : s.copiedSeq + n < s.ackedSeq := by
    by_contra hge
    have := h.copied
    -- else the byte at `acked_seq` is in the segment
    exact h.first ⟨_, (h.ring e he).got, by change e.seq ≤ _; omega, by change _ < e.seq + e.len; omega⟩
  exact { h with
    ring := fun x hx =>
      ⟨(h.ring x hx).sized, (h.ring x hx).got, fun hu => by
        have := (h.ring x hx).used hu
        change _ ≤ s.copiedSeq + n + 1
        omega⟩
    kept := fun b hb => (h.kept b hb).imp (fun hb => hb.trans (Nat.le_add_right _ _)) id
    copied := hcopied }

theorem cleanupRbuf (h : Inv lo s) (space : Nat) : Inv lo (cleanupRbuf s space) := by
  have hsub : (s.rqueue.dropWhile Skb.used).Sublist s.rqueue := List.dropWhile_sublist _
  have hdrop : Inv lo { s with rqueue := s.rqueue.dropWhile Skb.used } := { h with
    sorted := h.sorted.sublist hsub
    ring := fun x hx => h.ring x (hsub.mem hx)
    kept := by
      intro b hb
      rcases h.kept b hb with hb | ⟨x, hx, hxb⟩
      · exact Or.inl hb
      · rw [← List.takeWhile_append_dropWhile (p := Skb.used) (l := s.rqueue), List.mem_append] at hx
        rcases hx with hx | hx
        · have := (h.ring x ((List.takeWhile_sublist _).mem hx)).used (List.mem_takeWhile_imp hx)
          exact Or.inl (show b ≤ s.copiedSeq by omega)
        · exact Or.inr ⟨x, hx, hxb⟩ }
  unfold TcpRcv.cleanupRbuf
  dsimp only
  split
  · exact hdrop.addBacklog
  · exact hdrop

theorem setPc (h : Inv lo s) (pc : Pc) : Inv lo { s with pc := pc } := h.congr rfl rfl rfl rfl rfl rfl

theorem waitData (h : Inv lo s) (rd : Read) (space : Nat) : Inv lo (waitData s rd space) :=
  (h.cleanupRbuf space).setPc _

theorem offset_eq (h : Inv lo s) (hle : e.seq ≤ s.copiedSeq + 1) :
    offset s e = s.copiedSeq + 1 - e.seq := by
  have hc := h.copied
  have hr := h.range
  unfold SEQ_WRAP at hr
  rw [offset, show s.copiedSeq + 1 + 2 ^ 32 - e.seq = s.copiedSeq + 1 - e.seq + 2 ^ 32 by omega,
    Nat.add_mod_right, Nat.mod_eq_of_lt (by omega)]

theorem copyData {i : Nat} {rd : Read} (h : Inv lo s) (hi : s.rqueue[i]? = some e)
    (hle : e.seq ≤ s.copiedSeq + 1) (hoff : offset s e < e.len) (space : Nat) :
    Inv lo (copyData s rd i e space) := by
  have he : e ∈ s.rqueue := List.mem_of_getElem? hi
  have hoffset := h.offset_eq hle
  rw [hoffset] at hoff
  have hamount : amount s e rd ≤ e.len - (s.copiedSeq + 1 - e.seq) := by
    rw [amount, hoffset]
    exact Nat.min_le_left _ _
  have hadvance : Inv lo { s with copiedSeq := s.copiedSeq + amount s e rd } :=
    h.advance he hle (by omega)
  -- what has become of the state, whether the segment is used up or not
  have hcopied : Inv lo (if rd.peek then s
      else if e.len ≤ amount s e rd + offset s e then
        TcpRcv.setUsed { s with copiedSeq := s.copiedSeq + amount s e rd } i
      else { s with copiedSeq := s.copiedSeq + amount s e rd }) := by
    split
    · exact h
    · split
      · next hused =>
          refine hadvance.setUsed hi ?_
          change _ ≤ s.copiedSeq + amount s e rd + 1
          omega
      · exact hadvance
  unfold TcpRcv.copyData
  dsimp only
  split
  · exact (hcopied.cleanupRbuf space).setPc _
  · exact hcopied.setPc _

theorem readLoop {rd : Read} {skb : Option Nat} (h : Inv lo s) (hok : ReadFits s skb) (space : Nat) :
    Inv lo (readLoop s rd skb space) := by
  unfold TcpRcv.readLoop
  cases skb with
  | none => exact h.waitData rd space
  | some i =>
      cases hi : s.rqueue[i]? with
      | none =>
          simp only [Option.bind_some, hi, Option.map_none]
          exact h.waitData rd space
      | some e =>
          simp only [Option.bind_some, hi, Option.map_some]
          have he : e ∈ s.rqueue := List.mem_of_getElem? hi
          split
          · exact h.waitData rd space
          · next hnext =>
              have hle : e.seq ≤ s.copiedSeq + 1 := by
                by_contra hgt
                have hc := h.copied
                have hr := h.range
                have hnear := hok i rfl e hi
                have hb : before (s.copiedSeq + 1) e.seq = true :=
                  (before_iff (by omega)).mpr ⟨Nat.lt_of_not_le hgt, hnear⟩
                rw [hb] at hnext
                exact hnext rfl
              split
              · next hoff => exact h.copyData hi hle hoff space
              · next hoff =>
                  rw [h.offset_eq hle] at hoff
                  exact (h.setUsed hi (by omega)).setPc _

/-! ### The steps -/

theorem startRead (h : Inv lo s) (rd : Read) : Inv lo (startRead s rd) :=
  h.congr rfl rfl rfl rfl rfl rfl

theorem step {a : Act} (h : Inv lo s) (hok : Fits s a) :
    (step s a).Ends (fun _ => False) (Inv lo) := by
  cases a with
  | arrive p e =>
      unfold TcpRcv.step
      dsimp only
      split
      · exact h.congr rfl rfl rfl rfl rfl rfl
      · next hinuse => exact h.tcpRcv (hok (Bool.eq_false_iff.mpr hinuse))
  | read rd =>
      unfold TcpRcv.step
      dsimp only
      split
      · exact h.startRead rd
      · trivial
  | go e =>
      unfold TcpRcv.step TcpRcv.go
      unfold Fits at hok
      cases hpc : s.pc with
      | idle => trivial
      | loop rd skb =>
          rw [hpc] at hok
          exact h.readLoop hok e.space
      | release rd waits =>
          rw [hpc] at hok
          change Inv lo (release s rd waits e)
          unfold release
          cases hb : s.backLog with
          | nil => exact h.congr rfl rfl rfl rfl rfl rfl
          | cons p l =>
              rw [hb] at hok
              change RcvFits { s with backLog := l, pc := .release rd waits } p e at hok
              rw [← hpc] at hok
              have hpop : Inv lo { s with backLog := l } := h.congr rfl rfl rfl rfl rfl rfl
              exact hpop.tcpRcv hok
      | test rd =>
          change Inv lo (if noData s then { s with pc := .sleep rd } else TcpRcv.startRead s rd)
          split
          · exact h.setPc _
          · exact h.startRead rd
      | sleep rd => exact h.startRead rd
  | signal =>
      unfold TcpRcv.step
      dsimp only
      split
      · exact h.setPc _
      · trivial
  | send space => exact h.addAck rfl rfl rfl rfl rfl rfl

end Inv

/-! ### All runs -/

theorem Inv.at_self (h : Inv lo s) : Inv s.ackedSeq s := { h with floor := Nat.le_refl _ }

/-- `acked_seq` is the first number that has not come in, in every state of a run in which no
segment ends before what is there without a gap where it matters, and it never gets smaller. -/
theorem acks_sound_of_fits (hinit : Init s) (h : Reaches step Fits s s') :
    Sound s' ∧ ∀ a s'', Fits s' a → step s' a = .next s'' → s'.ackedSeq ≤ s''.ackedSeq := by
  have hinv : Inv 0 s' := h.invariant (Inv.of_init hinit) fun _ _ _ ht hok hs => (ht.step hok).of_next hs
  exact ⟨hinv.sound, fun a s'' hok hs => ((hinv.at_self.step hok).of_next hs).floor⟩

/-! ### Two runs -/

def established : State where
  ackedSeq := 100000
  copiedSeq := 99999
  window := 4096
  mtu := 500
  delayAcks := true
  ackBacklog := 0
  maxAckBacklog := 2
  bytesRcv := 0
  maxUnacked := 2048
  inuse := false
  rqueue := []
  backLog := []
  pc := .idle
  start := 100000
  got := []
  acks := []

theorem init_established : Init established :=
  ⟨rfl, rfl, by decide, rfl, rfl, rfl, rfl, rfl, rfl⟩

/-- A segment with `n` bytes. -/
def segment (seq n : Nat) (psh : Bool) (h : seq + n < SEQ_WRAP) : Packet where
  seq := seq
  doff := 5
  len := 20 + n
  psh := psh
  ack := true
  memLen := 106 + n
  header := by decide
  whole := by omega
  fits := by
    unfold SK_BUFF
    omega
  range := by omega

def env : Env := { rmem := 0, ackOk := true, resync := .sent 4096, reply := .sent 4096, space := 4096 }

/-- A segment overtakes another one, which comes in while `tcp_read` reads the first. -/
def overtakenRun : List Act :=
  [.arrive (segment 100000 100 false (by decide)) env, .arrive (segment 100200 100 true (by decide)) env,
    .read ⟨250, 0, false, false⟩, .go env, .arrive (segment 100100 100 false (by decide)) env, .go env,
    .go env, .go env, .go env, .go env, .go env, .go env,
    .arrive (segment 100000 100 false (by decide)) env, .read ⟨10, 0, false, true⟩, .go env, .go env,
    .read ⟨100, 0, true, false⟩, .go env, .go env]

theorem acks_sound_of_fits_overtakenRun :
    RunOk step Fits established overtakenRun ∧ (∃ s, run step established overtakenRun = .next s) ∧
      ∀ bs, bs <+: overtakenRun → ∀ s, run step established bs = .next s →
        Sound s ∧ ∀ a s', Fits s a → step s a = .next s' → s.ackedSeq ≤ s'.ackedSeq := by
  have hok : RunOk step Fits established overtakenRun := by
    iterate 19 refine RunOk.cons (by decide) ?_
    exact True.intro
  exact ⟨hok, ⟨_, Outcome.eq_next (by decide) established⟩, fun bs hpre s hs =>
    acks_sound_of_fits init_established (Reaches.of_run hs (hok.of_prefix hpre))⟩

/-- An old segment without data, but with PSH, comes in behind the segment with the bytes. -/
def lateRun : List Act :=
  [.arrive (segment 100000 100 true (by decide)) env, .arrive (segment 100000 0 true (by decide)) env]

/-- `acked_seq` is back at the first byte, which has been acknowledged. -/
theorem acks_not_sound :
    ∃ s, Init established ∧ run step established lateRun = .next s ∧ ¬ Sound s := by
  have hacked : ((run step established lateRun).get established).ackedSeq = 100000 := by
    decide
  have hgot : (100000, 100) ∈ ((run step established lateRun).get established).got := by
    decide
  refine ⟨_, init_established, Outcome.eq_next (by decide) established, fun h => ?_⟩
  refine h.first ⟨_, hgot, ?_⟩
  rw [hacked]
  decide

end LinuxKernel.V098.Net.TcpRcv
