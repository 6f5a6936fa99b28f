import Mathlib.Data.List.Perm.Subperm
import LinuxKernel.V098.Kernel.Wait

/-!
# LinuxKernel.V098.Kernel.WaitRings

**No sleeper is lost on a wait queue.**

`Holds s q l` says what a queue looks like: the entries of `l` form a ring that starts at
`*q`, and all that no `wake_up` has come to are among them. Where `l` is empty, `*q` may
still point to an entry that has been woken and not removed; that one, like all others which
were cut off, is linked to nothing.
-/

namespace LinuxKernel.V098.Kernel.Wait

variable {s s' : State} {a : Act} {p q : Queue} {e e' h tmp wait : Entry} {l m : List Entry} {n : Nat}

/-! ### The loops -/

/-- The loop of `add_wait_queue` ends at the end of a ring. -/
theorem addLoop_path {b : Entry} (hb : s.next tmp = some b) (hp : Path s.next (b :: l) (some h))
    (hl : h ∉ l) (hn : l.length < n) :
    ∃ l', b :: l = l' ++ [(b :: l).getLast (List.cons_ne_nil b l)] ∧
      addLoop s.next (some h) n tmp = some ((b :: l).getLast (List.cons_ne_nil b l)) := by
  refine ⟨(b :: l).dropLast, (List.dropLast_append_getLast _).symm, ?_⟩
  induction l generalizing tmp b n with
  | nil =>
      cases n with
      | zero => cases hn
      | succ n =>
          unfold addLoop
          rw [hb]
          exact if_pos hp.1
  | cons c l ih =>
      cases n with
      | zero => cases hn
      | succ n =>
          unfold addLoop
          rw [hb]
          have hc : s.next b = some c := hp.1
          have hch : c ≠ h := fun he => hl (he ▸ List.mem_cons_self)
          dsimp only
          rw [if_neg (by rw [hc]; exact fun he => hch (Option.some.inj he))]
          rw [ih hc hp.2 (fun hin => hl (List.mem_cons_of_mem c hin)) (Nat.lt_of_succ_lt_succ hn)]
          rw [List.getLast_cons (List.cons_ne_nil c l)]

/-- The loop of `remove_wait_queue` ends at the element linked to the first. -/
theorem walk_path {b : Entry} (hp : Path s.next (b :: l) (some wait)) (hl : wait ∉ l)
    (hn : l.length < n) :
    walk s.next (fun tmp => s.next tmp = some wait) n (some b) =
      some (some ((b :: l).getLast (List.cons_ne_nil b l))) := by
  induction l generalizing b n with
  | nil =>
      cases n with
      | zero => cases hn
      | succ n =>
          have hb : s.next b = some wait := hp.1
          simp [walk, hb]
  | cons c l ih =>
      cases n with
      | zero => cases hn
      | succ n =>
          have hc : s.next b = some c := hp.1
          have hcw : c ≠ wait := fun he => hl (he ▸ List.mem_cons_self)
          unfold walk
          rw [if_neg (by simpa [hc] using hcw), hc,
            ih hp.2 (fun hin => hl (List.mem_cons_of_mem c hin)) (Nat.lt_of_succ_lt_succ hn),
            List.getLast_cons (List.cons_ne_nil c l)]

/-- What a queue looks like after the entries of `l` have been woken. -/
def woken (s : State) (l : List Entry) (state : Task → TaskState) : State :=
  { s with
    state := state
    next := fun e => if e ∈ l then none else s.next e
    pending := fun e => if e ∈ l then false else s.pending e }

/-- The loop of `wake_up` goes round the ring once. -/
theorem wakeLoop_path {b : Entry} (hp : Path s.next (b :: l) (some h)) (hh : s.head q = some h)
    (hl : h ∉ l) (hnd : (b :: l).Nodup) (hq : ∀ e ∈ b :: l, s.queue e = some q)
    (hn : l.length < n) : ∃ st, wakeLoop q n b s = .next (woken s (b :: l) st) := by
  induction l generalizing b n s with
  | nil =>
      cases n with
      | zero => cases hn
      | succ n =>
          have hb : s.next b = some h := hp.1
          refine ⟨wake s.state b.task, ?_⟩
          unfold wakeLoop
          rw [hb]
          dsimp only
          rw [if_pos hh, if_pos (hq b List.mem_cons_self)]
          congr 1
          unfold woken
          congr 1 <;> funext e <;> rw [Function.update_apply] <;> simp only [List.mem_singleton]
  | cons c l ih =>
      cases n with
      | zero => cases hn
      | succ n =>
          have hb : s.next b = some c := hp.1
          have hch : h ≠ c := fun he => hl (he ▸ List.mem_cons_self)
          have hbl := (List.nodup_cons.mp hnd).1
          unfold wakeLoop
          rw [hb]
          dsimp only
          rw [if_neg (by rw [hh]; exact fun he => hch (Option.some.inj he)),
            if_pos (hq b List.mem_cons_self)]
          obtain ⟨st, hw⟩ := ih (n := n) (b := c) (s := { s with
              state := wake s.state b.task
              next := Function.update s.next b none
              pending := Function.update s.pending b false })
            (hp.2.congr fun e he => Function.update_of_ne (ne_of_mem_of_not_mem he hbl) ..) hh
            (fun hin => hl (List.mem_cons_of_mem c hin)) (List.nodup_cons.mp hnd).2
            (fun e he => hq e (List.mem_cons_of_mem b he)) (Nat.lt_of_succ_lt_succ hn)
          refine ⟨st, ?_⟩
          rw [hw]
          unfold woken
          congr 2
          · funext e
            simp only [Function.update_apply]
            by_cases heb : e = b
            · subst heb
              simp
            · simp [heb]
          · funext e
            simp only [Function.update_apply]
            by_cases heb : e = b
            · subst heb
              simp
            · simp [heb]

/-! ### What the queues look like -/

structure Holds (s : State) (q : Queue) (l : List Entry) : Prop where
  nodup : l.Nodup
  member : ∀ e ∈ l, s.queue e = some q
  ring : l ≠ [] → Cycle s.next l ∧ s.head q = l.head?
  stale : l = [] → ∀ h, s.head q = some h → s.queue h = some q
  pending : ∀ e, s.queue e = some q → s.pending e = true → e ∈ l
  cut : ∀ e, s.queue e = some q → e ∉ l → s.next e = none

structure Rings (s : State) : Prop where
  holds : ∀ q, ∃ l, Holds s q l
  nodup : s.used.Nodup
  used : ∀ e, e ∈ s.used ↔ s.queue e ≠ none
  free : ∀ e, s.queue e = none → s.next e = none

theorem Rings.congr (hr : Rings s) (hh : s'.head = s.head) (hn : s'.next = s.next)
    (hq : s'.queue = s.queue) (hp : s'.pending = s.pending) (hu : s'.used = s.used) :
    Rings s' := by
  refine ⟨fun q => ?_, by rw [hu]; exact hr.nodup, fun e => ?_, fun e => ?_⟩
  · obtain ⟨l, hl⟩ := hr.holds q
    refine ⟨l, hl.nodup, ?_, ?_, ?_, ?_, ?_⟩
    · rw [hq]
      exact hl.member
    · rw [hh, hn]
      exact hl.ring
    · rw [hh, hq]
      exact hl.stale
    · rw [hq, hp]
      exact hl.pending
    · rw [hq, hn]
      exact hl.cut
  · rw [hq, hu]
    exact hr.used e
  · rw [hq, hn]
    exact hr.free e

/-- A queue whose entries keep their links stays as it is. -/
theorem Holds.frame (hl : Holds s q l) (hh : s'.head q = s.head q)
    (hq : ∀ e, s'.queue e = some q ↔ s.queue e = some q)
    (hn : ∀ e, s.queue e = some q → s'.next e = s.next e)
    (hp : ∀ e, s.queue e = some q → s'.pending e = true → s.pending e = true) :
    Holds s' q l where
  nodup := hl.nodup
  member e he := (hq e).mpr (hl.member e he)
  ring hne := by
    rw [hh]
    exact ⟨(hl.ring hne).1.congr fun e he => hn e (hl.member e he), (hl.ring hne).2⟩
  stale hnil h hhead := by
    rw [hh] at hhead
    exact (hq h).mpr (hl.stale hnil h hhead)
  pending e he hpe := hl.pending e ((hq e).mp he) (hp e ((hq e).mp he) hpe)
  cut e he hnot := (hn e ((hq e).mp he)).trans (hl.cut e ((hq e).mp he) hnot)

namespace Rings

/-- A ring is no longer than the list of the entries in use. -/
theorem length_le (hr : Rings s) (hl : Holds s q l) : l.length ≤ s.used.length := by
  refine (hl.nodup.subperm fun e he => ?_).length_le
  rw [hr.used, hl.member e he]
  exact Option.some_ne_none q

/-- `*q` points to an entry that is on `q`. -/
theorem head_queue (hr : Rings s) (hh : s.head q = some h) : s.queue h = some q := by
  obtain ⟨l, hl⟩ := hr.holds q
  by_cases hnil : l = []
  · exact hl.stale hnil h hh
  · rw [(hl.ring hnil).2] at hh
    exact hl.member h (List.mem_of_head? hh)

/-- A link leads to an entry of the same queue. -/
theorem next_queue (hr : Rings s) (hn : s.next e = some e') :
    ∃ q, s.queue e = some q ∧ s.queue e' = some q := by
  cases hq : s.queue e with
  | none =>
      rw [hr.free e hq] at hn
      cases hn
  | some q =>
      obtain ⟨l, hl⟩ := hr.holds q
      by_cases hin : e ∈ l
      · obtain ⟨b, hb, hnb⟩ := (hl.ring (List.ne_nil_of_mem hin)).1.next_mem hin
        rw [hn] at hnb
        obtain rfl := Option.some.inj hnb
        exact ⟨q, rfl, hl.member _ hb⟩
      · rw [hl.cut e hq hin] at hn
        cases hn

/-! ### `add_wait_queue` -/

/-- `wait` is on `p`, and `tmp` linked to it. -/
def added (s : State) (p : Queue) (wait tmp : Entry) : State :=
  { s with
    next := Function.update (Function.update s.next wait (s.head p)) tmp (some wait)
    head := Function.update s.head p (some wait)
    used := wait :: s.used
    queue := Function.update s.queue wait (some p)
    pending := Function.update s.pending wait true }

/-- The entry `tmp` at which the loop ends is `wait` itself or one of the queue, and with
what was on the queue before there is a ring that starts with `wait`. -/
theorem exists_added (hr : Rings s) (hw : s.queue wait = none) :
    ∃ tmp l, addWaitQueue s p wait = .next (added s p wait tmp) ∧
      (tmp = wait ∨ s.queue tmp = some p) ∧ Holds (added s p wait tmp) p (wait :: l) := by
  obtain ⟨l, hl⟩ := hr.holds p
  have hself : Function.update s.next wait (s.head p) wait = s.head p := Function.update_self ..
  have hne : ∀ e, s.queue e = some p → e ≠ wait := by
    rintro e he rfl
    rw [hw] at he
    cases he
  -- what is left to show is that there is a ring
  have hbuild : ∀ tmp m, (tmp = wait ∨ s.queue tmp = some p) → m.Nodup →
      (∀ e ∈ m, s.queue e = some p) → l ⊆ m →
      (∀ e, s.queue e = some p → e ∉ m → e ≠ tmp) →
      Cycle (added s p wait tmp).next (wait :: m) → Holds (added s p wait tmp) p (wait :: m) := by
    intro tmp m htmp hnd hmem hsub hcut hcyc
    refine ⟨List.nodup_cons.mpr ⟨fun hin => hne _ (hmem _ hin) rfl, hnd⟩, ?_, ?_, nofun, ?_, ?_⟩
    · intro e he
      change Function.update s.queue wait (some p) e = some p
      rcases List.mem_cons.mp he with rfl | hin
      · exact Function.update_self ..
      · rw [Function.update_of_ne (hne e (hmem e hin))]
        exact hmem e hin
    · exact fun _ => ⟨hcyc, Function.update_self ..⟩
    · intro e he hp
      change Function.update s.queue wait (some p) e = some p at he
      change Function.update s.pending wait true e = true at hp
      by_cases hew : e = wait
      · rw [hew]
        exact List.mem_cons_self
      · rw [Function.update_of_ne hew] at he hp
        exact List.mem_cons_of_mem wait (hsub (hl.pending e he hp))
    · intro e he hnot
      obtain ⟨hew, hem⟩ := not_or.mp (mt List.mem_cons.mpr hnot)
      change Function.update s.queue wait (some p) e = some p at he
      rw [Function.update_of_ne hew] at he
      change Function.update (Function.update s.next wait (s.head p)) tmp (some wait) e = none
      rw [Function.update_of_ne (hcut e he hem), Function.update_of_ne hew]
      exact hl.cut e he fun hin => hem (hsub hin)
  unfold addWaitQueue
  dsimp only
  cases hhead : s.head p with
  | none =>
      -- `wait` alone
      have hnil : l = [] := by
        by_contra hne
        have := (hl.ring hne).2
        rw [hhead] at this
        cases l with
        | nil => exact hne rfl
        | cons b l => cases this
      rw [hhead] at hself
      refine ⟨wait, [], ?_, Or.inl rfl, hbuild wait [] (Or.inl rfl) List.nodup_nil nofun ?_ ?_ ?_⟩
      · unfold addLoop
        rw [hself]
        dsimp only
        unfold added
        rw [hhead]
      · rw [hnil]
        exact List.Subset.refl _
      · exact fun e he _ => hne e he
      · exact ⟨Function.update_self .., trivial⟩
  | some h =>
      have hqh := hr.head_queue hhead
      have hhw := hne h hqh
      rw [hhead] at hself
      have hfuel : 0 < s.used.length :=
        List.length_pos_of_mem ((hr.used h).mpr (by rw [hqh]; exact Option.some_ne_none p))
      cases hcase : l with
      | nil =>
          -- behind `wait` the entry that is left over from the last `wake_up`
          have hcut : Function.update s.next wait (some h) h = none := by
            rw [Function.update_of_ne hhw]
            exact hl.cut h hqh (by rw [hcase]; exact List.not_mem_nil)
          refine ⟨h, [h], ?_, Or.inr hqh, hbuild h [h] (Or.inr hqh) (List.nodup_singleton h) ?_ ?_
            ?_ ?_⟩
          · obtain ⟨n, hn⟩ := Nat.exists_eq_add_of_lt hfuel
            rw [hn]
            unfold addLoop
            rw [hself]
            dsimp only
            rw [if_neg (by rw [hcut]; nofun)]
            unfold addLoop
            rw [hcut]
            dsimp only
            unfold added
            rw [hhead]
          · intro e he
            obtain rfl := List.mem_singleton.mp he
            exact hqh
          · rw [hcase]
            exact List.nil_subset _
          · exact fun e _ hem => fun he => hem (List.mem_singleton.mpr he)
          · refine ⟨?_, Function.update_self .., trivial⟩
            change Function.update (Function.update s.next wait (s.head p)) h (some wait) wait = some h
            rw [Function.update_of_ne hhw.symm, Function.update_self, hhead]
      | cons b m =>
          have hring := hl.ring (by rw [hcase]; exact List.cons_ne_nil b m)
          rw [hcase, hhead] at hring
          obtain rfl : h = b := Option.some.inj hring.2
          have hnd := hl.nodup
          rw [hcase] at hnd
          have hmem : ∀ e ∈ h :: m, s.queue e = some p := by
            rw [← hcase]
            exact hl.member
          have hnext : ∀ e ∈ h :: m, Function.update s.next wait (some h) e = s.next e :=
            fun e he => Function.update_of_ne (hne e (hmem e he)) ..
          have hlen := hr.length_le hl
          rw [hcase, List.length_cons] at hlen
          obtain ⟨l', hlast, hloop⟩ := addLoop_path
            (s := { s with next := Function.update s.next wait (some h) }) (l := m)
            (n := s.used.length + 1) hself (hring.1.congr hnext) (List.nodup_cons.mp hnd).1 (by omega)
          have hin : (h :: m).getLast (List.cons_ne_nil h m) ∈ h :: m := List.getLast_mem _
          refine ⟨(h :: m).getLast (List.cons_ne_nil h m), h :: m, ?_, Or.inr (hmem _ hin),
            hbuild _ (h :: m) (Or.inr (hmem _ hin)) hnd hmem ?_ ?_ ?_⟩
          · rw [hloop]
            dsimp only
            unfold added
            rw [hhead]
          · rw [hcase]
            exact List.Subset.refl _
          · rintro e - hem rfl
            exact hem hin
          · generalize (h :: m).getLast (List.cons_ne_nil h m) = z at hlast hin ⊢
            have hzw := hne z (hmem z hin)
            rw [hlast] at hring hnd ⊢
            refine hring.1.push ?_ hnd ?_ (Function.update_self ..) fun c hcw hcz => ?_
            · rw [← hlast]
              exact fun hwin => hne _ (hmem _ hwin) rfl
            · change Function.update (Function.update s.next wait (s.head p)) z (some wait) wait = _
              rw [Function.update_of_ne hzw.symm, Function.update_self, hhead, ← hlast]
              rfl
            · change Function.update (Function.update s.next wait (s.head p)) z (some wait) c = _
              rw [Function.update_of_ne hcz, Function.update_of_ne hcw]

variable (wait) in
theorem add (hr : Rings s) (hw : s.queue wait = none) :
    ∃ tmp, addWaitQueue s p wait = .next (added s p wait tmp) ∧ Rings (added s p wait tmp) := by
  obtain ⟨tmp, l, heq, htmp, hl⟩ := hr.exists_added (p := p) hw
  have hqueue : ∀ e, e ≠ wait → (added s p wait tmp).queue e = s.queue e :=
    fun e he => Function.update_of_ne he ..
  have hnext : ∀ e, e ≠ wait → s.queue e ≠ some p → (added s p wait tmp).next e = s.next e := by
    intro e he hep
    have het : e ≠ tmp := by
      rintro rfl
      exact htmp.elim he hep
    change Function.update (Function.update s.next wait (s.head p)) tmp (some wait) e = s.next e
    rw [Function.update_of_ne het, Function.update_of_ne he]
  refine ⟨tmp, heq, fun q => ?_, ?_, fun e => ?_, fun e he => ?_⟩
  · by_cases hqp : q = p
    · subst hqp
      exact ⟨_, hl⟩
    · obtain ⟨m, hm⟩ := hr.holds q
      have hne : ∀ e, s.queue e = some q → e ≠ wait := by
        rintro e he rfl
        rw [hw] at he
        cases he
      refine ⟨m, hm.frame (Function.update_of_ne hqp ..) (fun e => ?_) (fun e he => ?_)
        fun e he hp => ?_⟩
      · by_cases hew : e = wait
        · subst hew
          change Function.update s.queue e (some p) e = some q ↔ _
          rw [Function.update_self, hw]
          exact ⟨fun h => absurd (Option.some.inj h).symm hqp, nofun⟩
        · rw [hqueue e hew]
      · refine hnext e (hne e he) ?_
        rw [he]
        exact fun h => hqp (Option.some.inj h)
      · change Function.update s.pending wait true e = true at hp
        rwa [Function.update_of_ne (hne e he)] at hp
  · refine List.nodup_cons.mpr ⟨fun hin => ?_, hr.nodup⟩
    exact (hr.used wait).mp hin hw
  · by_cases hew : e = wait
    · subst hew
      change e ∈ e :: s.used ↔ Function.update s.queue e (some p) e ≠ none
      simp
    · rw [hqueue e hew, ← hr.used]
      exact ⟨fun hin => (List.mem_cons.mp hin).resolve_left hew, List.mem_cons_of_mem wait⟩
  · have hew : e ≠ wait := by
      rintro rfl
      change Function.update s.queue e (some p) e = none at he
      rw [Function.update_self] at he
      cases he
    rw [hqueue e hew] at he
    rw [hnext e hew (by rw [he]; nofun)]
    exact hr.free e he

/-! ### `remove_wait_queue` -/

def taken (s : State) (wait : Entry) (next : Entry → Option Entry) (head : Queue → Option Entry) :
    State :=
  { s with
    next := next
    head := head
    used := s.used.erase wait
    queue := Function.update s.queue wait none
    pending := Function.update s.pending wait false }

/-- What a removal leaves of the queue `p`, which held `l`. -/
structure Leaves (s : State) (p : Queue) (wait : Entry) (l : List Entry)
    (next : Entry → Option Entry) (head : Queue → Option Entry) (m : List Entry) : Prop where
  holds : Holds (taken s wait next head) p m
  others : ∀ e ∈ l, e ≠ wait → e ∈ m
  stale : l = [] → m = [] ∧ ∀ e, e ≠ wait → s.head p = some e → head p = some e
  otherHead : ∀ q, q ≠ p → head q = s.head q
  otherNext : ∀ e, s.queue e ≠ some p → next e = s.next e
  free : next wait = none

theorem ne_wait (hq : Function.update s.queue wait none e = some q) :
    e ≠ wait ∧ s.queue e = some q := by
  by_cases hew : e = wait
  · rw [hew, Function.update_self] at hq
    cases hq
  · rw [Function.update_of_ne hew] at hq
    exact ⟨hew, hq⟩

/-- An entry of the ring is taken out of it. -/
theorem exists_removed_ring (hr : Rings s) (hl : Holds s p l) (hin : wait ∈ l) :
    ∃ next head m, removeWaitQueue s p wait = .next (taken s wait next head) ∧
      Leaves s p wait l next head m := by
  obtain ⟨l₁, l₂, rfl⟩ := List.append_of_mem hin
  obtain ⟨hcyc, hhead⟩ := hl.ring (List.ne_nil_of_mem hin)
  have hrot : Cycle s.next (wait :: (l₂ ++ l₁)) := hcyc.rotate
  have hperm : (wait :: (l₂ ++ l₁)).Perm (l₁ ++ wait :: l₂) := by
    refine List.Perm.trans ?_ List.perm_middle.symm
    exact List.Perm.cons wait List.perm_append_comm
  have hnd : (wait :: (l₂ ++ l₁)).Nodup := hperm.nodup_iff.mpr hl.nodup
  have hwm := (List.nodup_cons.mp hnd).1
  have hlen := hr.length_le hl
  have hmem : ∀ e ∈ wait :: (l₂ ++ l₁), s.queue e = some p :=
    fun e he => hl.member e (hperm.mem_iff.mp he)
  have hwalk := walk_path (n := s.used.length + 1) hrot hwm (by
    simp only [List.length_append, List.length_cons] at hlen ⊢
    omega)
  have hwnext : s.next wait = (l₂ ++ l₁).head?.or (some wait) := hrot.1
  have hsub : ∀ e, s.queue e = some p → s.pending e = true → e ≠ wait → e ∈ l₁ ++ l₂ := by
    intro e he hp hew
    have := hl.pending e he hp
    simp only [List.mem_append, List.mem_cons] at this ⊢
    rcases this with h1 | h1 | h1
    · exact Or.inl h1
    · exact absurd h1 hew
    · exact Or.inr h1
  have hothers : ∀ e ∈ l₁ ++ wait :: l₂, e ≠ wait → e ∈ l₁ ++ l₂ := by
    intro e he hew
    simp only [List.mem_append, List.mem_cons] at he ⊢
    rcases he with h1 | h1 | h1
    · exact Or.inl h1
    · exact absurd h1 hew
    · exact Or.inr h1
  have hhw : s.head p = some wait ↔ l₁ = [] := by
    rw [hhead]
    cases l₁ with
    | nil => simp
    | cons b l =>
        simp only [List.cons_append, List.head?_cons, Option.some.injEq, reduceCtorEq, iff_false]
        rintro rfl
        exact hwm (by simp)
  have hself : s.next wait = some wait ↔ l₂ ++ l₁ = [] := by
    rw [hwnext]
    cases hm : l₂ ++ l₁ with
    | nil => simp
    | cons b m =>
        simp only [List.head?_cons, Option.some_or, Option.some.injEq, reduceCtorEq, iff_false]
        rintro rfl
        rw [hm] at hwm
        exact hwm List.mem_cons_self
  -- the last element before `wait`, which may be `wait` itself
  have hz : (wait :: (l₂ ++ l₁)).getLast (List.cons_ne_nil _ _) ∈ wait :: (l₂ ++ l₁) :=
    List.getLast_mem _
  have hdrop := List.dropLast_append_getLast (List.cons_ne_nil wait (l₂ ++ l₁))
  generalize (wait :: (l₂ ++ l₁)).getLast (List.cons_ne_nil _ _) = z at hwalk hz hdrop
  refine ⟨Function.update (Function.update s.next z (s.next wait)) wait none, _, l₁ ++ l₂, by
    unfold removeWaitQueue
    rw [hwalk]
    rfl, ?_, hothers, fun hnil => absurd hnil (List.ne_nil_of_mem hin), fun q hq => ?_,
    fun e he => ?_, Function.update_self ..⟩
  · refine ⟨?_, fun e he => ?_, fun hne => ?_, fun hnil h hh => ?_, fun e he hp => ?_,
      fun e he hnot => ?_⟩
    · exact (List.perm_append_comm.nodup_iff).mp (List.nodup_cons.mp hnd).2
    · have hem : e ∈ l₂ ++ l₁ := List.perm_append_comm.mem_iff.mp he
      change Function.update s.queue wait none e = some p
      rw [Function.update_of_ne (ne_of_mem_of_not_mem hem hwm)]
      exact hmem e (List.mem_cons_of_mem wait hem)
    · have hm : l₂ ++ l₁ ≠ [] := fun hm => hne (by
        rw [List.append_eq_nil_iff] at hm ⊢
        exact ⟨hm.2, hm.1⟩)
      obtain ⟨m, hmz⟩ : ∃ m, l₂ ++ l₁ = m ++ [z] := by
        refine ⟨(l₂ ++ l₁).dropLast, ?_⟩
        rw [List.dropLast_cons_of_ne_nil hm] at hdrop
        exact (List.cons.inj hdrop).2.symm
      have hzw : z ≠ wait := by
        rintro rfl
        rw [hmz] at hwm
        exact hwm (by simp)
      constructor
      · refine Cycle.rotate ?_
        rw [hmz] at hrot hnd ⊢
        refine hrot.pop hnd ?_ fun b hbw hbz => ?_
        · change Function.update (Function.update s.next z (s.next wait)) wait none z = _
          rw [Function.update_of_ne hzw, Function.update_self]
        · change Function.update (Function.update s.next z (s.next wait)) wait none b = _
          rw [Function.update_of_ne hbw, Function.update_of_ne hbz]
      · change (if s.head p = some wait then Function.update s.head p _ else s.head) p = _
        by_cases h1 : l₁ = []
        · rw [if_pos (hhw.mpr h1), Function.update_self, if_neg (by rw [hself]; exact hm), hwnext, h1,
            List.append_nil, List.nil_append]
          rw [h1, List.append_nil] at hm
          cases l₂ with
          | nil => exact absurd rfl hm
          | cons b l => rfl
        · rw [if_neg (by rw [hhw]; exact h1), hhead]
          cases l₁ with
          | nil => exact absurd rfl h1
          | cons b l => rfl
    · -- nothing is left
      change (if s.head p = some wait then Function.update s.head p _ else s.head) p = some h at hh
      obtain ⟨h1, h2⟩ := List.append_eq_nil_iff.mp hnil
      rw [if_pos (hhw.mpr h1), Function.update_self, if_pos (hself.mpr (by rw [h1, h2]; rfl))] at hh
      cases hh
    · obtain ⟨hew, he⟩ := ne_wait he
      change Function.update s.pending wait false e = true at hp
      rw [Function.update_of_ne hew] at hp
      exact hsub e he hp hew
    · obtain ⟨hew, he⟩ := ne_wait he
      have hem : e ∉ l₁ ++ wait :: l₂ := fun hin => hnot (hothers e hin hew)
      have hez : e ≠ z := by
        rintro rfl
        exact hem (hperm.mem_iff.mp hz)
      change Function.update (Function.update s.next z (s.next wait)) wait none e = none
      rw [Function.update_of_ne hew, Function.update_of_ne hez]
      exact hl.cut e he hem
  · split
    · exact Function.update_of_ne hq ..
    · rfl
  · have hez : e ≠ z := by
      rintro rfl
      exact he (hmem e hz)
    have hew : e ≠ wait := by
      rintro rfl
      exact he (hmem e List.mem_cons_self)
    rw [Function.update_of_ne hew, Function.update_of_ne hez]

/-- An entry that has been cut off is linked to nothing; only `*p` may still point to it. -/
theorem exists_removed_cut (hw : s.queue wait = some p) (hl : Holds s p l)
    (hin : wait ∉ l) :
    ∃ next head m, removeWaitQueue s p wait = .next (taken s wait next head) ∧
      Leaves s p wait l next head m := by
  have hnw := hl.cut wait hw hin
  have hwalk : walk s.next (fun tmp => s.next tmp = some wait) (s.used.length + 1) (some wait) =
      some none := by
    unfold walk
    rw [if_neg (by simp [hnw]), hnw]
    cases s.used.length <;> rfl
  have hnext : Function.update s.next wait none = s.next :=
    Function.update_eq_self_iff.mpr hnw.symm
  refine ⟨Function.update s.next wait none, _, l, by
    unfold removeWaitQueue
    rw [hwalk]
    rfl, ?_, fun e he _ => he, fun hnil => ⟨hnil, fun e hew hh => ?_⟩, fun q hq => ?_,
    fun e _ => by rw [hnext], Function.update_self ..⟩
  · refine ⟨hl.nodup, fun e he => ?_, fun hne => ?_, fun hnil h hh => ?_, fun e he hp => ?_,
      fun e he hnot => ?_⟩
    · change Function.update s.queue wait none e = some p
      rw [Function.update_of_ne (ne_of_mem_of_not_mem he hin)]
      exact hl.member e he
    · obtain ⟨hcyc, hhead⟩ := hl.ring hne
      refine ⟨hcyc.congr fun e _ => congrFun hnext e, ?_⟩
      change (if s.head p = some wait then Function.update s.head p _ else s.head) p = _
      rw [if_neg, hhead]
      rw [hhead]
      exact fun he => hin (List.mem_of_head? he)
    · change (if s.head p = some wait then Function.update s.head p _ else s.head) p = some h at hh
      by_cases hpw : s.head p = some wait
      · rw [if_pos hpw, Function.update_self, hnw] at hh
        cases hh
      · rw [if_neg hpw] at hh
        change Function.update s.queue wait none h = some p
        rw [Function.update_of_ne]
        · exact hl.stale hnil h hh
        · rintro rfl
          exact hpw hh
    · obtain ⟨hew, he⟩ := ne_wait he
      change Function.update s.pending wait false e = true at hp
      rw [Function.update_of_ne hew] at hp
      exact hl.pending e he hp
    · obtain ⟨-, he⟩ := ne_wait he
      exact (congrFun hnext e).trans (hl.cut e he hnot)
  · rw [if_neg]
    · exact hh
    · rw [hh]
      exact fun heq => hew (Option.some.inj heq)
  · split
    · exact Function.update_of_ne hq ..
    · rfl

theorem exists_removed (hr : Rings s) (hw : s.queue wait = some p) (hl : Holds s p l) :
    ∃ next head m, removeWaitQueue s p wait = .next (taken s wait next head) ∧
      Leaves s p wait l next head m := by
  by_cases hin : wait ∈ l
  · exact hr.exists_removed_ring hl hin
  · exact exists_removed_cut hw hl hin

theorem of_leaves (hr : Rings s) (hw : s.queue wait = some p)
    {next : Entry → Option Entry} {head : Queue → Option Entry}
    (hlv : Leaves s p wait l next head m) : Rings (taken s wait next head) := by
  have hqueue : ∀ e, e ≠ wait → (taken s wait next head).queue e = s.queue e :=
    fun e he => Function.update_of_ne he ..
  have hself : (taken s wait next head).queue wait = none := Function.update_self ..
  refine ⟨fun q => ?_, hr.nodup.erase wait, fun e => ?_, fun e he => ?_⟩
  · by_cases hqp : q = p
    · subst hqp
      exact ⟨m, hlv.holds⟩
    · obtain ⟨l', hl'⟩ := hr.holds q
      have hother : ∀ e, s.queue e = some q → s.queue e ≠ some p := by
        intro e he hep
        rw [he] at hep
        exact hqp (Option.some.inj hep)
      have hne : ∀ e, s.queue e = some q → e ≠ wait := by
        rintro e he rfl
        exact hother e he hw
      refine ⟨l', hl'.frame (hlv.otherHead q hqp) (fun e => ?_) (fun e he => ?_) fun e he hp => ?_⟩
      · by_cases hew : e = wait
        · subst hew
          rw [hself, hw]
          exact ⟨nofun, fun he => absurd (Option.some.inj he).symm hqp⟩
        · rw [hqueue e hew]
      · exact hlv.otherNext e (hother e he)
      · change Function.update s.pending wait false e = true at hp
        rwa [Function.update_of_ne (hne e he)] at hp
  · change e ∈ s.used.erase wait ↔ _
    rw [hr.nodup.mem_erase_iff, hr.used]
    by_cases hew : e = wait
    · subst hew
      simp [hself]
    · rw [hqueue e hew]
      simp [hew]
  · by_cases hew : e = wait
    · rw [hew]
      exact hlv.free
    · rw [hqueue e hew] at he
      refine (hlv.otherNext e (by rw [he]; nofun)).trans (hr.free e he)

/-- What the links lead to. -/
theorem reached_iff (hl : Holds s q l) :
    Reached s q e ↔ e ∈ l ∨ (l = [] ∧ s.head q = some e) := by
  constructor
  · intro h
    induction h with
    | @head e hh =>
        by_cases hnil : l = []
        · exact Or.inr ⟨hnil, hh⟩
        · rw [(hl.ring hnil).2] at hh
          exact Or.inl (List.mem_of_head? hh)
    | @next e e' _ hn ih =>
        rcases ih with hin | ⟨hnil, hh⟩
        · obtain ⟨b, hb, hnb⟩ := (hl.ring (List.ne_nil_of_mem hin)).1.next_mem hin
          rw [hn] at hnb
          exact Or.inl (Option.some.inj hnb ▸ hb)
        · rw [hl.cut e (hl.stale hnil e hh) (by rw [hnil]; exact List.not_mem_nil)] at hn
          cases hn
  · rintro (hin | ⟨-, hh⟩)
    · obtain ⟨l₁, l₂, rfl⟩ := List.append_of_mem hin
      obtain ⟨hcyc, hh⟩ := hl.ring (List.ne_nil_of_mem hin)
      clear hl hin
      -- along the path that leads to `e`
      have hwalk : ∀ l₁ b, Path s.next (l₁ ++ e :: l₂) b →
          (∀ c, (l₁ ++ e :: l₂).head? = some c → Reached s q c) → Reached s q e := by
        intro l₁
        induction l₁ with
        | nil => exact fun b _ hfirst => hfirst e rfl
        | cons c l₁ ih =>
            intro b hp hfirst
            refine ih b hp.2 fun d hd => .next (hfirst c rfl) (hp.1.trans ?_)
            change (l₁ ++ e :: l₂).head?.or b = some d
            rw [hd]
            rfl
      exact hwalk l₁ _ hcyc fun c hc => .head (hh.trans hc)
    · exact .head hh

/-- Removing an entry takes no other one with it. -/
theorem reached_taken (hr : Rings s) (hw : s.queue wait = some p) (hl : Holds s p l)
    {next : Entry → Option Entry} {head : Queue → Option Entry}
    (hlv : Leaves s p wait l next head m) (hne : e ≠ wait) (h : Reached s q e) :
    Reached (taken s wait next head) q e := by
  by_cases hqp : q = p
  · subst hqp
    rcases (reached_iff hl).mp h with hin | ⟨hnil, hh⟩
    · exact (reached_iff hlv.holds).mpr (Or.inl (hlv.others e hin hne))
    · exact .head ((hlv.stale hnil).2 e hne hh)
  · -- the links of another queue are as before
    induction h with
    | @head e hh => exact .head ((hlv.otherHead q hqp).trans hh)
    | @next e e' h hn ih =>
        have hqe : s.queue e = some q := by
          obtain ⟨l', hl'⟩ := hr.holds q
          rcases (reached_iff hl').mp h with hin | ⟨-, hh⟩
          · exact hl'.member e hin
          · exact hr.head_queue hh
        have hep : s.queue e ≠ some p := by
          rw [hqe]
          exact fun he => hqp (Option.some.inj he)
        refine .next (ih ?_) ((hlv.otherNext e hep).trans hn)
        rintro rfl
        exact hep hw

/-! ### `wake_up` -/

/-- After `wake_up` the ring is gone, and nothing on the queue pending. -/
theorem wakeUp (hr : Rings s) (q : Queue) :
    ∃ s', wakeUp s q = .next s' ∧ Rings s' ∧ Holds s' q [] ∧ s'.queue = s.queue ∧
      s'.sleeping = s.sleeping ∧ s'.select = s.select ∧ s'.table = s.table := by
  obtain ⟨l, hl⟩ := hr.holds q
  have hlen := hr.length_le hl
  unfold Wait.wakeUp
  cases hhead : s.head q with
  | none =>
      have hnil : l = [] := by
        by_contra hne
        have := (hl.ring hne).2
        rw [hhead] at this
        cases l with
        | nil => exact hne rfl
        | cons b l => cases this
      rw [hnil] at hl
      exact ⟨s, rfl, hr, hl, rfl, rfl, rfl, rfl⟩
  | some h =>
      have hqh := hr.head_queue hhead
      -- in both cases the links of the entries of a list are cut
      obtain ⟨m, st, heq, hm, hsub⟩ : ∃ m st, wakeLoop q (s.used.length + 1) h s =
          .next (woken s m st) ∧ (∀ e ∈ m, s.queue e = some q) ∧ l ⊆ m := by
        cases hcase : l with
        | nil =>
            have hnh := hl.cut h hqh (by rw [hcase]; exact List.not_mem_nil)
            refine ⟨[h], wake s.state h.task, ?_, fun e he => ?_, List.nil_subset _⟩
            · unfold wakeLoop
              rw [hnh, if_pos hqh]
              dsimp only
              congr 1
              unfold woken
              congr 1 <;> funext e <;> rw [Function.update_apply] <;> simp only [List.mem_singleton]
            · obtain rfl := List.mem_singleton.mp he
              exact hqh
        | cons b m =>
            have hring := hl.ring (by rw [hcase]; exact List.cons_ne_nil b m)
            have hnd := hl.nodup
            rw [hcase] at hring hnd hlen
            obtain rfl : h = b := Option.some.inj (hhead.symm.trans hring.2)
            have hmem : ∀ e ∈ h :: m, s.queue e = some q := by
              rw [← hcase]
              exact hl.member
            rw [List.length_cons] at hlen
            obtain ⟨st, heq⟩ := wakeLoop_path (n := s.used.length + 1) hring.1 hhead
              (List.nodup_cons.mp hnd).1 hnd hmem (by omega)
            exact ⟨h :: m, st, heq, hmem, List.Subset.refl _⟩
      have hcut : ∀ e, s.queue e = some q → (woken s m st).next e = none := by
        intro e he
        change (if e ∈ m then none else s.next e) = none
        split
        · rfl
        · next hnot => exact hl.cut e he fun hin => hnot (hsub hin)
      have hholds : Holds (woken s m st) q [] := by
        refine ⟨List.nodup_nil, nofun, fun hne => absurd rfl hne, fun _ h' hh => hr.head_queue hh,
          fun e he hp => ?_, fun e he _ => hcut e he⟩
        change (if e ∈ m then false else s.pending e) = true at hp
        split at hp
        · cases hp
        · next hnot => exact absurd (hsub (hl.pending e he hp)) hnot
      refine ⟨woken s m st, heq, ⟨fun q' => ?_, hr.nodup, hr.used, fun e he => ?_⟩, hholds, rfl, rfl,
        rfl, rfl⟩
      · by_cases hqq : q' = q
        · subst hqq
          exact ⟨[], hholds⟩
        · obtain ⟨l', hl'⟩ := hr.holds q'
          have hnot : ∀ e, s.queue e = some q' → e ∉ m := by
            intro e he hin
            have := hm e hin
            rw [he] at this
            exact hqq (Option.some.inj this)
          refine ⟨l', hl'.frame rfl (fun e => Iff.rfl) (fun e he => if_neg (hnot e he)) ?_⟩
          intro e he hp
          change (if e ∈ m then false else s.pending e) = true at hp
          rwa [if_neg (hnot e he)] at hp
      · change (if e ∈ m then none else s.next e) = none
        split
        · rfl
        · exact hr.free e he

end Rings

/-! ### The steps -/

theorem select_ne_wait {t t' : Task} {i : Nat} : Entry.select t' i ≠ .wait t := nofun

/-- The entries are on the queues that the tasks know of. -/
structure Inv (s : State) : Prop where
  rings : Rings s
  wait : ∀ t, s.queue (.wait t) = s.sleeping t
  select : ∀ t i, s.queue (.select t i) = (s.table t)[i]?

namespace Inv

/-- A step that touches no queue. -/
theorem congr (h : Inv s) (hh : s'.head = s.head) (hn : s'.next = s.next)
    (hq : s'.queue = s.queue) (hp : s'.pending = s.pending) (hu : s'.used = s.used)
    (hs : s'.sleeping = s.sleeping) (ht : s'.table = s.table) : Inv s' := by
  refine ⟨h.rings.congr hh hn hq hp hu, ?_, ?_⟩
  · rw [hq, hs]
    exact h.wait
  · rw [hq, ht]
    exact h.select

theorem sleepOn (h : Inv s) {t : Task} {st : TaskState} (hs : s.sleeping t = none) :
    ∃ s', sleepOn s t p st = .next s' ∧ Inv s' := by
  have hr : Rings { s with
      state := Function.update s.state t st
      sleeping := Function.update s.sleeping t (some p) } :=
    h.rings.congr rfl rfl rfl rfl rfl
  obtain ⟨tmp, heq, hr'⟩ := hr.add (.wait t) (p := p) ((h.wait t).trans hs)
  refine ⟨_, heq, hr', fun t' => ?_, fun t' i => ?_⟩
  · change Function.update s.queue (.wait t) (some p) (.wait t') =
      Function.update s.sleeping t (some p) t'
    by_cases htt : t' = t
    · rw [htt, Function.update_self, Function.update_self]
    · rw [Function.update_of_ne (fun he => htt (Entry.wait.inj he)), Function.update_of_ne htt]
      exact h.wait t'
  · change Function.update s.queue (.wait t) (some p) (.select t' i) = (s.table t')[i]?
    rw [Function.update_of_ne select_ne_wait]
    exact h.select t' i

theorem selectWait (h : Inv s) {t : Task} : ∃ s', selectWait s t p = .next s' ∧ Inv s' := by
  have hr : Rings { s with table := Function.update s.table t (s.table t ++ [p]) } :=
    h.rings.congr rfl rfl rfl rfl rfl
  obtain ⟨tmp, heq, hr'⟩ := hr.add (.select t (s.table t).length) (p := p) (by
    refine (h.select t _).trans ?_
    simp)
  refine ⟨_, heq, hr', fun t' => ?_, fun t' i => ?_⟩
  · change Function.update s.queue (.select t (s.table t).length) (some p) (.wait t') = s.sleeping t'
    rw [Function.update_of_ne select_ne_wait.symm]
    exact h.wait t'
  · change Function.update s.queue (.select t (s.table t).length) (some p) (.select t' i) =
      (Function.update s.table t (s.table t ++ [p]) t')[i]?
    by_cases htt : t' = t
    · subst htt
      rw [Function.update_self]
      by_cases hi : i = (s.table t').length
      · rw [hi, Function.update_self]
        simp
      · rw [Function.update_of_ne (fun he => hi (Entry.select.inj he).2), h.select,
          List.getElem?_append]
        split
        · rfl
        · next hlt =>
          rw [List.getElem?_eq_none (by omega), List.getElem?_eq_none (by
            simp only [List.length_singleton]
            omega)]
    · rw [Function.update_of_ne (fun he => htt (Entry.select.inj he).1), Function.update_of_ne htt]
      exact h.select t' i

/-- What a step does that removes the entry `e` from `p`. -/
structure Removes (s : State) (s' : State) (p : Queue) (e : Entry) : Prop where
  inv : Inv s'
  queue : s'.queue = Function.update s.queue e none
  others : ∀ q e', e' ≠ e → Reached s q e' → Reached s' q e'

/-- Reachability reads the links only. -/
theorem reached_congr (hh : s'.head = s.head) (hn : s'.next = s.next) (h : Reached s q e) :
    Reached s' q e := by
  induction h with
  | head hhead => exact .head (by rw [hh]; exact hhead)
  | next _ hnext ih => exact .next ih (by rw [hn]; exact hnext)

theorem sleepEnd (h : Inv s) {t : Task} (hs : s.sleeping t = some p) :
    ∃ s', sleepEnd s t p = .next s' ∧ Removes s s' p (.wait t) := by
  have hr : Rings { s with sleeping := Function.update s.sleeping t none } :=
    h.rings.congr rfl rfl rfl rfl rfl
  have hw : s.queue (.wait t) = some p := (h.wait t).trans hs
  obtain ⟨l, hl⟩ := hr.holds p
  obtain ⟨next, head, m, heq, hlv⟩ := hr.exists_removed hw hl
  refine ⟨_, heq, ⟨hr.of_leaves hw hlv, fun t' => ?_, fun t' i => ?_⟩, rfl, fun q e' hne hreach => ?_⟩
  · change Function.update s.queue (.wait t) none (.wait t') = Function.update s.sleeping t none t'
    by_cases htt : t' = t
    · rw [htt, Function.update_self, Function.update_self]
    · rw [Function.update_of_ne (fun he => htt (Entry.wait.inj he)), Function.update_of_ne htt]
      exact h.wait t'
  · change Function.update s.queue (.wait t) none (.select t' i) = (s.table t')[i]?
    rw [Function.update_of_ne select_ne_wait]
    exact h.select t' i
  · exact hr.reached_taken hw hl hlv hne (reached_congr (s := s) rfl rfl hreach)

theorem freeWait (h : Inv s) {t : Task} (ht : s.table t ≠ []) :
    ∃ s' p, freeWait s t = .next s' ∧ Removes s s' p (.select t ((s.table t).length - 1)) := by
  obtain ⟨l, p, htab⟩ : ∃ l p, s.table t = l ++ [p] :=
    ⟨_, _, (List.dropLast_append_getLast ht).symm⟩
  have hr : Rings { s with table := Function.update s.table t (s.table t).dropLast } :=
    h.rings.congr rfl rfl rfl rfl rfl
  have hw : s.queue (.select t ((s.table t).length - 1)) = some p := by
    rw [h.select, htab]
    simp
  obtain ⟨m, hm⟩ := hr.holds p
  obtain ⟨next, head, m', heq, hlv⟩ := hr.exists_removed hw hm
  refine ⟨Rings.taken { s with table := Function.update s.table t (s.table t).dropLast } _ next head, p,
    ?_, ⟨hr.of_leaves hw hlv, fun t' => ?_, fun t' i => ?_⟩, rfl, fun q e' hne hreach => ?_⟩
  · unfold Wait.freeWait
    rw [show (s.table t).getLast? = some p by rw [htab]; simp]
    exact heq
  · change Function.update s.queue (.select t ((s.table t).length - 1)) none (.wait t') =
      s.sleeping t'
    rw [Function.update_of_ne select_ne_wait.symm]
    exact h.wait t'
  · change Function.update s.queue (.select t ((s.table t).length - 1)) none (.select t' i) =
      (Function.update s.table t (s.table t).dropLast t')[i]?
    by_cases htt : t' = t
    · subst htt
      rw [Function.update_self, htab, List.dropLast_concat]
      by_cases hi : i = l.length
      · rw [hi]
        simp
      · rw [Function.update_of_ne (by
          intro he
          exact hi (by simpa using (Entry.select.inj he).2)), h.select, htab, List.getElem?_append]
        split
        · rfl
        · next hlt =>
          rw [List.getElem?_eq_none (by
            simp only [List.length_singleton]
            omega), List.getElem?_eq_none (by omega)]
    · rw [Function.update_of_ne (fun he => htt (Entry.select.inj he).1), Function.update_of_ne htt]
      exact h.select t' i
  · exact hr.reached_taken hw hm hlv hne (reached_congr (s := s) rfl rfl hreach)

/-- No loop goes on, and every step keeps the invariant. -/
theorem step (h : Inv s) (a : Act) : (step s a).Ends (fun _ => False) Inv := by
  cases a with
  | sleepOn t p interruptible =>
      simp only [Wait.step]
      split
      · next hc =>
        obtain ⟨s', heq, hinv⟩ := h.sleepOn (p := p) hc.1
        rw [heq]
        exact hinv
      · trivial
  | sleepEnd t =>
      simp only [Wait.step]
      split
      · next p hs =>
        split
        · obtain ⟨s', heq, hrem⟩ := h.sleepEnd hs
          rw [heq]
          exact hrem.inv
        · trivial
      · trivial
  | wakeUp q =>
      obtain ⟨s', heq, hr, -, hq, hs, -, ht⟩ := h.rings.wakeUp q
      simp only [Wait.step]
      rw [heq]
      refine ⟨hr, ?_, ?_⟩
      · rw [hq, hs]
        exact h.wait
      · rw [hq, ht]
        exact h.select
  | select t =>
      simp only [Wait.step]
      split
      · exact h.congr rfl rfl rfl rfl rfl rfl rfl
      · trivial
  | selectWait t p =>
      simp only [Wait.step]
      split
      · obtain ⟨s', heq, hinv⟩ := h.selectWait (t := t) (p := p)
        rw [heq]
        exact hinv
      · trivial
  | selectSchedule t =>
      simp only [Wait.step]
      split
      · exact h.congr rfl rfl rfl rfl rfl rfl rfl
      · trivial
  | selectResume t =>
      simp only [Wait.step]
      split
      · exact h.congr rfl rfl rfl rfl rfl rfl rfl
      · trivial
  | selectDone t =>
      simp only [Wait.step]
      split
      · exact h.congr rfl rfl rfl rfl rfl rfl rfl
      · trivial
  | freeWait t =>
      simp only [Wait.step]
      split
      · by_cases ht : s.table t = []
        · unfold Wait.freeWait
          rw [ht]
          trivial
        · obtain ⟨s', p, heq, hrem⟩ := h.freeWait ht
          rw [heq]
          exact hrem.inv
      · trivial
  | freeEnd t =>
      simp only [Wait.step]
      split
      · split
        · exact h.congr rfl rfl rfl rfl rfl rfl rfl
        · exact h.congr rfl rfl rfl rfl rfl rfl rfl
        · trivial
      · trivial
  | setState t state => exact h.congr rfl rfl rfl rfl rfl rfl rfl

/-- A step that removes an entry. -/
theorem removes (h : Inv s) (hrem : removed s a = some e) (hs : Wait.step s a = .next s') :
    ∃ p, Removes s s' p e := by
  unfold removed at hrem
  split at hrem
  · next t =>
    obtain rfl := Option.some.inj hrem
    simp only [Wait.step] at hs
    split at hs
    · next p hsl =>
      split at hs
      · obtain ⟨s'', heq, hr⟩ := h.sleepEnd hsl
        rw [heq] at hs
        obtain rfl := Outcome.next.inj hs
        exact ⟨p, hr⟩
      · cases hs
    · cases hs
  · next t =>
    obtain rfl := Option.some.inj hrem
    simp only [Wait.step] at hs
    split at hs
    · by_cases ht : s.table t = []
      · unfold Wait.freeWait at hs
        rw [ht] at hs
        cases hs
      · obtain ⟨s'', p, heq, hr⟩ := h.freeWait ht
        rw [heq] at hs
        obtain rfl := Outcome.next.inj hs
        exact ⟨p, hr⟩
    · cases hs
  · cases hrem

theorem sound (h : Inv s) : Sound s where
  loops a msg hp := by
    have hends := h.step a
    rw [hp] at hends
    exact hends
  reached q s' hs e he := by
    obtain ⟨s'', heq, -, hl, hq, -⟩ := h.rings.wakeUp q
    simp only [Wait.step] at hs
    rw [heq] at hs
    obtain rfl := Outcome.next.inj hs
    cases hp : s''.pending e with
    | false => rfl
    | true => exact absurd (hl.pending e (by rw [hq]; exact he) hp) List.not_mem_nil
  others a e s' hrem hs := by
    obtain ⟨p, hr⟩ := h.removes hrem hs
    exact hr.others
  gone a e s' hrem hs := by
    obtain ⟨p, hr⟩ := h.removes hrem hs
    have hq : s'.queue e = none := by
      rw [hr.queue, Function.update_self]
    refine ⟨fun q hh => ?_, fun e' hn => ?_⟩
    · rw [hr.inv.rings.head_queue hh] at hq
      cases hq
    · obtain ⟨q, -, hq'⟩ := hr.inv.rings.next_queue hn
      rw [hq'] at hq
      cases hq

end Inv

theorem inv_init : Inv init where
  rings := {
    holds _ := ⟨[], List.nodup_nil, nofun, fun hne => absurd rfl hne, nofun, nofun, nofun⟩
    nodup := List.nodup_nil
    used _ := ⟨nofun, fun h => absurd rfl h⟩
    free _ _ := rfl }
  wait _ := rfl
  select _ _ := rfl

/-- **No sleeper is lost**, in any interleaving of the calls. -/
theorem wait_sound_reaches (hr : Reaches step (fun _ _ => True) init s) : Sound s :=
  (hr.invariant inv_init fun _ a _ hi _ hs => (hi.step a).of_next hs).sound

/-- Two tasks sleep on queue 7, one of them in `select`; the queue is woken, a third task
sleeps on it, and the first one goes on. -/
def wakeRun : List Act :=
  [.sleepOn 1 7 false, .select 2, .selectWait 2 7, .selectWait 2 8, .selectSchedule 2, .wakeUp 7,
    .sleepOn 3 7 true, .sleepEnd 1]

theorem wait_sound_reaches_wakeRun : Sound ((run step init wakeRun).get init) :=
  wait_sound_reaches (.of_run (Outcome.eq_next (by decide) init) (by
    repeat' first
      | exact True.intro
      | refine RunOk.cons True.intro ?_))

end LinuxKernel.V098.Kernel.Wait
