import Mathlib.Data.List.Perm.Subperm
import LinuxKernel.V098.Net.Timer

/-!
# LinuxKernel.V098.Net.TimerOrder

**The list of timers stays in order**, and `net_timer` leaves no timer over, exactly as long as
`reset_timer` meets no deadline too far behind the new one and `net_timer` meets no socket in
use (`sound_iff_timely`).
-/

namespace LinuxKernel.V098.Net.Timer

variable {s s' : State} {t u b : Nat} {l l₁ l₂ : List Nat}

/-! ### The two functions for the list -/

/-- Every element but the first one has one before it. -/
theorem forall_mem_of_next {α : Type} {P : α → Prop} {b p : α} {l as bs : List α}
    (hl : b :: l = as ++ p :: bs) (hb : P b)
    (hnext : ∀ a ∈ as, ∀ m n k, b :: l = m ++ a :: n :: k → P n) : ∀ e ∈ as ++ [p], P e := by
  intro e he
  obtain ⟨m₁, m₂, hm⟩ := List.append_of_mem he
  have hle : b :: l = m₁ ++ e :: (m₂ ++ bs) := by
    rw [hl, ← List.singleton_append, ← List.append_assoc, hm, List.append_assoc, List.cons_append]
  rcases List.eq_nil_or_concat m₁ with rfl | ⟨m, a, rfl⟩
  · rw [← (List.cons.inj hle).1]
    exact hb
  · refine hnext a ?_ m e (m₂ ++ bs) (by rw [hle, List.concat_eq_append, List.append_assoc]; rfl)
    have has : as = (as ++ [p]).dropLast := List.dropLast_concat.symm
    rw [has, hm, List.concat_eq_append, List.append_assoc, List.singleton_append,
      List.dropLast_append_cons, List.dropLast_cons_cons]
    exact List.mem_append_right _ List.mem_cons_self

/-- The place that `reset_timer` finds: the deadlines before it are not behind the new one, as
`before` sees it, and the next one is. -/
structure Place (f : Nat → Nat) (w : Nat) (l₁ l₂ : List Nat) : Prop where
  passed : ∀ e ∈ l₁, before w (f e) = false
  stop : ∀ e, l₂.head? = some e → before w (f e) = true

/-- The timers on the list are those that are armed, and `expires` is that of the first one. -/
structure Listed (s : State) (l : List Nat) : Prop where
  chain : Chain s.next s.timerBase l
  mem : ∀ t, t ∈ l ↔ t ∈ s.armed
  expires : ∀ b, s.timerBase = some b → s.expires = s.when_ b

/-- What the functions for the list leave alone. -/
structure Same (s s' : State) : Prop where
  len : s'.len = s.len
  jiffies : s'.jiffies = s.jiffies
  sock : s'.sock = s.sock
  pc : s'.pc = s.pc
  ran : s'.ran = s.ran

theorem Same.trans {r : State} (h : Same s s') (h' : Same s' r) : Same s r :=
  ⟨h'.len.trans h.len, h'.jiffies.trans h.jiffies, h'.sock.trans h.sock, h'.pc.trans h.pc,
    h'.ran.trans h.ran⟩

namespace Listed

theorem length_le (h : Listed s l) : l.length ≤ s.armed.length :=
  (List.subperm_of_subset h.chain.nodup fun t ht => (h.mem t).mp ht).length_le

theorem base (h : Listed s (b :: l)) : s.timerBase = some b := h.chain.1

theorem mem_erase (h : Listed s l) : u ∈ l.erase t ↔ u ∈ s.armed.filter (· ≠ t) := by
  rw [h.chain.nodup.mem_erase_iff, List.mem_filter, h.mem, decide_eq_true_iff]
  exact And.comm

theorem deleteTimer (h : Listed s l) (t : Nat) :
    ∃ s', deleteTimer s t = .next s' ∧ Listed s' (l.erase t) ∧ Same s s' ∧ s'.when_ = s.when_ ∧
      s'.armed = s.armed.filter (· ≠ t) := by
  unfold Timer.deleteTimer
  cases l with
  | nil =>
      have hbase : s.timerBase = none := h.chain
      rw [hbase]
      exact ⟨_, rfl, ⟨rfl, fun u => h.mem_erase, fun b hb => (nomatch hb)⟩,
        ⟨rfl, rfl, rfl, rfl, rfl⟩, rfl, rfl⟩
  | cons b l =>
      have hnd := h.chain.nodup
      rw [h.base]
      dsimp only
      by_cases htb : t = b
      · subst htb
        rw [if_pos rfl]
        have hrest := h.chain.2
        have hmem : ∀ u, u ∈ l ↔ u ∈ s.armed.filter (· ≠ t) := fun u => by
          rw [← h.mem_erase, List.erase_cons_head]
        rw [List.erase_cons_head]
        cases hn : s.next t with
        | none =>
            rw [hn] at hrest
            exact ⟨_, rfl, ⟨hrest, hmem, fun b hb => (nomatch hb)⟩, ⟨rfl, rfl, rfl, rfl, rfl⟩,
              rfl, rfl⟩
        | some n =>
            rw [hn] at hrest
            refine ⟨_, rfl, ⟨hrest, hmem, fun b hb => ?_⟩, ⟨rfl, rfl, rfl, rfl, rfl⟩, rfl, rfl⟩
            rw [← Option.some.inj hb]
      · rw [if_neg htb]
        have hc := h.chain
        rw [h.base] at hc
        have hexpires : ∀ d, some b = some d → s.expires = s.when_ d := fun d hd =>
          h.expires d (h.base.trans hd)
        rw [hc.walk_eq (Nat.le_succ_of_le h.length_le)]
        by_cases htl : t ∈ l
        · obtain ⟨l₁, l₂, hl⟩ := List.append_of_mem (List.mem_cons_of_mem b htl)
          -- `t` is not the first one
          cases l₁ with
          | nil =>
              rw [List.nil_append] at hl
              exact absurd (List.cons.inj hl).1.symm htb
          | cons c l₁ =>
              obtain ⟨m, p, hm⟩ : ∃ m p, c :: l₁ = m ++ [p] :=
                ⟨_, _, (List.dropLast_append_getLast (List.cons_ne_nil c l₁)).symm⟩
              rw [hm, List.append_assoc, List.singleton_append] at hl
              rw [hl] at hc hnd ⊢
              rw [hc.find_pred]
              have htm : t ∉ m ++ [p] := fun ht => by
                rw [← List.singleton_append, ← List.append_assoc] at hnd
                exact (List.nodup_append'.mp hnd).2.2 ht List.mem_cons_self
              have herase : (m ++ p :: t :: l₂).erase t = m ++ [p] ++ l₂ := by
                rw [← List.singleton_append, ← List.append_assoc, List.erase_append_right _ htm,
                  List.erase_cons_head]
              refine ⟨_, rfl, ⟨?_, fun u => ?_, hexpires⟩, ⟨rfl, rfl, rfl, rfl, rfl⟩, rfl, rfl⟩
              · rw [herase]
                have hc' := hc
                rw [← List.singleton_append, ← List.append_assoc] at hc'
                have := hc'.unlink (g := Function.update s.next p (s.next t)) fun d => ?_
                · rwa [List.getLast?_concat, if_neg (by simp)] at this
                · rw [List.getLast?_concat]
                  by_cases hd : d = p
                  · rw [hd, Function.update_self, if_pos rfl]
                  · rw [Function.update_of_ne hd, if_neg fun he => hd (Option.some.inj he).symm]
              · rw [← hl]
                exact h.mem_erase
        · rw [hc.find_pred_none htl]
          have herase : (b :: l).erase t = b :: l :=
            List.erase_of_not_mem (by rw [List.mem_cons, not_or]; exact ⟨htb, htl⟩)
          refine ⟨_, rfl, ⟨?_, fun u => h.mem_erase, hexpires⟩, ⟨rfl, rfl, rfl, rfl, rfl⟩,
            rfl, rfl⟩
          rw [herase]
          exact hc

theorem insertTimer (h : Listed s l) (ht : t ∉ l) :
    ∃ s' l₁ l₂, insertTimer s t = .next s' ∧ l = l₁ ++ l₂ ∧ Listed s' (l₁ ++ t :: l₂) ∧
      Place s.when_ (s.jiffies + s.len t) l₁ l₂ ∧ Same s s' ∧
      s'.when_ = Function.update s.when_ t (s.jiffies + s.len t) ∧ s'.armed = t :: s.armed := by
  unfold Timer.insertTimer
  have hother : ∀ u ∈ l, Function.update s.when_ t (s.jiffies + s.len t) u = s.when_ u :=
    fun u hu => Function.update_of_ne (ne_of_mem_of_not_mem hu ht) _ _
  have hself : Function.update s.when_ t (s.jiffies + s.len t) t = s.jiffies + s.len t :=
    Function.update_self _ _ _
  -- at the beginning
  have hfirst : ∀ h₀, s.timerBase = h₀ →
      Chain (Function.update s.next t h₀) (some t) (t :: l) ∧
        ∀ u, u ∈ t :: l ↔ u ∈ t :: s.armed := by
    rintro h₀ rfl
    exact ⟨h.chain.push ht (Function.update_self _ _ _) fun a ha => Function.update_of_ne ha _ _,
      fun u => by rw [List.mem_cons, List.mem_cons, h.mem]⟩
  cases l with
  | nil =>
      have hbase : s.timerBase = none := h.chain
      obtain ⟨hc, hm⟩ := hfirst none hbase
      rw [hbase]
      exact ⟨_, [], [], rfl, rfl, ⟨hc, hm, fun b hb => by rw [← Option.some.inj hb]; rfl⟩,
        ⟨fun e he => absurd he List.not_mem_nil, fun e he => (nomatch he)⟩,
        ⟨rfl, rfl, rfl, rfl, rfl⟩, rfl, rfl⟩
  | cons b l =>
      rw [h.base]
      dsimp only
      split
      · next hbefore =>
          obtain ⟨hc, hm⟩ := hfirst (some b) h.base
          refine ⟨_, [], b :: l, rfl, rfl, ⟨hc, hm, fun d hd => by rw [← Option.some.inj hd]; rfl⟩,
            ⟨fun e he => absurd he List.not_mem_nil, fun e he => ?_⟩,
            ⟨rfl, rfl, rfl, rfl, rfl⟩, rfl, rfl⟩
          rw [hself, hother b List.mem_cons_self] at hbefore
          rw [← Option.some.inj he]
          exact hbefore
      · next hbefore =>
          have hc := h.chain
          rw [h.base] at hc
          have hlen : (b :: l).length ≤ (t :: s.armed).length := Nat.le_succ_of_le h.length_le
          rw [hc.walk_eq hlen]
          rw [hself, hother b List.mem_cons_self, Bool.not_eq_true] at hbefore
          generalize hP : stopsAt _ t = P
          have hstops : ∀ m c n k, b :: l = m ++ c :: n :: k →
              P c = before (s.jiffies + s.len t) (s.when_ n) := by
            intro m c n k hl
            have hn : s.next c = some n := by
              rw [hl] at hc
              exact hc.next_eq
            rw [← hP]
            unfold stopsAt
            dsimp only
            rw [hn]
            dsimp only
            rw [hself, hother n (by rw [hl]; simp)]
          cases hfind : (b :: l).find? P with
          | none =>
              -- the walk stops at the last element at the latest
              obtain ⟨m, p, hm⟩ : ∃ m p, b :: l = m ++ [p] :=
                ⟨_, _, (List.dropLast_append_getLast (List.cons_ne_nil b l)).symm⟩
              have hp := List.find?_eq_none.mp hfind p (by rw [hm]; simp)
              rw [hm] at hc
              rw [← hP] at hp
              unfold stopsAt at hp
              dsimp only at hp
              rw [hc.next_eq] at hp
              exact absurd rfl hp
          | some p =>
              obtain ⟨hp, m, k, hl, hpassed⟩ := List.find?_eq_some_iff_append.mp hfind
              have htl : t ∉ m ++ p :: k := by rw [← hl]; exact ht
              rw [hl] at hc
              have hinsert := hc.insert (g := Function.update (Function.update s.next t
                (s.next p)) p (some t)) htl ?_ (Function.update_self _ _ _) fun c hct hcp => ?_
              · refine ⟨_, m ++ [p], k, rfl, by rw [hl, List.append_assoc]; rfl,
                  ⟨by rw [List.append_assoc]; exact hinsert, fun u => ?_, fun d hd => ?_⟩,
                  ⟨?_, ?_⟩, ⟨rfl, rfl, rfl, rfl, rfl⟩, rfl, rfl⟩
                · rw [List.append_assoc, List.mem_cons, ← h.mem, hl]
                  simp only [List.mem_append, List.mem_cons, List.not_mem_nil, or_false]
                  tauto
                · rw [← Option.some.inj hd]
                  exact (h.expires b h.base).trans (hother b List.mem_cons_self).symm
                · refine forall_mem_of_next hl hbefore fun a ha m' n k' hl' => ?_
                  rw [← hstops m' a n k' hl']
                  simpa using hpassed a ha
                · intro e he
                  cases k with
                  | nil => cases he
                  | cons n k =>
                      obtain rfl := Option.some.inj he
                      rw [← hstops m p n k hl]
                      exact hp
              · rw [Function.update_of_ne (fun he => htl (by rw [he]; simp)), Function.update_self]
              · rw [Function.update_of_ne hcp, Function.update_of_ne hct]

/-- `reset_timer` puts the timer at its place. -/
theorem resetTimer (h : Listed s l) (t : Nat) :
    ∃ s' l₁ l₂, resetTimer s t = .next s' ∧ l.erase t = l₁ ++ l₂ ∧ Listed s' (l₁ ++ t :: l₂) ∧
      Place s.when_ (s.jiffies + s.len t) l₁ l₂ ∧ Same s s' ∧
      s'.when_ = Function.update s.when_ t (s.jiffies + s.len t) ∧
      ∀ u, u ∈ s'.armed ↔ u = t ∨ u ∈ s.armed := by
  obtain ⟨r, hr, hl, hsame, hwhen, harmed⟩ := h.deleteTimer t
  have ht : t ∉ l.erase t := fun ht => by
    rw [h.chain.nodup.mem_erase_iff] at ht
    exact ht.1 rfl
  obtain ⟨s', l₁, l₂, hs', hl', hlisted, hplace, hsame', hwhen', harmed'⟩ := hl.insertTimer ht
  rw [hsame.jiffies, hsame.len, hwhen] at hplace hwhen'
  refine ⟨s', l₁, l₂, ?_, hl', hlisted, hplace, hsame.trans hsame', hwhen', fun u => ?_⟩
  · rw [Timer.resetTimer, hr]
    exact hs'
  · rw [harmed', harmed, List.mem_cons, List.mem_filter, decide_eq_true_iff]
    tauto

end Listed

/-- The list is in order with the new timer exactly if the next deadline is near. -/
theorem Place.ordered_iff {f : Nat → Nat} {w : Nat} (hp : Place f w l₁ l₂)
    (hsorted : (l₁ ++ l₂).Pairwise fun a b => f a ≤ f b) (hw : w < SEQ_WRAP)
    (ht : t ∉ l₁ ++ l₂) :
    ((l₁ ++ t :: l₂).Pairwise fun a b => Function.update f t w a ≤ Function.update f t w b) ↔
      ((∃ u ∈ l₁ ++ l₂, w < f u) → ∃ u ∈ l₁ ++ l₂, w < f u ∧ f u < w + 32767) := by
  have hother : ∀ u ∈ l₁ ++ l₂, Function.update f t w u = f u := fun u hu =>
    Function.update_of_ne (ne_of_mem_of_not_mem hu ht) _ _
  have hbehind : ∀ c ∈ l₂, w < f c := by
    intro c hc
    obtain ⟨-, hsorted₂, -⟩ := List.pairwise_append.mp hsorted
    cases l₂ with
    | nil => cases hc
    | cons d l₂ =>
        have hd := ((before_iff hw).mp (hp.stop d rfl)).1
        rcases List.mem_cons.mp hc with rfl | hc
        · exact hd
        · exact Nat.lt_of_lt_of_le hd ((List.pairwise_cons.mp hsorted₂).1 c hc)
  have hkey : ((l₁ ++ t :: l₂).Pairwise
      fun a b => Function.update f t w a ≤ Function.update f t w b) ↔ ∀ a ∈ l₁, f a ≤ w := by
    obtain ⟨h₁, h₂, h₁₂⟩ := List.pairwise_append.mp hsorted
    constructor
    · intro h a ha
      have := (List.pairwise_append.mp h).2.2 a ha t List.mem_cons_self
      rwa [Function.update_self, hother a (List.mem_append_left _ ha)] at this
    · intro h
      refine List.pairwise_append.mpr ⟨?_, List.pairwise_cons.mpr ⟨fun c hc => ?_, ?_⟩, ?_⟩
      · refine h₁.imp_of_mem fun ha hb hab => ?_
        rwa [hother _ (List.mem_append_left _ ha), hother _ (List.mem_append_left _ hb)]
      · rw [Function.update_self, hother c (List.mem_append_right _ hc)]
        exact Nat.le_of_lt (hbehind c hc)
      · refine h₂.imp_of_mem fun ha hb hab => ?_
        rwa [hother _ (List.mem_append_right _ ha), hother _ (List.mem_append_right _ hb)]
      · intro a ha c hc
        rw [hother a (List.mem_append_left _ ha)]
        rcases List.mem_cons.mp hc with rfl | hc
        · rw [Function.update_self]
          exact h a ha
        · rw [hother c (List.mem_append_right _ hc)]
          exact h₁₂ a ha c hc
  rw [hkey]
  constructor
  · rintro h ⟨u, hu, hwu⟩
    have hu₂ : u ∈ l₂ := (List.mem_append.mp hu).resolve_left fun hu₁ =>
      Nat.not_le_of_lt hwu (h u hu₁)
    cases l₂ with
    | nil => cases hu₂
    | cons d l₂ => exact ⟨d, by simp, (before_iff hw).mp (hp.stop d rfl)⟩
  · intro h a ha
    by_contra hlt
    rw [Nat.not_le] at hlt
    obtain ⟨v, hv, hwv, hv'⟩ := h ⟨a, List.mem_append_left _ ha, hlt⟩
    have hfar : w + 32767 ≤ f a := by
      by_contra hc
      have := (before_iff hw).mpr ⟨hlt, Nat.lt_of_not_le hc⟩
      rw [hp.passed a ha] at this
      cases this
    rcases List.mem_append.mp hv with hv | hv
    · have := (before_iff hw).mpr ⟨hwv, hv'⟩
      rw [hp.passed v hv] at this
      cases this
    · have := (List.pairwise_append.mp hsorted).2.2 a ha v hv
      omega

/-! ### The invariant -/

structure Inv (s : State) : Prop where
  list : ∃ l, Listed s l ∧ l.Pairwise fun t u => s.when_ t ≤ s.when_ u
  jiffies : s.jiffies < SEQ_WRAP
  deadline : ∀ t ∈ s.armed, s.when_ t < SEQ_WRAP
  running : s.pc ≠ .idle → s.ran = false
  fired : s.ran = true → ∀ t ∈ s.armed, (s.sock t).inuse = false → s.jiffies < s.when_ t

namespace Inv

theorem of_init (h : Init s) : Inv s where
  list := ⟨[], ⟨h.timerBase, fun t => by rw [h.armed], fun b hb => by
    rw [h.timerBase] at hb
    cases hb⟩, List.Pairwise.nil⟩
  jiffies := h.jiffies
  deadline t ht := by rw [h.armed] at ht; cases ht
  running hpc := absurd h.pc hpc
  fired hr := by rw [h.ran] at hr; cases hr

/-- Nothing of the list changes. -/
theorem of_list (h : Inv s) (hnext : s'.next = s.next) (hbase : s'.timerBase = s.timerBase)
    (hwhen : s'.when_ = s.when_) (harmed : s'.armed = s.armed) (hexpires : s'.expires = s.expires)
    (hjiffies : s'.jiffies < SEQ_WRAP) (hran : s'.ran = false) : Inv s' := by
  obtain ⟨l, hl, hsorted⟩ := h.list
  refine ⟨⟨l, ⟨?_, ?_, ?_⟩, ?_⟩, hjiffies, ?_, fun _ => hran, fun hr => ?_⟩
  · rw [hnext, hbase]
    exact hl.chain
  · rw [harmed]
    exact hl.mem
  · rw [hbase, hexpires, hwhen]
    exact hl.expires
  · rw [hwhen]
    exact hsorted
  · rw [harmed, hwhen]
    exact h.deadline
  · rw [hran] at hr
    cases hr

theorem deleteTimer (h : Inv s) (hran : s.ran = false) (t : Nat) :
    (deleteTimer s t).Ends (fun _ => False) Inv := by
  obtain ⟨l, hl, hsorted⟩ := h.list
  obtain ⟨s', hs', hl', hsame, hwhen, harmed⟩ := hl.deleteTimer t
  rw [hs']
  refine ⟨⟨_, hl', ?_⟩, ?_, fun u hu => ?_, fun _ => ?_, fun hr => ?_⟩
  · rw [hwhen]
    exact hsorted.sublist List.erase_sublist
  · rw [hsame.jiffies]
    exact h.jiffies
  · rw [harmed, List.mem_filter] at hu
    rw [hwhen]
    exact h.deadline u hu.1
  · rw [hsame.ran, hran]
  · rw [hsame.ran, hran] at hr
    cases hr

theorem resetTimer (h : Inv s) (hran : s.ran = false) (hset : Settable s t) :
    (resetTimer s t).Ends (fun _ => False) fun s' => (Near s t → Inv s') ∧ (Sound s' → Near s t) := by
  obtain ⟨l, hl, hsorted⟩ := h.list
  obtain ⟨s', l₁, l₂, hs', hsplit, hl', hplace, hsame, hwhen, harmed⟩ := hl.resetTimer t
  have herase : ∀ u, u ∈ l₁ ++ l₂ ↔ u ≠ t ∧ u ∈ s.armed := fun u => by
    rw [← hsplit, hl.chain.nodup.mem_erase_iff, hl.mem]
  have ht : t ∉ l₁ ++ l₂ := fun ht => ((herase t).mp ht).1 rfl
  have hsorted' : (l₁ ++ l₂).Pairwise fun a b => s.when_ a ≤ s.when_ b := by
    rw [← hsplit]
    exact hsorted.sublist List.erase_sublist
  have hnear : ((l₁ ++ t :: l₂).Pairwise fun a b => s'.when_ a ≤ s'.when_ b) ↔ Near s t := by
    rw [hwhen, hplace.ordered_iff hsorted' hset.2.2 ht]
    unfold Near
    simp only [herase]
    constructor
    · rintro h ⟨u, hu, hut, hwu⟩
      obtain ⟨v, ⟨hvt, hv⟩, hwv⟩ := h ⟨u, ⟨hut, hu⟩, hwu⟩
      exact ⟨v, hv, hvt, hwv⟩
    · rintro h ⟨u, ⟨hut, hu⟩, hwu⟩
      obtain ⟨v, hv, hvt, hwv⟩ := h ⟨u, hu, hut, hwu⟩
      exact ⟨v, ⟨hvt, hv⟩, hwv⟩
  have hran' : s'.ran = false := hsame.ran.trans hran
  rw [hs']
  refine ⟨fun hok => ⟨⟨_, hl', hnear.mpr hok⟩, ?_, fun u hu => ?_, fun _ => hran', fun hr => ?_⟩,
    fun hs => hnear.mp ?_⟩
  · rw [hsame.jiffies]
    exact h.jiffies
  · rw [hwhen]
    by_cases hut : u = t
    · rw [hut, Function.update_self]
      exact hset.2.2
    · rw [Function.update_of_ne hut]
      exact h.deadline u (((harmed u).mp hu).resolve_left hut)
  · rw [hran'] at hr
    cases hr
  · obtain ⟨k, hk, -, -, hordered⟩ := hs.list
    rwa [hl'.chain.unique hk]

/-- `net_timer` ends. -/
theorem finish (h : Inv s) (hfired : ∀ t ∈ s.armed, (s.sock t).inuse = false →
    s.jiffies < s.when_ t) : Inv (finish s) := by
  obtain ⟨l, hl, hsorted⟩ := h.list
  unfold Timer.finish
  split
  · exact ⟨⟨l, ⟨hl.chain, hl.mem, hl.expires⟩, hsorted⟩, h.jiffies, h.deadline,
      fun hpc => absurd rfl hpc, fun _ => hfired⟩
  · next b hb =>
      refine ⟨⟨l, ⟨hl.chain, hl.mem, fun d hd => ?_⟩, hsorted⟩, h.jiffies, h.deadline,
        fun hpc => absurd rfl hpc, fun _ => hfired⟩
      change s.timerBase = some d at hd
      rw [hb] at hd
      rw [← Option.some.inj hd]

theorem base_armed (h : Inv s) (hb : s.timerBase = some b) : b ∈ s.armed := by
  obtain ⟨l, hl, -⟩ := h.list
  refine (hl.mem b).mp ?_
  have hc := hl.chain
  rw [hb] at hc
  cases l with
  | nil => cases hc
  | cons c l =>
      rw [Option.some.inj hc.1]
      exact List.mem_cons_self

theorem first_le (h : Inv s) (hb : s.timerBase = some b) (ht : t ∈ s.armed) :
    s.when_ b ≤ s.when_ t := by
  obtain ⟨l, hl, hsorted⟩ := h.list
  have hc := hl.chain
  rw [hb] at hc
  have htl := (hl.mem t).mpr ht
  cases l with
  | nil => cases htl
  | cons c l =>
      obtain rfl := Option.some.inj hc.1
      rcases List.mem_cons.mp htl with rfl | htl
      · exact Nat.le_refl _
      · exact (List.pairwise_cons.mp hsorted).1 t htl

theorem finish_jiffies (s : State) : (Timer.finish s).jiffies = s.jiffies ∧
    (Timer.finish s).armed = s.armed ∧ (Timer.finish s).sock = s.sock ∧
    (Timer.finish s).when_ = s.when_ ∧ (Timer.finish s).ran = true := by
  unfold Timer.finish
  split <;> exact ⟨rfl, rfl, rfl, rfl, rfl⟩

/-- After a run of `net_timer` that has left no timer over, none had come to its deadline. -/
theorem fired_of_finish (h : Sound (Timer.finish s)) : ∀ t ∈ s.armed, (s.sock t).inuse = false →
    s.jiffies < s.when_ t := by
  obtain ⟨hj, ha, hs, hw, hr⟩ := finish_jiffies s
  intro t ht hin
  have := h.fired hr t (by rw [ha]; exact ht) (by rw [hs]; exact hin)
  rwa [hj, hw] at this

theorem loop (h : Inv s) (hpc : s.pc = .loop) :
    (loop s).Ends (fun _ => False) fun s' => (Ready s → Inv s') ∧ (Sound s' → Ready s) := by
  have hran : s.ran = false := h.running (by rw [hpc]; exact Pc.noConfusion)
  unfold Timer.loop
  cases hb : s.timerBase with
  | none =>
      have hempty : ∀ t, t ∉ s.armed := by
        intro t ht
        obtain ⟨l, hl, -⟩ := h.list
        have hc := hl.chain
        rw [hb] at hc
        have htl := (hl.mem t).mpr ht
        cases l with
        | nil => cases htl
        | cons c l => cases hc.1
      exact ⟨fun _ => h.finish fun t ht => absurd ht (hempty t),
        fun _ b hb' => by rw [hb] at hb'; cases hb'⟩
  | some b =>
      dsimp only
      have hready : (∀ t ∈ s.armed, (s.sock t).inuse = false → s.jiffies < s.when_ t) → Ready s :=
        fun hall d _ _ => hall
      split
      · next hafter =>
          refine ⟨fun hok => h.finish ?_, fun hs => hready (fired_of_finish hs)⟩
          by_cases hlt : s.jiffies < s.when_ b
          · exact fun t ht _ => Nat.lt_of_lt_of_le hlt (h.first_le hb ht)
          · refine hok b hb (Or.inr ?_)
            have hbw := h.deadline b (h.base_armed hb)
            have hnot : ¬ before (s.when_ b) (s.jiffies + 1) = true := by
              rw [Bool.not_eq_true]
              exact hafter
            rw [before_iff hbw] at hnot
            omega
      · next hafter =>
          split
          · next hin =>
              exact ⟨fun hok => h.finish (hok b hb (Or.inl hin)),
                fun hs => hready (fired_of_finish hs)⟩
          · next hin =>
              have hok : Ready s := by
                intro d hd hor
                obtain rfl : b = d := Option.some.inj (hb.symm.trans hd)
                rcases hor with hor | hor
                · exact absurd hor hin
                · refine absurd ?_ hafter
                  rw [after, ← Bool.not_eq_true]
                  intro hc
                  have hbw := h.deadline b (h.base_armed hb)
                  have := (before_iff hbw).mp hc
                  omega
              split
              · exact ⟨fun _ => h.of_list rfl rfl rfl rfl rfl h.jiffies hran, fun _ => hok⟩
              · refine Outcome.Ends.mono (P := Inv) ?_ fun r hi => And.intro (fun _ => hi) fun _ => hok
                refine Inv.deleteTimer ?_ ?_ b
                · exact h.of_list rfl rfl rfl rfl rfl h.jiffies hran
                · exact hran

theorem keepopen (h : Inv s) (hran : s.ran = false) (b : Nat) : Inv (keepopen s b) := by
  unfold Timer.keepopen
  dsimp only
  split <;> exact h.of_list rfl rfl rfl rfl rfl h.jiffies hran

theorem select (h : Inv s) (hran : s.ran = false) (b : Nat) (why : Why) :
    (select s b why).Ends (fun _ => False) Inv := by
  cases why with
  | none => exact h.of_list rfl rfl rfl rfl rfl h.jiffies hran
  | done => exact h.of_list rfl rfl rfl rfl rfl h.jiffies hran
  | destroy => exact h.of_list rfl rfl rfl rfl rfl h.jiffies hran
  | close =>
      refine Inv.deleteTimer ?_ ?_ b
      · exact h.of_list rfl rfl rfl rfl rfl h.jiffies hran
      · exact hran
  | write =>
      unfold Timer.select
      dsimp only
      split
      · split <;> exact h.of_list rfl rfl rfl rfl rfl h.jiffies hran
      · split <;> exact h.of_list rfl rfl rfl rfl rfl h.jiffies hran
  | keepopen => exact h.keepopen hran b

theorem go (h : Inv s) :
    (go s).Ends (fun _ => False) fun s' => (Timely s .go → Inv s') ∧ (Sound s' → Timely s .go) := by
  unfold Timer.go
  simp only [Timely]
  have hran : s.pc ≠ .idle → s.ran = false := h.running
  cases hpc : s.pc with
  | idle => trivial
  | loop => exact h.loop hpc
  | wake b why =>
      exact (h.select (hran (by rw [hpc]; exact Pc.noConfusion)) b why).mono
        fun r hi => And.intro (fun _ => hi) fun _ => trivial
  | select b why =>
      exact (h.select (hran (by rw [hpc]; exact Pc.noConfusion)) b why).mono
        fun r hi => And.intro (fun _ => hi) fun _ => trivial
  | keepopen b =>
      exact ⟨fun _ => h.keepopen (hran (by rw [hpc]; exact Pc.noConfusion)) b, fun _ => trivial⟩
  | reset b next =>
      have hran := hran (by rw [hpc]; exact Pc.noConfusion)
      dsimp only
      split
      · next hset =>
          have h' : Inv { s with pc := next } := h.of_list rfl rfl rfl rfl rfl h.jiffies hran
          exact h'.resetTimer hran hset
      · trivial
  | release b =>
      exact ⟨fun _ => h.of_list rfl rfl rfl rfl rfl h.jiffies
        (hran (by rw [hpc]; exact Pc.noConfusion)), fun _ => trivial⟩
  | tail b =>
      exact ⟨fun _ => h.of_list rfl rfl rfl rfl rfl h.jiffies
        (hran (by rw [hpc]; exact Pc.noConfusion)), fun _ => trivial⟩

theorem step (h : Inv s) (a : Act) :
    (step s a).Ends (fun _ => False) fun s' => (Timely s a → Inv s') ∧ (Sound s' → Timely s a) := by
  cases a with
  | op o =>
      unfold Timer.step
      dsimp only
      split
      · have h' : Inv { s with ran := false } := h.of_list rfl rfl rfl rfl rfl h.jiffies rfl
        cases o with
        | reset t =>
            unfold doOp
            dsimp only
            split
            · next hset => exact h'.resetTimer rfl hset
            · trivial
        | delete t =>
            exact (h'.deleteTimer rfl t).mono fun r hi => And.intro (fun _ => hi) fun _ => trivial
        | setLen t n =>
            exact ⟨fun _ => h'.of_list rfl rfl rfl rfl rfl h.jiffies rfl, fun _ => trivial⟩
        | setSock t sk =>
            exact ⟨fun _ => h'.of_list rfl rfl rfl rfl rfl h.jiffies rfl, fun _ => trivial⟩
      · trivial
  | tick =>
      unfold Timer.step
      dsimp only
      split
      · next hg =>
          refine ⟨fun _ => ?_, fun _ => trivial⟩
          unfold tick
          dsimp only
          split <;> exact h.of_list rfl rfl rfl rfl rfl hg.2 rfl
      · trivial
  | go => exact h.go

theorem sound (h : Inv s) : Sound s := by
  obtain ⟨l, hl, hsorted⟩ := h.list
  refine ⟨⟨l, hl.chain, hl.chain.nodup, hl.mem, hsorted⟩, fun hbase => ?_, h.fired,
    fun a msg hp => ?_⟩
  · cases hb : s.timerBase with
    | none => exact absurd hb hbase
    | some b =>
        rw [hl.expires b hb]
        exact ⟨⟨b, h.base_armed hb, rfl⟩, fun t ht => h.first_le hb ht⟩
  · have := h.step a
    rw [hp] at this
    exact this

end Inv

/-! ### All runs -/

/-- The list is in order and no timer is left over, all along a run, exactly if no deadline is
too far behind a new one, and no socket in use stands before a timer that has come to its
deadline. -/
theorem sound_iff_timely {as : List Act} (hinit : Init s) (hrun : run step s as = .next s') :
    (∀ bs, bs <+: as → ∀ r, run step s bs = .next r → Sound r) ↔ RunOk step Timely s as :=
  RunOk.iff_prefixes_of (fun _ h => Inv.sound h)
    (fun _ a _ h hs => (h.step a).of_next hs) (Inv.of_init hinit) hrun

/-! ### Two runs -/

def booted : State where
  timerBase := none
  next := fun _ => none
  when_ := fun _ => 0
  len := fun _ => 0
  expires := 0
  active := false
  jiffies := 1000
  sock := fun _ =>
    { inuse := false, keepopen := false, ackBacklog := false, timeout := .write,
      state := .established, sendHead := true, wfront := false, retransmits := 0, rtt := 50 }
  pc := .idle
  armed := []
  ran := false

theorem init_booted : Init booted := ⟨rfl, rfl, rfl, rfl, by decide⟩

/-- The timer that is set last goes off first. -/
def timelyRun : List Act :=
  [.op (.setLen 0 12), .op (.reset 0), .op (.setLen 1 10), .op (.reset 1)] ++
    List.replicate 10 .tick ++
    [.go, .go, .op (.setSock 1 { booted.sock 1 with inuse := false }), .go, .go]

theorem sound_iff_timely_timelyRun :
    RunOk step Timely booted timelyRun ∧
      ∀ bs, bs <+: timelyRun → ∀ r, run step booted bs = .next r → Sound r := by
  have hok : RunOk step Timely booted timelyRun := by
    refine RunOk.cons trivial ?_
    refine RunOk.cons (show Near _ _ by decide) ?_
    refine RunOk.cons trivial ?_
    refine RunOk.cons (show Near _ _ by decide) ?_
    iterate 10 refine RunOk.cons trivial ?_
    refine RunOk.cons (show Ready _ by decide) ?_
    refine RunOk.cons trivial ?_
    refine RunOk.cons trivial ?_
    refine RunOk.cons trivial ?_
    refine RunOk.cons (show Ready _ by decide) ?_
    exact True.intro
  exact ⟨hok, (sound_iff_timely init_booted (Outcome.eq_next (by decide) booted)).mpr hok⟩

/-- A socket that is kept open, and a packet that is to be acknowledged. -/
def lateRun : List Act :=
  [.op (.setLen 0 TCP_TIMEOUT_LEN), .op (.reset 0), .op (.setLen 1 100), .op (.reset 1)]

theorem timer_not_sound :
    ∃ s, Init booted ∧ run step booted lateRun = .next s ∧ ¬ Sound s := by
  refine ⟨_, init_booted, Outcome.eq_next (show (run step booted lateRun).isNext = true by
    decide) booted, fun h => ?_⟩
  have := (h.expires (by decide)).2 1 (by decide +kernel)
  exact absurd this (by decide)

end LinuxKernel.V098.Net.Timer
