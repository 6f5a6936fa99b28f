import LinuxKernel.Lib.Chains
import LinuxKernel.V098.Mm.FreePages

/-!
# LinuxKernel.V098.Mm.FreePagesCount

**The lists of free pages and their counters agree** as long as no counter is repaired.

- A counter is ahead of its list by the calls that have a page of it and have not counted yet
  (`Inv`). An interrupt in one of them finds the list empty and its counter not zero.
- `get_free_page` then sets the counter to zero, and the interrupted call makes it -1.
-/

namespace LinuxKernel.V098.Mm.FreePages

open FreeList (link)

variable {s s' : State} {seg : Queue → List Nat} {who : Queue → Finset Task} {t u : Task}
  {a addr n : Nat} {q : Queue} {x y : Hand} {priority : Priority}

/-! ### What the lists are for -/

def next (s : State) (a : Nat) : Option Nat := link (s.word a)

def heads (s : State) (q : Queue) : Option Nat := link (s.list q)

/-- The address of a page; nobody has the first one. -/
structure Frame (s : State) (a : Nat) : Prop where
  aligned : a % PAGE_SIZE = 0
  low : a < s.highMemory
  ne_zero : a ≠ 0

/-- No call is in progress. -/
def Quiet (s : State) : Prop := ∀ t, s.pc t = .out

/-- The lists are `seg`, and right. -/
structure Sound (s : State) (seg : Queue → List Nat) : Prop where
  /-- The lists end, and no page is in both. -/
  chains : Chains (next s) (heads s) seg
  free : ∀ q, ∀ a ∈ seg q, Frame s a ∧ s.memMap (MAP_NR a) = 0
  all : ∀ a, Frame s a → s.memMap (MAP_NR a) = 0 →
    (∃ q, a ∈ seg q) ∨ ∃ t x, (s.pc t).hand = some x ∧ x.page = a
  /-- What a call takes is free, and no other call has it. -/
  taken : ∀ t x, (s.pc t).hand = some x →
    (∀ q, x.page ∉ seg q) ∧ (x.fresh = true → s.memMap (MAP_NR x.page) = 0) ∧
      ∀ u y, (s.pc u).hand = some y → y.page = x.page → u = t
  exact : Quiet s → ∀ a, Frame s a → ((∃ q, a ∈ seg q) ↔ s.memMap (MAP_NR a) = 0)
  counted : Quiet s → ∀ q, s.nr q = (seg q).length

/-- The counter that is set to zero is zero already. -/
def Harmless (s : State) : Action → Prop
  | .go t _ => ∀ priority q, s.pc t = .repairing priority q → s.nr q = 0
  | _ => True

/-! ### The invariant -/

/-- `who q` are the calls that have a page of the list and have not counted yet. -/
structure Inv (s : State) (seg : Queue → List Nat) (who : Queue → Finset Task) : Prop where
  chains : Chains (next s) (heads s) seg
  free : ∀ q, ∀ a ∈ seg q, Frame s a ∧ s.memMap (MAP_NR a) = 0
  all : ∀ a, Frame s a → s.memMap (MAP_NR a) = 0 →
    (∃ q, a ∈ seg q) ∨ ∃ t x, (s.pc t).hand = some x ∧ x.page = a
  held : ∀ t x, (s.pc t).hand = some x → Frame s x.page ∧ (∀ q, x.page ∉ seg q) ∧
    s.memMap (MAP_NR x.page) = if x.fresh then 0 else 1
  once : ∀ t u x y, (s.pc t).hand = some x → (s.pc u).hand = some y → x.page = y.page → t = u
  first : Reserved (s.memMap 0)
  counting : ∀ q t, t ∈ who q ↔ ∃ x, (s.pc t).hand = some x ∧ x.queue = q
  count : ∀ q, s.nr q = (seg q).length + (who q).card

theorem Inv.sound (h : Inv s seg who) : Sound s seg where
  chains := h.chains
  free := h.free
  all := h.all
  taken := fun t x hx => by
    obtain ⟨-, hlist, hmap⟩ := h.held t x hx
    refine ⟨hlist, fun hfresh => ?_, fun u y hy heq => h.once u t y x hy hx heq⟩
    rw [hmap, if_pos hfresh]
  exact := fun hquiet a ha => by
    refine ⟨fun ⟨q, hmem⟩ => (h.free q a hmem).2, fun hzero => ?_⟩
    rcases h.all a ha hzero with hmem | ⟨t, x, hx, -⟩
    · exact hmem
    · rw [hquiet t] at hx
      cases hx
  counted := fun hquiet q => by
    have hnone : who q = ∅ := by
      refine Finset.eq_empty_of_forall_notMem fun t ht => ?_
      obtain ⟨x, hx, -⟩ := (h.counting q t).mp ht
      rw [hquiet t] at hx
      cases hx
    rw [h.count, hnone, Finset.card_empty, Nat.cast_zero, add_zero]

/-- Nothing that matters changes. -/
theorem Inv.congr (h : Inv s seg who) (s' : State) (hhigh : s'.highMemory = s.highMemory)
    (hmap : s'.memMap = s.memMap) (hlist : s'.list = s.list) (hnr : s'.nr = s.nr)
    (hword : ∀ q, ∀ a ∈ seg q, s'.word a = s.word a)
    (hhand : ∀ t, (s'.pc t).hand = (s.pc t).hand) : Inv s' seg who := by
  have hframe : ∀ {a}, Frame s' a ↔ Frame s a := fun {a} =>
    ⟨fun ha => ⟨ha.aligned, hhigh ▸ ha.low, ha.ne_zero⟩,
      fun ha => ⟨ha.aligned, hhigh.symm ▸ ha.low, ha.ne_zero⟩⟩
  refine ⟨h.chains.congr (fun q a ha => ?_) fun q => ?_, fun q a ha => ?_, fun a ha hzero => ?_,
    fun t x hx => ?_, fun t u x y hx hy => ?_, ?_, fun q t => ?_, fun q => ?_⟩
  · rw [next, next, hword q a ha]
  · rw [heads, heads, hlist]
  · rw [hframe, hmap]
    exact h.free q a ha
  · rw [hmap] at hzero
    refine (h.all a (hframe.mp ha) hzero).imp id fun ⟨t, x, hx, heq⟩ => ⟨t, x, ?_, heq⟩
    rw [hhand, hx]
  · rw [hhand] at hx
    rw [hframe, hmap]
    exact h.held t x hx
  · rw [hhand] at hx hy
    exact h.once t u x y hx hy
  · rw [hmap]
    exact h.first
  · rw [hhand]
    exact h.counting q t
  · rw [hnr]
    exact h.count q

@[simp] theorem setMap_self (s : State) (i n : Nat) : (s.setMap i n).memMap i = n :=
  Function.update_self ..

@[simp] theorem setPc_self {pc : Pc} : (s.setPc t pc).pc t = pc := Function.update_self ..

theorem setPc_of_ne {pc : Pc} (h : u ≠ t) : (s.setPc t pc).pc u = s.pc u :=
  Function.update_of_ne h _ _

/-- A call goes on, with the page it has or with none. -/
theorem Inv.move (h : Inv s seg who) {pc : Pc} (hpc : pc.hand = (s.pc t).hand) :
    Inv (s.setPc t pc) seg who :=
  h.congr _ rfl rfl rfl rfl (fun _ _ _ => rfl) fun u => by
    by_cases hu : u = t
    · rw [hu, setPc_self, hpc]
    · rw [setPc_of_ne hu]

/-! ### Pages -/

theorem mapNr_inj {b : Nat} (ha : a % PAGE_SIZE = 0) (hb : b % PAGE_SIZE = 0)
    (h : MAP_NR a = MAP_NR b) : a = b := by
  simp only [MAP_NR, PAGE_SIZE] at *
  omega

theorem Frame.mapNr_ne_zero (h : Frame s a) : MAP_NR a ≠ 0 := by
  have haligned := h.aligned
  have hzero := h.ne_zero
  simp only [MAP_NR, PAGE_SIZE] at *
  omega

theorem heads_update (s : State) (q : Queue) (v : Nat) :
    (fun o => link (Function.update s.list q v o)) = Function.update (heads s) q (link v) := by
  funext o
  exact Function.apply_update (fun _ => link) s.list q v o

theorem next_update (s : State) (addr v : Nat) :
    next (s.setWord addr v) = Function.update (next s) addr (link v) := by
  funext o
  exact Function.apply_update (fun _ => link) s.word addr v o

theorem link_of_ne (h : a ≠ 0) : link a = some a := if_neg h

/-- The first page of a list. -/
theorem Inv.first_page (h : Inv s seg who) (hne : s.list q ≠ 0) :
    ∃ l, seg q = s.list q :: l :=
  h.chains.seg_of_some (link_of_ne hne)

/-! ### Taking a page -/

/-- The page comes off the list; the counter is ahead by one more. -/
theorem Inv.take (h : Inv s seg who) (priority : Priority) (hnone : (s.pc t).hand = none)
    (hne : s.list q ≠ 0) :
    ∃ seg', Inv ({ s with list := Function.update s.list q (s.word (s.list q)) }.setPc t
      (.checking priority q (s.list q))) seg' (Function.update who q (insert t (who q))) := by
  obtain ⟨l, hl⟩ := h.first_page hne
  have hmem : s.list q ∈ seg q := hl ▸ List.mem_cons_self
  obtain ⟨hframe, hzero⟩ := h.free q _ hmem
  have hsub : ∀ o a, a ∈ Function.update seg q l o → a ∈ seg o := by
    intro o a ha
    by_cases ho : o = q
    · rw [ho, Function.update_self] at ha
      rw [ho, hl]
      exact List.mem_cons_of_mem _ ha
    · rwa [Function.update_of_ne ho] at ha
  have hout : ∀ o, s.list q ∉ Function.update seg q l o := by
    intro o ha
    have ho : o = q := h.chains.disjoint o q _ (hsub o _ ha) hmem
    have hnd := (h.chains.chain q).nodup
    rw [hl] at hnd
    rw [ho, Function.update_self] at ha
    exact (List.nodup_cons.mp hnd).1 ha
  have hself : ∀ x, ((s.setPc t (.checking priority q (s.list q))).pc t).hand = some x ↔
      x = ⟨q, s.list q, true⟩ := by
    intro x
    rw [setPc_self]
    exact ⟨fun hx => (Option.some.inj hx).symm, fun hx => congrArg some hx.symm⟩
  refine ⟨Function.update seg q l, ?_, fun o a ha => ?_, fun a ha hz => ?_, fun u x hx => ?_,
    fun u v x y hx hy heq => ?_, h.first, fun o u => ?_, fun o => ?_⟩
  · have hpop := h.chains.pop (v := next s (s.list q)) hl
    rw [Function.update_eq_self] at hpop
    exact hpop.congr (fun _ _ _ => rfl) fun o => congrFun (heads_update s q _) o
  · obtain ⟨hf, hm⟩ := h.free o a (hsub o a ha)
    exact ⟨⟨hf.aligned, hf.low, hf.ne_zero⟩, hm⟩
  · by_cases haq : a = s.list q
    · exact .inr ⟨t, _, (hself _).mpr rfl, haq.symm⟩
    · rcases h.all a ⟨ha.aligned, ha.low, ha.ne_zero⟩ hz with ⟨o, ho⟩ | ⟨u, x, hx, heq⟩
      · refine .inl ⟨o, ?_⟩
        by_cases hoq : o = q
        · rw [hoq, hl] at ho
          rw [hoq, Function.update_self]
          exact (List.mem_cons.mp ho).resolve_left haq
        · rwa [Function.update_of_ne hoq]
      · refine .inr ⟨u, x, ?_, heq⟩
        have hu : u ≠ t := by
          rintro rfl
          rw [hnone] at hx
          cases hx
        exact (congrArg Pc.hand (setPc_of_ne hu)).trans hx
  · by_cases hu : u = t
    · obtain rfl := (hself x).mp (hu ▸ hx)
      exact ⟨⟨hframe.aligned, hframe.low, hframe.ne_zero⟩, hout, hzero⟩
    · obtain ⟨hf, hlist, hm⟩ := h.held u x ((congrArg Pc.hand (setPc_of_ne hu)).symm.trans hx)
      exact ⟨⟨hf.aligned, hf.low, hf.ne_zero⟩, fun o ha => hlist o (hsub o _ ha), hm⟩
  · -- nobody else has a page that was on a list
    have hold : ∀ w z, w ≠ t → ((s.setPc t (.checking priority q (s.list q))).pc w).hand =
        some z → (s.pc w).hand = some z ∧ z.page ≠ s.list q := by
      intro w z hw hz
      have hz' : (s.pc w).hand = some z := (congrArg Pc.hand (setPc_of_ne hw)).symm.trans hz
      refine ⟨hz', fun hpage => (h.held w z hz').2.1 q ?_⟩
      rw [hpage]
      exact hmem
    by_cases hu : u = t
    · by_cases hv : v = t
      · exact hu.trans hv.symm
      · obtain rfl := (hself x).mp (hu ▸ hx)
        exact absurd heq.symm (hold v y hv hy).2
    · by_cases hv : v = t
      · obtain rfl := (hself y).mp (hv ▸ hy)
        exact absurd heq (hold u x hu hx).2
      · exact h.once u v x y (hold u x hu hx).1 (hold v y hv hy).1 heq
  · by_cases hu : u = t
    · subst hu
      refine Iff.trans ?_ (exists_congr fun x => and_congr_left' (hself x).symm)
      by_cases ho : o = q
      · subst ho
        rw [Function.update_self]
        exact iff_of_true (Finset.mem_insert_self ..) ⟨_, rfl, rfl⟩
      · rw [Function.update_of_ne ho, h.counting, hnone]
        refine iff_of_false (fun ⟨x, hx, _⟩ => by cases hx) ?_
        rintro ⟨x, rfl, rfl⟩
        exact ho rfl
    · have hsame : ((s.setPc t (.checking priority q (s.list q))).pc u).hand = (s.pc u).hand :=
        congrArg Pc.hand (setPc_of_ne hu)
      refine Iff.trans ?_ ((h.counting o u).trans (exists_congr fun x => by rw [← hsame]; rfl))
      by_cases ho : o = q
      · rw [ho, Function.update_self, Finset.mem_insert, or_iff_right hu]
      · rw [Function.update_of_ne ho]
  · by_cases ho : o = q
    · have hnot : t ∉ who q := fun ht => by
        obtain ⟨x, hx, -⟩ := (h.counting q t).mp ht
        rw [hnone] at hx
        cases hx
      have hcount := h.count q
      rw [hl, List.length_cons] at hcount
      rw [ho, Function.update_self, Function.update_self, Finset.card_insert_of_notMem hnot]
      refine Eq.trans hcount ?_
      push_cast
      omega
    · rw [Function.update_of_ne ho, Function.update_of_ne ho]
      exact h.count o

/-! ### Marking and returning it -/

theorem setPc_hand {pc : Pc} (u : Task) :
    ((s.setPc t pc).pc u).hand = if u = t then pc.hand else (s.pc u).hand := by
  by_cases hu : u = t
  · rw [if_pos hu, hu, setPc_self]
  · rw [if_neg hu, setPc_of_ne hu]

/-- The page is in use now. -/
theorem Inv.mark (h : Inv s seg who) (ht : (s.pc t).hand = some ⟨q, a, true⟩) {pc : Pc}
    (hpc : pc.hand = some ⟨q, a, false⟩) :
    Inv ((s.setMap (MAP_NR a) 1).setPc t pc) seg who := by
  obtain ⟨hframe, hlist, -⟩ := h.held t _ ht
  have hmap : ∀ b, Frame s b → b ≠ a →
      (s.setMap (MAP_NR a) 1).memMap (MAP_NR b) = s.memMap (MAP_NR b) := fun b hb hne =>
    Function.update_of_ne (fun heq => hne (mapNr_inj hb.aligned hframe.aligned heq)) _ _
  have hframe' : ∀ {b}, Frame ((s.setMap (MAP_NR a) 1).setPc t pc) b ↔ Frame s b := fun {b} =>
    ⟨fun hb => ⟨hb.aligned, hb.low, hb.ne_zero⟩, fun hb => ⟨hb.aligned, hb.low, hb.ne_zero⟩⟩
  have hhand : ∀ u x, (((s.setMap (MAP_NR a) 1).setPc t pc).pc u).hand = some x ↔
      if u = t then x = ⟨q, a, false⟩ else (s.pc u).hand = some x := by
    intro u x
    rw [setPc_hand]
    by_cases hu : u = t
    · rw [if_pos hu, if_pos hu, hpc, Option.some.injEq, eq_comm]
    · rw [if_neg hu, if_neg hu]
      rfl
  -- its place in the old state
  have hold : ∀ u x, (((s.setMap (MAP_NR a) 1).setPc t pc).pc u).hand = some x →
      ∃ y, (s.pc u).hand = some y ∧ y.page = x.page ∧ y.queue = x.queue := by
    intro u x hx
    rw [hhand] at hx
    split at hx
    next hu => exact ⟨_, hu ▸ ht, by rw [hx], by rw [hx]⟩
    next => exact ⟨x, hx, rfl, rfl⟩
  refine ⟨h.chains, fun o b hb => ?_, fun b hb hz => ?_, fun u x hx => ?_,
    fun u v x y hx hy heq => ?_, ?_, fun o u => ?_, h.count⟩
  · obtain ⟨hf, hm⟩ := h.free o b hb
    refine ⟨hframe'.mpr hf, (hmap b hf ?_).trans hm⟩
    rintro rfl
    exact hlist o hb
  · have hne : b ≠ a := by
      rintro rfl
      rw [show ((s.setMap (MAP_NR b) 1).setPc t pc).memMap (MAP_NR b) = 1 from
        Function.update_self ..] at hz
      cases hz
    rcases h.all b (hframe'.mp hb) ((hmap b (hframe'.mp hb) hne).symm.trans hz) with
      hmem | ⟨u, x, hx, heq⟩
    · exact .inl hmem
    · refine .inr ⟨u, x, (hhand u x).mpr ?_, heq⟩
      rw [if_neg]
      · exact hx
      · rintro rfl
        rw [ht] at hx
        obtain rfl := Option.some.inj hx
        exact hne heq.symm
  · rw [hhand] at hx
    split at hx
    next =>
      obtain rfl := hx
      exact ⟨hframe'.mpr hframe, hlist, Function.update_self ..⟩
    next hu =>
      obtain ⟨hf, hl, hm⟩ := h.held u x hx
      exact ⟨hframe'.mpr hf, hl, (hmap _ hf fun heq => hu (h.once u t x _ hx ht heq)).trans hm⟩
  · obtain ⟨x', hx', hpage, -⟩ := hold u x hx
    obtain ⟨y', hy', hpage', -⟩ := hold v y hy
    exact h.once u v x' y' hx' hy' (hpage.trans (heq.trans hpage'.symm))
  · exact (congrArg Reserved (Function.update_of_ne hframe.mapNr_ne_zero.symm _ _)).mpr h.first
  · rw [h.counting]
    constructor
    · rintro ⟨x, hx, hxo⟩
      by_cases hu : u = t
      · refine ⟨⟨q, a, false⟩, (hhand u _).mpr (by rw [if_pos hu]), ?_⟩
        rw [hu, ht] at hx
        obtain rfl := Option.some.inj hx
        exact hxo
      · exact ⟨x, (hhand u x).mpr (by rwa [if_neg hu]), hxo⟩
    · rintro ⟨x, hx, hxo⟩
      obtain ⟨y, hy, -, hqueue⟩ := hold u x hx
      exact ⟨y, hy, hqueue.trans hxo⟩

/-- The call counts, and returns the page. -/
theorem Inv.give (h : Inv s seg who) (ht : (s.pc t).hand = some ⟨q, a, false⟩) :
    Inv ((s.setNr q (s.nr q - 1)).setPc t .out) seg
      (Function.update who q ((who q).erase t)) := by
  obtain ⟨hframe, hlist, hone⟩ := h.held t _ ht
  have hframe' : ∀ {b}, Frame ((s.setNr q (s.nr q - 1)).setPc t .out) b ↔ Frame s b :=
    fun {b} => ⟨fun hb => ⟨hb.aligned, hb.low, hb.ne_zero⟩,
      fun hb => ⟨hb.aligned, hb.low, hb.ne_zero⟩⟩
  have hhand : ∀ u x, (((s.setNr q (s.nr q - 1)).setPc t .out).pc u).hand = some x ↔
      u ≠ t ∧ (s.pc u).hand = some x := by
    intro u x
    rw [setPc_hand]
    by_cases hu : u = t
    · rw [if_pos hu]
      exact iff_of_false (fun h => by cases h) fun h => h.1 hu
    · rw [if_neg hu]
      exact ⟨fun h => ⟨hu, h⟩, fun h => h.2⟩
  refine ⟨h.chains, fun o b hb => ?_, fun b hb hz => ?_, fun u x hx => ?_,
    fun u v x y hx hy heq => ?_, h.first, fun o u => ?_, fun o => ?_⟩
  · obtain ⟨hf, hm⟩ := h.free o b hb
    exact ⟨hframe'.mpr hf, hm⟩
  · refine (h.all b (hframe'.mp hb) hz).imp id fun ⟨u, x, hx, heq⟩ =>
      ⟨u, x, (hhand u x).mpr ⟨?_, hx⟩, heq⟩
    rintro rfl
    rw [ht] at hx
    obtain rfl := Option.some.inj hx
    rw [← heq] at hz
    exact absurd (hone.symm.trans hz) Nat.one_ne_zero
  · obtain ⟨hf, hl, hm⟩ := h.held u x ((hhand u x).mp hx).2
    exact ⟨hframe'.mpr hf, hl, hm⟩
  · exact h.once u v x y ((hhand u x).mp hx).2 ((hhand v y).mp hy).2 heq
  · have hother : u ≠ t → ((∃ x, (s.pc u).hand = some x ∧ x.queue = o) ↔
        ∃ x, (((s.setNr q (s.nr q - 1)).setPc t .out).pc u).hand = some x ∧ x.queue = o) :=
      fun hu => exists_congr fun x => and_congr_left' ⟨fun hx => (hhand u x).mpr ⟨hu, hx⟩,
        fun hx => ((hhand u x).mp hx).2⟩
    by_cases hu : u = t
    · refine iff_of_false ?_ fun ⟨x, hx, _⟩ => ((hhand u x).mp hx).1 hu
      by_cases ho : o = q
      · rw [ho, Function.update_self, hu]
        exact Finset.notMem_erase t _
      · rw [Function.update_of_ne ho, h.counting, hu, ht]
        rintro ⟨x, hx, hxo⟩
        obtain rfl := Option.some.inj hx
        exact ho hxo.symm
    · rw [← hother hu, ← h.counting]
      by_cases ho : o = q
      · rw [ho, Function.update_self, Finset.mem_erase, and_iff_right hu]
      · rw [Function.update_of_ne ho]
  · by_cases ho : o = q
    · have hmem : t ∈ who q := (h.counting q t).mpr ⟨_, ht, rfl⟩
      have hcard := Finset.card_erase_add_one hmem
      have hcount := h.count q
      rw [ho, Function.update_self]
      refine (Function.update_self ..).trans ?_
      rw [hcount, ← hcard]
      push_cast
      omega
    · rw [Function.update_of_ne ho]
      exact (Function.update_of_ne ho _ _).trans (h.count o)

/-! ### Freeing a page -/

/-- The page of an address. -/
def pageOf (addr : Nat) : Nat := addr - addr % PAGE_SIZE

theorem pageOf_aligned (addr : Nat) : pageOf addr % PAGE_SIZE = 0 := by
  unfold pageOf PAGE_SIZE
  omega

theorem mapNr_pageOf (addr : Nat) : MAP_NR (pageOf addr) = MAP_NR addr := by
  unfold pageOf MAP_NR PAGE_SIZE
  omega

/-- A page in use that no call has. -/
structure InUse (s : State) (a : Nat) : Prop where
  frame : Frame s a
  used : s.memMap (MAP_NR a) ≠ 0
  returned : ∀ t x, (s.pc t).hand = some x → x.page ≠ a

theorem InUse.not_listed (h : InUse s a) (hi : Inv s seg who) (q : Queue) : a ∉ seg q :=
  fun ha => h.used (hi.free q a ha).2

/-- One reference of several is gone. -/
theorem Inv.unshare (h : Inv s seg who) (ha : InUse s a) (hn : n ≠ 0) :
    Inv (s.setMap (MAP_NR a) n) seg who := by
  have hframe : ∀ {b}, Frame (s.setMap (MAP_NR a) n) b ↔ Frame s b := fun {b} =>
    ⟨fun hb => ⟨hb.aligned, hb.low, hb.ne_zero⟩, fun hb => ⟨hb.aligned, hb.low, hb.ne_zero⟩⟩
  have hmap : ∀ b, Frame s b → b ≠ a →
      (s.setMap (MAP_NR a) n).memMap (MAP_NR b) = s.memMap (MAP_NR b) := fun b hb hne =>
    Function.update_of_ne (fun heq => hne (mapNr_inj hb.aligned ha.frame.aligned heq)) _ _
  refine ⟨h.chains, fun q b hb => ?_, fun b hb hz => ?_, fun t x hx => ?_, h.once, ?_,
    h.counting, h.count⟩
  · obtain ⟨hf, hm⟩ := h.free q b hb
    refine ⟨hframe.mpr hf, (hmap b hf ?_).trans hm⟩
    rintro rfl
    exact ha.not_listed h q hb
  · refine h.all b (hframe.mp hb) ((hmap b (hframe.mp hb) ?_).symm.trans hz)
    rintro rfl
    rw [setMap_self] at hz
    exact hn hz
  · obtain ⟨hf, hl, hm⟩ := h.held t x hx
    exact ⟨hframe.mpr hf, hl, (hmap _ hf (ha.returned t x hx)).trans hm⟩
  · exact (congrArg Reserved (Function.update_of_ne ha.frame.mapNr_ne_zero.symm _ _)).mpr h.first

/-- The last reference is gone: the page goes on a list. -/
theorem Inv.put (h : Inv s seg who) (q : Queue) (ha : InUse s (pageOf addr)) :
    Inv ((addMemQueue (s.setMap (MAP_NR addr) 0) addr q).setNr q (s.nr q + 1))
      (Function.update seg q (pageOf addr :: seg q)) who := by
  have hout := ha.not_listed h
  have hframe : ∀ {b}, Frame ((addMemQueue (s.setMap (MAP_NR addr) 0) addr q).setNr q
      (s.nr q + 1)) b ↔ Frame s b := fun {b} =>
    ⟨fun hb => ⟨hb.aligned, hb.low, hb.ne_zero⟩, fun hb => ⟨hb.aligned, hb.low, hb.ne_zero⟩⟩
  have hmap : ∀ b, Frame s b → b ≠ pageOf addr →
      (s.setMap (MAP_NR addr) 0).memMap (MAP_NR b) = s.memMap (MAP_NR b) := by
    intro b hb hne
    refine Function.update_of_ne (fun heq => hne ?_) _ _
    exact mapNr_inj hb.aligned (pageOf_aligned addr) (heq.trans (mapNr_pageOf addr).symm)
  have hself : (s.setMap (MAP_NR addr) 0).memMap (MAP_NR (pageOf addr)) = 0 := by
    rw [mapNr_pageOf]
    exact Function.update_self ..
  have hmem : ∀ o b, b ∈ Function.update seg q (pageOf addr :: seg q) o ↔
      o = q ∧ b = pageOf addr ∨ b ∈ seg o := by
    intro o b
    by_cases ho : o = q
    · rw [ho, Function.update_self, List.mem_cons, and_iff_right rfl]
    · rw [Function.update_of_ne ho]
      exact (or_iff_right fun hb => ho hb.1).symm
  refine ⟨?_, fun o b hb => ?_, fun b hb hz => ?_, fun t x hx => ?_, h.once, ?_, h.counting,
    fun o => ?_⟩
  · have hpush : Chain (Function.update (next s) (pageOf addr) (link (s.list q)))
        (some (pageOf addr)) (pageOf addr :: seg q) :=
      (h.chains.chain q).push (hout q) (Function.update_self ..) fun b hb =>
        Function.update_of_ne hb _ _
    have hchains := h.chains.of_one (fun o ho b hb => Function.update_of_ne (by
      rintro rfl
      exact hout o hb) _ _) hpush fun o ho b hb hb' => by
        rcases List.mem_cons.mp hb' with rfl | hb'
        · exact hout o hb
        · exact ho (h.chains.disjoint o q b hb hb')
    refine hchains.congr (fun o b _ => congrFun (next_update s _ _) b) fun o => ?_
    rw [← link_of_ne ha.frame.ne_zero]
    exact congrFun (heads_update s q _) o
  · rcases (hmem o b).mp hb with ⟨-, rfl⟩ | hb
    · exact ⟨hframe.mpr ha.frame, hself⟩
    · obtain ⟨hf, hm⟩ := h.free o b hb
      refine ⟨hframe.mpr hf, (hmap b hf ?_).trans hm⟩
      rintro rfl
      exact hout o hb
  · by_cases hne : b = pageOf addr
    · exact .inl ⟨q, (hmem q b).mpr (.inl ⟨rfl, hne⟩)⟩
    · exact (h.all b (hframe.mp hb) ((hmap b (hframe.mp hb) hne).symm.trans hz)).imp
        (fun ⟨o, ho⟩ => ⟨o, (hmem o b).mpr (.inr ho)⟩) id
  · obtain ⟨hf, hl, hm⟩ := h.held t x hx
    have hne := ha.returned t x hx
    refine ⟨hframe.mpr hf, fun o hb => ?_, (hmap _ hf hne).trans hm⟩
    rcases (hmem o _).mp hb with ⟨-, heq⟩ | hb
    · exact hne heq
    · exact hl o hb
  · refine (congrArg Reserved (Function.update_of_ne ?_ _ _)).mpr h.first
    rw [← mapNr_pageOf]
    exact ha.frame.mapNr_ne_zero.symm
  · by_cases ho : o = q
    · rw [ho, Function.update_self, List.length_cons]
      refine (Function.update_self ..).trans ?_
      rw [h.count]
      push_cast
      omega
    · rw [Function.update_of_ne ho]
      exact (Function.update_of_ne ho _ _).trans (h.count o)

/-! ### Steps -/

theorem missed_hand (priority : Priority) (q : Queue) : (missed priority q).hand = none := by
  unfold missed
  cases q with
  | free => split_ifs <;> rfl
  | secondary => rfl

/-- What is on a list is a page: the first part of `remove_from_mem_queue` does not panic. -/
theorem Inv.pop (h : Inv s seg who) (hnone : (s.pc t).hand = none) :
    ∃ seg' who', Inv (pop s t priority q) seg' who' := by
  unfold FreePages.pop
  dsimp only
  by_cases hnil : s.list q = 0
  · rw [if_pos hnil]
    exact ⟨seg, who, h.move hnone.symm⟩
  · obtain ⟨l, hl⟩ := h.first_page hnil
    have hframe := (h.free q (s.list q) (hl ▸ List.mem_cons_self)).1
    have hgood : ¬ (s.list q % PAGE_SIZE ≠ 0 ∨ s.list q ≥ s.highMemory) := by
      rintro (hbad | hbad)
      · exact hbad hframe.aligned
      · exact absurd hframe.low (Nat.not_lt.mpr hbad)
    rw [if_neg hnil, if_neg hgood]
    obtain ⟨seg', h'⟩ := h.take priority hnone hnil
    exact ⟨seg', _, h'⟩

/-- The next step of a call. -/
theorem Inv.go (h : Inv s seg who) (freed : Bool)
    (hharmless : ∀ priority q, s.pc t = .repairing priority q → s.nr q = 0) :
    ∃ seg' who', Inv (go s t freed) seg' who' := by
  unfold FreePages.go
  cases hpc : s.pc t with
  | out => exact ⟨seg, who, h⟩
  | popping priority q => exact h.pop (by rw [hpc]; rfl)
  | checking priority q result =>
      have hmap : s.memMap (MAP_NR result) = 0 :=
        (h.held t ⟨q, result, true⟩ (by rw [hpc]; rfl)).2.2
      dsimp only
      rw [if_neg (not_not.mpr hmap)]
      exact ⟨seg, who, h.move (by rw [hpc]; rfl)⟩
  | marking q result => exact ⟨seg, who, h.mark (by rw [hpc]; rfl) rfl⟩
  | recording q result =>
      refine ⟨seg, who, Inv.move (h.congr (record s result) rfl rfl rfl rfl
        (fun _ _ _ => rfl) fun _ => rfl) ?_⟩
      change _ = (s.pc t).hand
      rw [hpc]
      rfl
  | clearing q result =>
      have hlist := (h.held t ⟨q, result, false⟩ (by rw [hpc]; rfl)).2.1
      refine ⟨seg, who, Inv.move (h.congr (s.setWord result 0) rfl rfl rfl rfl
        (fun o a ha => Function.update_of_ne ?_ _ _) fun _ => rfl) ?_⟩
      · rintro rfl
        exact hlist o ha
      · change _ = (s.pc t).hand
        rw [hpc]
        rfl
  | counting q result => exact ⟨seg, _, h.give (by rw [hpc]; rfl)⟩
  | testing priority q =>
      dsimp only
      split
      next => exact ⟨seg, who, h.move (by rw [hpc]; rfl)⟩
      next => exact ⟨seg, who, h.move (by rw [hpc, missed_hand]; rfl)⟩
  | repairing priority q =>
      have hzero := hharmless priority q hpc
      have hsame : Function.update s.nr q 0 = s.nr := by
        rw [← hzero, Function.update_eq_self]
      refine ⟨seg, who, Inv.move (h.congr (s.setNr q 0) rfl rfl rfl hsame
        (fun _ _ _ => rfl) fun _ => rfl) ?_⟩
      change _ = (s.pc t).hand
      rw [hpc, missed_hand]
      rfl
  | reclaiming priority => exact ⟨seg, who, h.move (by rw [hpc]; rfl)⟩
  | stopped => exact ⟨seg, who, h⟩

theorem pageOf_low (hlow : addr < n) : pageOf addr < n := Nat.lt_of_le_of_lt (Nat.sub_le _ _) hlow

/-- One call of `free_page`. -/
theorem Inv.freePage (h : Inv s seg who)
    (hreturned : ∀ t x, (s.pc t).hand = some x → MAP_NR x.page ≠ MAP_NR addr) :
    ∃ seg', Inv (freePage s addr) seg' who := by
  unfold FreePages.freePage
  by_cases hhigh : addr ≥ s.highMemory
  · rw [if_pos hhigh]
    exact ⟨seg, h⟩
  by_cases hres : Reserved (s.memMap (MAP_NR addr))
  · rw [if_neg hhigh, if_pos hres]
    exact ⟨seg, h⟩
  by_cases hzero : s.memMap (MAP_NR addr) = 0
  · rw [if_neg hhigh, if_neg hres, if_pos hzero]
    exact ⟨seg, h⟩
  have hpage : pageOf addr ≠ 0 := by
    intro h0
    have hfirst := h.first
    rw [show (0 : Nat) = MAP_NR (pageOf addr) by rw [h0]; rfl, mapNr_pageOf] at hfirst
    exact hres hfirst
  have huse : InUse s (pageOf addr) := by
    refine ⟨⟨pageOf_aligned addr, pageOf_low (Nat.lt_of_not_le hhigh), hpage⟩, ?_,
      fun t x hx heq => hreturned t x hx ?_⟩
    · rw [mapNr_pageOf]
      exact hzero
    · rw [heq, mapNr_pageOf]
  rw [if_neg hhigh, if_neg hres, if_neg hzero]
  dsimp only
  by_cases hlast : s.memMap (MAP_NR addr) - 1 = 0
  · rw [hlast, if_pos (setMap_self ..)]
    unfold release
    split
    next => exact ⟨_, h.put .secondary huse⟩
    next => exact ⟨_, h.put .free huse⟩
  · rw [setMap_self, if_neg hlast]
    have hshare := h.unshare huse hlast
    rw [mapNr_pageOf] at hshare
    exact ⟨seg, hshare⟩

theorem Inv.step {a : Action} (h : Inv s seg who) (hallowed : Allowed s a)
    (hharmless : Harmless s a) (hs : step s a = .next s') : ∃ seg' who', Inv s' seg' who' := by
  cases a with
  | getFreePage t priority =>
      dsimp only [FreePages.step] at hs
      cases hpc : s.pc t <;> rw [hpc] at hs <;> cases hs
      exact ⟨seg, who, h.move (by rw [hpc]; rfl)⟩
  | go t freed =>
      cases hs
      exact h.go freed hharmless
  | freePage addr =>
      cases hs
      obtain ⟨seg', h'⟩ := h.freePage hallowed
      exact ⟨seg', who, h'⟩
  | write addr v =>
      cases hs
      refine ⟨seg, who, h.congr _ rfl rfl rfl rfl (fun q a ha => Function.update_of_ne ?_ _ _)
        fun _ => rfl⟩
      rintro rfl
      exact hallowed (h.free q a ha).2

/-! ### `mem_init` -/

theorem unreserve_zero {memMap : Nat → Nat} {start : Nat} (h : n = 0 ∨ PAGE_SIZE ≤ start) :
    unreserve memMap n start 0 = memMap 0 := by
  induction n generalizing memMap start with
  | zero => rfl
  | succ n ih =>
      have hstart := h.resolve_left (Nat.succ_ne_zero n)
      rw [unreserve, ih (.inr (Nat.le_add_right_of_le hstart)), Function.update_of_ne]
      exact (Nat.div_pos hstart (by decide)).ne

theorem le_roundUp (h : 0 < n) : PAGE_SIZE ≤ roundUp n PAGE_SIZE := by
  unfold roundUp PAGE_SIZE
  omega

/-- The list has the first `n` pages of those that were free in `s₀`. -/
structure Listed (s₀ : State) (n : Nat) (s : State) (l : List Nat) : Prop where
  high : s.highMemory = s₀.highMemory
  memMap_eq : s.memMap = s₀.memMap
  chain : Chain (next s) (heads s .free) l
  mem_iff : ∀ a, a ∈ l ↔ ∃ i < n, a = i * PAGE_SIZE ∧ s₀.memMap i = 0
  count : s.nr .free = l.length
  secondary : s.list .secondary = 0 ∧ s.nr .secondary = 0
  quiet : Quiet s

theorem Listed.initPage {s₀ : State} {l : List Nat} (h : Listed s₀ n s l)
    (hzero : s₀.memMap 0 ≠ 0) : ∃ l', Listed s₀ (n + 1) (initPage s n) l' := by
  unfold FreePages.initPage
  rw [h.memMap_eq]
  have hsucc : ∀ a, (∃ i < n + 1, a = i * PAGE_SIZE ∧ s₀.memMap i = 0) ↔
      a = n * PAGE_SIZE ∧ s₀.memMap n = 0 ∨ ∃ i < n, a = i * PAGE_SIZE ∧ s₀.memMap i = 0 := by
    intro a
    constructor
    · rintro ⟨i, hi, ha⟩
      rcases Nat.lt_succ_iff_lt_or_eq.mp hi with hi | rfl
      · exact .inr ⟨i, hi, ha⟩
      · exact .inl ha
    · rintro (ha | ⟨i, hi, ha⟩)
      · exact ⟨n, Nat.lt_succ_self n, ha⟩
      · exact ⟨i, Nat.lt_succ_of_lt hi, ha⟩
  by_cases hn : s₀.memMap n = 0
  · rw [if_neg (not_not.mpr hn)]
    have hpage : n * PAGE_SIZE ≠ 0 := by
      refine Nat.mul_ne_zero ?_ (by decide)
      rintro rfl
      exact hzero hn
    have hnew : n * PAGE_SIZE ∉ l := by
      rw [h.mem_iff]
      rintro ⟨i, hi, heq, -⟩
      exact absurd (Nat.eq_of_mul_eq_mul_right (by decide) heq) hi.ne'
    refine ⟨n * PAGE_SIZE :: l, h.high, h.memMap_eq, ?_, fun a => ?_, ?_, h.secondary, h.quiet⟩
    · have hhead : link (Function.update s.list .free (n * PAGE_SIZE) .free) =
          some (n * PAGE_SIZE) := by
        rw [Function.update_self, link_of_ne hpage]
      change Chain (next (s.setWord (n * PAGE_SIZE) (s.list .free)))
        (link (Function.update s.list .free (n * PAGE_SIZE) .free)) _
      rw [hhead, next_update]
      exact h.chain.push hnew (Function.update_self ..) fun b hb => Function.update_of_ne hb _ _
    · rw [List.mem_cons, hsucc, and_iff_left hn, h.mem_iff]
    · change Function.update s.nr .free (s.nr .free + 1) .free = _
      rw [Function.update_self, h.count, List.length_cons, Nat.cast_succ]
  · rw [if_pos hn]
    refine ⟨l, h.high, h.memMap_eq, h.chain, fun a => ?_, h.count, h.secondary, h.quiet⟩
    rw [hsucc, or_iff_right fun ha => hn ha.2, h.mem_iff]

theorem listed_foldl (hzero : s.memMap 0 ≠ 0) (hlist : ∀ q, s.list q = 0) (hnr : ∀ q, s.nr q = 0)
    (hquiet : Quiet s) (n : Nat) : ∃ l, Listed s n ((List.range n).foldl initPage s) l := by
  induction n with
  | zero =>
      refine ⟨[], rfl, rfl, congrArg link (hlist .free), fun a => ?_, hnr .free,
        ⟨hlist .secondary, hnr .secondary⟩, hquiet⟩
      exact iff_of_false List.not_mem_nil fun ⟨i, hi, _⟩ => Nat.not_lt_zero i hi
  | succ n ih =>
      obtain ⟨l, hl⟩ := ih
      rw [List.range_succ, List.foldl_append]
      exact hl.initPage hzero

/-! ### Runs -/

/-- No call is in progress, and the lists and counters are right. -/
structure Init (s : State) (seg : Queue → List Nat) : Prop where
  quiet : Quiet s
  sound : Sound s seg
  first : Reserved (s.memMap 0)

theorem Init.inv (h : Init s seg) : Inv s seg fun _ => ∅ := by
  have hnone : ∀ t x, (s.pc t).hand ≠ some x := by
    intro t x hx
    rw [h.quiet t] at hx
    cases hx
  refine ⟨h.sound.chains, h.sound.free, h.sound.all, fun t x hx => absurd hx (hnone t x),
    fun t u x y hx _ _ => absurd hx (hnone t x), h.first, fun q t => ?_, fun q => ?_⟩
  · exact iff_of_false (Finset.notMem_empty t) fun ⟨x, hx, _⟩ => hnone t x hx
  · rw [Finset.card_empty, Nat.cast_zero, add_zero]
    exact h.sound.counted h.quiet q

/-- Only `free_page_list` has pages. -/
def onlyFree (l : List Nat) : Queue → List Nat
  | .free => l
  | .secondary => []

theorem Listed.init {s₀ : State} {l : List Nat} (h : Listed s₀ (MAP_NR s₀.highMemory) s l)
    (hhigh : s₀.highMemory % PAGE_SIZE = 0) (hfirst : s₀.memMap 0 = MAP_PAGE_RESERVED) :
    Init s (onlyFree l) := by
  have hnone : ∀ t x, (s.pc t).hand ≠ some x := by
    intro t x hx
    rw [h.quiet t] at hx
    cases hx
  have hframe : ∀ a, a ∈ l ↔ Frame s a ∧ s.memMap (MAP_NR a) = 0 := by
    intro a
    rw [h.mem_iff, h.memMap_eq]
    constructor
    · rintro ⟨i, hi, rfl, hzero⟩
      rw [MAP_NR, Nat.mul_div_cancel _ (by decide)]
      refine ⟨⟨Nat.mul_mod_left .., ?_, Nat.mul_ne_zero ?_ (by decide)⟩, hzero⟩
      · rw [h.high]
        exact Nat.lt_of_lt_of_le (Nat.mul_lt_mul_of_pos_right hi (by decide))
          (Nat.div_mul_le_self ..)
      · rintro rfl
        rw [hfirst] at hzero
        cases hzero
    · rintro ⟨ha, hzero⟩
      have hlow := ha.low
      have haligned := ha.aligned
      rw [h.high] at hlow
      refine ⟨MAP_NR a, ?_, ?_, hzero⟩
      · simp only [MAP_NR, PAGE_SIZE] at *
        omega
      · simp only [MAP_NR, PAGE_SIZE] at *
        omega
  have hmem : ∀ a, (∃ q, a ∈ onlyFree l q) ↔ a ∈ l := by
    intro a
    refine ⟨fun ⟨q, hq⟩ => ?_, fun ha => ⟨.free, ha⟩⟩
    cases q with
    | free => exact hq
    | secondary => exact absurd hq List.not_mem_nil
  refine ⟨h.quiet, ⟨⟨fun q => ?_, fun q o a hq ho => ?_⟩, fun q a ha => ?_, fun a ha hzero => ?_,
    fun t x hx => absurd hx (hnone t x), fun _ a ha => ?_, fun _ q => ?_⟩, ?_⟩
  · cases q with
    | free => exact h.chain
    | secondary => exact congrArg link h.secondary.1
  · cases q with
    | free =>
        cases o with
        | free => rfl
        | secondary => exact absurd ho List.not_mem_nil
    | secondary => exact absurd hq List.not_mem_nil
  · exact (hframe a).mp ((hmem a).mp ⟨q, ha⟩)
  · exact .inl ((hmem a).mpr ((hframe a).mpr ⟨ha, hzero⟩))
  · rw [hmem, hframe, and_iff_right ha]
  · cases q with
    | free => exact h.count
    | secondary => exact h.secondary.2
  · rw [h.memMap_eq, hfirst]
    decide

/-- `mem_init` leaves the lists and the counters right; the first page is the kernel's. -/
theorem memInit_init {startLowMem : Nat} (hlow : 0 < startLowMem) (startMem endMem : Nat)
    (word : Nat → Nat) : ∃ seg, Init (memInit startLowMem startMem endMem word) seg := by
  unfold memInit
  dsimp only
  generalize hmap : unreserve _ (pages _ (endMem / PAGE_SIZE * PAGE_SIZE)) _ = memMap
  have hfirst : memMap 0 = MAP_PAGE_RESERVED := by
    rw [← hmap, unreserve_zero, unreserve_zero (.inr (le_roundUp hlow))]
    by_cases hend : MAP_NR (endMem / PAGE_SIZE * PAGE_SIZE) = 0
    · left
      have hzero : endMem / PAGE_SIZE * PAGE_SIZE = 0 := by
        rw [MAP_NR, Nat.mul_div_cancel _ (by decide)] at hend
        rw [hend, Nat.zero_mul]
      rw [hzero, pages, Nat.zero_sub]
      rfl
    · exact .inr (le_roundUp (by omega))
  obtain ⟨l, hl⟩ := listed_foldl (s := { highMemory := endMem / PAGE_SIZE * PAGE_SIZE, memMap, word
                                         list := fun _ => 0, nr := fun _ => 0, index := 0
                                         lastFreePages := fun _ => 0, pc := fun _ => .out })
    (by dsimp only; rw [hfirst]; decide) (fun _ => rfl) (fun _ => rfl) (fun _ => rfl)
    (MAP_NR (endMem / PAGE_SIZE * PAGE_SIZE))
  exact ⟨onlyFree l, hl.init (Nat.mul_mod_left ..) hfirst⟩

/-- The lists and the counters are right in every state that is reached without setting a
counter to zero that is not zero. -/
theorem sound_of_harmless (s s' : State) (seg : Queue → List Nat) (h : Init s seg)
    (hr : Reaches step (fun s a => Allowed s a ∧ Harmless s a) s s') : ∃ seg', Sound s' seg' := by
  obtain ⟨seg', who', hi⟩ := hr.invariant (P := fun u => ∃ seg' who', Inv u seg' who')
    ⟨seg, _, h.inv⟩ fun u a u' ⟨seg', who', hi⟩ hok hs => hi.step hok.1 hok.2 hs
  exact ⟨seg', hi.sound⟩

/-- Page 1 is free. -/
def onePage : State where
  highMemory := 3 * PAGE_SIZE
  memMap i := if i = 1 then 0 else MAP_PAGE_RESERVED
  word _ := 0
  list
    | .free => PAGE_SIZE
    | .secondary => 0
  nr
    | .free => 1
    | .secondary => 0
  index := 0
  lastFreePages _ := 0
  pc _ := .out

theorem init_onePage : Init onePage (onlyFree [PAGE_SIZE]) := by
  have hmem : ∀ a, a ∈ [PAGE_SIZE] ↔ ∃ i < 3, a = i * PAGE_SIZE ∧ onePage.memMap i = 0 := by
    intro a
    rw [List.mem_singleton]
    refine ⟨fun ha => ⟨1, by decide, ha, rfl⟩, ?_⟩
    rintro ⟨i, -, rfl, hzero⟩
    by_cases hi : i = 1
    · rw [hi, Nat.one_mul]
    · exact absurd ((if_neg hi).symm.trans hzero) (by decide)
  have hlisted : Listed onePage (MAP_NR onePage.highMemory) onePage [PAGE_SIZE] :=
    ⟨rfl, rfl, ⟨rfl, rfl⟩, hmem, rfl, ⟨rfl, rfl⟩, fun _ => rfl⟩
  exact hlisted.init rfl rfl

/-- A call takes the page; before it has counted, an interrupt asks for one. -/
def interrupted : List Action :=
  [.getFreePage 0 .GFP_KERNEL, .go 0 false, .getFreePage 1 .GFP_ATOMIC, .go 1 false, .go 1 false,
    .go 1 false, .go 1 false, .go 1 false, .go 0 false, .go 0 false, .go 0 false, .go 0 false,
    .go 0 false]

/-- What it ends in. -/
def miscounted : State := (run step onePage interrupted).get onePage

theorem quiet_miscounted : Quiet miscounted := by
  intro t
  cases t with
  | zero => rfl
  | succ t =>
      cases t with
      | zero => rfl
      | succ t => rfl

/-- The counter is -1 then. -/
theorem not_sound :
    ¬ ∀ s s' seg, Init s seg → Reaches step Allowed s s' → ∃ seg', Sound s' seg' := by
  intro h
  have hrun : run step onePage interrupted = .next miscounted :=
    Outcome.eq_next (by decide) onePage
  obtain ⟨seg, hsound⟩ := h onePage miscounted _ init_onePage
    (Reaches.of_run hrun (RunOk.of_forall (by simp [interrupted, Allowed]) onePage))
  have hcount := hsound.counted quiet_miscounted .free
  rw [show miscounted.nr .free = -1 by decide] at hcount
  omega

/-- A call that nothing interrupts, and the page is freed again. -/
def undisturbed : List Action :=
  [.getFreePage 0 .GFP_ATOMIC, .go 0 false, .go 0 false, .go 0 false, .go 0 false, .go 0 false,
    .go 0 false, .freePage PAGE_SIZE]

theorem sound_of_harmless_undisturbed :
    ∃ seg, Sound ((run step onePage undisturbed).get onePage) seg := by
  have hgo : ∀ {s : State}, (∀ priority q, s.pc 0 ≠ .repairing priority q) →
      Allowed s (.go 0 false) ∧ Harmless s (.go 0 false) := fun h =>
    ⟨True.intro, fun priority q hpc => absurd hpc (h priority q)⟩
  refine sound_of_harmless onePage _ _ init_onePage (Reaches.of_run
    (Outcome.eq_next (show (run step onePage undisturbed).isNext = true by decide) onePage) ?_)
  refine .cons ⟨True.intro, True.intro⟩ ?_
  iterate 6 refine .cons (hgo fun _ _ h => by cases h) ?_
  refine .cons ⟨fun t x hx => ?_, True.intro⟩ True.intro
  cases t with
  | zero => cases hx
  | succ t => cases hx

end LinuxKernel.V098.Mm.FreePages
