import Mathlib.Data.List.Perm.Subperm
import LinuxKernel.V098.Kernel.Tree

/-!
# LinuxKernel.V098.Kernel.TreeForest

**The process tree stays a forest** exactly as long as no task is moved below its own
descendants: `PTRACE_ATTACH` lets a task trace its ancestors, and task 1.

The sibling lists are one family of queues (`Queued`), the older links forward and the
younger ones back, with the parent as the key. `REMOVE_LINKS` and `SET_LINKS` take an element
out and put it in. In the loop of `do_exit` the links are those of a family but for the
younger link of the first child, which is stale.
-/

namespace LinuxKernel.V098.Kernel.Tree

variable {s s' : State} {a : Act} {t u x p current : Addr} {key : Addr → Option Addr}

/-! ### The links of one call -/

/-- The links are replaced. -/
def withLinks (s : State) (os ys c : Addr → Option Addr) : State :=
  { s with pOsptr := os, pYsptr := ys, pCptr := c }

/-- What has a key is a task, and so is its key. -/
def Live (s : State) (key : Addr → Option Addr) : Prop :=
  ∀ t i, key t = some i → s.allocated t = true ∧ s.allocated i = true

theorem setYsptrIf_eq {q v : Option Addr} (h : ∀ a, q = some a → s.allocated a = true) :
    setYsptrIf s q v = .next { s with pYsptr := storeAt s.pYsptr q v } := by
  cases q with
  | none => rfl
  | some a => exact if_pos (h a rfl)

theorem setOsptr_some {q : Addr} {v : Option Addr} (h : s.allocated q = true) :
    setOsptr s (some q) v = .next { s with pOsptr := Function.update s.pOsptr q v } :=
  if_pos h

theorem setCptr_some {q : Addr} {v : Option Addr} (h : s.allocated q = true) :
    setCptr s (some q) v = .next { s with pCptr := Function.update s.pCptr q v } :=
  if_pos h

theorem setYsptr_some {q : Addr} {v : Option Addr} (h : s.allocated q = true) :
    setYsptr s (some q) v = .next { s with pYsptr := Function.update s.pYsptr q v } :=
  if_pos h

/-- `REMOVE_LINKS` takes `x` off its queue. -/
theorem removeLinks_spec (hq : Queued s.pOsptr s.pYsptr s.pCptr key) (hl : Live s key)
    (hx : key x = some (s.pPptr x)) :
    ∃ os ys c, removeLinks s x = .next (withLinks s os ys c) ∧
      Queued os ys c (Function.update key x none) := by
  have hself : storeAt s.pYsptr (s.pOsptr x) (s.pYsptr x) x = s.pYsptr x := by
    rw [storeAt_apply, if_neg]
    exact fun hos => (hq.next_key hx hos).2.2 rfl
  unfold removeLinks
  rw [setYsptrIf_eq fun q hos => (hl q _ (hq.next_key hx hos).1).1, Outcome.bind_next]
  simp only [hself]
  cases hp : s.pYsptr x with
  | some q =>
      dsimp only
      rw [setOsptr_some (by exact (hl q _ (hq.prev_key hx hp).1).1)]
      refine ⟨_, _, s.pCptr, rfl, hq.remove (fun hn => ?_) (fun a => ?_) (fun a => ?_)
        (fun i hi => ?_) fun i _ => rfl⟩
      · rw [hx] at hn
        cases hn
      · rw [Function.update_apply, hp]
        simp only [Option.some.injEq, eq_comm]
      · rw [hp]
        exact storeAt_apply ..
      · rw [if_neg]
        intro hhead
        rw [hq.head_prev hhead] at hp
        cases hp
  | none =>
      dsimp only
      rw [setCptr_some (by exact (hl x _ hx).2)]
      refine ⟨s.pOsptr, _, _, rfl, hq.remove (fun hn => ?_) (fun a => ?_) (fun a => ?_)
        (fun i hi => ?_) fun i hi => ?_⟩
      · rw [hx] at hn
        cases hn
      · rw [hp, if_neg fun he => Option.some_ne_none _ he.symm]
      · rw [hp]
        exact storeAt_apply ..
      · rw [hx] at hi
        obtain rfl := Option.some.inj hi
        rw [Function.update_self, if_pos ((hq.prev_none_iff hx).mp hp)]
      · rw [Function.update_of_ne]
        rintro rfl
        exact hi hx

/-- `SET_LINKS` puts `x` at the head of its parent's queue. -/
theorem setLinks_spec (hq : Queued s.pOsptr s.pYsptr s.pCptr key) (hl : Live s key)
    (hx : key x = none) (hax : s.allocated x = true) (hap : s.allocated (s.pPptr x) = true) :
    ∃ os ys c, setLinks s x = .next (withLinks s os ys c) ∧
      Queued os ys c (Function.update key x (some (s.pPptr x))) := by
  have hself : Function.update s.pOsptr x (s.pCptr (s.pPptr x)) x = s.pCptr (s.pPptr x) :=
    Function.update_self ..
  have hkey : ∀ q, s.pCptr (s.pPptr x) = some q → key q = some (s.pPptr x) := fun q => hq.head_key
  have hne : s.pCptr (s.pPptr x) ≠ some x := fun hc => by
    rw [hkey x hc] at hx
    cases hx
  refine ⟨_, storeAt (Function.update s.pYsptr x none) (s.pCptr (s.pPptr x)) (some x), _, ?_,
    hq.insert _ _ hx (Function.update_self ..) (fun a ha => Function.update_of_ne ha ..) ?_
      fun a ha => ?_⟩
  · unfold setLinks
    rw [setYsptr_some hax, Outcome.bind_next, setOsptr_some (by exact hax), Outcome.bind_next]
    simp only [hself]
    rw [setYsptrIf_eq (by exact fun q hc => (hl q _ (hkey q hc)).1), Outcome.bind_next,
      setCptr_some (by exact hap)]
    rfl
  · rw [storeAt_apply, if_neg hne, Function.update_self]
  · rw [storeAt_apply, Function.update_of_ne ha]

theorem moveTo_spec (hq : Queued s.pOsptr s.pYsptr s.pCptr key) (hl : Live s key)
    (hx : key x = some (s.pPptr x)) (hu : s.allocated u = true) :
    ∃ os ys c, moveTo s x u = .next (withLinks (setPptr s x u) os ys c) ∧
      Queued os ys c (Function.update key x (some u)) := by
  obtain ⟨os, ys, c, hrem, hq'⟩ := removeLinks_spec hq hl hx
  have hl' : Live (setPptr (withLinks s os ys c) x u) (Function.update key x none) := by
    intro t i hk
    by_cases htx : t = x
    · subst htx
      rw [Function.update_self] at hk
      cases hk
    · rw [Function.update_of_ne htx] at hk
      exact hl t i hk
  have hpptr : (setPptr (withLinks s os ys c) x u).pPptr x = u := Function.update_self ..
  obtain ⟨os', ys', c', hset, hq''⟩ := setLinks_spec (s := setPptr (withLinks s os ys c) x u)
    (x := x) hq' hl' (Function.update_self ..) (hl x _ hx).1 (by rw [hpptr]; exact hu)
  refine ⟨os', ys', c', ?_, ?_⟩
  · unfold moveTo
    rw [hrem, Outcome.bind_next, hset]
    rfl
  · rwa [hpptr, Function.update_idem] at hq''

/-! ### The loop of `do_exit` -/

/-- `p`, the first child of `current`, becomes the first one of task 1. -/
def adopt (s : State) (p : Addr) : State :=
  setPptr { s with ptraced := Function.update s.ptraced p false } p init

theorem reparent_spec {h : Addr}
    (hq : Queued s.pOsptr (storeAt s.pYsptr (s.pCptr current) none) s.pCptr key) (hl : Live s key)
    (hp : s.pCptr current = some p) (hne : current ≠ init) (hr : reaper s = init)
    (hh : s.pCptr init = some h) :
    ∃ os ys c, reparent s current p = .next (withLinks (adopt s p) os ys c) ∧
      Queued os (storeAt ys (c current) none) c (Function.update key p (some init)) ∧
      c init = some p := by
  have hkp := hq.head_key hp
  have hkh := hq.head_key hh
  have hhp : h ≠ p := by
    rintro rfl
    rw [hkp] at hkh
    exact hne (Option.some.inj hkh)
  have hnext : ∀ a, s.pOsptr p = some a → a ≠ h := by
    rintro a ha rfl
    have hka := (hq.next_key hkp ha).1
    rw [hkh] at hka
    exact hne (Option.some.inj hka).symm
  have hys : ∀ a, a ≠ p → storeAt s.pYsptr (s.pCptr current) none a = s.pYsptr a := by
    intro a ha
    rw [storeAt_apply, hp, if_neg]
    exact fun he => ha (Option.some.inj he).symm
  have hfirst : storeAt s.pYsptr (s.pCptr current) none p = none := by
    rw [storeAt_apply, hp, if_pos rfl]
  have hinit : Function.update s.pCptr current (s.pOsptr p) init = some h := by
    rw [Function.update_of_ne hne.symm, hh]
  -- `p` is taken off the list of `current`
  have hrem : Queued s.pOsptr
      (fun a => if s.pOsptr p = some a then none else storeAt s.pYsptr (s.pCptr current) none a)
      (Function.update s.pCptr current (s.pOsptr p)) (Function.update key p none) := by
    refine hq.remove (fun hn => ?_) (fun a => ?_) (fun a => ?_) (fun i hi => ?_) fun i hi => ?_
    · rw [hkp] at hn
      cases hn
    · rw [hfirst, if_neg nofun]
    · rw [hfirst]
    · rw [hkp] at hi
      obtain rfl := Option.some.inj hi
      rw [Function.update_self, if_pos hp]
    · rw [Function.update_of_ne]
      rintro rfl
      exact hi hkp
  refine ⟨Function.update s.pOsptr p (some h),
    Function.update (Function.update s.pYsptr p none) h (some p),
    Function.update (Function.update s.pCptr current (s.pOsptr p)) init (some p), ?_, ?_, ?_⟩
  · have hr' : ∀ s', s'.task = s.task → reaper s' = init := fun s' ht => by
      unfold reaper at hr ⊢
      rw [ht]
      exact hr
    unfold reparent
    rw [setCptr_some (hl p _ hkp).2, Outcome.bind_next, setYsptr_some (by exact (hl p _ hkp).1),
      Outcome.bind_next]
    simp only [setPptr, hr', Function.update_self, hinit]
    rw [setOsptr_some (by exact (hl p _ hkp).1), Outcome.bind_next]
    simp only [Function.update_self]
    rw [setYsptr_some (by exact (hl h _ hkh).1), Outcome.bind_next]
    simp only [Function.update_self]
    rw [setCptr_some (by exact (hl h _ hkh).2)]
    rfl
  · have hins := hrem.insert (x := p) (i := init)
      (Function.update s.pOsptr p (some h))
      (storeAt (Function.update (Function.update s.pYsptr p none) h (some p))
        (Function.update (Function.update s.pCptr current (s.pOsptr p)) init (some p) current) none)
      (Function.update_self ..) (by rw [Function.update_self, hinit])
      (fun a ha => Function.update_of_ne ha ..)
    rw [Function.update_of_ne hne, Function.update_self, Function.update_idem] at hins
    rw [Function.update_of_ne hne, Function.update_self]
    refine hins ?_ fun a ha => ?_
    · rw [storeAt_apply, Function.update_of_ne hhp.symm, Function.update_self, ite_self]
    · rw [storeAt_apply, hinit, hys a ha]
      by_cases hah : a = h
      · subst hah
        rw [if_neg fun hn => hnext a hn rfl, if_pos rfl, Function.update_self]
      · rw [if_neg (fun he => hah (Option.some.inj he).symm), Function.update_of_ne hah,
          Function.update_of_ne ha]
  · exact Function.update_self ..

/-- The children of `current` that are left when the loop begins go to task 1. -/
theorem reparentAll_spec {n : Nat}
    (hq : Queued s.pOsptr (storeAt s.pYsptr (s.pCptr current) none) s.pCptr key) (hl : Live s key)
    (hne : current ≠ init) (hr : reaper s = init) (hh : s.pCptr init ≠ none)
    (hn : ∀ l : List Addr, l.Nodup → (∀ t ∈ l, key t = some current) → l.length ≤ n) :
    ∃ os ys c pp tr, reparentAll current n s =
        .next (withLinks { s with pPptr := pp, ptraced := tr } os ys c) ∧
      Queued os ys c (fun t => if key t = some current then some init else key t) ∧
      ∀ t, pp t = if key t = some current then init else s.pPptr t := by
  induction n generalizing s key with
  | zero =>
      have hc : s.pCptr current = none := by
        cases hp : s.pCptr current with
        | none => rfl
        | some p =>
            have := hn [p] (List.nodup_singleton p) (by
              intro t ht
              obtain rfl := List.mem_singleton.mp ht
              exact hq.head_key hp)
            simp at this
      have hnone : ∀ t, key t ≠ some current := fun t ht => by
        have := hn [t] (List.nodup_singleton t) (by
          intro u hu
          obtain rfl := List.mem_singleton.mp hu
          exact ht)
        simp at this
      rw [hc] at hq
      refine ⟨s.pOsptr, s.pYsptr, s.pCptr, s.pPptr, s.ptraced, ?_, ?_, fun t => ?_⟩
      · unfold reparentAll
        rw [hc]
        rfl
      · simp only [if_neg (hnone _)]
        exact hq
      · rw [if_neg (hnone t)]
  | succ n ih =>
      cases hp : s.pCptr current with
      | none =>
          have hnone : ∀ t, key t ≠ some current := fun t ht => by
            obtain ⟨l, hlink, -, hmem⟩ := hq current
            rw [hp] at hlink
            cases l with
            | nil => exact absurd ((hmem t).mpr ht) List.not_mem_nil
            | cons b l => cases hlink.1
          rw [hp] at hq
          refine ⟨s.pOsptr, s.pYsptr, s.pCptr, s.pPptr, s.ptraced, ?_, ?_, fun t => ?_⟩
          · unfold reparentAll
            rw [hp]
            rfl
          · simp only [if_neg (hnone _)]
            exact hq
          · rw [if_neg (hnone t)]
      | some p =>
          have hkp := hq.head_key hp
          obtain ⟨h, hh⟩ := Option.ne_none_iff_exists'.mp hh
          obtain ⟨os, ys, c, hrep, hq', hc⟩ := reparent_spec hq hl hp hne hr hh
          have hinit := (hl h _ (hq.head_key hh)).2
          have hcount : ∀ l : List Addr, l.Nodup →
              (∀ t ∈ l, Function.update key p (some init) t = some current) → l.length ≤ n := by
            intro l hnd hk
            have hpl : p ∉ l := fun hin => by
              have := hk p hin
              rw [Function.update_self] at this
              exact hne (Option.some.inj this).symm
            have := hn (p :: l) (List.nodup_cons.mpr ⟨hpl, hnd⟩) (by
              intro t ht
              rcases List.mem_cons.mp ht with rfl | hin
              · exact hkp
              · have htp : t ≠ p := fun he => hpl (he ▸ hin)
                have := hk t hin
                rwa [Function.update_of_ne htp] at this)
            simpa using this
          obtain ⟨os', ys', c', pp, tr, hall, hq'', hpp⟩ := ih (s := withLinks (adopt s p) os ys c)
            hq' (by
              intro t i hk
              by_cases htp : t = p
              · subst htp
                rw [Function.update_self] at hk
                obtain rfl := Option.some.inj hk
                exact ⟨(hl t _ hkp).1, hinit⟩
              · rw [Function.update_of_ne htp] at hk
                exact hl t i hk) hr (by
              change c init ≠ none
              rw [hc]
              nofun) hcount
          refine ⟨os', ys', c', pp, tr, ?_, ?_, fun t => ?_⟩
          · unfold reparentAll
            rw [hp]
            dsimp only
            rw [hrep, Outcome.bind_next, hall]
            rfl
          · have hfun : (fun t => if Function.update key p (some init) t = some current then some init
                else Function.update key p (some init) t) =
                fun t => if key t = some current then some init else key t := by
              funext t
              by_cases htp : t = p
              · subst htp
                rw [Function.update_self, if_neg fun he => hne (Option.some.inj he).symm, if_pos hkp]
              · rw [Function.update_of_ne htp]
            rwa [hfun] at hq''
          · rw [hpp t]
            by_cases htp : t = p
            · subst htp
              rw [Function.update_self, if_neg fun he => hne (Option.some.inj he).symm, if_pos hkp]
              exact Function.update_self ..
            · rw [Function.update_of_ne htp]
              split
              · rfl
              · exact Function.update_of_ne htp ..

/-! ### The invariant -/

theorem inTask_iff : inTask s t = true ↔ ∃ i < NR_TASKS, s.task i = some t := by
  simp [inTask]

theorem search_some {i : Nat} (h : search s t = some i) :
    0 < i ∧ i < NR_TASKS ∧ s.task i = some t := by
  have hmem := List.mem_of_find?_eq_some h
  have hp := List.find?_some h
  simp only [Bool.decide_and, Bool.and_eq_true, decide_eq_true_eq] at hp
  exact ⟨hp.1, List.mem_range.mp hmem, hp.2⟩

theorem search_none (h : search s t = none) {i : Nat} (hi : 0 < i) (hlt : i < NR_TASKS) :
    s.task i ≠ some t := by
  have := List.find?_eq_none.mp h i (List.mem_range.mpr hlt)
  simp only [Bool.decide_and, Bool.and_eq_true, decide_eq_true_eq, not_and] at this
  exact this hi

/-- On whose list of children a task is. -/
def parentOf (s : State) (t : Addr) : Option Addr :=
  if inTask s t ∧ t ≠ initTask then some (s.pPptr t) else none

/-- No task has `t` as its parent. -/
def Childless (s : State) (t : Addr) : Prop := ∀ u, inTask s u → s.pPptr u ≠ t

/-- No task has `t` as its original parent. -/
def Forgotten (s : State) (t : Addr) : Prop := ∀ u, inTask s u → s.pOpptr u ≠ t

/-- What the place of a task says. -/
def PcOk (s : State) (t : Addr) : Prop :=
  match s.pc t with
  | .user => True
  | .new => Childless s t ∧ Forgotten s t
  | .fork nr p => 0 < nr ∧ nr < NR_TASKS ∧ s.task nr = some p ∧ s.pc p = .new ∧ s.pOpptr p = t
  | .exiting => Forgotten s t
  | .dead => Childless s t ∧ Forgotten s t

structure Inv (s : State) : Prop where
  first : s.task 0 = some initTask
  second : s.task 1 = some init
  inj : ∀ i j t, i < NR_TASKS → j < NR_TASKS → s.task i = some t → s.task j = some t → i = j
  allocated : ∀ t, s.allocated t = inTask s t
  queued : Queued s.pOsptr s.pYsptr s.pCptr (parentOf s)
  root : s.pPptr initTask = initTask
  rootOpptr : s.pOpptr initTask = initTask
  initPptr : s.pPptr init ≠ init
  initOpptr : s.pOpptr init = initTask
  pptr : ∀ t, inTask s t → inTask s (s.pPptr t)
  opptr : ∀ t, inTask s t → inTask s (s.pOpptr t)
  opptrFirst : ∀ t, inTask s t → t ≠ initTask → t ≠ init → s.pOpptr t ≠ initTask
  climbs : ∀ t, inTask s t → t ≠ initTask → Climbs s.pPptr init (fun _ => False) t
  pcs : ∀ t, inTask s t → PcOk s t
  idle : s.pc initTask = .user
  lasting : s.pc init ≠ .new ∧ s.pc init ≠ .exiting ∧ s.pc init ≠ .dead
  zombie : ∀ t, inTask s t → (s.state t = .zombie ↔ s.pc t = .dead)

theorem init_ne_first : init ≠ initTask := by decide

namespace Inv

theorem inTask_first (h : Inv s) : inTask s initTask := inTask_iff.mpr ⟨0, by decide, h.first⟩

theorem inTask_init (h : Inv s) : inTask s init := inTask_iff.mpr ⟨1, by decide, h.second⟩

theorem parentOf_eq (ht : inTask s t) (hne : t ≠ initTask) : parentOf s t = some (s.pPptr t) :=
  if_pos ⟨ht, hne⟩

theorem of_parentOf {i : Addr} (h : parentOf s t = some i) :
    inTask s t ∧ t ≠ initTask ∧ s.pPptr t = i := by
  unfold parentOf at h
  split at h
  · next hc => exact ⟨hc.1, hc.2, Option.some.inj h⟩
  · cases h

theorem live (h : Inv s) : Live s (parentOf s) := by
  intro t i hk
  obtain ⟨ht, -, rfl⟩ := of_parentOf hk
  rw [h.allocated, h.allocated]
  exact ⟨ht, h.pptr t ht⟩

theorem reaper_eq (h : Inv s) : reaper s = init := by
  simp [reaper, h.second]

/-- A task in a slot that is searched is not the first one. -/
theorem ne_first (h : Inv s) {i : Nat} (hi : 0 < i) (hlt : i < NR_TASKS) (ht : s.task i = some t) :
    t ≠ initTask := by
  rintro rfl
  exact absurd (h.inj i 0 _ hlt (by decide) ht h.first) (by omega)

theorem search_of_ne (h : Inv s) (ht : inTask s t) (hne : t ≠ initTask) :
    ∃ i, search s t = some i ∧ 0 < i ∧ i < NR_TASKS ∧ s.task i = some t := by
  cases hs : search s t with
  | some i => exact ⟨i, rfl, search_some hs⟩
  | none =>
      obtain ⟨i, hlt, hi⟩ := inTask_iff.mp ht
      rcases Nat.eq_zero_or_pos i with rfl | hpos
      · rw [h.first] at hi
        exact absurd (Option.some.inj hi).symm hne
      · exact absurd hi (search_none hs hpos hlt)

theorem not_climbs_first (h : Inv s) {avoid : Addr → Prop} :
    ¬ Climbs s.pPptr init avoid initTask :=
  fun hc => hc.ne_self init_ne_first.symm h.root

/-- Task 1 has a child as long as there is a third task. -/
theorem exists_child (h : Inv s) (ht : inTask s t) (hne : t ≠ initTask) (hni : t ≠ init) :
    s.pCptr init ≠ none := by
  have hex : ∃ u, inTask s u ∧ u ≠ initTask ∧ s.pPptr u = init := by
    have hc := h.climbs t ht hne
    induction hc with
    | root => exact absurd rfl hni
    | @step b _ hup ih =>
        by_cases hb : s.pPptr b = init
        · exact ⟨b, ht, hne, hb⟩
        · refine ih (h.pptr b ht) (fun he => ?_) hb
          rw [he] at hup
          exact h.not_climbs_first hup
  obtain ⟨u, hu, hune, hup⟩ := hex
  obtain ⟨l, hlink, -, hmem⟩ := h.queued init
  intro hnone
  rw [hnone] at hlink
  have hul : u ∈ l := (hmem u).mpr (by rw [parentOf_eq hu hune, hup])
  cases l with
  | nil => cases hul
  | cons b l => cases hlink.1

/-- There are at most `NR_TASKS` tasks. -/
theorem count {l : List Addr} (hnd : l.Nodup) (hl : ∀ t ∈ l, inTask s t) :
    l.length ≤ NR_TASKS := by
  have hsub : l ⊆ (List.range NR_TASKS).filterMap s.task := by
    intro t ht
    obtain ⟨i, hlt, hi⟩ := inTask_iff.mp (hl t ht)
    exact List.mem_filterMap.mpr ⟨i, List.mem_range.mpr hlt, hi⟩
  calc l.length ≤ ((List.range NR_TASKS).filterMap s.task).length := (hnd.subperm hsub).length_le
    _ ≤ (List.range NR_TASKS).length := List.length_filterMap_le ..
    _ = NR_TASKS := List.length_range

/-- A task that nobody points to is on nobody's way up. -/
theorem climbs_avoiding (h : Inv s) (hx : Childless s x) (hu : inTask s u) (hne : u ≠ initTask)
    (hux : u ≠ x) : Climbs s.pPptr init (· = x) u := by
  refine (h.climbs u hu hne).avoid_leaf (P := fun b => inTask s b) hu hux ?_ ?_
  · exact fun b hb _ => h.pptr b hb
  · exact fun b hb _ => hx b hb

/-- A task whose place says what does not point to it. -/
def Bare (s : State) (t : Addr) : Prop := s.pc t = .new ∨ s.pc t = .exiting ∨ s.pc t = .dead

theorem ne_init_of_bare (h : Inv s) (ht : Bare s t) : t ≠ init := by
  rintro rfl
  rcases ht with hpc | hpc | hpc
  · exact h.lasting.1 hpc
  · exact h.lasting.2.1 hpc
  · exact h.lasting.2.2 hpc

theorem forgotten_of_bare (h : Inv s) (hin : inTask s t) (ht : Bare s t) : Forgotten s t := by
  have hok := h.pcs t hin
  unfold PcOk at hok
  rcases ht with hpc | hpc | hpc
  · rw [hpc] at hok
    exact hok.2
  · rw [hpc] at hok
    exact hok
  · rw [hpc] at hok
    exact hok.2

theorem not_bare_opptr (h : Inv s) (ht : inTask s t) : ¬ Bare s (s.pOpptr t) :=
  fun hb => h.forgotten_of_bare (h.opptr t ht) hb t ht rfl

/-- A place is as good as before if no task has lost a parent or an original parent that
it had not, and the children of forks are the same. -/
theorem pcOk_mono {s' : State} (hok : PcOk s t) (hpc : s'.pc t = s.pc t)
    (hchild : Bare s t → Childless s t → Childless s' t)
    (hforg : Bare s t → Forgotten s t → Forgotten s' t)
    (hfork : ∀ nr p, s.pc t = .fork nr p → s.task nr = some p → s.pc p = .new → s.pOpptr p = t →
      s'.task nr = some p ∧ s'.pc p = .new ∧ s'.pOpptr p = t) : PcOk s' t := by
  unfold PcOk at hok ⊢
  rw [hpc]
  cases hst : s.pc t with
  | user => trivial
  | new =>
      rw [hst] at hok
      exact ⟨hchild (Or.inl hst) hok.1, hforg (Or.inl hst) hok.2⟩
  | fork nr p =>
      rw [hst] at hok
      obtain ⟨hpos, hlt, hnp, hnew, hopp⟩ := hok
      exact ⟨hpos, hlt, hfork nr p hst hnp hnew hopp⟩
  | exiting =>
      rw [hst] at hok
      exact hforg (Or.inr (Or.inl hst)) hok
  | dead =>
      rw [hst] at hok
      exact ⟨hchild (Or.inr (Or.inr hst)) hok.1, hforg (Or.inr (Or.inr hst)) hok.2⟩

/-! ### What keeps the invariant -/

theorem setState (h : Inv s) {st : Addr → TaskState} {tr : Addr → Bool}
    (hz : ∀ t, inTask s t → (st t = .zombie ↔ s.state t = .zombie)) :
    Inv { s with state := st, ptraced := tr } where
  first := h.first
  second := h.second
  inj := h.inj
  allocated := h.allocated
  queued := h.queued
  root := h.root
  rootOpptr := h.rootOpptr
  initPptr := h.initPptr
  initOpptr := h.initOpptr
  pptr := h.pptr
  opptr := h.opptr
  opptrFirst := h.opptrFirst
  climbs := h.climbs
  pcs := h.pcs
  idle := h.idle
  lasting := h.lasting
  zombie := fun t ht => (hz t ht).trans (h.zombie t ht)

/-- `x` gets the parent `u`. -/
theorem move (h : Inv s) (hx : inTask s x) (hxf : x ≠ initTask) (hu : inTask s u)
    (hux : x = init → u ≠ init)
    (hc : x = init ∨ Climbs s.pPptr init (· = x) u) (hb : ¬ Bare s u)
    {os ys c : Addr → Option Addr} (hq : Queued os ys c (Function.update (parentOf s) x (some u))) :
    Inv (withLinks (setPptr s x u) os ys c) where
  first := h.first
  second := h.second
  inj := h.inj
  allocated := h.allocated
  queued := by
    have hkey : parentOf (withLinks (setPptr s x u) os ys c) =
        Function.update (parentOf s) x (some u) := by
      funext t
      by_cases htx : t = x
      · subst htx
        rw [Function.update_self, parentOf_eq (by exact hx) hxf]
        exact congrArg some (Function.update_self ..)
      · rw [Function.update_of_ne htx]
        change (if inTask s t ∧ t ≠ initTask then some (Function.update s.pPptr x u t) else none) = _
        rw [Function.update_of_ne htx]
        rfl
    rw [hkey]
    exact hq
  root := (Function.update_of_ne hxf.symm ..).trans h.root
  rootOpptr := h.rootOpptr
  initPptr := by
    change Function.update s.pPptr x u init ≠ init
    by_cases hxi : init = x
    · rw [hxi, Function.update_self, ← hxi]
      exact hux hxi.symm
    · rw [Function.update_of_ne hxi]
      exact h.initPptr
  initOpptr := h.initOpptr
  pptr := by
    intro t ht
    by_cases htx : t = x
    · subst htx
      change inTask s (Function.update s.pPptr t u t)
      rwa [Function.update_self]
    · change inTask s (Function.update s.pPptr x u t)
      rw [Function.update_of_ne htx]
      exact h.pptr t ht
  opptr := h.opptr
  opptrFirst := h.opptrFirst
  climbs := by
    intro t ht htf
    have ht' := h.climbs t ht htf
    rcases hc with rfl | hc
    · exact ht'.congr (P := fun _ => True) trivial (fun _ _ _ => trivial)
        (fun b _ hb => Function.update_of_ne hb ..) fun _ _ _ hf => hf
    · exact ht'.move hc
  pcs := by
    intro t ht
    refine pcOk_mono (h.pcs t ht) rfl (fun hbt hcl b hbin => ?_) (fun _ => id)
      fun _ _ _ hn hnew hopp => ⟨hn, hnew, hopp⟩
    by_cases hbx : b = x
    · subst hbx
      change Function.update s.pPptr b u b ≠ t
      rw [Function.update_self]
      rintro rfl
      exact hb hbt
    · change Function.update s.pPptr x u b ≠ t
      rw [Function.update_of_ne hbx]
      exact hcl b hbin
  idle := h.idle
  lasting := h.lasting
  zombie := h.zombie

/-- `x`, to which nothing points, is taken out. -/
theorem drop (h : Inv s) {nr : Nat} (hpos : 0 < nr) (hlt : nr < NR_TASKS) (hx : s.task nr = some x)
    (hxi : x ≠ init) (hch : Childless s x) (hf : Forgotten s x) (pc : Addr → Pc)
    (hpc : ∀ t, inTask s t → t ≠ x →
      (pc t = .user ∧ s.pc t ≠ .dead ∧ s.pc t ≠ .new) ∨
        (pc t = s.pc t ∧ ∀ n, s.pc t ≠ .fork n x))
    {os ys c : Addr → Option Addr} (hq : Queued os ys c (Function.update (parentOf s) x none)) :
    Inv (withLinks { s with
      task := Function.update s.task nr none
      allocated := Function.update s.allocated x false
      pc := pc } os ys c) := by
  have hxf := h.ne_first hpos hlt hx
  have hin : ∀ t, inTask { s with task := Function.update s.task nr none } t = true ↔
      inTask s t = true ∧ t ≠ x := by
    intro t
    rw [inTask_iff, inTask_iff]
    constructor
    · rintro ⟨i, hi, ht⟩
      change Function.update s.task nr none i = some t at ht
      by_cases hinr : i = nr
      · subst hinr
        rw [Function.update_self] at ht
        cases ht
      · rw [Function.update_of_ne hinr] at ht
        refine ⟨⟨i, hi, ht⟩, ?_⟩
        rintro rfl
        exact hinr (h.inj i nr _ hi hlt ht hx)
    · rintro ⟨⟨i, hi, ht⟩, htx⟩
      refine ⟨i, hi, ?_⟩
      change Function.update s.task nr none i = some t
      rw [Function.update_of_ne, ht]
      rintro rfl
      rw [hx] at ht
      exact htx (Option.some.inj ht).symm
  have hslot : ∀ i, i ≠ nr → Function.update s.task nr none i = s.task i :=
    fun i hi => Function.update_of_ne hi ..
  have hinit := hpc init h.inTask_init hxi.symm
  refine ⟨?_, ?_, ?_, ?_, ?_, h.root, h.rootOpptr, h.initPptr, h.initOpptr, ?_, ?_, ?_, ?_, ?_, ?_,
    ?_, ?_⟩
  · exact (hslot 0 (by omega)).trans h.first
  · refine (hslot 1 ?_).trans h.second
    rintro rfl
    rw [h.second] at hx
    exact hxi (Option.some.inj hx).symm
  · intro i j t hi hj hit hjt
    change Function.update s.task nr none i = some t at hit
    change Function.update s.task nr none j = some t at hjt
    have hne : ∀ i, Function.update s.task nr none i = some t → i ≠ nr := by
      rintro i hi rfl
      rw [Function.update_self] at hi
      cases hi
    rw [hslot i (hne i hit)] at hit
    rw [hslot j (hne j hjt)] at hjt
    exact h.inj i j t hi hj hit hjt
  · intro t
    change Function.update s.allocated x false t =
      inTask { s with task := Function.update s.task nr none } t
    rw [Bool.eq_iff_iff, hin]
    by_cases htx : t = x
    · subst htx
      simp
    · rw [Function.update_of_ne htx, h.allocated]
      simp [htx]
  · have hkey : parentOf { s with task := Function.update s.task nr none } =
        Function.update (parentOf s) x none := by
      funext t
      unfold parentOf
      simp only [hin]
      by_cases htx : t = x
      · subst htx
        simp
      · simp [htx]
    exact (congrArg (Queued os ys c) hkey).mpr hq
  · intro t ht
    have ht' := (hin t).mp ht
    exact (hin _).mpr ⟨h.pptr t ht'.1, hch t ht'.1⟩
  · intro t ht
    have ht' := (hin t).mp ht
    exact (hin _).mpr ⟨h.opptr t ht'.1, hf t ht'.1⟩
  · exact fun t ht => h.opptrFirst t ((hin t).mp ht).1
  · exact fun t ht => h.climbs t ((hin t).mp ht).1
  · intro t ht
    obtain ⟨ht', htx⟩ := (hin t).mp ht
    rcases hpc t ht' htx with ⟨huser, -⟩ | ⟨heq, hnf⟩
    · unfold PcOk
      change match pc t with | .user => _ | .new => _ | .fork nr p => _ | .exiting => _ | .dead => _
      rw [huser]
      trivial
    · refine pcOk_mono (h.pcs t ht') heq (fun _ hc u hu => hc u ((hin u).mp hu).1)
        (fun _ hc u hu => hc u ((hin u).mp hu).1) ?_
      intro n p hst hnp hnew hopp
      have hpx : p ≠ x := fun he => hnf n (by rw [hst, he])
      have hok := h.pcs t ht'
      unfold PcOk at hok
      rw [hst] at hok
      refine ⟨(hslot n ?_).trans hnp, ?_, hopp⟩
      · rintro rfl
        rw [hx] at hnp
        exact hpx (Option.some.inj hnp).symm
      · rcases hpc p (inTask_iff.mpr ⟨n, hok.2.1, hnp⟩) hpx with ⟨-, -, hn⟩ | ⟨heq', -⟩
        · exact absurd hnew hn
        · exact heq'.trans hnew
  · rcases hpc initTask h.inTask_first hxf.symm with ⟨huser, -⟩ | ⟨heq, -⟩
    · exact huser
    · exact heq.trans h.idle
  · change pc init ≠ _ ∧ pc init ≠ _ ∧ pc init ≠ _
    rcases hinit with ⟨huser, -⟩ | ⟨heq, -⟩
    · rw [huser]
      exact ⟨nofun, nofun, nofun⟩
    · rw [heq]
      exact h.lasting
  · intro t ht
    obtain ⟨ht', htx⟩ := (hin t).mp ht
    refine (h.zombie t ht').trans ?_
    change s.pc t = _ ↔ pc t = _
    rcases hpc t ht' htx with ⟨huser, hnd, -⟩ | ⟨heq, -⟩
    · rw [huser]
      exact ⟨fun he => absurd he hnd, nofun⟩
    · rw [heq]

/-- The state of a fork in `copy_mem`. -/
def forked (s : State) (current p : Addr) (nr : Nat) : State :=
  { s with
    task := Function.update s.task nr (some p)
    allocated := Function.update s.allocated p true
    state := Function.update s.state p .uninterruptible
    ptraced := Function.update s.ptraced p false
    pOpptr := Function.update s.pOpptr p current
    pPptr := Function.update s.pPptr p current
    pc := Function.update (Function.update s.pc p .new) current (.fork nr p) }

theorem fork (h : Inv s) {nr : Nat} (hcur : inTask s current) (hcf : current ≠ initTask)
    (hcu : s.pc current = .user) (hp : s.allocated p = false) (hpos : 0 < nr) (hlt : nr < NR_TASKS)
    (hnr : s.task nr = none) {os ys c : Addr → Option Addr}
    (hq : Queued os ys c (Function.update (parentOf s) p (some current))) :
    Inv (withLinks (forked s current p nr) os ys c) := by
  have hpin : inTask s p = false := by rw [← h.allocated, hp]
  have hne : ∀ t, inTask s t → t ≠ p := by
    rintro t ht rfl
    rw [hpin] at ht
    cases ht
  have hslot : ∀ i t, s.task i = some t → Function.update s.task nr (some p) i = some t := by
    intro i t hi
    rw [Function.update_of_ne, hi]
    rintro rfl
    rw [hnr] at hi
    cases hi
  have hin : ∀ t, inTask (forked s current p nr) t = true ↔ inTask s t = true ∨ t = p := by
    intro t
    rw [inTask_iff, inTask_iff]
    constructor
    · rintro ⟨i, hi, ht⟩
      change Function.update s.task nr (some p) i = some t at ht
      by_cases hinr : i = nr
      · subst hinr
        rw [Function.update_self] at ht
        exact Or.inr (Option.some.inj ht).symm
      · rw [Function.update_of_ne hinr] at ht
        exact Or.inl ⟨i, hi, ht⟩
    · rintro (⟨i, hi, ht⟩ | rfl)
      · exact ⟨i, hi, hslot i t ht⟩
      · exact ⟨nr, hlt, Function.update_self ..⟩
  have hpf : p ≠ initTask := (hne _ h.inTask_first).symm
  have hpi : p ≠ init := (hne _ h.inTask_init).symm
  have hpp : ∀ t, inTask s t → Function.update s.pPptr p current t = s.pPptr t :=
    fun t ht => Function.update_of_ne (hne t ht) ..
  have hop : ∀ t, inTask s t → Function.update s.pOpptr p current t = s.pOpptr t :=
    fun t ht => Function.update_of_ne (hne t ht) ..
  have hpc : ∀ t, inTask s t → t ≠ current →
      Function.update (Function.update s.pc p .new) current (.fork nr p) t = s.pc t := by
    intro t ht htc
    rw [Function.update_of_ne htc, Function.update_of_ne (hne t ht)]
  have hpcp : Function.update (Function.update s.pc p .new) current (.fork nr p) p = .new := by
    rw [Function.update_of_ne (hne current hcur).symm, Function.update_self]
  have hleaf : ∀ t, t ≠ current → Childless s t → Childless (forked s current p nr) t := by
    intro t htc hcl u hu
    change Function.update s.pPptr p current u ≠ t
    rcases (hin u).mp hu with hu | rfl
    · rw [hpp u hu]
      exact hcl u hu
    · rw [Function.update_self]
      exact htc.symm
  have hforg : ∀ t, t ≠ current → Forgotten s t → Forgotten (forked s current p nr) t := by
    intro t htc hcl u hu
    change Function.update s.pOpptr p current u ≠ t
    rcases (hin u).mp hu with hu | rfl
    · rw [hop u hu]
      exact hcl u hu
    · rw [Function.update_self]
      exact htc.symm
  refine ⟨hslot 0 _ h.first, hslot 1 _ h.second, ?_, ?_, ?_, (hpp _ h.inTask_first).trans h.root,
    (hop _ h.inTask_first).trans h.rootOpptr, ?_, (hop _ h.inTask_init).trans h.initOpptr, ?_, ?_,
    ?_, ?_, ?_, ?_, ?_, ?_⟩
  · intro i j t hi hj hit hjt
    change Function.update s.task nr (some p) i = some t at hit
    change Function.update s.task nr (some p) j = some t at hjt
    have hcase : ∀ i, i < NR_TASKS → Function.update s.task nr (some p) i = some t →
        (i = nr ∧ t = p) ∨ (s.task i = some t ∧ t ≠ p) := by
      intro i hi hit
      by_cases hinr : i = nr
      · rw [hinr, Function.update_self] at hit
        exact Or.inl ⟨hinr, (Option.some.inj hit).symm⟩
      · rw [Function.update_of_ne hinr] at hit
        exact Or.inr ⟨hit, hne t (inTask_iff.mpr ⟨i, hi, hit⟩)⟩
    rcases hcase i hi hit with ⟨rfl, htp⟩ | ⟨hit', htp⟩
    · rcases hcase j hj hjt with ⟨rfl, -⟩ | ⟨-, htp'⟩
      · rfl
      · exact absurd htp htp'
    · rcases hcase j hj hjt with ⟨rfl, htp'⟩ | ⟨hjt', -⟩
      · exact absurd htp' htp
      · exact h.inj i j t hi hj hit' hjt'
  · intro t
    change Function.update s.allocated p true t = inTask (forked s current p nr) t
    rw [Bool.eq_iff_iff, hin]
    by_cases htp : t = p
    · subst htp
      simp
    · rw [Function.update_of_ne htp, h.allocated]
      simp [htp]
  · have hkey : parentOf (forked s current p nr) =
        Function.update (parentOf s) p (some current) := by
      funext t
      by_cases htp : t = p
      · subst htp
        rw [Function.update_self, parentOf_eq ((hin t).mpr (Or.inr rfl)) hpf]
        exact congrArg some (Function.update_self ..)
      · rw [Function.update_of_ne htp]
        unfold parentOf
        simp only [hin, htp, or_false]
        change (if _ then some (Function.update s.pPptr p current t) else none) = _
        rw [Function.update_of_ne htp]
    exact (congrArg (Queued os ys c) hkey).mpr hq
  · change Function.update s.pPptr p current init ≠ init
    rw [hpp init h.inTask_init]
    exact h.initPptr
  · intro t ht
    refine (hin _).mpr (Or.inl ?_)
    change inTask s (Function.update s.pPptr p current t)
    rcases (hin t).mp ht with ht | rfl
    · rw [hpp t ht]
      exact h.pptr t ht
    · rwa [Function.update_self]
  · intro t ht
    refine (hin _).mpr (Or.inl ?_)
    change inTask s (Function.update s.pOpptr p current t)
    rcases (hin t).mp ht with ht | rfl
    · rw [hop t ht]
      exact h.opptr t ht
    · rwa [Function.update_self]
  · intro t ht htf hti
    change Function.update s.pOpptr p current t ≠ initTask
    rcases (hin t).mp ht with ht | rfl
    · rw [hop t ht]
      exact h.opptrFirst t ht htf hti
    · rwa [Function.update_self]
  · have hup : ∀ t, inTask s t → t ≠ initTask →
        Climbs (Function.update s.pPptr p current) init (fun _ => False) t := by
      intro t ht htf
      exact (h.climbs t ht htf).congr (P := fun b => inTask s b) ht (fun b hb _ => h.pptr b hb)
        (fun b hb _ => hpp b hb) fun _ _ _ hf => hf
    intro t ht htf
    rcases (hin t).mp ht with ht | rfl
    · exact hup t ht htf
    · refine .step id ?_
      change Climbs _ _ _ (Function.update s.pPptr t current t)
      rw [Function.update_self]
      exact hup current hcur hcf
  · intro t ht
    by_cases htc : t = current
    · subst htc
      unfold PcOk
      change match Function.update (Function.update s.pc p .new) t (.fork nr p) t with
        | .user => _ | .new => _ | .fork nr p => _ | .exiting => _ | .dead => _
      rw [Function.update_self]
      exact ⟨hpos, hlt, Function.update_self .., hpcp, Function.update_self ..⟩
    · rcases (hin t).mp ht with ht | rfl
      · refine pcOk_mono (h.pcs t ht) (hpc t ht htc) (fun _ => hleaf t htc) (fun _ => hforg t htc) ?_
        intro nr' q hst hnq hnew hopp
        have hq : inTask s q := by
          have hok := h.pcs t ht
          unfold PcOk at hok
          rw [hst] at hok
          exact inTask_iff.mpr ⟨nr', hok.2.1, hnq⟩
        refine ⟨hslot nr' q hnq, (hpc q hq ?_).trans hnew, (hop q hq).trans hopp⟩
        rintro rfl
        rw [hcu] at hnew
        cases hnew
      · unfold PcOk
        change match Function.update (Function.update s.pc t .new) current (.fork nr t) t with
          | .user => _ | .new => _ | .fork nr p => _ | .exiting => _ | .dead => _
        rw [hpcp]
        refine ⟨fun u hu => ?_, fun u hu => ?_⟩
        · change Function.update s.pPptr t current u ≠ t
          rcases (hin u).mp hu with hu | rfl
          · rw [hpp u hu]
            exact hne _ (h.pptr u hu)
          · rw [Function.update_self]
            exact hne current hcur
        · change Function.update s.pOpptr t current u ≠ t
          rcases (hin u).mp hu with hu | rfl
          · rw [hop u hu]
            exact hne _ (h.opptr u hu)
          · rw [Function.update_self]
            exact hne current hcur
  · exact (hpc _ h.inTask_first hcf.symm).trans h.idle
  · change Function.update (Function.update s.pc p .new) current (.fork nr p) init ≠ _ ∧
      Function.update (Function.update s.pc p .new) current (.fork nr p) init ≠ _ ∧
      Function.update (Function.update s.pc p .new) current (.fork nr p) init ≠ _
    by_cases hci : init = current
    · rw [hci, Function.update_self]
      exact ⟨nofun, nofun, nofun⟩
    · rw [hpc init h.inTask_init hci]
      exact h.lasting
  · intro t ht
    change Function.update s.state p .uninterruptible t = _ ↔
      Function.update (Function.update s.pc p .new) current (.fork nr p) t = _
    rcases (hin t).mp ht with ht | rfl
    · rw [Function.update_of_ne (hne t ht), h.zombie t ht]
      by_cases htc : t = current
      · subst htc
        rw [Function.update_self, hcu]
        exact ⟨nofun, nofun⟩
      · rw [hpc t ht htc]
    · rw [Function.update_self, hpcp]
      exact ⟨nofun, nofun⟩

/-- The child of a fork starts. -/
theorem start (h : Inv s) {nr : Nat} (hcur : inTask s current) (hst : s.pc current = .fork nr p) :
    Inv { s with
      state := Function.update s.state p .running
      pc := Function.update (Function.update s.pc p .user) current .user } := by
  have hok := h.pcs current hcur
  unfold PcOk at hok
  rw [hst] at hok
  obtain ⟨hpos, hlt, hnp, hnew, hopp⟩ := hok
  have hpc : ∀ t, t ≠ p → t ≠ current →
      Function.update (Function.update s.pc p .user) current .user t = s.pc t := by
    intro t htp htc
    rw [Function.update_of_ne htc, Function.update_of_ne htp]
  have huser : ∀ t, t = p ∨ t = current →
      Function.update (Function.update s.pc p .user) current .user t = .user := by
    intro t ht
    by_cases htc : t = current
    · rw [htc, Function.update_self]
    · rw [Function.update_of_ne htc, ht.resolve_right htc, Function.update_self]
  refine ⟨h.first, h.second, h.inj, h.allocated, h.queued, h.root, h.rootOpptr,
    h.initPptr, h.initOpptr, h.pptr, h.opptr, h.opptrFirst, h.climbs, fun t ht => ?_, ?_, ?_, fun t ht => ?_⟩
  · by_cases hor : t = p ∨ t = current
    · unfold PcOk
      change match Function.update (Function.update s.pc p .user) current .user t with
        | .user => _ | .new => _ | .fork nr p => _ | .exiting => _ | .dead => _
      rw [huser t hor]
      trivial
    · obtain ⟨htp, htc⟩ := not_or.mp hor
      refine pcOk_mono (h.pcs t ht) (hpc t htp htc) (fun _ => id) (fun _ => id) ?_
      intro n q hst' hnq hnew' hopp'
      refine ⟨hnq, (hpc q ?_ ?_).trans hnew', hopp'⟩
      · rintro rfl
        exact htc (hopp'.symm.trans hopp)
      · rintro rfl
        rw [hst] at hnew'
        cases hnew'
  · by_cases hor : initTask = p ∨ initTask = current
    · exact huser _ hor
    · exact (hpc _ (not_or.mp hor).1 (not_or.mp hor).2).trans h.idle
  · change Function.update (Function.update s.pc p .user) current .user init ≠ _ ∧
      Function.update (Function.update s.pc p .user) current .user init ≠ _ ∧
      Function.update (Function.update s.pc p .user) current .user init ≠ _
    by_cases hor : init = p ∨ init = current
    · rw [huser _ hor]
      exact ⟨nofun, nofun, nofun⟩
    · rw [hpc _ (not_or.mp hor).1 (not_or.mp hor).2]
      exact h.lasting
  · have hz := h.zombie t ht
    change Function.update s.state p .running t = _ ↔
      Function.update (Function.update s.pc p .user) current .user t = _
    by_cases htp : t = p
    · subst htp
      rw [Function.update_self, huser t (Or.inl rfl)]
      exact ⟨nofun, nofun⟩
    · rw [Function.update_of_ne htp, hz]
      by_cases htc : t = current
      · subst htc
        rw [huser t (Or.inr rfl), hst]
        exact ⟨nofun, nofun⟩
      · rw [hpc t htp htc]

/-- `do_exit` up to `forget_original_parent`. -/
theorem forget (h : Inv s) (hcur : inTask s current) (hcf : current ≠ initTask)
    (hci : current ≠ init) (hcu : s.pc current = .user) :
    Inv { forgetOriginalParent s current with pc := Function.update s.pc current .exiting } := by
  have hop : ∀ t, (forgetOriginalParent s current).pOpptr t =
      if (search s t).isSome ∧ s.pOpptr t = current then init else s.pOpptr t := by
    intro t
    unfold forgetOriginalParent
    rw [h.reaper_eq]
  have hforg : ∀ t, t ≠ init → Forgotten s t →
      Forgotten { forgetOriginalParent s current with
        pc := Function.update s.pc current .exiting } t := by
    intro t hti hf u hu
    change (forgetOriginalParent s current).pOpptr u ≠ t
    rw [hop]
    split
    · exact hti.symm
    · exact hf u hu
  have hself : Forgotten { forgetOriginalParent s current with
      pc := Function.update s.pc current .exiting } current := by
    intro u hu
    change (forgetOriginalParent s current).pOpptr u ≠ current
    rw [hop]
    split
    · exact hci.symm
    · next hn =>
      intro he
      by_cases huf : u = initTask
      · rw [huf, h.rootOpptr] at he
        exact hcf he.symm
      · obtain ⟨i, hs, -⟩ := h.search_of_ne hu huf
        exact hn ⟨by rw [hs]; rfl, he⟩
  refine ⟨h.first, h.second, h.inj, h.allocated, h.queued, h.root, ?_, h.initPptr, ?_, h.pptr,
    ?_, ?_, h.climbs, ?_, ?_, ?_, ?_⟩
  · refine (hop initTask).trans ?_
    rw [h.rootOpptr, if_neg fun hn => hcf hn.2.symm]
  · refine (hop init).trans ?_
    rw [h.initOpptr, if_neg fun hn => hcf hn.2.symm]
  · intro t ht
    change inTask s ((forgetOriginalParent s current).pOpptr t)
    rw [hop]
    split
    · exact h.inTask_init
    · exact h.opptr t ht
  · intro t ht htf hti
    change (forgetOriginalParent s current).pOpptr t ≠ initTask
    rw [hop]
    split
    · exact init_ne_first
    · exact h.opptrFirst t ht htf hti
  · intro t ht
    by_cases htc : t = current
    · subst htc
      unfold PcOk
      change match Function.update s.pc t .exiting t with
        | .user => _ | .new => _ | .fork nr p => _ | .exiting => _ | .dead => _
      rw [Function.update_self]
      exact hself
    · refine pcOk_mono (h.pcs t ht) (Function.update_of_ne htc ..) (fun _ => id)
        (fun hb => hforg t (h.ne_init_of_bare hb)) ?_
      intro n q hst hnq hnew hopp
      refine ⟨hnq, ?_, (hop q).trans ?_⟩
      · refine (Function.update_of_ne ?_ ..).trans hnew
        rintro rfl
        rw [hcu] at hnew
        cases hnew
      · rw [if_neg, hopp]
        rintro ⟨-, he⟩
        exact htc (hopp.symm.trans he)
  · exact (Function.update_of_ne hcf.symm ..).trans h.idle
  · change Function.update s.pc current .exiting init ≠ _ ∧
      Function.update s.pc current .exiting init ≠ _ ∧
      Function.update s.pc current .exiting init ≠ _
    rw [Function.update_of_ne hci.symm]
    exact h.lasting
  · intro t ht
    change s.state t = _ ↔ Function.update s.pc current .exiting t = _
    rw [h.zombie t ht]
    by_cases htc : t = current
    · subst htc
      rw [Function.update_self, hcu]
      exact ⟨nofun, nofun⟩
    · rw [Function.update_of_ne htc]

/-- The loop of `do_exit` has given the children of `current` to task 1, which is none of
them. -/
theorem exited (h : Inv s) (hcur : inTask s current) (hst : s.pc current = .exiting)
    (hinit : s.pPptr init ≠ current) {os ys c : Addr → Option Addr} {pp : Addr → Addr}
    {tr : Addr → Bool}
    (hpp : ∀ t, pp t = if parentOf s t = some current then init else s.pPptr t)
    (hq : Queued os ys c fun t => if parentOf s t = some current then some init else parentOf s t) :
    Inv { withLinks { s with
        state := Function.update s.state current .zombie
        pPptr := pp
        ptraced := tr } os ys c with
      pc := Function.update s.pc current .dead } := by
  have hcf : current ≠ initTask := by
    rintro rfl
    rw [h.idle] at hst
    cases hst
  have hci : current ≠ init := (h.ne_init_of_bare (Or.inr (Or.inl hst)))
  have hkey : ∀ t, parentOf s t = some current → s.pPptr t = current :=
    fun t hk => (of_parentOf hk).2.2
  have hpf : pp initTask = initTask := by
    rw [hpp, if_neg, h.root]
    intro hk
    rw [← hkey _ hk, h.root] at hcf
    exact hcf rfl
  refine ⟨h.first, h.second, h.inj, h.allocated, ?_, hpf, h.rootOpptr, ?_, h.initOpptr, ?_, h.opptr, h.opptrFirst,
    ?_, ?_, ?_, ?_, ?_⟩
  · have hfun : (fun t => if parentOf s t = some current then some init else parentOf s t) =
        fun t => if inTask s t ∧ t ≠ initTask then some (pp t) else none := by
      funext t
      rw [hpp]
      by_cases ht : inTask s t ∧ t ≠ initTask
      · rw [if_pos ht, parentOf_eq ht.1 ht.2]
        split <;> rfl
      · have hnone : parentOf s t = none := if_neg ht
        rw [if_neg ht, hnone, if_neg nofun]
    rw [hfun] at hq
    exact hq
  · change pp init ≠ init
    rw [hpp, if_neg fun hk => hinit (hkey init hk)]
    exact h.initPptr
  · intro t ht
    change inTask s (pp t)
    rw [hpp]
    split
    · exact h.inTask_init
    · exact h.pptr t ht
  · intro t ht htf
    refine (h.climbs t ht htf).to_root (m := fun b => parentOf s b = some current) ?_ ?_
    · exact fun b hb => (hpp b).trans (if_pos hb)
    · exact fun b hb => (hpp b).trans (if_neg hb)
  · intro t ht
    by_cases htc : t = current
    · subst htc
      unfold PcOk
      change match Function.update s.pc t .dead t with
        | .user => _ | .new => _ | .fork nr p => _ | .exiting => _ | .dead => _
      rw [Function.update_self]
      refine ⟨fun u hu => ?_, h.forgotten_of_bare hcur (Or.inr (Or.inl hst))⟩
      change pp u ≠ t
      rw [hpp]
      split
      · exact hci.symm
      · next hn =>
        intro he
        by_cases huf : u = initTask
        · rw [huf, h.root] at he
          exact hcf he.symm
        · exact hn (by rw [parentOf_eq (by exact hu) huf, he])
    · refine pcOk_mono (h.pcs t ht) (Function.update_of_ne htc ..) (fun hb hcl u hu => ?_)
        (fun _ => id) fun n q hst' hnq hnew hopp => ⟨hnq, ?_, hopp⟩
      · change pp u ≠ t
        rw [hpp]
        split
        · exact (h.ne_init_of_bare hb).symm
        · exact hcl u hu
      · refine (Function.update_of_ne ?_ ..).trans hnew
        rintro rfl
        rw [hst] at hnew
        cases hnew
  · exact (Function.update_of_ne hcf.symm ..).trans h.idle
  · change Function.update s.pc current .dead init ≠ _ ∧
      Function.update s.pc current .dead init ≠ _ ∧ Function.update s.pc current .dead init ≠ _
    rw [Function.update_of_ne hci.symm]
    exact h.lasting
  · intro t ht
    change Function.update s.state current .zombie t = _ ↔ Function.update s.pc current .dead t = _
    by_cases htc : t = current
    · rw [htc, Function.update_self, Function.update_self]
      exact ⟨fun _ => rfl, fun _ => rfl⟩
    · rw [Function.update_of_ne htc, Function.update_of_ne htc]
      exact h.zombie t ht

end Inv

/-! ### The steps -/

/-- The step moves no task below itself, and does not have task 1 adopt itself: where a task
gets a new parent, the way up from that one does not pass the task. -/
def Calm (s : State) : Act → Prop
  | .attach current nr =>
      ∀ child, getTask s nr = some child → child ≠ current → s.ptraced child = false →
        s.pPptr child ≠ current → child = init ∨ Climbs s.pPptr init (· = child) current
  | .detach current nr =>
      ∀ child, getTask s nr = some child → s.ptraced child = true → s.state child = .stopped →
        s.pPptr child = current → child = init ∨ Climbs s.pPptr init (· = child) (s.pOpptr child)
  | .exitEnd current => s.pPptr init ≠ current
  | _ => True

/-- The invariant is kept if the step is calm, and the step was calm if what comes of it is a
forest. -/
def Steps (s : State) (a : Act) (s' : State) : Prop :=
  (Calm s a → Inv s') ∧ (Forest s' → Calm s a)

namespace Inv

theorem getTask_some {nr : Nat} (h : getTask s nr = some x) :
    0 < nr ∧ nr < NR_TASKS ∧ s.task nr = some x := by
  unfold getTask at h
  split at h
  · next hc => exact ⟨hc.1, hc.2, h⟩
  · cases h

/-- `moveTo` from a state with the invariant. -/
theorem moveTo_eq (h : Inv s) (hx : inTask s x) (hxf : x ≠ initTask) (hu : inTask s u) :
    ∃ os ys c, moveTo s x u = .next (withLinks (setPptr s x u) os ys c) ∧
      Queued os ys c (Function.update (parentOf s) x (some u)) :=
  moveTo_spec h.queued h.live (parentOf_eq hx hxf) (by rw [h.allocated, hu])

/-- Only a task that is not above its new parent comes to task 1 after the move. -/
theorem climbs_of_forest (os ys c : Addr → Option Addr) (hx : inTask s x) (hxf : x ≠ initTask)
    (hf : ∀ t, inTask s t → t ≠ initTask → t ≠ init →
      ∃ n, (withLinks (setPptr s x u) os ys c).pPptr^[n] t = init) :
    x = init ∨ Climbs s.pPptr init (· = x) u := by
  by_cases hxi : x = init
  · exact Or.inl hxi
  · obtain ⟨n, hn⟩ := hf x hx hxf hxi
    exact Or.inr ((Climbs.of_iterate hn).of_move hxi)

theorem findEmptyProcess_some {nr : Nat} {suser : Bool} (h : findEmptyProcess s suser = some nr) :
    0 < nr ∧ nr < NR_TASKS ∧ s.task nr = none := by
  have hmem : nr ∈ (List.range NR_TASKS).filter fun i => 0 < i ∧ s.task i = none := by
    unfold findEmptyProcess at h
    split at h
    · cases h
    · next heq =>
      split at h
      · obtain rfl := Option.some.inj h
        rw [heq]
        exact List.mem_singleton_self _
      · cases h
    · next heq =>
      obtain rfl := Option.some.inj h
      rw [heq]
      exact List.mem_cons_self
  rw [List.mem_filter] at hmem
  simp only [decide_eq_true_eq] at hmem
  exact ⟨hmem.2.1, List.mem_range.mp hmem.1, hmem.2.2⟩

theorem step_fork (h : Inv s) (p : Addr) (suser : Bool) :
    (step s (.fork current p suser)).Ends (fun _ => False) (Steps s (.fork current p suser)) := by
  simp only [step]
  split
  · next hc =>
    obtain ⟨⟨hcf, hcin, hcu, -⟩, hp⟩ := hc
    have hp : s.allocated p = false := by simpa using hp
    unfold sysFork
    cases hfind : findEmptyProcess s suser with
    | none => exact ⟨fun _ => h, fun _ => trivial⟩
    | some nr =>
        obtain ⟨hpos, hlt, hnr⟩ := findEmptyProcess_some hfind
        have hpin : inTask s p = false := by rw [← h.allocated, hp]
        have hkp : parentOf s p = none := if_neg fun hn => by simp [hpin] at hn
        have hcp : current ≠ p := by
          rintro rfl
          rw [hcin] at hpin
          cases hpin
        -- a page that is no task has no list
        have hcptr : Function.update s.pCptr p none = s.pCptr := by
          refine Function.update_eq_self_iff.mpr ?_
          obtain ⟨l, hlink, -, hmem⟩ := h.queued p
          cases l with
          | nil => exact hlink.symm
          | cons b l =>
              have hb := (hmem b).mp List.mem_cons_self
              have := h.pptr b (of_parentOf hb).1
              rw [(of_parentOf hb).2.2, hpin] at this
              cases this
        have hlive : ∀ t, s.allocated t = true →
            Function.update s.allocated p true t = true := by
          intro t ht
          by_cases htp : t = p
          · rw [htp, Function.update_self]
          · rw [Function.update_of_ne htp, ht]
        obtain ⟨os, ys, c, hset, hq⟩ := setLinks_spec (s := { s with
            task := Function.update s.task nr (some p)
            allocated := Function.update s.allocated p true
            state := Function.update s.state p .uninterruptible
            ptraced := Function.update s.ptraced p false
            pOpptr := Function.update s.pOpptr p current
            pPptr := Function.update s.pPptr p current
            pCptr := Function.update s.pCptr p none }) (x := p)
          (by rw [hcptr]; exact h.queued)
          (fun t i hk => ⟨hlive t (h.live t i hk).1, hlive i (h.live t i hk).2⟩) hkp
          (Function.update_self ..)
          (by
            change Function.update s.allocated p true (Function.update s.pPptr p current p) = true
            rw [Function.update_self]
            exact hlive current (by rw [h.allocated, hcin]))
        dsimp only at hset hq ⊢
        rw [hset, Outcome.bind_next]
        rw [Function.update_self] at hq
        exact ⟨fun _ => h.fork hcin hcf hcu hp hpos hlt hnr hq, fun _ => trivial⟩
  · trivial

theorem step_copyMem (h : Inv s) (copied : Bool) :
    (step s (.copyMem current copied)).Ends (fun _ => False) (Steps s (.copyMem current copied)) := by
  simp only [step]
  split
  · next nr p hst =>
    split
    · next hcur =>
      have hok := h.pcs current hcur
      unfold PcOk at hok
      rw [hst] at hok
      obtain ⟨hpos, hlt, hnp, hnew, hopp⟩ := hok
      unfold forkEnd
      cases copied with
      | true => exact ⟨fun _ => h.start hcur hst, fun _ => trivial⟩
      | false =>
          have hpf := h.ne_first hpos hlt hnp
          have hpin : inTask s p := inTask_iff.mpr ⟨nr, hlt, hnp⟩
          have hbare : Bare s p := Or.inl hnew
          have hok' := h.pcs p hpin
          unfold PcOk at hok'
          rw [hnew] at hok'
          obtain ⟨os, ys, c, hrem, hq⟩ := removeLinks_spec
            (s := { s with task := Function.update s.task nr none }) h.queued h.live
            (parentOf_eq hpin hpf)
          simp only [Bool.false_eq_true, if_false]
          rw [hrem, Outcome.bind_next]
          refine ⟨fun _ => h.drop hpos hlt hnp (h.ne_init_of_bare hbare) hok'.1 hok'.2
            (Function.update s.pc current .user) (fun t ht htp => ?_) hq, fun _ => trivial⟩
          by_cases htc : t = current
          · subst htc
            rw [Function.update_self, hst]
            exact Or.inl ⟨rfl, nofun, nofun⟩
          · rw [Function.update_of_ne htc]
            refine Or.inr ⟨rfl, fun n hst' => ?_⟩
            have hokt := h.pcs t ht
            unfold PcOk at hokt
            rw [hst'] at hokt
            exact htc (hokt.2.2.2.2.symm.trans hopp)
    · trivial
  · trivial

theorem step_exit (h : Inv s) :
    (step s (.exit current)).Ends (fun _ => False) (Steps s (.exit current)) := by
  simp only [step]
  split
  · next hc =>
    obtain ⟨⟨hcf, hcin, hcu, -⟩, hci⟩ := hc
    exact ⟨fun _ => h.forget hcin hcf hci hcu, fun _ => trivial⟩
  · trivial

theorem step_exitEnd (h : Inv s) :
    (step s (.exitEnd current)).Ends (fun _ => False) (Steps s (.exitEnd current)) := by
  simp only [step]
  split
  · next hc =>
    obtain ⟨hcur, hst⟩ := hc
    have hci : current ≠ init := h.ne_init_of_bare (Or.inr (Or.inl hst))
    have hcf : current ≠ initTask := by
      rintro rfl
      rw [h.idle] at hst
      cases hst
    have hq : Queued s.pOsptr (storeAt s.pYsptr (s.pCptr current) none) s.pCptr (parentOf s) := by
      have hys : storeAt s.pYsptr (s.pCptr current) none = s.pYsptr := by
        funext t
        rw [storeAt_apply]
        split
        · next hhead => exact (h.queued.head_prev hhead).symm
        · rfl
      rw [hys]
      exact h.queued
    obtain ⟨os, ys, c, pp, tr, hall, hq', hpp⟩ := reparentAll_spec
      (s := { s with state := Function.update s.state current .zombie }) (n := NR_TASKS) hq h.live
      hci h.reaper_eq (h.exists_child hcur hcf hci)
      fun l hnd hl => count hnd fun t ht => (of_parentOf (hl t ht)).1
    unfold exitEnd
    rw [hall, Outcome.bind_next]
    refine ⟨fun hcalm => h.exited hcur hst hcalm hpp hq', fun hforest hcalm => ?_⟩
    -- task 1 would be its own parent
    have haudit := (hforest.audit 1 init (by decide) (by decide) h.second).pptrSelf
    change pp init ≠ init at haudit
    rw [hpp init, if_pos (by rw [parentOf_eq h.inTask_init init_ne_first, hcalm])] at haudit
    exact haudit rfl
  · trivial

theorem step_wait4 (h : Inv s) (pids : List Addr) :
    (step s (.wait4 current pids)).Ends (fun _ => False) (Steps s (.wait4 current pids)) := by
  simp only [step]
  split
  · next hc =>
    obtain ⟨hcf, hcin, hcu, -⟩ := hc
    obtain ⟨l, hlink, hnd, hmem⟩ := h.queued current
    have hchild : ∀ t ∈ l, inTask s t ∧ t ≠ initTask ∧ s.pPptr t = current :=
      fun t ht => of_parentOf ((hmem t).mp ht)
    have hwalk := hlink.chain.walk_eq (P := fun p => p ∈ pids ∧
      (s.state p = .zombie ∨ s.state p = .stopped)) (count hnd fun t ht => (hchild t ht).1)
    unfold sysWait4 waitFor
    rw [hwalk]
    cases hfind : l.find? fun p => p ∈ pids ∧ (s.state p = .zombie ∨ s.state p = .stopped) with
    | none => exact ⟨fun _ => h, fun _ => trivial⟩
    | some p =>
        obtain ⟨hpin, hpf, hpp⟩ := hchild p (List.mem_of_find?_eq_some hfind)
        dsimp only
        split
        · next hz =>
          have hdead := (h.zombie p hpin).mp hz
          have hbare : Bare s p := Or.inr (Or.inr hdead)
          have hok := h.pcs p hpin
          unfold PcOk at hok
          rw [hdead] at hok
          have hpi := h.ne_init_of_bare hbare
          split
          · next hne =>
            obtain ⟨os, ys, c, hmove, hq⟩ := h.moveTo_eq hpin hpf (h.opptr p hpin)
            rw [hmove]
            refine ⟨fun _ => h.move hpin hpf (h.opptr p hpin) (fun he => absurd he hpi)
              (Or.inr ?_) (h.not_bare_opptr hpin) hq,
              fun _ => trivial⟩
            exact h.climbs_avoiding hok.1 (h.opptr p hpin) (h.opptrFirst p hpin hpf hpi)
              (hok.2 p hpin)
          · obtain ⟨i, hs, hpos, hlt, hip⟩ := h.search_of_ne hpin hpf
            obtain ⟨os, ys, c, hrem, hq⟩ := removeLinks_spec
              (s := { s with task := Function.update s.task i none }) h.queued h.live
              (parentOf_eq hpin hpf)
            unfold release
            rw [hs]
            dsimp only
            rw [hrem, Outcome.bind_next]
            refine ⟨fun _ => h.drop hpos hlt hip hpi hok.1 hok.2 _ (fun t ht htp => ?_) hq,
              fun _ => trivial⟩
            refine Or.inr ⟨rfl, fun n hst => ?_⟩
            have hokt := h.pcs t ht
            unfold PcOk at hokt
            rw [hst] at hokt
            rw [hokt.2.2.2.1] at hdead
            cases hdead
        · exact ⟨fun _ => h, fun _ => trivial⟩
  · trivial

theorem step_traceme (h : Inv s) :
    (step s (.traceme current)).Ends (fun _ => False) (Steps s (.traceme current)) := by
  simp only [step]
  split
  · unfold traceme
    split
    · exact ⟨fun _ => h, fun _ => trivial⟩
    · exact ⟨fun _ => h.setState fun _ _ => Iff.rfl, fun _ => trivial⟩
  · trivial

theorem pPptr_wakeChild : (Tree.wakeChild s x).pPptr = s.pPptr := by
  unfold Tree.wakeChild
  split <;> rfl

theorem inTask_wakeChild : inTask (Tree.wakeChild s x) t = inTask s t := by
  unfold Tree.wakeChild
  split <;> rfl

/-- A task that is no zombie is made to run. -/
theorem wake (h : Inv s) {tr : Addr → Bool} (hz : s.state x ≠ .zombie) :
    Inv { s with state := Function.update s.state x .running, ptraced := tr } := by
  refine h.setState fun t _ => ?_
  by_cases htx : t = x
  · subst htx
    rw [Function.update_self]
    exact ⟨nofun, fun he => absurd he hz⟩
  · rw [Function.update_of_ne htx]

theorem wakeChild (h : Inv s) : Inv (wakeChild s x) := by
  unfold Tree.wakeChild
  split
  · next hw =>
    refine h.wake ?_
    rcases hw with hw | hw <;> rw [hw] <;> nofun
  · exact h

theorem step_attach (h : Inv s) (nr : Nat) :
    (step s (.attach current nr)).Ends (fun _ => False) (Steps s (.attach current nr)) := by
  simp only [step]
  split
  · next child hget =>
    obtain ⟨hpos, hlt, hnr⟩ := getTask_some hget
    have hxf := h.ne_first hpos hlt hnr
    have hx : inTask s child := inTask_iff.mpr ⟨nr, hlt, hnr⟩
    split
    · next hc =>
      obtain ⟨hcf, hcin, hcu, -⟩ := hc
      have hbare : ¬ Bare s current := by
        rintro (hb | hb | hb) <;> rw [hcu] at hb <;> cases hb
      unfold attach
      split
      · next hskip =>
        refine ⟨fun _ => h, fun _ child' hget' hne htr _ => ?_⟩
        obtain rfl : child = child' := Option.some.inj (hget.symm.trans hget')
        rcases hskip with he | he
        · exact absurd he hne
        · rw [htr] at he
          cases he
      · next hgo =>
        obtain ⟨hself, htr⟩ := not_or.mp hgo
        have h₁ : Inv { s with ptraced := Function.update s.ptraced child true } :=
          h.setState fun _ _ => Iff.rfl
        dsimp only
        split
        · next hpp =>
          obtain ⟨os, ys, c, hmove, hq⟩ := h₁.moveTo_eq hx hxf hcin
          rw [hmove, Outcome.bind_next]
          refine ⟨fun hcalm => ?_, fun hforest => ?_⟩
          · refine (h₁.move hx hxf hcin (fun he hci => hself (he.trans hci.symm))
              (hcalm child hget hself ?_ hpp) hbare hq).wakeChild
            simpa using htr
          · intro child' hget' _ _ _
            obtain rfl : child = child' := Option.some.inj (hget.symm.trans hget')
            refine climbs_of_forest os ys c hx hxf fun t ht htf hti => ?_
            have hreach := hforest.reach t (inTask_wakeChild.trans ht) htf hti
            rw [pPptr_wakeChild] at hreach
            exact hreach
        · next hpp =>
          refine ⟨fun _ => h₁.wakeChild, fun _ child' hget' _ _ hpp' => ?_⟩
          obtain rfl : child = child' := Option.some.inj (hget.symm.trans hget')
          exact absurd hpp' hpp
    · trivial
  · trivial

theorem step_detach (h : Inv s) (nr : Nat) :
    (step s (.detach current nr)).Ends (fun _ => False) (Steps s (.detach current nr)) := by
  simp only [step]
  split
  · next child hget =>
    obtain ⟨hpos, hlt, hnr⟩ := getTask_some hget
    have hxf := h.ne_first hpos hlt hnr
    have hx : inTask s child := inTask_iff.mpr ⟨nr, hlt, hnr⟩
    split
    · unfold detach
      split
      · next hskip =>
        refine ⟨fun _ => h, fun _ child' hget' htr hst hpp => ?_⟩
        obtain rfl : child = child' := Option.some.inj (hget.symm.trans hget')
        rcases hskip with he | he | he
        · exact absurd htr he
        · exact absurd hst he
        · exact absurd hpp he
      · next hgo =>
        simp only [not_or, not_not] at hgo
        obtain ⟨htr, hst, hpp⟩ := hgo
        have h₁ : Inv { s with
            ptraced := Function.update s.ptraced child false
            state := Function.update s.state child .running } :=
          h.wake (by rw [hst]; nofun)
        obtain ⟨os, ys, c, hmove, hq⟩ := h₁.moveTo_eq hx hxf (h.opptr child hx)
        rw [hmove]
        refine ⟨fun hcalm => ?_, fun hforest => ?_⟩
        · refine h₁.move hx hxf (h.opptr child hx) (fun he => ?_)
            (hcalm child hget htr hst hpp) (h.not_bare_opptr hx) hq
          rw [he, h.initOpptr]
          exact init_ne_first.symm
        · intro child' hget' _ _ _
          obtain rfl : child = child' := Option.some.inj (hget.symm.trans hget')
          exact climbs_of_forest os ys c hx hxf hforest.reach
    · trivial
  · trivial

theorem step_setState (h : Inv s) (st : TaskState) :
    (step s (.setState p st)).Ends (fun _ => False) (Steps s (.setState p st)) := by
  simp only [step]
  split
  · next hc =>
    obtain ⟨hin, -, hdead, hst⟩ := hc
    refine ⟨fun _ => h.setState fun t ht => ?_, fun _ => trivial⟩
    by_cases htp : t = p
    · subst htp
      rw [Function.update_self, h.zombie t ht]
      exact ⟨fun he => absurd he hst, fun he => absurd he hdead⟩
    · rw [Function.update_of_ne htp]
  · trivial

/-- No step does a bad store, and a step keeps the invariant exactly if it is calm. -/
theorem step (h : Inv s) (a : Act) : (step s a).Ends (fun _ => False) (Steps s a) := by
  cases a with
  | fork current p suser => exact h.step_fork p suser
  | copyMem current copied => exact h.step_copyMem copied
  | exit current => exact h.step_exit
  | exitEnd current => exact h.step_exitEnd
  | wait4 current pids => exact h.step_wait4 pids
  | traceme current => exact h.step_traceme
  | attach current nr => exact h.step_attach nr
  | detach current nr => exact h.step_detach nr
  | setState p state => exact h.step_setState state

/-- What the audit finds. -/
theorem audited (h : Inv s) (ht : inTask s t) (htf : t ≠ initTask) : Audited s t := by
  have hkt := parentOf_eq ht htf
  have hself : ∀ t, inTask s t → t ≠ initTask → s.pPptr t ≠ t := by
    intro t ht htf
    by_cases hti : t = init
    · rw [hti]
      exact h.initPptr
    · exact (h.climbs t ht htf).ne_self hti
  have hc : ∀ q, s.pCptr t = some q → inTask s q ∧ q ≠ initTask ∧ s.pPptr q = t :=
    fun q hq => of_parentOf (h.queued.head_key hq)
  have hos : ∀ q, s.pOsptr t = some q →
      inTask s q ∧ s.pPptr q = s.pPptr t ∧ s.pYsptr q = some t ∧ q ≠ t := by
    intro q hq
    obtain ⟨hk, hback, hne⟩ := h.queued.next_key hkt hq
    exact ⟨(of_parentOf hk).1, (of_parentOf hk).2.2, hback, hne⟩
  have hys : ∀ q, s.pYsptr t = some q →
      inTask s q ∧ s.pPptr q = s.pPptr t ∧ s.pOsptr q = some t ∧ q ≠ t := by
    intro q hq
    obtain ⟨hk, hback, hne⟩ := h.queued.prev_key hkt hq
    exact ⟨(of_parentOf hk).1, (of_parentOf hk).2.2, hback, hne⟩
  exact {
    pptr := h.pptr t ht
    cptr := fun q hq => (hc q hq).1
    ysptr := fun q hq => (hys q hq).1
    osptr := fun q hq => (hos q hq).1
    pptrSelf := hself t ht htf
    cptrSelf := fun hq => hself t ht htf (hc t hq).2.2
    ysptrSelf := fun hq => (hys t hq).2.2.2 rfl
    osptrSelf := fun hq => (hos t hq).2.2.2 rfl
    older := fun q hq => ⟨(hos q hq).2.1.symm, (hos q hq).2.2.1⟩
    younger := fun q hq => ⟨(hys q hq).2.1.symm, (hys q hq).2.2.1⟩
    youngest := fun q hq => ⟨(hc q hq).2.2, h.queued.head_prev hq⟩ }

theorem forest (h : Inv s) : Forest s where
  audit i t hpos hlt ht := h.audited (inTask_iff.mpr ⟨i, hlt, ht⟩) (h.ne_first hpos hlt ht)
  reach t ht htf _ := (h.climbs t ht htf).iterate
  opptr := h.opptr
  faults a msg hp := by
    have hends := h.step a
    rw [hp] at hends
    exact hends

end Inv

theorem inTask_boot : inTask boot t ↔ t = initTask ∨ t = init := by
  rw [inTask_iff]
  constructor
  · rintro ⟨i, -, hi⟩
    change (if i = 0 then some initTask else if i = 1 then some init else none) = some t at hi
    split at hi
    · exact Or.inl (Option.some.inj hi).symm
    · split at hi
      · exact Or.inr (Option.some.inj hi).symm
      · cases hi
  · rintro (rfl | rfl)
    · exact ⟨0, by decide, rfl⟩
    · exact ⟨1, by decide, rfl⟩

theorem inv_boot : Inv boot where
  first := rfl
  second := rfl
  inj i j t hi hj hit hjt := by
    have hslot : ∀ i, boot.task i = some t → i = if t = initTask then 0 else 1 := by
      intro i hi
      change (if i = 0 then some initTask else if i = 1 then some init else none) = some t at hi
      split at hi
      · next h0 =>
        rw [if_pos (Option.some.inj hi).symm, h0]
      · split at hi
        · next h1 =>
          obtain rfl := Option.some.inj hi
          rw [if_neg init_ne_first, h1]
        · cases hi
    rw [hslot i hit, hslot j hjt]
  allocated t := by
    rw [Bool.eq_iff_iff, inTask_boot]
    exact decide_eq_true_iff
  queued i := by
    have hkey : ∀ a, parentOf boot a = some i ↔ a = init ∧ i = initTask := by
      intro a
      unfold parentOf
      simp only [inTask_boot]
      split
      · next hc =>
        have ha := hc.1.resolve_left hc.2
        change some initTask = some i ↔ _
        simp [ha, eq_comm]
      · next hc =>
        refine ⟨nofun, ?_⟩
        rintro ⟨rfl, -⟩
        exact absurd ⟨Or.inr rfl, init_ne_first⟩ hc
    by_cases hi : i = initTask
    · refine ⟨[init], ⟨if_pos hi, rfl, rfl⟩, List.nodup_singleton _, fun a => ?_⟩
      rw [hkey, List.mem_singleton]
      exact ⟨fun ha => ⟨ha, hi⟩, fun ha => ha.1⟩
    · refine ⟨[], if_neg hi, List.nodup_nil, fun a => ?_⟩
      rw [hkey]
      exact ⟨fun ha => absurd ha List.not_mem_nil, fun ha => absurd ha.2 hi⟩
  root := rfl
  rootOpptr := rfl
  initPptr := init_ne_first.symm
  initOpptr := rfl
  pptr _ _ := inTask_boot.mpr (Or.inl rfl)
  opptr _ _ := inTask_boot.mpr (Or.inl rfl)
  opptrFirst t ht htf hti := absurd (inTask_boot.mp ht) (not_or.mpr ⟨htf, hti⟩)
  climbs t ht htf := by
    rw [(inTask_boot.mp ht).resolve_left htf]
    exact .root
  pcs _ _ := trivial
  idle := rfl
  lasting := ⟨nofun, nofun, nofun⟩
  zombie _ _ := ⟨nofun, nofun⟩

/-- **The process tree is a forest** in all states of a run exactly if all its steps are
calm. -/
theorem forest_iff {as : List Act} (hrun : run step boot as = .next s) :
    (∀ bs, bs <+: as → ∀ t, run step boot bs = .next t → Forest t) ↔ RunOk step Calm boot as :=
  RunOk.iff_prefixes_of (P := Inv) (fun _ h => h.forest)
    (fun _ a _ h hs => (h.step a).of_next hs) inv_boot hrun

/-- Of two children of task 1 the second traces the first and exits. -/
def calmRun : List Act :=
  [.fork 1 2 true, .copyMem 1 true, .fork 1 3 true, .copyMem 1 true, .attach 3 2, .exit 3,
    .exitEnd 3]

theorem forest_iff_calmRun :
    (∀ bs, bs <+: calmRun → ∀ t, run step boot bs = .next t → Forest t) ↔
      RunOk step Calm boot calmRun :=
  forest_iff (Outcome.eq_next (by decide) boot)

/-! ### A task that traces its parent -/

/-- Task 1 has the child 2, and 2 the child 3, which traces the task of slot 2. -/
def traceRun : List Act :=
  [.fork 1 2 true, .copyMem 1 true, .fork 2 3 true, .copyMem 2 true, .attach 3 2]

theorem not_forest : ∃ s, run step boot traceRun = .next s ∧ ¬ Forest s := by
  refine ⟨(run step boot traceRun).get boot, Outcome.eq_next (by decide) boot,
    fun h => ?_⟩
  have h2 : ((run step boot traceRun).get boot).pPptr 2 = 3 := by decide
  have h3 : ((run step boot traceRun).get boot).pPptr 3 = 2 := by decide
  -- the way up goes round between the two
  have hround : ∀ n, ((run step boot traceRun).get boot).pPptr^[n] 2 ≠ init ∧
      ((run step boot traceRun).get boot).pPptr^[n] 3 ≠ init := by
    intro n
    induction n with
    | zero => exact ⟨by decide, by decide⟩
    | succ n ih =>
        rw [Function.iterate_succ_apply, Function.iterate_succ_apply, h2, h3]
        exact ⟨ih.2, ih.1⟩
  obtain ⟨n, hn⟩ := h.reach 3 (by decide) (by decide) (by decide)
  exact (hround n).2 hn

end LinuxKernel.V098.Kernel.Tree
