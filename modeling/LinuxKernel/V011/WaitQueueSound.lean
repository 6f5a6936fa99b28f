import LinuxKernel.V011.WaitQueue

/-!
# LinuxKernel.V011.WaitQueueSound

What the wait queues guarantee, and where they do not.

The pointers of a queue (its head and the `tmp` of every task inside) form
chains: each task is pointed to at most once, and only from its own queue
(`Inv`). Three of the four moves on a chain are unconditionally right: a new
sleeper pushes itself in front, `wake_up` drops the head and leaves its `tmp`
with a runnable task, and `schedule` only makes more tasks runnable. The
fourth, continuing after `schedule()`, is right exactly under `ResumeOk`.
-/

namespace LinuxKernel.V011.WaitQueue

variable {s s' : State} {t u v p q : Nat}

/-! ### What `schedule` and the stores change -/

@[simp] theorem expireAlarm_state (j : Nat) (k : TaskStruct) :
    (expireAlarm j k).state = k.state := by
  unfold expireAlarm
  split <;> rfl

theorem checkSignals_state (j : Nat) (k : TaskStruct) :
    (checkSignals j k).state = k.state ∨ (checkSignals j k).state = .running := by
  unfold checkSignals
  dsimp only
  split
  · exact Or.inr rfl
  · exact Or.inl (expireAlarm_state j k)

/-- `schedule` puts nobody to sleep. -/
theorem running_schedule (h : s.running t) : (schedule s).running t := by
  unfold State.running at h ⊢
  by_cases ht : t = 0
  · simpa [schedule, ht] using ht ▸ h
  · simp only [schedule, ht, if_false]
    rcases checkSignals_state s.jiffies (s.task t) with hs | hs
    · rw [hs, h]
    · exact hs

theorem running_setState_of_ne {st : TaskState} (hne : u ≠ t) :
    (setState s t st).running u ↔ s.running u := by
  simp [State.running, setState, Function.update_of_ne hne]

@[simp] theorem wake_queue (s : State) (u : Nat) : (wake s u).queue = s.queue := rfl

theorem running_wake_self : (wake s u).running u := by
  simp [State.running, wake, setState]

theorem running_wake (h : s.running t) : (wake s u).running t := by
  by_cases htu : t = u
  · exact htu ▸ running_wake_self
  · exact (running_setState_of_ne htu).mpr h

/-- A store into a task that is inside a sleep function is not a stray one. -/
theorem wake_stray {f : Frame} (h : s.frame u = some f) : (wake s u).stray = s.stray := by
  simp [wake, h]

@[simp] theorem wakeTmp_queue (s : State) (o : Option Nat) :
    (wakeTmp s o).queue = s.queue := by cases o <;> rfl
@[simp] theorem wakeTmp_frame (s : State) (o : Option Nat) :
    (wakeTmp s o).frame = s.frame := by cases o <;> rfl

theorem running_wakeTmp {o : Option Nat} (h : s.running t) : (wakeTmp s o).running t := by
  cases o with
  | none => exact h
  | some u => exact running_wake h

/-! ### Saved pointers -/

theorem saved_congr (h : s'.frame = s.frame) : Saved s' = Saved s := by
  funext t u
  simp [Saved, h]

theorem follows_congr (h : s'.frame = s.frame) : Follows s' = Follows s := by
  unfold Follows
  rw [saved_congr h]

/-- A walk that starts elsewhere and meets no pointer to `t` never visits `t`,
so it survives `t` leaving. -/
theorem Follows.leave {a x : Nat} (h : Follows s a x) (hne : a ≠ t)
    (hno : ∀ w, ¬ Saved s w t) : Follows (leave s t) a x ∧ x ≠ t := by
  induction h with
  | refl => exact ⟨.refl, hne⟩
  | tail _ hbc ih =>
      obtain ⟨hab, hb⟩ := ih
      refine ⟨hab.tail ?_, fun hc => hno _ (hc ▸ hbc)⟩
      obtain ⟨f, hf, hfu⟩ := hbc
      exact ⟨f, by simpa [WaitQueue.leave, Function.update_of_ne hb] using hf, hfu⟩

/-! ### The invariant -/

structure Inv (s : State) : Prop where
  /-- A queue head is inside a sleep function, on that queue. -/
  head : ∀ p t, s.queue p = some t → ∃ f, s.frame t = some f ∧ f.p = p
  /-- A saved task is inside a sleep function, on the queue of its saver. -/
  saved : ∀ t f u, s.frame t = some f → f.tmp = some u → ∃ g, s.frame u = some g ∧ g.p = f.p
  /-- A queue head is saved by nobody. -/
  headUnsaved : ∀ p t u, s.queue p = some t → ¬ Saved s u t
  /-- No task is saved twice. -/
  savedOnce : ∀ t t' u, Saved s t u → Saved s t' u → t = t'
  linked : NoLostSleeper s
  notStray : s.stray = false

theorem Inv.sound (h : Inv s) : Sound s := ⟨h.linked, h.notStray⟩

/-- A task outside the sleep functions is pointed to by nobody. -/
theorem Inv.unsaved_of_outside (h : Inv s) (ht : s.frame t = none) (u : Nat) : ¬ Saved s u t := by
  rintro ⟨f, hf, hft⟩
  obtain ⟨g, hg, -⟩ := h.saved u f t hf hft
  simp [ht] at hg

/-- A step that moves no pointer, makes no stray store and puts nobody inside
a sleep function to sleep keeps the invariant. -/
theorem Inv.of_more_running (h : Inv s) (hq : s'.queue = s.queue) (hf : s'.frame = s.frame)
    (hstray : s'.stray = false)
    (hrun : ∀ r f, s.frame r = some f → s.running r → s'.running r) : Inv s' := by
  refine ⟨?_, ?_, ?_, ?_, ?_, hstray⟩
  · rw [hq, hf]; exact h.head
  · rw [hf]; exact h.saved
  · rw [hq, saved_congr hf]; exact h.headUnsaved
  · rw [saved_congr hf]; exact h.savedOnce
  · intro x f hx hsleep
    rw [hf] at hx
    have hbefore := h.linked x f hx (fun hr => hsleep (hrun x f hx hr))
    unfold Linked
    rw [hq, follows_congr hf, saved_congr hf]
    rcases hbefore with hhead | ⟨r, w, hr, hw, hwx⟩
    · exact Or.inl hhead
    · obtain ⟨g, hg, -⟩ := id hw
      exact Or.inr ⟨r, w, hrun r g hg hr, hw, hwx⟩

/-! ### A new sleeper -/

section Enter

variable {fn : Sleep} {st : TaskState}

theorem enter_frame (s : State) (fn : Sleep) (st : TaskState) (t p : Nat) :
    (enter s fn st t p).frame = Function.update s.frame t (some ⟨fn, p, s.queue p⟩) := rfl

theorem enter_queue (s : State) (fn : Sleep) (st : TaskState) (t p : Nat) :
    (enter s fn st t p).queue = Function.update s.queue p (some t) := rfl

theorem running_enter (h : s.running u) (hne : u ≠ t) : (enter s fn st t p).running u :=
  running_schedule ((running_setState_of_ne hne).mpr h)

/-- The new sleeper saves the old head; every other frame is as before. -/
theorem saved_enter :
    Saved (enter s fn st t p) u v ↔ (u = t ∧ s.queue p = some v) ∨ (u ≠ t ∧ Saved s u v) := by
  unfold Saved
  rw [enter_frame]
  by_cases hu : u = t
  · subst hu
    simp
  · simp [hu]

theorem Follows.enter {a x : Nat} (h : Follows s a x) (ht : s.frame t = none) :
    Follows (enter s fn st t p) a x := by
  refine Relation.ReflTransGen.mono (fun b c hbc => ?_) _ _ h
  obtain ⟨f, hf, -⟩ := id hbc
  refine saved_enter.mpr (Or.inr ⟨?_, hbc⟩)
  rintro rfl
  simp [ht] at hf

theorem inv_enter (h : Inv s) (ht : s.frame t = none) : Inv (enter s fn st t p) := by
  have hqueue : ∀ q w, (enter s fn st t p).queue q = some w →
      (q = p ∧ w = t) ∨ (q ≠ p ∧ s.queue q = some w) := by
    intro q w hw
    rw [enter_queue] at hw
    by_cases hq : q = p
    · subst hq; simp at hw; exact Or.inl ⟨rfl, hw.symm⟩
    · rw [Function.update_of_ne hq] at hw; exact Or.inr ⟨hq, hw⟩
  have hold : ∀ w g, s.frame w = some g →
      w ≠ t ∧ (enter s fn st t p).frame w = some g := by
    intro w g hw
    have hne : w ≠ t := by rintro rfl; simp [ht] at hw
    exact ⟨hne, by rw [enter_frame, Function.update_of_ne hne]; exact hw⟩
  have hself : (enter s fn st t p).frame t = some ⟨fn, p, s.queue p⟩ := by
    rw [enter_frame, Function.update_self]
  refine ⟨?_, ?_, ?_, ?_, ?_, h.notStray⟩
  · intro q w hw
    rcases hqueue q w hw with ⟨rfl, rfl⟩ | ⟨-, hw⟩
    · exact ⟨_, hself, rfl⟩
    · obtain ⟨g, hg, hgp⟩ := h.head q w hw
      exact ⟨g, (hold w g hg).2, hgp⟩
  · intro w f x hw hx
    by_cases hwt : w = t
    · subst hwt
      obtain rfl := Option.some.inj (hself.symm.trans hw)
      obtain ⟨g, hg, hgp⟩ := h.head p x hx
      exact ⟨g, (hold x g hg).2, hgp⟩
    · rw [enter_frame, Function.update_of_ne hwt] at hw
      obtain ⟨g, hg, hgp⟩ := h.saved w f x hw hx
      exact ⟨g, (hold x g hg).2, hgp⟩
  · intro q w x hw hx
    rcases hqueue q w hw with ⟨rfl, rfl⟩ | ⟨hne, hw⟩
    · rcases saved_enter.mp hx with ⟨-, hx⟩ | ⟨-, hx⟩
      · obtain ⟨g, hg, -⟩ := h.head q w hx
        simp [ht] at hg
      · exact h.unsaved_of_outside ht x hx
    · rcases saved_enter.mp hx with ⟨-, hx⟩ | ⟨-, hx⟩
      · -- one task cannot head two queues
        obtain ⟨g, hg, hgq⟩ := h.head q w hw
        obtain ⟨g', hg', hgp⟩ := h.head p w hx
        obtain rfl := Option.some.inj (hg.symm.trans hg')
        exact hne (hgq.symm.trans hgp)
      · exact h.headUnsaved q w x hw hx
  · intro w w' x hw hw'
    rcases saved_enter.mp hw with ⟨rfl, hx⟩ | ⟨hne, hx⟩ <;>
      rcases saved_enter.mp hw' with ⟨rfl, hx'⟩ | ⟨hne', hx'⟩
    · rfl
    · exact absurd hx' (h.headUnsaved p x w' hx)
    · exact absurd hx (h.headUnsaved p x w hx')
    · exact h.savedOnce w w' x hx hx'
  · intro x f hx hsleep
    by_cases hxt : x = t
    · subst hxt
      obtain rfl := Option.some.inj (hself.symm.trans hx)
      exact Or.inl ⟨x, by rw [enter_queue]; simp, .refl⟩
    · rw [enter_frame, Function.update_of_ne hxt] at hx
      rcases h.linked x f hx (fun hr => hsleep (running_enter hr hxt)) with
        ⟨a, ha, hax⟩ | ⟨r, w, hr, hrw, hwx⟩
      · by_cases hfp : f.p = p
        · -- the old head is what the new one saved
          refine Or.inl ⟨t, by rw [enter_queue, hfp]; simp, ?_⟩
          exact .head (saved_enter.mpr (Or.inl ⟨rfl, hfp ▸ ha⟩)) (hax.enter ht)
        · exact Or.inl ⟨a, by rw [enter_queue, Function.update_of_ne hfp]; exact ha,
            hax.enter ht⟩
      · have hrt : r ≠ t := by
          rintro rfl
          obtain ⟨g, hg, -⟩ := hrw
          simp [ht] at hg
        exact Or.inr ⟨r, w, running_enter hr hrt, saved_enter.mpr (Or.inr ⟨hrt, hrw⟩),
          hwx.enter ht⟩

end Enter

/-! ### Dropping the head of a queue -/

/-- `*p = NULL` where the head, if any, is runnable: what was reached through
the head is now reached through its `tmp`. -/
theorem inv_clearHead (h : Inv s) (hrun : ∀ w, s.queue p = some w → s.running w) :
    Inv { s with queue := Function.update s.queue p none } := by
  have hqueue : ∀ q w, Function.update s.queue p none q = some w → s.queue q = some w := by
    intro q w hw
    by_cases hq : q = p
    · subst hq; simp at hw
    · rwa [Function.update_of_ne hq] at hw
  refine ⟨fun q w hw => h.head q w (hqueue q w hw), h.saved,
    fun q w x hw => h.headUnsaved q w x (hqueue q w hw), h.savedOnce, ?_, h.notStray⟩
  intro x f hx hsleep
  rcases h.linked x f hx hsleep with ⟨a, ha, hax⟩ | hrest
  · by_cases hfp : f.p = p
    · rw [hfp] at ha
      rcases Relation.ReflTransGen.cases_head hax with rfl | ⟨b, hab, hbx⟩
      · exact absurd (hrun a ha) hsleep
      · exact Or.inr ⟨a, b, hrun a ha, hab, hbx⟩
    · exact Or.inl ⟨a, by simpa [Function.update_of_ne hfp] using ha, hax⟩
  · exact Or.inr hrest

theorem inv_wake (h : Inv s) {f : Frame} (hu : s.frame u = some f) : Inv (wake s u) :=
  h.of_more_running rfl rfl ((wake_stray hu).trans h.notStray) fun _ _ _ hr => running_wake hr

theorem inv_wakeTmp (h : Inv s) {f : Frame} (ht : s.frame t = some f) :
    Inv (wakeTmp s f.tmp) := by
  cases hf : f.tmp with
  | none => exact h
  | some u =>
      obtain ⟨g, hg, -⟩ := h.saved t f u ht hf
      exact inv_wake h hg

theorem inv_wakeUp (h : Inv s) : Inv (wakeUp s p) := by
  unfold wakeUp
  cases hp : s.queue p with
  | none => exact h
  | some w =>
      obtain ⟨f, hf, -⟩ := h.head p w hp
      refine inv_clearHead (inv_wake h hf) fun x hx => ?_
      obtain rfl : w = x := by simpa [hp] using hx
      exact running_wake_self

/-! ### Leaving -/

/-- A runnable task that nobody points to, and whose own `tmp` is runnable, may
leave. -/
theorem inv_leave (h : Inv s) {f : Frame} (ht : s.frame t = some f)
    (hhead : ∀ q, s.queue q ≠ some t) (hsaved : ∀ w, ¬ Saved s w t)
    (hrun : s.running t) (htmp : ∀ u, f.tmp = some u → s.running u) : Inv (leave s t) := by
  have hframe : ∀ w g, (leave s t).frame w = some g → w ≠ t ∧ s.frame w = some g := by
    intro w g hw
    by_cases hwt : w = t
    · subst hwt; simp [leave] at hw
    · exact ⟨hwt, by simpa [leave, Function.update_of_ne hwt] using hw⟩
  have hkeep : ∀ w g, w ≠ t → s.frame w = some g → (leave s t).frame w = some g := by
    intro w g hwt hw
    simpa [leave, Function.update_of_ne hwt] using hw
  have hsave : ∀ w x, Saved (leave s t) w x → w ≠ t ∧ Saved s w x := by
    rintro w x ⟨g, hg, hgx⟩
    obtain ⟨hwt, hg⟩ := hframe w g hg
    exact ⟨hwt, g, hg, hgx⟩
  refine ⟨?_, ?_, ?_, ?_, ?_, h.notStray⟩
  · intro q w hw
    obtain ⟨g, hg, hgq⟩ := h.head q w hw
    exact ⟨g, hkeep w g (fun hwt => hhead q (hwt ▸ hw)) hg, hgq⟩
  · intro w g x hw hx
    obtain ⟨-, hw⟩ := hframe w g hw
    obtain ⟨k, hk, hkp⟩ := h.saved w g x hw hx
    exact ⟨k, hkeep x k (fun hxt => hsaved w (hxt ▸ ⟨g, hw, hx⟩)) hk, hkp⟩
  · exact fun q w x hw hx => h.headUnsaved q w x hw (hsave x w hx).2
  · exact fun w w' x hw hw' => h.savedOnce w w' x (hsave w x hw).2 (hsave w' x hw').2
  · intro x g hx hsleep
    obtain ⟨hxt, hx⟩ := hframe x g hx
    rcases h.linked x g hx hsleep with ⟨a, ha, hax⟩ | ⟨r, w, hr, hrw, hwx⟩
    · have hat : a ≠ t := fun hat => hhead g.p (hat ▸ ha)
      exact Or.inl ⟨a, ha, (Follows.leave hax hat hsaved).1⟩
    · have hwt : w ≠ t := fun hwt => hsaved r (hwt ▸ hrw)
      by_cases hrt : r = t
      · -- reached through `t` itself: the walk goes on from `tmp`, which is runnable
        subst hrt
        have hwrun : s.running w := by
          obtain ⟨k, hk, hkw⟩ := hrw
          obtain rfl := Option.some.inj (ht.symm.trans hk)
          exact htmp w hkw
        rcases Relation.ReflTransGen.cases_head hwx with rfl | ⟨b, hwb, hbx⟩
        · exact absurd hwrun hsleep
        · have hbt : b ≠ r := fun hbt => hsaved w (hbt ▸ hwb)
          obtain ⟨k, hk, hkb⟩ := hwb
          exact Or.inr ⟨w, b, hwrun, ⟨k, hkeep w k hwt hk, hkb⟩,
            (Follows.leave hbx hbt hsaved).1⟩
      · obtain ⟨k, hk, hkw⟩ := hrw
        exact Or.inr ⟨r, w, hr, ⟨k, hkeep r k hrt hk, hkw⟩, (Follows.leave hwx hwt hsaved).1⟩

/-- `if (tmp) tmp->state=0;` and return. -/
theorem inv_wakeTmp_leave (h : Inv s) {f : Frame} (ht : s.frame t = some f)
    (hhead : ∀ q, s.queue q ≠ some t) (hsaved : ∀ w, ¬ Saved s w t) (hrun : s.running t) :
    Inv (leave (wakeTmp s f.tmp) t) := by
  refine inv_leave (inv_wakeTmp h ht) (by simpa using ht) (by simpa using hhead) ?_
    (running_wakeTmp hrun) ?_
  · rw [saved_congr (wakeTmp_frame s f.tmp)]; exact hsaved
  · intro u hu
    rw [hu]
    exact running_wake_self

/-! ### Going back to sleep -/

/-- `goto repeat`: the head is made runnable and `t` sleeps again, still linked. -/
theorem inv_repeat (h : Inv s) {f : Frame} {w : Nat} (ht : s.frame t = some f)
    (hw : s.queue f.p = some w)
    (hlink : Follows s w t ∨ ∃ r u, r ≠ t ∧ s.running r ∧ Saved s r u ∧ Follows s u t) :
    Inv (schedule (setState (wake s w) t .interruptible)) := by
  obtain ⟨g, hg, -⟩ := h.head f.p w hw
  have hstep : ∀ r, r ≠ t → s.running r →
      (schedule (setState (wake s w) t .interruptible)).running r := fun r hrt hr =>
    running_schedule ((running_setState_of_ne hrt).mpr (running_wake hr))
  refine ⟨h.head, h.saved, h.headUnsaved, h.savedOnce, ?_, (wake_stray hg).trans h.notStray⟩
  -- whoever was reached through `t` is reached through what reaches `t`
  have hvia : ∀ q x, q = f.p → Follows s t x →
      Linked (schedule (setState (wake s w) t .interruptible)) q x := by
    rintro q x rfl htx
    rcases hlink with hwt | ⟨r, u, hrt, hr, hru, hut⟩
    · exact Or.inl ⟨w, hw, hwt.trans htx⟩
    · exact Or.inr ⟨r, u, hstep r hrt hr, hru, hut.trans htx⟩
  have hsame : ∀ {a b}, Follows s a b → ∀ ga gb, s.frame a = some ga → s.frame b = some gb →
      gb.p = ga.p := by
    intro a b hab ga gb hga hgb
    induction hab generalizing gb with
    | refl => rw [Option.some.inj (hga.symm.trans hgb)]
    | tail _ hbc ih =>
        obtain ⟨k, hk, hkc⟩ := hbc
        obtain ⟨gc, hgc, hgcp⟩ := h.saved _ k _ hk hkc
        obtain rfl := Option.some.inj (hgb.symm.trans hgc)
        rw [hgcp, ih k hk]
  intro x k hx hsleep
  by_cases hxt : x = t
  · subst hxt
    obtain rfl := Option.some.inj (ht.symm.trans hx)
    exact hvia f.p x rfl .refl
  · rcases h.linked x k hx (fun hr => hsleep (hstep x hxt hr)) with hhead | ⟨r, u, hr, hru, hux⟩
    · exact Or.inl hhead
    · by_cases hrt : r = t
      · subst hrt
        have hrx : Follows s r x := .head hru hux
        exact hvia k.p x (hsame hrx f k ht hx) hrx
      · exact Or.inr ⟨r, u, hstep r hrt hr, hru, hux⟩

/-! ### One step and whole runs -/

theorem inv_afterSchedule (h : Inv s) {f : Frame} (ht : s.frame t = some f)
    (hrun : s.running t) (hok : ResumeOk s t f) : Inv (afterSchedule s t f) := by
  have hother : ∀ q, s.queue q = some t → q = f.p := by
    intro q hq
    obtain ⟨g, hg, hgq⟩ := h.head q t hq
    obtain rfl := Option.some.inj (ht.symm.trans hg)
    exact hgq.symm
  unfold afterSchedule ResumeOk at *
  cases hfn : f.fn with
  | sleepOn =>
      simp only [hfn] at hok ⊢
      refine inv_wakeTmp_leave h ht (fun q hq => ?_) hok.2 hrun
      exact hok.1 (hother q hq ▸ hq)
  | interruptibleSleepOn =>
      simp only [hfn] at hok ⊢
      cases hq : s.queue f.p with
      | none =>
          simp only [hq] at hok ⊢
          have hclear := inv_clearHead (p := f.p) h (by simp [hq])
          refine inv_wakeTmp_leave hclear ht (fun q hqt => ?_) hok hrun
          have hqp : q ≠ f.p := by rintro rfl; simp at hqt
          exact hqp (hother q (by simpa [Function.update_of_ne hqp] using hqt))
      | some w =>
          simp only [hq] at hok ⊢
          by_cases hwt : w = t
          · subst hwt
            simp only [ne_eq, not_true, if_false]
            have hclear := inv_clearHead (p := f.p) h (fun x hx => by
              obtain rfl : w = x := by simpa [hq] using hx
              exact hrun)
            refine inv_wakeTmp_leave hclear ht (fun q hqt => ?_)
              (fun x => h.headUnsaved f.p w x hq) hrun
            have hqp : q ≠ f.p := by rintro rfl; simp at hqt
            exact hqp (hother q (by simpa [Function.update_of_ne hqp] using hqt))
          · rw [if_pos hwt]
            exact inv_repeat h ht hq (hok hwt)

theorem inv_step (h : Inv s) {a : Act} (hok : StepOk s a) (hs : step s a = .next s') :
    Inv s' := by
  cases a with
  | sleepOn t p =>
      simp only [step, sleepOn] at hs
      split at hs
      · next hc =>
        split at hs
        · cases hs
        · cases hs; exact inv_enter h hc.2
      · cases hs
  | interruptibleSleepOn t p =>
      simp only [step, interruptibleSleepOn] at hs
      split at hs
      · next hc =>
        split at hs
        · cases hs
        · cases hs; exact inv_enter h hc.2
      · cases hs
  | wakeUp p =>
      simp only [step] at hs
      cases hs
      exact inv_wakeUp h
  | resume t =>
      simp only [step] at hs
      split at hs
      · next f hf =>
        split at hs
        · next hrun => cases hs; exact inv_afterSchedule h hf hrun (hok f hf)
        · cases hs
      · cases hs
  | signal t sig blk alrm =>
      simp only [step] at hs
      cases hs
      refine h.of_more_running rfl rfl h.notStray fun r _ _ hr => ?_
      by_cases hrt : r = t
      · subst hrt; simpa [State.running] using hr
      · simpa [State.running, Function.update_of_ne hrt] using hr
  | tick =>
      simp only [step] at hs
      cases hs
      exact h.of_more_running rfl rfl h.notStray fun _ _ _ hr => hr
  | other t st =>
      simp only [step] at hs
      split at hs
      · next hout =>
        cases hs
        refine h.of_more_running rfl rfl h.notStray fun r f hf hr => ?_
        have hrt : r ≠ t := by rintro rfl; simp [hout] at hf
        exact running_schedule ((running_setState_of_ne hrt).mpr hr)
      · cases hs

theorem Init.inv (h : Init s) : Inv s where
  head p t ht := by simp [h.queue p] at ht
  saved t f u ht := by simp [h.frame t] at ht
  headUnsaved p t u ht := by simp [h.queue p] at ht
  savedOnce t t' u ht := by
    obtain ⟨f, hf, -⟩ := ht
    simp [h.frame t] at hf
  linked t f ht := by simp [h.frame t] at ht
  notStray := h.stray

/-- **Wait queues.** In every run whose continuations all meet `ResumeOk`, in
every state reached, no sleeper is lost and no stranger has been woken. -/
theorem waitQueue_sound (h₀ : Init s) (h : Reaches step StepOk s s') : Sound s' :=
  (h.invariant h₀.inv fun _ _ _ hInv hok hs => inv_step hInv hok hs).sound

/-! ### Runs on one queue -/

/-- Every task runs and none sleeps. -/
def idle : State where
  task _ := ⟨.running, 0, 0, 0⟩
  queue _ := none
  frame _ := none
  jiffies := 0
  stray := false

theorem idle_init : Init idle := ⟨fun _ => rfl, fun _ => rfl, rfl⟩

/-- Once tasks 1 and 2 are the only ones inside, a saved pointer is theirs. -/
theorem saved_of_two {f₁ f₂ : Frame}
    (hf : s.frame = Function.update (Function.update idle.frame 1 (some f₁)) 2 (some f₂))
    (h : Saved s u v) : u = 1 ∧ f₁.tmp = some v ∨ u = 2 ∧ f₂.tmp = some v := by
  obtain ⟨g, hg, hgv⟩ := h
  rw [hf] at hg
  by_cases hu2 : u = 2
  · subst hu2
    rw [Function.update_self] at hg
    exact Or.inr ⟨rfl, Option.some.inj hg ▸ hgv⟩
  · rw [Function.update_of_ne hu2] at hg
    by_cases hu1 : u = 1
    · subst hu1
      rw [Function.update_self] at hg
      exact Or.inl ⟨rfl, Option.some.inj hg ▸ hgv⟩
    · rw [Function.update_of_ne hu1] at hg
      cases hg

/-- Two readers sleep, the later one is woken and passes the wake-up on. -/
def passRun : List Act :=
  [.interruptibleSleepOn 1 0, .interruptibleSleepOn 2 0, .wakeUp 0, .resume 2]

theorem passRun_ok : RunOk step StepOk idle passRun := by
  refine ⟨True.intro, fun s₁ h₁ => ⟨True.intro, fun s₂ h₂ => ⟨True.intro, fun s₃ h₃ =>
    ⟨fun f hf => ?_, fun _ _ => True.intro⟩⟩⟩⟩
  cases h₁
  cases h₂
  cases h₃
  obtain rfl := Option.some.inj hf
  intro w hw
  rcases saved_of_two rfl hw with ⟨-, h⟩ | ⟨-, h⟩ <;> cases h

theorem waitQueue_sound_passRun : ∃ s', run step idle passRun = .next s' ∧ Sound s' :=
  ⟨_, rfl, waitQueue_sound idle_init (Reaches.of_run rfl passRun_ok)⟩

/-- Task 1 is woken, but before it runs task 2 goes to sleep on the same
queue: task 1 finds a stranger at `*p`, goes back to sleep, and no pointer
leads to it any more. -/
def lostRun : List Act :=
  [.interruptibleSleepOn 1 0, .wakeUp 0, .interruptibleSleepOn 2 0, .resume 1]

/-- Task 2 has saved task 1 in `tmp`; a signal and a `wake_up` let task 1 find
`*p == NULL` and leave, and exit, before task 2 stores into it. -/
def strayRun : List Act :=
  [.interruptibleSleepOn 1 0, .interruptibleSleepOn 2 0, .signal 1 1 0 0, .other 3 .running,
    .wakeUp 0, .resume 1, .other 1 .zombie, .resume 2]

/-- Both halves of the law fail: a sleeper is lost in `lostRun`, and in
`strayRun` a zombie is made runnable. -/
theorem waitQueue_not_sound :
    Init idle ∧
      (∃ s, run step idle lostRun = .next s ∧ ¬ NoLostSleeper s) ∧
      ∃ s, run step idle strayRun = .next s ∧ s.stray = true ∧ s.running 1 := by
  refine ⟨idle_init, ⟨_, rfl, fun h => ?_⟩, _, rfl, by decide, by decide⟩
  rcases h 1 _ rfl (by decide) with ⟨w, hw, hwalk⟩ | ⟨r, u, hr, hru, -⟩
  · cases hw
    rcases Relation.ReflTransGen.cases_head hwalk with h21 | ⟨b, ⟨f, hf, hfb⟩, -⟩
    · cases h21
    · cases hf
      cases hfb
  · rcases saved_of_two rfl hru with ⟨rfl, -⟩ | ⟨-, hu⟩
    · revert hr
      decide
    · cases hu

end LinuxKernel.V011.WaitQueue
