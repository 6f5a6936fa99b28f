import LinuxKernel.V011.Fs.BufferTasks

/-!
# LinuxKernel.V011.Fs.BufferSpin

**The loop of `getblk` over a dirty buffer**, `while (bh->b_dirt)`.

* A pass writes the buffer out with `sync_dev`, and waits for it. It ends at
  the test of the loop again.
* A pass gets the processor away from the task, or the buffer clean, only if
  the device has a driver, or if `sync_dev` finds a buffer it has to wait for.
* `ll_rw_block` does nothing about a device without a driver and leaves
  `b_dirt` set. Interrupts cannot help: they clear `b_lock`, not `b_dirt`.
-/

namespace LinuxKernel.V011.Fs

open Threads

namespace BufferSpin

variable {n : Nat} {requestFn : Nat → Bool} {s s' : State n} {c c' : Cache n} {t : Nat}
  {dev d : Dev} {block : BlockNr} {bh x : Fin n} {rest : List (Frame n)}

/-- The test of `ll_rw_block`. -/
def Driver (requestFn : Nat → Bool) (dev : Dev) : Prop :=
  MAJOR dev < NR_BLK_DEV ∧ requestFn (MAJOR dev) = true

/-- A locked buffer that no request will unlock. -/
def Held (c : Cache n) (b : Fin n) : Prop :=
  c.lock b = true ∧ ∀ k r, c.request k = some r → r.bh ≠ b

/-- Task `t` is at the test of the loop with an unlocked, unused, dirty buffer. -/
structure AtLoop (s : State n) (t : Nat) (dev : Dev) (block : BlockNr) (bh : Fin n)
    (rest : List (Frame n)) : Prop where
  current : s.current = some t
  stack : s.stack t = .getblkWait dev block bh :: rest
  unlocked : s.shared.lock bh = false
  unused : s.shared.count bh = 0
  dirty : s.shared.dirt bh = true

/-- A task runs, and the buffer is dirty. -/
def Awake (bh : Fin n) (s : State n) : Prop := s.current ≠ none ∧ s.shared.dirt bh = true

/-- `s'` is reached from `s` without a sleep and without cleaning the buffer. -/
abbrev Keeps (requestFn : Nat → Bool) (bh : Fin n) : State n → State n → Prop :=
  Reaches (step (program requestFn)) fun s _ => Awake bh s

/-- No pass of the loop comes back to the test without a sleep and with the buffer dirty
all the way. -/
def Yields (requestFn : Nat → Bool) (s : State n) (t : Nat) (dev : Dev) (block : BlockNr)
    (bh : Fin n) (rest : List (Frame n)) : Prop :=
  ∀ u ch v s', Keeps requestFn bh s u → Awake bh u → step (program requestFn) u (.run ch) = .next v →
    Keeps requestFn bh v s' → s'.stack t = .getblkWait dev block bh :: rest → ¬ Awake bh s'

/-! ### Interrupts -/

theorem endRequest_eq {k : Nat} {ok : Bool} (h : c.endRequest k ok = some c') :
    ∃ r, c.request k = some r ∧ c'.dirt = c.dirt ∧ c'.dev = c.dev ∧ c'.count = c.count ∧
      c'.lock = Function.update c.lock r.bh false ∧
      c'.request = Function.update c.request k none := by
  rw [Cache.endRequest] at h
  cases hr : c.request k with
  | none => rw [hr] at h; cases h
  | some r =>
      rw [hr] at h
      cases h
      refine ⟨r, rfl, ?_⟩
      cases ok with
      | false => exact ⟨rfl, rfl, rfl, rfl, rfl⟩
      | true =>
          cases hc : r.cmd with
          | READ => simp [Cache.transfer, hc]
          | WRITE => simp [Cache.transfer, hc]
          | READA => simp [Cache.transfer, hc]
          | WRITEA => simp [Cache.transfer, hc]

/-- An interrupt unlocks no buffer that has no request. -/
theorem Held.endRequest {k : Nat} {ok : Bool} (h : Held c x) (he : c.endRequest k ok = some c') :
    Held c' x := by
  obtain ⟨r, hr, -, -, -, hlock, hreq⟩ := endRequest_eq he
  refine ⟨?_, fun j q hq => ?_⟩
  · rw [hlock, Function.update_of_ne (h.2 k r hr).symm]
    exact h.1
  · rw [hreq, Function.update_apply] at hq
    split at hq
    · cases hq
    · exact h.2 j q hq

/-- The tasks go on one at a time: while one runs, none is started or resumed. -/
theorem step_cases {a : Act n} (hcur : s.current = some t)
    (h : step (program requestFn) s a = .next s') :
    (∃ i, a = .interrupt i ∧ s.shared.endRequest i.1 i.2 = some s'.shared ∧
        s'.stack = s.stack ∧ s'.current = some t) ∨
      ∃ ch f fs, a = .run ch ∧ s.stack t = f :: fs ∧
        Threads.round (program requestFn) s t fs (exec requestFn s.shared f ch) = .next s' := by
  cases a with
  | start u f =>
      rw [step, hcur, if_neg fun hc => Option.some_ne_none t hc.1] at h
      cases h
  | resume u =>
      rw [step, hcur, if_neg fun hc => Option.some_ne_none t hc.1] at h
      cases h
  | run ch =>
      obtain ⟨u, f, fs, hu, hf, hr⟩ := run_eq_next h
      obtain rfl : u = t := Option.some.inj (hu.symm.trans hcur)
      exact Or.inr ⟨ch, f, fs, rfl, hf, hr⟩
  | interrupt i =>
      simp only [step] at h
      split at h
      case h_2 => cases h
      next m hm =>
      cases h
      exact Or.inl ⟨i, rfl, hm, rfl, hcur⟩

/-! ### With a driver, or a buffer to wait for -/

/-- What ends a pass early: the buffer itself, if its device has a driver, or one that
`sync_dev` waits for. -/
def Target (requestFn : Nat → Bool) (c : Cache n) (d : Dev) (bh x : Fin n) : Prop :=
  c.dev x = d ∧ (x = bh ∧ Driver requestFn d ∨ Held c x)

theorem Target.endRequest {k : Nat} {ok : Bool} (h : Target requestFn c d bh x)
    (he : c.endRequest k ok = some c') : Target requestFn c' d bh x := by
  obtain ⟨r, -, -, hdev, -⟩ := endRequest_eq he
  exact ⟨hdev ▸ h.1, h.2.imp_right fun hh => hh.endRequest he⟩

/-- `ll_rw_block(WRITE, b)` is on its way. -/
inductive Asks (b : Fin n) : Frame n → Prop
  | llRwBlock : Asks b (.llRwBlock .WRITE b)
  | makeRequest : Asks b (.makeRequest .WRITE b)
  | lockBuffer : Asks b (.lockBuffer .WRITE false b)
  | requestSlot : Asks b (.requestSlot .WRITE false b)

/-- The first loop of `sync_dev` has not got past buffer `x`. -/
inductive Before (requestFn : Nat → Bool) (d : Dev) (bh x : Fin n) : List (Frame n) → Prop
  | walk {i : Nat} (h : i ≤ x) : Before requestFn d bh x [.syncDev d false i]
  | wait {b : Fin n} (h : b ≤ x) : Before requestFn d bh x [.syncWait d false b]
  | ask {f : Frame n} {b : Fin n} (hf : Asks b f) (h : b ≤ x)
      (hx : b = x → x = bh ∧ Driver requestFn d) :
      Before requestFn d bh x [f, .syncDev d false (b + 1)]

/-- Task `t` runs in the `sync_dev` of a pass. -/
structure InPass (requestFn : Nat → Bool) (s : State n) (t : Nat) (d : Dev) (bh x : Fin n)
    (base : List (Frame n)) : Prop where
  current : s.current = some t
  stack : ∃ fs, s.stack t = fs ++ base ∧ Before requestFn d bh x fs
  target : Target requestFn s.shared d bh x

/-- The buffer whose turn it is becomes part of a request. -/
theorem Target.addRequest {b : Fin n} {k : Nat} {rw : Rw} (h : Target requestFn c d bh x)
    (hb : b = x → x = bh ∧ Driver requestFn d) :
    Target requestFn (c.addRequest k rw b) d bh x := by
  refine ⟨h.1, ?_⟩
  by_cases hbx : b = x
  · exact Or.inl (hb hbx)
  · refine h.2.imp_right fun hh => ⟨hh.1, fun j q hq => ?_⟩
    change Function.update c.request k _ j = some q at hq
    rw [Function.update_apply] at hq
    split at hq
    · cases hq
      exact hbx
    · exact hh.2 j q hq

theorem Target.setLock {b : Fin n} {v : Bool} (h : Target requestFn c d bh x)
    (hb : b = x → x = bh ∧ Driver requestFn d) : Target requestFn (c.setLock b v) d bh x := by
  refine ⟨h.1, ?_⟩
  by_cases hbx : b = x
  · exact Or.inl (hb hbx)
  · exact h.2.imp_right fun hh => ⟨(Function.update_of_ne (Ne.symm hbx) _ _).trans hh.1, hh.2⟩

theorem InPass.of_stack {m : Cache n} {st : Nat → List (Frame n)} {fs base : List (Frame n)}
    (htarget : Target requestFn m d bh x) (hfs : Before requestFn d bh x fs) :
    InPass requestFn ⟨m, Function.update st t (fs ++ base), some t⟩ t d bh x base :=
  ⟨rfl, ⟨fs, Function.update_self .., hfs⟩, htarget⟩

/-- `sync_dev` is done with buffer `b`, which was not the one to wait for. -/
theorem Before.next {b : Fin n} (h : b ≤ x) (hne : b ≠ x) :
    Before requestFn d bh x [.syncDev d false (b + 1)] :=
  .walk (Nat.lt_of_le_of_ne h fun he => hne (Fin.ext he))

/-- A round of a pass before `sync_dev` got past buffer `x`. -/
theorem InPass.round {ch : Choice} {f : Frame n} {fs base : List (Frame n)}
    (hfs : Before requestFn d bh x (f :: fs)) (htarget : Target requestFn s.shared d bh x)
    (hdirt : s.shared.dirt bh = true)
    (h : Threads.round (program requestFn) s t (fs ++ base) (exec requestFn s.shared f ch) = .next s') :
    InPass requestFn s' t d bh x base ∨ ¬ Awake bh s' := by
  cases hfs with
  | @walk i hi =>
      simp only [exec] at h
      rw [dif_pos (Nat.lt_of_le_of_lt hi x.isLt)] at h
      split at h
      · next hdev =>
        have hne : (⟨i, Nat.lt_of_le_of_lt hi x.isLt⟩ : Fin n) ≠ x := fun he =>
          hdev ((congrArg _ he).trans htarget.1)
        cases h
        exact Or.inl (.of_stack htarget (.next hi hne))
      · cases h
        exact Or.inl (.of_stack htarget (.wait hi))
  | @wait b hb =>
      simp only [exec] at h
      split at h
      case isTrue => cases h; exact Or.inr fun ha => ha.1 rfl
      next hlock =>
      have hx : b = x → x = bh ∧ Driver requestFn d := fun he =>
        htarget.2.resolve_right fun hh => hlock (he ▸ hh.1)
      split at h
      · cases h
        exact Or.inl (.of_stack htarget (.ask .llRwBlock hb hx))
      · next hdirty =>
        have hne : b ≠ x := fun he =>
          hdirty ⟨he ▸ htarget.1, (he.trans (hx he).1) ▸ hdirt⟩
        cases h
        exact Or.inl (.of_stack htarget (.next hb hne))
  | @ask f b hf hb hx =>
      cases hf with
      | llRwBlock =>
          simp only [exec] at h
          split at h
          · next hno =>
            have hne : b ≠ x := by
              intro he
              obtain ⟨hmajor, hfn⟩ := (hx he).2
              rw [he, htarget.1, hfn] at hno
              exact hno.elim (fun hle => absurd hmajor (by omega)) nofun
            cases h
            exact Or.inl (.of_stack htarget (.next hb hne))
          · cases h
            exact Or.inl (.of_stack htarget (.ask .makeRequest hb hx))
      | makeRequest =>
          cases h
          exact Or.inl (.of_stack htarget (.ask .lockBuffer hb hx))
      | lockBuffer =>
          simp only [exec] at h
          split at h
          case isTrue => cases h; exact Or.inr fun ha => ha.1 rfl
          split at h
          · next hclean =>
            have hclean' : s.shared.dirt b = false := by
              rcases hclean with hc | hc
              · exact hc.2
              · exact nomatch hc.1
            have hne : b ≠ x := fun he => by
              rw [he, (hx he).1, hdirt] at hclean'
              cases hclean'
            cases h
            exact Or.inl (.of_stack ((htarget.setLock hx).setLock hx) (.next hb hne))
          · cases h
            exact Or.inl (.of_stack (htarget.setLock hx) (.ask .requestSlot hb hx))
      | requestSlot =>
          simp only [exec] at h
          split at h
          · next k _ =>
            cases h
            by_cases hbx : b = x
            · refine Or.inr fun ha => ?_
              have hclean : (s.shared.addRequest k .WRITE b).dirt bh = false := by
                rw [hbx.trans (hx hbx).1]
                exact Function.update_self ..
              exact absurd (hclean.symm.trans ha.2) Bool.false_ne_true
            · exact Or.inl (.of_stack (htarget.addRequest hx) (.next hb hbx))
          · cases h
            exact Or.inr fun ha => ha.1 rfl

/-- **The step lemma.** A pass that has a target stays before it, or ends awake no more. -/
theorem InPass.step {a : Act n} {base : List (Frame n)} (hp : InPass requestFn s t d bh x base)
    (ha : Awake bh s) (h : step (program requestFn) s a = .next s') :
    InPass requestFn s' t d bh x base ∨ ¬ Awake bh s' := by
  obtain ⟨fs, hstack, hfs⟩ := hp.stack
  rcases step_cases hp.current h with ⟨i, -, he, hst, hcur⟩ | ⟨ch, f, gs, -, hg, hr⟩
  · exact Or.inl ⟨hcur, ⟨fs, hst ▸ hstack, hfs⟩, hp.target.endRequest he⟩
  · obtain ⟨f', fs', rfl⟩ : ∃ f' fs', fs = f' :: fs' := by cases hfs <;> exact ⟨_, _, rfl⟩
    obtain ⟨rfl, rfl⟩ := List.cons.inj (hg.symm.trans hstack)
    exact InPass.round hfs hp.target ha.2 hr

/-- At the test, with something that will end the pass. -/
structure Ready (requestFn : Nat → Bool) (s : State n) (t : Nat) (dev : Dev) (block : BlockNr)
    (bh x : Fin n) (rest : List (Frame n)) : Prop where
  loop : AtLoop s t dev block bh rest
  target : Target requestFn s.shared (s.shared.dev bh) bh x

/-- Interrupts leave the task at the test, and its next round starts the pass. -/
theorem Ready.step {a : Act n} (hr : Ready requestFn s t dev block bh x rest)
    (h : step (program requestFn) s a = .next s') :
    (Ready requestFn s' t dev block bh x rest ∧ ∀ ch, a ≠ .run ch) ∨
      ∃ d, InPass requestFn s' t d bh x (.getblkWait dev block bh :: rest) := by
  obtain ⟨hcur, hstack, hlock, hcount, hdirt⟩ := hr.loop
  rcases step_cases hcur h with ⟨i, rfl, he, hst, hcur'⟩ | ⟨ch, f, gs, rfl, hg, hround⟩
  · obtain ⟨r, -, hdirt', hdev', hcount', hlock', -⟩ := endRequest_eq he
    refine Or.inl ⟨⟨⟨hcur', hst ▸ hstack, ?_, hcount' ▸ hcount, hdirt' ▸ hdirt⟩, ?_⟩, nofun⟩
    · rw [hlock', Function.update_apply]
      split
      · rfl
      · exact hlock
    · rw [hdev']
      exact hr.target.endRequest he
  · obtain ⟨rfl, rfl⟩ := List.cons.inj (hg.symm.trans hstack)
    simp only [exec] at hround
    rw [if_neg (by rw [hlock]; exact Bool.false_ne_true), if_neg (not_not.mpr hcount),
      if_pos hdirt] at hround
    cases hround
    exact Or.inr ⟨_, .of_stack hr.target (.walk (Nat.zero_le x))⟩

/-- A pass with a target does not come back awake. -/
theorem yields_of_target (hl : AtLoop s t dev block bh rest)
    (htarget : Target requestFn s.shared (s.shared.dev bh) bh x) :
    Yields requestFn s t dev block bh rest := by
  intro u ch v s' hu hau hrun hv hback ha
  have hpass : ∀ {w w' : State n} {a : Act n}, (∃ d, InPass requestFn w t d bh x
      (.getblkWait dev block bh :: rest)) → Awake bh w → step (program requestFn) w a = .next w' →
      Awake bh w' → ∃ d, InPass requestFn w' t d bh x (.getblkWait dev block bh :: rest) :=
    fun ⟨d, hp⟩ haw hs haw' => ⟨d, (hp.step haw hs).resolve_right (not_not.mpr haw')⟩
  have hbefore : Awake bh u → Ready requestFn u t dev block bh x rest ∨
      ∃ d, InPass requestFn u t d bh x (.getblkWait dev block bh :: rest) :=
    hu.invariant (P := fun w => Awake bh w → Ready requestFn w t dev block bh x rest ∨
        ∃ d, InPass requestFn w t d bh x (.getblkWait dev block bh :: rest))
      (fun _ => Or.inl ⟨hl, htarget⟩) fun w a w' hw haw hs haw' =>
        (hw haw).elim (fun hready => (hready.step hs).imp_left And.left) fun hp =>
          Or.inr (hpass hp haw hs haw')
  have hafter : Awake bh v → ∃ d, InPass requestFn v t d bh x
      (.getblkWait dev block bh :: rest) := fun hav => by
    rcases hbefore hau with hready | hp
    · exact (hready.step hrun).resolve_left fun hno => hno.2 ch rfl
    · exact hpass hp hau hrun hav
  obtain ⟨d, hp⟩ := hv.invariant (P := fun w => Awake bh w → ∃ d, InPass requestFn w t d bh x
    (.getblkWait dev block bh :: rest)) hafter (fun w a w' hw haw hs => hpass (hw haw) haw hs) ha
  obtain ⟨fs, hstack, hfs⟩ := hp.stack
  have hnil : fs = [] := List.append_left_eq_self.mp (hstack.symm.trans hback)
  cases hfs with
  | walk h => cases hnil
  | wait h => cases hnil
  | ask hf h hx => cases hnil

/-! ### No driver, and nobody to wait for -/

/-- Some buffer of the device is locked, and no request will unlock it. -/
def Stuck (c : Cache n) (d : Dev) : Prop := ∃ b, c.dev b = d ∧ Held c b

variable (requestFn) in
/-- The drivers finish all requests for the buffers of a device. -/
theorem unlock_all (l : List (Fin n)) (hl : AtLoop s t dev block bh rest)
    (hstuck : ¬ Stuck s.shared d)
    (hall : ∀ b, s.shared.dev b = d → s.shared.lock b = true → b ∈ l) :
    ∃ s', Keeps requestFn bh s s' ∧ AtLoop s' t dev block bh rest ∧
      s'.shared.dev = s.shared.dev ∧ ∀ b, s.shared.dev b = d → s'.shared.lock b = false := by
  induction l generalizing s with
  | nil =>
      exact ⟨s, .refl, hl, rfl, fun b hb =>
        Bool.eq_false_iff.mpr fun hlock => List.not_mem_nil (hall b hb hlock)⟩
  | cons b l ih =>
      by_cases hb : s.shared.dev b = d ∧ s.shared.lock b = true
      · obtain ⟨k, r, hr, hrb⟩ : ∃ k r, s.shared.request k = some r ∧ r.bh = b := by
          by_contra hno
          exact hstuck ⟨b, hb.1, hb.2, fun k r hr hrb => hno ⟨k, r, hr, hrb⟩⟩
        obtain ⟨c', hc'⟩ : ∃ c', s.shared.endRequest k false = some c' := by
          rw [Cache.endRequest, hr]
          exact ⟨_, rfl⟩
        obtain ⟨r', hr', hdirt, hdev, hcount, hlock, hreq⟩ := endRequest_eq hc'
        obtain rfl : r' = r := Option.some.inj (hr'.symm.trans hr)
        have hstep : step (program requestFn) s (.interrupt (k, false)) =
            .next { s with shared := c' } := by
          simp only [step, program, hc']
        have hlock' : ∀ x, c'.lock x = true → x ≠ b ∧ s.shared.lock x = true := fun x hx => by
          rw [hlock, hrb, Function.update_apply] at hx
          split at hx
          · cases hx
          · exact ⟨‹_›, hx⟩
        have hl' : AtLoop { s with shared := c' } t dev block bh rest :=
          ⟨hl.current, hl.stack, Bool.eq_false_iff.mpr fun hx => absurd
            (hl.unlocked.symm.trans (hlock' bh hx).2) Bool.false_ne_true,
            hcount ▸ hl.unused, hdirt ▸ hl.dirty⟩
        have hstuck' : ¬ Stuck c' d := by
          intro hs
          obtain ⟨x, hx, hh⟩ := hs
          refine hstuck ⟨x, hdev ▸ hx, (hlock' x hh.1).2, fun j q hq hqx => hh.2 j q ?_ hqx⟩
          have hjk : j ≠ k := fun hjk => by
            rw [hjk, hr] at hq
            cases hq
            exact (hlock' x hh.1).1 (hqx.symm.trans hrb)
          rw [hreq, Function.update_of_ne hjk, hq]
        obtain ⟨s', hs', hloop, hdev', hfree⟩ := ih hl' hstuck' fun x hx hxl =>
          (List.mem_cons.mp (hall x (hdev ▸ hx) (hlock' x hxl).2)).resolve_left (hlock' x hxl).1
        exact ⟨s', .head ⟨by rw [hl.current]; exact Option.some_ne_none _, hl.dirty⟩ hstep hs', hloop,
          hdev'.trans hdev, fun x hx => hfree x (by rw [← hx]; exact congrFun hdev x)⟩
      · exact ih hl hstuck fun x hx hxl =>
          (List.mem_cons.mp (hall x hx hxl)).resolve_left fun he => hb (he ▸ ⟨hx, hxl⟩)

/-- One round of the running task that ends in it, with the buffer dirty. -/
theorem Keeps.goto {st : Nat → List (Frame n)} {f g : Frame n} {fs : List (Frame n)} (ch : Choice)
    (hdirt : c.dirt bh = true) (h : exec requestFn c f ch = .goto c g) {v : State n}
    (hv : Keeps requestFn bh ⟨c, Function.update st t (g :: fs), some t⟩ v) :
    Keeps requestFn bh ⟨c, Function.update st t (f :: fs), some t⟩ v := by
  refine .head (a := .run ch) ⟨nofun, hdirt⟩ ?_ hv
  simp only [step, Function.update_self, program, h, Threads.round, Function.update_idem]

theorem Keeps.call {st : Nat → List (Frame n)} {f g k : Frame n} {fs : List (Frame n)}
    (ch : Choice) (hdirt : c.dirt bh = true) (h : exec requestFn c f ch = .call c g k)
    {v : State n}
    (hv : Keeps requestFn bh ⟨c, Function.update st t (g :: k :: fs), some t⟩ v) :
    Keeps requestFn bh ⟨c, Function.update st t (f :: fs), some t⟩ v := by
  refine .head (a := .run ch) ⟨nofun, hdirt⟩ ?_ hv
  simp only [step, Function.update_self, program, h, Threads.round, Function.update_idem]

theorem Keeps.ret {st : Nat → List (Frame n)} {f k : Frame n} {fs : List (Frame n)} (ch : Choice)
    {b : Option (Fin n)} (hdirt : c.dirt bh = true) (h : exec requestFn c f ch = .ret c b)
    {v : State n}
    (hv : Keeps requestFn bh ⟨c, Function.update st t (deliver k b :: fs), some t⟩ v) :
    Keeps requestFn bh ⟨c, Function.update st t (f :: k :: fs), some t⟩ v := by
  refine .head (a := .run ch) ⟨nofun, hdirt⟩ ?_ hv
  simp only [step, Function.update_self, program, h, Threads.round, Function.update_idem]

/-- A loop of `sync_dev` over unlocked buffers of a device without a driver. -/
theorem syncDev_walks {st : Nat → List (Frame n)} {fs : List (Frame n)} {again : Bool}
    (hdirt : c.dirt bh = true) (hd : ¬ Driver requestFn d)
    (hfree : ∀ b, c.dev b = d → c.lock b = false) {v : State n}
    (hv : Keeps requestFn bh ⟨c, Function.update st t (.syncDev d again n :: fs), some t⟩ v)
    (i : Nat) (hi : i ≤ n) :
    Keeps requestFn bh ⟨c, Function.update st t (.syncDev d again i :: fs), some t⟩ v := by
  induction hi using Nat.decreasingInduction with
  | self => exact hv
  | of_succ i hi ih =>
      by_cases hdev : c.dev ⟨i, hi⟩ = d
      · refine .goto .next hdirt (by simp only [exec]; rw [dif_pos hi, if_neg (not_not.mpr hdev)]) ?_
        have hunlocked : ¬ c.lock ⟨i, hi⟩ = true := by rw [hfree _ hdev]; exact Bool.false_ne_true
        by_cases hdirty : c.dirt ⟨i, hi⟩ = true
        · refine .call .next hdirt
            (by simp only [exec]; rw [if_neg hunlocked, if_pos ⟨hdev, hdirty⟩]) ?_
          refine .ret .next (b := none) hdirt ?_ ih
          simp only [exec]
          rw [if_pos]
          rw [hdev]
          by_contra hno
          exact hd (by rw [not_or] at hno; exact ⟨by omega, by simpa using hno.2⟩)
        · exact .goto .next hdirt
            (by simp only [exec]; rw [if_neg hunlocked, if_neg fun hc => hdirty hc.2]) ih
      · exact .goto .next hdirt (by simp only [exec]; rw [dif_pos hi, if_pos hdev]) ih

/-- Without a driver and without anybody to wait for, a pass changes nothing. -/
theorem not_yields (hl : AtLoop s t dev block bh rest)
    (hd : ¬ Driver requestFn (s.shared.dev bh)) (hstuck : ¬ Stuck s.shared (s.shared.dev bh)) :
    ¬ Yields requestFn s t dev block bh rest := by
  obtain ⟨u, hu, hlu, hdev, hfree⟩ := unlock_all requestFn (List.finRange n) hl hstuck
    fun b _ _ => List.mem_finRange b
  obtain ⟨c, st, cur⟩ := u
  obtain ⟨hcur, hstack, hlock, hcount, hdirt⟩ := hlu
  change cur = some t at hcur
  change st t = _ at hstack
  change c.lock bh = false at hlock
  change c.count bh = 0 at hcount
  change c.dirt bh = true at hdirt
  subst hcur
  set d := s.shared.dev bh with hdef
  have hd' : c.dev bh = d := congrFun hdev bh
  have hfree' : ∀ b, c.dev b = d → c.lock b = false := fun b hb => hfree b (hdev ▸ hb)
  have hpass : Keeps requestFn bh
      ⟨c, Function.update st t (.syncDev d false 0 :: .getblkWait dev block bh :: rest), some t⟩
      ⟨c, Function.update st t (.getblkWait dev block bh :: rest), some t⟩ := by
    refine syncDev_walks hdirt hd hfree' ?_ 0 (Nat.zero_le n)
    refine .call .next (g := .syncInodes) (k := .syncDev d true 0) hdirt (by simp [exec]) ?_
    refine .ret .next (b := none) hdirt rfl ?_
    refine syncDev_walks hdirt hd hfree' ?_ 0 (Nat.zero_le n)
    exact .ret .next (b := none) hdirt (by simp [exec]) .refl
  refine fun hy => hy _ .next _ _ hu ⟨nofun, hdirt⟩ ?_ hpass (Function.update_self ..)
    ⟨nofun, hdirt⟩
  simp [step, hstack, program, exec, hlock, hcount, hdirt, hd', Threads.round]

/-- **The loop of `getblk`.** A pass yields exactly if the device has a driver or one of its
buffers keeps `sync_dev` waiting. -/
theorem getblk_yields_iff (hl : AtLoop s t dev block bh rest) :
    Yields requestFn s t dev block bh rest ↔
      Driver requestFn (s.shared.dev bh) ∨ Stuck s.shared (s.shared.dev bh) := by
  refine ⟨fun hy => ?_, fun h => ?_⟩
  · by_contra hno
    rw [not_or] at hno
    exact not_yields hl hno.1 hno.2 hy
  · rcases h with hd | ⟨b, hb, hh⟩
    · exact yields_of_target (x := bh) hl ⟨rfl, Or.inl ⟨rfl, hd⟩⟩
    · exact yields_of_target (x := b) hl ⟨hb, Or.inr hh⟩

/-! ### A block special file without a driver -/

/-- One buffer, and no task in the cache yet. -/
def oneBuffer : State 1 where
  shared := bufferInit 1 (fun _ _ _ => 0) fun _ _ => 0
  stack _ := []
  current := none

/-- The hard disk has a driver. -/
def onlyHd (major : Nat) : Bool := major == 3

/-- `block_write` of a block of device 5, and then of the next one. -/
def writesDev5 : List (Act 1) :=
  .start 1 (.getblk 0x500 7) :: List.replicate 6 (.run .next) ++
    [.start 1 (.modify 0 fun _ => 1), .run .next, .start 1 (.brelse (some 0)), .run .next] ++
      .start 1 (.getblk 0x500 8) :: List.replicate 5 (.run .next)

def dev5 : State 1 := (run (step (program onlyHd)) oneBuffer writesDev5).get oneBuffer

theorem dev5_atLoop : AtLoop dev5 1 0x500 8 0 [] :=
  ⟨by decide, by rfl, by decide +kernel, by decide +kernel, by decide +kernel⟩

theorem dev5_dev : dev5.shared.dev 0 = 0x500 := by decide

theorem dev5_unlocked : dev5.shared.lock 0 = false := by decide

/-- The second `getblk` spins. -/
theorem getblk_spins :
    Reaches (step (program onlyHd)) (fun _ _ => True) oneBuffer dev5 ∧
      AtLoop dev5 1 0x500 8 0 [] ∧ ¬ Yields onlyHd dev5 1 0x500 8 0 [] := by
  refine ⟨Reaches.of_run (Outcome.eq_next (by decide) oneBuffer) (RunOk.trivial _ _ _),
    dev5_atLoop, not_yields dev5_atLoop (fun h => ?_) fun h => ?_⟩
  · rw [dev5_dev] at h
    exact absurd h.2 (by decide)
  · obtain ⟨b, -, hlock, -⟩ := h
    obtain rfl : b = 0 := Fin.fin_one_eq_zero b
    rw [dev5_unlocked] at hlock
    cases hlock

theorem getblk_yields_iff_dev5 :
    Yields onlyHd dev5 1 0x500 8 0 [] ↔
      Driver onlyHd (dev5.shared.dev 0) ∨ Stuck dev5.shared (dev5.shared.dev 0) :=
  getblk_yields_iff dev5_atLoop

end BufferSpin

end LinuxKernel.V011.Fs
