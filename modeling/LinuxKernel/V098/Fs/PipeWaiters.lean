import LinuxKernel.V098.Fs.PipeOpen

/-!
# LinuxKernel.V098.Fs.PipeWaiters

**No pipe waiter is stranded**, as long as copies do not overrun one another, and `do_select`
does not wait for an exception or on a full pipe without readers.
-/

namespace LinuxKernel.V098.Fs.Pipe

variable {s s' : State} {t u : Task} {fd : Fd} {f g : File} {pc : Pc} {e : Env}

/-! ### `pipe_read` -/

namespace Run

theorem readLoop {count read : Nat} (h : Run t nothing s)
    (hf : ∃ fd, s.filp t fd = some f ∧ reads (s.mode f)) (hw : (s.pc t).writing = false) :
    Inv (readLoop s t f count read) := by
  unfold Pipe.readLoop
  split
  · next hc =>
    refine h.setPc ⟨?_, hf⟩ (fun _ => Or.inl rfl) fun hw' => ?_
    · have := h.ring.2
      omega
    · rw [hw] at hw'
      cases hw'
  · refine (h.woken .writeWait).return_ (fun _ => noneOn_wakeUp s .writeWait) fun hw' => ?_
    change (s.pc t).writing = true at hw'
    rw [hw] at hw'
    cases hw'

theorem pipeRead {count : Nat} (h : Run t nothing s)
    (hf : ∃ fd, s.filp t fd = some f ∧ reads (s.mode f)) (hcalm : Calm s t) :
    Inv (pipeRead s t f count e) := by
  unfold Pipe.pipeRead
  split
  · next hempty =>
    have hwoken := h.woken .writeWait
    have hread : ((Pipe.wakeUp s .writeWait).pc t).reading = true →
        NoneOn (Pipe.wakeUp s .writeWait) .writeWait := fun _ => noneOn_wakeUp s .writeWait
    have hwrite : ((Pipe.wakeUp s .writeWait).pc t).writing = true →
        NoneOn (Pipe.wakeUp s .writeWait) .readWait := by
      intro hw
      change (s.pc t).writing = true at hw
      rw [hcalm.2] at hw
      cases hw
    dsimp only
    split
    · exact hwoken.return_ hread hwrite
    · next hwriters =>
      split
      · exact hwoken.return_ hread hwrite
      · exact hwoken.sleep hf ⟨Or.inl hempty.2, Nat.pos_of_ne_zero hwriters⟩ hread hwrite
  · exact h.readLoop hf hcalm.2

end Run

theorem Inv.readCopied {count chars read : Nat} (h : Inv s) (ht : s.asleep t = false)
    (hpc : s.pc t = .readCopy f count chars read) (hc : chars ≤ size s) :
    Inv (readCopied s t f count chars read) := by
  have hok := h.pcs t
  rw [hpc] at hok
  have hreading : Reading s := ⟨t, by rw [hpc]; rfl⟩
  have hpos : 0 < size s := Nat.lt_of_lt_of_le hok.1 hc
  refine Run.readLoop (s := { s with tail := (s.tail + chars) % PAGE_SIZE }) ?_ hok.2
    (by change (s.pc t).writing = false; rw [hpc]; rfl)
  refine ⟨⟨h.files.fds, h.files.refs, h.files.readers, h.files.writers, h.files.modes⟩,
    ⟨h.ring.1, Nat.mod_lt _ (by decide)⟩, ht,
    fun u _ => (h.pcs u).congr rfl fun _ _ _ => ⟨rfl, id⟩, fun u _ hasleep _ => ?_⟩
  -- the pipe was not empty, and who waits for room waits for `t` too
  have hside := h.sides u hasleep
  change Sides _ (s.pc u)
  cases hu : s.pc u with
  | readSleep f count =>
      rw [hu] at hside
      exact ⟨Or.inr (hside.1.resolve_left (Nat.pos_iff_ne_zero.mp hpos)), hside.2⟩
  | writeSleep f count sz written =>
      rw [hu] at hside
      exact ⟨Or.inr hreading, hside.2⟩
  | openRead fd f =>
      rw [hu] at hside
      exact absurd hside.1 (Nat.pos_iff_ne_zero.mp hpos)
  | openWrite fd f =>
      rw [hu] at hside
      exact hside
  | select ins outs exs =>
      rw [hu] at hside
      refine ⟨fun hins => ?_, fun houts => ⟨Or.inr hreading, (hside.2.1 houts).2⟩, hside.2.2⟩
      exact ⟨Or.inr ((hside.1 hins).1.resolve_left (Nat.pos_iff_ne_zero.mp hpos)), (hside.1 hins).2⟩
  | idle | readCopy | writeCopy | openPage =>
      rw [hu] at hside
      exact hside

/-! ### `pipe_write` -/

namespace Run

theorem writeChunk {count written : Nat} (h : Run t nothing s) (hcount : 0 < count)
    (hroom : 0 < room s) (hf : ∃ fd, s.filp t fd = some f ∧ writes (s.mode f))
    (hr : (s.pc t).reading = false) : Inv (writeChunk s t f count written) := by
  refine h.setPc ⟨?_, hf⟩ (fun hr' => ?_) fun _ => Or.inl rfl
  · have := h.ring.1
    omega
  · rw [hr] at hr'
    cases hr'

theorem writeLoop {count sz written : Nat} (h : Run t nothing s) (hsz : sz < PAGE_SIZE)
    (hf : ∃ fd, s.filp t fd = some f ∧ writes (s.mode f)) (hr : (s.pc t).reading = false)
    (hw : (s.pc t).writing = true → NoneOn s .readWait) :
    Inv (writeLoop s t f count sz written e) := by
  have hread : (s.pc t).reading = true → NoneOn s .writeWait := by
    intro hr'
    rw [hr] at hr'
    cases hr'
  unfold Pipe.writeLoop
  split
  · exact h.return_ hread hw
  · next hcount =>
    split
    · next hfull =>
      split
      · exact h.return_ hread hw
      · next hreaders =>
        split
        · exact h.return_ hread hw
        · split
          · exact h.return_ hread hw
          · exact h.sleep ⟨hsz, hf⟩ ⟨Or.inl hfull, Nat.pos_of_ne_zero hreaders⟩ hread hw
    · next hroom =>
      refine h.writeChunk (Nat.pos_of_ne_zero hcount) ?_ hf hr
      unfold room
      omega

theorem pipeWrite {count : Nat} (h : Run t nothing s) (hcount : 0 < count)
    (hf : ∃ fd, s.filp t fd = some f ∧ writes (s.mode f)) (hcalm : Calm s t) :
    Inv (pipeWrite s t f count e) := by
  have hnot : ∀ {P : Prop} {b : Bool}, b = false → b = true → P := by
    rintro P b rfl hb
    cases hb
  unfold Pipe.pipeWrite
  split
  · exact h.return_ (hnot hcalm.1) (hnot hcalm.2)
  · refine h.writeLoop ?_ hf hcalm.1 (hnot hcalm.2)
    split <;> simp only [PAGE_SIZE] at * <;> omega

end Run

theorem Inv.writeCopied {count chars written : Nat} (h : Inv s) (ht : s.asleep t = false)
    (hpc : s.pc t = .writeCopy f count chars written) (hc : chars ≤ room s) :
    Inv (writeCopied s t f count chars written e) := by
  have hok := h.pcs t
  rw [hpc] at hok
  obtain ⟨hchars, hf⟩ := hok
  have hwriting : Writing s := ⟨t, by rw [hpc]; rfl⟩
  have hreading : (s.pc t).reading = false := by rw [hpc]; rfl
  have hsize := size_head h.ring hc
  have hrun : Run t nothing { s with head := (s.head + chars) % PAGE_SIZE } := by
    refine ⟨⟨h.files.fds, h.files.refs, h.files.readers, h.files.writers, h.files.modes⟩,
      ⟨Nat.mod_lt _ (by decide), h.ring.2⟩, ht,
      fun u _ => (h.pcs u).congr rfl fun _ _ _ => ⟨rfl, id⟩, fun u _ hasleep _ => ?_⟩
    -- the pipe was not full, and who waits for data waits for `t` too
    have hside := h.sides u hasleep
    change Sides _ (s.pc u)
    cases hu : s.pc u with
    | readSleep f count =>
        rw [hu] at hside
        exact ⟨Or.inr hwriting, hside.2⟩
    | writeSleep f count sz written =>
        rw [hu] at hside
        refine ⟨hside.1.imp (fun hsz => ?_) id, hside.2⟩
        rw [hsize]
        omega
    | openRead fd f =>
        rw [hu] at hside
        obtain ⟨fd, hfd, hm⟩ := hf
        exact absurd hside.2 (Nat.pos_iff_ne_zero.mp (h.files.writer hfd hm))
    | openWrite fd f =>
        rw [hu] at hside
        exact hside
    | select ins outs exs =>
        rw [hu] at hside
        refine ⟨fun hins => ⟨Or.inr hwriting, (hside.1 hins).2⟩, fun houts => ?_, hside.2.2⟩
        refine ⟨Or.inr ((hside.2.1 houts).1.resolve_left fun hroom => ?_), (hside.2.1 houts).2⟩
        omega
    | idle | readCopy | writeCopy | openPage =>
        rw [hu] at hside
        exact hside
  unfold Pipe.writeCopied
  dsimp only
  split
  · next hmore => exact hrun.writeChunk hmore.1 hmore.2 hf hreading
  · exact (hrun.woken .readWait).writeLoop (by decide) hf hreading fun _ => noneOn_wakeUp _ _

/-! ### `do_select` -/

theorem ready_eq_zero {ins outs exs : List Fd} (h : ready s ins outs exs = 0) :
    (ins ≠ [] → Empty s ∧ 0 < s.writers) ∧ (outs ≠ [] → Full s ∧ 0 < s.writers) ∧
      (exs ≠ [] → 0 < s.readers ∧ 0 < s.writers) := by
  have hpart : ∀ {b : Bool} {l : List Fd}, (if b then l.length else 0) = 0 → l ≠ [] → b = false := by
    intro b l hb hl
    cases b with
    | false => rfl
    | true => exact absurd (List.length_eq_zero_iff.mp hb) hl
  unfold ready at h
  refine ⟨fun hins => ?_, fun houts => ?_, fun hexs => ?_⟩
  · have := hpart (b := selIn s) (by omega) hins
    simpa [selIn, Nat.pos_iff_ne_zero] using this
  · have := hpart (b := selOut s) (by omega) houts
    simpa [selOut, Nat.pos_iff_ne_zero] using this
  · have := hpart (b := selEx s) (by omega) hexs
    simpa [selEx, Nat.pos_iff_ne_zero] using this

theorem Run.doSelect {ins outs exs : List Fd} (h : Run t nothing s)
    (hf : PcOk s t (.select ins outs exs)) (hcalm : Calm s t) (hok : SelectOk s ins outs exs e) :
    Inv (doSelect s t ins outs exs e) := by
  have hnot : ∀ {P : Prop} {b : Bool}, b = false → b = true → P := by
    rintro P b rfl hb
    cases hb
  unfold Pipe.doSelect
  dsimp only
  split
  · next hsleep =>
    obtain ⟨hsignal, htimeout, hcount⟩ := hsleep
    obtain ⟨hin, hout, hex⟩ := ready_eq_zero (Nat.eq_zero_of_add_eq_zero_right hcount)
    refine h.sleep hf ⟨fun hins => ?_, fun houts => ?_, hex⟩ (hnot hcalm.1) (hnot hcalm.2)
    · exact ⟨Or.inl ((empty_iff h.ring).mp (hin hins).1), (hin hins).2⟩
    · obtain ⟨hfull, hwriters⟩ := hout houts
      refine ⟨Or.inl ((full_iff s).mp hfull), Nat.pos_of_ne_zero fun hreaders => ?_⟩
      have hins : ins = [] := by
        by_contra hins
        have hempty := (empty_iff h.ring).mp (hin hins).1
        unfold Full at hfull
        rw [hempty] at hfull
        cases hfull
      have hexs : exs = [] := by
        by_contra hexs
        exact absurd hreaders (Nat.pos_iff_ne_zero.mp (hex hexs).1)
      rcases hok hins houts hexs hfull hreaders hwriters with hother | hs | ht
      · omega
      · exact hsignal hs
      · rw [ht] at htimeout
        cases htimeout
  · exact h.return_ (hnot hcalm.1) (hnot hcalm.2)

/-! ### Every step keeps the invariant -/

theorem Inv.wake (h : Inv s) : Inv { s with asleep := Function.update s.asleep t false } where
  files := ⟨h.files.fds, h.files.refs, h.files.readers, h.files.writers, h.files.modes⟩
  ring := h.ring
  pcs u := (h.pcs u).congr rfl fun _ _ _ => ⟨rfl, id⟩
  sides u ha := by
    dsimp only at ha
    by_cases hu : u = t
    · rw [hu, Function.update_self] at ha
      cases ha
    · rw [Function.update_of_ne hu] at ha
      exact (h.sides u ha).congr rfl rfl rfl (fun _ => id) fun _ => id

theorem Inv.sysRead {count : Nat} (h : Inv s) (hidle : s.pc t = .idle) :
    Inv (sysRead s t fd count e) := by
  have hrun := h.run (h.awake hidle)
  have hcalm : Calm s t := by
    unfold Calm
    rw [hidle]
    exact ⟨rfl, rfl⟩
  unfold Pipe.sysRead
  cases hf : s.filp t fd with
  | none => exact hrun.calmReturn hcalm
  | some f =>
      dsimp only
      split
      · exact hrun.calmReturn hcalm
      · next hmode =>
        split
        · exact hrun.calmReturn hcalm
        · refine hrun.pipeRead ⟨fd, hf, ?_⟩ hcalm
          rcases h.files.mode_cases (h.files.open_ hf) with hm | hm | hm
          · exact Or.inl hm
          · rw [hm] at hmode
            exact absurd rfl hmode
          · exact Or.inr hm

theorem Inv.sysWrite {count : Nat} (h : Inv s) (hidle : s.pc t = .idle) :
    Inv (sysWrite s t fd count e) := by
  have hrun := h.run (h.awake hidle)
  have hcalm : Calm s t := by
    unfold Calm
    rw [hidle]
    exact ⟨rfl, rfl⟩
  unfold Pipe.sysWrite
  cases hf : s.filp t fd with
  | none => exact hrun.calmReturn hcalm
  | some f =>
      dsimp only
      split
      · exact hrun.calmReturn hcalm
      · next hmode =>
        split
        · exact hrun.calmReturn hcalm
        · next hcount =>
          refine hrun.pipeWrite (Nat.pos_of_ne_zero hcount) ⟨fd, hf, ?_⟩ hcalm
          rcases h.files.mode_cases (h.files.open_ hf) with hm | hm | hm
          · rw [hm] at hmode
            exact absurd rfl hmode
          · exact Or.inl hm
          · exact Or.inr hm

theorem Inv.go (h : Inv s) (hok : Served s (.go t e)) :
    (go s t e).Ends (fun _ => False) Inv := by
  unfold Served at hok
  unfold Pipe.go
  split
  · trivial
  · next hawake =>
    have ht : s.asleep t = false := by simpa using hawake
    have hrun := h.run ht
    have hfile := h.pcs t
    cases hpc : s.pc t with
    | idle => trivial
    | readSleep f count =>
        rw [hpc] at hfile
        exact hrun.pipeRead hfile (by unfold Calm; rw [hpc]; exact ⟨rfl, rfl⟩)
    | readCopy f count chars read =>
        simp only [hpc] at hok
        exact h.readCopied ht hpc hok
    | writeSleep f count sz written =>
        rw [hpc] at hfile
        refine hrun.writeLoop hfile.1 hfile.2 (by rw [hpc]; rfl) fun hw => ?_
        rw [hpc] at hw
        cases hw
    | writeCopy f count chars written =>
        simp only [hpc] at hok
        exact h.writeCopied ht hpc hok
    | openRead fd f =>
        rw [hpc] at hfile
        exact hrun.openReadLoop (by unfold Calm; rw [hpc]; exact ⟨rfl, rfl⟩) hfile.1 hfile.2.1
          hfile.2.2 fun q hq => hq.elim
    | openWrite fd f =>
        rw [hpc] at hfile
        exact hrun.openWriteLoop (by unfold Calm; rw [hpc]; exact ⟨rfl, rfl⟩) hfile.1 hfile.2.1
          hfile.2.2 fun q hq => hq.elim
    | openPage fd f => exact h.openPage ht hpc
    | select ins outs exs =>
        rw [hpc] at hfile
        simp only [hpc] at hok
        exact hrun.doSelect hfile (by unfold Calm; rw [hpc]; exact ⟨rfl, rfl⟩) hok

theorem Inv.step {a : Act} (h : Inv s) (hok : Served s a) : (step s a).Ends (fun _ => False) Inv := by
  cases a with
  | read t fd count e =>
      unfold Pipe.step
      dsimp only
      split
      · next hidle => exact h.sysRead hidle
      · trivial
  | write t fd count e =>
      unfold Pipe.step
      dsimp only
      split
      · next hidle => exact h.sysWrite hidle
      · trivial
  | select t ins outs exs e =>
      unfold Pipe.step
      dsimp only
      split
      · next hidle =>
        have hrun := h.run (h.awake hidle)
        have hcalm : Calm s t := by
          unfold Calm
          rw [hidle]
          exact ⟨rfl, rfl⟩
        rw [Outcome.ends_next]
        unfold Pipe.select
        split
        · next hall =>
          refine hrun.doSelect (fun fd hfd => ?_) hcalm hok
          exact Option.isSome_iff_exists.mp (List.all_eq_true.mp hall fd hfd)
        · exact hrun.calmReturn hcalm
      · trivial
  | open_ t fd f mode nonblock e =>
      unfold Pipe.step
      dsimp only
      split
      · next hopen => exact h.sysOpen hopen.1 hopen.2.1 hopen.2.2.1 hopen.2.2.2
      · trivial
  | close t fd =>
      unfold Pipe.step
      dsimp only
      split
      · next hidle => exact h.close hidle hok
      · trivial
  | fork t c =>
      unfold Pipe.step
      dsimp only
      split
      · next hfork => exact h.fork hfork.1 hfork.2.1 hfork.2.2
      · trivial
  | wake t => exact h.wake
  | go t e => exact h.go hok

theorem Inv.sound (h : Inv s) : Sound s := by
  intro hcopy _ t ht
  have hreading : ¬ Reading s := by
    rintro ⟨u, hu⟩
    have := hcopy u
    cases hpc : s.pc u with
    | readCopy f count chars read =>
        rw [hpc] at this
        exact this
    | idle | readSleep | writeSleep | writeCopy | openRead | openWrite | openPage | select =>
        rw [hpc] at hu
        cases hu
  have hwriting : ¬ Writing s := by
    rintro ⟨u, hu⟩
    have := hcopy u
    cases hpc : s.pc u with
    | writeCopy f count chars written =>
        rw [hpc] at this
        exact this
    | idle | readSleep | readCopy | writeSleep | openRead | openWrite | openPage | select =>
        rw [hpc] at hu
        cases hu
  have hside := h.sides t ht
  cases hpc : s.pc t with
  | readSleep f count =>
      rw [hpc] at hside
      exact ⟨hside.1.resolve_right hwriting, hside.2⟩
  | writeSleep f count sz written =>
      rw [hpc] at hside
      exact ⟨hside.2, hside.1.resolve_right hreading⟩
  | openRead fd f =>
      rw [hpc] at hside
      exact ⟨hside.2, hside.1⟩
  | openWrite fd f =>
      rw [hpc] at hside
      exact hside
  | select ins outs exs =>
      rw [hpc] at hside
      refine ⟨fun hins => ?_, fun houts => ?_, hside.2.2⟩
      · exact ⟨(hside.1 hins).1.resolve_right hwriting, (hside.1 hins).2⟩
      · exact ⟨(hside.2.1 houts).1.resolve_right hreading, (hside.2.1 houts).2⟩
  | idle | readCopy | writeCopy | openPage => trivial

theorem inv_fifo : Inv fifo where
  files := by
    refine ⟨nofun, fun f D hD => ?_, fun F hF => ?_, fun F hF => ?_, nofun⟩
    · rw [Finset.eq_empty_of_forall_notMem (s := D) fun d hd => by cases hD d hd]
      exact Nat.le_refl 0
    · rw [Finset.eq_empty_of_forall_notMem (s := F) fun f hf => Nat.lt_irrefl 0 (hF f hf).1]
      exact Nat.le_refl 0
    · rw [Finset.eq_empty_of_forall_notMem (s := F) fun f hf => Nat.lt_irrefl 0 (hF f hf).1]
      exact Nat.le_refl 0
  ring := ⟨by decide, by decide⟩
  pcs _ := trivial
  sides _ := nofun

theorem inv_pipe {a b : Fd} (ha : a < NR_OPEN) (hb : b < NR_OPEN) (hfg : f ≠ g) :
    Inv (pipe t a b f g) where
  files := by
    have hfilp : ∀ {u fd' k}, (pipe t a b f g).filp u fd' = some k →
        u = t ∧ (fd' = a ∧ k = f ∨ fd' = b ∧ k = g) := by
      intro u fd' k hk
      simp only [pipe] at hk
      split at hk
      · next hu =>
        refine ⟨hu, ?_⟩
        split at hk
        · next hfd => exact Or.inl ⟨hfd, (Option.some.inj hk).symm⟩
        · split at hk
          · next hfd => exact Or.inr ⟨hfd, (Option.some.inj hk).symm⟩
          · cases hk
      · cases hk
    have hopen : ∀ {k}, 0 < (pipe t a b f g).fCount k → k = f ∨ k = g := by
      intro k hk
      simp only [pipe] at hk
      split at hk
      · assumption
      · exact absurd hk (Nat.lt_irrefl 0)
    have hmode : (pipe t a b f g).mode f = 1 ∧ (pipe t a b f g).mode g = 2 := by
      simp [pipe, hfg.symm]
    refine ⟨fun u fd' k hk => ?_, fun k D hD => ?_, fun F hF => ?_, fun F hF => ?_, fun k hk => ?_⟩
    · rcases (hfilp hk).2 with h | h
      · rw [h.1]
        exact ha
      · rw [h.1]
        exact hb
    · rcases D.eq_empty_or_nonempty with rfl | ⟨d, hd⟩
      · exact Nat.zero_le _
      · -- a file has one descriptor
        have hcount : (pipe t a b f g).fCount k = 1 := by
          rcases (hfilp (hD d hd)).2 with h | h <;> simp [pipe, h.2]
        have hsub : ∀ d' ∈ D, d' = d := by
          intro d' hd'
          obtain ⟨hu, h⟩ := hfilp (hD d hd)
          obtain ⟨hu', h'⟩ := hfilp (hD d' hd')
          refine Prod.ext (hu'.trans hu.symm) ?_
          rcases h with h | h <;> rcases h' with h' | h'
          · exact h'.1.trans h.1.symm
          · exact absurd (h.2.symm.trans h'.2) hfg
          · exact absurd (h'.2.symm.trans h.2) hfg
          · exact h'.1.trans h.1.symm
        rw [hcount, Finset.card_le_one]
        exact fun x hx y hy => (hsub x hx).trans (hsub y hy).symm
    · have hsub : F ⊆ {f} := by
        intro k hk
        obtain ⟨hk, hrole⟩ := hF k hk
        rcases hopen hk with rfl | rfl
        · exact Finset.mem_singleton_self k
        · rw [hmode.2] at hrole
          rcases hrole with h | h <;> cases h
      simpa [pipe] using Finset.card_le_card hsub
    · have hsub : F ⊆ {g} := by
        intro k hk
        obtain ⟨hk, hrole⟩ := hF k hk
        rcases hopen hk with rfl | rfl
        · rw [hmode.1] at hrole
          rcases hrole with h | h <;> cases h
        · exact Finset.mem_singleton_self k
      simpa [pipe] using Finset.card_le_card hsub
    · rcases hopen hk with rfl | rfl
      · exact Or.inl (Or.inl hmode.1)
      · exact Or.inr (Or.inl hmode.2)
  ring := ⟨by simp [pipe, PAGE_SIZE], by simp [pipe, PAGE_SIZE]⟩
  pcs _ := trivial
  sides _ := nofun

theorem Init.inv (h : Init s) : Inv s := by
  rcases h with rfl | ⟨t, a, b, f, g, ha, hb, -, hfg, rfl⟩
  · exact inv_fifo
  · exact inv_pipe ha hb hfg

/-- **No waiter of a pipe or FIFO is stranded** in any run whose steps meet the condition. -/
theorem sound_of_served (h : Init s) (hr : Reaches step Served s s') : Sound s' :=
  (hr.invariant h.inv fun _ _ _ hi hok hs => (hi.step hok).of_next hs).sound

/-- No signal, no timeout, and nothing else to wait for. -/
def quiet : Env where
  signal := false
  timeout := true
  page := true
  other := 0

/-- The parent reads from the empty pipe, the child writes a byte, and the parent gets it. -/
def byteRun : List Act :=
  [.fork 1 2, .read 1 3 1 quiet, .write 2 4 1 quiet, .go 2 quiet, .go 1 quiet, .go 1 quiet]

theorem sound_of_served_byteRun :
    Sound ((run step (pipe 1 3 4 0 1) byteRun).get (pipe 1 3 4 0 1)) :=
  sound_of_served (Or.inr ⟨1, 3, 4, 0, 1, by decide, by decide, by decide, by decide, rfl⟩)
    (.of_run (Outcome.eq_next (by decide) _) (by
      refine RunOk.cons True.intro ?_
      refine RunOk.cons True.intro ?_
      refine RunOk.cons True.intro ?_
      refine RunOk.cons (show _ ≤ _ by decide) ?_
      refine RunOk.cons True.intro ?_
      refine RunOk.cons (show _ ≤ _ by decide) ?_
      exact True.intro))

/-! ### A full pipe without readers -/

/-- The child has the last descriptor to read. The parent fills the pipe and waits in
`do_select` until it can write again, and the child closes. -/
def fullRun : List Act :=
  [.fork 1 2, .close 1 3, .write 1 4 4095 quiet, .go 1 quiet, .select 1 [] [4] [] quiet, .close 2 3,
    .go 1 quiet]

/-- The task that an action is of. -/
def actor : Act → Task
  | .read t _ _ _ | .write t _ _ _ | .select t _ _ _ _ | .open_ t _ _ _ _ _ | .close t _
  | .fork t _ | .wake t | .go t _ => t

section Others

variable {count read written chars sz : Nat} {retval : Int} (hu : u ≠ t)
include hu

theorem setPc_others : (setPc s t pc).pc u = s.pc u := Function.update_of_ne hu _ _

theorem sleep_others : (sleep s t pc).pc u = s.pc u := Function.update_of_ne hu _ _

theorem return_others {v : Int} : (return_ s t v).pc u = s.pc u := Function.update_of_ne hu _ _

theorem readLoop_others : (readLoop s t f count read).pc u = s.pc u := by
  unfold readLoop
  split
  · exact setPc_others hu
  · exact return_others hu

theorem pipeRead_others : (pipeRead s t f count e).pc u = s.pc u := by
  unfold pipeRead
  dsimp only
  split
  · split
    · exact return_others hu
    · split
      · exact return_others hu
      · exact sleep_others hu
  · exact readLoop_others hu

theorem writeLoop_others : (writeLoop s t f count sz written e).pc u = s.pc u := by
  unfold writeLoop
  split
  · exact return_others hu
  · split
    · split
      · exact return_others hu
      · split
        · exact return_others hu
        · split
          · exact return_others hu
          · exact sleep_others hu
    · exact setPc_others hu

theorem pipeWrite_others : (pipeWrite s t f count e).pc u = s.pc u := by
  unfold pipeWrite
  split
  · exact return_others hu
  · exact writeLoop_others hu

theorem writeCopied_others : (writeCopied s t f count chars written e).pc u = s.pc u := by
  unfold writeCopied
  dsimp only
  split
  · exact setPc_others hu
  · exact writeLoop_others hu

theorem doSelect_others {ins outs exs : List Fd} :
    (doSelect s t ins outs exs e).pc u = s.pc u := by
  unfold doSelect
  dsimp only
  split
  · exact sleep_others hu
  · exact return_others hu

theorem openReturn_others : (openReturn s t fd f retval).pc u = s.pc u := by
  unfold openReturn
  split <;> exact return_others hu

theorem openEnd_others : (openEnd s t fd f retval).pc u = s.pc u := by
  unfold openEnd
  rw [openWake_eq]
  dsimp only
  split
  · exact openReturn_others hu
  · exact setPc_others hu

theorem openReadLoop_others : (openReadLoop s t fd f e).pc u = s.pc u := by
  unfold openReadLoop
  split
  · exact openEnd_others hu
  · split
    · exact openEnd_others hu
    · exact sleep_others hu

theorem openWriteLoop_others : (openWriteLoop s t fd f e).pc u = s.pc u := by
  unfold openWriteLoop
  split
  · exact openEnd_others hu
  · split
    · exact openEnd_others hu
    · exact sleep_others hu

theorem openPage_others : (openPage s t fd f e).pc u = s.pc u := by
  unfold openPage
  split
  · exact openReturn_others hu
  · split <;> exact openReturn_others hu

theorem fifoOpen_others : (fifoOpen s t fd f e).pc u = s.pc u := by
  unfold fifoOpen
  split
  · dsimp only
    split
    · exact openEnd_others hu
    · exact openReadLoop_others hu
  · split
    · exact openEnd_others hu
    · exact openWriteLoop_others hu
  · exact openEnd_others hu
  · exact openEnd_others hu

theorem go_others : (go s t e).Ends (fun _ => True) fun s' => s'.pc u = s.pc u := by
  unfold go
  split
  · trivial
  · split
    · trivial
    · exact pipeRead_others hu
    · exact readLoop_others hu
    · exact writeLoop_others hu
    · exact writeCopied_others hu
    · exact openReadLoop_others hu
    · exact openWriteLoop_others hu
    · exact openPage_others hu
    · exact doSelect_others hu

end Others

theorem closeFp_pc (s : State) (f : File) : (closeFp s f).pc = s.pc := by
  unfold closeFp release
  split
  · rfl
  · dsimp only
    split <;> rfl

/-- Whoever runs, the others stay where they are. -/
theorem step_others {a : Act} (hu : u ≠ actor a) :
    (step s a).Ends (fun _ => True) fun s' => s'.pc u = s.pc u := by
  cases a with
  | read t fd count e =>
      unfold step sysRead
      dsimp only
      split
      · split
        · exact return_others hu
        · split
          · exact return_others hu
          · split
            · exact return_others hu
            · exact pipeRead_others hu
      · trivial
  | write t fd count e =>
      unfold step sysWrite
      dsimp only
      split
      · split
        · exact return_others hu
        · split
          · exact return_others hu
          · split
            · exact return_others hu
            · exact pipeWrite_others hu
      · trivial
  | select t ins outs exs e =>
      unfold step select
      dsimp only
      split
      · split
        · exact doSelect_others hu
        · exact return_others hu
      · trivial
  | open_ t fd f mode nonblock e =>
      unfold step sysOpen
      dsimp only
      split
      · exact fifoOpen_others hu
      · trivial
  | close t fd =>
      unfold step close
      dsimp only
      split
      · split
        · exact return_others hu
        · exact (return_others hu).trans (congrFun (closeFp_pc _ _) u)
      · trivial
  | fork t c =>
      unfold step
      dsimp only
      split
      · rfl
      · trivial
  | wake t => rfl
  | go t e => exact go_others hu

theorem pipe_not_sound :
    ∃ s, Init (pipe 1 3 4 0 1) ∧ run step (pipe 1 3 4 0 1) fullRun = .next s ∧ ¬ Sound s := by
  have hrun := Outcome.eq_next (show (run step (pipe 1 3 4 0 1) fullRun).isNext = true by
    decide) (pipe 1 3 4 0 1)
  refine ⟨_, Or.inr ⟨1, 3, 4, 0, 1, by decide, by decide, by decide, by decide, rfl⟩, hrun,
    fun h => ?_⟩
  have hpc1 : ((run step (pipe 1 3 4 0 1) fullRun).get (pipe 1 3 4 0 1)).pc 1 =
      .select [] [4] [] := by decide
  have hawake : ((run step (pipe 1 3 4 0 1) fullRun).get (pipe 1 3 4 0 1)).asleep 1 = true := by
    decide
  have hothers : ∀ u, u ≠ 1 →
      ((run step (pipe 1 3 4 0 1) fullRun).get (pipe 1 3 4 0 1)).pc u = .idle := by
    intro u h1
    by_cases h2 : u = 2
    · subst h2
      decide
    · refine run_keeps (fun s => s.pc u) (fun a ha t t' hs => (step_others ?_).of_next hs) hrun
      have hact : actor a = 1 ∨ actor a = 2 := by
        simp only [fullRun, List.mem_cons, List.not_mem_nil, or_false] at ha
        rcases ha with rfl | rfl | rfl | rfl | rfl | rfl | rfl <;> decide
      rcases hact with ha | ha <;> rw [ha] <;> assumption
  have hwaits := h (fun u => ?_) (fun u => ?_) 1 hawake
  · rw [hpc1] at hwaits
    have hreaders : ((run step (pipe 1 3 4 0 1) fullRun).get (pipe 1 3 4 0 1)).readers = 0 := by
      decide
    have := (hwaits.2.1 (by decide)).2
    omega
  · by_cases h1 : u = 1
    · rw [h1, hpc1]
      trivial
    · rw [hothers u h1]
      trivial
  · by_cases h1 : u = 1
    · rw [h1, hpc1]
      exact hawake
    · rw [hothers u h1]
      trivial

end LinuxKernel.V098.Fs.Pipe
