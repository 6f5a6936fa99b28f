import LinuxKernel.V098.Fs.PipeFiles

/-!
# LinuxKernel.V098.Fs.PipeSides

What is true for a **sleeper** at all times (`Sides`): what it waits for has not come, or a
task in a copy loop will still wake it. `Run t p` is the invariant in the middle of a step of
task `t`, when the queues of `p` have still to be woken.
-/

namespace LinuxKernel.V098.Fs.Pipe

variable {s s' : State} {t u : Task} {pc pc' : Pc} {q : Queue} {p : Queue → Prop}

/-! ### What a task knows where it is -/

def Pc.reading : Pc → Bool
  | readCopy _ _ _ _ => true
  | _ => false

def Pc.writing : Pc → Bool
  | writeCopy _ _ _ _ => true
  | _ => false

/-- A task is in the copy loop of `pipe_read`, which ends in a wake-up of the writers. -/
def Reading (s : State) : Prop := ∃ t, (s.pc t).reading = true

/-- The same for `pipe_write` and the readers. -/
def Writing (s : State) : Prop := ∃ t, (s.pc t).writing = true

/-- The files of a task in the kernel. -/
def PcOk (s : State) (t : Task) : Pc → Prop
  | .idle => True
  | .readSleep f _ => ∃ fd, s.filp t fd = some f ∧ reads (s.mode f)
  | .readCopy f _ chars _ => 0 < chars ∧ ∃ fd, s.filp t fd = some f ∧ reads (s.mode f)
  | .writeSleep f _ sz _ => sz < PAGE_SIZE ∧ ∃ fd, s.filp t fd = some f ∧ writes (s.mode f)
  | .writeCopy f _ chars _ => 0 < chars ∧ ∃ fd, s.filp t fd = some f ∧ writes (s.mode f)
  | .openRead fd f => s.filp t fd = some f ∧ s.fCount f = 1 ∧ s.mode f = 1
  | .openWrite fd f => s.filp t fd = some f ∧ s.fCount f = 1 ∧ s.mode f = 2
  | .openPage fd f => s.filp t fd = some f ∧ s.fCount f = 1
  | .select ins outs exs => ∀ fd ∈ ins ++ outs ++ exs, ∃ f, s.filp t fd = some f

/-- What a sleeper waits for has not come, or somebody in a copy loop will wake it. -/
def Sides (s : State) : Pc → Prop
  | .readSleep _ _ => (size s = 0 ∨ Writing s) ∧ 0 < s.writers
  | .writeSleep _ _ sz _ => (sz ≤ size s ∨ Reading s) ∧ 0 < s.readers
  | .openRead _ _ => size s = 0 ∧ s.writers = 0
  | .openWrite _ _ => s.readers = 0
  | .select ins outs exs =>
      (ins ≠ [] → (size s = 0 ∨ Writing s) ∧ 0 < s.writers) ∧
      (outs ≠ [] → (room s = 0 ∨ Reading s) ∧ 0 < s.readers) ∧
      (exs ≠ [] → 0 < s.readers ∧ 0 < s.writers)
  | .idle | .readCopy _ _ _ _ | .writeCopy _ _ _ _ | .openPage _ _ => False

theorem PcOk.congr (h : PcOk s t pc) (hfilp : s'.filp t = s.filp t)
    (hsame : ∀ fd f, s.filp t fd = some f →
      s'.mode f = s.mode f ∧ (s.fCount f = 1 → s'.fCount f = 1)) : PcOk s' t pc := by
  have hfile : ∀ {m : Nat → Prop} {f}, (∃ fd, s.filp t fd = some f ∧ m (s.mode f)) →
      ∃ fd, s'.filp t fd = some f ∧ m (s'.mode f) := by
    rintro m f ⟨fd, hf, hm⟩
    refine ⟨fd, by rw [hfilp]; exact hf, ?_⟩
    rw [(hsame fd f hf).1]
    exact hm
  cases pc with
  | idle => trivial
  | readSleep f count => exact hfile h
  | readCopy f count chars read => exact ⟨h.1, hfile h.2⟩
  | writeSleep f count sz written => exact ⟨h.1, hfile h.2⟩
  | writeCopy f count chars written => exact ⟨h.1, hfile h.2⟩
  | openRead fd f =>
      obtain ⟨hf, hcount, hm⟩ := h
      have := hsame fd f hf
      exact ⟨by rw [hfilp]; exact hf, this.2 hcount, this.1.trans hm⟩
  | openWrite fd f =>
      obtain ⟨hf, hcount, hm⟩ := h
      have := hsame fd f hf
      exact ⟨by rw [hfilp]; exact hf, this.2 hcount, this.1.trans hm⟩
  | openPage fd f =>
      obtain ⟨hf, hcount⟩ := h
      exact ⟨by rw [hfilp]; exact hf, (hsame fd f hf).2 hcount⟩
  | select ins outs exs =>
      intro fd hfd
      obtain ⟨f, hf⟩ := h fd hfd
      exact ⟨f, by rw [hfilp]; exact hf⟩

/-- A sleeper that the other tasks leave alone. -/
theorem Sides.congr (h : Sides s pc) (hsize : size s' = size s) (hr : s'.readers = s.readers)
    (hw : s'.writers = s.writers) (hreading : pc.on .writeWait = true → Reading s → Reading s')
    (hwriting : pc.on .readWait = true → Writing s → Writing s') : Sides s' pc := by
  have hroom : room s' = room s := by rw [room, room, hsize]
  cases pc with
  | idle => exact h
  | readSleep f count =>
      rw [Sides, hsize, hw]
      exact ⟨h.1.imp id (hwriting rfl), h.2⟩
  | readCopy f count chars read => exact h
  | writeSleep f count sz written =>
      rw [Sides, hsize, hr]
      exact ⟨h.1.imp id (hreading rfl), h.2⟩
  | writeCopy f count chars written => exact h
  | openRead fd f =>
      rw [Sides, hsize, hw]
      exact h
  | openWrite fd f =>
      rw [Sides, hr]
      exact h
  | openPage fd f => exact h
  | select ins outs exs =>
      rw [Sides, hsize, hroom, hr, hw]
      refine ⟨fun hins => ?_, fun houts => ?_, h.2.2⟩
      · exact ⟨(h.1 hins).1.imp id (hwriting (decide_eq_true hins)), (h.1 hins).2⟩
      · exact ⟨(h.2.1 houts).1.imp id (hreading (decide_eq_true houts)), (h.2.1 houts).2⟩

/-! ### The invariant -/

structure Inv (s : State) : Prop where
  files : Files s
  ring : s.head < PAGE_SIZE ∧ s.tail < PAGE_SIZE
  pcs : ∀ u, PcOk s u (s.pc u)
  sides : ∀ u, s.asleep u = true → Sides s (s.pc u)

/-- Task `t` runs, and will still wake the queues of `p`. -/
structure Run (t : Task) (p : Queue → Prop) (s : State) : Prop where
  files : Files s
  ring : s.head < PAGE_SIZE ∧ s.tail < PAGE_SIZE
  awake : s.asleep t = false
  pcs : ∀ u, u ≠ t → PcOk s u (s.pc u)
  sides : ∀ u, u ≠ t → s.asleep u = true → (∀ q, p q → (s.pc u).on q = false) → Sides s (s.pc u)

/-- No queue has still to be woken. -/
def nothing : Queue → Prop := fun _ => False

/-- Nobody sleeps on the queue. -/
def NoneOn (s : State) (q : Queue) : Prop := ∀ u, s.asleep u = true → (s.pc u).on q = false

theorem noneOn_wakeUp (s : State) (q : Queue) : NoneOn (wakeUp s q) q := by
  intro u hu
  have : (s.asleep u && !(s.pc u).on q) = true := hu
  change (s.pc u).on q = false
  simpa using (Bool.and_eq_true_iff.mp this).2

theorem asleep_wakeUp (h : (wakeUp s q).asleep u = true) : s.asleep u = true :=
  (Bool.and_eq_true_iff.mp (show (s.asleep u && !(s.pc u).on q) = true from h)).1

/-- The task is not in a copy loop. -/
def Calm (s : State) (t : Task) : Prop := (s.pc t).reading = false ∧ (s.pc t).writing = false

theorem Inv.awake (h : Inv s) (hidle : s.pc t = .idle) : s.asleep t = false := by
  by_contra ht
  have hside := h.sides t (by simpa using ht)
  rw [hidle] at hside
  exact hside

theorem Inv.run (h : Inv s) (ht : s.asleep t = false) : Run t nothing s where
  files := h.files
  ring := h.ring
  awake := ht
  pcs u _ := h.pcs u
  sides u _ hu _ := h.sides u hu

namespace Run

/-- A queue is woken. -/
theorem wakeUp (h : Run t p s) (q : Queue) : Run t (fun q' => p q' ∧ q' ≠ q) (wakeUp s q) where
  files := ⟨h.files.fds, h.files.refs, h.files.readers, h.files.writers, h.files.modes⟩
  ring := h.ring
  awake := by
    change (s.asleep t && _) = false
    rw [h.awake, Bool.false_and]
  pcs u hu := (h.pcs u hu).congr rfl fun _ _ _ => ⟨rfl, id⟩
  sides u hu hasleep hp := by
    refine (h.sides u hu (asleep_wakeUp hasleep) fun q' hq' => ?_).congr rfl rfl rfl
      (fun _ => id) fun _ => id
    by_cases hqq : q' = q
    · rw [hqq]
      exact noneOn_wakeUp s q u hasleep
    · exact hp q' ⟨hq', hqq⟩

theorem mono {p' : Queue → Prop} (h : Run t p s) (hp : ∀ q, p q → p' q) : Run t p' s :=
  ⟨h.files, h.ring, h.awake, h.pcs, fun u hu ha hp' => h.sides u hu ha fun q hq => hp' q (hp q hq)⟩

/-- The task stops or sleeps somewhere else. It leaves a copy loop only when nobody sleeps on
the queue that the loop wakes. -/
theorem goto {asleep : Task → Bool} {ret : Task → Int} (h : Run t nothing s) (hok : PcOk s t pc')
    (hothers : ∀ u, u ≠ t → asleep u = s.asleep u)
    (hside : asleep t = true → Sides { s with pc := Function.update s.pc t pc' } pc')
    (hread : (s.pc t).reading = true → pc'.reading = true ∨ NoneOn s .writeWait)
    (hwrite : (s.pc t).writing = true → pc'.writing = true ∨ NoneOn s .readWait) :
    Inv { s with pc := Function.update s.pc t pc', asleep := asleep, ret := ret } where
  files := ⟨h.files.fds, h.files.refs, h.files.readers, h.files.writers, h.files.modes⟩
  ring := h.ring
  pcs u := by
    dsimp only
    by_cases hu : u = t
    · rw [hu, Function.update_self]
      exact hok.congr rfl fun _ _ _ => ⟨rfl, id⟩
    · rw [Function.update_of_ne hu]
      exact (h.pcs u hu).congr rfl fun _ _ _ => ⟨rfl, id⟩
  sides u hasleep := by
    dsimp only at hasleep ⊢
    by_cases hu : u = t
    · rw [hu, Function.update_self]
      exact (hside (hu ▸ hasleep)).congr rfl rfl rfl (fun _ => id) fun _ => id
    · rw [Function.update_of_ne hu]
      rw [hothers u hu] at hasleep
      -- a witness of `Reading` other than `t` is still there
      have hcopy : ∀ copying : Pc → Bool, (∃ w, copying (s.pc w) = true) →
          (copying (s.pc t) = true → copying pc' = true) →
          ∃ w, copying (Function.update s.pc t pc' w) = true := by
        rintro copying ⟨w, hw⟩ himp
        by_cases hwt : w = t
        · exact ⟨t, by rw [Function.update_self]; exact himp (hwt ▸ hw)⟩
        · exact ⟨w, by rw [Function.update_of_ne hwt]; exact hw⟩
      refine (h.sides u hu hasleep fun q hq => hq.elim).congr rfl rfl rfl (fun hon hr => ?_)
        fun hon hw => ?_
      · refine hcopy Pc.reading hr fun ht => (hread ht).resolve_right fun hnone => ?_
        rw [hnone u hasleep] at hon
        cases hon
      · refine hcopy Pc.writing hw fun ht => (hwrite ht).resolve_right fun hnone => ?_
        rw [hnone u hasleep] at hon
        cases hon

theorem setPc (h : Run t nothing s) (hok : PcOk s t pc')
    (hread : (s.pc t).reading = true → pc'.reading = true ∨ NoneOn s .writeWait)
    (hwrite : (s.pc t).writing = true → pc'.writing = true ∨ NoneOn s .readWait) :
    Inv (setPc s t pc') := by
  refine h.goto hok (fun _ _ => rfl) (fun ha => ?_) hread
    hwrite
  rw [h.awake] at ha
  cases ha

theorem return_ {v : Int} (h : Run t nothing s)
    (hread : (s.pc t).reading = true → NoneOn s .writeWait)
    (hwrite : (s.pc t).writing = true → NoneOn s .readWait) : Inv (return_ s t v) := by
  refine h.goto trivial (fun _ _ => rfl) (fun ha => ?_)
    (fun hr => Or.inr (hread hr)) fun hw => Or.inr (hwrite hw)
  rw [h.awake] at ha
  cases ha

theorem sleep (h : Run t nothing s) (hok : PcOk s t pc')
    (hside : Sides { s with pc := Function.update s.pc t pc' } pc')
    (hread : (s.pc t).reading = true → NoneOn s .writeWait)
    (hwrite : (s.pc t).writing = true → NoneOn s .readWait) : Inv (sleep s t pc') :=
  h.goto hok (fun _ hu => Function.update_of_ne hu _ _) (fun _ => hside)
    (fun hr => Or.inr (hread hr)) fun hw => Or.inr (hwrite hw)

theorem woken (h : Run t nothing s) (q : Queue) : Run t nothing (Pipe.wakeUp s q) :=
  (h.wakeUp q).mono fun _ hq => hq.1

theorem calmReturn {v : Int} (h : Run t nothing s) (hcalm : Calm s t) : Inv (Pipe.return_ s t v) := by
  refine h.return_ (fun hr => ?_) fun hw => ?_
  · rw [hcalm.1] at hr
    cases hr
  · rw [hcalm.2] at hw
    cases hw

theorem calmSleep (h : Run t nothing s) (hcalm : Calm s t) (hok : PcOk s t pc')
    (hside : Sides { s with pc := Function.update s.pc t pc' } pc') : Inv (Pipe.sleep s t pc') := by
  refine h.sleep hok hside (fun hr => ?_) fun hw => ?_
  · rw [hcalm.1] at hr
    cases hr
  · rw [hcalm.2] at hw
    cases hw

end Run

/-! ### Bytes in the pipe -/

theorem size_lt (s : State) : size s < PAGE_SIZE := Nat.mod_lt _ (by decide)

theorem size_head {chars : Nat} (hring : s.head < PAGE_SIZE ∧ s.tail < PAGE_SIZE)
    (hc : chars ≤ room s) :
    size { s with head := (s.head + chars) % PAGE_SIZE } = size s + chars := by
  simp only [size, room, PAGE_SIZE] at *
  omega

theorem empty_iff (hring : s.head < PAGE_SIZE ∧ s.tail < PAGE_SIZE) : Empty s ↔ size s = 0 := by
  simp only [Empty, size, PAGE_SIZE] at *
  omega

theorem full_iff (s : State) : Full s ↔ room s = 0 := by
  have := size_lt s
  simp only [Full, room, PAGE_SIZE] at *
  omega

end LinuxKernel.V098.Fs.Pipe
