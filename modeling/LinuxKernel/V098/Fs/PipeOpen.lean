import LinuxKernel.V098.Fs.PipeSides

/-!
# LinuxKernel.V098.Fs.PipeOpen

`fifo_open`, the releases and `sys_fork` **keep the invariant**. A task that gives up in
`fifo_open` takes one from `PIPE_READERS` or `PIPE_WRITERS` and wakes nobody for it: there is
nobody to wake, since a sleeper has a file of his own.
-/

namespace LinuxKernel.V098.Fs.Pipe

variable {s : State} {t u : Task} {fd : Fd} {f : File} {e : Env} {p : Queue → Prop}

/-! ### Opening and closing files -/

theorem Run.drop {p' : Queue → Prop} {r w : Nat} (h : Run t p s) (hf : s.filp t fd = some f)
    (hr : s.readers ≤ r + 1) (hr' : r < s.readers → s.fCount f ≤ 1 ∧ reads (s.mode f))
    (hw : s.writers ≤ w + 1) (hw' : w < s.writers → s.fCount f ≤ 1 ∧ writes (s.mode f))
    (hsides : ∀ u, u ≠ t → s.asleep u = true → (∀ q, p' q → (s.pc u).on q = false) →
      Sides { dropFile s t fd f with readers := r, writers := w } (s.pc u)) :
    Run t p' { dropFile s t fd f with readers := r, writers := w } where
  files := h.files.drop hf hr hr' hw hw'
  ring := h.ring
  awake := h.awake
  pcs u hu := by
    refine (h.pcs u hu).congr (Function.update_of_ne hu _ _) fun fd' g hg => ⟨rfl, fun hone => ?_⟩
    refine (Function.update_of_ne ?_ _ _).trans hone
    rintro rfl
    have := h.files.shared hg hf fun he => hu (congrArg Prod.fst he)
    omega
  sides := hsides

/-- Where neither side loses anybody. -/
theorem Run.dropFile (h : Run t p s) (hf : s.filp t fd = some f) :
    Run t p (dropFile s t fd f) :=
  h.drop (r := s.readers) (w := s.writers) hf (by omega) (by omega) (by omega) (by omega)
    fun u hu hasleep hp => (h.sides u hu hasleep hp).congr rfl rfl rfl (fun _ => id) fun _ => id

/-- A sleeper in `do_select` has a file of the pipe open. -/
theorem Inv.selected {ins outs exs : List Fd} (h : Run t p s) (hu : u ≠ t)
    (hpc : s.pc u = .select ins outs exs) (hne : ins ++ outs ++ exs ≠ []) :
    ∃ fd f, s.filp u fd = some f ∧ (reads (s.mode f) ∨ writes (s.mode f)) := by
  have hok := h.pcs u hu
  rw [hpc] at hok
  obtain ⟨fd, hfd⟩ := List.exists_mem_of_ne_nil _ hne
  obtain ⟨f, hf⟩ := hok fd hfd
  exact ⟨fd, f, hf, h.files.modes f (h.files.open_ hf)⟩

/-- A reader gives up in `fifo_open`, for want of a writer. -/
theorem Run.dropReader (h : Run t nothing s) (hf : s.filp t fd = some f) (hcount : s.fCount f = 1)
    (hm : s.mode f = 1) (hw : s.writers = 0) :
    Run t nothing (Pipe.dropFile { s with readers := s.readers - 1 } t fd f) := by
  have hreads : reads (s.mode f) := Or.inl hm
  refine h.drop (r := s.readers - 1) (w := s.writers) hf (by omega)
    (fun _ => ⟨Nat.le_of_eq hcount, hreads⟩) (by omega) (by omega) fun u hu hasleep hp => ?_
  have hside := h.sides u hu hasleep hp
  have hok := h.pcs u hu
  cases hpc : s.pc u with
  | readSleep g count =>
      rw [hpc] at hside
      have := hside.2
      omega
  | writeSleep g count sz written =>
      rw [hpc] at hok
      obtain ⟨-, fd', hg, hmg⟩ := hok
      have := h.files.writer hg hmg
      omega
  | openRead fd' g =>
      rw [hpc] at hside
      exact hside
  | openWrite fd' g =>
      rw [hpc] at hside
      change s.readers - 1 = 0
      have : s.readers = 0 := hside
      omega
  | select ins outs exs =>
      rw [hpc] at hside
      refine ⟨fun hins => ?_, fun houts => ⟨(hside.2.1 houts).1, ?_⟩, fun hexs => ?_⟩
      · have := (hside.1 hins).2
        omega
      · -- the sleeper has a file open too
        obtain ⟨fd', g, hg, hrole⟩ := Inv.selected h hu hpc (by simp [houts])
        rcases hrole with hrole | hrole
        · have hne : f ≠ g := by
            rintro rfl
            have := h.files.shared hg hf fun he => hu (congrArg Prod.fst he)
            omega
          have := h.files.readers {f, g} fun k hk => by
            rcases Finset.mem_insert.mp hk with rfl | hk
            · exact ⟨h.files.open_ hf, hreads⟩
            · rw [Finset.mem_singleton.mp hk]
              exact ⟨h.files.open_ hg, hrole⟩
          rw [Finset.card_pair hne] at this
          change 0 < s.readers - 1
          omega
        · have := h.files.writer hg hrole
          omega
      · have := (hside.2.2 hexs).2
        omega
  | idle | readCopy | writeCopy | openPage =>
      rw [hpc] at hside
      exact hside

/-- A writer gives up in `fifo_open`, for want of a reader. -/
theorem Run.dropWriter (h : Run t nothing s) (hf : s.filp t fd = some f) (hcount : s.fCount f = 1)
    (hm : s.mode f = 2) (hr : s.readers = 0) :
    Run t nothing (Pipe.dropFile { s with writers := s.writers - 1 } t fd f) := by
  have hwrites : writes (s.mode f) := Or.inl hm
  refine h.drop (r := s.readers) (w := s.writers - 1) hf (by omega) (by omega) (by omega)
    (fun _ => ⟨Nat.le_of_eq hcount, hwrites⟩) fun u hu hasleep hp => ?_
  have hside := h.sides u hu hasleep hp
  have hok := h.pcs u hu
  cases hpc : s.pc u with
  | readSleep g count =>
      rw [hpc] at hok
      obtain ⟨fd', hg, hmg⟩ := hok
      have := h.files.reader hg hmg
      omega
  | writeSleep g count sz written =>
      rw [hpc] at hside
      have := hside.2
      omega
  | openRead fd' g =>
      rw [hpc] at hside
      refine ⟨hside.1, ?_⟩
      change s.writers - 1 = 0
      have : s.writers = 0 := hside.2
      omega
  | openWrite fd' g =>
      rw [hpc] at hside
      exact hside
  | select ins outs exs =>
      rw [hpc] at hside
      refine ⟨fun hins => ⟨(hside.1 hins).1, ?_⟩, fun houts => ?_, fun hexs => ?_⟩
      · -- the sleeper has a file open too
        obtain ⟨fd', g, hg, hrole⟩ := Inv.selected h hu hpc (by simp [hins])
        rcases hrole with hrole | hrole
        · have := h.files.reader hg hrole
          omega
        · have hne : f ≠ g := by
            rintro rfl
            have := h.files.shared hg hf fun he => hu (congrArg Prod.fst he)
            omega
          have := h.files.writers {f, g} fun k hk => by
            rcases Finset.mem_insert.mp hk with rfl | hk
            · exact ⟨h.files.open_ hf, hwrites⟩
            · rw [Finset.mem_singleton.mp hk]
              exact ⟨h.files.open_ hg, hrole⟩
          rw [Finset.card_pair hne] at this
          change 0 < s.writers - 1
          omega
      · have := (hside.2.1 houts).2
        omega
      · have := (hside.2.2 hexs).1
        omega
  | idle | readCopy | writeCopy | openPage =>
      rw [hpc] at hside
      exact hside

/-- A file is opened; it counts as a reader or a writer at once. Who sleeps in `fifo_open` for
it is on a queue that has still to be woken. -/
theorem Inv.addFile {mode r w : Nat} (h : Inv s) (iCount : Nat) (nonblock : File → Bool)
    (ht : s.asleep t = false) (hfd : fd < NR_OPEN) (hcount : s.fCount f = 0)
    (hr : reads mode → 0 < r) (hw : writes mode → 0 < w) (hm : reads mode ∨ writes mode) :
    Run t (fun q => (q = .writeWait ∧ 0 < r ∧ 0 < s.writers) ∨ (q = .readWait ∧ 0 < w ∧ 0 < s.readers))
      { s with
        iCount := iCount
        mode := Function.update s.mode f mode
        nonblock := nonblock
        fCount := Function.update s.fCount f 1
        filp := Function.update s.filp t (Function.update (s.filp t) fd (some f))
        readers := s.readers + r
        writers := s.writers + w } := by
  have hother : ∀ {u fd' g}, s.filp u fd' = some g → g ≠ f := by
    rintro u fd' g hg rfl
    have := h.files.open_ hg
    omega
  have hclaims : ∀ {role : Nat → Prop} {n k : Nat},
      (∀ F : Finset File, (∀ g ∈ F, 0 < s.fCount g ∧ role (s.mode g)) → F.card ≤ n) →
      (role mode → 0 < k) → ∀ F : Finset File,
      (∀ g ∈ F, 0 < Function.update s.fCount f 1 g ∧ role (Function.update s.mode f mode g)) →
      F.card ≤ n + k := by
    intro role n k hold hk F hF
    have hrest := hold (F.erase f) fun g hg => by
      obtain ⟨hgf, hg⟩ := Finset.mem_erase.mp hg
      have := hF g hg
      rwa [Function.update_of_ne hgf, Function.update_of_ne hgf] at this
    by_cases hfF : f ∈ F
    · have hrole := (hF f hfF).2
      rw [Function.update_self] at hrole
      have := hk hrole
      rw [Finset.card_erase_of_mem hfF] at hrest
      omega
    · rw [Finset.erase_eq_of_notMem hfF] at hrest
      omega
  refine ⟨⟨fun u fd' g hg => ?_, fun g D hD => ?_, hclaims h.files.readers hr,
    hclaims h.files.writers hw, fun g hg => ?_⟩, h.ring, ht, fun u hu => ?_,
    fun u hu hasleep hp => ?_⟩
  · dsimp only at hg
    by_cases hu : u = t
    · rw [hu, Function.update_self] at hg
      by_cases hfd' : fd' = fd
      · rw [hfd']
        exact hfd
      · rw [Function.update_of_ne hfd'] at hg
        exact h.files.fds t fd' g hg
    · rw [Function.update_of_ne hu] at hg
      exact h.files.fds u fd' g hg
  · dsimp only at hD ⊢
    have hcell : ∀ d : Task × Fd, d ≠ (t, fd) →
        Function.update s.filp t (Function.update (s.filp t) fd (some f)) d.1 d.2 = s.filp d.1 d.2 := by
      rintro ⟨u, fd'⟩ hd
      by_cases hu : u = t
      · subst hu
        have hfd' : fd' ≠ fd := fun he => hd (congrArg _ he)
        rw [Function.update_self, Function.update_of_ne hfd']
      · rw [Function.update_of_ne hu]
    have hself : Function.update s.filp t (Function.update (s.filp t) fd (some f)) t fd = some f := by
      rw [Function.update_self, Function.update_self]
    by_cases hgf : g = f
    · subst hgf
      rw [Function.update_self]
      have hsub : D ⊆ {(t, fd)} := by
        intro d hd
        by_contra hne
        rw [Finset.mem_singleton] at hne
        have := hD d hd
        rw [hcell d hne] at this
        exact hother this rfl
      simpa using Finset.card_le_card hsub
    · rw [Function.update_of_ne hgf]
      refine h.files.refs g D fun d hd => ?_
      rw [← hcell d]
      · exact hD d hd
      · rintro rfl
        have := hD _ hd
        rw [hself] at this
        exact hgf (Option.some.inj this).symm
  · dsimp only at hg ⊢
    by_cases hgf : g = f
    · rw [hgf, Function.update_self]
      exact hm
    · rw [Function.update_of_ne hgf] at hg ⊢
      exact h.files.modes g hg
  · refine (h.pcs u).congr (Function.update_of_ne hu _ _) fun fd' g hg => ⟨?_, fun hone => ?_⟩
    · exact Function.update_of_ne (hother hg) _ _
    · exact (Function.update_of_ne (hother hg) _ _).trans hone
  · have hside := h.sides u hasleep
    have hok := h.pcs u
    dsimp only at hp ⊢
    cases hpc : s.pc u with
    | readSleep g count =>
        rw [hpc] at hside
        exact ⟨hside.1, Nat.add_pos_left hside.2 w⟩
    | writeSleep g count sz written =>
        rw [hpc] at hside
        exact ⟨hside.1, Nat.add_pos_left hside.2 r⟩
    | openRead fd' g =>
        rw [hpc] at hside hok hp
        refine ⟨hside.1, ?_⟩
        change s.writers + w = 0
        have hzero : s.writers = 0 := hside.2
        by_contra hne
        have := hp .readWait (Or.inr ⟨rfl, by omega, h.files.reader hok.1 (Or.inl hok.2.2)⟩)
        cases this
    | openWrite fd' g =>
        rw [hpc] at hside hok hp
        change s.readers + r = 0
        have hzero : s.readers = 0 := hside
        by_contra hne
        have := hp .writeWait (Or.inl ⟨rfl, by omega, h.files.writer hok.1 (Or.inl hok.2.2)⟩)
        cases this
    | select ins outs exs =>
        rw [hpc] at hside
        refine ⟨fun hins => ?_, fun houts => ?_, fun hexs => ?_⟩
        · exact ⟨(hside.1 hins).1, Nat.add_pos_left (hside.1 hins).2 w⟩
        · exact ⟨(hside.2.1 houts).1, Nat.add_pos_left (hside.2.1 houts).2 r⟩
        · exact ⟨Nat.add_pos_left (hside.2.2 hexs).1 r, Nat.add_pos_left (hside.2.2 hexs).2 w⟩
    | idle | readCopy | writeCopy | openPage =>
        rw [hpc] at hside
        exact hside

/-! ### `fifo_open` -/

namespace Run

/-- What the invariant does not speak of. -/
theorem setBase (h : Run t p s) (iCount : Nat) (base : Bool) :
    Run t p { s with iCount := iCount, base := base } :=
  ⟨⟨h.files.fds, h.files.refs, h.files.readers, h.files.writers, h.files.modes⟩, h.ring, h.awake,
    fun u hu => (h.pcs u hu).congr rfl fun _ _ _ => ⟨rfl, id⟩,
    fun u hu ha hp => (h.sides u hu ha hp).congr rfl rfl rfl (fun _ => id) fun _ => id⟩

theorem iput (h : Run t p s) (hp : ¬ p .inodeWait) : Run t nothing (iput s) := by
  refine (((h.wakeUp .readWait).wakeUp .writeWait).mono fun q hq => ?_).setBase _ _
  cases q with
  | readWait => exact hq.1.2 rfl
  | writeWait => exact hq.2 rfl
  | inodeWait => exact hp hq.1.1

theorem openWake (h : Run t p s) (hr : p .readWait → 0 < s.writers)
    (hw : p .writeWait → 0 < s.readers) (hp : ¬ p .inodeWait) : Run t nothing (openWake s) := by
  unfold Pipe.openWake
  have hfirst : Run t (fun q => p q ∧ q ≠ .readWait)
      (if s.writers ≠ 0 then Pipe.wakeUp s .readWait else s) := by
    split
    · exact h.wakeUp .readWait
    · next hwriters =>
      refine h.mono fun q hq => ⟨hq, ?_⟩
      rintro rfl
      exact hwriters (Nat.pos_iff_ne_zero.mp (hr hq))
  have hreaders : (if s.writers ≠ 0 then Pipe.wakeUp s .readWait else s).readers = s.readers := by
    split <;> rfl
  dsimp only
  rw [hreaders]
  split
  · refine (hfirst.wakeUp .writeWait).mono fun q hq => ?_
    cases q with
    | readWait => exact hq.1.2 rfl
    | writeWait => exact hq.2 rfl
    | inodeWait => exact hp hq.1.1
  · next hreaders =>
    refine hfirst.mono fun q hq => ?_
    cases q with
    | readWait => exact hq.2 rfl
    | writeWait => exact hreaders (Nat.pos_iff_ne_zero.mp (hw hq.1))
    | inodeWait => exact hp hq.1

end Run

/-- The wake-ups change nothing but who is asleep. -/
theorem openWake_eq (s : State) : openWake s = { s with
    asleep := fun t => s.asleep t && !(decide (s.writers ≠ 0) && (s.pc t).on .readWait) &&
      !(decide (s.readers ≠ 0) && (s.pc t).on .writeWait) } := by
  obtain ⟨head, tail, readers, writers, _⟩ := s
  cases readers <;> cases writers <;> simp [openWake, wakeUp]

/-- Giving up a file and waking commute. -/
theorem dropFile_openWake (s : State) :
    dropFile (iput (openWake s)) t fd f = iput (openWake (dropFile s t fd f)) := by
  rw [openWake_eq, openWake_eq]
  rfl

/-- `fifo_open` fails, and leaves the state without the file. -/
theorem Run.openFail {retval : Int} (h : Run t p (Pipe.dropFile s t fd f)) (hcalm : Calm s t)
    (hret : retval ≠ 0) (hr : p .readWait → 0 < s.writers) (hw : p .writeWait → 0 < s.readers)
    (hp : ¬ p .inodeWait) : Inv (openEnd s t fd f retval) := by
  unfold openEnd openReturn
  dsimp only
  rw [if_pos (Or.inl hret), if_pos hret, dropFile_openWake]
  refine ((h.openWake hr hw hp).iput fun hq => hq).calmReturn ?_
  unfold Calm
  rw [openWake_eq]
  exact hcalm

/-- `fifo_open` succeeds, or goes on to `get_free_page`. -/
theorem Run.openDone (h : Run t p s) (hcalm : Calm s t) (hf : s.filp t fd = some f)
    (hcount : s.fCount f = 1) (hr : p .readWait → 0 < s.writers)
    (hw : p .writeWait → 0 < s.readers) (hp : ¬ p .inodeWait) : Inv (openEnd s t fd f 0) := by
  have hrun := h.openWake hr hw hp
  have hcalm' : Calm (Pipe.openWake s) t := by
    unfold Calm
    rw [openWake_eq]
    exact hcalm
  unfold openEnd openReturn
  dsimp only
  split
  · exact hrun.calmReturn hcalm'
  · have hpage : PcOk (Pipe.openWake s) t (.openPage fd f) := by
      rw [openWake_eq]
      exact ⟨hf, hcount⟩
    refine hrun.setPc hpage (fun hr => ?_) fun hw => ?_
    · rw [hcalm'.1] at hr
      cases hr
    · rw [hcalm'.2] at hw
      cases hw

theorem Run.openReadLoop (h : Run t p s) (hcalm : Calm s t) (hf : s.filp t fd = some f)
    (hcount : s.fCount f = 1) (hm : s.mode f = 1)
    (hp : ∀ q, p q → q = .writeWait ∧ 0 < s.writers) : Inv (openReadLoop s t fd f e) := by
  have hinode : ¬ p .inodeWait := fun hq => by cases (hp _ hq).1
  have hread : ¬ p .readWait := fun hq => by cases (hp _ hq).1
  unfold Pipe.openReadLoop
  split
  · exact h.openDone hcalm hf hcount (fun hq => absurd hq hread)
      (fun _ => h.files.reader hf (Or.inl hm)) hinode
  · next hnone =>
    rw [not_or, not_not, not_not] at hnone
    obtain ⟨hw, hempty⟩ := hnone
    -- without writers nobody is left to wake
    have hrun : Run t nothing s := h.mono fun q hq => by
      have := (hp q hq).2
      omega
    split
    · exact (hrun.dropReader hf hcount hm hw).openFail hcalm (by decide) (fun hq => hq.elim)
        (fun hq => hq.elim) fun hq => hq
    · exact hrun.calmSleep hcalm ⟨hf, hcount, hm⟩ ⟨(empty_iff h.ring).mp hempty, hw⟩

theorem Run.openWriteLoop (h : Run t p s) (hcalm : Calm s t) (hf : s.filp t fd = some f)
    (hcount : s.fCount f = 1) (hm : s.mode f = 2)
    (hp : ∀ q, p q → q = .readWait ∧ 0 < s.readers) : Inv (openWriteLoop s t fd f e) := by
  have hinode : ¬ p .inodeWait := fun hq => by cases (hp _ hq).1
  have hwrite : ¬ p .writeWait := fun hq => by cases (hp _ hq).1
  unfold Pipe.openWriteLoop
  split
  · exact h.openDone hcalm hf hcount (fun _ => h.files.writer hf (Or.inl hm))
      (fun hq => absurd hq hwrite) hinode
  · next hr =>
    rw [not_not] at hr
    have hrun : Run t nothing s := h.mono fun q hq => by
      have := (hp q hq).2
      omega
    split
    · exact (hrun.dropWriter hf hcount hm hr).openFail hcalm (by decide) (fun hq => hq.elim)
        (fun hq => hq.elim) fun hq => hq
    · exact hrun.calmSleep hcalm ⟨hf, hcount, hm⟩ hr

/-- A file that nobody has: its fields may be anything. -/
theorem Inv.setMode {iCount : Nat} {mode : File → Nat} {nonblock : File → Bool} (h : Inv s)
    (ht : s.asleep t = false) (hcount : s.fCount f = 0) (hmode : ∀ g, g ≠ f → mode g = s.mode g) :
    Run t nothing { s with iCount := iCount, mode := mode, nonblock := nonblock } := by
  have hold : ∀ g, 0 < s.fCount g → mode g = s.mode g := by
    intro g hg
    refine hmode g ?_
    rintro rfl
    omega
  refine ⟨⟨h.files.fds, h.files.refs, fun F hF => h.files.readers F fun g hg => ?_,
    fun F hF => h.files.writers F fun g hg => ?_, fun g hg => ?_⟩, h.ring, ht,
    fun u hu => (h.pcs u).congr rfl fun fd' g hg => ⟨hold g (h.files.open_ hg), id⟩,
    fun u hu ha _ => (h.sides u ha).congr rfl rfl rfl (fun _ => id) fun _ => id⟩
  · have := hF g hg
    rw [← hold g this.1]
    exact this
  · have := hF g hg
    rw [← hold g this.1]
    exact this
  · dsimp only
    rw [hold g hg]
    exact h.files.modes g hg

theorem Inv.sysOpen {mode : Nat} {nonblock : Bool} (h : Inv s) (hidle : s.pc t = .idle)
    (hfd : fd < NR_OPEN) (hnone : s.filp t fd = none) (hcount : s.fCount f = 0) :
    Inv (sysOpen s t fd f mode nonblock e) := by
  have ht := h.awake hidle
  have hcalm : Calm s t := by
    unfold Calm
    rw [hidle]
    exact ⟨rfl, rfl⟩
  have hmode : Function.update s.mode f mode f = mode := Function.update_self ..
  have hone : Function.update s.fCount f 1 f = 1 := Function.update_self ..
  have hfilp : Function.update s.filp t (Function.update (s.filp t) fd (some f)) t fd = some f := by
    rw [Function.update_self, Function.update_self]
  -- without the file the state is what it was
  have hfail : ∀ retval : Int, retval ≠ 0 → Inv (openEnd { s with
      iCount := s.iCount + 1
      mode := Function.update s.mode f mode
      nonblock := Function.update s.nonblock f nonblock
      fCount := Function.update s.fCount f 1
      filp := Function.update s.filp t (Function.update (s.filp t) fd (some f)) } t fd f retval) := by
    intro retval hret
    refine Run.openFail (p := nothing) ?_ hcalm hret (fun hq => hq.elim) (fun hq => hq.elim)
      fun hq => hq
    have hdrop : dropFile { s with
        iCount := s.iCount + 1
        mode := Function.update s.mode f mode
        nonblock := Function.update s.nonblock f nonblock
        fCount := Function.update s.fCount f 1
        filp := Function.update s.filp t (Function.update (s.filp t) fd (some f)) } t fd f =
        { s with
          iCount := s.iCount + 1
          mode := Function.update s.mode f mode
          nonblock := Function.update s.nonblock f nonblock } := by
      have hc : Function.update (Function.update s.fCount f 1) f
          (Function.update s.fCount f 1 f - 1) = s.fCount := by
        rw [hone, Function.update_idem, Nat.sub_self, ← hcount, Function.update_eq_self]
      have hp : Function.update (Function.update s.filp t (Function.update (s.filp t) fd (some f))) t
          (Function.update (Function.update s.filp t
            (Function.update (s.filp t) fd (some f)) t) fd none) = s.filp := by
        rw [Function.update_self, Function.update_idem, Function.update_idem, ← hnone,
          Function.update_eq_self, Function.update_eq_self]
      simp only [dropFile, hc, hp]
    rw [hdrop]
    exact h.setMode ht hcount fun g hg => Function.update_of_ne hg _ _
  unfold Pipe.sysOpen fifoOpen
  dsimp only
  rw [hmode]
  split
  · -- a reader
    have hrun := h.addFile (r := 1) (w := 0) (f := f) (s.iCount + 1)
        (Function.update s.nonblock f nonblock) ht hfd hcount
      (fun _ => Nat.one_pos) (by simp [writes]) (Or.inl (Or.inl rfl))
    have hreaders : 0 < s.readers + 1 := Nat.succ_pos _
    split
    · exact hrun.openDone hcalm hfilp hone (fun hq => by simp at hq) (fun _ => hreaders) (by simp)
    · exact hrun.openReadLoop hcalm hfilp hone (Function.update_self ..) fun q hq => by
        rcases hq with hq | hq
        · exact ⟨hq.1, hq.2.2⟩
        · exact absurd hq.2.1 (Nat.lt_irrefl 0)
  · -- a writer
    split
    · exact hfail (- ENXIO) (by decide)
    · have hrun := h.addFile (r := 0) (w := 1) (f := f) (s.iCount + 1)
        (Function.update s.nonblock f nonblock) ht hfd hcount
        (by simp [reads]) (fun _ => Nat.one_pos) (Or.inr (Or.inl rfl))
      exact hrun.openWriteLoop hcalm hfilp hone (Function.update_self ..) fun q hq => by
        rcases hq with hq | hq
        · exact absurd hq.2.1 (Nat.lt_irrefl 0)
        · exact ⟨hq.1, hq.2.2⟩
  · -- both
    have hrun := h.addFile (r := 1) (w := 1) (f := f) (s.iCount + 1)
        (Function.update s.nonblock f nonblock) ht hfd hcount
      (fun _ => Nat.one_pos) (fun _ => Nat.one_pos) (Or.inl (Or.inr rfl))
    exact hrun.openDone hcalm hfilp hone (fun _ => Nat.succ_pos _) (fun _ => Nat.succ_pos _) (by simp)
  · exact hfail (-EINVAL) (by decide)

theorem Inv.openPage (h : Inv s) (ht : s.asleep t = false) (hpc : s.pc t = .openPage fd f) :
    Inv (openPage s t fd f e) := by
  have hok := h.pcs t
  rw [hpc] at hok
  have hcalm : Calm s t := by
    unfold Calm
    rw [hpc]
    exact ⟨rfl, rfl⟩
  unfold Pipe.openPage openReturn
  split
  · exact (h.run ht).calmReturn hcalm
  · split
    · -- `-ENOMEM`: the file goes, and goes on to count
      rw [if_pos (by decide)]
      exact (((h.run ht).dropFile hok.1).iput (p := nothing) fun hq => hq).calmReturn hcalm
    · exact ((h.run ht).setBase _ true).calmReturn hcalm

/-! ### `close_fp` -/

/-- The last close of a reader, a writer or both. Who sleeps on a queue of the pipe is woken. -/
theorem Inv.releaseFile {r w : Nat} (h : Inv s) (ht : s.asleep t = false)
    (hf : s.filp t fd = some f) (hone : s.fCount f ≤ 1)
    (hr : r = s.readers ∨ r + 1 = s.readers ∧ reads (s.mode f))
    (hw : w = s.writers ∨ w + 1 = s.writers ∧ writes (s.mode f))
    (hex : r = 0 ∨ w = 0 → ∀ u exs, s.asleep u = true → s.pc u = .select [] [] exs → exs = []) :
    Run t (fun q => q ≠ .inodeWait)
      { dropFile s t fd f with readers := r, writers := w } := by
  refine (h.run ht).drop hf (by omega) (fun hlt => ⟨hone, ?_⟩) (by omega) (fun hlt => ⟨hone, ?_⟩)
    fun u hu hasleep hp => ?_
  · rcases hr with hr | hr
    · omega
    · exact hr.2
  · rcases hw with hw | hw
    · omega
    · exact hw.2
  · have hside := h.sides u hasleep
    have hon : ∀ q, q ≠ .inodeWait → (s.pc u).on q = false := fun q hq => hp q hq
    cases hpc : s.pc u with
    | select ins outs exs =>
        rw [hpc] at hon
        have hins : ins = [] := by simpa [Pc.on] using hon .readWait (by decide)
        have houts : outs = [] := by simpa [Pc.on] using hon .writeWait (by decide)
        subst hins houts
        refine ⟨fun hne => absurd rfl hne, fun hne => absurd rfl hne, fun hne => ?_⟩
        have hpos : ¬ (r = 0 ∨ w = 0) := fun hzero => hne (hex hzero u exs hasleep hpc)
        exact ⟨by change 0 < r; omega, by change 0 < w; omega⟩
    | readSleep g count | openRead fd' g =>
        have := hon .readWait (by decide)
        rw [hpc] at this
        cases this
    | writeSleep g count sz written | openWrite fd' g =>
        have := hon .writeWait (by decide)
        rw [hpc] at this
        cases this
    | idle | readCopy | writeCopy | openPage =>
        rw [hpc] at hside
        exact hside

theorem Inv.close (h : Inv s) (hidle : s.pc t = .idle)
    (hok : ∀ f, s.filp t fd = some f → s.fCount f ≤ 1 → CloseOk s f) : Inv (close s t fd) := by
  have ht := h.awake hidle
  have hcalm : Calm s t := by
    unfold Calm
    rw [hidle]
    exact ⟨rfl, rfl⟩
  unfold Pipe.close
  cases hf : s.filp t fd with
  | none => exact (h.run ht).calmReturn hcalm
  | some f =>
      dsimp only
      unfold closeFp
      split
      · exact ((h.run ht).dropFile hf).calmReturn hcalm
      · next hlast =>
        have hone : s.fCount f ≤ 1 := Nat.le_of_not_lt hlast
        have hclose := hok f hf hone
        have hnot : ¬ (Queue.inodeWait ≠ .inodeWait) := fun hq => hq rfl
        rcases h.files.mode_cases (h.files.open_ hf) with hm | hm | hm
        · have hpos := h.files.reader hf (Or.inl hm)
          have hrun := h.releaseFile (r := s.readers - 1) (w := s.writers) ht hf hone
            (Or.inr ⟨by omega, Or.inl hm⟩) (Or.inl rfl) fun hzero => by
              unfold CloseOk at hclose
              rw [hm] at hclose
              exact hclose hzero
          rw [show s.mode f = 1 from hm]
          exact ((hrun.wakeUp .writeWait).iput fun hq => hnot hq.1).calmReturn hcalm
        · have hpos := h.files.writer hf (Or.inl hm)
          have hrun := h.releaseFile (r := s.readers) (w := s.writers - 1) ht hf hone
            (Or.inl rfl) (Or.inr ⟨by omega, Or.inl hm⟩) fun hzero => by
              unfold CloseOk at hclose
              rw [hm] at hclose
              exact hclose hzero
          rw [show s.mode f = 2 from hm]
          exact ((hrun.wakeUp .readWait).iput fun hq => hnot hq.1).calmReturn hcalm
        · have hposr := h.files.reader hf (Or.inr hm)
          have hposw := h.files.writer hf (Or.inr hm)
          have hrun := h.releaseFile (r := s.readers - 1) (w := s.writers - 1) ht hf hone
            (Or.inr ⟨by omega, Or.inr hm⟩) (Or.inr ⟨by omega, Or.inr hm⟩) fun hzero => by
              unfold CloseOk at hclose
              rw [hm] at hclose
              exact hclose hzero
          rw [show s.mode f = 3 from hm]
          exact (((hrun.wakeUp .readWait).wakeUp .writeWait).iput fun hq => hnot hq.1.1).calmReturn
            hcalm

/-! ### `sys_fork` -/

theorem Inv.fork {c : Task} (h : Inv s) (hidle : s.pc t = .idle) (hc : s.pc c = .idle)
    (hnone : ∀ fd < NR_OPEN, s.filp c fd = none) : Inv (Pipe.fork s t c) where
  files := h.files.fork hnone
  ring := h.ring
  pcs u := by
    have hok := h.pcs u
    change PcOk _ u (s.pc u)
    by_cases hu : s.pc u = .idle
    · rw [hu]
      trivial
    · have huc : u ≠ c := by
        rintro rfl
        exact hu hc
      have hut : u ≠ t := by
        rintro rfl
        exact hu hidle
      refine hok.congr (Function.update_of_ne huc _ _) fun fd' g hg => ⟨rfl, fun hone => ?_⟩
      change s.fCount g + _ = 1
      rw [hone, Nat.add_eq_left, List.countP_eq_zero]
      intro fd'' _ hfd''
      have := h.files.shared hg (of_decide_eq_true hfd'') fun he => hut (congrArg Prod.fst he)
      omega
  sides u ha := (h.sides u ha).congr rfl rfl rfl (fun _ => id) fun _ => id

end LinuxKernel.V098.Fs.Pipe
