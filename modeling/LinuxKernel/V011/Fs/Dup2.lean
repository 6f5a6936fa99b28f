import LinuxKernel.V011.Fs.FileTableAgree

/-!
# LinuxKernel.V011.Fs.Dup2

Is **`dup2` all or nothing**? `sys_dup2` of `fs/fcntl.c` closes `newfd` before
it looks at `oldfd`, so where the call fails the descriptor is gone.

- `Closed` is what `sys_close` does to a table of any kind, consistent or not.
- `dupfd` from `newfd` on finds `newfd` itself, which has just been closed.
-/

namespace LinuxKernel.V011.Fs.FileTable

variable {s s' : State} {t : Fin NR_TASKS} {k : Task} {oldfd newfd : Nat} {r : State × Int}

/-- The open file of a descriptor, `none` for what is no descriptor. -/
def Task.fileAt (k : Task) (fd : Nat) : Option (Fin NR_FILE) :=
  if h : fd < NR_OPEN then k.filp ⟨fd, h⟩ else none

/-- The descriptors, their bits and all file counts are as they were. -/
structure Untouched (s s' : State) : Prop where
  filp : ∀ u, (s'.task u).filp = (s.task u).filp
  closeOnExec : ∀ u, (s'.task u).closeOnExec = (s.task u).closeOnExec
  count : ∀ f, (s'.file f).fCount = (s.file f).fCount

/-- `newfd` of task `t` is what `oldfd` was. -/
structure Moved (t : Fin NR_TASKS) (oldfd newfd : Nat) (s s' : State) : Prop where
  file : (s.task t).fileAt oldfd ≠ none ∧ (s'.task t).fileAt newfd = (s.task t).fileAt oldfd
  others : ∀ u fd, u ≠ t ∨ fd ≠ newfd → (s'.task u).fileAt fd = (s.task u).fileAt fd ∧
    (s'.task u).closeOnExec.getLsbD fd = (s.task u).closeOnExec.getLsbD fd
  /-- What was at `newfd` has lost a reference, what is there now has gained one. -/
  count : ∀ f, (s'.file f).fCount + (if (s.task t).fileAt newfd = some f then 1 else 0) =
    (s.file f).fCount + if (s'.task t).fileAt newfd = some f then 1 else 0

/-- A failed call has changed nothing, a successful one has moved the descriptor. -/
def AllOrNothing (t : Fin NR_TASKS) (oldfd newfd : Nat) (s : State) (r : State × Int) : Prop :=
  (r.2 < 0 → Untouched s r.1) ∧ (0 ≤ r.2 → Moved t oldfd newfd s r.1)

/-- The call succeeds, or there is nothing to close. -/
def Harmless (k : Task) (oldfd newfd : Nat) : Prop :=
  k.fileAt oldfd ≠ none ∧ oldfd ≠ newfd ∨ NR_OPEN ≤ newfd ∨
    k.fileAt newfd = none ∧ k.closeOnExec.getLsbD newfd = false

/-! ### The table of a task -/

theorem fileAt_of_lt (k : Task) (fd : Fin NR_OPEN) : k.fileAt fd.val = k.filp fd := dif_pos fd.isLt

theorem fileAt_of_update {k' : Task} {fd : Fin NR_OPEN} {v : Option (Fin NR_FILE)}
    (h : k'.filp = Function.update k.filp fd v) (n : Nat) :
    k'.fileAt n = if n = fd.val then v else k.fileAt n := by
  unfold Task.fileAt
  split
  · rw [h, Function.update_apply]
    exact if_congr Fin.ext_iff rfl rfl
  · rw [if_neg]
    have := fd.isLt
    omega

theorem Untouched.refl (s : State) : Untouched s s := ⟨fun _ => rfl, fun _ => rfl, fun _ => rfl⟩

/-! ### `sys_close` -/

/-- Descriptor `fd` of task `t` is closed. -/
structure Closed (t : Fin NR_TASKS) (fd : Fin NR_OPEN) (s s' : State) : Prop where
  filp : (s'.task t).filp = Function.update (s.task t).filp fd none
  bits : ∀ b, (s'.task t).closeOnExec.getLsbD b =
    ((s.task t).closeOnExec.getLsbD b && !decide (b = fd.val))
  others : ∀ u, u ≠ t → s'.task u = s.task u
  count : ∀ f, (s'.file f).fCount + (if (s.task t).filp fd = some f then 1 else 0) =
    (s.file f).fCount

theorem iput_same {v : Option Ino} (h : iput s v = .next s') :
    s'.task = s.task ∧ s'.file = s.file := by
  cases v with
  | none =>
      obtain rfl := Outcome.next.inj h
      exact ⟨rfl, rfl⟩
  | some i =>
      rw [iput] at h
      split at h
      · cases h
      · obtain rfl := Outcome.next.inj h
        exact ⟨rfl, rfl⟩

theorem closeFd_closed {fd : Fin NR_OPEN} (h : closeFd s t fd = .next r) : Closed t fd s r.1 := by
  unfold closeFd at h
  dsimp only at h
  cases hfd : ((s.task t).clearCloexec fd).filp fd with
  | none =>
      rw [hfd] at h
      obtain rfl := Outcome.next.inj h
      have hfd' : (s.task t).filp fd = none := hfd
      refine ⟨?_, fun b => ?_, fun u hu => Function.update_of_ne hu _ _, fun f => ?_⟩
      · rw [setTask_task, Function.update_self, clearCloexec_filp, ← hfd', Function.update_eq_self]
      · rw [setTask_task, Function.update_self]
        exact clearCloexec_getLsbD _ _ _
      · rw [hfd', if_neg (Option.some_ne_none f).symm, setTask_file, Nat.add_zero]
  | some f =>
      have hfd' : (s.task t).filp fd = some f := hfd
      rw [hfd] at h
      dsimp only at h
      rw [setTask_file] at h
      split at h
      · cases h
      next hpos =>
      set s₁ := setCount (setTask s t (((s.task t).clearCloexec fd).setFilp fd none)) f
        ((s.file f).fCount - 1)
      have hclosed : Closed t fd s s₁ := by
        refine ⟨?_, fun b => ?_, fun u hu => Function.update_of_ne hu _ _, fun g => ?_⟩
        · rw [setCount_task, setTask_task, Function.update_self]
          rfl
        · rw [setCount_task, setTask_task, Function.update_self]
          exact clearCloexec_getLsbD _ _ _
        · rw [setCount_file, hfd', Function.update_apply, setTask_file]
          by_cases hg : g = f
          · rw [if_pos hg, if_pos (congrArg some hg.symm), hg]
            exact Nat.succ_pred_eq_of_ne_zero hpos
          · rw [if_neg hg, if_neg fun he => hg (Option.some.inj he).symm, Nat.add_zero]
      split at h
      · obtain rfl := Outcome.next.inj h
        exact hclosed
      · obtain ⟨s₂, hput, hs⟩ := Outcome.bind_eq_next h
        obtain rfl := Outcome.next.inj hs
        obtain ⟨htask, hfile⟩ := iput_same hput
        refine ⟨?_, ?_, ?_, ?_⟩
        · rw [htask]
          exact hclosed.filp
        · rw [htask]
          exact hclosed.bits
        · rw [htask]
          exact hclosed.others
        · rw [hfile]
          exact hclosed.count

/-- Nothing is lost exactly where nothing was open, and the bit was clear. -/
theorem Closed.untouched_iff {fd : Fin NR_OPEN} (h : Closed t fd s s') :
    Untouched s s' ↔
      (s.task t).filp fd = none ∧ (s.task t).closeOnExec.getLsbD fd.val = false := by
  constructor
  · intro hsame
    constructor
    · rw [← hsame.filp t, h.filp, Function.update_self]
    · rw [← hsame.closeOnExec t, h.bits, decide_eq_true rfl, Bool.not_true, Bool.and_false]
  · rintro ⟨hfree, hbit⟩
    have htask : ∀ u, (s'.task u).filp = (s.task u).filp ∧
        (s'.task u).closeOnExec = (s.task u).closeOnExec := by
      intro u
      by_cases hu : u = t
      · subst hu
        refine ⟨by rw [h.filp, ← hfree, Function.update_eq_self], ?_⟩
        refine BitVec.eq_of_getLsbD_eq fun b _ => ?_
        rw [h.bits]
        by_cases hb : b = fd.val
        · rw [hb, hbit, Bool.false_and]
        · rw [decide_eq_false hb, Bool.not_false, Bool.and_true]
      · rw [h.others u hu]
        exact ⟨rfl, rfl⟩
    refine ⟨fun u => (htask u).1, fun u => (htask u).2, fun f => ?_⟩
    have hcount := h.count f
    rwa [hfree, if_neg (Option.some_ne_none f).symm, Nat.add_zero] at hcount

/-! ### `dupfd` -/

theorem dupfd_of_none {fd arg : Nat} (h : (s.task t).fileAt fd = none) :
    dupfd s t fd arg = .next (s, -EBADF) := by
  unfold Task.fileAt at h
  rw [dupfd, h]

theorem dupfd_of_le (s : State) (t : Fin NR_TASKS) (fd : Nat) {arg : Nat} (h : NR_OPEN ≤ arg) :
    ∃ e, e < 0 ∧ dupfd s t fd arg = .next (s, e) := by
  cases hfd : (s.task t).fileAt fd with
  | none => exact ⟨-EBADF, by decide, dupfd_of_none hfd⟩
  | some f =>
      unfold Task.fileAt at hfd
      refine ⟨-EINVAL, by decide, ?_⟩
      rw [dupfd, hfd]
      exact if_pos h

/-- The search ends where it starts. -/
theorem find?_free {fd : Fin NR_OPEN} (h : k.filp fd = none) :
    ((List.finRange NR_OPEN).find? fun i => fd.val ≤ i.val && (k.filp i).isNone) = some fd := by
  refine List.find?_eq_some_iff_getElem.mpr ⟨?_, fd.val, ?_, ?_, fun j hj => ?_⟩
  · rw [h, decide_eq_true (Nat.le_refl _)]
    rfl
  · rw [List.length_finRange]
    exact fd.isLt
  · rw [List.getElem_finRange]
    rfl
  · rw [List.getElem_finRange, Fin.val_cast, decide_eq_false (Nat.not_le.mpr hj)]
    rfl

theorem dupfd_of_free {fd : Nat} {arg : Fin NR_OPEN} {f : Fin NR_FILE}
    (hfd : (s.task t).fileAt fd = some f) (harg : (s.task t).filp arg = none) :
    dupfd s t fd arg.val = .next (setCount (setTask s t
      (((s.task t).clearCloexec arg).setFilp arg (some f))) f ((s.file f).fCount + 1), arg.val) := by
  unfold Task.fileAt at hfd
  rw [dupfd, hfd]
  dsimp only
  rw [if_neg (Nat.not_le.mpr arg.isLt), find?_free harg]

/-- A closed descriptor that gets the file of another one. -/
theorem Closed.moved {fd : Fin NR_OPEN} {f : Fin NR_FILE} (h : Closed t fd s s')
    (hold : (s.task t).fileAt oldfd = some f) :
    Moved t oldfd fd.val s (setCount (setTask s' t
      (((s'.task t).clearCloexec fd).setFilp fd (some f))) f ((s'.file f).fCount + 1)) := by
  have hfilp : (((s'.task t).clearCloexec fd).setFilp fd (some f)).filp =
      Function.update (s.task t).filp fd (some f) := by
    rw [setFilp_filp, clearCloexec_filp, h.filp, Function.update_idem]
  have hnew := fileAt_of_update hfilp fd.val
  rw [if_pos rfl] at hnew
  refine ⟨⟨hold ▸ Option.some_ne_none f, ?_⟩, fun u n hun => ?_, fun g => ?_⟩
  · rw [setCount_task, setTask_task, Function.update_self, hnew, hold]
  · rw [setCount_task, setTask_task]
    by_cases hu : u = t
    · subst hu
      have hn : n ≠ fd.val := hun.resolve_left fun hc => hc rfl
      rw [Function.update_self, fileAt_of_update hfilp, if_neg hn, setFilp_closeOnExec,
        clearCloexec_getLsbD, h.bits, decide_eq_false hn, Bool.not_false, Bool.and_true,
        Bool.and_true]
      exact ⟨rfl, rfl⟩
    · rw [Function.update_of_ne hu, h.others u hu]
      exact ⟨rfl, rfl⟩
  · rw [setCount_task, setTask_task, Function.update_self, hnew, setCount_file,
      Function.update_apply, setTask_file, fileAt_of_lt, ← h.count g]
    by_cases hg : g = f
    · rw [if_pos hg, if_pos (congrArg some hg.symm), hg]
      dsimp only
      omega
    · rw [if_neg hg, if_neg fun he => hg (Option.some.inj he).symm]
      rfl

/-! ### `sys_dup2` -/

theorem closeFd_next (h : Tables s) (t : Fin NR_TASKS) (fd : Fin NR_OPEN) :
    ∃ r, closeFd s t fd = .next r := by
  unfold closeFd
  dsimp only
  cases hfd : ((s.task t).clearCloexec fd).filp fd with
  | none => exact ⟨_, rfl⟩
  | some f =>
      have hslot : s.slot (t, fd) = some f := hfd
      have hpos : (s.file f).fCount ≠ 0 := h.ok.count_pos hslot
      obtain ⟨i, hi⟩ := (h.ok.target f).mp hpos
      have hinode : (s.file f).fInode = some i := by
        have hopen : s.openInode f = some i := hi
        rwa [State.openInode, if_neg hpos] at hopen
      dsimp only
      rw [setTask_file, if_neg hpos]
      split
      · exact ⟨_, rfl⟩
      · rw [setCount_file, Function.update_self]
        dsimp only
        rw [setTask_file, hinode, iput, if_neg (by exact h.ok.refCount_pos hi)]
        exact ⟨_, rfl⟩

theorem dupfd_next (s : State) (t : Fin NR_TASKS) (fd arg : Nat) :
    ∃ r, dupfd s t fd arg = .next r := by
  cases hfd : (s.task t).fileAt fd with
  | none => exact ⟨_, dupfd_of_none hfd⟩
  | some f =>
      unfold Task.fileAt at hfd
      rw [dupfd, hfd]
      dsimp only
      split
      · exact ⟨_, rfl⟩
      · split
        · exact ⟨_, rfl⟩
        · exact ⟨_, rfl⟩

/-- Consistent tables let the call return. -/
theorem sysDup2_next (h : Tables s) (t : Fin NR_TASKS) (oldfd newfd : Nat) :
    ∃ r, sysDup2 s t oldfd newfd = .next r := by
  obtain ⟨r, hr⟩ : ∃ r, sysClose s t newfd = .next r := by
    unfold sysClose
    split
    next hfd => exact closeFd_next h t ⟨newfd, hfd⟩
    · exact ⟨_, rfl⟩
  rw [sysDup2, hr]
  exact dupfd_next _ t oldfd newfd

/-- **`dup2` is all or nothing** exactly where the call succeeds, or has nothing to close. -/
theorem allOrNothing_iff (s : State) (t : Fin NR_TASKS) (oldfd newfd : Nat) :
    (Tables s → ∃ r, sysDup2 s t oldfd newfd = .next r) ∧
      ∀ r, sysDup2 s t oldfd newfd = .next r →
        (AllOrNothing t oldfd newfd s r ↔ Harmless (s.task t) oldfd newfd) := by
  refine ⟨fun h => sysDup2_next h t oldfd newfd, fun r h => ?_⟩
  obtain ⟨⟨s₁, e⟩, hclose, hdup⟩ := Outcome.bind_eq_next h
  dsimp only at hdup
  by_cases hnew : NR_OPEN ≤ newfd
  · rw [sysClose, dif_neg (Nat.not_lt.mpr hnew)] at hclose
    obtain ⟨rfl, -⟩ := Prod.mk.inj (Outcome.next.inj hclose)
    obtain ⟨e, he, hr⟩ := dupfd_of_le s t oldfd hnew
    obtain rfl := Outcome.next.inj (hr.symm.trans hdup)
    exact iff_of_true ⟨fun _ => .refl s, fun hc => absurd he (Int.not_lt.mpr hc)⟩ (.inr (.inl hnew))
  · obtain ⟨fd, rfl⟩ : ∃ fd : Fin NR_OPEN, fd.val = newfd := ⟨⟨newfd, Nat.not_le.mp hnew⟩, rfl⟩
    rw [sysClose, dif_pos fd.isLt] at hclose
    have hclosed : Closed t fd s s₁ := closeFd_closed hclose
    have hopen := fileAt_of_update hclosed.filp oldfd
    by_cases hold : (s.task t).fileAt oldfd ≠ none ∧ oldfd ≠ fd.val
    · obtain ⟨f, hf⟩ := Option.ne_none_iff_exists'.mp hold.1
      rw [if_neg hold.2, hf] at hopen
      have hfree : (s₁.task t).filp fd = none := by rw [hclosed.filp, Function.update_self]
      rw [dupfd_of_free hopen hfree] at hdup
      obtain rfl := Outcome.next.inj hdup
      refine iff_of_true ⟨fun hc => ?_, fun _ => hclosed.moved hf⟩ (.inl hold)
      exact absurd hc (Int.not_lt.mpr (Int.natCast_nonneg _))
    · have hnone : (s₁.task t).fileAt oldfd = none := by
        rw [hopen]
        split
        · rfl
        next hne => exact not_not.mp fun hc => hold ⟨hc, hne⟩
      rw [dupfd_of_none hnone] at hdup
      obtain rfl := Outcome.next.inj hdup
      have hneg : -EBADF < 0 := by decide
      rw [AllOrNothing, Harmless, or_iff_right hold, or_iff_right hnew, fileAt_of_lt,
        ← hclosed.untouched_iff]
      exact ⟨fun hc => hc.1 hneg, fun hc => ⟨fun _ => hc, fun hp => absurd hneg (Int.not_lt.mpr hp)⟩⟩

/-- Task 1 has opened a file. -/
def oneOpen : State :=
  (run step initial [(1, .open (rootPath (some 3)) 2 plainAnswers .other)]).get initial

/-- `dup2(5, 0)`, where only descriptor 0 is open, fails and closes it. -/
theorem not_allOrNothing :
    ¬ ∀ s t oldfd newfd r, sysDup2 s t oldfd newfd = .next r → AllOrNothing t oldfd newfd s r := by
  intro hall
  have hopen : (oneOpen.task 1).filp 0 = some 0 := by decide
  obtain ⟨r, hr, herr, hclosed⟩ : ∃ r, sysDup2 oneOpen 1 5 0 = .next r ∧ r.2 < 0 ∧
      (r.1.task 1).filp 0 = none := ⟨_, rfl, by decide, by decide⟩
  have hfilp := ((hall oneOpen 1 5 0 r hr).1 herr).filp 1
  rw [congrFun hfilp 0, hopen] at hclosed
  cases hclosed

end LinuxKernel.V011.Fs.FileTable
