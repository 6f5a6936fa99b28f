import LinuxKernel.V011.Fs.FileTable

/-!
# LinuxKernel.V011.Fs.FileTableAgree

**The tables agree**: after every call, also after one that fails, the counts
are the numbers of what points to a file or an inode, and `close_on_exec` is
for open descriptors.

- The walks over a path hold references for a while (`Extra`), and give all back
  but the one for the result.
- The tables are `Handles`; a call makes one of their moves, or two.
-/

namespace LinuxKernel.V011.Fs.FileTable

/-- The only panic is for want of inodes. -/
def NoInodes (msg : String) : Prop := msg = "No free inodes in mem"

/-! ### Paths -/

/-- `s'` is `s` with one more reference to each of the inodes of `l`. -/
structure Extra (s s' : State) (l : List Ino) : Prop where
  same : s' = { s with iCount := s'.iCount }
  count : ∀ j, s'.iCount j = s.iCount j + l.count j

variable {s s' : State} {t : Fin NR_TASKS} {l : List Ino} {i : Ino} {k : Task}

theorem Extra.refl (s : State) : Extra s s [] := ⟨rfl, fun _ => rfl⟩

/-- Only `i_count` differs. -/
theorem Extra.setInode (h : Extra s s' l) {l' : List Ino} (n : Nat)
    (hi : n = s.iCount i + l'.count i) (hj : ∀ j, j ≠ i → l'.count j = l.count j) :
    Extra s (setInode s' i n) l' where
  same := by
    rw [FileTable.setInode, h.same]
  count j := by
    change Function.update s'.iCount i n j = _
    rw [Function.update_apply]
    split
    · next he => rw [he, hi]
    · next he => rw [h.count, hj j he]

theorem Extra.get (h : Extra s s' l) (i : Ino) :
    Extra s (FileTable.setInode s' i (s'.iCount i + 1)) (i :: l) := by
  refine h.setInode _ ?_ fun j hj => List.count_cons_of_ne hj.symm
  rw [h.count, List.count_cons_self]
  rfl

theorem iput_extra (h : Extra s s' (i :: l)) :
    (iput s' (some i)).Ends NoInodes fun s'' => Extra s s'' l := by
  have hcount := h.count i
  rw [List.count_cons_self] at hcount
  rw [iput, if_neg (by omega)]
  exact h.setInode _ (by omega) fun j hj => (List.count_cons_of_ne hj.symm).symm

theorem iget_extra (h : Extra s s' l) (i : Ino) :
    (iget s' i).Ends NoInodes fun s'' => Extra s s'' (i :: l) := by
  unfold iget
  split
  · exact rfl
  · exact h.get i

theorem getEmptyInode_extra (h : Extra s s' l) (i : Ino) :
    (getEmptyInode s' i).Ends NoInodes fun s'' =>
      Extra s s'' (i :: l) ∧ s'.iCount i = 0 ∧ s''.iCount i = 1 := by
  unfold getEmptyInode
  split
  · exact rfl
  · split
    · next hi =>
        have hget := h.get i
        rw [hi] at hget
        exact ⟨hget, hi, Function.update_self i 1 s'.iCount⟩
    · exact True.intro

theorem newInode_extra (h : Extra s s' l) (i : Ino) (room : Bool) :
    (newInode s' i room).Ends NoInodes fun r => Extra s r.1 (r.2.toList ++ l) := by
  refine (getEmptyInode_extra h i).bind fun s'' hs => ?_
  split
  · exact hs.1
  · exact (iput_extra hs.1).bind fun s₃ hs => hs

theorem findEntry_extra (h : Extra s s' [i]) (e : Entry) :
    (findEntry s' i e).Ends NoInodes fun r => Extra s r.1 [r.2] := by
  unfold findEntry
  split
  · exact h
  · next m _ => exact (iput_extra h).bind fun s'' hs => hs.get m

theorem lookup_extra (h : Extra s s' [i]) (e : Entry) :
    (lookup s' i e).Ends NoInodes fun r => Extra s r.1 r.2.toList := by
  refine (findEntry_extra h e).bind fun r hr => ?_
  refine (iput_extra hr).bind fun s'' hs => ?_
  split
  · exact hs
  · next j _ => exact (iget_extra hs j).bind fun s₃ hs => hs

theorem walkDirs_extra (cs : List Comp) (h : Extra s s' [i]) :
    (walkDirs s' i cs).Ends NoInodes fun r => Extra s r.1 r.2.toList := by
  induction cs generalizing s' i with
  | nil => exact h
  | cons c cs ih =>
      rw [walkDirs]
      split
      · refine (lookup_extra h c.entry).bind fun r hr => ?_
        cases hj : r.2 with
        | none =>
            rw [hj] at hr
            exact hr
        | some j =>
            rw [hj] at hr
            exact ih hr
      · exact (iput_extra h).bind fun s'' hs => hs

/-- A task whose directories are there. -/
structure AtHome (s : State) (k : Task) : Prop where
  root : ∃ i, k.root = some i ∧ s.iCount i ≠ 0
  pwd : ∃ i, k.pwd = some i ∧ s.iCount i ≠ 0

theorem AtHome.extra (h : AtHome s k) (he : Extra s s' l) : AtHome s' k := by
  obtain ⟨⟨i, hi, hci⟩, j, hj, hcj⟩ := h
  have := he.count i
  have := he.count j
  exact ⟨⟨i, hi, by omega⟩, j, hj, by omega⟩

theorem getDir_extra (h : AtHome s k) (path : Path) :
    (getDir s k path).Ends NoInodes fun r => Extra s r.1 r.2.toList := by
  obtain ⟨⟨i, hi, hci⟩, j, hj, hcj⟩ := h
  unfold getDir
  rw [hi, hj]
  dsimp only
  rw [if_neg hci, if_neg hcj]
  split
  · exact Extra.refl s
  · refine (walkDirs_extra path.dirs ((Extra.refl s).get _)).bind fun r hr => ?_
    cases hd : r.2 with
    | none =>
        rw [hd] at hr
        exact hr
    | some dir =>
        rw [hd] at hr
        dsimp only
        split
        · exact hr
        · exact (iput_extra hr).bind fun s'' hs => hs

theorem namei_extra (h : AtHome s k) (path : Path) :
    (namei s k path).Ends NoInodes fun r => Extra s r.1 r.2.toList := by
  refine (getDir_extra h path).bind fun r hr => ?_
  cases hd : r.2 with
  | none =>
      rw [hd] at hr
      exact hr
  | some dir =>
      rw [hd] at hr
      cases path.last with
      | none => exact hr
      | some e => exact lookup_extra hr e

/-- The result of `open_namei` is an error, or an inode with a reference. -/
def Opened (s : State) (r : State × (Int ⊕ Ino)) : Prop :=
  match r.2 with
  | .inl err => Extra s r.1 [] ∧ err < 0
  | .inr i => Extra s r.1 [i]

theorem createNamei_opened (h : Extra s s' [i]) (flag : BitVec 32) (a : Answers) :
    (createNamei s' i flag a).Ends NoInodes (Opened s) := by
  unfold createNamei
  split
  · exact (iput_extra h).bind fun s'' hs => ⟨hs, by decide⟩
  · split
    · exact (iput_extra h).bind fun s'' hs => ⟨hs, by decide⟩
    · refine (newInode_extra h a.new a.room).bind fun r hr => ?_
      cases hn : r.2 with
      | none =>
          rw [hn] at hr
          exact (iput_extra hr).bind fun s'' hs => ⟨hs, by decide⟩
      | some inode =>
          rw [hn] at hr
          dsimp only
          split
          · have hswap : Extra s r.1 (i :: [inode]) := by
              refine ⟨hr.same, fun j => ?_⟩
              rw [hr.count]
              exact congrArg _ ((List.Perm.swap i inode []).count_eq j)
            exact (iput_extra hswap).bind fun s'' hs => hs
          · exact (iput_extra hr).bind fun s'' hs =>
              (iput_extra hs).bind fun s₃ hs => ⟨hs, by decide⟩

theorem existingNamei_opened (h : Extra s s' [i]) (inode : Ino) (flag : BitVec 32)
    (a : Answers) : (existingNamei s' i inode flag a).Ends NoInodes (Opened s) := by
  refine (iput_extra h).bind fun s'' hs => ?_
  split
  · exact ⟨hs, by decide⟩
  · refine (iget_extra hs inode).bind fun s₃ hs => ?_
    split
    · exact (iput_extra hs).bind fun s₄ hs => ⟨hs, by decide⟩
    · exact hs

/-- `open_namei` gives back what it has got, but for the inode it has opened. -/
theorem openNamei_opened (h : AtHome s k) (path : Path) (flag : BitVec 32) (a : Answers) :
    (openNamei s k path flag a).Ends NoInodes (Opened s) := by
  refine (getDir_extra h path).bind fun r hr => ?_
  cases hd : r.2 with
  | none =>
      rw [hd] at hr
      exact ⟨hr, by decide⟩
  | some dir =>
      rw [hd] at hr
      cases path.last with
      | none =>
          dsimp only
          split
          · exact hr
          · exact (iput_extra hr).bind fun s'' hs => ⟨hs, by decide⟩
      | some e =>
          refine (findEntry_extra hr e).bind fun r hr => ?_
          cases e.inode with
          | none => exact createNamei_opened hr _ a
          | some inode => exact existingNamei_opened hr inode _ a

/-! ### The tables as handles -/

def handles (s : State) : Handles (Fin NR_TASKS × Fin NR_OPEN) (Fin NR_FILE) Ino where
  slot := s.slot
  count := fun f => (s.file f).fCount
  target := s.openInode
  refCount := s.iCount
  other := s.otherRefs

/-- Bits of `close_on_exec` are for open descriptors. -/
def CloexecOk (k : Task) : Prop :=
  ∀ b, k.closeOnExec.getLsbD b = true → ∃ fd : Fin NR_OPEN, fd.val = b ∧ k.filp fd ≠ none

structure Tables (s : State) : Prop where
  ok : (handles s).Ok
  cloexec : ∀ t, CloexecOk (s.task t)

/-- A call of task `t` leaves the other tasks alone, and where the task is. -/
structure Kept (t : Fin NR_TASKS) (s s' : State) : Prop where
  others : ∀ u, u ≠ t → s'.task u = s.task u
  status : (s'.task t).status = (s.task t).status
  pwd : (s'.task t).pwd = (s.task t).pwd
  root : (s'.task t).root = (s.task t).root
  base : s'.base = s.base

theorem Kept.trans {s'' : State} (h : Kept t s s') (h' : Kept t s' s'') : Kept t s s'' where
  others u hu := (h'.others u hu).trans (h.others u hu)
  status := h'.status.trans h.status
  pwd := h'.pwd.trans h.pwd
  root := h'.root.trans h.root
  base := h'.base.trans h.base

/-- As `Kept`, and the executable is the same. -/
structure Same (t : Fin NR_TASKS) (s s' : State) : Prop extends Kept t s s' where
  executable : (s'.task t).executable = (s.task t).executable

theorem Same.refl (t : Fin NR_TASKS) (s : State) : Same t s s :=
  ⟨⟨fun _ _ => rfl, rfl, rfl, rfl, rfl⟩, rfl⟩

theorem Same.trans {s'' : State} (h : Same t s s') (h' : Same t s' s'') : Same t s s'' :=
  ⟨h.toKept.trans h'.toKept, h'.executable.trans h.executable⟩

theorem Same.otherRefs (h : Same t s s') : s'.otherRefs = s.otherRefs := by
  have hpwd : ∀ u, (s'.task u).pwd = (s.task u).pwd := fun u => by
    by_cases hu : u = t
    · rw [hu, h.pwd]
    · rw [h.others u hu]
  have hroot : ∀ u, (s'.task u).root = (s.task u).root := fun u => by
    by_cases hu : u = t
    · rw [hu, h.root]
    · rw [h.others u hu]
  have hexec : ∀ u, (s'.task u).executable = (s.task u).executable := fun u => by
    by_cases hu : u = t
    · rw [hu, h.executable]
    · rw [h.others u hu]
  funext i
  simp only [State.otherRefs, hpwd, hroot, hexec, h.base]

theorem openInode_congr {f : Fin NR_FILE} (hcount : (s'.file f).fCount = (s.file f).fCount)
    (hinode : (s'.file f).fInode = (s.file f).fInode) : s'.openInode f = s.openInode f := by
  rw [State.openInode, State.openInode, hcount, hinode]

theorem slot_of_filp (hothers : ∀ u, u ≠ t → s'.task u = s.task u)
    (hfilp : (s'.task t).filp = (s.task t).filp) : s'.slot = s.slot := by
  funext x
  change (s'.task x.1).filp x.2 = (s.task x.1).filp x.2
  by_cases hx : x.1 = t
  · rw [hx, hfilp]
  · rw [hothers x.1 hx]

/-- One descriptor is set to `v`. -/
theorem slot_of_update {fd : Fin NR_OPEN} {v : Option (Fin NR_FILE)}
    (hothers : ∀ u, u ≠ t → s'.task u = s.task u)
    (hfilp : (s'.task t).filp = Function.update (s.task t).filp fd v) :
    s'.slot (t, fd) = v ∧ ∀ y, y ≠ (t, fd) → s'.slot y = s.slot y := by
  refine ⟨?_, fun y hy => ?_⟩
  · change (s'.task t).filp fd = v
    rw [hfilp, Function.update_self]
  · change (s'.task y.1).filp y.2 = (s.task y.1).filp y.2
    by_cases ht : y.1 = t
    · have hfd : y.2 ≠ fd := fun hfd => hy (Prod.ext ht hfd)
      rw [ht, hfilp, Function.update_of_ne hfd]
    · rw [hothers y.1 ht]

theorem cloexec_of_others (h : ∀ u, CloexecOk (s.task u))
    (hothers : ∀ u, u ≠ t → s'.task u = s.task u) (ht : CloexecOk (s'.task t))
    (u : Fin NR_TASKS) : CloexecOk (s'.task u) := by
  by_cases hu : u = t
  · rw [hu]
    exact ht
  · rw [hothers u hu]
    exact h u

namespace Tables

/-- Nothing that counts has changed. -/
theorem congr (h : Tables s) (hs : Same t s s') (hfilp : (s'.task t).filp = (s.task t).filp)
    (hfile : ∀ f, (s'.file f).fCount = (s.file f).fCount ∧ (s'.file f).fInode = (s.file f).fInode)
    (hcount : ∀ i, s'.iCount i = s.iCount i) (hclo : CloexecOk (s'.task t)) : Tables s' where
  ok := by
    refine h.ok.others (slot_of_filp hs.others hfilp) (funext fun f => (hfile f).1)
      (funext fun f => openInode_congr (hfile f).1 (hfile f).2) fun i => ?_
    change s'.iCount i + s.otherRefs i = s.iCount i + s'.otherRefs i
    rw [hcount, hs.otherRefs]
  cloexec := cloexec_of_others h.cloexec hs.others hclo

/-- A descriptor and a file have been taken for `inode`. -/
theorem opened (fd : Fin NR_OPEN) {f : Fin NR_FILE} (h : Tables s) (hs : Same t s s')
    (hfd : (s.task t).filp fd = none) (hf : (s.file f).fCount = 0)
    (hfilp : (s'.task t).filp = Function.update (s.task t).filp fd (some f))
    (hfile : ∀ g, g ≠ f → s'.file g = s.file g) (hone : (s'.file f).fCount = 1)
    (hinode : (s'.file f).fInode = some i)
    (hcount : ∀ j, s'.iCount j = if j = i then s.iCount j + 1 else s.iCount j)
    (hclo : CloexecOk (s'.task t)) : Tables s' where
  ok := by
    obtain ⟨hself, hslot⟩ := slot_of_update hs.others hfilp
    refine h.ok.open (x := (t, fd)) (f := f) (i := i) hfd hf hself hslot (fun g => ?_) (fun g => ?_)
      hcount hs.otherRefs
    · change (s'.file g).fCount = if g = f then 1 else (s.file g).fCount
      split
      · next hg => rw [hg, hone]
      · next hg => rw [hfile g hg]
    · change s'.openInode g = if g = f then some i else s.openInode g
      split
      · next hg =>
          rw [hg, State.openInode, hone, if_neg one_ne_zero, hinode]
      · next hg => exact openInode_congr (by rw [hfile g hg]) (by rw [hfile g hg])
  cloexec := cloexec_of_others h.cloexec hs.others hclo

/-- A descriptor has been copied. -/
theorem shared {fd : Fin NR_OPEN} {f : Fin NR_FILE} (h : Tables s) (hs : Same t s s')
    (hfd : (s.task t).filp fd = none) (hf : (s.file f).fCount ≠ 0)
    (hfilp : (s'.task t).filp = Function.update (s.task t).filp fd (some f))
    (hfile : ∀ g, (s'.file g).fInode = (s.file g).fInode ∧
      (s'.file g).fCount = if g = f then (s.file g).fCount + 1 else (s.file g).fCount)
    (hcount : s'.iCount = s.iCount) (hclo : CloexecOk (s'.task t)) : Tables s' where
  ok := by
    obtain ⟨hself, hslot⟩ := slot_of_update hs.others hfilp
    refine h.ok.share (x := (t, fd)) (f := f) hfd hf hself hslot (fun g => (hfile g).2)
      (funext fun g => ?_) hcount hs.otherRefs
    change s'.openInode g = s.openInode g
    obtain ⟨hi, hc⟩ := hfile g
    rw [State.openInode, State.openInode, hi, hc]
    by_cases hg : g = f
    · subst hg
      rw [if_pos rfl, if_neg (Nat.succ_ne_zero _), if_neg hf]
    · rw [if_neg hg]
  cloexec := cloexec_of_others h.cloexec hs.others hclo

/-- A descriptor has been closed that is not the last one. -/
theorem closed {fd : Fin NR_OPEN} {f : Fin NR_FILE} (h : Tables s) (hs : Same t s s')
    (hfd : (s.task t).filp fd = some f) (hf : (s.file f).fCount ≠ 1)
    (hfilp : (s'.task t).filp = Function.update (s.task t).filp fd none)
    (hfile : ∀ g, (s'.file g).fInode = (s.file g).fInode ∧
      (s'.file g).fCount = if g = f then (s.file g).fCount - 1 else (s.file g).fCount)
    (hcount : s'.iCount = s.iCount) (hclo : CloexecOk (s'.task t)) : Tables s' where
  ok := by
    obtain ⟨hself, hslot⟩ := slot_of_update hs.others hfilp
    have hpos : (s.file f).fCount ≠ 0 := h.ok.count_pos (x := (t, fd)) hfd
    refine h.ok.close (x := (t, fd)) (f := f) hfd hf hself hslot (fun g => (hfile g).2)
      (funext fun g => ?_) hcount hs.otherRefs
    change s'.openInode g = s.openInode g
    obtain ⟨hi, hc⟩ := hfile g
    rw [State.openInode, State.openInode, hi, hc]
    by_cases hg : g = f
    · subst hg
      rw [if_pos rfl, if_neg (by omega), if_neg hpos]
    · rw [if_neg hg]
  cloexec := cloexec_of_others h.cloexec hs.others hclo

/-- The last descriptor of a file has been closed. -/
theorem closedLast {fd : Fin NR_OPEN} {f : Fin NR_FILE} (h : Tables s) (hs : Same t s s')
    (hfd : (s.task t).filp fd = some f) (hf : (s.file f).fCount = 1)
    (hi : s.openInode f = some i)
    (hfilp : (s'.task t).filp = Function.update (s.task t).filp fd none)
    (hfile : ∀ g, g ≠ f → s'.file g = s.file g) (hzero : (s'.file f).fCount = 0)
    (hcount : ∀ j, s'.iCount j = if j = i then s.iCount j - 1 else s.iCount j)
    (hclo : CloexecOk (s'.task t)) : Tables s' where
  ok := by
    obtain ⟨hself, hslot⟩ := slot_of_update hs.others hfilp
    refine h.ok.closeLast (x := (t, fd)) (f := f) (i := i) hfd hf hi hself hslot (fun g => ?_)
      (fun g => ?_) hcount hs.otherRefs
    · change (s'.file g).fCount = if g = f then 0 else (s.file g).fCount
      split
      · next hg => rw [hg, hzero]
      · next hg => rw [hfile g hg]
    · change s'.openInode g = if g = f then none else s.openInode g
      split
      · next hg => rw [hg, State.openInode, if_pos hzero]
      · next hg => exact openInode_congr (by rw [hfile g hg]) (by rw [hfile g hg])
  cloexec := cloexec_of_others h.cloexec hs.others hclo

end Tables

/-! ### `close_on_exec` -/

theorem getLsbD_bit (fd : Fin NR_OPEN) (b : Nat) :
    (1#32 <<< fd.val).getLsbD b = decide (b = fd.val) := by
  have : fd.val < 20 := fd.isLt
  rw [BitVec.getLsbD_shiftLeft, BitVec.getLsbD_one]
  simp only [← decide_not, ← Bool.decide_and, decide_eq_decide]
  omega

theorem clearCloexec_getLsbD (k : Task) (fd : Fin NR_OPEN) (b : Nat) :
    (k.clearCloexec fd).closeOnExec.getLsbD b =
      (k.closeOnExec.getLsbD b && !decide (b = fd.val)) := by
  unfold Task.clearCloexec
  dsimp only
  rw [BitVec.getLsbD_and, BitVec.getLsbD_not, getLsbD_bit]
  by_cases hb : b < 32
  · simp [hb]
  · rw [BitVec.getLsbD_of_ge _ _ (by omega)]
    simp

theorem cloexecOk_clear (h : CloexecOk k) (fd : Fin NR_OPEN) : CloexecOk (k.clearCloexec fd) := by
  intro b hb
  rw [clearCloexec_getLsbD, Bool.and_eq_true] at hb
  exact h b hb.1

/-- Whatever `filp[fd]` is set to, if the bit is clear. -/
theorem cloexecOk_setFilp (h : CloexecOk k) {fd : Fin NR_OPEN}
    (hclear : k.closeOnExec.getLsbD fd.val = false) (v : Option (Fin NR_FILE)) :
    CloexecOk (k.setFilp fd v) := by
  intro b hb
  obtain ⟨fd', rfl, hopen⟩ := h b hb
  have hne : fd' ≠ fd := by
    rintro rfl
    have hb' : k.closeOnExec.getLsbD fd'.val = true := hb
    rw [hclear] at hb'
    cases hb'
  refine ⟨fd', rfl, ?_⟩
  change Function.update k.filp fd v fd' ≠ none
  rwa [Function.update_of_ne hne]

/-! ### The calls on descriptors -/

/-- What a call of task `t` in `s` comes to. -/
structure Call (t : Fin NR_TASKS) (s : State) (r : State × Int) : Prop where
  tables : Tables r.1
  same : Same t s r.1

/-- The descriptor that is returned is open, and its bit is clear. -/
def Fresh (t : Fin NR_TASKS) (r : State × Int) : Prop :=
  ∀ fd : Fin NR_OPEN, (fd.val : Int) = r.2 →
    (r.1.task t).filp fd ≠ none ∧ (r.1.task t).closeOnExec.getLsbD fd.val = false

theorem fresh_error {r : State × Int} (h : r.2 < 0) : Fresh t r := fun fd hfd => by omega

/-- A task replaced by one that is the same but for descriptors. -/
theorem same_setTask (htask : s'.task = Function.update s.task t k) (hbase : s'.base = s.base)
    (hstatus : k.status = (s.task t).status) (hpwd : k.pwd = (s.task t).pwd)
    (hroot : k.root = (s.task t).root) (hexec : k.executable = (s.task t).executable) :
    Same t s s' where
  others u hu := by rw [htask, Function.update_of_ne hu]
  status := by rw [htask, Function.update_self, hstatus]
  pwd := by rw [htask, Function.update_self, hpwd]
  root := by rw [htask, Function.update_self, hroot]
  executable := by rw [htask, Function.update_self, hexec]
  base := hbase

theorem Tables.iCount_ne_zero (h : Tables s) (hi : s.otherRefs i ≠ 0) : s.iCount i ≠ 0 := by
  have : s.iCount i = refs Finset.univ s.openInode i + s.otherRefs i := h.ok.refCount i
  omega

theorem Tables.atHome (h : Tables s) {i j : Ino} (hroot : (s.task t).root = some i)
    (hpwd : (s.task t).pwd = some j) : AtHome s (s.task t) where
  root := by
    refine ⟨i, hroot, h.iCount_ne_zero ?_⟩
    have := refs_pos (g := fun t => (s.task t).root) (Finset.mem_univ t) hroot
    unfold State.otherRefs
    omega
  pwd := by
    refine ⟨j, hpwd, h.iCount_ne_zero ?_⟩
    have := refs_pos (g := fun t => (s.task t).pwd) (Finset.mem_univ t) hpwd
    unfold State.otherRefs
    omega

/-- Tasks and files are as before the walk. -/
theorem Extra.task (h : Extra s s' l) : s'.task = s.task := by rw [h.same]
theorem Extra.file (h : Extra s s' l) : s'.file = s.file := by rw [h.same]
theorem Extra.base (h : Extra s s' l) : s'.base = s.base := by rw [h.same]

theorem Tables.clear (h : Tables s) (t : Fin NR_TASKS) (fd : Fin NR_OPEN) :
    Tables (setTask s t ((s.task t).clearCloexec fd)) ∧
      Same t s (setTask s t ((s.task t).clearCloexec fd)) := by
  have hs : Same t s (setTask s t ((s.task t).clearCloexec fd)) :=
    same_setTask rfl rfl rfl rfl rfl rfl
  refine ⟨h.congr hs ?_ (fun f => ⟨rfl, rfl⟩) (fun i => rfl) ?_, hs⟩
  · rw [setTask_task, Function.update_self, clearCloexec_filp]
  · rw [setTask_task, Function.update_self]
    exact cloexecOk_clear (h.cloexec t) fd

/-- `filp[fd]` and `f` are taken by `sys_open`, and `open_namei` has been through. -/
structure Taken (s s' : State) (t : Fin NR_TASKS) (fd : Fin NR_OPEN) (f : Fin NR_FILE) : Prop where
  freeFd : (s.task t).filp fd = none
  freeFile : (s.file f).fCount = 0
  clear : (s.task t).closeOnExec.getLsbD fd.val = false
  task : s'.task = Function.update s.task t ((s.task t).setFilp fd (some f))
  files : s'.file = Function.update s.file f { s.file f with fCount := 1 }
  base : s'.base = s.base

/-- The descriptor and the file are given back. -/
theorem Taken.undo {fd : Fin NR_OPEN} {f : Fin NR_FILE} (h : Tables s) (ht : Taken s s' t fd f)
    (hcount : ∀ i, s'.iCount i = s.iCount i) (err : Int) :
    Call t s (setCount (setTask s' t ((s'.task t).setFilp fd none)) f 0, err) := by
  have htask : (setCount (setTask s' t ((s'.task t).setFilp fd none)) f 0).task =
      Function.update s.task t (((s.task t).setFilp fd (some f)).setFilp fd none) := by
    simp [ht.task]
  have hs := same_setTask
    htask ht.base rfl rfl rfl rfl
  refine ⟨h.congr hs ?_ (fun g => ?_) hcount ?_, hs⟩
  · rw [htask]
    simp [← ht.freeFd]
  · by_cases hg : g = f <;> simp [ht.files, ht.freeFile, hg]
  · rw [htask, Function.update_self]
    exact cloexecOk_setFilp (cloexecOk_setFilp (h.cloexec t) ht.clear _) ht.clear none

/-- The file is open now. -/
theorem Taken.opened {fd : Fin NR_OPEN} {f : Fin NR_FILE} (h : Tables s) (ht : Taken s s' t fd f)
    (hcount : ∀ j, s'.iCount j = if j = i then s.iCount j + 1 else s.iCount j) {k : Task}
    (hk : k.filp = Function.update (s.task t).filp fd (some f))
    (hclo : k.closeOnExec = (s.task t).closeOnExec) (hstatus : k.status = (s.task t).status)
    (hpwd : k.pwd = (s.task t).pwd) (hroot : k.root = (s.task t).root)
    (hexec : k.executable = (s.task t).executable) (flags : BitVec 16) :
    Call t s (setFile (setTask s' t k) f { fFlags := flags, fCount := 1, fInode := some i },
      fd.val) ∧
    Fresh t (setFile (setTask s' t k) f { fFlags := flags, fCount := 1, fInode := some i },
      fd.val) := by
  set s'' := setFile (setTask s' t k) f { fFlags := flags, fCount := 1, fInode := some i }
  have htask : s''.task = Function.update s.task t k := by
    simp [s'', ht.task]
  have hself : s''.task t = k := by rw [htask, Function.update_self]
  have hs : Same t s s'' := same_setTask htask ht.base hstatus hpwd hroot hexec
  have hok : CloexecOk k := by
    have := cloexecOk_setFilp (h.cloexec t) ht.clear (some f)
    intro b hb
    rw [hclo] at hb
    obtain ⟨fd', hfd', hopen⟩ := this b hb
    exact ⟨fd', hfd', by rwa [hk]⟩
  refine ⟨⟨h.opened _ (f := f) (i := i) hs ht.freeFd ht.freeFile ?_ (fun g hg => ?_) ?_ ?_ hcount
    ?_, hs⟩, fun fd' hfd' => ?_⟩
  · rw [hself, hk]
  · simp [s'', ht.files, hg]
  · simp [s'']
  · simp [s'']
  · rw [hself]
    exact hok
  · have hval : (fd'.val : Int) = fd.val := hfd'
    obtain rfl : fd' = fd := Fin.ext (by omega)
    rw [hself, hk, hclo, Function.update_self]
    exact ⟨Option.some_ne_none f, ht.clear⟩

theorem finishOpen_call {fd : Fin NR_OPEN} {f : Fin NR_FILE} (h : Tables s)
    (ht : Taken s s' t fd f)
    (hcount : ∀ j, s'.iCount j = if j = i then s.iCount j + 1 else s.iCount j)
    (flag : BitVec 32) (node : Node) :
    (finishOpen s' t fd f i flag node).Ends NoInodes fun r => Call t s r ∧ Fresh t r := by
  have htask : s'.task t = (s.task t).setFilp fd (some f) := by rw [ht.task, Function.update_self]
  have hself : setTask s' t (s'.task t) = s' := by
    rw [setTask, Function.update_eq_self]
  have hplain := ht.opened h hcount (k := s'.task t) (by rw [htask]; rfl) (by rw [htask]; rfl)
    (by rw [htask]; rfl) (by rw [htask]; rfl) (by rw [htask]; rfl) (by rw [htask]; rfl)
    (flag.setWidth 16)
  rw [hself] at hplain
  unfold finishOpen
  cases node with
  | tty minor =>
      dsimp only
      split
      · exact ht.opened h hcount (by rw [htask]; rfl) (by rw [htask]; rfl) (by rw [htask]; rfl)
          (by rw [htask]; rfl) (by rw [htask]; rfl) (by rw [htask]; rfl) (flag.setWidth 16)
      · exact hplain
  | controllingTty =>
      dsimp only
      split
      · have hpos : s'.iCount i ≠ 0 := by
          rw [hcount, if_pos rfl]
          exact Nat.succ_ne_zero _
        rw [iput, if_neg hpos, Outcome.bind_next]
        have ht' : Taken s (setInode s' i (s'.iCount i - 1)) t fd f :=
          ⟨ht.freeFd, ht.freeFile, ht.clear, ht.task, ht.files, ht.base⟩
        refine ⟨ht'.undo h (fun j => ?_) (-EPERM), fresh_error (show -EPERM < 0 by decide)⟩
        rw [setInode_iCount, Function.update_apply]
        split
        · next hj => rw [hj, hcount, if_pos rfl, Nat.add_sub_cancel]
        · next hj => rw [hcount, if_neg hj]
      · exact hplain
  | other => exact hplain

theorem sysOpen_call (h : Tables s) {j : Ino} (hroot : (s.task t).root = some i)
    (hpwd : (s.task t).pwd = some j) (path : Path) (flag : BitVec 32) (a : Answers) (node : Node) :
    (sysOpen s t path flag a node).Ends NoInodes fun r => Call t s r ∧ Fresh t r := by
  unfold sysOpen
  cases hfd : freeFd (s.task t) with
  | none => exact ⟨⟨h, Same.refl t s⟩, fresh_error (show -EINVAL < 0 by decide)⟩
  | some fd =>
      have hfree : (s.task t).filp fd = none := by simpa using List.find?_some hfd
      obtain ⟨h₁, hs₁⟩ := h.clear t fd
      dsimp only
      set s₁ := setTask s t ((s.task t).clearCloexec fd) with hs
      have hself₁ : s₁.task t = (s.task t).clearCloexec fd := by
        rw [hs, setTask_task, Function.update_self]
      have hclear : (s₁.task t).closeOnExec.getLsbD fd.val = false := by
        rw [hself₁, clearCloexec_getLsbD]
        simp
      have hfree₁ : (s₁.task t).filp fd = none := by rw [hself₁]; exact hfree
      cases hf : freeFile s₁ with
      | none => exact ⟨⟨h₁, hs₁⟩, fresh_error (show -EINVAL < 0 by decide)⟩
      | some f =>
          have hzero : (s₁.file f).fCount = 0 := by
            simpa using List.find?_some (p := fun f => (s₁.file f).fCount = 0) hf
          dsimp only
          set s₂ := setCount (setTask s₁ t ((s₁.task t).setFilp fd (some f))) f
            ((s₁.file f).fCount + 1) with hs₂
          have htaken : Taken s₁ s₂ t fd f :=
            ⟨hfree₁, hzero, hclear, rfl, by rw [hs₂, setCount_file, hzero]; rfl, rfl⟩
          have hself₂ : s₂.task t = (s₁.task t).setFilp fd (some f) := by
            rw [htaken.task, Function.update_self]
          have hhome : AtHome s₂ (s₂.task t) := by
            have := h₁.atHome (hs₁.root.trans hroot) (hs₁.pwd.trans hpwd)
            rw [hself₂]
            exact ⟨this.root, this.pwd⟩
          have htaken' : ∀ s₃ l, Extra s₂ s₃ l → Taken s₁ s₃ t fd f := fun s₃ l hl =>
            ⟨hfree₁, hzero, hclear, hl.task.trans htaken.task, hl.file.trans htaken.files, hl.base⟩
          refine (openNamei_opened hhome path flag a).bind fun r hr => ?_
          have hcall : ∀ r', Call t s₁ r' → Call t s r' := fun r' hr' =>
            ⟨hr'.tables, hs₁.trans hr'.same⟩
          unfold Opened at hr
          cases hres : r.2 with
          | inl err =>
              rw [hres] at hr
              exact ⟨hcall _ ((htaken' _ _ hr.1).undo h₁ hr.1.count err), fresh_error hr.2⟩
          | inr inode =>
              rw [hres] at hr
              refine (finishOpen_call h₁ (htaken' _ _ hr) (i := inode) (fun j => ?_) flag node).mono
                fun r' hr' => ⟨hcall r' hr'.1, hr'.2⟩
              have hcount : r.1.iCount j = s₁.iCount j + [inode].count j := hr.count j
              rw [hcount]
              by_cases hj : j = inode
              · rw [if_pos hj, hj, List.count_singleton_self]
              · rw [if_neg hj, List.count_cons_of_ne (Ne.symm hj)]
                rfl

/-- `sys_close` closes the descriptor, and no other. -/
theorem closeFd_call (h : Tables s) (t : Fin NR_TASKS) (fd : Fin NR_OPEN) :
    (closeFd s t fd).Ends NoInodes fun r =>
      Call t s r ∧ (r.1.task t).filp = Function.update (s.task t).filp fd none := by
  have hclear : ((s.task t).clearCloexec fd).closeOnExec.getLsbD fd.val = false := by
    rw [clearCloexec_getLsbD]
    simp
  have hok := cloexecOk_clear (h.cloexec t) fd
  unfold closeFd
  dsimp only
  cases hfd : ((s.task t).clearCloexec fd).filp fd with
  | none =>
      obtain ⟨htables, hsame⟩ := h.clear t fd
      refine ⟨⟨htables, hsame⟩, ?_⟩
      rw [clearCloexec_filp] at hfd
      rw [setTask_task, Function.update_self, clearCloexec_filp, ← hfd, Function.update_eq_self]
  | some f =>
      have hfd' : s.slot (t, fd) = some f := hfd
      have hpos : (s.file f).fCount ≠ 0 := h.ok.count_pos hfd'
      obtain ⟨i, hi⟩ := (h.ok.target f).mp hpos
      have hinode : (s.file f).fInode = some i := by
        have : s.openInode f = some i := hi
        rwa [State.openInode, if_neg hpos] at this
      dsimp only
      set k := ((s.task t).clearCloexec fd).setFilp fd none with hk
      rw [setTask_file, if_neg hpos]
      set s₁ := setCount (setTask s t k) f ((s.file f).fCount - 1) with hs₁
      have htask : s₁.task = Function.update s.task t k := rfl
      have hself : s₁.task t = k := by rw [htask, Function.update_self]
      have hfile : ∀ g, (s₁.file g).fInode = (s.file g).fInode ∧ (s₁.file g).fCount =
          if g = f then (s.file g).fCount - 1 else (s.file g).fCount := fun g => by
        by_cases hg : g = f <;> simp [hs₁, hg]
      have hclo : CloexecOk k := cloexecOk_setFilp hok hclear none
      have hfilp : k.filp = Function.update (s.task t).filp fd none := rfl
      split
      · next hne =>
          have hsame : Same t s s₁ := same_setTask htask rfl rfl rfl rfl rfl
          rw [(hfile f).2, if_pos rfl] at hne
          refine ⟨⟨h.closed hsame hfd' (by omega) ?_ hfile rfl ?_, hsame⟩, ?_⟩
          · rw [hself, hfilp]
          · rw [hself]
            exact hclo
          · rw [hself, hfilp]
      · next hzero =>
          have hrefs : s₁.iCount i ≠ 0 := h.ok.refCount_pos hi
          have hzero : (s₁.file f).fCount = 0 := by simpa using hzero
          rw [(hfile f).2, if_pos rfl] at hzero
          rw [(hfile f).1, hinode, iput, if_neg hrefs, Outcome.bind_next]
          have hsame : Same t s (setInode s₁ i (s₁.iCount i - 1)) :=
            same_setTask htask rfl rfl rfl rfl rfl
          refine ⟨⟨h.closedLast (i := i) hsame hfd' (by omega) hi ?_ (fun g hg => ?_) ?_
            (fun j => ?_) ?_, hsame⟩, ?_⟩
          · rw [setInode_task, hself, hfilp]
          · simp [hs₁, hg]
          · rw [setInode_file, (hfile f).2, if_pos rfl, hzero]
          · rw [setInode_iCount, Function.update_apply]
            split
            · next hj => rw [hj]; rfl
            · rfl
          · rw [setInode_task, hself]
            exact hclo
          · rw [setInode_task, hself, hfilp]

theorem sysClose_call (h : Tables s) (t : Fin NR_TASKS) (fd : Nat) :
    (sysClose s t fd).Ends NoInodes (Call t s) := by
  unfold sysClose
  split
  · next hfd => exact (closeFd_call h t ⟨fd, hfd⟩).mono fun r hr => hr.1
  · exact ⟨h, Same.refl t s⟩

theorem dupfd_call (h : Tables s) (t : Fin NR_TASKS) (fd arg : Nat) :
    (dupfd s t fd arg).Ends NoInodes fun r => Call t s r ∧ Fresh t r := by
  unfold dupfd
  dsimp only
  cases hf : (if h : fd < NR_OPEN then (s.task t).filp ⟨fd, h⟩ else none) with
  | none => exact ⟨⟨h, Same.refl t s⟩, fresh_error (show -EBADF < 0 by decide)⟩
  | some f =>
      have hpos : (s.file f).fCount ≠ 0 := by
        split at hf
        · next hfd =>
            have hslot : s.slot (t, ⟨fd, hfd⟩) = some f := hf
            exact h.ok.count_pos hslot
        · cases hf
      dsimp only
      split
      · exact ⟨⟨h, Same.refl t s⟩, fresh_error (show -EINVAL < 0 by decide)⟩
      · cases hi : (List.finRange NR_OPEN).find? fun i => arg ≤ i.val &&
            ((s.task t).filp i).isNone with
        | none => exact ⟨⟨h, Same.refl t s⟩, fresh_error (show -EMFILE < 0 by decide)⟩
        | some i =>
            have hfree : (s.task t).filp i = none := by
              have := List.find?_some hi
              simp only [Bool.and_eq_true, Option.isNone_iff_eq_none] at this
              exact this.2
            have hclear : ((s.task t).clearCloexec i).closeOnExec.getLsbD i.val = false := by
              rw [clearCloexec_getLsbD]
              simp
            dsimp only
            set k := ((s.task t).clearCloexec i).setFilp i (some f) with hk
            set s₁ := setCount (setTask s t k) f ((s.file f).fCount + 1) with hs₁
            have htask : s₁.task = Function.update s.task t k := rfl
            have hself : s₁.task t = k := by rw [htask, Function.update_self]
            have hsame : Same t s s₁ := same_setTask htask rfl rfl rfl rfl rfl
            refine ⟨⟨h.shared hsame hfree hpos ?_ (fun g => ?_) rfl ?_, hsame⟩, fun fd' hfd' => ?_⟩
            · rw [hself]
              rfl
            · by_cases hg : g = f <;> simp [hs₁, hg]
            · rw [hself]
              exact cloexecOk_setFilp (cloexecOk_clear (h.cloexec t) i) hclear (some f)
            · have hval : (fd'.val : Int) = i.val := hfd'
              obtain rfl : fd' = i := Fin.ext (by omega)
              rw [hself, hk, setFilp_filp, Function.update_self]
              exact ⟨Option.some_ne_none f, hclear⟩

theorem sysDup2_call (h : Tables s) (t : Fin NR_TASKS) (oldfd newfd : Nat) :
    (sysDup2 s t oldfd newfd).Ends NoInodes fun r => Call t s r ∧ Fresh t r := by
  refine (sysClose_call h t newfd).bind fun r hr => ?_
  exact (dupfd_call hr.tables t oldfd newfd).mono fun r' hr' =>
    ⟨⟨hr'.1.tables, hr.same.trans hr'.1.same⟩, hr'.2⟩

/-- A bit is set for the open descriptor that the call is about. -/
theorem cloexecOk_set (h : CloexecOk k) (fd : Fin NR_OPEN) (hfd : k.filp fd ≠ none) :
    CloexecOk { k with closeOnExec := k.closeOnExec ||| 1#32 <<< fd.val } := by
  intro b hb
  rw [BitVec.getLsbD_or, getLsbD_bit, Bool.or_eq_true, decide_eq_true_eq] at hb
  cases hb with
  | inl hb => exact h b hb
  | inr hb => exact ⟨fd, hb.symm, hfd⟩

theorem sysFcntl_call (h : Tables s) (t : Fin NR_TASKS) (fd : Nat) (cmd : Cmd)
    (arg : BitVec 32) :
    (sysFcntl s t fd cmd arg).Ends NoInodes fun r =>
      Call t s r ∧ (cmd = .dupfd → Fresh t r) := by
  unfold sysFcntl
  split
  · next hfd =>
      have hrefl : ∀ n, Call t s (s, n) := fun n => ⟨h, Same.refl t s⟩
      dsimp only
      cases hf : (s.task t).filp ⟨fd, hfd⟩ with
      | none => exact ⟨hrefl _, fun _ => fresh_error (show -EBADF < 0 by decide)⟩
      | some f =>
          cases cmd with
          | dupfd => exact (dupfd_call h t fd arg.toNat).mono fun r hr => ⟨hr.1, fun _ => hr.2⟩
          | getfd => exact ⟨hrefl _, fun hc => by cases hc⟩
          | setfd =>
              dsimp only
              split
              · set s₁ := setTask s t
                  { s.task t with closeOnExec := (s.task t).closeOnExec ||| 1#32 <<< fd } with hs₁
                have hsame : Same t s s₁ := same_setTask rfl rfl rfl rfl rfl rfl
                refine ⟨⟨h.congr hsame ?_ (fun g => ⟨rfl, rfl⟩) (fun i => rfl) ?_, hsame⟩,
                  fun hc => by cases hc⟩
                · rw [hs₁, setTask_task, Function.update_self]
                · rw [hs₁, setTask_task, Function.update_self]
                  refine cloexecOk_set (h.cloexec t) ⟨fd, hfd⟩ ?_
                  rw [hf]
                  exact Option.some_ne_none f
              · obtain ⟨htables, hsame⟩ := h.clear t ⟨fd, hfd⟩
                exact ⟨⟨htables, hsame⟩, fun hc => by cases hc⟩
          | getfl => exact ⟨hrefl _, fun hc => by cases hc⟩
          | setfl =>
              have hsame : ∀ file, Same t s (setFile s f file) := fun file =>
                ⟨⟨fun _ _ => rfl, rfl, rfl, rfl, rfl⟩, rfl⟩
              refine ⟨⟨h.congr (hsame _) rfl (fun g => ?_) (fun i => rfl) (h.cloexec t),
                hsame _⟩, fun hc => by cases hc⟩
              by_cases hg : g = f <;> simp [hg]
          | other => exact ⟨hrefl _, fun hc => by cases hc⟩
  · exact ⟨⟨h, Same.refl t s⟩, fun _ => fresh_error (show -EBADF < 0 by decide)⟩

/-! ### `sys_pipe` -/

theorem cloexec_false (h : CloexecOk k) {fd : Fin NR_OPEN} (hfd : k.filp fd = none) :
    k.closeOnExec.getLsbD fd.val = false := by
  rw [← Bool.not_eq_true]
  intro hb
  obtain ⟨fd', hval, hopen⟩ := h fd.val hb
  rw [Fin.ext hval] at hopen
  exact hopen hfd

/-- Two free descriptors and two free files have become a pipe. -/
theorem Tables.pipe {fd₀ fd₁ : Fin NR_OPEN} {f₀ f₁ : Fin NR_FILE} (h : Tables s)
    (hfds : fd₀ ≠ fd₁) (hfs : f₀ ≠ f₁) (hfd₀ : (s.task t).filp fd₀ = none)
    (hfd₁ : (s.task t).filp fd₁ = none) (hf₀ : (s.file f₀).fCount = 0)
    (hf₁ : (s.file f₁).fCount = 0)
    (htask : s'.task = Function.update s.task t
      (((s.task t).setFilp fd₀ (some f₀)).setFilp fd₁ (some f₁)))
    (hfile : ∀ g, g ≠ f₀ → g ≠ f₁ → s'.file g = s.file g)
    (hone : ∀ g, g = f₀ ∨ g = f₁ → (s'.file g).fCount = 1 ∧ (s'.file g).fInode = some i)
    (hcount : ∀ j, s'.iCount j = if j = i then s.iCount j + 2 else s.iCount j)
    (hbase : s'.base = s.base) : Tables s' := by
  -- the state with the first of the two only
  let k := (s.task t).setFilp fd₀ (some f₀)
  let s₁ := setInode (setFile (setTask s t k) f₀ (s'.file f₀)) i (s.iCount i + 1)
  have htask₁ : s₁.task = Function.update s.task t k := rfl
  have hself₁ : s₁.task t = k := by rw [htask₁, Function.update_self]
  have hfile₁ : ∀ g, g ≠ f₀ → s₁.file g = s.file g := fun g hg => Function.update_of_ne hg _ _
  have hone₁ : s₁.file f₀ = s'.file f₀ := Function.update_self _ _ _
  have hcount₁ : ∀ j, s₁.iCount j = if j = i then s.iCount j + 1 else s.iCount j := fun j => by
    change Function.update s.iCount i (s.iCount i + 1) j = _
    rw [Function.update_apply]
    split
    · next hj => rw [hj]
    · rfl
  have hclo₁ : CloexecOk k := cloexecOk_setFilp (h.cloexec t) (cloexec_false (h.cloexec t) hfd₀) _
  have h₁ : Tables s₁ := by
    refine h.opened _ (same_setTask htask₁ rfl rfl rfl rfl rfl) hfd₀ hf₀ ?_ hfile₁ ?_ ?_ hcount₁ ?_
    · rw [hself₁]
      rfl
    · rw [hone₁]
      exact (hone f₀ (Or.inl rfl)).1
    · rw [hone₁]
      exact (hone f₀ (Or.inl rfl)).2
    · rw [hself₁]
      exact hclo₁
  have htask' : s'.task = Function.update s₁.task t (k.setFilp fd₁ (some f₁)) := by
    rw [htask, htask₁, Function.update_idem]
  have hself' : s'.task t = k.setFilp fd₁ (some f₁) := by rw [htask', Function.update_self]
  have hfree₁ : k.filp fd₁ = none := by
    change Function.update (s.task t).filp fd₀ (some f₀) fd₁ = none
    rw [Function.update_of_ne hfds.symm, hfd₁]
  have hsame : Same t s₁ s' :=
    same_setTask htask' hbase (by rw [hself₁]; rfl) (by rw [hself₁]; rfl) (by rw [hself₁]; rfl)
      (by rw [hself₁]; rfl)
  refine h₁.opened fd₁ (f := f₁) (i := i) hsame ?_ ?_ ?_ (fun g hg => ?_)
    (hone f₁ (Or.inr rfl)).1 (hone f₁ (Or.inr rfl)).2 (fun j => ?_) ?_
  · rw [hself₁, hfree₁]
  · rw [hfile₁ f₁ hfs.symm, hf₁]
  · rw [hself', hself₁, setFilp_filp]
  · by_cases hg₀ : g = f₀
    · rw [hg₀, hone₁]
    · rw [hfile₁ g hg₀, hfile g hg₀ hg]
  · rw [hcount, hcount₁]
    split <;> rfl
  · rw [hself']
    exact cloexecOk_setFilp hclo₁ (cloexec_false hclo₁ hfree₁) _

/-- What `sys_pipe` comes to. -/
structure Piped (t : Fin NR_TASKS) (s : State) (r : State × Option (Fin NR_OPEN × Fin NR_OPEN)) :
    Prop where
  tables : Tables r.1
  same : Same t s r.1
  fresh : ∀ p, r.2 = some p → ∀ fd, fd = p.1 ∨ fd = p.2 →
    (r.1.task t).filp fd ≠ none ∧ (r.1.task t).closeOnExec.getLsbD fd.val = false

/-- `sys_pipe` has given up. -/
theorem Tables.unpiped (h : Tables s) (htask : s'.task = s.task) (hbase : s'.base = s.base)
    (hfile : ∀ f, (s'.file f).fCount = (s.file f).fCount ∧ (s'.file f).fInode = (s.file f).fInode)
    (hcount : ∀ i, s'.iCount i = s.iCount i) : Piped t s (s', none) := by
  have hsame : Same t s s' := by
    refine ⟨⟨fun u _ => ?_, ?_, ?_, ?_, hbase⟩, ?_⟩ <;> rw [htask]
  refine ⟨h.congr hsame (by rw [htask]) hfile hcount (by rw [htask]; exact h.cloexec t), hsame,
    fun p hp => by cases hp⟩

theorem setFilp_back {fd : Fin NR_OPEN} (v : Option (Fin NR_FILE)) (h : k.filp fd = none) :
    (k.setFilp fd v).setFilp fd none = k := by
  have : Function.update (Function.update k.filp fd v) fd none = k.filp := by
    rw [Function.update_idem, ← h, Function.update_eq_self]
  unfold Task.setFilp
  rw [this]

/-- Both counts are back to zero. -/
theorem undo_file {f₀ f₁ : Fin NR_FILE} (hf₀ : (s.file f₀).fCount = 0)
    (hf₁ : (s.file f₁).fCount = 0)
    (hfile : s'.file = (setCount (setCount s f₀ 1) f₁ 1).file) (g : Fin NR_FILE) :
    ((setCount (setCount s' f₀ 0) f₁ 0).file g).fCount = (s.file g).fCount ∧
      ((setCount (setCount s' f₀ 0) f₁ 0).file g).fInode = (s.file g).fInode := by
  by_cases hg₀ : g = f₀ <;> by_cases hg₁ : g = f₁ <;>
    simp_all [Function.update_apply]

theorem pipeFds_piped {f₀ f₁ : Fin NR_FILE} (h : Tables s) (hfs : f₀ ≠ f₁)
    (hf₀ : (s.file f₀).fCount = 0) (hf₁ : (s.file f₁).fCount = 0) (t : Fin NR_TASKS) (i : Ino)
    (page : Bool) :
    (pipeFds (setCount (setCount s f₀ 1) f₁ 1) t f₀ f₁ i page).Ends NoInodes (Piped t s) := by
  have hfree : ∀ fd, fd ∈ ((List.finRange NR_OPEN).filter fun fd => ((s.task t).filp fd).isNone) →
      (s.task t).filp fd = none := fun fd hfd => by
    simpa using (List.mem_filter.mp hfd).2
  have hnodup := (List.nodup_finRange NR_OPEN).filter fun fd => ((s.task t).filp fd).isNone
  unfold pipeFds
  simp only [setCount_task]
  revert hfree hnodup
  rcases (List.finRange NR_OPEN).filter fun fd => ((s.task t).filp fd).isNone with
    _ | ⟨fd₀, _ | ⟨fd₁, l⟩⟩
  · intro _ _
    exact h.unpiped rfl rfl (undo_file hf₀ hf₁ rfl) fun i => rfl
  · intro hfree _
    have hfd₀ := hfree fd₀ List.mem_cons_self
    refine h.unpiped ?_ rfl (undo_file hf₀ hf₁ rfl) fun i => rfl
    simp [setFilp_back _ hfd₀]
  · intro hfree hnodup
    have hfds : fd₀ ≠ fd₁ := by
      rintro rfl
      exact (List.nodup_cons.mp hnodup).1 List.mem_cons_self
    have hfd₀ := hfree fd₀ List.mem_cons_self
    have hfd₁ := hfree fd₁ (List.mem_cons_of_mem _ List.mem_cons_self)
    dsimp only
    set k := ((s.task t).setFilp fd₀ (some f₀)).setFilp fd₁ (some f₁) with hk
    set s₁ := setTask (setCount (setCount s f₀ 1) f₁ 1) t k with hs₁
    have hcount₁ : ∀ j, s₁.iCount j = s.iCount j := fun j => rfl
    unfold getPipeInode getEmptyInode
    split
    · exact rfl
    · split
      · next hi =>
          rw [hcount₁] at hi
          rw [Outcome.bind_next]
          cases page with
          | true =>
              refine ⟨h.pipe (i := i) hfds hfs hfd₀ hfd₁ hf₀ hf₁ rfl (fun g hg₀ hg₁ => ?_)
                (fun g hg => ?_) (fun j => ?_) rfl, same_setTask rfl rfl rfl rfl rfl rfl, ?_⟩
              · simp [hs₁, hg₀, hg₁]
              · rcases hg with rfl | rfl <;> simp [hs₁, hfs, hfs.symm]
              · by_cases hj : j = i <;> simp [hj, hi, hcount₁]
              · rintro p hp fd hfd
                obtain rfl : (fd₀, fd₁) = p := Option.some.inj hp
                change (s₁.task t).filp fd ≠ none ∧ (s₁.task t).closeOnExec.getLsbD fd.val = false
                rw [hs₁, setTask_task, Function.update_self, hk]
                have hclear : ∀ fd, (s.task t).filp fd = none →
                    (s.task t).closeOnExec.getLsbD fd.val = false := fun _ =>
                  cloexec_false (h.cloexec t)
                rcases hfd with rfl | rfl
                · exact ⟨by simp [hfds], hclear _ hfd₀⟩
                · exact ⟨by simp, hclear _ hfd₁⟩
          | false =>
              have hk' : (k.setFilp fd₁ none).setFilp fd₀ none = s.task t := by
                rw [hk, setFilp_back _ (show ((s.task t).setFilp fd₀ (some f₀)).filp fd₁ = none from by
                  simp [hfds.symm, hfd₁]), setFilp_back _ hfd₀]
              refine h.unpiped ?_ rfl (undo_file hf₀ hf₁ rfl) fun j => ?_
              · simp [hs₁, hk']
              · by_cases hj : j = i <;> simp [hj, hi, hcount₁]
      · exact True.intro

theorem sysPipe_piped (h : Tables s) (t : Fin NR_TASKS) (i : Ino) (page : Bool) :
    (sysPipe s t i page).Ends NoInodes (Piped t s) := by
  unfold sysPipe
  have hfree : ∀ f, f ∈ ((List.finRange NR_FILE).filter fun f => (s.file f).fCount = 0) →
      (s.file f).fCount = 0 := fun f hf => by
    simpa using (List.mem_filter.mp hf).2
  have hnodup := (List.nodup_finRange NR_FILE).filter fun f => (s.file f).fCount = 0
  revert hfree hnodup
  rcases (List.finRange NR_FILE).filter fun f => (s.file f).fCount = 0 with _ | ⟨f₀, _ | ⟨f₁, l⟩⟩
  · intro _ _
    exact h.unpiped rfl rfl (fun f => ⟨rfl, rfl⟩) fun i => rfl
  · intro hfree _
    have hf₀ := hfree f₀ List.mem_cons_self
    refine h.unpiped rfl rfl (fun f => ?_) fun i => rfl
    by_cases hf : f = f₀ <;> simp [hf, hf₀]
  · intro hfree hnodup
    have hfs : f₀ ≠ f₁ := by
      rintro rfl
      exact (List.nodup_cons.mp hnodup).1 List.mem_cons_self
    exact pipeFds_piped h hfs (hfree f₀ List.mem_cons_self)
      (hfree f₁ (List.mem_cons_of_mem _ List.mem_cons_self)) t i page

/-! ### The inodes of a task -/

/-- How often a task refers to `i` by itself. -/
def Task.home (k : Task) (i : Ino) : Nat :=
  (if k.pwd = some i then 1 else 0) + (if k.root = some i then 1 else 0) +
    if k.executable = some i then 1 else 0

theorem otherRefs_update (hothers : ∀ u, u ≠ t → s'.task u = s.task u) (hbase : s'.base = s.base)
    (i : Ino) :
    s'.otherRefs i + (s.task t).home i = s.otherRefs i + (s'.task t).home i := by
  have hpwd := refs_update (g := fun u => (s.task u).pwd) (k := fun u => (s'.task u).pwd)
    (Finset.mem_univ t) (fun u _ hu => by rw [hothers u hu]) i
  have hroot := refs_update (g := fun u => (s.task u).root) (k := fun u => (s'.task u).root)
    (Finset.mem_univ t) (fun u _ hu => by rw [hothers u hu]) i
  have hexec := refs_update (g := fun u => (s.task u).executable)
    (k := fun u => (s'.task u).executable) (Finset.mem_univ t)
    (fun u _ hu => by rw [hothers u hu]) i
  unfold State.otherRefs Task.home
  rw [hbase]
  omega

theorem Tables.home_le (h : Tables s) (t : Fin NR_TASKS) (i : Ino) :
    (s.task t).home i ≤ s.iCount i := by
  have hcount : s.iCount i = refs Finset.univ s.openInode i + s.otherRefs i := h.ok.refCount i
  let s' := setTask s t { s.task t with pwd := none, root := none, executable := none }
  have hself : s'.task t = { s.task t with pwd := none, root := none, executable := none } :=
    Function.update_self _ _ _
  have := otherRefs_update (show ∀ u, u ≠ t → s'.task u = s.task u from fun u hu =>
    Function.update_of_ne hu _ _) rfl i
  rw [hself] at this
  simp only [Task.home, reduceCtorEq, if_false] at this ⊢
  omega

/-- The task refers to other inodes, and the counts follow. -/
theorem Tables.refer (h : Tables s) (hothers : ∀ u, u ≠ t → s'.task u = s.task u)
    (hfilp : (s'.task t).filp = (s.task t).filp) (hfile : s'.file = s.file)
    (hbase : s'.base = s.base)
    (hcount : ∀ i, s'.iCount i + (s.task t).home i = s.iCount i + (s'.task t).home i)
    (hclo : CloexecOk (s'.task t)) : Tables s' where
  ok := by
    refine h.ok.others (slot_of_filp hothers hfilp) (funext fun f => ?_) (funext fun f => ?_)
      fun i => ?_
    · change (s'.file f).fCount = (s.file f).fCount
      rw [hfile]
    · exact openInode_congr (by rw [hfile]) (by rw [hfile])
    · change s'.iCount i + s.otherRefs i = s.iCount i + s'.otherRefs i
      have := hcount i
      have := otherRefs_update hothers hbase i
      omega
  cloexec := cloexec_of_others h.cloexec hothers hclo

theorem iput_next {v : Option Ino} (h : ∀ i, v = some i → s.iCount i ≠ 0) :
    ∃ c, iput s v = .next { s with iCount := c } ∧
      ∀ j, c j + (if v = some j then 1 else 0) = s.iCount j := by
  cases v with
  | none => exact ⟨s.iCount, rfl, fun j => rfl⟩
  | some i =>
      have hpos := h i rfl
      refine ⟨Function.update s.iCount i (s.iCount i - 1), ?_, fun j => ?_⟩
      · rw [iput, if_neg hpos]
        rfl
      · by_cases hj : j = i
        · subst hj
          rw [Function.update_self, if_pos rfl]
          omega
        · rw [Function.update_of_ne hj, if_neg fun he => hj (Option.some.inj he).symm]
          rfl

/-! ### `fork` -/

/-- The files are counted once for each descriptor. -/
theorem countFiles (filp : Fin NR_OPEN → Option (Fin NR_FILE)) (fds : List (Fin NR_OPEN))
    (s : State) :
    ∃ file, fds.foldl (countFile filp) s = { s with file := file } ∧
      ∀ f, (file f).fInode = (s.file f).fInode ∧
        (file f).fCount = (s.file f).fCount + fds.countP fun fd => filp fd = some f := by
  induction fds generalizing s with
  | nil => exact ⟨s.file, rfl, fun f => ⟨rfl, rfl⟩⟩
  | cons fd fds ih =>
      obtain ⟨file, hrun, hfile⟩ := ih (countFile filp s fd)
      refine ⟨file, ?_, fun f => ⟨?_, ?_⟩⟩
      · rw [List.foldl_cons, hrun]
        unfold countFile
        split <;> rfl
      · rw [(hfile f).1]
        unfold countFile
        split
        · next g _ => by_cases hf : f = g <;> simp [hf]
        · rfl
      · rw [(hfile f).2, List.countP_cons]
        unfold countFile
        split
        · next g hg =>
            rw [hg]
            by_cases hf : f = g
            · subst hf
              simp
              omega
            · simp [hf, Ne.symm hf]
        · next hg =>
            rw [hg]
            simp

theorem countInode_iCount (s : State) (v : Option Ino) (j : Ino) :
    (countInode s v).iCount j = s.iCount j + if v = some j then 1 else 0 := by
  cases v with
  | none => rfl
  | some i =>
      change Function.update s.iCount i (s.iCount i + 1) j = _
      rw [Function.update_apply]
      by_cases hj : j = i
      · subst hj
        rw [if_pos rfl, if_pos rfl]
      · rw [if_neg hj, if_neg fun he => hj (Option.some.inj he).symm]
        rfl

theorem countInode_eq (s : State) (v : Option Ino) :
    ∃ c, countInode s v = { s with iCount := c } := by
  cases v with
  | none => exact ⟨s.iCount, rfl⟩
  | some i => exact ⟨Function.update s.iCount i (s.iCount i + 1), rfl⟩

/-- A task that has nothing. -/
structure Gone (k : Task) : Prop where
  filp : ∀ fd, k.filp fd = none
  pwd : k.pwd = none
  root : k.root = none
  executable : k.executable = none

theorem Gone.home (h : Gone k) (i : Ino) : k.home i = 0 := by
  unfold Task.home
  rw [h.pwd, h.root, h.executable]
  rfl

/-- The descriptors of `t` are copied to `nr`. -/
theorem Tables.copied {nr : Fin NR_TASKS} {file : Fin NR_FILE → File} (h : Tables s)
    (hgone : Gone (s.task nr)) (hk : k.filp = (s.task t).filp) (hclo : CloexecOk k)
    (hhome : ∀ i, k.home i = 0)
    (hfile : ∀ f, (file f).fInode = (s.file f).fInode ∧ (file f).fCount = (s.file f).fCount +
      (List.finRange NR_OPEN).countP fun fd => k.filp fd = some f) :
    Tables { setTask s nr k with file := file } := by
  set s' : State := { setTask s nr k with file := file } with hs'
  have hothers : ∀ u, u ≠ nr → s'.task u = s.task u := fun u hu => Function.update_of_ne hu _ _
  have hself : s'.task nr = k := Function.update_self _ _ _
  have hopen : ∀ fd f, k.filp fd = some f → (s.file f).fCount ≠ 0 := fun fd f hfd => by
    rw [hk] at hfd
    have hslot : s.slot (t, fd) = some f := hfd
    exact h.ok.count_pos hslot
  refine ⟨?_, cloexec_of_others h.cloexec hothers (by rw [hself]; exact hclo)⟩
  refine h.ok.row (a := nr) hgone.filp (fun x hx => ?_) (fun fd f hfd => ?_) (fun f => ?_)
    (funext fun f => ?_) rfl (funext fun i => ?_)
  · change (s'.task x.1).filp x.2 = (s.task x.1).filp x.2
    rw [hothers x.1 hx]
  · have hfd' : (s'.task nr).filp fd = some f := hfd
    rw [hself] at hfd'
    exact hopen fd f hfd'
  · change (file f).fCount = (s.file f).fCount + refs Finset.univ (s'.task nr).filp f
    rw [(hfile f).2, hself, refs_eq_countP]
  · change s'.openInode f = s.openInode f
    obtain ⟨hi, hc⟩ := hfile f
    change (if (file f).fCount = 0 then none else (file f).fInode) = _
    rw [State.openInode, hi, hc]
    by_cases hzero : (s.file f).fCount = 0
    · have hnone : ((List.finRange NR_OPEN).countP fun fd => k.filp fd = some f) = 0 := by
        rw [List.countP_eq_zero]
        intro fd _ hfd
        exact hopen fd f (of_decide_eq_true hfd) hzero
      rw [hzero, hnone]
    · rw [if_neg hzero, if_neg (by omega)]
  · change s'.otherRefs i = s.otherRefs i
    have := otherRefs_update hothers rfl i
    rw [hself, hhome, hgone.home] at this
    exact this

/-- What `copy_process` comes to. -/
theorem copyProcess_ends (h : Tables s) {nr : Fin NR_TASKS} (copied : Bool)
    (hgone : (s.task nr).status = .free → Gone (s.task nr)) :
    (copyProcess s t nr copied).Ends NoInodes fun r => Tables r.1 ∧ r.1.base = s.base ∧
      (r.1.task = s.task ∨ (s.task nr).status = .free ∧
        r.1.task = Function.update s.task nr { s.task t with leader := false }) := by
  unfold copyProcess
  split
  · next hfree =>
      replace hfree := hfree.2
      split
      · dsimp only
        set k : Task := { s.task t with leader := false } with hk
        obtain ⟨file, hrun, hfile⟩ := countFiles k.filp (List.finRange NR_OPEN) (setTask s nr k)
        rw [hrun]
        set s₁ : State := { setTask s nr k with file := file } with hs₁
        obtain ⟨c₁, hc₁⟩ := countInode_eq s₁ k.pwd
        obtain ⟨c₂, hc₂⟩ := countInode_eq (countInode s₁ k.pwd) k.root
        obtain ⟨c₃, hc₃⟩ := countInode_eq (countInode (countInode s₁ k.pwd) k.root) k.executable
        set s₂ := countInode (countInode (countInode s₁ k.pwd) k.root) k.executable with hs₂
        have hrest : s₂ = { s₁ with iCount := c₃ } := by rw [hc₃, hc₂, hc₁]
        have hcount : ∀ i, s₂.iCount i = s.iCount i + k.home i := fun i => by
          rw [hs₂, countInode_iCount, countInode_iCount, countInode_iCount]
          simp only [Task.home, ← Nat.add_assoc]
          rfl
        have htask : s₂.task = Function.update s.task nr k := by rw [hrest]; rfl
        have hbase : s₂.base = s.base := by rw [hrest]; rfl
        have hfile₂ : s₂.file = file := by rw [hrest]
        refine ⟨?_, hbase, Or.inr ⟨hfree, htask⟩⟩
        -- the descriptors first, the inodes then
        let k₀ : Task := { k with pwd := none, root := none, executable := none }
        let s₀ : State := { setTask s nr k₀ with file := file }
        have hclo : CloexecOk k := h.cloexec t
        have h₀ : Tables s₀ := h.copied (k := k₀) (t := t) (hgone hfree) rfl hclo (fun i => rfl) hfile
        have hself₀ : s₀.task nr = k₀ := Function.update_self _ _ _
        have hself : s₂.task nr = k := by rw [htask, Function.update_self]
        refine h₀.refer (t := nr) (fun u hu => ?_) ?_ hfile₂ hbase (fun i => ?_) ?_
        · rw [htask, Function.update_of_ne hu]
          exact (Function.update_of_ne hu _ _).symm
        · rw [hself, hself₀]
        · rw [hself, hself₀, hcount]
          rfl
        · rw [hself]
          exact hclo
      · exact ⟨h, rfl, Or.inl rfl⟩
  · exact True.intro

/-! ### `execve` and `exit` -/

theorem closeAll_ends (t : Fin NR_TASKS) (sel : Task → Fin NR_OPEN → Bool)
    (fds : List (Fin NR_OPEN)) (h : Tables s) :
    (closeAll t sel s fds).Ends NoInodes fun s' => Tables s' ∧ Same t s s' ∧
      (∀ fd, (s.task t).filp fd = none → (s'.task t).filp fd = none) ∧
      ((∀ k fd, k.filp fd ≠ none → sel k fd = true) →
        ∀ fd ∈ fds, (s'.task t).filp fd = none) := by
  induction fds generalizing s with
  | nil => exact ⟨h, Same.refl t s, fun fd hfd => hfd, fun _ fd hfd => by cases hfd⟩
  | cons fd fds ih =>
      unfold closeAll
      split
      · refine (closeFd_call h t fd).bind fun r hr => ?_
        obtain ⟨hcall, hfilp⟩ := hr
        refine (ih hcall.tables).mono fun s' hs' => ?_
        obtain ⟨htables, hsame, hstay, hall⟩ := hs'
        refine ⟨htables, hcall.same.trans hsame, fun fd' hfd' => hstay fd' ?_, fun hsel fd' hfd' => ?_⟩
        · rw [hfilp, Function.update_apply]
          split
          · rfl
          · exact hfd'
        · cases List.mem_cons.mp hfd' with
          | inl he =>
              refine hstay fd' ?_
              rw [hfilp, he, Function.update_self]
          | inr hmem => exact hall hsel fd' hmem
      · next hskip =>
          refine (ih h).mono fun s' hs' => ?_
          obtain ⟨htables, hsame, hstay, hall⟩ := hs'
          refine ⟨htables, hsame, hstay, fun hsel fd' hfd' => ?_⟩
          cases List.mem_cons.mp hfd' with
          | inl he =>
              refine hstay fd' ?_
              by_contra hne
              rw [he] at hne
              exact hskip (hsel _ _ hne)
          | inr hmem => exact hall hsel fd' hmem

/-- What a call comes to that leaves the task where it is. -/
structure Stays (t : Fin NR_TASKS) (s s' : State) : Prop where
  tables : Tables s'
  kept : Kept t s s'

theorem finishExec_stays (h : Tables s) (he : Extra s s' [i]) (t : Fin NR_TASKS) :
    (finishExec s' t i).Ends NoInodes fun r => Stays t s r.1 := by
  have hhome := h.home_le t
  obtain ⟨c, hrun, hc⟩ := iput_next (s := s') (v := (s'.task t).executable) fun j hj => by
    have hle := hhome j
    have hcount := he.count j
    rw [he.task] at hj
    rw [Task.home, if_pos hj] at hle
    omega
  unfold finishExec
  rw [hrun, Outcome.bind_next]
  dsimp only
  set k : Task := { s'.task t with executable := some i } with hk
  set s₁ := setTask { s' with iCount := c } t k with hs₁
  have hothers : ∀ u, u ≠ t → s₁.task u = s.task u := fun u hu => by
    rw [hs₁, setTask_task, Function.update_of_ne hu, he.task]
  have hself : s₁.task t = { s.task t with executable := some i } := by
    rw [hs₁, setTask_task, Function.update_self, hk, he.task]
  have htables : Tables s₁ := by
    refine h.refer (t := t) hothers (by rw [hself]) he.file he.base (fun j => ?_) ?_
    · have hcj := hc j
      have hcount := he.count j
      rw [he.task] at hcj
      change c j + _ = _
      rw [hself]
      simp only [Task.home, Option.some.injEq]
      by_cases hj : i = j
      · rw [hj, List.count_singleton_self] at hcount
        rw [if_pos hj]
        omega
      · rw [List.count_cons_of_ne hj, List.count_nil] at hcount
        rw [if_neg hj]
        omega
    · rw [hself]
      exact h.cloexec t
  have hkept : Kept t s s₁ := by
    refine ⟨hothers, ?_, ?_, ?_, he.base⟩ <;> rw [hself]
  refine (closeAll_ends t _ _ htables).bind fun s₂ hs₂ => ?_
  obtain ⟨htables₂, hsame₂, -⟩ := hs₂
  set s₃ := setTask s₂ t { s₂.task t with closeOnExec := 0 } with hs₃
  have hself₃ : s₃.task t = { s₂.task t with closeOnExec := 0 } := Function.update_self _ _ _
  have hsame₃ : Same t s₂ s₃ := same_setTask rfl rfl rfl rfl rfl rfl
  refine ⟨htables₂.congr hsame₃ (by rw [hself₃]) (fun f => ⟨rfl, rfl⟩) (fun j => rfl) ?_,
    hkept.trans (hsame₂.toKept.trans hsame₃.toKept)⟩
  rw [hself₃]
  intro b hb
  rw [show (0 : BitVec 32) = 0#32 from rfl, BitVec.getLsbD_zero] at hb
  cases hb

theorem Extra.stays (he : Extra s s' []) (h : Tables s) (t : Fin NR_TASKS) : Stays t s s' := by
  have hsame : Same t s s' := by
    refine ⟨⟨fun u _ => ?_, ?_, ?_, ?_, he.base⟩, ?_⟩ <;> rw [he.task]
  refine ⟨h.congr hsame (by rw [he.task]) (fun f => by rw [he.file]; exact ⟨rfl, rfl⟩) he.count
    (by rw [he.task]; exact h.cloexec t), hsame.toKept⟩

theorem doExecve_stays (h : Tables s) (hhome : AtHome s (s.task t)) (path : Path)
    (prog : Program) : (doExecve s t path prog).Ends NoInodes fun r => Stays t s r.1 := by
  refine (namei_extra hhome path).bind fun r hr => ?_
  cases hi : r.2 with
  | none =>
      rw [hi] at hr
      exact hr.stays h t
  | some inode =>
      rw [hi] at hr
      cases prog with
      | bad => exact (iput_extra hr).bind fun s₁ hs => hs.stays h t
      | binary => exact finishExec_stays h hr t
      | script interp =>
          refine (iput_extra hr).bind fun s₁ hs => ?_
          cases interp with
          | none => exact hs.stays h t
          | some p =>
              obtain ⟨path, good⟩ := p
              have hstays := hs.stays h t
              have hhome₁ : AtHome s₁ (s₁.task t) := by
                rw [hs.task]
                exact hhome.extra hs
              refine (namei_extra hhome₁ path).bind fun r hr => ?_
              cases hi : r.2 with
              | none =>
                  rw [hi] at hr
                  have := hr.stays hstays.tables t
                  exact ⟨this.tables, hstays.kept.trans this.kept⟩
              | some inode =>
                  rw [hi] at hr
                  dsimp only
                  split
                  · exact (finishExec_stays hstays.tables hr t).mono fun r' hr' =>
                      ⟨hr'.tables, hstays.kept.trans hr'.kept⟩
                  · refine (iput_extra hr).bind fun s₂ hs₂ => ?_
                    have := hs₂.stays hstays.tables t
                    exact ⟨this.tables, hstays.kept.trans this.kept⟩

theorem doExit_ends (h : Tables s) (t : Fin NR_TASKS) :
    (doExit s t).Ends NoInodes fun s' => Tables s' ∧ s'.base = s.base ∧
      (∀ u, u ≠ t → s'.task u = s.task u) ∧ (s'.task t).status ≠ .live ∧ Gone (s'.task t) := by
  refine (closeAll_ends t _ _ h).bind fun s₁ hs₁ => ?_
  obtain ⟨htables, hsame, -, hall⟩ := hs₁
  have hfilp : ∀ fd, (s₁.task t).filp fd = none := fun fd =>
    hall (fun k fd hne => Option.isSome_iff_ne_none.mpr hne) fd (List.mem_finRange fd)
  have hhome := htables.home_le t
  simp only [Task.home] at hhome
  obtain ⟨c₁, hrun₁, hc₁⟩ := iput_next (s := s₁) (v := (s₁.task t).pwd) fun j hj => by
    have := hhome j
    rw [if_pos hj] at this
    omega
  rw [hrun₁, Outcome.bind_next]
  dsimp only
  set s₂ := setTask { s₁ with iCount := c₁ } t { s₁.task t with pwd := none } with hs₂
  have hself₂ : s₂.task t = { s₁.task t with pwd := none } := Function.update_self _ _ _
  obtain ⟨c₂, hrun₂, hc₂⟩ := iput_next (s := s₂) (v := (s₂.task t).root) fun j hj => by
    have := hhome j
    have hcj := hc₁ j
    rw [hself₂] at hj
    rw [if_pos hj] at this
    change c₁ j ≠ 0
    omega
  rw [hrun₂, Outcome.bind_next]
  have hroot : ∀ j, c₂ j + (if (s₁.task t).root = some j then 1 else 0) = c₁ j := fun j => by
    have := hc₂ j
    rwa [hself₂] at this
  set s₃ := setTask { s₂ with iCount := c₂ } t { s₂.task t with root := none } with hs₃
  have hself₃ : s₃.task t = { s₁.task t with pwd := none, root := none } := by
    rw [hs₃, setTask_task, Function.update_self, hself₂]
  obtain ⟨c₃, hrun₃, hc₃⟩ := iput_next (s := s₃) (v := (s₃.task t).executable) fun j hj => by
    have := hhome j
    have := hc₁ j
    have := hroot j
    rw [hself₃] at hj
    simp only [if_pos hj] at *
    change c₂ j ≠ 0
    omega
  have hexec : ∀ j, c₃ j + (if (s₁.task t).executable = some j then 1 else 0) = c₂ j := fun j => by
    have := hc₃ j
    rwa [hself₃] at this
  rw [hrun₃, Outcome.bind_next]
  set s₄ := setTask { s₃ with iCount := c₃ } t
    { s₃.task t with executable := none, status := .zombie } with hs₄
  have hself₄ : s₄.task t = { s₁.task t with
      pwd := none, root := none, executable := none, status := .zombie } := by
    rw [hs₄, setTask_task, Function.update_self, hself₃]
  have hothers : ∀ u, u ≠ t → s₄.task u = s₁.task u := fun u hu => by
    rw [hs₄, setTask_task, Function.update_of_ne hu, hs₃, setTask_task, Function.update_of_ne hu,
      hs₂, setTask_task, Function.update_of_ne hu]
  have hgone : Gone (s₄.task t) := by
    rw [hself₄]
    exact ⟨hfilp, rfl, rfl, rfl⟩
  refine ⟨htables.refer (t := t) hothers (by rw [hself₄]) rfl rfl (fun j => ?_) ?_, hsame.base,
    fun u hu => (hothers u hu).trans (hsame.others u hu), ?_, hgone⟩
  · have := hc₁ j
    have := hroot j
    have := hexec j
    rw [hgone.home, Task.home]
    change c₃ j + _ = _
    omega
  · rw [hself₄]
    exact htables.cloexec t
  · rw [hself₄]
    exact fun hlive => by cases hlive

/-! ### All runs -/

/-- The invariant, without the descriptors that the last call has returned. -/
structure Base (s : State) : Prop extends Tables s where
  home : ∀ t, (s.task t).status = .live →
    (∃ i, (s.task t).root = some i) ∧ ∃ i, (s.task t).pwd = some i
  gone : ∀ t, (s.task t).status ≠ .live → Gone (s.task t)
  base : s.base = initial.base

/-- An open descriptor that `execve` does not close. -/
def Lasting (s : State) (x : Fin NR_TASKS × Fin NR_OPEN) : Prop :=
  s.slot x ≠ none ∧ (s.task x.1).closeOnExec.getLsbD x.2 = false

structure Inv (s : State) : Prop extends Base s where
  new : ∀ x ∈ s.newFds, Lasting s x

theorem Base.of_stays (h : Base s) (hlive : (s.task t).status = .live) (hs : Stays t s s') :
    Base s' where
  toTables := hs.tables
  home u hu := by
    by_cases ht : u = t
    · subst ht
      rw [hs.kept.root, hs.kept.pwd]
      exact h.home u hlive
    · rw [hs.kept.others u ht] at hu ⊢
      exact h.home u hu
  gone u hu := by
    by_cases ht : u = t
    · subst ht
      rw [hs.kept.status] at hu
      exact absurd hlive hu
    · rw [hs.kept.others u ht] at hu ⊢
      exact h.gone u hu
  base := hs.kept.base.trans h.base

theorem Call.stays {r : State × Int} (h : Call t s r) : Stays t s r.1 := ⟨h.tables, h.same.toKept⟩

/-- What a call has returned is of no account to the tables. -/
theorem Base.newFds (h : Base s) (fds : List (Fin NR_TASKS × Fin NR_OPEN)) :
    Base { s with newFds := fds } where
  ok := h.ok
  cloexec := h.cloexec
  home := h.home
  gone := h.gone
  base := h.base

theorem Base.inv (h : Base s) : Inv { s with newFds := [] } where
  toBase := h.newFds []
  new x hx := by cases hx

theorem returnsFd_inv {o : Outcome (State × Int)} (h : Base s) (hlive : (s.task t).status = .live)
    (ho : o.Ends NoInodes fun r => Call t s r ∧ Fresh t r) :
    (returnsFd t o).Ends NoInodes Inv := by
  refine ho.bind fun r hr => ⟨(h.of_stays hlive hr.1.stays).newFds _, fun x hx => ?_⟩
  obtain ⟨fd, hfd, rfl⟩ := List.mem_map.mp hx
  exact hr.2 fd (of_decide_eq_true (List.mem_filter.mp hfd).2)

theorem returnsNone_inv {o : Outcome (State × Int)}
    (ho : o.Ends NoInodes fun r => Base r.1) : (returnsNone o).Ends NoInodes Inv :=
  ho.bind fun _ hr => hr.inv

theorem copyProcess_base (h : Base s) (hlive : (s.task t).status = .live) (nr : Fin NR_TASKS)
    (copied : Bool) : (copyProcess s t nr copied).Ends NoInodes fun r => Base r.1 := by
  refine (copyProcess_ends h.toTables copied fun hfree => h.gone nr ?_).mono fun r hr => ?_
  · rw [hfree]
    exact fun hl => by cases hl
  · obtain ⟨htables, hbase, htask | ⟨hfree, htask⟩⟩ := hr
    · refine ⟨htables, ?_, ?_, hbase.trans h.base⟩
      · rw [htask]
        exact h.home
      · rw [htask]
        exact h.gone
    · refine ⟨htables, fun u hu => ?_, fun u hu => ?_, hbase.trans h.base⟩
      · rw [htask] at hu ⊢
        by_cases hn : u = nr
        · rw [hn, Function.update_self]
          exact h.home t hlive
        · rw [Function.update_of_ne hn] at hu ⊢
          exact h.home u hu
      · rw [htask] at hu ⊢
        by_cases hn : u = nr
        · rw [hn, Function.update_self] at hu
          exact absurd hlive hu
        · rw [Function.update_of_ne hn] at hu ⊢
          exact h.gone u hu

/-- A task that is no longer there. -/
theorem Base.dead (h : Base s) (htables : Tables s') (hbase : s'.base = s.base)
    (hothers : ∀ u, u ≠ t → s'.task u = s.task u) (hdead : (s'.task t).status ≠ .live)
    (hgone : Gone (s'.task t)) : Base s' where
  toTables := htables
  home u hu := by
    by_cases ht : u = t
    · subst ht
      exact absurd hu hdead
    · rw [hothers u ht] at hu ⊢
      exact h.home u hu
  gone u hu := by
    by_cases ht : u = t
    · subst ht
      exact hgone
    · rw [hothers u ht] at hu ⊢
      exact h.gone u hu
  base := hbase.trans h.base

theorem release_inv (h : Base s) (hz : (s.task t).status = .zombie) :
    Inv { setTask s t { s.task t with status := .free } with newFds := [] } := by
  have hgone : Gone (s.task t) := h.gone t (by rw [hz]; exact fun hl => by cases hl)
  set s' := setTask s t { s.task t with status := .free } with hs'
  have hself : s'.task t = { s.task t with status := .free } := Function.update_self _ _ _
  have hothers : ∀ u, u ≠ t → s'.task u = s.task u := fun u hu => Function.update_of_ne hu _ _
  have htables : Tables s' := by
    refine h.toTables.refer (t := t) hothers (by rw [hself]) rfl rfl (fun i => ?_) ?_
    · rw [hself]
      rfl
    · rw [hself]
      exact h.cloexec t
  refine (h.dead (t := t) htables rfl hothers ?_ ?_).inv
  · rw [hself]
    exact fun hl => by cases hl
  · rw [hself]
    exact ⟨hgone.filp, hgone.pwd, hgone.root, hgone.executable⟩

/-- **The step lemma.** -/
theorem step_inv (h : Base s) (a : Fin NR_TASKS × Op) : (step s a).Ends NoInodes Inv := by
  obtain ⟨t, op⟩ := a
  unfold step
  split
  · next t' heq =>
      split
      · next hz => exact release_inv h hz
      · exact True.intro
  · next t' op' hop heq =>
      obtain ⟨rfl, rfl⟩ := Prod.mk.inj heq
      split
      · next hlive =>
          obtain ⟨⟨i, hroot⟩, j, hpwd⟩ := h.home t hlive
          cases op with
          | «open» path flag a node =>
              exact returnsFd_inv h hlive (sysOpen_call h.toTables hroot hpwd path flag a node)
          | creat path a node =>
              exact returnsFd_inv h hlive (sysOpen_call h.toTables hroot hpwd path _ a node)
          | close fd =>
              exact returnsNone_inv ((sysClose_call h.toTables t fd).mono fun r hr =>
                h.of_stays hlive hr.stays)
          | dup fd => exact returnsFd_inv h hlive (dupfd_call h.toTables t fd 0)
          | dup2 oldfd newfd =>
              exact returnsFd_inv h hlive (sysDup2_call h.toTables t oldfd newfd)
          | fcntl fd cmd arg =>
              have hcall := sysFcntl_call h.toTables t fd cmd arg
              have hbase := hcall.mono fun _ hr => h.of_stays hlive hr.1.stays
              cases cmd with
              | dupfd => exact returnsFd_inv h hlive (hcall.mono fun r hr => ⟨hr.1, hr.2 rfl⟩)
              | getfd => exact returnsNone_inv hbase
              | setfd => exact returnsNone_inv hbase
              | getfl => exact returnsNone_inv hbase
              | setfl => exact returnsNone_inv hbase
              | other => exact returnsNone_inv hbase
          | pipe i page =>
              refine (sysPipe_piped h.toTables t i page).bind fun r hr => ?_
              refine ⟨(h.of_stays hlive ⟨hr.tables, hr.same.toKept⟩).newFds _, fun x hx => ?_⟩
              cases hp : r.2 with
              | none =>
                  rw [hp] at hx
                  cases hx
              | some p =>
                  rw [hp] at hx
                  rcases List.mem_cons.mp hx with rfl | hx
                  · exact hr.fresh p hp _ (Or.inl rfl)
                  · rw [List.mem_singleton.mp hx]
                    exact hr.fresh p hp _ (Or.inr rfl)
          | fork nr copied => exact returnsNone_inv (copyProcess_base h hlive nr copied)
          | execve path prog =>
              exact returnsNone_inv ((doExecve_stays h.toTables (h.toTables.atHome hroot hpwd) path
                prog).mono fun r hr => h.of_stays hlive hr)
          | exit =>
              refine (doExit_ends h.toTables t).bind fun s' hs' => ?_
              obtain ⟨htables, hbase, hothers, hdead, hgone⟩ := hs'
              exact (h.dead htables hbase hothers hdead hgone).inv
          | release => exact True.intro
      · exact True.intro

theorem initial_inv : Inv initial where
  ok := by
    have hslot : ∀ f, refs Finset.univ initial.slot f = 0 := fun f => by
      rw [refs_eq_zero]
      exact fun x _ hx => by cases hx
    have htarget : ∀ i, refs Finset.univ initial.openInode i = 0 := fun i => by
      rw [refs_eq_zero]
      exact fun f _ hf => by cases hf
    have hexec : ∀ i, refs Finset.univ (fun t => (initial.task t).executable) i = 0 := fun i => by
      rw [refs_eq_zero]
      exact fun t _ ht => by cases ht
    have hone : ∀ i, refs (Finset.univ : Finset (Fin NR_TASKS))
        (fun t => if t = 1 then some (0 : Ino) else none) i = if i = 0 then 1 else 0 := by
      decide
    refine ⟨fun f => (hslot f).symm,
      fun f => iff_of_false (fun h => h rfl) (by rintro ⟨i, hi⟩; cases hi), fun i => ?_⟩
    change initial.iCount i = refs Finset.univ initial.openInode i +
      (refs Finset.univ (fun t => (initial.task t).pwd) i +
        refs Finset.univ (fun t => (initial.task t).root) i +
        refs Finset.univ (fun t => (initial.task t).executable) i + initial.base i)
    have hpwd : refs Finset.univ (fun t => (initial.task t).pwd) i = if i = 0 then 1 else 0 := hone i
    have hroot : refs Finset.univ (fun t => (initial.task t).root) i = if i = 0 then 1 else 0 :=
      hone i
    rw [htarget, hexec, hpwd, hroot]
    change (if i = 0 then 4 else 0) = 0 + (_ + _ + 0 + if i = 0 then 2 else 0)
    split <;> rfl
  cloexec t b hb := by
    have hb' : (0#32).getLsbD b = true := hb
    rw [BitVec.getLsbD_zero] at hb'
    cases hb'
  home t ht := by
    change (if t = 1 then Status.live else .free) = .live at ht
    have h1 : t = 1 := by
      by_contra hne
      rw [if_neg hne] at ht
      cases ht
    subst h1
    exact ⟨⟨0, rfl⟩, 0, rfl⟩
  gone t ht := by
    have h1 : t ≠ 1 := fun he => ht (by rw [he]; rfl)
    exact ⟨fun fd => rfl, if_neg h1, if_neg h1, rfl⟩
  base := rfl
  new x hx := by cases hx

theorem Base.small (h : Base s) :
    (∀ f, (s.file f).fCount < 2 ^ 16) ∧ ∀ i, s.iCount i < 2 ^ 16 := by
  refine ⟨fun f => ?_, fun i => ?_⟩
  · have hle : (s.file f).fCount ≤ Fintype.card (Fin NR_TASKS × Fin NR_OPEN) := h.ok.count_le f
    rw [Fintype.card_prod, Fintype.card_fin, Fintype.card_fin, NR_TASKS, NR_OPEN] at hle
    omega
  · have hle : s.iCount i ≤ Fintype.card (Fin NR_FILE) + s.otherRefs i := h.ok.refCount_le i
    have hrefs : ∀ g : Fin NR_TASKS → Option Ino, refs Finset.univ g i ≤ 64 := fun g =>
      (Finset.card_le_univ _).trans (by rw [Fintype.card_fin])
    have hpwd := hrefs fun t => (s.task t).pwd
    have hroot := hrefs fun t => (s.task t).root
    have hexec := hrefs fun t => (s.task t).executable
    have hbase : s.base i ≤ 2 := by
      rw [h.base]
      change (if i = 0 then 2 else 0) ≤ 2
      split <;> omega
    rw [Fintype.card_fin, NR_FILE, State.otherRefs] at hle
    omega

theorem Inv.agree (h : Inv s) : Agree s where
  count := h.ok.count
  pointed _ _ hx := h.ok.count_pos hx
  inode f hf := (h.ok.target f).mp hf
  inodes := h.ok.refCount
  cloexec := h.cloexec
  new := h.new
  small := h.small

/-- After every call of every run the tables agree, and no call panics but for want of
inodes. -/
theorem agree_reaches (h : Reaches step (fun _ _ => True) initial s) :
    Agree s ∧ ∀ a msg, step s a = .panic msg → msg = "No free inodes in mem" := by
  have hinv : Inv s := h.invariant initial_inv fun s₁ a s₂ hs₁ _ hstep =>
    (step_inv hs₁.toBase a).of_next hstep
  refine ⟨hinv.agree, fun a msg hmsg => ?_⟩
  have hends := step_inv hinv.toBase a
  rw [hmsg] at hends
  exact hends

/-- The file `i` in the root. -/
def rootPath (i : Option Ino) : Path :=
  ⟨false, true, [], true, some ⟨none, i⟩⟩

def plainAnswers : Answers := ⟨true, false, 5, true, true⟩

/-- A file is opened, copied and marked, a pipe is made; the child executes a program and
exits, and an `open` fails. -/
def shellRun : List (Fin NR_TASKS × Op) :=
  [(1, .open (rootPath (some 3)) 2 plainAnswers .other), (1, .dup 0), (1, .fcntl 1 .setfd 1),
    (1, .pipe 7 true), (1, .fork 2 true), (2, .execve (rootPath (some 4)) .binary), (2, .exit),
    (1, .open (rootPath none) 0 plainAnswers .other), (1, .creat (rootPath none) plainAnswers .other)]

theorem agree_reaches_shellRun :
    let s := (run step initial shellRun).get initial
    (Agree s ∧ ∀ a msg, step s a = .panic msg → msg = "No free inodes in mem") ∧
      (List.finRange 6).map (fun fd => s.slot (1, fd.castLE (by decide))) =
        [some 0, some 0, some 1, some 2, some 3, none] ∧
      (List.finRange 8).map (fun i => s.iCount (i.castLE (by decide))) = [4, 0, 0, 1, 0, 1, 0, 2] ∧
      (s.file 0).fCount = 2 ∧ s.newFds = [(1, 4)] := by
  intro s
  have hrun := Outcome.eq_next (o := run step initial shellRun) (by decide) initial
  exact ⟨agree_reaches (Reaches.of_run hrun (RunOk.trivial step initial shellRun)),
    by decide⟩

end LinuxKernel.V011.Fs.FileTable
