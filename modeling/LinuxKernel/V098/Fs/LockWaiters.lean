import LinuxKernel.V098.Fs.LockTurn

/-!
# LinuxKernel.V098.Fs.LockWaiters

The **tasks that wait for a record lock**. Each hangs on one entry of the table, and
`free_lock` wakes those of the entry it frees.

An entry that is trimmed, or becomes the bottom piece of two, keeps its waiters,
and no one is woken. This goes wrong for a waiter that has nothing to wait for in
what is left of the entry (`Takes`).
-/

namespace LinuxKernel.V098.Fs.Locks

/-! ### Waiters -/

/-- Who is asleep waits for a lock that is in his way. -/
def Waiting (s : State) : Prop :=
  ∀ t fl wanted, s.pc t = .asleep fl wanted →
    fl ∈ s.flock ∧ conflict (wanted.lock t) (s.table fl) = true

/-- `[lo, hi]` comes close to the entry: one cannot be told from the other by a gap. -/
def FileLock.Touches (e : FileLock) (lo hi : Int) : Prop :=
  lo ≤ e.flEnd + 1 ∧ e.flStart ≤ hi + 1

/-- What stays in an entry that loses the bytes of the request. -/
def FileLock.keeps (e : FileLock) (req : Request) : Int × Int :=
  if e.flStart < req.flStart then (e.flStart, min e.flEnd (req.flStart - 1))
  else (max e.flStart (req.flEnd + 1), e.flEnd)

/-- The request is to replace the entry. -/
def Replaces (t : Task) (req : Request) (e : FileLock) : Prop :=
  e.flOwner = some t ∧ e.flType ≠ req.flType ∧ req.flStart ≤ e.flStart ∧ e.flEnd ≤ req.flEnd

/-- The request is to be taken out of the middle of the entry, and there is no entry
for the piece behind it. -/
def NoRoom (s : State) (t : Task) (req : Request) (fl : Slot) : Prop :=
  (s.table fl).flStart < req.flStart ∧ req.flEnd < (s.table fl).flEnd ∧
    s.freeList.length < (if req.flType = .unlck then 1 else 2) ∧
    ∀ g ∈ s.flock, g ≠ fl → (s.table g).flOwner = some t →
      ¬ (s.table g).Touches req.flStart req.flEnd

/-- The call of `t` takes from its entry `fl` all that a waiter on it wants, and does not
free it. Nothing comes of it where `lock_it` has no room, or stops at an entry it replaces
before it gets there. -/
def Takes (s : State) (t : Task) (req : Request) (fl : Slot) (wanted : Request) : Prop :=
  (s.table fl).flOwner = some t ∧ (s.table fl).flType ≠ req.flType ∧
  ¬ (req.flStart ≤ (s.table fl).flStart ∧ (s.table fl).flEnd ≤ req.flEnd) ∧
  ¬ (req.flType ≠ .unlck ∧ ∃ g ∈ s.flock.takeWhile (· ≠ fl), Replaces t req (s.table g)) ∧
  ¬ NoRoom s t req fl ∧
  ¬ (max wanted.flStart ((s.table fl).keeps req).1 ≤ min wanted.flEnd ((s.table fl).keeps req).2 ∧
    ∀ g ∈ s.flock, (s.table g).flOwner = some t → (s.table g).flType = req.flType →
      overlap (s.table g) (s.table fl) = false)

/-- Nothing is taken from the entry that a task at `pc` waits for. -/
def Pc.Spared (s : State) (t : Task) (req : Request) (fl : Slot) : Pc → Prop
  | .asleep _ wanted => ¬ Takes s t req fl wanted
  | _ => True

/-- No one is left on an entry that has nothing for him any more. -/
def LeavesNone (s : State) (t : Task) (req : Request) : Prop :=
  req.flType = .unlck ∨ Locked s t req →
    ∀ fl ∈ s.flock, ∀ u ∈ (s.table fl).flWait, (s.pc u).Spared s t req fl

def Considerate (s : State) : Op → Prop
  | .setlk t _ filp l =>
      match checkArgs filp l with
      | .ok req => LeavesNone s t req
      | .error _ => True
  | .again t =>
      match s.pc t with
      | .woken req => LeavesNone s t req
      | _ => True
  | _ => True

/-! ### Single updates -/

/-- All waiters are in the queues of entries that are in their way. -/
structure Attended (s : State) : Prop where
  wf : Wf s
  queued : ∀ t fl wanted, s.pc t = .asleep fl wanted →
    fl ∈ s.flock ∧ t ∈ (s.table fl).flWait ∧ conflict (wanted.lock t) (s.table fl) = true

/-- No one has gone to sleep. -/
def NoneAsleep (s s' : State) : Prop := ∀ u, Moves (s.pc u) (s'.pc u)

section Updates

variable {s s' : State} {fl new : Slot} {t u : Task} {e e' : FileLock} {c : FileLock}
  {wanted : Request} {lo hi : Int}

theorem Attended.waiting (h : Attended s) : Waiting s := fun t fl wanted hp =>
  ⟨(h.queued t fl wanted hp).1, (h.queued t fl wanted hp).2.2⟩

theorem conflict_overlap (h : conflict c e = true) : overlap c e = true := by
  unfold conflict at h
  split at h
  · cases h
  · split at h
    · cases h
    · rename_i hover
      simpa using hover

/-- A lock that changes its range only is in the way as long as it overlaps. -/
theorem conflict_of_overlap (h : conflict c e = true) (howner : e'.flOwner = e.flOwner)
    (htype : e'.flType = e.flType) (hover : overlap c e' = true) : conflict c e' = true := by
  have hover' := conflict_overlap h
  unfold conflict at h ⊢
  rw [howner, htype, hover]
  rwa [hover'] at h

theorem NoneAsleep.refl : NoneAsleep s s := fun _ => Or.inl rfl

theorem NoneAsleep.trans {s'' : State} (h : NoneAsleep s s') (h' : NoneAsleep s' s'') :
    NoneAsleep s s'' := fun u => (h u).trans (h' u)

theorem NoneAsleep.asleep {fl' : Slot} (h : NoneAsleep s s') (hp : s'.pc u = .asleep fl' wanted) :
    s.pc u = .asleep fl' wanted := by
  rcases h u with he | ⟨_, _, -, he⟩
  · rw [← he]
    exact hp
  · rw [he] at hp
    cases hp

theorem NoneAsleep.freed : NoneAsleep s (s.freed fl) := freed_pc s fl

theorem Attended.freed (h : Attended s) (hfl : fl ∈ s.flock) : Attended (s.freed fl) where
  wf := h.wf.freed hfl
  queued u fl' wanted hp := by
    obtain ⟨hmem, hwait, hconf⟩ := h.queued u fl' wanted (NoneAsleep.freed.asleep hp)
    have hne : fl' ≠ fl := by
      rintro rfl
      -- those in its queue have been woken
      have hold := NoneAsleep.freed.asleep hp
      unfold State.freed wakeUp at hp
      simp [hold, hwait] at hp
    rw [freed_of_ne hne]
    exact ⟨(List.mem_erase_of_ne hne).mpr hmem, hwait, hconf⟩

theorem Attended.setEntry (h : Attended s) (hwf : Wf (s.setEntry fl e))
    (howner : e.flOwner = (s.table fl).flOwner) (htype : e.flType = (s.table fl).flType)
    (hwait : e.flWait = (s.table fl).flWait)
    (hover : ∀ u wanted, s.pc u = .asleep fl wanted → overlap (wanted.lock u) e = true) :
    Attended (s.setEntry fl e) where
  wf := hwf
  queued u fl' wanted hp := by
    obtain ⟨hmem, hq, hconf⟩ := h.queued u fl' wanted hp
    by_cases hne : fl' = fl
    · subst hne
      rw [setEntry_self]
      exact ⟨hmem, hwait ▸ hq, conflict_of_overlap hconf howner htype (hover u wanted hp)⟩
    · rw [setEntry_of_ne hne]
      exact ⟨hmem, hq, hconf⟩

theorem Attended.alloced (h : Attended s) (hwf : Wf (s.alloced new t e))
    (hnew : new ∉ s.flock) : Attended (s.alloced new t e) where
  wf := hwf
  queued u fl' wanted hp := by
    obtain ⟨hmem, hq, hconf⟩ := h.queued u fl' wanted hp
    have hne : fl' ≠ new := fun he => hnew (he ▸ hmem)
    rw [alloced_of_ne hne]
    exact ⟨List.mem_cons_of_mem new hmem, hq, hconf⟩

end Updates

/-! ### What a call leaves in an entry -/

section Keeps

variable {s s₀ s' : State} {t u : Task} {req wanted : Request} {one one' : Bool}
  {caller caller' fl new : Slot} {rest passed : List Slot} {p : State × Int}

variable (req) in
theorem FileLock.mem_keeps {e : FileLock} {b : Int}
    (h : (e.keeps req).1 ≤ b ∧ b ≤ (e.keeps req).2) : (e.flStart ≤ b ∧ b ≤ e.flEnd) ∧
      (b < req.flStart ∨ req.flEnd < b ∧ req.flStart ≤ e.flStart) := by
  unfold FileLock.keeps at h
  split at h
  · dsimp only at h
    omega
  · dsimp only at h
    omega

/-- A byte of the entry that a waiter wants, and that stays in it. -/
theorem Takes.exists_kept (hnot : ¬ Takes s t req fl wanted)
    (howner : (s.table fl).flOwner = some t) (htype : (s.table fl).flType ≠ req.flType)
    (hcov : ¬ (req.flStart ≤ (s.table fl).flStart ∧ (s.table fl).flEnd ≤ req.flEnd))
    (hstop : ¬ (req.flType ≠ .unlck ∧
      ∃ g ∈ s.flock.takeWhile (· ≠ fl), Replaces t req (s.table g)))
    (hroom : ¬ NoRoom s t req fl) (hr : (s.table fl).flStart ≤ (s.table fl).flEnd) :
    ∃ b, (wanted.flStart ≤ b ∧ b ≤ wanted.flEnd) ∧
      ((s.table fl).flStart ≤ b ∧ b ≤ (s.table fl).flEnd) ∧
      (b < req.flStart ∨ req.flEnd < b ∧ req.flStart ≤ (s.table fl).flStart) ∧
      ∀ g ∈ s.flock, (s.table g).flOwner = some t → (s.table g).flType = req.flType →
        (s.table g).flStart ≤ (s.table g).flEnd →
        ¬ ((s.table g).flStart ≤ b ∧ b ≤ (s.table g).flEnd) := by
  obtain ⟨hb, halone⟩ := not_not.mp fun h => hnot ⟨howner, htype, hcov, hstop, hroom, h⟩
  have hmem := FileLock.mem_keeps req (b := max wanted.flStart ((s.table fl).keeps req).1)
    (e := s.table fl) ⟨by omega, by omega⟩
  refine ⟨_, ⟨by omega, by omega⟩, hmem.1, hmem.2, fun g hg hgowner hgtype hgr hgb => ?_⟩
  have hover := (overlap_iff hgr hr).mpr ⟨by omega, by omega⟩
  rw [halone g hg hgowner hgtype] at hover
  cases hover

theorem takeWhile_passed {l : List Slot} (hnd : l.Nodup) (hl : l = passed ++ fl :: rest) :
    l.takeWhile (· ≠ fl) = passed := by
  subst hl
  have hne : ∀ g ∈ passed, decide (g ≠ fl) = true := fun g hg => by
    refine decide_eq_true fun he => ?_
    exact (List.disjoint_of_nodup_append hnd) hg (he ▸ List.mem_cons_self)
  rw [List.takeWhile_append_of_pos hne, List.takeWhile_cons_of_neg (by simp), List.append_nil]

end Keeps

/-! ### The loop of `lock_it` -/

/-- What `lock_it` has come to, from `s₀` on. -/
structure Watch (s₀ : State) (t : Task) (req : Request) (s : State) (caller : Slot)
    (rest : List Slot) : Prop where
  place : Place t req.flType s caller rest
  attended : Attended s
  asleep : NoneAsleep s₀ s
  table : ∀ g ∈ rest, s.table g = s₀.table g
  covers : (s.table caller).flStart ≤ req.flStart ∧ req.flEnd ≤ (s.table caller).flEnd
  /-- The new lock is made of the request and of locks of the same type. -/
  bytes : ∀ b, (s.table caller).flStart ≤ b → b ≤ (s.table caller).flEnd →
    (req.flStart ≤ b ∧ b ≤ req.flEnd) ∨
    ∃ g ∈ s₀.flock, (s₀.table g).flOwner = some t ∧ (s₀.table g).flType = req.flType ∧
      (s₀.table g).flStart ≤ b ∧ b ≤ (s₀.table g).flEnd
  passed : ∃ passed, s₀.flock = passed ++ rest ∧
    (∀ g ∈ passed, ¬ Replaces t req (s₀.table g)) ∧
    (s.freeList = s₀.freeList.tail ∧ (s.table caller).flStart = req.flStart ∧
        (s.table caller).flEnd = req.flEnd ∨
      ∃ g ∈ passed, (s₀.table g).flOwner = some t ∧ (s₀.table g).Touches req.flStart req.flEnd)

section Watch

variable {s₀ s s' : State} {t : Task} {req : Request} {caller caller' fl : Slot}
  {rest : List Slot} {p : State × Int}

/-- No one is left on the entry `fl`, where it loses bytes of the new lock but not all. -/
theorem Watch.exists_kept (hwf : Wf s₀) (hleave : LeavesNone s₀ t req)
    (hlocked : Locked s₀ t req) (h : Watch s₀ t req s caller (fl :: rest)) (howner : (s.table fl).flOwner = some t)
    (htype : (s.table fl).flType ≠ (s.table caller).flType)
    (hcov : (s.table fl).flStart < (s.table caller).flStart ∨
      (s.table caller).flEnd < (s.table fl).flEnd)
    (hroom : (s.table fl).flStart < (s.table caller).flStart →
      (s.table caller).flEnd < (s.table fl).flEnd → s.freeList ≠ [])
    {u : Task} {wanted : Request} (hp : s.pc u = .asleep fl wanted) :
    ∃ b, (wanted.flStart ≤ b ∧ b ≤ wanted.flEnd) ∧
      ((s.table fl).flStart ≤ b ∧ b ≤ (s.table fl).flEnd) ∧
      (b < (s.table caller).flStart ∨
        (s.table caller).flEnd < b ∧ (s.table caller).flStart ≤ (s.table fl).flStart) := by
  have hfl := h.place.head_mem
  have hsame := h.table fl List.mem_cons_self
  obtain ⟨-, hr, -⟩ := h.place.wf.ranged fl hfl
  obtain ⟨passed, hpassed, hrep, hfree⟩ := h.passed
  have hfl₀ : fl ∈ s₀.flock := by
    rw [hpassed]
    exact List.mem_append_right _ List.mem_cons_self
  have hnot := hleave (Or.inr hlocked) fl hfl₀ u (hsame ▸ (h.attended.queued u fl wanted hp).2.1)
  rw [h.asleep.asleep hp] at hnot
  have hcov' := h.covers
  have hreq := req.range.2.1
  rw [hsame] at howner htype hcov hroom hr ⊢
  have hstop : ¬ (req.flType ≠ .unlck ∧
      ∃ g ∈ s₀.flock.takeWhile (· ≠ fl), Replaces t req (s₀.table g)) := fun hstop => by
    rw [takeWhile_passed hwf.nodup hpassed] at hstop
    obtain ⟨-, g, hg, hgr⟩ := hstop
    exact hrep g hg hgr
  have hno : ¬ NoRoom s₀ t req fl := fun hno => by
    obtain ⟨hlo, hhi, hlen, halone⟩ := hno
    rcases hfree with ⟨hfree, hstart, hend⟩ | ⟨g, hg, hgo, hgt⟩
    · rw [if_neg hlocked.1] at hlen
      refine hroom (by omega) (by omega) ?_
      rw [hfree]
      refine List.length_eq_zero_iff.mp ?_
      rw [List.length_tail]
      omega
    · have hnd := hwf.nodup
      rw [hpassed] at hnd
      refine halone g (by rw [hpassed]; exact List.mem_append_left _ hg) ?_ hgo hgt
      rintro rfl
      exact (List.disjoint_of_nodup_append hnd) hg List.mem_cons_self
  obtain ⟨b, hb, hbe, hbr, hbg⟩ := Takes.exists_kept hnot howner
    (fun he => htype (he.trans h.place.type.symm)) (by omega) hstop hno hr
  refine ⟨b, hb, hbe, ?_⟩
  -- the new lock has not got the byte
  have hout : ¬ ((s.table caller).flStart ≤ b ∧ b ≤ (s.table caller).flEnd) := fun hin => by
    rcases h.bytes b hin.1 hin.2 with hreq | ⟨g, hg, hgo, hgt, hgb⟩
    · omega
    · exact hbg g hg hgo hgt (hwf.ranged g hg).2.1 hgb
  omega

/-- Past an entry that is not replaced. -/
theorem passed_snoc (h : Watch s₀ t req s caller (fl :: rest)) (hfl : ¬ Replaces t req (s₀.table fl))
    (hnext : s'.freeList = s.freeList ∧ (s'.table caller').flStart = (s.table caller).flStart ∧
        (s'.table caller').flEnd = (s.table caller).flEnd ∨
      ((s.table caller).flStart = req.flStart → (s.table caller).flEnd = req.flEnd →
        (s₀.table fl).flOwner = some t ∧ (s₀.table fl).Touches req.flStart req.flEnd)) :
    ∃ passed, s₀.flock = passed ++ rest ∧ (∀ g ∈ passed, ¬ Replaces t req (s₀.table g)) ∧
      (s'.freeList = s₀.freeList.tail ∧ (s'.table caller').flStart = req.flStart ∧
          (s'.table caller').flEnd = req.flEnd ∨
        ∃ g ∈ passed, (s₀.table g).flOwner = some t ∧
          (s₀.table g).Touches req.flStart req.flEnd) := by
  obtain ⟨passed, hpassed, hrep, hfree⟩ := h.passed
  refine ⟨passed ++ [fl], by rw [hpassed, List.append_assoc]; rfl, fun g hg => ?_, ?_⟩
  · rcases List.mem_append.mp hg with hg | hg
    · exact hrep g hg
    · rw [List.mem_singleton.mp hg]
      exact hfl
  · rcases hfree with ⟨hf, hs, he⟩ | ⟨g, hg, hgo⟩
    · rcases hnext with ⟨hf', hs', he'⟩ | htouch
      · exact Or.inl ⟨hf'.trans hf, hs'.trans hs, he'.trans he⟩
      · exact Or.inr ⟨fl, by simp, htouch hs he⟩
    · exact Or.inr ⟨g, List.mem_append_left _ hg, hgo⟩

/-- **One turn leaves no one waiting for nothing.** -/
theorem Turn.watch (hwf : Wf s₀) (hleave : LeavesNone s₀ t req) (hlocked : Locked s₀ t req)
    (hturn : Turn t s caller fl s' caller') (h : Watch s₀ t req s caller (fl :: rest)) :
    Watch s₀ t req s' caller' rest := by
  have hplace := hturn.place h.place
  have hfl := h.place.head_mem
  have hsame := h.table fl List.mem_cons_self
  obtain ⟨-, hr, -⟩ := h.place.wf.ranged fl hfl
  obtain ⟨-, hc, -⟩ := h.place.wf.ranged caller h.place.mem
  have hcov := h.covers
  have hreq := req.range.2.1
  have htable : ∀ g ∈ rest, s'.table g = s₀.table g := fun g hg =>
    (hturn.table h.place g hg).trans (h.table g (List.mem_cons_of_mem fl hg))
  have hfl₀ : fl ∈ s₀.flock := by
    obtain ⟨passed, hpassed, -⟩ := h.passed
    rw [hpassed]
    exact List.mem_append_right _ List.mem_cons_self
  cases hturn with
  | pass hout =>
      refine ⟨hplace, h.attended, h.asleep, htable, hcov, h.bytes,
        passed_snoc h (fun hrep => ?_) (Or.inl ⟨rfl, rfl, rfl⟩)⟩
      rw [← hsame] at hrep
      have := hout hrep.1
      have := hrep.2.2.1
      have := hrep.2.2.2
      omega
  | grow howner htype hleft hright =>
      have hne := h.place.head_ne
      have hnew : ((s.grown caller caller').freed caller).table caller' = { s.table caller' with
          flStart := min (s.table caller).flStart (s.table caller').flStart
          flEnd := max (s.table caller).flEnd (s.table caller').flEnd } := by
        rw [freed_of_ne hne]
        exact setEntry_self
      have hgrown : Attended (s.grown caller caller') := by
        obtain ⟨hr₀, hr₁, hr₂, hr₃⟩ := h.place.wf.ranged caller' hfl
        obtain ⟨hc₀, hc₁, hc₂, -⟩ := h.place.wf.ranged caller h.place.mem
        refine h.attended.setEntry (h.place.wf.setEntry hfl (by rw [howner]; simp)
          ⟨by dsimp only; omega, by dsimp only; omega, by dsimp only; omega, hr₃⟩) rfl rfl rfl
          fun u wanted hp => ?_
        have hw := wanted.range.2.1
        have hover := conflict_overlap (h.attended.queued u caller' wanted hp).2.2
        rw [overlap_iff (e := wanted.lock u) hw hr₁] at hover
        refine (overlap_iff (e := wanted.lock u) hw (by dsimp only; omega)).mpr ?_
        dsimp only
        omega
      refine ⟨hplace, hgrown.freed h.place.mem,
        h.asleep.trans (NoneAsleep.freed (s := s.grown caller caller')), htable, ?_, ?_, passed_snoc h (fun hrep => ?_) (Or.inr fun hs he => ?_)⟩
      · rw [hnew]
        dsimp only
        omega
      · rw [hnew]
        intro b hlo hhi
        dsimp only at hlo hhi
        by_cases hin : (s.table caller').flStart ≤ b ∧ b ≤ (s.table caller').flEnd
        · right
          exact ⟨caller', hfl₀, hsame ▸ howner, hsame ▸ htype.trans h.place.type, hsame ▸ hin.1,
            hsame ▸ hin.2⟩
        · exact h.bytes b (by omega) (by omega)
      · rw [← hsame] at hrep
        exact hrep.2.1 (htype.trans h.place.type)
      · rw [← hsame]
        exact ⟨howner, by omega, by omega⟩
  | trimStart howner htype hlo hmid hhi =>
      have hne := h.place.head_ne.symm
      refine ⟨hplace, h.attended.setEntry hplace.wf rfl rfl rfl fun u wanted hp => ?_,
        h.asleep, htable, ?_, ?_, passed_snoc h (fun hrep => ?_) (Or.inl ⟨rfl, ?_⟩)⟩
      · obtain ⟨b, hb, hbe, hbc⟩ := h.exists_kept hwf hleave hlocked howner htype (Or.inr hhi)
          (fun hlt => by omega) hp
        refine (overlap_iff (e := wanted.lock u) wanted.range.2.1 (by dsimp only; omega)).mpr ?_
        change wanted.flStart ≤ _ ∧ _ ≤ wanted.flEnd
        dsimp only
        omega
      · rw [setEntry_of_ne hne]
        exact hcov
      · rw [setEntry_of_ne hne]
        exact h.bytes
      · rw [← hsame] at hrep
        have := hrep.2.2.2
        omega
      · rw [setEntry_of_ne hne]
        exact ⟨rfl, rfl⟩
  | trimEnd howner htype hlo hmid hhi =>
      have hne := h.place.head_ne.symm
      refine ⟨hplace, h.attended.setEntry hplace.wf rfl rfl rfl fun u wanted hp => ?_,
        h.asleep, htable, ?_, ?_, passed_snoc h (fun hrep => ?_) (Or.inl ⟨rfl, ?_⟩)⟩
      · obtain ⟨b, hb, hbe, hbc⟩ := h.exists_kept hwf hleave hlocked howner htype (Or.inl hlo)
          (fun _ hlt => by omega) hp
        refine (overlap_iff (e := wanted.lock u) wanted.range.2.1 (by dsimp only; omega)).mpr ?_
        change wanted.flStart ≤ _ ∧ _ ≤ wanted.flEnd
        dsimp only
        omega
      · rw [setEntry_of_ne hne]
        exact hcov
      · rw [setEntry_of_ne hne]
        exact h.bytes
      · rw [← hsame] at hrep
        have := hrep.2.2.1
        omega
      · rw [setEntry_of_ne hne]
        exact ⟨rfl, rfl⟩

/-- An entry that becomes two. -/
theorem Attended.split {new : Slot} {free : List Slot} {lo hi : Int} (h : Attended s)
    (hfree : s.freeList = new :: free) (hfl : fl ∈ s.flock)
    (howner : (s.table fl).flOwner = some t) (hlo : (s.table fl).flStart < lo) (hle : lo ≤ hi)
    (hhi : hi < (s.table fl).flEnd)
    (hkept : ∀ u wanted, s.pc u = .asleep fl wanted →
      ∃ b, (wanted.flStart ≤ b ∧ b ≤ wanted.flEnd) ∧ (s.table fl).flStart ≤ b ∧ b < lo) :
    Attended (s.split t fl new lo hi) := by
  have hnewfree : new ∈ s.freeList := hfree ▸ List.mem_cons_self
  have hnew : new ∉ s.flock := h.wf.notMem_flock hnewfree
  have hne : fl ≠ new := fun he => hnew (he ▸ hfl)
  obtain ⟨hr, hr₁, hr₂, hr₃⟩ := h.wf.ranged fl hfl
  have h₁ : Attended (s.alloced new t (s.table fl)) :=
    h.alloced (h.wf.alloced hfree ⟨hr, hr₁, hr₂, hr₃⟩) hnew
  have hfl₁ : fl ∈ (s.alloced new t (s.table fl)).flock := List.mem_cons_of_mem _ hfl
  have htable : (s.alloced new t (s.table fl)).table fl = s.table fl := alloced_of_ne hne
  have hwf₂ := h₁.wf.setEntry (e := { s.table fl with flEnd := lo - 1 }) hfl₁
    (by rw [howner]; simp) ⟨hr, by dsimp only; omega, by dsimp only; omega, hr₃⟩
  have h₂ := h₁.setEntry hwf₂ (by rw [htable]) (by rw [htable]) (by rw [htable])
    fun u wanted hp => by
      obtain ⟨b, hb, hbl, hbh⟩ := hkept u wanted hp
      refine (overlap_iff (e := wanted.lock u) wanted.range.2.1 (by dsimp only; omega)).mpr ?_
      change wanted.flStart ≤ _ ∧ _ ≤ wanted.flEnd
      dsimp only
      omega
  have hmem' : new ∈ ((s.alloced new t (s.table fl)).setEntry fl
      { s.table fl with flEnd := lo - 1 }).flock := List.mem_cons_self
  have hnewtable : ((s.alloced new t (s.table fl)).setEntry fl
      { s.table fl with flEnd := lo - 1 }).table new =
      { s.table fl with flOwner := some t, flWait := [] } := by
    rw [setEntry_of_ne hne.symm, alloced_self]
  have hwf₃ := h₂.wf.setEntry (e := { s.table fl with
      flOwner := some t, flWait := [], flStart := hi + 1 }) hmem' (by simp)
    ⟨by dsimp only; omega, by dsimp only; omega, hr₂, hr₃⟩
  exact h₂.setEntry hwf₃ (by rw [hnewtable]) (by rw [hnewtable]) (by rw [hnewtable])
    fun u wanted hp => absurd (h.queued u new wanted hp).1 hnew

/-- The last turn. -/
theorem Last.watch (hwf : Wf s₀) (hleave : LeavesNone s₀ t req) (hlocked : Locked s₀ t req)
    (hlast : Last t s caller fl p) (h : Watch s₀ t req s caller (fl :: rest)) :
    Attended p.1 ∧ NoneAsleep s₀ p.1 := by
  have hfreed : ∀ {g : Slot}, NoneAsleep s₀ (s.freed g) := h.asleep.trans NoneAsleep.freed
  cases hlast with
  | split new free hfree howner htype hlo hhi =>
      refine ⟨h.attended.split hfree h.place.head_mem howner hlo
        (h.place.wf.ranged caller h.place.mem).2.1 hhi fun u wanted hp => ?_, h.asleep⟩
      obtain ⟨b, hb, hbe, hbc⟩ := h.exists_kept hwf hleave hlocked howner htype (Or.inl hlo)
        (fun _ _ => by rw [hfree]; simp) hp
      exact ⟨b, hb, hbe.1, by omega⟩
  | full _ _ _ _ _ => exact ⟨h.attended.freed h.place.mem, hfreed⟩
  | replace _ _ _ _ => exact ⟨h.attended.freed h.place.head_mem, hfreed⟩
  | inside _ _ _ _ => exact ⟨h.attended.freed h.place.mem, hfreed⟩

/-- **The loop of `lock_it`.** -/
theorem lockLoop_attended (hwf : Wf s₀) (hleave : LeavesNone s₀ t req) (hlocked : Locked s₀ t req)
    (h : Watch s₀ t req s caller rest) :
    ∃ p, lockLoop s t caller rest = .next p ∧ Attended p.1 ∧ NoneAsleep s₀ p.1 := by
  induction rest generalizing s caller with
  | nil => exact ⟨(s, 0), rfl, h.attended, h.asleep⟩
  | cons fl rest ih =>
      rcases lockLoop_turns h.place with ⟨s', caller', hturn, heq⟩ | ⟨p, hlast, heq⟩
      · obtain ⟨p, hp, hend⟩ := ih (hturn.watch hwf hleave hlocked h)
        exact ⟨p, heq.trans hp, hend⟩
      · exact ⟨p, heq, hlast.watch hwf hleave hlocked h⟩

/-- **`lock_it`**, where there is a free entry. -/
theorem lockIt_attended (h : Attended s) (hleave : LeavesNone s t req) (hlocked : Locked s t req) :
    ∃ p, lockIt s t req = .next p ∧ Attended p.1 ∧ NoneAsleep s p.1 := by
  obtain ⟨new, free, hfree⟩ := List.exists_cons_of_ne_nil hlocked.2.2
  have hmem : new ∈ s.freeList := hfree ▸ List.mem_cons_self
  have hnew := h.wf.notMem_flock hmem
  have hranged : (req.lock t).Ranged :=
    ⟨req.range.1, req.range.2.1, req.range.2.2, hlocked.1⟩
  have hattended : Attended (s.alloced new t (req.lock t)) :=
    h.alloced (h.wf.alloced hfree hranged) hnew
  have hw : Watch s t req (s.alloced new t (req.lock t)) new s.flock := {
    place := ⟨hattended.wf, ⟨[new], rfl, List.mem_singleton_self new⟩, by rw [alloced_self],
      by rw [alloced_self]; rfl⟩
    attended := hattended
    asleep := NoneAsleep.refl
    table := fun g hg => alloced_of_ne fun he => hnew (he ▸ hg)
    covers := by
      rw [alloced_self]
      exact ⟨Int.le_refl _, Int.le_refl _⟩
    bytes := by
      rw [alloced_self]
      exact fun b hlo hhi => Or.inl ⟨hlo, hhi⟩
    passed := ⟨[], rfl, fun g hg => absurd hg List.not_mem_nil, Or.inl ⟨rfl, by
      rw [alloced_self]
      exact ⟨rfl, rfl⟩⟩⟩ }
  obtain ⟨p, hp, hend⟩ := lockLoop_attended h.wf hleave hlocked hw
  refine ⟨p, ?_, hend⟩
  unfold lockIt
  rw [allocLock_cons hfree (h.wf.free new hmem), Outcome.bind_next]
  dsimp only
  rw [alloced_flock, lockLoop_self]
  exact hp

end Watch

/-! ### The loop of `unlock_it` -/

/-- What `unlock_it` has come to, from `s₀` on. -/
structure Unwatch (s₀ : State) (t : Task) (req : Request) (s : State) (rest : List Slot) :
    Prop where
  place : Unplace s rest
  attended : Attended s
  asleep : NoneAsleep s₀ s
  table : ∀ g ∈ rest, s.table g = s₀.table g
  passed : ∃ passed, s₀.flock = passed ++ rest ∧
    (s.freeList = s₀.freeList ∨
      ∃ g ∈ passed, (s₀.table g).flOwner = some t ∧ (s₀.table g).Touches req.flStart req.flEnd)

section Unwatch

variable {s₀ s s' : State} {t : Task} {req : Request} {one one' : Bool} {fl : Slot}
  {rest : List Slot} {p : State × Int}

theorem Unwatch.exists_kept (hwf : Wf s₀) (hleave : LeavesNone s₀ t req)
    (htype : req.flType = .unlck) (h : Unwatch s₀ t req s (fl :: rest))
    (howner : (s.table fl).flOwner = some t)
    (hcov : (s.table fl).flStart < req.flStart ∨ req.flEnd < (s.table fl).flEnd)
    (hroom : (s.table fl).flStart < req.flStart → req.flEnd < (s.table fl).flEnd →
      s.freeList ≠ [])
    {u : Task} {wanted : Request} (hp : s.pc u = .asleep fl wanted) :
    ∃ b, (wanted.flStart ≤ b ∧ b ≤ wanted.flEnd) ∧
      ((s.table fl).flStart ≤ b ∧ b ≤ (s.table fl).flEnd) ∧
      (b < req.flStart ∨ req.flEnd < b ∧ req.flStart ≤ (s.table fl).flStart) := by
  have hfl := h.place.head_mem
  have hsame := h.table fl List.mem_cons_self
  obtain ⟨-, hr, -, hr₃⟩ := h.place.wf.ranged fl hfl
  obtain ⟨passed, hpassed, hfree⟩ := h.passed
  have hfl₀ : fl ∈ s₀.flock := by
    rw [hpassed]
    exact List.mem_append_right _ List.mem_cons_self
  have hnot := hleave (Or.inl htype) fl hfl₀ u (hsame ▸ (h.attended.queued u fl wanted hp).2.1)
  rw [h.asleep.asleep hp] at hnot
  rw [hsame] at howner hcov hroom hr hr₃ ⊢
  have hno : ¬ NoRoom s₀ t req fl := fun hno => by
    obtain ⟨hlo, hhi, hlen, halone⟩ := hno
    rcases hfree with hfree | ⟨g, hg, hgo, hgt⟩
    · rw [if_pos htype] at hlen
      refine hroom hlo hhi ?_
      rw [hfree]
      exact List.length_eq_zero_iff.mp (by omega)
    · have hnd := hwf.nodup
      rw [hpassed] at hnd
      refine halone g (by rw [hpassed]; exact List.mem_append_left _ hg) ?_ hgo hgt
      rintro rfl
      exact (List.disjoint_of_nodup_append hnd) hg List.mem_cons_self
  obtain ⟨b, hb, hbe, hbr, -⟩ := Takes.exists_kept hnot howner (by rw [htype]; exact hr₃)
    (by omega) (fun hstop => hstop.1 htype) hno hr
  exact ⟨b, hb, hbe, hbr⟩

theorem unpassed_snoc (h : Unwatch s₀ t req s (fl :: rest))
    (hnext : s'.freeList = s.freeList ∨ (s₀.table fl).flOwner = some t ∧
      (s₀.table fl).Touches req.flStart req.flEnd) :
    ∃ passed, s₀.flock = passed ++ rest ∧ (s'.freeList = s₀.freeList ∨
      ∃ g ∈ passed, (s₀.table g).flOwner = some t ∧
        (s₀.table g).Touches req.flStart req.flEnd) := by
  obtain ⟨passed, hpassed, hfree⟩ := h.passed
  refine ⟨passed ++ [fl], by rw [hpassed, List.append_assoc]; rfl, ?_⟩
  rcases hnext with hnext | htouch
  · rcases hfree with hfree | ⟨g, hg, hgo⟩
    · exact Or.inl (hnext.trans hfree)
    · exact Or.inr ⟨g, List.mem_append_left _ hg, hgo⟩
  · exact Or.inr ⟨fl, by simp, htouch⟩

theorem Unturn.watch (hwf : Wf s₀) (hleave : LeavesNone s₀ t req) (htype : req.flType = .unlck)
    (hturn : Unturn t req s fl one s' one') (h : Unwatch s₀ t req s (fl :: rest)) :
    Unwatch s₀ t req s' rest := by
  have hplace := hturn.place h.place
  have hsame := h.table fl List.mem_cons_self
  have hreq := req.range.2.1
  obtain ⟨-, hr, -⟩ := h.place.wf.ranged fl h.place.head_mem
  have htable : ∀ g ∈ rest, s'.table g = s₀.table g := fun g hg =>
    (hturn.table h.place g hg).trans (h.table g (List.mem_cons_of_mem fl hg))
  cases hturn with
  | pass hout => exact ⟨hplace, h.attended, h.asleep, htable, unpassed_snoc h (Or.inl rfl)⟩
  | free howner hlo hhi =>
      refine ⟨hplace, h.attended.freed h.place.head_mem,
        h.asleep.trans NoneAsleep.freed, htable, unpassed_snoc h (Or.inr ?_)⟩
      rw [← hsame]
      exact ⟨howner, by omega, by omega⟩
  | trimStart howner hlo hmid hhi =>
      refine ⟨hplace, h.attended.setEntry hplace.wf rfl rfl rfl fun u wanted hp => ?_, h.asleep,
        htable, unpassed_snoc h (Or.inl rfl)⟩
      obtain ⟨b, hb, hbe, hbc⟩ := h.exists_kept hwf hleave htype howner (Or.inr hhi)
        (fun hlt => by omega) hp
      refine (overlap_iff (e := wanted.lock u) wanted.range.2.1 (by dsimp only; omega)).mpr ?_
      change wanted.flStart ≤ _ ∧ _ ≤ wanted.flEnd
      dsimp only
      omega
  | trimEnd howner hlo hmid hhi =>
      refine ⟨hplace, h.attended.setEntry hplace.wf rfl rfl rfl fun u wanted hp => ?_, h.asleep,
        htable, unpassed_snoc h (Or.inl rfl)⟩
      obtain ⟨b, hb, hbe, hbc⟩ := h.exists_kept hwf hleave htype howner (Or.inl hlo)
        (fun _ hlt => by omega) hp
      refine (overlap_iff (e := wanted.lock u) wanted.range.2.1 (by dsimp only; omega)).mpr ?_
      change wanted.flStart ≤ _ ∧ _ ≤ wanted.flEnd
      dsimp only
      omega

theorem Unlast.watch (hwf : Wf s₀) (hleave : LeavesNone s₀ t req) (htype : req.flType = .unlck)
    (hlast : Unlast t req s fl p) (h : Unwatch s₀ t req s (fl :: rest)) :
    Attended p.1 ∧ NoneAsleep s₀ p.1 := by
  cases hlast with
  | split new free hfree howner hlo hhi =>
      refine ⟨h.attended.split hfree h.place.head_mem howner hlo req.range.2.1 hhi
        fun u wanted hp => ?_, h.asleep⟩
      obtain ⟨b, hb, hbe, hbc⟩ := h.exists_kept hwf hleave htype howner (Or.inl hlo)
        (fun _ _ => by rw [hfree]; simp) hp
      exact ⟨b, hb, hbe.1, by omega⟩
  | full _ _ _ _ => exact ⟨h.attended, h.asleep⟩
  | exact _ _ _ => exact ⟨h.attended.freed h.place.head_mem, h.asleep.trans NoneAsleep.freed⟩

/-- **The loop of `unlock_it`.** -/
theorem unlockLoop_attended (hwf : Wf s₀) (hleave : LeavesNone s₀ t req)
    (htype : req.flType = .unlck) (h : Unwatch s₀ t req s rest) :
    ∃ p, unlockLoop s t (req.lock t) one rest = .next p ∧ Attended p.1 ∧ NoneAsleep s₀ p.1 := by
  induction rest generalizing s one with
  | nil => exact ⟨_, rfl, h.attended, h.asleep⟩
  | cons fl rest ih =>
      rcases unlockLoop_turns h.place with ⟨s', one', hturn, heq⟩ | ⟨p, hlast, heq⟩
      · obtain ⟨p, hp, hend⟩ := ih (hturn.watch hwf hleave htype h)
        exact ⟨p, heq.trans hp, hend⟩
      · exact ⟨p, heq, hlast.watch hwf hleave htype h⟩

theorem unlockIt_attended (h : Attended s) (hleave : LeavesNone s t req)
    (htype : req.flType = .unlck) :
    ∃ p, unlockIt s t req = .next p ∧ Attended p.1 ∧ NoneAsleep s p.1 :=
  unlockLoop_attended h.wf hleave htype ⟨⟨h.wf, h.wf.nodup, fun _ hfl => hfl⟩, h,
    NoneAsleep.refl, fun _ _ => rfl, ⟨[], rfl, Or.inl rfl⟩⟩

/-- `fcntl_remove_locks` only frees entries. -/
theorem removeLoop_attended (h : Attended s) (hnd : rest.Nodup) (hmem : ∀ fl ∈ rest, fl ∈ s.flock) :
    ∃ s', removeLoop s t rest = .next s' ∧ Attended s' ∧ NoneAsleep s s' := by
  induction rest generalizing s with
  | nil => exact ⟨s, rfl, h, NoneAsleep.refl⟩
  | cons fl rest ih =>
      rw [removeLoop]
      have hnd' := List.nodup_cons.mp hnd
      have hrest : ∀ g ∈ rest, g ∈ s.flock := fun g hg => hmem g (List.mem_cons_of_mem fl hg)
      by_cases howner : (s.table fl).flOwner = some t
      · rw [if_pos howner, freeLock_eq howner, Outcome.bind_next]
        have hne : ∀ g ∈ rest, g ≠ fl := fun g hg he => hnd'.1 (he ▸ hg)
        obtain ⟨s', hs', hend, hasleep⟩ := ih (h.freed (hmem fl List.mem_cons_self)) hnd'.2
          fun g hg => (List.mem_erase_of_ne (hne g hg)).mpr (hrest g hg)
        exact ⟨s', hs', hend, NoneAsleep.freed.trans hasleep⟩
      · rw [if_neg howner]
        exact ih h hnd'.2 hrest

end Unwatch

/-! ### Steps and runs -/

/-- The invariant: who has called for a lock wants one. -/
structure Orderly (s : State) : Prop extends Attended s where
  wants : ∀ t, (s.pc t).Wants

section Steps

variable {s s' : State} {t : Task} {req : Request} {fl : Slot}

theorem NoneAsleep.wants (h : NoneAsleep s s') (hw : ∀ u, (s.pc u).Wants) (u : Task) :
    (s'.pc u).Wants := (h u).wants (hw u)

/-- The call of `t` returns. -/
theorem Orderly.finish {p : State × Int} (h : Orderly s) (hp : Attended p.1)
    (hasleep : NoneAsleep s p.1) (hs : Locks.finish t req p = .next s') : Orderly s' := by
  cases hs
  refine ⟨⟨⟨hp.wf.listed, hp.wf.owned, hp.wf.free, hp.wf.ranged⟩, fun u fl wanted hpc => ?_⟩,
    wants_update (hasleep.wants h.wants) True.intro⟩
  change Function.update p.1.pc t .running u = _ at hpc
  by_cases hu : u = t
  · rw [hu, Function.update_self] at hpc
    cases hpc
  · rw [Function.update_of_ne hu] at hpc
    exact hp.queued u fl wanted hpc

/-- The step leaves the entries as they are, but for who waits on `fl`. -/
theorem Orderly.setWait {pc : Pc} {l : List Task} (h : Orderly s)
    (hl : ∀ u, u ≠ t → u ∈ (s.table fl).flWait → u ∈ l)
    (hpc : ∀ fl' wanted, pc = .asleep fl' wanted → fl' = fl ∧ t ∈ l ∧ fl ∈ s.flock ∧
      conflict (wanted.lock t) (s.table fl) = true) (hw : pc.Wants) :
    Orderly ((s.setEntry fl { s.table fl with flWait := l }).setPc t pc) where
  wf := (h.wf.setWait fl l).setPc
  queued u fl' wanted hp := by
    change Function.update s.pc t pc u = _ at hp
    change fl' ∈ s.flock ∧ u ∈ ((s.setEntry fl _).table fl').flWait ∧
      conflict _ ((s.setEntry fl _).table fl') = true
    by_cases hu : u = t
    · rw [hu, Function.update_self] at hp
      obtain ⟨rfl, hin, hmem, hconf⟩ := hpc fl' wanted hp
      rw [hu, setEntry_self]
      exact ⟨hmem, hin, hconf⟩
    · rw [Function.update_of_ne hu] at hp
      obtain ⟨hmem, hin, hconf⟩ := h.queued u fl' wanted hp
      by_cases hfl : fl' = fl
      · subst hfl
        rw [setEntry_self]
        exact ⟨hmem, hl u hu hin, hconf⟩
      · rw [setEntry_of_ne hfl]
        exact ⟨hmem, hin, hconf⟩
  wants := wants_update h.wants hw

theorem scan_orderly (h : Orderly s) (hreq : req.flType ≠ .unlck) (hleave : LeavesNone s t req)
    {setlkw : Bool} (hs : scan s t setlkw req = .next s') : Orderly s' := by
  unfold scan at hs
  cases hfind : s.flock.find? fun fl => conflict (req.lock t) (s.table fl) with
  | some fl =>
      rw [hfind] at hs
      dsimp only at hs
      cases setlkw with
      | true =>
          rw [if_pos rfl] at hs
          cases hs
          refine h.setWait (fun u _ hu => List.mem_cons_of_mem t hu) (fun fl' wanted hp => ?_) hreq
          cases hp
          exact ⟨rfl, List.mem_cons_self, List.mem_of_find?_eq_some hfind, by
            simpa using List.find?_some hfind⟩
      | false =>
          rw [if_neg Bool.false_ne_true] at hs
          exact h.finish h.toAttended NoneAsleep.refl hs
  | none =>
      rw [hfind] at hs
      dsimp only at hs
      cases hfree : s.freeList with
      | nil =>
          unfold lockIt at hs
          rw [allocLock_nil hfree, Outcome.bind_next, Outcome.bind_next] at hs
          exact h.finish h.toAttended NoneAsleep.refl hs
      | cons new free =>
          have hlocked : Locked s t req := ⟨hreq, fun fl hfl =>
            Bool.eq_false_iff.mpr (List.find?_eq_none.mp hfind fl hfl), by rw [hfree]; simp⟩
          obtain ⟨p, hp, hend, hasleep⟩ := lockIt_attended h.toAttended hleave hlocked
          rw [hp, Outcome.bind_next] at hs
          exact h.finish hend hasleep hs

theorem step_orderly {op : Op} (h : Orderly s) (hok : Considerate s op)
    (hs : step s op = .next s') : Orderly s' := by
  cases op with
  | setlk t setlkw filp l =>
      unfold step at hs
      dsimp only at hs
      split at hs
      case isFalse => cases hs
      case isTrue hpc =>
        unfold fcntlSetlk at hs
        unfold Considerate at hok
        dsimp only at hok
        cases hargs : checkArgs filp l with
        | error errno =>
            rw [hargs] at hs
            cases hs
            exact ⟨⟨⟨h.wf.listed, h.wf.owned, h.wf.free, h.wf.ranged⟩, h.queued⟩, h.wants⟩
        | ok req =>
            rw [hargs] at hs hok
            dsimp only at hs
            split at hs
            case isTrue htype =>
              obtain ⟨p, hp, hend, hasleep⟩ := unlockIt_attended h.toAttended hok htype
              rw [hp, Outcome.bind_next] at hs
              exact h.finish hend hasleep hs
            case isFalse htype => exact scan_orderly h htype hok hs
  | again t =>
      unfold step at hs
      unfold Considerate at hok
      dsimp only at hs hok
      cases hpc : s.pc t with
      | running =>
          rw [hpc] at hs
          cases hs
      | asleep fl req =>
          rw [hpc] at hs
          cases hs
      | woken req =>
          rw [hpc] at hs hok
          have hwants := h.wants t
          rw [hpc] at hwants
          exact scan_orderly h hwants hok hs
  | signal t =>
      unfold step at hs
      dsimp only at hs
      cases hpc : s.pc t with
      | running =>
          rw [hpc] at hs
          cases hs
      | asleep fl req =>
          rw [hpc] at hs
          cases hs
          have hwants := h.wants t
          rw [hpc] at hwants
          exact h.setWait (fun u hu hin => List.mem_filter.mpr ⟨hin, by simpa using hu⟩) nofun
            hwants
      | woken req =>
          rw [hpc] at hs
          cases hs
  | close t =>
      unfold step at hs
      dsimp only at hs
      split at hs
      case isTrue hpc =>
        unfold fcntlRemoveLocks at hs
        obtain ⟨s₁, hs₁, hend, hasleep⟩ := removeLoop_attended (t := t) h.toAttended
          h.wf.nodup fun _ hfl => hfl
        rw [hs₁, Outcome.bind_next] at hs
        cases hs
        exact ⟨⟨⟨hend.wf.listed, hend.wf.owned, hend.wf.free, hend.wf.ranged⟩, hend.queued⟩,
          hasleep.wants h.wants⟩
      case isFalse hpc => cases hs
  | otherAlloc e t =>
      unfold step at hs
      dsimp only at hs
      cases hfree : s.freeList with
      | nil =>
          rw [hfree] at hs
          cases hs
      | cons new free =>
          rw [hfree] at hs
          cases hs
          have hnew := h.wf.notMem_flock (hfree ▸ List.mem_cons_self)
          refine ⟨⟨h.wf.otherAlloc _ hfree, fun u fl wanted hp => ?_⟩, h.wants⟩
          obtain ⟨hmem, hin, hconf⟩ := h.queued u fl wanted hp
          have hne : fl ≠ new := fun he => hnew (he ▸ hmem)
          change fl ∈ s.flock ∧ u ∈ ((s.setEntry new _).table fl).flWait ∧
            conflict _ ((s.setEntry new _).table fl) = true
          rw [setEntry_of_ne hne]
          exact ⟨hmem, hin, hconf⟩
  | otherFree g =>
      unfold step at hs
      dsimp only at hs
      split at hs
      case isTrue hg =>
        cases hs
        have hout := (h.wf.notMem_of_elsewhere hg).1
        refine ⟨⟨h.wf.otherFree hg, fun u fl wanted hp => ?_⟩, h.wants⟩
        obtain ⟨hmem, hin, hconf⟩ := h.queued u fl wanted hp
        have hne : fl ≠ g := fun he => hout (he ▸ hmem)
        change fl ∈ s.flock ∧ u ∈ ((s.setEntry g _).table fl).flWait ∧
          conflict _ ((s.setEntry g _).table fl) = true
        rw [setEntry_of_ne hne]
        exact ⟨hmem, hin, hconf⟩
      case isFalse hg => cases hs

end Steps

/-- **No lock waiter is forgotten** in any run whose calls leave no one on an entry that
has nothing for him any more. -/
theorem waiting_reaches {s : State} (h : Reaches step Considerate init s) : Waiting s := by
  have h₀ : Orderly init := ⟨⟨init_wf, nofun⟩, fun _ => True.intro⟩
  exact (h.invariant (P := Orderly) h₀ fun _ _ _ h hok hs => step_orderly h hok hs).waiting

/-! ### Concrete runs -/

instance (e : FileLock) (lo hi : Int) : Decidable (e.Touches lo hi) :=
  inferInstanceAs (Decidable (_ ∧ _))

instance (t : Task) (req : Request) (e : FileLock) : Decidable (Replaces t req e) :=
  inferInstanceAs (Decidable (_ ∧ _ ∧ _ ∧ _))

instance (s : State) (t : Task) (req : Request) (fl : Slot) : Decidable (NoRoom s t req fl) :=
  inferInstanceAs (Decidable (_ ∧ _ ∧ _ ∧ _))

instance (s : State) (t : Task) (req : Request) (fl : Slot) (wanted : Request) :
    Decidable (Takes s t req fl wanted) :=
  inferInstanceAs (Decidable (_ ∧ _ ∧ _ ∧ _ ∧ _ ∧ _))

instance (s : State) (t : Task) (req : Request) (fl : Slot) (pc : Pc) :
    Decidable (pc.Spared s t req fl) :=
  match pc with
  | .asleep _ _ => inferInstanceAs (Decidable (¬ _))
  | .woken _ => isTrue True.intro
  | .running => isTrue True.intro

instance (s : State) (t : Task) (req : Request) : Decidable (LeavesNone s t req) :=
  inferInstanceAs (Decidable (_ → _))

instance (s : State) (op : Op) : Decidable (Considerate s op) :=
  match op with
  | .setlk t _ filp l =>
      match h : checkArgs filp l with
      | .ok req => decidable_of_iff (LeavesNone s t req) (by simp only [Considerate, h])
      | .error _ => isTrue (by simp only [Considerate, h])
  | .again t =>
      match h : s.pc t with
      | .woken req => decidable_of_iff (LeavesNone s t req) (by simp only [Considerate, h])
      | .asleep _ _ => isTrue (by simp only [Considerate, h])
      | .running => isTrue (by simp only [Considerate, h])
  | .signal _ => isTrue True.intro
  | .close _ => isTrue True.intro
  | .otherAlloc _ _ => isTrue True.intro
  | .otherFree _ => isTrue True.intro

/-- Task 1 locks ten bytes, task 2 waits for the ninth, and task 1 unlocks the first five. -/
def trimRun : List Op :=
  [.setlk 1 false (some rwFile) ⟨1, 0, 0, 10⟩, .setlk 2 true (some rwFile) ⟨1, 0, 8, 1⟩,
    .setlk 1 false (some rwFile) ⟨2, 0, 0, 5⟩]

theorem waiting_reaches_trimRun : Waiting ((run step init trimRun).get init) :=
  waiting_reaches (.of_run (Outcome.eq_next (by decide) init) (by
    repeat' first
      | exact True.intro
      | refine RunOk.cons (by decide) ?_))

/-- Here it unlocks the last five. -/
def leftRun : List Op :=
  [.setlk 1 false (some rwFile) ⟨1, 0, 0, 10⟩, .setlk 2 true (some rwFile) ⟨1, 0, 8, 1⟩,
    .setlk 1 false (some rwFile) ⟨2, 0, 5, 5⟩]

theorem not_waiting : ∃ s, run step init leftRun = .next s ∧ ¬ Waiting s := by
  refine ⟨(run step init leftRun).get init, Outcome.eq_next (by decide) init, fun h => ?_⟩
  have hconf := (h 2 ⟨0, by decide⟩ ⟨.wrlck, 8, 8, by decide⟩ (by decide)).2
  revert hconf
  decide

end LinuxKernel.V098.Fs.Locks
