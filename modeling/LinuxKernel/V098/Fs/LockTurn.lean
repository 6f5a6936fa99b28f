import LinuxKernel.V098.Fs.Locks

/-!
# LinuxKernel.V098.Fs.LockTurn

What **one turn** of the loops over a lock list can do.

- `Turn` has the turns after which `lock_it` goes on: past an entry, with one that takes over
  from the caller, past one that is trimmed. `Last` has those that end it.
- `Unturn` and `Unlast` are the same for `unlock_it`.

All else about the two functions is proved from these.
-/

namespace LinuxKernel.V098.Fs.Locks

/-! ### Requests -/

/-- The request gets to `lock_it`, and there is an entry for it. -/
def Locked (s : State) (t : Task) (req : Request) : Prop :=
  req.flType ≠ .unlck ∧ (∀ fl ∈ s.flock, conflict (req.lock t) (s.table fl) = false) ∧
    s.freeList ≠ []

instance (s : State) (t : Task) (req : Request) : Decidable (Locked s t req) :=
  inferInstanceAs (Decidable (_ ∧ _ ∧ _))

/-- A regular file open for reading and writing. -/
def rwFile : Filp := ⟨3, 0, some ⟨0o100644, 100⟩⟩

/-! ### Single updates -/

/-- What `free_lock` leaves, where it does not panic. -/
def State.freed (s : State) (fl : Slot) : State :=
  wakeUp { s.setEntry fl { s.table fl with flOwner := none } with
    flock := s.flock.erase fl
    freeList := fl :: s.freeList } fl

/-- What `alloc_lock` leaves, where there is a free entry. -/
def State.alloced (s : State) (new : Slot) (t : Task) (e : FileLock) : State :=
  { s.setEntry new { e with flOwner := some t, flWait := [] } with
    flock := new :: s.flock
    freeList := s.freeList.tail }

/-- One entry becomes two, without the bytes from `lo` to `hi`. -/
def State.split (s : State) (t : Task) (fl new : Slot) (lo hi : Int) : State :=
  ((s.alloced new t (s.table fl)).setEntry fl { s.table fl with flEnd := lo - 1 }).setEntry new
    { s.table fl with flOwner := some t, flWait := [], flStart := hi + 1 }

section Updates

variable {s : State} {fl fl' new : Slot} {t u : Task} {e : FileLock} {b x : Int} {k : LockType}

@[simp] theorem setEntry_flock : (s.setEntry fl e).flock = s.flock := rfl
@[simp] theorem setEntry_pc : (s.setEntry fl e).pc = s.pc := rfl
@[simp] theorem setEntry_self : (s.setEntry fl e).table fl = e := Function.update_self _ _ _
theorem setEntry_of_ne (h : fl' ≠ fl) : (s.setEntry fl e).table fl' = s.table fl' :=
  Function.update_of_ne h _ _

theorem setEntry_setEntry (e' : FileLock) :
    (s.setEntry fl e).setEntry fl e' = s.setEntry fl e' := by
  simp [State.setEntry]

theorem setEntry_table : s.setEntry fl (s.table fl) = s := by
  simp [State.setEntry]

@[simp] theorem freed_flock : (s.freed fl).flock = s.flock.erase fl := rfl
@[simp] theorem freed_freeList : (s.freed fl).freeList = fl :: s.freeList := rfl
@[simp] theorem freed_elsewhere : (s.freed fl).elsewhere = s.elsewhere := rfl

theorem freed_self :
    (s.freed fl).table fl = { s.table fl with flOwner := none, flWait := [] } := by
  simp [State.freed, wakeUp, State.setEntry]

theorem freed_of_ne (h : fl' ≠ fl) : (s.freed fl).table fl' = s.table fl' := by
  simp [State.freed, wakeUp, State.setEntry, h]

@[simp] theorem alloced_flock : (s.alloced new t e).flock = new :: s.flock := rfl
@[simp] theorem alloced_freeList : (s.alloced new t e).freeList = s.freeList.tail := rfl
@[simp] theorem alloced_elsewhere : (s.alloced new t e).elsewhere = s.elsewhere := rfl
theorem alloced_self :
    (s.alloced new t e).table new = { e with flOwner := some t, flWait := [] } :=
  Function.update_self _ _ _
theorem alloced_of_ne (h : fl' ≠ new) : (s.alloced new t e).table fl' = s.table fl' :=
  Function.update_of_ne h _ _

theorem freeLock_eq (h : (s.table fl).flOwner = some t) : freeLock s fl = .next (s.freed fl) := by
  unfold freeLock
  rw [if_neg (by rw [h]; simp)]
  rfl

theorem allocLock_nil (h : s.freeList = []) : allocLock s t e = .next none := by
  unfold allocLock
  rw [h]

theorem allocLock_cons {free : List Slot} (h : s.freeList = new :: free)
    (hnew : (s.table new).flOwner = none) :
    allocLock s t e = .next (some (s.alloced new t e, new)) := by
  unfold allocLock State.alloced
  rw [h]
  dsimp only
  rw [if_neg (by simp [hnew])]
  rfl

end Updates

/-! ### The table -/

/-- The range of an entry. -/
def FileLock.Ranged (e : FileLock) : Prop :=
  0 ≤ e.flStart ∧ e.flStart ≤ e.flEnd ∧ e.flEnd ≤ OFFSET_MAX ∧ e.flType ≠ .unlck

structure Wf (s : State) : Prop where
  listed : ∀ fl, s.flock.count fl + s.freeList.count fl + s.elsewhere.count fl = 1
  owned : ∀ fl ∈ s.flock, (s.table fl).flOwner ≠ none
  free : ∀ fl ∈ s.freeList, (s.table fl).flOwner = none
  ranged : ∀ fl ∈ s.flock, (s.table fl).Ranged

section Table

variable {s : State} {fl fl' new : Slot} {t u : Task} {e : FileLock} {free : List Slot}

theorem Wf.nodup (h : Wf s) : s.flock.Nodup :=
  List.nodup_iff_count_le_one.mpr fun fl => by
    have := h.listed fl
    omega

theorem Wf.notMem_free (h : Wf s) (hfl : fl ∈ s.flock) : fl ∉ s.freeList := fun hfree => by
  have := h.listed fl
  have := List.count_pos_iff.mpr hfl
  have := List.count_pos_iff.mpr hfree
  omega

theorem Wf.setEntry (h : Wf s) (hfl : fl ∈ s.flock) (howner : e.flOwner ≠ none)
    (he : e.Ranged) : Wf (s.setEntry fl e) where
  listed := h.listed
  owned f hf := by
    by_cases hne : f = fl
    · rw [hne, setEntry_self]
      exact howner
    · rw [setEntry_of_ne hne]
      exact h.owned f hf
  free f hf := by
    rw [setEntry_of_ne]
    · exact h.free f hf
    · rintro rfl
      exact h.notMem_free hfl hf
  ranged f hf := by
    by_cases hne : f = fl
    · rw [hne, setEntry_self]
      exact he
    · rw [setEntry_of_ne hne]
      exact h.ranged f hf

theorem Wf.freed (h : Wf s) (hfl : fl ∈ s.flock) : Wf (s.freed fl) where
  listed f := by
    have hf := h.listed f
    rw [freed_flock, freed_freeList, freed_elsewhere, List.count_erase, List.count_cons]
    by_cases hne : fl = f
    · subst hne
      have := List.count_pos_iff.mpr hfl
      simp only [beq_self_eq_true, if_true]
      omega
    · simp only [beq_iff_eq, hne, if_false]
      omega
  owned f hf := by
    have hmem := (h.nodup.mem_erase_iff).mp hf
    rw [freed_of_ne hmem.1]
    exact h.owned f hmem.2
  free f hf := by
    by_cases hne : f = fl
    · rw [hne, freed_self]
    · rw [freed_of_ne hne]
      exact h.free f (List.mem_of_ne_of_mem hne hf)
  ranged f hf := by
    have hmem := (h.nodup.mem_erase_iff).mp hf
    rw [freed_of_ne hmem.1]
    exact h.ranged f hmem.2

theorem Wf.notMem_flock (h : Wf s) (hfree : fl ∈ s.freeList) : fl ∉ s.flock := fun hfl =>
  h.notMem_free hfl hfree

theorem Wf.alloced (h : Wf s) (hfree : s.freeList = new :: free) (he : e.Ranged) :
    Wf (s.alloced new t e) where
  listed f := by
    have hf := h.listed f
    rw [alloced_flock, alloced_freeList, alloced_elsewhere]
    rw [hfree, List.count_cons] at hf
    rw [hfree, List.tail_cons, List.count_cons]
    omega
  owned f hf := by
    by_cases hne : f = new
    · rw [hne, alloced_self]
      simp
    · rw [alloced_of_ne hne]
      exact h.owned f (List.mem_of_ne_of_mem hne hf)
  free f hf := by
    rw [alloced_freeList, hfree, List.tail_cons] at hf
    rw [alloced_of_ne]
    · exact h.free f (by rw [hfree]; exact List.mem_cons_of_mem _ hf)
    · rintro rfl
      have hcount := h.listed f
      rw [hfree, List.count_cons_self] at hcount
      have := List.count_pos_iff.mpr hf
      omega
  ranged f hf := by
    by_cases hne : f = new
    · rw [hne, alloced_self]
      exact he
    · rw [alloced_of_ne hne]
      exact h.ranged f (List.mem_of_ne_of_mem hne hf)

theorem Wf.setPc {p : Pc} (h : Wf s) : Wf (s.setPc t p) := ⟨h.listed, h.owned, h.free, h.ranged⟩

theorem Wf.setWait (h : Wf s) (fl : Slot) (l : List Task) :
    Wf (s.setEntry fl { s.table fl with flWait := l }) where
  listed := h.listed
  owned f hf := by
    by_cases hne : f = fl
    · subst hne
      rw [setEntry_self]
      exact h.owned f hf
    · rw [setEntry_of_ne hne]
      exact h.owned f hf
  free f hf := by
    by_cases hne : f = fl
    · subst hne
      rw [setEntry_self]
      exact h.free f hf
    · rw [setEntry_of_ne hne]
      exact h.free f hf
  ranged f hf := by
    by_cases hne : f = fl
    · subst hne
      rw [setEntry_self]
      exact h.ranged f hf
    · rw [setEntry_of_ne hne]
      exact h.ranged f hf

theorem Wf.otherAlloc {new : Slot} {free : List Slot} (h : Wf s) (e : FileLock)
    (hfree : s.freeList = new :: free) :
    Wf { s.setEntry new e with freeList := free, elsewhere := new :: s.elsewhere } := by
  have hnew : new ∉ s.flock := h.notMem_flock (hfree ▸ List.mem_cons_self)
  have hne : ∀ f ∈ s.flock, f ≠ new := fun f hf he => hnew (he ▸ hf)
  refine ⟨fun f => ?_, fun f hf => ?_, fun f hf => ?_, fun f hf => ?_⟩
  · have := h.listed f
    rw [hfree, List.count_cons] at this
    dsimp only [setEntry_flock]
    rw [List.count_cons]
    omega
  · change ((s.setEntry new e).table f).flOwner ≠ none
    rw [setEntry_of_ne (hne f hf)]
    exact h.owned f hf
  · change ((s.setEntry new e).table f).flOwner = none
    rw [setEntry_of_ne]
    · exact h.free f (hfree ▸ List.mem_cons_of_mem new hf)
    · rintro rfl
      have hcount := h.listed f
      rw [hfree, List.count_cons_self] at hcount
      have : 0 < free.count f := List.count_pos_iff.mpr hf
      omega
  · change ((s.setEntry new e).table f).Ranged
    rw [setEntry_of_ne (hne f hf)]
    exact h.ranged f hf

theorem Wf.notMem_of_elsewhere (h : Wf s) (hfl : fl ∈ s.elsewhere) :
    fl ∉ s.flock ∧ fl ∉ s.freeList := by
  have hcount := h.listed fl
  have := List.count_pos_iff.mpr hfl
  exact ⟨fun hin => by have := List.count_pos_iff.mpr hin; omega,
    fun hin => by have := List.count_pos_iff.mpr hin; omega⟩

theorem Wf.otherFree (h : Wf s) (hfl : fl ∈ s.elsewhere) :
    Wf { s.setEntry fl { s.table fl with flOwner := none } with
      elsewhere := s.elsewhere.erase fl
      freeList := fl :: s.freeList } := by
  have hout := h.notMem_of_elsewhere hfl
  have hne : ∀ f ∈ s.flock, f ≠ fl := fun f hf he => hout.1 (he ▸ hf)
  refine ⟨fun f => ?_, fun f hf => ?_, fun f hf => ?_, fun f hf => ?_⟩
  · have := h.listed f
    dsimp only [setEntry_flock]
    rw [List.count_cons, List.count_erase]
    by_cases hf : fl = f
    · subst hf
      have := List.count_pos_iff.mpr hfl
      simp only [beq_self_eq_true, if_true]
      omega
    · simp only [beq_iff_eq, hf, if_false]
      omega
  · change ((s.setEntry fl { s.table fl with flOwner := none }).table f).flOwner ≠ none
    rw [setEntry_of_ne (hne f hf)]
    exact h.owned f hf
  · change ((s.setEntry fl { s.table fl with flOwner := none }).table f).flOwner = none
    by_cases hf' : f = fl
    · rw [hf', setEntry_self]
    · rw [setEntry_of_ne hf']
      exact h.free f (List.mem_of_ne_of_mem hf' hf)
  · change ((s.setEntry fl { s.table fl with flOwner := none }).table f).Ranged
    rw [setEntry_of_ne (hne f hf)]
    exact h.ranged f hf

end Table

theorem init_wf : Wf init := by
  refine ⟨fun fl => ?_, fun fl hfl => absurd hfl List.not_mem_nil, fun _ _ => rfl,
    fun fl hfl => absurd hfl List.not_mem_nil⟩
  change List.count fl [] + (List.finRange NR_FILE_LOCKS).count fl + List.count fl [] = 1
  rw [List.count_nil, List.count_eq_one_of_mem (List.nodup_finRange _) (List.mem_finRange fl)]

/-! ### Where the tasks are -/

/-- The task is where it was, or has been woken. -/
def Moves (pc pc' : Pc) : Prop := pc' = pc ∨ ∃ fl req, pc = .asleep fl req ∧ pc' = .woken req

theorem Moves.trans {pc pc' pc'' : Pc} (h : Moves pc pc') (h' : Moves pc' pc'') :
    Moves pc pc'' := by
  rcases h with rfl | ⟨fl, req, rfl, rfl⟩
  · exact h'
  · rcases h' with rfl | ⟨fl', req', h', -⟩
    · exact Or.inr ⟨fl, req, rfl, rfl⟩
    · cases h'

theorem freed_pc (s : State) (fl : Slot) (u : Task) : Moves (s.pc u) ((s.freed fl).pc u) := by
  unfold State.freed wakeUp
  dsimp only [setEntry_pc]
  cases s.pc u with
  | running => exact Or.inl rfl
  | asleep fl' req =>
      dsimp only
      split
      · exact Or.inr ⟨fl', req, rfl, rfl⟩
      · exact Or.inl rfl
  | woken req => exact Or.inl rfl

/-- Who waits, or goes on after it, wants a lock. -/
def Pc.Wants : Pc → Prop
  | .asleep _ req | .woken req => req.flType ≠ .unlck
  | .running => True

theorem Moves.wants {pc pc' : Pc} (h : Moves pc pc') (hw : pc.Wants) : pc'.Wants := by
  rcases h with rfl | ⟨fl, req, rfl, rfl⟩
  · exact hw
  · exact hw

theorem wants_update {t : Task} {pc : Task → Pc} {p : Pc} (h : ∀ u, (pc u).Wants) (hp : p.Wants) (u : Task) :
    (Function.update pc t p u).Wants := by
  by_cases hu : u = t
  · rw [hu, Function.update_self]
    exact hp
  · rw [Function.update_of_ne hu]
    exact h u

/-! ### Ranges -/

theorem overlap_iff {e e' : FileLock} (h : e.flStart ≤ e.flEnd) (h' : e'.flStart ≤ e'.flEnd) :
    overlap e e' = true ↔ e.flStart ≤ e'.flEnd ∧ e'.flStart ≤ e.flEnd := by
  unfold overlap
  split <;> simp only [decide_eq_true_eq, ge_iff_le] <;> omega

theorem off_of_range {x : Int} (h : -1 ≤ x) (h' : x ≤ OFFSET_MAX) : off x = x := by
  unfold off OFFSET_MAX at *
  omega

/-- Only the real neighbour passes for one. -/
theorem off_eq {x y : Int} (hx : -1 ≤ x) (hx' : x ≤ OFFSET_MAX + 1) (hy : 0 ≤ y) (h : off x = y) :
    x = y := by
  unfold off OFFSET_MAX at *
  omega

section Place

variable {s : State} {fl new : Slot} {t : Task}

/-- The two pieces, as the code makes them. -/
theorem split_eq {lo hi : Int} (h : fl ≠ new) :
    ((s.alloced new t (s.table fl)).setEnd fl (lo - 1)).setStart new (hi + 1) =
      s.split t fl new lo hi := by
  unfold State.setStart State.setEnd State.split
  rw [setEntry_of_ne h.symm, alloced_self, alloced_of_ne h]

end Place

/-! ### The turns of `lock_it` -/

/-- `lock_it` is at `rest`; `caller` is an entry it has passed. -/
structure Place (t : Task) (k : LockType) (s : State) (caller : Slot) (rest : List Slot) :
    Prop where
  wf : Wf s
  passed : ∃ done, s.flock = done ++ rest ∧ caller ∈ done
  owner : (s.table caller).flOwner = some t
  type : (s.table caller).flType = k

/-- `fl` takes over from `caller`. -/
def State.grown (s : State) (caller fl : Slot) : State :=
  s.setEntry fl { s.table fl with
    flStart := min (s.table caller).flStart (s.table fl).flStart
    flEnd := max (s.table caller).flEnd (s.table fl).flEnd }

/-- The turns at `fl` after which the loop goes on, with the caller it goes on with. -/
inductive Turn (t : Task) (s : State) (caller fl : Slot) : State → Slot → Prop
  | pass (hout : (s.table fl).flOwner = some t →
      (s.table fl).flEnd < (s.table caller).flStart ∨
        (s.table caller).flEnd < (s.table fl).flStart) : Turn t s caller fl s caller
  | grow (howner : (s.table fl).flOwner = some t)
      (htype : (s.table fl).flType = (s.table caller).flType)
      (hleft : (s.table caller).flStart ≤ (s.table fl).flEnd + 1)
      (hright : (s.table fl).flStart ≤ (s.table caller).flEnd + 1) :
      Turn t s caller fl ((s.grown caller fl).freed caller) fl
  | trimStart (howner : (s.table fl).flOwner = some t)
      (htype : (s.table fl).flType ≠ (s.table caller).flType)
      (hlo : (s.table caller).flStart ≤ (s.table fl).flStart)
      (hmid : (s.table fl).flStart ≤ (s.table caller).flEnd)
      (hhi : (s.table caller).flEnd < (s.table fl).flEnd) :
      Turn t s caller fl
        (s.setEntry fl { s.table fl with flStart := (s.table caller).flEnd + 1 }) caller
  | trimEnd (howner : (s.table fl).flOwner = some t)
      (htype : (s.table fl).flType ≠ (s.table caller).flType)
      (hlo : (s.table fl).flStart < (s.table caller).flStart)
      (hmid : (s.table caller).flStart ≤ (s.table fl).flEnd)
      (hhi : (s.table fl).flEnd ≤ (s.table caller).flEnd) :
      Turn t s caller fl
        (s.setEntry fl { s.table fl with flEnd := (s.table caller).flStart - 1 }) caller

/-- The turns at `fl` that end the loop. -/
inductive Last (t : Task) (s : State) (caller fl : Slot) : State × Int → Prop
  | split (new : Slot) (free : List Slot) (hfree : s.freeList = new :: free)
      (howner : (s.table fl).flOwner = some t)
      (htype : (s.table fl).flType ≠ (s.table caller).flType)
      (hlo : (s.table fl).flStart < (s.table caller).flStart)
      (hhi : (s.table caller).flEnd < (s.table fl).flEnd) :
      Last t s caller fl
        (s.split t fl new (s.table caller).flStart (s.table caller).flEnd, 0)
  | full (hfree : s.freeList = []) (howner : (s.table fl).flOwner = some t)
      (htype : (s.table fl).flType ≠ (s.table caller).flType)
      (hlo : (s.table fl).flStart < (s.table caller).flStart)
      (hhi : (s.table caller).flEnd < (s.table fl).flEnd) :
      Last t s caller fl (s.freed caller, -ENOLCK)
  | replace (howner : (s.table fl).flOwner = some t)
      (htype : (s.table fl).flType ≠ (s.table caller).flType)
      (hlo : (s.table caller).flStart ≤ (s.table fl).flStart)
      (hhi : (s.table fl).flEnd ≤ (s.table caller).flEnd) :
      Last t s caller fl (s.freed fl, 0)
  | inside (howner : (s.table fl).flOwner = some t)
      (htype : (s.table fl).flType = (s.table caller).flType)
      (hlo : (s.table fl).flStart ≤ (s.table caller).flStart)
      (hhi : (s.table caller).flEnd ≤ (s.table fl).flEnd) :
      Last t s caller fl (s.freed caller, 0)

section Place

variable {s s' : State} {t : Task} {k : LockType} {caller caller' fl : Slot} {rest : List Slot}

theorem Place.mem (h : Place t k s caller rest) : caller ∈ s.flock := by
  obtain ⟨done, hdone, hmem⟩ := h.passed
  rw [hdone]
  exact List.mem_append_left _ hmem

theorem Place.notMem (h : Place t k s caller rest) : caller ∉ rest := by
  obtain ⟨done, hdone, hmem⟩ := h.passed
  have hnd := h.wf.nodup
  rw [hdone] at hnd
  exact fun hr => (List.disjoint_of_nodup_append hnd) hmem hr

theorem Place.head_notMem (h : Place t k s caller (fl :: rest)) : fl ∉ rest := by
  obtain ⟨done, hdone, -⟩ := h.passed
  have hnd := h.wf.nodup
  rw [hdone] at hnd
  exact (List.nodup_cons.mp hnd.of_append_right).1

theorem Place.head_ne (h : Place t k s caller (fl :: rest)) : fl ≠ caller := fun he =>
  h.notMem (he ▸ List.mem_cons_self)

theorem Place.mem_of_rest (h : Place t k s caller rest) (hfl : fl ∈ rest) : fl ∈ s.flock := by
  obtain ⟨done, hdone, -⟩ := h.passed
  rw [hdone]
  exact List.mem_append_right _ hfl

theorem Place.head_mem (h : Place t k s caller (fl :: rest)) : fl ∈ s.flock :=
  h.mem_of_rest List.mem_cons_self

/-- Where the entry at `fl` changes its range only. -/
theorem Place.setEntry {e : FileLock} (h : Place t k s caller (fl :: rest))
    (he : e.flOwner ≠ none) (hr : e.Ranged) : Place t k (s.setEntry fl e) caller rest where
  wf := h.wf.setEntry h.head_mem he hr
  passed := by
    obtain ⟨done, hdone, hmem⟩ := h.passed
    exact ⟨done ++ [fl], by rw [setEntry_flock, hdone, List.append_assoc]; rfl,
      List.mem_append_left _ hmem⟩
  owner := by
    rw [setEntry_of_ne h.head_ne.symm]
    exact h.owner
  type := by
    rw [setEntry_of_ne h.head_ne.symm]
    exact h.type

/-- One turn keeps the place. -/
theorem Turn.place (hturn : Turn t s caller fl s' caller') (h : Place t k s caller (fl :: rest)) :
    Place t k s' caller' rest := by
  obtain ⟨hr, hr₁, hr₂, hr₃⟩ := h.wf.ranged fl h.head_mem
  obtain ⟨hc, hc₁, hc₂, -⟩ := h.wf.ranged caller h.mem
  cases hturn with
  | pass _ =>
      obtain ⟨done, hdone, hmem⟩ := h.passed
      exact ⟨h.wf, ⟨done ++ [fl], by rw [hdone, List.append_assoc]; rfl,
        List.mem_append_left _ hmem⟩, h.owner, h.type⟩
  | grow howner htype hleft hright =>
      have hranged : FileLock.Ranged { s.table caller' with
          flStart := min (s.table caller).flStart (s.table caller').flStart
          flEnd := max (s.table caller).flEnd (s.table caller').flEnd } :=
        ⟨by dsimp only; omega, by dsimp only; omega, by dsimp only; omega, hr₃⟩
      have hplace := h.setEntry (by rw [howner]; simp) hranged
      have htable : ((s.grown caller caller').freed caller).table caller' = { s.table caller' with
          flStart := min (s.table caller).flStart (s.table caller').flStart
          flEnd := max (s.table caller).flEnd (s.table caller').flEnd } := by
        rw [freed_of_ne h.head_ne]
        exact setEntry_self
      refine ⟨hplace.wf.freed h.mem, ?_, by rw [htable]; exact howner,
        by rw [htable]; exact htype.trans h.type⟩
      obtain ⟨done, hdone, hmem⟩ := h.passed
      refine ⟨done.erase caller ++ [caller'], ?_, by simp⟩
      rw [freed_flock, State.grown, setEntry_flock, hdone, List.erase_append_left _ hmem,
        List.append_assoc]
      rfl
  | trimStart howner htype hlo hmid hhi =>
      exact h.setEntry (by rw [howner]; simp)
        ⟨by dsimp only; omega, by dsimp only; omega, hr₂, hr₃⟩
  | trimEnd howner htype hlo hmid hhi =>
      exact h.setEntry (by rw [howner]; simp)
        ⟨hr, by dsimp only; omega, by dsimp only; omega, hr₃⟩

/-- The entries ahead are left alone. -/
theorem Turn.table (hturn : Turn t s caller fl s' caller') (h : Place t k s caller (fl :: rest)) :
    ∀ g ∈ rest, s'.table g = s.table g := fun g hg => by
  have hgfl : g ≠ fl := fun he => h.head_notMem (he ▸ hg)
  have hgc : g ≠ caller := fun he => h.notMem (he ▸ List.mem_cons_of_mem fl hg)
  cases hturn with
  | pass _ => rfl
  | grow _ _ _ _ =>
      rw [freed_of_ne hgc]
      exact setEntry_of_ne hgfl
  | trimStart _ _ _ _ _ => exact setEntry_of_ne hgfl
  | trimEnd _ _ _ _ _ => exact setEntry_of_ne hgfl

theorem grown_left (hlo : (s.table caller).flStart ≤ (s.table fl).flStart)
    (hhi : (s.table caller).flEnd ≤ (s.table fl).flEnd) :
    s.grown caller fl = s.setStart fl (s.table caller).flStart := by
  unfold State.grown State.setStart
  rw [min_eq_left hlo, max_eq_right hhi]

theorem grown_right (hlo : (s.table fl).flStart ≤ (s.table caller).flStart)
    (hhi : (s.table fl).flEnd ≤ (s.table caller).flEnd) :
    s.grown caller fl = s.setEnd fl (s.table caller).flEnd := by
  unfold State.grown State.setEnd
  rw [min_eq_right hlo, max_eq_left hhi]

theorem grown_inside (hlo : (s.table fl).flStart ≤ (s.table caller).flStart)
    (hhi : (s.table caller).flEnd ≤ (s.table fl).flEnd) : s.grown caller fl = s := by
  unfold State.grown
  rw [min_eq_right hlo, max_eq_right hhi, setEntry_table]

/-- The two assignments of the code. -/
theorem grown_eq :
    (let s₁ := if (s.table caller).flStart < (s.table fl).flStart then
        s.setStart fl (s.table caller).flStart else s
      if (s.table caller).flEnd > (s.table fl).flEnd then s₁.setEnd fl (s.table caller).flEnd
      else s₁) = s.grown caller fl := by
  unfold State.grown State.setEnd State.setStart
  dsimp only
  by_cases hlow : (s.table caller).flStart < (s.table fl).flStart
  · rw [if_pos hlow, min_eq_left hlow.le]
    by_cases hhigh : (s.table caller).flEnd > (s.table fl).flEnd
    · rw [if_pos hhigh, max_eq_left hhigh.le, setEntry_setEntry, setEntry_self]
    · rw [if_neg hhigh, max_eq_right (not_lt.mp hhigh)]
  · rw [if_neg hlow, min_eq_right (not_lt.mp hlow)]
    by_cases hhigh : (s.table caller).flEnd > (s.table fl).flEnd
    · rw [if_pos hhigh, max_eq_left hhigh.le]
    · rw [if_neg hhigh, max_eq_right (not_lt.mp hhigh), setEntry_table]

theorem Place.freeLock_grown (h : Place t k s caller (fl :: rest)) :
    freeLock (s.grown caller fl) caller = .next ((s.grown caller fl).freed caller) :=
  freeLock_eq (by
    rw [State.grown, setEntry_of_ne h.head_ne.symm]
    exact h.owner)

/-- The caller itself is passed. -/
theorem lockLoop_self : lockLoop s t caller (caller :: rest) = lockLoop s t caller rest := by
  rw [lockLoop]
  dsimp only
  rw [if_neg (not_not.mpr rfl), if_pos rfl]

/-- What the loop does at `fl`. -/
def Turns (t : Task) (s : State) (caller fl : Slot) (rest : List Slot) : Prop :=
  (∃ s' caller', Turn t s caller fl s' caller' ∧
    lockLoop s t caller (fl :: rest) = lockLoop s' t caller' rest) ∨
  ∃ p, Last t s caller fl p ∧ lockLoop s t caller (fl :: rest) = .next p

/-- What the loops do with the entry that `alloc_lock` has given them, or without one. -/
def afterAlloc (full : Outcome (State × Int)) (fl : Slot) (last first : Int) :
    Option (State × Slot) → Outcome (State × Int)
  | none => full
  | some (s, new) => .next ((s.setEnd fl last).setStart new first, 0)

/-- At an entry of the other type that overlaps. -/
theorem Place.other_type (h : Place t k s caller (fl :: rest))
    (howner : (s.table fl).flOwner = some t)
    (htype : (s.table fl).flType ≠ (s.table caller).flType)
    (hover : overlap (s.table caller) (s.table fl) = true) : Turns t s caller fl rest := by
  obtain ⟨hr, hr₁, hr₂, hr₃⟩ := h.wf.ranged fl h.head_mem
  obtain ⟨hc, hc₁, hc₂, -⟩ := h.wf.ranged caller h.mem
  have hover' := (overlap_iff hc₁ hr₁).mp hover
  have heq : lockLoop s t caller (fl :: rest) =
      if (s.table caller).flStart > (s.table fl).flStart ∧
          (s.table caller).flEnd < (s.table fl).flEnd then
        (allocLock s t (s.table fl)).bind <|
          afterAlloc ((freeLock s caller).bind fun s => .next (s, -ENOLCK)) fl
            (off ((s.table caller).flStart - 1)) (off ((s.table caller).flEnd + 1))
      else if (s.table caller).flStart ≤ (s.table fl).flStart ∧
          (s.table caller).flEnd ≥ (s.table fl).flEnd then
        (freeLock s fl).bind fun s => .next (s, 0)
      else if (s.table caller).flEnd < (s.table fl).flEnd then
        lockLoop (s.setStart fl (off ((s.table caller).flEnd + 1))) t caller rest
      else if (s.table caller).flStart > (s.table fl).flStart then
        lockLoop (s.setEnd fl (off ((s.table caller).flStart - 1))) t caller rest
      else (freeLock s caller).bind fun s => .next (s, -ENOLCK) := by
    rw [lockLoop]
    dsimp only
    rw [if_neg (by rw [h.owner, howner]; simp), if_neg h.head_ne.symm, hover, if_neg (by simp)]
    exact if_pos htype.symm
  by_cases hsplit : (s.table caller).flStart > (s.table fl).flStart ∧
      (s.table caller).flEnd < (s.table fl).flEnd
  · rw [if_pos hsplit] at heq
    right
    cases hfree : s.freeList with
    | nil =>
        rw [allocLock_nil hfree, Outcome.bind_next] at heq
        rw [afterAlloc, freeLock_eq h.owner, Outcome.bind_next] at heq
        exact ⟨_, .full hfree howner htype hsplit.1 hsplit.2, heq⟩
    | cons new free =>
        have hnew : new ∈ s.freeList := hfree ▸ List.mem_cons_self
        have hne : fl ≠ new := fun he => h.wf.notMem_flock hnew (he ▸ h.head_mem)
        rw [allocLock_cons hfree (h.wf.free new hnew), Outcome.bind_next] at heq
        dsimp only [afterAlloc] at heq
        rw [off_of_range (by omega) (by omega), off_of_range (by omega) (by omega),
          split_eq hne] at heq
        exact ⟨_, .split new free hfree howner htype hsplit.1 hsplit.2, heq⟩
  · rw [if_neg hsplit] at heq
    by_cases hrep : (s.table caller).flStart ≤ (s.table fl).flStart ∧
        (s.table caller).flEnd ≥ (s.table fl).flEnd
    · rw [if_pos hrep, freeLock_eq howner, Outcome.bind_next] at heq
      exact Or.inr ⟨_, .replace howner htype hrep.1 hrep.2, heq⟩
    · rw [if_neg hrep] at heq
      left
      by_cases hend : (s.table caller).flEnd < (s.table fl).flEnd
      · rw [if_pos hend, off_of_range (by omega) (by omega)] at heq
        exact ⟨_, _, .trimStart howner htype (by omega) hover'.2 hend, heq⟩
      · rw [if_neg hend, if_pos (by omega), off_of_range (by omega) (by omega)] at heq
        exact ⟨_, _, .trimEnd howner htype (by omega) hover'.1 (by omega), heq⟩

/-- At an entry of the same type that overlaps. -/
theorem Place.same_type (h : Place t k s caller (fl :: rest))
    (howner : (s.table fl).flOwner = some t)
    (htype : (s.table fl).flType = (s.table caller).flType)
    (hover : overlap (s.table caller) (s.table fl) = true) : Turns t s caller fl rest := by
  have hover' := (overlap_iff (h.wf.ranged caller h.mem).2.1 (h.wf.ranged fl h.head_mem).2.1).mp
    hover
  have heq : lockLoop s t caller (fl :: rest) =
      (freeLock (s.grown caller fl) caller).bind fun s' =>
        if (s.table caller).flStart < (s.table fl).flStart ∨
            (s.table caller).flEnd > (s.table fl).flEnd then lockLoop s' t fl rest
        else .next (s', 0) := by
    rw [lockLoop]
    dsimp only
    rw [if_neg (by rw [h.owner, howner]; simp), if_neg h.head_ne.symm, hover, if_neg (by simp),
      if_neg (not_not.mpr htype.symm), ← grown_eq]
  rw [h.freeLock_grown, Outcome.bind_next] at heq
  by_cases hgrew : (s.table caller).flStart < (s.table fl).flStart ∨
      (s.table caller).flEnd > (s.table fl).flEnd
  · rw [if_pos hgrew] at heq
    exact Or.inl ⟨_, _, .grow howner htype (by omega) (by omega), heq⟩
  · rw [if_neg hgrew, grown_inside (by omega) (by omega)] at heq
    exact Or.inr ⟨_, .inside howner htype (by omega) (by omega), heq⟩

/-- At an entry of the owner that does not overlap. -/
theorem Place.beside (h : Place t k s caller (fl :: rest))
    (howner : (s.table fl).flOwner = some t)
    (hover : overlap (s.table caller) (s.table fl) = false) : Turns t s caller fl rest := by
  obtain ⟨hr, hr₁, hr₂, hr₃⟩ := h.wf.ranged fl h.head_mem
  obtain ⟨hc, hc₁, hc₂, -⟩ := h.wf.ranged caller h.mem
  have hout : (s.table fl).flEnd < (s.table caller).flStart ∨
      (s.table caller).flEnd < (s.table fl).flStart := by
    by_contra hcon
    have := (overlap_iff hc₁ hr₁).mpr (by omega)
    rw [hover] at this
    cases this
  have heq : lockLoop s t caller (fl :: rest) =
      if (s.table caller).flType ≠ (s.table fl).flType then lockLoop s t caller rest
      else if off ((s.table caller).flEnd + 1) = (s.table fl).flStart then
        (freeLock (s.setStart fl (s.table caller).flStart) caller).bind fun s =>
          lockLoop s t fl rest
      else if off ((s.table caller).flStart - 1) = (s.table fl).flEnd then
        (freeLock (s.setEnd fl (s.table caller).flEnd) caller).bind fun s => lockLoop s t fl rest
      else lockLoop s t caller rest := by
    rw [lockLoop]
    dsimp only
    rw [if_neg (by rw [h.owner, howner]; simp), if_neg h.head_ne.symm, hover, if_pos (by simp)]
  left
  by_cases htype : (s.table caller).flType ≠ (s.table fl).flType
  · rw [if_pos htype] at heq
    exact ⟨_, _, .pass fun _ => hout, heq⟩
  · rw [if_neg htype] at heq
    have htype' := (not_not.mp htype).symm
    by_cases hright : off ((s.table caller).flEnd + 1) = (s.table fl).flStart
    · have hadj := off_eq (by omega) (by omega) hr hright
      rw [if_pos hright, ← grown_left (by omega) (by omega), h.freeLock_grown,
        Outcome.bind_next] at heq
      exact ⟨_, _, .grow howner htype' (by omega) (by omega), heq⟩
    · rw [if_neg hright] at heq
      by_cases hleft : off ((s.table caller).flStart - 1) = (s.table fl).flEnd
      · have hadj := off_eq (by omega) (by omega) (by omega) hleft
        rw [if_pos hleft, ← grown_right (by omega) (by omega), h.freeLock_grown,
          Outcome.bind_next] at heq
        exact ⟨_, _, .grow howner htype' (by omega) (by omega), heq⟩
      · rw [if_neg hleft] at heq
        exact ⟨_, _, .pass fun _ => hout, heq⟩

/-- **One turn of `lock_it`.** -/
theorem lockLoop_turns (h : Place t k s caller (fl :: rest)) : Turns t s caller fl rest := by
  by_cases howner : (s.table caller).flOwner ≠ (s.table fl).flOwner
  · refine Or.inl ⟨s, caller, .pass fun he => absurd (h.owner.trans he.symm) howner, ?_⟩
    rw [lockLoop]
    dsimp only
    rw [if_pos howner]
  · have howner' := (not_not.mp howner).symm.trans h.owner
    cases hover : overlap (s.table caller) (s.table fl) with
    | false => exact h.beside howner' hover
    | true =>
        by_cases htype : (s.table fl).flType = (s.table caller).flType
        · exact h.same_type howner' htype hover
        · exact h.other_type howner' htype hover

end Place

/-! ### The turns of `unlock_it` -/

/-- The turns at `fl` after which the loop goes on. -/
inductive Unturn (t : Task) (req : Request) (s : State) (fl : Slot) (one : Bool) :
    State → Bool → Prop
  | pass (hout : (s.table fl).flOwner = some t →
      (s.table fl).flEnd < req.flStart ∨ req.flEnd < (s.table fl).flStart) :
      Unturn t req s fl one s one
  | free (howner : (s.table fl).flOwner = some t) (hlo : req.flStart ≤ (s.table fl).flStart)
      (hhi : (s.table fl).flEnd ≤ req.flEnd) : Unturn t req s fl one (s.freed fl) true
  | trimStart (howner : (s.table fl).flOwner = some t)
      (hlo : req.flStart ≤ (s.table fl).flStart) (hmid : (s.table fl).flStart ≤ req.flEnd)
      (hhi : req.flEnd < (s.table fl).flEnd) :
      Unturn t req s fl one (s.setEntry fl { s.table fl with flStart := req.flEnd + 1 }) true
  | trimEnd (howner : (s.table fl).flOwner = some t)
      (hlo : (s.table fl).flStart < req.flStart) (hmid : req.flStart ≤ (s.table fl).flEnd)
      (hhi : (s.table fl).flEnd ≤ req.flEnd) :
      Unturn t req s fl one (s.setEntry fl { s.table fl with flEnd := req.flStart - 1 }) true

/-- The turns at `fl` that end the loop. -/
inductive Unlast (t : Task) (req : Request) (s : State) (fl : Slot) : State × Int → Prop
  | split (new : Slot) (free : List Slot) (hfree : s.freeList = new :: free)
      (howner : (s.table fl).flOwner = some t) (hlo : (s.table fl).flStart < req.flStart)
      (hhi : req.flEnd < (s.table fl).flEnd) :
      Unlast t req s fl (s.split t fl new req.flStart req.flEnd, 0)
  | full (hfree : s.freeList = []) (howner : (s.table fl).flOwner = some t)
      (hlo : (s.table fl).flStart < req.flStart) (hhi : req.flEnd < (s.table fl).flEnd) :
      Unlast t req s fl (s, -ENOLCK)
  | exact (howner : (s.table fl).flOwner = some t) (hlo : req.flStart = (s.table fl).flStart)
      (hhi : req.flEnd = (s.table fl).flEnd) : Unlast t req s fl (s.freed fl, 0)

/-- `unlock_it` is at `rest`. -/
structure Unplace (s : State) (rest : List Slot) : Prop where
  wf : Wf s
  nodup : rest.Nodup
  mem : ∀ fl ∈ rest, fl ∈ s.flock

section Unplace

variable {s s' : State} {t : Task} {req : Request} {one one' : Bool} {fl : Slot} {rest : List Slot}

theorem Unplace.head_mem (h : Unplace s (fl :: rest)) : fl ∈ s.flock :=
  h.mem fl List.mem_cons_self

theorem Unplace.ne (h : Unplace s (fl :: rest)) {g : Slot} (hg : g ∈ rest) : g ≠ fl := fun he =>
  (List.nodup_cons.mp h.nodup).1 (he ▸ hg)

theorem Unplace.setEntry {e : FileLock} (h : Unplace s (fl :: rest)) (he : e.flOwner ≠ none)
    (hr : e.Ranged) : Unplace (s.setEntry fl e) rest where
  wf := h.wf.setEntry h.head_mem he hr
  nodup := (List.nodup_cons.mp h.nodup).2
  mem g hg := h.mem g (List.mem_cons_of_mem fl hg)

theorem Unplace.freed (h : Unplace s (fl :: rest)) : Unplace (s.freed fl) rest where
  wf := h.wf.freed h.head_mem
  nodup := (List.nodup_cons.mp h.nodup).2
  mem g hg := (List.mem_erase_of_ne (h.ne hg)).mpr (h.mem g (List.mem_cons_of_mem fl hg))

/-- One turn keeps the place. -/
theorem Unturn.place (hturn : Unturn t req s fl one s' one') (h : Unplace s (fl :: rest)) :
    Unplace s' rest := by
  obtain ⟨hr, hr₁, hr₂, hr₃⟩ := h.wf.ranged fl h.head_mem
  obtain ⟨hq, hq₁, hq₂⟩ := req.range
  cases hturn with
  | pass _ =>
      exact ⟨h.wf, (List.nodup_cons.mp h.nodup).2, fun g hg => h.mem g (List.mem_cons_of_mem fl hg)⟩
  | free howner hlo hhi => exact h.freed
  | trimStart howner hlo hmid hhi =>
      exact h.setEntry (by rw [howner]; simp) ⟨by dsimp only; omega, by dsimp only; omega, hr₂, hr₃⟩
  | trimEnd howner hlo hmid hhi =>
      exact h.setEntry (by rw [howner]; simp) ⟨hr, by dsimp only; omega, by dsimp only; omega, hr₃⟩

/-- The entries ahead are left alone. -/
theorem Unturn.table (hturn : Unturn t req s fl one s' one') (h : Unplace s (fl :: rest)) :
    ∀ g ∈ rest, s'.table g = s.table g := fun g hg => by
  cases hturn with
  | pass _ => rfl
  | free _ _ _ => exact freed_of_ne (h.ne hg)
  | trimStart _ _ _ _ => exact setEntry_of_ne (h.ne hg)
  | trimEnd _ _ _ _ => exact setEntry_of_ne (h.ne hg)

/-- What the loop does at `fl`. -/
def Unturns (t : Task) (req : Request) (s : State) (fl : Slot) (one : Bool) (rest : List Slot) :
    Prop :=
  (∃ s' one', Unturn t req s fl one s' one' ∧
    unlockLoop s t (req.lock t) one (fl :: rest) = unlockLoop s' t (req.lock t) one' rest) ∨
  ∃ p, Unlast t req s fl p ∧ unlockLoop s t (req.lock t) one (fl :: rest) = .next p

/-- At an entry of the owner that overlaps. -/
theorem Unplace.hit (h : Unplace s (fl :: rest)) (howner : (s.table fl).flOwner = some t)
    (hover : overlap (req.lock t) (s.table fl) = true) : Unturns t req s fl one rest := by
  obtain ⟨hr, hr₁, hr₂, hr₃⟩ := h.wf.ranged fl h.head_mem
  obtain ⟨hq, hq₁, hq₂⟩ := req.range
  obtain ⟨hover₁, hover₂⟩ : req.flStart ≤ (s.table fl).flEnd ∧ (s.table fl).flStart ≤ req.flEnd :=
    (overlap_iff hq₁ hr₁).mp hover
  have heq : unlockLoop s t (req.lock t) one (fl :: rest) =
      if req.flStart > (s.table fl).flStart ∧ req.flEnd < (s.table fl).flEnd then
        (allocLock s t (s.table fl)).bind <|
          afterAlloc (.next (s, -ENOLCK)) fl (off (req.flStart - 1)) (off (req.flEnd + 1))
      else
        (if req.flStart ≤ (s.table fl).flStart ∧ req.flEnd ≥ (s.table fl).flEnd then freeLock s fl
         else if req.flStart > (s.table fl).flStart then
           .next (s.setEnd fl (off (req.flStart - 1)))
         else .next (s.setStart fl (off (req.flEnd + 1)))).bind fun s =>
          if req.flStart ≥ (s.table fl).flStart ∧ req.flEnd ≤ (s.table fl).flEnd then .next (s, 0)
          else unlockLoop s t (req.lock t) true rest := by
    rw [unlockLoop, if_neg (by rw [howner, hover]; simp [Request.lock])]
    rfl
  by_cases hsplit : req.flStart > (s.table fl).flStart ∧ req.flEnd < (s.table fl).flEnd
  · rw [if_pos hsplit] at heq
    right
    cases hfree : s.freeList with
    | nil =>
        rw [allocLock_nil hfree, Outcome.bind_next] at heq
        exact ⟨_, .full hfree howner hsplit.1 hsplit.2, heq⟩
    | cons new free =>
        have hnew : new ∈ s.freeList := hfree ▸ List.mem_cons_self
        have hne : fl ≠ new := fun he => h.wf.notMem_flock hnew (he ▸ h.head_mem)
        rw [allocLock_cons hfree (h.wf.free new hnew), Outcome.bind_next] at heq
        dsimp only [afterAlloc] at heq
        rw [off_of_range (by omega) (by omega), off_of_range (by omega) (by omega),
          split_eq hne] at heq
        exact ⟨_, .split new free hfree howner hsplit.1 hsplit.2, heq⟩
  · rw [if_neg hsplit] at heq
    by_cases hrep : req.flStart ≤ (s.table fl).flStart ∧ req.flEnd ≥ (s.table fl).flEnd
    · rw [if_pos hrep, freeLock_eq howner, Outcome.bind_next, freed_self] at heq
      by_cases hall : req.flStart ≥ (s.table fl).flStart ∧ req.flEnd ≤ (s.table fl).flEnd
      · rw [if_pos hall] at heq
        exact Or.inr ⟨_, .exact howner (by omega) (by omega), heq⟩
      · rw [if_neg hall] at heq
        exact Or.inl ⟨_, _, .free howner hrep.1 hrep.2, heq⟩
    · rw [if_neg hrep] at heq
      left
      by_cases hstart : req.flStart > (s.table fl).flStart
      · rw [if_pos hstart, Outcome.bind_next, off_of_range (by omega) (by omega)] at heq
        unfold State.setEnd at heq
        rw [setEntry_self, if_neg (by dsimp only; omega)] at heq
        exact ⟨_, _, .trimEnd howner hstart hover₁ (by omega), heq⟩
      · rw [if_neg hstart, Outcome.bind_next, off_of_range (by omega) (by omega)] at heq
        unfold State.setStart at heq
        rw [setEntry_self, if_neg (by dsimp only; omega)] at heq
        exact ⟨_, _, .trimStart howner (by omega) hover₂ (by omega), heq⟩

/-- **One turn of `unlock_it`.** -/
theorem unlockLoop_turns (h : Unplace s (fl :: rest)) : Unturns t req s fl one rest := by
  by_cases howner : (s.table fl).flOwner = some t
  · cases hover : overlap (req.lock t) (s.table fl) with
    | true => exact h.hit howner hover
    | false =>
        refine Or.inl ⟨s, one, .pass fun _ => ?_, ?_⟩
        · by_contra hcon
          have hov := (overlap_iff (e := req.lock t) req.range.2.1
            (h.wf.ranged fl h.head_mem).2.1).mpr ⟨by change req.flStart ≤ _; omega,
              by change _ ≤ req.flEnd; omega⟩
          rw [hover] at hov
          cases hov
        · rw [unlockLoop, if_pos (Or.inr (by rw [hover]; rfl))]
  · refine Or.inl ⟨s, one, .pass fun he => absurd he howner, ?_⟩
    rw [unlockLoop, if_pos (Or.inl fun he => howner he.symm)]

end Unplace

end LinuxKernel.V098.Fs.Locks
