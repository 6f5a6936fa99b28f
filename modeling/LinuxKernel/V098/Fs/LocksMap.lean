import LinuxKernel.V098.Fs.LockWalk

/-!
# LinuxKernel.V098.Fs.LocksMap

The **byte map** of a file: what its lock list says about each owner and each
byte, against the calls that have returned (`State.held`).
-/

namespace LinuxKernel.V098.Fs.Locks

open Overlay

/-! ### The map -/

/-- What owner `t` has of byte `b` after the calls in the log; `unlck` is no lock. -/
def heldAfter (t : Task) (b : Int) : List Event → LockType
  | [] => .unlck
  | .granted u req :: log =>
      if u = t ∧ req.flStart ≤ b ∧ b ≤ req.flEnd then req.flType else heldAfter t b log
  | .refused _ _ :: log => heldAfter t b log
  | .removed u :: log => if u = t then .unlck else heldAfter t b log

def State.held (s : State) (t : Task) (b : Int) : LockType := heldAfter t b s.log

/-- The lock list is the byte map of the calls that have returned. A refused call is
none of those that change the map. -/
structure ByteMap (s : State) : Prop where
  denotes : ∀ t b k, k ≠ .unlck → ((∃ fl ∈ s.flock, (s.table fl).Has t b k) ↔ s.held t b = k)
  single : ∀ fl ∈ s.flock, ∀ fl' ∈ s.flock, fl ≠ fl' →
    (s.table fl).flOwner = (s.table fl').flOwner → overlap (s.table fl) (s.table fl') = false
  shared : ∀ fl ∈ s.flock, ∀ fl' ∈ s.flock, (s.table fl).flOwner ≠ (s.table fl').flOwner →
    overlap (s.table fl) (s.table fl') = true →
    (s.table fl).flType = .rdlck ∧ (s.table fl').flType = .rdlck
  listed : ∀ fl, s.flock.count fl + s.freeList.count fl + s.elsewhere.count fl = 1

/-- The same about the families of the owners. -/
structure Sound (s : State) : Prop where
  wf : Wf s
  apart : ∀ t, Apart (fam s t none)
  view : ∀ t b k, View (fam s t none) b k ↔ k ≠ .unlck ∧ s.held t b = k
  shared : ∀ t u b k k', t ≠ u → View (fam s t none) b k → View (fam s u none) b k' →
    k = .rdlck ∧ k' = .rdlck
  wants : ∀ t, (s.pc t).Wants

section Sound

variable {s s' : State} {t u : Task} {req : Request} {fl : Slot} {b : Int} {k : LockType}

theorem heldAfter_granted {log : List Event} (hb : b ∈ req.bytes) :
    heldAfter t b (.granted t req :: log) = req.flType := if_pos ⟨rfl, hb⟩

theorem heldAfter_granted_out {log : List Event} (hb : b ∉ req.bytes) :
    heldAfter u b (.granted t req :: log) = heldAfter u b log := if_neg fun h => hb h.2

theorem heldAfter_granted_ne {log : List Event} (hu : u ≠ t) :
    heldAfter u b (.granted t req :: log) = heldAfter u b log := if_neg fun h => hu h.1.symm

/-- A byte of an entry, in a family. -/
theorem fam_of_mem (hfl : fl ∈ s.flock) (howner : (s.table fl).flOwner = some t)
    (hb : (s.table fl).flStart ≤ b ∧ b ≤ (s.table fl).flEnd) :
    fam s t none (some fl) b (s.table fl).flType := ⟨hfl, howner, hb.1, hb.2, rfl⟩

theorem Sound.byteMap (h : Sound s) : ByteMap s where
  denotes t b k hk := by
    rw [← view_fam, h.view]
    exact and_iff_right hk
  single fl hfl fl' hfl' hne howner := by
    obtain ⟨t, ht⟩ := Option.ne_none_iff_exists'.mp (h.wf.owned fl hfl)
    obtain ⟨-, hr, -⟩ := h.wf.ranged fl hfl
    obtain ⟨-, hr', -⟩ := h.wf.ranged fl' hfl'
    refine Bool.eq_false_iff.mpr fun hover => ?_
    have hov := (overlap_iff hr hr').mp hover
    have hb := fam_of_mem (b := max (s.table fl).flStart (s.table fl').flStart) hfl ht
      ⟨by omega, by omega⟩
    have hb' := fam_of_mem (b := max (s.table fl).flStart (s.table fl').flStart) hfl'
      (howner ▸ ht) ⟨by omega, by omega⟩
    exact hne (Option.some.inj (h.apart t _ _ _ _ _ hb hb').1)
  shared fl hfl fl' hfl' howner hover := by
    obtain ⟨t, ht⟩ := Option.ne_none_iff_exists'.mp (h.wf.owned fl hfl)
    obtain ⟨u, hu⟩ := Option.ne_none_iff_exists'.mp (h.wf.owned fl' hfl')
    obtain ⟨-, hr, -⟩ := h.wf.ranged fl hfl
    obtain ⟨-, hr', -⟩ := h.wf.ranged fl' hfl'
    have hov := (overlap_iff hr hr').mp hover
    have hb := fam_of_mem (b := max (s.table fl).flStart (s.table fl').flStart) hfl ht
      ⟨by omega, by omega⟩
    have hb' := fam_of_mem (b := max (s.table fl).flStart (s.table fl').flStart) hfl' hu
      ⟨by omega, by omega⟩
    have htu : t ≠ u := by
      rintro rfl
      exact howner (ht.trans hu.symm)
    exact h.shared t u _ _ _ htu ⟨_, hb⟩ ⟨_, hb'⟩
  listed := h.wf.listed

/-- An owner with a byte twice shows in the list. -/
theorem ByteMap.apart (h : ByteMap s) (hwf : Wf s) (t : Task) : Apart (fam s t none) := by
  intro i j b k k' hi hj
  cases i with
  | none => exact nomatch hi.choose_spec.1
  | some fl =>
      cases j with
      | none => exact nomatch hj.choose_spec.1
      | some fl' =>
          obtain ⟨hfl, howner, hlo, hhi, rfl⟩ := hi
          obtain ⟨hfl', howner', hlo', hhi', rfl⟩ := hj
          by_cases hne : fl = fl'
          · subst hne
            exact ⟨rfl, rfl⟩
          · have hout := h.single fl hfl fl' hfl' hne (howner.trans howner'.symm)
            have hover := (overlap_iff (hwf.ranged fl hfl).2.1 (hwf.ranged fl' hfl').2.1).mpr
              ⟨by omega, by omega⟩
            rw [hout] at hover
            cases hover

/-- The views of all owners after a call of `t` that has brought the family of `t` to `V`. -/
theorem Sound.of_call {e : Event} {pc : Pc} (h : Sound s) (hwf : Wf s') (hothers : Others t s s')
    (hapart : Apart (fam s' t none))
    (hview : ∀ b k, View (fam s' t none) b k ↔ k ≠ .unlck ∧ heldAfter t b (e :: s.log) = k)
    (hheld : ∀ u b, u ≠ t → heldAfter u b (e :: s.log) = heldAfter u b s.log)
    (hshared : ∀ u b k k', u ≠ t → View (fam s' t none) b k → View (fam s u none) b k' →
      k = .rdlck ∧ k' = .rdlck)
    (hpc : pc.Wants) :
    Sound { s'.setPc t pc with log := e :: s'.log } where
  wf := ⟨hwf.listed, hwf.owned, hwf.free, hwf.ranged⟩
  apart u := by
    by_cases hu : u = t
    · rw [hu]
      exact hapart
    · have : fam { s'.setPc t pc with log := e :: s'.log } u none = fam s' u none := rfl
      rw [this, hothers.fam u hu]
      exact h.apart u
  view u b k := by
    change View (fam s' u none) b k ↔ _ ∧ heldAfter u b (e :: s'.log) = k
    rw [hothers.log]
    by_cases hu : u = t
    · rw [hu]
      exact hview b k
    · rw [hothers.fam u hu, hheld u b hu]
      exact h.view u b k
  shared u v b k k' huv hb hb' := by
    change View (fam s' u none) b k at hb
    change View (fam s' v none) b k' at hb'
    by_cases hu : u = t
    · subst hu
      rw [hothers.fam v huv.symm] at hb'
      exact hshared v b k k' huv.symm hb hb'
    · rw [hothers.fam u hu] at hb
      by_cases hv : v = t
      · subst hv
        exact (hshared u b k' k huv hb' hb).symm
      · rw [hothers.fam v hv] at hb'
        exact h.shared u v b k k' huv hb hb'
  wants u := by
    change ((Function.update s'.pc t pc) u).Wants
    by_cases hu : u = t
    · rw [hu, Function.update_self]
      exact hpc
    · rw [Function.update_of_ne hu]
      exact (hothers.pc u).wants (h.wants u)

/-- What the scan has found out. -/
theorem shared_of_scan (htype : req.flType ≠ .unlck) (hb : b ∈ req.bytes) (hu : u ≠ t)
    (hscan : ∀ fl ∈ s.flock, conflict (req.lock t) (s.table fl) = false)
    (hview : View (fam s u none) b k) : req.flType = .rdlck ∧ k = .rdlck := by
  obtain ⟨fl, hfl, howner, hlo, hhi, rfl⟩ := view_fam.mp hview
  have h := hscan fl hfl
  unfold conflict at h
  have hover : overlap (req.lock t) (s.table fl) = true :=
    (overlap_iff (e := req.lock t) req.range.2.1 (Int.le_trans hlo hhi)).mpr
      ⟨Int.le_trans hb.1 hhi, Int.le_trans hlo hb.2⟩
  rw [if_neg (by rw [howner]; exact fun he => hu (Option.some.inj he).symm), hover,
    if_neg (by simp)] at h
  rw [show (req.lock t).flType = req.flType from rfl] at h
  cases hreq : req.flType with
  | rdlck =>
      rw [hreq] at h
      exact ⟨rfl, not_not.mp (of_decide_eq_false h)⟩
  | wrlck =>
      rw [hreq] at h
      cases h
  | unlck => exact absurd hreq htype

/-! ### One step -/

/-- A step that changes neither the entries nor the log. -/
theorem Sound.of_same (h : Sound s) (hwf : Wf s') (hfam : ∀ t, fam s' t none = fam s t none)
    (hlog : s'.log = s.log) (hpc : ∀ t, (s'.pc t).Wants) : Sound s' where
  wf := hwf
  apart t := by
    rw [hfam]
    exact h.apart t
  view t b k := by
    unfold State.held
    rw [hfam, hlog]
    exact h.view t b k
  shared t u b k k' := by
    rw [hfam, hfam]
    exact h.shared t u b k k'
  wants := hpc

theorem fam_setWait (s : State) (t : Task) (fl : Slot) (l : List Task) :
    fam (s.setEntry fl { s.table fl with flWait := l }) t none = fam s t none := by
  funext i b k
  cases i with
  | none => rfl
  | some f =>
      change (_ ∧ FileLock.Has _ t b k) = (_ ∧ FileLock.Has _ t b k)
      by_cases hf : f = fl
      · rw [hf, setEntry_self]
        rfl
      · rw [setEntry_of_ne hf]
        rfl

/-- A call that is refused leaves the map as it is. -/
theorem Sound.refused {e : Int} {pc : Pc} (h : Sound s) (hwf : Wf s') (hothers : Others t s s')
    (hapart : Apart (fam s' t none))
    (hview : ∀ b k, View (fam s' t none) b k ↔ View (fam s t none) b k) (hpc : pc.Wants) :
    Sound { s'.setPc t pc with log := .refused t e :: s'.log } :=
  h.of_call hwf hothers hapart (fun b k => (hview b k).trans (h.view t b k)) (fun _ _ _ => rfl)
    (fun u b k k' hu hb hb' => h.shared t u b k k' hu.symm ((hview b k).mp hb) hb') hpc

/-- The request does not make `lock_it` stop before it is through. -/
def NoSkip (s : State) (t : Task) (req : Request) : Prop :=
  Locked s t req → ¬ Skips s.table (req.lock t) s.flock

/-- No call takes place that locks over an entry of the other type with one more
entry to replace behind it. -/
def Through (s : State) : Op → Prop
  | .setlk t _ filp l =>
      match checkArgs filp l with
      | .ok req => NoSkip s t req
      | .error _ => True
  | .again t =>
      match s.pc t with
      | .woken req => NoSkip s t req
      | _ => True
  | _ => True

/-- What a step should do: stay in the map, or be one of those that cannot. -/
def StepEnds (s' : State) (ok : Prop) : Prop := Sound s' ∧ ok ∨ Wf s' ∧ ¬ ByteMap s' ∧ ¬ ok

theorem scan_ends (h : Sound s) (hreq : req.flType ≠ .unlck) {setlkw : Bool}
    (hs : scan s t setlkw req = .next s') : StepEnds s' (NoSkip s t req) := by
  unfold scan at hs
  cases hfind : s.flock.find? fun fl => conflict (req.lock t) (s.table fl) with
  | some fl =>
      rw [hfind] at hs
      dsimp only at hs
      have hnot : NoSkip s t req := fun hl => by
        have hconf := List.find?_some hfind
        rw [hl.2.1 fl (List.mem_of_find?_eq_some hfind)] at hconf
        cases hconf
      refine Or.inl ⟨?_, hnot⟩
      cases setlkw with
      | true =>
          rw [if_pos rfl] at hs
          cases hs
          exact h.of_same (h.wf.setWait fl _).setPc (fun u => fam_setWait s u fl _) rfl
            (wants_update h.wants hreq)
      | false =>
          rw [if_neg Bool.false_ne_true] at hs
          cases hs
          exact h.refused h.wf Others.refl (h.apart t) (fun _ _ => Iff.rfl) True.intro
  | none =>
      rw [hfind] at hs
      dsimp only at hs
      have hscan : ∀ fl ∈ s.flock, conflict (req.lock t) (s.table fl) = false := fun fl hfl =>
        Bool.eq_false_iff.mpr (List.find?_eq_none.mp hfind fl hfl)
      cases hfree : s.freeList with
      | nil =>
          unfold lockIt at hs
          rw [allocLock_nil hfree, Outcome.bind_next, Outcome.bind_next] at hs
          cases hs
          refine Or.inl ⟨?_, fun hl => absurd hfree hl.2.2⟩
          exact h.refused h.wf Others.refl (h.apart t) (fun _ _ => Iff.rfl) True.intro
      | cons new free =>
          obtain ⟨⟨s₁, ret⟩, hp, hwf, hothers, hout⟩ := lockIt_ends h.wf (h.apart t) hfree hreq
          rw [hp, Outcome.bind_next] at hs
          cases hs
          have hlocked : Locked s t req := ⟨hreq, hscan, by rw [hfree]; simp⟩
          dsimp only at hwf hothers hout
          rcases hout with ⟨hskips, rfl, hlaid⟩ | ⟨hskips, rfl, hapart, hview⟩ |
            ⟨hskips, rfl, hapart⟩
          · refine Or.inl ⟨?_, fun _ => hskips⟩
            have hmem : ∀ b k, View (fam s₁ t none) b k → b ∈ req.bytes ∧ k = req.flType ∨
                b ∉ req.bytes ∧ View (fam s t none) b k := fun b k => (hlaid.2 b k).mp
            refine h.of_call hwf hothers hlaid.1 (fun b k => ?_)
              (fun u b hu => heldAfter_granted_ne hu) (fun u b k k' hu hb hb' => ?_) True.intro
            · rw [hlaid.2, h.view]
              by_cases hb : b ∈ req.bytes
              · rw [if_pos rfl, heldAfter_granted hb]
                constructor
                · rintro (⟨-, rfl⟩ | ⟨hout, -⟩)
                  · exact ⟨hreq, rfl⟩
                  · exact absurd hb hout
                · exact fun hk => Or.inl ⟨hb, hk.2.symm⟩
              · rw [if_pos rfl, heldAfter_granted_out hb]
                constructor
                · rintro (⟨hin, -⟩ | ⟨-, hk⟩)
                  · exact absurd hin hb
                  · exact hk
                · exact fun hk => Or.inr ⟨hb, hk⟩
            · rcases hmem b k hb with ⟨hbr, rfl⟩ | ⟨-, hv⟩
              · exact shared_of_scan hreq hbr hu hscan hb'
              · exact h.shared t u b k k' hu.symm hv hb'
          · exact Or.inl ⟨h.refused hwf hothers hapart hview True.intro, fun _ => hskips⟩
          · have hwf' : Wf { s₁.setPc t .running with
                log := (if (0 : Int) = 0 then .granted t req else .refused t 0) :: s₁.log } :=
              ⟨hwf.listed, hwf.owned, hwf.free, hwf.ranged⟩
            exact Or.inr ⟨hwf', fun hmap => hapart (hmap.apart hwf' t), fun hno => hno hlocked hskips⟩

theorem unlock_ends (h : Sound s) (hreq : req.flType = .unlck)
    (hs : (unlockIt s t req).bind (finish t req) = .next s') : Sound s' := by
  obtain ⟨⟨s₁, ret⟩, hp, hwf, hothers, hapart, hout⟩ := unlockIt_ends h.wf (h.apart t) hreq
  rw [hp, Outcome.bind_next] at hs
  cases hs
  dsimp only at hwf hothers hapart hout
  rcases hout with ⟨rfl, hview⟩ | ⟨hret, hview⟩
  · refine h.of_call hwf hothers hapart (fun b k => ?_) (fun u b hu => heldAfter_granted_ne hu)
      (fun u b k k' hu hb hb' => h.shared t u b k k' hu.symm ((hview b k).mp hb).2 hb') True.intro
    rw [hview, h.view, if_pos rfl]
    by_cases hb : b ∈ req.bytes
    · rw [heldAfter_granted hb, hreq]
      exact ⟨fun hk => absurd hb hk.1, fun hk => absurd hk.2.symm hk.1⟩
    · rw [heldAfter_granted_out hb]
      exact ⟨fun hk => hk.2, fun hk => ⟨hb, hk⟩⟩
  · rw [if_neg hret]
    exact h.refused hwf hothers hapart hview True.intro

theorem remove_ends (h : Sound s) (hs : fcntlRemoveLocks s t = .next s') : Sound s' := by
  obtain ⟨s₁, hs₁, hwf, hothers, hnone⟩ := removeLoop_ends (t := t) h.wf h.wf.nodup
    (fun _ hfl => hfl) fun fl hfl hout => absurd hfl hout
  unfold fcntlRemoveLocks at hs
  rw [hs₁, Outcome.bind_next] at hs
  cases hs
  have hempty : ∀ i b k, ¬ fam s₁ t none i b k := fun i b k hi => by
    cases i with
    | none => exact nomatch hi.choose_spec.1
    | some fl => exact hnone fl hi.1 hi.2.1
  have hsound := h.of_call (e := .removed t) hwf hothers
    (fun i j b k k' hi _ => absurd hi (hempty i b k))
    (fun b k => ⟨fun ⟨i, hi⟩ => absurd hi (hempty i b k), fun hk => ?_⟩)
    (fun u b hu => if_neg fun he => hu he.symm)
    (fun u b k k' _ ⟨i, hi⟩ _ => absurd hi (hempty i b k))
    ((hothers.pc t).wants (h.wants t))
  · unfold State.setPc at hsound
    rwa [Function.update_eq_self] at hsound
  · exact absurd ((if_pos rfl : heldAfter t b (.removed t :: s.log) = .unlck).symm.trans hk.2).symm
      hk.1

theorem fam_of_notMem {e : FileLock} (hfl : fl ∉ s.flock) :
    fam (s.setEntry fl e) t none = fam s t none := by
  funext i
  by_cases hi : i = some fl
  · subst hi
    funext b k
    exact propext ⟨fun h => absurd h.1 hfl, fun h => absurd h.1 hfl⟩
  · exact fam_setEntry_ne hi

theorem step_ends {op : Op} (h : Sound s) (hs : step s op = .next s') :
    StepEnds s' (Through s op) := by
  cases op with
  | setlk t setlkw filp l =>
      unfold step at hs
      dsimp only at hs
      split at hs
      case isFalse => cases hs
      case isTrue hpc =>
        unfold fcntlSetlk at hs
        unfold Through
        dsimp only
        cases hargs : checkArgs filp l with
        | error errno =>
            rw [hargs] at hs
            cases hs
            have hsound := h.refused (t := t) (e := -errno) h.wf Others.refl
              (h.apart t) (fun _ _ => Iff.rfl) (h.wants t)
            unfold State.setPc at hsound
            rw [Function.update_eq_self] at hsound
            exact Or.inl ⟨hsound, True.intro⟩
        | ok req =>
            rw [hargs] at hs
            dsimp only at hs
            split at hs
            case isTrue htype =>
              exact Or.inl ⟨unlock_ends h htype hs, fun hl => absurd htype hl.1⟩
            case isFalse htype => exact scan_ends h htype hs
  | again t =>
      unfold step at hs
      unfold Through
      dsimp only at hs ⊢
      cases hpc : s.pc t with
      | running =>
          rw [hpc] at hs
          cases hs
      | asleep fl req =>
          rw [hpc] at hs
          cases hs
      | woken req =>
          rw [hpc] at hs
          have hwants := h.wants t
          rw [hpc] at hwants
          exact scan_ends h hwants hs
  | signal t =>
      refine Or.inl ⟨?_, True.intro⟩
      unfold step at hs
      dsimp only at hs
      cases hpc : s.pc t with
      | running =>
          rw [hpc] at hs
          cases hs
      | asleep fl req =>
          rw [hpc] at hs
          cases hs
          have hwants := h.wants t
          rw [hpc] at hwants
          exact h.of_same (h.wf.setWait fl _).setPc (fun u => fam_setWait s u fl _) rfl
            (wants_update h.wants hwants)
      | woken req =>
          rw [hpc] at hs
          cases hs
  | close t =>
      refine Or.inl ⟨?_, True.intro⟩
      unfold step at hs
      dsimp only at hs
      split at hs
      case isTrue hpc => exact remove_ends h hs
      case isFalse hpc => cases hs
  | otherAlloc e t =>
      refine Or.inl ⟨?_, True.intro⟩
      unfold step at hs
      dsimp only at hs
      cases hfree : s.freeList with
      | nil =>
          rw [hfree] at hs
          cases hs
      | cons new free =>
          rw [hfree] at hs
          cases hs
          exact h.of_same (h.wf.otherAlloc _ hfree) (fun u => fam_of_notMem
            (h.wf.notMem_flock (hfree ▸ List.mem_cons_self))) rfl h.wants
  | otherFree fl =>
      refine Or.inl ⟨?_, True.intro⟩
      unfold step at hs
      dsimp only at hs
      split at hs
      case isTrue hfl =>
        cases hs
        exact h.of_same (h.wf.otherFree hfl) (fun u => fam_of_notMem
          (h.wf.notMem_of_elsewhere hfl).1) rfl h.wants
      case isFalse hfl => cases hs

end Sound

/-! ### Runs -/

theorem init_sound : Sound init := by
  have hempty : ∀ t i b k, ¬ fam init t none i b k := fun t i b k hi => by
    cases i with
    | none => exact nomatch hi.choose_spec.1
    | some fl => exact absurd hi.1 List.not_mem_nil
  exact ⟨init_wf, fun t i j b k k' hi _ => absurd hi (hempty t i b k),
    fun t b k => ⟨fun ⟨i, hi⟩ => absurd hi (hempty t i b k), fun hk => absurd hk.2.symm hk.1⟩,
    fun t u b k k' _ ⟨i, hi⟩ _ => absurd hi (hempty t i b k), fun _ => True.intro⟩

/-- **Record locks are a byte map**, in every state of a run, exactly when no call of the
run makes `lock_it` stop before it is through. -/
theorem byteMap_iff {ops : List Op} {s' : State} (hrun : run step init ops = .next s') :
    (∀ pre, pre <+: ops → ∀ s, run step init pre = .next s → ByteMap s) ↔
      RunOk step Through init ops := by
  refine RunOk.iff_prefixes_of (fun _ => Sound.byteMap) (fun s op s' h hs => ?_) init_sound hrun
  rcases step_ends h hs with ⟨hsound, hok⟩ | ⟨-, hmap, hok⟩
  · exact ⟨fun _ => hsound, fun _ => hok⟩
  · exact ⟨fun h => absurd h hok, fun h => absurd h hmap⟩

/-! ### Concrete runs -/

instance decidableSkips (table : Slot → FileLock) (c : FileLock) :
    (rest : List Slot) → Decidable (Skips table c rest)
  | [] => isFalse id
  | _ :: rest =>
      have := decidableSkips table c rest
      inferInstanceAs (Decidable (_ ∨ _))

instance (s : State) (t : Task) (req : Request) : Decidable (NoSkip s t req) :=
  inferInstanceAs (Decidable (_ → _))

instance (s : State) (op : Op) : Decidable (Through s op) :=
  match op with
  | .setlk t _ filp l =>
      match h : checkArgs filp l with
      | .ok req => decidable_of_iff (NoSkip s t req) (by simp only [Through, h])
      | .error _ => isTrue (by simp only [Through, h])
  | .again t =>
      match h : s.pc t with
      | .woken req => decidable_of_iff (NoSkip s t req) (by simp only [Through, h])
      | .asleep _ _ => isTrue (by simp only [Through, h])
      | .running => isTrue (by simp only [Through, h])
  | .signal _ => isTrue True.intro
  | .close _ => isTrue True.intro
  | .otherAlloc _ _ => isTrue True.intro
  | .otherFree _ => isTrue True.intro

/-- Task 1 locks ten bytes for reading and unlocks four of them, task 2 waits for one that is left,
task 3 gets one of the others, and task 1 is refused it back and closes the file. -/
def waitRun : List Op :=
  [.setlk 1 false (some rwFile) ⟨0, 0, 0, 10⟩, .setlk 1 false (some rwFile) ⟨2, 0, 3, 4⟩,
    .setlk 2 true (some rwFile) ⟨1, 0, 8, 1⟩, .setlk 3 false (some rwFile) ⟨1, 0, 3, 1⟩,
    .setlk 1 false (some rwFile) ⟨1, 0, 3, 0⟩, .close 1, .again 2]

theorem waitRun_eq : run step init waitRun = .next ((run step init waitRun).get init) :=
  Outcome.eq_next (by decide) init

theorem byteMap_iff_waitRun :
    (∀ pre, pre <+: waitRun → ∀ s, run step init pre = .next s → ByteMap s) ↔
      RunOk step Through init waitRun :=
  byteMap_iff waitRun_eq

/-- Two read locks on a byte each, and then a write lock over both of them. -/
def replaceRun : List Op :=
  [.setlk 1 false (some rwFile) ⟨0, 0, 0, 1⟩, .setlk 1 false (some rwFile) ⟨0, 0, 2, 1⟩,
    .setlk 1 false (some rwFile) ⟨1, 0, 0, 3⟩]

theorem not_byteMap : ∃ s, run step init replaceRun = .next s ∧ ¬ ByteMap s := by
  refine ⟨(run step init replaceRun).get init, Outcome.eq_next (by decide) init,
    fun h => ?_⟩
  have hover := h.single ⟨0, by decide⟩ (by decide) ⟨2, by decide⟩ (by decide +kernel)
    (by decide) (by decide)
  revert hover
  decide

end LinuxKernel.V098.Fs.Locks
