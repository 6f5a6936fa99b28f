import LinuxKernel.Lib.System

/-!
# LinuxKernel.V011.SetIds

The **ids of a task**: `sys_setuid`, `sys_setreuid`, `sys_setgid` and
`sys_setregid` of `kernel/sys.c`.

- An id is an `unsigned short`; the arguments are `int`s, and one that is not
  positive leaves its id as it is.
- `suser()` is asked each time, of the ids as they are then.
- `sys_setreuid` takes the new `uid` back when it refuses the new `euid`.
-/

namespace LinuxKernel.V011.SetIds

def EPERM : Int := 1

/-- The ids in `struct task_struct`. -/
structure Ids where
  uid : BitVec 16
  euid : BitVec 16
  suid : BitVec 16
  gid : BitVec 16
  egid : BitVec 16
  sgid : BitVec 16
  deriving DecidableEq

/-- An id where an `int` is wanted. -/
def int (id : BitVec 16) : BitVec 32 := id.setWidth 32

/-- An `int` where an id is stored. -/
def short (n : BitVec 32) : BitVec 16 := n.setWidth 16

/-- `n > 0`. -/
def positive (n : BitVec 32) : Bool := (0#32).slt n

def suser (s : Ids) : Bool := s.euid = 0

/-- The second half of `sys_setregid`. -/
def setEgid (s : Ids) (egid : BitVec 32) : Ids × Int :=
  if positive egid then
    if int s.gid = egid ∨ int s.egid = egid ∨ int s.sgid = egid ∨ suser s then
      ({ s with egid := short egid }, 0)
    else (s, -EPERM)
  else (s, 0)

def sysSetregid (s : Ids) (rgid egid : BitVec 32) : Ids × Int :=
  if positive rgid then
    if int s.gid = rgid ∨ suser s then setEgid { s with gid := short rgid } egid
    else (s, -EPERM)
  else setEgid s egid

def sysSetgid (s : Ids) (gid : BitVec 32) : Ids × Int := sysSetregid s gid gid

/-- The second half of `sys_setreuid`. -/
def setEuid (s : Ids) (oldRuid euid : BitVec 32) : Ids × Int :=
  if positive euid then
    if oldRuid = euid ∨ int s.euid = euid ∨ suser s then ({ s with euid := short euid }, 0)
    else ({ s with uid := short oldRuid }, -EPERM)
  else (s, 0)

def sysSetreuid (s : Ids) (ruid euid : BitVec 32) : Ids × Int :=
  let oldRuid := int s.uid
  if positive ruid then
    if int s.euid = ruid ∨ oldRuid = ruid ∨ suser s then
      setEuid { s with uid := short ruid } oldRuid euid
    else (s, -EPERM)
  else setEuid s oldRuid euid

def sysSetuid (s : Ids) (uid : BitVec 32) : Ids × Int := sysSetreuid s uid uid

inductive Call
  | setuid (uid : BitVec 32)
  | setreuid (ruid euid : BitVec 32)
  | setgid (gid : BitVec 32)
  | setregid (rgid egid : BitVec 32)

/-- The ids after a call, and what it returns. -/
def call (s : Ids) : Call → Ids × Int
  | .setuid uid => sysSetuid s uid
  | .setreuid ruid euid => sysSetreuid s ruid euid
  | .setgid gid => sysSetgid s gid
  | .setregid rgid egid => sysSetregid s rgid egid

def step (s : Ids) (c : Call) : Outcome Ids := .next (call s c).1

/-! ### What a task may have -/

/-- The ids of `s'` are some of those of `s`. -/
structure Within (s s' : Ids) : Prop where
  uid : s'.uid = s.uid ∨ s'.uid = s.euid
  euid : s'.euid = s.uid ∨ s'.euid = s.euid
  gid : s'.gid = s.gid ∨ s'.gid = s.egid ∨ s'.gid = s.sgid
  egid : s'.egid = s.gid ∨ s'.egid = s.egid ∨ s'.egid = s.sgid
  sgid : s'.sgid = s.sgid

theorem Within.refl (s : Ids) : Within s s :=
  ⟨.inl rfl, .inr rfl, .inl rfl, .inr (.inl rfl), rfl⟩

theorem Within.trans {s s' s'' : Ids} (h : Within s s') (h' : Within s' s'') : Within s s'' where
  uid := h'.uid.elim (fun he => he ▸ h.uid) fun he => he ▸ h.euid
  euid := h'.euid.elim (fun he => he ▸ h.uid) fun he => he ▸ h.euid
  gid := by
    rcases h'.gid with he | he | he
    · exact he ▸ h.gid
    · exact he ▸ h.egid
    · exact Or.inr (Or.inr (he.trans h.sgid))
  egid := by
    rcases h'.egid with he | he | he
    · exact he ▸ h.gid
    · exact he ▸ h.egid
    · exact Or.inr (Or.inr (he.trans h.sgid))
  sgid := h'.sgid.trans h.sgid

/-- What a call of an unprivileged task does. -/
structure Plain (s : Ids) (r : Ids × Int) : Prop where
  within : Within s r.1
  plain : r.1.euid ≠ 0
  refused : r.2 = -EPERM → r.1 = s

/-! ### The calls -/

theorem zero_ne_eperm : (0 : Int) ≠ -EPERM := by decide

@[simp] theorem short_int (id : BitVec 16) : short (int id) = id :=
  BitVec.setWidth_setWidth_of_le id (by decide)

/-- An id that was compared is stored without loss. -/
theorem eq_short {id : BitVec 16} {n : BitVec 32} (h : int id = n) : short n = id := by
  rw [← h, short_int]

theorem short_ne_zero {id : BitVec 16} {n : BitVec 32} (h : int id = n) (hn : positive n = true) :
    id ≠ 0 := by
  rintro rfl
  subst h
  exact absurd hn (by decide)

theorem suser_eq_false {s : Ids} (h : s.euid ≠ 0) : suser s = false := decide_eq_false h

variable {s : Ids}

theorem setEgid_plain (h : s.euid ≠ 0) (egid : BitVec 32) : Plain s (setEgid s egid) := by
  have hsame : Plain s (s, -EPERM) := ⟨.refl s, h, fun _ => rfl⟩
  unfold setEgid
  split
  case isFalse => exact ⟨.refl s, h, fun _ => rfl⟩
  split
  case isFalse => exact hsame
  case isTrue hid =>
    rw [suser_eq_false h] at hid
    have hegid : short egid = s.gid ∨ short egid = s.egid ∨ short egid = s.sgid := by
      rcases hid with he | he | he | he
      · exact Or.inl (eq_short he)
      · exact Or.inr (Or.inl (eq_short he))
      · exact Or.inr (Or.inr (eq_short he))
      · cases he
    exact ⟨⟨.inl rfl, .inr rfl, .inl rfl, hegid, rfl⟩, h, fun hr => absurd hr zero_ne_eperm⟩

/-- The first half stores a `gid` only over itself. -/
theorem sysSetregid_plain (h : s.euid ≠ 0) (rgid egid : BitVec 32) :
    Plain s (sysSetregid s rgid egid) := by
  unfold sysSetregid
  split
  case isFalse => exact setEgid_plain h egid
  split
  case isFalse => exact ⟨.refl s, h, fun _ => rfl⟩
  case isTrue hid =>
    rw [suser_eq_false h] at hid
    have hgid : int s.gid = rgid := hid.resolve_right Bool.false_ne_true
    rw [eq_short hgid]
    exact setEgid_plain h egid

/-- The second half, after the first has stored one of the two ids. -/
theorem setEuid_plain (h : s.euid ≠ 0) {uid : BitVec 16} (huid : uid = s.uid ∨ uid = s.euid)
    (euid : BitVec 32) : Plain s (setEuid { s with uid := uid } (int s.uid) euid) := by
  unfold setEuid
  split
  case isFalse => exact ⟨⟨huid, .inr rfl, .inl rfl, .inr (.inl rfl), rfl⟩, h,
    fun hr => absurd hr zero_ne_eperm⟩
  case isTrue hpos =>
    split
    case isFalse =>
      dsimp only
      rw [short_int]
      exact ⟨.refl s, h, fun _ => rfl⟩
    case isTrue hid =>
      change int s.uid = euid ∨ int s.euid = euid ∨ suser s = true at hid
      rw [suser_eq_false h] at hid
      have heuid : short euid = s.uid ∨ short euid = s.euid := by
        rcases hid with he | he | he
        · exact Or.inl (eq_short he)
        · exact Or.inr (eq_short he)
        · cases he
      have hne : short euid ≠ 0 := by
        rcases hid with he | he | he
        · exact eq_short he ▸ short_ne_zero he hpos
        · exact eq_short he ▸ short_ne_zero he hpos
        · cases he
      exact ⟨⟨huid, heuid, .inl rfl, .inr (.inl rfl), rfl⟩, hne, fun hr => absurd hr zero_ne_eperm⟩

theorem sysSetreuid_plain (h : s.euid ≠ 0) (ruid euid : BitVec 32) :
    Plain s (sysSetreuid s ruid euid) := by
  unfold sysSetreuid
  dsimp only
  split
  case isFalse => exact setEuid_plain h (.inl rfl) euid
  split
  case isFalse => exact ⟨.refl s, h, fun _ => rfl⟩
  case isTrue hid =>
    rw [suser_eq_false h] at hid
    refine setEuid_plain h ?_ euid
    rcases hid with he | he | he
    · exact Or.inr (eq_short he)
    · exact Or.inl (eq_short he)
    · cases he

theorem call_plain (h : s.euid ≠ 0) (c : Call) : Plain s (call s c) := by
  cases c with
  | setuid uid => exact sysSetreuid_plain h uid uid
  | setreuid ruid euid => exact sysSetreuid_plain h ruid euid
  | setgid gid => exact sysSetregid_plain h gid gid
  | setregid rgid egid => exact sysSetregid_plain h rgid egid

/-! ### Runs -/

/-- **No ids are gained.** Whatever an unprivileged task calls, in any order, its ids are some of
those it started with, and a call that is refused changes none. -/
theorem ids_within {s₀ : Ids} (h₀ : s₀.euid ≠ 0) (hr : Reaches step (fun _ _ => True) s₀ s) :
    Within s₀ s ∧ ∀ c, (call s c).2 = -EPERM → (call s c).1 = s := by
  have hinv : Within s₀ s ∧ s.euid ≠ 0 := by
    refine hr.invariant (P := fun t => Within s₀ t ∧ t.euid ≠ 0) ⟨.refl s₀, h₀⟩
      fun t c t' ht _ hs => ?_
    obtain rfl := Outcome.next.inj hs
    have hplain := call_plain ht.2 c
    exact ⟨ht.1.trans hplain.within, hplain.plain⟩
  exact ⟨hinv.1, fun c => (call_plain hinv.2 c).refused⟩

/-- The ids of a set-uid program. -/
def program : Ids := ⟨100, 200, 0, 10, 20, 20⟩

/-- It exchanges its user ids. -/
theorem ids_within_swapped :
    Within program (call program (.setreuid 200 100)).1 ∧
      ∀ c, (call (call program (.setreuid 200 100)).1 c).2 = -EPERM →
        (call (call program (.setreuid 200 100)).1 c).1 = (call program (.setreuid 200 100)).1 :=
  ids_within (by decide) (Reaches.refl.tail True.intro rfl)

end LinuxKernel.V011.SetIds
