import LinuxKernel.Lib.Overlay
import LinuxKernel.V098.Fs.LockTurn

/-!
# LinuxKernel.V098.Fs.LockWalk

What the three **loops over a lock list** do to the bytes each owner has.

- `fam` is the family of an owner's pieces. `lock_it` lays a new piece over it, and
  the caller of the source is the piece that is being laid (`Walk`).
- `unlock_it` lays the request itself over the family, as a piece of type `F_UNLCK` that
  is not in the table, and takes it off again (`Unwalk`).

The one thing that goes wrong is in `lock_it`. Where the new lock covers an old one
of the other type it returns at once, and entries behind that one in the list keep
bytes of the new lock (`Skips`).
-/

namespace LinuxKernel.V098.Fs.Locks

open Overlay

/-! ### The bytes of an entry -/

/-- The entry gives byte `b` to `t`, as `k`. -/
def FileLock.Has (e : FileLock) (t : Task) (b : Int) (k : LockType) : Prop :=
  e.flOwner = some t ∧ e.flStart ≤ b ∧ b ≤ e.flEnd ∧ e.flType = k

/-! ### The family of an owner -/

/-- The bytes of `t`, entry by entry. `none` stands for a request that is not in the table. -/
def fam (s : State) (t : Task) (request : Option FileLock) :
    Option Slot → Int → LockType → Prop
  | some fl, b, k => fl ∈ s.flock ∧ (s.table fl).Has t b k
  | none, b, k => ∃ e, request = some e ∧ e.Has t b k

section Family

variable {s s' : State} {fl fl' new : Slot} {t u : Task} {e : FileLock} {q : Option FileLock}
  {b : Int} {k : LockType}

theorem view_fam : View (fam s t none) b k ↔ ∃ fl ∈ s.flock, (s.table fl).Has t b k := by
  constructor
  · rintro ⟨i, hi⟩
    cases i with
    | none => cases hi.choose_spec.1
    | some fl => exact ⟨fl, hi⟩
  · rintro ⟨fl, hfl⟩
    exact ⟨some fl, hfl⟩

theorem fam_setEntry_self (h : fl ∈ s.flock) :
    fam (s.setEntry fl e) t q (some fl) b k ↔ e.Has t b k := by
  change _ ∧ ((s.setEntry fl e).table fl).Has t b k ↔ _
  rw [setEntry_self]
  exact and_iff_right h

theorem fam_setEntry_ne {i : Option Slot} (h : i ≠ some fl) :
    fam (s.setEntry fl e) t q i = fam s t q i := by
  cases i with
  | none => rfl
  | some f =>
      funext b k
      change (_ ∧ ((s.setEntry fl e).table f).Has t b k) = _
      rw [setEntry_of_ne fun he => h (congrArg some he)]
      rfl

theorem fam_freed_self (h : s.flock.Nodup) : ¬ fam (s.freed fl) t q (some fl) b k := fun hf =>
  h.not_mem_erase hf.1

theorem fam_freed_ne {i : Option Slot} (h : i ≠ some fl) :
    fam (s.freed fl) t q i = fam s t q i := by
  cases i with
  | none => rfl
  | some f =>
      have hne : f ≠ fl := fun he => h (congrArg some he)
      funext b k
      change (f ∈ s.flock.erase fl ∧ ((s.freed fl).table f).Has t b k) = _
      rw [freed_of_ne hne, List.mem_erase_of_ne hne]
      rfl

theorem fam_alloced_self :
    fam (s.alloced new t e) u q (some new) b k ↔
      FileLock.Has { e with flOwner := some t, flWait := [] } u b k := by
  change new ∈ new :: s.flock ∧ ((s.alloced new t e).table new).Has u b k ↔ _
  rw [alloced_self]
  exact and_iff_right List.mem_cons_self

theorem fam_alloced_ne {i : Option Slot} (h : i ≠ some new) :
    fam (s.alloced new t e) u q i = fam s u q i := by
  cases i with
  | none => rfl
  | some f =>
      have hne : f ≠ new := fun he => h (congrArg some he)
      funext b k
      change (f ∈ new :: s.flock ∧ ((s.alloced new t e).table f).Has u b k) = _
      rw [alloced_of_ne hne, List.mem_cons, or_iff_right hne]
      rfl

end Family

/-! ### What a call of `t` leaves alone -/

/-! ### What a call of `t` leaves alone -/

/-- The other owners have what they had. -/
structure Others (t : Task) (s s' : State) : Prop where
  log : s'.log = s.log
  pc : ∀ u, Moves (s.pc u) (s'.pc u)
  fam : ∀ u, u ≠ t → Locks.fam s' u none = Locks.fam s u none

section Others

variable {s s' s'' : State} {fl new : Slot} {t : Task} {e : FileLock}

theorem Others.refl : Others t s s := ⟨rfl, fun _ => Or.inl rfl, fun _ _ => rfl⟩

theorem Others.trans (h : Others t s s') (h' : Others t s' s'') : Others t s s'' :=
  ⟨h'.log.trans h.log, fun u => (h.pc u).trans (h'.pc u),
    fun u hu => (h'.fam u hu).trans (h.fam u hu)⟩

theorem not_has_of_owner {u : Task} {b : Int} {k : LockType} (howner : e.flOwner = some t)
    (hu : u ≠ t) : ¬ e.Has u b k := fun h =>
  hu (Option.some.inj (h.1.symm.trans howner))

theorem Others.setEntry (hfl : fl ∈ s.flock) (hold : (s.table fl).flOwner = some t)
    (hnew : e.flOwner = some t) : Others t s (s.setEntry fl e) := by
  refine ⟨rfl, fun _ => Or.inl rfl, fun u hu => funext fun i => ?_⟩
  by_cases hi : i = some fl
  · subst hi
    funext b k
    refine propext ⟨fun h => ?_, fun h => ?_⟩
    · exact absurd ((fam_setEntry_self hfl).mp h) (not_has_of_owner hnew hu)
    · exact absurd h.2 (not_has_of_owner hold hu)
  · exact fam_setEntry_ne hi

theorem Others.freed (hwf : Wf s) (hold : (s.table fl).flOwner = some t) :
    Others t s (s.freed fl) := by
  refine ⟨rfl, freed_pc s fl, fun u hu => funext fun i => ?_⟩
  by_cases hi : i = some fl
  · subst hi
    funext b k
    refine propext ⟨fun h => ?_, fun h => ?_⟩
    · exact absurd h (fam_freed_self hwf.nodup)
    · exact absurd h.2 (not_has_of_owner hold hu)
  · exact fam_freed_ne hi

theorem Others.alloced (hwf : Wf s) (hfree : new ∈ s.freeList) :
    Others t s (s.alloced new t e) := by
  refine ⟨rfl, fun _ => Or.inl rfl, fun u hu => funext fun i => ?_⟩
  by_cases hi : i = some new
  · subst hi
    funext b k
    refine propext ⟨fun h => ?_, fun h => ?_⟩
    · exact absurd (fam_alloced_self.mp h) (not_has_of_owner rfl hu)
    · exact absurd h.1 (hwf.notMem_flock hfree)
  · exact fam_alloced_ne hi

end Others

def Request.bytes (req : Request) : Set Int := {b | req.flStart ≤ b ∧ b ≤ req.flEnd}

/-- Behind an entry of the other type that the request `c` covers there is one more entry that
overlaps the request, all of the same owner. -/
def Skips (table : Slot → FileLock) (c : FileLock) : List Slot → Prop
  | [] => False
  | fl :: rest =>
      ((table fl).flOwner = c.flOwner ∧ (table fl).flType ≠ c.flType ∧
        c.flStart ≤ (table fl).flStart ∧ (table fl).flEnd ≤ c.flEnd ∧
        ∃ g ∈ rest, (table g).flOwner = c.flOwner ∧ overlap c (table g) = true) ∨
      Skips table c rest

theorem skips_congr {table table' : Slot → FileLock} {c : FileLock} {rest : List Slot}
    (hsame : ∀ g ∈ rest, table' g = table g) : Skips table c rest ↔ Skips table' c rest := by
  induction rest with
  | nil => exact Iff.rfl
  | cons g rest ih =>
      have hg := hsame g List.mem_cons_self
      have hrest : ∀ g' ∈ rest, table' g' = table g' := fun g' hg' =>
        hsame g' (List.mem_cons_of_mem g hg')
      have hex : (∃ g' ∈ rest, (table g').flOwner = c.flOwner ∧ overlap c (table g') = true) ↔
          ∃ g' ∈ rest, (table' g').flOwner = c.flOwner ∧ overlap c (table' g') = true :=
        exists_congr fun g' => and_congr_right fun hg' => by rw [hrest g' hg']
      simp only [Skips, hg, hex, ih hrest]

/-- With the entry at the front not one of that kind, it is in the ones behind it. -/
theorem skips_cons {table table' : Slot → FileLock} {c : FileLock} {fl : Slot} {rest : List Slot}
    (h : ¬ ((table fl).flOwner = c.flOwner ∧ (table fl).flType ≠ c.flType ∧
      c.flStart ≤ (table fl).flStart ∧ (table fl).flEnd ≤ c.flEnd))
    (hsame : ∀ g ∈ rest, table' g = table g) :
    Skips table c (fl :: rest) ↔ Skips table' c rest := by
  rw [← skips_congr hsame]
  exact or_iff_right fun hhead => h ⟨hhead.1, hhead.2.1, hhead.2.2.1, hhead.2.2.2.1⟩

theorem Skips.exists_overlap {table : Slot → FileLock} {c : FileLock} {rest : List Slot}
    (h : Skips table c rest) (hc : c.flStart ≤ c.flEnd)
    (hr : ∀ fl ∈ rest, (table fl).flStart ≤ (table fl).flEnd) :
    ∃ g ∈ rest, (table g).flOwner = c.flOwner ∧ overlap c (table g) = true := by
  induction rest with
  | nil => exact absurd h id
  | cons fl rest ih =>
      rcases h with ⟨howner, -, hlo, hhi, -⟩ | h
      · refine ⟨fl, List.mem_cons_self, howner, ?_⟩
        have := hr fl List.mem_cons_self
        rw [overlap_iff hc this]
        omega
      · obtain ⟨g, hg, hrest⟩ := ih h fun fl' hfl' => hr fl' (List.mem_cons_of_mem fl hfl')
        exact ⟨g, List.mem_cons_of_mem fl hg, hrest⟩

/-! ### The loop of `lock_it` -/

/-- The entries that are still to come. -/
def ahead (rest : List Slot) : Set (Option Slot) := {i | ∃ fl ∈ rest, i = some fl}

/-- `lock_it` with `rest` to go: `caller` is on its way to be the lock asked for. -/
structure Walk (F₀ : Option Slot → Int → LockType → Prop) (t : Task) (req : Request) (s : State)
    (caller : Slot) (rest : List Slot) : Prop where
  place : Place t req.flType s caller rest
  laying : Laying F₀ (fam s t none) req.bytes req.flType (some caller) (ahead rest)

section Walk

variable {F₀ : Option Slot → Int → LockType → Prop} {s s' : State} {t : Task} {req : Request}
  {caller caller' fl new : Slot} {rest free : List Slot} {e : FileLock} {b : Int} {k : LockType}
  {p : State × Int}

theorem Place.caller_iff (h : Place t req.flType s caller rest) :
    fam s t none (some caller) b k ↔
      (s.table caller).flStart ≤ b ∧ b ≤ (s.table caller).flEnd ∧ k = req.flType := by
  constructor
  · rintro ⟨-, -, hlo, hhi, hk⟩
    exact ⟨hlo, hhi, hk ▸ h.type⟩
  · rintro ⟨hlo, hhi, rfl⟩
    exact ⟨h.mem, h.owner, hlo, hhi, h.type⟩

/-- The new lock has all the bytes asked for. -/
theorem Walk.covers (h : Walk F₀ t req s caller rest) :
    (s.table caller).flStart ≤ req.flStart ∧ req.flEnd ≤ (s.table caller).flEnd :=
  ⟨(h.place.caller_iff.mp (h.laying.covers _ ⟨Int.le_refl _, req.range.2.1⟩)).1,
    (h.place.caller_iff.mp (h.laying.covers _ ⟨req.range.2.1, Int.le_refl _⟩)).2.1⟩

theorem own_iff {q : Option FileLock} (hmem : fl ∈ s.flock)
    (howner : (s.table fl).flOwner = some t) :
    fam s t q (some fl) b k ↔
      (s.table fl).flStart ≤ b ∧ b ≤ (s.table fl).flEnd ∧ (s.table fl).flType = k :=
  ⟨fun h => h.2.2, fun h => ⟨hmem, howner, h⟩⟩

theorem ahead_cons {i : Option Slot} (hi : i ∈ ahead (fl :: rest)) :
    i = some fl ∨ i ∈ ahead rest := by
  obtain ⟨f, hf, rfl⟩ := hi
  rcases List.mem_cons.mp hf with rfl | hf
  · exact Or.inl rfl
  · exact Or.inr ⟨f, hf, rfl⟩

/-- An entry of the same type takes over from the caller. -/
theorem Walk.grow (h : Walk F₀ t req s caller (fl :: rest))
    (hplace : Place t req.flType ((s.grown caller fl).freed caller) fl rest)
    (howner : (s.table fl).flOwner = some t) (htype : (s.table fl).flType = req.flType)
    (hleft : (s.table caller).flStart ≤ (s.table fl).flEnd + 1)
    (hright : (s.table fl).flStart ≤ (s.table caller).flEnd + 1) :
    Walk F₀ t req ((s.grown caller fl).freed caller) fl rest := by
  have hfl := h.place.head_mem
  have hne : (some fl : Option Slot) ≠ some caller := fun he =>
    h.place.head_ne (Option.some.inj he)
  have hnd : (s.grown caller fl).flock.Nodup := h.place.wf.nodup
  refine ⟨hplace, h.laying.absorb hne (fun b k hb => ?_) (fun b k => ?_)
    (fun b k => fam_freed_self hnd) (fun j hj hjc => ?_) fun j hj _ => ahead_cons hj⟩
  · exact ((own_iff hfl howner).mp hb).2.2.symm.trans htype
  · rw [fam_freed_ne hne, State.grown, fam_setEntry_self hfl, own_iff hfl howner,
      h.place.caller_iff, htype]
    constructor
    · rintro ⟨-, hlo, hhi, hk⟩
      dsimp only at hlo hhi hk
      by_cases hin : (s.table fl).flStart ≤ b ∧ b ≤ (s.table fl).flEnd
      · exact Or.inl ⟨hin.1, hin.2, htype.symm.trans hk⟩
      · exact Or.inr ⟨by omega, by omega, hk.symm.trans htype⟩
    · rintro (⟨hlo, hhi, rfl⟩ | ⟨hlo, hhi, rfl⟩)
      · exact ⟨howner, by dsimp only; omega, by dsimp only; omega, htype⟩
      · exact ⟨howner, by dsimp only; omega, by dsimp only; omega, htype⟩
  · rw [fam_freed_ne hjc]
    exact fam_setEntry_ne hj

/-- An entry of the other type is trimmed to `e`. -/
theorem Walk.trim (h : Walk F₀ t req s caller (fl :: rest))
    (hplace : Place t req.flType (s.setEntry fl e) caller rest)
    (howner : (s.table fl).flOwner = some t) (heowner : e.flOwner = some t)
    (hetype : e.flType = (s.table fl).flType)
    (hcut : ∀ b, e.flStart ≤ b ∧ b ≤ e.flEnd ↔
      ((s.table fl).flStart ≤ b ∧ b ≤ (s.table fl).flEnd) ∧
      ¬ ((s.table caller).flStart ≤ b ∧ b ≤ (s.table caller).flEnd)) :
    Walk F₀ t req (s.setEntry fl e) caller rest := by
  have hfl := h.place.head_mem
  have hne : (some fl : Option Slot) ≠ some caller := fun he =>
    h.place.head_ne (Option.some.inj he)
  refine ⟨hplace, h.laying.cut hne (fun b k => ?_) (fun j hj => fam_setEntry_ne hj)
    fun j hj _ => ahead_cons hj⟩
  rw [fam_setEntry_self hfl, own_iff hfl howner, h.place.caller_iff]
  have := hcut b
  constructor
  · rintro ⟨-, hlo, hhi, rfl⟩
    have hin := this.mp ⟨hlo, hhi⟩
    exact ⟨⟨hin.1.1, hin.1.2, hetype.symm⟩, fun hc => hin.2 ⟨hc.1, hc.2.1⟩⟩
  · rintro ⟨⟨hlo, hhi, rfl⟩, hc⟩
    have hin := this.mpr ⟨⟨hlo, hhi⟩, fun hc' => hc ⟨hc'.1, hc'.2, rfl⟩⟩
    exact ⟨heowner, hin.1, hin.2, hetype⟩

/-- **One turn goes on laying the new lock.** -/
theorem Turn.walk (hturn : Turn t s caller fl s' caller')
    (h : Walk F₀ t req s caller (fl :: rest)) : Walk F₀ t req s' caller' rest := by
  have hplace := hturn.place h.place
  have hcov := h.covers
  obtain ⟨-, hr₁, -⟩ := h.place.wf.ranged fl h.place.head_mem
  obtain ⟨-, hc₁, -⟩ := h.place.wf.ranged caller h.place.mem
  cases hturn with
  | pass hout =>
      refine ⟨hplace, h.laying.skip fun j hj _ => ?_⟩
      rcases ahead_cons hj with rfl | hj
      · right
        intro b k hb hfam
        have hb₁ := hb.1
        have hb₂ := hb.2
        have hb₃ := hfam.2.2.1
        have hb₄ := hfam.2.2.2.1
        have := hout hfam.2.1
        omega
      · exact Or.inl hj
  | grow howner htype hleft hright =>
      exact h.grow hplace howner (htype.trans h.place.type) hleft hright
  | trimStart howner htype hlo hmid hhi =>
      exact h.trim hplace howner howner rfl fun b => by dsimp only; omega
  | trimEnd howner htype hlo hmid hhi =>
      exact h.trim hplace howner howner rfl fun b => by dsimp only; omega

theorem Turn.others (hturn : Turn t s caller fl s' caller')
    (h : Place t k s caller (fl :: rest)) : Others t s s' := by
  have hfl := h.head_mem
  have hplace := hturn.place h
  cases hturn with
  | pass _ => exact Others.refl
  | grow howner _ _ _ =>
      have hgrown : Others t s (s.grown caller caller') := Others.setEntry hfl howner howner
      obtain ⟨hr, hr₁, hr₂, hr₃⟩ := h.wf.ranged caller' hfl
      obtain ⟨hc, hc₁, hc₂, -⟩ := h.wf.ranged caller h.mem
      have hwf : Wf (s.grown caller caller') := h.wf.setEntry hfl (by rw [howner]; simp)
        ⟨by dsimp only; omega, by dsimp only; omega, by dsimp only; omega, hr₃⟩
      refine hgrown.trans (Others.freed hwf ?_)
      rw [State.grown, setEntry_of_ne h.head_ne.symm]
      exact h.owner
  | trimStart howner _ _ _ _ => exact Others.setEntry hfl howner howner
  | trimEnd howner _ _ _ _ => exact Others.setEntry hfl howner howner

/-- No turn after which the loop goes on is at an entry that the request covers and replaces. -/
theorem Turn.skips (hturn : Turn t s caller fl s' caller')
    (h : Walk F₀ t req s caller (fl :: rest)) :
    Skips s.table (req.lock t) (fl :: rest) ↔ Skips s'.table (req.lock t) rest := by
  have hcov := h.covers
  have hreq := req.range.2.1
  obtain ⟨-, hr₁, -⟩ := h.place.wf.ranged fl h.place.head_mem
  have htype := h.place.type
  refine skips_cons ?_ (hturn.table h.place)
  rintro ⟨howner, hk, hlo, hhi⟩
  have h₁ : req.flStart ≤ (s.table fl).flStart := hlo
  have h₂ : (s.table fl).flEnd ≤ req.flEnd := hhi
  cases hturn with
  | pass hout =>
      have := hout howner
      omega
  | grow _ hsame _ _ => exact hk (hsame.trans htype)
  | trimStart _ _ _ _ _ => omega
  | trimEnd _ _ _ _ _ => omega

theorem Walk.apart (h : Walk F₀ t req s caller rest) (hfl : fl ∈ s.flock) {g : Slot}
    (hg : g ∈ s.flock) (hflc : fl ≠ caller) (hgc : g ≠ caller) (hne : g ≠ fl)
    (howner : (s.table fl).flOwner = some t) (howner' : (s.table g).flOwner = some t)
    (hb : (s.table fl).flStart ≤ b ∧ b ≤ (s.table fl).flEnd) :
    ¬ ((s.table g).flStart ≤ b ∧ b ≤ (s.table g).flEnd) := fun hb' =>
  hne (Option.some.inj (h.laying.apart (some g) (some fl) b _ _ (fun he => hgc (Option.some.inj he))
    (fun he => hflc (Option.some.inj he)) ((own_iff hg howner').mpr ⟨hb'.1, hb'.2, rfl⟩)
    ((own_iff hfl howner).mpr ⟨hb.1, hb.2, rfl⟩)).1)

/-- The entries of the list that `lock_it` has not come to. -/
theorem Walk.rest_ranged (h : Walk F₀ t req s caller rest) (hfl : fl ∈ rest) :
    (s.table fl).Ranged := h.place.wf.ranged fl (h.place.mem_of_rest hfl)

/-- One entry has more than the new piece: it becomes two. -/
theorem split_laid {q : Option FileLock} {c : Option Slot} {rest : Set (Option Slot)} {lo hi : Int}
    (h : Laying F₀ (fam s t q) req.bytes req.flType c rest) (hwf : Wf s)
    (hfree : s.freeList = new :: free) (hfl : fl ∈ s.flock) (hcfl : some fl ≠ c)
    (howner : (s.table fl).flOwner = some t)
    (hc : ∀ b k, fam s t q c b k ↔ lo ≤ b ∧ b ≤ hi ∧ k = req.flType)
    (hlo : (s.table fl).flStart < lo) (hle : lo ≤ hi) (hhi : hi < (s.table fl).flEnd) :
    Wf (s.split t fl new lo hi) ∧ Others t s (s.split t fl new lo hi) ∧
      Laid F₀ (fam (s.split t fl new lo hi) t q) req.bytes req.flType := by
  have hnewfree : new ∈ s.freeList := hfree ▸ List.mem_cons_self
  have hnew : new ∉ s.flock := hwf.notMem_flock hnewfree
  have hnefl : fl ≠ new := fun he => hnew (he ▸ hfl)
  obtain ⟨hr, hr₁, hr₂, hr₃⟩ := hwf.ranged fl hfl
  have hwf₁ : Wf (s.alloced new t (s.table fl)) := hwf.alloced hfree ⟨hr, hr₁, hr₂, hr₃⟩
  have hfl₁ : fl ∈ (s.alloced new t (s.table fl)).flock := List.mem_cons_of_mem _ hfl
  have hwf₂ := hwf₁.setEntry (e := { s.table fl with flEnd := lo - 1 }) hfl₁
    (by rw [howner]; simp) ⟨hr, by dsimp only; omega, by dsimp only; omega, hr₃⟩
  have hmem' : new ∈ ((s.alloced new t (s.table fl)).setEntry fl
      { s.table fl with flEnd := lo - 1 }).flock := List.mem_cons_self
  have hothers₁ : Others t s (s.alloced new t (s.table fl)) := Others.alloced hwf hnewfree
  have hothers₂ := hothers₁.trans (Others.setEntry (e := { s.table fl with flEnd := lo - 1 }) hfl₁
    (by rw [alloced_of_ne hnefl]; exact howner) howner)
  refine ⟨hwf₂.setEntry hmem' (by simp) ⟨by dsimp only; omega, by dsimp only; omega, hr₂, hr₃⟩,
    hothers₂.trans (Others.setEntry hmem' (by rw [setEntry_of_ne hnefl.symm, alloced_self]) rfl), ?_⟩
  have hsome : (some fl : Option Slot) ≠ some new := fun he => hnefl (Option.some.inj he)
  have hF'fl : ∀ b k, fam (s.split t fl new lo hi) t q (some fl) b k ↔
      (s.table fl).flStart ≤ b ∧ b ≤ lo - 1 ∧ (s.table fl).flType = k := by
    intro b k
    unfold State.split
    rw [fam_setEntry_ne hsome, fam_setEntry_self hfl₁]
    exact ⟨fun h => h.2, fun h => ⟨howner, h⟩⟩
  have hF'new : ∀ b k, fam (s.split t fl new lo hi) t q (some new) b k ↔
      hi + 1 ≤ b ∧ b ≤ (s.table fl).flEnd ∧ (s.table fl).flType = k := by
    intro b k
    unfold State.split
    rw [fam_setEntry_self hmem']
    exact ⟨fun h => h.2, fun h => ⟨rfl, h⟩⟩
  refine h.split hcfl hsome.symm
    (fun b hb => (own_iff hfl howner).mpr ⟨?_, ?_, rfl⟩) (fun b k hb => hnew hb.1)
    (fun b k => ?_) (fun b k k' hb hb' => ?_) (fun j hj hjn => ?_)
  · have := (hc b _).mp (h.covers b hb)
    omega
  · have := (hc b _).mp (h.covers b hb)
    omega
  · rw [hF'fl, hF'new, own_iff hfl howner, hc]
    constructor
    · rintro ⟨⟨hb, hb', rfl⟩, hc⟩
      by_cases hlow : b ≤ lo - 1
      · exact Or.inl ⟨hb, hlow, rfl⟩
      · refine Or.inr ⟨?_, hb', rfl⟩
        by_contra hhigh
        exact hc ⟨by omega, by omega, rfl⟩
    · rintro (⟨hb, hb', rfl⟩ | ⟨hb, hb', rfl⟩)
      · exact ⟨⟨hb, by omega, rfl⟩, fun hc => by omega⟩
      · exact ⟨⟨by omega, hb', rfl⟩, fun hc => by omega⟩
  · have h₁ := (hF'fl b k).mp hb
    have h₂ := (hF'new b k').mp hb'
    omega
  · unfold State.split
    rw [fam_setEntry_ne hjn, fam_setEntry_ne hj, fam_alloced_ne hjn]

/-- What `lock_it` comes to, from a point of its loop on. -/
structure LockEnd (F₀ : Option Slot → Int → LockType → Prop) (t : Task) (req : Request)
    (skips : Prop) (s : State) (p : State × Int) : Prop where
  wf : Wf p.1
  others : Others t s p.1
  outcome :
    (¬ skips ∧ p.2 = 0 ∧ Laid F₀ (fam p.1 t none) req.bytes req.flType) ∨
    (¬ skips ∧ p.2 = -ENOLCK ∧ Apart (fam p.1 t none) ∧
      ∀ b k, View (fam p.1 t none) b k ↔ View F₀ b k) ∨
    (skips ∧ p.2 = 0 ∧ ¬ Apart (fam p.1 t none))

theorem LockEnd.of_step {p : State × Int} {skips skips' : Prop}
    (h : LockEnd F₀ t req skips' s' p) (hothers : Others t s s') (hskips : skips ↔ skips') :
    LockEnd F₀ t req skips s p where
  wf := h.wf
  others := hothers.trans h.others
  outcome := by
    rw [hskips]
    exact h.outcome

/-- With one entry around all that is asked for nothing is skipped. -/
theorem Walk.not_skips (h : Walk F₀ t req s caller (fl :: rest))
    (howner : (s.table fl).flOwner = some t) (hlo : (s.table fl).flStart ≤ req.flStart)
    (hhi : req.flEnd ≤ (s.table fl).flEnd)
    (hhead : (s.table fl).flType ≠ req.flType → (s.table fl).flStart < req.flStart) :
    ¬ Skips s.table (req.lock t) (fl :: rest) := by
  have hreq := req.range
  intro hs
  have hs' : Skips s.table (req.lock t) rest :=
    (skips_cons (fun hc => by
      have h₁ := hhead hc.2.1
      have h₂ : req.flStart ≤ (s.table fl).flStart := hc.2.2.1
      omega) fun _ _ => rfl).mp hs
  obtain ⟨g, hg, hgowner, hover⟩ := hs'.exists_overlap hreq.2.1 fun f hf =>
    (h.rest_ranged (List.mem_cons_of_mem fl hf)).2.1
  have hgr := h.rest_ranged (List.mem_cons_of_mem fl hg)
  rw [overlap_iff hreq.2.1 hgr.2.1] at hover
  have hov₁ : req.flStart ≤ (s.table g).flEnd := hover.1
  have hov₂ : (s.table g).flStart ≤ req.flEnd := hover.2
  have hne : g ≠ fl := fun he => h.place.head_notMem (he ▸ hg)
  have hflc : fl ≠ caller := h.place.head_ne
  have hgc : g ≠ caller := fun he => h.place.notMem (he ▸ List.mem_cons_of_mem fl hg)
  -- a byte of the request that both have
  refine h.apart (h.place.mem_of_rest List.mem_cons_self)
    (h.place.mem_of_rest (List.mem_cons_of_mem fl hg)) hflc hgc hne howner hgowner
    (b := max (s.table g).flStart req.flStart) ?_ ?_ <;> have := hgr.2.1 <;> omega

/-- The old lock is replaced, and that ends the loop. -/
theorem Walk.replace (h : Walk F₀ t req s caller (fl :: rest))
    (howner : (s.table fl).flOwner = some t) (htype : (s.table fl).flType ≠ req.flType)
    (hlo : (s.table caller).flStart ≤ (s.table fl).flStart)
    (hhi : (s.table fl).flEnd ≤ (s.table caller).flEnd) :
    LockEnd F₀ t req (Skips s.table (req.lock t) (fl :: rest)) s (s.freed fl, 0) := by
  have hfl := h.place.mem_of_rest List.mem_cons_self
  have hflc : fl ≠ caller := h.place.head_ne
  have hsome : (some fl : Option Slot) ≠ some caller := fun he => hflc (Option.some.inj he)
  have hrfl := h.place.wf.ranged fl hfl
  have hreq := req.range
  have hcov := h.covers
  refine ⟨h.place.wf.freed hfl, Others.freed h.place.wf howner, ?_⟩
  -- what the new lock has beyond the request was the owner's before, so the old one has none of it
  have hin : ∀ b, (s.table fl).flStart ≤ b → b ≤ (s.table fl).flEnd → b ∈ req.bytes :=
    fun b hb hb' => h.laying.inside (some fl) b _ req.flType hsome
      ((own_iff hfl howner).mpr ⟨hb, hb', rfl⟩) (h.place.caller_iff.mpr ⟨by omega, by omega, rfl⟩)
  have hcovered : req.flStart ≤ (s.table fl).flStart ∧ (s.table fl).flEnd ≤ req.flEnd :=
    ⟨(hin _ (Int.le_refl _) hrfl.2.1).1, (hin _ hrfl.2.1 (Int.le_refl _)).2⟩
  have hcut : Laying F₀ (fam (s.freed fl) t none) req.bytes req.flType (some caller) (ahead rest) := by
    refine h.laying.cut hsome (fun b k => ?_) (fun j hj => fam_freed_ne hj)
      fun j hj _ => ahead_cons hj
    refine ⟨fun hb => absurd hb (fam_freed_self h.place.wf.nodup), fun ⟨hb, hc⟩ => ?_⟩
    have hb' := (own_iff hfl howner).mp hb
    exact absurd (h.place.caller_iff.mpr ⟨by omega, by omega, rfl⟩) hc
  by_cases hbehind : ∃ g ∈ rest, (s.table g).flOwner = some t ∧ overlap (req.lock t) (s.table g) = true
  · right
    right
    obtain ⟨g, hg, hgowner, hover⟩ := hbehind
    refine ⟨Or.inl ⟨howner, htype, hcovered.1, hcovered.2, g, hg, hgowner, hover⟩, rfl, ?_⟩
    have hgr := h.rest_ranged (List.mem_cons_of_mem fl hg)
    rw [overlap_iff hreq.2.1 hgr.2.1] at hover
    have hov₁ : req.flStart ≤ (s.table g).flEnd := hover.1
    have hov₂ : (s.table g).flStart ≤ req.flEnd := hover.2
    have hgfl : g ≠ fl := fun he => h.place.head_notMem (he ▸ hg)
    have hgc : g ≠ caller := fun he => h.place.notMem (he ▸ List.mem_cons_of_mem fl hg)
    intro hapart
    have hgb : fam (s.freed fl) t none (some g) (max (s.table g).flStart req.flStart)
        (s.table g).flType := by
      rw [fam_freed_ne fun he => hgfl (Option.some.inj he)]
      have := hgr.2.1
      exact (own_iff (h.place.mem_of_rest (List.mem_cons_of_mem fl hg)) hgowner).mpr
        ⟨by omega, by omega, rfl⟩
    have hcb : fam (s.freed fl) t none (some caller) (max (s.table g).flStart req.flStart)
        req.flType :=
      hcut.covers _ ⟨by omega, by have := hgr.2.1; omega⟩
    exact hgc (Option.some.inj (hapart _ _ _ _ _ hgb hcb).1)
  · left
    refine ⟨?_, rfl, hcut.finish fun j hj hjc b k hb hfam => ?_⟩
    · rintro (⟨-, -, -, -, hex⟩ | hs)
      · exact hbehind hex
      · exact hbehind (hs.exists_overlap hreq.2.1 fun g hg =>
          (h.rest_ranged (List.mem_cons_of_mem fl hg)).2.1)
    · obtain ⟨g, hg, rfl⟩ := hj
      rw [fam_freed_ne fun he => ?_] at hfam
      · have hgr := h.rest_ranged (List.mem_cons_of_mem fl hg)
        refine hbehind ⟨g, hg, hfam.2.1, (overlap_iff hreq.2.1 hgr.2.1).mpr ?_⟩
        have h₁ := hfam.2.2.1
        have h₂ := hfam.2.2.2.1
        have h₃ := hb.1
        have h₄ := hb.2
        change req.flStart ≤ _ ∧ _ ≤ req.flEnd
        omega
      · exact h.place.head_notMem (Option.some.inj he ▸ hg)

/-- An entry of the same type has it all. -/
theorem Walk.inside (h : Walk F₀ t req s caller (fl :: rest))
    (howner : (s.table fl).flOwner = some t) (htype : (s.table fl).flType = req.flType)
    (hlo : (s.table fl).flStart ≤ (s.table caller).flStart)
    (hhi : (s.table caller).flEnd ≤ (s.table fl).flEnd) :
    LockEnd F₀ t req (Skips s.table (req.lock t) (fl :: rest)) s (s.freed caller, 0) := by
  have hcov := h.covers
  have hfl := h.place.head_mem
  obtain ⟨-, hc₁, -⟩ := h.place.wf.ranged caller h.place.mem
  have hturn : Turn t s caller fl ((s.grown caller fl).freed caller) fl :=
    .grow howner (htype.trans h.place.type.symm) (by omega) (by omega)
  have hw := hturn.walk h
  rw [grown_inside hlo hhi] at hw
  refine ⟨hw.place.wf, Others.freed h.place.wf h.place.owner,
    Or.inl ⟨?_, rfl, hw.laying.finish ?_⟩⟩
  · exact h.not_skips howner (by omega) (by omega) fun hne => absurd htype hne
  · rintro j ⟨g, hg, rfl⟩ hjfl b k hb hfam
    have hgc : g ≠ caller := fun he => h.place.notMem (he ▸ List.mem_cons_of_mem fl hg)
    have hgfl : g ≠ fl := fun he => h.place.head_notMem (he ▸ hg)
    rw [fam_freed_ne fun he => hgc (Option.some.inj he)] at hfam
    have h₁ := hb.1
    have h₂ := hb.2
    exact h.apart hfl hfam.1 h.place.head_ne hgc hgfl howner hfam.2.1 ⟨by omega, by omega⟩
      ⟨hfam.2.2.1, hfam.2.2.2.1⟩

/-- **The last turn.** -/
theorem Last.ends (hF : Apart F₀) (hlast : Last t s caller fl p)
    (h : Walk F₀ t req s caller (fl :: rest)) :
    LockEnd F₀ t req (Skips s.table (req.lock t) (fl :: rest)) s p := by
  have hcov := h.covers
  have hfl := h.place.head_mem
  obtain ⟨-, hc₁, -⟩ := h.place.wf.ranged caller h.place.mem
  have hne : (some fl : Option Slot) ≠ some caller := fun he =>
    h.place.head_ne (Option.some.inj he)
  have htype' := h.place.type
  cases hlast with
  | split new free hfree howner htype hlo hhi =>
      have hnot := h.not_skips howner (by omega) (by omega) fun _ => by omega
      obtain ⟨hwf, hoth, hlaid⟩ := split_laid h.laying h.place.wf hfree hfl hne howner
        (fun b k => h.place.caller_iff) hlo hc₁ hhi
      exact ⟨hwf, hoth, Or.inl ⟨hnot, rfl, hlaid⟩⟩
  | full hfree howner htype hlo hhi =>
      have hnot := h.not_skips howner (by omega) (by omega) fun _ => by omega
      refine ⟨h.place.wf.freed h.place.mem, Others.freed h.place.wf h.place.owner,
        Or.inr (Or.inl ⟨hnot, rfl, ?_⟩)⟩
      refine h.laying.abort hF (i := some fl) hne (fun he => htype (he.trans htype'.symm))
        (fun b hb => ?_) (fun b k => fam_freed_self h.place.wf.nodup) fun j hj => fam_freed_ne hj
      have := h.place.caller_iff.mp hb
      exact (own_iff hfl howner).mpr ⟨by omega, by omega, rfl⟩
  | replace howner htype hlo hhi =>
      exact h.replace howner (fun he => htype (he.trans htype'.symm)) hlo hhi
  | inside howner htype hlo hhi => exact h.inside howner (htype.trans htype') hlo hhi

/-- **The loop of `lock_it`.** -/
theorem lockLoop_ends (hF : Apart F₀) (h : Walk F₀ t req s caller rest) :
    ∃ p, lockLoop s t caller rest = .next p ∧
      LockEnd F₀ t req (Skips s.table (req.lock t) rest) s p := by
  induction rest generalizing s caller with
  | nil =>
      refine ⟨(s, 0), rfl, h.place.wf, Others.refl, Or.inl ⟨id, rfl, h.laying.finish ?_⟩⟩
      rintro j ⟨g, hg, -⟩
      exact absurd hg List.not_mem_nil
  | cons fl rest ih =>
      rcases lockLoop_turns h.place with ⟨s', caller', hturn, heq⟩ | ⟨p, hlast, heq⟩
      · obtain ⟨p, hp, hend⟩ := ih (hturn.walk h)
        exact ⟨p, heq.trans hp, hend.of_step (hturn.others h.place) (hturn.skips h)⟩
      · exact ⟨p, heq, hlast.ends hF h⟩

/-- **`lock_it`**, where there is a free entry. -/
theorem lockIt_ends (hwf : Wf s) (hF : Apart (fam s t none)) (hfree : s.freeList = new :: free)
    (htype : req.flType ≠ .unlck) :
    ∃ p, lockIt s t req = .next p ∧
      LockEnd (fam s t none) t req (Skips s.table (req.lock t) s.flock) s p := by
  have hmem : new ∈ s.freeList := hfree ▸ List.mem_cons_self
  have hnew := hwf.notMem_flock hmem
  have hranged : (req.lock t).Ranged := ⟨req.range.1, req.range.2.1, req.range.2.2, htype⟩
  have hself : ∀ b k, fam (s.alloced new t (req.lock t)) t none (some new) b k ↔
      b ∈ req.bytes ∧ k = req.flType := fun b k => by
    rw [fam_alloced_self]
    exact ⟨fun h => ⟨⟨h.2.1, h.2.2.1⟩, h.2.2.2.symm⟩, fun h => ⟨rfl, h.1.1, h.1.2, h.2.symm⟩⟩
  have hlaying := Laying.start (c := some new) hF (fun b k hb => hnew hb.1) hself
    (fun i hi => fam_alloced_ne hi) fun i _ => Set.mem_univ i
  have hw : Walk (fam s t none) t req (s.alloced new t (req.lock t)) new s.flock := {
    place := ⟨hwf.alloced hfree hranged, ⟨[new], rfl, List.mem_singleton_self new⟩,
      by rw [alloced_self], by rw [alloced_self]; rfl⟩
    laying := hlaying.skip fun j _ hj => by
      rw [fam_alloced_ne hj]
      cases j with
      | none => exact Or.inr fun b k _ hb => nomatch hb.choose_spec.1
      | some f =>
          by_cases hf : f ∈ s.flock
          · exact Or.inl ⟨f, hf, rfl⟩
          · exact Or.inr fun b k _ hb => hf hb.1 }
  obtain ⟨p, hp, hend⟩ := lockLoop_ends hF hw
  refine ⟨p, ?_, hend.of_step (Others.alloced hwf hmem) (skips_congr fun g hg =>
    alloced_of_ne fun he => hnew (he ▸ hg))⟩
  unfold lockIt
  rw [allocLock_cons hfree (hwf.free new hmem), Outcome.bind_next]
  dsimp only
  rw [alloced_flock, lockLoop_self]
  exact hp

end Walk

/-! ### The loop of `unlock_it` -/

/-- `unlock_it` with `rest` to go. The request lies over the entries, outside of the table. -/
structure Unwalk (F₀ : Option Slot → Int → LockType → Prop) (t : Task) (req : Request)
    (one : Bool) (s : State) (rest : List Slot) : Prop where
  place : Unplace s rest
  laying : Laying F₀ (fam s t (some (req.lock t))) req.bytes req.flType none (ahead rest)
  same : one = false → fam s t none = F₀

/-- What `unlock_it` comes to. -/
structure UnlockEnd (F₀ : Option Slot → Int → LockType → Prop) (t : Task) (req : Request)
    (s : State) (p : State × Int) : Prop where
  wf : Wf p.1
  others : Others t s p.1
  apart : Apart (fam p.1 t none)
  outcome : p.2 = 0 ∧ (∀ b k, View (fam p.1 t none) b k ↔ b ∉ req.bytes ∧ View F₀ b k) ∨
    p.2 ≠ 0 ∧ ∀ b k, View (fam p.1 t none) b k ↔ View F₀ b k

section Unwalk

variable {F₀ : Option Slot → Int → LockType → Prop} {s s' : State} {t : Task} {req : Request}
  {one one' : Bool} {fl new : Slot} {rest free : List Slot} {e : FileLock} {b : Int} {k : LockType}
  {p : State × Int}

theorem request_iff : fam s t (some (req.lock t)) none b k ↔
    req.flStart ≤ b ∧ b ≤ req.flEnd ∧ k = req.flType := by
  constructor
  · rintro ⟨e, he, hhas⟩
    cases he
    exact ⟨hhas.2.1, hhas.2.2.1, hhas.2.2.2.symm⟩
  · rintro ⟨hlo, hhi, rfl⟩
    exact ⟨_, rfl, rfl, hlo, hhi, rfl⟩

/-- Take the request off again: it is no lock. -/
theorem laid_unlock (hwf : Wf s) (htype : req.flType = .unlck)
    (h : Laid F₀ (fam s t (some (req.lock t))) req.bytes req.flType) :
    Apart (fam s t none) ∧
      ∀ b k, View (fam s t none) b k ↔ b ∉ req.bytes ∧ View F₀ b k := by
  have hsub : ∀ i b k, fam s t none i b k → fam s t (some (req.lock t)) i b k := fun i b k hi => by
    cases i with
    | none => exact nomatch hi.choose_spec.1
    | some fl => exact hi
  refine ⟨fun i j b k k' hi hj => h.1 i j b k k' (hsub i b k hi) (hsub j b k' hj), fun b k => ?_⟩
  constructor
  · rintro ⟨i, hi⟩
    rcases (h.2 b k).mp ⟨i, hsub i b k hi⟩ with ⟨-, hk⟩ | hout
    · cases i with
      | none => exact nomatch hi.choose_spec.1
      | some fl => exact absurd (hi.2.2.2.2.trans (hk.trans htype)) (hwf.ranged fl hi.1).2.2.2
    · exact hout
  · intro hout
    obtain ⟨i, hi⟩ := (h.2 b k).mpr (Or.inr hout)
    cases i with
    | none =>
        have := request_iff.mp hi
        exact absurd ⟨this.1, this.2.1⟩ hout.1
    | some fl => exact ⟨some fl, hi⟩

theorem UnlockEnd.of_laid (hwf : Wf s') (hothers : Others t s s') (htype : req.flType = .unlck)
    (h : Laid F₀ (fam s' t (some (req.lock t))) req.bytes req.flType) :
    UnlockEnd F₀ t req s (s', 0) :=
  ⟨hwf, hothers, (laid_unlock hwf htype h).1, Or.inl ⟨rfl, (laid_unlock hwf htype h).2⟩⟩

theorem UnlockEnd.of_step {p : State × Int} (h : UnlockEnd F₀ t req s' p)
    (hothers : Others t s s') : UnlockEnd F₀ t req s p :=
  ⟨h.wf, hothers.trans h.others, h.apart, h.outcome⟩

theorem Unwalk.apart (h : Unwalk F₀ t req one s rest) (hfl : fl ∈ s.flock) {g : Slot}
    (hg : g ∈ s.flock) (hne : g ≠ fl) (howner : (s.table fl).flOwner = some t)
    (howner' : (s.table g).flOwner = some t)
    (hb : (s.table fl).flStart ≤ b ∧ b ≤ (s.table fl).flEnd) :
    ¬ ((s.table g).flStart ≤ b ∧ b ≤ (s.table g).flEnd) := fun hb' =>
  hne (Option.some.inj (h.laying.apart (some g) (some fl) b _ _ nofun nofun
    ((own_iff hg howner').mpr ⟨hb'.1, hb'.2, rfl⟩) ((own_iff hfl howner).mpr ⟨hb.1, hb.2, rfl⟩)).1)

/-- The entry is trimmed to `e`. -/
theorem Unwalk.trim (h : Unwalk F₀ t req one s (fl :: rest))
    (hplace : Unplace (s.setEntry fl e) rest) (howner : (s.table fl).flOwner = some t)
    (heowner : e.flOwner = some t) (hetype : e.flType = (s.table fl).flType)
    (hcut : ∀ b, e.flStart ≤ b ∧ b ≤ e.flEnd ↔
      ((s.table fl).flStart ≤ b ∧ b ≤ (s.table fl).flEnd) ∧
      ¬ (req.flStart ≤ b ∧ b ≤ req.flEnd)) :
    Unwalk F₀ t req true (s.setEntry fl e) rest where
  place := hplace
  laying := by
    have hfl := h.place.head_mem
    refine h.laying.cut (i := some fl) nofun (fun b k => ?_) (fun j hj => fam_setEntry_ne hj)
      fun j hj _ => ahead_cons hj
    rw [fam_setEntry_self hfl, own_iff hfl howner, request_iff]
    have := hcut b
    constructor
    · rintro ⟨-, hlo, hhi, rfl⟩
      have hin := this.mp ⟨hlo, hhi⟩
      exact ⟨⟨hin.1.1, hin.1.2, hetype.symm⟩, fun hc => hin.2 ⟨hc.1, hc.2.1⟩⟩
    · rintro ⟨⟨hlo, hhi, rfl⟩, hc⟩
      have hin := this.mpr ⟨⟨hlo, hhi⟩, fun hc' => hc ⟨hc'.1, hc'.2, rfl⟩⟩
      exact ⟨heowner, hin.1, hin.2, hetype⟩
  same h := nomatch h

theorem Unwalk.drop (h : Unwalk F₀ t req one s (fl :: rest))
    (howner : (s.table fl).flOwner = some t) (hlo : req.flStart ≤ (s.table fl).flStart)
    (hhi : (s.table fl).flEnd ≤ req.flEnd) : Unwalk F₀ t req true (s.freed fl) rest where
  place := h.place.freed
  laying := by
    refine h.laying.cut (i := some fl) nofun (fun b k => ?_) (fun j hj => fam_freed_ne hj)
      fun j hj _ => ahead_cons hj
    refine ⟨fun hb => absurd hb (fam_freed_self h.place.wf.nodup), fun ⟨hb, hc⟩ => ?_⟩
    have hb' := (own_iff h.place.head_mem howner).mp hb
    exact absurd (request_iff.mpr ⟨by omega, by omega, rfl⟩) hc
  same h := nomatch h

theorem Unturn.walk (hturn : Unturn t req s fl one s' one')
    (h : Unwalk F₀ t req one s (fl :: rest)) : Unwalk F₀ t req one' s' rest := by
  have hplace := hturn.place h.place
  cases hturn with
  | pass hout =>
      refine ⟨hplace, h.laying.skip fun j hj _ => ?_, h.same⟩
      rcases ahead_cons hj with rfl | hj
      · right
        intro b k hb hfam
        have hb₁ := hb.1
        have hb₂ := hb.2
        have hb₃ := hfam.2.2.1
        have hb₄ := hfam.2.2.2.1
        have := hout hfam.2.1
        omega
      · exact Or.inl hj
  | free howner hlo hhi => exact h.drop howner hlo hhi
  | trimStart howner hlo hmid hhi =>
      exact h.trim hplace howner howner rfl fun b => by dsimp only; omega
  | trimEnd howner hlo hmid hhi =>
      exact h.trim hplace howner howner rfl fun b => by dsimp only; omega

theorem Unturn.others (hturn : Unturn t req s fl one s' one') (h : Unplace s (fl :: rest)) :
    Others t s s' := by
  have hfl := h.head_mem
  cases hturn with
  | pass _ => exact Others.refl
  | free howner _ _ => exact Others.freed h.wf howner
  | trimStart howner _ _ _ => exact Others.setEntry hfl howner howner
  | trimEnd howner _ _ _ => exact Others.setEntry hfl howner howner

theorem Unlast.ends (hF : Apart F₀) (htype : req.flType = .unlck) (hlast : Unlast t req s fl p)
    (h : Unwalk F₀ t req one s (fl :: rest)) : UnlockEnd F₀ t req s p := by
  have hfl := h.place.head_mem
  obtain ⟨-, hr₁, -, hr₃⟩ := h.place.wf.ranged fl hfl
  have hreq := req.range.2.1
  cases hlast with
  | split new free hfree howner hlo hhi =>
      obtain ⟨hwf, hoth, hlaid⟩ := split_laid h.laying h.place.wf hfree hfl nofun howner
        (fun b k => request_iff) hlo hreq hhi
      exact UnlockEnd.of_laid hwf hoth htype hlaid
  | full hfree howner hlo hhi =>
      have habort : Apart (fam s t none) ∧ ∀ b k, View (fam s t none) b k ↔ View F₀ b k :=
        h.laying.abort hF (i := some fl) nofun (fun he => hr₃ (he.trans htype))
          (fun b hb => by
            have := request_iff.mp hb
            exact (own_iff hfl howner).mpr ⟨by omega, by omega, rfl⟩)
          (fun b k hb => nomatch hb.choose_spec.1)
          fun j hj => by
            cases j with
            | none => exact absurd rfl hj
            | some g => rfl
      exact ⟨h.place.wf, Others.refl, habort.1, Or.inr ⟨nofun, habort.2⟩⟩
  | exact howner hlo hhi =>
      have hw := h.drop howner (by omega) (by omega)
      refine UnlockEnd.of_laid hw.place.wf (Others.freed h.place.wf howner) htype
        (hw.laying.finish ?_)
      rintro j ⟨g, hg, rfl⟩ - b k hb hfam
      have hgfl := h.place.ne hg
      rw [fam_freed_ne fun he => hgfl (Option.some.inj he)] at hfam
      have h₁ := hb.1
      have h₂ := hb.2
      exact h.apart hfl hfam.1 hgfl howner hfam.2.1 ⟨by omega, by omega⟩
        ⟨hfam.2.2.1, hfam.2.2.2.1⟩

/-- **The loop of `unlock_it`.** -/
theorem unlockLoop_ends (hF : Apart F₀) (htype : req.flType = .unlck)
    (h : Unwalk F₀ t req one s rest) :
    ∃ p, unlockLoop s t (req.lock t) one rest = .next p ∧ UnlockEnd F₀ t req s p := by
  induction rest generalizing s one with
  | nil =>
      refine ⟨_, rfl, ?_⟩
      cases one with
      | true =>
          refine UnlockEnd.of_laid h.place.wf Others.refl htype (h.laying.finish ?_)
          rintro j ⟨g, hg, -⟩
          exact absurd hg List.not_mem_nil
      | false =>
          have hsame := h.same rfl
          refine ⟨h.place.wf, Others.refl, ?_, Or.inr ⟨nofun, fun b k => by rw [hsame]⟩⟩
          rw [hsame]
          exact hF
  | cons fl rest ih =>
      rcases unlockLoop_turns h.place with ⟨s', one', hturn, heq⟩ | ⟨p, hlast, heq⟩
      · obtain ⟨p, hp, hend⟩ := ih (hturn.walk h)
        exact ⟨p, heq.trans hp, hend.of_step (hturn.others h.place)⟩
      · exact ⟨p, heq, hlast.ends hF htype h⟩

/-- **`unlock_it`.** -/
theorem unlockIt_ends (hwf : Wf s) (hF : Apart (fam s t none)) (htype : req.flType = .unlck) :
    ∃ p, unlockIt s t req = .next p ∧ UnlockEnd (fam s t none) t req s p := by
  have hlaying := Laying.start (F := fam s t (some (req.lock t))) (r := req.bytes)
    (k := req.flType) (c := none) hF (fun b k hb => nomatch hb.choose_spec.1)
    (fun b k => request_iff.trans and_assoc.symm)
    (fun i hi => by
      cases i with
      | none => exact absurd rfl hi
      | some g => rfl) fun i _ => Set.mem_univ i
  refine unlockLoop_ends hF htype ⟨⟨hwf, hwf.nodup, fun _ h => h⟩, hlaying.skip fun j _ hj => ?_,
    fun _ => rfl⟩
  cases j with
  | none => exact absurd rfl hj
  | some f =>
      by_cases hf : f ∈ s.flock
      · exact Or.inl ⟨f, hf, rfl⟩
      · exact Or.inr fun b k _ hb => hf hb.1

end Unwalk

/-! ### The loop of `fcntl_remove_locks` -/

theorem removeLoop_ends {t : Task} {rest : List Slot} {s : State} (hwf : Wf s)
    (hnd : rest.Nodup) (hmem : ∀ fl ∈ rest, fl ∈ s.flock)
    (hdone : ∀ fl ∈ s.flock, fl ∉ rest → (s.table fl).flOwner ≠ some t) :
    ∃ s', removeLoop s t rest = .next s' ∧ Wf s' ∧ Others t s s' ∧
      ∀ fl ∈ s'.flock, (s'.table fl).flOwner ≠ some t := by
  induction rest generalizing s with
  | nil => exact ⟨s, rfl, hwf, Others.refl, fun fl hfl => hdone fl hfl List.not_mem_nil⟩
  | cons fl rest ih =>
      rw [removeLoop]
      have hnd' := List.nodup_cons.mp hnd
      by_cases howner : (s.table fl).flOwner = some t
      · rw [if_pos howner, freeLock_eq howner, Outcome.bind_next]
        have hne : ∀ g ∈ rest, g ≠ fl := fun g hg he => hnd'.1 (he ▸ hg)
        obtain ⟨s', hs', hwf', hoth, hnone⟩ :=
          ih (hwf.freed (hmem fl List.mem_cons_self)) hnd'.2
            (fun g hg => (List.mem_erase_of_ne (hne g hg)).mpr (hmem g (List.mem_cons_of_mem fl hg)))
            fun g hg hgr => by
              have hg' := hwf.nodup.mem_erase_iff.mp hg
              rw [freed_of_ne hg'.1]
              refine hdone g hg'.2 fun hin => ?_
              exact (List.mem_cons.mp hin).elim hg'.1 hgr
        exact ⟨s', hs', hwf', (Others.freed hwf howner).trans hoth, hnone⟩
      · rw [if_neg howner]
        refine ih hwf hnd'.2 (fun g hg => hmem g (List.mem_cons_of_mem fl hg)) fun g hg hgr => ?_
        by_cases hgfl : g = fl
        · rw [hgfl]
          exact howner
        · exact hdone g hg fun hin => (List.mem_cons.mp hin).elim hgfl hgr

end LinuxKernel.V098.Fs.Locks
