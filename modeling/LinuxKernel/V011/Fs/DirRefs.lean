import LinuxKernel.V011.Fs.DirLoops

/-!
# LinuxKernel.V011.Fs.DirRefs

**The buffers a search of a directory holds.**

At the end of a block the three loops let their buffer go before they have the next one.
Where there is none they go on with the pointers they have: `find_entry` and `add_entry`
with `NULL`, and `empty_dir` with the buffer it has just released.
-/

namespace LinuxKernel.V011.Fs.DirBlocks

open Dir

variable {env : Env} {s : State} {name : List UInt8} {i entries : Nat}

/-! ### The three calls -/

/-- A call begins without references. -/
def start (dir : Inode) (data : Short → Block) : State := ⟨dir, data, fun _ => 0⟩

/-- One reference to the buffer that is returned, and no other. -/
def Balanced : Outcome (State × Option (Short × Nat)) → Prop
  | .next (s, none) => ∀ b, s.count b = 0
  | .next (s, some (b, _)) => ∀ x, s.count x = if x = b then 1 else 0
  | .panic msg => Fine msg
  | .disabled => False

/-- `empty_dir` returns no buffer. -/
def BalancedInt : Outcome (State × Int) → Prop
  | .next (s, _) => ∀ b, s.count b = 0
  | .panic msg => Fine msg
  | .disabled => False

/-- `empty_dir` does not like the first two entries. -/
structure BadDots (env : Env) (s : State) : Prop where
  len : 2 ≤ s.dir.size / 16
  present : Present env s 0
  dots : (entry env s 0).inode ≠ s.dir.num ∨ (entry env s 1).inode = 0 ∨
    nameIs [46] (entry env s 0) = false ∨ nameIs [46, 46] (entry env s 1) = false

theorem hold_count (hs : ∀ b, s.count b = 0) (b x : Short) :
    (s.hold b).count x = if x = b then 1 else 0 := by
  change Function.update s.count b (s.count b + 1) x = _
  rw [Function.update_apply, hs, hs]

theorem not_fine_null : ¬ Fine "NULL pointer" := fun h => h.1 rfl

theorem Searched.balanced_iff {o : Outcome (State × Option (Short × Nat))}
    (hs : ∀ b, s.count b = 0) (h : Searched env s name entries i o) :
    Balanced o ↔ ¬ FindsHole env s name entries i := by
  rcases h with ⟨hhole, rfl⟩ | ⟨hno, ho⟩
  · exact ⟨fun hb => absurd hb not_fine_null, fun hno => absurd hhole hno⟩
  · refine ⟨fun _ => hno, fun _ => ?_⟩
    rcases ho with rfl | ⟨r, -, rfl⟩
    · exact ⟨by decide, by decide⟩
    · cases r with
      | none => exact hs
      | some j => exact hold_count hs _

theorem Added.balanced_iff {o : Outcome (State × Option (Short × Nat))}
    (hs : ∀ b, s.count b = 0) (h : Added env s name i o) : Balanced o ↔ ¬ AddsHole env s i := by
  rcases h with ⟨hhole, rfl⟩ | ⟨hno, ho⟩
  · exact ⟨fun hb => absurd hb not_fine_null, fun hno => absurd hhole hno⟩
  · refine ⟨fun _ => hno, fun _ => ?_⟩
    rcases ho with ⟨msg, hfine, rfl⟩ | ⟨s', hcount, rfl⟩ | ⟨j, r, -, -, hcount, rfl⟩
    · exact hfine
    · exact fun b => (congrFun hcount b).trans (hs b)
    · intro x
      rw [addHere_count]
      exact hold_count (fun b => (congrFun hcount b).trans (hs b)) r.2 x

theorem Emptied.balanced_iff {len : Nat} {o : Outcome (State × Int)}
    (hs : ∀ b, s.count b = 0) (h : Emptied env s len i o) :
    BalancedInt o ↔ ¬ EmptyHole env s len i := by
  rcases h with ⟨hhole, rfl⟩ | ⟨hno, ho⟩
  · exact ⟨fun hb => absurd rfl hb.2, fun hno => absurd hhole hno⟩
  · refine ⟨fun _ => hno, fun _ => ?_⟩
    rcases ho with rfl | ⟨v, rfl⟩
    · exact ⟨by decide, by decide⟩
    · exact hs

/-- The first block is there. -/
theorem present_zero (h : ¬ (s.dir.zone 0 = 0 ∨ env.read 0 2 = false)) : Present env s 0 := by
  rw [not_or] at h
  exact ⟨by decide, h.1, by simpa using h.2⟩

theorem not_present_zero (h : s.dir.zone 0 = 0 ∨ env.read 0 2 = false) : ¬ Present env s 0 :=
  fun hp => h.elim hp.mapped fun hread => Bool.false_ne_true (hread.symm.trans hp.read)

theorem take_eq_nil : name.take NAME_LEN = [] ↔ name = [] := by
  rw [List.take_eq_nil_iff]
  exact or_iff_right (by decide)

/-- The state in which `find_entry` searches. -/
def lookIn (place : Place) (dir : Inode) (data : Short → Block) (name : List UInt8) : State :=
  start (place.dir dir (name.take NAME_LEN)) data

variable (env) (dir : Inode) (data : Short → Block) (name)

/-- `find_entry` goes wrong exactly if it gets past a block that is not there. -/
theorem findEntry_balanced_iff (place : Place) :
    Balanced (findEntry env place (start dir data) name) ↔
      ¬ (name ≠ [] ∧ FindsHole env (lookIn place dir data name)
        (place.name (name.take NAME_LEN)) (dir.size / 16) 0) := by
  rw [findEntry]
  by_cases hname : name = []
  · rw [if_pos (take_eq_nil.mpr hname)]
    exact ⟨fun _ h => h.1 hname, fun _ _ => rfl⟩
  rw [if_neg fun h => hname (take_eq_nil.mp h), and_iff_right hname]
  change Balanced (if (lookIn place dir data name).dir.zone 0 = 0 ∨ env.read 0 2 = false then
    .next (lookIn place dir data name, none) else _) ↔ _
  split
  · next hzero =>
    refine ⟨fun _ hhole => ?_, fun _ _ => rfl⟩
    obtain ⟨k, h1, -, -, -, -, hall⟩ := hhole
    exact not_present_zero hzero (hall 0 (Nat.le_refl 0) (by omega)).1
  · next hzero =>
    exact (findLoop_spec (n := dir.size / 16) _ (present_zero hzero) rfl (Nat.zero_le 64)
      (Nat.le_add_left ..)).balanced_iff fun _ => rfl

/-- `add_entry` goes wrong exactly if it comes to a block that is mapped and cannot be read. -/
theorem addEntry_balanced_iff : Balanced (addEntry env (start dir data) name) ↔
    ¬ (name ≠ [] ∧ AddsHole env (start dir data) 0) := by
  rw [addEntry]
  by_cases hname : name = []
  · rw [if_pos (Or.inl (take_eq_nil.mpr hname))]
    exact ⟨fun _ h => h.1 hname, fun _ _ => rfl⟩
  rw [and_iff_right hname]
  by_cases hzero : (start dir data).dir.zone 0 = 0 ∨ env.read 0 2 = false
  · rw [if_pos (Or.inr hzero)]
    refine ⟨fun _ hhole => ?_, fun _ _ => rfl⟩
    obtain ⟨k, h1, -, -, -, hall⟩ := hhole
    exact not_present_zero hzero (hall 0 (Nat.le_refl 0) (by omega)).1
  · rw [if_neg (not_or.mpr ⟨fun h => hname (take_eq_nil.mp h), hzero⟩)]
    exact (addLoop_spec _ (present_zero hzero) rfl (Nat.zero_le 64) (by decide)).balanced_iff
      fun _ => rfl

/-- `empty_dir` goes wrong exactly if it does not like the first entries or comes to a block
that is not mapped. -/
theorem emptyDir_balanced_iff : BalancedInt (emptyDir env (start dir data)) ↔
    ¬ (BadDots env (start dir data) ∨
      EmptyHole env (start dir data) (dir.size / 16) 2) := by
  rw [emptyDir]
  by_cases hfirst : dir.size / 16 < 2 ∨ dir.zone 0 = 0 ∨ env.read 0 2 = false
  · rw [if_pos (show (start dir data).dir.size / 16 < 2 ∨ (start dir data).dir.zone 0 = 0 ∨
      env.read 0 2 = false from hfirst)]
    refine ⟨fun _ h => ?_, fun _ _ => rfl⟩
    have hboth : 2 ≤ dir.size / 16 ∧ Present env (start dir data) 0 := by
      rcases h with hbad | ⟨k, h1, -, -, -, hlt, hall⟩
      · exact ⟨hbad.len, hbad.present⟩
      · exact ⟨by omega, (hall 2 (Nat.le_refl 2) (by omega)).1⟩
    exact hfirst.elim (fun hlen => by omega) fun hzero => not_present_zero hzero hboth.2
  rw [if_neg (show ¬ ((start dir data).dir.size / 16 < 2 ∨ (start dir data).dir.zone 0 = 0 ∨
    env.read 0 2 = false) from hfirst)]
  rw [not_or] at hfirst
  have hp : Present env (start dir data) 0 := present_zero hfirst.2
  dsimp only
  split
  · next hdots =>
    refine ⟨fun hb => ?_, fun hno => absurd (Or.inl ⟨Nat.not_lt.mp hfirst.1, hp, hdots⟩) hno⟩
    have hheld := hb ((start dir data).dir.zone 0)
    rw [hold_count (fun _ => rfl), if_pos rfl] at hheld
    cases hheld
  · next hdots =>
    have hgood : ¬ BadDots env (start dir data) := fun hbad => hdots hbad.dots
    rw [or_iff_right hgood]
    have hde : 2 ≤ 64 := by decide
    exact (emptyLoop_spec (n := dir.size / 16) (fun _ => rfl) hp rfl hde
      (Nat.le_add_left ..)).balanced_iff fun _ => rfl

/-- **Buffer references in directories.** -/
theorem dir_balanced_iff (place : Place) :
    (Balanced (findEntry env place (start dir data) name) ↔
      ¬ (name ≠ [] ∧ FindsHole env (lookIn place dir data name)
        (place.name (name.take NAME_LEN)) (dir.size / 16) 0)) ∧
    (Balanced (addEntry env (start dir data) name) ↔
      ¬ (name ≠ [] ∧ AddsHole env (start dir data) 0)) ∧
    (BalancedInt (emptyDir env (start dir data)) ↔
      ¬ (BadDots env (start dir data) ∨ EmptyHole env (start dir data) (dir.size / 16) 2)) :=
  ⟨findEntry_balanced_iff env name dir data place, addEntry_balanced_iff env name dir data,
    emptyDir_balanced_iff env dir data⟩

/-- A directory of 130 free entries, with its second block missing. -/
def holeDir : Inode where
  num := 2
  size := 130 * 16
  zone i := if i = 0 then 5 else 0

/-- Every block can be read, and there is none to be had. -/
def quiet : Env where
  read _ _ := true
  alloc _ _ := 0

/-- `find_entry` uses a `NULL` buffer at the end of the missing block. -/
theorem findEntry_not_balanced : ¬ Balanced (findEntry quiet ⟨false, none⟩
    (start holeDir fun _ _ => 0) [97]) := by
  rw [findEntry_balanced_iff, not_not]
  refine ⟨by decide, 1, le_refl 1, by decide, by decide, fun hp => hp.mapped rfl, by decide,
    fun j _ hj => ?_⟩
  have hj0 : j / 64 = 0 := by omega
  refine ⟨hj0 ▸ ⟨by decide, fun h => absurd h (by decide), rfl⟩, ?_⟩
  have hfree : (entry quiet (lookIn ⟨false, none⟩ holeDir (fun _ _ => 0) [97]) j).inode = 0 :=
    word_zero (8 * (j % 64))
  rw [Matches, matchEntry_unused hfree]
  exact Bool.false_ne_true

end LinuxKernel.V011.Fs.DirBlocks
