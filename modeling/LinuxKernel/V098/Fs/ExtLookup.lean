import LinuxKernel.V098.Fs.ExtInode

/-!
# LinuxKernel.V098.Fs.ExtLookup

**What `ext_getblk` finds** when it may not make blocks.

- `lookup` says it by what is in the blocks and which of them can be read, for whatever state
  the requests under way are in.
- `During` are the states that reading leads to: buffers are read and references taken and
  released, nothing else changes.
-/

namespace LinuxKernel.V098.Fs.Ext

open FreeLists FreeList

variable (readable : Nat → Bool)

/-- Whoever waits for the buffer finds it up to date. -/
def usable (s : State) (n : Nat) : Bool := s.uptodate n || readable n

/-- An entry of the block in the buffer `bh`. -/
def entryOf (s : State) (bh : Option Nat) (nr : Nat) : Option Nat :=
  bh.bind fun n => if usable readable s n then link (word (s.data n) nr) else none

def lookup (s : State) (block : Int) : Option Nat :=
  if block < 0 then none
  else if 9 + 256 + 256 * 256 + 256 * 256 * 256 ≤ block then none
  else if block < 9 then link (s.iData block.toNat)
  else
    let block := block.toNat - 9
    if block < 256 then entryOf readable s (link (s.iData 9)) block
    else
      let block := block - 256
      if block < 256 * 256 then
        entryOf readable s (entryOf readable s (link (s.iData 10)) (block / 256)) (block % 256)
      else
        let block := block - 256 * 256
        entryOf readable s
          (entryOf readable s (entryOf readable s (link (s.iData 11)) (block / 65536))
            (block / 256 % 256)) (block % 256)

variable {readable}
variable {s₀ s s' : State} {n m : Nat} {bh taken : Option Nat}

/-- `s` is a state that reading leads to from `s₀`. -/
structure During (readable : Nat → Bool) (s₀ s : State) : Prop where
  rest : s = { s₀ with buffer := s.buffer, count := s.count }
  usable : ∀ n, s.uptodate n = true → usable readable s₀ n = true
  kept : ∀ n, s₀.uptodate n = true → s.uptodate n = true

/-- The buffer of block `n` has been asked for. -/
def Asked (readable : Nat → Bool) (s : State) (n : Nat) : Prop :=
  s.buffer n ≠ .stale ∨ readable n = false

theorem During.refl (s : State) : During readable s s :=
  ⟨rfl, fun _ h => Bool.or_eq_true_iff.mpr (.inl h), fun _ h => h⟩

theorem During.data (h : During readable s₀ s) : s.data = s₀.data := by rw [h.rest]

theorem During.iData (h : During readable s₀ s) : s.iData = s₀.iData := by rw [h.rest]

theorem uptodate_iff : s.uptodate n = true ↔ s.buffer n = .uptodate := decide_eq_true_iff

/-- A buffer that is not up to date changes. -/
theorem During.setBuffer (h : During readable s₀ s) {b : Buffer}
    (hb : b = .uptodate → Ext.usable readable s₀ n = true)
    (hn : s.uptodate n = true → b = .uptodate) : During readable s₀ (Ext.setBuffer s n b) := by
  have hrest : Ext.setBuffer s n b = { s₀ with
      buffer := (Ext.setBuffer s n b).buffer, count := (Ext.setBuffer s n b).count } := by
    unfold Ext.setBuffer
    rw [h.rest]
  refine ⟨hrest, fun m hm => ?_, fun m hm => ?_⟩
  · rw [uptodate_iff, setBuffer_apply] at hm
    split at hm
    next heq => exact heq ▸ hb hm
    next => exact h.usable m (uptodate_iff.mpr hm)
  · rw [uptodate_iff, setBuffer_apply]
    have hold := h.kept m hm
    split
    next heq => exact hn (heq ▸ hold)
    next => exact uptodate_iff.mp hold

theorem complete_uptodate {b : Buffer} :
    b.complete readable n = .uptodate ↔ b = .uptodate ∨ b = .reading ∧ readable n = true := by
  cases b with
  | reading => cases h : readable n <;> simp [Buffer.complete, h]
  | stale => simp [Buffer.complete]
  | uptodate => simp [Buffer.complete]

theorem During.complete (h : During readable s₀ s) (n : Nat) :
    (s.buffer n).complete readable n = .uptodate → Ext.usable readable s₀ n = true := by
  intro hb
  obtain hb | ⟨-, hb⟩ := complete_uptodate.mp hb
  · exact h.usable n (uptodate_iff.mpr hb)
  · exact Bool.or_eq_true_iff.mpr (.inr hb)

theorem During.waitOnBuffer (h : During readable s₀ s) (n : Nat) :
    During readable s₀ (Ext.waitOnBuffer readable s n) :=
  h.setBuffer (h.complete n) fun hup => complete_uptodate.mpr (.inl (uptodate_iff.mp hup))

theorem During.llRwBlock (h : During readable s₀ s) (n : Nat) :
    During readable s₀ (Ext.llRwBlock readable s n) := by
  have hw := h.waitOnBuffer n
  unfold Ext.llRwBlock
  dsimp only
  split
  · exact hw
  next hup => exact hw.setBuffer (fun hb => by cases hb) fun hb => absurd hb hup

theorem During.addCount (h : During readable s₀ s) (n : Nat) (k : Int) :
    During readable s₀ (Ext.addCount s n k) := by
  refine ⟨?_, h.usable, h.kept⟩
  unfold Ext.addCount
  rw [h.rest]

/-! ### Requests -/

theorem complete_stale {b : Buffer} (h : b.complete readable n = .stale) :
    b = .stale ∨ readable n = false := by
  cases b with
  | stale => exact .inl rfl
  | uptodate => cases h
  | reading =>
      cases hr : readable n with
      | false => exact .inr rfl
      | true =>
          rw [Buffer.complete, hr] at h
          cases h

/-- What has been asked for stays so. -/
theorem Asked.waitOnBuffer (h : Asked readable s m) (n : Nat) :
    Asked readable (Ext.waitOnBuffer readable s n) m := by
  by_contra hno
  obtain ⟨hstale, hread⟩ := not_or.mp hno
  rw [not_not, Ext.waitOnBuffer, setBuffer_apply] at hstale
  split at hstale
  next heq =>
    obtain hold | hold := complete_stale hstale
    · exact h.elim (fun h => h (heq ▸ hold)) hread
    · exact hread (heq ▸ hold)
  next => exact h.elim (fun h => h hstale) hread

theorem Asked.llRwBlock (h : Asked readable s m) (n : Nat) :
    Asked readable (Ext.llRwBlock readable s n) m := by
  have hw := h.waitOnBuffer n
  unfold Ext.llRwBlock
  dsimp only
  split
  · exact hw
  · refine hw.imp_left fun hne => ?_
    rw [setBuffer_apply]
    split
    · exact Buffer.noConfusion
    · exact hne

theorem asked_llRwBlock (s : State) (n : Nat) : Asked readable (llRwBlock readable s n) n := by
  unfold llRwBlock
  dsimp only
  refine .inl ?_
  split
  next hup => exact fun hs => by rw [uptodate_iff.mp hup] at hs; cases hs
  next =>
    rw [setBuffer_apply, if_pos rfl]
    exact Buffer.noConfusion

/-- Whoever waits for a buffer that has been asked for knows whether it can be read. -/
theorem uptodate_waitOnBuffer (h : During readable s₀ s) (ha : Asked readable s n) :
    (waitOnBuffer readable s n).uptodate n = usable readable s₀ n := by
  rw [Bool.eq_iff_iff]
  refine ⟨(h.waitOnBuffer n).usable n, fun hu => ?_⟩
  rw [uptodate_iff, waitOnBuffer, setBuffer_apply, if_pos rfl]
  obtain hup | hread := Bool.or_eq_true_iff.mp hu
  · exact complete_uptodate.mpr (.inl (uptodate_iff.mp (h.kept n hup)))
  · refine complete_uptodate.mpr ?_
    cases hb : s.buffer n with
    | stale => exact absurd (ha.resolve_left fun h => h hb) (by rw [hread]; exact Bool.noConfusion)
    | reading => exact .inr ⟨rfl, hread⟩
    | uptodate => exact .inl rfl

/-! ### `ext_getblk` -/

/-- One more or one less reference to the buffer `bh`. -/
def bump (bh : Option Nat) (k : Int) (m : Nat) : Int := if bh = some m then k else 0

/-- `s'` is reached from `s` by reading; the counts differ by `change`. -/
structure Goes (readable : Nat → Bool) (s₀ s s' : State) (change : Nat → Int) : Prop where
  during : During readable s₀ s'
  asked : ∀ n, Asked readable s n → Asked readable s' n
  count : ∀ m, s'.count m = s.count m + change m

theorem Goes.refl (h : During readable s₀ s) : Goes readable s₀ s s fun _ => 0 :=
  ⟨h, fun _ h => h, fun _ => (Int.add_zero _).symm⟩

theorem Goes.trans {s'' : State} {c c' d : Nat → Int} (h : Goes readable s₀ s s' c)
    (h' : Goes readable s₀ s' s'' c') (hc : ∀ m, d m = c m + c' m) :
    Goes readable s₀ s s'' d :=
  ⟨h'.during, fun n ha => h'.asked n (h.asked n ha), fun m => by
    rw [h'.count, h.count, hc, Int.add_assoc]⟩

theorem goes_waitOnBuffer (h : During readable s₀ s) (n : Nat) :
    Goes readable s₀ s (waitOnBuffer readable s n) fun _ => 0 :=
  ⟨h.waitOnBuffer n, fun _ ha => ha.waitOnBuffer n, fun _ => (Int.add_zero _).symm⟩

theorem goes_llRwBlock (h : During readable s₀ s) (n : Nat) :
    Goes readable s₀ s (llRwBlock readable s n) fun _ => 0 := by
  refine ⟨h.llRwBlock n, fun _ ha => ha.llRwBlock n, fun m => ?_⟩
  unfold llRwBlock
  dsimp only
  rw [Int.add_zero]
  split <;> rfl

theorem goes_addCount (h : During readable s₀ s) (n : Nat) (k : Int) :
    Goes readable s₀ s (addCount s n k) (bump (some n) k) := by
  refine ⟨h.addCount n k, fun _ ha => ha, fun m => ?_⟩
  rw [addCount_apply, bump]
  exact congrArg (s.count m + ·) (if_congr (by rw [Option.some.injEq, eq_comm]) rfl rfl)

theorem goes_getblk (h : During readable s₀ s) (n : Nat) :
    Goes readable s₀ s (getblk readable s n) (bump (some n) 1) :=
  (goes_waitOnBuffer h n).trans (goes_addCount (h.waitOnBuffer n) n 1) fun _ =>
    (Int.zero_add _).symm

theorem goes_brelse (h : During readable s₀ s) (bh : Option Nat) :
    Goes readable s₀ s (brelse readable s bh) (bump bh (-1)) := by
  cases bh with
  | none => exact Goes.refl h
  | some n =>
      exact (goes_waitOnBuffer h n).trans (goes_addCount (h.waitOnBuffer n) n (-1)) fun _ =>
        (Int.zero_add _).symm

theorem inodeGetblk_false (sb : Super) (h : During readable s₀ s) (nr : Nat) :
    (inodeGetblk sb readable s nr false).2 = link (s₀.iData nr) ∧
      Goes readable s₀ s (inodeGetblk sb readable s nr false).1 (bump (link (s₀.iData nr)) 1) := by
  unfold inodeGetblk link
  rw [h.iData]
  by_cases hz : s₀.iData nr = 0
  · rw [if_neg (not_not.mpr hz), if_neg Bool.false_ne_true, if_pos hz]
    exact ⟨rfl, Goes.refl h⟩
  · rw [if_pos hz, if_neg hz]
    exact ⟨rfl, goes_getblk h _⟩

/-- A buffer that is not up to date is read first. -/
theorem goes_read (h : During readable s₀ s) (n : Nat) :
    Goes readable s₀ s
      (if s.uptodate n then s else waitOnBuffer readable (llRwBlock readable s n) n) (fun _ => 0) ∧
    (if s.uptodate n then s else waitOnBuffer readable (llRwBlock readable s n) n).uptodate n =
      usable readable s₀ n := by
  split
  next hup => exact ⟨Goes.refl h, hup.trans (h.usable n hup).symm⟩
  next =>
    exact ⟨(goes_llRwBlock h n).trans (goes_waitOnBuffer (h.llRwBlock n) n) fun _ => rfl,
      uptodate_waitOnBuffer (h.llRwBlock n) (asked_llRwBlock s n)⟩

theorem blockGetblk_false (sb : Super) (h : During readable s₀ s) (bh : Option Nat) (nr : Nat) :
    (blockGetblk sb readable s bh nr false).2 = entryOf readable s₀ bh nr ∧
      Goes readable s₀ s (blockGetblk sb readable s bh nr false).1 fun m =>
        bump bh (-1) m + bump (entryOf readable s₀ bh nr) 1 m := by
  cases bh with
  | none => exact ⟨rfl, Goes.refl h⟩
  | some n =>
      obtain ⟨hread, hup⟩ := goes_read h n
      unfold blockGetblk
      dsimp only
      generalize (if s.uptodate n then s
        else waitOnBuffer readable (llRwBlock readable s n) n) = s' at hread hup ⊢
      have hdrop := hread.trans (d := bump (some n) (-1)) (goes_brelse hread.during (some n))
        fun _ => (Int.zero_add _).symm
      rw [hup]
      cases husable : usable readable s₀ n with
      | false =>
          have hentry : entryOf readable s₀ (some n) nr = none := by
            rw [entryOf, Option.bind_some, husable, if_neg Bool.false_ne_true]
          rw [if_pos rfl, hentry]
          exact ⟨rfl, hdrop.trans (Goes.refl hdrop.during) fun _ => rfl⟩
      | true =>
          have hentry : entryOf readable s₀ (some n) nr = link (word (s₀.data n) nr) := by
            rw [entryOf, Option.bind_some, husable, if_pos rfl]
          rw [if_neg Bool.noConfusion, hentry, hread.during.data, link]
          by_cases hz : word (s₀.data n) nr = 0
          · rw [if_neg (not_not.mpr hz), if_neg Bool.false_ne_true, if_pos hz]
            exact ⟨rfl, hdrop.trans (Goes.refl hdrop.during) fun _ => rfl⟩
          · rw [if_pos hz, if_neg hz]
            have hget := goes_getblk hread.during (word (s₀.data n) nr)
            refine ⟨rfl, (hread.trans hget fun _ => (Int.zero_add _).symm).trans
              (goes_brelse hget.during (some n)) fun m => Int.add_comm _ _⟩

/-- **What `ext_getblk` finds**, and its only reference is one to that buffer. -/
theorem extGetblk_false (sb : Super) (h : During readable s₀ s) (block : Int) :
    (extGetblk sb readable s block false).2 = lookup readable s₀ block ∧
      Goes readable s₀ s (extGetblk sb readable s block false).1
        (bump (lookup readable s₀ block) 1) := by
  -- the reference that one level takes is released by the next
  have hnext : ∀ {r : State × Option Nat} {bh : Option Nat}, r.2 = bh →
      Goes readable s₀ s r.1 (bump bh 1) → ∀ nr,
      (blockGetblk sb readable r.1 r.2 nr false).2 = entryOf readable s₀ bh nr ∧
        Goes readable s₀ s (blockGetblk sb readable r.1 r.2 nr false).1
          (bump (entryOf readable s₀ bh nr) 1) := by
    intro r bh hbh hr nr
    obtain ⟨hres, hgoes⟩ := blockGetblk_false sb hr.during r.2 nr
    rw [hbh] at hres hgoes ⊢
    refine ⟨hres, hr.trans hgoes fun m => ?_⟩
    unfold bump
    split <;> split <;> omega
  unfold extGetblk lookup
  dsimp only
  split
  · exact ⟨rfl, Goes.refl h⟩
  · split
    · exact ⟨rfl, Goes.refl h⟩
    · split
      · exact inodeGetblk_false sb h _
      · split
        · have h9 := inodeGetblk_false sb h 9
          exact hnext h9.1 h9.2 _
        · split
          · have h10 := inodeGetblk_false sb h 10
            have h1 := hnext h10.1 h10.2 ((block.toNat - 9 - 256) / 256)
            exact hnext h1.1 h1.2 _
          · have h11 := inodeGetblk_false sb h 11
            have h1 := hnext h11.1 h11.2 ((block.toNat - 9 - 256 - 256 * 256) / 65536)
            have h2 := hnext h1.1 h1.2 ((block.toNat - 9 - 256 - 256 * 256) / 256 % 256)
            exact hnext h2.1 h2.2 _

end LinuxKernel.V098.Fs.Ext
