import LinuxKernel.V011.Fs.BufferIndex

/-!
# LinuxKernel.V011.Fs.BufferUnique

**One buffer per block**, for any number of tasks in the buffer cache.

A buffer changes its block in one place only, the end of `getblk`. The round
that does it starts with the test of `wait_on_buffer` and runs `find_buffer`
again, so nothing sleeps between that search and the insertion.
-/

namespace LinuxKernel.V011.Fs

open Threads

variable {n : Nat} {requestFn : Nat → Bool} {c c' : Cache n} {f g k : Frame n} {ch : Choice}

/-! ### What a round does to the index -/

theorem scanNext_shared {dev : Dev} {block : BlockNr} {tmp : Fin n} {bh : Option (Fin n)}
    (h : (scanNext c dev block tmp bh).shared = some c') : c' = c := by
  rw [scanNext] at h
  split at h
  · cases h
  · split at h <;> cases h <;> rfl

theorem scan_shared {dev : Dev} {block : BlockNr} {tmp : Fin n} {bh : Option (Fin n)}
    (h : (scan c dev block tmp bh).shared = some c') : c' = c := by
  rw [scan] at h
  split at h
  · exact scanNext_shared h
  · split at h
    · split at h
      · cases h
        rfl
      · exact scanNext_shared h
    · exact scanNext_shared h

/-- A buffer is taken for another block. -/
structure Taken (c c' : Cache n) (f : Frame n) (dev : Dev) (block : BlockNr) (bh : Fin n) :
    Prop where
  frame : f = .getblkWait dev block bh
  unlocked : c.lock bh = false
  unused : c.count bh = 0
  clean : c.dirt bh = false
  notFound : c.findBuffer dev block = some none
  assign : c.assign bh dev block = .next c'

theorem exec_index (h : (exec requestFn c f ch).shared = some c') :
    c.SameIndex c' ∨ ∃ dev block bh, Taken c c' f dev block bh := by
  cases f with
  | getblkWait dev block bh =>
      simp only [exec] at h
      split at h
      case isTrue => cases h; exact Or.inl (.refl c)
      next hlock =>
      split at h
      case isTrue => cases h; exact Or.inl (.refl c)
      next hcount =>
      split at h
      case isTrue => cases h; exact Or.inl (.refl c)
      next hdirt =>
      split at h
      · cases h
      · cases h
        exact Or.inl (.refl c)
      · next hfind =>
        split at h
        · next c₁ hassign =>
          cases h
          exact Or.inr ⟨dev, block, bh, rfl, by simpa using hlock, by simpa using hcount,
            by simpa using hdirt, hfind, hassign⟩
        · cases h
        · cases h
  | getblkScan dev block tmp bh => exact Or.inl (scan_shared h ▸ .refl c)
  | getHashTable dev block =>
      simp only [exec] at h
      split at h <;> cases h <;> exact Or.inl ⟨rfl, rfl, rfl, rfl, rfl, rfl, rfl, rfl⟩
  | hashFound dev block bh =>
      simp only [exec] at h
      split at h
      · cases h
        exact Or.inl (.refl c)
      · split at h <;> cases h <;> exact Or.inl ⟨rfl, rfl, rfl, rfl, rfl, rfl, rfl, rfl⟩
  | getblk dev block => cases h; exact Or.inl (.refl c)
  | getblkHash dev block => cases h
  | getblkHashed dev block bh =>
      cases bh with
      | some bh => cases h; exact Or.inl (.refl c)
      | none =>
          simp only [exec] at h
          split at h <;> cases h
          exact Or.inl (.refl c)
  | getblkChosen dev block bh => cases bh <;> cases h <;> exact Or.inl (.refl c)
  | syncDev dev again i =>
      simp only [exec] at h
      split at h
      · split at h <;> cases h <;> exact Or.inl (.refl c)
      · split at h <;> cases h <;> exact Or.inl (.refl c)
  | syncWait dev again bh =>
      simp only [exec] at h
      split at h
      · cases h
        exact Or.inl (.refl c)
      · split at h <;> cases h <;> exact Or.inl (.refl c)
  | syncInodes => cases ch <;> cases h <;> exact Or.inl (.refl c)
  | writeInode data => cases h
  | writeInodeRead data bh =>
      cases bh <;> cases h
      exact Or.inl ⟨rfl, rfl, rfl, rfl, rfl, rfl, rfl, rfl⟩
  | brelse buf =>
      cases buf with
      | none => cases h; exact Or.inl (.refl c)
      | some buf =>
          simp only [exec] at h
          split at h
          · cases h
            exact Or.inl (.refl c)
          · split at h <;> cases h
            exact Or.inl ⟨rfl, rfl, rfl, rfl, rfl, rfl, rfl, rfl⟩
  | bread dev block => cases h; exact Or.inl (.refl c)
  | breadGet => cases h
  | breadGot bh =>
      cases bh with
      | none => cases h
      | some bh =>
          simp only [exec] at h
          split at h <;> cases h <;> exact Or.inl (.refl c)
  | breadWait bh =>
      simp only [exec] at h
      split at h
      · cases h
        exact Or.inl (.refl c)
      · split at h <;> cases h <;> exact Or.inl (.refl c)
  | breadFail => cases h; exact Or.inl (.refl c)
  | breada dev first rest => cases h; exact Or.inl (.refl c)
  | breadaGet dev rest => cases h
  | breadaGot dev rest bh =>
      cases bh with
      | none => cases h
      | some bh =>
          simp only [exec] at h
          split at h <;> cases h <;> exact Or.inl (.refl c)
  | breadaAhead dev rest bh => cases rest <;> cases h <;> exact Or.inl (.refl c)
  | breadaNext dev rest bh => cases h
  | breadaTmp dev rest bh tmp =>
      cases tmp with
      | none => cases h; exact Or.inl (.refl c)
      | some tmp =>
          simp only [exec] at h
          split at h <;> cases h <;> exact Or.inl (.refl c)
  | breadaDec dev rest bh tmp => cases h; exact Or.inl ⟨rfl, rfl, rfl, rfl, rfl, rfl, rfl, rfl⟩
  | llRwBlock rw bh =>
      simp only [exec] at h
      split at h <;> cases h <;> exact Or.inl (.refl c)
  | makeRequest rw bh =>
      simp only [exec] at h
      cases rw with
      | READ => cases h; exact Or.inl (.refl c)
      | WRITE => cases h; exact Or.inl (.refl c)
      | READA => dsimp only at h; split at h <;> cases h <;> exact Or.inl (.refl c)
      | WRITEA => dsimp only at h; split at h <;> cases h <;> exact Or.inl (.refl c)
  | lockBuffer rw ahead bh =>
      simp only [exec] at h
      split at h
      · cases h
        exact Or.inl (.refl c)
      · split at h <;> cases h <;> exact Or.inl ⟨rfl, rfl, rfl, rfl, rfl, rfl, rfl, rfl⟩
  | requestSlot rw ahead bh =>
      simp only [exec] at h
      split at h
      · cases h
        exact Or.inl ⟨rfl, rfl, rfl, rfl, rfl, rfl, rfl, rfl⟩
      · split at h <;> cases h <;> exact Or.inl ⟨rfl, rfl, rfl, rfl, rfl, rfl, rfl, rfl⟩
  | modify bh data => cases h; exact Or.inl ⟨rfl, rfl, rfl, rfl, rfl, rfl, rfl, rfl⟩

/-! ### The proof outline -/

/-- The buffer is for the block. -/
def Holds (c : Cache n) (bh : Fin n) (dev : Dev) (block : BlockNr) : Prop :=
  c.dev bh = dev ∧ c.blocknr bh = block

/-- Between rounds one thing only must be known: a buffer that
`get_hash_table` has just handed to `getblk` is for the block. -/
def outline (n : Nat) : Outline (Cache n) (Frame n) (Option (Fin n)) where
  inv := Cache.Indexed
  rely _ _ := True
  top c f :=
    match f with
    | .getblkHashed dev block (some bh) => Holds c bh dev block
    | _ => True
  asleep _ f :=
    match f with
    | .getblkHashed .. => False
    | _ => True
  post f c v :=
    (∀ dev block, f.hashOf = some (dev, block) → ∀ bh, v = some bh → Holds c bh dev block) ∧
      ∀ dev block, f.getblkOf = some (dev, block) → ∃ bh, v = some bh ∧ Holds c bh dev block

theorem refines_of_eq (hh : g.hashOf = f.hashOf) (hg : g.getblkOf = f.getblkOf) :
    (outline n).Refines g f := by
  intro c v h
  exact ⟨fun dev block he => h.1 dev block (hh.trans he),
    fun dev block he => h.2 dev block (hg.trans he)⟩

/-- A frame of neither function may return anything. -/
theorem post_of_none (hh : f.hashOf = none) (hg : f.getblkOf = none) (c : Cache n)
    (v : Option (Fin n)) : (outline n).post f c v :=
  ⟨fun dev block he => (by rw [hh] at he; cases he),
    fun dev block he => (by rw [hg] at he; cases he)⟩

/-- Only `getblk` makes something of what it is given by `get_hash_table`. -/
theorem fits_of_ne (hk : ∀ dev block, k ≠ .getblkHash dev block) :
    (outline n).Fits (program requestFn) f k := by
  intro c v _ hasleep _
  cases k with
  | getblkHash dev block => exact absurd rfl (hk dev block)
  | getblkHashed dev block bh => exact hasleep.elim
  | _ => trivial

theorem fits_getblkHash (dev : Dev) (block : BlockNr) :
    (outline n).Fits (program requestFn) (.getHashTable dev block) (.getblkHash dev block) := by
  intro c v _ _ hpost
  cases v with
  | none => trivial
  | some bh => exact hpost.1 dev block rfl bh rfl

theorem control_scanNext {dev : Dev} {block : BlockNr} {tmp tmp' : Fin n} {bh bh' : Option (Fin n)} :
    (outline n).Control (program requestFn) (.getblkScan dev block tmp' bh')
      (scanNext c dev block tmp bh) := by
  rw [scanNext]
  split
  · trivial
  · split <;> exact ⟨trivial, refines_of_eq rfl rfl⟩

theorem control_scan {dev : Dev} {block : BlockNr} {tmp : Fin n} {bh : Option (Fin n)} :
    (outline n).Control (program requestFn) (.getblkScan dev block tmp bh)
      (scan c dev block tmp bh) := by
  rw [scan]
  split
  · exact control_scanNext
  · split
    · split
      · exact ⟨trivial, refines_of_eq rfl rfl⟩
      · exact control_scanNext
    · exact control_scanNext

theorem indexed_exec (hc : c.Indexed) (h : (exec requestFn c f ch).shared = some c') :
    c'.Indexed := by
  rcases exec_index h with hs | ⟨dev, block, bh, ht⟩
  · exact hc.same hs
  · obtain ⟨c₁, h₁, hi, -⟩ := hc.assign ht.notFound bh
    rw [ht.assign] at h₁
    cases h₁
    exact hi

/-- A jump or a sleep within one function. -/
theorem control_goto (hh : g.hashOf = f.hashOf) (hg : g.getblkOf = f.getblkOf)
    (htop : (outline n).top c g) :
    (outline n).Control (program requestFn) f (.goto c g) := ⟨htop, refines_of_eq hh hg⟩

/-- A call from a function that is neither of the two. -/
theorem control_call (hh : k.hashOf = f.hashOf) (hg : k.getblkOf = f.getblkOf)
    (htop : (outline n).top c g) (hk : (outline n).asleep c k)
    (hne : ∀ dev block, k ≠ .getblkHash dev block) :
    (outline n).Control (program requestFn) f (.call c g k) :=
  ⟨htop, hk, fits_of_ne hne, refines_of_eq hh hg⟩

/-- Every round meets the outline. -/
theorem control_exec (hc : c.Indexed) (htop : (outline n).top c f) :
    (outline n).Control (program requestFn) f (exec requestFn c f ch) := by
  cases f with
  | getHashTable dev block =>
      obtain ⟨r, hr, -⟩ := hc.findBuffer dev block
      simp only [exec, hr]
      cases r with
      | none => exact ⟨fun _ _ _ _ => nofun, fun _ _ => nofun⟩
      | some bh => exact ⟨trivial, refines_of_eq rfl rfl⟩
  | hashFound dev block bh =>
      simp only [exec]
      split
      · exact ⟨trivial, refines_of_eq rfl rfl⟩
      · split
        · next hm =>
          refine ⟨fun dev' block' he bh' hbh => ?_, fun _ _ => nofun⟩
          cases he
          cases hbh
          exact hm
        · exact ⟨trivial, refines_of_eq rfl rfl⟩
  | getblk dev block =>
      exact ⟨trivial, trivial, fits_getblkHash dev block, refines_of_eq rfl rfl⟩
  | getblkHashed dev block bh =>
      cases bh with
      | some bh =>
          refine ⟨fun _ _ => nofun, fun dev' block' he => ?_⟩
          cases he
          exact ⟨bh, rfl, htop⟩
      | none =>
          simp only [exec]
          split
          · trivial
          · exact ⟨trivial, refines_of_eq rfl rfl⟩
  | getblkScan dev block tmp bh => exact control_scan
  | getblkChosen dev block bh => cases bh <;> exact ⟨trivial, refines_of_eq rfl rfl⟩
  | getblkWait dev block bh =>
      simp only [exec]
      split
      · exact ⟨trivial, refines_of_eq rfl rfl⟩
      split
      · exact ⟨trivial, refines_of_eq rfl rfl⟩
      split
      · exact ⟨trivial, trivial, fits_of_ne nofun, refines_of_eq rfl rfl⟩
      split
      · trivial
      · exact ⟨trivial, refines_of_eq rfl rfl⟩
      · next hfind =>
        obtain ⟨c₁, h₁, -, ha⟩ := hc.assign hfind bh
        rw [h₁]
        refine ⟨fun _ _ => nofun, fun dev' block' he => ?_⟩
        cases he
        refine ⟨bh, rfl, ?_, ?_⟩
        · rw [ha.dev, Function.update_self]
        · rw [ha.blocknr, Function.update_self]
  | getblkHash | writeInode | breadGet | breadaGet | breadaNext => trivial
  | syncDev dev again i =>
      simp only [exec]
      split
      · split <;> exact control_goto rfl rfl trivial
      · split
        · exact post_of_none rfl rfl _ _
        · exact control_call rfl rfl trivial trivial nofun
  | syncWait dev again bh =>
      simp only [exec]
      split
      · exact ⟨trivial, refines_of_eq rfl rfl⟩
      · split
        · exact control_call rfl rfl trivial trivial nofun
        · exact control_goto rfl rfl trivial
  | syncInodes =>
      cases ch with
      | next => exact post_of_none rfl rfl _ _
      | sleep => exact ⟨trivial, refines_of_eq rfl rfl⟩
      | inode dev block data => exact control_call rfl rfl trivial trivial nofun
  | writeInodeRead data bh =>
      cases bh with
      | none => trivial
      | some bh => exact control_call rfl rfl trivial trivial nofun
  | brelse buf =>
      cases buf with
      | none => exact post_of_none rfl rfl _ _
      | some buf =>
          simp only [exec]
          split
          · exact ⟨trivial, refines_of_eq rfl rfl⟩
          · split
            · trivial
            · exact post_of_none rfl rfl _ _
  | bread dev block => exact control_call rfl rfl trivial trivial nofun
  | breadGot bh =>
      cases bh with
      | none => trivial
      | some bh =>
          simp only [exec]
          split
          · exact post_of_none rfl rfl _ _
          · exact control_call rfl rfl trivial trivial nofun
  | breadWait bh =>
      simp only [exec]
      split
      · exact ⟨trivial, refines_of_eq rfl rfl⟩
      · split
        · exact post_of_none rfl rfl _ _
        · exact control_call rfl rfl trivial trivial nofun
  | breadFail => exact post_of_none rfl rfl _ _
  | breada dev first rest => exact control_call rfl rfl trivial trivial nofun
  | breadaGot dev rest bh =>
      cases bh with
      | none => trivial
      | some bh =>
          simp only [exec]
          split
          · exact control_goto rfl rfl trivial
          · exact control_call rfl rfl trivial trivial nofun
  | breadaAhead dev rest bh =>
      cases rest with
      | nil => exact control_goto rfl rfl trivial
      | cons block rest => exact control_call rfl rfl trivial trivial nofun
  | breadaTmp dev rest bh tmp =>
      cases tmp with
      | none => exact control_goto rfl rfl trivial
      | some tmp =>
          simp only [exec]
          split
          · exact control_goto rfl rfl trivial
          · exact control_call rfl rfl trivial trivial nofun
  | breadaDec dev rest bh tmp => exact control_goto rfl rfl trivial
  | llRwBlock rw bh =>
      simp only [exec]
      split
      · exact post_of_none rfl rfl _ _
      · exact control_goto rfl rfl trivial
  | makeRequest rw bh =>
      cases rw with
      | READ => exact control_goto rfl rfl trivial
      | WRITE => exact control_goto rfl rfl trivial
      | READA =>
          simp only [exec]
          split
          · exact post_of_none rfl rfl _ _
          · exact control_goto rfl rfl trivial
      | WRITEA =>
          simp only [exec]
          split
          · exact post_of_none rfl rfl _ _
          · exact control_goto rfl rfl trivial
  | lockBuffer rw ahead bh =>
      simp only [exec]
      split
      · exact ⟨trivial, refines_of_eq rfl rfl⟩
      · split
        · exact post_of_none rfl rfl _ _
        · exact control_goto rfl rfl trivial
  | requestSlot rw ahead bh =>
      simp only [exec]
      split
      · exact post_of_none rfl rfl _ _
      · split
        · exact post_of_none rfl rfl _ _
        · exact ⟨trivial, refines_of_eq rfl rfl⟩
  | modify bh data => exact post_of_none rfl rfl _ _

theorem endRequest_index {i : Nat} {ok : Bool} (h : c.endRequest i ok = some c') :
    c.SameIndex c' := by
  rw [Cache.endRequest] at h
  split at h
  · cases h
  · cases h
    split
    · rw [Cache.transfer]
      split <;> exact ⟨rfl, rfl, rfl, rfl, rfl, rfl, rfl, rfl⟩
    · exact ⟨rfl, rfl, rfl, rfl, rfl, rfl, rfl, rfl⟩

theorem outline_valid : (outline n).Valid (program requestFn) where
  shared _ _ _ _ hi _ h := ⟨indexed_exec hi h, trivial⟩
  control _ _ _ hi htop := control_exec hi htop
  interrupt c i c' hi h := by
    have hs := endRequest_index h
    refine ⟨hi.same hs, trivial, fun f htop => ?_⟩
    cases f with
    | getblkHashed dev block bh =>
        cases bh with
        | none => trivial
        | some bh =>
            refine ⟨?_, ?_⟩
            · rw [hs.dev]
              exact htop.1
            · rw [hs.blocknr]
              exact htop.2
    | _ => trivial
  stable _ _ _ _ h := h
  resume c f _ h := by
    cases f with
    | getblkHashed => exact h.elim
    | _ => trivial
  entry c f _ h := by
    cases f with
    | getblkHashed => cases h
    | _ => trivial
  deliver k v := by
    cases k <;> exact refines_of_eq rfl rfl

/-! ### The claim -/

/-- One buffer per block, `getblk` returns the buffer it was asked for, and a
buffer is only taken for another block while it is unused, unlocked and clean. -/
structure OneBuffer (requestFn : Nat → Bool) (s : State n) : Prop where
  unique : ∀ a b, s.shared.dev a ≠ 0 → s.shared.dev a = s.shared.dev b →
    s.shared.blocknr a = s.shared.blocknr b → a = b
  getblk : ∀ t f rest ch dev block c v, s.current = some t → s.stack t = f :: rest →
    f.getblkOf = some (dev, block) → exec requestFn s.shared f ch = .ret c v →
    ∃ bh, v = some bh ∧ c.dev bh = dev ∧ c.blocknr bh = block
  taken : ∀ a s' bh, step (program requestFn) s a = .next s' →
    (s'.shared.dev bh ≠ s.shared.dev bh ∨ s'.shared.blocknr bh ≠ s.shared.blocknr bh) →
    s.shared.count bh = 0 ∧ s.shared.lock bh = false ∧ s.shared.dirt bh = false

theorem bufferInit_indexed (n : Nat) (disk : Dev → BlockNr → Block) (data : Fin n → Block) :
    (bufferInit n disk data).Indexed where
  queued i := ⟨[], rfl, List.nodup_nil, fun a => by simp [Cache.queue, bufferInit]⟩
  unlinked a _ := ⟨rfl, rfl⟩
  unique a b h := absurd rfl h
  free b := by
    have hn : 0 < n := b.pos
    refine ⟨?_, ?_, ?_⟩
    · simp only [bufferInit]
      split <;> rfl
    · simp only [bufferInit]
      split <;> rfl
    · simp only [bufferInit, hn, dif_pos, Option.isSome_some]

/-- **One buffer per block**, in every state any tasks can reach. -/
theorem oneBuffer_reaches {requestFn : Nat → Bool} {disk : Dev → BlockNr → Block}
    {data : Fin n → Block} {s s' : State n} (hidle : s.Idle)
    (hinit : s.shared = bufferInit n disk data) (hr : Reaches (step (program requestFn)) (fun _ _ => True) s s') :
    OneBuffer requestFn s' := by
  have h := outline_valid.reaches (.of_idle hidle (hinit ▸ bufferInit_indexed n disk data)) hr
  refine ⟨h.shared.unique, ?_, ?_⟩
  · intro t f rest ch dev block c v ht hf hblk hexec
    have hc : (outline n).Control (program requestFn) f (exec requestFn s'.shared f ch) :=
      control_exec h.shared (h.running t f rest ht hf)
    rw [hexec] at hc
    exact hc.2 dev block hblk
  · intro a s'' bh hs hne
    have hsame (hi : s'.shared.SameIndex s''.shared) : False := by
      rw [hi.dev, hi.blocknr] at hne
      exact hne.elim (fun h => h rfl) fun h => h rfl
    rcases step_shared hs with heq | ⟨i, hi⟩ | ⟨t, f, rest, ch, ht, hf, he⟩
    · exact (hsame (heq ▸ .refl _)).elim
    · exact (hsame (endRequest_index hi)).elim
    rcases exec_index he with hi | ⟨dev, block, b, htaken⟩
    · exact (hsame hi).elim
    obtain ⟨c, hc, -, ha⟩ := h.shared.assign htaken.notFound b
    rw [htaken.assign] at hc
    cases hc
    have hb : bh = b := by
      by_contra hne'
      rw [ha.dev, ha.blocknr, Function.update_of_ne hne', Function.update_of_ne hne'] at hne
      exact hne.elim (fun h => h rfl) fun h => h rfl
    subst hb
    exact ⟨htaken.unused, htaken.unlocked, htaken.clean⟩

/-- Two buffers, and no task in the cache yet. -/
def twoBuffers : State 2 where
  shared := bufferInit 2 (fun _ _ _ => 0) fun _ _ => 0
  stack _ := []
  current := none

/-- The hard disk has a driver. -/
def hardDisk (major : Nat) : Bool := major == 3

/-- Task 1 reads a block. While it waits for the disk, task 2 asks for the same
block and finds the buffer. -/
def sameBlockRun : List (Act 2) :=
  .start 1 (.bread 0x301 5) :: List.replicate 13 (.run .next) ++
    .start 2 (.getblk 0x301 5) :: List.replicate 3 (.run .next) ++
      [.interrupt (31, true), .resume 2, .run .next, .run .next, .resume 1, .run .next]

def sameBlock : State 2 := (run (step (program hardDisk)) twoBuffers sameBlockRun).get twoBuffers

/-- Both have got buffer 0. -/
theorem oneBuffer_reaches_sameBlock :
    sameBlock.shared.count 0 = 2 ∧ sameBlock.shared.dev 0 = 0x301 ∧
      OneBuffer hardDisk sameBlock :=
  ⟨by decide, by decide +kernel,
    oneBuffer_reaches ⟨rfl, fun _ => rfl⟩
      (show twoBuffers.shared = bufferInit 2 (fun _ _ _ => 0) fun _ _ => 0 from rfl)
      (Reaches.of_run (Outcome.eq_next (by decide) twoBuffers) (RunOk.trivial _ _ _))⟩

end LinuxKernel.V011.Fs
