import LinuxKernel.V011.Fs.DirBmap

/-!
# LinuxKernel.V011.Fs.DirLoops

**The loops of `find_entry`, `add_entry` and `empty_dir`**, from any entry on: where they
come to, and when they come to a block they cannot get.
-/

namespace LinuxKernel.V011.Fs.DirBlocks

open Dir

variable {env : Env} {s s' : State} {name : List UInt8} {b : Short} {i j k m n de entries : Nat}

/-! ### `find_entry` -/

def Matches (env : Env) (s : State) (name : List UInt8) (j : Nat) : Prop :=
  matchEntry name.length name (entry env s j) = true

/-- From entry `i` on, the search comes to a block it cannot get, with entries after it. -/
def FindsHole (env : Env) (s : State) (name : List UInt8) (entries i : Nat) : Prop :=
  ∃ k, 1 ≤ k ∧ i ≤ 64 * k ∧ k < MAX_BLOCKS ∧ ¬ Present env s k ∧ 64 * (k + 1) < entries ∧
    ∀ j, i ≤ j → j < 64 * k → Present env s (j / 64) ∧ ¬ Matches env s name j

/-- The first entry with the name, from entry `i` on. -/
def First (env : Env) (s : State) (name : List UInt8) (entries i : Nat) : Option Nat → Prop
  | some j => i ≤ j ∧ j < entries ∧ Present env s (j / 64) ∧ Matches env s name j ∧
      ∀ j', i ≤ j' → j' < j → ¬ Matches env s name j'
  | none => ∀ j, i ≤ j → j < entries → Present env s (j / 64) → ¬ Matches env s name j

/-- What is returned for entry `j`. -/
def found (env : Env) (s : State) : Option Nat → State × Option (Short × Nat)
  | some j => (s.hold (blockOf env s (j / 64)), some (blockOf env s (j / 64), j % 64))
  | none => (s, none)

theorem findLoop_done (h : entries ≤ i) (n : Nat) (bh : Option Short) :
    findLoop env name entries n s i bh de = (s.brelse? bh).bind fun s => .next (s, none) := by
  cases n with
  | zero => rfl
  | succ n => exact if_neg (Nat.not_lt.mpr h)

/-- After a block that is not there, the loop goes on without a buffer. -/
theorem findLoop_null (hn : entries ≤ i + n) : findLoop env name entries n s i none de =
    if i < entries then .panic "NULL pointer" else .next (s, none) := by
  split
  · next hi =>
    obtain ⟨n, rfl⟩ : ∃ m, n = m + 1 := Nat.exists_eq_add_of_lt (by omega : 0 < n) |>.imp
      fun m hm => by omega
    exact if_pos hi
  · next hi => exact findLoop_done (Nat.not_lt.mp hi) n none

/-- A round within a block. -/
theorem findLoop_here (hi : i < entries) (hde : de < 64) :
    findLoop env name entries (n + 1) s i (some b) de =
      if matchEntry name.length name (entryAt (s.data b) de) then .next (s, some (b, de))
      else findLoop env name entries n s (i + 1) (some b) (de + 1) := by
  rw [findLoop, if_pos hi]
  exact if_neg (Nat.not_le.mpr hde)

/-- A round at the end of a block. -/
theorem findLoop_next (hi : i < entries) (hk : i / 64 < MAX_BLOCKS) :
    findLoop env name entries (n + 1) (s.hold b) i (some b) 64 =
      if blockOf env s (i / 64) = 0 ∨ env.read (i / 64) 2 = false then
        findLoop env name entries n s (i + 64) none 64
      else
        findLoop env name entries (n + 1) (s.hold (blockOf env s (i / 64))) i
          (some (blockOf env s (i / 64))) 0 := by
  rw [findLoop, if_pos hi]
  simp only [DIR_ENTRIES_PER_BLOCK, Nat.le_refl, if_true, brelse_hold, Outcome.bind_next,
    bmap_eq hk]
  split
  · rfl
  · exact (findLoop_here hi (by decide)).symm

/-- The outcome of the search from entry `i` on. -/
def Searched (env : Env) (s : State) (name : List UInt8) (entries i : Nat)
    (o : Outcome (State × Option (Short × Nat))) : Prop :=
  FindsHole env s name entries i ∧ o = .panic "NULL pointer" ∨
    ¬ FindsHole env s name entries i ∧ (o = .panic "_bmap: block>big" ∨
      ∃ r, First env s name entries i r ∧ o = .next (found env s r))

/-- Nothing is left to search. -/
theorem Searched.done (hi : entries ≤ i) :
    Searched env s name entries i (.next (s, none)) := by
  refine Or.inr ⟨?_, Or.inr ⟨none, fun j hj hlt => by omega, rfl⟩⟩
  rintro ⟨k, -, hk, -, -, hlt, -⟩
  omega

/-- The entry is the one. -/
theorem Searched.matched (hi : i < entries) (hm : Present env s (i / 64))
    (h : Matches env s name i) :
    Searched env s name entries i (.next (found env s (some i))) := by
  refine Or.inr ⟨?_, Or.inr ⟨some i, ⟨Nat.le_refl i, hi, hm, h, fun j' hle hlt => by omega⟩, rfl⟩⟩
  rintro ⟨k, -, hk, -, hno, -, hall⟩
  by_cases hik : i = 64 * k
  · exact hno (by rwa [hik, Nat.mul_div_cancel_left k (by decide)] at hm)
  · exact (hall i (Nat.le_refl i) (by omega)).2 h

/-- The entry is not the one. -/
theorem Searched.step {o : Outcome (State × Option (Short × Nat))}
    (hm : Present env s (i / 64)) (h : ¬ Matches env s name i)
    (ho : Searched env s name entries (i + 1) o) : Searched env s name entries i o := by
  have hhole : FindsHole env s name entries i ↔ FindsHole env s name entries (i + 1) := by
    constructor
    · rintro ⟨k, h1, hk, hbig, hno, hlt, hall⟩
      have hik : i ≠ 64 * k := fun he =>
        hno (by rwa [he, Nat.mul_div_cancel_left k (by decide)] at hm)
      exact ⟨k, h1, by omega, hbig, hno, hlt, fun j hj hjk => hall j (by omega) hjk⟩
    · rintro ⟨k, h1, hk, hbig, hno, hlt, hall⟩
      refine ⟨k, h1, by omega, hbig, hno, hlt, fun j hj hjk => ?_⟩
      rcases Nat.eq_or_lt_of_le hj with rfl | hlt'
      · exact ⟨hm, h⟩
      · exact hall j hlt' hjk
  rw [Searched, hhole]
  refine ho.imp_right fun hr => ⟨hr.1, hr.2.imp_right ?_⟩
  rintro ⟨r, hr, hor⟩
  refine ⟨r, ?_, hor⟩
  cases r with
  | none =>
      intro j hj hlt hp
      rcases Nat.eq_or_lt_of_le hj with rfl | hlt'
      · exact h
      · exact hr j hlt' hlt hp
  | some j =>
      obtain ⟨hle, hlt, hp, hmatch, hbefore⟩ := hr
      refine ⟨by omega, hlt, hp, hmatch, fun j' hj' hlt' => ?_⟩
      rcases Nat.eq_or_lt_of_le hj' with rfl | hlt''
      · exact h
      · exact hbefore j' hlt'' hlt'

/-- The block cannot be got. -/
theorem Searched.hole (h1 : 1 ≤ k) (hbig : k < MAX_BLOCKS) (hno : ¬ Present env s k)
    (hn : entries ≤ 64 * k + n + 64) : Searched env s name entries (64 * k)
      (findLoop env name entries n s (64 * k + 64) none 64) := by
  rw [findLoop_null (by omega)]
  split
  · next hlt =>
    exact Or.inl ⟨⟨k, h1, Nat.le_refl _, hbig, hno, by omega, fun j hj hlt => by omega⟩, rfl⟩
  · next hge =>
    refine Or.inr ⟨?_, Or.inr ⟨none, fun j hj hlt hp => ?_, rfl⟩⟩
    · rintro ⟨k', -, hk', -, -, hlt, hall⟩
      by_cases hkk : k' = k
      · omega
      · have hp := (hall (64 * k) (Nat.le_refl _) (by omega)).1
        rw [Nat.mul_div_cancel_left k (by decide)] at hp
        exact hno hp
    · have hjk : j / 64 = k := by omega
      exact absurd (hjk ▸ hp) hno

/-- There can be no more blocks. -/
theorem Searched.big (hbig : MAX_BLOCKS ≤ k) :
    Searched env s name entries (64 * k) (.panic "_bmap: block>big") := by
  refine Or.inr ⟨?_, Or.inl rfl⟩
  rintro ⟨k', -, hk', hlt, -⟩
  omega

variable (name) in
/-- The search from entry `i`, which is entry `de` of block `m`. -/
theorem findLoop_spec (hm : Present env s m) (hi : i = 64 * m + de) (hde : de ≤ 64)
    (hn : entries ≤ i + n) : Searched env s name entries i
      (findLoop env name entries n (s.hold (blockOf env s m)) i (some (blockOf env s m)) de) := by
  have hdone : ∀ {n i m de}, entries ≤ i → Searched env s name entries i
      (findLoop env name entries n (s.hold (blockOf env s m)) i (some (blockOf env s m)) de) :=
    fun {n i m de} hle => by
      rw [findLoop_done hle, State.brelse?, brelse_hold]
      exact .done hle
  induction n generalizing i de m with
  | zero => exact hdone hn
  | succ n ih =>
      have hhere : ∀ {m de}, Present env s m → i = 64 * m + de → de < 64 → i < entries →
          Searched env s name entries i (findLoop env name entries (n + 1)
            (s.hold (blockOf env s m)) i (some (blockOf env s m)) de) := by
        intro m de hm hi hde hlt
        have hdiv : i / 64 = m := by omega
        have hmod : i % 64 = de := by omega
        rw [findLoop_here hlt hde]
        split
        · next hmatch =>
          have hfound : (s.hold (blockOf env s m), some (blockOf env s m, de)) =
              found env s (some i) := by rw [found, hdiv, hmod]
          rw [hfound]
          refine .matched hlt (hdiv ▸ hm) ?_
          rwa [Matches, entry_eq hdiv hmod]
        · next hmatch =>
          refine .step (hdiv ▸ hm) ?_ (ih hm (by omega) hde (by omega))
          rwa [Matches, entry_eq hdiv hmod]
      by_cases hlt : i < entries
      case neg => exact hdone (Nat.not_lt.mp hlt)
      by_cases hend : de = 64
      · obtain rfl : i = 64 * (m + 1) := by omega
        have hdiv : 64 * (m + 1) / 64 = m + 1 := Nat.mul_div_cancel_left _ (by decide)
        rw [hend]
        by_cases hbig : m + 1 < MAX_BLOCKS
        · rw [findLoop_next hlt (hdiv.symm ▸ hbig), hdiv]
          split
          · next hno =>
            refine .hole (Nat.succ_pos m) hbig (fun hp => ?_) (by omega)
            rcases hno with h0 | hread
            · exact hp.mapped h0
            · rw [hp.read] at hread
              cases hread
          · next hyes =>
            rw [not_or] at hyes
            exact hhere ⟨hbig, hyes.1, by simpa using hyes.2⟩ rfl (by decide) hlt
        · have hpanic := bmap_big env s false (Nat.not_lt.mp hbig)
          rw [findLoop, if_pos hlt]
          simp only [DIR_ENTRIES_PER_BLOCK, Nat.le_refl, if_true, brelse_hold, Outcome.bind_next,
            hdiv, hpanic, Outcome.bind_panic]
          exact .big (Nat.not_lt.mp hbig)
      · exact hhere hm hi (by omega) hlt

/-! ### `add_entry` -/

/-- Entry `j` is inside the directory and in use. -/
def Taken (env : Env) (s : State) (j : Nat) : Prop :=
  16 * j < s.dir.size ∧ (entry env s j).inode ≠ 0

theorem addHere_taken (hsize : 16 * i < s.dir.size) (h : (entryAt (s.data b) de).inode ≠ 0) :
    addHere s name i b de = (s, false) := by
  have hinside : ¬ s.dir.size ≤ i * 16 := by omega
  simp only [addHere, if_neg hinside, if_neg h]

theorem addHere_free (h : s.dir.size ≤ 16 * i ∨ (entryAt (s.data b) de).inode = 0) :
    (addHere s name i b de).2 = true := by
  rw [addHere]
  by_cases hsize : s.dir.size ≤ i * 16
  · rw [if_pos hsize]
    refine congrArg Prod.snd (if_pos ?_)
    change word (Function.update s.data b _ b) (8 * de) = 0
    rw [Function.update_self, word_putWord, if_pos rfl]
  · rw [if_neg hsize]
    exact congrArg Prod.snd (if_pos (h.resolve_left (by omega)))

theorem addHere_count : (addHere s name i b de).1.count = s.count := by
  rw [addHere]
  split <;> split <;> rfl

/-- From entry `i` on, all entries before block `k` are in use. -/
def FullTo (env : Env) (s : State) (i j : Nat) : Prop :=
  ∀ j', i ≤ j' → j' < j → Present env s (j' / 64) ∧ Taken env s j'

/-- From entry `i` on, the search for a free entry comes to a block that it has but cannot
read. -/
def AddsHole (env : Env) (s : State) (i : Nat) : Prop :=
  ∃ k, 1 ≤ k ∧ i ≤ 64 * k ∧ (∃ r, bmap env s k true = .next r ∧ r.2 ≠ 0) ∧
    env.read k 2 = false ∧ FullTo env s i (64 * k)

/-- The state in which `add_entry` comes to entry `j`, which is free, with its buffer. -/
structure Reached (env : Env) (s : State) (i j : Nat) (r : State × Short) : Prop where
  full : FullTo env s i j
  free : ¬ Taken env s j ∨ ¬ Present env s (j / 64)
  block : Present env s (j / 64) ∧ r = (s, blockOf env s (j / 64)) ∨
    j % 64 = 0 ∧ 1 ≤ j ∧ blockOf env s (j / 64) = 0 ∧ bmap env s (j / 64) true = .next r ∧ r.2 ≠ 0

/-- The outcome of the search for a free entry, from entry `i` on. -/
def Added (env : Env) (s : State) (name : List UInt8) (i : Nat)
    (o : Outcome (State × Option (Short × Nat))) : Prop :=
  AddsHole env s i ∧ o = .panic "NULL pointer" ∨
    ¬ AddsHole env s i ∧ ((∃ msg, Fine msg ∧ o = .panic msg) ∨
      (∃ s', s'.count = s.count ∧ o = .next (s', none)) ∨
      ∃ j r, i ≤ j ∧ Reached env s i j r ∧ r.1.count = s.count ∧
        o = .next ((addHere (r.1.hold r.2) name j r.2 (j % 64)).1, some (r.2, j % 64)))

/-- The entry is in use. -/
theorem Added.step {o : Outcome (State × Option (Short × Nat))}
    (hm : Present env s (i / 64)) (h : Taken env s i) (ho : Added env s name (i + 1) o) :
    Added env s name i o := by
  have hfull : ∀ {j}, FullTo env s (i + 1) j → FullTo env s i j := fun hf j' hj hlt => by
    rcases Nat.eq_or_lt_of_le hj with rfl | hlt'
    · exact ⟨hm, h⟩
    · exact hf j' hlt' hlt
  have hhole : AddsHole env s i ↔ AddsHole env s (i + 1) := by
    constructor
    · rintro ⟨k, h1, hk, ⟨r, hr, hr0⟩, hread, hf⟩
      have hik : i ≠ 64 * k := fun he => by
        rw [he, Nat.mul_div_cancel_left k (by decide)] at hm
        rw [hm.read] at hread
        cases hread
      exact ⟨k, h1, by omega, ⟨r, hr, hr0⟩, hread, fun j hj hlt => hf j (by omega) hlt⟩
    · rintro ⟨k, h1, hk, hr, hread, hf⟩
      exact ⟨k, h1, by omega, hr, hread, hfull hf⟩
  rw [Added, hhole]
  refine ho.imp_right fun hr => ⟨hr.1, hr.2.imp_right (Or.imp_right ?_)⟩
  rintro ⟨j, r, hj, hreach, hcount, ho⟩
  exact ⟨j, r, by omega, ⟨hfull hreach.full, hreach.free, hreach.block⟩, hcount, ho⟩

variable (name) in
/-- The entry is free. -/
theorem Added.here {r : State × Short} (hreach : Reached env s i i r)
    (hread : i % 64 = 0 → env.read (i / 64) 2 = true) (hcount : r.1.count = s.count) :
    Added env s name i
      (.next ((addHere (r.1.hold r.2) name i r.2 (i % 64)).1, some (r.2, i % 64))) := by
  refine Or.inr ⟨?_, Or.inr (Or.inr ⟨i, r, Nat.le_refl i, hreach, hcount, rfl⟩)⟩
  rintro ⟨k, h1, hk, -, hno, hf⟩
  by_cases hik : i = 64 * k
  · have hr := hread (by omega)
    rw [hik, Nat.mul_div_cancel_left k (by decide), hno] at hr
    cases hr
  · obtain ⟨hp, ht⟩ := hf i (Nat.le_refl i) (by omega)
    exact hreach.free.elim (fun hnt => hnt ht) fun hnp => hnp hp

/-- A round within a block. -/
theorem addLoop_here (hde : de < 64) :
    addLoop env name (n + 1) s i (some b) de =
      if (addHere s name i b de).2 then .next ((addHere s name i b de).1, some (b, de))
      else addLoop env name n (addHere s name i b de).1 (i + 1) (some b) (de + 1) := by
  rw [addLoop]
  exact if_neg (Nat.not_le.mpr hde)

/-- A round at the end of a block. -/
theorem addLoop_next (env : Env) (s : State) (name : List UInt8) (b : Short) (n i : Nat) :
    addLoop env name (n + 1) (s.hold b) i (some b) 64 =
      (bmap env s (i / 64) true).bind fun r =>
        if r.2 = 0 then .next (r.1, none)
        else if env.read (i / 64) 2 = false then addLoop env name n r.1 (i + 64) none 64
        else addLoop env name (n + 1) (r.1.hold r.2) i (some r.2) 0 := by
  rw [addLoop]
  simp only [DIR_ENTRIES_PER_BLOCK, Nat.le_refl, if_true, brelse_hold, Outcome.bind_next]
  rfl

variable (name) in
/-- The search for a free entry from entry `i`, which is entry `de` of block `m`. -/
theorem addLoop_spec (hm : Present env s m) (hi : i = 64 * m + de) (hde : de ≤ 64)
    (hn : 64 * MAX_BLOCKS < i + n) : Added env s name i
      (addLoop env name n (s.hold (blockOf env s m)) i (some (blockOf env s m)) de) := by
  induction n generalizing i de m with
  | zero =>
      have hbig := hm.small
      omega
  | succ n ih =>
      have hhere : ∀ {m de}, Present env s m → i = 64 * m + de → de < 64 →
          Added env s name i (addLoop env name (n + 1) (s.hold (blockOf env s m)) i
            (some (blockOf env s m)) de) := by
        intro m de hm hi hde
        have hdiv : i / 64 = m := by omega
        have hmod : i % 64 = de := by omega
        have hp : Present env s (i / 64) := hdiv ▸ hm
        rw [addLoop_here hde]
        by_cases ht : Taken env s i
        · have htaken : addHere (s.hold (blockOf env s m)) name i (blockOf env s m) de =
              (s.hold (blockOf env s m), false) := by
            have hne := ht.2
            rw [entry_eq hdiv hmod] at hne
            exact addHere_taken ht.1 hne
          rw [htaken]
          exact .step hp ht (ih hm (by omega) hde (by omega))
        · have hfree : (addHere (s.hold (blockOf env s m)) name i (blockOf env s m) de).2 = true := by
            refine addHere_free ?_
            rw [Taken, entry_eq hdiv hmod, not_and_or, not_not, Nat.not_lt] at ht
            exact ht
          rw [if_pos hfree, ← hmod, ← hdiv]
          exact .here name (r := (s, blockOf env s (i / 64))) ⟨fun j' hj hlt => by omega, Or.inl ht,
            Or.inl ⟨hp, rfl⟩⟩ (fun _ => hp.read) rfl
      by_cases hend : de = 64
      · obtain rfl : i = 64 * (m + 1) := by omega
        have hdiv : 64 * (m + 1) / 64 = m + 1 := Nat.mul_div_cancel_left _ (by decide)
        rw [hend, addLoop_next, hdiv]
        have hnull : ∀ t, m + 1 < MAX_BLOCKS →
            addLoop env name n t (64 * (m + 1) + 64) none 64 = .panic "NULL pointer" := by
          intro t hbig
          obtain ⟨n', rfl⟩ : ∃ n', n = n' + 1 := ⟨n - 1, by omega⟩
          rfl
        by_cases hmap : blockOf env s (m + 1) = 0
        · have hnot : ¬ Present env s (m + 1) := fun hp => hp.mapped hmap
          have hmade := bmap_made env hmap
          have hafter : ∀ k, 64 * (m + 1) ≤ 64 * k → FullTo env s (64 * (m + 1)) (64 * k) →
              k = m + 1 := fun k hle hf => by
            by_contra hne
            have hp := (hf (64 * (m + 1)) (Nat.le_refl _) (by omega)).1
            rw [hdiv] at hp
            exact hnot hp
          cases hb : bmap env s (m + 1) true with
          | disabled => exact absurd hb (bmap_ne_disabled env s (m + 1) true)
          | panic msg =>
              rw [hb] at hmade
              refine Or.inr ⟨?_, Or.inl ⟨msg, hmade, rfl⟩⟩
              rintro ⟨k, -, hk, ⟨r, hr, -⟩, -, hf⟩
              rw [hafter k hk hf, hb] at hr
              cases hr
          | next r =>
              rw [hb] at hmade
              rw [Outcome.bind_next]
              split
              · next h0 =>
                refine Or.inr ⟨?_, Or.inr (Or.inl ⟨r.1, hmade.count, rfl⟩)⟩
                rintro ⟨k, -, hk, ⟨r', hr', hr0⟩, -, hf⟩
                rw [hafter k hk hf, hb] at hr'
                cases hr'
                exact hr0 h0
              · next h0 =>
                split
                · next hread =>
                  by_cases hbig : m + 1 < MAX_BLOCKS
                  · rw [hnull _ hbig]
                    exact Or.inl ⟨⟨m + 1, Nat.succ_pos m, Nat.le_refl _, ⟨r, hb, h0⟩, hread,
                      fun j hj hlt => by omega⟩, rfl⟩
                  · rw [bmap_big env s true (Nat.not_lt.mp hbig)] at hb
                    cases hb
                · next hread =>
                  have hfree : (addHere (r.1.hold r.2) name (64 * (m + 1)) r.2 0).2 = true := by
                    refine addHere_free (Or.inr ?_)
                    change word (r.1.data r.2) 0 = 0
                    rw [hmade.zero h0, word_zero]
                  rw [addLoop_here (by decide), if_pos hfree]
                  have hreach : Reached env s (64 * (m + 1)) (64 * (m + 1)) r :=
                    ⟨fun j' hj hlt => by omega, Or.inr (hdiv.symm ▸ hnot), Or.inr ⟨by omega,
                      by omega, hdiv.symm ▸ hmap, hdiv.symm ▸ hb, h0⟩⟩
                  have hmod : 64 * (m + 1) % 64 = 0 := Nat.mul_mod_right _ _
                  have hres := Added.here name hreach
                    (fun _ => by rw [hdiv]; simpa using hread) hmade.count
                  rwa [hmod] at hres
        · by_cases hbig : m + 1 < MAX_BLOCKS
          · rw [bmap_kept hbig hmap, Outcome.bind_next, if_neg hmap]
            split
            · next hread =>
              rw [hnull _ hbig]
              exact Or.inl ⟨⟨m + 1, Nat.succ_pos m, Nat.le_refl _, ⟨_, bmap_kept hbig hmap, hmap⟩,
                hread, fun j hj hlt => by omega⟩, rfl⟩
            · next hread =>
              exact hhere ⟨hbig, hmap, by simpa using hread⟩ rfl (by decide)
          · have hpanic := fun k hk => bmap_big (k := k) env s true
              (Nat.le_trans (Nat.not_lt.mp hbig) hk)
            rw [hpanic (m + 1) (Nat.le_refl _)]
            refine Or.inr ⟨?_, Or.inl ⟨_, ⟨by decide, by decide⟩, rfl⟩⟩
            rintro ⟨k, -, hk, ⟨r, hr, -⟩, -⟩
            rw [hpanic k (by omega)] at hr
            cases hr
      · exact hhere hm hi (by omega)

/-! ### `empty_dir` -/

/-- From entry `i` on, the directory has no entry in use before a block that is not mapped. -/
def EmptyHole (env : Env) (s : State) (len i : Nat) : Prop :=
  ∃ k, 1 ≤ k ∧ i ≤ 64 * k ∧ k < MAX_BLOCKS ∧ blockOf env s k = 0 ∧ 64 * k < len ∧
    ∀ j, i ≤ j → j < 64 * k → Present env s (j / 64) ∧ (entry env s j).inode = 0

/-- The outcome of the loop of `empty_dir` from entry `i` on. -/
def Emptied (env : Env) (s : State) (len i : Nat) (o : Outcome (State × Int)) : Prop :=
  EmptyHole env s len i ∧ o = .panic "Trying to free free buffer" ∨
    ¬ EmptyHole env s len i ∧ (o = .panic "_bmap: block>big" ∨ ∃ v, o = .next (s, v))

theorem emptyLoop_done {len : Nat} (h : len ≤ i) (n : Nat) (b : Short) :
    emptyLoop env len n s i b de = (s.brelse b).bind fun s => .next (s, 1) := by
  cases n with
  | zero => rfl
  | succ n => exact if_neg (Nat.not_lt.mpr h)

/-- After a block that is not mapped, the loop releases the last buffer again. -/
theorem emptyLoop_released {len : Nat} (hb : s.count b = 0) (hn : len ≤ i + n) :
    emptyLoop env len n s i b 64 = .panic "Trying to free free buffer" := by
  have hrelse : s.brelse b = .panic "Trying to free free buffer" := if_pos hb
  by_cases hi : i < len
  · obtain ⟨n', rfl⟩ : ∃ n', n = n' + 1 := ⟨n - 1, by omega⟩
    rw [emptyLoop, if_pos hi, hrelse]
    rfl
  · rw [emptyLoop_done (Nat.not_lt.mp hi), hrelse]
    rfl

/-- A round within a block. -/
theorem emptyLoop_here {len : Nat} (hi : i < len) (hde : de < 64) :
    emptyLoop env len (n + 1) (s.hold b) i b de =
      if (entryAt (s.data b) de).inode ≠ 0 then .next (s, 0)
      else emptyLoop env len n (s.hold b) (i + 1) b (de + 1) := by
  rw [emptyLoop, if_pos hi, brelse_hold]
  exact if_neg (Nat.not_le.mpr hde)

/-- A round at the end of a block. -/
theorem emptyLoop_next {len : Nat} (hi : i < len) (hk : i / 64 < MAX_BLOCKS) :
    emptyLoop env len (n + 1) (s.hold b) i b 64 =
      if blockOf env s (i / 64) = 0 then emptyLoop env len n s (i + 64) b 64
      else if env.read (i / 64) 2 = false then .next (s, 0)
      else emptyLoop env len (n + 1) (s.hold (blockOf env s (i / 64))) i
        (blockOf env s (i / 64)) 0 := by
  conv_lhs => rw [emptyLoop, if_pos hi]
  simp only [DIR_ENTRIES_PER_BLOCK, Nat.le_refl, if_true, brelse_hold, Outcome.bind_next,
    bmap_eq hk]
  split
  · rfl
  split
  · rfl
  · have hfirst : 0 < 64 := by decide
    exact (emptyLoop_here (s := s) (b := blockOf env s (i / 64)) hi hfirst).symm

/-- The entry is free. -/
theorem Emptied.step {len : Nat} {o : Outcome (State × Int)} (hm : Present env s (i / 64))
    (h : (entry env s i).inode = 0) (ho : Emptied env s len (i + 1) o) :
    Emptied env s len i o := by
  have hhole : EmptyHole env s len i ↔ EmptyHole env s len (i + 1) := by
    constructor
    · rintro ⟨k, h1, hk, hbig, hmap, hlt, hall⟩
      have hik : i ≠ 64 * k := fun he => hm.mapped (by
        rw [he, Nat.mul_div_cancel_left k (by decide)]
        exact hmap)
      exact ⟨k, h1, by omega, hbig, hmap, hlt, fun j hj hjk => hall j (by omega) hjk⟩
    · rintro ⟨k, h1, hk, hbig, hmap, hlt, hall⟩
      refine ⟨k, h1, by omega, hbig, hmap, hlt, fun j hj hjk => ?_⟩
      rcases Nat.eq_or_lt_of_le hj with rfl | hlt'
      · exact ⟨hm, h⟩
      · exact hall j hlt' hjk
  rwa [Emptied, hhole]

/-- No later block is asked for. -/
theorem Emptied.of_stop {len : Nat} {o : Outcome (State × Int)}
    (hstop : ∀ k, i ≤ 64 * k → k < MAX_BLOCKS → blockOf env s k = 0 → 64 * k < len →
      ∃ j, i ≤ j ∧ j < 64 * k ∧ ¬ (Present env s (j / 64) ∧ (entry env s j).inode = 0))
    (ho : o = .panic "_bmap: block>big" ∨ ∃ v, o = .next (s, v)) : Emptied env s len i o := by
  refine Or.inr ⟨?_, ho⟩
  rintro ⟨k, -, hk, hbig, hmap, hlt, hall⟩
  obtain ⟨j, hj, hjk, hno⟩ := hstop k hk hbig hmap hlt
  exact hno (hall j hj hjk)

/-- `empty_dir` from entry `i`, which is entry `de` of block `m`. -/
theorem emptyLoop_spec {len : Nat} (hzero : ∀ b, s.count b = 0) (hm : Present env s m)
    (hi : i = 64 * m + de) (hde : de ≤ 64) (hn : len ≤ i + n) : Emptied env s len i
      (emptyLoop env len n (s.hold (blockOf env s m)) i (blockOf env s m) de) := by
  have hdone : ∀ {n i m de}, len ≤ i → Emptied env s len i
      (emptyLoop env len n (s.hold (blockOf env s m)) i (blockOf env s m) de) :=
    fun {n i m de} hle => by
      rw [emptyLoop_done hle, brelse_hold]
      exact .of_stop (fun k hk _ _ hlt => by omega) (Or.inr ⟨1, rfl⟩)
  induction n generalizing i de m with
  | zero => exact hdone hn
  | succ n ih =>
      have hhere : ∀ {m de}, Present env s m → i = 64 * m + de → de < 64 → i < len →
          Emptied env s len i (emptyLoop env len (n + 1) (s.hold (blockOf env s m)) i
            (blockOf env s m) de) := by
        intro m de hm hi hde hlt
        have hdiv : i / 64 = m := by omega
        have hmod : i % 64 = de := by omega
        rw [emptyLoop_here hlt hde, ← entry_eq hdiv hmod]
        split
        · next hused =>
          refine .of_stop (fun k hk _ hmap _ => ?_) (Or.inr ⟨0, rfl⟩)
          have hik : i ≠ 64 * k := fun he => hm.mapped (by
            rw [he, Nat.mul_div_cancel_left k (by decide)] at hdiv
            exact hdiv ▸ hmap)
          exact ⟨i, Nat.le_refl i, by omega, fun hp => hused hp.2⟩
        · next hfree =>
          exact .step (hdiv ▸ hm) (not_not.mp hfree) (ih hm (by omega) hde (by omega))
      by_cases hlt : i < len
      case neg => exact hdone (Nat.not_lt.mp hlt)
      by_cases hend : de = 64
      · obtain rfl : i = 64 * (m + 1) := by omega
        have hdiv : 64 * (m + 1) / 64 = m + 1 := Nat.mul_div_cancel_left _ (by decide)
        rw [hend]
        by_cases hbig : m + 1 < MAX_BLOCKS
        · rw [emptyLoop_next hlt (hdiv.symm ▸ hbig), hdiv]
          split
          · next hmap =>
            rw [emptyLoop_released (hzero _) (by omega)]
            exact Or.inl ⟨⟨m + 1, Nat.succ_pos m, Nat.le_refl _, hbig, hmap, hlt,
              fun j hj hjk => by omega⟩, rfl⟩
          · next hmap =>
            split
            · next hread =>
              refine .of_stop (fun k hk _ hmap' _ => ?_) (Or.inr ⟨0, rfl⟩)
              have hkm : k ≠ m + 1 := fun he => hmap (he ▸ hmap')
              refine ⟨64 * (m + 1), Nat.le_refl _, by omega, fun hp => ?_⟩
              have hread' := hp.1.read
              rw [hdiv, hread] at hread'
              cases hread'
            · next hread =>
              exact hhere ⟨hbig, hmap, by simpa using hread⟩ rfl (by decide) hlt
        · have hpanic := bmap_big env s false (Nat.not_lt.mp hbig)
          rw [emptyLoop, if_pos hlt]
          simp only [DIR_ENTRIES_PER_BLOCK, Nat.le_refl, if_true, brelse_hold, Outcome.bind_next,
            hdiv, hpanic, Outcome.bind_panic]
          exact .of_stop (fun k hk hsmall _ _ => by omega) (Or.inl rfl)
      · exact hhere hm hi (by omega) hlt

end LinuxKernel.V011.Fs.DirBlocks
