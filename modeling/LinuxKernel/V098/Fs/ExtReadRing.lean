import LinuxKernel.V098.Fs.ExtLookup
import LinuxKernel.V098.Fs.ExtRead

/-!
# LinuxKernel.V098.Fs.ExtReadRing

**The ring of `ext_file_read`** against the loop that takes one block after the other.

- `bytesFrom` is what both copy. It does not depend on when the requests are over.
- `Slots` says what is in the ring: the blocks from number `e` to before number `b` of the
  request, each in the slot of its number modulo `nbuf`.
- `Progress` says that what is copied and what is still to copy together are `total`.
-/

namespace LinuxKernel.V098.Fs.Ext

open FreeLists FreeList

variable (readable : Nat → Bool) (s₀ : State) (first : Int)

/-- The buffer of block number `j` of the request. -/
def entry (j : Nat) : Option Nat := lookup readable s₀ (first + j)

/-- The buffers of `n` blocks from number `a` on. -/
def entries (a n : Nat) : List Nat := (List.range' a n).filterMap (entry readable s₀ first)

/-- The block is there and cannot be read. -/
def fails : Option Nat → Bool
  | none => false
  | some n => !usable readable s₀ n

/-- What is copied of `k` blocks. -/
def bytesFrom : Nat → Int → Int → Int → List (BitVec 8)
  | 0, _, _, _ => []
  | k + 1, block, offset, left =>
      if fails readable s₀ (lookup readable s₀ block) then []
      else
        let chars := min left ((BLOCK_SIZE : Int) - offset)
        chunk s₀ (lookup readable s₀ block) offset chars ++
          bytesFrom k (block + 1) 0 (left - chars)

/-- `k` blocks hold what is left. -/
structure Need (k : Nat) (left offset : Int) : Prop where
  within : 0 ≤ offset ∧ offset < 1024
  fits : left = 0 ∧ k = 0 ∨
    0 < left ∧ 1024 * (k : Int) - 1024 < left + offset ∧ left + offset ≤ 1024 * k

variable {readable} {nbuf : Nat} {s₀ first}
variable {s : State} {r : Reading} {B e b k : Nat} {left offset : Int}

/-! ### Blocks that are left -/

theorem Need.pos (h : Need k left offset) : 0 < left ↔ 0 < k := by
  have hfits := h.fits
  have hwithin := h.within
  omega

theorem Need.next (h : Need (k + 1) left offset) :
    0 < min left ((BLOCK_SIZE : Int) - offset) ∧
      Need k (left - min left ((BLOCK_SIZE : Int) - offset)) 0 := by
  have hfits := h.fits
  have hwithin := h.within
  have hsize : (BLOCK_SIZE : Int) = 1024 := rfl
  rw [hsize]
  exact ⟨by omega, ⟨by decide, by omega⟩⟩

theorem chunk_congr (h : During readable s₀ s) (bh : Option Nat) (offset chars : Int) :
    chunk s bh offset chars = chunk s₀ bh offset chars := by
  unfold chunk
  rw [h.data]

theorem length_chunk (s : State) (bh : Option Nat) {offset chars : Int} :
    (chunk s bh offset chars).length = chars.toNat := by
  cases bh with
  | none => exact List.length_replicate
  | some n => exact (List.length_map ..).trans List.length_range

theorem goes_startRead (h : During readable s₀ s) (bh : Option Nat) :
    Goes readable s₀ s (startRead readable s bh) (fun _ => 0) ∧
      ∀ n, bh = some n → Asked readable (startRead readable s bh) n := by
  cases bh with
  | none => exact ⟨Goes.refl h, fun n hn => by cases hn⟩
  | some n =>
      unfold startRead
      dsimp only
      split
      next hup =>
        refine ⟨Goes.refl h, fun m hm => ?_⟩
        obtain rfl := Option.some.inj hm
        exact .inl fun hs => by rw [uptodate_iff.mp hup] at hs; cases hs
      next =>
        refine ⟨goes_llRwBlock h n, fun m hm => ?_⟩
        obtain rfl := Option.some.inj hm
        exact asked_llRwBlock s n

/-- Whoever waits for what has been asked for knows whether the block fails. -/
theorem failed_wait (h : During readable s₀ s) (bh : Option Nat)
    (ha : ∀ n, bh = some n → Asked readable s n) :
    Goes readable s₀ s (bh.elim s (waitOnBuffer readable s)) (fun _ => 0) ∧
      failed (bh.elim s (waitOnBuffer readable s)) bh = fails readable s₀ bh := by
  cases bh with
  | none => exact ⟨Goes.refl h, rfl⟩
  | some n =>
      exact ⟨goes_waitOnBuffer h n,
        congrArg Bool.not (uptodate_waitOnBuffer h (ha n rfl))⟩

/-! ### One block at a time -/

theorem plainLoop_eq (sb : Super) {p : Plain} (h : During readable s₀ p.s) (hneed : Need k p.left p.offset)
    {fuel : Nat} (hfuel : k < fuel) :
    ∃ p', plainLoop sb readable fuel p = some p' ∧
      p'.out = p.out ++ bytesFrom readable s₀ k p.block p.offset p.left := by
  induction k generalizing p fuel with
  | zero =>
      obtain ⟨fuel, rfl⟩ := Nat.exists_eq_add_one_of_ne_zero (Nat.ne_of_gt hfuel)
      refine ⟨p, ?_, (List.append_nil _).symm⟩
      have := hneed.pos
      rw [plainLoop, if_pos (by omega)]
  | succ k ih =>
      obtain ⟨fuel, rfl⟩ := Nat.exists_eq_add_one_of_ne_zero (Nat.ne_of_gt (Nat.zero_lt_of_lt hfuel))
      have hpos : 0 < p.left := hneed.pos.mpr (Nat.succ_pos k)
      obtain ⟨hbh, hget⟩ := extGetblk_false sb h p.block
      obtain ⟨hstart, hasked⟩ := goes_startRead hget.during (lookup readable s₀ p.block)
      obtain ⟨hwait, hfails⟩ := failed_wait hstart.during _ hasked
      rw [plainLoop, if_neg (by omega)]
      dsimp only
      rw [hbh, hfails, bytesFrom]
      split
      · exact ⟨_, rfl, (List.append_nil _).symm⟩
      · have hdrop := goes_brelse hwait.during (lookup readable s₀ p.block)
        obtain ⟨p', hp', hout⟩ := ih (p := ⟨_, p.block + 1, _, 0, _⟩) hdrop.during hneed.next.2
          (Nat.lt_of_succ_lt_succ hfuel)
        refine ⟨p', hp', hout.trans ?_⟩
        rw [chunk_congr hwait.during, List.append_assoc]

/-! ### The ring -/

theorem nextSlot_mod (h : 0 < nbuf) (j : Nat) : nextSlot nbuf (j % nbuf) = (j + 1) % nbuf := by
  have hlt := Nat.mod_lt j h
  unfold nextSlot
  rw [← Nat.mod_add_mod j nbuf 1]
  split
  next heq => rw [heq, Nat.mod_self]
  next hne => exact (Nat.mod_eq_of_lt (by omega)).symm

/-- Less than `nbuf` apart, two numbers share a slot only if they are equal. -/
theorem slot_inj {i j : Nat} (hle : i ≤ j) (hlt : j < i + nbuf) (h : i % nbuf = j % nbuf) :
    i = j := by
  obtain ⟨d, rfl⟩ := Nat.exists_eq_add_of_le hle
  have hd : d % nbuf = 0 := by
    have hmod : i + 0 ≡ i + d [MOD nbuf] := h
    exact (Nat.ModEq.add_left_cancel' i hmod).symm
  rw [Nat.mod_eq_of_lt (by omega)] at hd
  omega

theorem entries_succ (a n : Nat) :
    entries readable s₀ first a (n + 1) =
      entries readable s₀ first a n ++ (entry readable s₀ first (a + n)).toList := by
  unfold entries
  rw [List.range'_concat, Nat.one_mul, List.filterMap_append, List.filterMap_cons]
  cases entry readable s₀ first (a + n) <;> rfl

theorem entries_cons (a n : Nat) :
    entries readable s₀ first a (n + 1) =
      (entry readable s₀ first a).toList ++ entries readable s₀ first (a + 1) n := by
  unfold entries
  rw [List.range'_succ, List.filterMap_cons]
  cases entry readable s₀ first a <;> rfl

theorem count_toList (bh : Option Nat) (m : Nat) : (bh.toList.count m : Int) = bump bh 1 m := by
  cases bh with
  | none => rfl
  | some n =>
      rw [Option.toList_some, List.count_singleton, bump]
      by_cases h : n = m <;> simp [h]

/-- What the loop has taken and what it has in the ring. `N` is what `blocks` was at first. -/
structure Slots (readable : Nat → Bool) (nbuf : Nat) (s₀ : State) (first N : Int) (e b : Nat)
    (r : Reading) : Prop where
  during : During readable s₀ r.s
  slot : ∀ j, e ≤ j → j < b → r.buflist (j % nbuf) = entry readable s₀ first j
  asked : ∀ j, e ≤ j → j < b → ∀ n, entry readable s₀ first j = some n → Asked readable r.s n
  bhb : r.bhb = b % nbuf
  bhe : r.bhe = e % nbuf
  le : e ≤ b
  room : b ≤ e + nbuf
  block : r.block = first + b
  blocks : r.blocks = N - b
  count : ∀ m, r.s.count m = s₀.count m + (entries readable s₀ first e (b - e)).count m
  got : r.got = entries readable s₀ first 0 b
  released : r.released = entries readable s₀ first 0 e

variable {N : Int}

/-- Requests go on. -/
theorem Slots.goes {q : Reading} (h : Slots readable nbuf s₀ first N e b r)
    (hg : Goes readable s₀ r.s s fun _ => 0) (hr : q = { r with s := s, turns := q.turns }) :
    Slots readable nbuf s₀ first N e b q := by
  rw [hr]
  exact ⟨hg.during, h.slot, fun j he hb n hn => hg.asked n (h.asked j he hb n hn), h.bhb, h.bhe,
    h.le, h.room, h.block, h.blocks, fun m => (hg.count m).trans ((Int.add_zero _).trans (h.count m)),
    h.got, h.released⟩

theorem Slots.fill (sb : Super) (h : Slots readable nbuf s₀ first N e b r) (hroom : b < e + nbuf) :
    Slots readable nbuf s₀ first N e (b + 1) (fill sb readable nbuf r) := by
  have hle := h.le
  obtain ⟨hbh, hget⟩ := extGetblk_false sb h.during r.block
  have hentry : (extGetblk sb readable r.s r.block false).2 = entry readable s₀ first b := by
    rw [hbh, h.block]
    rfl
  rw [h.block] at hget
  obtain ⟨hstart, hasked⟩ := goes_startRead hget.during (entry readable s₀ first b)
  have hgoes := hget.trans (d := bump (entry readable s₀ first b) 1) hstart fun _ =>
    (Int.add_zero _).symm
  have hfill : (Ext.fill sb readable nbuf r).s = startRead readable
      (extGetblk sb readable r.s (first + b) false).1 (entry readable s₀ first b) := by
    rw [Ext.fill, hentry, h.block]
  refine ⟨?_, ?_, ?_, ?_, h.bhe, by omega, hroom, ?_, ?_, ?_, ?_, h.released⟩
  · rw [hfill]
    exact hgoes.during
  · intro j hj hlt
    change Function.update r.buflist r.bhb _ (j % nbuf) = _
    rw [Function.update_apply, h.bhb]
    split
    next heq => rw [hentry, slot_inj (by omega) (by omega) heq]
    next hne =>
      refine h.slot j hj (Nat.lt_of_le_of_ne (Nat.le_of_lt_succ hlt) fun heq => hne ?_)
      rw [heq]
  · intro j hj hlt n hn
    rw [hfill]
    by_cases hjb : j = b
    · exact hasked n (hjb ▸ hn)
    · exact hgoes.asked n (h.asked j hj (by omega) n hn)
  · change nextSlot nbuf r.bhb = _
    rw [h.bhb, nextSlot_mod (by omega)]
  · change r.block + 1 = _
    rw [h.block]
    omega
  · change r.blocks - 1 = _
    rw [h.blocks]
    omega
  · intro m
    rw [hfill, hgoes.count, h.count, Nat.sub_add_comm hle, entries_succ, List.count_append,
      Nat.add_sub_cancel' hle, Int.natCast_add, count_toList, Int.add_assoc]
  · change r.got ++ _ = _
    rw [h.got, hentry, entries_succ, Nat.zero_add]

theorem Slots.dropSlot (h : Slots readable nbuf s₀ first N e b r) (hlt : e < b) :
    Slots readable nbuf s₀ first N (e + 1) b (dropSlot readable nbuf r) := by
  have hroom := h.room
  have hslot : r.buflist r.bhe = entry readable s₀ first e := by
    rw [h.bhe]
    exact h.slot e (Nat.le_refl e) hlt
  have hgoes := goes_brelse h.during (r.buflist r.bhe)
  have hbe : b - e = b - (e + 1) + 1 := by omega
  refine ⟨hgoes.during, fun j hj hjb => h.slot j (by omega) hjb,
    fun j hj hjb n hn => hgoes.asked n (h.asked j (by omega) hjb n hn), h.bhb, ?_, hlt, by omega,
    h.block, h.blocks, fun m => ?_, h.got, ?_⟩
  · change nextSlot nbuf r.bhe = _
    rw [h.bhe, nextSlot_mod (by omega)]
  · have hcount := h.count m
    rw [hbe, entries_cons, List.count_append, Int.natCast_add, count_toList] at hcount
    have hdrop := hgoes.count m
    rw [hslot] at hdrop
    have hbump : bump (entry readable s₀ first e) (-1) m = -bump (entry readable s₀ first e) 1 m := by
      unfold bump
      split <;> rfl
    change (brelse readable r.s (r.buflist r.bhe)).count m = _
    rw [hslot]
    omega
  · change r.released ++ _ = _
    rw [h.released, hslot, entries_succ, Nat.zero_add]

/-- After a block that fails the whole ring is released. -/
theorem Slots.drain (h : Slots readable nbuf s₀ first N e b r) (hlt : e < b) {n : Nat}
    (hn : b - e ≤ n) :
    Slots readable nbuf s₀ first N b b (drain readable nbuf n r) ∧
      (drain readable nbuf n r).out = r.out ∧ (drain readable nbuf n r).read = r.read ∧
      (drain readable nbuf n r).fPos = r.fPos := by
  induction n generalizing e r with
  | zero => omega
  | succ n ih =>
      have hdrop := h.dropSlot hlt
      have hroom := h.room
      unfold Ext.drain
      dsimp only
      split
      next heq =>
        rw [hdrop.bhe, hdrop.bhb] at heq
        obtain rfl := slot_inj hlt (by omega) heq
        exact ⟨hdrop, rfl, rfl, rfl⟩
      next hne =>
        rw [hdrop.bhe, hdrop.bhb] at hne
        have hlt' : e + 1 < b := Nat.lt_of_le_of_ne hlt fun heq => hne (heq ▸ rfl)
        exact ih hdrop hlt' (by omega)

/-- What has been copied and what is still to copy. -/
structure Progress (readable : Nat → Bool) (s₀ : State) (first : Int) (B : Nat)
    (total : List (BitVec 8)) (fPos₀ : Int) (e : Nat) (r : Reading) : Prop where
  le : e ≤ B
  ok : ∀ j < e, fails readable s₀ (entry readable s₀ first j) = false
  need : Need (B - e) r.left r.offset
  total : r.out ++ bytesFrom readable s₀ (B - e) (first + e) r.offset r.left = total
  read : r.read = r.out.length
  fPos : r.fPos = fPos₀ + r.read

variable {total : List (BitVec 8)} {fPos₀ : Int}

theorem chunkLength_eq (r : Reading) :
    chunkLength r = min r.left ((BLOCK_SIZE : Int) - r.offset) := by
  unfold chunkLength
  split <;> omega

theorem Progress.take (h : Progress readable s₀ first B total fPos₀ e r)
    (hs : Slots readable nbuf s₀ first N e b r) (hlt : e < b) (heB : e < B)
    (hok : fails readable s₀ (entry readable s₀ first e) = false) :
    Progress readable s₀ first B total fPos₀ (e + 1) (take readable nbuf r) := by
  obtain ⟨k, hk⟩ : ∃ k, B - e = k + 1 := ⟨B - e - 1, by omega⟩
  have hk' : B - (e + 1) = k := by omega
  have hneed := h.need
  rw [hk] at hneed
  have hchars := chunkLength_eq r
  have hslot : r.buflist r.bhe = entry readable s₀ first e := by
    rw [hs.bhe]
    exact hs.slot e (Nat.le_refl e) hlt
  have hpos := hneed.next.1
  have hlen : ((chunk r.s (r.buflist r.bhe) r.offset (chunkLength r)).length : Int) =
      chunkLength r := by
    rw [length_chunk, Int.toNat_of_nonneg (by omega)]
  refine ⟨heB, fun j hj => ?_, ?_, ?_, ?_, ?_⟩
  · obtain hj | rfl := Nat.lt_succ_iff_lt_or_eq.mp hj
    · exact h.ok j hj
    · exact hok
  · rw [hk']
    change Need k (r.left - chunkLength r) 0
    rw [hchars]
    exact hneed.next.2
  · have htotal := h.total
    rw [hk, bytesFrom, show lookup readable s₀ (first + e) = entry readable s₀ first e from rfl,
      hok, if_neg Bool.false_ne_true] at htotal
    dsimp only at htotal
    rw [← chunk_congr hs.during, ← hslot] at htotal
    rw [hk', ← htotal]
    change (r.out ++ chunk r.s (r.buflist r.bhe) r.offset (chunkLength r)) ++
      bytesFrom readable s₀ k (first + (e + 1 : Nat)) 0 (r.left - chunkLength r) = _
    rw [List.append_assoc, hchars, Int.natCast_succ, Int.add_assoc]
  · change r.read + chunkLength r =
      ((r.out ++ chunk r.s (r.buflist r.bhe) r.offset (chunkLength r)).length : Int)
    rw [List.length_append, Int.natCast_add, hlen, h.read]
  · change r.fPos + chunkLength r = fPos₀ + (r.read + chunkLength r)
    rw [h.fPos]
    omega

theorem Slots.take (h : Slots readable nbuf s₀ first N e b r) (hlt : e < b) :
    Slots readable nbuf s₀ first N (e + 1) b (take readable nbuf r) := by
  have hdrop := h.dropSlot hlt
  exact ⟨hdrop.during, hdrop.slot, hdrop.asked, hdrop.bhb, hdrop.bhe, hdrop.le, hdrop.room,
    hdrop.block, hdrop.blocks, hdrop.count, hdrop.got, hdrop.released⟩

/-! ### The loop -/

/-- At the head of the loop. -/
structure Head (readable : Nat → Bool) (nbuf : Nat) (s₀ : State) (first N : Int) (B : Nat)
    (total : List (BitVec 8)) (fPos₀ : Int) (e b : Nat) (r : Reading) : Prop where
  slots : Slots readable nbuf s₀ first N e b r
  progress : Progress readable s₀ first B total fPos₀ e r
  room : b < e + nbuf
  more : e < B
  normal : N = B → b ≤ B

/-- Behind the loop: a block has failed and nothing is in the ring, or all blocks are copied, and
what has been fetched beyond them is still in it. -/
structure Behind (readable : Nat → Bool) (nbuf : Nat) (s₀ : State) (first N : Int) (B : Nat)
    (total : List (BitVec 8)) (fPos₀ : Int) (r : Reading) : Prop where
  out : r.out = total
  read : r.read = r.out.length
  fPos : r.fPos = fPos₀ + r.read
  ring : (∃ e < B, fails readable s₀ (entry readable s₀ first e) = true) ∧
      (∃ b, Slots readable nbuf s₀ first N b b r) ∨
    (∀ e < B, fails readable s₀ (entry readable s₀ first e) = false) ∧
      ∃ b, Slots readable nbuf s₀ first N B b r ∧ (N = B → b = B) ∧ (N < 0 → b = B + nbuf - 1)

/-- How many turns are still to come, at most. -/
def measure (nbuf B e b : Nat) : Nat := (B - e) * (nbuf + 1) + (e + nbuf - b)

/-- The part of a turn behind `continue`. -/
theorem process {b' : Nat} {t : Reading × Bool}
    (hs : Slots readable nbuf s₀ first N e b' r)
    (hp : Progress readable s₀ first B total fPos₀ e r) (hlt : e < b') (heB : e < B)
    (hN : N = B → b' ≤ B) (hfull : N < 0 → b' = e + nbuf)
    (ht : t = if failed ((r.buflist r.bhe).elim r.s (waitOnBuffer readable r.s)) (r.buflist r.bhe)
      then (drain readable nbuf nbuf
        { r with s := (r.buflist r.bhe).elim r.s (waitOnBuffer readable r.s) }, true)
      else (take readable nbuf
        { r with s := (r.buflist r.bhe).elim r.s (waitOnBuffer readable r.s) },
        decide ((take readable nbuf
          { r with s := (r.buflist r.bhe).elim r.s (waitOnBuffer readable r.s) }).left ≤ 0))) :
    t.2 = false ∧ Head readable nbuf s₀ first N B total fPos₀ (e + 1) b' t.1 ∨
      t.2 = true ∧ Behind readable nbuf s₀ first N B total fPos₀ t.1 := by
  have hroom := hs.room
  have hslot : r.buflist r.bhe = entry readable s₀ first e := by
    rw [hs.bhe]
    exact hs.slot e (Nat.le_refl e) hlt
  obtain ⟨hwait, hfails⟩ := failed_wait hs.during (r.buflist r.bhe) fun n hn =>
    hs.asked e (Nat.le_refl e) hlt n (hslot ▸ hn)
  have hs' := hs.goes (q := { r with s := (r.buflist r.bhe).elim r.s (waitOnBuffer readable r.s) })
    hwait rfl
  have hp' : Progress readable s₀ first B total fPos₀ e
      { r with s := (r.buflist r.bhe).elim r.s (waitOnBuffer readable r.s) } :=
    ⟨hp.le, hp.ok, hp.need, hp.total, hp.read, hp.fPos⟩
  rw [hfails] at ht
  cases hf : fails readable s₀ (r.buflist r.bhe) with
  | true =>
      rw [hf, if_pos rfl] at ht
      obtain ⟨hdrain, hout, hread, hpos⟩ := hs'.drain hlt (n := nbuf) (by omega)
      obtain ⟨k, hk⟩ : ∃ k, B - e = k + 1 := ⟨B - e - 1, by omega⟩
      have htotal := hp.total
      rw [hslot] at hf
      rw [hk, bytesFrom, show lookup readable s₀ (first + e) = entry readable s₀ first e from rfl,
        hf, if_pos rfl, List.append_nil] at htotal
      rw [ht]
      refine .inr ⟨rfl, hout.trans htotal, ?_, ?_, .inl ⟨⟨e, heB, hf⟩, b', hdrain⟩⟩
      · rw [hread, hout]
        exact hp.read
      · rw [hpos, hread]
        exact hp.fPos
  | false =>
      rw [hf, if_neg Bool.false_ne_true] at ht
      rw [hslot] at hf
      have hst := hs'.take hlt
      have hpt := hp'.take hs' hlt heB hf
      have hpos := hpt.need.pos
      rw [ht]
      by_cases hmore : e + 1 < B
      · refine .inl ⟨decide_eq_false ?_, hst, hpt, by omega, hmore, hN⟩
        exact Int.not_le.mpr (hpos.mpr (by omega))
      · obtain rfl : B = e + 1 := by omega
        have htotal := hpt.total
        rw [Nat.sub_self, bytesFrom, List.append_nil] at htotal
        refine .inr ⟨decide_eq_true ?_, htotal, hpt.read, hpt.fPos,
          .inr ⟨fun j hj => hpt.ok j hj, b', hst, fun hn => ?_, fun hn => ?_⟩⟩
        · exact Int.not_lt.mp fun h => absurd (hpos.mp h) (by omega)
        · have := hN hn
          omega
        · have := hfull hn
          omega

theorem goes_settle (h : During readable s₀ s) (which : Nat → Bool) :
    Goes readable s₀ s (settle readable which s) fun _ => 0 := by
  have hbuffer : ∀ n, (settle readable which s).buffer n =
      (if which n then (s.buffer n).complete readable n else s.buffer n) := fun _ => rfl
  refine ⟨⟨?_, fun n hn => ?_, fun n hn => ?_⟩, fun n ha => ?_, fun _ => (Int.add_zero _).symm⟩
  · unfold settle
    rw [h.rest]
  · rw [uptodate_iff, hbuffer] at hn
    split at hn
    · exact h.complete n hn
    · exact h.usable n (uptodate_iff.mpr hn)
  · have hup := uptodate_iff.mp (h.kept n hn)
    rw [uptodate_iff, hbuffer, hup]
    split <;> rfl
  · unfold Asked
    rw [hbuffer]
    split
    · by_contra hno
      obtain ⟨hstale, hread⟩ := not_or.mp hno
      exact (complete_stale (not_not.mp hstale)).elim
        (fun hold => ha.elim (fun hne => hne hold) hread) hread
    · exact ha

/-- One turn of the loop. -/
theorem turn_spec (sb : Super) (arrived : Nat → Nat → Bool)
    (h : Head readable nbuf s₀ first N B total fPos₀ e b r)
    (hN : N = B ∨ N < 0) :
    ((turn sb readable nbuf arrived r).2 = false ∧
      ∃ e' b', Head readable nbuf s₀ first N B total fPos₀ e' b'
        (turn sb readable nbuf arrived r).1 ∧ measure nbuf B e' b' < measure nbuf B e b) ∨
      (turn sb readable nbuf arrived r).2 = true ∧
        Behind readable nbuf s₀ first N B total fPos₀ (turn sb readable nbuf arrived r).1 := by
  have hroom := h.room
  have hle := h.slots.le
  have heB := h.more
  -- a block that is taken makes up for the one that is fetched in its place
  have hmeasure : ∀ b', b ≤ b' → measure nbuf B (e + 1) b' < measure nbuf B e b := by
    intro b' hb'
    have hmul : (B - e) * (nbuf + 1) = (B - (e + 1)) * (nbuf + 1) + (nbuf + 1) := by
      rw [← Nat.succ_mul]
      exact congrArg (· * (nbuf + 1)) (by omega)
    unfold measure
    omega
  have hs := h.slots.goes (q := { r with
      s := settle readable (arrived r.turns) r.s, turns := r.turns + 1 })
    (goes_settle h.slots.during _) rfl
  have hp : Progress readable s₀ first B total fPos₀ e
      { r with s := settle readable (arrived r.turns) r.s, turns := r.turns + 1 } :=
    ⟨h.progress.le, h.progress.ok, h.progress.need, h.progress.total, h.progress.read,
      h.progress.fPos⟩
  unfold turn
  generalize { r with s := settle readable (arrived r.turns) r.s, turns := r.turns + 1 } = r₁
    at hs hp ⊢
  unfold body
  dsimp only
  have hblocks := hs.blocks
  by_cases hb : r₁.blocks ≠ 0
  · have hfill := hs.fill sb hroom
    have hpf : Progress readable s₀ first B total fPos₀ e (fill sb readable nbuf r₁) :=
      ⟨hp.le, hp.ok, hp.need, hp.total, hp.read, hp.fPos⟩
    have hbB : N = B → b + 1 ≤ B := by
      intro hn
      have := h.normal hn
      omega
    rw [if_pos hb]
    by_cases hfull : b + 1 = e + nbuf
    · have heq : (fill sb readable nbuf r₁).bhb = (fill sb readable nbuf r₁).bhe := by
        rw [hfill.bhb, hfill.bhe, hfull, Nat.add_mod_right]
      rw [if_neg fun hc => hc.2 heq]
      obtain ⟨hf, hhead⟩ | hdone := process hfill hpf (by omega) heB hbB (fun _ => hfull) rfl
      · exact .inl ⟨hf, e + 1, b + 1, hhead, hmeasure _ (Nat.le_succ b)⟩
      · exact .inr hdone
    · have hne : (fill sb readable nbuf r₁).bhb ≠ (fill sb readable nbuf r₁).bhe := by
        rw [hfill.bhb, hfill.bhe]
        intro heq
        have := slot_inj (by omega) (by omega) heq.symm
        omega
      have hleft := hpf.need.pos
      rw [if_pos ⟨hb, hne⟩]
      refine .inl ⟨decide_eq_false ?_, e, b + 1, ⟨hfill, hpf, by omega, heB, hbB⟩, ?_⟩
      · exact Int.not_le.mpr (hleft.mpr (by omega))
      · unfold measure
        omega
  · have hb0 := not_not.mp hb
    have hnB : N = B := hN.resolve_right (by omega)
    have hbB := h.normal hnB
    rw [if_neg hb, if_neg fun hc => hb hc.1]
    obtain ⟨hf, hhead⟩ | hdone := process hs hp (by omega) heB h.normal (fun hn => by omega) rfl
    · exact .inl ⟨hf, e + 1, b, hhead, hmeasure _ (Nat.le_refl b)⟩
    · exact .inr hdone

/-- The whole loop. -/
theorem loop_spec (sb : Super) (arrived : Nat → Nat → Bool) {fuel : Nat}
    (h : Head readable nbuf s₀ first N B total fPos₀ e b r)
    (hN : N = B ∨ N < 0) (hfuel : measure nbuf B e b < fuel) :
    ∃ r', loop sb readable nbuf arrived fuel r = some r' ∧
      Behind readable nbuf s₀ first N B total fPos₀ r' := by
  induction fuel generalizing e b r with
  | zero => exact absurd hfuel (Nat.not_lt_zero _)
  | succ fuel ih =>
      rw [loop]
      obtain ⟨hf, e', b', hhead, hlt⟩ | ⟨hf, hdone⟩ :=
        turn_spec sb arrived h hN
      · rw [hf, if_neg Bool.false_ne_true]
        exact ih hhead (by omega)
      · rw [hf, if_pos rfl]
        exact ⟨_, rfl, hdone⟩

/-! ### `ext_file_read` -/

/-- A call has read what the plain loop reads, and has released what it has taken. -/
structure ReadsPlain (s : State) (res : Result) (p : Int × List (BitVec 8) × Int) : Prop where
  same : (res.ret, res.out, res.fPos) = p
  count : ∀ n, res.s.count n = s.count n
  released : res.released = res.got

/-- How many blocks the bytes are in. -/
def blockCount (left offset : Int) : Nat := ((left + offset + 1023) / 1024).toNat

/-- The sum for `blocks` stays below 2^31, or one of the blocks that are wanted fails, or the
`nbuf - 1` blocks behind them are holes. -/
def Tidy (readable : Nat → Bool) (nbuf : Nat) (s : State) (fPos left : Int) : Prop :=
  left + fPos % 1024 + 1023 < 2 ^ 31 ∨
    (∃ j < blockCount left (fPos % 1024),
      fails readable s (entry readable s (fPos / 1024) j) = true) ∨
    ∀ j < nbuf - 1, entry readable s (fPos / 1024) (blockCount left (fPos % 1024) + j) = none

theorem wanted_lt (iSize fPos count : Int) : wanted iSize fPos count < 2 ^ 31 := by
  have hlt : int32 (iSize - fPos) < 2 ^ 31 := Int.bmod_lt (by decide)
  unfold wanted
  dsimp only
  split <;> split <;> omega

theorem need_blockCount (hleft : 0 < left) (hoffset : 0 ≤ offset ∧ offset < 1024) :
    Need (blockCount left offset) left offset := by
  unfold blockCount
  exact ⟨hoffset, .inr ⟨hleft, by omega, by omega⟩⟩

theorem blocksFor_cases (hleft : 0 < left) (hlt : left < 2 ^ 31)
    (hoffset : 0 ≤ offset ∧ offset < 1024) :
    (left + offset + 1023 < 2 ^ 31 → blocksFor left offset = blockCount left offset) ∧
      (¬ left + offset + 1023 < 2 ^ 31 → blocksFor left offset < 0) := by
  have hsum : left + offset + (BLOCK_SIZE : Int) - 1 = left + offset + 1023 := by
    have hsize : (BLOCK_SIZE : Int) = 1024 := rfl
    omega
  have hsize : (BLOCK_SIZE : Int) = 1024 := rfl
  unfold blocksFor blockCount
  rw [hsum, hsize]
  constructor
  · intro hsmall
    rw [int32_eq (by omega) hsmall, Int.tdiv_eq_ediv_of_nonneg (by omega)]
    omega
  · intro hbig
    rw [int32_of_le (by omega) (by omega)]
    have hneg : (left + offset + 1023 - 2 ^ 32).tdiv 1024 =
        -((2 ^ 32 - (left + offset + 1023)) / 1024) := by
      rw [← Int.neg_sub, Int.neg_tdiv, Int.tdiv_eq_ediv_of_nonneg (by omega)]
    rw [hneg]
    omega

theorem entries_eq_nil (a n : Nat) :
    entries readable s₀ first a n = [] ↔ ∀ j < n, entry readable s₀ first (a + j) = none := by
  unfold entries
  rw [List.filterMap_eq_nil_iff]
  constructor
  · intro h j hj
    exact h _ (List.mem_range'_1.mpr ⟨by omega, by omega⟩)
  · intro h j hj
    obtain ⟨hlo, hhi⟩ := List.mem_range'_1.mp hj
    have hj' := h (j - a) (by omega)
    rwa [Nat.add_sub_cancel' hlo] at hj'

/-- What is in the ring has not been released. -/
theorem Slots.balanced_iff (h : Slots readable nbuf s₀ first N e b r) :
    ((∀ n, r.s.count n = s₀.count n) ∧ r.released = r.got) ↔
      entries readable s₀ first e (b - e) = [] := by
  have hle := h.le
  have hgot : entries readable s₀ first 0 b =
      entries readable s₀ first 0 e ++ entries readable s₀ first e (b - e) := by
    unfold entries
    rw [← List.filterMap_append]
    have happend := List.range'_append_1 (s := 0) (m := e) (n := b - e)
    rw [Nat.zero_add, Nat.add_sub_cancel' hle] at happend
    rw [happend]
  rw [h.got, h.released, hgot, List.self_eq_append_right]
  constructor
  · exact fun hb => hb.2
  · intro hnil
    refine ⟨fun n => ?_, hnil⟩
    rw [h.count, hnil]
    exact Int.add_zero _

theorem head_start (hn : 0 < nbuf) (s : State) {fPos left : Int} (hleft : 0 < left) :
    Head readable nbuf s (fPos / 1024) (blocksFor left (fPos % 1024))
      (blockCount left (fPos % 1024))
      (bytesFrom readable s (blockCount left (fPos % 1024)) (fPos / 1024) (fPos % 1024) left) fPos
      0 0 (startReading s fPos left) := by
  have hoffset : 0 ≤ fPos % 1024 ∧ fPos % 1024 < 1024 :=
    ⟨Int.emod_nonneg _ (by decide), Int.emod_lt_of_pos _ (by decide)⟩
  have hneed := need_blockCount hleft hoffset
  have hslots : Slots readable nbuf s (fPos / 1024) (blocksFor left (fPos % 1024)) 0 0
      (startReading s fPos left) := by
    refine ⟨During.refl s, fun j _ hj => absurd hj (Nat.not_lt_zero j),
      fun j _ hj => absurd hj (Nat.not_lt_zero j), (Nat.zero_mod nbuf).symm,
      (Nat.zero_mod nbuf).symm, Nat.le_refl 0, Nat.zero_le _, (Int.add_zero _).symm,
      (Int.sub_zero _).symm, fun m => (Int.add_zero _).symm, rfl, rfl⟩
  have hzero : fPos / 1024 + ((0 : Nat) : Int) = fPos / 1024 := Int.add_zero _
  refine ⟨hslots, ⟨Nat.zero_le _, fun j hj => absurd hj (Nat.not_lt_zero j), hneed, ?_, rfl,
    (Int.add_zero _).symm⟩, by omega, hneed.pos.mp hleft, fun _ => Nat.zero_le _⟩
  rw [Nat.sub_zero, hzero]
  rfl

theorem Behind.balanced_iff {fPos : Int} (hn : 0 < nbuf)
    (h : Behind readable nbuf s (fPos / 1024) (blocksFor left (fPos % 1024))
      (blockCount left (fPos % 1024)) total fPos r)
    (hsmall : left + fPos % 1024 + 1023 < 2 ^ 31 →
      blocksFor left (fPos % 1024) = blockCount left (fPos % 1024))
    (hbig : ¬ left + fPos % 1024 + 1023 < 2 ^ 31 → blocksFor left (fPos % 1024) < 0) :
    ((∀ n, r.s.count n = s.count n) ∧ r.released = r.got) ↔ Tidy readable nbuf s fPos left := by
  have hnil : ∀ b, entries readable s (fPos / 1024) b (b - b) = [] := fun b => by
    rw [Nat.sub_self]
    rfl
  obtain ⟨hfails, b, hslots⟩ | ⟨hok, b, hslots, hnormal, hover⟩ := h.ring
  · exact iff_of_true (hslots.balanced_iff.mpr (hnil b)) (.inr (.inl hfails))
  · rw [hslots.balanced_iff]
    by_cases hsum : left + fPos % 1024 + 1023 < 2 ^ 31
    · rw [hnormal (hsmall hsum)]
      exact iff_of_true (hnil _) (.inl hsum)
    · have hlen : b - blockCount left (fPos % 1024) = nbuf - 1 := by
        have := hover (hbig hsum)
        omega
      rw [hlen, entries_eq_nil]
      constructor
      · exact fun hholes => .inr (.inr hholes)
      · rintro (hsum' | ⟨j, hj, hfail⟩ | hholes)
        · exact absurd hsum' hsum
        · exact absurd hfail (by rw [hok j hj]; exact Bool.false_ne_true)
        · exact hholes

/-- The two loops, where there is something to read. -/
theorem extFileRead_of_pos (sb : Super) (readable : Nat → Bool) (arrived : Nat → Nat → Bool)
    (hn : 0 < nbuf) (s : State) {fPos count : Int} (hpos : 0 < wanted s.iSize fPos count) :
    ∃ bound, ∀ fuel, bound ≤ fuel → ∃ res p,
      extFileRead sb readable nbuf arrived fuel true s fPos count = some res ∧
      plainRead sb readable fuel true s fPos count = some p ∧
      (res.ret, res.out, res.fPos) = p ∧
      (ReadsPlain s res p ↔ Tidy readable nbuf s fPos (wanted s.iSize fPos count)) := by
  have hlt := wanted_lt s.iSize fPos count
  unfold extFileRead plainRead
  dsimp only
  generalize wanted s.iSize fPos count = left at hpos hlt ⊢
  have hoffset : 0 ≤ fPos % 1024 ∧ fPos % 1024 < 1024 :=
    ⟨Int.emod_nonneg _ (by decide), Int.emod_lt_of_pos _ (by decide)⟩
  have hsize : (BLOCK_SIZE : Int) = 1024 := rfl
  have hneed := need_blockCount hpos hoffset
  obtain ⟨hsmall, hbig⟩ := blocksFor_cases hpos hlt hoffset
  have hN : blocksFor left (fPos % 1024) = (blockCount left (fPos % 1024) : Nat) ∨
      blocksFor left (fPos % 1024) < 0 := by
    by_cases h : left + fPos % 1024 + 1023 < 2 ^ 31
    · exact .inl (hsmall h)
    · exact .inr (hbig h)
  refine ⟨measure nbuf (blockCount left (fPos % 1024)) 0 0 + blockCount left (fPos % 1024) + 1,
    fun fuel hfuel => ?_⟩
  obtain ⟨r, hr, hbehind⟩ := loop_spec sb arrived (head_start hn s hpos) hN
    (show measure nbuf (blockCount left (fPos % 1024)) 0 0 < fuel by omega)
  obtain ⟨p, hp, hout⟩ := plainLoop_eq sb (p := ⟨s, fPos / 1024, left, fPos % 1024, []⟩)
    (During.refl s) hneed (show blockCount left (fPos % 1024) < fuel by omega)
  rw [List.nil_append, ← hbehind.out] at hout
  rw [if_neg (Int.not_le.mpr hpos), if_neg (Int.not_le.mpr hpos), hr, hsize, hp]
  have hsame : ((if r.read = 0 then - EIO else r.read, r.out, r.fPos) : Int × _ × Int) =
      (if p.out = [] then - EIO else (p.out.length : Int), p.out, fPos + (p.out.length : Int)) := by
    rw [hout, hbehind.fPos, hbehind.read]
    refine Prod.ext (if_congr ?_ rfl rfl) rfl
    rw [Int.natCast_eq_zero, List.length_eq_zero_iff]
  have hbalanced := hbehind.balanced_iff hn hsmall hbig
  refine ⟨_, _, rfl, rfl, hsame, fun h => hbalanced.mp ⟨h.count, h.released⟩, fun h => ?_⟩
  obtain ⟨hcount, hreleased⟩ := hbalanced.mpr h
  exact ⟨hsame, hcount, hreleased⟩

/-- **Pipelined reading is plain reading**, and it releases every buffer that it takes exactly
where it fetches none behind those that are wanted. -/
theorem readsPlain_iff (sb : Super) (readable : Nat → Bool) {nbuf : Nat}
    (arrived : Nat → Nat → Bool) (hn : 0 < nbuf) (isFile : Bool) (s : State) (fPos count : Int) :
    ∃ bound, ∀ fuel, bound ≤ fuel → ∃ res p,
      extFileRead sb readable nbuf arrived fuel isFile s fPos count = some res ∧
      plainRead sb readable fuel isFile s fPos count = some p ∧
      (res.ret, res.out, res.fPos) = p ∧
      (ReadsPlain s res p ↔ isFile = false ∨ wanted s.iSize fPos count ≤ 0 ∨
        Tidy readable nbuf s fPos (wanted s.iSize fPos count)) := by
  cases isFile with
  | false =>
      refine ⟨0, fun fuel _ => ⟨_, _, rfl, rfl, rfl, ?_⟩⟩
      exact iff_of_true ⟨rfl, fun _ => rfl, rfl⟩ (.inl rfl)
  | true =>
      by_cases hleft : wanted s.iSize fPos count ≤ 0
      · refine ⟨0, fun fuel _ => ⟨⟨s, 0, [], fPos, [], []⟩, (0, [], fPos), ?_, ?_, rfl, ?_⟩⟩
        · rw [extFileRead, if_neg Bool.noConfusion, if_pos hleft]
        · rw [plainRead, if_neg Bool.noConfusion, if_pos hleft]
        · exact iff_of_true ⟨rfl, fun _ => rfl, rfl⟩ (.inr (.inl hleft))
      · obtain ⟨bound, h⟩ := extFileRead_of_pos sb readable arrived hn s (Int.not_le.mp hleft)
        refine ⟨bound, fun fuel hfuel => ?_⟩
        obtain ⟨res, p, hres, hp, hsame, hiff⟩ := h fuel hfuel
        refine ⟨res, p, hres, hp, hsame, hiff.trans ⟨fun h => .inr (.inr h), ?_⟩⟩
        rintro (h | h | h)
        · cases h
        · exact absurd h hleft
        · exact h

/-- A file without holes, all its words 1, that is as long as can be. -/
def fullFile : State where
  data := fun _ k => if k % 4 = 0 then 1 else 0
  buffer := fun _ => .stale
  count := fun _ => 0
  iData := fun _ => 1
  iSize := 2 ^ 31 - 1
  pool := ⟨fun _ => ⟨[], 0⟩, 0, none, 0, fun _ => .user⟩
  sLock := false
  stuck := false

theorem readsPlain_iff_fullFile :
    ∃ bound, ∀ fuel, bound ≤ fuel → ∃ res p,
      extFileRead ⟨1, 2, 1⟩ (fun _ => true) 16 (fun _ _ => false) fuel true fullFile 5 7 =
        some res ∧
      plainRead ⟨1, 2, 1⟩ (fun _ => true) fuel true fullFile 5 7 = some p ∧
      (res.ret, res.out, res.fPos) = p ∧
      (ReadsPlain fullFile res p ↔ true = false ∨ wanted fullFile.iSize 5 7 ≤ 0 ∨
        Tidy (fun _ => true) 16 fullFile 5 (wanted fullFile.iSize 5 7)) :=
  readsPlain_iff ⟨1, 2, 1⟩ (fun _ => true) (fun _ _ => false) (by decide) true fullFile 5 7

/-- All of it is wanted, with the 16 slots of `NBUF`. -/
theorem not_readsPlain :
    ∃ bound, ∀ fuel, bound ≤ fuel → ∃ res p,
      extFileRead ⟨1, 2, 1⟩ (fun _ => true) 16 (fun _ _ => false) fuel true fullFile 0
        (2 ^ 31 - 1) = some res ∧
      plainRead ⟨1, 2, 1⟩ (fun _ => true) fuel true fullFile 0 (2 ^ 31 - 1) = some p ∧
      ¬ ReadsPlain fullFile res p := by
  have hwanted : wanted fullFile.iSize 0 (2 ^ 31 - 1) = 2 ^ 31 - 1 := by decide
  have hpos : 0 < wanted fullFile.iSize 0 (2 ^ 31 - 1) := by
    rw [hwanted]
    decide
  obtain ⟨bound, h⟩ := extFileRead_of_pos ⟨1, 2, 1⟩ (fun _ => true) (fun _ _ => false)
    (show 0 < 16 by decide) fullFile hpos
  refine ⟨bound, fun fuel hfuel => ?_⟩
  obtain ⟨res, p, hres, hp, -, hiff⟩ := h fuel hfuel
  refine ⟨res, p, hres, hp, fun hreads => ?_⟩
  rw [hwanted] at hiff
  have hcount : blockCount (2 ^ 31 - 1) (0 % 1024) = 2 ^ 21 := by decide
  obtain hsum | ⟨j, -, hfail⟩ | hholes := hiff.mp hreads
  · exact absurd hsum (by decide)
  · cases hentry : entry (fun _ => true) fullFile (0 / 1024) j with
    | none =>
        rw [hentry] at hfail
        cases hfail
    | some n =>
        rw [hentry, fails, usable, Bool.or_true] at hfail
        cases hfail
  · rw [hcount] at hholes
    have hentry : entry (fun _ => true) fullFile (0 / 1024) (2 ^ 21 + 0) = some 1 := by decide
    exact absurd (hentry.symm.trans (hholes 0 (by decide))) (Option.some_ne_none 1)

end LinuxKernel.V098.Fs.Ext
