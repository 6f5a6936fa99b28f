import LinuxKernel.V098.Net.SockMem

/-!
# LinuxKernel.V098.Net.SockCharges

The **counters of a socket are the sums** of what is charged to it, and the last buffer takes a
socket that is marked for destruction with it.

- `Held` is about the buffers alone, `Inv` is the invariant.
-/

namespace LinuxKernel.V098.Net.SockMem

variable {s s' : State} {x y b n : Nat} {k k' : Buf} {sk sk' : Sock} {rw rw' : Rw} {q : Queue}

/-! ### Counters -/

theorem Sock.alloc_setAlloc :
    (sk.setAlloc n rw).alloc rw' = if rw' = rw then n else sk.alloc rw' := by
  cases rw <;> cases rw' <;> rfl

theorem Sock.destroy_charge : (sk.charge rw n).destroy = sk.destroy := by
  cases rw <;> rfl

theorem Sock.destroy_uncharge : (sk.uncharge rw n).destroy = sk.destroy := by
  cases rw <;> rfl

theorem Sock.alloc_charge (h : sk.alloc rw + n < WORD) :
    (sk.charge rw n).alloc rw' = sk.alloc rw' + if rw' = rw then n else 0 := by
  rw [charge, alloc_setAlloc]
  split
  · next hrw => rw [hrw, Nat.mod_eq_of_lt h]
  · rfl

variable (rw') in
theorem Sock.alloc_uncharge (h : n ≤ sk.alloc rw) (hlt : sk.alloc rw < WORD) :
    (sk.uncharge rw n).alloc rw' + (if rw' = rw then n else 0) = sk.alloc rw' := by
  rw [uncharge, alloc_setAlloc]
  split
  · next hrw =>
      have hsum : sk.alloc rw + (WORD - n % WORD) = sk.alloc rw - n + WORD := by
        rw [Nat.mod_eq_of_lt (Nat.lt_of_le_of_lt h hlt)]
        omega
      rw [hsum, Nat.add_mod_right, Nat.mod_eq_of_lt (by omega), hrw]
      omega
  · rfl

/-! ### Sums -/

theorem share_of_charged (h : k.charged = some (y, rw')) :
    share x rw k = if x = y ∧ rw = rw' then k.memLen else 0 := by
  rw [share, h]
  by_cases hx : x = y ∧ rw = rw'
  · rw [if_pos hx, if_pos (by rw [hx.1, hx.2])]
  · refine (if_neg fun heq => hx ?_).trans (if_neg hx).symm
    cases heq
    exact ⟨rfl, rfl⟩

theorem share_of_none (h : k.charged = none) : share x rw k = 0 := by
  rw [share, h]
  exact if_neg (nofun : none ≠ some (x, rw))

theorem share_le : share x rw k ≤ k.memLen := by
  unfold share
  split
  · exact Nat.le_refl _
  · exact Nat.zero_le _

theorem charges_le_memory : charges s x rw ≤ memory s := tally_mono fun _ => share_le

variable (x k' rw) in
theorem charges_setBuf (hb : s.bufs b = some k) (hk : b ∈ s.known) :
    charges (setBuf s b k') x rw + share x rw k = charges s x rw + share x rw k' := by
  have := tally_update (share x rw) s.bufs (some k') hk
  rwa [hb] at this

theorem charges_freeBuf (hb : s.bufs b = some k) (hk : b ∈ s.known) :
    charges (freeBuf s b) x rw + share x rw k = charges s x rw := by
  have := tally_update (share x rw) s.bufs none hk
  rwa [hb] at this

theorem charges_addBuf (hb : s.bufs b = none) :
    charges (addBuf s b k') x rw = charges s x rw + share x rw k' := by
  have := tally_update (share x rw) s.bufs (some k')
    (Finset.mem_insert_self b s.known)
  rwa [hb, tally_insert hb] at this

/-! ### Buffers -/

/-- A buffer on a queue is freed with the flag of its direction, and one on the back log has not
been charged yet. -/
def QueueOk (k : Buf) : Prop :=
  ∀ x q, k.queue = some (x, q) → q.rw = k.rw ∧ (q = .backLog → k.charged = none)

structure Held (s : State) : Prop where
  known : ∀ b k, s.bufs b = some k → b ∈ s.known
  room : memory s < WORD
  size : ∀ b k, s.bufs b = some k → 0 < k.memLen
  dir : ∀ b k x rw, s.bufs b = some k → k.charged = some (x, rw) → rw = k.rw
  queue : ∀ b k, s.bufs b = some k → QueueOk k

/-- The new one, or an old one. -/
theorem cases_update {α : Type} {f : Nat → Option α} {c : Nat} {v w : α}
    (h : Function.update f b (some v) c = some w) : c = b ∧ w = v ∨ f c = some w := by
  by_cases hcb : c = b
  · subst hcb
    rw [Function.update_self] at h
    exact Or.inl ⟨rfl, (Option.some.inj h).symm⟩
  · rw [Function.update_of_ne hcb] at h
    exact Or.inr h

namespace Held

theorem congr (h : Held s) (hb : s'.bufs = s.bufs) (hk : s'.known = s.known) : Held s' := by
  constructor
  · rw [hb, hk]
    exact h.known
  · rw [memory, hb, hk]
    exact h.room
  · rw [hb]
    exact h.size
  · rw [hb]
    exact h.dir
  · rw [hb]
    exact h.queue

theorem setBuf (h : Held s) (hb : s.bufs b = some k) (hlen : k'.memLen = k.memLen)
    (hdir : ∀ x rw, k'.charged = some (x, rw) → rw = k'.rw) (hq : QueueOk k') :
    Held (setBuf s b k') := by
  have hcases : ∀ c kc, (SockMem.setBuf s b k').bufs c = some kc →
      c = b ∧ kc = k' ∨ s.bufs c = some kc := fun _ _ => cases_update
  constructor
  · intro c kc hc
    rcases hcases c kc hc with ⟨rfl, -⟩ | hc
    · exact h.known c k hb
    · exact h.known c kc hc
  · have := tally_update Buf.memLen s.bufs (some k') (h.known b k hb)
    rw [hb, weight_some, weight_some, hlen] at this
    exact (Nat.add_right_cancel this).trans_lt h.room
  · intro c kc hc
    rcases hcases c kc hc with ⟨-, rfl⟩ | hc
    · rw [hlen]
      exact h.size b k hb
    · exact h.size c kc hc
  · intro c kc y rw hc
    rcases hcases c kc hc with ⟨-, rfl⟩ | hc
    · exact hdir y rw
    · exact h.dir c kc y rw hc
  · intro c kc hc
    rcases hcases c kc hc with ⟨-, rfl⟩ | hc
    · exact hq
    · exact h.queue c kc hc

theorem freeBuf (h : Held s) (hb : s.bufs b = some k) : Held (freeBuf s b) := by
  have hcases : ∀ c kc, (SockMem.freeBuf s b).bufs c = some kc → s.bufs c = some kc := by
    intro c kc hc
    change Function.update s.bufs b none c = some kc at hc
    by_cases hcb : c = b
    · rw [hcb, Function.update_self] at hc
      cases hc
    · rwa [Function.update_of_ne hcb] at hc
  constructor
  · exact fun c kc hc => h.known c kc (hcases c kc hc)
  · have := tally_update Buf.memLen s.bufs none (h.known b k hb)
    rw [weight_none, Nat.add_zero] at this
    exact (Nat.le_of_add_right_le this.le).trans_lt h.room
  · exact fun c kc hc => h.size c kc (hcases c kc hc)
  · exact fun c kc y rw hc => h.dir c kc y rw (hcases c kc hc)
  · exact fun c kc hc => h.queue c kc (hcases c kc hc)

theorem addBuf (h : Held s) (hr : Room s b n) (hlen : k.memLen = n)
    (hdir : ∀ x rw, k.charged = some (x, rw) → rw = k.rw) (hq : k.queue = none) :
    Held (addBuf s b k) := by
  obtain ⟨hb, hpos, hroom⟩ := hr
  have hcases : ∀ c kc, (SockMem.addBuf s b k).bufs c = some kc →
      c = b ∧ kc = k ∨ s.bufs c = some kc := fun _ _ => cases_update
  constructor
  · intro c kc hc
    rcases hcases c kc hc with ⟨rfl, -⟩ | hc
    · exact Finset.mem_insert_self c s.known
    · exact Finset.mem_insert_of_mem (h.known c kc hc)
  · have := tally_update Buf.memLen s.bufs (some k)
      (Finset.mem_insert_self b s.known)
    rw [hb, weight_none, weight_some, tally_insert hb, hlen] at this
    exact this.trans_lt hroom
  · intro c kc hc
    rcases hcases c kc hc with ⟨-, rfl⟩ | hc
    · rw [hlen]
      exact hpos
    · exact h.size c kc hc
  · intro c kc y rw hc
    rcases hcases c kc hc with ⟨-, rfl⟩ | hc
    · exact hdir y rw
    · exact h.dir c kc y rw hc
  · intro c kc hc
    rcases hcases c kc hc with ⟨-, rfl⟩ | hc
    · intro z q hz
      rw [hq] at hz
      cases hz
    · exact h.queue c kc hc

end Held

/-! ### The invariant -/

structure Inv (s : State) : Prop where
  held : Held s
  balanced : ∀ x k rw, s.socks x = some k → k.alloc rw = charges s x rw
  kept : ∀ b k x rw, s.bufs b = some k → k.charged = some (x, rw) → s.socks x ≠ none
  marked : ∀ x k, s.socks x = some k → k.destroy = true →
    0 < charges s x .read + charges s x .write
  destroying : ∀ x, s.phase x ≠ .idle → ∃ k, s.socks x = some k ∧ k.destroy = false

namespace Inv

theorem of_init (h : Init s) : Inv s where
  held := by
    have hnone : ∀ b k, s.bufs b ≠ some k := fun b k hb => by
      rw [h.bufs] at hb
      cases hb
    refine ⟨fun b k hb => absurd hb (hnone b k), ?_, fun b k hb => absurd hb (hnone b k),
      fun b k _ _ hb => absurd hb (hnone b k), fun b k hb => absurd hb (hnone b k)⟩
    have hzero : memory s = 0 := Finset.sum_eq_zero fun b _ => by rw [h.bufs, weight_none]
    rw [hzero]
    decide
  balanced x k rw hk := by
    rw [h.socks] at hk
    cases hk
  kept b k x rw hb := by
    rw [h.bufs] at hb
    cases hb
  marked x k hk := by
    rw [h.socks] at hk
    cases hk
  destroying x hx := absurd (h.phase x) hx

theorem sound (h : Inv s) : Sound s where
  balanced := h.balanced
  kept := h.kept
  marked x k hk hd := by
    have hshare : ∀ rw, 0 < charges s x rw →
        ∃ b kb rw, s.bufs b = some kb ∧ kb.charged = some (x, rw) := by
      intro rw hpos
      obtain ⟨b, -, kb, hb, hw⟩ := exists_of_tally_pos hpos
      refine ⟨b, kb, rw, hb, ?_⟩
      by_contra hne
      rw [share, if_neg hne] at hw
      exact Nat.lt_irrefl 0 hw
    rcases Nat.add_pos_iff_pos_or_pos.mp (h.marked x k hk hd) with hpos | hpos
    · exact hshare .read hpos
    · exact hshare .write hpos

/-- What is charged to a socket fits in its counters. -/
theorem alloc_lt (h : Inv s) (hx : s.socks x = some sk) (rw : Rw) : sk.alloc rw < WORD := by
  rw [h.balanced x sk rw hx]
  exact charges_le_memory.trans_lt h.held.room

/-! ### Where no charge changes -/

theorem setBuf (h : Inv s) (hb : s.bufs b = some k) (hlen : k'.memLen = k.memLen)
    (hcharged : k'.charged = k.charged) (hrw : k'.rw = k.rw) (hq : QueueOk k') :
    Inv (setBuf s b k') := by
  have hsum : ∀ x rw, charges (SockMem.setBuf s b k') x rw = charges s x rw := by
    intro x rw
    have := charges_setBuf x k' rw hb (h.held.known b k hb)
    rw [share, share, hcharged, hlen] at this
    exact Nat.add_right_cancel this
  constructor
  · refine h.held.setBuf hb hlen (fun x rw hc => ?_) hq
    rw [hcharged] at hc
    rw [hrw]
    exact h.held.dir b k x rw hb hc
  · intro x sk rw hx
    rw [hsum]
    exact h.balanced x sk rw hx
  · intro c kc x rw hc hcc
    rcases cases_update hc with ⟨rfl, rfl⟩ | hc
    · rw [hcharged] at hcc
      exact h.kept c k x rw hb hcc
    · exact h.kept c kc x rw hc hcc
  · intro x sk hx hd
    rw [hsum, hsum]
    exact h.marked x sk hx hd
  · exact h.destroying

/-- A socket keeps its counters. -/
theorem setSock (h : Inv s) (hx : s.socks x = some sk) (hsk : ∀ rw, sk'.alloc rw = sk.alloc rw)
    (hd : sk'.destroy = true → 0 < charges s x .read + charges s x .write)
    (hphase : sk'.destroy = true → sk.destroy = false → s.phase x = .idle) :
    Inv (setSock s x sk') := by
  have hcases : ∀ y k, (SockMem.setSock s x sk').socks y = some k →
      y = x ∧ k = sk' ∨ s.socks y = some k := fun _ _ => cases_update
  constructor
  · exact h.held.congr rfl rfl
  · intro y k rw hy
    rcases hcases y k hy with ⟨rfl, rfl⟩ | hy
    · rw [hsk]
      exact h.balanced y sk rw hx
    · exact h.balanced y k rw hy
  · intro c kc y rw hc hcc
    change Function.update s.socks x (some sk') y ≠ none
    by_cases hyx : y = x
    · rw [hyx, Function.update_self]
      exact Option.some_ne_none sk'
    · rw [Function.update_of_ne hyx]
      exact h.kept c kc y rw hc hcc
  · intro y k hy hdy
    rcases hcases y k hy with ⟨rfl, rfl⟩ | hy
    · exact hd hdy
    · exact h.marked y k hy hdy
  · intro y hy
    obtain ⟨k, hk, hkd⟩ := h.destroying y hy
    change ∃ k, Function.update s.socks x (some sk') y = some k ∧ _
    by_cases hyx : y = x
    · subst hyx
      obtain rfl : sk = k := Option.some.inj (hx.symm.trans hk)
      refine ⟨sk', Function.update_self y _ _, Bool.eq_false_iff.mpr fun hd' => ?_⟩
      exact hy (hphase hd' hkd)
    · rw [Function.update_of_ne hyx]
      exact ⟨k, hk, hkd⟩

theorem addBuf (h : Inv s) (hr : Room s b n) (hlen : k.memLen = n) (hc : k.charged = none)
    (hq : k.queue = none) : Inv (addBuf s b k) := by
  have hsum : ∀ x rw, charges (SockMem.addBuf s b k) x rw = charges s x rw := fun x rw => by
    rw [charges_addBuf hr.1, share_of_none hc, Nat.add_zero]
  constructor
  · refine h.held.addBuf hr hlen (fun x rw hcc => ?_) hq
    rw [hc] at hcc
    cases hcc
  · intro x sk rw hx
    rw [hsum]
    exact h.balanced x sk rw hx
  · intro c kc x rw hcc hcx
    rcases cases_update hcc with ⟨rfl, rfl⟩ | hcc
    · rw [hc] at hcx
      cases hcx
    · exact h.kept c kc x rw hcc hcx
  · intro x sk hx hd
    rw [hsum, hsum]
    exact h.marked x sk hx hd
  · exact h.destroying

/-! ### Where a buffer is charged, or not any more -/

/-- The socket `x` changes its counter as what is charged to it changes. -/
theorem of_books (h : Inv s) (hx : s.socks x = some sk) (hheld : Held s')
    (hsocks : s'.socks = Function.update s.socks x (some sk')) (hphase : s'.phase = s.phase)
    (hd : sk'.destroy = sk.destroy)
    (hkept : ∀ b k y rw, s'.bufs b = some k → k.charged = some (y, rw) →
      y = x ∨ s.socks y ≠ none)
    (hself : ∀ rw, sk'.alloc rw = charges s' x rw)
    (hother : ∀ y rw, y ≠ x → charges s' y rw = charges s y rw)
    (hmarked : sk'.destroy = true → 0 < charges s' x .read + charges s' x .write) : Inv s' := by
  have hcases : ∀ y k, s'.socks y = some k → y = x ∧ k = sk' ∨ y ≠ x ∧ s.socks y = some k := by
    intro y k hy
    rw [hsocks] at hy
    by_cases hyx : y = x
    · rw [hyx, Function.update_self] at hy
      exact Or.inl ⟨hyx, (Option.some.inj hy).symm⟩
    · rw [Function.update_of_ne hyx] at hy
      exact Or.inr ⟨hyx, hy⟩
  constructor
  · exact hheld
  · intro y k rw hy
    rcases hcases y k hy with ⟨rfl, rfl⟩ | ⟨hyx, hy⟩
    · exact hself rw
    · rw [hother y rw hyx]
      exact h.balanced y k rw hy
  · intro c kc y rw hc hcc
    rw [hsocks]
    by_cases hyx : y = x
    · rw [hyx, Function.update_self]
      exact Option.some_ne_none sk'
    · rw [Function.update_of_ne hyx]
      exact (hkept c kc y rw hc hcc).resolve_left hyx
  · intro y k hy hdy
    rcases hcases y k hy with ⟨rfl, rfl⟩ | ⟨hyx, hy⟩
    · exact hmarked hdy
    · rw [hother y _ hyx, hother y _ hyx]
      exact h.marked y k hy hdy
  · intro y hy
    rw [hphase] at hy
    obtain ⟨k, hk, hkd⟩ := h.destroying y hy
    rw [hsocks]
    by_cases hyx : y = x
    · subst hyx
      obtain rfl : sk = k := Option.some.inj (hx.symm.trans hk)
      exact ⟨sk', Function.update_self y _ _, hd.trans hkd⟩
    · rw [Function.update_of_ne hyx]
      exact ⟨k, hk, hkd⟩

/-- The socket `x`, to which nothing is charged, goes. -/
theorem of_gone (h : Inv s) (hheld : Held s') (hsocks : s'.socks = Function.update s.socks x none)
    (hidle : s'.phase x = .idle) (hphase : ∀ y, y ≠ x → s'.phase y = s.phase y)
    (hkept : ∀ b k y rw, s'.bufs b = some k → k.charged = some (y, rw) →
      y = x ∨ s.socks y ≠ none)
    (hself : ∀ rw, charges s' x rw = 0)
    (hother : ∀ y rw, y ≠ x → charges s' y rw = charges s y rw) : Inv s' := by
  have hcases : ∀ y k, s'.socks y = some k → y ≠ x ∧ s.socks y = some k := by
    intro y k hy
    rw [hsocks] at hy
    by_cases hyx : y = x
    · rw [hyx, Function.update_self] at hy
      cases hy
    · rw [Function.update_of_ne hyx] at hy
      exact ⟨hyx, hy⟩
  constructor
  · exact hheld
  · intro y k rw hy
    obtain ⟨hyx, hy⟩ := hcases y k hy
    rw [hother y rw hyx]
    exact h.balanced y k rw hy
  · intro c kc y rw hc hcc
    rw [hsocks]
    by_cases hyx : y = x
    · have hle : share x rw kc ≤ charges s' x rw := le_tally (hheld.known c kc hc) hc
      rw [hself, share, if_pos (hyx ▸ hcc)] at hle
      exact absurd (hheld.size c kc hc) (Nat.not_lt.mpr hle)
    · rw [Function.update_of_ne hyx]
      exact (hkept c kc y rw hc hcc).resolve_left hyx
  · intro y k hy hdy
    obtain ⟨hyx, hy⟩ := hcases y k hy
    rw [hother y _ hyx, hother y _ hyx]
    exact h.marked y k hy hdy
  · intro y hy
    by_cases hyx : y = x
    · rw [hyx] at hy
      exact absurd hidle hy
    · rw [hphase y hyx] at hy
      rw [hsocks, Function.update_of_ne hyx]
      exact h.destroying y hy

variable (k') in
theorem charge (h : Inv s) (hb : s.bufs b = some k) (hk : k.charged = none)
    (hx : s.socks x = some sk) (hlen : k'.memLen = k.memLen) (hk' : k'.charged = some (x, k'.rw))
    (hq : QueueOk k') :
    Inv (SockMem.setSock (SockMem.setBuf s b k') x (sk.charge k'.rw k.memLen)) := by
  have hsum : ∀ y rw, charges (SockMem.setBuf s b k') y rw =
      charges s y rw + if y = x ∧ rw = k'.rw then k.memLen else 0 := by
    intro y rw
    have := charges_setBuf y k' rw hb (h.held.known b k hb)
    rwa [share_of_none hk, share_of_charged hk', hlen, Nat.add_zero] at this
  have hheld : Held (SockMem.setBuf s b k') := by
    refine h.held.setBuf hb hlen (fun y rw hc => ?_) hq
    rw [hk'] at hc
    cases hc
    rfl
  have hlt : sk.alloc k'.rw + k.memLen < WORD := by
    have : charges (SockMem.setBuf s b k') x k'.rw < WORD := charges_le_memory.trans_lt hheld.room
    rwa [hsum, if_pos ⟨rfl, rfl⟩, ← h.balanced x sk k'.rw hx] at this
  have hbalanced : ∀ rw, (sk.charge k'.rw k.memLen).alloc rw =
      charges (SockMem.setBuf s b k') x rw := by
    intro rw
    rw [Sock.alloc_charge hlt, hsum, h.balanced x sk rw hx]
    by_cases hrw : rw = k'.rw
    · rw [if_pos hrw, if_pos ⟨rfl, hrw⟩]
    · rw [if_neg hrw, if_neg fun hc => hrw hc.2]
  refine h.of_books hx (hheld.congr rfl rfl) rfl rfl Sock.destroy_charge ?_ hbalanced ?_ ?_
  · intro c kc y rw hc hcc
    rcases cases_update hc with ⟨rfl, rfl⟩ | hc
    · rw [hk'] at hcc
      cases hcc
      exact Or.inl rfl
    · exact Or.inr (h.kept c kc y rw hc hcc)
  · intro y rw hyx
    exact (hsum y rw).trans (by rw [if_neg fun hc => hyx hc.1, Nat.add_zero])
  · intro hd
    rw [Sock.destroy_charge] at hd
    have := h.marked x sk hx hd
    change 0 < charges (SockMem.setBuf s b k') x .read + charges (SockMem.setBuf s b k') x .write
    rw [hsum, hsum]
    omega

/-- The buffer `k`, charged to `x`, is charged to nobody in `s'`. -/
theorem uncharge (h : Inv s) (hk : k.charged = some (x, rw)) (hx : s.socks x = some sk)
    (hsum : ∀ y rw, charges s' y rw + share y rw k = charges s y rw) :
    (∀ rw', (sk.uncharge rw k.memLen).alloc rw' = charges s' x rw') ∧
      ∀ y rw, y ≠ x → charges s' y rw = charges s y rw := by
  refine ⟨fun rw' => ?_, fun y rw hyx => ?_⟩
  · have hle : k.memLen ≤ sk.alloc rw := by
      have := hsum x rw
      rw [share_of_charged hk, if_pos ⟨rfl, rfl⟩] at this
      rw [h.balanced x sk rw hx]
      omega
    have halloc := Sock.alloc_uncharge rw' hle (h.alloc_lt hx rw)
    have := hsum x rw'
    rw [share_of_charged hk, ← h.balanced x sk rw' hx] at this
    by_cases hrw : rw' = rw
    · rw [if_pos hrw] at halloc
      rw [if_pos ⟨rfl, hrw⟩] at this
      omega
    · rw [if_neg hrw] at halloc
      rw [if_neg fun hc => hrw hc.2] at this
      omega
  · have := hsum y rw
    rwa [share_of_charged hk, if_neg fun hc => hyx hc.1, Nat.add_zero] at this

/-! ### Freeing -/

/-- A buffer that is charged to the socket it names. -/
theorem sockFree (h : Inv s) (hb : s.bufs b = some k) (hown : Owned k) (hrw : rw = k.rw) :
    (sockFree rw s k.sk b k.memLen).Ends (fun _ => False) Inv := by
  have hsum : ∀ y rw, charges (freeBuf s b) y rw + share y rw k = charges s y rw :=
    fun y rw => charges_freeBuf hb (h.held.known b k hb)
  have hheld : Held (freeBuf s b) := h.held.freeBuf hb
  have hkept : ∀ c kc y rw, (freeBuf s b).bufs c = some kc → kc.charged = some (y, rw) →
      s.socks y ≠ none := by
    intro c kc y rw hc hcc
    change Function.update s.bufs b none c = some kc at hc
    by_cases hcb : c = b
    · rw [hcb, Function.update_self] at hc
      cases hc
    · rw [Function.update_of_ne hcb] at hc
      exact h.kept c kc y rw hc hcc
  rw [hown]
  cases hk : k.charged with
  | none =>
      have hsame : ∀ y rw, charges (freeBuf s b) y rw = charges s y rw := fun y rw => by
        rw [← hsum, share_of_none hk, Nat.add_zero]
      constructor
      · exact hheld
      · intro y ky rw hy
        rw [hsame]
        exact h.balanced y ky rw hy
      · exact hkept
      · intro y ky hy hd
        rw [hsame, hsame]
        exact h.marked y ky hy hd
      · exact h.destroying
  | some p =>
      obtain ⟨x, rw'⟩ := p
      obtain rfl : rw' = rw := (h.held.dir b k x rw' hb hk).trans hrw.symm
      obtain ⟨sk, hx⟩ := Option.ne_none_iff_exists'.mp (h.kept b k x rw' hb hk)
      obtain ⟨hself, hother⟩ := h.uncharge hk hx hsum
      unfold SockMem.sockFree
      rw [Option.map_some]
      dsimp only
      rw [hx]
      dsimp only
      split
      · next hgone =>
          -- the last buffer of a socket that is marked
          rw [Sock.destroy_uncharge] at hgone
          have hzero : ∀ rw, charges (freeBuf s b) x rw = 0 := fun rw => by
            rw [← hself rw]
            cases rw with
            | read => exact hgone.2.2
            | write => exact hgone.2.1
          refine h.of_gone (hheld.congr rfl rfl) (Function.update_idem _ _ _) ?_ (fun _ _ => rfl)
            (fun c kc y rw hc hcc => Or.inr (hkept c kc y rw hc hcc)) hzero hother
          by_contra hphase
          obtain ⟨sk', hsk', hd⟩ := h.destroying x hphase
          obtain rfl : sk = sk' := Option.some.inj (hx.symm.trans hsk')
          exact Bool.noConfusion (hd.symm.trans hgone.1)
      · next hgone =>
          refine h.of_books hx (hheld.congr rfl rfl) rfl rfl Sock.destroy_uncharge
            (fun c kc y rw hc hcc => Or.inr (hkept c kc y rw hc hcc)) hself hother fun hd => ?_
          by_contra hzero
          obtain ⟨hr, hw⟩ := Nat.add_eq_zero_iff.mp (Nat.eq_zero_of_not_pos hzero)
          exact hgone ⟨hd, (hself .write).trans hw, (hself .read).trans hr⟩

theorem freeSkb (h : Inv s) (hb : s.bufs b = some k) (hown : k.lock = false → Owned k)
    (hrw : rw = k.rw ∨ k.sk = none) : (freeSkb s b rw).Ends (fun _ => False) Inv := by
  unfold SockMem.freeSkb
  rw [hb]
  dsimp only
  split
  · exact h.setBuf hb rfl rfl rfl (h.held.queue b k hb)
  · next hlock =>
      have hown := hown (Bool.eq_false_iff.mpr hlock)
      rcases hrw with hrw | hsk
      · cases rw with
        | read => exact h.sockFree hb hown hrw
        | write => exact h.sockFree hb hown hrw
      · have hfree := h.sockFree hb hown rfl
        rw [hsk] at hfree ⊢
        cases rw with
        | read => exact hfree
        | write => exact hfree

/-! ### The steps -/

/-- A buffer that is charged behind `malloc`, or before. -/
theorem charge_addBuf : SockMem.setSock (SockMem.setBuf (SockMem.addBuf s b k) b k') x sk =
    SockMem.addBuf (SockMem.setSock s x sk) b k' := by
  simp only [SockMem.setSock, SockMem.setBuf, SockMem.addBuf, Function.update_idem]

theorem malloc {fails : Bool} (h : Inv s) (hlen : k.memLen = n) (hc : k.charged = none)
    (hq : k.queue = none) : (malloc s b n fails k).Ends (fun _ => False) Inv := by
  unfold SockMem.malloc
  split
  · exact h
  · split
    · next hr => exact h.addBuf hr hlen hc hq
    · trivial

theorem sockMalloc {limit : Nat} {z : Option Nat} {force fails : Bool} {f : Fresh} (h : Inv s)
    (hok : MallocFits limit rw s z n force fails) :
    (sockMalloc limit rw s z b n force fails f).Ends (fun _ => False) Inv := by
  unfold SockMem.sockMalloc
  cases z with
  | none => exact h.malloc rfl rfl rfl
  | some x =>
      dsimp only
      cases hx : s.socks x with
      | none => trivial
      | some sk =>
          dsimp only
          split
          · exact h
          · next hlimit =>
              unfold SockMem.malloc
              split
              · next hfails => exact absurd (hok hfails x rfl sk hx) hlimit
              · split
                · next hr =>
                    -- as if it were charged behind `malloc`
                    have hr' : Room s b n := hr
                    have hadd : Inv (SockMem.addBuf s b (fresh f rw n none)) :=
                      h.addBuf hr' rfl rfl rfl
                    have := hadd.charge (fresh f rw n (some (x, rw)))
                      (Function.update_self b _ s.bufs) rfl hx rfl rfl
                      fun _ _ hq => by cases hq
                    rwa [charge_addBuf] at this
                · trivial

theorem rcvCharge (h : Inv s) (hb : s.bufs b = some k) (hx : s.socks x = some sk)
    (hc : k.charged = none) (hrw : k.rw = .read) (hq : k.queue = none) :
    (rcvCharge s b k x sk).Ends (fun _ => False) Inv := by
  have hqueue : ∀ k' : Buf, k'.queue = k.queue → QueueOk k' := fun k' hk' y q hy => by
    rw [hk', hq] at hy
    cases hy
  unfold SockMem.rcvCharge
  split
  · refine Inv.freeSkb (k := { k with sk := none })
      (h.setBuf hb rfl rfl rfl (hqueue _ rfl)) (Function.update_self b _ s.bufs) (fun _ => ?_)
      (Or.inr rfl)
    rw [Owned, hc]
    rfl
  · have := h.charge { k with charged := some (x, k.rw) } hb hc hx rfl rfl (hqueue _ rfl)
    simp only [hrw] at this ⊢
    exact this

theorem tcpRcv (h : Inv s) (hb : s.bufs b = some k) (hx : s.socks x = some sk)
    (hc : k.charged = none) (hrw : k.rw = .read) (hq : k.queue = none) :
    (tcpRcv s b k x sk).Ends (fun _ => False) Inv := by
  unfold SockMem.tcpRcv
  dsimp only
  split
  · refine h.setBuf hb rfl rfl rfl fun y q hy => ?_
    obtain ⟨rfl, rfl⟩ : x = y ∧ Queue.backLog = q := by
      cases hy
      exact ⟨rfl, rfl⟩
    exact ⟨hrw.symm, fun _ => hc⟩
  · have hset : Inv (SockMem.setBuf s b { k with sk := some x, free := false }) :=
      h.setBuf hb rfl rfl rfl fun y q hy => by
        rw [show ({ k with sk := some x, free := false } : Buf).queue = none from hq] at hy
        cases hy
    have hset' : Inv (SockMem.setSock (SockMem.setBuf s b { k with sk := some x, free := false }) x
        { sk with inuse := true }) :=
      hset.setSock hx (fun rw => by cases rw <;> rfl) (hset.marked x sk hx)
        fun hd hd' => Bool.noConfusion (hd.symm.trans hd')
    exact hset'.rcvCharge (Function.update_self b _ s.bufs) (Function.update_self x _ s.socks) hc hrw hq

theorem tcpRcvRedo (h : Inv s) (hb : s.bufs b = some k) (hq : k.queue = some (x, .backLog))
    (z : Option Nat) :
    (tcpRcvRedo s b k z).Ends (fun m => m = "NULL pointer in tcp_rcv") Inv := by
  obtain ⟨hrw, hc⟩ := h.held.queue b k hb x .backLog hq
  unfold SockMem.tcpRcvRedo
  cases z with
  | none => rfl
  | some y =>
      dsimp only
      cases hy : s.socks y with
      | none => trivial
      | some sk =>
          dsimp only
          split
          · have hset : Inv (SockMem.setBuf s b { k with queue := none }) :=
              h.setBuf hb rfl rfl rfl fun _ _ hq => by cases hq
            exact Outcome.Ends.allow (hset.rcvCharge (Function.update_self b _ s.bufs) hy (hc rfl)
              hrw.symm rfl) fun _ hm => hm.elim
          · trivial

theorem connRequest {newsk : Sock} (h : Inv s) (hb : s.bufs b = some k)
    (hc : k.charged = some (x, .read)) (hxy : x ≠ y) (hx : s.socks x = some sk)
    (hy : s.socks y = some newsk) (hd : sk.destroy = false) :
    Inv (connRequest s b k x sk y newsk) := by
  have hrw : Rw.read = k.rw := h.held.dir b k x .read hb hc
  -- taken off `x`, and put on `y` then
  let k₁ : Buf := { k with queue := none, charged := none }
  let s₁ := SockMem.setSock (SockMem.setBuf s b k₁) x (sk.uncharge .read k.memLen)
  have h₁ : Inv s₁ := by
    have hsum : ∀ z rw, charges (SockMem.setBuf s b k₁) z rw + share z rw k = charges s z rw :=
      fun z rw => charges_setBuf z _ rw hb (h.held.known b k hb)
    have hheld : Held (SockMem.setBuf s b k₁) :=
      h.held.setBuf hb rfl (fun _ _ hcc => by cases hcc) fun _ _ hq => by cases hq
    obtain ⟨hself, hother⟩ := h.uncharge hc hx hsum
    refine h.of_books hx (hheld.congr rfl rfl) rfl rfl Sock.destroy_uncharge
      (fun c kc z rw hcc hcz => ?_) hself hother fun hd' => ?_
    · rcases cases_update hcc with ⟨-, rfl⟩ | hcc
      · cases hcz
      · exact Or.inr (h.kept c kc z rw hcc hcz)
    · rw [Sock.destroy_uncharge, hd] at hd'
      cases hd'
  have hy₁ : s₁.socks y = some newsk := (Function.update_of_ne hxy.symm _ _).trans hy
  have h₂ := h₁.charge (b := b) (k := k₁)
    { k with sk := some y, queue := some (x, .rqueue), charged := some (y, k.rw) }
    (Function.update_self b _ s.bufs) rfl hy₁ rfl rfl fun z q hq => by
      cases hq
      exact ⟨hrw, fun hq => by cases hq⟩
  simp only [← hrw] at h₂
  unfold SockMem.connRequest
  simp only [← hrw]
  rwa [show ∀ k' sk', SockMem.setSock (SockMem.setBuf s₁ b k') y sk' = SockMem.setSock
    (SockMem.setSock (SockMem.setBuf s b k') x (sk.uncharge .read k.memLen)) y sk' from
      fun k' sk' => by
        simp only [s₁, SockMem.setSock, SockMem.setBuf, Function.update_idem]] at h₂

theorem setPhase {p : Phase} (h : Inv s)
    (hp : p ≠ .idle → ∃ sk, s.socks x = some sk ∧ sk.destroy = false) : Inv (setPhase s x p) where
  held := h.held.congr rfl rfl
  balanced := h.balanced
  kept := h.kept
  marked := h.marked
  destroying y hy := by
    change Function.update s.phase x p y ≠ .idle at hy
    by_cases hyx : y = x
    · rw [hyx, Function.update_self] at hy
      rw [hyx]
      exact hp hy
    · rw [Function.update_of_ne hyx] at hy
      exact h.destroying y hy

theorem destroySock (h : Inv s) (hx : s.socks x = some sk) (hd : sk.destroy = false) :
    Inv (destroySock s x sk) := by
  have hset : Inv (SockMem.setSock s x { sk with inuse := true, hashed := false }) :=
    h.setSock hx (fun rw => by cases rw <;> rfl) (h.marked x sk hx)
      fun hd' _ => Bool.noConfusion (hd.symm.trans hd')
  exact hset.setPhase fun _ => ⟨_, Function.update_self x _ s.socks, hd⟩

theorem destroyFree (h : Inv s) (hok : Fits s (.destroyFree x b)) :
    (destroyFree s x b).Ends (fun _ => False) Inv := by
  unfold SockMem.destroyFree
  split
  · next q k hphase hb =>
      split
      · next hq =>
          have hsk : s.socks x ≠ none := by
            obtain ⟨sk, hx, -⟩ := h.destroying x (by rw [hphase]; exact nofun)
            rw [hx]
            exact Option.some_ne_none sk
          rw [if_neg hsk]
          have hset : Inv (SockMem.setBuf s b { k with queue := none }) :=
            h.setBuf hb rfl rfl rfl fun _ _ hq => by cases hq
          exact hset.freeSkb (Function.update_self b _ s.bufs) (hok k hb)
            (Or.inl (h.held.queue b k hb x q hq).1)
      · trivial
  · trivial

theorem destroyNext (h : Inv s) : (destroyNext s x).Ends (fun _ => False) Inv := by
  unfold SockMem.destroyNext
  cases hphase : s.phase x with
  | idle => trivial
  | free q =>
      obtain ⟨sk, hx, hd⟩ := h.destroying x (by rw [hphase]; exact nofun)
      rw [hx]
      dsimp only
      split
      · exact h.setPhase fun _ => ⟨sk, hx, hd⟩
      · trivial
  | last =>
      obtain ⟨sk, hx, hd⟩ := h.destroying x (by rw [hphase]; exact nofun)
      rw [hx]
      dsimp only
      split
      · next hzero =>
          refine h.of_gone (h.held.congr rfl rfl) rfl (Function.update_self x _ _)
            (fun y hyx => Function.update_of_ne hyx _ _)
            (fun c kc y rw hc hcc => Or.inr (h.kept c kc y rw hc hcc)) (fun rw => ?_)
            fun _ _ _ => rfl
          refine (h.balanced x sk rw hx).symm.trans ?_
          cases rw with
          | read => exact hzero.1
          | write => exact hzero.2
      · next hzero =>
          have hidle : Inv (SockMem.setPhase s x .idle) := h.setPhase (absurd rfl)
          refine hidle.setSock hx (fun rw => by cases rw <;> rfl) (fun _ => ?_)
            fun _ _ => Function.update_self x _ _
          have hr : sk.rmemAlloc = charges s x .read := h.balanced x sk .read hx
          have hw : sk.wmemAlloc = charges s x .write := h.balanced x sk .write hx
          change 0 < charges s x .read + charges s x .write
          omega

/-- With a buffer, or not. -/
theorem withBuf {ok : Buf → Bool} {f : Buf → Outcome State} {allowed : String → Prop}
    (hf : ∀ k, s.bufs b = some k → ok k = true → (f k).Ends allowed Inv) :
    (withBuf s b ok f).Ends allowed Inv := by
  unfold SockMem.withBuf
  cases hb : s.bufs b with
  | none => trivial
  | some k =>
      dsimp only
      split
      · next hok => exact hf k hb hok
      · trivial

theorem withSock {ok : Sock → Bool} {f : Sock → Outcome State} {allowed : String → Prop}
    (hf : ∀ sk, s.socks x = some sk → ok sk = true → (f sk).Ends allowed Inv) :
    (withSock s x ok f).Ends allowed Inv := by
  unfold SockMem.withSock
  cases hx : s.socks x with
  | none => trivial
  | some sk =>
      dsimp only
      split
      · next hok => exact hf sk hx hok
      · trivial

theorem create (h : Inv s) (hx : s.socks x = none) (hsk : ∀ rw, sk.alloc rw = 0)
    (hd : sk.destroy = false) : Inv (SockMem.setSock s x sk) := by
  have hzero : ∀ rw, charges s x rw = 0 := by
    intro rw
    by_contra hne
    obtain ⟨b, -, k, hb, hw⟩ := exists_of_tally_pos (Nat.pos_of_ne_zero hne)
    have hc : k.charged = some (x, rw) := by
      by_contra hc
      rw [share, if_neg hc] at hw
      exact Nat.lt_irrefl 0 hw
    exact h.kept b k x rw hb hc hx
  have hcases : ∀ y k, (SockMem.setSock s x sk).socks y = some k →
      y = x ∧ k = sk ∨ s.socks y = some k := fun _ _ => cases_update
  have hkeep : ∀ y, s.socks y ≠ none → Function.update s.socks x (some sk) y = s.socks y :=
    fun y hy => Function.update_of_ne (fun hyx => hy (by rw [hyx, hx])) _ _
  constructor
  · exact h.held.congr rfl rfl
  · intro y k rw hy
    rcases hcases y k hy with ⟨rfl, rfl⟩ | hy
    · exact (hsk rw).trans (hzero rw).symm
    · exact h.balanced y k rw hy
  · intro c kc y rw hc hcc
    change Function.update s.socks x (some sk) y ≠ none
    rw [hkeep y (h.kept c kc y rw hc hcc)]
    exact h.kept c kc y rw hc hcc
  · intro y k hy hdy
    rcases hcases y k hy with ⟨rfl, rfl⟩ | hy
    · rw [hd] at hdy
      cases hdy
    · exact h.marked y k hy hdy
  · intro y hy
    obtain ⟨k, hk, hkd⟩ := h.destroying y hy
    change ∃ k, Function.update s.socks x (some sk) y = some k ∧ _
    rw [hkeep y (by rw [hk]; exact Option.some_ne_none k)]
    exact ⟨k, hk, hkd⟩

/-- `inuse` and the like change. -/
theorem flags (h : Inv s) (hx : s.socks x = some sk) (hsk : ∀ rw, sk'.alloc rw = sk.alloc rw)
    (hd : sk'.destroy = sk.destroy) : Inv (SockMem.setSock s x sk') := by
  refine h.setSock hx hsk (fun hd' => h.marked x sk hx (hd.symm.trans hd')) fun hd' hd'' => ?_
  rw [hd, hd''] at hd'
  cases hd'

theorem step (h : Inv s) {a : Act} (hok : Fits s a) :
    (step s a).Ends (fun m => m = "NULL pointer in tcp_rcv") Inv := by
  have hall : ∀ {o : Outcome State}, o.Ends (fun _ => False) Inv →
      o.Ends (fun m => m = "NULL pointer in tcp_rcv") Inv := fun ho => ho.allow fun _ hm => hm.elim
  unfold SockMem.step
  cases a with
  | create x inuse =>
      dsimp only
      split
      · next hx => exact h.create hx (fun rw => by cases rw <;> rfl) rfl
      · trivial
  | hold x =>
      exact withSock fun sk hx _ => h.flags hx (fun rw => by cases rw <;> rfl) rfl
  | release x =>
      exact withSock fun sk hx _ => h.flags hx (fun rw => by cases rw <;> rfl) rfl
  | arrive b size lock free => exact hall (h.malloc rfl rfl rfl)
  | wmalloc x b size force fails lock free => exact hall (h.sockMalloc hok)
  | rmalloc x b size force fails f => exact hall (h.sockMalloc hok)
  | wfree b =>
      refine withBuf fun k hb hk => hall ?_
      rw [decide_eq_true_eq] at hk
      exact h.sockFree hb (hok k hb) hk.2.symm
  | freeSkb b => exact withBuf fun k hb _ => hall (h.freeSkb hb (hok k hb) (Or.inl rfl))
  | rcv b x =>
      refine withBuf fun k hb hk => withSock fun sk hx _ => hall ?_
      rw [decide_eq_true_eq] at hk
      exact h.tcpRcv hb hx hk.2.2.2 hk.2.1 hk.1
  | redo b x y =>
      refine withBuf fun k hb hk => ?_
      rw [decide_eq_true_eq] at hk
      exact h.tcpRcvRedo hb hk y
  | connRequest b x y =>
      refine withBuf fun k hb hk => withSock fun sk hx _ => withSock fun newsk hy _ => ?_
      rw [decide_eq_true_eq] at hk
      exact h.connRequest hb hk.2.1 hk.2.2 hx hy (hok sk hx)
  | queue b x q =>
      refine withBuf fun k hb hk => withSock fun sk _ _ => ?_
      rw [decide_eq_true_eq] at hk
      refine h.setBuf hb rfl rfl rfl fun y q' hq' => ?_
      obtain rfl : q = q' := by
        cases hq'
        rfl
      exact ⟨hk.2.1.symm, fun hq => absurd hq hk.2.2⟩
  | unlink b =>
      exact withBuf fun k hb _ => h.setBuf hb rfl rfl rfl fun _ _ hq => by cases hq
  | destroySock x => exact withSock fun sk hx _ => h.destroySock hx (hok.2 sk hx)
  | destroyFree x b => exact hall (h.destroyFree hok)
  | destroyNext x => exact hall h.destroyNext

end Inv

/-! ### All runs -/

/-- The counters are the sums in every state of a run in which `malloc` does not fail behind a
charge, and buffers are charged to the sockets they name when they are freed. No freed `sock` or
`sk_buff` is used then. -/
theorem sockMem_sound_of_fits (hinit : Init s) (h : Reaches step Fits s s') :
    Sound s' ∧ ∀ a m, Fits s' a → step s' a = .panic m → m = "NULL pointer in tcp_rcv" := by
  have hinv : Inv s' := h.invariant (Inv.of_init hinit) fun _ _ _ ht hok hs => (ht.step hok).of_next hs
  refine ⟨hinv.sound, fun a m hok hs => ?_⟩
  have := hinv.step hok
  rw [hs] at this
  exact this

/-! ### Two runs -/

def empty : State where
  socks _ := none
  bufs _ := none
  known := ∅
  phase _ := .idle

theorem init_empty : Init empty := ⟨fun _ => rfl, fun _ => rfl, fun _ => rfl⟩

/-- A connection request to socket 1 makes socket 2, and socket 1 goes before it is accepted. An
acknowledgement of socket 2 is on its way when socket 2 goes. -/
def listenRun : List Act :=
  [.create 1 false, .arrive 10 112 false false, .rcv 10 1, .create 2 true,
    .wmalloc (some 2) 20 116 true false false false, .queue 20 2 .sendHead, .connRequest 10 1 2,
    .release 1, .arrive 11 112 false false, .rcv 11 1, .destroySock 1, .destroyNext 1,
    .destroyFree 1 10, .destroyNext 1, .destroyNext 1, .destroyNext 1, .destroyNext 1, .freeSkb 11,
    .wmalloc (some 2) 21 112 true false false false, .destroySock 2, .destroyNext 2, .destroyNext 2,
    .destroyFree 2 20, .destroyNext 2, .destroyNext 2, .destroyNext 2, .freeSkb 21]

theorem sockMem_sound_of_fits_listenRun :
    RunOk step Fits empty listenRun ∧ (∃ s, run step empty listenRun = .next s) ∧
      ∀ bs, bs <+: listenRun → ∀ s, run step empty bs = .next s →
        Sound s ∧ ∀ a m, Fits s a → step s a = .panic m → m = "NULL pointer in tcp_rcv" := by
  have hok : RunOk step Fits empty listenRun := by
    iterate 27 refine RunOk.cons (by decide) ?_
    exact True.intro
  exact ⟨hok, ⟨_, Outcome.eq_next (by decide) empty⟩, fun bs hpre s hs =>
    sockMem_sound_of_fits init_empty (Reaches.of_run hs (hok.of_prefix hpre))⟩

/-- There is no memory for an acknowledgement. -/
def chargedRun : List Act := [.create 1 false, .wmalloc (some 1) 10 112 true true false false]

theorem sockMem_not_sound : ∃ s, Init empty ∧ run step empty chargedRun = .next s ∧ ¬ Sound s := by
  refine ⟨_, init_empty, Outcome.eq_next (by decide) empty, fun h => ?_⟩
  have hsock : ((run step empty chargedRun).get empty).socks 1 =
      some ⟨112, 0, false, false, true⟩ := by decide
  exact absurd (h.balanced 1 _ .write hsock) (by decide)

end LinuxKernel.V098.Net.SockMem
