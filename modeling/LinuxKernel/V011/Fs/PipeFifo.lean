import LinuxKernel.V011.Fs.Pipe

/-!
# LinuxKernel.V011.Fs.PipeFifo

**A pipe is a FIFO** as long as neither task runs into the part of the page
that the other has claimed and not copied yet.

The invariant counts bytes from the beginning of the pipe: byte `i` belongs to
slot `i % 4096`. What is consumed and not taken is in its slots (`Inv.content`).
-/

namespace LinuxKernel.V011.Fs.Pipe

variable {s s' : State} {op : Op} {a b slot left chars size : Nat} {i : BitVec 16} {count : Int}
  {c : BitVec 8}

/-! ### Indices -/

theorem advance_toNat (h : i.toNat + chars < 65536) :
    (advance i chars).toNat = (i.toNat + chars) % 4096 := by
  have hmask : (4095#16).toNat = 2 ^ 12 - 1 := rfl
  rw [advance, BitVec.toNat_and, hmask, Nat.and_two_pow_sub_one_eq_mod, BitVec.toNat_add,
    BitVec.toNat_ofNat, Nat.mod_eq_of_lt (by omega : chars < 2 ^ 16), Nat.mod_eq_of_lt h]

/-- Bytes `a` to `a + left` have the slots of a chunk. -/
theorem slot_of_chunk (hs : slot = a % 4096) (hend : slot + left ≤ 4096) (hab : a ≤ b)
    (hb : b < a + left) : slot ≤ b % 4096 ∧ b % 4096 < slot + left := by
  omega

variable (size) in
theorem chunk_le (h : 0 < count) (hs : 0 < size) (hi : i.toNat < 4096) :
    0 < chunk i count size ∧ chunk i count size ≤ size ∧ i.toNat + chunk i count size ≤ 4096 := by
  simp only [chunk, PAGE_SIZE]
  omega

/-! ### The invariant -/

/-- How many bytes have been consumed, and claimed by the writer. -/
def claimedIn (s : State) : Nat := s.consumed.length + toFill s

/-- How many bytes have been taken, and claimed by the reader. -/
def claimedOut (s : State) : Nat := (taken s).length + toTake s

structure Inv (s : State) : Prop where
  head : s.head.toNat = claimedIn s % 4096
  tail : s.tail.toNat = claimedOut s % 4096
  fill : ∀ slot left, s.writer = .copying slot left →
    0 < left ∧ slot = s.consumed.length % 4096 ∧ slot + left ≤ 4096
  take : ∀ c slot left, s.reader = .copying c slot left → 0 < left →
    slot = (taken s).length % 4096 ∧ slot + left ≤ 4096
  le : claimedOut s ≤ claimedIn s
  room : claimedIn s ≤ claimedOut s + 4095
  arrived : (taken s).length ≤ s.consumed.length
  order : taken s = s.consumed.take (taken s).length
  content : ∀ i, (taken s).length ≤ i → i < s.consumed.length →
    s.consumed[i]? = some (s.page (i % 4096))

namespace Inv

theorem size_eq (h : Inv s) : pipeSize s = claimedIn s - claimedOut s := by
  have hh := h.head
  have ht := h.tail
  have hle := h.le
  have hroom := h.room
  simp only [pipeSize]
  omega

theorem fifo (h : Inv s) : Fifo s := by
  have hle := h.le
  have hroom := h.room
  have htaken : taken s <+: s.consumed := by
    rw [h.order]
    exact List.take_prefix ..
  refine ⟨?_, ?_, ?_, ?_, ?_⟩
  · refine List.IsPrefix.trans ?_ htaken
    rw [taken]
    split
    · exact List.prefix_append ..
    · exact List.prefix_refl _
  · rw [h.head]
    exact Nat.mod_lt _ (by decide)
  · rw [h.tail]
    exact Nat.mod_lt _ (by decide)
  · have hsize := h.size_eq
    simp only [claimedIn, claimedOut] at *
    omega
  · rw [h.size_eq, PAGE_SIZE]
    omega

/-- A task that is not copying changes only its own variables. -/
theorem of_same (h : Inv s) (hh : s'.head = s.head) (ht : s'.tail = s.tail)
    (hp : s'.page = s.page) (hc : s'.consumed = s.consumed) (hk : taken s' = taken s)
    (hfill : toFill s' = toFill s) (htake : toTake s' = toTake s)
    (hw : ∀ slot left, s'.writer = .copying slot left → s.writer = .copying slot left)
    (hr : ∀ c slot left, s'.reader = .copying c slot left → s.reader = .copying c slot left) :
    Inv s' where
  head := by rw [hh, claimedIn, hc, hfill]; exact h.head
  tail := by rw [ht, claimedOut, hk, htake]; exact h.tail
  fill := fun slot left hs => by rw [hc]; exact h.fill slot left (hw slot left hs)
  take := fun c slot left hs => by rw [hk]; exact h.take c slot left (hr c slot left hs)
  le := by rw [claimedIn, claimedOut, hc, hk, hfill, htake]; exact h.le
  room := by rw [claimedIn, claimedOut, hc, hk, hfill, htake]; exact h.room
  arrived := by rw [hc, hk]; exact h.arrived
  order := by rw [hc, hk]; exact h.order
  content := by rw [hc, hk, hp]; exact h.content

/-- The byte in the next slot has been consumed, if the writer has filled it. -/
theorem next_taken (h : Inv s) (hlt : (taken s).length < claimedIn s)
    (hok : ¬Unfilled s ((taken s).length % 4096)) :
    (taken s).length < s.consumed.length ∧
      taken s ++ [s.page ((taken s).length % 4096)] =
        s.consumed.take ((taken s).length + 1) := by
  have hlt' : (taken s).length < s.consumed.length := by
    by_contra hge
    apply hok
    have hfill : s.consumed.length + toFill s = claimedIn s := rfl
    cases hw : s.writer with
    | copying slot left =>
        have hleft : toFill s = left := by simp [toFill, hw]
        obtain ⟨-, hslot, hend⟩ := h.fill slot left hw
        simp only [Unfilled, hw]
        exact slot_of_chunk hslot hend (by omega) (by omega)
    | idle =>
        have h0 : toFill s = 0 := by simp [toFill, hw]
        omega
    | head =>
        have h0 : toFill s = 0 := by simp [toFill, hw]
        omega
    | asleep =>
        have h0 : toFill s = 0 := by simp [toFill, hw]
        omega
  refine ⟨hlt', ?_⟩
  have hbyte := h.content _ (le_refl _) hlt'
  rw [List.take_add_one, hbyte, ← h.order]
  rfl

/-- What the reader has claimed and not taken is in its chunk. -/
theorem untaken_of_lt (h : Inv s) (ha : (taken s).length ≤ a) (hb : a < claimedOut s) :
    Untaken s (a % 4096) := by
  have htake : (taken s).length + toTake s = claimedOut s := rfl
  cases hr : s.reader with
  | copying c slot left =>
      have hleft : toTake s = left := by simp [toTake, hr]
      obtain ⟨hslot, hend⟩ := h.take c slot left hr (by omega)
      simp only [Untaken, hr]
      exact slot_of_chunk hslot hend ha (by omega)
  | idle =>
      have h0 : toTake s = 0 := by simp [toTake, hr]
      omega
  | head =>
      have h0 : toTake s = 0 := by simp [toTake, hr]
      omega
  | asleep =>
      have h0 : toTake s = 0 := by simp [toTake, hr]
      omega

/-- The reader takes the next byte, and perhaps claims more. -/
theorem of_taken (h : Inv s) (hlt : (taken s).length < claimedIn s)
    (hok : ¬Unfilled s ((taken s).length % 4096)) (hh : s'.head = s.head)
    (hw : s'.writer = s.writer) (hp : s'.page = s.page) (hc : s'.consumed = s.consumed)
    (hk : taken s' = taken s ++ [s.page ((taken s).length % 4096)])
    (ht : s'.tail.toNat = claimedOut s' % 4096)
    (hr : ∀ c slot left, s'.reader = .copying c slot left →
      slot = (taken s).length % 4096 + 1 ∧ slot + left ≤ 4096)
    (hmore : claimedOut s ≤ claimedOut s') (hle : claimedOut s' ≤ claimedIn s) : Inv s' := by
  obtain ⟨hlt', hnext⟩ := h.next_taken hlt hok
  have hin : claimedIn s' = claimedIn s := by rw [claimedIn, claimedIn, hc, toFill, toFill, hw]
  have hlen : (taken s').length = (taken s).length + 1 := by rw [hk, List.length_append]; rfl
  have hroom := h.room
  refine ⟨?_, ht, ?_, fun c slot left hs hpos => ?_, ?_, ?_, ?_, ?_, fun i hi hi' => ?_⟩
  · rw [hh, hin]
    exact h.head
  · rw [hw, hc]
    exact h.fill
  · obtain ⟨hslot, hend⟩ := hr c slot left hs
    exact ⟨by omega, hend⟩
  · rw [hin]
    exact hle
  · omega
  · rw [hlen, hc]
    exact hlt'
  · rw [hlen, hc, hk, hnext]
  · rw [hc] at hi' ⊢
    rw [hp]
    exact h.content i (by omega) hi'

/-- A new chunk for the reader, which takes its first byte. -/
theorem readHead (h : Inv s) (htake : toTake s = 0) (hk : taken s = s.delivered)
    (hok : 0 < s.toRead → pipeSize s ≠ 0 → ¬Unfilled s s.tail.toNat) : Inv (readHead s) := by
  rw [Pipe.readHead]
  split
  · exact h.of_same rfl rfl rfl rfl hk.symm rfl htake.symm (fun _ _ hs => hs) (fun _ _ _ hs => by
      cases hs)
  rename_i hcount
  split
  · split
    · exact h.of_same rfl rfl rfl rfl hk.symm rfl htake.symm (fun _ _ hs => hs)
        (fun _ _ _ hs => by cases hs)
    · exact h.of_same rfl rfl rfl rfl hk.symm rfl htake.symm (fun _ _ hs => hs)
        (fun _ _ _ hs => by cases hs)
  rename_i hsize
  have htail := h.tail
  have hsz := h.size_eq
  have hout : claimedOut s = (taken s).length := by rw [claimedOut, htake, Nat.add_zero]
  rw [hout] at htail hsz
  obtain ⟨hpos, hmax, hend⟩ := chunk_le (pipeSize s) (i := s.tail)
    (show 0 < s.toRead by omega) (by omega) (by omega)
  dsimp only
  generalize chunk s.tail s.toRead (pipeSize s) = chars at *
  refine h.of_taken (by omega) ?_ rfl rfl rfl rfl ?_ ?_ (fun c slot left hs => ?_) ?_ ?_
  · rw [← htail]
    exact hok (by omega) hsize
  · rw [← htail, hk]
    rfl
  · rw [advance_toNat (by omega)]
    simp only [claimedOut, taken, toTake, List.length_append, List.length_singleton]
    rw [hk] at htail
    omega
  · cases hs
    omega
  · rw [hout, hk]
    simp only [claimedOut, taken, toTake, List.length_append, List.length_singleton]
    omega
  · simp only [claimedOut, taken, toTake, List.length_append, List.length_singleton]
    rw [hk] at hsz
    omega

theorem readGo (h : Inv s) (hok : CopyOk s .readGo) (hs : readGo s = .next s') : Inv s' := by
  have hhead (hr : s.reader = .head ∨ s.reader = .asleep) : Inv (Pipe.readHead s) := by
    refine h.readHead ?_ ?_ fun hcount hsize => hok s.tail.toNat ?_
    · rcases hr with hr | hr <;> simp [toTake, hr]
    · rcases hr with hr | hr <;> simp [taken, hr]
    · have hskip : ¬(s.toRead ≤ 0 ∨ pipeSize s = 0) := by
        rw [not_or]
        exact ⟨by omega, hsize⟩
      rcases hr with hr | hr <;> simp only [takeSlot, hr, if_neg hskip]
  rw [Pipe.readGo] at hs
  cases hr : s.reader with
  | idle =>
      rw [hr] at hs
      cases hs
  | head =>
      rw [hr] at hs
      obtain rfl := Outcome.next.inj hs
      exact hhead (.inl hr)
  | asleep =>
      rw [hr] at hs
      obtain rfl := Outcome.next.inj hs
      exact hhead (.inr hr)
  | copying c slot left =>
      rw [hr] at hs
      have hk : taken s = s.delivered ++ [c] := by simp [taken, hr]
      have htake : toTake s = left := by simp [toTake, hr]
      dsimp only at hs
      split at hs
      · rename_i h0
        obtain rfl := Outcome.next.inj hs
        exact h.of_same rfl rfl rfl rfl hk.symm rfl (htake.trans h0).symm (fun _ _ hs => hs)
          (fun _ _ _ hs => by cases hs)
      · rename_i hpos
        obtain rfl := Outcome.next.inj hs
        obtain ⟨hslot, hend⟩ := h.take c slot left hr (by omega)
        have hle := h.le
        have hout : claimedOut s = (taken s).length + left := by rw [claimedOut, htake]
        have hfill : ¬Unfilled s slot := hok slot (by simp [takeSlot, hr, hpos])
        have hout' : ∀ s₁ : State, taken s₁ = taken s ++ [s.page slot] → toTake s₁ = left - 1 →
            claimedOut s₁ = claimedOut s := fun s₁ h₁ h₂ => by
          rw [claimedOut, h₁, h₂, hout, List.length_append, List.length_singleton]
          omega
        rw [hslot] at hfill
        refine h.of_taken (by omega) hfill rfl rfl rfl rfl ?_ ?_ (fun c' slot' left' hs' => ?_)
          (hout' _ ?_ rfl).ge ((hout' _ ?_ rfl).trans_le hle)
        · rw [← hslot, hk]
          rfl
        · rw [hout' _ (by rw [hk]; rfl) rfl]
          exact h.tail
        · cases hs'
          omega
        · rw [hk]
          rfl
        · rw [hk]
          rfl

/-- A new chunk for the writer. -/
theorem writeHead (h : Inv s) (hfill : toFill s = 0) : Inv (writeHead s) := by
  rw [Pipe.writeHead]
  split
  · exact h.of_same rfl rfl rfl rfl rfl hfill.symm rfl (fun _ _ hs => by cases hs)
      (fun _ _ _ hs => hs)
  rename_i hcount
  split
  · split
    · exact h.of_same rfl rfl rfl rfl rfl hfill.symm rfl (fun _ _ hs => by cases hs)
        (fun _ _ _ hs => hs)
    · exact h.of_same rfl rfl rfl rfl rfl hfill.symm rfl (fun _ _ hs => by cases hs)
        (fun _ _ _ hs => hs)
  rename_i hsize
  have hhead := h.head
  have hsz := h.size_eq
  have hle := h.le
  have hin : claimedIn s = s.consumed.length := by rw [claimedIn, hfill, Nat.add_zero]
  rw [hin] at hhead hsz hle
  rw [PAGE_SIZE] at hsize
  obtain ⟨hpos, hmax, hend⟩ := chunk_le (PAGE_SIZE - 1 - pipeSize s) (i := s.head)
    (show 0 < s.toWrite by omega) (by rw [PAGE_SIZE]; omega) (by omega)
  dsimp only
  generalize chunk s.head s.toWrite (PAGE_SIZE - 1 - pipeSize s) = chars at *
  rw [PAGE_SIZE] at hmax
  refine ⟨?_, h.tail, fun slot left hs => ?_, h.take, ?_, ?_, h.arrived, h.order, h.content⟩
  · rw [advance_toNat (by omega)]
    simp only [claimedIn, toFill]
    omega
  · cases hs
    exact ⟨hpos, hhead, hend⟩
  · change claimedOut s ≤ s.consumed.length + chars
    omega
  · change s.consumed.length + chars ≤ claimedOut s + 4095
    omega

theorem writeGo (h : Inv s) (hok : CopyOk s (.writeGo c)) (hs : writeGo s c = .next s') :
    Inv s' := by
  rw [Pipe.writeGo] at hs
  cases hw : s.writer with
  | idle =>
      rw [hw] at hs
      cases hs
  | head =>
      rw [hw] at hs
      obtain rfl := Outcome.next.inj hs
      exact h.writeHead (by simp [toFill, hw])
  | asleep =>
      rw [hw] at hs
      obtain rfl := Outcome.next.inj hs
      exact h.writeHead (by simp [toFill, hw])
  | copying slot left =>
      rw [hw] at hs
      obtain rfl := Outcome.next.inj hs
      obtain ⟨hpos, hslot, hend⟩ := h.fill slot left hw
      have hfree : ¬Untaken s slot := hok slot left hw
      have harrived := h.arrived
      have hroom := h.room
      have hin : claimedIn s = s.consumed.length + left := by simp [claimedIn, toFill, hw]
      set s' : State := { s with
        page := Function.update s.page slot c
        consumed := s.consumed ++ [c]
        writer := if left - 1 = 0 then .head else .copying (slot + 1) (left - 1) } with hs'
      have hlen : s'.consumed.length = s.consumed.length + 1 := by simp [hs']
      have hin' : claimedIn s' = claimedIn s := by
        have hfill : toFill s' = left - 1 := by
          simp only [toFill, hs']
          split
          · rename_i slot' left' hc
            split at hc
            · cases hc
            · cases hc
              rfl
          · rename_i hc
            split at hc
            · omega
            · exact absurd rfl (hc _ _)
        rw [claimedIn, hfill, hlen, hin]
        omega
      refine ⟨?_, h.tail, fun slot' left' hc => ?_, h.take, ?_, ?_, ?_, ?_, fun i hi hi' => ?_⟩
      · rw [hin']
        exact h.head
      · simp only [hs'] at hc
        split at hc
        · cases hc
        · cases hc
          omega
      · rw [hin']
        exact h.le
      · rw [hin']
        exact h.room
      · rw [hlen]
        exact harrived.trans (Nat.le_succ _)
      · change taken s = (s.consumed ++ [c]).take (taken s).length
        rw [List.take_append_of_le_length harrived]
        exact h.order
      · change (s.consumed ++ [c])[i]? = some (Function.update s.page slot c (i % 4096))
        by_cases hlast : i = s.consumed.length
        · subst hlast
          rw [← hslot, Function.update_self]
          simp
        · have hlt : i < s.consumed.length := by omega
          have hne : i % 4096 ≠ slot := fun he => by
            -- the byte that would be lost is one that the reader has claimed
            have htaken : (taken s).length ≤ i := hi
            have hclaimed : i < claimedOut s := by omega
            rw [← he] at hfree
            exact hfree (h.untaken_of_lt htaken hclaimed)
          rw [Function.update_of_ne hne, List.getElem?_append_left hlt]
          exact h.content i hi hlt

theorem step (h : Inv s) (hok : CopyOk s op) (hs : Pipe.step s op = .next s') : Inv s' := by
  cases op with
  | read count =>
      simp only [Pipe.step] at hs
      split at hs
      · rename_i hidle
        obtain rfl := Outcome.next.inj hs
        have hk : taken s = s.delivered := by simp [taken, hidle]
        have htake : toTake s = 0 := by simp [toTake, hidle]
        exact h.of_same rfl rfl rfl rfl hk.symm rfl htake.symm (fun _ _ hs => hs)
          (fun _ _ _ hs => by cases hs)
      · cases hs
  | readGo => exact h.readGo hok hs
  | write count =>
      simp only [Pipe.step] at hs
      split at hs
      · rename_i hidle
        obtain rfl := Outcome.next.inj hs
        have hfill : toFill s = 0 := by simp [toFill, hidle]
        exact h.of_same rfl rfl rfl rfl rfl hfill.symm rfl (fun _ _ hs => by cases hs)
          (fun _ _ _ hs => hs)
      · cases hs
  | writeGo c => exact h.writeGo hok hs
  | close =>
      obtain rfl := Outcome.next.inj hs
      exact ⟨h.head, h.tail, h.fill, h.take, h.le, h.room, h.arrived, h.order, h.content⟩

end Inv

/-! ### Runs -/

theorem initial_inv (page : Nat → BitVec 8) : Inv (initial page) where
  head := rfl
  tail := rfl
  fill := fun slot left hs => by cases hs
  take := fun c slot left hs => by cases hs
  le := le_refl 0
  room := Nat.zero_le _
  arrived := le_refl 0
  order := rfl
  content := fun i _ hi => by cases hi

/-- **A pipe is a FIFO** in every run in which the two copying loops keep out of
each other's way. -/
theorem fifo_reaches {page : Nat → BitVec 8} (h : Reaches step CopyOk (initial page) s) :
    Fifo s :=
  (h.invariant (P := Inv) (initial_inv page) fun _ _ _ ht hok hs => ht.step hok hs).fifo

instance (s : State) (i : Nat) : Decidable (Unfilled s i) :=
  match h : s.writer with
  | .copying slot left => decidable_of_iff (slot ≤ i ∧ i < slot + left) (by rw [Unfilled, h])
  | .idle => isFalse (by rw [Unfilled, h]; exact id)
  | .head => isFalse (by rw [Unfilled, h]; exact id)
  | .asleep => isFalse (by rw [Unfilled, h]; exact id)

instance (s : State) (i : Nat) : Decidable (Untaken s i) :=
  match h : s.reader with
  | .copying c slot left => decidable_of_iff (slot ≤ i ∧ i < slot + left) (by rw [Untaken, h])
  | .idle => isFalse (by rw [Untaken, h]; exact id)
  | .head => isFalse (by rw [Untaken, h]; exact id)
  | .asleep => isFalse (by rw [Untaken, h]; exact id)

instance (s : State) : (op : Op) → Decidable (CopyOk s op)
  | .readGo =>
      match h : takeSlot s with
      | none => isTrue fun i hi => by rw [h] at hi; cases hi
      | some i =>
          decidable_of_iff (¬Unfilled s i)
            ⟨fun hu j hj => by rw [h] at hj; cases hj; exact hu, fun hu => hu i h⟩
  | .writeGo _ =>
      match h : s.writer with
      | .copying slot left =>
          decidable_of_iff (¬Untaken s slot)
            ⟨fun hu slot' left' hw => by rw [h] at hw; cases hw; exact hu, fun hu => hu slot left h⟩
      | .idle => isTrue fun slot left hw => by rw [h] at hw; cases hw
      | .head => isTrue fun slot left hw => by rw [h] at hw; cases hw
      | .asleep => isTrue fun slot left hw => by rw [h] at hw; cases hw
  | .read _ => isTrue True.intro
  | .write _ => isTrue True.intro
  | .close => isTrue True.intro

/-- Three bytes are written; then the reader takes two of them while the next
two are being written. -/
def overlapRun : List Op :=
  [.write 3, .writeGo 0, .writeGo 1, .writeGo 2, .writeGo 3, .writeGo 0, .write 2, .writeGo 0,
    .read 2, .readGo, .writeGo 4, .readGo, .readGo, .writeGo 5]

theorem fifo_reaches_overlapRun :
    Fifo ((run step (initial fun _ => 0) overlapRun).get (initial fun _ => 0)) :=
  fifo_reaches (Reaches.of_run
    (Outcome.eq_next (by decide) (initial fun _ => 0))
    (by
      repeat' first
        | exact True.intro
        | refine RunOk.cons (by decide) ?_))

/-- The writer sleeps in `get_fs_byte`, and the reader takes the slot as it was. -/
def staleRun : List Op := [.write 1, .writeGo 0, .read 1, .readGo, .readGo, .writeGo 7]

theorem not_fifo :
    ∃ s, run step (initial fun _ => 0) staleRun = .next s ∧ s.consumed = [7] ∧
      s.delivered = [0] ∧ ¬Fifo s :=
  ⟨_, Outcome.eq_next (by decide) (initial fun _ => 0), by decide +kernel,
    by decide, fun h => absurd h.inOrder (by decide +kernel)⟩

end LinuxKernel.V011.Fs.Pipe
