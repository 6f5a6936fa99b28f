import LinuxKernel.Lib.Descents
import LinuxKernel.V011.BlkDrv.Hd

/-!
# LinuxKernel.V011.BlkDrv.Elevator

**The request queue is an elevator**: `add_request` of `ll_rw_blk.c`, and what
the drivers do to the head of the queue.

- A buffer is named by its device and block. Block numbers come from zones of 16 bits, or
  from a position divided by `BLOCK_SIZE`.
- A buffer is locked while there is a request for it, so no second one is made.
- Only the head is in service: its sector may be one further than that of its block. The
  other sectors are even, so the head never reaches the next request of the queue.
-/

namespace LinuxKernel.V011.BlkDrv.Elevator

open Hd

structure Buffer where
  dev : Nat
  blocknr : Nat
  small : blocknr < 2 ^ 31
  deriving DecidableEq

/-- `b_blocknr<<1`. -/
def Buffer.sector (b : Buffer) : BitVec 32 := BitVec.ofNat 32 b.blocknr <<< 1

structure State where
  /-- `current_request`, and what follows it. -/
  queue : List Request
  /-- How many requests have been submitted, and which are completed, the last one first. -/
  made : Nat
  completed : List Nat

def initial : State := ⟨[], 0, []⟩

/-! ### The code -/

/-- The request is for buffer `b`. -/
def isFor (b : Buffer) (r : Request) : Bool := r.asked.dev = b.dev && r.asked.sector = b.sector

/-- `make_request` fills up the request: `data` is `b_data`, `bh` the address of the head. -/
def fill (b : Buffer) (cmd : Cmd) (data bh : Nat) : Asked where
  id := 0
  dev := b.dev
  cmd := cmd
  sector := b.sector
  buffer := data
  bh := bh

/-- `add_request`. -/
def addRequest (s : State) (a : Asked) : State :=
  let req := Request.new s.made a
  { s with
    made := s.made + 1
    queue := match s.queue with
      | [] => [req]
      | tmp :: rest => tmp :: insertAfter req tmp rest }

/-- `end_request`. -/
def endRequest (s : State) (r : Request) (rest : List Request) : State :=
  { s with queue := rest, completed := r.asked.id :: s.completed }

/-- `read_intr`, for a good sector. -/
def readIntr (s : State) (r : Request) (rest : List Request) : State :=
  let r := { r with
    errors := 0, buffer := r.buffer + 512, sector := r.sector + 1, nrSectors := r.nrSectors - 1 }
  if r.nrSectors ≠ 0 then { s with queue := r :: rest } else endRequest s r rest

/-- `write_intr`, for a good sector. -/
def writeIntr (s : State) (r : Request) (rest : List Request) : State :=
  let r := { r with nrSectors := r.nrSectors - 1 }
  if r.nrSectors ≠ 0 then
    { s with queue := { r with sector := r.sector + 1, buffer := r.buffer + 512 } :: rest }
  else endRequest s r rest

inductive Act
  | add (b : Buffer) (cmd : Cmd) (data bh : Nat)
  | endRequest
  | readIntr
  | writeIntr

def step (s : State) : Act → Outcome State
  | .add b cmd data bh =>
      if s.queue.any (isFor b) then .disabled else .next (addRequest s (fill b cmd data bh))
  | .endRequest =>
      match s.queue with
      | [] => .disabled
      | r :: rest => .next (endRequest s r rest)
  | .readIntr =>
      match s.queue with
      | [] => .disabled
      | r :: rest => .next (readIntr s r rest)
  | .writeIntr =>
      match s.queue with
      | [] => .disabled
      | r :: rest => .next (writeIntr s r rest)

/-! ### What is claimed -/

/-- The head of the queue is still there, or it has been completed. -/
def KeepsHead (s s' : State) : Prop :=
  ∀ r rest, s.queue = r :: rest →
    (∃ r' rest', s'.queue = r' :: rest' ∧ r'.asked = r.asked) ∨
      (s'.queue = rest ∧ s'.completed = r.asked.id :: s.completed)

structure Sound (s : State) : Prop where
  /-- What has been submitted and not completed, each request once. -/
  once : (s.queue.map (·.asked.id) ++ s.completed).Perm (List.range s.made)
  oneDescent : descents inOrder s.queue ≤ 1
  twoRuns : ∃ l₁ l₂, s.queue = l₁ ++ l₂ ∧ l₁.IsChain (fun a b => inOrder a b = true) ∧
    l₂.IsChain (fun a b => inOrder a b = true)
  served : ∀ a s', step s a = .next s' → KeepsHead s s'

/-! ### `IN_ORDER` -/

variable {s s' : State} {r r' req tmp : Request} {rest l : List Request} {b : Buffer}

theorem insertAfter_eq : insertAfter req tmp l = placeAfter inOrder req tmp l := by
  induction l generalizing tmp with
  | nil => rfl
  | cons next rest ih => rw [insertAfter, placeAfter, ih]

theorem Buffer.toNat_sector (b : Buffer) : b.sector.toNat = 2 * b.blocknr := by
  have := b.small
  rw [sector, BitVec.toNat_shiftLeft, BitVec.toNat_ofNat, Nat.shiftLeft_eq]
  omega

/-- A request that no driver has begun with. -/
structure Fresh (r : Request) : Prop where
  nrSectors : r.nrSectors = 2
  sector : r.sector = r.asked.sector
  buffer : ∃ b, isFor b r = true

/-- The head may have one sector behind it. -/
structure Head (r : Request) : Prop where
  nrSectors : r.nrSectors = 1 ∨ r.nrSectors = 2
  sector : r.sector.toNat = r.asked.sector.toNat + (2 - r.nrSectors)
  buffer : ∃ b, isFor b r = true

theorem isFor_iff : isFor b r = true ↔ r.asked.dev = b.dev ∧ r.asked.sector = b.sector := by
  simp [isFor]

theorem Fresh.head (h : Fresh r) : Head r :=
  ⟨Or.inr h.nrSectors, by rw [h.sector, h.nrSectors]; rfl, h.buffer⟩

/-- Requests for two buffers. -/
def Apart (r r' : Request) : Prop := r.asked.dev ≠ r'.asked.dev ∨ r.asked.sector ≠ r'.asked.sector

theorem inOrder_iff : inOrder r r' = true ↔ r.asked.cmd.toNat < r'.asked.cmd.toNat ∨
    r.asked.cmd = r'.asked.cmd ∧ (r.asked.dev < r'.asked.dev ∨
      r.asked.dev = r'.asked.dev ∧ r.sector.toNat < r'.sector.toNat) := by
  simp [inOrder, BitVec.lt_def]

theorem cmd_cases (c c' : Cmd) : c.toNat < c'.toNat ∨ c = c' ∨ c'.toNat < c.toNat := by
  cases c <;> cases c' <;> decide

/-- Sectors of two buffers of a device are at least two apart. -/
theorem Head.lt_or_lt (h : Head r) (h' : Fresh r') (hne : Apart r r')
    (hdev : r.asked.dev = r'.asked.dev) :
    r.sector.toNat + 1 < r'.sector.toNat ∨ r'.sector.toNat < r.asked.sector.toNat ∨
      r.sector.toNat < r'.sector.toNat ∧ r.nrSectors = 1 := by
  obtain ⟨b, hb⟩ := h.buffer
  obtain ⟨b', hb'⟩ := h'.buffer
  have hs := (isFor_iff.mp hb).2
  have hs' := (isFor_iff.mp hb').2
  have hsector : r.asked.sector ≠ r'.asked.sector := hne.resolve_left fun hd => hd hdev
  have hblock : r.asked.sector.toNat ≠ r'.asked.sector.toNat := fun he =>
    hsector (BitVec.eq_of_toNat_eq he)
  have heven := b.toNat_sector
  have heven' := b'.toNat_sector
  rw [← hs] at heven
  rw [← hs'] at heven'
  have hnr := h.nrSectors
  have hsec := h.sector
  rw [h'.sector]
  omega

/-- Requests for two buffers are in order one way or the other. -/
theorem inOrder_total (h : Head r) (h' : Fresh r') (hne : Apart r r') :
    inOrder r' r = true ∨ inOrder r r' = true := by
  rw [inOrder_iff, inOrder_iff]
  rcases cmd_cases r.asked.cmd r'.asked.cmd with hcmd | hcmd | hcmd
  · exact Or.inr (Or.inl hcmd)
  · by_cases hdev : r.asked.dev = r'.asked.dev
    · have hsector := h.lt_or_lt h' hne hdev
      have hhead := h.sector
      by_cases hlt : r.sector.toNat < r'.sector.toNat
      · exact Or.inr (Or.inr ⟨hcmd, Or.inr ⟨hdev, hlt⟩⟩)
      · exact Or.inl (Or.inr ⟨hcmd.symm, Or.inr ⟨hdev.symm, by omega⟩⟩)
    · rcases Nat.lt_or_gt_of_ne hdev with hlt | hlt
      · exact Or.inr (Or.inr ⟨hcmd, Or.inl hlt⟩)
      · exact Or.inl (Or.inr ⟨hcmd.symm, Or.inl hlt⟩)
  · exact Or.inl (Or.inl hcmd)

/-- The head stays before a request when its sector advances. -/
theorem inOrder_advance (h : Fresh r) (h' : Fresh r') (hne : Apart r r')
    (hr : req.asked = r.asked) (hsector : req.sector = r.sector + 1)
    (hin : inOrder r r' = true) : inOrder req r' = true := by
  rw [inOrder_iff] at hin ⊢
  rw [hr]
  refine hin.imp_right fun hin => ⟨hin.1, hin.2.imp_right fun hin => ⟨hin.1, ?_⟩⟩
  have hapart := h.head.lt_or_lt h' hne hin.1
  have hnr := h.nrSectors
  have hself := h.sector
  have hlt := r'.sector.isLt
  have hone : req.sector.toNat = (r.sector.toNat + 1) % 2 ^ 32 := by
    rw [hsector, BitVec.toNat_add]
    rfl
  have hlt' := hin.2
  rw [← hself] at hapart
  omega

/-! ### The invariant -/

/-- The head may be in service, and nothing else is. -/
def Served : List Request → Prop
  | [] => True
  | r :: rest => Head r ∧ ∀ r' ∈ rest, Fresh r'

structure Inv (s : State) : Prop where
  once : (s.queue.map (·.asked.id) ++ s.completed).Perm (List.range s.made)
  oneDescent : descents inOrder s.queue ≤ 1
  served : Served s.queue
  apart : s.queue.Pairwise Apart

theorem Apart.symm (h : Apart r r') : Apart r' r := h.imp Ne.symm Ne.symm

theorem fresh_new (b : Buffer) (cmd : Cmd) (id data bh : Nat) :
    Fresh (Request.new id (fill b cmd data bh)) :=
  ⟨rfl, rfl, b, isFor_iff.mpr ⟨rfl, rfl⟩⟩

theorem apart_new (cmd : Cmd) (id data bh : Nat) (h : isFor b r = false) :
    Apart r (Request.new id (fill b cmd data bh)) := by
  by_contra hnot
  obtain ⟨hdev, hsector⟩ := not_or.mp hnot
  have hfor := isFor_iff.mpr ⟨not_not.mp hdev, not_not.mp hsector⟩
  rw [h] at hfor
  cases hfor

namespace Inv

theorem addRequest (h : Inv s) (cmd : Cmd) (data bh : Nat)
    (hb : ∀ r ∈ s.queue, isFor b r = false) :
    Inv (addRequest s (fill b cmd data bh)) := by
  have hfresh := fresh_new b cmd s.made data bh
  have happart : ∀ r ∈ s.queue, Apart r (Request.new s.made (fill b cmd data bh)) :=
    fun r hr => apart_new cmd s.made data bh (hb r hr)
  have hid : (Request.new s.made (fill b cmd data bh)).asked.id = s.made := rfl
  obtain ⟨honce, hone, hserved, hdistinct⟩ := h
  unfold Elevator.addRequest
  cases hq : s.queue with
  | nil =>
      rw [hq] at honce
      refine ⟨?_, Nat.zero_le 1, ⟨hfresh.head, nofun⟩, List.pairwise_singleton _ _⟩
      rw [List.range_succ]
      exact (honce.cons s.made).trans (List.perm_append_singleton _ _).symm
  | cons tmp rest =>
      rw [hq] at honce hone hserved hdistinct happart
      dsimp only
      generalize Request.new s.made (fill b cmd data bh) = req at hfresh happart hid ⊢
      have hperm : (insertAfter req tmp rest).Perm (req :: rest) := by
        rw [insertAfter_eq]
        exact placeAfter_perm
      have hwhole : (tmp :: insertAfter req tmp rest).Perm (req :: tmp :: rest) :=
        (hperm.cons tmp).trans (List.Perm.swap req tmp rest)
      refine ⟨?_, ?_, ⟨hserved.1, fun r hr => ?_⟩, ?_⟩
      · rw [List.range_succ]
        refine ((hwhole.map (·.asked.id)).append_right s.completed).trans ?_
        rw [List.map_cons, List.cons_append, hid]
        exact (honce.cons s.made).trans (List.perm_append_singleton _ _).symm
      · dsimp only
        rw [insertAfter_eq]
        refine descents_placeAfter_le hone fun r hr => ?_
        have hr' := hserved.2 r hr
        exact (inOrder_total hr'.head hfresh (happart r (List.mem_cons_of_mem tmp hr)))
      · rcases List.mem_cons.mp (hperm.mem_iff.mp hr) with rfl | hr
        · exact hfresh
        · exact hserved.2 r hr
      · refine (hwhole.pairwise_iff fun hxy => hxy.symm).mpr (List.pairwise_cons.mpr ⟨?_, hdistinct⟩)
        exact fun r hr => (happart r hr).symm

theorem endRequest (h : Inv s) (hq : s.queue = r :: rest) : Inv (endRequest s r rest) := by
  obtain ⟨honce, hone, hserved, hdistinct⟩ := h
  rw [hq] at honce hone hserved hdistinct
  refine ⟨?_, descents_tail_le.trans hone, ?_, (List.pairwise_cons.mp hdistinct).2⟩
  · rw [List.map_cons, List.cons_append] at honce
    exact List.perm_middle.trans honce
  · cases rest with
    | nil => exact True.intro
    | cons r' rest =>
        exact ⟨(hserved.2 r' List.mem_cons_self).head, fun q hq' =>
          hserved.2 q (List.mem_cons_of_mem r' hq')⟩

/-- A sector of the head has been moved, and there is another one. -/
theorem advance (h : Inv s) (hq : s.queue = r :: rest) (hnr : r.nrSectors - 1 ≠ 0)
    (hreq : req.asked = r.asked) (hsector : req.sector = r.sector + 1)
    (hleft : req.nrSectors = r.nrSectors - 1) : Inv { s with queue := req :: rest } := by
  obtain ⟨honce, hone, hserved, hdistinct⟩ := h
  rw [hq] at honce hone hserved hdistinct
  obtain ⟨hhead, hrest⟩ := hserved
  have htwo : r.nrSectors = 2 := by
    have := hhead.nrSectors
    omega
  have hsame : r.sector = r.asked.sector := by
    refine BitVec.eq_of_toNat_eq ?_
    rw [hhead.sector, htwo]
    rfl
  have hfresh : Fresh r := ⟨htwo, hsame, hhead.buffer⟩
  obtain ⟨b, hb⟩ := hhead.buffer
  obtain ⟨hfirst, hpair⟩ := List.pairwise_cons.mp hdistinct
  have hone' : req.sector.toNat = (r.sector.toNat + 1) % 2 ^ 32 := by
    rw [hsector, BitVec.toNat_add]
    rfl
  have heven := b.toNat_sector
  rw [← (isFor_iff.mp hb).2] at heven
  have hlt := r.asked.sector.isLt
  refine ⟨?_, ?_, ⟨⟨?_, ?_, ⟨b, ?_⟩⟩, hrest⟩, List.pairwise_cons.mpr ⟨fun r' hr' => ?_, hpair⟩⟩
  · rw [List.map_cons, hreq]
    exact honce
  · refine (descents_head_le fun r' hr' hin => ?_).trans hone
    exact inOrder_advance hfresh (hrest r' hr') (hfirst r' hr') hreq hsector hin
  · rw [hleft, htwo]
    exact Or.inl rfl
  · rw [hone', hsame, hreq, hleft, htwo]
    omega
  · rw [isFor_iff, hreq]
    exact isFor_iff.mp hb
  · have hapart := hfirst r' hr'
    unfold Apart at hapart ⊢
    rw [hreq]
    exact hapart

theorem step (h : Inv s) {a : Act} (hs : step s a = .next s') : Inv s' := by
  cases a with
  | add b cmd data bh =>
      simp only [Elevator.step] at hs
      split at hs
      · cases hs
      · next hfree =>
        cases hs
        refine h.addRequest cmd data bh fun r hr => ?_
        rw [Bool.not_eq_true, List.any_eq_false] at hfree
        exact Bool.not_eq_true _ ▸ hfree r hr
  | endRequest =>
      simp only [Elevator.step] at hs
      split at hs
      · cases hs
      · next r rest hq =>
        cases hs
        exact h.endRequest hq
  | readIntr =>
      simp only [Elevator.step] at hs
      split at hs
      · cases hs
      · next r rest hq =>
        cases hs
        unfold readIntr
        dsimp only
        split
        · next hnr => exact h.advance hq hnr rfl rfl rfl
        · change Inv (Elevator.endRequest s r rest)
          exact h.endRequest hq
  | writeIntr =>
      simp only [Elevator.step] at hs
      split at hs
      · cases hs
      · next r rest hq =>
        cases hs
        unfold writeIntr
        dsimp only
        split
        · next hnr => exact h.advance hq hnr rfl rfl rfl
        · change Inv (Elevator.endRequest s r rest)
          exact h.endRequest hq

end Inv

/-- The head leaves the queue only when it is completed. -/
theorem step_keepsHead {a : Act} (hs : step s a = .next s') : KeepsHead s s' := by
  intro r rest hq
  cases a with
  | add b cmd data bh =>
      simp only [step, hq] at hs
      split at hs
      · cases hs
      · cases hs
        refine Or.inl ⟨r, insertAfter (Request.new s.made (fill b cmd data bh)) r rest, ?_, rfl⟩
        simp only [addRequest, hq]
  | endRequest =>
      simp only [step, hq] at hs
      cases hs
      exact Or.inr ⟨rfl, rfl⟩
  | readIntr =>
      simp only [step, hq] at hs
      cases hs
      unfold readIntr
      dsimp only
      split
      · exact Or.inl ⟨_, rest, rfl, rfl⟩
      · exact Or.inr ⟨rfl, rfl⟩
  | writeIntr =>
      simp only [step, hq] at hs
      cases hs
      unfold writeIntr
      dsimp only
      split
      · exact Or.inl ⟨_, rest, rfl, rfl⟩
      · exact Or.inr ⟨rfl, rfl⟩

theorem inv_initial : Inv initial :=
  ⟨List.Perm.refl _, Nat.zero_le 1, True.intro, List.Pairwise.nil⟩

/-- **The request queue is an elevator.** -/
theorem elevator_reaches (h : Reaches step (fun _ _ => True) initial s) : Sound s := by
  have hinv : Inv s := h.invariant inv_initial fun _ _ _ ht _ hs => ht.step hs
  exact ⟨hinv.once, hinv.oneDescent, descents_le_one.mp hinv.oneDescent,
    fun _ _ hs => step_keepsHead hs⟩

/-- Four requests, the first of them half done when one comes in that is before it. -/
def roundRun : List Act :=
  [.add ⟨0x301, 40, by decide⟩ .read 0 0, .add ⟨0x301, 60, by decide⟩ .read 1024 1, .readIntr,
    .add ⟨0x301, 20, by decide⟩ .read 2048 2, .add ⟨0x301, 10, by decide⟩ .write 3072 3, .readIntr]

theorem elevator_reaches_roundRun :
    (run step initial roundRun).isNext = true ∧ Sound ((run step initial roundRun).get initial) := by
  have hnext : (run step initial roundRun).isNext = true := by decide
  exact ⟨hnext, elevator_reaches
    (Reaches.of_run (Outcome.eq_next hnext initial) (RunOk.trivial step initial roundRun))⟩

end LinuxKernel.V011.BlkDrv.Elevator
