import LinuxKernel.V011.BlkDrv.Hd

/-!
# LinuxKernel.V011.BlkDrv.HdOnce

**Every request is finished exactly once**, and for a reason, in the runs whose
steps are `Ok`.

- `Core` is about the queue and the log. Only the head of the queue has a history.
- `Underway` ties the command that the controller is at to the head.
- `work` bounds the steps that are left until the queue is empty.
-/

namespace LinuxKernel.V011.BlkDrv.Hd

variable {D : Disks} {s s' : State} {q : Asked} {r : Request} {rest : List Request}
  {log : List Event} {made : Nat}

/-! ### Events -/

def Event.asked : Event → Asked
  | .moved q _ _ _ => q
  | .failed q => q
  | .ended q _ => q

/-- The log says nothing about `q`. -/
def Untouched (q : Asked) (log : List Event) : Prop := ∀ e ∈ log, e.asked.id ≠ q.id

theorem Untouched.cons (h : Untouched q log) {e : Event} (he : e.asked.id ≠ q.id) :
    Untouched q (e :: log) := by
  intro e' he'
  rcases List.mem_cons.mp he' with rfl | hmem
  · exact he
  · exact h e' hmem

theorem Untouched.transfers (h : Untouched q log) : transfers q log = [] := by
  induction log with
  | nil => rfl
  | cons e log ih =>
      have hlog := ih fun e' he' => h e' (List.mem_cons_of_mem _ he')
      have he := h e List.mem_cons_self
      cases e with
      | moved q' drive lba addr =>
          have hq : q' ≠ q := fun hq => he (congrArg Asked.id hq)
          rw [Hd.transfers, if_neg hq, hlog]
      | failed q' => exact hlog
      | ended q' up => exact hlog

/-! ### The head of the queue -/

/-- The sectors that are behind a request. -/
inductive Progress (D : Disks) (log : List Event) (r : Request) : Prop
  | none (hnr : r.nrSectors = 2) (hsector : r.sector = r.asked.sector)
      (hbuffer : r.buffer = r.asked.buffer) (hlog : transfers r.asked log = [])
  | one (hnr : r.nrSectors = 1) (hsector : r.sector = r.asked.sector + 1)
      (hbuffer : r.buffer = r.asked.buffer + 512)
      (hfits : (D.hd (minor r.asked.dev)).startSect.toNat + r.asked.sector.toNat + 1 < 2 ^ 32)
      (hlog : transfers r.asked log = [place D r.asked 0])

/-- A request that has not been looked at. -/
structure Fresh (log : List Event) (r : Request) : Prop where
  sector : r.sector = r.asked.sector
  buffer : r.buffer = r.asked.buffer
  nrSectors : r.nrSectors = 2
  errors : r.errors = 0
  untouched : Untouched r.asked log

theorem Fresh.progress (h : Fresh log r) : Progress D log r :=
  .none h.nrSectors h.sector h.buffer h.untouched.transfers

theorem Fresh.cons (h : Fresh log r) {e : Event} (he : e.asked.id ≠ r.asked.id) :
    Fresh (e :: log) r :=
  ⟨h.sector, h.buffer, h.nrSectors, h.errors, h.untouched.cons he⟩

/-- The head has a history, and what follows has none. -/
def Queued (D : Disks) (log : List Event) : List Request → Prop
  | [] => True
  | r :: rest => Progress D log r ∧ r.errors < MAX_ERRORS ∧ ∀ r' ∈ rest, Fresh log r'

theorem queued_of_fresh {queue : List Request} (h : ∀ r ∈ queue, Fresh log r) :
    Queued D log queue := by
  cases queue with
  | nil => exact True.intro
  | cons r rest =>
      have hr := h r List.mem_cons_self
      refine ⟨hr.progress, ?_, fun r' hr' => h r' (List.mem_cons_of_mem r hr')⟩
      rw [hr.errors]
      exact Nat.succ_pos 6

/-- The invariant of the queue and the log. -/
structure Core (D : Disks) (queue : List Request) (log : List Event) (made : Nat) : Prop where
  once : (queue.map (·.asked.id) ++ left log).Perm (List.range made)
  right : Right D log
  queued : Queued D log queue
  known : ∀ e ∈ log, e.asked.id < made

theorem known_cons (h : ∀ e ∈ log, e.asked.id < made) {e : Event} (he : e.asked.id < made) :
    ∀ e' ∈ e :: log, e'.asked.id < made := by
  intro e' he'
  rcases List.mem_cons.mp he' with rfl | hmem
  · exact he
  · exact h e' hmem

namespace Core

theorem id_lt {queue : List Request} (h : Core D queue log made) (hr : r ∈ queue) :
    r.asked.id < made := by
  have hmem : r.asked.id ∈ queue.map (·.asked.id) ++ left log :=
    List.mem_append_left _ (List.mem_map_of_mem hr)
  exact List.mem_range.mp (h.once.mem_iff.mp hmem)

/-- Nobody else in the queue has the id of the head. -/
theorem id_ne (h : Core D (r :: rest) log made) {r' : Request} (hr' : r' ∈ rest) :
    r.asked.id ≠ r'.asked.id := by
  have hnodup := h.once.nodup_iff.mpr List.nodup_range
  rw [List.map_cons, List.cons_append, List.nodup_cons] at hnodup
  intro hid
  apply hnodup.1
  rw [hid]
  exact List.mem_append_left _ (List.mem_map_of_mem hr')

/-- The head changes and something happens to it. -/
theorem head {r' : Request} {e : Event} (h : Core D (r :: rest) log made)
    (hr' : r'.asked = r.asked) (he : e.asked = r.asked) (hleft : left (e :: log) = left log)
    (hright : Right D (e :: log)) (hprogress : Progress D (e :: log) r')
    (herrors : r'.errors < MAX_ERRORS) : Core D (r' :: rest) (e :: log) made where
  once := by
    rw [List.map_cons, hr', hleft]
    exact h.once
  right := hright
  queued := by
    refine ⟨hprogress, herrors, fun r'' hr'' => (h.queued.2.2 r'' hr'').cons ?_⟩
    rw [he]
    exact h.id_ne hr''
  known := known_cons h.known (by rw [he]; exact h.id_lt List.mem_cons_self)

/-- The head leaves the queue. -/
theorem ended {up : Bool} (h : Core D (r :: rest) log made)
    (hright : Right D (.ended r.asked up :: log)) :
    Core D rest (.ended r.asked up :: log) made where
  once := by
    refine List.Perm.trans ?_ h.once
    rw [List.map_cons, List.cons_append]
    exact List.perm_middle
  right := hright
  queued := queued_of_fresh fun r' hr' => (h.queued.2.2 r' hr').cons (h.id_ne hr')
  known := known_cons h.known (h.id_lt List.mem_cons_self)

theorem failed (h : Core D (r :: rest) log made) (herrors : r.errors + 1 < MAX_ERRORS) :
    Core D ({ r with errors := r.errors + 1 } :: rest) (.failed r.asked :: log) made := by
  refine h.head rfl rfl rfl h.right ?_ herrors
  cases h.queued.1 with
  | none hnr hsector hbuffer hlog => exact .none hnr hsector hbuffer hlog
  | one hnr hsector hbuffer hfits hlog => exact .one hnr hsector hbuffer hfits hlog

/-- `MAX_ERRORS` failures in a row. -/
theorem gaveUp (h : Core D (r :: rest) log made)
    (hfailures : MAX_ERRORS ≤ failures r.asked log + 1) :
    Core D rest (.ended r.asked false :: .failed r.asked :: log) made := by
  have hright : Right D (.failed r.asked :: log) := h.right
  have hid := h.id_lt List.mem_cons_self
  refine ⟨?_, ⟨Or.inr ?_, hright⟩, queued_of_fresh fun r' hr' => ?_,
    known_cons (known_cons h.known (e := .failed r.asked) hid) hid⟩
  · refine List.Perm.trans ?_ h.once
    rw [List.map_cons, List.cons_append]
    exact List.perm_middle
  · rw [failures, if_pos rfl]
    exact hfailures
  · exact ((h.queued.2.2 r' hr').cons (e := .failed r.asked) (h.id_ne hr')).cons (h.id_ne hr')

/-- The two sectors are not in the partition. -/
theorem refused (h : Core D (r :: rest) log made) (hrefused : Refused D r)
    (hnr : r.nrSectors = 2) : Core D rest (.ended r.asked false :: log) made := by
  refine h.ended ⟨Or.inl fun hfits => ?_, h.right⟩
  have hsector : r.sector = r.asked.sector := by
    cases h.queued.1 with
    | none hnr' hsector hbuffer hlog => exact hsector
    | one hnr' hsector hbuffer hfits hlog => omega
  obtain ⟨hdev, hsize⟩ := hfits
  cases hrefused with
  | inl hle => omega
  | inr hlt =>
      rw [hsector, BitVec.lt_def, BitVec.toNat_add] at hlt
      have := Nat.mod_le (r.asked.sector.toNat + (2 : BitVec 32).toNat) (2 ^ 32)
      have h2 : (2 : BitVec 32).toNat = 2 := rfl
      omega

/-- Where the next sector of the head is. -/
theorem place_eq (h : Progress D log r) :
    (minor r.asked.dev / 5, (D.hd (minor r.asked.dev)).startSect.toNat + r.sector.toNat, r.buffer) =
      place D r.asked (2 - r.nrSectors) := by
  unfold place
  cases h with
  | none hnr hsector hbuffer hlog =>
      rw [hnr, hsector, hbuffer]
      rfl
  | one hnr hsector hbuffer hfits hlog =>
      have hnat : r.sector.toNat = r.asked.sector.toNat + 1 := by
        rw [hsector, BitVec.toNat_add]
        have h1 : (1 : BitVec 32).toNat = 1 := rfl
        omega
      rw [hnr, hnat, hbuffer]
      rfl

/-- The first sector has been moved. -/
theorem moved {r' : Request} (h : Core D (r :: rest) log made) (hnr : r.nrSectors = 2)
    (hfits : (D.hd (minor r.asked.dev)).startSect.toNat + r.sector.toNat + 1 < 2 ^ 32)
    (hasked : r'.asked = r.asked) (hnr' : r'.nrSectors = 1) (hsector' : r'.sector = r.sector + 1)
    (hbuffer' : r'.buffer = r.buffer + 512) (herrors : r'.errors < MAX_ERRORS) :
    Core D (r' :: rest) (.moved r.asked (minor r.asked.dev / 5)
      ((D.hd (minor r.asked.dev)).startSect.toNat + r.sector.toNat) r.buffer :: log) made := by
  have hplace := place_eq h.queued.1
  refine h.head hasked rfl rfl h.right ?_ herrors
  cases h.queued.1 with
  | none hnr₂ hsector hbuffer hlog =>
      refine .one hnr' (by rw [hasked, hsector', hsector]) (by rw [hasked, hbuffer', hbuffer]) ?_ ?_
      · rw [hasked, ← hsector]
        exact hfits
      · rw [hasked, transfers, if_pos rfl, hplace, hnr, hlog]
  | one hnr₁ hsector hbuffer hfits₁ hlog => omega

/-- The second sector has been moved. -/
theorem done (h : Core D (r :: rest) log made) (hnr : r.nrSectors = 1) :
    Core D rest (.ended r.asked true :: .moved r.asked (minor r.asked.dev / 5)
      ((D.hd (minor r.asked.dev)).startSect.toNat + r.sector.toNat) r.buffer :: log) made := by
  have hplace := place_eq h.queued.1
  have hid := h.id_lt List.mem_cons_self
  set e : Event := .moved r.asked (minor r.asked.dev / 5)
    ((D.hd (minor r.asked.dev)).startSect.toNat + r.sector.toNat) r.buffer with he
  refine ⟨?_, ⟨?_, h.right⟩, queued_of_fresh fun r' hr' => ?_,
    known_cons (known_cons h.known (e := e) hid) hid⟩
  · refine List.Perm.trans ?_ h.once
    rw [List.map_cons, List.cons_append]
    exact List.perm_middle
  · cases h.queued.1 with
    | none hnr' hsector hbuffer hlog => omega
    | one hnr' hsector hbuffer hfits' hlog =>
        rw [he, transfers, if_pos rfl, hplace, hnr, hlog]
  · exact ((h.queued.2.2 r' hr').cons (e := e) (h.id_ne hr')).cons (h.id_ne hr')

/-- A new request is put somewhere behind the head. -/
theorem add {queue queue' : List Request} {a : Asked} (h : Core D queue log made)
    (hperm : queue'.Perm (Request.new made a :: queue))
    (hhead : ∀ r rest, queue = r :: rest → ∃ rest', queue' = r :: rest') :
    Core D queue' log (made + 1) where
  once := by
    rw [List.range_succ]
    refine ((hperm.map _).append_right _).trans ?_
    rw [List.map_cons, List.cons_append]
    exact (List.perm_append_singleton made _).symm.trans (h.once.append_right [made])
  right := h.right
  queued := by
    have hnew : Fresh log (Request.new made a) :=
      ⟨rfl, rfl, rfl, rfl, fun e he => Nat.ne_of_lt (h.known e he)⟩
    cases queue with
    | nil =>
        refine queued_of_fresh fun r hr => ?_
        rw [List.mem_singleton.mp (hperm.mem_iff.mp hr)]
        exact hnew
    | cons r rest =>
        obtain ⟨rest', rfl⟩ := hhead r rest rfl
        have hrest : rest'.Perm (Request.new made a :: rest) :=
          (hperm.trans (List.Perm.swap r (Request.new made a) rest)).cons_inv
        refine ⟨h.queued.1, h.queued.2.1, fun r' hr' => ?_⟩
        rcases List.mem_cons.mp (hrest.mem_iff.mp hr') with rfl | hmem
        · exact hnew
        · exact h.queued.2.2 r' hmem
  known e he := (h.known e he).trans (Nat.lt_succ_self made)

end Core

/-! ### What is left to do -/

def weight (r : Request) : Nat := 64 * r.nrSectors + 8 * (MAX_ERRORS - r.errors)

def weights (queue : List Request) : Nat := (queue.map weight).sum

/-- A reset takes a recalibration, and that takes a command. -/
def stage (s : State) : Nat :=
  if s.inRequest then if s.reset then 6 else if s.recalibrate then 4 else 2
  else match s.queue, s.doHd with
    | _ :: _, some .recalIntr => if s.recalibrate then 5 else 3
    | _, _ => 1

def work (s : State) : Nat := weights s.queue + stage s

theorem stage_pos (s : State) : 0 < stage s := by
  unfold stage
  repeat' split
  all_goals omega

theorem stage_le (s : State) : stage s ≤ 6 := by
  unfold stage
  repeat' split
  all_goals omega

theorem work_lt (h : weights s'.queue + 8 ≤ weights s.queue) : work s' < work s := by
  have := stage_pos s
  have := stage_le s'
  unfold work
  omega

theorem weights_cons (r : Request) (rest : List Request) :
    weights (r :: rest) = weight r + weights rest := by
  unfold weights
  rw [List.map_cons, List.sum_cons]

/-! ### The steps -/

/-- The command under way goes on with the next sector of `r`. -/
structure InPlace (D : Disks) (ctl : Controller) (r : Request) : Prop where
  drive : ctl.drive = minor r.asked.dev / 5
  lba : ctl.lba = (D.hd (minor r.asked.dev)).startSect.toNat + r.sector.toNat
  left : ctl.left = r.nrSectors
  fits : r.nrSectors = 2 →
    (D.hd (minor r.asked.dev)).startSect.toNat + r.sector.toNat + 1 < 2 ^ 32

/-- The interrupt that is awaited is for the head. -/
def Underway (D : Disks) (s : State) (r : Request) : Prop :=
  match s.doHd with
  | none => False
  | some .readIntr => InPlace D s.ctl r
  | some .writeIntr => InPlace D s.ctl r ∧ s.ctl.data = some r.buffer
  | some .recalIntr => s.reset = false

structure Inv (D : Disks) (s : State) : Prop where
  core : Core D s.queue s.log s.made
  underway : s.inRequest = false → ∀ r rest, s.queue = r :: rest → Underway D s r

theorem Inv.of_inRequest (h : Core D s.queue s.log s.made) (hin : s.inRequest = true) : Inv D s :=
  ⟨h, fun hout => by rw [hin] at hout; cases hout⟩

theorem Inv.finishes (h : Inv D s) : Finishes D s where
  once := h.core.once
  right := h.core.right
  awaited hout hne hnone := by
    obtain ⟨r, rest, hq⟩ := List.exists_cons_of_ne_nil hne
    have hunder := h.underway hout r rest hq
    rw [Underway, hnone] at hunder
    exact hunder

/-- The next sector is the first or the second. -/
theorem Progress.nrSectors (h : Progress D log r) : r.nrSectors = 2 ∨ r.nrSectors = 1 := by
  cases h with
  | none hnr hsector hbuffer hlog => exact Or.inl hnr
  | one hnr hsector hbuffer hfits hlog => exact Or.inr hnr

theorem badRwIntr_ends (h : Core D s.queue s.log s.made) (hok : BadOk s.log s.queue)
    (hne : s.queue ≠ []) :
    (badRwIntr s).Ends (· ≠ nullCurrent) fun s' => Core D s'.queue s'.log s'.made ∧
      weights s'.queue + 8 ≤ weights s.queue ∧ s'.inRequest = s.inRequest := by
  obtain ⟨r, rest, hq⟩ := List.exists_cons_of_ne_nil hne
  rw [hq] at h hok
  have herrors := h.queued.2.1
  have hnr := h.queued.1.nrSectors
  unfold badRwIntr
  rw [hq]
  dsimp only
  by_cases hmax : MAX_ERRORS ≤ r.errors + 1
  · obtain ⟨hrest, hfailures⟩ := hok hmax
    obtain ⟨r', rest', rfl⟩ := List.exists_cons_of_ne_nil hrest
    rw [if_pos hmax]
    dsimp only [endRequest]
    have hcore := h.gaveUp hfailures
    have hweight : weights (r' :: rest') + 8 ≤ weights (r :: r' :: rest') := by
      rw [weights_cons r, weight]
      omega
    split
    · exact ⟨hcore, hweight, rfl⟩
    · exact ⟨hcore, hweight, rfl⟩
  · rw [if_neg hmax]
    dsimp only
    have hcore := h.failed (by omega)
    have hweight : weights ({ r with errors := r.errors + 1 } :: rest) + 8 ≤
        weights (r :: rest) := by
      rw [weights_cons, weights_cons, weight, weight]
      dsimp only
      omega
    split
    · exact ⟨hcore, hweight, rfl⟩
    · exact ⟨hcore, hweight, rfl⟩

theorem again_ends {o : Outcome State} {n : Nat}
    (h : o.Ends (· ≠ nullCurrent) fun s' => Core D s'.queue s'.log s'.made ∧
      weights s'.queue + 8 ≤ n ∧ s'.inRequest = s.inRequest) :
    (o.bind fun s => .next (again s)).Ends (· ≠ nullCurrent) fun s' =>
      Inv D s' ∧ weights s'.queue + 8 ≤ n :=
  h.bind fun _ hs => ⟨Inv.of_inRequest hs.1 rfl, hs.2.1⟩

theorem toNat_succ {start : Nat} {b : BitVec 32} (h : start + b.toNat + 1 < 2 ^ 32) :
    (b + 1).toNat = b.toNat + 1 := by
  rw [BitVec.toNat_add]
  have h1 : (1 : BitVec 32).toNat = 1 := rfl
  omega

/-- The controller has moved the next sector of the head. -/
theorem transfer_eq {addr : Nat} (hp : InPlace D s.ctl r) (hnr : r.nrSectors ≠ 0) :
    transfer s r.asked addr = { s with
      ctl := { s.ctl with lba := s.ctl.lba + 1, left := s.ctl.left - 1, data := none }
      log := .moved r.asked (minor r.asked.dev / 5)
        ((D.hd (minor r.asked.dev)).startSect.toNat + r.sector.toNat) addr :: s.log } := by
  rw [transfer, if_neg (by rw [hp.left]; exact hnr), hp.drive, hp.lba]

theorem InPlace.next {r' : Request} {data : Option Nat} (hp : InPlace D s.ctl r)
    (hnr : r.nrSectors = 2) (hasked : r'.asked = r.asked) (hnr' : r'.nrSectors = 1)
    (hsector : r'.sector = r.sector + 1) :
    InPlace D ⟨s.ctl.drive, s.ctl.lba + 1, s.ctl.left - 1, data⟩ r' where
  drive := by rw [hasked]; exact hp.drive
  lba := by
    rw [hasked, hsector, toNat_succ (hp.fits hnr), hp.lba]
    rfl
  left := by
    rw [hnr', hp.left, hnr]
  fits h := by omega

theorem readIntr_ends (h : Core D s.queue s.log s.made) (hq : s.queue = r :: rest)
    (hp : InPlace D s.ctl r) (good : Bool)
    (hok : good = false → BadOk s.log s.queue) :
    (readIntr s good).Ends (· ≠ nullCurrent) fun s' =>
      Inv D s' ∧ weights s'.queue + 8 ≤ weights s.queue := by
  unfold readIntr
  cases good with
  | false =>
      exact again_ends (badRwIntr_ends h (hok rfl) (by rw [hq]; exact List.cons_ne_nil _ _))
  | true =>
      rw [hq] at h ⊢
      have hnr := h.queued.1.nrSectors
      have hpos : r.nrSectors ≠ 0 := by omega
      simp only [if_true, transfer_eq hp hpos]
      cases hnr with
      | inl htwo =>
          rw [if_pos (by omega)]
          set r' : Request := ⟨r.asked, 0, r.sector + 1, r.nrSectors - 1, r.buffer + 512⟩ with hr'
          have hnr' : r'.nrSectors = 1 := by rw [hr', htwo]
          refine ⟨⟨h.moved htwo (hp.fits htwo) rfl hnr' rfl rfl (Nat.succ_pos 6),
            fun _ r₁ rest₁ hq₁ => ?_⟩, ?_⟩
          · obtain ⟨rfl, rfl⟩ := List.cons.inj hq₁
            exact hp.next htwo rfl hnr' rfl
          · have hweight : weight r' = 120 := by
              rw [weight, hnr']
              rfl
            rw [weights_cons, weights_cons, hweight, weight, htwo]
            omega
      | inr hone =>
          rw [if_neg (by omega)]
          refine ⟨Inv.of_inRequest (h.done hone) rfl, ?_⟩
          rw [weights_cons, weight]
          dsimp only [again, endRequest]
          omega

theorem writeIntr_ends (h : Core D s.queue s.log s.made) (hq : s.queue = r :: rest)
    (hp : InPlace D s.ctl r) (hdata : s.ctl.data = some r.buffer)
    (good : Bool) (hok : good = false → BadOk s.log s.queue) :
    (writeIntr s good).Ends (· ≠ nullCurrent) fun s' =>
      Inv D s' ∧ weights s'.queue + 8 ≤ weights s.queue := by
  unfold writeIntr
  cases good with
  | false =>
      exact again_ends (badRwIntr_ends h (hok rfl) (by rw [hq]; exact List.cons_ne_nil _ _))
  | true =>
      rw [hq] at h ⊢
      have hnr := h.queued.1.nrSectors
      have herrors := h.queued.2.1
      have hpos : r.nrSectors ≠ 0 := by omega
      simp only [if_true, hdata, transfer_eq hp hpos]
      cases hnr with
      | inl htwo =>
          rw [if_pos (by omega)]
          set r' : Request := ⟨r.asked, r.errors, r.sector + 1, r.nrSectors - 1, r.buffer + 512⟩
            with hr'
          have hnr' : r'.nrSectors = 1 := by rw [hr', htwo]
          refine ⟨⟨h.moved htwo (hp.fits htwo) rfl hnr' rfl rfl herrors,
            fun _ r₁ rest₁ hq₁ => ?_⟩, ?_⟩
          · obtain ⟨rfl, rfl⟩ := List.cons.inj hq₁
            exact ⟨hp.next htwo rfl hnr' rfl, rfl⟩
          · change weights (r' :: rest) + 8 ≤ weights (r :: rest)
            have hweight : weight r' = 64 + 8 * (MAX_ERRORS - r.errors) := by rw [weight, hnr']
            rw [weights_cons, weights_cons, hweight, weight, htwo]
            omega
      | inr hone =>
          rw [if_neg (by omega)]
          refine ⟨Inv.of_inRequest (h.done hone) rfl, ?_⟩
          rw [weights_cons, weight]
          dsimp only [again, endRequest]
          omega

/-- **The interrupts.** -/
theorem interrupt_ends (h : Inv D s) (good : Bool) (hok : Ok D s (.interrupt good)) :
    (step D s (.interrupt good)).Ends (· ≠ nullCurrent) fun s' => Inv D s' ∧ work s' < work s := by
  obtain ⟨hne, hbad⟩ := hok
  obtain ⟨r, rest, hq⟩ := List.exists_cons_of_ne_nil hne
  rw [step]
  split
  · exact True.intro
  · next hout =>
      rw [Bool.not_eq_true] at hout
      have hunder := h.underway hout r rest hq
      unfold hdInterrupt
      rw [Underway] at hunder
      cases hdo : s.doHd with
      | none => exact True.intro
      | some f =>
          rw [hdo] at hunder
          cases f with
          | readIntr =>
              exact (readIntr_ends (s := { s with doHd := none }) h.core hq hunder good
                hbad).mono fun s' hs' => ⟨hs'.1, work_lt hs'.2⟩
          | writeIntr =>
              exact (writeIntr_ends (s := { s with doHd := none }) h.core hq hunder.1 hunder.2
                good hbad).mono fun s' hs' => ⟨hs'.1, work_lt hs'.2⟩
          | recalIntr =>
              dsimp only
              unfold recalIntr
              cases good with
              | false =>
                  exact (again_ends (badRwIntr_ends (s := { s with doHd := none }) h.core (hbad rfl)
                    hne)).mono fun s' hs' => ⟨hs'.1, work_lt hs'.2⟩
              | true =>
                  refine ⟨Inv.of_inRequest h.core rfl, ?_⟩
                  have hreset : s.reset = false := hunder
                  simp only [work, stage, again, if_true, hreset, hout, hq, hdo]
                  cases s.recalibrate with
                  | true => simp
                  | false => simp

/-! ### `do_hd_request` -/

theorem hdOut_ends {ready : Bool} {drive nsect sec head cyl : Nat} {intr : Handler}
    {P : State → Prop}
    (h : P { s with
      doHd := some intr
      ctl := {
        drive := drive
        lba := (cyl % 65536 * (D.info drive).head + head) * (D.info drive).sect + sec % 256 - 1
        left := nsect % 256
        data := none } }) :
    (hdOut D s ready drive nsect sec head cyl intr).Ends (· ≠ nullCurrent) P := by
  unfold hdOut
  split
  · exact show "Trying to write bad sector" ≠ nullCurrent by decide
  · split
    · exact show "HD controller not ready" ≠ nullCurrent by decide
    · exact h

/-- The controller finds the sector that was meant. -/
theorem lba_eq {sect head block : Nat} (hsec : block % sect + 1 < 256)
    (hcyl : block / sect / head < 65536) :
    (block / sect / head % 65536 * head + block / sect % head) * sect + (block % sect + 1) % 256 - 1 =
      block := by
  rw [Nat.mod_eq_of_lt hcyl, Nat.mod_eq_of_lt hsec, Nat.mul_comm (block / sect / head) head,
    Nat.div_add_mod, ← Nat.add_assoc, Nat.add_sub_cancel, Nat.mul_comm, Nat.div_add_mod]

/-- The command for the head puts the controller to its next sector. -/
theorem inPlace_issue (hprogress : Progress D log r) (ha : Addressable D r)
    (data : Option Nat) :
    let info := D.info (minor r.asked.dev / 5)
    let block := (r.sector + (D.hd (minor r.asked.dev)).startSect).toNat
    InPlace D ⟨minor r.asked.dev / 5, (block / info.sect / info.head % 65536 * info.head +
      block / info.sect % info.head) * info.sect + (block % info.sect + 1) % 256 - 1,
      r.nrSectors % 256, data⟩ r := by
  intro info block
  obtain ⟨hfits, hsec, hcyl⟩ := ha
  have hblock : block = (D.hd (minor r.asked.dev)).startSect.toNat + r.sector.toNat := by
    change (r.sector + (D.hd (minor r.asked.dev)).startSect).toNat = _
    rw [BitVec.toNat_add]
    omega
  have hnr := hprogress.nrSectors
  refine ⟨rfl, ?_, ?_, fun _ => hfits⟩
  · dsimp only
    rw [hblock, lba_eq hsec hcyl]
  · dsimp only
    omega

theorem issue_ends (h : Core D s.queue s.log s.made) (hq : s.queue = r :: rest)
    (hin : s.inRequest = true) (hreset : s.reset = false) (hrecalibrate : s.recalibrate = false)
    (ha : Addressable D r) (ready drq : Bool)
    (hbad : r.asked.cmd = .write → drq = false → BadOk s.log s.queue) :
    (issue D s r ready drq).Ends (· ≠ nullCurrent) fun s' => Inv D s' ∧ work s' < work s := by
  have hprogress : Progress D s.log r := by
    rw [hq] at h
    exact h.queued.1
  have hplace := inPlace_issue hprogress ha
  unfold issue
  cases hcmd : r.asked.cmd with
  | read =>
      refine (hdOut_ends (P := fun s₁ => Inv D { s₁ with inRequest := false } ∧
        work { s₁ with inRequest := false } < work s) ?_).bind fun s₁ hs₁ => hs₁
      refine ⟨⟨h, fun _ r₁ rest₁ hq₁ => ?_⟩, ?_⟩
      · obtain ⟨rfl, rfl⟩ := List.cons.inj (hq.symm.trans hq₁)
        exact hplace none
      · simp [work, stage, hin, hreset, hrecalibrate, hq]
  | write =>
      refine (hdOut_ends (P := fun s₁ => ∃ ctl, s₁ = { s with doHd := some .writeIntr, ctl := ctl } ∧
        ∀ data, InPlace D { ctl with data := data } r) ⟨_, rfl, hplace⟩).bind ?_
      rintro s₁ ⟨ctl, rfl, hctl⟩
      cases drq with
      | true =>
          refine ⟨⟨h, fun _ r₁ rest₁ hq₁ => ?_⟩, ?_⟩
          · obtain ⟨rfl, rfl⟩ := List.cons.inj (hq.symm.trans hq₁)
            exact ⟨hctl (some r.buffer), rfl⟩
          · simp [work, stage, hin, hreset, hrecalibrate, hq, portWrite]
      | false =>
          refine (badRwIntr_ends (s := { s with doHd := some .writeIntr, ctl := ctl }) h
            (hbad hcmd rfl) (by rw [hq]; exact List.cons_ne_nil _ _)).mono fun s' hs' => ?_
          obtain ⟨hcore, hweight, hin'⟩ := hs'
          exact ⟨Inv.of_inRequest hcore (hin'.trans hin), work_lt hweight⟩

/-- **A pass of `do_hd_request`.** -/
theorem request_ends (h : Inv D s) (ready drq : Bool) (hok : Ok D s (.request ready drq)) :
    (step D s (.request ready drq)).Ends (· ≠ nullCurrent) fun s' =>
      Inv D s' ∧ work s' < work s := by
  have hok : RequestOk D s drq s.queue := hok
  rw [step]
  split
  case isFalse => exact True.intro
  case isTrue hin =>
    unfold doHdRequest
    have hcore := h.core
    cases hq : s.queue with
    | nil =>
        rw [hq] at hcore
        refine ⟨⟨hcore, fun _ r rest hq' => by cases hq'⟩, ?_⟩
        simp only [work, stage, hin, hq, if_true]
        repeat' split
        all_goals simp_all
    | cons r rest =>
        rw [hq] at hok hcore
        have hnr := hcore.queued.1.nrSectors
        dsimp only
        split
        · exact show "harddisk: request list destroyed" ≠ nullCurrent by decide
        split
        · exact show "harddisk: block not locked" ≠ nullCurrent by decide
        split
        · next hrefused =>
            refine ⟨Inv.of_inRequest (hcore.refused hrefused (hok.1 hrefused)) hin, work_lt ?_⟩
            rw [hq, weights_cons, weight]
            dsimp only [endRequest]
            omega
        split
        · exact show "divide error" ≠ nullCurrent by decide
        split
        · next hreset =>
            refine (hdOut_ends (P := fun s₁ => Inv D { s₁ with inRequest := false } ∧
              work { s₁ with inRequest := false } < work s) ?_).bind fun s₁ hs₁ => hs₁
            refine ⟨⟨hcore, fun _ r₁ rest₁ hq₁ => rfl⟩, ?_⟩
            simp [work, stage, hin, hreset, hq]
        split
        · next hreset hrecalibrate =>
            rw [Bool.not_eq_true] at hreset
            refine (hdOut_ends (P := fun s₁ => Inv D { s₁ with inRequest := false } ∧
              work { s₁ with inRequest := false } < work s) ?_).bind fun s₁ hs₁ => hs₁
            refine ⟨⟨hcore, fun _ r₁ rest₁ hq₁ => hreset⟩, ?_⟩
            simp [work, stage, hin, hreset, hrecalibrate, hq]
        · next hrefused _ hreset hrecalibrate =>
            rw [Bool.not_eq_true] at hreset hrecalibrate
            obtain ⟨ha, hbad⟩ := hok.2 hrefused hreset hrecalibrate
            exact issue_ends h.core hq hin hreset hrecalibrate ha ready drq (by rw [hq]; exact hbad)

/-! ### All runs -/

theorem insertAfter_perm (req tmp : Request) (l : List Request) :
    (insertAfter req tmp l).Perm (req :: l) := by
  induction l generalizing tmp with
  | nil => exact List.Perm.refl _
  | cons next rest ih =>
      unfold insertAfter
      split
      · exact List.Perm.refl _
      · exact ((ih next).cons next).trans (List.Perm.swap req next rest)

theorem add_inv (h : Inv D s) (hin : s.inRequest = false) (a : Asked) : Inv D (addRequest s a) := by
  have hcore := h.core
  unfold addRequest
  dsimp only
  cases hq : s.queue with
  | nil =>
      rw [hq] at hcore
      exact Inv.of_inRequest (hcore.add (List.Perm.refl _) fun r rest hq' => by cases hq') rfl
  | cons tmp rest =>
      rw [hq] at hcore
      refine ⟨hcore.add (a := a) ?_ ?_,
        fun _ r rest' hq' => ?_⟩
      · exact ((insertAfter_perm _ tmp rest).cons tmp).trans (List.Perm.swap _ tmp rest)
      · rintro r rest' hq'
        obtain ⟨rfl, rfl⟩ := List.cons.inj hq'
        exact ⟨_, rfl⟩
      · obtain ⟨rfl, rfl⟩ := List.cons.inj hq'
        exact h.underway hin tmp rest hq

/-- **The step lemma.** -/
theorem step_inv (h : Inv D s) (a : Action) (hok : Ok D s a) :
    (step D s a).Ends (· ≠ nullCurrent) fun s' =>
      Inv D s' ∧ ((∀ q, a ≠ .add q) → work s' < work s) := by
  cases a with
  | add a =>
      rw [step]
      split
      · exact True.intro
      · next hin =>
          rw [not_or, Bool.not_eq_true] at hin
          exact ⟨add_inv h hin.1 a, fun hne => absurd rfl (hne a)⟩
  | interrupt good => exact (interrupt_ends h good hok).mono fun s' hs' => ⟨hs'.1, fun _ => hs'.2⟩
  | request ready drq =>
      exact (request_ends h ready drq hok).mono fun s' hs' => ⟨hs'.1, fun _ => hs'.2⟩

theorem initial_inv (D : Disks) (asked : List Asked) : Inv D (initial asked) := by
  refine Inv.of_inRequest ⟨?_, True.intro, queued_of_fresh fun r hr => ?_, fun e he => by cases he⟩ rfl
  · have hids : (asked.mapIdx Request.new).map (fun r : Request => r.asked.id) =
        List.range asked.length := by
      refine List.ext_getElem (by simp) fun i h₁ h₂ => ?_
      simp [Request.new]
    change ((asked.mapIdx Request.new).map (fun r : Request => r.asked.id) ++ []).Perm
      (List.range asked.length)
    rw [List.append_nil, hids]
  · obtain ⟨i, hi, rfl⟩ := List.mem_mapIdx.mp hr
    exact ⟨rfl, rfl, rfl, rfl, fun e he => by cases he⟩

/-- In a run whose steps are `Ok` every request is finished exactly once, and `CURRENT` is
never looked at while it is `NULL`; only so many steps follow until a new request comes. -/
theorem finishes_reaches {asked : List Asked} (h : Reaches (step D) (Ok D) (initial asked) s) :
    Finishes D s ∧ ∀ a, Ok D s a → step D s a ≠ .panic nullCurrent ∧
      ∀ s', step D s a = .next s' → (∀ q, a ≠ .add q) → work s' < work s := by
  have hinv : Inv D s := h.invariant (initial_inv D asked) fun s₁ a s₂ hs₁ hok hstep =>
    ((step_inv hs₁ a hok).of_next hstep).1
  refine ⟨hinv.finishes, fun a hok => ⟨fun hpanic => ?_, fun s' hs' => ?_⟩⟩
  · have hends := step_inv hinv a hok
    rw [hpanic] at hends
    exact hends rfl
  · exact ((step_inv hinv a hok).of_next hs').2

/-- A disk with one partition. -/
def oneDisk : Disks where
  nrHd := 1
  info := fun _ => { head := 4, sect := 17, cyl := 615 }
  hd := fun i => if i = 0 then ⟨0, 41820⟩ else if i = 1 then ⟨17, 1000⟩ else ⟨0, 0⟩

def askedOf (cmd : Cmd) (sector : BitVec 32) (buffer bh : Nat) : Asked :=
  { id := 0, dev := 0x301, cmd := cmd, sector := sector, buffer := buffer, bh := bh }

/-- The disk is reset and recalibrated. -/
def resetRun : List Action :=
  [.request true true, .interrupt true, .request true true, .interrupt true, .request true true]

/-- A read has an error in its second sector; a write has to be told twice to start. -/
def retryRun : List Action :=
  resetRun ++ [.interrupt true, .interrupt false, .request true true,
    .add (askedOf .write 40 0x2000 2), .interrupt true, .request true false, .request true true,
    .interrupt true, .interrupt true, .request true true]

theorem finishes_reaches_retryRun :
    let s₀ := initial [askedOf .read 10 0x1000 1]
    let s := (run (step oneDisk) s₀ retryRun).get s₀
    (Finishes oneDisk s ∧ ∀ a, Ok oneDisk s a → step oneDisk s a ≠ .panic nullCurrent ∧
      ∀ s', step oneDisk s a = .next s' → (∀ q, a ≠ .add q) → work s' < work s) ∧
      left s.log = [1, 0] ∧ s.queue = [] := by
  intro s₀ s
  have hrun := Outcome.eq_next (o := run (step oneDisk) s₀ retryRun) (by decide) s₀
  have hok : RunOk (step oneDisk) (Ok oneDisk) s₀ retryRun := by
    unfold retryRun resetRun
    repeat' first | exact True.intro | refine RunOk.cons (by decide) ?_
  exact ⟨finishes_reaches (Reaches.of_run hrun hok), by decide⟩

/-- A read that fails seven times. -/
def sevenErrors : List Action :=
  resetRun ++ (List.replicate 6 [.interrupt false, .request true true]).flatten

/-- The last request of the queue is ended, and its errors are looked at. -/
theorem not_finishes : ¬ ∀ (D : Disks) (asked : List Asked) (s : State),
    Reaches (step D) (fun _ _ => True) (initial asked) s →
      Finishes D s ∧ ∀ a, step D s a ≠ .panic nullCurrent := by
  intro h
  let s₀ := initial [askedOf .read 10 0x1000 1]
  have hrun := Outcome.eq_next (o := run (step oneDisk) s₀ sevenErrors) (by decide) s₀
  have hreach := Reaches.of_run hrun (RunOk.trivial (step oneDisk) s₀ sevenErrors)
  have hstep : step oneDisk ((run (step oneDisk) s₀ sevenErrors).get s₀) (.interrupt false) =
      .panic nullCurrent := by
    rfl
  exact (h oneDisk _ _ hreach).2 _ hstep

end LinuxKernel.V011.BlkDrv.Hd
