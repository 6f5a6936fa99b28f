import LinuxKernel.V011.Mm.Wp

/-!
# LinuxKernel.V011.Mm.Task

Page faults on a page that is **not present**: `do_no_page`, `share_page` and
`bread_page`.

`do_no_page` sleeps while the blocks of the executable are read, so it is two
functions here: `doNoPage` up to the read, which leaves the faulting task with
a page in its hands, and `finishNoPage` from there on.

A task is known by its number: `fork` gives task `nr` the code and data base
`nr * 0x4000000`.
-/

namespace LinuxKernel.V011.Mm

/-- The fields of `struct task_struct` that memory management reads. `page` is
the page the structure itself is in. -/
structure Task where
  endData : Nat
  executable : Option Nat
  codeLimit : Nat
  dataLimit : Nat
  page : Nat
  deriving DecidableEq, Repr

/-- `start_code`, which is also the base of both segments. -/
def startCode (nr : Nat) : Nat := nr * 0x4000000

/-- The blocks of an executable; `none` is a hole. Block 0 is the header. -/
abbrev Blocks := Nat → Option (Nat → Word)

/-- `bread_page`: four blocks are copied over the page, holes are left alone. -/
def breadPage (page : Nat → Word) (blocks : Blocks) (block i : Nat) : Word :=
  match blocks (block + i / 256) with
  | some data => data (i % 256)
  | none => page i

/-- `*(char *) tmp = 0` for byte `k` of a page. -/
def clearByte (page : Nat → Word) (k : Nat) : Nat → Word :=
  Function.update page (k / 4) (page (k / 4) &&& ~~~(0xff#32 <<< (8 * (k % 4))))

/-- `while (i-- > 0) { tmp--; *(char *)tmp = 0; }`, from the byte before `tmp` down. -/
def clearTail (page : Nat → Word) (tmp : Nat) : Nat → Nat → Word
  | 0 => page
  | i + 1 => clearTail (clearByte page (tmp - 1)) (tmp - 1) i

/-- The page at offset `tmp` of an executable, as `do_no_page` builds it in a
zeroed page: one block is used for the header, and past `end_data` it is zero. -/
def filePage (blocks : Blocks) (endData tmp : Nat) : Nat → Word :=
  clearTail (breadPage (fun _ => 0) blocks (1 + tmp / 1024)) 4096 (tmp + 4096 - endData)

/-- How the first half of `do_no_page` ends: it returns, it calls `oom`, or it
sleeps in `bread_page` with `page` for the offset `tmp`. -/
inductive NoPage
  | done
  | oom
  | read (page tmp : Nat)
  deriving DecidableEq, Repr

namespace Memory

/-- The loop of `share_page`, from task `nr` down to the task after task 0. -/
def shareLoop (task : Nat → Option Task) (executable cur address : Nat) :
    Nat → Memory → Outcome (Share × Memory)
  | 0, s => .next (.no, s)
  | nr + 1, s =>
      match task (nr + 1) with
      | none => shareLoop task executable cur address nr s
      | some p =>
          if cur = nr + 1 then shareLoop task executable cur address nr s
          else if p.executable ≠ some executable then shareLoop task executable cur address nr s
          else (s.tryToShare address (startCode (nr + 1)) (startCode cur)).bind fun (r, s) =>
            match r with
            | .no => shareLoop task executable cur address nr s
            | r => .next (r, s)

/-- `share_page`; `NR_TASKS` is 64. -/
def sharePage (s : Memory) (task : Nat → Option Task) (iCount : Nat → Nat) (current : Task)
    (cur address : Nat) : Outcome (Share × Memory) :=
  match current.executable with
  | none => .next (.no, s)
  | some executable =>
      if iCount executable < 2 then .next (.no, s)
      else shareLoop task executable cur address 63 s

/-- `do_no_page` up to the sleep in `bread_page`. -/
def doNoPage (s : Memory) (task : Nat → Option Task) (iCount : Nat → Nat) (current : Task)
    (cur address : Nat) : Outcome (NoPage × Memory) :=
  let address := address / 4096 * 4096
  let tmp := address - startCode cur
  if current.executable = none ∨ current.endData ≤ tmp then
    (s.getEmptyPage address).bind fun (ok, s) => .next (if ok then .done else .oom, s)
  else (s.sharePage task iCount current cur tmp).bind fun (r, s) =>
    match r with
    | .yes => .next (.done, s)
    | .oom => .next (.oom, s)
    | .no =>
        match s.getFreePage with
        | (none, s) => .next (.oom, s)
        | (some page, s) => .next (.read page tmp, s)

/-- The rest of `do_no_page`; `false` when it calls `oom`. -/
def finishNoPage (s : Memory) (blocks : Blocks) (endData page tmp address : Nat) :
    Outcome (Bool × Memory) :=
  let s := s.setPage page (breadPage (s.mem page) blocks (1 + tmp / 1024))
  let s := s.setPage page (clearTail (s.mem page) 4096 (tmp + 4096 - endData))
  match s.putPage page address with
  | (true, s) => .next (true, s)
  | (false, s) => (s.freePage page).bind fun s => .next (false, s)

variable {s s' : Memory} {f : Nat}

/-! ### The second half -/

/-- New contents for a held page. -/
theorem Inv.fillHeld (h : s.Inv) (hf : f ∈ s.held) (c : Nat → Word) :
    (s.setPage f c).Inv ∧ ViewSame s (s.setPage f c) ∧
      ∀ x : Nat × Nat, x.1 < 1024 → (s.setPage f c).entryAt x = s.entryAt x := by
  have hmain := h.held_main hf
  have hmem : ∀ p, p ≠ f → (s.setPage f c).mem p = s.mem p := fun p hp => by
    simp [setPage, Function.update_of_ne hp]
  have hentry : ∀ x : Nat × Nat, x.1 < 1024 → (s.setPage f c).entryAt x = s.entryAt x :=
    fun x hx => h.entryAt_of_mem (show (s.setPage f c).tableAt = s.tableAt from rfl) hmem
      (h.main_low hmain) (fun d hd ht => h.held_ne_table hf hd ht rfl) hx
  refine ⟨?_, fun y hy => view_congr (hentry y (dir_lt hy)) fun g hg => hmem g ?_, hentry⟩
  · refine h.of_ledger rfl rfl (fun _ _ => rfl) (fun p hp => hmem p ?_) (fun _ _ => rfl) ?_ ?_
    · have := h.main_low hmain
      omega
    · intro y hy g hyg
      rw [mapsTo, hentry y (dir_lt_of_userPages hy)] at hyg
      exact h.low y hy g hyg
    · refine h.ledger.congr (fun y hy => ?_) (fun _ _ => rfl) rfl fun _ _ => rfl
      rw [ledger_entry, ledger_entry, hentry y (dir_lt_of_userPages hy)]
  · rintro rfl
    rcases h.frame_cases hy hg with ⟨hu, -⟩ | hlow
    · exact h.held_unmapped hf hu hg
    · have := h.main_low hmain
      omega

/-- The held page is entered with the contents of the file, or given back. -/
theorem finishNoPage_spec (h : s.Inv) (hf : f ∈ s.held) (blocks : Blocks) (endData tmp : Nat)
    {address : Nat} (hd : dirNr address ∈ userDirs)
    (hno : s.entryAt (slot address) = none) :
    ∃ ok s', s.finishNoPage blocks endData f tmp address = .next (ok, s') ∧ s'.Inv ∧
      s'.held = s.held.erase f ∧ (∀ p ∈ s.held, p ≠ f → s'.mem p = s.mem p) ∧
      if ok then ViewSet s s' (slot address) (some ⟨f, false,
        clearTail (breadPage (s.mem f) blocks (1 + tmp / 1024)) 4096 (tmp + 4096 - endData)⟩)
      else ViewSame s s' := by
  unfold finishNoPage
  obtain ⟨hinv₁, hsame₁, hentry₁⟩ := h.fillHeld hf (breadPage (s.mem f) blocks (1 + tmp / 1024))
  set s₁ := s.setPage f (breadPage (s.mem f) blocks (1 + tmp / 1024)) with hs₁
  have hmem₁ : s₁.mem f = breadPage (s.mem f) blocks (1 + tmp / 1024) := by simp [hs₁, setPage]
  have hf₁ : f ∈ s₁.held := hf
  obtain ⟨hinv₂, hsame₂, hentry₂⟩ :=
    hinv₁.fillHeld hf₁ (clearTail (s₁.mem f) 4096 (tmp + 4096 - endData))
  dsimp only
  set s₂ := s₁.setPage f (clearTail (s₁.mem f) 4096 (tmp + 4096 - endData)) with hs₂
  have hmem₂ : s₂.mem f =
      clearTail (breadPage (s.mem f) blocks (1 + tmp / 1024)) 4096 (tmp + 4096 - endData) := by
    simp [hs₂, setPage, hmem₁]
  have hf₂ : f ∈ s₂.held := hf
  have hno₂ : s₂.entryAt (slot address) = none := by
    rw [hentry₂ _ (dirNr_lt address), hentry₁ _ (dirNr_lt address), hno]
  cases hp : s₂.putPage f address with
  | mk ok s₃ =>
    obtain ⟨hinv₃, hmem₃, hspec⟩ := putPage_spec hinv₂ hf₂ hd hno₂ hp
    have hmem : ∀ p ∈ s.held, p ≠ f → s₃.mem p = s.mem p := fun p hp hne => by
      rw [hmem₃ p hp, hs₂, hs₁]
      simp [setPage, Function.update_of_ne hne]
    cases ok with
    | true =>
        obtain ⟨hview, hheld⟩ := hspec
        rw [hmem₂] at hview
        exact ⟨true, s₃, rfl, hinv₃, hheld, hmem, (hsame₁.trans hsame₂).then_set hview⟩
    | false =>
        obtain ⟨hview, hheld⟩ := hspec
        obtain ⟨s₄, hfree, hinv₄, hsame₄, hheld₄, hmem₄⟩ := freePage_held hinv₃ (hheld ▸ hf₂)
        refine ⟨false, s₄, ?_, hinv₄, ?_, fun p hp hne => by rw [hmem₄, hmem p hp hne], ((hsame₁.trans hsame₂).trans hview).trans hsame₄⟩
        · dsimp only
          rw [hfree]
          rfl
        · rw [hheld₄, hheld]
          rfl

/-! ### The first half -/

/-- Task `nr` is a source `share_page` may take the page at `address` from. -/
def Source (s : Memory) (task : Nat → Option Task) (executable cur address nr : Nat) : Prop :=
  0 < nr ∧ nr < 64 ∧ nr ≠ cur ∧ (∃ p, task nr = some p ∧ p.executable = some executable) ∧
    s.Sharable (taskSlot nr address)

/-- Task `nr` is where `share_page` takes the page at `address` from: the first
source of the loop, with a page table for the copy at hand. -/
def SharesFrom (s : Memory) (task : Nat → Option Task) (iCount : Nat → Nat) (current : Task)
    (cur address nr : Nat) : Prop :=
  ∃ executable, current.executable = some executable ∧ 2 ≤ iCount executable ∧
    s.Source task executable cur address nr ∧
    (∀ q, nr < q → ¬ s.Source task executable cur address q) ∧
    (s.tableAt (taskSlot cur address).1 ≠ none ∨ s.getFreePage.1 ≠ none)

theorem shareLoop_spec {task : Nat → Option Task} {executable cur address nr : Nat} (h : s.Inv)
    (ha : address < 2 ^ 26) (hcur : 0 < cur) (hclt : cur < 64) (hnr : nr < 64)
    (hdone : ∀ q, nr < q → ¬ s.Source task executable cur address q) :
    (shareLoop task executable cur address nr s).Ends noFreePanic fun r =>
      r.2.Inv ∧ Keeps s r.2 ∧ match r.1 with
        | .no => r.2 = s
        | .yes => ∃ p, s.Source task executable cur address p ∧
            (∀ q, p < q → ¬ s.Source task executable cur address q) ∧
            (s.tableAt (taskSlot cur address).1 ≠ none ∨ s.getFreePage.1 ≠ none) ∧
            ViewSet s r.2 (taskSlot cur address) (s.view (taskSlot p address))
        | .oom => ViewSame s r.2 := by
  induction nr with
  | zero => exact ⟨h, Keeps.refl s, rfl⟩
  | succ nr ih =>
      -- going on means that task `nr + 1` is not a source
      have hnext : ¬ s.Source task executable cur address (nr + 1) →
          ∀ q, nr < q → ¬ s.Source task executable cur address q := fun hno q hq => by
        by_cases hqn : q = nr + 1
        · rw [hqn]; exact hno
        · exact hdone q (by omega)
      unfold shareLoop
      cases hp : task (nr + 1) with
      | none =>
          refine ih (by omega) (hnext ?_)
          rintro ⟨-, -, -, ⟨p, hp', -⟩, -⟩
          rw [hp] at hp'
          cases hp'
      | some p =>
          dsimp only
          by_cases hself : cur = nr + 1
          · rw [if_pos hself]
            refine ih (by omega) (hnext ?_)
            rintro ⟨-, -, hne, -⟩
            exact hne hself.symm
          rw [if_neg hself]
          by_cases hexe : p.executable ≠ some executable
          · rw [if_pos hexe]
            refine ih (by omega) (hnext ?_)
            rintro ⟨-, -, -, ⟨p', hp', hexe'⟩, -⟩
            rw [hp] at hp'
            cases hp'
            exact hexe hexe'
          rw [if_neg hexe]
          refine (tryToShare_spec h ha (Nat.succ_pos nr) hnr hcur hclt).bind ?_
          rintro ⟨r, s₁⟩ ⟨hinv₁, hheld₁, hr⟩
          cases r with
          | no =>
              obtain ⟨rfl, hno⟩ : s₁ = s ∧ _ := hr
              exact ih (by omega) (hnext fun hsrc => hno hsrc.2.2.2.2)
          | yes =>
              obtain ⟨hshare, htable, hview⟩ := hr
              exact ⟨hinv₁, hheld₁, nr + 1, ⟨Nat.succ_pos nr, hnr, Ne.symm hself,
                ⟨p, hp, not_not.mp hexe⟩, hshare⟩, hdone, htable, hview⟩
          | oom => exact ⟨hinv₁, hheld₁, hr⟩

theorem sharePage_spec {task : Nat → Option Task} {iCount : Nat → Nat} {current : Task}
    {cur address : Nat} (h : s.Inv) (ha : address < 2 ^ 26) (hcur : 0 < cur) (hclt : cur < 64) :
    (s.sharePage task iCount current cur address).Ends noFreePanic fun r =>
      r.2.Inv ∧ Keeps s r.2 ∧ match r.1 with
        | .no => r.2 = s
        | .yes => ∃ p, s.SharesFrom task iCount current cur address p ∧
            ViewSet s r.2 (taskSlot cur address) (s.view (taskSlot p address))
        | .oom => ViewSame s r.2 := by
  unfold sharePage
  cases hexe : current.executable with
  | none => exact ⟨h, Keeps.refl s, rfl⟩
  | some executable =>
      dsimp only
      by_cases hcount : iCount executable < 2
      · rw [if_pos hcount]
        exact ⟨h, Keeps.refl s, rfl⟩
      · rw [if_neg hcount]
        have hlast : ∀ q, 63 < q → ¬ s.Source task executable cur address q := fun q hq hsrc => by
          have := hsrc.2.1
          omega
        refine (shareLoop_spec h ha hcur hclt (by omega) hlast).mono ?_
        rintro ⟨r, s₁⟩ ⟨hinv₁, hheld₁, hr⟩
        refine ⟨hinv₁, hheld₁, ?_⟩
        cases r with
        | no => exact hr
        | yes =>
            obtain ⟨p, hsrc, hfirst, htable, hview⟩ := hr
            exact ⟨p, ⟨executable, hexe, by omega, hsrc, hfirst, htable⟩, hview⟩
        | oom => exact hr

/-- What the first half of `do_no_page` comes to, for a fault of task `cur` on
the absent page at `address`. -/
def NoPageDone (s : Memory) (task : Nat → Option Task) (iCount : Nat → Nat) (current : Task)
    (cur tmp : Nat) : NoPage → Memory → Prop
  | .done, s' =>
      (∃ f, (current.executable = none ∨ current.endData ≤ tmp) ∧
        (∀ y ∈ taskPages, s.mapsTo y ≠ some f) ∧
        ViewSet s s' (taskSlot cur tmp) (some ⟨f, false, fun _ => 0⟩)) ∨
      ∃ p, tmp < current.endData ∧ s.SharesFrom task iCount current cur tmp p ∧
        ViewSet s s' (taskSlot cur tmp) (s.view (taskSlot p tmp))
  | .oom, s' => ViewSame s s'
  | .read page tmp', s' => tmp' = tmp ∧ current.executable ≠ none ∧ tmp < current.endData ∧
      ViewSame s s' ∧ s'.mem page = (fun _ => 0) ∧ page ∉ s.held

theorem doNoPage_spec {task : Nat → Option Task} {iCount : Nat → Nat} {current : Task}
    {cur tmp address : Nat} (h : s.Inv) (hlt : tmp < 2 ^ 26)
    (haddr : address / 4096 * 4096 = startCode cur + tmp) (hcur : 0 < cur) (hclt : cur < 64)
    (hno : s.entryAt (taskSlot cur tmp) = none) :
    (s.doNoPage task iCount current cur address).Ends noFreePanic fun r =>
      r.2.Inv ∧ (r.2.held = match r.1 with | .read page _ => page :: s.held | _ => s.held) ∧
        (∀ p ∈ s.held, r.2.mem p = s.mem p) ∧ NoPageDone s task iCount current cur tmp r.1 r.2 := by
  have hslot : slot (startCode cur + tmp) = taskSlot cur tmp := slot_task hclt hlt
  have hmem := taskSlot_mem hcur hclt hlt
  have hd : dirNr (startCode cur + tmp) ∈ userDirs := by
    have : (slot (startCode cur + tmp)).1 ∈ userDirs := by
      rw [hslot]
      exact (mem_userPages.mp hmem).1
    exact this
  unfold doNoPage
  rw [haddr]
  dsimp only
  rw [Nat.add_sub_cancel_left]
  by_cases hempty : current.executable = none ∨ current.endData ≤ tmp
  · rw [if_pos hempty]
    obtain ⟨ok, s₁, hs₁, hinv₁, hheld₁, hspec⟩ :=
      getEmptyPage_spec h hd (by rw [hslot]; exact hno)
    rw [hs₁]
    cases ok with
    | true =>
        obtain ⟨f, hfresh, hview⟩ := hspec
        rw [hslot] at hview
        exact ⟨hinv₁, hheld₁.held, hheld₁.mem, Or.inl ⟨f, hempty, hfresh, hview⟩⟩
    | false => exact ⟨hinv₁, hheld₁.held, hheld₁.mem, hspec⟩
  · rw [if_neg hempty]
    rw [not_or, Nat.not_le] at hempty
    refine (sharePage_spec h hlt hcur hclt).bind ?_
    rintro ⟨r, s₁⟩ ⟨hinv₁, hheld₁, hr⟩
    cases r with
    | yes =>
        obtain ⟨p, hsrc, hview⟩ := hr
        exact ⟨hinv₁, hheld₁.held, hheld₁.mem, Or.inr ⟨p, hempty.2, hsrc, hview⟩⟩
    | oom => exact ⟨hinv₁, hheld₁.held, hheld₁.mem, hr⟩
    | no =>
        obtain rfl : s₁ = s := hr
        dsimp only
        cases hg : s₁.getFreePage with
        | mk q s₂ =>
          cases q with
          | none =>
              obtain rfl := getFreePage_none hg
              exact ⟨h.setDeny _, rfl, fun _ _ => rfl, fun _ _ => rfl⟩
          | some page =>
              have hfr := getFreePage_fresh h hg
              exact ⟨hfr.inv, hfr.held, hfr.held_mem h, rfl, hempty.1, hempty.2,
                fun y hy => hfr.view h hy, hfr.zero, hfr.not_held h⟩

end Memory

end LinuxKernel.V011.Mm
