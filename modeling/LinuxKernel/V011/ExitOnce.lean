import LinuxKernel.V011.Family

/-!
# LinuxKernel.V011.ExitOnce

**Every exit status is delivered once**: the steps of `Exit` are moves of the
family, none of them panics, and every state reached is `Delivered`.

A store into `signal`, `state` or the process group is no move at all (`Quiet`).
The scans of the table are what is left: `do_exit` finds all children,
`sys_waitpid` a child, `release` the slot, and `tell_father` the father.
-/

namespace LinuxKernel.V011.Exit

open WaitQueue (TaskState TaskStruct sigBit checkSignals expireAlarm)

/-! ### The view of a state -/

/-- What the family sees of task `t` in page `p`. -/
def coreOf (p : Nat) (t : Task) : Core where
  page := p
  pid := t.pid
  father := t.father
  zombie := t.state = .zombie
  exitCode := t.exitCode
  utime := t.utime
  stime := t.stime
  cutime := t.cutime
  cstime := t.cstime
  pc := t.pc
  id := t.id
  parent := t.parent

def core (s : State) (p : Nat) : Core := coreOf p (s.proc p)

def view (s : State) : View where
  tasks := fun i => (s.slot i).map (core s)
  used := s.used
  nextId := s.nextId
  left := s.left
  exits := s.exits
  reaps := s.reaps
  returned := s.returned
  badFather := s.badFather

theorem view_tasks (s : State) (i : Fin 64) : (view s).tasks i = (s.slot i).map (core s) := rfl

theorem view_some {s : State} {i : Fin 64} {p : Nat} (hi : s.slot i = some p) :
    (view s).tasks i = some (core s p) := by
  rw [view_tasks, hi, Option.map_some]

theorem slot_of_view {s : State} {i : Fin 64} {c : Core} (hi : (view s).tasks i = some c) :
    ∃ p, s.slot i = some p ∧ core s p = c := by
  rw [view_tasks, Option.map_eq_some_iff] at hi
  exact hi

theorem slot_inj {s : State} {i j : Fin 64} {p : Nat} (h : Inv (view s)) (hi : s.slot i = some p)
    (hj : s.slot j = some p) : i = j :=
  h.table.page i j (core s p) (core s p) (view_some hi) (view_some hj) rfl

/-- Nothing that the family sees changes. -/
structure Quiet (s s' : State) : Prop where
  slot : s'.slot = s.slot
  proc : ∀ i p, s.slot i = some p → core s' p = core s p
  used : s'.used = s.used
  nextId : s'.nextId = s.nextId
  left : s'.left = s.left
  exits : s'.exits = s.exits
  reaps : s'.reaps = s.reaps
  returned : s'.returned = s.returned
  badFather : s'.badFather = s.badFather

namespace Quiet

variable {s s' s'' : State}

theorem refl (s : State) : Quiet s s :=
  ⟨rfl, fun _ _ _ => rfl, rfl, rfl, rfl, rfl, rfl, rfl, rfl⟩

theorem trans (h : Quiet s s') (h' : Quiet s' s'') : Quiet s s'' where
  slot := h'.slot.trans h.slot
  proc i p hi := (h'.proc i p (by rw [h.slot, hi])).trans (h.proc i p hi)
  used := h'.used.trans h.used
  nextId := h'.nextId.trans h.nextId
  left := h'.left.trans h.left
  exits := h'.exits.trans h.exits
  reaps := h'.reaps.trans h.reaps
  returned := h'.returned.trans h.returned
  badFather := h'.badFather.trans h.badFather

theorem view (h : Quiet s s') : view s' = view s := by
  have htasks : (Exit.view s').tasks = (Exit.view s).tasks := by
    funext i
    rw [view_tasks, view_tasks, h.slot]
    cases hi : s.slot i with
    | none => rfl
    | some p => rw [Option.map_some, Option.map_some, h.proc i p hi]
  exact View.ext htasks h.used h.nextId h.left h.exits h.reaps h.returned h.badFather

theorem setProc {p : Nat} {t : Task} (h : coreOf p t = core s p) : Quiet s (setProc s p t) := by
  refine ⟨rfl, fun i q _ => ?_, rfl, rfl, rfl, rfl, rfl, rfl, rfl⟩
  rw [core, setProc_proc]
  split
  · next hq => rw [hq, h]
  · rfl

theorem raise (s : State) (p : Nat) (bits : BitVec 32) : Quiet s (raise s p bits) :=
  setProc rfl

/-- A loop over slots each round of which is quiet. -/
theorem foldl {f : State → Fin 64 → State} (hf : ∀ s i, Quiet s (f s i)) (l : List (Fin 64))
    (s : State) : Quiet s (l.foldl f s) := by
  induction l generalizing s with
  | nil => exact refl s
  | cons i l ih => exact (hf s i).trans (ih (f s i))

theorem killSession (s : State) (session : Int) : Quiet s (killSession s session) := by
  refine foldl (fun s i => ?_) _ s
  split
  · split
    · exact raise s _ _
    · exact refl s
  · exact refl s

theorem sendSig (s : State) (cur : Nat) (sig : Int) (p : Nat) (priv : Bool) :
    Quiet s (sendSig s cur sig p priv).1 := by
  unfold Exit.sendSig
  split
  · exact refl s
  · split
    · exact raise s p _
    · exact refl s

theorem killAll (cur : Nat) (sig : Int) (priv : Bool) (sel : Task → Bool) (s : State)
    (retval : Int) (is : List (Fin 64)) : Quiet s (killAll cur sig priv sel s retval is).1 := by
  unfold Exit.killAll
  induction is generalizing s retval with
  | nil => exact refl s
  | cons i is ih =>
      rw [List.foldl_cons]
      dsimp only
      split
      · split
        · exact (sendSig s cur sig _ priv).trans (ih _ _)
        · exact ih s retval
      · exact ih s retval

theorem killEach (cur : Nat) (sig : Int) (s : State) (retval : Int) (is : List (Fin 64)) :
    Quiet s (killEach cur sig s retval is).1 := by
  induction is generalizing s retval with
  | nil => exact refl s
  | cons i is ih =>
      rw [Exit.killEach]
      split
      · exact ih s _
      · dsimp only
        split
        · exact (sendSig s cur sig _ false).trans (ih _ _)
        · exact (sendSig s cur sig _ false).trans (killAll cur sig false _ _ _ is)

theorem sysKill (s : State) (cur : Nat) (pid sig : Int) : Quiet s (sysKill s cur pid sig) := by
  unfold Exit.sysKill
  dsimp only
  refine trans ?_ (setProc rfl)
  split
  · exact killAll cur sig true _ s 0 scanned
  · split
    · exact killAll cur sig false _ s 0 scanned
    · split
      · exact killEach cur sig s 0 scanned
      · exact refl s

theorem schedule (s : State) : Quiet s { s with proc := scheduled s } := by
  refine ⟨rfl, fun i p _ => ?_, rfl, rfl, rfl, rfl, rfl, rfl, rfl⟩
  have hzombie : ∀ q : TaskStruct,
      ((checkSignals s.jiffies q).state = .zombie) = (q.state = .zombie) := by
    intro q
    unfold checkSignals expireAlarm
    grind
  change coreOf p (scheduled s p) = coreOf p (s.proc p)
  unfold scheduled
  split
  · simp only [coreOf, hzombie]
  · rfl

end Quiet

/-! ### The loops over the table -/

variable {s s' : State} {i : Fin 64} {p : Nat}

theorem view_setProc (h : Inv (view s)) (hi : s.slot i = some p) (t : Task) :
    view (setProc s p t) = (view s).put i (coreOf p t) := by
  refine View.ext ?_ rfl rfl rfl rfl rfl rfl rfl
  funext k
  rw [put_apply, view_tasks]
  split
  · next hk =>
      subst hk
      change (s.slot k).map _ = _
      rw [hi, Option.map_some, core, setProc_proc, if_pos rfl]
  · next hk =>
      change (s.slot k).map _ = (s.slot k).map _
      cases hq : s.slot k with
      | none => rfl
      | some q =>
          have hqp : q ≠ p := by
            rintro rfl
            exact hk (slot_inj h hq hi)
          rw [Option.map_some, Option.map_some, core, setProc_proc, if_neg hqp, core]

theorem tasks_released (h : Inv (view s)) (hi : s.slot i = some p) (t : Task) (j : Fin 64) :
    (fun k => (Function.update s.slot j none k).map (core (setProc s p t))) =
      Function.update (Function.update (view s).tasks i (some (coreOf p t))) j none := by
  funext k
  rw [Function.update_apply, Function.update_apply]
  split
  · rfl
  · exact congrFun (congrArg View.tasks (view_setProc h hi t)) k

@[simp] theorem inherit_inherit (c : Core) (pid : Int) :
    (c.inherit pid).inherit pid = c.inherit pid := by
  unfold Core.inherit
  grind

/-- The children of `pid` in the slots `l` have task 1 as their father now. -/
structure Orphaned (pid : Int) (l : List (Fin 64)) (s s' : State) : Prop where
  slot : s'.slot = s.slot
  proc : ∀ p, core s' p =
    if ∃ i ∈ l, s.slot i = some p then (core s p).inherit pid else core s p
  used : s'.used = s.used
  nextId : s'.nextId = s.nextId
  left : s'.left = s.left
  exits : s'.exits = s.exits
  reaps : s'.reaps = s.reaps
  returned : s'.returned = s.returned
  badFather : s'.badFather = s.badFather

theorem orphaned_orphan (pid : Int) (s : State) (i : Fin 64) :
    Orphaned pid [i] s (orphan pid s i) := by
  have hcore : ∀ p, core (orphan pid s i) p =
      if s.slot i = some p then (core s p).inherit pid else core s p := by
    intro p
    unfold orphan
    cases hi : s.slot i with
    | none => rw [if_neg (by simp)]
    | some q =>
        dsimp only
        have hraise : ∀ (t : State) r, core (raise t r (sigBit SIGCHLD)) p = core t p := by
          intro t r
          rw [core, raise, setProc_proc]
          split
          · next hr => rw [hr]; rfl
          · rfl
        have hset : ∀ t : Task, t = { s.proc q with father := 1 } → (s.proc q).father = pid →
            core (setProc s q t) p =
              if some q = some p then (core s p).inherit pid else core s p := by
          rintro t rfl hf
          rw [core, setProc_proc]
          by_cases hpq : p = q
          · subst hpq
            rw [if_pos rfl, if_pos rfl, Core.inherit, if_pos (show (core s p).father = pid from hf)]
            rfl
          · rw [if_neg hpq, if_neg (fun h => hpq (Option.some.inj h).symm)]
            rfl
        split
        · next hf =>
            split
            · split
              · rw [hraise, hset _ rfl hf]
              · exact hset _ rfl hf
            · exact hset _ rfl hf
        · next hf =>
            split
            · next hpq =>
                obtain rfl := Option.some.inj hpq
                rw [Core.inherit, if_neg (show ¬ (core s q).father = pid from hf)]
            · rfl
  constructor
  case proc =>
    intro p
    rw [hcore p]
    simp only [List.mem_singleton, exists_eq_left]
  all_goals
    unfold orphan
    split
    · rfl
    · split
      · dsimp only
        split
        · split <;> rfl
        · rfl
      · rfl

theorem orphaned_foldl (pid : Int) (l : List (Fin 64)) (s : State) :
    Orphaned pid l s (l.foldl (orphan pid) s) := by
  induction l generalizing s with
  | nil =>
      refine ⟨rfl, fun p => ?_, rfl, rfl, rfl, rfl, rfl, rfl, rfl⟩
      rw [if_neg (by simp)]
      rfl
  | cons i l ih =>
      have h₁ := orphaned_orphan pid s i
      have h := ih (orphan pid s i)
      rw [List.foldl_cons]
      refine ⟨h.slot.trans h₁.slot, fun p => ?_, h.used.trans h₁.used, h.nextId.trans h₁.nextId,
        h.left.trans h₁.left, h.exits.trans h₁.exits, h.reaps.trans h₁.reaps,
        h.returned.trans h₁.returned, h.badFather.trans h₁.badFather⟩
      rw [h.proc, h₁.proc, h₁.slot]
      simp only [List.mem_singleton, exists_eq_left, List.exists_mem_cons_iff]
      by_cases hl : ∃ k ∈ l, s.slot k = some p <;> by_cases hi : s.slot i = some p <;>
        simp [hl, hi]

theorem scan_zombie {cur : Nat} {pid : Int} {options : BitVec 32} {is : List (Fin 64)}
    {flag : Bool} (h : scan s cur pid options is flag = .zombie p) :
    ∃ j ∈ is, s.slot j = some p ∧ p ≠ cur ∧ (s.proc p).father = (s.proc cur).pid ∧
      (s.proc p).state = .zombie := by
  induction is generalizing flag with
  | nil => cases h
  | cons i is ih =>
      have hrest : ∀ flag, scan s cur pid options is flag = .zombie p →
          ∃ j ∈ i :: is, s.slot j = some p ∧ p ≠ cur ∧
            (s.proc p).father = (s.proc cur).pid ∧ (s.proc p).state = .zombie := by
        intro flag hf
        obtain ⟨j, hj, hrest⟩ := ih hf
        exact ⟨j, List.mem_cons_of_mem _ hj, hrest⟩
      rw [scan] at h
      split at h
      · exact hrest _ h
      · next q hq =>
          split at h
          · exact hrest _ h
          · next hskip =>
              push Not at hskip
              split at h
              · split at h
                · exact hrest _ h
                · cases h
              · next hz =>
                  obtain rfl := Found.zombie.inj h
                  exact ⟨i, List.mem_cons_self, hq, hskip.1, hskip.2.1, hz⟩
              · exact hrest _ h

/-- `release` finds the slot. -/
theorem release_eq (h : ∀ i j, s.slot i = some p → s.slot j = some p → i = j)
    (hi : s.slot i = some p) (h0 : i ≠ 0) :
    release s p = .next { s with
      slot := Function.update s.slot i none
      used := Function.update s.used p false } := by
  unfold release
  cases hf : (List.finRange 64).find? fun i => i ≠ 0 && s.slot i = some p with
  | none =>
      have := List.find?_eq_none.mp hf i (List.mem_finRange i)
      simp [h0, hi] at this
  | some j =>
      have hj := List.find?_some hf
      simp only [Bool.and_eq_true, decide_eq_true_eq] at hj
      rw [h i j hi hj.2]

theorem findPid_free {last pid : Int} {fuel : Nat} (h : findPid s last fuel = some pid) :
    pidUsed s pid = false := by
  induction fuel generalizing last with
  | zero => cases h
  | succ fuel ih =>
      rw [findPid] at h
      split at h
      · exact ih h
      · next hfree =>
          obtain rfl := Option.some.inj h
          exact Bool.eq_false_iff.mpr hfree

theorem pid_ne_of_free {pid : Int} (h : pidUsed s pid = false) (hi : s.slot i = some p) :
    (s.proc p).pid ≠ pid := by
  have := List.any_eq_false.mp h i (List.mem_finRange i)
  simpa [hi] using this

theorem findSlot_free {nr : Fin 64} (h : findSlot s = some nr) : nr ≠ 0 ∧ s.slot nr = none := by
  have := List.find?_some h
  simpa using this

/-! ### The steps are moves -/

/-- `s'` comes from `s` by one move of the family. -/
def Moves (s s' : State) : Prop := Move (view s) (view s')

theorem Quiet.moves (h : Quiet s s') : Moves s s' := by
  rw [Moves, h.view]
  exact Move.quiet _

/-- The step ends in a move, or is disabled: it does not panic. -/
def Safe (s : State) (o : Outcome State) : Prop := o.Ends (fun _ => False) (Moves s)

theorem Quiet.safe (h : Quiet s s') : Safe s (.next s') := h.moves

theorem moves_setProc (h : Inv (view s)) (hi : s.slot i = some p) {t : Task} {pc : Pc}
    {utime stime : Int}
    (ht : coreOf p t = { core s p with pc := pc, utime := utime, stime := stime })
    (hpc : pc = (core s p).pc ∨ (core s p).calm ∧ (coreOf p t).calm) :
    Moves s (setProc s p t) := by
  rw [Moves, view_setProc h hi]
  have hpc' : (coreOf p t).pc = pc := by rw [ht]
  refine Move.busy (view_some hi) ?_ ?_
  · rw [ht]
  · rwa [hpc']

theorem safe_copyProcess (h : Inv (view s)) (hi : s.slot i = some p) (h0 : i ≠ 0)
    (hpc : (s.proc p).pc = .user) (hpid : pidUsed s s.lastPid = false) {nr : Fin 64}
    (hnr : s.slot nr = none) (page : Option Nat) (copied : Bool) :
    Safe s (copyProcess s p nr page copied) := by
  unfold copyProcess
  cases page with
  | none => exact Quiet.safe (Quiet.setProc rfl)
  | some q =>
      dsimp only
      split
      · exact True.intro
      · next hq =>
          have hfree : s.used q = false := Bool.eq_false_iff.mpr hq
          have hne : ∀ k r, s.slot k = some r → r ≠ q := by
            rintro k r hk rfl
            have hused := (h.table.used r).mpr ⟨k, _, view_some hk, rfl⟩
            exact hq hused
          split
          · change Moves s _
            have hmove : Move (view s) { (view s).put nr ((core s p).child q s.lastPid s.nextId) with
                used := Function.update s.used q true
                nextId := s.nextId + 1 } := by
              refine Move.fork (view_some hi) h0 (Or.inl hpc) ?_ hfree fun k d hk => ?_
              · rw [view_tasks, hnr, Option.map_none]
              · obtain ⟨r, hr, rfl⟩ := slot_of_view hk
                exact pid_ne_of_free hpid hr
            rw [Moves]
            convert hmove using 1
            refine View.ext ?_ rfl rfl rfl rfl rfl rfl rfl
            funext k
            rw [view_tasks]
            change (Function.update s.slot nr (some q) k).map _ = ((view s).put nr _).tasks k
            rw [put_apply, Function.update_apply]
            split
            · rw [Option.map_some, core]
              dsimp only
              rw [Function.update_self]
              rfl
            · rw [view_tasks]
              cases hk : s.slot k with
              | none => rfl
              | some r =>
                  rw [Option.map_some, Option.map_some, core]
                  dsimp only
                  rw [Function.update_of_ne (hne k r hk), setProc_proc]
                  split
                  · next hrp => rw [hrp]; rfl
                  · rfl
          · -- what `copy_mem` has left behind is in no slot
            refine Quiet.moves ⟨rfl, fun k r hk => ?_, rfl, rfl, rfl, rfl, rfl, rfl, rfl⟩
            rw [core, setProc_proc, setProc_proc]
            split
            · next hrp => rw [hrp]; rfl
            · rw [if_neg (hne k r hk)]
              rfl

theorem safe_sysFork (h : Inv (view s)) (hi : s.slot i = some p) (h0 : i ≠ 0)
    (hpc : (s.proc p).pc = .user) (page : Option Nat) (copied : Bool) :
    Safe s (sysFork s p page copied) := by
  unfold sysFork
  cases hf : findPid s s.lastPid 65 with
  | none => exact True.intro
  | some pid =>
      dsimp only
      let t : State := { s with lastPid := pid }
      have ht : Quiet s t := ⟨rfl, fun _ _ _ => rfl, rfl, rfl, rfl, rfl, rfl, rfl, rfl⟩
      split
      · refine Quiet.safe (ht.trans ?_)
        exact Quiet.setProc rfl
      · next nr hnr =>
          have hfree : pidUsed s pid = false := findPid_free hf
          have hview : Inv (view t) := h
          exact safe_copyProcess hview hi h0 hpc hfree (findSlot_free hnr).2 page copied

theorem moves_doExit (h : Inv (view s)) (hi : s.slot i = some p) (h1 : i ≠ 1)
    (hpc : (s.proc p).pc = .user) (code : Int) : Moves s (doExit s p code) := by
  have hmove := @Move.leave _ _ _ code (view_some hi) h1 (Or.inl hpc)
  have ho := orphaned_foldl (s.proc p).pid (List.finRange 64) s
  have hcore : ∀ k q, s.slot k = some q →
      core ((List.finRange 64).foldl (orphan (s.proc p).pid) s) q =
        (core s q).inherit (s.proc p).pid := fun k q hk => by
    rw [ho.proc, if_pos ⟨k, List.mem_finRange k, hk⟩]
  rw [Moves]
  convert hmove using 1
  refine View.ext ?_ ho.used ho.nextId ?_ ho.exits ho.reaps ho.returned ho.badFather
  · funext k
    change (((List.finRange 64).foldl (orphan (s.proc p).pid) s).slot k).map _ =
      ((s.slot k).map (core s)).map _
    rw [ho.slot]
    cases hk : s.slot k with
    | none => rfl
    | some q =>
        rw [Option.map_some, Option.map_some, Option.map_some]
        congr 1
        change coreOf q ((setProc _ p _).proc q) = _
        rw [setProc_proc]
        by_cases hqp : q = p
        · subst hqp
          rw [if_pos rfl, if_pos (slot_inj h hk hi)]
          exact congrArg (fun c : Core => { c with pc := Pc.exiting code }) (hcore k q hk)
        · have hki : k ≠ i := by
            rintro rfl
            exact hqp (Option.some.inj (hk.symm.trans hi))
          rw [if_neg hqp, if_neg hki]
          exact hcore k q hk
  · change (core _ p).id :: _ = _
    have hid : ((core s p).inherit (s.proc p).pid).id = (core s p).id := by
      unfold Core.inherit
      split <;> rfl
    rw [hcore i p hi, hid, ho.left]
    rfl

theorem safe_release {t : State} (h : ∀ i j, t.slot i = some p → t.slot j = some p → i = j)
    (hi : t.slot i = some p) (h0 : i ≠ 0)
    (hm : Moves s { t with
      slot := Function.update t.slot i none
      used := Function.update t.used p false }) : Safe s (release t p) := by
  rw [release_eq h hi h0]
  exact hm

/-- `tell_father` finds the father. -/
theorem tellFather_eq {pid : Int} {j : Fin 64} {q : Nat} (h0 : pid ≠ 0)
    (hj : s.slot j = some q) (hq : (s.proc q).pid = pid) (cur : Nat) :
    ∃ r, tellFather s cur pid = .next (raise s r (sigBit SIGCHLD)) := by
  unfold tellFather
  dsimp only
  rw [if_neg h0]
  split
  · next r _ => exact ⟨r, rfl⟩
  · next hnone =>
      have := List.findSome?_eq_none_iff.mp hnone j (List.mem_finRange j)
      simp [hj, hq] at this

theorem safe_finishExit (h : Inv (view s)) (hi : s.slot i = some p) (h0 : i ≠ 0)
    (hrun : (s.proc p).state = .running) {code : Int} (hpc : (s.proc p).pc = .exiting code) :
    Safe s (finishExit s p code) := by
  have hgone : (core s p).gone := ⟨code, hpc⟩
  have h1 : i ≠ 1 := by
    rintro rfl
    obtain ⟨o, ho, -, -, hog⟩ := h.family.one
    obtain rfl : core s p = o := Option.some.inj ((view_some hi).symm.trans ho)
    exact hog hgone
  unfold finishExit
  set t := if (s.proc p).leader then killSession s (s.proc p).session else s with ht
  have hquiet : Quiet s t := by
    rw [ht]
    split
    · exact Quiet.killSession s _
    · exact Quiet.refl s
  have hcore : core t p = core s p := hquiet.proc i p hi
  have hti : t.slot i = some p := by rw [hquiet.slot, hi]
  have hinv : Inv (view t) := by rwa [hquiet.view]
  set z : Task := { t.proc p with state := .zombie, exitCode := code } with hz
  have hcz : coreOf p z = { core s p with zombie := true, exitCode := code } := by
    rw [← hcore]
    rfl
  have hid : ((setProc t p z).proc p).id = (core s p).id := by
    rw [setProc_proc, if_pos rfl, ← hcore]
    rfl
  set u : State := { setProc t p z with
    exits := (setProc t p z).exits ++ [(((setProc t p z).proc p).id, code)] } with hu
  have hview : view u = { (view s).put i { core s p with zombie := true, exitCode := code } with
      exits := (view s).exits ++ [((core s p).id, code)] } := by
    have hset := view_setProc hinv hti z
    rw [hquiet.view, hcz] at hset
    have htasks := congrArg View.tasks hset
    refine View.ext htasks hquiet.used hquiet.nextId hquiet.left ?_
      hquiet.reaps hquiet.returned hquiet.badFather
    change (setProc t p z).exits ++ [(((setProc t p z).proc p).id, code)] = _
    rw [hid]
    exact congrArg (· ++ [((core s p).id, code)]) hquiet.exits
  have hmoves : Moves s u := by
    rw [Moves, hview]
    refine Move.die (view_some hi) hpc ?_
    change decide ((s.proc p).state = .zombie) = false
    rw [hrun]
    rfl
  obtain ⟨j, d, hj0, hd, hdpid, -, -⟩ := h.family.father i (core s p) h0 h1 (view_some hi)
  obtain ⟨q, hq, rfl⟩ := slot_of_view hd
  have hfather : (u.proc p).father = (s.proc p).father := by
    change ((setProc t p z).proc p).father = (core s p).father
    rw [setProc_proc, if_pos rfl, ← hcore]
    rfl
  have hne : (u.proc p).father ≠ 0 := by
    intro hzero
    obtain ⟨o, ho, hop⟩ := h.table.zero
    refine hj0 (h.table.pid j 0 (core s q) o hd ho ?_)
    rw [hdpid, hop]
    exact hfather.symm.trans hzero
  have huq : u.slot j = some q := by
    change t.slot j = some q
    rw [hquiet.slot, hq]
  have hupid : (u.proc q).pid = (u.proc p).father := by
    rw [hfather]
    refine Eq.trans ?_ hdpid
    have hqt : core t q = core s q := hquiet.proc j q hq
    change ((setProc t p z).proc q).pid = (core s q).pid
    rw [setProc_proc]
    split
    · next hqp =>
        rw [hqp, ← hcore]
        rfl
    · rw [← hqt]
      rfl
  obtain ⟨r, hr⟩ := tellFather_eq hne huq hupid p
  rw [hr]
  change Moves s _
  rw [Moves, (Quiet.raise u r _).view]
  exact hmoves

theorem safe_sysWaitpid (h : Inv (view s)) (hi : s.slot i = some p) (calm : (core s p).calm)
    (pid : Int) (options : BitVec 32) : Safe s (sysWaitpid s p pid options) := by
  have hbusy : ∀ t : Task, coreOf p t = { core s p with pc := (coreOf p t).pc } →
      (coreOf p t).calm → Moves s (setProc s p t) := by
    intro t ht hcalm
    exact moves_setProc h hi ht
      (Or.inr ⟨calm, hcalm⟩)
  have hlive : (s.proc p).state ≠ .zombie := by
    intro hz
    refine calm.not_gone (h.family.zombie i _ (view_some hi) ?_)
    exact decide_eq_true hz
  unfold sysWaitpid
  dsimp only
  split
  · exact hbusy _ rfl (Or.inl rfl)
  · next q hq =>
      obtain ⟨j, hj, hjq, hne, hfather, hz⟩ := scan_zombie hq
      have hj0 : j ≠ 0 := by
        simpa [scanned] using hj
      have hij : i ≠ j := by
        rintro rfl
        exact hne (Option.some.inj (hjq.symm.trans hi))
      have hinj : ∀ k l, s.slot k = some q → s.slot l = some q → k = l := fun k l => slot_inj h
      have hmove := Move.reap (view_some hi) calm (view_some hjq) hj0 (decide_eq_true hz) hij hfather
      refine safe_release (i := j) hinj hjq hj0 ?_
      rw [Moves]
      convert hmove using 1
      exact View.ext (tasks_released h hi _ j) rfl rfl rfl rfl rfl rfl rfl
  · split
    · split
      · exact hbusy _ rfl (Or.inl rfl)
      · refine hbusy _ ?_ (Or.inr ⟨pid, options, rfl⟩)
        have hdec : decide ((s.proc p).state = TaskState.zombie) = false := decide_eq_false hlive
        simp [coreOf, core, hdec]
    · exact hbusy _ rfl (Or.inl rfl)

theorem safe_wake (h : Inv (view s)) (hi : s.slot i = some p) {pid : Int} {options : BitVec 32}
    (hpc : (s.proc p).pc = .waiting pid options) : Safe s (wake s p pid options) := by
  have calm : (core s p).calm := Or.inr ⟨pid, options, hpc⟩
  unfold wake
  dsimp only
  split
  · next hsig =>
      set t := setProc s p { s.proc p with signal := (s.proc p).signal &&& ~~~sigBit SIGCHLD }
      have ht : Quiet s t := Quiet.setProc rfl
      have hinv : Inv (view t) := by rwa [ht.view]
      have hcalm : (core t p).calm := by rwa [ht.proc i p hi]
      refine (safe_sysWaitpid hinv (hi : t.slot i = some p) hcalm pid options).mono fun s' hs' => ?_
      rwa [Moves, ht.view] at hs'
  · exact moves_setProc h hi rfl
      (Or.inr ⟨calm, Or.inl rfl⟩)

theorem moves_returnPid (h : Inv (view s)) (hi : s.slot i = some p) {flag code : Int}
    {child : Nat} (hpc : (s.proc p).pc = .released flag code child) :
    Moves s (returnPid s p flag code child) := by
  have hmove := Move.ret (view_some hi) hpc
  rw [Moves]
  convert hmove using 1
  have htasks := congrArg View.tasks (view_setProc h hi { s.proc p with eax := flag, pc := .user })
  exact View.ext htasks rfl rfl rfl rfl rfl rfl rfl

theorem ready_some {t : Task} (h : ready s i = some (p, t)) :
    s.slot i = some p ∧ i ≠ 0 ∧ (s.proc p).state = .running ∧ t = s.proc p := by
  unfold ready at h
  split at h
  · next q hq =>
      split at h
      · next hc =>
          obtain ⟨rfl, rfl⟩ := Prod.mk.inj (Option.some.inj h)
          exact ⟨hq, hc.1, hc.2, rfl⟩
      · cases h
  · cases h

theorem safe_call {f : Nat → Task → Outcome State}
    (hf : ∀ p, s.slot i = some p → i ≠ 0 → (s.proc p).state = .running →
      (s.proc p).pc = .user → Safe s (f p (s.proc p))) : Safe s (call s i f) := by
  unfold call
  split
  · next p t hr =>
      obtain ⟨hi, h0, hrun, rfl⟩ := ready_some hr
      split
      · next hpc => exact hf p hi h0 hrun hpc
      · exact True.intro
  · exact True.intro

/-- **Every step is a move**, and none panics. -/
theorem safe_step (h : Inv (view s)) (op : Op) : Safe s (step s op) := by
  cases op with
  | fork i page copied =>
      exact safe_call fun p hi h0 _ hpc => safe_sysFork h hi h0 hpc page copied
  | exit i code =>
      rw [step]
      split
      · exact True.intro
      · next h1 => exact safe_call fun p hi _ _ hpc => moves_doExit h hi h1 hpc code
  | finishExit i =>
      rw [step]
      split
      · next p t hr =>
          obtain ⟨hi, h0, hrun, rfl⟩ := ready_some hr
          split
          · next code hpc => exact safe_finishExit h hi h0 hrun hpc
          · exact True.intro
      · exact True.intro
  | waitpid i pid options =>
      exact safe_call fun p hi _ _ hpc => safe_sysWaitpid h hi (Or.inl hpc) pid options
  | wake i =>
      rw [step]
      split
      · next p t hr =>
          obtain ⟨hi, -, -, rfl⟩ := ready_some hr
          split
          · next pid options hpc => exact safe_wake h hi hpc
          · exact True.intro
      · exact True.intro
  | returnPid i =>
      rw [step]
      split
      · next p t hr =>
          obtain ⟨hi, -, -, rfl⟩ := ready_some hr
          split
          · next flag code child hpc => exact moves_returnPid h hi hpc
          · exact True.intro
      · exact True.intro
  | kill i pid sig => exact safe_call fun p _ _ _ _ => (Quiet.sysKill s p pid sig).safe
  | pause i =>
      refine safe_call fun p _ _ hrun _ => (Quiet.setProc ?_).safe
      rw [core, coreOf, coreOf, hrun]
      rfl
  | handle i sig => exact safe_call fun p _ _ _ _ => Quiet.safe (Quiet.setProc rfl)
  | setpgid i pgrp =>
      rw [step]
      split
      · exact Quiet.safe (Quiet.setProc rfl)
      · exact True.intro
  | setsid i => exact safe_call fun p _ _ _ _ => Quiet.safe (Quiet.setProc rfl)
  | schedule => exact (Quiet.schedule s).safe
  | tick i cpl =>
      rw [step]
      split
      · next p hi =>
          cases cpl
          · exact moves_setProc h hi rfl
              (Or.inl rfl)
          · exact moves_setProc h hi rfl
              (Or.inl rfl)
      · exact True.intro

/-! ### Runs -/

theorem initial_cases {c : Core} (hi : (view initial).tasks i = some c) :
    i = 0 ∧ c = coreOf 0 (bootTask 0 (-1) 0) ∨ i = 1 ∧ c = coreOf 1 (bootTask 1 0 1) := by
  obtain ⟨p, hp, rfl⟩ := slot_of_view hi
  simp only [initial] at hp
  split at hp
  · next h =>
      obtain rfl := Option.some.inj hp
      exact Or.inl ⟨h, rfl⟩
  · split at hp
    · next h =>
        obtain rfl := Option.some.inj hp
        exact Or.inr ⟨h, rfl⟩
    · cases hp

theorem inv_initial : Inv (view initial) := by
  have h0 : (view initial).tasks 0 = some (coreOf 0 (bootTask 0 (-1) 0)) := rfl
  have h1 : (view initial).tasks 1 = some (coreOf 1 (bootTask 1 0 1)) := rfl
  have huser : ∀ i c, (view initial).tasks i = some c → c.pc = .user ∧ c.zombie = false := by
    intro i c hi
    rcases initial_cases hi with ⟨-, rfl⟩ | ⟨-, rfl⟩ <;> exact ⟨rfl, rfl⟩
  have hcalm : ∀ i c, (view initial).tasks i = some c → c.calm := fun i c hi =>
    Or.inl (huser i c hi).1
  refine ⟨?_, ?_, ?_, ?_⟩
  · constructor
    case page =>
      intro i j c d hi hj
      rcases initial_cases hi with ⟨rfl, rfl⟩ | ⟨rfl, rfl⟩ <;>
        rcases initial_cases hj with ⟨rfl, rfl⟩ | ⟨rfl, rfl⟩ <;> intro he <;>
          first | rfl | cases he
    case used =>
      intro p
      change (decide (p = 0) || decide (p = 1)) = true ↔ _
      simp only [Bool.or_eq_true, decide_eq_true_eq]
      constructor
      · rintro (rfl | rfl)
        · exact ⟨0, _, h0, rfl⟩
        · exact ⟨1, _, h1, rfl⟩
      · rintro ⟨i, c, hi, rfl⟩
        rcases initial_cases hi with ⟨-, rfl⟩ | ⟨-, rfl⟩
        · exact Or.inl rfl
        · exact Or.inr rfl
    case pid =>
      intro i j c d hi hj
      rcases initial_cases hi with ⟨rfl, rfl⟩ | ⟨rfl, rfl⟩ <;>
        rcases initial_cases hj with ⟨rfl, rfl⟩ | ⟨rfl, rfl⟩ <;> intro he <;>
          first | rfl | cases he
    case id =>
      intro i j c d hi hj
      rcases initial_cases hi with ⟨rfl, rfl⟩ | ⟨rfl, rfl⟩ <;>
        rcases initial_cases hj with ⟨rfl, rfl⟩ | ⟨rfl, rfl⟩ <;> intro he <;>
          first | rfl | cases he
    case zero => exact ⟨_, h0, rfl⟩
    case kept =>
      intro id
      change id < 2 ↔ _ ∨ ∃ r ∈ [], _
      constructor
      · intro hid
        obtain rfl | rfl : id = 0 ∨ id = 1 := by omega
        · exact Or.inl ⟨0, _, h0, rfl⟩
        · exact Or.inl ⟨1, _, h1, rfl⟩
      · rintro (⟨i, c, hi, rfl⟩ | ⟨r, hr, -⟩)
        · rcases initial_cases hi with ⟨-, rfl⟩ | ⟨-, rfl⟩ <;> decide
        · cases hr
    case reaped => exact fun r hr => absurd hr List.not_mem_nil
    case once => exact List.nodup_nil
    case times =>
      intro i c hi
      rcases initial_cases hi with ⟨-, rfl⟩ | ⟨-, rfl⟩ <;> exact ⟨rfl, rfl⟩
    case hasFather => rfl
  · constructor
    case one => exact ⟨_, h1, rfl, rfl, (hcalm 1 _ h1).not_gone⟩
    case father =>
      intro i c hi0 hi1 hi
      rcases initial_cases hi with ⟨h, -⟩ | ⟨h, -⟩
      · exact absurd h hi0
      · exact absurd h hi1
    case left => exact fun i c hi hg => absurd hg (hcalm i c hi).not_gone
    case zombie =>
      intro i c hi hz
      rw [(huser i c hi).2] at hz
      cases hz
  · intro e
    refine iff_of_false List.not_mem_nil ?_
    rintro (⟨i, c, hi, -, hz, -⟩ | ⟨r, hr, -⟩)
    · rw [(huser i c hi).2] at hz
      cases hz
    · cases hr
  · constructor
    case heir => exact fun r hr => absurd hr List.not_mem_nil
    case returns => exact fun r hr => absurd hr List.not_mem_nil
    case pending =>
      exact fun i c flag code child hi hpc =>
        absurd hpc ((hcalm i c hi).not_released flag code child)
    case returned => exact fun q hq => absurd hq List.not_mem_nil
    case returnedOnce => exact List.nodup_nil

theorem delivered_of_inv (h : Inv (view s)) : Delivered s where
  zombie e he := by
    rcases (h.exits e).mp he with ⟨i, c, hi, hid, hz, hcode⟩ | hr
    · obtain ⟨p, hp, rfl⟩ := slot_of_view hi
      exact Or.inl ⟨i, p, hp, hid, of_decide_eq_true hz, hcode⟩
    · exact Or.inr hr
  reaped r hr := ⟨(h.exits _).mpr (Or.inr ⟨r, hr, rfl, rfl⟩), fun i p hi =>
    (h.table.reaped r hr).2 i _ (view_some hi)⟩
  once := h.table.once
  kept id hid := by
    rcases (h.table.kept id).mp hid with ⟨i, c, hi, hc⟩ | hr
    · obtain ⟨p, hp, rfl⟩ := slot_of_view hi
      exact Or.inl ⟨i, p, hp, hc⟩
    · exact Or.inr hr
  pages p := by
    refine (h.table.used p).trans ⟨?_, ?_⟩
    · rintro ⟨i, c, hi, rfl⟩
      obtain ⟨q, hq, rfl⟩ := slot_of_view hi
      exact ⟨i, hq⟩
    · rintro ⟨i, hi⟩
      exact ⟨i, _, view_some hi, rfl⟩
  father := h.returns.heir
  returns r hr := by
    rcases h.returns.returns r hr with hq | ⟨i, c, hi, hid, hpc⟩
    · exact Or.inl hq
    · obtain ⟨p, hp, rfl⟩ := slot_of_view hi
      exact Or.inr ⟨i, p, hp, hid, hpc⟩
  returned := h.returns.returned
  returnedOnce := h.returns.returnedOnce
  times i p hi := h.table.times i _ (view_some hi)
  hasFather := h.table.hasFather

/-- **Every exit status is delivered once, to the right father**, in every state of
every run; and no `release` is of a task without a slot. -/
theorem delivered_reaches (h : Reaches step (fun _ _ => True) initial s) :
    Delivered s ∧ ∀ op msg, step s op ≠ .panic msg := by
  have hinv : Inv (view s) :=
    h.invariant (P := fun t => Inv (view t)) inv_initial fun t op t' ht _ hs =>
      ht.move ((safe_step ht op).of_next hs)
  refine ⟨delivered_of_inv hinv, fun op msg hp => ?_⟩
  have hsafe := safe_step hinv op
  rw [Safe, hp] at hsafe
  exact hsafe

/-- Task 1 forks, its child forks and exits, and task 1 waits for both. -/
def orphanRun : List Op :=
  [.fork 1 (some 2) true, .fork 2 (some 3) true, .waitpid 1 (-1) 0, .exit 2 7, .finishExit 2,
    .schedule, .wake 1, .exit 3 9, .returnPid 1, .finishExit 3, .waitpid 1 3 0, .returnPid 1]

theorem delivered_reaches_orphanRun :
    let s := (run step initial orphanRun).get initial
    (Delivered s ∧ ∀ op msg, step s op ≠ .panic msg) ∧
      s.returned = [⟨1, 3, 3, 9⟩, ⟨1, 2, 2, 7⟩] := by
  have hrun := Outcome.eq_next (o := run step initial orphanRun) (by decide +kernel) initial
  exact ⟨delivered_reaches (Reaches.of_run hrun (RunOk.trivial step initial orphanRun)),
    by decide +kernel⟩

/-- No two tasks have one pid, and the father of a task is there and has not begun to exit. -/
structure Related (s : State) : Prop where
  pid : ∀ i j p q, s.slot i = some p → s.slot j = some q → (s.proc p).pid = (s.proc q).pid → i = j
  father : ∀ i p, i ≠ 0 → i ≠ 1 → s.slot i = some p → ∃ j q, j ≠ 0 ∧ s.slot j = some q ∧
    (s.proc q).pid = (s.proc p).father ∧ ∀ code, (s.proc q).pc ≠ .exiting code

theorem related_reaches (h : Reaches step (fun _ _ => True) initial s) : Related s := by
  have hinv : Inv (view s) :=
    h.invariant (P := fun t => Inv (view t)) inv_initial fun t op t' ht _ hs =>
      ht.move ((safe_step ht op).of_next hs)
  refine ⟨fun i j p q hi hj => hinv.table.pid i j _ _ (view_some hi) (view_some hj),
    fun i p h0 h1 hi => ?_⟩
  obtain ⟨j, d, hj, hd, hpid, hgone, -⟩ := hinv.family.father i _ h0 h1 (view_some hi)
  obtain ⟨q, hq, rfl⟩ := slot_of_view hd
  exact ⟨j, q, hj, hq, hpid, fun code hc => hgone ⟨code, hc⟩⟩

/-- The grandchild is task 1's now. -/
theorem related_reaches_orphan : Related ((run step initial (orphanRun.take 5)).get initial) :=
  related_reaches (Reaches.of_run (Outcome.eq_next (by decide) initial)
    (RunOk.trivial step initial (orphanRun.take 5)))

end LinuxKernel.V011.Exit
