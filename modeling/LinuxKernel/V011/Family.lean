import LinuxKernel.V011.Exit
import Mathlib.Data.List.Nodup

/-!
# LinuxKernel.V011.Family

**The family of tasks**: what `fork`, `exit` and `waitpid` do, without the
scans of the table.

A `View` shows of each slot the members that decide who inherits, reaps and is
reaped. A `Move` says all that one step may do to it, and `Inv` is kept by every
move. That the kernel makes only moves is shown in `ExitOnce`.
-/

namespace LinuxKernel.V011.Exit

/-! ### Views -/

/-- What the family needs to know of a task. -/
structure Core where
  page : Nat
  pid : Int
  father : Int
  zombie : Bool
  exitCode : Int
  utime : Int
  stime : Int
  cutime : Int
  cstime : Int
  pc : Pc
  id : Nat
  parent : Nat

@[ext] structure View where
  tasks : Fin 64 → Option Core
  used : Nat → Bool
  nextId : Nat
  left : List Nat
  exits : List (Nat × Int)
  reaps : List Reap
  returned : List Return
  badFather : Bool

/-- The task has begun to exit. -/
def Core.gone (c : Core) : Prop := ∃ code, c.pc = .exiting code

/-- The task is not behind a `release`, and does not exit. -/
def Core.calm (c : Core) : Prop := c.pc = .user ∨ ∃ pid options, c.pc = .waiting pid options

theorem Core.calm.not_gone {c : Core} (h : c.calm) : ¬ c.gone := by
  rintro ⟨code, hc⟩
  rcases h with h | ⟨pid, options, h⟩ <;> rw [hc] at h <;> cases h

theorem Core.calm.not_released {c : Core} (h : c.calm) (flag code : Int) (child : Nat) :
    c.pc ≠ .released flag code child := by
  intro hc
  rcases h with h | ⟨pid, options, h⟩ <;> rw [hc] at h <;> cases h

/-- Slot `i` holds `c` now. -/
def View.put (v : View) (i : Fin 64) (c : Core) : View :=
  { v with tasks := Function.update v.tasks i (some c) }

/-- What `father` gets from the zombie `c`. -/
def Core.reap (father c : Core) : Reap where
  father := father.id
  child := c.id
  parent := c.parent
  pid := c.pid
  code := c.exitCode
  utime := c.utime
  stime := c.stime

def waitedFor' (reaps : List Reap) (id : Nat) (time : Reap → Int) : Int :=
  ((reaps.filter fun r => r.father = id).map time).sum

theorem waitedFor'_reap (c z : Core) (reaps : List Reap) (id : Nat) (time : Reap → Int) :
    waitedFor' (c.reap z :: reaps) id time =
      if c.id = id then time (c.reap z) + waitedFor' reaps id time
      else waitedFor' reaps id time := by
  have hfather : (c.reap z).father = c.id := rfl
  unfold waitedFor'
  by_cases h : c.id = id <;> simp [hfather, h]

/-- The child that `c` forks. -/
def Core.child (c : Core) (page : Nat) (pid : Int) (id : Nat) : Core where
  page := page
  pid := pid
  father := c.pid
  zombie := false
  exitCode := c.exitCode
  utime := 0
  stime := 0
  cutime := 0
  cstime := 0
  pc := .user
  id := id
  parent := c.id

/-- The father, when `pid` exits. -/
def Core.inherit (c : Core) (pid : Int) : Core :=
  if c.father = pid then { c with father := 1 } else c

/-! ### Moves -/

/-- All that a step may do to the family. -/
inductive Move : View → View → Prop
  | quiet (v : View) : Move v v
  /-- The task runs, waits, or is ticked. -/
  | busy {v : View} {i : Fin 64} {c c' : Core} (hi : v.tasks i = some c)
      (same : c' = { c with pc := c'.pc, utime := c'.utime, stime := c'.stime })
      (pc : c'.pc = c.pc ∨ c.calm ∧ c'.calm) : Move v (v.put i c')
  | fork {v : View} {i j : Fin 64} {c : Core} {page : Nat} {pid : Int}
      (hi : v.tasks i = some c) (h0 : i ≠ 0) (calm : c.calm) (hj : v.tasks j = none)
      (free : v.used page = false) (fresh : ∀ k d, v.tasks k = some d → d.pid ≠ pid) :
      Move v { v.put j (c.child page pid v.nextId) with
        used := Function.update v.used page true
        nextId := v.nextId + 1 }
  /-- The task begins to exit, and its children go to task 1. -/
  | leave {v : View} {i : Fin 64} {c : Core} {code : Int}
      (hi : v.tasks i = some c) (h1 : i ≠ 1) (calm : c.calm) :
      Move v { v with
        tasks := fun k => (v.tasks k).map fun d =>
          if k = i then { d.inherit c.pid with pc := .exiting code } else d.inherit c.pid
        left := c.id :: v.left }
  | die {v : View} {i : Fin 64} {c : Core} {code : Int}
      (hi : v.tasks i = some c) (gone : c.pc = .exiting code) (live : c.zombie = false) :
      Move v { v.put i { c with zombie := true, exitCode := code } with
        exits := v.exits ++ [(c.id, code)] }
  /-- Task `i` releases the zombie in slot `j`. -/
  | reap {v : View} {i j : Fin 64} {c z : Core}
      (hi : v.tasks i = some c) (calm : c.calm)
      (hj : v.tasks j = some z) (hj0 : j ≠ 0) (zombie : z.zombie = true) (ne : i ≠ j)
      (child : z.father = c.pid) :
      Move v { v with
        tasks := Function.update (Function.update v.tasks i (some { c with
          cutime := c.cutime + z.utime
          cstime := c.cstime + z.stime
          pc := .released z.pid z.exitCode z.id })) j none
        used := Function.update v.used z.page false
        reaps := c.reap z :: v.reaps }
  /-- `sys_waitpid` returns what it has released. -/
  | ret {v : View} {i : Fin 64} {c : Core} {flag code : Int} {child : Nat}
      (hi : v.tasks i = some c) (hpc : c.pc = .released flag code child) :
      Move v { v.put i { c with pc := .user } with
        returned :=
          { father := c.id, child := child, value := flag, status := code } :: v.returned }

/-! ### The invariant -/

/-- The father of a task is there and will stay until the task is gone. -/
def HasFather (v : View) (c : Core) : Prop :=
  ∃ j d, j ≠ 0 ∧ v.tasks j = some d ∧ d.pid = c.father ∧ ¬ d.gone ∧
    (d.id = c.parent ∨ j = 1 ∧ c.parent ∈ v.left)

/-- The slots, and who is accounted for. -/
structure Table (v : View) : Prop where
  page : ∀ i j c d, v.tasks i = some c → v.tasks j = some d → c.page = d.page → i = j
  used : ∀ p, v.used p = true ↔ ∃ i c, v.tasks i = some c ∧ c.page = p
  pid : ∀ i j c d, v.tasks i = some c → v.tasks j = some d → c.pid = d.pid → i = j
  id : ∀ i j c d, v.tasks i = some c → v.tasks j = some d → c.id = d.id → i = j
  zero : ∃ c, v.tasks 0 = some c ∧ c.pid = 0
  kept : ∀ id, id < v.nextId ↔
    (∃ i c, v.tasks i = some c ∧ c.id = id) ∨ ∃ r ∈ v.reaps, r.child = id
  reaped : ∀ r ∈ v.reaps, r.father < v.nextId ∧ ∀ i c, v.tasks i = some c → c.id ≠ r.child
  once : (v.reaps.map Reap.child).Nodup
  times : ∀ i c, v.tasks i = some c →
    c.cutime = waitedFor' v.reaps c.id Reap.utime ∧ c.cstime = waitedFor' v.reaps c.id Reap.stime
  hasFather : v.badFather = false

/-- Who has a father. -/
structure Family (v : View) : Prop where
  one : ∃ c, v.tasks 1 = some c ∧ c.pid = 1 ∧ c.id = 1 ∧ ¬ c.gone
  father : ∀ i c, i ≠ 0 → i ≠ 1 → v.tasks i = some c → HasFather v c
  left : ∀ i c, v.tasks i = some c → c.gone → c.id ∈ v.left
  zombie : ∀ i c, v.tasks i = some c → c.zombie = true → c.gone

/-- Who has exited is a zombie or released. -/
def Exits (v : View) : Prop :=
  ∀ e, e ∈ v.exits ↔
    (∃ i c, v.tasks i = some c ∧ c.id = e.1 ∧ c.zombie = true ∧ c.exitCode = e.2) ∨
    ∃ r ∈ v.reaps, r.child = e.1 ∧ r.code = e.2

/-- What has been released is returned. -/
structure Returns (v : View) : Prop where
  heir : ∀ r ∈ v.reaps, r.father = r.parent ∨ r.father = 1 ∧ r.parent ∈ v.left
  returns : ∀ r ∈ v.reaps, r.ret ∈ v.returned ∨
    ∃ i c, v.tasks i = some c ∧ c.id = r.father ∧ c.pc = .released r.pid r.code r.child
  pending : ∀ i c flag code child, v.tasks i = some c → c.pc = .released flag code child →
    (∃ r ∈ v.reaps, r.father = c.id ∧ r.pid = flag ∧ r.code = code ∧ r.child = child) ∧
    ∀ q ∈ v.returned, q.child ≠ child
  returned : ∀ q ∈ v.returned, ∃ r ∈ v.reaps, q = r.ret
  returnedOnce : (v.returned.map Return.child).Nodup

structure Inv (v : View) : Prop where
  table : Table v
  family : Family v
  exits : Exits v
  returns : Returns v

/-! ### Steps that keep who is in which slot -/

/-- `v'` has the tasks of `v`, changed by `f` in what does not name them. -/
structure Relabel (v v' : View) (f : Fin 64 → Core → Core) : Prop where
  tasks : ∀ k, v'.tasks k = (v.tasks k).map (f k)
  page : ∀ k d, v.tasks k = some d → (f k d).page = d.page
  pid : ∀ k d, v.tasks k = some d → (f k d).pid = d.pid
  id : ∀ k d, v.tasks k = some d → (f k d).id = d.id
  parent : ∀ k d, v.tasks k = some d → (f k d).parent = d.parent
  cutime : ∀ k d, v.tasks k = some d → (f k d).cutime = d.cutime
  cstime : ∀ k d, v.tasks k = some d → (f k d).cstime = d.cstime
  used : v'.used = v.used
  nextId : v'.nextId = v.nextId
  reaps : v'.reaps = v.reaps
  badFather : v'.badFather = v.badFather

namespace Relabel

variable {v v' : View} {f : Fin 64 → Core → Core}

theorem fwd (r : Relabel v v' f) {k : Fin 64} {d : Core} (h : v.tasks k = some d) :
    v'.tasks k = some (f k d) := by
  rw [r.tasks, h, Option.map_some]

theorem bwd (r : Relabel v v' f) {k : Fin 64} {d' : Core} (h : v'.tasks k = some d') :
    ∃ d, v.tasks k = some d ∧ f k d = d' := by
  rw [r.tasks, Option.map_eq_some_iff] at h
  exact h

theorem table (r : Relabel v v' f) (h : Table v) : Table v' where
  page i j c' d' hi hj he := by
    obtain ⟨c, hc, rfl⟩ := r.bwd hi
    obtain ⟨d, hd, rfl⟩ := r.bwd hj
    rw [r.page i c hc, r.page j d hd] at he
    exact h.page i j c d hc hd he
  used p := by
    rw [r.used, h.used]
    constructor
    · rintro ⟨i, c, hc, hp⟩
      exact ⟨i, f i c, r.fwd hc, (r.page i c hc).trans hp⟩
    · rintro ⟨i, c', hc', hp⟩
      obtain ⟨c, hc, rfl⟩ := r.bwd hc'
      exact ⟨i, c, hc, (r.page i c hc).symm.trans hp⟩
  pid i j c' d' hi hj he := by
    obtain ⟨c, hc, rfl⟩ := r.bwd hi
    obtain ⟨d, hd, rfl⟩ := r.bwd hj
    rw [r.pid i c hc, r.pid j d hd] at he
    exact h.pid i j c d hc hd he
  id i j c' d' hi hj he := by
    obtain ⟨c, hc, rfl⟩ := r.bwd hi
    obtain ⟨d, hd, rfl⟩ := r.bwd hj
    rw [r.id i c hc, r.id j d hd] at he
    exact h.id i j c d hc hd he
  zero := by
    obtain ⟨c, hc, hp⟩ := h.zero
    exact ⟨f 0 c, r.fwd hc, (r.pid 0 c hc).trans hp⟩
  kept id := by
    rw [r.nextId, r.reaps, h.kept]
    refine or_congr ⟨?_, ?_⟩ Iff.rfl
    · rintro ⟨i, c, hc, rfl⟩
      exact ⟨i, f i c, r.fwd hc, r.id i c hc⟩
    · rintro ⟨i, c', hc', rfl⟩
      obtain ⟨c, hc, rfl⟩ := r.bwd hc'
      exact ⟨i, c, hc, (r.id i c hc).symm⟩
  reaped := by
    rw [r.reaps, r.nextId]
    refine fun q hq => ⟨(h.reaped q hq).1, fun i c' hc' => ?_⟩
    obtain ⟨c, hc, rfl⟩ := r.bwd hc'
    rw [r.id i c hc]
    exact (h.reaped q hq).2 i c hc
  once := by rw [r.reaps]; exact h.once
  times i c' hc' := by
    obtain ⟨c, hc, rfl⟩ := r.bwd hc'
    rw [r.cutime i c hc, r.cstime i c hc, r.id i c hc, r.reaps]
    exact h.times i c hc
  hasFather := r.badFather.trans h.hasFather

/-- If fathers stay, and who has begun to exit. -/
theorem family (r : Relabel v v' f) (h : Family v)
    (father : ∀ k d, v.tasks k = some d → (f k d).father = d.father)
    (gone : ∀ k d, v.tasks k = some d → ((f k d).gone ↔ d.gone))
    (zombie : ∀ k d, v.tasks k = some d → (f k d).zombie = true → d.gone)
    (left : v'.left = v.left) : Family v' where
  one := by
    obtain ⟨c, hc, hp, hid, hg⟩ := h.one
    refine ⟨f 1 c, r.fwd hc, (r.pid 1 c hc).trans hp, (r.id 1 c hc).trans hid, ?_⟩
    rwa [gone 1 c hc]
  father i c' h0 h1 hc' := by
    obtain ⟨c, hc, rfl⟩ := r.bwd hc'
    obtain ⟨j, d, hj, hd, hp, hg, hpar⟩ := h.father i c h0 h1 hc
    refine ⟨j, f j d, hj, r.fwd hd, ?_, ?_, ?_⟩
    · rw [r.pid j d hd, father i c hc, hp]
    · rwa [gone j d hd]
    · rwa [r.id j d hd, r.parent i c hc, left]
  left i c' hc' hg := by
    obtain ⟨c, hc, rfl⟩ := r.bwd hc'
    rw [r.id i c hc, left]
    exact h.left i c hc ((gone i c hc).mp hg)
  zombie i c' hc' hz := by
    obtain ⟨c, hc, rfl⟩ := r.bwd hc'
    exact (gone i c hc).mpr (zombie i c hc hz)

theorem exits (r : Relabel v v' f) (h : Exits v)
    (zombie : ∀ k d, v.tasks k = some d → (f k d).zombie = d.zombie)
    (code : ∀ k d, v.tasks k = some d → (f k d).exitCode = d.exitCode)
    (exits : v'.exits = v.exits) : Exits v' := by
  intro e
  rw [exits, h e, r.reaps]
  refine or_congr ⟨?_, ?_⟩ Iff.rfl
  · rintro ⟨i, c, hc, hid, hz, he⟩
    exact ⟨i, f i c, r.fwd hc, (r.id i c hc).trans hid, (zombie i c hc).trans hz,
      (code i c hc).trans he⟩
  · rintro ⟨i, c', hc', hid, hz, he⟩
    obtain ⟨c, hc, rfl⟩ := r.bwd hc'
    exact ⟨i, c, hc, (r.id i c hc).symm.trans hid, (zombie i c hc).symm.trans hz,
      (code i c hc).symm.trans he⟩

theorem returns (r : Relabel v v' f) (h : Returns v)
    (released : ∀ k d flag code child, v.tasks k = some d →
      ((f k d).pc = .released flag code child ↔ d.pc = .released flag code child))
    (left : v.left ⊆ v'.left) (returned : v'.returned = v.returned) : Returns v' where
  heir := by
    rw [r.reaps]
    intro q hq
    rcases h.heir q hq with hf | ⟨hf, hl⟩
    · exact Or.inl hf
    · exact Or.inr ⟨hf, left hl⟩
  returns := by
    rw [r.reaps, returned]
    intro q hq
    rcases h.returns q hq with hr | ⟨i, c, hc, hid, hpc⟩
    · exact Or.inl hr
    · exact Or.inr ⟨i, f i c, r.fwd hc, (r.id i c hc).trans hid, (released i c _ _ _ hc).mpr hpc⟩
  pending i c' flag code child hc' hpc := by
    obtain ⟨c, hc, rfl⟩ := r.bwd hc'
    rw [r.reaps, returned, r.id i c hc]
    exact h.pending i c flag code child hc ((released i c flag code child hc).mp hpc)
  returned := by rw [r.reaps, returned]; exact h.returned
  returnedOnce := by rw [returned]; exact h.returnedOnce

end Relabel

section Put

variable {v v' : View} {i : Fin 64} {c c' : Core}

theorem put_apply (v : View) (i k : Fin 64) (c : Core) :
    (v.put i c).tasks k = if k = i then some c else v.tasks k :=
  Function.update_apply v.tasks i (some c) k

/-- What holds of `c'` and of all old tasks holds of the task `relabel_put` gives. -/
theorem put_cases {P : Core → Core → Prop} (hi : v.tasks i = some c) (hc : P c' c)
    (hd : ∀ d, P d d) (k : Fin 64) (d : Core) (hk : v.tasks k = some d) :
    P (if k = i then c' else d) d := by
  split
  · next h =>
      subst h
      obtain rfl : c = d := Option.some.inj (hi.symm.trans hk)
      exact hc
  · exact hd d

/-- A task is replaced by one of the same name. -/
theorem relabel_put (hi : v.tasks i = some c) (htasks : v'.tasks = (v.put i c').tasks)
    (hused : v'.used = v.used) (hnext : v'.nextId = v.nextId) (hreaps : v'.reaps = v.reaps)
    (hbad : v'.badFather = v.badFather) (page : c'.page = c.page) (pid : c'.pid = c.pid)
    (id : c'.id = c.id) (parent : c'.parent = c.parent) (cutime : c'.cutime = c.cutime)
    (cstime : c'.cstime = c.cstime) :
    Relabel v v' fun k d => if k = i then c' else d where
  tasks k := by
    rw [htasks, put_apply]
    split
    · next hk => rw [hk, hi, Option.map_some]
    · rw [Option.map_id']
  page := put_cases (P := fun d' d => d'.page = d.page) hi page fun _ => rfl
  pid := put_cases (P := fun d' d => d'.pid = d.pid) hi pid fun _ => rfl
  id := put_cases (P := fun d' d => d'.id = d.id) hi id fun _ => rfl
  parent := put_cases (P := fun d' d => d'.parent = d.parent) hi parent fun _ => rfl
  cutime := put_cases (P := fun d' d => d'.cutime = d.cutime) hi cutime fun _ => rfl
  cstime := put_cases (P := fun d' d => d'.cstime = d.cstime) hi cstime fun _ => rfl
  used := hused
  nextId := hnext
  reaps := hreaps
  badFather := hbad

end Put

/-! ### The moves -/

namespace Inv

variable {v : View} {i j : Fin 64} {c c' : Core}

theorem busy (h : Inv v) (hi : v.tasks i = some c)
    (same : c' = { c with pc := c'.pc, utime := c'.utime, stime := c'.stime })
    (pc : c'.pc = c.pc ∨ c.calm ∧ c'.calm) : Inv (v.put i c') := by
  have r : Relabel v (v.put i c') fun k d => if k = i then c' else d :=
    relabel_put hi rfl rfl rfl rfl rfl (by rw [same]) (by rw [same]) (by rw [same]) (by rw [same])
      (by rw [same]) (by rw [same])
  have hgone : c'.gone ↔ c.gone := by
    rcases pc with hpc | ⟨hc, hc'⟩
    · rw [Core.gone, Core.gone, hpc]
    · exact ⟨fun hg => absurd hg hc'.not_gone, fun hg => absurd hg hc.not_gone⟩
  have hreleased : ∀ flag code child,
      c'.pc = .released flag code child ↔ c.pc = .released flag code child := by
    intro flag code child
    rcases pc with hpc | ⟨hc, hc'⟩
    · rw [hpc]
    · exact ⟨fun hr => absurd hr (hc'.not_released flag code child),
        fun hr => absurd hr (hc.not_released flag code child)⟩
  have hzombie : c'.zombie = c.zombie := by rw [same]
  exact {
    table := r.table h.table
    family := r.family h.family
      (put_cases (P := fun d' d => d'.father = d.father) hi (by rw [same]) fun _ => rfl)
      (put_cases (P := fun d' d => d'.gone ↔ d.gone) hi hgone fun _ => Iff.rfl)
      (fun k d hk hz => h.family.zombie k d hk
        ((put_cases (P := fun d' d => d'.zombie = d.zombie) hi hzombie (fun _ => rfl) k d hk).symm.trans
          hz)) rfl
    exits := r.exits h.exits
      (put_cases (P := fun d' d => d'.zombie = d.zombie) hi hzombie fun _ => rfl)
      (put_cases (P := fun d' d => d'.exitCode = d.exitCode) hi (by rw [same]) fun _ => rfl) rfl
    returns := r.returns h.returns
      (fun k d flag code child hk =>
        put_cases (P := fun d' d => d'.pc = .released flag code child ↔
          d.pc = .released flag code child) hi (hreleased flag code child) (fun _ => Iff.rfl) k d hk)
      (List.Subset.refl _) rfl }

theorem die {code : Int} (h : Inv v) (hi : v.tasks i = some c) (gone : c.pc = .exiting code)
    (live : c.zombie = false) :
    Inv { v.put i { c with zombie := true, exitCode := code } with
      exits := v.exits ++ [(c.id, code)] } := by
  let z : Core := { c with zombie := true, exitCode := code }
  let v' : View := { v.put i z with exits := v.exits ++ [(c.id, code)] }
  have r : Relabel v v' fun k d => if k = i then z else d :=
    relabel_put hi rfl rfl rfl rfl rfl rfl rfl rfl rfl rfl rfl
  have hz : v'.tasks i = some z := (put_apply v i i z).trans (if_pos rfl)
  refine ⟨r.table h.table, r.family h.family ?_ ?_ ?_ rfl, ?_, r.returns h.returns ?_
    (List.Subset.refl _) rfl⟩
  · exact put_cases (P := fun d' d => d'.father = d.father) hi rfl fun _ => rfl
  · exact put_cases (P := fun d' d => d'.gone ↔ d.gone) hi Iff.rfl fun _ => Iff.rfl
  · intro k d hk hd
    split at hd
    · next hki =>
        subst hki
        obtain rfl : c = d := Option.some.inj (hi.symm.trans hk)
        exact ⟨code, gone⟩
    · exact h.family.zombie k d hk hd
  · intro e
    change e ∈ v.exits ++ [(c.id, code)] ↔ _
    rw [List.mem_append, List.mem_singleton, h.exits e]
    constructor
    · rintro ((⟨k, d, hk, hid, hd, he⟩ | hr) | rfl)
      · have hne : k ≠ i := by
          rintro rfl
          obtain rfl : c = d := Option.some.inj (hi.symm.trans hk)
          rw [live] at hd
          cases hd
        exact Or.inl ⟨k, d, (put_apply v i k z).trans ((if_neg hne).trans hk), hid, hd, he⟩
      · exact Or.inr hr
      · exact Or.inl ⟨i, z, hz, rfl, rfl, rfl⟩
    · rintro (⟨k, d, hk, hid, hd, he⟩ | hr)
      · by_cases hki : k = i
        · subst hki
          obtain rfl : z = d := Option.some.inj (hz.symm.trans hk)
          exact Or.inr (Prod.ext hid.symm he.symm)
        · have hk' : v.tasks k = some d := by
            rw [← hk]
            exact ((put_apply v i k z).trans (if_neg hki)).symm
          exact Or.inl (Or.inl ⟨k, d, hk', hid, hd, he⟩)
      · exact Or.inl (Or.inr hr)
  · intro k d flag code' child hk
    exact put_cases (P := fun d' d => d'.pc = .released flag code' child ↔
      d.pc = .released flag code' child) hi (show z.pc = _ ↔ _ from Iff.rfl) (fun _ => Iff.rfl) k d hk

/-- Fathers stay, but for the task that begins to exit: task 1 is the father then. -/
theorem leave {code : Int} (h : Inv v) (hi : v.tasks i = some c) (h1 : i ≠ 1) (calm : c.calm) :
    Inv { v with
      tasks := fun k => (v.tasks k).map fun d =>
        if k = i then { d.inherit c.pid with pc := .exiting code } else d.inherit c.pid
      left := c.id :: v.left } := by
  let f (k : Fin 64) (d : Core) : Core :=
    if k = i then { d.inherit c.pid with pc := .exiting code } else d.inherit c.pid
  let v' : View := { v with
    tasks := fun k => (v.tasks k).map (f k)
    left := c.id :: v.left }
  change Inv v'
  have hf : ∀ k d, (f k d).page = d.page ∧ (f k d).pid = d.pid ∧ (f k d).id = d.id ∧
      (f k d).parent = d.parent ∧ (f k d).cutime = d.cutime ∧ (f k d).cstime = d.cstime ∧
      (f k d).zombie = d.zombie ∧ (f k d).exitCode = d.exitCode ∧
      (f k d).father = (if d.father = c.pid then 1 else d.father) := by
    intro k d
    by_cases hk : k = i <;> by_cases hd : d.father = c.pid <;> simp [f, hk, hd, Core.inherit]
  have hpc : ∀ k d, k ≠ i → (f k d).pc = d.pc := by
    intro k d hk
    by_cases hd : d.father = c.pid <;> simp [f, hk, hd, Core.inherit]
  have r : Relabel v v' f := {
    tasks := fun k => rfl
    page := fun k d _ => (hf k d).1
    pid := fun k d _ => (hf k d).2.1
    id := fun k d _ => (hf k d).2.2.1
    parent := fun k d _ => (hf k d).2.2.2.1
    cutime := fun k d _ => (hf k d).2.2.2.2.1
    cstime := fun k d _ => (hf k d).2.2.2.2.2.1
    used := rfl
    nextId := rfl
    reaps := rfl
    badFather := rfl }
  refine ⟨r.table h.table, ?_, r.exits h.exits (fun k d _ => (hf k d).2.2.2.2.2.2.1)
    (fun k d _ => (hf k d).2.2.2.2.2.2.2.1) rfl, r.returns h.returns ?_
    (List.subset_cons_self _ _) rfl⟩
  · obtain ⟨o, ho, hop, hoid, hog⟩ := h.family.one
    have hog' : ¬ (f 1 o).gone := by rwa [Core.gone, hpc 1 o (Ne.symm h1)]
    constructor
    case one => exact ⟨f 1 o, r.fwd ho, (hf 1 o).2.1.trans hop, (hf 1 o).2.2.1.trans hoid, hog'⟩
    case father =>
      intro k d' hk0 hk1 hd'
      obtain ⟨d, hd, rfl⟩ := r.bwd hd'
      obtain ⟨j, g, hj, hg, hgp, hgg, hpar⟩ := h.family.father k d hk0 hk1 hd
      have hfather := (hf k d).2.2.2.2.2.2.2.2
      by_cases hdc : d.father = c.pid
      · -- the father is the task that exits
        rw [if_pos hdc] at hfather
        obtain rfl : j = i := h.table.pid j i g c hg hi (hgp.trans hdc)
        obtain rfl : c = g := Option.some.inj (hi.symm.trans hg)
        have hparent : d.parent = c.id := by
          rcases hpar with hpar | ⟨hj1, -⟩
          · exact hpar.symm
          · exact absurd hj1 h1
        refine ⟨1, f 1 o, by decide, r.fwd ho, ?_, hog', Or.inr ⟨rfl, ?_⟩⟩
        · rw [(hf 1 o).2.1, hop, hfather]
        · rw [(hf k d).2.2.2.1, hparent]
          exact List.mem_cons_self
      · rw [if_neg hdc] at hfather
        have hji : j ≠ i := by
          rintro rfl
          obtain rfl : c = g := Option.some.inj (hi.symm.trans hg)
          exact hdc hgp.symm
        refine ⟨j, f j g, hj, r.fwd hg, ?_, ?_, ?_⟩
        · rw [(hf j g).2.1, hfather, hgp]
        · rwa [Core.gone, hpc j g hji]
        · rw [(hf j g).2.2.1, (hf k d).2.2.2.1]
          exact hpar.imp id (And.imp id (List.mem_cons_of_mem _))
    case left =>
      intro k d' hd' hg
      obtain ⟨d, hd, rfl⟩ := r.bwd hd'
      rw [(hf k d).2.2.1]
      by_cases hk : k = i
      · subst hk
        obtain rfl : c = d := Option.some.inj (hi.symm.trans hd)
        exact List.mem_cons_self
      · rw [Core.gone, hpc k d hk] at hg
        exact List.mem_cons_of_mem _ (h.family.left k d hd hg)
    case zombie =>
      intro k d' hd' hz
      obtain ⟨d, hd, rfl⟩ := r.bwd hd'
      by_cases hk : k = i
      · exact ⟨code, by simp [f, hk]⟩
      · rw [(hf k d).2.2.2.2.2.2.1] at hz
        rw [Core.gone, hpc k d hk]
        exact h.family.zombie k d hd hz
  · intro k d flag code' child hd
    by_cases hk : k = i
    · subst hk
      obtain rfl : c = d := Option.some.inj (hi.symm.trans hd)
      refine iff_of_false ?_ (calm.not_released flag code' child)
      simp [f]
    · rw [hpc k d hk]

theorem ret {flag code : Int} {child : Nat} (h : Inv v) (hi : v.tasks i = some c)
    (hpc : c.pc = .released flag code child) :
    Inv { v.put i { c with pc := .user } with
      returned :=
        { father := c.id, child := child, value := flag, status := code } :: v.returned } := by
  let u : Core := { c with pc := .user }
  let q : Return := { father := c.id, child := child, value := flag, status := code }
  let v' : View := { v.put i u with returned := q :: v.returned }
  change Inv v'
  have r : Relabel v v' fun k d => if k = i then u else d :=
    relabel_put hi rfl rfl rfl rfl rfl rfl rfl rfl rfl rfl rfl
  have hgone : u.gone ↔ c.gone := by
    refine iff_of_false ?_ ?_
    · rintro ⟨_, hu⟩
      cases hu
    · rintro ⟨_, hc⟩
      rw [hpc] at hc
      cases hc
  have hne : ∀ k, k ≠ i → v'.tasks k = v.tasks k := fun k hk =>
    (put_apply v i k u).trans (if_neg hk)
  have hself : v'.tasks i = some u := (put_apply v i i u).trans (if_pos rfl)
  obtain ⟨⟨p, hp, hpf, hpp, hpcode, hpchild⟩, hfresh⟩ :=
    h.returns.pending i c flag code child hi hpc
  have hret : q = p.ret := by
    rw [Reap.ret, hpf, hpp, hpcode, hpchild]
  refine ⟨r.table h.table, r.family h.family ?_ ?_ ?_ rfl, r.exits h.exits ?_ ?_ rfl, ?_⟩
  · exact put_cases (P := fun d' d => d'.father = d.father) hi rfl fun _ => rfl
  · exact put_cases (P := fun d' d => d'.gone ↔ d.gone) hi hgone fun _ => Iff.rfl
  · intro k d hk hz
    exact h.family.zombie k d hk
      ((put_cases (P := fun d' d => d'.zombie = d.zombie) hi (show u.zombie = c.zombie from rfl)
        (fun _ => rfl) k d hk).symm.trans hz)
  · exact put_cases (P := fun d' d => d'.zombie = d.zombie) hi rfl fun _ => rfl
  · exact put_cases (P := fun d' d => d'.exitCode = d.exitCode) hi rfl fun _ => rfl
  · constructor
    case heir => exact h.returns.heir
    case returns =>
      intro r' hr'
      rcases h.returns.returns r' hr' with hq | ⟨k, d, hk, hid, hd⟩
      · exact Or.inl (List.mem_cons_of_mem _ hq)
      · by_cases hki : k = i
        · subst hki
          obtain rfl : c = d := Option.some.inj (hi.symm.trans hk)
          obtain ⟨rfl, rfl, rfl⟩ := Pc.released.inj (hpc.symm.trans hd)
          refine Or.inl ?_
          rw [Reap.ret, ← hid]
          exact List.mem_cons_self
        · exact Or.inr ⟨k, d, (hne k hki).trans hk, hid, hd⟩
    case pending =>
      intro k d flag' code' child' hk hd
      by_cases hki : k = i
      · subst hki
        obtain rfl : u = d := Option.some.inj (hself.symm.trans hk)
        cases hd
      · obtain ⟨hr, hq⟩ := h.returns.pending k d flag' code' child' ((hne k hki).symm.trans hk) hd
        refine ⟨hr, fun q' hq' => ?_⟩
        rcases List.mem_cons.mp hq' with rfl | hq'
        · -- one release, one father: slot `i` is slot `k`
          intro hchild
          obtain ⟨p', hp', hpf', -, -, hpchild'⟩ := hr
          have hpp' : p = p' := List.inj_on_of_nodup_map h.table.once hp hp'
            (hpchild.trans (hchild.trans hpchild'.symm))
          refine hki (h.table.id k i d c ((hne k hki).symm.trans hk) hi ?_)
          rw [← hpf', ← hpf, hpp']
        · exact hq q' hq'
    case returned =>
      intro q' hq'
      rcases List.mem_cons.mp hq' with rfl | hq'
      · exact ⟨p, hp, hret⟩
      · exact h.returns.returned q' hq'
    case returnedOnce =>
      change ((q :: v.returned).map Return.child).Nodup
      rw [List.map_cons, List.nodup_cons]
      refine ⟨fun hmem => ?_, h.returns.returnedOnce⟩
      obtain ⟨q', hq', hc⟩ := List.mem_map.mp hmem
      exact hfresh q' hq' hc

/-- The ids of tasks and of released children have been given out. -/
theorem id_lt (h : Table v) (hi : v.tasks i = some c) : c.id < v.nextId :=
  (h.kept c.id).mpr (Or.inl ⟨i, c, hi, rfl⟩)

theorem waitedFor'_new (h : Table v) (time : Reap → Int) :
    waitedFor' v.reaps v.nextId time = 0 := by
  have hnone : (v.reaps.filter fun r => r.father = v.nextId) = [] := by
    rw [List.filter_eq_nil_iff]
    intro r hr
    have := (h.reaped r hr).1
    simp only [decide_eq_true_eq]
    omega
  rw [waitedFor', hnone, List.map_nil, List.sum_nil]

theorem fork {page : Nat} {pid : Int} (h : Inv v) (hi : v.tasks i = some c) (h0 : i ≠ 0)
    (calm : c.calm) (hj : v.tasks j = none) (free : v.used page = false)
    (fresh : ∀ k d, v.tasks k = some d → d.pid ≠ pid) :
    Inv { v.put j (c.child page pid v.nextId) with
      used := Function.update v.used page true
      nextId := v.nextId + 1 } := by
  let z := c.child page pid v.nextId
  let v' : View := { v.put j z with
    used := Function.update v.used page true
    nextId := v.nextId + 1 }
  change Inv v'
  have hself : v'.tasks j = some z := (put_apply v j j z).trans (if_pos rfl)
  have old : ∀ k d, v.tasks k = some d → v'.tasks k = some d := by
    intro k d hk
    have hne : k ≠ j := by
      rintro rfl
      rw [hj] at hk
      cases hk
    exact (put_apply v j k z).trans ((if_neg hne).trans hk)
  have new : ∀ k d, v'.tasks k = some d → k = j ∧ d = z ∨ k ≠ j ∧ v.tasks k = some d := by
    intro k d hk
    by_cases hkj : k = j
    · subst hkj
      exact Or.inl ⟨rfl, Option.some.inj (hk.symm.trans hself)⟩
    · exact Or.inr ⟨hkj, ((put_apply v j k z).trans (if_neg hkj)).symm.trans hk⟩
  have hpage : ∀ k d, v.tasks k = some d → d.page ≠ page := by
    rintro k d hk rfl
    have := (h.table.used d.page).mpr ⟨k, d, hk, rfl⟩
    rw [free] at this
    cases this
  have hcalm : z.calm := Or.inl rfl
  refine ⟨?_, ?_, ?_, ?_⟩
  · constructor
    case page =>
      intro k l d e hd he heq
      rcases new k d hd with ⟨rfl, rfl⟩ | ⟨-, hd'⟩ <;> rcases new l e he with ⟨rfl, rfl⟩ | ⟨-, he'⟩
      · rfl
      · exact absurd heq.symm (hpage l e he')
      · exact absurd heq (hpage k d hd')
      · exact h.table.page k l d e hd' he' heq
    case used =>
      intro p
      change Function.update v.used page true p = true ↔ _
      rw [Function.update_apply]
      split
      · next hp => exact iff_of_true rfl ⟨j, z, hself, hp.symm⟩
      · next hp =>
          rw [h.table.used p]
          constructor
          · rintro ⟨k, d, hk, hd⟩
            exact ⟨k, d, old k d hk, hd⟩
          · rintro ⟨k, d, hk, hd⟩
            rcases new k d hk with ⟨rfl, rfl⟩ | ⟨-, hk⟩
            · exact absurd hd.symm hp
            · exact ⟨k, d, hk, hd⟩
    case pid =>
      intro k l d e hd he heq
      rcases new k d hd with ⟨rfl, rfl⟩ | ⟨-, hd'⟩ <;> rcases new l e he with ⟨rfl, rfl⟩ | ⟨-, he'⟩
      · rfl
      · exact absurd heq.symm (fresh l e he')
      · exact absurd heq (fresh k d hd')
      · exact h.table.pid k l d e hd' he' heq
    case id =>
      intro k l d e hd he heq
      rcases new k d hd with ⟨rfl, rfl⟩ | ⟨-, hd'⟩ <;> rcases new l e he with ⟨rfl, rfl⟩ | ⟨-, he'⟩
      · rfl
      · exact absurd heq.symm (Nat.ne_of_lt (id_lt h.table he'))
      · exact absurd heq (Nat.ne_of_lt (id_lt h.table hd'))
      · exact h.table.id k l d e hd' he' heq
    case zero =>
      obtain ⟨o, ho, hp⟩ := h.table.zero
      exact ⟨o, old 0 o ho, hp⟩
    case kept =>
      intro id
      change id < v.nextId + 1 ↔ _
      rw [Nat.lt_succ_iff_lt_or_eq, h.table.kept id]
      constructor
      · rintro ((⟨k, d, hk, hd⟩ | hr) | rfl)
        · exact Or.inl ⟨k, d, old k d hk, hd⟩
        · exact Or.inr hr
        · exact Or.inl ⟨j, z, hself, rfl⟩
      · rintro (⟨k, d, hk, hd⟩ | hr)
        · rcases new k d hk with ⟨rfl, rfl⟩ | ⟨-, hk⟩
          · exact Or.inr hd.symm
          · exact Or.inl (Or.inl ⟨k, d, hk, hd⟩)
        · exact Or.inl (Or.inr hr)
    case reaped =>
      intro r hr
      have hchild : r.child < v.nextId := (h.table.kept r.child).mpr (Or.inr ⟨r, hr, rfl⟩)
      obtain ⟨hlt, hne⟩ := h.table.reaped r hr
      refine ⟨Nat.lt_succ_of_lt hlt, fun k d hk => ?_⟩
      rcases new k d hk with ⟨rfl, rfl⟩ | ⟨-, hk⟩
      · exact Nat.ne_of_gt hchild
      · exact hne k d hk
    case once => exact h.table.once
    case times =>
      intro k d hk
      rcases new k d hk with ⟨rfl, rfl⟩ | ⟨-, hk⟩
      · exact ⟨(waitedFor'_new h.table _).symm, (waitedFor'_new h.table _).symm⟩
      · exact h.table.times k d hk
    case hasFather => exact h.table.hasFather
  · constructor
    case one =>
      obtain ⟨o, ho, hp⟩ := h.family.one
      exact ⟨o, old 1 o ho, hp⟩
    case father =>
      intro k d hk0 hk1 hk
      rcases new k d hk with ⟨rfl, rfl⟩ | ⟨-, hk⟩
      · exact ⟨i, c, h0, old i c hi, rfl, calm.not_gone, Or.inl rfl⟩
      · obtain ⟨l, e, hl, he, hp⟩ := h.family.father k d hk0 hk1 hk
        exact ⟨l, e, hl, old l e he, hp⟩
    case left =>
      intro k d hk hg
      rcases new k d hk with ⟨rfl, rfl⟩ | ⟨-, hk⟩
      · exact absurd hg hcalm.not_gone
      · exact h.family.left k d hk hg
    case zombie =>
      intro k d hk hz
      rcases new k d hk with ⟨rfl, rfl⟩ | ⟨-, hk⟩
      · cases hz
      · exact h.family.zombie k d hk hz
  · intro e
    refine (h.exits e).trans (or_congr ⟨?_, ?_⟩ Iff.rfl)
    · rintro ⟨k, d, hk, hd⟩
      exact ⟨k, d, old k d hk, hd⟩
    · rintro ⟨k, d, hk, hd, hz, he⟩
      rcases new k d hk with ⟨rfl, rfl⟩ | ⟨-, hk⟩
      · cases hz
      · exact ⟨k, d, hk, hd, hz, he⟩
  · constructor
    case heir => exact h.returns.heir
    case returns =>
      intro r hr
      rcases h.returns.returns r hr with hq | ⟨k, d, hk, hd⟩
      · exact Or.inl hq
      · exact Or.inr ⟨k, d, old k d hk, hd⟩
    case pending =>
      intro k d flag code child hk hd
      rcases new k d hk with ⟨rfl, rfl⟩ | ⟨-, hk⟩
      · exact absurd hd (hcalm.not_released flag code child)
      · exact h.returns.pending k d flag code child hk hd
    case returned => exact h.returns.returned
    case returnedOnce => exact h.returns.returnedOnce

/-- A zombie goes, and its father has its times and its exit code. -/
theorem reap {z : Core} (h : Inv v) (hi : v.tasks i = some c) (calm : c.calm)
    (hj : v.tasks j = some z) (hj0 : j ≠ 0) (zombie : z.zombie = true) (ne : i ≠ j)
    (child : z.father = c.pid) :
    Inv { v with
      tasks := Function.update (Function.update v.tasks i (some { c with
        cutime := c.cutime + z.utime
        cstime := c.cstime + z.stime
        pc := .released z.pid z.exitCode z.id })) j none
      used := Function.update v.used z.page false
      reaps := c.reap z :: v.reaps } := by
  let u : Core := { c with
    cutime := c.cutime + z.utime
    cstime := c.cstime + z.stime
    pc := .released z.pid z.exitCode z.id }
  let v' : View := { v with
    tasks := Function.update (Function.update v.tasks i (some u)) j none
    used := Function.update v.used z.page false
    reaps := c.reap z :: v.reaps }
  change Inv v'
  have happly : ∀ k, v'.tasks k = if k = j then none else if k = i then some u else v.tasks k := by
    intro k
    change Function.update (Function.update v.tasks i (some u)) j none k = _
    rw [Function.update_apply, Function.update_apply]
  have hself : v'.tasks i = some u := by rw [happly, if_neg ne, if_pos rfl]
  have hgoneZ : z.gone := h.family.zombie j z hj zombie
  have hugone : ¬ u.gone := by
    rintro ⟨_, hu⟩
    cases hu
  have hone : j ≠ 1 := by
    rintro rfl
    obtain ⟨o, ho, -, -, hg⟩ := h.family.one
    obtain rfl : z = o := Option.some.inj (hj.symm.trans ho)
    exact hg hgoneZ
  -- every task but the zombie stays, with its names
  have old : ∀ k d, v.tasks k = some d → k ≠ j →
      ∃ d', v'.tasks k = some d' ∧ d'.page = d.page ∧ d'.pid = d.pid ∧ d'.id = d.id ∧
        d'.zombie = d.zombie ∧ d'.exitCode = d.exitCode ∧ (d'.gone ↔ d.gone) ∧
        ((∀ a b e, d.pc ≠ .released a b e) ∨ d' = d) := by
    intro k d hk hkj
    by_cases hki : k = i
    · subst hki
      obtain rfl : c = d := Option.some.inj (hi.symm.trans hk)
      exact ⟨u, hself, rfl, rfl, rfl, rfl, rfl, iff_of_false hugone calm.not_gone,
        Or.inl calm.not_released⟩
    · exact ⟨d, by rw [happly, if_neg hkj, if_neg hki, hk], rfl, rfl, rfl, rfl, rfl, Iff.rfl,
        Or.inr rfl⟩
  have new : ∀ k d', v'.tasks k = some d' → k ≠ j ∧ ∃ d, v.tasks k = some d ∧
      d'.page = d.page ∧ d'.pid = d.pid ∧ d'.id = d.id ∧ d'.zombie = d.zombie ∧
      d'.exitCode = d.exitCode ∧ d'.father = d.father ∧ d'.parent = d.parent ∧
      (d'.gone ↔ d.gone) ∧ (k = i ∧ d' = u ∧ d = c ∨ k ≠ i ∧ d' = d) := by
    intro k d' hk
    rw [happly] at hk
    split at hk
    · cases hk
    · next hkj =>
        split at hk
        · next hki =>
            subst hki
            obtain rfl := Option.some.inj hk
            exact ⟨hkj, c, hi, rfl, rfl, rfl, rfl, rfl, rfl, rfl,
              iff_of_false hugone calm.not_gone, Or.inl ⟨rfl, rfl, rfl⟩⟩
        · next hki =>
            exact ⟨hkj, d', hk, rfl, rfl, rfl, rfl, rfl, rfl, rfl, Iff.rfl, Or.inr ⟨hki, rfl⟩⟩
  refine ⟨?_, ?_, ?_, ?_⟩
  · constructor
    case page =>
      intro k l d' e' hd he heq
      obtain ⟨-, d, hd, hpd, -⟩ := new k d' hd
      obtain ⟨-, e, he, hpe, -⟩ := new l e' he
      exact h.table.page k l d e hd he (hpd.symm.trans (heq.trans hpe))
    case used =>
      intro p
      change Function.update v.used z.page false p = true ↔ _
      rw [Function.update_apply]
      split
      · next hp =>
          refine iff_of_false Bool.false_ne_true ?_
          rintro ⟨k, d', hk, hd⟩
          obtain ⟨hkj, d, hk, hpage, -⟩ := new k d' hk
          exact hkj (h.table.page k j d z hk hj (hpage.symm.trans (hd.trans hp)))
      · next hp =>
          rw [h.table.used p]
          constructor
          · rintro ⟨k, d, hk, hd⟩
            have hkj : k ≠ j := by
              rintro rfl
              obtain rfl : z = d := Option.some.inj (hj.symm.trans hk)
              exact hp hd.symm
            obtain ⟨d', hk', hpage, -⟩ := old k d hk hkj
            exact ⟨k, d', hk', hpage.trans hd⟩
          · rintro ⟨k, d', hk, hd⟩
            obtain ⟨-, d, hk, hpage, -⟩ := new k d' hk
            exact ⟨k, d, hk, hpage.symm.trans hd⟩
    case pid =>
      intro k l d' e' hd he heq
      obtain ⟨-, d, hd, -, hpd, -⟩ := new k d' hd
      obtain ⟨-, e, he, -, hpe, -⟩ := new l e' he
      exact h.table.pid k l d e hd he (hpd.symm.trans (heq.trans hpe))
    case id =>
      intro k l d' e' hd he heq
      obtain ⟨-, d, hd, -, -, hpd, -⟩ := new k d' hd
      obtain ⟨-, e, he, -, -, hpe, -⟩ := new l e' he
      exact h.table.id k l d e hd he (hpd.symm.trans (heq.trans hpe))
    case zero =>
      obtain ⟨o, ho, hp⟩ := h.table.zero
      obtain ⟨d', hd', -, hpid, -⟩ := old 0 o ho hj0.symm
      exact ⟨d', hd', hpid.trans hp⟩
    case kept =>
      intro id
      refine (h.table.kept id).trans ?_
      change _ ↔ _ ∨ ∃ r ∈ c.reap z :: v.reaps, r.child = id
      rw [List.exists_mem_cons_iff]
      constructor
      · rintro (⟨k, d, hk, hd⟩ | hr)
        · by_cases hkj : k = j
          · subst hkj
            obtain rfl : z = d := Option.some.inj (hj.symm.trans hk)
            exact Or.inr (Or.inl hd)
          · obtain ⟨d', hk', -, -, hid, -⟩ := old k d hk hkj
            exact Or.inl ⟨k, d', hk', hid.trans hd⟩
        · exact Or.inr (Or.inr hr)
      · rintro (⟨k, d', hk, hd⟩ | hr | hr)
        · obtain ⟨-, d, hk, -, -, hid, -⟩ := new k d' hk
          exact Or.inl ⟨k, d, hk, hid.symm.trans hd⟩
        · exact Or.inl ⟨j, z, hj, hr⟩
        · exact Or.inr hr
    case reaped =>
      intro r hr
      rcases List.mem_cons.mp hr with rfl | hr
      · refine ⟨(id_lt h.table hi : c.id < v.nextId), fun k d' hk heq => ?_⟩
        obtain ⟨hkj, d, hk, -, -, hid, -⟩ := new k d' hk
        exact hkj (h.table.id k j d z hk hj (hid.symm.trans heq))
      · refine ⟨(h.table.reaped r hr).1, fun k d' hk heq => ?_⟩
        obtain ⟨-, d, hk, -, -, hid, -⟩ := new k d' hk
        exact (h.table.reaped r hr).2 k d hk (hid.symm.trans heq)
    case once =>
      change ((c.reap z :: v.reaps).map Reap.child).Nodup
      rw [List.map_cons, List.nodup_cons]
      refine ⟨fun hmem => ?_, h.table.once⟩
      obtain ⟨r, hr, hc⟩ := List.mem_map.mp hmem
      exact (h.table.reaped r hr).2 j z hj hc.symm
    case times =>
      intro k d' hk
      obtain ⟨-, d, hk, -, -, hid, -, -, -, -, -, hcase⟩ := new k d' hk
      obtain ⟨hu, hs⟩ := h.table.times k d hk
      rcases hcase with ⟨rfl, rfl, rfl⟩ | ⟨hki, rfl⟩
      · change d.cutime + z.utime = waitedFor' (d.reap z :: v.reaps) d.id Reap.utime ∧
          d.cstime + z.stime = waitedFor' (d.reap z :: v.reaps) d.id Reap.stime
        rw [waitedFor'_reap, waitedFor'_reap, if_pos rfl, if_pos rfl, hu, hs]
        exact ⟨Int.add_comm _ _, Int.add_comm _ _⟩
      · have hne : c.id ≠ d'.id := fun he => hki (h.table.id k i d' c hk hi he.symm)
        change d'.cutime = waitedFor' (c.reap z :: v.reaps) d'.id Reap.utime ∧
          d'.cstime = waitedFor' (c.reap z :: v.reaps) d'.id Reap.stime
        rw [waitedFor'_reap, waitedFor'_reap, if_neg hne, if_neg hne]
        exact ⟨hu, hs⟩
    case hasFather => exact h.table.hasFather
  · constructor
    case one =>
      obtain ⟨o, ho, hp, hid, hg⟩ := h.family.one
      obtain ⟨d', hd', -, hpid, hid', -, -, hgone, -⟩ := old 1 o ho hone.symm
      exact ⟨d', hd', hpid.trans hp, hid'.trans hid, fun hg' => hg (hgone.mp hg')⟩
    case father =>
      intro k d' hk0 hk1 hk
      obtain ⟨-, d, hk, -, -, -, -, -, hfather, hparent, -, -⟩ := new k d' hk
      obtain ⟨l, e, hl, he, hp, hg, hpar⟩ := h.family.father k d hk0 hk1 hk
      have hlj : l ≠ j := by
        rintro rfl
        obtain rfl : z = e := Option.some.inj (hj.symm.trans he)
        exact hg hgoneZ
      obtain ⟨e', he', -, hpid, hid, -, -, hgone, -⟩ := old l e he hlj
      refine ⟨l, e', hl, he', ?_, fun hg' => hg (hgone.mp hg'), ?_⟩
      · rw [hpid, hp, hfather]
      · rw [hid, hparent]
        exact hpar
    case left =>
      intro k d' hk hg
      obtain ⟨-, d, hk, -, -, hid, -, -, -, -, hgone, -⟩ := new k d' hk
      rw [hid]
      exact h.family.left k d hk (hgone.mp hg)
    case zombie =>
      intro k d' hk hz
      obtain ⟨-, d, hk, -, -, -, hzd, -, -, -, hgone, -⟩ := new k d' hk
      exact hgone.mpr (h.family.zombie k d hk (hzd.symm.trans hz))
  · intro e
    refine (h.exits e).trans ?_
    change _ ↔ _ ∨ ∃ r ∈ c.reap z :: v.reaps, r.child = e.1 ∧ r.code = e.2
    rw [List.exists_mem_cons_iff]
    constructor
    · rintro (⟨k, d, hk, hid, hz, he⟩ | hr)
      · by_cases hkj : k = j
        · subst hkj
          obtain rfl : z = d := Option.some.inj (hj.symm.trans hk)
          exact Or.inr (Or.inl ⟨hid, he⟩)
        · obtain ⟨d', hk', -, -, hid', hz', he', -⟩ := old k d hk hkj
          exact Or.inl ⟨k, d', hk', hid'.trans hid, hz'.trans hz, he'.trans he⟩
      · exact Or.inr (Or.inr hr)
    · rintro (⟨k, d', hk, hid, hz, he⟩ | ⟨hid, he⟩ | hr)
      · obtain ⟨-, d, hk, -, -, hid', hz', he', -⟩ := new k d' hk
        exact Or.inl ⟨k, d, hk, hid'.symm.trans hid, hz'.symm.trans hz, he'.symm.trans he⟩
      · exact Or.inl ⟨j, z, hj, hid, zombie, he⟩
      · exact Or.inr hr
  · constructor
    case heir =>
      intro r hr
      rcases List.mem_cons.mp hr with rfl | hr
      · obtain ⟨l, e, hl, he, hp, -, hpar⟩ := h.family.father j z hj0 hone hj
        obtain rfl : l = i := h.table.pid l i e c he hi (hp.trans child)
        obtain rfl : c = e := Option.some.inj (hi.symm.trans he)
        rcases hpar with hpar | ⟨rfl, hleft⟩
        · exact Or.inl hpar
        · obtain ⟨o, ho, -, hid, -⟩ := h.family.one
          obtain rfl : c = o := Option.some.inj (hi.symm.trans ho)
          exact Or.inr ⟨hid, hleft⟩
      · exact h.returns.heir r hr
    case returns =>
      intro r hr
      rcases List.mem_cons.mp hr with rfl | hr
      · exact Or.inr ⟨i, u, hself, rfl, rfl⟩
      · rcases h.returns.returns r hr with hq | ⟨k, d, hk, hid, hd⟩
        · exact Or.inl hq
        · have hkj : k ≠ j := by
            rintro rfl
            obtain rfl : z = d := Option.some.inj (hj.symm.trans hk)
            obtain ⟨_, hg⟩ := hgoneZ
            rw [hd] at hg
            cases hg
          obtain ⟨d', hk', -, -, -, -, -, -, hor⟩ := old k d hk hkj
          rcases hor with hnot | rfl
          · exact absurd hd (hnot _ _ _)
          · exact Or.inr ⟨k, d', hk', hid, hd⟩
    case pending =>
      intro k d' flag code child' hk hd
      obtain ⟨-, d, hk, -, -, -, -, -, -, -, -, hcase⟩ := new k d' hk
      rcases hcase with ⟨rfl, rfl, rfl⟩ | ⟨-, rfl⟩
      · obtain ⟨rfl, rfl, rfl⟩ := Pc.released.inj hd
        refine ⟨⟨d.reap z, List.mem_cons_self, rfl, rfl, rfl, rfl⟩, fun q hq heq => ?_⟩
        obtain ⟨r, hr, rfl⟩ := h.returns.returned q hq
        exact (h.table.reaped r hr).2 j z hj heq.symm
      · obtain ⟨⟨r, hr, hrest⟩, hq⟩ := h.returns.pending k d' flag code child' hk hd
        exact ⟨⟨r, List.mem_cons_of_mem _ hr, hrest⟩, hq⟩
    case returned =>
      intro q hq
      obtain ⟨r, hr, rfl⟩ := h.returns.returned q hq
      exact ⟨r, List.mem_cons_of_mem _ hr, rfl⟩
    case returnedOnce => exact h.returns.returnedOnce

/-- **Every move keeps the invariant.** -/
theorem move {v' : View} (h : Inv v) (hm : Move v v') : Inv v' := by
  cases hm with
  | quiet => exact h
  | busy hi same pc => exact h.busy hi same pc
  | fork hi h0 calm hj free fresh => exact h.fork hi h0 calm hj free fresh
  | leave hi h1 calm => exact h.leave hi h1 calm
  | die hi gone live => exact h.die hi gone live
  | reap hi calm hj hj0 zombie ne child => exact h.reap hi calm hj hj0 zombie ne child
  | ret hi hpc => exact h.ret hi hpc

end Inv

end LinuxKernel.V011.Exit
