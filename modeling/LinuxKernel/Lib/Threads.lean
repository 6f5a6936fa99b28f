import LinuxKernel.Lib.System

/-!
# LinuxKernel.Lib.Threads

**Tasks in a kernel that is not preemptive**, and a proof rule for them.

A task in the kernel runs until it sleeps or returns. It is a *call stack* of
frames, the running function on top; a frame is a point in a function together
with its locals. One round of the top frame (`Program.exec`) ends in a jump
within the function, a call, a return or a sleep. Interrupts come at any time
and touch the shared state only.

Which sleeper goes on is left open: any task may be resumed whenever no task
runs. Sleepers re-check what they wait for, so every wake-up order is covered.

The rule (`Outline.Valid.reaches`) is Hoare logic with a rely condition: `top`
is what holds of the frame that runs, `asleep` what holds of a frame while
others run, and `post` what the call that a frame belongs to returns.
-/

namespace LinuxKernel.Threads

variable {σ φ ν χ ι : Type}

/-- What one round of a frame comes to. In a call, `k` is the frame that waits
for the value. -/
inductive Next (σ φ ν : Type)
  | goto (s : σ) (f : φ)
  | call (s : σ) (f k : φ)
  | ret (s : σ) (v : ν)
  | sleep (s : σ) (f : φ)
  | panic (msg : String)
  | disabled

/-- The shared state a round leaves. -/
def Next.shared : Next σ φ ν → Option σ
  | goto s _ => some s
  | call s _ _ => some s
  | ret s _ => some s
  | sleep s _ => some s
  | panic _ => none
  | disabled => none

/-- The code: what a frame does (`χ` resolves its choices), how a waiting frame
takes the value of its call, and what an interrupt does to the shared state. -/
structure Program (σ φ ν χ ι : Type) where
  exec : σ → φ → χ → Next σ φ ν
  deliver : φ → ν → φ
  interrupt : σ → ι → Option σ
  entry : φ → Bool

structure State (σ φ : Type) where
  shared : σ
  stack : Nat → List φ
  current : Option Nat

/-- Task `t` calls a function, a sleeper goes on, the current task does its next
round, an interrupt. -/
inductive Act (φ χ ι : Type)
  | start (t : Nat) (f : φ)
  | resume (t : Nat)
  | run (c : χ)
  | interrupt (i : ι)

/-- One round of the current task `t`. -/
def round (p : Program σ φ ν χ ι) (s : State σ φ) (t : Nat) (rest : List φ) :
    Next σ φ ν → Outcome (State σ φ)
  | .goto m f => .next ⟨m, Function.update s.stack t (f :: rest), some t⟩
  | .call m f k => .next ⟨m, Function.update s.stack t (f :: k :: rest), some t⟩
  | .ret m v =>
      match rest with
      | [] => .next ⟨m, Function.update s.stack t [], none⟩
      | k :: rest => .next ⟨m, Function.update s.stack t (p.deliver k v :: rest), some t⟩
  | .sleep m f => .next ⟨m, Function.update s.stack t (f :: rest), none⟩
  | .panic msg => .panic msg
  | .disabled => .disabled

def step (p : Program σ φ ν χ ι) (s : State σ φ) : Act φ χ ι → Outcome (State σ φ)
  | .start t f =>
      if s.current = none ∧ s.stack t = [] ∧ p.entry f = true then
        .next { s with stack := Function.update s.stack t [f], current := some t }
      else .disabled
  | .resume t =>
      if s.current = none ∧ s.stack t ≠ [] then .next { s with current := some t } else .disabled
  | .run c =>
      match s.current with
      | some t =>
          match s.stack t with
          | f :: rest => round p s t rest (p.exec s.shared f c)
          | [] => .disabled
      | none => .disabled
  | .interrupt i =>
      match p.interrupt s.shared i with
      | some m => .next { s with shared := m }
      | none => .disabled

variable {p : Program σ φ ν χ ι} {s s' : State σ φ} {a : Act φ χ ι} {t : Nat}

/-- No task is in the kernel. -/
def State.Idle (s : State σ φ) : Prop := s.current = none ∧ ∀ t, s.stack t = []

/-! ### What a step can do -/

theorem round_shared {rest : List φ} {n : Next σ φ ν} (h : round p s t rest n = .next s') :
    n.shared = some s'.shared := by
  cases n with
  | goto m f => cases h; rfl
  | call m f k => cases h; rfl
  | ret m v =>
      cases rest with
      | nil => cases h; rfl
      | cons k rest => cases h; rfl
  | sleep m f => cases h; rfl
  | panic msg => cases h
  | disabled => cases h

/-- The current task is the only one whose stack a round changes. -/
theorem round_stack {rest : List φ} {n : Next σ φ ν} (h : round p s t rest n = .next s') {u : Nat}
    (hu : u ≠ t) : s'.stack u = s.stack u := by
  cases n with
  | goto m f => cases h; exact Function.update_of_ne hu _ _
  | call m f k => cases h; exact Function.update_of_ne hu _ _
  | ret m v =>
      cases rest with
      | nil => cases h; exact Function.update_of_ne hu _ _
      | cons k rest => cases h; exact Function.update_of_ne hu _ _
  | sleep m f => cases h; exact Function.update_of_ne hu _ _
  | panic msg => cases h
  | disabled => cases h

/-- After a round the task still runs, or no task does. -/
theorem round_current {rest : List φ} {n : Next σ φ ν} (h : round p s t rest n = .next s') {u : Nat}
    (hu : u ≠ t) : s'.current ≠ some u := by
  have hne : some t ≠ some u := fun he => hu (Option.some.inj he).symm
  cases n with
  | goto m f => cases h; exact hne
  | call m f k => cases h; exact hne
  | ret m v =>
      cases rest with
      | nil => cases h; exact nofun
      | cons k rest => cases h; exact hne
  | sleep m f => cases h; exact nofun
  | panic msg => cases h
  | disabled => cases h

theorem run_eq_next {c : χ} (h : step p s (.run c) = .next s') :
    ∃ t f rest, s.current = some t ∧ s.stack t = f :: rest ∧
      round p s t rest (p.exec s.shared f c) = .next s' := by
  simp only [step] at h
  split at h
  case h_2 => cases h
  next t ht =>
  split at h
  case h_2 => cases h
  next f rest hf => exact ⟨t, f, rest, ht, hf, h⟩

/-- The shared state changes in an interrupt or in a round. -/
theorem step_shared (h : step p s a = .next s') :
    s'.shared = s.shared ∨ (∃ i, p.interrupt s.shared i = some s'.shared) ∨
      ∃ t f rest c, s.current = some t ∧ s.stack t = f :: rest ∧
        (p.exec s.shared f c).shared = some s'.shared := by
  cases a with
  | start t f =>
      simp only [step] at h
      split at h
      · cases h
        exact Or.inl rfl
      · cases h
  | resume t =>
      simp only [step] at h
      split at h
      · cases h
        exact Or.inl rfl
      · cases h
  | run c =>
      obtain ⟨t, f, rest, ht, hf, hr⟩ := run_eq_next h
      exact Or.inr (Or.inr ⟨t, f, rest, c, ht, hf, round_shared hr⟩)
  | interrupt i =>
      simp only [step] at h
      split at h
      · next m hm =>
        cases h
        exact Or.inr (Or.inl ⟨i, hm⟩)
      · cases h

/-! ### Proof outlines -/

/-- The assertions of a proof. -/
structure Outline (σ φ ν : Type) where
  inv : σ → Prop
  rely : σ → σ → Prop
  top : σ → φ → Prop
  asleep : σ → φ → Prop
  post : φ → σ → ν → Prop

namespace Outline

variable (o : Outline σ φ ν) (p : Program σ φ ν χ ι)

/-- What the call of `g` returns is as good as what that of `f` must. -/
def Refines (g f : φ) : Prop := ∀ s v, o.post g s v → o.post f s v

/-- `k` can take what the call of `f` returns. -/
def Fits (f k : φ) : Prop :=
  ∀ s v, o.inv s → o.asleep s k → o.post f s v → o.top s (p.deliver k v)

/-- What a round from `f` must establish, apart from the shared state. -/
def Control (f : φ) : Next σ φ ν → Prop
  | .goto m g => o.top m g ∧ o.Refines g f
  | .call m g k => o.top m g ∧ o.asleep m k ∧ o.Fits p g k ∧ o.Refines k f
  | .ret m v => o.post f m v
  | .sleep m g => o.asleep m g ∧ o.Refines g f
  | .panic _ => True
  | .disabled => True

/-- The obligations of a proof. -/
structure Valid : Prop where
  shared : ∀ s f c m, o.inv s → o.top s f → (p.exec s f c).shared = some m →
    o.inv m ∧ o.rely s m
  control : ∀ s f c, o.inv s → o.top s f → o.Control p f (p.exec s f c)
  interrupt : ∀ s i m, o.inv s → p.interrupt s i = some m →
    o.inv m ∧ o.rely s m ∧ ∀ f, o.top s f → o.top m f
  stable : ∀ s m f, o.rely s m → o.asleep s f → o.asleep m f
  resume : ∀ s f, o.inv s → o.asleep s f → o.top s f
  entry : ∀ s f, o.inv s → p.entry f = true → o.top s f
  deliver : ∀ k v, o.Refines (p.deliver k v) k

/-- The frames below `f` wait, each for the one above it. -/
def Callers (s : σ) (f : φ) : List φ → Prop
  | [] => True
  | k :: rest => o.asleep s k ∧ o.Fits p f k ∧ Callers s k rest

/-- What a proof keeps of the whole system. -/
structure Inv (s : State σ φ) : Prop where
  shared : o.inv s.shared
  running : ∀ t f rest, s.current = some t → s.stack t = f :: rest → o.top s.shared f
  asleep : ∀ t f rest, s.current ≠ some t → s.stack t = f :: rest → o.asleep s.shared f
  callers : ∀ t f rest, s.stack t = f :: rest → o.Callers p s.shared f rest

variable {o p} {m m' : σ} {f g k : φ} {rest : List φ}

theorem Callers.refines (h : o.Callers p m f rest) (hr : o.Refines g f) :
    o.Callers p m g rest := by
  cases rest with
  | nil => trivial
  | cons k rest => exact ⟨h.1, fun s v hi ha hp => h.2.1 s v hi ha (hr s v hp), h.2.2⟩

theorem Callers.stable (hv : o.Valid p) (hm : o.rely m m') (h : o.Callers p m f rest) :
    o.Callers p m' f rest := by
  induction rest generalizing f with
  | nil => trivial
  | cons k rest ih => exact ⟨hv.stable m m' k hm h.1, h.2.1, ih h.2.2⟩

/-- A proof holds of a system with no task in the kernel. -/
theorem Inv.of_idle (h : s.Idle) (hi : o.inv s.shared) : o.Inv p s where
  shared := hi
  running t f rest ht := by rw [h.1] at ht; cases ht
  asleep t f rest _ hf := by rw [h.2 t] at hf; cases hf
  callers t f rest hf := by rw [h.2 t] at hf; cases hf

/-- The new stack of the current task after a round. -/
theorem Control.task (hv : o.Valid p) {n : Next σ φ ν} (h : o.Control p f n)
    (hi : o.inv s'.shared) (hm : o.rely s.shared s'.shared)
    (hc : o.Callers p s.shared f rest) (hr : round p s t rest n = .next s') {g : φ}
    {rest' : List φ} (hs : s'.stack t = g :: rest') :
    (s'.current = some t → o.top s'.shared g) ∧ (s'.current ≠ some t → o.asleep s'.shared g) ∧
      o.Callers p s'.shared g rest' := by
  have hc' := hc.stable hv hm
  cases n with
  | goto m f' =>
      cases hr
      obtain ⟨htop, href⟩ := h
      simp only [Function.update_self] at hs
      cases hs
      exact ⟨fun _ => htop, fun hne => absurd rfl hne, hc'.refines href⟩
  | call m f' k =>
      cases hr
      obtain ⟨htop, hasleep, hfits, href⟩ := h
      simp only [Function.update_self] at hs
      cases hs
      exact ⟨fun _ => htop, fun hne => absurd rfl hne, hasleep, hfits, hc'.refines href⟩
  | ret m v =>
      cases rest with
      | nil =>
          cases hr
          simp only [Function.update_self] at hs
          cases hs
      | cons k rest =>
          cases hr
          simp only [Function.update_self] at hs
          cases hs
          obtain ⟨hk, hfits, hrest⟩ := hc'
          exact ⟨fun _ => hfits m v hi hk h, fun hne => absurd rfl hne,
            hrest.refines (hv.deliver k v)⟩
  | sleep m f' =>
      cases hr
      obtain ⟨hasleep, href⟩ := h
      simp only [Function.update_self] at hs
      cases hs
      exact ⟨nofun, fun _ => hasleep, hc'.refines href⟩
  | panic => cases hr
  | disabled => cases hr

/-- **The step rule.** -/
theorem Valid.step (hv : o.Valid p) (h : o.Inv p s) (hs : step p s a = .next s') :
    o.Inv p s' := by
  cases a with
  | start t f =>
      simp only [Threads.step] at hs
      split at hs
      case isFalse => cases hs
      next hc =>
      obtain ⟨hcur, -, hentry⟩ := hc
      cases hs
      have hcases : ∀ u g rest, Function.update s.stack t [f] u = g :: rest →
          u = t ∧ g = f ∧ rest = [] ∨ u ≠ t ∧ s.stack u = g :: rest := by
        intro u g rest hg
        by_cases hu : u = t
        · subst hu
          rw [Function.update_self] at hg
          cases hg
          exact Or.inl ⟨rfl, rfl, rfl⟩
        · rw [Function.update_of_ne hu] at hg
          exact Or.inr ⟨hu, hg⟩
      refine ⟨h.shared, fun u g rest hu hg => ?_, fun u g rest hu hg => ?_, fun u g rest hg => ?_⟩
      · rcases hcases u g rest hg with ⟨-, rfl, -⟩ | ⟨hne, -⟩
        · exact hv.entry _ _ h.shared hentry
        · exact absurd (Option.some.inj hu).symm hne
      · rcases hcases u g rest hg with ⟨rfl, -⟩ | ⟨-, hg⟩
        · exact absurd rfl hu
        · exact h.asleep u g rest (by rw [hcur]; exact nofun) hg
      · rcases hcases u g rest hg with ⟨-, -, rfl⟩ | ⟨-, hg⟩
        · trivial
        · exact h.callers u g rest hg
  | resume t =>
      simp only [Threads.step] at hs
      split at hs
      case isFalse => cases hs
      next hc =>
      obtain ⟨hcur, -⟩ := hc
      cases hs
      have hnone : ∀ u, s.current ≠ some u := fun u => by rw [hcur]; exact nofun
      exact ⟨h.shared, fun u g rest _ hg => hv.resume _ _ h.shared (h.asleep u g rest (hnone u) hg),
        fun u g rest _ hg => h.asleep u g rest (hnone u) hg, h.callers⟩
  | run c =>
      obtain ⟨t, f, rest, ht, hf, hr⟩ := run_eq_next hs
      have htop := h.running t f rest ht hf
      obtain ⟨hinv, hrely⟩ := hv.shared _ f c _ h.shared htop (round_shared hr)
      have htask {g : φ} {rest' : List φ} (hg : s'.stack t = g :: rest') :=
        (hv.control _ f c h.shared htop).task hv hinv hrely (h.callers t f rest hf) hr hg
      refine ⟨hinv, fun u g rest' hu hg => ?_, fun u g rest' hu hg => ?_, fun u g rest' hg => ?_⟩
      · by_cases hut : u = t
        · subst hut
          exact (htask hg).1 hu
        · exact absurd hu (round_current hr hut)
      · by_cases hut : u = t
        · subst hut
          exact (htask hg).2.1 hu
        · rw [round_stack hr hut] at hg
          exact hv.stable _ _ _ hrely
            (h.asleep u g rest' (fun he => hut (Option.some.inj (he.symm.trans ht))) hg)
      · by_cases hut : u = t
        · subst hut
          exact (htask hg).2.2
        · rw [round_stack hr hut] at hg
          exact (h.callers u g rest' hg).stable hv hrely
  | interrupt i =>
      simp only [Threads.step] at hs
      split at hs
      case h_2 => cases hs
      next m hm =>
      cases hs
      obtain ⟨hinv, hrely, htop⟩ := hv.interrupt _ i m h.shared hm
      exact ⟨hinv, fun u g rest hu hg => htop g (h.running u g rest hu hg),
        fun u g rest hu hg => hv.stable _ _ _ hrely (h.asleep u g rest hu hg),
        fun u g rest hg => (h.callers u g rest hg).stable hv hrely⟩

/-- **The run rule.** -/
theorem Valid.reaches (hv : o.Valid p) (h : o.Inv p s)
    (hr : Reaches (Threads.step p) (fun _ _ => True) s s') : o.Inv p s' :=
  hr.invariant h fun _ _ _ hi _ hs => hv.step hi hs

end Outline

end LinuxKernel.Threads
