import LinuxKernel.Lib.Index

/-!
# LinuxKernel.Lib.System

Transition systems given by an **executable step function**, their runs, and
the one induction rule every safety proof of this development goes through.

A step takes a state and an *action*. The action resolves all nondeterminism
(which task runs, whether an allocation fails, which request completes), so a
run is a list of actions and a concrete run is a closed term that computes.

`Reaches step ok s s'` is reachability along steps that all satisfy a
side condition `ok` on the state before the step and the action taken. An
unconditional claim takes `ok := fun _ _ => True`; a claim about all runs that
stay clear of some step takes `ok` to be the condition of that step.
-/

namespace LinuxKernel

universe u v

/-- What one step of kernel code comes to: the next state, a call of `panic`,
or nothing at all because the action is not possible in this state. -/
inductive Outcome (σ : Type u)
  | next (s : σ)
  | panic (msg : String)
  | disabled
  deriving Repr, DecidableEq

namespace Outcome

variable {σ τ : Type u}

/-- Sequencing: a panic or a disabled action ends the computation. -/
def bind (o : Outcome σ) (f : σ → Outcome τ) : Outcome τ :=
  match o with
  | next s => f s
  | panic m => panic m
  | disabled => disabled

@[simp] theorem bind_next (s : σ) (f : σ → Outcome τ) : (next s).bind f = f s := rfl
@[simp] theorem bind_panic (m : String) (f : σ → Outcome τ) :
    (panic m : Outcome σ).bind f = panic m := rfl
@[simp] theorem bind_disabled (f : σ → Outcome τ) :
    (disabled : Outcome σ).bind f = disabled := rfl

/-- A sequence reaches a state only through a state of its first half. -/
theorem bind_eq_next {o : Outcome σ} {f : σ → Outcome τ} {t : τ}
    (h : o.bind f = next t) : ∃ s, o = next s ∧ f s = next t := by
  cases o with
  | next s => exact ⟨s, rfl, h⟩
  | panic m => simp at h
  | disabled => simp at h

/-- A sequence of possible actions is possible. -/
theorem bind_ne_disabled {o : Outcome σ} {f : σ → Outcome τ} (h : o ≠ disabled)
    (hf : ∀ s, f s ≠ disabled) : o.bind f ≠ disabled := by
  cases o with
  | next s => exact hf s
  | panic m => exact nofun
  | disabled => exact absurd rfl h

/-- The computation does not panic with a message outside `allowed`, and every
state it comes to satisfies `P`. -/
def Ends (allowed : String → Prop) (P : σ → Prop) : Outcome σ → Prop
  | next s => P s
  | panic m => allowed m
  | disabled => True

variable {allowed : String → Prop} {P Q : σ → Prop} {o : Outcome σ}

@[simp] theorem ends_next (s : σ) : (next s).Ends allowed P ↔ P s := Iff.rfl
@[simp] theorem ends_panic (m : String) : (panic m : Outcome σ).Ends allowed P ↔ allowed m :=
  Iff.rfl

theorem Ends.mono (h : o.Ends allowed P) (himp : ∀ s, P s → Q s) : o.Ends allowed Q := by
  cases o with
  | next s => exact himp s h
  | panic m => exact h
  | disabled => exact h

theorem Ends.allow {allowed' : String → Prop} (h : o.Ends allowed P)
    (himp : ∀ m, allowed m → allowed' m) : o.Ends allowed' P := by
  cases o with
  | next s => exact h
  | panic m => exact himp m h
  | disabled => exact h

/-- The sequencing rule. -/
theorem Ends.bind {R : τ → Prop} {f : σ → Outcome τ} (h : o.Ends allowed P)
    (hf : ∀ s, P s → (f s).Ends allowed R) : (o.bind f).Ends allowed R := by
  cases o with
  | next s => exact hf s h
  | panic m => exact h
  | disabled => exact h

/-- The state a computation comes to, if it does. -/
def get (o : Outcome σ) (default : σ) : σ :=
  match o with
  | next s => s
  | _ => default

def isNext : Outcome σ → Bool
  | next _ => true
  | _ => false

theorem eq_next {o : Outcome σ} (h : o.isNext = true) (default : σ) :
    o = next (o.get default) := by
  cases o with
  | next s => rfl
  | panic m => cases h
  | disabled => cases h

theorem Ends.of_next {s : σ} (h : o.Ends allowed P) (ho : o = next s) : P s := by
  subst ho; exact h

end Outcome

section Runs

variable {σ : Type u} {α : Type v}

/-- Run a list of actions. -/
def run (step : σ → α → Outcome σ) (s : σ) : List α → Outcome σ
  | [] => .next s
  | a :: as => (step s a).bind fun s' => run step s' as

/-- `s'` is reached from `s` by steps that all satisfy `ok`. -/
inductive Reaches (step : σ → α → Outcome σ) (ok : σ → α → Prop) (s : σ) : σ → Prop
  | refl : Reaches step ok s s
  | tail {s' s'' : σ} {a : α} :
      Reaches step ok s s' → ok s' a → step s' a = .next s'' → Reaches step ok s s''

/-- Every state of the run satisfies the side condition of the next action. -/
def RunOk (step : σ → α → Outcome σ) (ok : σ → α → Prop) (s : σ) : List α → Prop
  | [] => True
  | a :: as => ok s a ∧ ∀ s', step s a = .next s' → RunOk step ok s' as

namespace Reaches

variable {step : σ → α → Outcome σ} {ok ok' : σ → α → Prop} {s s' s'' : σ}

theorem trans (h₁ : Reaches step ok s s') (h₂ : Reaches step ok s' s'') :
    Reaches step ok s s'' := by
  induction h₂ with
  | refl => exact h₁
  | tail _ hok hstep ih => exact ih.tail hok hstep

theorem head {a : α} (hok : ok s a) (hstep : step s a = .next s')
    (h : Reaches step ok s' s'') : Reaches step ok s s'' :=
  (refl.tail hok hstep).trans h

/-- **The invariant rule.** What the start satisfies and every admitted step
keeps holds of every state reached. -/
theorem invariant {P : σ → Prop} (h : Reaches step ok s s') (h₀ : P s)
    (hstep : ∀ t a t', P t → ok t a → step t a = .next t' → P t') : P s' := by
  induction h with
  | refl => exact h₀
  | tail _ hok hs ih => exact hstep _ _ _ ih hok hs

/-- A list of actions that runs to the end reaches its last state. -/
theorem of_run {as : List α} (hrun : run step s as = .next s')
    (hok : RunOk step ok s as) : Reaches step ok s s' := by
  induction as generalizing s with
  | nil =>
      obtain rfl : s = s' := by simpa [run] using hrun
      exact refl
  | cons a as ih =>
      obtain ⟨t, ht, hrest⟩ := Outcome.bind_eq_next hrun
      exact head hok.1 ht (ih hrest (hok.2 t ht))

end Reaches

/-- A concrete run meets its side condition one action at a time. -/
theorem RunOk.cons {step : σ → α → Outcome σ} {ok : σ → α → Prop} {s : σ} {a : α} {as : List α}
    (hok : ok s a) (h : RunOk step ok ((step s a).get s) as) : RunOk step ok s (a :: as) :=
  ⟨hok, fun s' hs => by simpa [hs, Outcome.get] using h⟩

theorem RunOk.of_prefix {step : σ → α → Outcome σ} {ok : σ → α → Prop} {s : σ} {as bs : List α}
    (h : RunOk step ok s bs) (hpre : as <+: bs) : RunOk step ok s as := by
  induction as generalizing s bs with
  | nil => exact True.intro
  | cons a as ih =>
      obtain ⟨cs, rfl⟩ := hpre
      exact ⟨h.1, fun s' hs => ih (h.2 s' hs) (List.prefix_append as cs)⟩

/-- The last action of a run meets the condition in the state it comes to. -/
theorem RunOk.last {step : σ → α → Outcome σ} {ok : σ → α → Prop} {s s' : σ} {a : α} {as : List α}
    (h : RunOk step ok s (as ++ [a])) (hrun : run step s as = .next s') : ok s' a := by
  induction as generalizing s with
  | nil =>
      obtain rfl : s = s' := by simpa [run] using hrun
      exact h.1
  | cons b as ih =>
      obtain ⟨t, ht, hrest⟩ := Outcome.bind_eq_next hrun
      exact ih (h.2 t ht) hrest

theorem RunOk.append {step : σ → α → Outcome σ} {ok : σ → α → Prop} {s : σ} {as bs : List α}
    (h : RunOk step ok s as) (h' : ∀ s', run step s as = .next s' → RunOk step ok s' bs) :
    RunOk step ok s (as ++ bs) := by
  induction as generalizing s with
  | nil => exact h' s rfl
  | cons a as ih =>
      refine ⟨h.1, fun s' hs => ih (h.2 s' hs) fun t ht => h' t ?_⟩
      rw [run, hs]
      exact ht

/-- Where a step that meets the condition keeps the invariant `P`, and one that does not
ends in a state without `Q`, a run is in `Q` all the way exactly when all its steps meet it. -/
theorem RunOk.iff_prefixes_of {step : σ → α → Outcome σ} {ok : σ → α → Prop} {P Q : σ → Prop}
    {s s' : σ} {as : List α} (hPQ : ∀ t, P t → Q t)
    (hstep : ∀ t a t', P t → step t a = .next t' → (ok t a → P t') ∧ (Q t' → ok t a)) (h₀ : P s)
    (hrun : run step s as = .next s') :
    (∀ bs, bs <+: as → ∀ t, run step s bs = .next t → Q t) ↔ RunOk step ok s as := by
  refine ⟨fun hall => ?_, fun hok bs hpre t ht => ?_⟩
  · induction as generalizing s with
    | nil => exact True.intro
    | cons a as ih =>
        obtain ⟨t, ht, hrest⟩ := Outcome.bind_eq_next hrun
        have hpre : ∀ bs, bs <+: as → ∀ u, run step t bs = .next u → Q u := fun bs hbs u hu =>
          hall (a :: bs) (List.cons_prefix_cons.mpr ⟨rfl, hbs⟩) u (by rw [run, ht]; exact hu)
        have hok := (hstep s a t h₀ ht).2 (hpre [] List.nil_prefix t rfl)
        refine ⟨hok, fun u hu => ?_⟩
        obtain rfl : t = u := Outcome.next.inj (ht.symm.trans hu)
        exact ih ((hstep s a t h₀ ht).1 hok) hrest hpre
  · exact hPQ t ((Reaches.of_run ht (hok.of_prefix hpre)).invariant h₀ fun u a u' hu hok' hs =>
      (hstep u a u' hu hs).1 hok')

/-- If a step keeps `P` exactly when it meets the condition, a run is in `P`
all the way exactly when all its steps meet it. -/
theorem RunOk.iff_prefixes {step : σ → α → Outcome σ} {ok : σ → α → Prop} {P : σ → Prop}
    {s s' : σ} {as : List α}
    (hstep : ∀ t a t', P t → step t a = .next t' → (P t' ↔ ok t a)) (h₀ : P s)
    (hrun : run step s as = .next s') :
    (∀ bs, bs <+: as → ∀ t, run step s bs = .next t → P t) ↔ RunOk step ok s as :=
  RunOk.iff_prefixes_of (fun _ h => h)
    (fun t a t' hP hs => ⟨(hstep t a t' hP hs).mpr, (hstep t a t' hP hs).mp⟩) h₀ hrun

/-- Where a step that meets the condition keeps the invariant, and one that does not
panics, a run is free of panics exactly when all its steps meet it. -/
theorem RunOk.iff_no_panic {step : σ → α → Outcome σ} {ok : σ → α → Prop} {P : σ → Prop}
    {s : σ} {as : List α}
    (hstep : ∀ t a, P t → (ok t a → ∃ t', step t a = .next t' ∧ P t') ∧
      (¬ ok t a → ∃ m, step t a = .panic m)) (h₀ : P s) :
    (∀ m, run step s as ≠ .panic m) ↔ RunOk step ok s as := by
  induction as generalizing s with
  | nil => exact ⟨fun _ => True.intro, fun _ => nofun⟩
  | cons a as ih =>
      by_cases hok : ok s a
      · obtain ⟨t, ht, hP⟩ := (hstep s a h₀).1 hok
        rw [run, ht, Outcome.bind_next, ih hP]
        refine ⟨fun h => ⟨hok, fun u hu => ?_⟩, fun h => h.2 t ht⟩
        obtain rfl : t = u := Outcome.next.inj (ht.symm.trans hu)
        exact h
      · obtain ⟨m, hm⟩ := (hstep s a h₀).2 hok
        rw [run, hm, Outcome.bind_panic]
        exact ⟨fun h => absurd rfl (h m), fun h => absurd h.1 hok⟩

/-- **The ranking rule.** Where a step lowers the rank, by one at least if it counts, a run has
no more such steps than its first state allows. -/
theorem RunOk.rank {step : σ → α → Outcome σ} {ok : σ → α → Prop} {P : σ → Prop} {s s' : σ}
    {as : List α} (rank : σ → Nat) (counts : α → Bool)
    (hstep : ∀ t a t', P t → ok t a → step t a = .next t' →
      P t' ∧ rank t' + (if counts a then 1 else 0) ≤ rank t)
    (h₀ : P s) (hok : RunOk step ok s as) (hrun : run step s as = .next s') :
    as.countP counts + rank s' ≤ rank s := by
  induction as generalizing s with
  | nil =>
      obtain rfl : s = s' := by simpa [run] using hrun
      exact Nat.le_of_eq (Nat.zero_add _)
  | cons a as ih =>
      obtain ⟨t, ht, hrest⟩ := Outcome.bind_eq_next hrun
      obtain ⟨hP, hle⟩ := hstep s a t h₀ hok.1 ht
      have hih := ih hP (hok.2 t ht) hrest
      rw [List.countP_cons]
      omega

/-- What no action of a run changes. -/
theorem run_keeps {β : Type*} {step : σ → α → Outcome σ} {s s' : σ} {as : List α} (g : σ → β)
    (hstep : ∀ a ∈ as, ∀ t t', step t a = .next t' → g t' = g t)
    (hrun : run step s as = .next s') : g s' = g s := by
  induction as generalizing s with
  | nil =>
      obtain rfl : s = s' := by simpa [run] using hrun
      rfl
  | cons a as ih =>
      obtain ⟨t, ht, hrest⟩ := Outcome.bind_eq_next hrun
      rw [ih (fun b hb => hstep b (List.mem_cons_of_mem a hb)) hrest]
      exact hstep a List.mem_cons_self s t ht

/-- Actions that meet the condition in every state. -/
theorem RunOk.of_forall {step : σ → α → Outcome σ} {ok : σ → α → Prop} {as : List α}
    (h : ∀ a ∈ as, ∀ t, ok t a) (s : σ) : RunOk step ok s as := by
  induction as generalizing s with
  | nil => exact True.intro
  | cons a as ih =>
      have hrest : ∀ b ∈ as, ∀ t, ok t b := fun b hb => h b (List.mem_cons_of_mem a hb)
      exact ⟨h a List.mem_cons_self s, fun s' _ => ih hrest s'⟩

/-- Without a side condition every list of actions qualifies. -/
theorem RunOk.trivial (step : σ → α → Outcome σ) (s : σ) (as : List α) :
    RunOk step (fun _ _ => True) s as := RunOk.of_forall (fun _ _ _ => True.intro) s

end Runs

end LinuxKernel
