import Mathlib.Data.Fintype.Pigeonhole
import Mathlib.Data.Set.Finite.Basic

/-!
# LinuxKernel.Lib.Loop

**Loops that may go on for ever.** A turn of a loop comes to another state or leaves the loop.

- `Ends`: some number of turns is enough. `Visits`: the states that the loop comes to.
- A loop that steps along a function, with finitely many places to be at, ends exactly if it
  comes to no place twice (`ends_iff_acyclic`).
-/

namespace LinuxKernel

inductive Turn (σ ρ : Type)
  | again (s : σ)
  | done (r : ρ)

namespace Loop

variable {σ ρ κ : Type} {turn : σ → Turn σ ρ} {s t : σ}

/-- At most `n` turns. -/
def run (turn : σ → Turn σ ρ) : Nat → σ → Turn σ ρ
  | 0, s => .again s
  | n + 1, s =>
      match turn s with
      | .again t => run turn n t
      | .done r => .done r

def Ends (turn : σ → Turn σ ρ) (s : σ) : Prop := ∃ n r, run turn n s = .done r

inductive Visits (turn : σ → Turn σ ρ) (s : σ) : σ → Prop
  | start : Visits turn s s
  | turn {t t' : σ} (h : Visits turn s t) (hturn : turn t = .again t') : Visits turn s t'

theorem Visits.invariant {P : σ → Prop} (h : Visits turn s t) (h₀ : P s)
    (hstep : ∀ t t', Visits turn s t → P t → turn t = .again t' → P t') : P t := by
  induction h with
  | start => exact h₀
  | turn h hturn ih => exact hstep _ _ h ih hturn

theorem Visits.head {t' : σ} (hturn : turn s = .again t) (h : Visits turn t t') :
    Visits turn s t' := by
  induction h with
  | start => exact .turn .start hturn
  | turn _ hturn' ih => exact .turn ih hturn'

/-! ### Ends -/

theorem ends_of_done {r : ρ} (h : turn s = .done r) : Ends turn s := by
  refine ⟨1, r, ?_⟩
  rw [run, h]

theorem ends_iff_of_again (h : turn s = .again t) : Ends turn s ↔ Ends turn t := by
  constructor
  · rintro ⟨n, r, hrun⟩
    cases n with
    | zero => cases hrun
    | succ n =>
        rw [run, h] at hrun
        exact ⟨n, r, hrun⟩
  · rintro ⟨n, r, hrun⟩
    refine ⟨n + 1, r, ?_⟩
    rw [run, h]
    exact hrun

/-- Each turn brings a measure down. -/
theorem ends_of_wellFounded {r : κ → κ → Prop} (hwf : WellFounded r) (measure : σ → κ)
    (hdown : ∀ t t', Visits turn s t → turn t = .again t' → r (measure t') (measure t)) :
    Ends turn s := by
  induction hm : measure s using hwf.induction generalizing s with
  | _ k ih =>
      cases hturn : turn s with
      | done r => exact ends_of_done hturn
      | again t =>
          rw [ends_iff_of_again hturn]
          refine ih (measure t) (hm ▸ hdown s t .start hturn) (fun t₁ t₂ hvisit => ?_) rfl
          exact hdown t₁ t₂ (hvisit.head hturn)

/-- There is always another turn. -/
theorem not_ends_of_invariant {P : σ → Prop} (h₀ : P s)
    (hagain : ∀ t, P t → ∃ t', turn t = .again t' ∧ P t') : ¬ Ends turn s := by
  rintro ⟨n, r, hrun⟩
  induction n generalizing s with
  | zero => cases hrun
  | succ n ih =>
      obtain ⟨t, hturn, ht⟩ := hagain s h₀
      rw [run, hturn] at hrun
      exact ih ht hrun

/-! ### Steps along a function -/

/-- `n` steps from `start`. -/
def place (next : κ → Option κ) (start : κ) : Nat → Option κ
  | 0 => some start
  | n + 1 => (place next start n).bind next

/-- No place comes twice. -/
def Acyclic (next : κ → Option κ) (start : κ) : Prop :=
  ∀ i j, i < j → place next start i = place next start j → place next start i = none

variable {next : κ → Option κ} {k : κ}

theorem place_add (i n : Nat) :
    place next k (i + n) = (place next k i).bind fun k' => place next k' n := by
  induction n with
  | zero => exact (Option.bind_fun_some _).symm
  | succ n ih =>
      rw [← add_assoc, place, ih, Option.bind_assoc]
      rfl

theorem place_eq_none {i j : Nat} (h : place next k i = none) (hij : i ≤ j) :
    place next k j = none := by
  obtain ⟨n, rfl⟩ := Nat.exists_eq_add_of_le hij
  rw [place_add, h]
  rfl

/-- What comes twice comes again and again. -/
theorem place_period {i p : Nat} (h : place next k i = place next k (i + p)) (m : Nat) :
    place next k (i + m * p) = place next k i := by
  induction m with
  | zero => rw [Nat.zero_mul, Nat.add_zero]
  | succ m ih =>
      have hsum : i + (m + 1) * p = i + p + m * p := by
        rw [Nat.succ_mul]
        omega
      rw [hsum, place_add, ← h, ← place_add, ih]

theorem exists_place_none_iff_acyclic (hfin : (Set.range next).Finite) :
    (∃ n, place next k n = none) ↔ Acyclic next k := by
  constructor
  · rintro ⟨n, hn⟩ i j hij heq
    obtain ⟨p, rfl⟩ := Nat.exists_eq_add_of_le hij.le
    rw [← place_period heq n]
    refine place_eq_none hn ?_
    calc n = n * 1 := (Nat.mul_one n).symm
      _ ≤ n * p := Nat.mul_le_mul_left n (by omega)
      _ ≤ i + n * p := Nat.le_add_left _ _
  · intro hacyclic
    by_contra hno
    have hsome (n : Nat) : place next k n ≠ none := fun hn => hno ⟨n, hn⟩
    have hmem (n : Nat) : place next k n ∈ insert (some k) (Set.range next) := by
      cases n with
      | zero => exact .inl rfl
      | succ n =>
          obtain ⟨k', hk'⟩ := Option.ne_none_iff_exists'.mp (hsome n)
          refine .inr ⟨k', ?_⟩
          rw [place, hk']
          rfl
    have hfinite : Finite (insert (some k) (Set.range next) : Set (Option κ)) :=
      (hfin.insert (some k)).to_subtype
    obtain ⟨i, j, hne, heq⟩ := Finite.exists_ne_map_eq_of_infinite
      fun n => (⟨place next k n, hmem n⟩ : (insert (some k) (Set.range next) : Set (Option κ)))
    have heq' : place next k i = place next k j := congrArg Subtype.val heq
    rcases Nat.lt_or_gt_of_ne hne with hlt | hlt
    · exact hsome i (hacyclic i j hlt heq')
    · exact hsome j (hacyclic j i hlt heq'.symm)

/-- The loop goes on exactly where `next` does. -/
def Follows (turn : σ → Turn σ ρ) (next : κ → Option κ) (key : σ → κ) (s : σ) : Prop :=
  match turn s with
  | .again t => next (key s) = some (key t)
  | .done _ => next (key s) = none

theorem ends_iff_exists_place {key : σ → κ}
    (hfollows : ∀ t, Visits turn s t → Follows turn next key t) :
    Ends turn s ↔ ∃ n, place next (key s) n = none := by
  constructor
  · rintro ⟨n, r, hrun⟩
    refine ⟨n, ?_⟩
    induction n generalizing s with
    | zero => cases hrun
    | succ n ih =>
        have hs := hfollows s .start
        unfold Follows at hs
        rw [Nat.add_comm, place_add]
        change (next (key s)).bind _ = none
        cases hturn : turn s with
        | done r =>
            rw [hturn] at hs
            rw [show next (key s) = none from hs]
            rfl
        | again t =>
            rw [hturn] at hs
            rw [show next (key s) = some (key t) from hs]
            rw [run, hturn] at hrun
            exact ih (fun t' ht' => hfollows t' (ht'.head hturn)) hrun
  · rintro ⟨n, hn⟩
    induction n generalizing s with
    | zero => cases hn
    | succ n ih =>
        have hs := hfollows s .start
        unfold Follows at hs
        cases hturn : turn s with
        | done r => exact ends_of_done hturn
        | again t =>
            rw [hturn] at hs
            rw [ends_iff_of_again hturn]
            refine ih (fun t' ht' => hfollows t' (ht'.head hturn)) ?_
            rw [Nat.add_comm, place_add] at hn
            change (next (key s)).bind _ = none at hn
            rwa [show next (key s) = some (key t) from hs] at hn

theorem ends_iff_acyclic (key : σ → κ) (hfin : (Set.range next).Finite)
    (hfollows : ∀ t, Visits turn s t → Follows turn next key t) :
    Ends turn s ↔ Acyclic next (key s) := by
  rw [ends_iff_exists_place hfollows, exists_place_none_iff_acyclic hfin]

end Loop

end LinuxKernel
