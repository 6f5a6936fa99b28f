import Mathlib.Logic.Function.Iterate

/-!
# LinuxKernel.Lib.Forest

**Forests given by a parent function.** `Climbs par r avoid a` says that the way up from
`a` comes to `root` and passes, before it, nothing that `avoid` names; `root` may have any
parent.

Moving `x` below `u` keeps everything connected to the root exactly if the way up from `u`
does not pass `x` (`Climbs.move`, `Climbs.of_move`).
-/

namespace LinuxKernel

universe u

variable {α : Type u} {par par' : α → α} {r a x y : α} {avoid avoid' : α → Prop}

inductive Climbs (par : α → α) (r : α) (avoid : α → Prop) : α → Prop
  | root : Climbs par r avoid r
  | step {a : α} : ¬ avoid a → Climbs par r avoid (par a) → Climbs par r avoid a

namespace Climbs

/-- Everything on the way up satisfies `P`, where the new parents and what is avoided may
differ elsewhere. -/
theorem congr {P : α → Prop} (h : Climbs par r avoid a) (ha : P a)
    (hP : ∀ b, P b → b ≠ r → P (par b)) (hpar : ∀ b, P b → b ≠ r → par' b = par b)
    (hav : ∀ b, P b → b ≠ r → avoid' b → avoid b) : Climbs par' r avoid' a := by
  induction h with
  | root => exact root
  | @step b hna h ih =>
      by_cases hb : b = r
      · rw [hb]
        exact root
      · refine step (fun hav' => hna (hav b ha hb hav')) ?_
        rw [hpar b ha hb]
        exact ih (hP b ha hb)

/-- What is not above anything is on no way but its own. -/
theorem avoid_leaf {P : α → Prop} (h : Climbs par r (fun _ => False) a) (ha : P a)
    (hax : a ≠ x) (hP : ∀ b, P b → b ≠ r → P (par b))
    (hleaf : ∀ b, P b → b ≠ r → par b ≠ x) : Climbs par r (· = x) a := by
  refine h.congr (P := fun b => P b ∧ b ≠ x) ⟨ha, hax⟩ ?_ (fun _ _ _ => rfl) ?_
  · exact fun b hb hr => ⟨hP b hb.1 hr, hleaf b hb.1 hr⟩
  · exact fun b hb _ he => hb.2 he

/-- Nothing but the root is its own parent. -/
theorem ne_self (h : Climbs par r avoid a) (ha : a ≠ r) : par a ≠ a := by
  induction h with
  | root => exact absurd rfl ha
  | @step b _ _ ih =>
      intro he
      rw [he] at ih
      exact ih ha he

theorem iterate (h : Climbs par r avoid a) : ∃ n, par^[n] a = r := by
  induction h with
  | root => exact ⟨0, rfl⟩
  | step _ _ ih =>
      obtain ⟨n, hn⟩ := ih
      exact ⟨n + 1, hn⟩

theorem of_iterate {n : Nat} (h : par^[n] a = r) : Climbs par r (fun _ => False) a := by
  induction n generalizing a with
  | zero =>
      obtain rfl : a = r := h
      exact root
  | succ n ih => exact step id (ih h)

/-- Several at once are moved to the root. -/
theorem to_root {m : α → Prop} (h : Climbs par r avoid a)
    (hmoved : ∀ b, m b → par' b = r) (hother : ∀ b, ¬ m b → par' b = par b) :
    Climbs par' r (fun _ => False) a := by
  induction h with
  | root => exact root
  | @step b _ _ ih =>
      by_cases hb : m b
      · refine step id ?_
        rw [hmoved b hb]
        exact root
      · refine step id ?_
        rwa [hother b hb]

variable [DecidableEq α]

/-- `x` is moved below `y`, which is not below `x`. -/
theorem move (h : Climbs par r (fun _ => False) a) (hy : Climbs par r (· = x) y) :
    Climbs (Function.update par x y) r (fun _ => False) a := by
  have hup : ∀ b, Climbs par r (· = x) b →
      Climbs (Function.update par x y) r (fun _ => False) b := by
    intro b hb
    induction hb with
    | root => exact root
    | step hne _ ih =>
        refine step id ?_
        rwa [Function.update_of_ne hne]
  induction h with
  | root => exact root
  | @step b _ _ ih =>
      refine step id ?_
      by_cases hb : b = x
      · rw [hb, Function.update_self]
        exact hup y hy
      · rwa [Function.update_of_ne hb]

/-- Only then does `x` still come to the root. -/
theorem of_move (h : Climbs (Function.update par x y) r (fun _ => False) x)
    (hx : x ≠ r) : Climbs par r (· = x) y := by
  have hor : ∀ b, Climbs (Function.update par x y) r (fun _ => False) b →
      Climbs par r (· = x) b ∨ Climbs par r (· = x) y := by
    intro b hb
    induction hb with
    | root => exact Or.inl root
    | @step b _ _ ih =>
        by_cases hbx : b = x
        · rw [hbx, Function.update_self, or_self] at ih
          exact Or.inr ih
        · rw [Function.update_of_ne hbx] at ih
          exact ih.imp_left (step hbx)
  rcases hor x h with hself | hy
  · cases hself with
    | root => exact absurd rfl hx
    | step hne _ => exact absurd rfl hne
  · exact hy

end Climbs

end LinuxKernel
