import Mathlib.Logic.Function.Basic

/-!
# LinuxKernel.Lib.Holders

**What tasks hold for themselves.** `Holders f mark`: everything a task holds is marked, and
no two tasks hold the same. `Mutex f lock a`: at most one task holds a lock, `a` is what it has
to say, and the lock is taken exactly then.
-/

namespace LinuxKernel

universe u v

variable {ι : Type u} {α : Type v}

structure Holders (f : ι → Option α) (mark : α → Prop) : Prop where
  marked : ∀ t a, f t = some a → mark a
  one : ∀ t u a, f t = some a → f u = some a → t = u

namespace Holders

variable {f f' : ι → Option α} {mark mark' : α → Prop} {t : ι} {a : α}

theorem keep (h : Holders f mark) (hf : ∀ u, f' u = f u)
    (hmark : ∀ u b, f u = some b → mark b → mark' b) : Holders f' mark' := by
  refine ⟨fun u b hu => ?_, fun u w b hu hw => ?_⟩
  · rw [hf] at hu
    exact hmark u b hu (h.marked u b hu)
  · rw [hf] at hu hw
    exact h.one u w b hu hw

theorem free (h : Holders f mark) (hn : ¬ mark a) (u : ι) : f u ≠ some a :=
  fun hu => hn (h.marked u a hu)

/-- A task takes what no other task has. -/
theorem take (h : Holders f mark) (hfree : ∀ u, u ≠ t → f u ≠ some a) (hf : f' t = some a)
    (hother : ∀ u, u ≠ t → f' u = f u) (ha : mark' a)
    (hmark : ∀ u b, u ≠ t → f u = some b → mark b → mark' b) : Holders f' mark' := by
  have htaken : ∀ u, u ≠ t → f' u ≠ some a := by
    intro u hu
    rw [hother u hu]
    exact hfree u hu
  refine ⟨fun u b hu => ?_, fun u w b hu hw => ?_⟩
  · by_cases hut : u = t
    · rw [hut, hf] at hu
      rwa [← Option.some.inj hu]
    · rw [hother u hut] at hu
      exact hmark u b hut hu (h.marked u b hu)
  · by_cases hut : u = t
    · rw [hut, hf] at hu
      obtain rfl := Option.some.inj hu
      by_contra hne
      exact htaken w (fun hw' => hne (hut.trans hw'.symm)) hw
    · by_cases hwt : w = t
      · rw [hwt, hf] at hw
        obtain rfl := Option.some.inj hw
        exact absurd hu (htaken u hut)
      · rw [hother u hut] at hu
        rw [hother w hwt] at hw
        exact h.one u w b hu hw

/-- A task gives up what it holds. -/
theorem drop (h : Holders f mark) (hf : f' t = none) (hother : ∀ u, u ≠ t → f' u = f u)
    (hmark : ∀ u b, u ≠ t → f u = some b → f t ≠ some b → mark b → mark' b) :
    Holders f' mark' := by
  have hsub : ∀ u b, f' u = some b → u ≠ t ∧ f u = some b := by
    intro u b hu
    have hut : u ≠ t := by
      rintro rfl
      rw [hf] at hu
      cases hu
    rw [hother u hut] at hu
    exact ⟨hut, hu⟩
  refine ⟨fun u b hu => ?_, fun u w b hu hw => ?_⟩
  · obtain ⟨hut, hu⟩ := hsub u b hu
    exact hmark u b hut hu (fun ht => hut (h.one u t b hu ht)) (h.marked u b hu)
  · exact h.one u w b (hsub u b hu).2 (hsub w b hw).2

end Holders

structure Mutex (f : ι → Option α) (lock : Bool) (a : Option α) : Prop where
  holds : ∀ t b, f t = some b → a = some b
  one : ∀ t u, f t ≠ none → f u ≠ none → t = u
  held : lock = true → ∃ t, f t ≠ none
  lock_eq : lock = a.isSome

namespace Mutex

variable {f f' : ι → Option α} {lock : Bool} {a : Option α} {t : ι} {b : α}

theorem keep (h : Mutex f lock a) (hf : ∀ u, f' u = f u) : Mutex f' lock a := by
  rwa [funext hf]

theorem none_of_unlocked (h : Mutex f false a) : a = none := by
  have := h.lock_eq
  cases a with
  | none => rfl
  | some b => cases this

theorem nobody (h : Mutex f lock a) (ha : a = none) (u : ι) : f u = none := by
  cases hu : f u with
  | none => rfl
  | some b =>
      rw [h.holds u b hu] at ha
      cases ha

theorem others (h : Mutex f lock a) (ht : f t ≠ none) (u : ι) (hu : u ≠ t) : f u = none := by
  by_contra hne
  exact hu (h.one u t hne ht)

private theorem of_one (hf : f' t = some b) (hothers : ∀ u, u ≠ t → f' u = none) :
    Mutex f' true (some b) := by
  have heq : ∀ u, f' u ≠ none → u = t := fun u hu => by_contra fun hne => hu (hothers u hne)
  refine ⟨fun u c hu => ?_, fun u w hu hw => (heq u hu).trans (heq w hw).symm,
    fun _ => ⟨t, ?_⟩, rfl⟩
  · rw [heq u (by rw [hu]; exact Option.some_ne_none c), hf] at hu
    exact hu
  · rw [hf]
    exact Option.some_ne_none b

theorem acquire (h : Mutex f false a) (hf : f' t = some b) (hother : ∀ u, u ≠ t → f' u = f u) :
    Mutex f' true (some b) :=
  of_one hf fun u hu => (hother u hu).trans (h.nobody h.none_of_unlocked u)

theorem move (h : Mutex f lock a) (ht : f t ≠ none) (hf : f' t = some b)
    (hother : ∀ u, u ≠ t → f' u = f u) : Mutex f' true (some b) :=
  of_one hf fun u hu => (hother u hu).trans (h.others ht u hu)

theorem release (h : Mutex f lock a) (ht : f t ≠ none) (hf : f' t = none)
    (hother : ∀ u, u ≠ t → f' u = f u) : Mutex f' false none := by
  have hnone : ∀ u, f' u = none := by
    intro u
    by_cases hu : u = t
    · rw [hu, hf]
    · rw [hother u hu, h.others ht u hu]
  refine ⟨fun u b hu => ?_, fun u w hu _ => absurd (hnone u) hu, fun hl => (nomatch hl), rfl⟩
  rw [hnone u] at hu
  cases hu

end Mutex

end LinuxKernel
