import Mathlib.Data.List.Nodup

/-!
# LinuxKernel.Lib.Cycle

**Circular lists in a heap.** `Path next l e` reads the links off: each element of `l` is
linked to the one behind it, the last one to `e`. A `Cycle` is a path whose last element is
linked to its first.

Taking an element out of a cycle and putting one in front of it are each two stores.

A `DoubleCycle` is a cycle in both directions.
-/

namespace LinuxKernel

variable {α : Type} {next next' : α → Option α} {l l₁ l₂ : List α} {a x : α} {e : Option α}

def Path (next : α → Option α) : List α → Option α → Prop
  | [], _ => True
  | a :: l, e => next a = l.head?.or e ∧ Path next l e

namespace Path

theorem congr (h : Path next l e) (hn : ∀ a ∈ l, next' a = next a) : Path next' l e := by
  induction l with
  | nil => trivial
  | cons a l ih =>
      refine ⟨(hn a List.mem_cons_self).trans h.1, ih h.2 fun b hb => ?_⟩
      exact hn b (List.mem_cons_of_mem a hb)

/-- A path through both halves passes the seam. -/
theorem append_iff : Path next (l₁ ++ l₂) e ↔ Path next l₁ (l₂.head?.or e) ∧ Path next l₂ e := by
  induction l₁ with
  | nil => exact ⟨fun h => ⟨trivial, h⟩, fun h => h.2⟩
  | cons a l ih =>
      change (next a = (l ++ l₂).head?.or e ∧ Path next (l ++ l₂) e) ↔
        (next a = l.head?.or (l₂.head?.or e) ∧ Path next l (l₂.head?.or e)) ∧ Path next l₂ e
      rw [ih, List.head?_append, Option.or_assoc, and_assoc]

/-- The element of a path that is linked to what is behind it. -/
theorem last (h : Path next (l ++ [x]) e) : next x = e := by
  have hx := (append_iff.mp h).2
  exact hx.1

end Path

theorem path_iff_getElem :
    Path next l e ↔ ∀ i, (h : i < l.length) → next l[i] = l[i + 1]?.or e := by
  induction l with
  | nil => exact ⟨fun _ i h => absurd h (Nat.not_lt_zero i), fun _ => trivial⟩
  | cons a l ih =>
      rw [Path, ih]
      constructor
      · rintro ⟨hfirst, hrest⟩ i hi
        cases i with
        | zero => rw [List.getElem?_cons_succ, ← List.head?_eq_getElem?]; exact hfirst
        | succ i => exact hrest i (Nat.lt_of_succ_lt_succ hi)
      · intro h
        refine ⟨?_, fun i hi => h (i + 1) (Nat.succ_lt_succ hi)⟩
        have hfirst := h 0 (Nat.succ_pos _)
        rw [List.getElem?_cons_succ, ← List.head?_eq_getElem?] at hfirst
        exact hfirst

def Cycle (next : α → Option α) (l : List α) : Prop := Path next l l.head?

namespace Cycle

theorem congr (h : Cycle next l) (hn : ∀ a ∈ l, next' a = next a) : Cycle next' l :=
  Path.congr h hn

theorem rotate (h : Cycle next (l₁ ++ l₂)) : Cycle next (l₂ ++ l₁) := by
  unfold Cycle at h ⊢
  cases l₁ with
  | nil => simpa using h
  | cons a l₁ =>
      cases l₂ with
      | nil => simpa using h
      | cons b l₂ =>
          rw [Path.append_iff] at h ⊢
          exact ⟨h.2, h.1⟩

/-- Nothing is linked to the outside. -/
theorem next_mem (h : Cycle next l) (ha : a ∈ l) : ∃ b ∈ l, next a = some b := by
  obtain ⟨l₁, l₂, rfl⟩ := List.append_of_mem ha
  have hrot := h.rotate
  cases hr : l₂ ++ l₁ with
  | nil =>
      rw [List.cons_append, hr] at hrot
      exact ⟨a, by simp, hrot.1⟩
  | cons b l =>
      rw [List.cons_append, hr] at hrot
      refine ⟨b, ?_, hrot.1⟩
      have hb : b ∈ l₂ ++ l₁ := by
        rw [hr]
        exact List.mem_cons_self
      simp only [List.mem_append, List.mem_cons] at hb ⊢
      rcases hb with hb | hb
      · exact Or.inr (Or.inr hb)
      · exact Or.inl hb

/-- `x` is put between the last element and the first. -/
theorem push (h : Cycle next (l ++ [a])) (hx : x ∉ l ++ [a]) (hnd : (l ++ [a]).Nodup)
    (hxn : next' x = (l ++ [a]).head?) (ha : next' a = some x)
    (hother : ∀ b, b ≠ x → b ≠ a → next' b = next b) : Cycle next' (x :: (l ++ [a])) := by
  have hne : ∀ b ∈ l, b ≠ x ∧ b ≠ a := by
    intro b hb
    refine ⟨fun he => hx (he ▸ List.mem_append_left _ hb), ?_⟩
    rintro rfl
    exact List.disjoint_of_nodup_append hnd hb (List.mem_singleton_self _)
  refine ⟨?_, Path.append_iff.mpr ⟨?_, ha, trivial⟩⟩
  · rw [hxn]
    cases l <;> rfl
  · exact (Path.append_iff.mp h).1.congr fun b hb => hother b (hne b hb).1 (hne b hb).2

/-- The first element is taken out: the last one is linked to the second. -/
theorem pop (h : Cycle next (x :: (l ++ [a]))) (hnd : (x :: (l ++ [a])).Nodup)
    (ha : next' a = next x) (hother : ∀ b, b ≠ x → b ≠ a → next' b = next b) :
    Cycle next' (l ++ [a]) := by
  have hx := (List.nodup_cons.mp hnd).1
  have hne : ∀ b ∈ l, b ≠ x ∧ b ≠ a := by
    intro b hb
    refine ⟨fun he => hx (he ▸ List.mem_append_left _ hb), ?_⟩
    rintro rfl
    exact List.disjoint_of_nodup_append (List.nodup_cons.mp hnd).2 hb (List.mem_singleton_self _)
  have hxn : next x = (l ++ [a]).head? := by
    have := h.1
    cases l with
    | nil => exact this
    | cons b l => exact this
  refine Path.append_iff.mpr ⟨?_, ?_, trivial⟩
  · exact (Path.append_iff.mp h.2).1.congr fun b hb => hother b (hne b hb).1 (hne b hb).2
  · rw [ha, hxn]
    cases l <;> rfl

end Cycle

/-! ### Both directions -/

/-- The elements of `l` in order along `next`, and in reverse along `prev`. -/
def DoubleCycle (next prev : α → Option α) (l : List α) : Prop :=
  Cycle next l ∧ Cycle prev l.reverse

namespace DoubleCycle

variable {prev prev' : α → Option α} {f : α}

theorem rotate (h : DoubleCycle next prev (l₁ ++ l₂)) : DoubleCycle next prev (l₂ ++ l₁) := by
  refine ⟨h.1.rotate, ?_⟩
  have hback := h.2
  rw [List.reverse_append] at hback ⊢
  exact hback.rotate

theorem next_head (h : DoubleCycle next prev (x :: l)) : next x = l.head?.or (some x) := h.1.1

/-- Before the first element is the last one. -/
theorem prev_head (h : DoubleCycle next prev (x :: l)) : prev x = l.getLast?.or (some x) := by
  have hback := h.2
  rw [List.reverse_cons] at hback
  have hlast := hback.last
  rw [hlast, List.head?_append, List.head?_reverse]
  rfl

/-- Take `x` out: its neighbours are linked to each other. -/
theorem remove (h : DoubleCycle next prev (x :: l)) (hl : l ≠ []) (hnd : (x :: l).Nodup)
    (hn : ∀ a, prev x = some a → next' a = next x)
    (hn' : ∀ b, b ≠ x → prev x ≠ some b → next' b = next b)
    (hp : ∀ a, next x = some a → prev' a = prev x)
    (hp' : ∀ b, b ≠ x → next x ≠ some b → prev' b = prev b) : DoubleCycle next' prev' l := by
  constructor
  · obtain ⟨l', a, rfl⟩ := List.eq_nil_or_concat l |>.resolve_left hl
    rw [List.concat_eq_append] at *
    have hlast : prev x = some a := by rw [h.prev_head, List.getLast?_concat]; rfl
    refine h.1.pop hnd (hn a hlast) fun b hbx hba => hn' b hbx fun hb => hba ?_
    exact Option.some.inj (hb.symm.trans hlast)
  · cases l with
    | nil => exact absurd rfl hl
    | cons b l =>
        have hfirst : next x = some b := h.next_head
        have hback := h.2
        have hnd' : (x :: (l.reverse ++ [b])).Nodup := by
          rw [← List.reverse_cons]
          exact List.nodup_cons.mpr ⟨fun hx => (List.nodup_cons.mp hnd).1 (List.mem_reverse.mp hx),
            List.nodup_reverse.mpr (List.nodup_cons.mp hnd).2⟩
        rw [List.reverse_cons] at hback
        have hback' := hback.rotate
        rw [List.singleton_append, List.reverse_cons] at hback'
        rw [List.reverse_cons]
        refine hback'.pop hnd' (hp b hfirst) fun c hcx hcb => hp' c hcx fun hc => hcb ?_
        exact Option.some.inj (hc.symm.trans hfirst)

/-- Put `x` before the first element: at the end of the list. -/
theorem insert (h : DoubleCycle next prev (f :: l)) (hx : x ∉ f :: l) (hnd : (f :: l).Nodup)
    (hxn : next' x = some f) (hn : ∀ a, prev f = some a → next' a = some x)
    (hn' : ∀ b, b ≠ x → prev f ≠ some b → next' b = next b)
    (hxp : prev' x = prev f) (hp : prev' f = some x)
    (hp' : ∀ b, b ≠ x → b ≠ f → prev' b = prev b) : DoubleCycle next' prev' (f :: l ++ [x]) := by
  constructor
  · obtain ⟨l', a, hl⟩ := (List.eq_nil_or_concat (f :: l)).resolve_left (List.cons_ne_nil f l)
    rw [List.concat_eq_append] at hl
    have hhead : (l' ++ [a]).head? = some f := by rw [← hl]; rfl
    have hlast : prev f = some a := by
      rw [h.prev_head]
      have hget : (f :: l).getLast? = some a := by rw [hl, List.getLast?_concat]
      rw [List.getLast?_cons] at hget
      cases hg : l.getLast? with
      | none => rw [hg] at hget; exact hget
      | some b => rw [hg] at hget; exact hget
    have hforth := h.1
    rw [hl] at hforth hx hnd ⊢
    have hpush := hforth.push hx hnd (hxn.trans hhead.symm) (hn a hlast)
      fun b hbx hba => hn' b hbx fun hb => hba (Option.some.inj (hb.symm.trans hlast))
    rw [← List.singleton_append] at hpush
    exact hpush.rotate
  · have hback := h.2
    have hrev : (f :: l ++ [x]).reverse = x :: (l.reverse ++ [f]) := by
      rw [List.reverse_append, List.reverse_singleton, List.reverse_cons, List.singleton_append]
    rw [List.reverse_cons] at hback
    rw [hrev]
    have hx' : x ∉ l.reverse ++ [f] := by
      rw [← List.reverse_cons]
      exact fun hx' => hx (List.mem_reverse.mp hx')
    have hnd' : (l.reverse ++ [f]).Nodup := by
      rw [← List.reverse_cons]
      exact List.nodup_reverse.mpr hnd
    refine hback.push hx' hnd' ?_ hp hp'
    rw [hxp, h.prev_head, List.head?_append, List.head?_reverse]
    rfl

end DoubleCycle

end LinuxKernel
