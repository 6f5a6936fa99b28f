import Mathlib.Logic.Function.Basic

/-!
# LinuxKernel.Lib.WriteBack

**A write-back cache.** A `Store` is a disk of blocks and, for some blocks, a buffer with
its contents and a dirty flag. Buffers are read in, modified, written back and dropped.

`view` is what a reader of the block sees and `flush` what the disk holds once all dirty
buffers have been written. `Clean` says that a buffer without the flag has what the disk
has: then the two are the same, and neither writing back nor dropping a clean buffer can be
seen.
-/

namespace LinuxKernel.WriteBack

universe u v

structure Buffer (δ : Type v) where
  data : δ
  dirty : Bool

structure Store (β : Type u) (δ : Type v) where
  disk : β → δ
  buffer : β → Option (Buffer δ)

namespace Store

variable {β : Type u} {δ : Type v} [DecidableEq β]

def view (s : Store β δ) (b : β) : δ :=
  match s.buffer b with
  | some x => x.data
  | none => s.disk b

def flush (s : Store β δ) (b : β) : δ :=
  match s.buffer b with
  | some x => if x.dirty then x.data else s.disk b
  | none => s.disk b

/-- The block is read into a buffer, if it is not there yet. -/
def bread (s : Store β δ) (b : β) : Store β δ :=
  match s.buffer b with
  | some _ => s
  | none => { s with buffer := Function.update s.buffer b (some ⟨s.disk b, false⟩) }

/-- The contents of a buffer change. With `mark`, its dirty flag is set. -/
def modify (s : Store β δ) (b : β) (f : δ → δ) (mark : Bool) : Store β δ :=
  match s.buffer b with
  | some x => { s with buffer := Function.update s.buffer b (some ⟨f x.data, x.dirty || mark⟩) }
  | none => s

def writeBack (s : Store β δ) (b : β) : Store β δ :=
  match s.buffer b with
  | some x =>
      { disk := Function.update s.disk b x.data
        buffer := Function.update s.buffer b (some ⟨x.data, false⟩) }
  | none => s

def drop (s : Store β δ) (b : β) : Store β δ :=
  { s with buffer := Function.update s.buffer b none }

def cached (s : Store β δ) (b : β) : Bool := (s.buffer b).isSome

def dirty (s : Store β δ) (b : β) : Bool :=
  match s.buffer b with
  | some x => x.dirty
  | none => false

/-- A buffer that is not dirty has what the disk has. -/
def Clean (s : Store β δ) : Prop :=
  ∀ b x, s.buffer b = some x → x.dirty = false → x.data = s.disk b

variable {s : Store β δ} {b c : β} {f : δ → δ} {mark : Bool}

omit [DecidableEq β] in
theorem Clean.flush_eq (h : s.Clean) (b : β) : s.flush b = s.view b := by
  unfold flush view
  cases hb : s.buffer b with
  | none => rfl
  | some x =>
      cases hx : x.dirty with
      | false => simp [hx, h b x hb hx]
      | true => simp [hx]

/-! ### What is seen -/

@[simp] theorem view_bread : (s.bread b).view c = s.view c := by
  unfold bread
  cases hb : s.buffer b with
  | some x => rfl
  | none =>
      unfold view
      by_cases hc : c = b
      · subst hc
        simp [hb]
      · simp [hc]

theorem view_modify (hb : s.cached b = true) :
    (s.modify b f mark).view c = if c = b then f (s.view c) else s.view c := by
  obtain ⟨x, hx⟩ := Option.isSome_iff_exists.mp hb
  unfold modify view
  by_cases hc : c = b
  · subst hc
    simp [hx]
  · simp [hx, hc]

@[simp] theorem view_writeBack : (s.writeBack b).view c = s.view c := by
  unfold writeBack
  cases hb : s.buffer b with
  | none => rfl
  | some x =>
      unfold view
      by_cases hc : c = b
      · subst hc
        simp [hb]
      · simp [hc]

theorem Clean.view_drop (h : s.Clean) (hd : s.dirty b = false) : (s.drop b).view c = s.view c := by
  unfold drop view
  by_cases hc : c = b
  · subst hc
    cases hx : s.buffer c with
    | none => simp
    | some x => simpa using (h c x hx (by simpa [dirty, hx] using hd)).symm
  · simp [hc]

/-! ### What is in the cache -/

@[simp] theorem cached_bread : (s.bread b).cached c = (decide (c = b) || s.cached c) := by
  unfold bread cached
  cases hb : s.buffer b with
  | some x =>
      by_cases hc : c = b
      · subst hc
        simp [hb]
      · simp [hc]
  | none =>
      by_cases hc : c = b
      · subst hc
        simp
      · simp [hc]

@[simp] theorem dirty_bread : (s.bread b).dirty c = s.dirty c := by
  unfold bread dirty
  cases hb : s.buffer b with
  | some x => rfl
  | none =>
      by_cases hc : c = b
      · subst hc
        simp [hb]
      · simp [hc]

@[simp] theorem cached_modify : (s.modify b f mark).cached c = s.cached c := by
  unfold modify cached
  cases hb : s.buffer b with
  | none => rfl
  | some x =>
      by_cases hc : c = b
      · subst hc
        simp [hb]
      · simp [hc]

@[simp] theorem cached_writeBack : (s.writeBack b).cached c = s.cached c := by
  unfold writeBack cached
  cases hb : s.buffer b with
  | none => rfl
  | some x =>
      by_cases hc : c = b
      · subst hc
        simp [hb]
      · simp [hc]

theorem cached_drop (h : c ≠ b) : (s.drop b).cached c = s.cached c := by
  simp [drop, cached, h]

/-! ### Clean buffers -/

theorem Clean.bread (h : s.Clean) (b : β) : (s.bread b).Clean := by
  intro c x hx hd
  unfold Store.bread at hx ⊢
  cases hb : s.buffer b with
  | some y =>
      rw [hb] at hx
      exact h c x hx hd
  | none =>
      rw [hb] at hx
      by_cases hc : c = b
      · subst hc
        simp only [Function.update_self, Option.some.injEq] at hx
        exact hx ▸ rfl
      · simp only [Function.update_of_ne hc] at hx
        exact h c x hx hd

/-- A buffer may change without its flag being set only if it is dirty already or the
change is none. -/
theorem Clean.modify (h : s.Clean)
    (hb : mark = true ∨ s.dirty b = true ∨ f (s.view b) = s.view b) :
    (s.modify b f mark).Clean := by
  intro c x hx hd
  unfold Store.modify at hx ⊢
  cases hy : s.buffer b with
  | none =>
      rw [hy] at hx
      exact h c x hx hd
  | some y =>
      rw [hy] at hx
      by_cases hc : c = b
      · subst hc
        simp only [Function.update_self, Option.some.injEq] at hx
        subst hx
        simp only [Bool.or_eq_false_iff] at hd
        simp only [Store.dirty, Store.view, hy, hd.1, hd.2] at hb
        have hf : f y.data = y.data := by simpa using hb
        exact hf.trans (h c y hy hd.1)
      · simp only [Function.update_of_ne hc] at hx
        exact h c x hx hd

theorem Clean.writeBack (h : s.Clean) (b : β) : (s.writeBack b).Clean := by
  intro c x hx hd
  unfold Store.writeBack at hx ⊢
  cases hy : s.buffer b with
  | none =>
      rw [hy] at hx
      exact h c x hx hd
  | some y =>
      rw [hy] at hx
      by_cases hc : c = b
      · subst hc
        simp only [Function.update_self, Option.some.injEq] at hx
        subst hx
        simp
      · simp only [Function.update_of_ne hc] at hx ⊢
        exact h c x hx hd

theorem Clean.drop (h : s.Clean) (b : β) : (s.drop b).Clean := by
  intro c x hx hd
  by_cases hc : c = b
  · subst hc
    simp [Store.drop] at hx
  · exact h c x (by simpa [Store.drop, hc] using hx) hd

end Store

end LinuxKernel.WriteBack
