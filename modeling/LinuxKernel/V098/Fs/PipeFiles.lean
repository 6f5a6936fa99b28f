import Mathlib.Data.Finset.Card
import LinuxKernel.V098.Fs.Pipe

/-!
# LinuxKernel.V098.Fs.PipeFiles

**The files of a pipe**: `f_count` counts the descriptors of a file, and `PIPE_READERS` and
`PIPE_WRITERS` count at least the open files. (They count more where `fifo_open` has failed
for want of a page.)
-/

namespace LinuxKernel.V098.Fs.Pipe

variable {s s' : State} {t u : Task} {fd : Fd} {f : File}

def reads (mode : Nat) : Prop := mode = 1 ∨ mode = 3
def writes (mode : Nat) : Prop := mode = 2 ∨ mode = 3

/-- `f_count` counts the descriptors, and every open file counts as a reader or a writer. -/
structure Files (s : State) : Prop where
  fds : ∀ t fd f, s.filp t fd = some f → fd < NR_OPEN
  refs : ∀ f (D : Finset (Task × Fd)), (∀ d ∈ D, s.filp d.1 d.2 = some f) → D.card ≤ s.fCount f
  readers : ∀ F : Finset File, (∀ f ∈ F, 0 < s.fCount f ∧ reads (s.mode f)) → F.card ≤ s.readers
  writers : ∀ F : Finset File, (∀ f ∈ F, 0 < s.fCount f ∧ writes (s.mode f)) → F.card ≤ s.writers
  modes : ∀ f, 0 < s.fCount f → reads (s.mode f) ∨ writes (s.mode f)

namespace Files

theorem open_ (h : Files s) (hf : s.filp t fd = some f) : 0 < s.fCount f := by
  have := h.refs f {(t, fd)} fun d hd => by rw [Finset.mem_singleton.mp hd]; exact hf
  rwa [Finset.card_singleton] at this

/-- Two descriptors of one file. -/
theorem shared {fd' : Fd} (h : Files s) (hf : s.filp t fd = some f) (hf' : s.filp u fd' = some f)
    (hne : (t, fd) ≠ (u, fd')) : 1 < s.fCount f := by
  have := h.refs f {(t, fd), (u, fd')} fun d hd => by
    rcases Finset.mem_insert.mp hd with rfl | hd
    · exact hf
    · rw [Finset.mem_singleton.mp hd]
      exact hf'
  rwa [Finset.card_pair hne] at this

theorem reader (h : Files s) (hf : s.filp t fd = some f) (hm : reads (s.mode f)) : 0 < s.readers := by
  have := h.readers {f} fun g hg => by
    rw [Finset.mem_singleton.mp hg]
    exact ⟨h.open_ hf, hm⟩
  rwa [Finset.card_singleton] at this

theorem writer (h : Files s) (hf : s.filp t fd = some f) (hm : writes (s.mode f)) :
    0 < s.writers := by
  have := h.writers {f} fun g hg => by
    rw [Finset.mem_singleton.mp hg]
    exact ⟨h.open_ hf, hm⟩
  rwa [Finset.card_singleton] at this

theorem mode_cases (h : Files s) (hf : 0 < s.fCount f) :
    s.mode f = 1 ∨ s.mode f = 2 ∨ s.mode f = 3 := by
  rcases h.modes f hf with (hm | hm) | hm | hm
  · exact Or.inl hm
  · exact Or.inr (Or.inr hm)
  · exact Or.inr (Or.inl hm)
  · exact Or.inr (Or.inr hm)

end Files

/-- A descriptor is given up. One reader or writer less is left, if it was the last descriptor
of a reader or a writer. -/
theorem Files.drop {r w : Nat} (h : Files s) (hf : s.filp t fd = some f)
    (hr : s.readers ≤ r + 1) (hr' : r < s.readers → s.fCount f ≤ 1 ∧ reads (s.mode f))
    (hw : s.writers ≤ w + 1) (hw' : w < s.writers → s.fCount f ≤ 1 ∧ writes (s.mode f)) :
    Files { dropFile s t fd f with readers := r, writers := w } := by
  have hcount : ∀ g, (dropFile s t fd f).fCount g = if g = f then s.fCount f - 1 else s.fCount g :=
    fun g => Function.update_apply _ _ _ _
  have hfilp : ∀ u fd' g, (dropFile s t fd f).filp u fd' = some g →
      s.filp u fd' = some g ∧ (u, fd') ≠ (t, fd) := by
    intro u fd' g hg
    change Function.update s.filp t _ u fd' = some g at hg
    by_cases hu : u = t
    · subst hu
      rw [Function.update_self] at hg
      by_cases hfd : fd' = fd
      · rw [hfd, Function.update_self] at hg
        cases hg
      · rw [Function.update_of_ne hfd] at hg
        exact ⟨hg, fun he => hfd (congrArg Prod.snd he)⟩
    · rw [Function.update_of_ne hu] at hg
      exact ⟨hg, fun he => hu (congrArg Prod.fst he)⟩
  have hclaims : ∀ {role : Nat → Prop} {n n' : Nat},
      (∀ F : Finset File, (∀ g ∈ F, 0 < s.fCount g ∧ role (s.mode g)) → F.card ≤ n) →
      n ≤ n' + 1 → (n' < n → s.fCount f ≤ 1 ∧ role (s.mode f)) → ∀ F : Finset File,
      (∀ g ∈ F, 0 < (dropFile s t fd f).fCount g ∧ role (s.mode g)) → F.card ≤ n' := by
    intro role n n' hold hn hn' F hF
    have hopen : ∀ g ∈ F, 0 < s.fCount g ∧ role (s.mode g) := by
      intro g hg
      have := hF g hg
      rw [hcount] at this
      split at this
      · next hgf => exact ⟨by rw [hgf]; omega, this.2⟩
      · exact this
    by_cases hlt : n' < n
    · obtain ⟨hone, hrole⟩ := hn' hlt
      have hfF : f ∉ F := by
        intro hfF
        have := (hF f hfF).1
        rw [hcount, if_pos rfl] at this
        omega
      have := hold (insert f F) fun g hg => by
        rcases Finset.mem_insert.mp hg with rfl | hg
        · exact ⟨h.open_ hf, hrole⟩
        · exact hopen g hg
      rw [Finset.card_insert_of_notMem hfF] at this
      omega
    · exact Nat.le_trans (hold F hopen) (Nat.le_of_not_lt hlt)
  refine ⟨fun u fd' g hg => h.fds u fd' g (hfilp u fd' g hg).1, fun g D hD => ?_,
    hclaims h.readers hr hr', hclaims h.writers hw hw', fun g hg => h.modes g ?_⟩
  · have hold : ∀ d ∈ D, s.filp d.1 d.2 = some g := fun d hd => (hfilp d.1 d.2 g (hD d hd)).1
    change D.card ≤ (dropFile s t fd f).fCount g
    rw [hcount]
    split
    · next hgf =>
      subst hgf
      have hnew : (t, fd) ∉ D := fun hd => (hfilp t fd g (hD _ hd)).2 rfl
      have := h.refs g (insert (t, fd) D) fun d hd => by
        rcases Finset.mem_insert.mp hd with rfl | hd
        · exact hf
        · exact hold d hd
      rw [Finset.card_insert_of_notMem hnew] at this
      omega
    · exact h.refs g D hold
  · change 0 < (dropFile s t fd f).fCount g at hg
    rw [hcount] at hg
    split at hg
    · next hgf =>
      rw [hgf]
      omega
    · exact hg

/-- The child's descriptors of a file are as many as the parent's. -/
theorem Files.fork {c : Task} (h : Files s) (hc : ∀ fd < NR_OPEN, s.filp c fd = none) :
    Files (Pipe.fork s t c) := by
  have hnew : ∀ {u : Task} {fd' : Fd} {g : File}, u ≠ c → (Pipe.fork s t c).filp u fd' = some g →
      s.filp u fd' = some g := by
    intro u fd' g hu hg
    change Function.update s.filp c (s.filp t) u fd' = some g at hg
    rwa [Function.update_of_ne hu] at hg
  have hchild : ∀ {fd' : Fd} {g : File}, (Pipe.fork s t c).filp c fd' = some g → s.filp t fd' = some g := by
    intro fd' g hg
    change Function.update s.filp c (s.filp t) c fd' = some g at hg
    rwa [Function.update_self] at hg
  have hopen : ∀ g, 0 < (Pipe.fork s t c).fCount g → 0 < s.fCount g := by
    intro g hg
    change 0 < s.fCount g + _ at hg
    by_contra hzero
    have hcount : 0 < (List.range NR_OPEN).countP fun fd => s.filp t fd = some g := by omega
    obtain ⟨fd', -, hfd'⟩ := List.countP_pos_iff.mp hcount
    exact hzero (h.open_ (of_decide_eq_true hfd'))
  refine ⟨fun u fd' g hg => ?_, fun g D hD => ?_, fun F hF => ?_, fun F hF => ?_, fun g hg => ?_⟩
  · by_cases hu : u = c
    · subst hu
      exact h.fds t fd' g (hchild hg)
    · exact h.fds u fd' g (hnew hu hg)
  · -- the descriptors of the others and those of the child
    have hothers := h.refs g (D.filter fun d => ¬ d.1 = c) fun d hd => by
      rw [Finset.mem_filter] at hd
      exact hnew hd.2 (hD d hd.1)
    have hsub : (D.filter fun d => d.1 = c).image Prod.snd ⊆
        ((List.range NR_OPEN).filter fun fd => s.filp t fd = some g).toFinset := by
      intro fd' hfd'
      obtain ⟨⟨u, fd''⟩, hd, rfl⟩ := Finset.mem_image.mp hfd'
      obtain ⟨hmem, hu⟩ := Finset.mem_filter.mp hd
      obtain rfl : u = c := hu
      have hg := hchild (hD (u, fd'') hmem)
      simpa [hg] using h.fds t fd'' g hg
    have hchildren : (D.filter fun d => d.1 = c).card ≤
        (List.range NR_OPEN).countP fun fd => s.filp t fd = some g := by
      rw [List.countP_eq_length_filter, ← List.toFinset_card_of_nodup (List.nodup_range.filter _),
        ← Finset.card_image_of_injOn (f := Prod.snd) (s := D.filter fun d => d.1 = c)]
      · exact Finset.card_le_card hsub
      · rintro ⟨u, a⟩ hd ⟨w, b⟩ hd' (rfl : a = b)
        have hu : u = c := (Finset.mem_filter.mp hd).2
        have hw : w = c := (Finset.mem_filter.mp hd').2
        rw [hu, hw]
    have hsplit := Finset.card_filter_add_card_filter_not (s := D) fun d => d.1 = c
    change D.card ≤ s.fCount g + _
    omega
  · exact h.readers F fun g hg => ⟨hopen g (hF g hg).1, (hF g hg).2⟩
  · exact h.writers F fun g hg => ⟨hopen g (hF g hg).1, (hF g hg).2⟩
  · exact h.modes g (hopen g hg)

end LinuxKernel.V098.Fs.Pipe
