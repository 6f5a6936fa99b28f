import Mathlib.Data.Set.Basic

/-!
# LinuxKernel.Lib.Overlay

**Laying a new piece over a family of disjoint pieces.** A family says which
points each of its members holds, and as what kind; `View` is what the members
hold together.

`Laying F₀ F r k c rest` is a family on its way from `F₀` to the one in which the
points of `r` are of kind `k`: the member `c` holds all of `r`, and only members
in `rest` still hold points of `r` besides. The members of `rest` are taken one
after the other:

- `Laying.skip`: one that holds nothing of `r`,
- `Laying.absorb`: one of the kind `k` takes over from `c`,
- `Laying.cut`: one loses what `c` holds.

With nothing left the family is disjoint again and differs from `F₀` on `r` only
(`Laying.finish`).
-/

namespace LinuxKernel.Overlay

variable {ι β κ : Type}

/-- The points and the kinds of all members together. -/
def View (F : ι → β → κ → Prop) (b : β) (k : κ) : Prop := ∃ i, F i b k

/-- No point is held twice. -/
def Apart (F : ι → β → κ → Prop) : Prop :=
  ∀ i j b k k', F i b k → F j b k' → i = j ∧ k = k'

variable {F₀ F F' : ι → β → κ → Prop} {r : Set β} {k k' k'' : κ} {c i j n : ι} {rest rest' : Set ι}
  {b : β}

theorem Apart.view (h : Apart F) (hb : View F b k) (hb' : View F b k') : k = k' := by
  obtain ⟨i, hi⟩ := hb
  obtain ⟨j, hj⟩ := hb'
  exact (h i j b k k' hi hj).2

/-- The points of `r` are of kind `k`, the others are as before. -/
def Laid (F₀ F : ι → β → κ → Prop) (r : Set β) (k : κ) : Prop :=
  Apart F ∧ ∀ b k', View F b k' ↔ b ∈ r ∧ k' = k ∨ b ∉ r ∧ View F₀ b k'

structure Laying (F₀ F : ι → β → κ → Prop) (r : Set β) (k : κ) (c : ι) (rest : Set ι) : Prop where
  kind : ∀ b k', F c b k' → k' = k
  covers : ∀ b ∈ r, F c b k
  base : ∀ b, F c b k → b ∈ r ∨ View F₀ b k
  old : ∀ i b k', i ≠ c → F i b k' → View F₀ b k'
  clear : ∀ i b k', i ≠ c → i ∉ rest → b ∈ r → ¬ F i b k'
  kept : ∀ b k', b ∉ r → View F₀ b k' → View F b k'
  apart : ∀ i j b k' k'', i ≠ c → j ≠ c → F i b k' → F j b k'' → i = j ∧ k' = k''
  inside : ∀ i b k' k'', i ≠ c → F i b k' → F c b k'' → b ∈ r

namespace Laying

/-- A new member `c` holds `r`. -/
theorem start (hF : Apart F₀) (hc : ∀ b k', ¬ F₀ c b k') (hnew : ∀ b k', F c b k' ↔ b ∈ r ∧ k' = k)
    (hsame : ∀ i, i ≠ c → F i = F₀ i) (hrest : ∀ i, i ≠ c → i ∈ rest) :
    Laying F₀ F r k c rest where
  kind b k' h := ((hnew b k').mp h).2
  covers b h := (hnew b k).mpr ⟨h, rfl⟩
  base b h := Or.inl ((hnew b k).mp h).1
  old i b k' hi h := ⟨i, hsame i hi ▸ h⟩
  clear i b k' hi hr := absurd (hrest i hi) hr
  kept b k' _ h := by
    obtain ⟨i, hi⟩ := h
    have hne : i ≠ c := by
      rintro rfl
      exact hc b k' hi
    exact ⟨i, by rwa [hsame i hne]⟩
  apart i j b k' k'' hi hj h h' :=
    hF i j b k' k'' (hsame i hi ▸ h) (hsame j hj ▸ h')
  inside i b k' k'' _ _ h := ((hnew b k'').mp h).1

/-- `rest` loses members without points of `r`. -/
theorem skip (h : Laying F₀ F r k c rest) (hrest : ∀ j ∈ rest, j ≠ c → j ∈ rest' ∨
      ∀ b k', b ∈ r → ¬ F j b k') : Laying F₀ F r k c rest' where
  kind := h.kind
  covers := h.covers
  base := h.base
  old := h.old
  clear i b k' hi hr hb hF := by
    by_cases hi' : i ∈ rest
    · rcases hrest i hi' hi with hin | hout
      · exact hr hin
      · exact hout b k' hb hF
    · exact h.clear i b k' hi hi' hb hF
  kept := h.kept
  apart := h.apart
  inside := h.inside

/-- A member of kind `k` takes over what `c` holds, and `c` holds nothing any more. -/
theorem absorb (h : Laying F₀ F r k c rest) (hic : i ≠ c) (hkind : ∀ b k', F i b k' → k' = k)
    (hi : ∀ b k', F' i b k' ↔ F i b k' ∨ F c b k') (hc : ∀ b k', ¬ F' c b k')
    (hsame : ∀ j, j ≠ i → j ≠ c → F' j = F j)
    (hrest : ∀ j ∈ rest, j ≠ c → j = i ∨ j ∈ rest') : Laying F₀ F' r k i rest' where
  kind b k' hb := ((hi b k').mp hb).elim (hkind b k') (h.kind b k')
  covers b hb := (hi b k).mpr (Or.inr (h.covers b hb))
  base b hb := ((hi b k).mp hb).elim (fun hb => Or.inr (h.old i b k hic hb)) (h.base b)
  old j b k' hj hb := by
    have hjc : j ≠ c := by
      rintro rfl
      exact hc b k' hb
    exact h.old j b k' hjc (hsame j hj hjc ▸ hb)
  clear j b k' hj hr hbr hb := by
    have hjc : j ≠ c := by
      rintro rfl
      exact hc b k' hb
    refine h.clear j b k' hjc (fun hin => ?_) hbr (hsame j hj hjc ▸ hb)
    exact (hrest j hin hjc).elim hj hr
  kept b k' hb hv := by
    obtain ⟨j, hj⟩ := h.kept b k' hb hv
    by_cases hji : j = i ∨ j = c
    · refine ⟨i, (hi b k').mpr ?_⟩
      rcases hji with rfl | rfl
      · exact Or.inl hj
      · exact Or.inr hj
    · rw [not_or] at hji
      exact ⟨j, by rwa [hsame j hji.1 hji.2]⟩
  apart j l b k' k'' hj hl hb hb' := by
    have hjc : j ≠ c := by
      rintro rfl
      exact hc b k' hb
    have hlc : l ≠ c := by
      rintro rfl
      exact hc b k'' hb'
    rw [hsame j hj hjc] at hb
    rw [hsame l hl hlc] at hb'
    exact h.apart j l b k' k'' hjc hlc hb hb'
  inside j b k' k'' hj hb hb' := by
    have hjc : j ≠ c := by
      rintro rfl
      exact hc b k' hb
    rw [hsame j hj hjc] at hb
    rcases (hi b k'').mp hb' with hi' | hc'
    · exact absurd (h.apart j i b k' k'' hjc hic hb hi').1 hj
    · exact h.inside j b k' k'' hjc hb hc'

/-- A member loses what `c` holds. -/
theorem cut (h : Laying F₀ F r k c rest) (hic : i ≠ c)
    (hi : ∀ b k', F' i b k' ↔ F i b k' ∧ ¬ F c b k) (hsame : ∀ j, j ≠ i → F' j = F j)
    (hrest : ∀ j ∈ rest, j ≠ c → j = i ∨ j ∈ rest') : Laying F₀ F' r k c rest' := by
  have hsub : ∀ j b k', F' j b k' → F j b k' := fun j b k' hb => by
    by_cases hji : j = i
    · subst hji
      exact ((hi b k').mp hb).1
    · rwa [hsame j hji] at hb
  have hcc : F' c = F c := hsame c hic.symm
  refine ⟨?_, ?_, ?_, ?_, ?_, ?_, ?_, ?_⟩
  · rw [hcc]
    exact h.kind
  · rw [hcc]
    exact h.covers
  · rw [hcc]
    exact h.base
  · exact fun j b k' hj hb => h.old j b k' hj (hsub j b k' hb)
  · intro j b k' hj hr hbr hb
    by_cases hji : j = i
    · subst hji
      exact ((hi b k').mp hb).2 (h.covers b hbr)
    · exact h.clear j b k' hj (fun hin => (hrest j hin hj).elim hji hr) hbr (hsub j b k' hb)
  · intro b k' hb hv
    obtain ⟨j, hj⟩ := h.kept b k' hb hv
    by_cases hji : j = i
    · subst hji
      exact ⟨j, (hi b k').mpr ⟨hj, fun hc => hb (h.inside j b k' k hic hj hc)⟩⟩
    · exact ⟨j, by rwa [hsame j hji]⟩
  · exact fun j l b k' k'' hj hl hb hb' =>
      h.apart j l b k' k'' hj hl (hsub j b k' hb) (hsub l b k'' hb')
  · intro j b k' k'' hj hb hb'
    rw [hcc] at hb'
    exact h.inside j b k' k'' hj (hsub j b k' hb) hb'

/-- Besides `c` no one holds a point of `r` any more. -/
theorem finish (h : Laying F₀ F r k c rest)
    (hrest : ∀ j ∈ rest, j ≠ c → ∀ b k', b ∈ r → ¬ F j b k') : Laid F₀ F r k := by
  have hclear : ∀ j b k', j ≠ c → b ∈ r → ¬ F j b k' := fun j b k' hj hb => by
    by_cases hin : j ∈ rest
    · exact hrest j hin hj b k' hb
    · exact h.clear j b k' hj hin hb
  have hapart : ∀ j b k' k'', j ≠ c → F j b k' → ¬ F c b k'' := fun j b k' k'' hj hb hb' =>
    hclear j b k' hj (h.inside j b k' k'' hj hb hb') hb
  refine ⟨fun i j b k' k'' hi hj => ?_, fun b k' => ⟨fun ⟨i, hi⟩ => ?_, ?_⟩⟩
  · by_cases hic : i = c
    · subst hic
      by_cases hjc : j = i
      · subst hjc
        exact ⟨rfl, (h.kind b k' hi).trans (h.kind b k'' hj).symm⟩
      · exact absurd hi (hapart j b k'' k' hjc hj)
    · by_cases hjc : j = c
      · subst hjc
        exact absurd hj (hapart i b k' k'' hic hi)
      · exact h.apart i j b k' k'' hic hjc hi hj
  · by_cases hbr : b ∈ r
    · by_cases hic : i = c
      · subst hic
        exact Or.inl ⟨hbr, h.kind b k' hi⟩
      · exact absurd hi (hclear i b k' hic hbr)
    · refine Or.inr ⟨hbr, ?_⟩
      by_cases hic : i = c
      · subst hic
        obtain rfl := h.kind b k' hi
        exact (h.base b hi).resolve_left hbr
      · exact h.old i b k' hic hi
  · rintro (⟨hbr, rfl⟩ | ⟨hbr, hv⟩)
    · exact ⟨c, h.covers b hbr⟩
    · exact h.kept b k' hbr hv

/-- Some member holds all of `r`, then no other one but `c` holds a point of it. -/
theorem finish_of_holds (h : Laying F₀ F r k c rest) (hic : i ≠ c) (hi : ∀ b ∈ r, F i b k')
    (hj : j ≠ c) (hji : j ≠ i) (hb : b ∈ r) : ¬ F j b k'' := fun hF =>
  hji (h.apart j i b k'' k' hj hic hF (hi b hb)).1

/-- Giving up: where one member of another kind holds all that `c` does, the family
is what it was once `c` is out of it. -/
theorem abort (h : Laying F₀ F r k c rest) (hF : Apart F₀) (hic : i ≠ c) (hk : k' ≠ k)
    (hi : ∀ b, F c b k → F i b k') (hc : ∀ b k', ¬ F' c b k') (hsame : ∀ j, j ≠ c → F' j = F j) :
    Apart F' ∧ ∀ b k', View F' b k' ↔ View F₀ b k' := by
  have hout : ∀ j b l, F' j b l → j ≠ c ∧ F j b l := fun j b l hb => by
    have hjc : j ≠ c := by
      rintro rfl
      exact hc b l hb
    exact ⟨hjc, hsame j hjc ▸ hb⟩
  refine ⟨fun j l b k₁ k₂ hj hl => ?_, fun b l => ⟨fun ⟨j, hj⟩ => ?_, fun hv => ?_⟩⟩
  · obtain ⟨hjc, hj⟩ := hout j b k₁ hj
    obtain ⟨hlc, hl⟩ := hout l b k₂ hl
    exact h.apart j l b k₁ k₂ hjc hlc hj hl
  · obtain ⟨hjc, hj⟩ := hout j b l hj
    exact h.old j b l hjc hj
  · -- `c` holds `b` only where member `i` does, as the kind it had before
    by_cases hcb : F c b k
    · have hib := hi b hcb
      obtain rfl := hF.view hv (h.old i b k' hic hib)
      exact ⟨i, by rwa [hsame i hic]⟩
    · have hbr : b ∉ r := fun hbr => hcb (h.covers b hbr)
      obtain ⟨j, hj⟩ := h.kept b l hbr hv
      have hjc : j ≠ c := by
        rintro rfl
        obtain rfl := h.kind b l hj
        exact hcb hj
      exact ⟨j, by rwa [hsame j hjc]⟩

end Laying

/-- One member divides what it holds with a new one. -/
theorem Laid.divide (h : Laid F₀ F r k) (hn : ∀ b k', ¬ F n b k')
    (hin : ∀ b k', F i b k' ↔ F' i b k' ∨ F' n b k') (hne : ∀ b k' k'', F' i b k' → ¬ F' n b k'')
    (hsame : ∀ j, j ≠ i → j ≠ n → F' j = F j) : Laid F₀ F' r k := by
  -- what a member of the new family is for the old one
  have hold : ∀ j b l, F' j b l → (j = n → F i b l) ∧ (j ≠ n → F j b l) := fun j b l hb => by
    by_cases hjn : j = n
    · subst hjn
      exact ⟨fun _ => (hin b l).mpr (Or.inr hb), fun h => absurd rfl h⟩
    · refine ⟨fun h => absurd h hjn, fun _ => ?_⟩
      by_cases hji : j = i
      · subst hji
        exact (hin b l).mpr (Or.inl hb)
      · rwa [hsame j hji hjn] at hb
  have hview : ∀ b k', View F' b k' ↔ View F b k' := fun b k' => by
    constructor
    · rintro ⟨j, hj⟩
      by_cases hjn : j = n
      · exact ⟨i, (hold j b k' hj).1 hjn⟩
      · exact ⟨j, (hold j b k' hj).2 hjn⟩
    · rintro ⟨j, hj⟩
      by_cases hji : j = i
      · subst hji
        exact ((hin b k').mp hj).elim (fun hb => ⟨j, hb⟩) fun hb => ⟨n, hb⟩
      · have hjn : j ≠ n := by
          rintro rfl
          exact hn b k' hj
        exact ⟨j, by rwa [hsame j hji hjn]⟩
  refine ⟨fun j l b k₁ k₂ hj hl => ?_, fun b k' => (hview b k').trans (h.2 b k')⟩
  by_cases hjn : j = n
  · by_cases hln : l = n
    · subst hjn hln
      exact ⟨rfl, (h.1 i i b k₁ k₂ ((hold l b k₁ hj).1 rfl) ((hold l b k₂ hl).1 rfl)).2⟩
    · have := h.1 i l b k₁ k₂ ((hold j b k₁ hj).1 hjn) ((hold l b k₂ hl).2 hln)
      subst hjn
      obtain ⟨rfl, rfl⟩ := this
      exact absurd hj (hne b k₁ k₁ hl)
  · by_cases hln : l = n
    · have := h.1 j i b k₁ k₂ ((hold j b k₁ hj).2 hjn) ((hold l b k₂ hl).1 hln)
      subst hln
      obtain ⟨rfl, rfl⟩ := this
      exact absurd hl (hne b k₁ k₁ hj)
    · exact h.1 j l b k₁ k₂ ((hold j b k₁ hj).2 hjn) ((hold l b k₂ hl).2 hln)

/-- A member that holds more than all of `r` loses it, and keeps some of the rest for
itself and gives some to a new member. -/
theorem Laying.split (h : Laying F₀ F r k c rest) (hic : i ≠ c) (hni : n ≠ i)
    (hi : ∀ b ∈ r, F i b k') (hn : ∀ b k', ¬ F n b k')
    (hcut : ∀ b k', F i b k' ∧ ¬ F c b k ↔ F' i b k' ∨ F' n b k')
    (hne : ∀ b k' k'', F' i b k' → ¬ F' n b k'') (hsame : ∀ j, j ≠ i → j ≠ n → F' j = F j) :
    Laid F₀ F' r k := by
  classical
  let F₁ : ι → β → κ → Prop := fun j => if j = i then fun b l => F i b l ∧ ¬ F c b k else F j
  have hF₁i : F₁ i = fun b l => F i b l ∧ ¬ F c b k := if_pos rfl
  have hF₁ : ∀ j, j ≠ i → F₁ j = F j := fun j hj => if_neg hj
  have hcutting : Laying F₀ F₁ r k c {j | j ≠ i} :=
    h.cut hic (fun b l => by rw [hF₁i]) hF₁ fun j _ _ => or_iff_not_imp_left.mpr id
  have hlaid : Laid F₀ F₁ r k := hcutting.finish fun j hji hjc b l hb hl => by
    rw [hF₁ j hji] at hl
    exact h.finish_of_holds hic hi hjc hji hb hl
  refine hlaid.divide (n := n) (i := i) (fun b l hl => ?_) (fun b l => ?_) hne fun j hji hjn => ?_
  · rw [hF₁ n hni] at hl
    exact hn b l hl
  · rw [hF₁i]
    exact hcut b l
  · rw [hF₁ j hji]
    exact hsame j hji hjn

end LinuxKernel.Overlay
