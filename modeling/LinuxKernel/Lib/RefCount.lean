import Mathlib.Algebra.BigOperators.Group.Finset.Piecewise
import Mathlib.Algebra.Order.BigOperators.Group.Finset

/-!
# LinuxKernel.Lib.RefCount

**Reference counts that are exact.** A `Ledger` records who refers to which
frame: mapping slots (`entry`, with a flag for write access), table slots
(`table`) and a list of frames that are held but not entered anywhere
(`held`), together with the counter the program keeps (`cnt`).

`Ledger.Ok` says that the counter of every *counted* frame is the number of
its references, that tables and held frames are referred to once, that write
access is exclusive, and that all mappings of one frame agree on a tag
(`tag`), which bounds every count by the number of slots of one tag.

The rules below are the moves a memory manager makes. Each is stated as
agreement between two ledgers, so that a program only has to say what its
state looks like before and after, on the slots that matter.
-/

namespace LinuxKernel

universe u v w

/-! ### Counting references -/

section Refs

variable {ι : Type u} {φ : Type v} [DecidableEq φ]

/-- The number of slots of `S` that refer to `f`. -/
def refs (S : Finset ι) (g : ι → Option φ) (f : φ) : Nat :=
  (S.filter fun x => g x = some f).card

theorem refs_congr {S : Finset ι} {g g' : ι → Option φ} (h : ∀ x ∈ S, g x = g' x) (f : φ) :
    refs S g f = refs S g' f := by
  unfold refs
  congr 1
  exact Finset.filter_congr fun x hx => by rw [h x hx]

/-- A table of slots is counted from the first to the last. -/
theorem refs_eq_countP {n : Nat} (g : Fin n → Option φ) (f : φ) :
    refs Finset.univ g f = (List.finRange n).countP fun x => g x = some f := by
  rw [refs, Fin.univ_def, List.countP_eq_length_filter]
  congr 2

/-- Redirecting one slot moves one reference. -/
theorem refs_update {S : Finset ι} {g k : ι → Option φ} {x : ι} (hx : x ∈ S)
    (h : ∀ y ∈ S, y ≠ x → k y = g y) (f : φ) :
    refs S k f + (if g x = some f then 1 else 0) =
      refs S g f + (if k x = some f then 1 else 0) := by
  classical
  unfold refs
  rw [Finset.card_filter, Finset.card_filter, ← Finset.add_sum_erase S _ hx,
    ← Finset.add_sum_erase S (fun y => if g y = some f then 1 else 0) hx]
  have hrest : ∑ y ∈ S.erase x, (if k y = some f then 1 else 0) =
      ∑ y ∈ S.erase x, (if g y = some f then 1 else 0) :=
    Finset.sum_congr rfl fun y hy => by
      rw [h y (Finset.mem_of_mem_erase hy) (Finset.ne_of_mem_erase hy)]
  omega

theorem refs_eq_zero {S : Finset ι} {g : ι → Option φ} {f : φ} :
    refs S g f = 0 ↔ ∀ x ∈ S, g x ≠ some f := by
  simp [refs, Finset.filter_eq_empty_iff]

theorem refs_pos {S : Finset ι} {g : ι → Option φ} {f : φ} {x : ι} (hx : x ∈ S)
    (h : g x = some f) : 0 < refs S g f :=
  Finset.card_pos.mpr ⟨x, Finset.mem_filter.mpr ⟨hx, h⟩⟩

/-- Slots that do not refer to `f` may be left out. -/
theorem refs_of_subset {S S' : Finset ι} {g : ι → Option φ} {f : φ} (hsub : S ⊆ S')
    (h : ∀ x ∈ S', x ∉ S → g x ≠ some f) : refs S' g f = refs S g f := by
  unfold refs
  congr 1
  ext x
  simp only [Finset.mem_filter]
  refine ⟨fun ⟨hx, hg⟩ => ⟨?_, hg⟩, fun ⟨hx, hg⟩ => ⟨hsub hx, hg⟩⟩
  by_contra hxS
  exact h x hx hxS hg

/-- At most one reference means at most one slot. -/
theorem eq_of_refs_le_one {S : Finset ι} {g : ι → Option φ} {f : φ} (hle : refs S g f ≤ 1)
    {x y : ι} (hx : x ∈ S) (hy : y ∈ S) (hgx : g x = some f) (hgy : g y = some f) : x = y :=
  Finset.card_le_one.mp hle x (Finset.mem_filter.mpr ⟨hx, hgx⟩) y
    (Finset.mem_filter.mpr ⟨hy, hgy⟩)

/-- References told apart by a key in `K` are at most `K.card` many. -/
theorem refs_le_card {κ : Type w} {S : Finset ι} {g : ι → Option φ} {f : φ} {K : Finset κ}
    (key : ι → κ) (hK : ∀ x ∈ S, key x ∈ K)
    (hinj : ∀ x ∈ S, ∀ y ∈ S, g x = some f → g y = some f → key x = key y → x = y) :
    refs S g f ≤ K.card := by
  refine Finset.card_le_card_of_injOn key (fun x hx => hK x (Finset.mem_filter.mp hx).1) ?_
  intro x hx y hy hxy
  have hx' := Finset.mem_filter.mp hx
  have hy' := Finset.mem_filter.mp hy
  exact hinj x hx'.1 y hy'.1 hx'.2 hy'.2 hxy

end Refs

/-! ### The ledger -/

/-- Who refers to which frame. `entry x = some (f, w)`: slot `x` maps `f`, with
write access if `w`. -/
structure Ledger (ι τ φ : Type u) where
  entry : ι → Option (φ × Bool)
  table : τ → Option φ
  held : List φ
  cnt : φ → Nat

namespace Ledger

variable {ι τ φ κ : Type u} [DecidableEq φ]

/-- The frame a slot maps. -/
def maps (L : Ledger ι τ φ) (x : ι) : Option φ := (L.entry x).map Prod.fst

variable (S : Finset ι) (T : Finset τ) (counted : φ → Prop) (tag : ι → κ)

structure Ok (L : Ledger ι τ φ) : Prop where
  /-- A table is a counted frame with one reference. -/
  table : ∀ t ∈ T, ∀ f, L.table t = some f → counted f ∧ L.cnt f = 1
  /-- So is a held frame. -/
  held : ∀ f ∈ L.held, counted f ∧ L.cnt f = 1
  /-- Write access is exclusive. -/
  write : ∀ x ∈ S, ∀ f, L.entry x = some (f, true) → counted f ∧ L.cnt f = 1
  /-- The mappings of a counted frame agree on their tag. -/
  tag : ∀ x ∈ S, ∀ y ∈ S, ∀ f, counted f → L.maps x = some f → L.maps y = some f → tag x = tag y
  /-- The counter is the number of references. -/
  exact : ∀ f, counted f →
    L.cnt f = refs S L.maps f + refs T L.table f + L.held.count f

variable {S T counted tag} {L L' : Ledger ι τ φ}

namespace Ok

variable {x y : ι} {t t' : τ} {f : φ}

theorem table_unmapped (h : Ok S T counted tag L) (ht : t ∈ T) (hf : L.table t = some f)
    (hx : x ∈ S) : L.maps x ≠ some f := by
  intro hxf
  obtain ⟨hcf, h1⟩ := h.table t ht f hf
  have := h.exact f hcf
  have := refs_pos hx hxf
  have := refs_pos ht hf
  omega

theorem table_unheld (h : Ok S T counted tag L) (ht : t ∈ T) (hf : L.table t = some f) :
    f ∉ L.held := by
  intro hmem
  obtain ⟨hcf, h1⟩ := h.table t ht f hf
  have := h.exact f hcf
  have := List.count_pos_iff.mpr hmem
  have := refs_pos ht hf
  omega

theorem table_inj (h : Ok S T counted tag L) (ht : t ∈ T) (ht' : t' ∈ T)
    (hf : L.table t = some f) (hf' : L.table t' = some f) : t = t' := by
  obtain ⟨hcf, h1⟩ := h.table t ht f hf
  have := h.exact f hcf
  exact eq_of_refs_le_one (by omega) ht ht' hf hf'

theorem held_unmapped (h : Ok S T counted tag L) (hf : f ∈ L.held) (hx : x ∈ S) :
    L.maps x ≠ some f := by
  intro hxf
  obtain ⟨hcf, h1⟩ := h.held f hf
  have := h.exact f hcf
  have := refs_pos hx hxf
  have := List.count_pos_iff.mpr hf
  omega

theorem held_no_table (h : Ok S T counted tag L) (hf : f ∈ L.held) (ht : t ∈ T) :
    L.table t ≠ some f := fun htf => h.table_unheld ht htf hf

theorem held_count (h : Ok S T counted tag L) (hf : f ∈ L.held) : L.held.count f = 1 := by
  obtain ⟨hcf, h1⟩ := h.held f hf
  have := h.exact f hcf
  have := List.count_pos_iff.mpr hf
  omega

/-- A mapped frame has a positive count. -/
theorem cnt_pos (h : Ok S T counted tag L) (hx : x ∈ S) (hxf : L.maps x = some f)
    (hcf : counted f) : 0 < L.cnt f := by
  have := h.exact f hcf
  have := refs_pos hx hxf
  omega

/-- A mapped frame with one reference has one mapping. -/
theorem mapping_unique (h : Ok S T counted tag L) (hcf : counted f) (h1 : L.cnt f ≤ 1)
    (hx : x ∈ S) (hy : y ∈ S) (hxf : L.maps x = some f) (hyf : L.maps y = some f) : x = y := by
  have := h.exact f hcf
  exact eq_of_refs_le_one (by omega) hx hy hxf hyf

/-- A mapped frame is neither held nor a table: its count is its mappings. -/
theorem cnt_of_mapped (h : Ok S T counted tag L) (hx : x ∈ S) (hxf : L.maps x = some f)
    (hcf : counted f) : L.cnt f = refs S L.maps f := by
  have hheld : L.held.count f = 0 :=
    List.count_eq_zero.mpr fun hmem => h.held_unmapped hmem hx hxf
  have htab : refs T L.table f = 0 :=
    refs_eq_zero.mpr fun t ht htf => h.table_unmapped ht htf hx hxf
  have := h.exact f hcf
  omega

/-- Slots of one tag told apart by a key bound every count of a mapped frame. -/
theorem cnt_le (h : Ok S T counted tag L) {κ' : Type w} {K : Finset κ'} (key : ι → κ')
    (hK : ∀ x ∈ S, key x ∈ K)
    (hinj : ∀ x ∈ S, ∀ y ∈ S, tag x = tag y → key x = key y → x = y)
    (hx : x ∈ S) (hxf : L.maps x = some f) (hcf : counted f) : L.cnt f ≤ K.card := by
  rw [h.cnt_of_mapped hx hxf hcf]
  exact refs_le_card key hK fun a ha b hb hfa hfb hab =>
    hinj a ha b hb (h.tag a ha b hb f hcf hfa hfb) hab

/-- A free frame has no reference at all. -/
theorem free_unreferenced (h : Ok S T counted tag L) (hcf : counted f) (h0 : L.cnt f = 0) :
    (∀ x ∈ S, L.maps x ≠ some f) ∧ (∀ t ∈ T, L.table t ≠ some f) ∧ f ∉ L.held := by
  have := h.exact f hcf
  exact ⟨refs_eq_zero.mp (by omega), refs_eq_zero.mp (by omega),
    List.count_eq_zero.mp (by omega)⟩

end Ok

/-! ### Moves -/

/-- Two ledgers that look the same on the slots and the counted frames. -/
theorem Ok.congr (h : Ok S T counted tag L) (he : ∀ x ∈ S, L'.entry x = L.entry x)
    (ht : ∀ t ∈ T, L'.table t = L.table t) (hh : L'.held = L.held)
    (hc : ∀ f, counted f → L'.cnt f = L.cnt f) : Ok S T counted tag L' := by
  have hm : ∀ x ∈ S, L'.maps x = L.maps x := fun x hx => by rw [maps, he x hx, maps]
  refine ⟨?_, ?_, ?_, ?_, ?_⟩
  · intro t htT f hf
    obtain ⟨hcf, h1⟩ := h.table t htT f (ht t htT ▸ hf)
    exact ⟨hcf, (hc f hcf).trans h1⟩
  · intro f hf
    obtain ⟨hcf, h1⟩ := h.held f (hh ▸ hf)
    exact ⟨hcf, (hc f hcf).trans h1⟩
  · intro x hx f hf
    obtain ⟨hcf, h1⟩ := h.write x hx f (he x hx ▸ hf)
    exact ⟨hcf, (hc f hcf).trans h1⟩
  · intro x hx y hy f hcf hxf hyf
    exact h.tag x hx y hy f hcf (hm x hx ▸ hxf) (hm y hy ▸ hyf)
  · intro f hcf
    rw [hc f hcf, refs_congr hm, refs_congr ht, hh]
    exact h.exact f hcf

/-- A free frame is allocated: it becomes held. -/
theorem Ok.alloc {f : φ} (h : Ok S T counted tag L) (hcf : counted f) (h0 : L.cnt f = 0)
    (he : ∀ x ∈ S, L'.entry x = L.entry x) (ht : ∀ t ∈ T, L'.table t = L.table t)
    (hh : L'.held = f :: L.held) (hf : L'.cnt f = 1)
    (hc : ∀ g, counted g → g ≠ f → L'.cnt g = L.cnt g) : Ok S T counted tag L' := by
  obtain ⟨hunmapped, hnotable, hunheld⟩ := h.free_unreferenced hcf h0
  have hm : ∀ x ∈ S, L'.maps x = L.maps x := fun x hx => by rw [maps, he x hx, maps]
  refine ⟨?_, ?_, ?_, ?_, ?_⟩
  · intro t htT g hg
    rw [ht t htT] at hg
    obtain ⟨hcg, h1⟩ := h.table t htT g hg
    exact ⟨hcg, (hc g hcg fun hgf => hnotable t htT (hgf ▸ hg)).trans h1⟩
  · intro g hg
    rw [hh, List.mem_cons] at hg
    rcases hg with rfl | hg
    · exact ⟨hcf, hf⟩
    · obtain ⟨hcg, h1⟩ := h.held g hg
      exact ⟨hcg, (hc g hcg fun hgf => hunheld (hgf ▸ hg)).trans h1⟩
  · intro x hx g hg
    rw [he x hx] at hg
    obtain ⟨hcg, h1⟩ := h.write x hx g hg
    refine ⟨hcg, (hc g hcg fun hgf => hunmapped x hx ?_).trans h1⟩
    simp [maps, hg, hgf]
  · intro x hx y hy g hcg hxg hyg
    exact h.tag x hx y hy g hcg (hm x hx ▸ hxg) (hm y hy ▸ hyg)
  · intro g hcg
    rw [refs_congr hm, refs_congr ht, hh]
    have hex := h.exact g hcg
    by_cases hgf : g = f
    · subst hgf
      rw [List.count_cons_self]
      omega
    · rw [List.count_cons_of_ne (Ne.symm hgf), hc g hcg hgf]
      exact hex

/-- A held frame is given back. -/
theorem Ok.drop {f : φ} (h : Ok S T counted tag L) (hf : f ∈ L.held)
    (he : ∀ x ∈ S, L'.entry x = L.entry x) (ht : ∀ t ∈ T, L'.table t = L.table t)
    (hh : L'.held = L.held.erase f) (hf0 : L'.cnt f = 0)
    (hc : ∀ g, counted g → g ≠ f → L'.cnt g = L.cnt g) : Ok S T counted tag L' := by
  have hm : ∀ x ∈ S, L'.maps x = L.maps x := fun x hx => by rw [maps, he x hx, maps]
  have hone := h.held_count hf
  have hgone : f ∉ L.held.erase f := by
    rw [← List.count_eq_zero, List.count_erase_self]
    omega
  refine ⟨?_, ?_, ?_, ?_, ?_⟩
  · intro t htT g hg
    rw [ht t htT] at hg
    obtain ⟨hcg, h1⟩ := h.table t htT g hg
    exact ⟨hcg, (hc g hcg fun hgf => h.held_no_table hf htT (hgf ▸ hg)).trans h1⟩
  · intro g hg
    rw [hh] at hg
    obtain ⟨hcg, h1⟩ := h.held g (List.mem_of_mem_erase hg)
    exact ⟨hcg, (hc g hcg fun hgf => hgone (hgf ▸ hg)).trans h1⟩
  · intro x hx g hg
    rw [he x hx] at hg
    obtain ⟨hcg, h1⟩ := h.write x hx g hg
    refine ⟨hcg, (hc g hcg fun hgf => h.held_unmapped hf hx ?_).trans h1⟩
    simp [maps, hg, hgf]
  · intro x hx y hy g hcg hxg hyg
    exact h.tag x hx y hy g hcg (hm x hx ▸ hxg) (hm y hy ▸ hyg)
  · intro g hcg
    rw [refs_congr hm, refs_congr ht, hh]
    have hex := h.exact g hcg
    by_cases hgf : g = f
    · subst hgf
      have := (h.held g hf).2
      rw [List.count_erase_self]
      omega
    · rw [List.count_erase_of_ne hgf, hc g hcg hgf]
      exact hex

/-- A held frame becomes the table of an empty table slot. -/
theorem Ok.install {f : φ} {t : τ} (h : Ok S T counted tag L) (hf : f ∈ L.held) (htT : t ∈ T)
    (hnone : L.table t = none) (he : ∀ x ∈ S, L'.entry x = L.entry x)
    (ht : L'.table t = some f) (ht' : ∀ t' ∈ T, t' ≠ t → L'.table t' = L.table t')
    (hh : L'.held = L.held.erase f) (hc : ∀ g, counted g → L'.cnt g = L.cnt g) :
    Ok S T counted tag L' := by
  have hm : ∀ x ∈ S, L'.maps x = L.maps x := fun x hx => by rw [maps, he x hx, maps]
  obtain ⟨hcf, hf1⟩ := h.held f hf
  have hone := h.held_count hf
  refine ⟨?_, ?_, ?_, ?_, ?_⟩
  · intro t' ht'T g hg
    by_cases htt : t' = t
    · subst htt
      obtain rfl : f = g := Option.some.inj (ht.symm.trans hg)
      exact ⟨hcf, (hc f hcf).trans hf1⟩
    · rw [ht' t' ht'T htt] at hg
      obtain ⟨hcg, h1⟩ := h.table t' ht'T g hg
      exact ⟨hcg, (hc g hcg).trans h1⟩
  · intro g hg
    rw [hh] at hg
    obtain ⟨hcg, h1⟩ := h.held g (List.mem_of_mem_erase hg)
    exact ⟨hcg, (hc g hcg).trans h1⟩
  · intro x hx g hg
    obtain ⟨hcg, h1⟩ := h.write x hx g (he x hx ▸ hg)
    exact ⟨hcg, (hc g hcg).trans h1⟩
  · intro x hx y hy g hcg hxg hyg
    exact h.tag x hx y hy g hcg (hm x hx ▸ hxg) (hm y hy ▸ hyg)
  · intro g hcg
    have hex := h.exact g hcg
    have hmove := refs_update htT (fun t' h1 h2 => ht' t' h1 h2) g
    rw [hnone, ht] at hmove
    rw [hc g hcg, refs_congr hm, hh]
    by_cases hgf : g = f
    · subst hgf
      rw [List.count_erase_self]
      simp at hmove
      omega
    · rw [List.count_erase_of_ne hgf]
      simp [Ne.symm hgf] at hmove
      omega

/-- A held frame is mapped by an empty slot. -/
theorem Ok.map {f : φ} {w : Bool} {x : ι} (h : Ok S T counted tag L) (hf : f ∈ L.held)
    (hx : x ∈ S) (hnone : L.entry x = none) (he : L'.entry x = some (f, w))
    (he' : ∀ y ∈ S, y ≠ x → L'.entry y = L.entry y) (ht : ∀ t ∈ T, L'.table t = L.table t)
    (hh : L'.held = L.held.erase f) (hc : ∀ g, counted g → L'.cnt g = L.cnt g) :
    Ok S T counted tag L' := by
  have hm : ∀ y ∈ S, y ≠ x → L'.maps y = L.maps y := fun y hy hyx => by
    rw [maps, he' y hy hyx, maps]
  have hmx : L'.maps x = some f := by simp [maps, he]
  obtain ⟨hcf, hf1⟩ := h.held f hf
  have hone := h.held_count hf
  have hold : ∀ y ∈ S, y ≠ x → L'.maps y ≠ some f := fun y hy hyx => by
    rw [hm y hy hyx]; exact h.held_unmapped hf hy
  refine ⟨?_, ?_, ?_, ?_, ?_⟩
  · intro t htT g hg
    obtain ⟨hcg, h1⟩ := h.table t htT g (ht t htT ▸ hg)
    exact ⟨hcg, (hc g hcg).trans h1⟩
  · intro g hg
    rw [hh] at hg
    obtain ⟨hcg, h1⟩ := h.held g (List.mem_of_mem_erase hg)
    exact ⟨hcg, (hc g hcg).trans h1⟩
  · intro y hy g hg
    by_cases hyx : y = x
    · subst hyx
      rw [he] at hg
      cases hg
      exact ⟨hcf, (hc f hcf).trans hf1⟩
    · obtain ⟨hcg, h1⟩ := h.write y hy g (he' y hy hyx ▸ hg)
      exact ⟨hcg, (hc g hcg).trans h1⟩
  · intro y hy z hz g hcg hyg hzg
    by_cases hyx : y = x <;> by_cases hzx : z = x
    · rw [hyx, hzx]
    · subst hyx
      obtain rfl : f = g := Option.some.inj (hmx.symm.trans hyg)
      exact absurd hzg (hold z hz hzx)
    · subst hzx
      obtain rfl : f = g := Option.some.inj (hmx.symm.trans hzg)
      exact absurd hyg (hold y hy hyx)
    · exact h.tag y hy z hz g hcg (hm y hy hyx ▸ hyg) (hm z hz hzx ▸ hzg)
  · intro g hcg
    have hex := h.exact g hcg
    have hmove := refs_update hx hm g
    rw [hmx, show L.maps x = none by simp [maps, hnone]] at hmove
    rw [hc g hcg, refs_congr ht, hh]
    by_cases hgf : g = f
    · subst hgf
      rw [List.count_erase_self]
      simp at hmove
      omega
    · rw [List.count_erase_of_ne hgf]
      simp [Ne.symm hgf] at hmove
      omega

/-- A mapped counted frame is mapped by a second slot of the same tag; both
lose write access. -/
theorem Ok.share {f : φ} {w : Bool} {x y : ι} (h : Ok S T counted tag L) (hcf : counted f)
    (hx : x ∈ S) (hxf : L.entry x = some (f, w)) (hy : y ∈ S) (hynone : L.entry y = none)
    (htag : tag x = tag y) (hex : L'.entry x = some (f, false)) (hey : L'.entry y = some (f, false))
    (he' : ∀ z ∈ S, z ≠ x → z ≠ y → L'.entry z = L.entry z) (ht : ∀ t ∈ T, L'.table t = L.table t)
    (hh : L'.held = L.held) (hf : L'.cnt f = L.cnt f + 1)
    (hc : ∀ g, counted g → g ≠ f → L'.cnt g = L.cnt g) : Ok S T counted tag L' := by
  have hmxL : L.maps x = some f := by simp [maps, hxf]
  have hmx : L'.maps x = some f := by simp [maps, hex]
  have hmy : L'.maps y = some f := by simp [maps, hey]
  have hxy : x ≠ y := by rintro rfl; simp [hxf] at hynone
  have hm : ∀ z ∈ S, z ≠ y → L'.maps z = L.maps z := by
    intro z hz hzy
    by_cases hzx : z = x
    · rw [hzx, hmx, hmxL]
    · rw [maps, he' z hz hzx hzy, maps]
  refine ⟨?_, ?_, ?_, ?_, ?_⟩
  · intro t htT g hg
    rw [ht t htT] at hg
    obtain ⟨hcg, h1⟩ := h.table t htT g hg
    exact ⟨hcg, (hc g hcg fun hgf => h.table_unmapped htT (hgf ▸ hg) hx hmxL).trans h1⟩
  · intro g hg
    rw [hh] at hg
    obtain ⟨hcg, h1⟩ := h.held g hg
    exact ⟨hcg, (hc g hcg fun hgf => h.held_unmapped (hgf ▸ hg) hx hmxL).trans h1⟩
  · intro z hz g hg
    have hzx : z ≠ x := by rintro rfl; rw [hex] at hg; cases hg
    have hzy : z ≠ y := by rintro rfl; rw [hey] at hg; cases hg
    rw [he' z hz hzx hzy] at hg
    obtain ⟨hcg, h1⟩ := h.write z hz g hg
    refine ⟨hcg, (hc g hcg ?_).trans h1⟩
    rintro rfl
    exact hzx (h.mapping_unique hcg (le_of_eq h1) hz hx (by simp [maps, hg]) hmxL)
  · intro a ha b hb g hcg hag hbg
    have hback : ∀ c ∈ S, L'.maps c = some g → ∃ c' ∈ S, L.maps c' = some g ∧ tag c' = tag c := by
      intro c hcS hcg'
      by_cases hcy : c = y
      · subst hcy
        obtain rfl : f = g := Option.some.inj (hmy.symm.trans hcg')
        exact ⟨x, hx, hmxL, htag⟩
      · exact ⟨c, hcS, hm c hcS hcy ▸ hcg', rfl⟩
    obtain ⟨a', ha', hag', hta⟩ := hback a ha hag
    obtain ⟨b', hb', hbg', htb⟩ := hback b hb hbg
    rw [← hta, ← htb]
    exact h.tag a' ha' b' hb' g hcg hag' hbg'
  · intro g hcg
    have hexg := h.exact g hcg
    have hmove := refs_update hy hm g
    rw [hmy, show L.maps y = none by simp [maps, hynone]] at hmove
    rw [refs_congr ht, hh]
    by_cases hgf : g = f
    · subst hgf
      simp at hmove
      omega
    · rw [hc g hcg hgf]
      simp [Ne.symm hgf] at hmove
      omega

/-- A slot starts to map an uncounted frame, without write access. -/
theorem Ok.mapUncounted {f : φ} {x : ι} (h : Ok S T counted tag L) (hcf : ¬ counted f)
    (hx : x ∈ S) (hnone : L.entry x = none) (he : L'.entry x = some (f, false))
    (he' : ∀ y ∈ S, y ≠ x → L'.entry y = L.entry y) (ht : ∀ t ∈ T, L'.table t = L.table t)
    (hh : L'.held = L.held) (hc : ∀ g, counted g → L'.cnt g = L.cnt g) :
    Ok S T counted tag L' := by
  have hm : ∀ y ∈ S, y ≠ x → L'.maps y = L.maps y := fun y hy hyx => by
    rw [maps, he' y hy hyx, maps]
  have hmx : L'.maps x = some f := by simp [maps, he]
  have hne : ∀ y ∈ S, ∀ g, counted g → L'.maps y = some g → y ≠ x := by
    rintro y hy g hcg hyg rfl
    exact hcf (Option.some.inj (hmx.symm.trans hyg) ▸ hcg)
  refine ⟨?_, ?_, ?_, ?_, ?_⟩
  · intro t htT g hg
    obtain ⟨hcg, h1⟩ := h.table t htT g (ht t htT ▸ hg)
    exact ⟨hcg, (hc g hcg).trans h1⟩
  · intro g hg
    obtain ⟨hcg, h1⟩ := h.held g (hh ▸ hg)
    exact ⟨hcg, (hc g hcg).trans h1⟩
  · intro y hy g hg
    have hyx : y ≠ x := by rintro rfl; rw [he] at hg; cases hg
    obtain ⟨hcg, h1⟩ := h.write y hy g (he' y hy hyx ▸ hg)
    exact ⟨hcg, (hc g hcg).trans h1⟩
  · intro y hy z hz g hcg hyg hzg
    exact h.tag y hy z hz g hcg (hm y hy (hne y hy g hcg hyg) ▸ hyg)
      (hm z hz (hne z hz g hcg hzg) ▸ hzg)
  · intro g hcg
    have hexg := h.exact g hcg
    have hmove := refs_update hx hm g
    have hgf : f ≠ g := fun hfg => hcf (hfg ▸ hcg)
    rw [hmx, show L.maps x = none by simp [maps, hnone]] at hmove
    rw [hc g hcg, refs_congr ht, hh]
    simp [hgf] at hmove
    omega

/-- A slot is cleared; a counted frame loses one reference. -/
theorem Ok.unmap {x : ι} (h : Ok S T counted tag L) (hx : x ∈ S) (he : L'.entry x = none)
    (he' : ∀ y ∈ S, y ≠ x → L'.entry y = L.entry y) (ht : ∀ t ∈ T, L'.table t = L.table t)
    (hh : L'.held = L.held)
    (hf : ∀ f, counted f → L.maps x = some f → L'.cnt f = L.cnt f - 1)
    (hc : ∀ g, counted g → L.maps x ≠ some g → L'.cnt g = L.cnt g) : Ok S T counted tag L' := by
  have hm : ∀ y ∈ S, y ≠ x → L'.maps y = L.maps y := fun y hy hyx => by
    rw [maps, he' y hy hyx, maps]
  have hmx : L'.maps x = none := by simp [maps, he]
  have hne : ∀ y ∈ S, ∀ g, L'.maps y = some g → y ≠ x := by
    rintro y hy g hyg rfl
    rw [hmx] at hyg
    cases hyg
  refine ⟨?_, ?_, ?_, ?_, ?_⟩
  · intro t htT g hg
    rw [ht t htT] at hg
    obtain ⟨hcg, h1⟩ := h.table t htT g hg
    exact ⟨hcg, (hc g hcg (h.table_unmapped htT hg hx)).trans h1⟩
  · intro g hg
    rw [hh] at hg
    obtain ⟨hcg, h1⟩ := h.held g hg
    exact ⟨hcg, (hc g hcg (h.held_unmapped hg hx)).trans h1⟩
  · intro y hy g hg
    have hyx := hne y hy g (by simp [maps, hg])
    rw [he' y hy hyx] at hg
    obtain ⟨hcg, h1⟩ := h.write y hy g hg
    refine ⟨hcg, (hc g hcg fun hxg => hyx ?_).trans h1⟩
    exact h.mapping_unique hcg (le_of_eq h1) hy hx (by simp [maps, hg]) hxg
  · intro y hy z hz g hcg hyg hzg
    exact h.tag y hy z hz g hcg (hm y hy (hne y hy g hyg) ▸ hyg) (hm z hz (hne z hz g hzg) ▸ hzg)
  · intro g hcg
    have hexg := h.exact g hcg
    have hmove := refs_update hx hm g
    rw [hmx] at hmove
    rw [refs_congr ht, hh]
    by_cases hxg : L.maps x = some g
    · have := refs_pos hx hxg
      rw [hf g hcg hxg]
      simp [hxg] at hmove
      omega
    · rw [hc g hcg hxg]
      simp [hxg] at hmove
      omega

/-- A table slot is cleared and its frame given back. -/
theorem Ok.remove {f : φ} {t : τ} (h : Ok S T counted tag L) (htT : t ∈ T)
    (htf : L.table t = some f) (he : ∀ x ∈ S, L'.entry x = L.entry x) (ht : L'.table t = none)
    (ht' : ∀ t' ∈ T, t' ≠ t → L'.table t' = L.table t') (hh : L'.held = L.held)
    (hf : L'.cnt f = 0) (hc : ∀ g, counted g → g ≠ f → L'.cnt g = L.cnt g) :
    Ok S T counted tag L' := by
  have hm : ∀ x ∈ S, L'.maps x = L.maps x := fun x hx => by rw [maps, he x hx, maps]
  refine ⟨?_, ?_, ?_, ?_, ?_⟩
  · intro t' ht'T g hg
    have htt : t' ≠ t := by rintro rfl; rw [ht] at hg; cases hg
    rw [ht' t' ht'T htt] at hg
    obtain ⟨hcg, h1⟩ := h.table t' ht'T g hg
    exact ⟨hcg, (hc g hcg fun hgf => htt (h.table_inj ht'T htT (hgf ▸ hg) htf)).trans h1⟩
  · intro g hg
    rw [hh] at hg
    obtain ⟨hcg, h1⟩ := h.held g hg
    exact ⟨hcg, (hc g hcg fun hgf => h.held_no_table (hgf ▸ hg) htT htf).trans h1⟩
  · intro x hx g hg
    rw [he x hx] at hg
    obtain ⟨hcg, h1⟩ := h.write x hx g hg
    refine ⟨hcg, (hc g hcg fun hgf => h.table_unmapped htT htf hx ?_).trans h1⟩
    simp [maps, hg, hgf]
  · intro x hx y hy g hcg hxg hyg
    exact h.tag x hx y hy g hcg (hm x hx ▸ hxg) (hm y hy ▸ hyg)
  · intro g hcg
    have hexg := h.exact g hcg
    have hmove := refs_update htT (fun t' h1 h2 => ht' t' h1 h2) g
    rw [htf, ht] at hmove
    rw [refs_congr hm, hh]
    by_cases hgf : g = f
    · subst hgf
      have := (h.table t htT g htf).2
      simp at hmove
      omega
    · rw [hc g hcg hgf]
      simp [Ne.symm hgf] at hmove
      omega

/-- The write flag of one mapping changes; write access needs a count of one. -/
theorem Ok.flag {f : φ} {w w' : Bool} {x : ι} (h : Ok S T counted tag L) (hx : x ∈ S)
    (hxf : L.entry x = some (f, w)) (he : L'.entry x = some (f, w'))
    (hw : w' = true → counted f ∧ L.cnt f = 1)
    (he' : ∀ y ∈ S, y ≠ x → L'.entry y = L.entry y) (ht : ∀ t ∈ T, L'.table t = L.table t)
    (hh : L'.held = L.held) (hc : ∀ g, counted g → L'.cnt g = L.cnt g) :
    Ok S T counted tag L' := by
  have hm : ∀ y ∈ S, L'.maps y = L.maps y := by
    intro y hy
    by_cases hyx : y = x
    · rw [hyx, maps, he, maps, hxf]; rfl
    · rw [maps, he' y hy hyx, maps]
  refine ⟨?_, ?_, ?_, ?_, ?_⟩
  · intro t htT g hg
    obtain ⟨hcg, h1⟩ := h.table t htT g (ht t htT ▸ hg)
    exact ⟨hcg, (hc g hcg).trans h1⟩
  · intro g hg
    obtain ⟨hcg, h1⟩ := h.held g (hh ▸ hg)
    exact ⟨hcg, (hc g hcg).trans h1⟩
  · intro y hy g hg
    by_cases hyx : y = x
    · subst hyx
      rw [he] at hg
      cases hg
      obtain ⟨hcf, h1⟩ := hw rfl
      exact ⟨hcf, (hc f hcf).trans h1⟩
    · obtain ⟨hcg, h1⟩ := h.write y hy g (he' y hy hyx ▸ hg)
      exact ⟨hcg, (hc g hcg).trans h1⟩
  · intro y hy z hz g hcg hyg hzg
    exact h.tag y hy z hz g hcg (hm y hy ▸ hyg) (hm z hz ▸ hzg)
  · intro g hcg
    rw [hc g hcg, refs_congr hm, refs_congr ht, hh]
    exact h.exact g hcg

end Ledger

end LinuxKernel
