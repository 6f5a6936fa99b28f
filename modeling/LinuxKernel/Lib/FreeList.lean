import Mathlib.Data.Finset.Card
import LinuxKernel.Lib.Chain

/-!
# LinuxKernel.Lib.FreeList

**A free list that is kept in the free cells themselves.** Some of the free cells are headers:
a header holds the numbers of up to `cap` other free cells, and that of the next header (0 in
the last one). `FreeList cap header first S` says that the headers from `first` on hold
exactly the cells of `S`, each once.
-/

namespace LinuxKernel

/-- The contents of a header cell. The entries are a stack, its top first. -/
structure Header where
  free : List Nat
  next : Nat
  deriving Repr, DecidableEq

namespace FreeList

/-- A number as a link. -/
def link (n : Nat) : Option Nat := if n = 0 then none else some n

def nextHeader (header : Nat → Header) (h : Nat) : Option Nat := link (header h).next

/-- The headers and what they hold. -/
def members (header : Nat → Header) (hs : List Nat) : List Nat :=
  hs.flatMap fun h => h :: (header h).free

end FreeList

open FreeList

structure FreeList (cap : Nat) (header : Nat → Header) (first : Nat) (S : Finset Nat) : Prop where
  headers : ∃ hs, Chain (nextHeader header) (link first) hs ∧
    (∀ h ∈ hs, (header h).free.length ≤ cap) ∧ (members header hs).Nodup ∧
    (members header hs).toFinset = S

namespace FreeList

variable {cap first b j : Nat} {header header' : Nat → Header} {hs l : List Nat} {S : Finset Nat}

theorem link_eq_some {n : Nat} : link n = some b ↔ n = b ∧ n ≠ 0 := by
  unfold link
  split
  · next h => simp [h]
  · next h => simp [h]

theorem link_eq_none {n : Nat} : link n = none ↔ n = 0 := by
  unfold link
  split <;> simp_all

theorem members_cons (header : Nat → Header) (h : Nat) (hs : List Nat) :
    members header (h :: hs) = h :: ((header h).free ++ members header hs) := by
  simp [members]

theorem mem_members {h : Nat} (hh : h ∈ hs) : h ∈ members header hs :=
  List.mem_flatMap.mpr ⟨h, hh, List.mem_cons_self⟩

theorem members_congr (hsame : ∀ h ∈ hs, header' h = header h) :
    members header' hs = members header hs := by
  unfold members
  refine List.flatMap_congr fun h hh => ?_
  rw [hsame h hh]

/-- Headers that agree on the cells of the list. -/
theorem congr (hl : FreeList cap header first S) (hsame : ∀ b ∈ S, header' b = header b) :
    FreeList cap header' first S := by
  obtain ⟨hs, hc, hcap, hnd, rfl⟩ := hl
  have hhs : ∀ h ∈ hs, header' h = header h := fun h hh =>
    hsame h (List.mem_toFinset.mpr (mem_members hh))
  refine ⟨hs, hc.congr fun h hh => ?_, fun h hh => ?_, ?_, ?_⟩
  · rw [nextHeader, nextHeader, hhs h hh]
  · rw [hhs h hh]
    exact hcap h hh
  · rw [members_congr hhs]
    exact hnd
  · rw [members_congr hhs]

/-- The list of a first header. -/
theorem cons_iff (hf : first ≠ 0) :
    FreeList cap header first S ↔
      ∃ T, FreeList cap header (header first).next T ∧ (header first).free.length ≤ cap ∧
        (first :: (header first).free).Nodup ∧
        Disjoint (first :: (header first).free).toFinset T ∧
        S = (first :: (header first).free).toFinset ∪ T := by
  constructor
  · rintro ⟨hs, hc, hcap, hnd, rfl⟩
    cases hs with
    | nil => exact absurd (link_eq_none.mp hc) hf
    | cons h hs =>
        obtain ⟨hh, hrest⟩ := hc
        obtain rfl := (link_eq_some.mp hh).1
        rw [members_cons, ← List.cons_append, List.nodup_append'] at hnd
        refine ⟨(members header hs).toFinset,
          ⟨hs, hrest, fun h hh => hcap h (List.mem_cons_of_mem _ hh), hnd.2.1, rfl⟩,
          hcap first List.mem_cons_self, hnd.1, ?_, ?_⟩
        · rw [List.disjoint_toFinset_iff_disjoint]
          exact hnd.2.2
        · rw [members_cons, ← List.cons_append, List.toFinset_append]
  · rintro ⟨T, ⟨hs, hc, hcap, hnd, rfl⟩, hfirst, hnd', hdis, rfl⟩
    refine ⟨first :: hs, ⟨link_eq_some.mpr ⟨rfl, hf⟩, hc⟩, ?_, ?_, ?_⟩
    · intro h hh
      rcases List.mem_cons.mp hh with rfl | hh
      · exact hfirst
      · exact hcap h hh
    · rw [members_cons, ← List.cons_append, List.nodup_append']
      exact ⟨hnd', hnd, List.disjoint_toFinset_iff_disjoint.mp hdis⟩
    · rw [members_cons, ← List.cons_append, List.toFinset_append]

theorem first_mem (hl : FreeList cap header first S) (hf : first ≠ 0) : first ∈ S := by
  obtain ⟨T, -, -, -, -, rfl⟩ := (cons_iff hf).mp hl
  simp

theorem first_cap (hl : FreeList cap header first S) (hf : first ≠ 0) :
    (header first).free.length ≤ cap := by
  obtain ⟨T, -, hcap, -, -, -⟩ := (cons_iff hf).mp hl
  exact hcap

/-- One more cell in the first header. -/
theorem pushEntry (hl : FreeList cap header first S) (hf : first ≠ 0)
    (hroom : (header first).free.length < cap) (hb : b ∉ S) :
    FreeList cap (Function.update header first
      { free := b :: (header first).free, next := (header first).next }) first (insert b S) := by
  obtain ⟨T, hT, hcap, hnd, hdis, rfl⟩ := (cons_iff hf).mp hl
  rw [Finset.mem_union, List.mem_toFinset, not_or, List.mem_cons, not_or] at hb
  have hfT : first ∉ T := fun h => Finset.disjoint_left.mp hdis (by simp) h
  rw [List.nodup_cons] at hnd
  rw [cons_iff hf, Function.update_self]
  refine ⟨T, hT.congr fun c hc => Function.update_of_ne ?_ _ _, hroom, ?_, ?_, ?_⟩
  · rintro rfl
    exact hfT hc
  · rw [List.nodup_cons, List.mem_cons, not_or, List.nodup_cons]
    exact ⟨⟨Ne.symm hb.1.1, hnd.1⟩, hb.1.2, hnd.2⟩
  · rw [List.toFinset_cons, Finset.disjoint_insert_left] at hdis
    rw [List.toFinset_cons, List.toFinset_cons, Finset.disjoint_insert_left,
      Finset.disjoint_insert_left]
    exact ⟨hdis.1, hb.2, hdis.2⟩
  · ext c
    simp only [Finset.mem_insert, Finset.mem_union, List.mem_toFinset, List.mem_cons]
    tauto

/-- A new first header. -/
theorem pushHeader (hl : FreeList cap header first S) (hb : b ∉ S) (hb0 : b ≠ 0) :
    FreeList cap (Function.update header b { free := [], next := first }) b (insert b S) := by
  rw [cons_iff hb0, Function.update_self]
  refine ⟨S, hl.congr fun c hc => Function.update_of_ne ?_ _ _, Nat.zero_le cap,
    List.nodup_singleton b, by simpa using hb, by ext c; simp⟩
  rintro rfl
  exact hb hc

/-- A cell of the first header is taken. -/
theorem popEntry (hl : FreeList cap header first S) (hf : first ≠ 0)
    (hfree : (header first).free = j :: l) :
    j ∈ S ∧ FreeList cap (Function.update header first { free := l, next := (header first).next })
      first (S.erase j) := by
  obtain ⟨T, hT, hcap, hnd, hdis, rfl⟩ := (cons_iff hf).mp hl
  rw [hfree] at hcap hnd hdis ⊢
  rw [List.nodup_cons, List.mem_cons, not_or, List.nodup_cons] at hnd
  rw [List.toFinset_cons, List.toFinset_cons, Finset.disjoint_insert_left,
    Finset.disjoint_insert_left] at hdis
  refine ⟨by simp, ?_⟩
  rw [cons_iff hf, Function.update_self]
  refine ⟨T, hT.congr fun c hc => Function.update_of_ne ?_ _ _, Nat.le_of_succ_le hcap, ?_, ?_, ?_⟩
  · rintro rfl
    exact hdis.1 hc
  · rw [List.nodup_cons]
    exact ⟨hnd.1.2, hnd.2.2⟩
  · rw [List.toFinset_cons, Finset.disjoint_insert_left]
    exact ⟨hdis.1, hdis.2.2⟩
  · ext c
    simp only [Finset.mem_erase, Finset.mem_union, List.mem_toFinset, List.mem_cons]
    constructor
    · rintro ⟨hcj, (rfl | h | h) | h⟩
      · exact Or.inl (Or.inl rfl)
      · exact absurd h hcj
      · exact Or.inl (Or.inr h)
      · exact Or.inr h
    · rintro ((rfl | h) | h)
      · exact ⟨hnd.1.1, Or.inl (Or.inl rfl)⟩
      · refine ⟨?_, Or.inl (Or.inr (Or.inr h))⟩
        rintro rfl
        exact hnd.2.1 h
      · refine ⟨?_, Or.inr h⟩
        rintro rfl
        exact hdis.2.1 h

/-- The first header is taken, which holds no other cell. -/
theorem popHeader (hl : FreeList cap header first S) (hf : first ≠ 0)
    (hfree : (header first).free = []) :
    FreeList cap header (header first).next (S.erase first) := by
  obtain ⟨T, hT, -, -, hdis, rfl⟩ := (cons_iff hf).mp hl
  rw [hfree] at hdis ⊢
  have hfT : first ∉ T := by simpa using hdis
  rw [show ([first].toFinset ∪ T).erase first = T by
    ext c
    simp only [Finset.mem_erase, Finset.mem_union, List.mem_toFinset, List.mem_cons,
      List.not_mem_nil, or_false]
    constructor
    · rintro ⟨hc, h⟩
      exact h.resolve_left hc
    · intro h
      exact ⟨fun he => hfT (he ▸ h), Or.inr h⟩]
  exact hT

end FreeList

end LinuxKernel
