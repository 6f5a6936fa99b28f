import Mathlib.Tactic.Linarith

/-!
# LinuxKernel.Lib.Grid

**Rounding to a grid**: which of the numbers that can be represented stands next to a given one.

- `Below`, `Above`, `Nearest`: what a number is rounded to, with respect to any set of numbers.
- `Row`: the numbers are those of an increasing row and their opposites. Between two neighbours of
  the row the rounding is a matter of the index alone.
-/

namespace LinuxKernel.Grid

variable {K : Type*} [Field K] [LinearOrder K] [IsStrictOrderedRing K]

/-- `r` is the largest one that is not above `v`. -/
def Below (P : K → Prop) (v r : K) : Prop := P r ∧ r ≤ v ∧ ∀ q, P q → q ≤ v → q ≤ r

/-- `r` is the smallest one that is not below `v`. -/
def Above (P : K → Prop) (v r : K) : Prop := P r ∧ v ≤ r ∧ ∀ q, P q → v ≤ q → r ≤ q

/-- None is closer to `v` than `r`. -/
def Nearest (P : K → Prop) (v r : K) : Prop := P r ∧ ∀ q, P q → |v - r| ≤ |v - q|

/-- The numbers with an index from `lo` to `hi` and their opposites. -/
structure Row (P : K → Prop) (V : ℕ → K) (lo hi : ℕ) : Prop where
  mono : StrictMono V
  pos : 0 < V lo
  mem_iff : ∀ q, P q ↔ ∃ n, lo ≤ n ∧ n ≤ hi ∧ (q = V n ∨ q = -V n)

namespace Row

variable {P : K → Prop} {V : ℕ → K} {lo hi t k : ℕ} {v r : K}

omit [IsStrictOrderedRing K] in
theorem mem (h : Row P V lo hi) (hlo : lo ≤ k) (hhi : k ≤ hi) : P (V k) :=
  (h.mem_iff _).mpr ⟨k, hlo, hhi, .inl rfl⟩

omit [IsStrictOrderedRing K] in
theorem mem_neg (h : Row P V lo hi) (q : K) : P (-q) ↔ P q := by
  rw [h.mem_iff, h.mem_iff]
  constructor
  · rintro ⟨n, hlo, hhi, hq | hq⟩
    · exact ⟨n, hlo, hhi, .inr (neg_eq_iff_eq_neg.mp hq)⟩
    · exact ⟨n, hlo, hhi, .inl (neg_injective hq)⟩
  · rintro ⟨n, hlo, hhi, rfl | rfl⟩
    · exact ⟨n, hlo, hhi, .inr rfl⟩
    · exact ⟨n, hlo, hhi, .inl (neg_neg _)⟩

theorem below_neg (h : Row P V lo hi) : Below P (-v) (-r) ↔ Above P v r := by
  unfold Below Above
  rw [h.mem_neg, neg_le_neg_iff]
  refine and_congr_right fun _ => and_congr_right fun _ => ⟨fun hall q hq hle => ?_,
    fun hall q hq hle => ?_⟩
  · exact neg_le_neg_iff.mp (hall (-q) ((h.mem_neg q).mpr hq) (neg_le_neg hle))
  · exact le_neg.mp (hall (-q) ((h.mem_neg q).mpr hq) (le_neg.mp hle))

theorem above_neg (h : Row P V lo hi) : Above P (-v) (-r) ↔ Below P v r := by
  rw [← h.below_neg, neg_neg, neg_neg]

omit [IsStrictOrderedRing K] in
theorem nearest_neg (h : Row P V lo hi) : Nearest P (-v) (-r) ↔ Nearest P v r := by
  have hdist : ∀ q : K, |-v - -q| = |v - q| := fun q => by rw [neg_sub_neg, abs_sub_comm]
  unfold Nearest
  rw [h.mem_neg, hdist]
  refine and_congr_right fun _ => ⟨fun hall q hq => ?_, fun hall q hq => ?_⟩
  · rw [← hdist q]
    exact hall (-q) ((h.mem_neg q).mpr hq)
  · have hle := hall (-q) ((h.mem_neg q).mpr hq)
    rwa [← hdist (-q), neg_neg] at hle

/-- Nothing stands between neighbours. -/
theorem gap (h : Row P V lo hi) (hlo : lo ≤ t) {q : K} (hq : P q) : q ≤ V t ∨ V (t + 1) ≤ q := by
  obtain ⟨n, hn, _, rfl | rfl⟩ := (h.mem_iff q).mp hq
  · rcases Nat.lt_or_ge t n with htn | htn
    · exact .inr (h.mono.monotone htn)
    · exact .inl (h.mono.monotone htn)
  · have hpos := lt_of_lt_of_le h.pos (h.mono.monotone hlo)
    have hpos' := lt_of_lt_of_le h.pos (h.mono.monotone hn)
    exact .inl (by linarith)

theorem below_iff (h : Row P V lo hi) (hlo : lo ≤ t) (hhi : t + 1 ≤ hi) (hle : V t ≤ v)
    (hlt : v < V (t + 1)) : Below P v (V k) ↔ k = t := by
  constructor
  · rintro ⟨_, hk, hall⟩
    have htk := h.mono.le_iff_le.mp (hall (V t) (h.mem hlo (by omega)) hle)
    have hkt := h.mono.lt_iff_lt.mp (lt_of_le_of_lt hk hlt)
    omega
  · rintro rfl
    refine ⟨h.mem hlo (by omega), hle, fun q hq hqv => ?_⟩
    exact (h.gap hlo hq).resolve_right fun hq' => absurd (lt_of_le_of_lt (hq'.trans hqv) hlt)
      (lt_irrefl _)

theorem above_iff (h : Row P V lo hi) (hlo : lo ≤ t) (hhi : t + 1 ≤ hi) (hle : V t ≤ v)
    (hlt : v < V (t + 1)) : Above P v (V k) ↔ k = if v = V t then t else t + 1 := by
  by_cases heq : v = V t
  · rw [if_pos heq]
    constructor
    · rintro ⟨_, hk, hall⟩
      have hkt := h.mono.le_iff_le.mp (hall (V t) (h.mem hlo (by omega)) heq.le)
      have htk := h.mono.le_iff_le.mp (heq ▸ hk)
      omega
    · rintro rfl
      exact ⟨h.mem hlo (by omega), heq.le, fun q _ hq => heq ▸ hq⟩
  · have hlt' : V t < v := lt_of_le_of_ne hle (Ne.symm heq)
    rw [if_neg heq]
    constructor
    · rintro ⟨_, hk, hall⟩
      have hkt := h.mono.le_iff_le.mp (hall (V (t + 1)) (h.mem (by omega) hhi) hlt.le)
      have htk := h.mono.lt_iff_lt.mp (lt_of_lt_of_le hlt' hk)
      omega
    · rintro rfl
      refine ⟨h.mem (by omega) hhi, hlt.le, fun q hq hvq => ?_⟩
      exact (h.gap hlo hq).resolve_left fun hq' => absurd (lt_of_lt_of_le hlt' (hvq.trans hq'))
        (lt_irrefl _)

/-- The nearer neighbour, either one in the middle. -/
theorem nearest_iff (h : Row P V lo hi) (hlo : lo ≤ t) (hhi : t + 1 ≤ hi) (hle : V t ≤ v)
    (hlt : v < V (t + 1)) (hk : k = t ∨ k = t + 1) : Nearest P v (V k) ↔
      (k = t → v - V t ≤ V (t + 1) - v) ∧ (k = t + 1 → V (t + 1) - v ≤ v - V t) := by
  have hbelow : |v - V t| = v - V t := abs_of_nonneg (by linarith)
  have habove : |v - V (t + 1)| = V (t + 1) - v := by
    rw [abs_sub_comm]
    exact abs_of_nonneg (by linarith)
  have hfar : ∀ q, P q → v - V t ≤ |v - q| ∨ V (t + 1) - v ≤ |v - q| := by
    intro q hq
    rcases h.gap hlo hq with hq | hq
    · exact .inl (le_trans (by linarith) (le_abs_self _))
    · exact .inr (le_trans (by linarith) (neg_le_abs _))
  constructor
  · rintro ⟨_, hall⟩
    refine ⟨fun hkt => ?_, fun hkt => ?_⟩
    · have := hall _ (h.mem (k := t + 1) (by omega) hhi)
      rwa [hkt, hbelow, habove] at this
    · have := hall _ (h.mem (k := t) hlo (by omega))
      rwa [hkt, hbelow, habove] at this
  · rintro ⟨h1, h2⟩
    rcases hk with rfl | rfl
    · refine ⟨h.mem hlo (by omega), fun q hq => ?_⟩
      rw [hbelow]
      exact (hfar q hq).elim id fun hq => (h1 rfl).trans hq
    · refine ⟨h.mem (by omega) hhi, fun q hq => ?_⟩
      rw [habove]
      exact (hfar q hq).elim (fun hq => (h2 rfl).trans hq) id

end Row

end LinuxKernel.Grid
