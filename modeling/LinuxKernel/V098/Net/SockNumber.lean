import LinuxKernel.V098.Net.SockChains

/-!
# LinuxKernel.V098.Net.SockNumber

The numbers of **`get_new_socknum`**.

- A number for an empty chain is not in use.
- Otherwise the last loop ends, since every number it goes past is the `source` of a socket of
  the chain. Whether its number is in use is the condition `NumFree`.
-/

namespace LinuxKernel.V098.Net.SockArray

variable {s s' : State} {seg : Proto × Nat → List Nat} {P P' : Nat → Prop} {x y num base : Nat}
  {prot : Proto}

namespace Linked

theorem skInuse_eq (h : Linked s seg P) (prot : Proto) (num : Nat) :
    skInuse s prot num =
      some ((seg (prot, num % SOCK_ARRAY_SIZE)).any fun y => (s.sock y).source = num) := by
  rw [skInuse, head, h.walk_eq, Option.map_some, List.isSome_find?]

/-! ### The first loop -/

theorem scanNum_cases (h : Linked s seg P) (prot : Proto) (base : Nat) (is : List Nat)
    (best size : Nat) :
    (∃ best', scanNum s prot base is best size = .next (.inr best')) ∨
      ∃ num, scanNum s prot base is best size = .next (.inl num) ∧
        seg (prot, num % SOCK_ARRAY_SIZE) = [] := by
  induction is generalizing best size with
  | nil => exact Or.inl ⟨best, rfl⟩
  | cons i is ih =>
      rw [scanNum, head, (h.chains.chain _).follow_eq (h.length_le _)]
      cases hseg : seg (prot, (i + base + 1) % SOCK_ARRAY_SIZE) with
      | nil => exact Or.inr ⟨i + base + 1, rfl, hseg⟩
      | cons y l =>
          dsimp only
          split
          · exact ih _ _
          · exact ih _ _

/-- It goes by the lengths of the chains. -/
theorem scanNum_congr (h : Linked s seg P) (h' : Linked s' seg P') (prot : Proto) (base : Nat)
    (is : List Nat) (best size : Nat) :
    scanNum s' prot base is best size = scanNum s prot base is best size := by
  induction is generalizing best size with
  | nil => rfl
  | cons i is ih =>
      rw [scanNum, scanNum, head, head, (h.chains.chain _).follow_eq (h.length_le _),
        (h'.chains.chain _).follow_eq (h'.length_le _)]
      cases seg (prot, (i + base + 1) % SOCK_ARRAY_SIZE) with
      | nil => rfl
      | cons y l => simp only [ih]

/-! ### The last loop -/

theorem searchNum_cases (h : Linked s seg P) (prot : Proto) (n num : Nat) :
    (∃ k, (∀ j < k, skInuse s prot (num + SOCK_ARRAY_SIZE * j) = some true) ∧
      skInuse s prot (num + SOCK_ARRAY_SIZE * k) = some false ∧
      searchNum s prot n num = .next ((num + SOCK_ARRAY_SIZE * k) % 2 ^ 16)) ∨
    ∀ k < n, skInuse s prot (num + SOCK_ARRAY_SIZE * k) = some true := by
  induction n generalizing num with
  | zero => exact Or.inr fun k hk => absurd hk (Nat.not_lt_zero k)
  | succ n ih =>
      rw [searchNum]
      cases hin : skInuse s prot num with
      | none =>
          rw [h.skInuse_eq] at hin
          cases hin
      | some b =>
          cases b with
          | false => exact Or.inl ⟨0, fun j hj => absurd hj (Nat.not_lt_zero j), hin, rfl⟩
          | true =>
              have hshift : ∀ k, num + SOCK_ARRAY_SIZE + SOCK_ARRAY_SIZE * k =
                  num + SOCK_ARRAY_SIZE * (k + 1) := fun k => by
                rw [Nat.mul_succ]
                omega
              have hbelow : ∀ k, (∀ j < k,
                  skInuse s prot (num + SOCK_ARRAY_SIZE * (j + 1)) = some true) →
                  ∀ j < k + 1, skInuse s prot (num + SOCK_ARRAY_SIZE * j) = some true := by
                intro k hk j hj
                cases j with
                | zero => exact hin
                | succ j => exact hk j (Nat.lt_of_succ_lt_succ hj)
              rcases ih (num + SOCK_ARRAY_SIZE) with ⟨k, hlt, hk, hs⟩ | hall
              · simp only [hshift] at hlt hk hs
                exact Or.inl ⟨k + 1, hbelow k hlt, hk, hs⟩
              · simp only [hshift] at hall
                exact Or.inr (hbelow n hall)

/-- Not all the numbers of the last loop are in the chain. -/
theorem not_all_inuse (h : Linked s seg P) (prot : Proto) (num : Nat) :
    ¬ ∀ k < bound s, skInuse s prot (num + SOCK_ARRAY_SIZE * k) = some true := by
  intro hall
  have hmod : ∀ k, (num + SOCK_ARRAY_SIZE * k) % SOCK_ARRAY_SIZE = num % SOCK_ARRAY_SIZE :=
    fun k => Nat.add_mul_mod_self_left ..
  -- the numbers are different, and each is the `source` of another socket of the chain
  have hsub : (List.range (bound s)).map (num + SOCK_ARRAY_SIZE * ·) ⊆
      (seg (prot, num % SOCK_ARRAY_SIZE)).map fun y => (s.sock y).source := by
    intro n hn
    obtain ⟨k, hk, rfl⟩ := List.mem_map.mp hn
    have hin := hall k (List.mem_range.mp hk)
    rw [h.skInuse_eq, hmod, Option.some.injEq, List.any_eq_true] at hin
    obtain ⟨y, hy, hsource⟩ := hin
    exact List.mem_map.mpr ⟨y, hy, of_decide_eq_true hsource⟩
  have hnd : ((List.range (bound s)).map (num + SOCK_ARRAY_SIZE * ·)).Nodup := by
    refine List.nodup_range.map fun j k hjk => ?_
    exact Nat.eq_of_mul_eq_mul_left (by decide) (Nat.add_left_cancel hjk)
  have hlen := (List.Nodup.subperm hnd hsub).length_le
  simp only [List.length_map, List.length_range] at hlen
  have hsock : seg (prot, num % SOCK_ARRAY_SIZE) ⊆ s.live := fun y hy => h.live y ((h.mem _ y).mp hy).1
  have := (List.Nodup.subperm (h.nodup _) hsock).length_le
  rw [bound] at hlen
  omega

/-! ### The number -/

theorem getNewSocknum (h : Linked s seg P) (hP : ∀ y ∈ s.live, y ≠ x → P y)
    (hfree : NumFree s x prot) :
    ∃ num, SockArray.getNewSocknum s prot = .next num ∧ ¬ Used s x prot num := by
  unfold SockArray.getNewSocknum
  rcases h.scanNum_cases prot (numBase (nextStart s.start)) (List.range SOCK_ARRAY_SIZE) 0 32767 with
    ⟨best, hscan⟩ | ⟨num, hscan, hempty⟩
  · rw [scan, hscan, Outcome.bind_next]
    dsimp only
    rcases h.searchNum_cases prot (bound s) (numBase (nextStart s.start) + best + 1) with
      ⟨k, hlt, hk, hs⟩ | hall
    · exact ⟨_, hs, hfree best hscan k hlt hk⟩
    · exact absurd hall (h.not_all_inuse prot _)
  · rw [scan, hscan, Outcome.bind_next]
    refine ⟨_, rfl, ?_⟩
    rintro ⟨y, hy, hyx, hprot, hnum⟩
    have hmem : y ∈ seg (prot, num % SOCK_ARRAY_SIZE) := by
      refine (h.mem _ y).mpr ⟨hP y hy hyx, ?_⟩
      rw [slot, hprot, hnum, Nat.mod_mod_of_dvd _ (by decide)]
    rw [hempty] at hmem
    cases hmem

theorem newSocknum (h : Linked s seg P) (hP : ∀ y ∈ s.live, y ≠ x → P y)
    (hfree : NumFree s x prot) :
    ∃ num, SockArray.newSocknum s x prot = .next ({ s with start := nextStart s.start }, num) ∧
      ¬ Used s x prot num := by
  obtain ⟨num, hs, hused⟩ := h.getNewSocknum hP hfree
  refine ⟨num, ?_, hused⟩
  rw [SockArray.newSocknum, hs, Outcome.bind_next, decide_eq_false hused, Bool.or_false]

/-- The condition is about the sockets in the chains. -/
theorem numFree_congr (h : Linked s seg P) (h' : Linked s' seg P) (hstart : s'.start = s.start)
    (hsock : ∀ y, P y → s'.sock y = s.sock y) (hP : ∀ y ∈ s'.live, y ≠ x → P y)
    (hfree : NumFree s x prot) : NumFree s' x prot := by
  have hin : ∀ num, skInuse s' prot num = skInuse s prot num := fun num => by
    rw [h.skInuse_eq, h'.skInuse_eq, Option.some.injEq, Bool.eq_iff_iff, List.any_eq_true,
      List.any_eq_true]
    refine exists_congr fun y => and_congr_right fun hy => ?_
    rw [hsock y ((h.mem _ y).mp hy).1]
  intro best hscan
  rw [scan, hstart, h.scanNum_congr h'] at hscan
  rw [hstart]
  intro num k hlt hk hused
  simp only [hin] at hlt hk
  obtain ⟨y, hy, hyx, hprot, hnum⟩ := hused
  have hy' := hP y hy hyx
  rw [hsock y hy'] at hprot hnum
  exact hfree best hscan k hlt hk ⟨y, h.live y hy', hyx, hprot, hnum⟩

end Linked

end LinuxKernel.V098.Net.SockArray
