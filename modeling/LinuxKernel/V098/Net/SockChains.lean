import LinuxKernel.Lib.Chains
import Mathlib.Data.List.Perm.Subperm
import LinuxKernel.V098.Net.SockArray

/-!
# LinuxKernel.V098.Net.SockChains

What `put_sock` and `remove_sock` do to the chains.

`Linked s seg P`: the chains are `seg`, and hold the sockets with `P`.
-/

namespace LinuxKernel.V098.Net.SockArray

variable {s s' : State} {seg : Proto × Nat → List Nat} {P : Nat → Prop} {x y num : Nat}
  {prot : Proto} {o : Proto × Nat} {sk : Sock}

/-- The chain that a socket belongs to. -/
def slot (s : State) (x : Nat) : Proto × Nat :=
  ((s.sock x).prot, (s.sock x).num % SOCK_ARRAY_SIZE)

structure Linked (s : State) (seg : Proto × Nat → List Nat) (P : Nat → Prop) : Prop where
  chains : Chains s.next s.array seg
  mem : ∀ o y, y ∈ seg o ↔ P y ∧ slot s y = o
  live : ∀ y, P y → y ∈ s.live

namespace Linked

theorem nodup (h : Linked s seg P) (o : Proto × Nat) : (seg o).Nodup := (h.chains.chain o).nodup

theorem length_le (h : Linked s seg P) (o : Proto × Nat) : (seg o).length ≤ bound s := by
  have hsub : seg o ⊆ s.live := fun y hy => h.live y ((h.mem o y).mp hy).1
  exact Nat.le_succ_of_le (List.Nodup.subperm (h.nodup o) hsub).length_le

theorem notMem (h : Linked s seg P) (hx : ¬ P x) (o : Proto × Nat) : x ∉ seg o :=
  fun hxo => hx ((h.mem o x).mp hxo).1

/-- The links and the order of the chains are looked at, nothing else. -/
theorem of_sock (h : Linked s seg P) (hn : s'.next = s.next) (ha : s'.array = s.array)
    (hl : ∀ y, P y → y ∈ s'.live) (hs : ∀ y, P y → slot s' y = slot s y) : Linked s' seg P where
  chains := by
    rw [hn, ha]
    exact h.chains
  mem o y := by
    rw [h.mem o y]
    exact and_congr_right fun hy => by rw [hs y hy]
  live := hl

theorem of_iff {P' : Nat → Prop} (h : Linked s seg P) (hP : ∀ y, P' y ↔ P y) : Linked s seg P' where
  chains := h.chains
  mem o y := by
    rw [h.mem o y, hP]
  live y hy := h.live y ((hP y).mp hy)

/-! ### Looking at a chain -/

theorem walk_eq (h : Linked s seg P) (p : Nat → Bool) (o : Proto × Nat) :
    walk s.next p (bound s) (s.array o) = some ((seg o).find? p) :=
  (h.chains.chain o).walk_eq (h.length_le o)

theorem chain_eq (h : Linked s seg P) (prot : Proto) (num : Nat) :
    chain s prot num = seg (prot, num % SOCK_ARRAY_SIZE) := by
  rw [chain, head, (h.chains.chain _).follow_eq (h.length_le _), Option.getD_some]

end Linked

/-! ### `put_sock` -/

/-- The socket goes before the first one where the loop ends. -/
theorem linkSock_chains {Q : Nat → Bool} (hc : Chains s.next s.array seg) (hx : ∀ w, x ∉ seg w)
    (hnx : s.next x = none) (ho : (sk.prot, num % SOCK_ARRAY_SIZE) = o)
    (hlen : (seg o).length ≤ bound s) (hQ : ∀ y ∈ seg o, stops s sk y = Q y) :
    ∃ n a, linkSock s sk num x = .next { s with next := n, array := a } ∧
      Chains n a (Function.update seg o
        ((seg o).takeWhile (! Q ·) ++ x :: (seg o).dropWhile (! Q ·))) := by
  unfold linkSock head
  rw [ho]
  have hall := hc.chain o
  have hother : ∀ w, w ≠ o → ∀ b ∈ seg w, b ≠ x ∧ b ∉ seg o := fun w hw b hb =>
    ⟨ne_of_mem_of_not_mem hb (hx w), fun hbo => hw (hc.disjoint w o b hb hbo)⟩
  have hw := hall.walkPrev_eq hlen hQ none
  have hsplit : (seg o).takeWhile (! Q ·) ++ (seg o).dropWhile (! Q ·) = seg o :=
    List.takeWhile_append_dropWhile
  generalize (seg o).takeWhile (! Q ·) = l₁ at *
  generalize (seg o).dropWhile (! Q ·) = l₂ at *
  cases hhead : s.array o with
  | none =>
      have hnil := hc.seg_of_none hhead
      rw [hnil] at hsplit
      obtain ⟨rfl, rfl⟩ := List.append_eq_nil_iff.mp hsplit
      refine ⟨s.next, Function.update s.array o (some x), by rw [setHead, ho], ?_⟩
      exact hc.of_one (fun _ _ _ _ => rfl) ⟨rfl, hnx⟩ fun w _ b hb hb' =>
        hx w (List.mem_singleton.mp hb' ▸ hb)
  | some sk1 =>
      dsimp only
      rw [← hhead, hw, Option.or_none]
      rw [← hsplit] at hall hother
      have hxl : x ∉ l₁ ++ l₂ := hsplit ▸ hx o
      rcases List.eq_nil_or_concat l₁ with rfl | ⟨l, p, rfl⟩
      · rw [List.nil_append] at hall hother hxl
        obtain ⟨l', rfl⟩ : ∃ l', l₂ = sk1 :: l' := by
          have hl := hall.head_eq
          rw [hhead] at hl
          exact List.head?_eq_some_iff.mp hl.symm
        refine ⟨Function.update s.next x (some sk1), Function.update s.array o (some x),
          by simp only [List.getLast?_nil, List.head?_cons, setHead, ho, hhead], ?_⟩
        refine hc.of_one (fun w _ b hb => ?_) (hall.push hxl ?_ fun b hb => ?_)
          fun w hw b hb hb' => ?_
        · exact Function.update_of_ne (ne_of_mem_of_not_mem hb (hx w)) _ _
        · rw [Function.update_self, hhead]
        · exact Function.update_of_ne hb _ _
        · have hbo := hother w hw b hb
          rcases List.mem_cons.mp hb' with hb' | hb'
          · exact hbo.1 hb'
          · exact hbo.2 hb'
      · rw [List.concat_eq_append, List.append_assoc, List.singleton_append] at *
        have hpx : p ≠ x := by
          rintro rfl
          exact hxl (by simp)
        refine ⟨Function.update (Function.update s.next x l₂.head?) p (some x), s.array,
          by simp only [List.getLast?_concat], ?_⟩
        have hnew : Chain (Function.update (Function.update s.next x l₂.head?) p (some x))
            (s.array o) (l ++ p :: x :: l₂) := by
          refine hall.insert hxl ?_ (Function.update_self ..) fun b hb hbp => ?_
          · rw [Function.update_of_ne (Ne.symm hpx), Function.update_self, hall.next_eq]
          · rw [Function.update_of_ne hbp, Function.update_of_ne hb]
        have hone := hc.of_one
          (o := o) (fun w hw b hb => ?_) hnew fun w hw b hb hb' => ?_
        · rw [Function.update_eq_self] at hone
          exact hone
        · have hbo := hother w hw b hb
          have hbp : b ≠ p := by
            rintro rfl
            exact hbo.2 (by simp)
          rw [Function.update_of_ne hbp, Function.update_of_ne hbo.1]
        · have hbo := hother w hw b hb
          simp only [List.mem_append, List.mem_cons] at hb' hbo
          tauto

namespace Linked

variable (num) in
theorem putSock {Q : Nat → Bool} (h : Linked s seg P) (hx : ¬ P x) (hxl : x ∈ s.live)
    (ho : ((s.sock x).prot, num % SOCK_ARRAY_SIZE) = o)
    (hQ : ∀ y ∈ seg o, stops s (s.sock x) y = Q y) :
    ∃ n a, SockArray.putSock s num x =
        .next { setSock s x { s.sock x with num } with next := n, array := a } ∧
      Linked { setSock s x { s.sock x with num } with next := n, array := a }
        (Function.update seg o ((seg o).takeWhile (! Q ·) ++ x :: (seg o).dropWhile (! Q ·)))
        fun y => y = x ∨ P y := by
  have hxo := h.notMem hx
  have hnext : Chains (Function.update s.next x none) s.array seg :=
    h.chains.congr (fun w b hb => Function.update_of_ne (ne_of_mem_of_not_mem hb (hxo w)) _ _)
      fun _ => rfl
  have hother : ∀ y, y ≠ x → (setSock s x { s.sock x with num }).sock y = s.sock y :=
    fun y hy => Function.update_of_ne hy _ _
  obtain ⟨n, a, hlink, hc⟩ := linkSock_chains
    (s := { setSock s x { s.sock x with num } with next := Function.update s.next x none }) (Q := Q)
    hnext hxo (Function.update_self ..) ho (h.length_le o) fun y hy => by
      rw [← hQ y hy]
      simp only [stops, hother y (ne_of_mem_of_not_mem hy (hxo o))]
  refine ⟨n, a, hlink, hc, fun w y => ?_, fun y hy => ?_⟩
  · have hxs : slot { setSock s x { s.sock x with num } with next := n, array := a } x = o := by
      simp only [slot, setSock, Function.update_self]
      exact ho
    have hys : ∀ y, y ≠ x → slot { setSock s x { s.sock x with num } with next := n, array := a } y =
        slot s y := fun y hy => by simp only [slot, hother y hy]
    by_cases hyx : y = x
    · subst hyx
      rw [hxs]
      by_cases hw : w = o
      · simp [hw]
      · rw [Function.update_of_ne hw]
        simp [hxo w, Ne.symm hw]
    · rw [hys y hyx]
      by_cases hw : w = o
      · subst hw
        rw [Function.update_self, List.mem_append, List.mem_cons, or_iff_right hyx, ← List.mem_append,
          List.takeWhile_append_dropWhile, h.mem, or_iff_right hyx]
      · rw [Function.update_of_ne hw, h.mem, or_iff_right hyx]
  · rcases hy with rfl | hy
    · exact hxl
    · exact h.live y hy

/-! ### `remove_sock` -/

theorem removeSock_of_not (h : Linked s seg P) (hx : ¬ P x) : SockArray.removeSock s x = .next s := by
  have hxo := h.notMem hx (slot s x)
  have hhead : head s (s.sock x).prot (s.sock x).num = s.array (slot s x) := rfl
  have hne : s.array (slot s x) ≠ some x := fun he => by
    obtain ⟨l, hl⟩ := h.chains.seg_of_some he
    exact hxo (hl ▸ List.mem_cons_self)
  have hfind : (seg (slot s x)).find? (fun sk2 => s.next sk2 = some x) = none := by
    have hall := h.chains.chain (slot s x)
    cases hseg : seg (slot s x) with
    | nil => rfl
    | cons p l =>
        rw [hseg] at hall hxo
        exact hall.find_pred_none fun hxl => hxo (List.mem_cons_of_mem p hxl)
  unfold SockArray.removeSock
  dsimp only
  rw [hhead, if_neg hne, h.walk_eq, hfind]

theorem removeSock (h : Linked s seg P) (hx : P x) :
    ∃ n a, SockArray.removeSock s x = .next { s with next := n, array := a } ∧
      Linked { s with next := n, array := a }
        (Function.update seg (slot s x) ((seg (slot s x)).erase x)) fun y => y ≠ x ∧ P y := by
  have hxo : x ∈ seg (slot s x) := (h.mem _ x).mpr ⟨hx, rfl⟩
  have hhead : head s (s.sock x).prot (s.sock x).num = s.array (slot s x) := rfl
  suffices hchains : ∃ n a, SockArray.removeSock s x = .next { s with next := n, array := a } ∧
      Chains n a (Function.update seg (slot s x) ((seg (slot s x)).erase x)) by
    obtain ⟨n, a, hs, hc⟩ := hchains
    refine ⟨n, a, hs, hc, fun w y => ?_, fun y hy => h.live y hy.2⟩
    change _ ↔ _ ∧ slot s y = w
    by_cases hw : w = slot s x
    · subst hw
      rw [Function.update_self, (h.nodup _).mem_erase_iff, h.mem, and_assoc]
    · rw [Function.update_of_ne hw, h.mem]
      refine ⟨fun hy => ⟨⟨?_, hy.1⟩, hy.2⟩, fun hy => ⟨hy.1.2, hy.2⟩⟩
      rintro rfl
      exact hw hy.2.symm
  have hall := h.chains.chain (slot s x)
  obtain ⟨l₁, l₂, hseg⟩ := List.append_of_mem hxo
  have hnd := h.nodup (slot s x)
  rw [hseg] at hall hnd
  have hx₁ : x ∉ l₁ := fun hx₁ => (List.nodup_append.mp hnd).2.2 x hx₁ x List.mem_cons_self rfl
  have hother : ∀ w, w ≠ slot s x → ∀ b ∈ seg w, b ∉ l₁ ++ x :: l₂ := fun w hw b hb hb' =>
    hw (h.chains.disjoint w _ b hb (hseg ▸ hb'))
  unfold SockArray.removeSock
  dsimp only
  rw [hhead, hseg, List.erase_append_right _ hx₁, List.erase_cons_head]
  rcases List.eq_nil_or_concat l₁ with rfl | ⟨l, p, rfl⟩
  · rw [if_pos hall.1]
    refine ⟨s.next, Function.update s.array (slot s x) (s.next x), rfl, ?_⟩
    refine h.chains.of_one (fun _ _ _ _ => rfl) hall.2 fun w hw b hb hb' => hother w hw b hb ?_
    exact List.mem_cons_of_mem x hb'
  · rw [List.concat_eq_append] at *
    have hne : s.array (slot s x) ≠ some x := fun he => by
      rw [hall.head_eq] at he
      have hxl : x ∈ l ++ [p] := List.mem_of_mem_head? (by
        rw [List.head?_append] at he
        cases l with
        | nil => exact he
        | cons b l => exact he)
      exact hx₁ hxl
    have hcut := hall.unlink (g := Function.update s.next p (s.next x)) fun b => by
      rw [List.getLast?_concat, Function.update_apply]
      simp only [Option.some.injEq, eq_comm]
    rw [List.getLast?_concat, Option.isNone_some, if_neg Bool.false_ne_true] at hcut
    rw [if_neg hne, h.walk_eq, hseg]
    rw [List.append_assoc, List.singleton_append] at hall
    rw [List.append_assoc l, List.singleton_append, hall.find_pred]
    refine ⟨Function.update s.next p (s.next x), s.array, rfl, ?_⟩
    have hone := h.chains.of_one (o := slot s x)
      (fun w hw b hb => ?_) hcut fun w hw b hb hb' => hother w hw b hb ?_
    · rw [Function.update_eq_self] at hone
      exact hone
    · refine Function.update_of_ne ?_ _ _
      rintro rfl
      exact hother w hw b hb (by simp)
    · rcases List.mem_append.mp hb' with hb' | hb'
      · exact List.mem_append_left _ hb'
      · exact List.mem_append_right _ (List.mem_cons_of_mem x hb')

end Linked

end LinuxKernel.V098.Net.SockArray
