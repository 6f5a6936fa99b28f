import LinuxKernel.V098.Net.Unix

/-!
# LinuxKernel.V098.Net.UnixCalls

What the calls of `unix_proto_read` and `unix_proto_write` have counted, for both alike:
`count c` is what call `c` has counted so far, and what it returns in the end.
-/

namespace LinuxKernel.V098.Net.Unix

variable {task task' : Nat → Task} {ret : Nat → Option Int} {calls : Nat} {count : Nat → Nat}
  {A B : Nat → Prop} {r : Nat} {t : Task}

/-- The tasks in `A` are in a call. -/
structure Calls (task : Nat → Task) (ret : Nat → Option Int) (calls : Nat) (count : Nat → Nat)
    (A : Nat → Prop) : Prop where
  call : ∀ r, A r → (task r).call < calls
  under : ∀ r, A r → ret (task r).call = none
  le : ∀ r, A r → (task r).todo ≤ (task r).size
  counts : ∀ r, A r → count (task r).call = (task r).size - (task r).todo
  distinct : ∀ r r', A r → A r' → r ≠ r' → (task r).call ≠ (task r').call
  ret : ∀ c n, ret c = some n → c < calls ∧ count c = n.toNat
  fresh : ∀ c, calls ≤ c → count c = 0

namespace Calls

theorem of_iff (h : Calls task ret calls count A) (hB : ∀ r, B r ↔ A r) :
    Calls task ret calls count B := by
  obtain rfl : B = A := funext fun r => propext (hB r)
  exact h

/-- A task returns what it has counted. -/
theorem return_ (h : Calls task ret calls count A) (hr : A r) {n : Int}
    (hn : (task r).size - (task r).todo = n.toNat) :
    Calls task (Function.update ret (task r).call (some n)) calls count fun x => A x ∧ x ≠ r where
  call x hx := h.call x hx.1
  under x hx := by
    rw [Function.update_of_ne (h.distinct x r hx.1 hr hx.2)]
    exact h.under x hx.1
  le x hx := h.le x hx.1
  counts x hx := h.counts x hx.1
  distinct x y hx hy hxy := h.distinct x y hx.1 hy.1 hxy
  ret c m hm := by
    by_cases hc : c = (task r).call
    · subst hc
      rw [Function.update_self] at hm
      cases hm
      exact ⟨h.call r hr, (h.counts r hr).trans hn⟩
    · rw [Function.update_of_ne hc] at hm
      exact h.ret c m hm
  fresh := h.fresh

/-- A task enters a call. -/
theorem enter (h : Calls task ret calls count A) (hr : ¬ A r) (hcall : t.call = calls)
    (htodo : t.todo = t.size) :
    Calls (Function.update task r t) ret (calls + 1) count fun x => A x ∨ x = r := by
  have hne : ∀ x, A x → x ≠ r := fun x hx he => hr (he ▸ hx)
  have hold : ∀ x, A x → Function.update task r t x = task x := fun x hx =>
    Function.update_of_ne (hne x hx) _ _
  constructor
  · rintro x (hx | rfl)
    · rw [hold x hx]
      exact Nat.lt_succ_of_lt (h.call x hx)
    · rw [Function.update_self, hcall]
      exact Nat.lt_succ_self calls
  · rintro x (hx | rfl)
    · rw [hold x hx]
      exact h.under x hx
    · rw [Function.update_self, hcall]
      cases hret : ret calls with
      | none => rfl
      | some n => exact absurd (h.ret _ n hret).1 (Nat.lt_irrefl calls)
  · rintro x (hx | rfl)
    · rw [hold x hx]
      exact h.le x hx
    · rw [Function.update_self]
      exact Nat.le_of_eq htodo
  · rintro x (hx | rfl)
    · rw [hold x hx]
      exact h.counts x hx
    · rw [Function.update_self, hcall, htodo, Nat.sub_self]
      exact h.fresh _ (Nat.le_refl calls)
  · rintro x y (hx | rfl) (hy | rfl) hxy
    · rw [hold x hx, hold y hy]
      exact h.distinct x y hx hy hxy
    · rw [hold x hx, Function.update_self, hcall]
      exact Nat.ne_of_lt (h.call x hx)
    · rw [hold y hy, Function.update_self, hcall]
      exact Nat.ne_of_gt (h.call y hy)
    · exact absurd rfl hxy
  · intro c n hc
    exact ⟨Nat.lt_succ_of_lt (h.ret c n hc).1, (h.ret c n hc).2⟩
  · exact fun c hc => h.fresh c (Nat.le_of_succ_le hc)

/-- A task counts `n` more. -/
theorem count_more (h : Calls task ret calls count A) (hr : A r) {n : Nat} {count' : Nat → Nat}
    (hcall : t.call = (task r).call) (hsize : t.size = (task r).size)
    (htodo : t.todo + n = (task r).todo)
    (hcount : ∀ c, count' c = if c = (task r).call then count c + n else count c) :
    Calls (Function.update task r t) ret calls count' A := by
  have hc : ∀ x, (Function.update task r t x).call = (task x).call := fun x => by
    rw [Function.update_apply]
    split
    · next hx => rw [hcall, hx]
    · rfl
  have hother : ∀ x, A x → x ≠ r → count' (task x).call = count (task x).call := fun x hx hxr => by
    rw [hcount, if_neg (h.distinct x r hx hr hxr)]
  have hle := h.le r hr
  constructor
  · simpa only [hc] using h.call
  · simpa only [hc] using h.under
  · intro x hx
    by_cases hxr : x = r
    · rw [hxr, Function.update_self, hsize]
      omega
    · rw [Function.update_of_ne hxr]
      exact h.le x hx
  · intro x hx
    by_cases hxr : x = r
    · have := h.counts r hr
      rw [hxr, Function.update_self, hcall, hsize, hcount, if_pos rfl, this]
      omega
    · rw [Function.update_of_ne hxr, hother x hx hxr]
      exact h.counts x hx
  · simpa only [hc] using h.distinct
  · intro c m hm
    rw [hcount, if_neg]
    · exact h.ret c m hm
    · rintro rfl
      rw [h.under r hr] at hm
      cases hm
  · intro c hge
    rw [hcount, if_neg]
    · exact h.fresh c hge
    · rintro rfl
      exact absurd (h.call r hr) (Nat.not_lt.mpr hge)

theorem later (h : Calls task ret calls count A) : Calls task ret (calls + 1) count A where
  call r hr := Nat.lt_succ_of_lt (h.call r hr)
  under := h.under
  le := h.le
  counts := h.counts
  distinct := h.distinct
  ret c n hc := ⟨Nat.lt_succ_of_lt (h.ret c n hc).1, (h.ret c n hc).2⟩
  fresh c hc := h.fresh c (Nat.le_of_succ_le hc)

/-- Only the place in the code changes. -/
theorem setPc (h : Calls task ret calls count A) (hr : A r) (hcall : t.call = (task r).call)
    (hsize : t.size = (task r).size) (htodo : t.todo = (task r).todo) :
    Calls (Function.update task r t) ret calls count A :=
  h.count_more (n := 0) hr hcall hsize htodo fun c => by rw [Nat.add_zero, ite_self]

end Calls

end LinuxKernel.V098.Net.Unix
