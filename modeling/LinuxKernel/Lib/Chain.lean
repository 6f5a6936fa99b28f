import Mathlib.Data.List.Nodup

/-!
# LinuxKernel.Lib.Chain

**Singly linked lists in a heap.** `Chain next h l` reads the links off: the
elements of `l` in order, starting at the pointer `h`, the last one linked to
nothing. A chain determines its list, and so has no element twice.
-/

namespace LinuxKernel

variable {α β : Type} {next g : α → Option α} {h : Option α} {l l' : List α} {a x : α}

/-- The list that starts at `h`. -/
def Chain (next : α → Option α) (h : Option α) : List α → Prop
  | [] => h = none
  | a :: l => h = some a ∧ Chain next (next a) l

instance Chain.decidable [DecidableEq α] (next : α → Option α) : ∀ h l, Decidable (Chain next h l)
  | h, [] => inferInstanceAs (Decidable (h = none))
  | h, a :: l =>
      have := Chain.decidable next (next a) l
      inferInstanceAs (Decidable (h = some a ∧ Chain next (next a) l))

namespace Chain

theorem congr (hc : Chain next h l) (hn : ∀ a ∈ l, g a = next a) : Chain g h l := by
  induction l generalizing h with
  | nil => exact hc
  | cons a l ih =>
      refine ⟨hc.1, ?_⟩
      rw [hn a List.mem_cons_self]
      exact ih hc.2 fun b hb => hn b (List.mem_cons_of_mem a hb)

theorem head_eq (hc : Chain next h l) : h = l.head? := by
  cases l with
  | nil => exact hc
  | cons a l => exact hc.1

theorem eq_nil (hc : Chain next none l) : l = [] := by
  cases l with
  | nil => rfl
  | cons a l => cases hc.1

theorem unique (hc : Chain next h l) (hc' : Chain next h l') : l = l' := by
  induction l generalizing h l' with
  | nil =>
      obtain rfl : h = none := hc
      cases l' with
      | nil => rfl
      | cons b l' => cases hc'.1
  | cons a l ih =>
      obtain ⟨rfl, hrest⟩ := hc
      cases l' with
      | nil => cases hc'
      | cons b l' =>
          obtain ⟨hb, hrest'⟩ := hc'
          cases hb
          rw [ih hrest hrest']

/-- The part of a chain from one of its elements on. -/
theorem suffix {l₁ l₂ : List α} (hc : Chain next h (l₁ ++ a :: l₂)) : Chain next (next a) l₂ := by
  induction l₁ generalizing h with
  | nil => exact hc.2
  | cons b l₁ ih => exact ih hc.2

theorem nodup (hc : Chain next h l) : l.Nodup := by
  induction l generalizing h with
  | nil => exact List.nodup_nil
  | cons a l ih =>
      refine List.nodup_cons.mpr ⟨fun ha => ?_, ih hc.2⟩
      obtain ⟨l₁, l₂, rfl⟩ := List.append_of_mem ha
      -- the rest after the second `a` would have to be the rest after the first
      have hlen := congrArg List.length (hc.2.unique hc.2.suffix)
      simp only [List.length_append, List.length_cons] at hlen
      omega

/-- No element is linked to itself. -/
theorem next_ne (hc : Chain next (some a) l) : next a ≠ some a := by
  intro hn
  cases l with
  | nil => cases hc
  | cons b l =>
      obtain ⟨hb, hrest⟩ := hc
      cases hb
      rw [hn] at hrest
      have hlen := congrArg List.length (Chain.unique (l := a :: l) ⟨rfl, by rwa [hn]⟩ hrest)
      rw [List.length_cons] at hlen
      omega

/-- What is linked to an element. -/
theorem link {l₁ l₂ : List α} (hc : Chain next h (l₁ ++ a :: l₂)) :
    (match l₁.getLast? with
      | some b => next b
      | none => h) = some a := by
  induction l₁ generalizing h with
  | nil => exact hc.1
  | cons b l₁ ih =>
      have := ih hc.2
      rw [List.getLast?_cons]
      cases hl : l₁.getLast? with
      | none => rwa [hl] at this
      | some c => rwa [hl] at this

/-- A new first element. -/
theorem push (hc : Chain next h l) (hx : x ∉ l) (hn : g x = h)
    (hn' : ∀ a, a ≠ x → g a = next a) : Chain g (some x) (x :: l) := by
  refine ⟨rfl, ?_⟩
  rw [hn]
  exact hc.congr fun a ha => hn' a fun he => hx (he ▸ ha)

/-- Take `a` out: its predecessor, or the head, gets its link. -/
theorem unlink [DecidableEq α] {l₁ l₂ : List α} (hc : Chain next h (l₁ ++ a :: l₂))
    (hn : ∀ b, g b = if l₁.getLast? = some b then next a else next b) :
    Chain g (if l₁.getLast?.isNone then next a else h) (l₁ ++ l₂) := by
  have hnd := hc.nodup
  induction l₁ generalizing h with
  | nil => exact hc.2.congr fun b _ => by rw [hn, List.getLast?_nil, if_neg (by simp)]
  | cons b l₁ ih =>
      obtain ⟨rfl, hrest⟩ := hc
      have hb : b ∉ l₁ ++ a :: l₂ := (List.nodup_cons.mp hnd).1
      rw [if_neg (by simp)]
      refine ⟨rfl, ?_⟩
      cases l₁ with
      | nil =>
          rw [hn, List.getLast?_singleton, if_pos rfl]
          refine hrest.2.congr fun c hc => ?_
          rw [hn, List.getLast?_singleton, if_neg]
          rintro he
          cases he
          exact hb (List.mem_cons_of_mem a hc)
      | cons c l₁ =>
          have hlast : (b :: c :: l₁).getLast? = (c :: l₁).getLast? := by
            simp [List.getLast?_cons]
          have hchain := ih hrest (fun d => by rw [hn, hlast]) (List.nodup_cons.mp hnd).2
          rw [if_neg (by simp)] at hchain
          rw [hn, if_neg]
          · exact hchain
          · rw [hlast]
            intro he
            exact hb (List.mem_append_left _ (List.mem_of_getLast? he))

theorem next_eq {l₁ l₂ : List α} (hc : Chain next h (l₁ ++ a :: l₂)) : next a = l₂.head? :=
  hc.suffix.head_eq

/-- `x` goes behind `a`. -/
theorem insert {l₁ l₂ : List α} (hc : Chain next h (l₁ ++ a :: l₂)) (hx : x ∉ l₁ ++ a :: l₂)
    (hnx : g x = next a) (hna : g a = some x)
    (hn : ∀ b, b ≠ x → b ≠ a → g b = next b) : Chain g h (l₁ ++ a :: x :: l₂) := by
  have hnd := hc.nodup
  induction l₁ generalizing h with
  | nil =>
      rw [List.nil_append, List.mem_cons, not_or] at hx
      rw [List.nil_append, List.nodup_cons] at hnd
      refine ⟨hc.1, hna, ?_⟩
      rw [hnx]
      exact hc.2.congr fun b hb => hn b (fun he => hx.2 (he ▸ hb)) fun he => hnd.1 (he ▸ hb)
  | cons b l₁ ih =>
      rw [List.cons_append, List.mem_cons, not_or] at hx
      rw [List.cons_append, List.nodup_cons] at hnd
      have hba : b ≠ a := by
        rintro rfl
        exact hnd.1 (List.mem_append_right _ List.mem_cons_self)
      refine ⟨hc.1, ?_⟩
      rw [hn b (Ne.symm hx.1) hba]
      exact ih hc.2 hx.2 hnd.2

/-- `w` goes to the front. -/
theorem toFront [DecidableEq α] {l₁ l₂ : List α} {w p : α} (hc : Chain next h (l₁ ++ p :: w :: l₂)) :
    Chain (Function.update (Function.update next p (next w)) w h) (some w)
      (w :: (l₁ ++ p :: l₂)) := by
  have hnd := hc.nodup
  have hsplit : l₁ ++ p :: w :: l₂ = (l₁ ++ [p]) ++ w :: l₂ := by simp
  rw [hsplit] at hc hnd
  have hw : w ∉ l₁ ++ p :: l₂ := by
    intro hw
    rw [List.nodup_append, List.nodup_cons] at hnd
    have hw' : w ∈ (l₁ ++ [p]) ++ l₂ := by simpa using hw
    rcases List.mem_append.mp hw' with hw' | hw'
    · exact hnd.2.2 w hw' w List.mem_cons_self rfl
    · exact hnd.2.1.1 hw'
  have hcut := hc.unlink (g := Function.update next p (next w)) fun b => by
    rw [List.getLast?_concat, Function.update_apply]
    simp only [Option.some.injEq, eq_comm]
  rw [List.getLast?_concat, Option.isNone_some, if_neg Bool.false_ne_true, List.append_assoc,
    List.singleton_append] at hcut
  exact hcut.push hw (Function.update_self ..) fun b hb => Function.update_of_ne hb _ _

section Pred

variable [DecidableEq α] {l₁ l₂ : List α} {p : α}

/-- Only the element before `a` is linked to it. -/
theorem find_pred (hc : Chain next h (l₁ ++ p :: a :: l₂)) :
    (l₁ ++ p :: a :: l₂).find? (fun b => next b = some a) = some p := by
  rw [List.find?_eq_some_iff_append]
  refine ⟨decide_eq_true hc.next_eq, l₁, a :: l₂, rfl, fun b hb => ?_⟩
  rw [Bool.not_eq_true', decide_eq_false_iff_not]
  obtain ⟨m₁, m₂, rfl⟩ := List.append_of_mem hb
  rw [List.append_assoc, List.cons_append] at hc
  rw [hc.next_eq]
  intro hba
  -- `a` would stand behind `b` and behind `p`
  have hnd := hc.nodup
  cases m₂ with
  | nil =>
      obtain rfl := Option.some.inj hba
      simp [List.nodup_append] at hnd
  | cons c m₂ =>
      obtain rfl := Option.some.inj hba
      simp [List.nodup_append] at hnd

theorem find_pred_none (hc : Chain next h (p :: l)) (ha : a ∉ l) :
    (p :: l).find? (fun b => next b = some a) = none := by
  rw [List.find?_eq_none]
  intro b hb
  rw [decide_eq_true_iff]
  intro hba
  obtain ⟨m₁, m₂, hl⟩ := List.append_of_mem hb
  rw [hl] at hc
  rw [hc.next_eq] at hba
  cases m₂ with
  | nil => cases hba
  | cons c m₂ =>
      obtain rfl := Option.some.inj hba
      cases m₁ with
      | nil =>
          obtain ⟨rfl, rfl⟩ := List.cons.inj hl
          exact ha List.mem_cons_self
      | cons d m₁ =>
          obtain ⟨rfl, rfl⟩ := List.cons.inj hl
          exact ha (by simp)

end Pred

end Chain

/-! ### Walking a list -/

/-- Follow the links from `h` to the first element that satisfies `P`. `none`:
still under way after `n` elements. -/
def walk (next : α → Option α) (P : α → Bool) : Nat → Option α → Option (Option α)
  | _, none => some none
  | 0, some _ => none
  | n + 1, some a => if P a then some (some a) else walk next P n (next a)

theorem Chain.walk_eq {P : α → Bool} {n : Nat} (hc : Chain next h l) (hn : l.length ≤ n) :
    walk next P n h = some (l.find? P) := by
  induction l generalizing h n with
  | nil =>
      obtain rfl : h = none := hc
      cases n <;> rfl
  | cons a l ih =>
      obtain ⟨rfl, hrest⟩ := hc
      cases n with
      | zero => cases hn
      | succ n =>
          rw [walk, List.find?_cons]
          cases hP : P a with
          | true => rfl
          | false => exact ih hrest (Nat.le_of_succ_le_succ hn)

/-- The elements from `h` on, if there are no more than `n`. -/
def follow (next : α → Option α) : Nat → Option α → Option (List α)
  | _, none => some []
  | 0, some _ => none
  | n + 1, some a => (follow next n (next a)).map (a :: ·)

theorem Chain.follow_eq {n : Nat} (hc : Chain next h l) (hn : l.length ≤ n) :
    follow next n h = some l := by
  induction l generalizing h n with
  | nil =>
      obtain rfl : h = none := hc
      cases n <;> rfl
  | cons a l ih =>
      obtain ⟨rfl, hrest⟩ := hc
      cases n with
      | zero => cases hn
      | succ n => rw [follow, ih hrest (Nat.le_of_succ_le_succ hn), Option.map_some]

/-- `walk` with the element before; `prev` is the one before `h`. -/
def walkPrev (next : α → Option α) (P : α → Bool) :
    Nat → Option α → Option α → Option (Option α × Option α)
  | _, none, prev => some (none, prev)
  | 0, some _, _ => none
  | n + 1, some a, prev =>
      if P a then some (some a, prev) else walkPrev next P n (next a) (some a)

/-- A walk over a chain ends at its end, or at its first element with `P`. -/
theorem Chain.walkPrev_cases {P : α → Bool} {n : Nat} (hc : Chain next h l) (hn : l.length ≤ n)
    (prev : Option α) :
    ((∀ a ∈ l, P a = false) ∧ ∃ prev', walkPrev next P n h prev = some (none, prev')) ∨
    ∃ l₁ a l₂, l = l₁ ++ a :: l₂ ∧ P a = true ∧ (∀ b ∈ l₁, P b = false) ∧
      walkPrev next P n h prev = some (some a, l₁.getLast?.or prev) := by
  induction l generalizing h n prev with
  | nil =>
      obtain rfl : h = none := hc
      exact Or.inl ⟨fun a ha => absurd ha List.not_mem_nil, prev, by cases n <;> rfl⟩
  | cons a l ih =>
      obtain ⟨rfl, hrest⟩ := hc
      cases n with
      | zero => cases hn
      | succ n =>
          rw [walkPrev]
          cases hP : P a with
          | true => exact Or.inr ⟨[], a, l, rfl, hP, fun b hb => absurd hb List.not_mem_nil, rfl⟩
          | false =>
              rw [if_neg (by simp)]
              rcases ih hrest (Nat.le_of_succ_le_succ hn) (some a) with
                ⟨hall, hw⟩ | ⟨l₁, b, l₂, rfl, hb, hall, hw⟩
              · exact Or.inl ⟨List.forall_mem_cons.mpr ⟨hP, hall⟩, hw⟩
              · refine Or.inr ⟨a :: l₁, b, l₂, rfl, hb, List.forall_mem_cons.mpr ⟨hP, hall⟩, ?_⟩
                rw [hw, List.getLast?_cons]
                cases l₁.getLast? <;> rfl

/-- The walk with the element before cuts the list where `P`, here as `Q`, first holds. -/
theorem Chain.walkPrev_eq {P Q : α → Bool} {n : Nat} (hc : Chain next h l) (hn : l.length ≤ n)
    (hPQ : ∀ a ∈ l, P a = Q a) (prev : Option α) :
    walkPrev next P n h prev =
      some ((l.dropWhile (! Q ·)).head?, (l.takeWhile (! Q ·)).getLast?.or prev) := by
  induction l generalizing h n prev with
  | nil =>
      obtain rfl : h = none := hc
      cases n <;> rfl
  | cons a l ih =>
      obtain ⟨rfl, hrest⟩ := hc
      cases n with
      | zero => cases hn
      | succ n =>
          rw [walkPrev, List.dropWhile_cons, List.takeWhile_cons, hPQ a List.mem_cons_self]
          cases hQ : Q a with
          | true => rfl
          | false =>
              rw [if_neg (by simp), ih hrest (Nat.le_of_succ_le_succ hn)
                (fun b hb => hPQ b (List.mem_cons_of_mem a hb)) (some a)]
              simp only [Bool.not_false, if_true, List.getLast?_cons]
              cases (l.takeWhile (! Q ·)).getLast? <;> rfl

/-! ### Threading a list -/

section Thread

variable {next : Nat → Option Nat} {a stride n : Nat} {last : Option Nat} {l : List Nat}

/-- Link `a` to `a + stride`, and so on `n` times; the last one is linked to `last`. -/
def thread (next : Nat → Option Nat) (stride a : Nat) (last : Option Nat) :
    Nat → Nat → Option Nat
  | 0 => Function.update next a last
  | n + 1 => thread (Function.update next a (some (a + stride))) stride (a + stride) last n

/-- `n + 1` addresses from `a` on. -/
def addresses (stride a n : Nat) : List Nat := (List.range (n + 1)).map fun k => a + stride * k

theorem mem_addresses {b : Nat} : b ∈ addresses stride a n ↔ ∃ k, k ≤ n ∧ a + stride * k = b := by
  simp only [addresses, List.mem_map, List.mem_range, Nat.lt_succ_iff]

theorem addresses_nodup (hs : 0 < stride) : (addresses stride a n).Nodup := by
  refine List.Nodup.map_on (fun k _ k' _ h => ?_) List.nodup_range
  exact Nat.eq_of_mul_eq_mul_left hs (Nat.add_left_cancel h)

theorem length_addresses : (addresses stride a n).length = n + 1 := by
  rw [addresses, List.length_map, List.length_range]

theorem addresses_succ :
    addresses stride a (n + 1) = a :: addresses stride (a + stride) n := by
  rw [addresses, List.range_succ_eq_map, List.map_cons, List.map_map, addresses]
  congr 1
  refine List.map_congr_left fun k _ => ?_
  simp only [Function.comp]
  rw [Nat.succ_eq_add_one, Nat.mul_add, Nat.mul_one]
  omega

theorem thread_of_notMem {b : Nat} (hb : b ∉ addresses stride a n) :
    thread next stride a last n b = next b := by
  induction n generalizing next a with
  | zero =>
      have hne : b ≠ a := fun he => hb (mem_addresses.mpr ⟨0, Nat.le_refl 0, by omega⟩)
      rw [thread, Function.update_of_ne hne]
  | succ n ih =>
      rw [addresses_succ, List.mem_cons, not_or] at hb
      rw [thread, ih hb.2, Function.update_of_ne hb.1]

theorem chain_thread (hs : 0 < stride) (hl : Chain next last l)
    (hd : ∀ b ∈ l, b ∉ addresses stride a n) :
    Chain (thread next stride a last n) (some a) (addresses stride a n ++ l) := by
  induction n generalizing next a with
  | zero =>
      have hzero : addresses stride a 0 = [a] := rfl
      rw [hzero, List.singleton_append]
      refine ⟨rfl, ?_⟩
      rw [thread, Function.update_self]
      refine hl.congr fun b hb => Function.update_of_ne (fun he => hd b hb ?_) _ _
      exact mem_addresses.mpr ⟨0, Nat.le_refl 0, by omega⟩
  | succ n ih =>
      rw [addresses_succ, List.cons_append]
      have hd' : ∀ b ∈ l, b ≠ a ∧ b ∉ addresses stride (a + stride) n := fun b hb => by
        have := hd b hb
        rwa [addresses_succ, List.mem_cons, not_or] at this
      have ha : a ∉ addresses stride (a + stride) n := by
        rw [mem_addresses]
        rintro ⟨k, -, hk⟩
        omega
      refine ⟨rfl, ?_⟩
      rw [thread, thread_of_notMem ha, Function.update_self]
      exact ih (hl.congr fun b hb => Function.update_of_ne (hd' b hb).1 _ _) fun b hb => (hd' b hb).2

end Thread

end LinuxKernel
