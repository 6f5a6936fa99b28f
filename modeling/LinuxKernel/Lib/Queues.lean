import LinuxKernel.Lib.Chain

/-!
# LinuxKernel.Lib.Queues

**Doubly linked lists threaded through their elements**, and families of them:
a table of heads, each the start of a list, an element on one list at most.

`Linked next prev p head l` reads the links off: the elements of `l` in order,
starting at `head`, with `p` before the first one. `Queued next prev head key`
says that list `i` of the family holds exactly the elements with `key a = some i`.
-/

namespace LinuxKernel

variable {α ι : Type} {next prev next' prev' : α → Option α} {p h : Option α} {l l₁ l₂ : List α}
  {a x : α}

/-- The list that starts at `h`, with `p` before its first element. -/
def Linked (next prev : α → Option α) (p h : Option α) : List α → Prop
  | [] => h = none
  | a :: l => h = some a ∧ prev a = p ∧ Linked next prev (some a) (next a) l

namespace Linked

theorem congr (hl : Linked next prev p h l) (hn : ∀ a ∈ l, next' a = next a)
    (hp : ∀ a ∈ l, prev' a = prev a) : Linked next' prev' p h l := by
  induction l generalizing p h with
  | nil => exact hl
  | cons a l ih =>
      obtain ⟨hh, hpa, hrest⟩ := hl
      refine ⟨hh, (hp a List.mem_cons_self).trans hpa, ?_⟩
      rw [hn a List.mem_cons_self]
      exact ih hrest (fun b hb => hn b (List.mem_cons_of_mem a hb))
        fun b hb => hp b (List.mem_cons_of_mem a hb)

theorem head_eq (hl : Linked next prev p h l) : h = l.head? := by
  cases l with
  | nil => exact hl
  | cons a l => exact hl.1

/-- The links of an element are its neighbours. -/
theorem split (hl : Linked next prev p h (l₁ ++ x :: l₂)) :
    prev x = l₁.getLast?.or p ∧ next x = l₂.head? := by
  induction l₁ generalizing p h with
  | nil =>
      obtain ⟨-, hp, hrest⟩ := hl
      exact ⟨by rw [hp]; rfl, hrest.head_eq⟩
  | cons b l₁ ih =>
      obtain ⟨hprev, hnext⟩ := ih hl.2.2
      refine ⟨?_, hnext⟩
      rw [hprev, List.getLast?_cons]
      cases l₁.getLast? <;> rfl

theorem prev_mem (hl : Linked next prev none h (l₁ ++ x :: l₂)) (hx : prev x = some a) :
    a ∈ l₁ := by
  rw [hl.split.1, Option.or_none] at hx
  exact List.mem_of_getLast? hx

theorem next_mem (hl : Linked next prev p h (l₁ ++ x :: l₂)) (hx : next x = some a) : a ∈ l₂ := by
  rw [hl.split.2] at hx
  exact List.mem_of_head? hx

/-- Put `x` in front. -/
theorem push [DecidableEq α] (hl : Linked next prev none h l) (hx : x ∉ l)
    (hn : next' x = h) (hn' : ∀ a, a ≠ x → next' a = next a)
    (hp : prev' x = none) (hp' : ∀ a, a ≠ x → prev' a = if h = some a then some x else prev a)
    (hnd : l.Nodup) : Linked next' prev' none (some x) (x :: l) := by
  refine ⟨rfl, hp, ?_⟩
  rw [hn]
  cases l with
  | nil => exact hl
  | cons b l =>
      obtain ⟨rfl, -, hrest⟩ := hl
      have hne : ∀ a ∈ b :: l, a ≠ x := fun a ha he => hx (he ▸ ha)
      refine ⟨rfl, by rw [hp' b (hne b List.mem_cons_self), if_pos rfl], ?_⟩
      rw [hn' b (hne b List.mem_cons_self)]
      refine hrest.congr (fun a ha => hn' a (hne a (List.mem_cons_of_mem b ha))) fun a ha => ?_
      rw [hp' a (hne a (List.mem_cons_of_mem b ha)), if_neg]
      rintro he
      cases he
      exact (List.nodup_cons.mp hnd).1 ha

/-- Take `x` out: its neighbours are linked to each other. -/
theorem remove (hl : Linked next prev p h (l₁ ++ x :: l₂)) (hnd : (l₁ ++ x :: l₂).Nodup)
    (hpm : ∀ a, p = some a → a ∉ l₁ ++ x :: l₂) [DecidableEq α]
    (hn : ∀ a, next' a = if prev x = some a then next x else next a)
    (hp : ∀ a, prev' a = if next x = some a then prev x else prev a) :
    Linked next' prev' p (if h = some x then next x else h) (l₁ ++ l₂) := by
  induction l₁ generalizing p h with
  | nil =>
      obtain ⟨rfl, hprev, hrest⟩ := hl
      rw [if_pos rfl]
      have hnd₂ := (List.nodup_cons.mp hnd).2
      have hnext : ∀ a ∈ l₂, next' a = next a := fun a ha => by
        rw [hn, if_neg]
        exact fun he => hpm a (hprev.symm.trans he) (List.mem_cons_of_mem x ha)
      cases l₂ with
      | nil => exact hrest
      | cons b l₂ =>
          obtain ⟨hb, -, hrest⟩ := hrest
          refine ⟨hb, by rw [hp, if_pos hb, hprev], ?_⟩
          rw [hnext b List.mem_cons_self]
          refine hrest.congr (fun a ha => hnext a (List.mem_cons_of_mem b ha)) fun a ha => ?_
          rw [hp, if_neg]
          intro he
          rw [hb] at he
          cases he
          exact (List.nodup_cons.mp hnd₂).1 ha
  | cons b l₁ ih =>
      have hsplit := hl.2.2.split
      obtain ⟨rfl, hprev, hrest⟩ := hl
      have hndr := (List.nodup_cons.mp hnd).2
      have hb := (List.nodup_cons.mp hnd).1
      have hbx : b ≠ x := fun he => hb (he ▸ by simp)
      have hnx : next x ≠ some b := fun he => by
        rw [hsplit.2] at he
        exact hb (List.mem_append_right _ (List.mem_cons_of_mem x (List.mem_of_head? he)))
      rw [if_neg (fun he => hbx (Option.some.inj he))]
      refine ⟨rfl, by rw [hp, if_neg hnx, hprev], ?_⟩
      have hnb : next' b = if next b = some x then next x else next b := by
        rw [hn, hsplit.1]
        cases l₁ with
        | nil =>
            obtain ⟨hnb, -⟩ := hrest
            rw [if_pos (by rfl), if_pos hnb]
        | cons c l₁ =>
            obtain ⟨hnb, -⟩ := hrest
            have hcx : c ≠ x := fun he => (List.nodup_cons.mp hndr).1 (he ▸ by simp)
            rw [if_neg, if_neg (by rw [hnb]; exact fun he => hcx (Option.some.inj he))]
            intro he
            rw [List.getLast?_cons, Option.some_or, Option.some.injEq] at he
            refine hb (List.mem_append_left _ ?_)
            cases hlast : l₁.getLast? with
            | none =>
                rw [hlast] at he
                exact he ▸ List.mem_cons_self
            | some d =>
                rw [hlast] at he
                exact he ▸ List.mem_cons_of_mem c (List.mem_of_getLast? hlast)
      rw [hnb]
      exact ih hrest hndr fun a ha => by cases ha; exact hb

end Linked

theorem Linked.chain (hl : Linked next prev p h l) : Chain next h l := by
  induction l generalizing p h with
  | nil => exact hl
  | cons a l ih => exact ⟨hl.1, ih hl.2.2⟩

/-- A store through a pointer, nothing if that is `none`. -/
def storeAt {β : Type} [DecidableEq α] (f : α → β) (x : Option α) (v : β) : α → β :=
  match x with
  | some x => Function.update f x v
  | none => f

theorem storeAt_apply {β : Type} [DecidableEq α] (f : α → β) (x : Option α) (v : β) (a : α) :
    storeAt f x v a = if x = some a then v else f a := by
  cases x with
  | none => rw [if_neg nofun]; rfl
  | some x =>
      rw [storeAt, Function.update_apply]
      simp only [Option.some.injEq, eq_comm]

/-! ### Families of queues -/

/-- Queue `i` starts at `head i` and holds the elements with key `i`. -/
def Queued (next prev : α → Option α) (head : ι → Option α) (key : α → Option ι) : Prop :=
  ∀ i, ∃ l : List α, Linked next prev none (head i) l ∧ l.Nodup ∧ ∀ a, a ∈ l ↔ key a = some i

/-- An element on no queue has no links. -/
def Unlinked (next prev : α → Option α) (key : α → Option ι) : Prop :=
  ∀ a, key a = none → next a = none ∧ prev a = none

namespace Queued

variable {head head' : ι → Option α} {key : α → Option ι} {i : ι}

/-- An element of one queue is on no other. -/
theorem notMem_of_ne {j : ι} (hij : i ≠ j) (ha : key a = some i) (hm : ∀ a, a ∈ l ↔ key a = some j) :
    a ∉ l := by
  intro hin
  have hj := (hm a).mp hin
  rw [ha] at hj
  exact hij (Option.some.inj hj)

/-- What a queue starts with is on it. -/
theorem head_key (hq : Queued next prev head key) (ha : head i = some a) : key a = some i := by
  obtain ⟨l, hl, -, hmem⟩ := hq i
  rw [hl.head_eq] at ha
  exact (hmem a).mp (List.mem_of_head? ha)

/-- The neighbours of an element are on the same queue, and linked back. -/
theorem next_key (hq : Queued next prev head key) (hx : key x = some i) (ha : next x = some a) :
    key a = some i ∧ prev a = some x ∧ a ≠ x := by
  obtain ⟨l, hl, hnd, hmem⟩ := hq i
  obtain ⟨l₁, l₂, rfl⟩ := List.append_of_mem ((hmem x).mpr hx)
  rw [hl.split.2] at ha
  obtain ⟨l₃, rfl⟩ := List.head?_eq_some_iff.mp ha
  have hsplit : l₁ ++ x :: a :: l₃ = (l₁ ++ [x]) ++ a :: l₃ := by simp
  have hne : a ≠ x := by
    rintro rfl
    simp [List.nodup_append] at hnd
  refine ⟨(hmem a).mp (by simp), ?_, hne⟩
  rw [hsplit] at hl
  simpa using hl.split.1

theorem prev_key (hq : Queued next prev head key) (hx : key x = some i) (ha : prev x = some a) :
    key a = some i ∧ next a = some x ∧ a ≠ x := by
  obtain ⟨l, hl, hnd, hmem⟩ := hq i
  obtain ⟨l₁, l₂, rfl⟩ := List.append_of_mem ((hmem x).mpr hx)
  rw [hl.split.1, Option.or_none] at ha
  obtain ⟨l₃, rfl⟩ := List.getLast?_eq_some_iff.mp ha
  have hne : a ≠ x := by
    rintro rfl
    simp [List.nodup_append] at hnd
  have hsplit : l₃ ++ [a] ++ x :: l₂ = l₃ ++ a :: x :: l₂ := by simp
  refine ⟨(hmem a).mp (by simp), ?_, hne⟩
  rw [hsplit] at hl
  simpa using hl.split.2

theorem head_prev (hq : Queued next prev head key) (ha : head i = some a) : prev a = none := by
  obtain ⟨l, hl, -, -⟩ := hq i
  rw [hl.head_eq] at ha
  obtain ⟨l₁, rfl⟩ := List.head?_eq_some_iff.mp ha
  exact hl.2.1

/-- The element of a queue with nothing before it is its head. -/
theorem prev_none_iff (hq : Queued next prev head key) (hx : key x = some i) :
    prev x = none ↔ head i = some x := by
  refine ⟨fun hp => ?_, hq.head_prev⟩
  obtain ⟨l, hl, -, hmem⟩ := hq i
  obtain ⟨l₁, l₂, rfl⟩ := List.append_of_mem ((hmem x).mpr hx)
  rw [hl.split.1, Option.or_none, List.getLast?_eq_none_iff] at hp
  rw [hp] at hl
  exact hl.1

variable [DecidableEq α]

/-- Take `x` off its queue. -/
theorem remove (hq : Queued next prev head key) (hu : key x = none → next x = none ∧ prev x = none)
    (hn : ∀ a, next' a = if prev x = some a then next x else next a)
    (hp : ∀ a, prev' a = if next x = some a then prev x else prev a)
    (hh : ∀ i, key x = some i → head' i = if head i = some x then next x else head i)
    (hh' : ∀ i, key x ≠ some i → head' i = head i) :
    Queued next' prev' head' (Function.update key x none) := by
  have hkey : ∀ a i, Function.update key x none a = some i ↔ a ≠ x ∧ key a = some i := by
    intro a i
    by_cases hax : a = x
    · subst hax
      simp
    · simp [hax]
  cases hx : key x with
  | none =>
      obtain ⟨hnx, hpx⟩ := hu hx
      intro i
      obtain ⟨l, hl, hnd, hmem⟩ := hq i
      refine ⟨l, ?_, hnd, fun a => ?_⟩
      · rw [hh' i (by rw [hx]; exact nofun)]
        refine hl.congr (fun a _ => ?_) fun a _ => ?_
        · rw [hn, hpx, if_neg nofun]
        · rw [hp, hnx, if_neg nofun]
      · rw [hkey, hmem]
        refine ⟨fun ha => ⟨fun he => ?_, ha⟩, fun ha => ha.2⟩
        rw [he, hx] at ha
        cases ha
  | some j =>
      obtain ⟨lx, hlx, hndx, hmemx⟩ := hq j
      obtain ⟨l₁, l₂, rfl⟩ := List.append_of_mem ((hmemx x).mpr hx)
      intro i
      by_cases hij : i = j
      · subst hij
        refine ⟨l₁ ++ l₂, ?_, ?_, fun a => ?_⟩
        · rw [hh i hx]
          exact hlx.remove hndx nofun hn hp
        · exact (List.nodup_middle.mp hndx).of_cons
        · rw [hkey, ← hmemx]
          have hx : x ∉ l₁ ++ l₂ := (List.nodup_cons.mp (List.nodup_middle.mp hndx)).1
          simp only [List.mem_append, List.mem_cons] at hx ⊢
          constructor
          · intro ha
            exact ⟨fun he => hx (he ▸ ha), ha.imp_right Or.inr⟩
          · rintro ⟨hax, ha | rfl | ha⟩
            · exact Or.inl ha
            · exact absurd rfl hax
            · exact Or.inr ha
      · obtain ⟨l, hl, hnd, hmem⟩ := hq i
        have hout : ∀ a ∈ l, a ∉ l₁ ++ x :: l₂ := fun a ha =>
          notMem_of_ne hij ((hmem a).mp ha) hmemx
        refine ⟨l, ?_, hnd, fun a => ?_⟩
        · rw [hh' i (by rw [hx]; exact fun he => hij (Option.some.inj he).symm)]
          refine hl.congr (fun a ha => ?_) fun a ha => ?_
          · rw [hn, if_neg]
            exact fun he => hout a ha (List.mem_append_left _ (hlx.prev_mem he))
          · rw [hp, if_neg]
            exact fun he => hout a ha
              (List.mem_append_right _ (List.mem_cons_of_mem x (hlx.next_mem he)))
        · rw [hkey, hmem]
          refine ⟨fun ha => ⟨fun he => hout a ((hmem a).mpr ha) (he ▸ by simp), ha⟩, fun ha => ha.2⟩

/-- The elements on no queue stay without links. -/
theorem remove_unlinked (hq : Queued next prev head key) (hu : Unlinked next prev key)
    (hn : ∀ a, next' a = if prev x = some a then next x else next a)
    (hp : ∀ a, prev' a = if next x = some a then prev x else prev a) (ha : key a = none) :
    next' a = none ∧ prev' a = none := by
  obtain ⟨hna, hpa⟩ := hu a ha
  rw [hn, hp, hna, hpa]
  cases hx : key x with
  | none =>
      obtain ⟨hnx, hpx⟩ := hu x hx
      rw [hnx, hpx]
      exact ⟨rfl, rfl⟩
  | some i =>
      obtain ⟨l, hl, -, hmem⟩ := hq i
      obtain ⟨l₁, l₂, rfl⟩ := List.append_of_mem ((hmem x).mpr hx)
      have hout : a ∉ l₁ ++ x :: l₂ := fun hin => by
        rw [hmem, ha] at hin
        cases hin
      rw [if_neg fun he => hout (List.mem_append_left _ (hl.prev_mem he)), if_neg fun he =>
        hout (List.mem_append_right _ (List.mem_cons_of_mem x (hl.next_mem he)))]
      exact ⟨rfl, rfl⟩

variable (next' prev') in
/-- Put `x`, which is on no queue, at the head of queue `i`. -/
theorem insert [DecidableEq ι] (hq : Queued next prev head key) (hx : key x = none)
    (hn : next' x = head i) (hn' : ∀ a, a ≠ x → next' a = next a)
    (hp : prev' x = none) (hp' : ∀ a, a ≠ x → prev' a = if head i = some a then some x else prev a) :
    Queued next' prev' (Function.update head i (some x)) (Function.update key x (some i)) := by
  intro j
  obtain ⟨l, hl, hnd, hmem⟩ := hq j
  have hxl : x ∉ l := fun hin => by
    rw [hmem, hx] at hin
    cases hin
  by_cases hij : j = i
  · subst hij
    refine ⟨x :: l, ?_, List.nodup_cons.mpr ⟨hxl, hnd⟩, fun a => ?_⟩
    · rw [Function.update_self]
      exact hl.push hxl hn hn' hp hp' hnd
    · by_cases hax : a = x
      · subst hax
        simp
      · simp [hax, hmem]
  · refine ⟨l, ?_, hnd, fun a => ?_⟩
    · rw [Function.update_of_ne hij]
      obtain ⟨li, hli, -, hmemi⟩ := hq i
      refine hl.congr (fun a ha => hn' a fun he => hxl (he ▸ ha)) fun a ha => ?_
      rw [hp' a fun he => hxl (he ▸ ha), if_neg]
      intro he
      rw [hli.head_eq] at he
      exact notMem_of_ne hij ((hmem a).mp ha) hmemi (List.mem_of_head? he)
    · by_cases hax : a = x
      · subst hax
        simp only [Function.update_self, Option.some.injEq]
        exact ⟨fun ha => absurd ha hxl, fun he => absurd he.symm hij⟩
      · rw [Function.update_of_ne hax, hmem]

end Queued

end LinuxKernel
