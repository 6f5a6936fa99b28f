import Mathlib.Data.Fintype.Card
import LinuxKernel.Lib.Chain
import LinuxKernel.Lib.DeltaList
import LinuxKernel.Lib.System

/-!
# LinuxKernel.V011.Timer

The **timer requests** of `kernel/sched.c`: `add_timer` and the part of
`do_timer` that calls the functions whose time has come.

The pending requests are a delta list threaded through the array `timer_list`.
`add_timer` puts the new request in front and lets it sink by swapping the
contents of neighbours.

- A function is called at once or from the clock interrupt; what it does
  besides is not part of the model, so a call is an entry of `called`.
- `now` counts the ticks, and `added` has for each request the tick it is due.
-/

namespace LinuxKernel.V011.Timer

open DeltaList

variable {Fn : Type}

/-! ### The code -/

def TIME_REQUESTS : Nat := 64

/-- `struct timer_list`. A free slot is one with `fn` NULL. -/
structure TimerList (Fn : Type) where
  jiffies : Int
  fn : Option Fn
  next : Option (Fin TIME_REQUESTS)

structure State (Fn : Type) where
  timerList : Fin TIME_REQUESTS → TimerList Fn
  nextTimer : Option (Fin TIME_REQUESTS)
  now : Int
  called : List (Int × Option Fn)
  added : List (Int × Option Fn)

/-- The body of the loop of `add_timer`: `q` gets the rest of what `p` has to
wait, and they change places. -/
def swap (t : Fin TIME_REQUESTS → TimerList Fn) (p q : Fin TIME_REQUESTS) :
    Fin TIME_REQUESTS → TimerList Fn :=
  Function.update
    (Function.update t p { t p with jiffies := (t q).jiffies, fn := (t q).fn })
    q { t q with jiffies := (t p).jiffies - (t q).jiffies, fn := (t p).fn }

/-- The loop of `add_timer` that sorts the new request `p` in. -/
def sift (t : Fin TIME_REQUESTS → TimerList Fn) (p : Fin TIME_REQUESTS) :
    Nat → Fin TIME_REQUESTS → TimerList Fn
  | 0 => t
  | fuel + 1 =>
      match (t p).next with
      | none => t
      | some q =>
          if (t q).jiffies < (t p).jiffies then sift (swap t p q) q fuel else t

/-- The first free slot. -/
def freeSlot (t : Fin TIME_REQUESTS → TimerList Fn) : Option (Fin TIME_REQUESTS) :=
  (List.finRange TIME_REQUESTS).find? fun p => (t p).fn.isNone

/-- The new request in slot `p`, in front of the others. -/
def link (s : State Fn) (p : Fin TIME_REQUESTS) (jiffies : Int) (fn : Option Fn) :
    Fin TIME_REQUESTS → TimerList Fn :=
  Function.update s.timerList p { jiffies := jiffies, fn := fn, next := s.nextTimer }

/-- `(fn)()`. -/
def call (s : State Fn) (fn : Option Fn) : State Fn :=
  { s with called := s.called ++ [(s.now, fn)] }

/-- `add_timer`. -/
def addTimer (s : State Fn) (jiffies : Int) (fn : Option Fn) : Outcome (State Fn) :=
  if fn.isNone then .next s
  else
    let s := { s with added := s.added ++ [(if jiffies ≤ 0 then s.now else s.now + jiffies, fn)] }
    if jiffies ≤ 0 then .next (call s fn)
    else
      match freeSlot s.timerList with
      | none => .panic "No more time requests free"
      | some p =>
          .next { s with
            timerList := sift (link s p jiffies fn) p TIME_REQUESTS
            nextTimer := some p }

/-- The loop of `do_timer`. -/
def callExpired (s : State Fn) : Nat → State Fn
  | 0 => s
  | fuel + 1 =>
      match s.nextTimer with
      | none => s
      | some p =>
          if (s.timerList p).jiffies ≤ 0 then
            let s' := { s with
              timerList := Function.update s.timerList p { s.timerList p with fn := none }
              nextTimer := (s.timerList p).next }
            callExpired (call s' (s.timerList p).fn) fuel
          else s

/-- `do_timer`, as far as it is about timer requests. -/
def doTimer (s : State Fn) : State Fn :=
  let s := { s with now := s.now + 1 }
  match s.nextTimer with
  | none => s
  | some p =>
      callExpired { s with
        timerList := Function.update s.timerList p
          { s.timerList p with jiffies := (s.timerList p).jiffies - 1 } } TIME_REQUESTS

inductive Op (Fn : Type)
  | addTimer (jiffies : Int) (fn : Option Fn)
  | doTimer

def step (s : State Fn) : Op Fn → Outcome (State Fn)
  | .addTimer jiffies fn => addTimer s jiffies fn
  | .doTimer => .next (doTimer s)

/-- After boot. -/
def initial : State Fn where
  timerList := fun _ => { jiffies := 0, fn := none, next := none }
  nextTimer := none
  now := 0
  called := []
  added := []

/-! ### What is claimed -/

/-- The calls so far are those that are due, each at its tick. -/
def OnTime (s : State Fn) : Prop := s.called.Perm (s.added.filter fun e => e.1 ≤ s.now)

instance [DecidableEq Fn] (s : State Fn) : Decidable (OnTime s) :=
  inferInstanceAs (Decidable (List.Perm _ _))

/-- On time at every point of the run, and from there on however long the
clock ticks. -/
def Punctual (s : State Fn) (ops : List (Op Fn)) : Prop :=
  ∀ ops', ops' <+: ops → ∀ n s', run step s (ops' ++ List.replicate n .doTimer) = .next s' →
    OnTime s'

/-- The sum of the `jiffies` along the list. -/
def sumJiffies (t : Fin TIME_REQUESTS → TimerList Fn) :
    Nat → Option (Fin TIME_REQUESTS) → Int
  | fuel + 1, some p => (t p).jiffies + sumJiffies t fuel (t p).next
  | _, _ => 0

/-- The number of ticks until no request is left. -/
def remaining (s : State Fn) : Int := sumJiffies s.timerList TIME_REQUESTS s.nextTimer

/-- A new request is to be called later than all pending ones. -/
def Last (s : State Fn) : Op Fn → Prop
  | .addTimer jiffies fn => fn.isSome → 0 < jiffies → remaining s < jiffies
  | .doTimer => True

/-! ### The delta list -/

/-- What the slots of the list `l` hold. -/
def entries (t : Fin TIME_REQUESTS → TimerList Fn) (l : List (Fin TIME_REQUESTS)) :
    List (Int × Option Fn) :=
  l.map fun p => ((t p).jiffies, (t p).fn)

/-- What `sift` does to the entries: it subtracts the deltas that it passes
from the new one, and leaves the ones that it does not pass as they are. -/
def siftEntries (d : Int) (fn : Option Fn) : List (Int × Option Fn) → List (Int × Option Fn)
  | [] => [(d, fn)]
  | (a, g) :: l => if a < d then (a, g) :: siftEntries (d - a) fn l else (d, fn) :: (a, g) :: l

/-- `l` are the slots of the pending requests, in the order of the list. -/
structure Pending (s : State Fn) (l : List (Fin TIME_REQUESTS)) : Prop where
  chain : Chain (fun p => (s.timerList p).next) s.nextTimer l
  used : ∀ p, (s.timerList p).fn.isSome ↔ p ∈ l
  positive : Positive (entries s.timerList l)

/-- The pending requests with the ticks at which they will be called. -/
def due (s : State Fn) (l : List (Fin TIME_REQUESTS)) : List (Int × Option Fn) :=
  deadlines s.now (entries s.timerList l)

variable {s s' : State Fn} {t t' : Fin TIME_REQUESTS → TimerList Fn} {p q : Fin TIME_REQUESTS}
  {l : List (Fin TIME_REQUESTS)} {fn : Option Fn} {d : Int} {fuel : Nat}

theorem entries_cons :
    entries t (p :: l) = ((t p).jiffies, (t p).fn) :: entries t l := rfl

theorem entries_congr (h : ∀ p ∈ l, t' p = t p) : entries t' l = entries t l :=
  List.map_congr_left fun p hp => by rw [h p hp]

theorem length_entries : (entries t l).length = l.length := List.length_map _

theorem siftEntries_positive {es : List (Int × Option Fn)} (hd : 0 < d) (hp : Positive es) :
    Positive (siftEntries d fn es) := by
  induction es generalizing d with
  | nil =>
      intro e he
      obtain rfl : e = (d, fn) := by simpa [siftEntries] using he
      exact hd
  | cons e es ih =>
      have hrest : Positive es := fun e' h => hp e' (List.mem_cons_of_mem e h)
      intro e' he'
      rw [siftEntries] at he'
      split at he'
      · rcases List.mem_cons.mp he' with rfl | he'
        · exact hp _ List.mem_cons_self
        · exact ih (by omega) hrest e' he'
      · rcases List.mem_cons.mp he' with rfl | he'
        · exact hd
        · exact hp e' he'

theorem siftEntries_isSome {es : List (Int × Option Fn)} (hfn : fn.isSome)
    (hes : ∀ e ∈ es, e.2.isSome) : ∀ e ∈ siftEntries d fn es, e.2.isSome := by
  induction es generalizing d with
  | nil =>
      intro e he
      obtain rfl : e = (d, fn) := by simpa [siftEntries] using he
      exact hfn
  | cons e es ih =>
      intro e' he'
      rw [siftEntries] at he'
      split at he'
      · rcases List.mem_cons.mp he' with rfl | he'
        · exact hes _ List.mem_cons_self
        · exact ih (fun e h => hes e (List.mem_cons_of_mem _ h)) e' he'
      · rcases List.mem_cons.mp he' with rfl | he'
        · exact hfn
        · exact hes e' he'

/-- A request that is later than all others goes to the end. -/
theorem siftEntries_last {es : List (Int × Option Fn)} (hp : Positive es) (hd : total es < d) :
    siftEntries d fn es = es ++ [(d - total es, fn)] := by
  induction es generalizing d with
  | nil => simp [siftEntries, total]
  | cons e es ih =>
      have hrest : Positive es := fun e' h => hp e' (List.mem_cons_of_mem e h)
      have hnn := total_nonneg hrest
      simp only [total] at hd
      rw [siftEntries, if_pos (by omega), ih hrest (by omega), total, List.cons_append]
      congr 4
      omega

variable (fn) in
/-- Any other request makes a pending one late. -/
theorem total_siftEntries_gt {es : List (Int × Option Fn)} (hp : Positive es) (hpos : 0 < d)
    (hd : d ≤ total es) : total es < total (siftEntries d fn es) := by
  induction es generalizing d with
  | nil =>
      rw [total] at hd
      omega
  | cons e es ih =>
      have hrest : Positive es := fun e' h => hp e' (List.mem_cons_of_mem e h)
      simp only [total] at hd
      rw [siftEntries]
      split
      · have := ih (d := d - e.1) hrest (by omega) (by omega)
        simp only [total]
        omega
      · simp only [total]
        omega

/-! ### The loop of `add_timer` -/

@[simp] theorem swap_next (r : Fin TIME_REQUESTS) : (swap t p q r).next = (t r).next := by
  by_cases hq : r = q
  · subst hq
    simp [swap]
  · by_cases hp : r = p
    · subst hp
      simp [swap, hq]
    · simp [swap, hp, hq]

theorem swap_ne {r : Fin TIME_REQUESTS} (hp : r ≠ p) (hq : r ≠ q) : swap t p q r = t r := by
  simp [swap, hp, hq]

/-- The loop moves the contents of the slots from `p` on, and nothing else. -/
theorem sift_spec (hc : Chain (fun q => (t q).next) (some p) (p :: l)) (hf : l.length ≤ fuel) :
    (∀ r, (sift t p fuel r).next = (t r).next) ∧
      (∀ r, r ∉ p :: l → sift t p fuel r = t r) ∧
      entries (sift t p fuel) (p :: l) =
        siftEntries (t p).jiffies (t p).fn (entries t l) := by
  induction l generalizing t p fuel with
  | nil =>
      have hnext : (t p).next = none := hc.2
      have hsift : sift t p fuel = t := by
        cases fuel with
        | zero => rfl
        | succ fuel => simp [sift, hnext]
      rw [hsift]
      exact ⟨fun r => rfl, fun r hr => rfl, rfl⟩
  | cons q l ih =>
      obtain ⟨fuel, rfl⟩ : ∃ n, fuel = n + 1 := ⟨fuel - 1, by simp at hf; omega⟩
      have hnext : (t p).next = some q := hc.2.1
      have hnodup := hc.nodup
      obtain ⟨hpq, hpl⟩ : p ≠ q ∧ p ∉ l := by
        simpa using (List.nodup_cons.mp hnodup).1
      have hql : q ∉ l := (List.nodup_cons.mp (List.nodup_cons.mp hnodup).2).1
      rw [entries_cons (t := t) (p := q), siftEntries]
      by_cases hlt : (t q).jiffies < (t p).jiffies
      · have hsift : sift t p (fuel + 1) = sift (swap t p q) q fuel := by
          simp [sift, hnext, hlt]
        have hrest : Chain (fun r => (swap t p q r).next) (some q) (q :: l) := by
          simp only [swap_next]
          exact ⟨rfl, hc.2.2⟩
        obtain ⟨hn, hout, hent⟩ := ih hrest (by simp at hf; omega)
        rw [hsift, if_pos hlt]
        refine ⟨fun r => (hn r).trans (swap_next r), fun r hr => ?_, ?_⟩
        · obtain ⟨hrp, hrq, hrl⟩ : r ≠ p ∧ r ≠ q ∧ r ∉ l := by simpa using hr
          rw [hout r (by simp [hrq, hrl]), swap_ne hrp hrq]
        · have hsame : entries (swap t p q) l = entries t l :=
            entries_congr fun r hr => swap_ne (fun he => hpl (he ▸ hr)) (fun he => hql (he ▸ hr))
          have hp' : sift (swap t p q) q fuel p = swap t p q p :=
            hout p (by simp [hpq, hpl])
          rw [entries_cons, hent, hp', hsame]
          simp [swap, hpq]
      · have hsift : sift t p (fuel + 1) = t := by simp [sift, hnext, hlt]
        rw [hsift, if_neg hlt]
        exact ⟨fun r => rfl, fun r hr => rfl, rfl⟩

/-! ### One call and one tick -/

namespace Pending

theorem nodup (h : Pending s l) : l.Nodup := h.chain.nodup

theorem length_le (h : Pending s l) : l.length ≤ TIME_REQUESTS := by
  have := List.Nodup.length_le_card h.nodup
  rwa [Fintype.card_fin] at this

theorem isSome_of_mem (h : Pending s l) :
    ∀ e ∈ entries s.timerList l, e.2.isSome := by
  intro e he
  obtain ⟨p, hp, rfl⟩ := List.mem_map.mp he
  exact (h.used p).mpr hp

end Pending

theorem sumJiffies_eq {h : Option (Fin TIME_REQUESTS)} (hc : Chain (fun p => (t p).next) h l)
    (hf : l.length ≤ fuel) : sumJiffies t fuel h = total (entries t l) := by
  induction l generalizing h fuel with
  | nil =>
      obtain rfl : h = none := hc
      cases fuel <;> rfl
  | cons p l ih =>
      obtain ⟨fuel, rfl⟩ : ∃ n, fuel = n + 1 := ⟨fuel - 1, by simp at hf; omega⟩
      obtain ⟨rfl, hrest⟩ := hc
      rw [sumJiffies, entries_cons, total, ih hrest (by simp at hf; omega)]

theorem remaining_eq (h : Pending s l) : remaining s = total (entries s.timerList l) :=
  sumJiffies_eq h.chain h.length_le

theorem freeSlot_spec (h : freeSlot t = some p) : (t p).fn = none := by
  have := List.find?_some h
  simpa using this

/-- What `add_timer` can do. -/
theorem addTimer_cases (h : addTimer s d fn = .next s') :
    (fn = none ∧ s' = s) ∨
    (fn.isSome ∧ d ≤ 0 ∧
      s' = call { s with added := s.added ++ [(s.now, fn)] } fn) ∨
    (fn.isSome ∧ 0 < d ∧ ∃ p, (s.timerList p).fn = none ∧
      s' = { s with
        added := s.added ++ [(s.now + d, fn)]
        timerList := sift (link s p d fn) p TIME_REQUESTS
        nextTimer := some p }) := by
  cases fn with
  | none => exact .inl ⟨rfl, by simpa [addTimer, eq_comm] using h⟩
  | some f =>
      by_cases hd : d ≤ 0
      · exact .inr (.inl ⟨rfl, hd, by simpa [addTimer, hd, eq_comm] using h⟩)
      · simp only [addTimer, Option.isNone_some, hd, if_false, Bool.false_eq_true] at h
        split at h
        · cases h
        · rename_i p hp
          exact .inr (.inr ⟨rfl, by omega, p, freeSlot_spec hp, (Outcome.next.inj h).symm⟩)

/-- The new request is sorted in by `siftEntries`. -/
theorem pending_add (h : Pending s l) (hd : 0 < d) (hfn : fn.isSome)
    (hp : (s.timerList p).fn = none) {added : List (Int × Option Fn)}
    (hs : s' = { s with
      added := added
      timerList := sift (link s p d fn) p TIME_REQUESTS
      nextTimer := some p }) :
    Pending s' (p :: l) ∧
      entries s'.timerList (p :: l) = siftEntries d fn (entries s.timerList l) := by
  have hpl : p ∉ l := fun hmem => by
    have := (h.used p).mpr hmem
    rw [hp] at this
    cases this
  have hlink : ∀ r, r ≠ p → link s p d fn r = s.timerList r := fun r hr => by simp [link, hr]
  have hself : link s p d fn p = { jiffies := d, fn := fn, next := s.nextTimer } := by simp [link]
  have hchain : Chain (fun r => (link s p d fn r).next) (some p) (p :: l) :=
    h.chain.push hpl (by rw [hself]) fun r hr => by rw [hlink r hr]
  have hlen : l.length ≤ TIME_REQUESTS := h.length_le
  obtain ⟨hnext, hout, hent⟩ := sift_spec hchain hlen
  have hsame : entries (link s p d fn) l = entries s.timerList l :=
    entries_congr fun r hr => hlink r fun he => hpl (he ▸ hr)
  rw [hself, hsame] at hent
  subst hs
  refine ⟨⟨?_, fun r => ?_, ?_⟩, hent⟩
  · exact hchain.congr fun r _ => hnext r
  · by_cases hr : r ∈ p :: l
    · have hmem : ((sift (link s p d fn) p TIME_REQUESTS r).jiffies,
          (sift (link s p d fn) p TIME_REQUESTS r).fn) ∈
            siftEntries d fn (entries s.timerList l) := by
        rw [← hent]
        exact List.mem_map_of_mem hr
      exact iff_of_true (siftEntries_isSome hfn h.isSome_of_mem _ hmem) hr
    · have hr' : r ≠ p ∧ r ∉ l := by simpa using hr
      change (sift (link s p d fn) p TIME_REQUESTS r).fn.isSome ↔ _
      rw [hout r hr, hlink r hr'.1, h.used r]
      simp [hr'.1]
  · change Positive (entries (sift (link s p d fn) p TIME_REQUESTS) (p :: l))
    rw [hent]
    exact siftEntries_positive hd h.positive

/-- The loop of `do_timer` takes off the entries that are due. -/
theorem callExpired_spec (hc : Chain (fun p => (s.timerList p).next) s.nextTimer l)
    (hu : ∀ p, (s.timerList p).fn.isSome ↔ p ∈ l) (hf : l.length ≤ fuel) :
    ∃ l', (callExpired s fuel).now = s.now ∧ (callExpired s fuel).added = s.added ∧
      (callExpired s fuel).called =
        s.called ++ (expire (entries s.timerList l)).1.map (fun x => (s.now, x)) ∧
      Chain (fun p => ((callExpired s fuel).timerList p).next) (callExpired s fuel).nextTimer l' ∧
      (∀ p, ((callExpired s fuel).timerList p).fn.isSome ↔ p ∈ l') ∧
      entries (callExpired s fuel).timerList l' = (expire (entries s.timerList l)).2 := by
  induction l generalizing s fuel with
  | nil =>
      have hnone : s.nextTimer = none := hc
      have heq : callExpired s fuel = s := by
        cases fuel with
        | zero => rfl
        | succ fuel => simp [callExpired, hnone]
      rw [heq]
      exact ⟨[], rfl, rfl, by simp [entries, expire], hc, hu, rfl⟩
  | cons p l ih =>
      obtain ⟨fuel, rfl⟩ : ∃ n, fuel = n + 1 := ⟨fuel - 1, by simp at hf; omega⟩
      have hhead : s.nextTimer = some p := hc.1
      have hpl : p ∉ l := (List.nodup_cons.mp hc.nodup).1
      rw [entries_cons, expire]
      by_cases hle : (s.timerList p).jiffies ≤ 0
      · let t := Function.update s.timerList p { s.timerList p with fn := none }
        let s₁ : State Fn :=
          call { s with timerList := t, nextTimer := (s.timerList p).next } (s.timerList p).fn
        have heq : callExpired s (fuel + 1) = callExpired s₁ fuel := by
          simp [callExpired, hhead, hle, s₁, t]
        have hnext : ∀ r, (t r).next = (s.timerList r).next := fun r => by
          by_cases hr : r = p
          · subst hr
            simp [t]
          · simp [t, hr]
        have hne : ∀ r, r ≠ p → t r = s.timerList r := fun r hr => by simp [t, hr]
        have hc₁ : Chain (fun r => (s₁.timerList r).next) s₁.nextTimer l :=
          Chain.congr hc.2 fun r _ => hnext r
        have hu₁ : ∀ r, (s₁.timerList r).fn.isSome ↔ r ∈ l := fun r => by
          by_cases hr : r = p
          · subst hr
            change (t r).fn.isSome ↔ _
            simp [t, hpl]
          · change (t r).fn.isSome ↔ _
            rw [hne r hr, hu r]
            simp [hr]
        have hent : entries s₁.timerList l = entries s.timerList l :=
          entries_congr fun r hr => hne r fun he => hpl (he ▸ hr)
        obtain ⟨l', hnow, hadded, hcalled, hc', hu', hent'⟩ := ih hc₁ hu₁ (by simp at hf; omega)
        rw [heq, if_pos hle]
        rw [hent] at hcalled hent'
        refine ⟨l', hnow, hadded, ?_, hc', hu', hent'⟩
        rw [hcalled]
        simp [s₁, call]
      · have heq : callExpired s (fuel + 1) = s := by simp [callExpired, hhead, hle]
        rw [heq, if_neg hle]
        exact ⟨p :: l, rfl, rfl, by simp, hc, hu, rfl⟩

/-- A tick calls what is due then, and nothing else changes. -/
theorem doTimer_spec (h : Pending s l) :
    ∃ l', Pending (doTimer s) l' ∧ (doTimer s).now = s.now + 1 ∧ (doTimer s).added = s.added ∧
      (doTimer s).called = s.called ++ (due s l).filter (fun e => e.1 ≤ s.now + 1) ∧
      due (doTimer s) l' = (due s l).filter (fun e => s.now + 1 < e.1) := by
  cases l with
  | nil =>
      have hnone : s.nextTimer = none := h.chain
      have heq : doTimer s = { s with now := s.now + 1 } := by simp [doTimer, hnone]
      rw [heq]
      exact ⟨[], ⟨h.chain, h.used, h.positive⟩, rfl, rfl, by simp [due, entries, deadlines],
        rfl⟩
  | cons p l =>
      have hhead : s.nextTimer = some p := h.chain.1
      have hpl : p ∉ l := (List.nodup_cons.mp h.nodup).1
      let t := Function.update s.timerList p
        { s.timerList p with jiffies := (s.timerList p).jiffies - 1 }
      let s₁ : State Fn := { s with now := s.now + 1, timerList := t }
      have heq : doTimer s = callExpired s₁ TIME_REQUESTS := by simp [doTimer, hhead, s₁, t]
      have hnext : ∀ r, (t r).next = (s.timerList r).next ∧ (t r).fn = (s.timerList r).fn :=
        fun r => by
          by_cases hr : r = p
          · subst hr
            simp [t]
          · simp [t, hr]
      have hc₁ : Chain (fun r => (s₁.timerList r).next) s₁.nextTimer (p :: l) :=
        h.chain.congr fun r _ => (hnext r).1
      have hu₁ : ∀ r, (s₁.timerList r).fn.isSome ↔ r ∈ p :: l := fun r => by
        change (t r).fn.isSome ↔ _
        rw [(hnext r).2, h.used r]
      have hent : entries s₁.timerList (p :: l) =
          ((s.timerList p).jiffies - 1, (s.timerList p).fn) :: entries s.timerList l := by
        rw [entries_cons, entries_congr (t := s.timerList) fun r hr => ?_]
        · simp [s₁, t]
        · have hr' : r ≠ p := fun he => hpl (he ▸ hr)
          simp [s₁, t, hr']
      have htick : expire (entries s₁.timerList (p :: l)) =
          tick (entries s.timerList (p :: l)) := by
        rw [hent, entries_cons, tick]
      obtain ⟨l', hnow, hadded, hcalled, hc', hu', hent'⟩ :=
        callExpired_spec hc₁ hu₁ h.length_le
      obtain ⟨hpos, hout, hkeep⟩ := tick_spec (t := s.now) h.positive
      rw [htick] at hcalled hent'
      rw [heq]
      refine ⟨l', ⟨hc', hu', ?_⟩, hnow, hadded, ?_, ?_⟩
      · rw [hent']
        exact hpos
      · rw [hcalled, hout, due]
      · rw [due, hnow, hent', hkeep, due]

/-! ### Runs -/

theorem initial_pending : Pending (initial : State Fn) [] where
  chain := rfl
  used := fun p => by simp [initial]
  positive := fun e he => by cases he

theorem due_split (m : Int) (es : List (Int × Option Fn)) :
    (es.filter (fun e => e.1 ≤ m) ++ es.filter (fun e => m < e.1)).Perm es := by
  have hnot : es.filter (fun e => m < e.1) = es.filter (fun e => !decide (e.1 ≤ m)) :=
    List.filter_congr fun e _ => by rw [← decide_not, decide_eq_decide, not_le]
  rw [hnot]
  exact List.filter_append_perm (fun e => decide (e.1 ≤ m)) es

theorem length_due : (due s l).length = l.length := by
  rw [due, length_deadlines, length_entries]

/-- Ticks only call what is due, and keep the rest. -/
theorem ticks_spec (h : Pending s l) {n : Nat} :
    ∃ s' l', run step s (List.replicate n .doTimer) = .next s' ∧ Pending s' l' ∧
      s'.now = s.now + n ∧ s'.added = s.added ∧
      s'.called.length + l'.length = s.called.length + l.length ∧
      due s' l' = (due s l).filter (fun e => s.now + n < e.1) := by
  induction n generalizing s l with
  | zero =>
      refine ⟨s, l, rfl, h, by simp, rfl, rfl, ?_⟩
      refine (List.filter_eq_self.mpr fun e he => ?_).symm
      have := lt_deadline h.positive he
      simpa using this
  | succ n ih =>
      obtain ⟨l₁, h₁, hnow₁, hadded₁, hcalled₁, hdue₁⟩ := doTimer_spec h
      obtain ⟨s', l', hrun, h', hnow', hadded', hlen', hdue'⟩ := ih h₁
      refine ⟨s', l', hrun, h', ?_, hadded'.trans hadded₁, ?_, ?_⟩
      · rw [hnow', hnow₁]
        push_cast
        omega
      · have hsplit := (due_split (s.now + 1) (due s l)).length_eq
        rw [List.length_append, ← hdue₁, length_due, length_due] at hsplit
        rw [hlen', hcalled₁, List.length_append]
        omega
      · rw [hdue', hdue₁, hnow₁, List.filter_filter]
        refine List.filter_congr fun e _ => ?_
        rw [Bool.eq_iff_iff]
        simp only [Bool.and_eq_true, decide_eq_true_eq]
        push_cast
        omega

/-- As long as every request is later than the pending ones, a request is
called, or it is in the list with the tick it is due. -/
structure Exact (s : State Fn) (l : List (Fin TIME_REQUESTS)) : Prop where
  pending : Pending s l
  log : s.added.Perm (s.called ++ due s l)
  past : ∀ e ∈ s.called, e.1 ≤ s.now

namespace Exact

theorem onTime (h : Exact s l) : OnTime s := by
  have hfilter := h.log.filter fun e => e.1 ≤ s.now
  have hcalled : s.called.filter (fun e => e.1 ≤ s.now) = s.called :=
    List.filter_eq_self.mpr fun e he => by simpa using h.past e he
  have hdue : (due s l).filter (fun e => e.1 ≤ s.now) = [] :=
    List.filter_eq_nil_iff.mpr fun e he => by
      simpa using lt_deadline h.pending.positive he
  rw [List.filter_append, hcalled, hdue, List.append_nil] at hfilter
  exact hfilter.symm

theorem add_le (h : Exact s l) {e : Int × Option Fn} (he : e ∈ s.added) :
    e.1 ≤ s.now + remaining s := by
  have hnn := total_nonneg h.pending.positive
  rw [remaining_eq h.pending]
  rcases List.mem_append.mp (h.log.mem_iff.mp he) with he | he
  · have := h.past e he
    omega
  · exact deadline_le_total h.pending.positive he

theorem addTimer (h : Exact s l) (hok : Last s (.addTimer d fn))
    (hs : addTimer s d fn = .next s') : ∃ l', Exact s' l' := by
  rcases addTimer_cases hs with ⟨-, rfl⟩ | ⟨-, -, rfl⟩ | ⟨hfn, hd, p, hp, hs'⟩
  · exact ⟨l, h⟩
  · refine ⟨l, ⟨h.pending.chain, h.pending.used, h.pending.positive⟩, ?_, fun e he => ?_⟩
    · change (s.added ++ [(s.now, fn)]).Perm (s.called ++ [(s.now, fn)] ++ due s l)
      rw [List.append_assoc]
      refine (h.log.append_right _).trans ?_
      rw [List.append_assoc]
      exact List.perm_append_comm.append_left _
    · rcases List.mem_append.mp he with he | he
      · exact h.past e he
      · obtain rfl := List.mem_singleton.mp he
        exact le_refl s.now
  · obtain ⟨hpend, hent⟩ := pending_add h.pending hd hfn hp hs'
    have hlast := hok hfn hd
    rw [remaining_eq h.pending] at hlast
    have hdue : due s' (p :: l) = due s l ++ [(s.now + d, fn)] := by
      rw [due, hent, siftEntries_last h.pending.positive hlast, deadlines_append, hs']
      simp [deadlines, due]
    refine ⟨p :: l, hpend, ?_, ?_⟩
    · rw [hdue, hs', ← List.append_assoc]
      exact h.log.append_right _
    · rw [hs']
      exact h.past

theorem doTimer (h : Exact s l) : ∃ l', Exact (doTimer s) l' := by
  obtain ⟨l', hpend, hnow, hadded, hcalled, hdue⟩ := doTimer_spec h.pending
  refine ⟨l', hpend, ?_, fun e he => ?_⟩
  · rw [hadded, hcalled, hdue, List.append_assoc]
    exact h.log.trans ((due_split (s.now + 1) (due s l)).symm.append_left _)
  · rw [hcalled] at he
    rw [hnow]
    rcases List.mem_append.mp he with he | he
    · have := h.past e he
      omega
    · simpa using (List.mem_filter.mp he).2

theorem step {op : Op Fn} (h : Exact s l) (hok : Last s op)
    (hs : Timer.step s op = .next s') : ∃ l', Exact s' l' := by
  cases op with
  | addTimer jiffies fn => exact h.addTimer hok hs
  | doTimer =>
      obtain rfl := Outcome.next.inj hs
      exact h.doTimer

theorem run {ops : List (Op Fn)} (h : Exact s l) (hok : RunOk Timer.step Last s ops)
    (hrun : run Timer.step s ops = .next s') : ∃ l', Exact s' l' :=
  (Reaches.of_run hrun hok).invariant (P := fun t => ∃ l, Exact t l) ⟨l, h⟩
    fun _ _ _ ⟨_, ht⟩ hok' hs => ht.step hok' hs

/-- A request that does not come last makes a pending one late. -/
theorem last_of_punctual {op : Op Fn} (h : Exact s l) (hs : Timer.step s op = .next s')
    (hpun : ∀ n s'', LinuxKernel.run Timer.step s' (List.replicate n .doTimer) = .next s'' →
      OnTime s'') : Last s op := by
  cases op with
  | doTimer => exact True.intro
  | addTimer d fn =>
      intro hfn hd
      by_contra hlast
      rcases addTimer_cases hs with ⟨rfl, -⟩ | ⟨-, hd', -⟩ | ⟨-, -, p, hp, hs'⟩
      · cases hfn
      · omega
      obtain ⟨hpend, hent⟩ := pending_add h.pending hd hfn hp hs'
      have hnn := total_nonneg h.pending.positive
      rw [← remaining_eq h.pending] at hnn
      have hlen := h.log.length_eq
      rw [List.length_append, length_due] at hlen
      -- `n` ticks later all requests are due, but one of the pending ones is still there
      obtain ⟨n, hn⟩ : ∃ n : Nat, (n : Int) = remaining s := ⟨_, Int.toNat_of_nonneg hnn⟩
      obtain ⟨s'', l'', hrun, hpend'', hnow, hadded, hlen'', hdue⟩ := ticks_spec hpend (n := n)
      have hnow' : s'.now = s.now := by rw [hs']
      have hadd' : s'.added = s.added ++ [(s.now + d, fn)] := by rw [hs']
      have hall : s''.added.filter (fun e => e.1 ≤ s''.now) = s''.added := by
        refine List.filter_eq_self.mpr fun e he => ?_
        rw [hadded, hadd'] at he
        rw [hnow, hnow', hn, decide_eq_true_eq]
        rcases List.mem_append.mp he with he | he
        · exact h.add_le he
        · obtain rfl := List.mem_singleton.mp he
          change s.now + d ≤ _
          omega
      have hleft : l'' ≠ [] := fun hnil => by
        obtain ⟨e, he, hsum⟩ := exists_deadline_total (t := s'.now)
          (l := entries s'.timerList (p :: l)) (by simp [entries])
        have hgt := total_siftEntries_gt fn h.pending.positive hd (by
          rw [← remaining_eq h.pending]
          omega)
        rw [← hent, ← remaining_eq h.pending] at hgt
        have hmem : e ∈ due s'' l'' := by
          rw [hdue]
          exact List.mem_filter.mpr ⟨he, by simp only [decide_eq_true_eq]; omega⟩
        rw [hnil] at hmem
        cases hmem
      have hperm := (hpun n s'' hrun).length_eq
      rw [hall, hadded, hadd', List.length_append, hlen, List.length_singleton] at hperm
      have hcall' : s'.called = s.called := by rw [hs']
      rw [hcall', List.length_cons] at hlen''
      exact hleft (List.length_eq_zero_iff.mp (by omega))

/-- A run that is on time meets the condition at each step. -/
theorem runOk {ops : List (Op Fn)} (h : Exact s l)
    (hrun : LinuxKernel.run Timer.step s ops = .next s') (hpun : Punctual s ops) :
    RunOk Timer.step Last s ops := by
  induction ops generalizing s l with
  | nil => exact True.intro
  | cons op ops ih =>
      obtain ⟨s₁, hs₁, hrest⟩ := Outcome.bind_eq_next hrun
      have hpun₁ : Punctual s₁ ops := fun ops' hpre n s'' hs'' =>
        hpun (op :: ops') (List.cons_prefix_cons.mpr ⟨rfl, hpre⟩) n s'' (by
          rw [List.cons_append, LinuxKernel.run, hs₁]
          exact hs'')
      have hlast : Last s op := h.last_of_punctual hs₁ fun n s'' hs'' =>
        hpun₁ [] List.nil_prefix n s'' hs''
      obtain ⟨l₁, h₁⟩ := h.step hlast hs₁
      refine ⟨hlast, fun t ht => ?_⟩
      obtain rfl : s₁ = t := Outcome.next.inj (hs₁.symm.trans ht)
      exact ih h₁ hrest hpun₁

end Exact

theorem initial_exact : Exact (initial : State Fn) [] where
  pending := initial_pending
  log := List.Perm.refl _
  past := fun e he => by cases he

theorem runOk_ticks (n : Nat) : RunOk step Last s (List.replicate n .doTimer) := by
  induction n generalizing s with
  | zero => exact True.intro
  | succ n ih => exact ⟨True.intro, fun _ _ => ih⟩

/-- **Timer requests are on time exactly in the runs in which each request is
later than all those pending.** -/
theorem punctual_iff {ops : List (Op Fn)} (hrun : run step initial ops = .next s) :
    Punctual initial ops ↔ RunOk step Last initial ops := by
  refine ⟨initial_exact.runOk hrun, fun hok ops' hpre n s' hs' => ?_⟩
  obtain ⟨l', h⟩ := initial_exact.run ((hok.of_prefix hpre).append fun t _ => runOk_ticks n) hs'
  exact h.onTime

theorem punctual_iff_twoRequests :
    Punctual (initial)
      [.addTimer 2 (some 1), .doTimer, .addTimer 3 (some 2), .doTimer] ↔
    RunOk step Last initial [.addTimer 2 (some 1), .doTimer, .addTimer 3 (some 2), .doTimer] :=
  punctual_iff (s := (run step initial
    [.addTimer 2 (some 1), .doTimer, .addTimer 3 (some 2), .doTimer]).get initial)
    (Outcome.eq_next (by decide) initial)

/-- A request for tick 5 after one for tick 10: tick 10 comes, and the second
function has not been called. -/
theorem not_punctual :
    ¬∀ (ops : List (Op Nat)) (s : State Nat), run step initial ops = .next s →
      Punctual initial ops := by
  intro hall
  have hrun : run step (initial) [.addTimer 10 (some 1), .addTimer 5 (some 2)] =
      .next ((run step initial [.addTimer 10 (some 1), .addTimer 5 (some 2)]).get initial) :=
    Outcome.eq_next (by decide) initial
  have hrun' : run step (initial)
      ([.addTimer 10 (some 1), .addTimer 5 (some 2)] ++ List.replicate 10 .doTimer) =
      .next ((run step initial ([.addTimer 10 (some 1), .addTimer 5 (some 2)] ++
        List.replicate 10 .doTimer)).get initial) :=
    Outcome.eq_next (by decide) initial
  have hlate : ¬OnTime ((run step (initial) ([.addTimer 10 (some 1),
      .addTimer 5 (some 2)] ++ List.replicate 10 .doTimer)).get initial) := by
    decide
  exact hlate (hall _ _ hrun _ (List.prefix_refl _) 10 _ hrun')

end LinuxKernel.V011.Timer
