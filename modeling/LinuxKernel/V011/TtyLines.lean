import LinuxKernel.V011.Tty

/-!
# LinuxKernel.V011.TtyLines

**Canonical reads return whole lines**: `secondary.data` is the number of line
ends in the secondary queue, as long as no change of the `termios` makes other
characters line ends.

The interrupt only adds line ends, since it erases none (`Grows`). A task that
is inside a line has the end of it still in the queue (`Inv.inLine`).
-/

namespace LinuxKernel.V011.Tty

variable {d : Driver} {t t' t'' : TtyStruct} {task : Nat → Task} {c : BitVec 8} {fuel : Nat}

/-! ### The interrupt -/

/-- The counter is the number of line ends. -/
def Exact (t : TtyStruct) : Prop := t.data.toNat = lineEnds t

/-- Line ends are only added, and counted. -/
structure Grows (t t' : TtyStruct) : Prop where
  termios : t'.termios = t.termios
  lineEnds : lineEnds t ≤ lineEnds t'
  exact : Exact t → Exact t'

namespace Grows

theorem refl (t : TtyStruct) : Grows t t := ⟨rfl, le_refl _, id⟩

theorem trans (h : Grows t t') (h' : Grows t' t'') : Grows t t'' :=
  ⟨h'.termios.trans h.termios, h.lineEnds.trans h'.lineEnds, fun he => h'.exact (h.exact he)⟩

/-- Nothing but the `termios`, the counter and the contents of the queue matters. -/
theorem of_eq (hm : t'.termios = t.termios) (hd : t'.data = t.data)
    (hq : t'.secondary = t.secondary) : Grows t t' := by
  have hle : Tty.lineEnds t' = Tty.lineEnds t := by rw [Tty.lineEnds, Tty.lineEnds, hm, hq]
  refine ⟨hm, hle.ge, fun he => ?_⟩
  rw [Exact, hd, hle]
  exact he

end Grows

theorem erase_grows (h : atLineStart t = false) : Grows t (erase d t) := by
  obtain ⟨hne, hlast⟩ : t.secondary.isEmpty = false ∧
      t.termios.lineEnd t.secondary.last = false := by
    simpa [atLineStart] using h
  have hm : (erase d t).termios = t.termios := by
    simp only [erase]
    split <;> rfl
  have hd : (erase d t).data = t.data := by
    simp only [erase]
    split <;> rfl
  have hq : (erase d t).secondary = t.secondary.dec := by
    simp only [erase]
    split <;> rfl
  have hle : lineEnds (erase d t) = lineEnds t := by
    rw [lineEnds, lineEnds, hm, hq, Ring.contents_dec hne, List.countP_append]
    simp [hlast]
  refine ⟨hm, hle.ge, fun he => ?_⟩
  rw [Exact, hd, hle]
  exact he

theorem killLine_grows : Grows t (killLine d t fuel) := by
  induction fuel generalizing t with
  | zero => exact Grows.refl t
  | succ fuel ih =>
      rw [killLine]
      split
      · exact Grows.refl t
      · rename_i h
        exact (erase_grows (by simpa using h)).trans ih

theorem edit_grows (h : edit d t c = some t') : Grows t t' := by
  rw [edit] at h
  split at h
  · obtain rfl := Option.some.inj h
    exact killLine_grows
  split at h
  · obtain rfl := Option.some.inj h
    split
    · exact Grows.refl t
    · rename_i hne
      exact erase_grows (by simpa using hne)
  split at h
  · obtain rfl := Option.some.inj h
    exact Grows.of_eq rfl rfl rfl
  split at h
  · obtain rfl := Option.some.inj h
    exact Grows.of_eq rfl rfl rfl
  · cases h

theorem echo_eq : ∃ q, echo d t c = { t with writeQ := q } := by
  rw [echo]
  split
  · exact ⟨_, rfl⟩
  · exact ⟨t.writeQ, rfl⟩

theorem lineEnds_lt : lineEnds t < 1024 :=
  calc lineEnds t ≤ t.secondary.contents.length := List.countP_le_length
    _ = t.secondary.chars := Ring.length_contents
    _ < 1024 := (t.secondary.head - t.secondary.tail).isLt

theorem store_grows (h : t.secondary.isFull = false) : Grows t (store d t c) := by
  obtain ⟨q, hq⟩ : ∃ q, store d t c = { t with
      writeQ := q
      secondary := t.secondary.put c
      data := if t.termios.lineEnd c then t.data + 1 else t.data } := by
    simp only [store]
    split <;> (obtain ⟨q, hq⟩ := echo_eq (d := d); exact ⟨q, by rw [hq]⟩)
  have hle : lineEnds (store d t c) =
      lineEnds t + if t.termios.lineEnd c then 1 else 0 := by
    rw [hq]
    simp only [lineEnds, Ring.contents_put h, List.countP_append, List.countP_singleton]
  have hlt : lineEnds (store d t c) < 1024 := lineEnds_lt
  refine ⟨by rw [hq], by omega, fun he => ?_⟩
  rw [Exact] at he ⊢
  rw [hle] at hlt ⊢
  rw [hq]
  cases hc : t.termios.lineEnd c with
  | false => simpa [hc] using he
  | true =>
      simp only [hc, if_true] at hlt ⊢
      have h1 : BitVec.toNat (1 : BitVec 32) = 1 := rfl
      rw [BitVec.toNat_add, he, h1]
      exact Nat.mod_eq_of_lt (by omega)

theorem cookOne_grows (h : t.secondary.isFull = false) : Grows t (cookOne d t task).1 := by
  have hget : Grows t { t with readQ := t.readQ.get } := Grows.of_eq rfl rfl rfl
  simp only [cookOne]
  split
  · exact hget
  · split
    · rename_i he
      split at he
      · exact hget.trans (edit_grows he)
      · cases he
    · split
      · exact hget
      · split
        · exact hget
        · exact hget.trans (store_grows h)

theorem copyToCooked_grows : Grows t (copyToCooked d t task fuel).1 := by
  induction fuel generalizing t task with
  | zero => exact Grows.refl t
  | succ fuel ih =>
      rw [copyToCooked]
      split
      · exact Grows.refl t
      · rename_i h
        have hfree : t.readQ.isEmpty = false ∧ t.secondary.isFull = false := by simpa using h
        exact (cookOne_grows hfree.2).trans ih

/-! ### The invariant -/

theorem lineEnds_get {d : BitVec 32} (h : t.secondary.isEmpty = false) :
    lineEnds t = lineEnds { t with secondary := t.secondary.get, data := d } +
      if t.termios.lineEnd t.secondary.first then 1 else 0 := by
  simp only [lineEnds, Ring.contents_get h, List.countP_cons]

/-- What comes behind the inner loop changes the alarm, and returns or goes back. -/
theorem behindLoop_cases (s : State) (p : Nat) (x : Call) :
    ∃ s₁ x₁, (s₁ = s ∨ ∃ a, s₁ = setAlarm s p a) ∧
      x₁.nr = x.nr ∧ x₁.lines = x.lines ∧ x₁.ended = x.ended ∧
      (behindLoop s p x = leave s₁ p x₁ (if x₁.nr = 0 then .filled else .drained) ∨
        behindLoop s p x = setCall s₁ p { x₁ with pc := .head }) := by
  cases htimed : decide (x.time ≠ 0) && !s.tty.termios.lFlag ICANON with
  | false =>
      refine ⟨s, x, .inl rfl, rfl, rfl, rfl, ?_⟩
      simp only [behindLoop, htimed, Bool.false_eq_true, if_false]
      split
      · split
        · exact .inl rfl
        · exact .inr rfl
      · split
        · exact .inl rfl
        · exact .inr rfl
  | true =>
      let flag : Bool := x.oldalarm = 0 || x.time + s.jiffies < x.oldalarm
      refine ⟨setAlarm s p (if flag then x.time + s.jiffies else x.oldalarm),
        { x with flag := flag }, .inr ⟨_, rfl⟩, rfl, rfl, rfl, ?_⟩
      simp only [behindLoop, htimed, if_true]
      split
      · split
        · exact .inl rfl
        · exact .inr rfl
      · split
        · exact .inl rfl
        · exact .inr rfl

/-- The invariant, for all tasks but `skip`. -/
structure Inv (skip : Option Nat) (s : State) : Prop where
  exact : Exact s.tty
  above : s.below = false
  whole : WholeLines s
  /-- The end of a line that somebody is inside of is in the queue. -/
  inLine : ∀ p x, some p ≠ skip → s.call p = some x → x.inLine = true → 0 < lineEnds s.tty

variable {s s' : State} {p : Nat} {x : Call} {op : Op} {skip : Option Nat}

namespace Inv

theorem but (h : Inv none s) (skip : Option Nat) : Inv skip s :=
  ⟨h.exact, h.above, h.whole, fun p x _ => h.inLine p x (by simp)⟩

theorem of_grows (h : Inv skip s) (ht : Grows s.tty s'.tty) (hc : s'.call = s.call)
    (hb : s'.below = s.below) (hl : s'.log = s.log) : Inv skip s' where
  exact := ht.exact h.exact
  above := hb.trans h.above
  whole := fun r hr => h.whole r (hl ▸ hr)
  inLine := fun p x hp hx hin => by
    rw [hc] at hx
    exact (h.inLine p x hp hx hin).trans_le ht.lineEnds

theorem setCall (h : Inv (some p) s) (hin : x.inLine = true → 0 < lineEnds s.tty) :
    Inv none (setCall s p x) where
  exact := h.exact
  above := h.above
  whole := h.whole
  inLine := fun q y _ hy hyin => by
    by_cases hq : q = p
    · subst hq
      obtain rfl : x = y := by simpa [Tty.setCall] using hy
      exact hin hyin
    · exact h.inLine q y (by simpa using hq) (by simpa [Tty.setCall, hq] using hy) hyin

/-- A call may return if this is not in the middle of a line. -/
theorem ret (h : Inv (some p) s) {cause : Cause} {value : Int}
    (hr : cause = .drained → x.lines = true → x.ended = true) :
    Inv none (ret s p x cause value) where
  exact := h.exact
  above := h.above
  whole := fun r hmem => by
    rcases List.mem_append.mp hmem with hmem | hmem
    · exact h.whole r hmem
    · obtain rfl := List.mem_singleton.mp hmem
      exact fun hc _ => hr hc
  inLine := fun q y _ hy hyin => by
    by_cases hq : q = p
    · subst hq
      simp [Tty.ret] at hy
    · exact h.inLine q y (by simpa using hq) (by simpa [Tty.ret, hq] using hy) hyin

theorem setTask (h : Inv skip s) {q : Task} : Inv skip (setTask s p q) :=
  h.of_grows (Grows.refl _) rfl rfl rfl

theorem leave (h : Inv (some p) s) {cause : Cause}
    (hr : cause = .drained → x.lines = true → x.ended = true) : Inv none (leave s p x cause) :=
  Inv.ret (s := setAlarm s p x.oldalarm) h.setTask hr

/-- `GETCH` and the count. -/
theorem getch (h : Inv (some p) s) (hne : s.tty.secondary.isEmpty = false)
    (hothers : s.tty.termios.lineEnd s.tty.secondary.first = true → lineEnds s.tty = 1 →
      ∀ q y, q ≠ p → s.call q = some y → y.inLine = false) {below : Bool} {data : BitVec 32}
    (hb : below = (s.below || s.tty.termios.lineEnd s.tty.secondary.first && s.tty.data = 0))
    (hd : data = if s.tty.termios.lineEnd s.tty.secondary.first then s.tty.data - 1
      else s.tty.data) :
    Inv (some p) { s with
      tty := { s.tty with secondary := s.tty.secondary.get, data := data }
      below := below } := by
  have hcount := lineEnds_get (d := data) hne
  generalize ht' : ({ s.tty with secondary := s.tty.secondary.get, data := data } : TtyStruct) = t'
    at hcount ⊢
  have hdata : t'.data = data := by rw [← ht']
  have hexact := h.exact
  rw [Exact] at hexact
  cases hc : s.tty.termios.lineEnd s.tty.secondary.first with
  | false =>
      rw [hc] at hb hd hcount
      simp only [Bool.false_eq_true, if_false, Bool.false_and, Bool.or_false, add_zero] at *
      refine ⟨?_, hb.trans h.above, h.whole,
        fun q y hq hy hin => (h.inLine q y hq hy hin).trans_eq hcount⟩
      change t'.data.toNat = lineEnds t'
      rw [hdata, hd, hexact, hcount]
  | true =>
      rw [hc] at hb hd hcount
      simp only [if_true, Bool.true_and] at *
      have h1 : BitVec.toNat (1 : BitVec 32) = 1 := rfl
      have hpos : s.tty.data ≠ 0 := fun h0 => by
        rw [h0] at hexact
        have : (0 : BitVec 32).toNat = 0 := rfl
        omega
      have hsub : (s.tty.data - 1).toNat = s.tty.data.toNat - 1 := by
        rw [BitVec.toNat_sub, h1]
        have := s.tty.data.isLt
        omega
      refine ⟨?_, ?_, h.whole, fun q y hq hy hin => ?_⟩
      · change t'.data.toNat = lineEnds t'
        rw [hdata, hd, hsub, hexact, hcount]
        rfl
      · change below = false
        rw [hb, h.above]
        simpa using hpos
      · have hq' : q ≠ p := fun he => hq (by rw [he])
        have hold := h.inLine q y hq hy hin
        by_contra hzero
        have hone : lineEnds s.tty = 1 := by
          have : ¬0 < lineEnds t' := hzero
          omega
        rw [hothers hc hone q y hq' hy] at hin
        cases hin

/-- A character is taken, and the reader has a line end before it or is at one. -/
theorem take (h : Inv (some p) s) (hne : s.tty.secondary.isEmpty = false)
    (hline : x.lines = true → 0 < lineEnds s.tty)
    (hothers : s.tty.termios.lineEnd s.tty.secondary.first = true → lineEnds s.tty = 1 →
      ∀ q y, q ≠ p → s.call q = some y → y.inLine = false) : Inv none (take s p x) := by
  have hget := h.getch hne hothers rfl rfl
  simp only [Tty.take]
  split
  · exact hget.ret (fun hc => by cases hc)
  · refine hget.setCall fun hin => ?_
    obtain ⟨hl, he⟩ : x.lines = true ∧ s.tty.termios.lineEnd s.tty.secondary.first = false := by
      simpa [Call.inLine] using hin
    have hcount := lineEnds_get (d := s.tty.data) hne
    simp only [he, Bool.false_eq_true, if_false, add_zero] at hcount ⊢
    exact (hline hl).trans_eq hcount

theorem headOfLoop (h : Inv (some p) s)
    (hothers : x.nr ≠ 0 → (s.task p).signal = 0 → mustWait s.tty = false →
      s.tty.termios.lineEnd s.tty.secondary.first = true → lineEnds s.tty = 1 →
      ∀ q y, q ≠ p → s.call q = some y → y.inLine = false) : Inv none (headOfLoop s p x) := by
  rw [Tty.headOfLoop]
  split
  · exact h.leave fun hc => by cases hc
  rename_i hnr
  split
  · exact Inv.leave h.setTask fun hc => by cases hc
  split
  · exact h.leave fun hc => by cases hc
  rename_i hsig
  have hsig' : (s.task p).signal = 0 := not_not.mp hsig
  split
  · exact h.setCall fun hin => by simp [Call.inLine] at hin
  · rename_i hwait
    have hwait' : mustWait s.tty = false := by simpa using hwait
    have hexact : s.tty.data.toNat = lineEnds s.tty := h.exact
    rw [mustWait, Bool.or_eq_false_iff] at hwait'
    refine h.take hwait'.1 (fun hl => ?_) (hothers hnr hsig' (by simpa using hwait))
    -- in canonical mode the counter is not zero
    have hpos : s.tty.data ≠ 0 := fun h0 => by
      have hcanon : s.tty.termios.lFlag ICANON = true ∧ 20 < s.tty.secondary.left := by
        simpa using hl
      simp [hcanon.1, hcanon.2, h0] at hwait'
    rw [← hexact]
    exact Nat.pos_of_ne_zero fun h0 => hpos (BitVec.eq_of_toNat_eq h0)

theorem behindLoop (h : Inv (some p) s)
    (hr : x.nr ≠ 0 → x.lines = true → x.ended = true) : Inv none (behindLoop s p x) := by
  obtain ⟨s₁, x₁, hs₁, hnr, hl, he, hcases⟩ := behindLoop_cases s p x
  have h₁ : Inv (some p) s₁ := by
    rcases hs₁ with rfl | ⟨a, rfl⟩
    · exact h
    · exact h.setTask
  rcases hcases with hb | hb
  · rw [hb]
    refine h₁.leave fun hc hl₁ => ?_
    rw [he]
    refine hr (fun h0 => ?_) (hl ▸ hl₁)
    rw [if_pos (hnr.trans h0)] at hc
    cases hc
  · rw [hb]
    exact h₁.setCall fun hin => by simp [Call.inLine] at hin

/-- Inside a line its end is still in the queue. -/
theorem pos_of_copying (h : Inv none s) (hx : s.call p = some x) (hpc : x.pc = .copying c)
    (hl : x.lines = true) (he : x.ended = false) : 0 < lineEnds s.tty :=
  h.inLine p x (by simp) hx (by simp [Call.inLine, hpc, hl, he])

theorem goOn (h : Inv none s) (hx : s.call p = some x) (hok : LinesOk s (.goOn p)) :
    Inv none (goOn s p x) := by
  have hok' := hok x hx
  rw [Tty.goOn]
  cases hpc : x.pc with
  | head =>
      refine headOfLoop (h.but (some p)) fun hnr hsig hwait => ?_
      exact (hok' (by simp [takes, hpc, hnr, hsig, hwait])).2
  | asleep =>
      dsimp only
      split
      · exact h
      · refine headOfLoop (h.but (some p)) fun hnr hsig hwait => ?_
        exact (hok' (by simp [takes, hpc, show x.nr ≠ 0 from hnr, hsig, hwait])).2
  | copying c =>
      dsimp only
      split
      · rename_i hend
        refine behindLoop (h.but (some p)) fun hnr hl => ?_
        have hempty : s.tty.secondary.isEmpty = true := by
          have hnr' : ¬(x.nr - 1 = 0) := hnr
          simpa [hnr'] using hend
        by_contra he
        have hpos := h.pos_of_copying hx hpc hl (by simpa using he)
        rw [lineEnds, Ring.contents_eq_nil hempty] at hpos
        cases hpos
      · rename_i hgo
        obtain ⟨hnr, hne⟩ : ¬(x.nr - 1 = 0) ∧ s.tty.secondary.isEmpty = false := by
          simpa using hgo
        obtain ⟨hmore, hothers⟩ := hok' (by
          have : 1 < x.nr := by omega
          simp [takes, hpc, this, hne])
        refine take (h.but (some p)) hne (fun hl => ?_) hothers
        cases he : x.ended with
        | false => exact h.pos_of_copying hx hpc hl he
        | true => exact hmore (by simp [hpc]) (by simp [hpc]) hl he

theorem ttyRead (h : Inv none s) {nr : Int} : Inv none (ttyRead s p nr) := by
  simp only [Tty.ttyRead]
  split
  · refine ⟨h.exact, h.above, fun r hr => ?_, h.inLine⟩
    rcases List.mem_append.mp hr with hr | hr
    · exact h.whole r hr
    · obtain rfl := List.mem_singleton.mp hr
      exact fun hc => by cases hc
  · split
    · refine Inv.setCall ((h.but (some p)).setTask) fun hin => ?_
      simp [Call.inLine] at hin
    · refine (h.but (some p)).setCall fun hin => ?_
      simp [Call.inLine] at hin

theorem setTermios (h : Inv none s) {m : Termios}
    (hm : lineEnds { s.tty with termios := m } = lineEnds s.tty) : Inv none (setTermios s m) where
  exact := h.exact.trans hm.symm
  above := h.above
  whole := h.whole
  inLine := fun p x hp hx hin => (h.inLine p x hp hx hin).trans_le hm.ge

theorem step (h : Inv none s) (hok : LinesOk s op) (hs : Tty.step d s op = .next s') :
    Inv none s' := by
  cases op with
  | typed c =>
      obtain rfl := Outcome.next.inj hs
      exact h.of_grows (Grows.of_eq rfl rfl rfl) rfl rfl rfl
  | interrupt =>
      obtain rfl := Outcome.next.inj hs
      exact h.of_grows copyToCooked_grows rfl rfl rfl
  | ttyRead p nr =>
      simp only [Tty.step] at hs
      split at hs
      · cases hs
      · obtain rfl := Outcome.next.inj hs
        exact h.ttyRead
  | goOn p =>
      simp only [Tty.step] at hs
      split at hs
      · rename_i x hx
        obtain rfl := Outcome.next.inj hs
        exact h.goOn hx hok
      · cases hs
  | setTermiosByte i b =>
      obtain rfl := Outcome.next.inj hs
      exact h.setTermios hok
  | setTermio u =>
      obtain rfl := Outcome.next.inj hs
      exact h.setTermios hok
  | flushReadQ =>
      obtain rfl := Outcome.next.inj hs
      exact h.of_grows (Grows.of_eq rfl rfl rfl) rfl rfl rfl
  | flushWriteQ =>
      obtain rfl := Outcome.next.inj hs
      exact h.of_grows (Grows.of_eq rfl rfl rfl) rfl rfl rfl
  | setPgrp pgrp =>
      obtain rfl := Outcome.next.inj hs
      exact h.of_grows (Grows.of_eq rfl rfl rfl) rfl rfl rfl
  | send p mask =>
      obtain rfl := Outcome.next.inj hs
      exact h.setTask
  | alarm p =>
      simp only [Tty.step] at hs
      split at hs
      · obtain rfl := Outcome.next.inj hs
        exact h.setTask
      · cases hs
  | tick =>
      obtain rfl := Outcome.next.inj hs
      exact h.of_grows (Grows.refl _) rfl rfl rfl

theorem canonical (h : Inv none s) : Canonical s := ⟨h.exact, h.above, h.whole⟩

end Inv

theorem Init.inv (h : Init s) : Inv none s where
  exact := by
    rw [Exact, h.data, lineEnds, Ring.contents_eq_nil h.empty]
    rfl
  above := h.below
  whole := fun r hr => by
    rw [h.log] at hr
    cases hr
  inLine := fun p x _ hx => by
    rw [h.call p] at hx
    cases hx

/-- Other tasks' calls are left alone. -/
theorem goOn_call {q : Nat} (hq : q ≠ p) : (goOn s p x).call q = s.call q := by
  have hset : ∀ (s : State) (x : Call), (setCall s p x).call q = s.call q := fun _ _ =>
    Function.update_of_ne hq ..
  have hret : ∀ (s : State) (x : Call) (c : Cause) (v : Int), (ret s p x c v).call q = s.call q :=
    fun _ _ _ _ => Function.update_of_ne hq ..
  have hleave : ∀ (s : State) (x : Call) (c : Cause), (leave s p x c).call q = s.call q :=
    fun s x c => hret (setAlarm s p x.oldalarm) x c _
  have htake : ∀ (s : State) (x : Call), (take s p x).call q = s.call q := fun s x => by
    simp only [take]
    split
    · exact hret ..
    · exact hset ..
  have hhead : ∀ x : Call, (headOfLoop s p x).call q = s.call q := fun x => by
    rw [headOfLoop]
    split
    · exact hleave ..
    split
    · exact hleave (setTask s p _) ..
    split
    · exact hleave ..
    split
    · exact hset ..
    · exact htake ..
  have hbehind : ∀ x : Call, (behindLoop s p x).call q = s.call q := fun x => by
    obtain ⟨s₁, x₁, hs₁, -, -, -, hcases⟩ := behindLoop_cases s p x
    have h₁ : s₁.call q = s.call q := by
      rcases hs₁ with rfl | ⟨a, rfl⟩ <;> rfl
    rcases hcases with hb | hb
    · rw [hb, hleave, h₁]
    · rw [hb, hset, h₁]
  rw [goOn]
  cases x.pc with
  | head => exact hhead x
  | asleep =>
      dsimp only
      split
      · rfl
      · exact hhead _
  | copying c =>
      dsimp only
      split
      · exact hbehind _
      · exact htake ..

/-- Input, and reads of task `p`. -/
def Op.solo (p : Nat) : Op → Bool
  | .typed _ => true
  | .interrupt => true
  | .ttyRead q _ => q = p
  | .goOn q => q = p
  | _ => false

/-- The second condition, for task `p`. -/
def MoreOk (p : Nat) (s : State) (_ : Op) : Prop :=
  ∀ x, s.call p = some x → takes s p x = true → x.pc ≠ .head → x.pc ≠ .asleep →
    x.lines = true → x.ended = true → 0 < lineEnds s.tty

instance (p : Nat) (s : State) (op : Op) : Decidable (MoreOk p s op) :=
  match h : s.call p with
  | none => isTrue fun x hx => by rw [h] at hx; cases hx
  | some x =>
      decidable_of_iff (takes s p x = true → x.pc ≠ .head → x.pc ≠ .asleep → x.lines = true →
        x.ended = true → 0 < lineEnds s.tty)
        ⟨fun hx y hy => by rw [h] at hy; obtain rfl := Option.some.inj hy; exact hx,
          fun hx => hx x h⟩

/-- With one reader nobody else is inside a line. -/
theorem runOk_solo {ops : List Op} (hcall : ∀ q, q ≠ p → s.call q = none)
    (hops : ∀ op ∈ ops, op.solo p = true) (hmore : RunOk (step d) (MoreOk p) s ops) :
    RunOk (step d) LinesOk s ops := by
  induction ops generalizing s with
  | nil => exact True.intro
  | cons op ops ih =>
      have hsolo := hops op List.mem_cons_self
      have hrest : ∀ op ∈ ops, op.solo p = true := fun op' h =>
        hops op' (List.mem_cons_of_mem op h)
      cases op with
      | typed c =>
          refine ⟨True.intro, fun t ht => ?_⟩
          obtain rfl := Outcome.next.inj ht
          exact ih hcall hrest (hmore.2 _ rfl)
      | interrupt =>
          refine ⟨True.intro, fun t ht => ?_⟩
          obtain rfl := Outcome.next.inj ht
          exact ih hcall hrest (hmore.2 _ rfl)
      | ttyRead q nr =>
          obtain rfl : q = p := by simpa [Op.solo] using hsolo
          refine ⟨True.intro, fun t ht => ih (fun r hr => ?_) hrest (hmore.2 t ht)⟩
          simp only [step] at ht
          split at ht
          · cases ht
          · obtain rfl := Outcome.next.inj ht
            simp only [ttyRead]
            split
            · exact hcall r hr
            · split <;> exact (Function.update_of_ne hr ..).trans (hcall r hr)
      | goOn q =>
          obtain rfl : q = p := by simpa [Op.solo] using hsolo
          refine ⟨fun x hx ht => ⟨hmore.1 x hx ht, fun _ _ r y hr hy => ?_⟩,
            fun t ht => ih (fun r hr => ?_) hrest (hmore.2 t ht)⟩
          · rw [hcall r hr] at hy
            cases hy
          · simp only [step] at ht
            split at ht
            · obtain rfl := Outcome.next.inj ht
              rw [goOn_call hr]
              exact hcall r hr
            · cases ht
      | setTermiosByte i b => cases hsolo
      | setTermio u => cases hsolo
      | flushReadQ => cases hsolo
      | flushWriteQ => cases hsolo
      | setPgrp pgrp => cases hsolo
      | send q mask => cases hsolo
      | alarm q => cases hsolo
      | tick => cases hsolo

/-! ### Concrete runs -/

/-- `INIT_C_CC`. -/
def initCc : List (BitVec 8) :=
  [3, 0x1c, 0x7f, 0x15, 4, 0, 1, 0, 0x11, 0x13, 0x1a, 0, 0x12, 0x0f, 0x17, 0x16, 0]

def emptyQueue : Queue where
  buf := fun _ => 0
  head := 0
  tail := 0

/-- The console, idle. -/
def console : State where
  tty := {
    termios := {
      cIflag := ICRNL, cOflag := 5, cCflag := 0, cLflag := 0xa0b, cLine := 0
      cCc := fun i => initCc.getD i 0 }
    pgrp := 0, stopped := false, readQ := emptyQueue, writeQ := emptyQueue
    secondary := emptyQueue, data := 0 }
  task := fun _ => { signal := 0, alarm := 0, pgrp := 0 }
  jiffies := 0
  call := fun _ => none
  below := false
  log := []

theorem console_init : Init console where
  empty := by decide
  data := rfl
  below := rfl
  call := fun _ => rfl
  log := rfl

/-- A driver that prints all it gets at once. -/
def printer : Driver where
  write := Ring.flush
  strayUpper := fun _ => false

/-- `ab`, a deletion, `c` and a carriage return are typed, and read as a line. -/
def lineRun : List Op :=
  [.typed 97, .typed 98, .typed 0x7f, .typed 99, .typed 13, .interrupt, .ttyRead 1 10,
    .goOn 1, .goOn 1, .goOn 1, .goOn 1]

/-- Raw mode, with another character for the end of file. -/
def rawTermio : Termio where
  cIflag := 0x100
  cOflag := 5
  cCflag := 0
  cLflag := 1
  cLine := 0
  cCc := fun i => if i = 4 then 5 else initCc.getD i 0

/-- A character is made the end of file after it was typed, and read. -/
def newEofRun : List Op :=
  [.typed 5, .interrupt, .setTermio rawTermio, .ttyRead 1 10, .goOn 1]

/-- A line and the beginning of the next one are typed, and read. -/
def twoLinesRun : List Op :=
  [.typed 97, .typed 10, .typed 98, .interrupt, .ttyRead 1 10, .goOn 1, .goOn 1, .goOn 1, .goOn 1]

end LinuxKernel.V011.Tty
