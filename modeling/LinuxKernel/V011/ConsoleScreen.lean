import LinuxKernel.V011.Console

/-!
# LinuxKernel.V011.ConsoleScreen

**The console stays on the screen**: after every byte, the cursor is on the screen,
`pos` is where `x` and `y` say, the screen is in video memory, and no cell outside of
it has been touched (`OnScreen`).

- A string instruction stays within bounds that hold for both ends of its range.
- Each control function keeps `OnScreen`. They all come down to `gotoxy`, to a line
  feed up or down, or to string instructions in the lines of the screen.
- `con_init` starts there exactly when `gotoxy` takes the cursor of the setup code.
-/

namespace LinuxKernel.V011.Console

/-! ### Arithmetic that does not wrap -/

theorem addL_eq {a b : Nat} (h : a + b < 2 ^ 32) : addL a b = a + b := Nat.mod_eq_of_lt h

theorem mulL_eq {a b : Nat} (h : a * b < 2 ^ 32) : mulL a b = a * b := Nat.mod_eq_of_lt h

theorem subL_eq {a b : Nat} (h : b ≤ a) (ha : a < 2 ^ 32) : subL a b = a - b := by
  unfold subL
  omega

/-! ### String instructions -/

namespace Vram

/-- All cells touched are between `lo` and `hi`. -/
def Within (lo hi : Nat) (r : Vram) : Prop := ∀ a ∈ r.touched, lo ≤ a ∧ a + 2 ≤ hi

section Within

variable {lo hi : Nat} {r : Vram}

theorem Within.read (h : r.Within lo hi) {a : Nat} (hlo : lo ≤ a) (hhi : a + 2 ≤ hi) :
    (r.read a).Within lo hi := by
  intro a' ha'
  rcases List.mem_cons.1 ha' with rfl | ha'
  · exact ⟨hlo, hhi⟩
  · exact h a' ha'

theorem Within.write (h : r.Within lo hi) {a : Nat} {w : UInt16} (hlo : lo ≤ a)
    (hhi : a + 2 ≤ hi) : (r.write a w).Within lo hi := by
  intro a' ha'
  rcases List.mem_cons.1 ha' with rfl | ha'
  · exact ⟨hlo, hhi⟩
  · exact h a' ha'

theorem Within.movsl (h : r.Within lo hi) (hmax : hi < 2 ^ 32) {edi esi : Nat} (hlo : lo ≤ edi)
    (hhi : edi + 4 ≤ hi) (hslo : lo ≤ esi) (hshi : esi + 4 ≤ hi) :
    (r.movsl edi esi).Within lo hi := by
  unfold Vram.movsl
  rw [addL_eq (a := edi) (by omega), addL_eq (a := esi) (by omega)]
  refine Within.write (Within.write (Within.read (Within.read h ?_ ?_) ?_ ?_) ?_ ?_) ?_ ?_
  all_goals omega

theorem Within.repMovsl (hmax : hi < 2 ^ 32) (ecx : Nat) : ∀ {r : Vram} (edi esi : Nat),
    r.Within lo hi → lo ≤ edi → edi + 4 * ecx ≤ hi → lo ≤ esi → esi + 4 * ecx ≤ hi →
    (r.repMovsl ecx edi esi).1 = edi + 4 * ecx ∧ (r.repMovsl ecx edi esi).2.Within lo hi := by
  induction ecx with
  | zero =>
      intro r edi esi h _ _ _ _
      exact ⟨rfl, h⟩
  | succ ecx ih =>
      intro r edi esi h hlo hhi hslo hshi
      rw [Vram.repMovsl, addL_eq (a := edi) (by omega), addL_eq (a := esi) (by omega)]
      have hmoved := h.movsl hmax hlo (by omega) hslo (by omega)
      obtain ⟨hedi, hram⟩ := ih (edi + 4) (esi + 4) hmoved (by omega) (by omega)
        (by omega) (by omega)
      exact ⟨by omega, hram⟩

theorem Within.repStosw (hmax : hi < 2 ^ 32) {ax : UInt16} {ecx : Nat} :
    ∀ {r : Vram} {edi : Nat}, r.Within lo hi → lo ≤ edi → edi + 2 * ecx ≤ hi →
    (r.repStosw ax ecx edi).Within lo hi := by
  induction ecx with
  | zero =>
      intro r edi h _ _
      exact h
  | succ ecx ih =>
      intro r edi h hlo hhi
      rw [Vram.repStosw, addL_eq (by omega)]
      exact ih (h.write hlo (by omega)) (by omega) (by omega)

theorem Within.repMovslDown (hmin : 4 ≤ lo) (hmax : hi < 2 ^ 32) (ecx : Nat) :
    ∀ {r : Vram} (edi esi : Nat), r.Within lo hi → lo + 4 * ecx ≤ edi + 4 → edi + 4 ≤ hi →
    lo + 4 * ecx ≤ esi + 4 → esi + 4 ≤ hi →
    (r.repMovslDown ecx edi esi).1 = edi - 4 * ecx ∧
      (r.repMovslDown ecx edi esi).2.Within lo hi := by
  induction ecx with
  | zero =>
      intro r edi esi h _ _ _ _
      exact ⟨rfl, h⟩
  | succ ecx ih =>
      intro r edi esi h hlo hhi hslo hshi
      rw [Vram.repMovslDown, subL_eq (a := edi) (by omega) (by omega),
        subL_eq (a := esi) (by omega) (by omega)]
      have hmoved := h.movsl hmax (by omega) hhi (by omega) hshi
      obtain ⟨hedi, hram⟩ := ih (edi - 4) (esi - 4) hmoved (by omega) (by omega)
        (by omega) (by omega)
      exact ⟨by omega, hram⟩

theorem Within.repStoswDown (hmin : 4 ≤ lo) (hmax : hi < 2 ^ 32) {ax : UInt16} {ecx : Nat} :
    ∀ {r : Vram} {edi : Nat}, r.Within lo hi → lo + 2 * ecx ≤ edi + 2 → edi + 2 ≤ hi →
    (r.repStoswDown ax ecx edi).Within lo hi := by
  induction ecx with
  | zero =>
      intro r edi h _ _
      exact h
  | succ ecx ih =>
      intro r edi h hlo hhi
      rw [Vram.repStoswDown, subL_eq (by omega) (by omega)]
      exact ih (h.write (by omega) (by omega)) (by omega) (by omega)

theorem Within.insertLoop (hmax : hi < 2 ^ 32) {n : Nat} :
    ∀ {r : Vram} {p : Nat} {old : UInt16}, r.Within lo hi → lo ≤ p → p + 2 * n ≤ hi →
    (Console.insertLoop r p old n).Within lo hi := by
  induction n with
  | zero =>
      intro r p old h _ _
      exact h
  | succ n ih =>
      intro r p old h hlo hhi
      rw [Console.insertLoop, addL_eq (by omega)]
      exact ih ((h.read hlo (by omega)).write hlo (by omega)) (by omega) (by omega)

theorem Within.deleteLoop (hmax : hi < 2 ^ 32) {n : Nat} :
    ∀ {r : Vram} {p : Nat}, r.Within lo hi → lo ≤ p → p + 2 * n + 2 ≤ hi →
    (Console.deleteLoop r p n).1 = p + 2 * n ∧ (Console.deleteLoop r p n).2.Within lo hi := by
  induction n with
  | zero =>
      intro r p h _ _
      exact ⟨rfl, h⟩
  | succ n ih =>
      intro r p h hlo hhi
      rw [Console.deleteLoop, addL_eq (by omega)]
      have hcell := (h.read (a := p + 2) (by omega) (by omega)).write (a := p)
        (w := r.cell (p + 2)) hlo (by omega)
      obtain ⟨hp, hram⟩ := ih (p := p + 2) hcell (by omega) (by omega)
      exact ⟨by omega, hram⟩

end Within

end Vram

/-! ### The screen -/

/-- A screen of an even number of columns that fits in video memory. -/
structure Video.Fits (v : Video) : Prop where
  row : v.sizeRow = 2 * v.numColumns
  even : v.numColumns % 2 = 0
  wide : 4 ≤ v.numColumns
  start : 4 ≤ v.memStart
  fits : v.memStart + v.numLines * v.sizeRow ≤ v.memEnd
  small : v.memEnd < 2 ^ 31

/-- The numbers that say where the cursor, the lines that scroll and the screen are. -/
structure Place (v : Video) (x y top bottom pos origin scrEnd : Nat) : Prop where
  x_le : x ≤ v.numColumns
  y_lt : y < v.numLines
  top_lt : top < bottom
  bottom_le : bottom ≤ v.numLines
  pos_eq : pos = origin + y * v.sizeRow + 2 * x
  origin_ge : v.memStart ≤ origin
  scrEnd_eq : scrEnd = origin + v.numLines * v.sizeRow
  scrEnd_le : scrEnd ≤ v.memEnd

/-- The console is on the screen, and only video memory has been touched. -/
structure OnScreen (v : Video) (s : State) : Prop where
  place : Place v s.x s.y s.top s.bottom s.pos s.origin s.scrEnd
  npar_lt : s.npar < NPAR
  ram : s.ram.Within v.memStart v.memEnd

section Screen

variable {v : Video} {s : State}

/-- A line of the screen ends before the next one begins. -/
theorem line_le {y : Nat} (hy : y < v.numLines) :
    y * v.sizeRow + v.sizeRow ≤ v.numLines * v.sizeRow := by
  rw [← Nat.succ_mul]
  exact Nat.mul_le_mul_right _ hy

/-- `rep movsl` moves whole lines. -/
theorem Video.Fits.longs (hv : v.Fits) (n : Nat) : 4 * (n * v.numColumns / 2) = n * v.sizeRow := by
  obtain ⟨k, hk⟩ : ∃ k, v.numColumns = 2 * k := ⟨v.numColumns / 2, by have := hv.even; omega⟩
  have hhalf : n * v.numColumns / 2 = n * k := by
    rw [hk, Nat.mul_left_comm, Nat.mul_div_cancel_left _ (by decide)]
  rw [hhalf, hv.row, hk, Nat.mul_left_comm n 2, Nat.mul_left_comm n 2]
  omega

theorem Video.Fits.columns_le (hv : v.Fits) (n : Nat) : n * v.numColumns ≤ n * v.sizeRow := by
  have hrow := hv.row
  exact Nat.mul_le_mul_left _ (by omega)

theorem Video.Fits.lines_le (hv : v.Fits) : v.numLines ≤ v.numLines * v.sizeRow := by
  have hrow := hv.row
  have hwide := hv.wide
  exact Nat.le_mul_of_pos_right _ (by omega)

theorem bottom_le_of_le {bottom : Nat} (h : bottom ≤ v.numLines) :
    v.sizeRow * bottom ≤ v.numLines * v.sizeRow := by
  rw [Nat.mul_comm]
  exact Nat.mul_le_mul_right _ h

theorem OnScreen.setRam (h : OnScreen v s) {r : Vram} (hr : r.Within v.memStart v.memEnd) :
    OnScreen v { s with ram := r } :=
  ⟨h.place, h.npar_lt, hr⟩

theorem OnScreen.gotoxy (hv : v.Fits) (h : OnScreen v s) (newX newY : Nat) :
    OnScreen v (gotoxy v s newX newY) := by
  unfold Console.gotoxy
  split
  case isTrue => exact h
  case isFalse hin =>
    have hx : newX ≤ v.numColumns := by omega
    have hy : newY < v.numLines := by omega
    have hline := line_le hy
    have hrow := hv.row
    have hsmall := hv.small
    obtain ⟨-, -, htop, hbottom, -, horigin, hend, hend_le⟩ := h.place
    refine ⟨⟨hx, hy, htop, hbottom, ?_, horigin, hend, hend_le⟩, h.npar_lt, h.ram⟩
    dsimp only
    rw [mulL_eq (a := newY) (by omega), mulL_eq (a := newX) (by omega),
      addL_eq (a := s.origin) (by omega), addL_eq (by omega)]
    omega

/-- The lines from `top` on, and those below. -/
theorem lines_split {top bottom : Nat} (h : top < bottom) :
    v.sizeRow * top + (bottom - top - 1) * v.sizeRow + v.sizeRow = v.sizeRow * bottom := by
  obtain ⟨k, rfl⟩ : ∃ k, bottom = top + k + 1 := ⟨bottom - top - 1, by omega⟩
  have hk : top + k + 1 - top - 1 = k := by omega
  rw [hk, Nat.mul_comm k, ← Nat.mul_add, ← Nat.mul_succ]

/-! ### Lines -/

theorem OnScreen.moveUp (hv : v.Fits) (h : OnScreen v s) : OnScreen v (moveUp v s) := by
  obtain ⟨-, -, htop, hbottom, -, horigin, hend, hend_le⟩ := h.place
  have hsmall := hv.small
  have hlongs := hv.longs (s.bottom - s.top - 1)
  have hsplit := lines_split (v := v) htop
  have hrow := hv.row
  have hbelow := bottom_le_of_le hbottom
  have hnext : v.sizeRow * (s.top + 1) = v.sizeRow * s.top + v.sizeRow := Nat.mul_succ _ _
  have hcols := hv.columns_le (s.bottom - s.top - 1)
  have hlines := hv.lines_le
  unfold Console.moveUp
  rw [subL_eq (a := s.bottom) (by omega) (by omega),
    subL_eq (a := s.bottom - s.top) (by omega) (by omega), mulL_eq (by omega),
    addL_eq (a := s.top) (by omega), mulL_eq (b := s.top) (by omega),
    mulL_eq (b := s.top + 1) (by omega), addL_eq (a := s.origin) (by omega),
    addL_eq (a := s.origin) (by omega)]
  obtain ⟨hedi, hram⟩ := h.ram.repMovsl (by omega)
    ((s.bottom - s.top - 1) * v.numColumns / 2) (s.origin + v.sizeRow * s.top)
    (s.origin + v.sizeRow * (s.top + 1)) (by omega) (by omega) (by omega) (by omega)
  exact h.setRam (hram.repStosw (by omega) (by omega) (by omega))

theorem OnScreen.moveOrigin (hv : v.Fits) (h : OnScreen v s) : OnScreen v (moveOrigin v s) := by
  obtain ⟨hx, hy, htop, hbottom, hpos, horigin, hend, hend_le⟩ := h.place
  have hsmall := hv.small
  have hfits := hv.fits
  have hlongs := hv.longs (v.numLines - 1)
  have hrow := hv.row
  have hline := line_le hy
  have hlast : (v.numLines - 1) * v.sizeRow + v.sizeRow = v.numLines * v.sizeRow := by
    rw [← Nat.succ_mul]
    congr 1
    omega
  have hcols := hv.columns_le (v.numLines - 1)
  have hlines := hv.lines_le
  unfold Console.moveOrigin
  rw [addL_eq (a := s.origin) (by omega), addL_eq (a := s.pos) (by omega),
    addL_eq (a := s.scrEnd) (by omega), subL_eq (a := v.numLines) (by omega) (by omega),
    mulL_eq (by omega)]
  dsimp only
  split
  case isTrue hover =>
    rw [subL_eq (a := s.origin + v.sizeRow) (by omega) (by omega),
      subL_eq (a := s.scrEnd + v.sizeRow) (by omega) (by omega),
      subL_eq (a := s.pos + v.sizeRow) (by omega) (by omega)]
    obtain ⟨hedi, hram⟩ := h.ram.repMovsl (by omega)
      ((v.numLines - 1) * v.numColumns / 2) v.memStart
      (s.origin + v.sizeRow) (by omega) (by omega) (by omega) (by omega)
    exact ⟨⟨hx, hy, htop, hbottom, by dsimp only; omega, Nat.le_refl _, by dsimp only; omega,
      by dsimp only; omega⟩, h.npar_lt, hram.repStosw (by omega) (by omega) (by omega)⟩
  case isFalse hin =>
    rw [subL_eq (a := s.scrEnd + v.sizeRow) (by omega) (by omega)]
    exact ⟨⟨hx, hy, htop, hbottom, by dsimp only; omega, by dsimp only; omega,
      by dsimp only; omega, by dsimp only; omega⟩, h.npar_lt,
      h.ram.repStosw (by omega) (by omega) (by omega)⟩

theorem OnScreen.scrup (hv : v.Fits) (h : OnScreen v s) : OnScreen v (scrup v s) := by
  unfold Console.scrup
  split
  · split
    · exact h.moveOrigin hv
    · exact h.moveUp hv
  · exact h.moveUp hv

theorem OnScreen.scrdown (hv : v.Fits) (h : OnScreen v s) : OnScreen v (scrdown v s) := by
  obtain ⟨-, -, htop, hbottom, -, horigin, hend, hend_le⟩ := h.place
  have hsmall := hv.small
  have hstart := hv.start
  have hwide := hv.wide
  have hlongs := hv.longs (s.bottom - s.top - 1)
  have hsplit := lines_split (v := v) htop
  have hrow := hv.row
  have hbelow := bottom_le_of_le hbottom
  have hlast : v.sizeRow * (s.bottom - 1) + v.sizeRow = v.sizeRow * s.bottom := by
    rw [← Nat.mul_succ]
    congr 1
    omega
  have hcols := hv.columns_le (s.bottom - s.top - 1)
  have hlines := hv.lines_le
  unfold Console.scrdown
  rw [subL_eq (a := s.bottom) (b := s.top) (by omega) (by omega),
    subL_eq (a := s.bottom - s.top) (by omega) (by omega), mulL_eq (by omega),
    subL_eq (a := s.bottom) (by omega) (by omega), mulL_eq (b := s.bottom) (by omega),
    mulL_eq (b := s.bottom - 1) (by omega), addL_eq (a := s.origin) (by omega),
    addL_eq (a := s.origin) (by omega), subL_eq (b := 4) (by omega) (by omega),
    subL_eq (b := 4) (by omega) (by omega)]
  obtain ⟨hedi, hram⟩ := h.ram.repMovslDown hstart (by omega)
    ((s.bottom - s.top - 1) * v.numColumns / 2)
    (s.origin + v.sizeRow * s.bottom - 4)
    (s.origin + v.sizeRow * (s.bottom - 1) - 4) (by omega) (by omega) (by omega) (by omega)
  dsimp only
  rw [hedi, addL_eq (by omega)]
  exact h.setRam (hram.repStoswDown hstart (by omega) (by omega) (by omega))

theorem OnScreen.setRegion (h : OnScreen v s) {top bottom : Nat} (htop : top < bottom)
    (hbottom : bottom ≤ v.numLines) : OnScreen v { s with top := top, bottom := bottom } :=
  have p := h.place
  ⟨⟨p.x_le, p.y_lt, htop, hbottom, p.pos_eq, p.origin_ge, p.scrEnd_eq, p.scrEnd_le⟩, h.npar_lt,
    h.ram⟩

theorem OnScreen.insertLine (hv : v.Fits) (h : OnScreen v s) : OnScreen v (insertLine v s) :=
  ((h.setRegion h.place.y_lt (Nat.le_refl _)).scrdown hv).setRegion h.place.top_lt
    h.place.bottom_le

theorem OnScreen.deleteLine (hv : v.Fits) (h : OnScreen v s) : OnScreen v (deleteLine v s) :=
  ((h.setRegion h.place.y_lt (Nat.le_refl _)).scrup hv).setRegion h.place.top_lt
    h.place.bottom_le

/-! ### The cursor -/

theorem OnScreen.lf (hv : v.Fits) (h : OnScreen v s) : OnScreen v (lf v s) := by
  obtain ⟨hx, hy, htop, hbottom, hpos, horigin, hend, hend_le⟩ := h.place
  have hsmall := hv.small
  have hline := line_le hy
  have hlines := hv.lines_le
  have hnext : (s.y + 1) * v.sizeRow = s.y * v.sizeRow + v.sizeRow := Nat.succ_mul _ _
  have hrow := hv.row
  unfold Console.lf
  rw [addL_eq (a := s.y) (by omega), addL_eq (a := s.pos) (by omega)]
  split
  case isTrue hlt =>
    exact ⟨⟨hx, by dsimp only; omega, htop, hbottom, by dsimp only; omega, horigin, hend, hend_le⟩,
      h.npar_lt, h.ram⟩
  case isFalse => exact h.scrup hv

theorem OnScreen.ri (hv : v.Fits) (h : OnScreen v s) : OnScreen v (ri v s) := by
  obtain ⟨hx, hy, htop, hbottom, hpos, horigin, hend, hend_le⟩ := h.place
  have hsmall := hv.small
  have hline := line_le hy
  have hlines := hv.lines_le
  have hrow := hv.row
  unfold Console.ri
  split
  case isTrue hgt =>
    have hprev : s.y * v.sizeRow = (s.y - 1) * v.sizeRow + v.sizeRow := by
      rw [← Nat.succ_mul]
      congr 1
      omega
    rw [subL_eq (a := s.y) (by omega) (by omega), subL_eq (a := s.pos) (by omega) (by omega)]
    exact ⟨⟨hx, by dsimp only; omega, htop, hbottom, by dsimp only; omega, horigin, hend, hend_le⟩,
      h.npar_lt, h.ram⟩
  case isFalse => exact h.scrdown hv

/-- The cursor goes to another column of its line. -/
theorem OnScreen.setX (h : OnScreen v s) {x pos : Nat} (hx : x ≤ v.numColumns)
    (hpos : pos + 2 * s.x = s.pos + 2 * x) : OnScreen v { s with x := x, pos := pos } := by
  obtain ⟨-, hy, htop, hbottom, hpos', horigin, hend, hend_le⟩ := h.place
  exact ⟨⟨hx, hy, htop, hbottom, by dsimp only; omega, horigin, hend, hend_le⟩, h.npar_lt, h.ram⟩

/-- The line of the cursor is in video memory. -/
theorem OnScreen.line (hv : v.Fits) (h : OnScreen v s) :
    v.memStart + 2 * s.x ≤ s.pos ∧ s.origin ≤ s.pos ∧ s.pos + 2 * (v.numColumns - s.x) ≤ s.scrEnd ∧
      s.scrEnd < 2 ^ 31 := by
  obtain ⟨hx, hy, -, -, hpos, horigin, hend, hend_le⟩ := h.place
  have hline := line_le hy
  have hrow := hv.row
  have hsmall := hv.small
  omega

theorem OnScreen.cr (hv : v.Fits) (h : OnScreen v s) : OnScreen v (cr s) := by
  have hline := h.line hv
  have hx := h.place.x_le
  have hrow := hv.row
  unfold Console.cr
  rw [mulL_eq (by omega), subL_eq (by omega) (by omega)]
  exact h.setX (Nat.zero_le _) (by omega)

theorem OnScreen.del (hv : v.Fits) (h : OnScreen v s) : OnScreen v (del v s) := by
  have hline := h.line hv
  have hx := h.place.x_le
  have hsmall := h.place.scrEnd_le
  unfold Console.del
  split
  case isTrue hpos =>
    rw [subL_eq (a := s.pos) (by omega) (by omega), subL_eq (a := s.x) (by omega) (by omega)]
    exact (h.setX (x := s.x - 1) (by omega) (by omega)).setRam
      (h.ram.write (by omega) (by omega))
  case isFalse => exact h

/-- Past the right edge, the cursor goes on in the next line. -/
theorem OnScreen.wrapLine (hv : v.Fits) {x pos : Nat} (h : OnScreen v s) (hx : v.numColumns ≤ x)
    (hx' : x ≤ 2 * v.numColumns) (hpos : pos + 2 * s.x = s.pos + 2 * x) :
    OnScreen v (wrapLine v { s with x := x, pos := pos }) := by
  have hline := h.line hv
  have hs := h.place.x_le
  have hrow := hv.row
  have hcols : v.numColumns < 2 ^ 30 := by omega
  unfold Console.wrapLine
  dsimp only
  rw [subL_eq (by omega) (by omega), subL_eq (by omega) (by omega)]
  exact (h.setX (x := x - v.numColumns) (by omega) (by omega)).lf hv

/-! ### Erasing, inserting and deleting -/

theorem OnScreen.csi_J (hv : v.Fits) (h : OnScreen v s) (par : Nat) : OnScreen v (csi_J v s par) := by
  have hline := h.line hv
  have hplace := h.place
  have horigin := hplace.origin_ge
  have hend := hplace.scrEnd_eq
  have hend_le := hplace.scrEnd_le
  have hsmall := hv.small
  unfold Console.csi_J
  split
  case h_1 =>
    rw [subL_eq (by omega) (by omega)]
    exact h.setRam (h.ram.repStosw (by omega) (by omega) (by omega))
  case h_2 =>
    rw [subL_eq (by omega) (by omega)]
    exact h.setRam (h.ram.repStosw (by omega) (by omega) (by omega))
  case h_3 =>
    have hall : 2 * (v.numColumns * v.numLines) = v.numLines * v.sizeRow := by
      rw [hv.row, Nat.mul_comm v.numColumns, Nat.mul_left_comm]
    rw [mulL_eq (by omega)]
    exact h.setRam (h.ram.repStosw (by omega) (by omega) (by omega))
  case h_4 => exact h

theorem OnScreen.csi_K (hv : v.Fits) (h : OnScreen v s) (par : Nat) : OnScreen v (csi_K v s par) := by
  have hline := h.line hv
  have hx := h.place.x_le
  have hend_le := h.place.scrEnd_le
  have hsmall := hv.small
  unfold Console.csi_K
  split
  case h_1 =>
    split
    case isTrue => exact h
    case isFalse =>
      rw [subL_eq (by omega) (by omega)]
      exact h.setRam (h.ram.repStosw (by omega) (by omega) (by omega))
  case h_2 =>
    rw [mulL_eq (by omega), subL_eq (by omega) (by omega)]
    refine h.setRam (h.ram.repStosw (by omega) (by omega) ?_)
    split
    · omega
    · omega
  case h_3 =>
    rw [mulL_eq (by omega), subL_eq (by omega) (by omega)]
    exact h.setRam (h.ram.repStosw (by omega) (by omega) (by omega))
  case h_4 => exact h

theorem OnScreen.insertChar (hv : v.Fits) (h : OnScreen v s) : OnScreen v (insertChar v s) := by
  have hline := h.line hv
  have hend_le := h.place.scrEnd_le
  have hsmall := hv.small
  exact h.setRam (h.ram.insertLoop (by omega) (by omega) (by omega))

theorem OnScreen.deleteChar (hv : v.Fits) (h : OnScreen v s) : OnScreen v (deleteChar v s) := by
  have hline := h.line hv
  have hend_le := h.place.scrEnd_le
  have hsmall := hv.small
  unfold Console.deleteChar
  split
  case isTrue => exact h
  case isFalse =>
    obtain ⟨hp, hram⟩ := h.ram.deleteLoop (by omega)
      (n := v.numColumns - (s.x + 1)) (p := s.pos) (by omega) (by omega)
    exact h.setRam (hram.write (by omega) (by omega))

theorem OnScreen.iterate {f : State → State} (hf : ∀ s, OnScreen v s → OnScreen v (f s))
    (n : Nat) : ∀ s, OnScreen v s → OnScreen v (f^[n] s) := by
  induction n with
  | zero => exact fun _ h => h
  | succ n ih => exact fun s h => ih (f s) (hf s h)

/-! ### `con_write` -/

theorem OnScreen.ite {p : Prop} [Decidable p] {s s' : State} (h : OnScreen v s)
    (h' : OnScreen v s') : OnScreen v (if p then s else s') := by
  split
  · exact h
  · exact h'

theorem OnScreen.parDown (h : OnScreen v s) (i : Nat) : OnScreen v (parDown s i) :=
  OnScreen.ite ⟨h.place, h.npar_lt, h.ram⟩ h

theorem OnScreen.parUp (h : OnScreen v s) : OnScreen v (parUp s) :=
  OnScreen.ite ⟨h.place, h.npar_lt, h.ram⟩ h

theorem OnScreen.csi_r (h : OnScreen v s) : OnScreen v (csi_r v s) := by
  have hdown := h.parDown 0
  have hlines : OnScreen v (parLines v (Console.parDown s 0)) :=
    OnScreen.ite ⟨hdown.place, hdown.npar_lt, hdown.ram⟩ hdown
  unfold Console.csi_r
  dsimp only
  split
  case isTrue hr => exact hlines.setRegion hr.1 hr.2
  case isFalse => exact hlines

theorem OnScreen.csi (hv : v.Fits) (h : OnScreen v s) (c : UInt8) : OnScreen v (csi v s c) := by
  have hplain : OnScreen v { s with state := .plain } := ⟨h.place, h.npar_lt, h.ram⟩
  have hup := hplain.parUp
  have hdown := hplain.parDown 0
  -- one line for each control function, in the order of the source
  refine OnScreen.ite (hdown.gotoxy hv _ _) ?_
  refine OnScreen.ite (hup.gotoxy hv _ _) ?_
  refine OnScreen.ite (hup.gotoxy hv _ _) ?_
  refine OnScreen.ite (hup.gotoxy hv _ _) ?_
  refine OnScreen.ite (hup.gotoxy hv _ _) ?_
  refine OnScreen.ite (hup.gotoxy hv _ _) ?_
  refine OnScreen.ite (hup.gotoxy hv _ _) ?_
  refine OnScreen.ite (hdown.gotoxy hv _ _) ?_
  refine OnScreen.ite ((hdown.parDown 1).gotoxy hv _ _) ?_
  refine OnScreen.ite (hplain.csi_J hv _) ?_
  refine OnScreen.ite (hplain.csi_K hv _) ?_
  refine OnScreen.ite (OnScreen.iterate (fun _ hs => hs.insertLine hv) _ _ hplain) ?_
  refine OnScreen.ite (OnScreen.iterate (fun _ hs => hs.deleteLine hv) _ _ hplain) ?_
  refine OnScreen.ite (OnScreen.iterate (fun _ hs => hs.deleteChar hv) _ _ hplain) ?_
  refine OnScreen.ite (OnScreen.iterate (fun _ hs => hs.insertChar hv) _ _ hplain) ?_
  refine OnScreen.ite ⟨hplain.place, hplain.npar_lt, hplain.ram⟩ ?_
  refine OnScreen.ite hplain.csi_r ?_
  refine OnScreen.ite ⟨hplain.place, hplain.npar_lt, hplain.ram⟩ ?_
  exact OnScreen.ite (hplain.gotoxy hv _ _) hplain

theorem OnScreen.csiPar (hv : v.Fits) (h : OnScreen v s) (c : UInt8) :
    OnScreen v (csiPar v s c) := by
  unfold Console.csiPar
  split
  case isTrue hnext => exact ⟨h.place, Nat.add_lt_of_lt_sub hnext.2, h.ram⟩
  case isFalse =>
    split
    case isTrue => exact ⟨h.place, h.npar_lt, h.ram⟩
    case isFalse => exact h.csi hv c

theorem OnScreen.csiStart (hv : v.Fits) (h : OnScreen v s) (c : UInt8) :
    OnScreen v (csiStart v s c) := by
  have hstart : OnScreen v { s with
      npar := 0, par := fun _ => 0, state := .params, ques := c = ch '?' } :=
    ⟨h.place, Nat.zero_lt_succ 15, h.ram⟩
  unfold Console.csiStart
  split
  · exact hstart
  · exact hstart.csiPar hv c

theorem OnScreen.escByte (hv : v.Fits) (h : OnScreen v s) (c : UInt8) :
    OnScreen v (escByte v s c) := by
  have hplain : OnScreen v { s with state := .plain } := ⟨h.place, h.npar_lt, h.ram⟩
  refine OnScreen.ite ⟨h.place, h.npar_lt, h.ram⟩ ?_
  refine OnScreen.ite (hplain.gotoxy hv _ _) ?_
  refine OnScreen.ite (hplain.ri hv) ?_
  refine OnScreen.ite (hplain.lf hv) ?_
  refine OnScreen.ite hplain ?_
  refine OnScreen.ite ⟨h.place, h.npar_lt, h.ram⟩ ?_
  exact OnScreen.ite (hplain.gotoxy hv _ _) hplain

/-- There is room for one more cell in the line. -/
theorem OnScreen.put (hv : v.Fits) (h : OnScreen v s) (hx : s.x < v.numColumns) (w : UInt16) :
    OnScreen v { s with ram := s.ram.write s.pos w, pos := addL s.pos 2, x := addL s.x 1 } := by
  have hline := h.line hv
  have hend_le := h.place.scrEnd_le
  rw [addL_eq (a := s.pos) (by omega), addL_eq (a := s.x) (by omega)]
  exact (h.setX (x := s.x + 1) (by omega) (by omega)).setRam
    (h.ram.write (by omega) (by omega))

/-- No line feed moves the cursor out of its column. -/
theorem scrup_x : (scrup v s).x = s.x := by
  unfold scrup moveOrigin
  split
  · split
    · dsimp only
      split
      · rfl
      · rfl
    · rfl
  · rfl

theorem lf_x : (lf v s).x = s.x := by
  unfold lf
  split
  · rfl
  · exact scrup_x

theorem wrapLine_x : (wrapLine v s).x = subL s.x v.numColumns := lf_x

theorem OnScreen.back (hv : v.Fits) (h : OnScreen v s) :
    OnScreen v (if s.x ≠ 0 then { s with x := subL s.x 1, pos := subL s.pos 2 } else s) := by
  have hline := h.line hv
  have hx := h.place.x_le
  split
  case isTrue hpos =>
    rw [subL_eq (a := s.x) (by omega) (by omega), subL_eq (a := s.pos) (by omega) (by omega)]
    exact h.setX (by omega) (by omega)
  case isFalse => exact h

theorem OnScreen.printByte (hv : v.Fits) (h : OnScreen v s) (c : UInt8) :
    OnScreen v (printByte v s c) := by
  unfold Console.printByte
  dsimp only
  split
  case isTrue hx =>
    have hle := h.place.x_le
    have hline := h.line hv
    have hwide := hv.wide
    have hwrap : OnScreen v (Console.wrapLine v s) :=
      h.wrapLine hv (x := s.x) hx (by omega) rfl
    refine hwrap.put hv ?_ _
    rw [wrapLine_x, subL_eq hx (by omega)]
    omega
  case isFalse hx => exact h.put hv (by omega) _

/-- With four columns or more, a tab wraps at most once. -/
theorem OnScreen.tab (hv : v.Fits) (h : OnScreen v s) : OnScreen v (tab v s) := by
  have hline := h.line hv
  have hx := h.place.x_le
  have hwide := hv.wide
  have heven := hv.even
  unfold Console.tab
  dsimp only
  rw [addL_eq (a := s.x) (by omega), addL_eq (a := s.pos) (by omega)]
  split
  case isTrue hover => exact h.wrapLine hv (by omega) (by omega) (by omega)
  case isFalse hin => exact h.setX (by omega) (by omega)

theorem OnScreen.conByte (hv : v.Fits) (h : OnScreen v s) (eraseKey c : UInt8) :
    OnScreen v (conByte v s eraseKey c) := by
  unfold Console.conByte
  split
  · refine OnScreen.ite (h.printByte hv c) ?_
    refine OnScreen.ite ⟨h.place, h.npar_lt, h.ram⟩ ?_
    refine OnScreen.ite (h.lf hv) ?_
    refine OnScreen.ite (h.cr hv) ?_
    refine OnScreen.ite (h.del hv) ?_
    refine OnScreen.ite (OnScreen.back hv h) ?_
    exact OnScreen.ite (h.tab hv) h
  · exact h.escByte hv c
  · exact h.csiStart hv c
  · exact h.csiPar hv c

theorem OnScreen.conWrite (hv : v.Fits) {bytes : List (UInt8 × UInt8)} (h : OnScreen v s) :
    OnScreen v (conWrite v s bytes) := by
  induction bytes generalizing s with
  | nil => exact h
  | cons byte bytes ih => exact ih (h.conByte hv byte.1 byte.2)

end Screen

/-! ### From `con_init` on -/

section Init

variable {b : Boot} {cell : Nat → UInt16}

theorem memStart_ge : 0xb0000 ≤ b.video.memStart := by
  unfold Boot.video
  dsimp only
  split <;> decide

theorem memEnd_lt : b.video.memEnd < 2 ^ 31 := by
  unfold Boot.video
  dsimp only
  split <;> split <;> decide

theorem fits_video (heven : b.videoCols.toNat % 2 = 0)
    (hfits : b.video.memStart + b.video.numLines * b.video.sizeRow ≤ b.video.memEnd)
    (hwide : 4 ≤ b.videoCols.toNat) : b.video.Fits :=
  ⟨Nat.mul_comm _ _, heven, hwide, Nat.le_trans (by decide) memStart_ge, hfits, memEnd_lt⟩

/-- Where `gotoxy` moves the cursor, it does not matter where it was. -/
theorem gotoxy_of_le {v : Video} {s : State} {x y : Nat} (hx : x ≤ v.numColumns)
    (hy : y < v.numLines) (pos : Nat) : gotoxy v s x y = gotoxy v { s with pos := pos } x y := by
  unfold gotoxy
  rw [if_neg (by omega), if_neg (by omega)]

theorem onScreen_conInit (hv : b.video.Fits) (hx : b.origX.toNat ≤ b.videoCols.toNat)
    (hy : b.origY.toNat < ORIG_VIDEO_LINES) : OnScreen b.video (conInit b cell) := by
  have hfits := hv.fits
  have hsmall := hv.small
  have hend : (b.blank cell).scrEnd = b.video.memStart + b.video.numLines * b.video.sizeRow := by
    change addL _ (mulL _ _) = _
    rw [mulL_eq (by omega), addL_eq (by omega)]
  have hstart : OnScreen b.video { b.blank cell with pos := b.video.memStart } := by
    refine ⟨⟨Nat.zero_le _, Nat.zero_lt_succ 24, Nat.zero_lt_succ 24, Nat.le_refl _, ?_,
      Nat.le_refl _, hend, ?_⟩, Nat.zero_lt_succ 15, fun a ha => absurd ha List.not_mem_nil⟩
    · change b.video.memStart = b.video.memStart + 0 * b.video.sizeRow + 2 * 0
      omega
    · change (b.blank cell).scrEnd ≤ _
      omega
  unfold conInit
  rw [gotoxy_of_le (v := b.video) hx hy b.video.memStart]
  exact hstart.gotoxy hv _ _

/-- If the cursor of the setup code is not on the screen, `pos` stays zero. -/
theorem not_onScreen_conInit
    (hout : b.videoCols.toNat < b.origX.toNat ∨ ORIG_VIDEO_LINES ≤ b.origY.toNat) :
    ¬ OnScreen b.video (conInit b cell) := by
  intro h
  have hpos := h.place.pos_eq
  have hstart := memStart_ge (b := b)
  have hinit : conInit b cell = b.blank cell := if_pos hout
  rw [hinit] at hpos
  change 0 = b.video.memStart + _ + _ at hpos
  omega

/-- A tab at the start of a line of less than four columns leaves the line. -/
theorem not_onScreen_tab {v : Video} {s : State} (hs : s.state = .plain)
    (hwide : v.numColumns < 4) : ¬ OnScreen v (conWrite v s [(0, 13), (0, 9)]) := by
  intro h
  have hle := h.place.x_le
  have hcr : conByte v s 0 13 = cr s := by
    unfold conByte
    rw [hs]
    rfl
  have htab : conByte v (cr s) 0 9 = tab v (cr s) := by
    unfold conByte
    rw [show (cr s).state = .plain from hs]
    rfl
  change (conByte v (conByte v s 0 13) 0 9).x ≤ _ at hle
  rw [hcr, htab] at hle
  unfold tab at hle
  dsimp only at hle
  change (if 8 > v.numColumns then _ else _ : State).x ≤ _ at hle
  rw [if_pos (by omega), wrapLine_x] at hle
  change subL 8 v.numColumns ≤ _ at hle
  rw [subL_eq (by omega) (by decide)] at hle
  omega

/-- **The console stays on the screen**, whatever is written to it, exactly when the setup code
leaves the cursor on it and a tab fits into a line. -/
theorem onScreen_iff (b : Boot) (cell : Nat → UInt16) (heven : b.videoCols.toNat % 2 = 0)
    (hfits : b.video.memStart + b.video.numLines * b.video.sizeRow ≤ b.video.memEnd) :
    (∀ bytes, OnScreen b.video (conWrite b.video (conInit b cell) bytes)) ↔
      b.origX.toNat ≤ b.videoCols.toNat ∧ b.origY.toNat < ORIG_VIDEO_LINES ∧
        4 ≤ b.videoCols.toNat := by
  constructor
  · intro hall
    have hin : ¬ (b.videoCols.toNat < b.origX.toNat ∨ ORIG_VIDEO_LINES ≤ b.origY.toNat) :=
      fun hout => not_onScreen_conInit hout (hall [])
    have hstate : (conInit b cell).state = .plain := by
      unfold conInit gotoxy
      split
      · rfl
      · rfl
    have hwide : ¬ b.videoCols.toNat < 4 := fun hw => not_onScreen_tab hstate hw (hall _)
    omega
  · rintro ⟨hx, hy, hwide⟩ bytes
    have hv := fits_video heven hfits hwide
    exact (onScreen_conInit hv hx hy).conWrite hv

/-- An EGA card with 80 columns, and the cursor below the message of the setup code. -/
def ega80 : Boot := ⟨0, 5, 3, 80, 0⟩

theorem onScreen_iff_ega80 :
    (∀ bytes, OnScreen ega80.video (conWrite ega80.video (conInit ega80 fun _ => 0) bytes)) ↔
      ega80.origX.toNat ≤ ega80.videoCols.toNat ∧ ega80.origY.toNat < ORIG_VIDEO_LINES ∧
        4 ≤ ega80.videoCols.toNat :=
  onScreen_iff ega80 (fun _ => 0) (by decide) (by decide)

/-- The same card in a mode with 43 lines, with the cursor in line 30. -/
def ega43 : Boot := ⟨0, 30, 3, 80, 0⟩

theorem not_onScreen :
    ega43.videoCols.toNat % 2 = 0 ∧
      ega43.video.memStart + ega43.video.numLines * ega43.video.sizeRow ≤ ega43.video.memEnd ∧
      ¬ ∀ bytes, OnScreen ega43.video (conWrite ega43.video (conInit ega43 fun _ => 0) bytes) :=
  ⟨by decide, by decide, fun h => not_onScreen_conInit (Or.inr (by decide)) (h [])⟩

end Init

end LinuxKernel.V011.Console
