import LinuxKernel.V011.Mm.Table

/-!
# LinuxKernel.V011.Mm.Wp

**Copy on write and sharing**: `un_wp_page`, `write_verify`, `verify_area` and
`try_to_share`.

`un_wp_page` either finds the page unshared and allows the write, or moves the
slot to a fresh copy. In both cases no other slot maps the page afterwards
(`Private`), which is all the callers want from it. `try_to_share` is the one
function that takes privacy away.
-/

namespace LinuxKernel.V011.Mm

namespace Memory

variable {s s' : Memory} {f d i t : Nat} {x y z : Nat × Nat}

/-! ### Privacy -/

/-- No other slot maps the page of `x`. An absent page is private. -/
def Private (s : Memory) (x : Nat × Nat) : Prop :=
  ∀ y ∈ taskPages, y ≠ x → ∀ g, s.mapsTo x = some g → s.mapsTo y ≠ some g

theorem ViewSame.mapsTo (h : ViewSame s s') (hx : x ∈ taskPages) : s'.mapsTo x = s.mapsTo x := by
  rw [← view_frame, h x hx, view_frame]

theorem ViewSet.mapsTo_self {v : Option View} (h : ViewSet s s' x v) (hx : x ∈ taskPages) :
    s'.mapsTo x = v.map View.frame := by
  rw [← view_frame, h.self hx]

theorem ViewSet.mapsTo_of_ne {v : Option View} (h : ViewSet s s' x v) (hy : y ∈ taskPages)
    (hne : y ≠ x) : s'.mapsTo y = s.mapsTo y := by
  rw [← view_frame, h.of_ne hy hne, view_frame]

theorem Private.same (hp : Private s x) (hx : x ∈ taskPages) (h : ViewSame s s') :
    Private s' x := by
  intro y hy hne g hxg
  rw [h.mapsTo hx] at hxg
  rw [h.mapsTo hy]
  exact hp y hy hne g hxg

/-- Mappings that go away take no privacy. -/
theorem Private.mono (hp : Private s x)
    (h : ∀ y ∈ taskPages, ∀ g, s'.mapsTo y = some g → s.mapsTo y = some g) (hx : x ∈ taskPages) :
    Private s' x :=
  fun y hy hne g hxg hyg => hp y hy hne g (h x hx g hxg) (h y hy g hyg)

/-- A slot that takes a page nobody maps is private. -/
theorem private_fresh {v : View} (hset : ViewSet s s' z (some v)) (hz : z ∈ taskPages)
    (hfresh : ∀ y ∈ taskPages, s.mapsTo y ≠ some v.frame) : Private s' z := by
  intro y hy hne g hzg
  rw [hset.mapsTo_self hz] at hzg
  cases hzg
  rw [hset.mapsTo_of_ne hy hne]
  exact hfresh y hy

/-- And the others stay private. -/
theorem Private.fresh (hp : Private s x) {v : View} (hset : ViewSet s s' z (some v))
    (hz : z ∈ taskPages) (hx : x ∈ taskPages)
    (hfresh : ∀ y ∈ taskPages, s.mapsTo y ≠ some v.frame) : Private s' x := by
  by_cases hxz : x = z
  · exact hxz ▸ private_fresh hset hz hfresh
  · intro y hy hne g hxg
    rw [hset.mapsTo_of_ne hx hxz] at hxg
    by_cases hyz : y = z
    · rw [hyz, hset.mapsTo_self hz]
      rintro hEq
      cases hEq
      exact hfresh x hx hxg
    · rw [hset.mapsTo_of_ne hy hyz]
      exact hp y hy hne g hxg

/-- A page with one reference is private. -/
theorem Inv.private_of_count (h : s.Inv) (hx : x ∈ userPages) (hxf : s.mapsTo x = some f)
    (hmain : s.Main f) (hone : s.memMap (mapNr f) = 1) : Private s x := by
  intro y hy hne g hxg hyg
  obtain rfl : f = g := Option.some.inj (hxf ▸ hxg)
  rcases h.frame_cases hy hyg with ⟨hu, -⟩ | hlow
  · exact hne (h.mapping_unique hmain hone hu hx hyg hxf)
  · have := h.main_low hmain
    omega

/-- A page that may be written in user mode is private. -/
theorem Inv.private_of_writable (h : s.Inv) (hx : x ∈ userPages) {e : Word}
    (he : s.entryAt x = some e) (hw : writable e = true) : Private s x := by
  obtain ⟨hmain, hone⟩ := h.writable_exclusive hx he hw
  exact h.private_of_count hx (mapsTo_of_entry he) hmain hone

/-- A private page is no page of task 0, so it is counted. -/
theorem Inv.main_of_private (h : s.Inv) (hx : x ∈ userPages) {e : Word} (he : s.entryAt x = some e)
    (hp : Private s x) : s.Main (pageAddr e) := by
  have hmaps := mapsTo_of_entry he
  rcases h.frame_cases (userPages_subset hx) hmaps with ⟨-, hm⟩ | hlow
  · exact hm
  · have hfirst := h.frame_first (userPages_subset hx) hmaps hlow
    have hmod := pageAddr_mod e
    have hi : pageAddr e / 4096 < 0xA0 := by omega
    have hzero : s.mapsTo (0, pageAddr e / 4096) = some (pageAddr e) := by
      rw [h.first_mapsTo hi, Option.some.injEq]
      omega
    have hne : ((0, pageAddr e / 4096) : Nat × Nat) ≠ x := by
      rintro rfl
      have := (mem_userDirs.mp (mem_userPages.mp hx).1).1
      omega
    exact absurd hzero (hp _ (mem_taskPages.mpr (Or.inr ⟨rfl, hi⟩)) hne _ hmaps)

theorem private_of_absent (he : s.entryAt x = none) : Private s x := by
  intro y _ _ g hxg
  rw [mapsTo, he] at hxg
  cases hxg

/-! ### Storing into a mapped page -/

/-- New contents for a counted page that user space has mapped. -/
theorem Inv.storePage (h : s.Inv) (hx : x ∈ userPages) (hxf : s.mapsTo x = some f)
    (hmain : s.Main f) (c : Nat → Word) :
    (s.setPage f c).Inv ∧ ∀ y : Nat × Nat, y.1 < 1024 → (s.setPage f c).entryAt y = s.entryAt y := by
  have hmem : ∀ p, p ≠ f → (s.setPage f c).mem p = s.mem p := fun p hp => by
    simp [setPage, Function.update_of_ne hp]
  have hentry : ∀ y : Nat × Nat, y.1 < 1024 → (s.setPage f c).entryAt y = s.entryAt y :=
    fun y hy => h.entryAt_of_mem (show (s.setPage f c).tableAt = s.tableAt from rfl) hmem
      (h.main_low hmain) (fun d hd ht => h.table_unmapped hd ht hx hxf) hy
  refine ⟨?_, hentry⟩
  refine h.of_ledger rfl rfl (fun _ _ => rfl) (fun p hp => hmem p ?_) (fun _ _ => rfl) ?_ ?_
  · have := h.main_low hmain
    omega
  · intro y hy g hyg
    rw [mapsTo, hentry y (dir_lt_of_userPages hy)] at hyg
    exact h.low y hy g hyg
  · refine h.ledger.congr (fun y hy => ?_) (fun _ _ => rfl) rfl fun _ _ => rfl
    rw [ledger_entry, ledger_entry, hentry y (dir_lt_of_userPages hy)]

/-- The contents of a private page are seen in its slot only. -/
theorem Inv.storePage_view (h : s.Inv) (hx : x ∈ userPages) {e : Word} (he : s.entryAt x = some e)
    (hmain : s.Main (pageAddr e)) (hp : Private s x) (c : Nat → Word) :
    ViewSet s (s.setPage (pageAddr e) c) x (some ⟨pageAddr e, dirty e, c⟩) := by
  have hmaps := mapsTo_of_entry he
  obtain ⟨-, hentry⟩ := h.storePage hx hmaps hmain c
  intro y hy
  by_cases hne : y = x
  · subst hne
    rw [Function.update_self, Memory.view, hentry y (dir_lt hy), he, Option.map_some]
    simp [setPage]
  · rw [Function.update_of_ne hne]
    refine view_congr (hentry y (dir_lt hy)) fun g hyg => ?_
    have hgf : g ≠ pageAddr e := by
      rintro rfl
      exact hp y hy hne _ hmaps hyg
    simp [setPage, Function.update_of_ne hgf]

/-! ### `un_wp_page` -/

/-- The test of `un_wp_page`: the page is in use once. -/
def Unshared (s : Memory) (page : Nat) : Prop := LOW_MEM ≤ page ∧ s.memMap (mapNr page) = 1

/-- `un_wp_page` copies: the page is in use elsewhere and there is one to copy to. -/
def Copies (s : Memory) (page : Nat) : Prop := ¬ s.Unshared page ∧ s.getFreePage.1 ≠ none

/-- Slot `x` is moved to a fresh copy of its page. -/
def Copied (s s' : Memory) (x : Nat × Nat) (e : Word) : Prop :=
  ∃ f, (∀ y ∈ taskPages, s.mapsTo y ≠ some f) ∧
    ViewSet s s' x (some ⟨f, false, s.mem (pageAddr e)⟩)

/-- The copying branch of `un_wp_page`, after `get_free_page`. -/
theorem copyBranch_spec (h : s.Inv) (hd : d ∈ userDirs) (hi : i < 1024)
    (ht : s.tableAt d = some t) {e : Word} (he : s.entryAt (d, i) = some e)
    {s₁ : Memory} (hfr : Fresh s f s₁) :
    let s₂ := if LOW_MEM ≤ pageAddr e then
        s₁.setMap (mapNr (pageAddr e)) (s₁.memMap (mapNr (pageAddr e)) + 255)
      else s₁
    let s₃ := ((s₂.setWord t i (userEntry f)).unhold f).copyPage (pageAddr e) f
    s₃.Inv ∧ Keeps s s₃ ∧ ViewSet s s₃ (d, i) (some ⟨f, false, s.mem (pageAddr e)⟩) := by
  intro s₂ s₃
  have hx : (d, i) ∈ userPages := mem_userPages.mpr ⟨hd, hi⟩
  have hmaps := mapsTo_of_entry he
  have ht₁ : s₁.tableAt d = some t := by rw [hfr.table]; exact ht
  have hmaps₁ : s₁.mapsTo (d, i) = some (pageAddr e) := by
    rw [mapsTo, hfr.entryAt h (dir_lt_of_userPages hx)]
    exact hmaps
  have hmain₁ : s₁.Main = s.Main := by unfold Main; rw [hfr.start, hfr.high]
  have hold_ne : pageAddr e ≠ f := by
    intro hEq
    exact hfr.unmapped h (userPages_subset hx) (hEq ▸ hmaps)
  -- the state with the slot cleared and the old page released
  set m := s₂.memMap with hm
  have hs₂ : s₂ = { s₁ with memMap := m } := by
    simp only [hm, s₂]
    split <;> rfl
  have hclear := hfr.inv.clearSlot (m := m) hd hi ht₁
    (fun g hg hxg => by
      rw [hmaps₁] at hxg
      cases hxg
      have hlow := hfr.inv.main_low hg
      have hpos : 0 < s₁.memMap (mapNr (pageAddr e)) := by
        have := hfr.inv.ledger.cnt_pos (f := pageAddr e) hx (by rw [ledger_maps]; exact hmaps₁) hg
        rwa [ledger_cnt] at this
      have hle := hfr.inv.count_le hx hmaps₁ hg
      have hset : m (mapNr (pageAddr e)) = (s₁.memMap (mapNr (pageAddr e)) + 255) % 256 := by
        simp only [hm, s₂, if_pos hlow]
        exact setMap_memMap_self _ _ _
      omega)
    (fun n hn => by
      simp only [hm, s₂]
      split
      · next hlow =>
        refine setMap_memMap_of_ne fun hEq => ?_
        refine hn (pageAddr e) ?_ hmaps₁ hEq.symm
        rcases hfr.inv.frame_cases (userPages_subset hx) hmaps₁ with ⟨-, hc⟩ | hc
        · exact hc
        · omega
      · rfl)
  obtain ⟨hinvc, hviewc⟩ := hclear
  set c := ({ s₁ with memMap := m } : Memory).setWord t i 0 with hc
  have hfc : f ∈ c.held := hfr.mem_held
  have htc : c.tableAt d = some t := ht₁
  have hnoc : c.entryAt (d, i) = none := by
    rw [← view_eq_none]
    exact hviewc.self (userPages_subset hx)
  obtain ⟨hinv', hview'⟩ := hinvc.mapHeld hfc hd hi htc hnoc
  have hsame : (c.setWord t i (userEntry f)).unhold f = (s₂.setWord t i (userEntry f)).unhold f := by
    rw [hs₂, hc]
    simp [setWord, Function.update_idem]
  rw [hsame] at hinv' hview'
  set s' := (s₂.setWord t i (userEntry f)).unhold f with hs'
  -- the copy
  have hself' := hview'.self (userPages_subset hx)
  have hmaps' : s'.mapsTo (d, i) = some f := mapsTo_of_view hself'
  have hfmain : s'.Main f := by
    have : s'.Main = s.Main := by
      rw [← hmain₁]
      unfold Main
      rw [hs', hs₂]
      rfl
    rw [this]
    exact hfr.main
  obtain ⟨e', he', hfe'⟩ : ∃ e', s'.entryAt (d, i) = some e' ∧ pageAddr e' = f := by
    rw [mapsTo, Option.map_eq_some_iff] at hmaps'
    exact hmaps'
  have hdirty : dirty e' = false := by
    rw [Memory.view, he', Option.map_some] at hself'
    exact congrArg View.dirty (Option.some.inj hself')
  have hfreshc : ∀ y ∈ taskPages, c.mapsTo y ≠ some f := by
    intro y hy hyf
    by_cases hne : y = (d, i)
    · rw [hne, mapsTo, hnoc] at hyf
      cases hyf
    · rw [hviewc.mapsTo_of_ne hy hne, mapsTo, hfr.entryAt h (dir_lt hy)] at hyf
      exact hfr.unmapped h hy hyf
  have hpriv : Private s' (d, i) := private_fresh hview' (userPages_subset hx) hfreshc
  have hcontent : s'.mem (pageAddr e) = s.mem (pageAddr e) := by
    have hne : pageAddr e ≠ t := (h.mapped_no_table (userPages_subset hx) hmaps hd ht).symm
    rw [hs', hs₂]
    exact (setWord_mem_of_ne hne).trans (hfr.mem _ hold_ne)
  subst hfe'
  obtain ⟨hinv₃, -⟩ := hinv'.storePage hx hmaps' hfmain (s'.mem (pageAddr e))
  have hview₃ := hinv'.storePage_view hx he' hfmain hpriv (s'.mem (pageAddr e))
  rw [hdirty, hcontent] at hview₃
  refine ⟨hinv₃, ⟨?_, fun p hp => ?_⟩, fun y hy => ?_⟩
  · change s₂.held.erase _ = s.held
    rw [hs₂]
    change s₁.held.erase _ = s.held
    rw [hfr.held, List.erase_cons_head]
  · have hpf : p ≠ pageAddr e' := fun hEq => hfr.not_held h (hEq ▸ hp)
    have hpt : p ≠ t := (h.held_ne_table hp hd ht).symm
    have hcopy : s₃.mem p = s'.mem p := Function.update_of_ne hpf _ _
    rw [hcopy, hs', hs₂]
    exact (setWord_mem_of_ne hpt).trans (hfr.held_mem h p hp)
  · change (s'.setPage (pageAddr e') (s'.mem (pageAddr e))).view y = _
    by_cases hne : y = (d, i)
    · rw [hne, Function.update_self, hcontent, hview₃.self (userPages_subset hx)]
    · rw [Function.update_of_ne hne, hcontent, hview₃.of_ne hy hne, hview'.of_ne hy hne,
        hviewc.of_ne hy hne]
      exact hfr.view h hy

/-- `un_wp_page` on a present entry. -/
theorem unWpPage_spec (h : s.Inv) (hd : d ∈ userDirs) (hi : i < 1024)
    (ht : s.tableAt d = some t) {e : Word} (he : s.entryAt (d, i) = some e) {ok : Bool}
    (hp : s.unWpPage t i = (ok, s')) :
    s'.Inv ∧ Keeps s s' ∧ (ok = true → Private s' (d, i)) ∧
      (ViewSame s s' ∨ ok = true ∧ s.Copies (pageAddr e) ∧ Copied s s' (d, i) e) := by
  have hx : (d, i) ∈ userPages := mem_userPages.mpr ⟨hd, hi⟩
  have hmaps := mapsTo_of_entry he
  have hword : s.mem t i = e := by
    have hread := entryAt_of_table ht i
    rw [he] at hread
    split at hread
    · exact (Option.some.inj hread).symm
    · cases hread
  unfold unWpPage at hp
  rw [hword] at hp
  dsimp only at hp
  split at hp
  · next hun =>
    cases hp
    have hmain : s.Main (pageAddr e) := by
      rcases h.frame_cases (userPages_subset hx) hmaps with ⟨-, hm⟩ | hl
      · exact hm
      · omega
    obtain ⟨hinv, hview⟩ := h.setFlags (w := allowWrite e) hd hi ht he
      ((present_allowWrite e).trans (entryAt_present he)) (pageAddr_allowWrite e)
      (fun _ => ⟨hmain, hun.2⟩)
    have hsame : ViewSame s (s.setWord t i (allowWrite e)) := fun y hy => by
      by_cases hne : y = (d, i)
      · rw [hne, hview.self (userPages_subset hx), dirty_allowWrite, Memory.view, he,
          Option.map_some]
      · exact hview.of_ne hy hne
    exact ⟨hinv, h.keeps_setWord hd ht _ _, fun _ =>
      (h.private_of_count hx hmaps hmain hun.2).same (userPages_subset hx) hsame, Or.inl hsame⟩
  · next hun =>
    cases hg : s.getFreePage with
    | mk r s₁ =>
      rw [hg] at hp
      cases r with
      | none =>
          cases hp
          obtain rfl := getFreePage_none hg
          exact ⟨h.setDeny _, ⟨rfl, fun _ _ => rfl⟩, (fun hc => by cases hc),
            Or.inl fun _ _ => rfl⟩
      | some f =>
          cases hp
          have hfr := getFreePage_fresh h hg
          obtain ⟨hinv, hheld, hview⟩ := copyBranch_spec h hd hi ht he hfr
          have hfresh : ∀ y ∈ taskPages, s.mapsTo y ≠ some f := fun y hy => hfr.unmapped h hy
          exact ⟨hinv, hheld, fun _ => private_fresh hview (userPages_subset hx) hfresh,
            Or.inr ⟨rfl, ⟨hun, by simp [hg]⟩, f, hfresh, hview⟩⟩

/-! ### `write_verify` and `verify_area` -/

theorem dirNr_lt (address : Nat) : dirNr address < 1024 := by
  unfold dirNr
  have : (address >>> 20) &&& 0xffc ≤ 0xffc := Nat.and_le_right
  omega

/-- `write_verify` leaves the page private, or runs out of memory. -/
theorem writeVerify_spec (h : s.Inv) {address : Nat} {ok : Bool}
    (hp : s.writeVerify address = (ok, s')) :
    s'.Inv ∧ Keeps s s' ∧
      (ok = true → slot address ∈ userPages → Private s' (slot address)) ∧
      (ViewSame s s' ∨ ok = true ∧ slot address ∈ userPages ∧
        ∃ e, s.entryAt (slot address) = some e ∧ writable e = false ∧ s.Copies (pageAddr e) ∧
          Copied s s' (slot address) e) := by
  unfold writeVerify at hp
  by_cases hpres : present (s.pgDir (dirNr address)) = true
  · have ht : s.tableAt (dirNr address) = some (pageAddr (s.pgDir (dirNr address))) :=
      tableAt_some.mpr ⟨hpres, rfl⟩
    rw [if_pos hpres] at hp
    dsimp only at hp
    by_cases hro : 3#32 &&& s.mem (pageAddr (s.pgDir (dirNr address))) (pageNr address) = 1#32
    · rw [if_pos hro] at hp
      obtain ⟨hpe, hwe⟩ := (readOnly_iff _).mp hro
      have hd : dirNr address ∈ userDirs := by
        rcases h.tables_lt (dirNr_lt address) ht with hl | hu
        · -- the entries of the kernel's own tables are all writable
          by_cases hk : dirNr address < 16
          · have := (h.kernel _ hk _ ht).2 _ (pageNr_lt address)
            rw [this] at hwe
            cases hwe
          · have := dirNr_lt address
            exact mem_userDirs.mpr ⟨by omega, this⟩
        · exact hu
      have he : s.entryAt (slot address) =
          some (s.mem (pageAddr (s.pgDir (dirNr address))) (pageNr address)) := by
        rw [slot, entryAt_of_table ht, if_pos hpe]
      obtain ⟨hinv, hheld, hpriv, hcases⟩ := unWpPage_spec h hd (pageNr_lt address) ht he hp
      refine ⟨hinv, hheld, fun hok _ => hpriv hok, ?_⟩
      rcases hcases with hsame | ⟨hok, hun, hcopy⟩
      · exact Or.inl hsame
      · exact Or.inr ⟨hok, slot_mem hd, _, he, hwe, hun, hcopy⟩
    · rw [if_neg hro] at hp
      cases hp
      refine ⟨h, Keeps.refl s, fun _ hx => ?_, Or.inl (ViewSame.refl s)⟩
      by_cases hpe : present (s.mem (pageAddr (s.pgDir (dirNr address))) (pageNr address)) = true
      · have hw : writable (s.mem (pageAddr (s.pgDir (dirNr address))) (pageNr address)) = true := by
          by_contra hc
          exact hro ((readOnly_iff _).mpr ⟨hpe, by simpa using hc⟩)
        exact h.private_of_writable hx (by rw [slot, entryAt_of_table ht, if_pos hpe]) hw
      · exact private_of_absent (by rw [slot, entryAt_of_table ht, if_neg hpe])
  · rw [if_neg hpres] at hp
    cases hp
    refine ⟨h, Keeps.refl s, fun _ _ => ?_, Or.inl (ViewSame.refl s)⟩
    exact private_of_absent (entryAt_of_no_table (by simp [tableAt, slot, hpres]))

/-- A slot that was private before `write_verify` still is. -/
theorem Private.writeVerify (hp : Private s x) (hx : x ∈ taskPages) (h : s.Inv) {address : Nat}
    {ok : Bool} (hw : s.writeVerify address = (ok, s')) : Private s' x := by
  obtain ⟨-, -, -, hcases⟩ := writeVerify_spec h hw
  rcases hcases with hsame | ⟨-, hz, e, -, -, -, f, hfresh, hset⟩
  · exact hp.same hx hsame
  · exact hp.fresh hset (userPages_subset hz) hx hfresh

theorem writeVerify_presence (h : s.Inv) {address : Nat} {ok : Bool}
    (hw : s.writeVerify address = (ok, s')) : SamePresence s s' := by
  obtain ⟨-, -, -, hcases⟩ := writeVerify_spec h hw
  rcases hcases with hsame | ⟨-, -, e, he, -, -, f, -, hset⟩
  · exact hsame.presence
  · exact hset.presence (by rw [Memory.view, he]; simp)

/-- The address that the loop of `verify_area` passes in its `k`-th round. -/
def verifyAddr (start k : Nat) : Nat := (start + 4096 * k) % 2 ^ 32

/-- The loop of `verify_area` leaves the pages it passes private. -/
theorem verifyPages_spec {n start : Nat} (h : s.Inv) (hstart : start < 2 ^ 32) {ok : Bool}
    (hp : s.verifyPages start n = (ok, s')) :
    s'.Inv ∧ Keeps s s' ∧ SamePresence s s' ∧
      (∀ x ∈ taskPages, Private s x → Private s' x) ∧
      (ok = true → ∀ k < n, slot (verifyAddr start k) ∈ userPages →
        Private s' (slot (verifyAddr start k))) := by
  induction n generalizing s start with
  | zero =>
      cases hp
      exact ⟨h, Keeps.refl _, fun _ _ => Iff.rfl, fun _ _ hp => hp, fun _ k hk => by omega⟩
  | succ n ih =>
      unfold verifyPages at hp
      cases hw : s.writeVerify start with
      | mk ok₁ s₁ =>
        rw [hw] at hp
        obtain ⟨hinv₁, hheld₁, hpriv₁, -⟩ := writeVerify_spec h hw
        have hkeep₁ : ∀ x ∈ taskPages, Private s x → Private s₁ x :=
          fun x hx hpx => hpx.writeVerify hx h hw
        have hpres₁ := writeVerify_presence h hw
        cases ok₁ with
        | false =>
            cases hp
            exact ⟨hinv₁, hheld₁, hpres₁, hkeep₁, fun hc => by cases hc⟩
        | true =>
            obtain ⟨hinv₂, hheld₂, hpres₂, hkeep₂, hpriv₂⟩ :=
              ih hinv₁ (Nat.mod_lt _ (by norm_num)) hp
            refine ⟨hinv₂, hheld₁.trans hheld₂, hpres₁.trans hpres₂, fun x hx hpx => hkeep₂ x hx (hkeep₁ x hx hpx),
              fun hok k hk hmem => ?_⟩
            cases k with
            | zero =>
                have haddr : verifyAddr start 0 = start := by
                  rw [verifyAddr, Nat.mul_zero, Nat.add_zero, Nat.mod_eq_of_lt hstart]
                rw [haddr] at hmem ⊢
                exact hkeep₂ _ (userPages_subset hmem) (hpriv₁ rfl hmem)
            | succ k =>
                have haddr : verifyAddr start (k + 1) = verifyAddr ((start + 4096) % 2 ^ 32) k := by
                  unfold verifyAddr
                  omega
                rw [haddr] at hmem ⊢
                exact hpriv₂ hok k (by omega) hmem

/-- `verify_area`, when the size fits an `int` together with the offset in the
first page: every page of the area is private. -/
theorem verifyArea_spec {base addr : Nat} {size : Int} (h : s.Inv) {ok : Bool}
    (hp : s.verifyArea base addr size = (ok, s')) :
    s'.Inv ∧ Keeps s s' ∧ SamePresence s s' ∧
      (∀ x ∈ taskPages, Private s x → Private s' x) ∧
      (ok = true → -2 ^ 31 ≤ size → size + (addr % 4096 : Nat) < 2 ^ 31 →
        ∀ a : Nat, addr ≤ a → (a : Int) < addr + size → base + a < 2 ^ 32 → base % 4096 = 0 →
        slot (base + a) ∈ userPages → Private s' (slot (base + a))) := by
  obtain ⟨hinv, hheld, hpres, hkeep, hpriv⟩ :=
    verifyPages_spec h (Nat.mod_lt _ (by norm_num)) (show s.verifyPages _ _ = (ok, s') from hp)
  refine ⟨hinv, hheld, hpres, hkeep, fun hok hmin hmax a hlo hhi hlt hbase hmem => ?_⟩
  have hsize : Int.bmod (size + (addr % 4096 : Nat)) (2 ^ 32) = size + (addr % 4096 : Nat) := by
    apply Int.bmod_eq_of_le <;> omega
  set k := a / 4096 - addr / 4096 with hk
  have hround : slot (verifyAddr ((addr / 4096 * 4096 + base) % 2 ^ 32) k) = slot (base + a) := by
    have haddr : verifyAddr ((addr / 4096 * 4096 + base) % 2 ^ 32) k = (base + a) / 4096 * 4096 := by
      unfold verifyAddr
      omega
    rw [haddr, slot, slot, dirNr_eq (by omega), dirNr_eq hlt, pageNr_eq, pageNr_eq]
    refine Prod.ext ?_ ?_ <;> simp only <;> omega
  rw [← hround] at hmem ⊢
  refine hpriv hok k ?_ hmem
  rw [hsize]
  omega

/-! ### `try_to_share` -/

/-- The slot of the page at offset `address` of task `nr`. -/
def taskSlot (nr address : Nat) : Nat × Nat := (dirNr address + 16 * nr, pageNr address)

theorem taskSlot_mem {nr address : Nat} (hnr : 0 < nr) (hlt : nr < 64) (ha : address < 2 ^ 26) :
    taskSlot nr address ∈ userPages := by
  have hdir := dirNr_eq (show address < 2 ^ 32 by omega)
  have := pageNr_lt address
  rw [mem_userPages, mem_userDirs]
  simp only [taskSlot]
  omega

theorem slot_task {nr address : Nat} (hlt : nr < 64) (ha : address < 2 ^ 26) :
    slot (nr * 0x4000000 + address) = taskSlot nr address := by
  rw [slot, taskSlot, dirNr_eq (by omega), dirNr_eq (by omega), pageNr_eq, pageNr_eq]
  refine Prod.ext ?_ ?_ <;> simp only <;> omega

/-- The page at `x` is one that `try_to_share` hands out: present, clean and
counted. -/
def Sharable (s : Memory) (x : Nat × Nat) : Prop :=
  ∃ e, s.entryAt x = some e ∧ dirty e = false ∧ LOW_MEM ≤ pageAddr e ∧ pageAddr e < s.highMemory

/-- The second half of `try_to_share`, once the target table exists. -/
theorem shareEntry_spec (h : s.Inv) {d' t' i' : Nat} (hd : d ∈ userDirs) (hi : i < 1024)
    (ht : s.tableAt d = some t) (hd' : d' ∈ userDirs) (hi' : i' < 1024)
    (ht' : s.tableAt d' = some t') {e : Word} (he : s.entryAt (d, i) = some e)
    (hmain : s.Main (pageAddr e)) (hno : s.entryAt (d', i') = none)
    (htag : pageTag (d, i) = pageTag (d', i')) :
    let s₁ := s.setWord t i (writeProtect (s.mem t i))
    let s₂ := (s₁.setWord t' i' (s₁.mem t i)).setMap (mapNr (pageAddr e))
      (s₁.memMap (mapNr (pageAddr e)) + 1)
    s₂.Inv ∧ Keeps s s₂ ∧ ViewSet s s₂ (d', i') (s.view (d, i)) := by
  intro s₁ s₂
  have hx : (d, i) ∈ userPages := mem_userPages.mpr ⟨hd, hi⟩
  have hne : (d', i') ≠ (d, i) := by
    intro hEq
    rw [hEq, he] at hno
    cases hno
  have hword : s.mem t i = e := by
    have hread := entryAt_of_table ht i
    rw [he] at hread
    split at hread
    · exact (Option.some.inj hread).symm
    · cases hread
  have hwpres : present (writeProtect e) = true :=
    (present_writeProtect e).trans (entryAt_present he)
  have hs₁ : s₁ = s.setWord t i (writeProtect e) := by simp only [s₁, hword]
  have hmem₁ : s₁.mem t i = writeProtect e := by
    rw [hs₁, setWord_mem_self, Function.update_self]
  obtain ⟨hinv₁, hview₁⟩ := h.setFlags (w := writeProtect e) hd hi ht he hwpres
    (pageAddr_writeProtect e) (fun hw => by simp at hw)
  rw [← hs₁] at hinv₁ hview₁
  have hself₁ : s₁.entryAt (d, i) = some (writeProtect e) := by
    rw [hs₁, h.entryAt_setWord hd ht (dir_lt_of_userPages hx), if_pos rfl, if_pos hwpres]
  have hno₁ : s₁.entryAt (d', i') = none := by
    rw [hs₁, h.entryAt_setWord hd ht (mem_userDirs.mp hd').2, if_neg hne, hno]
  have htab₁ : s₁.tableAt d' = some t' := by rw [hs₁]; exact ht'
  have hmain₁ : s₁.Main (pageAddr (writeProtect e)) := by
    rw [pageAddr_writeProtect]
    exact hmain
  obtain ⟨hinv₂, hview₂⟩ := hinv₁.shareSlot hx hd' hi' htab₁ hself₁ (writable_writeProtect e)
    hno₁ htag hmain₁
  have hsame : s₁.view (d, i) = s.view (d, i) := by
    rw [hview₁.self (userPages_subset hx), dirty_writeProtect, Memory.view, he, Option.map_some]
  have hsame' : ViewSame s s₁ := fun y hy => by
    by_cases hyx : y = (d, i)
    · rw [hyx, hsame]
    · exact hview₁.of_ne hy hyx
  rw [pageAddr_writeProtect] at hinv₂ hview₂
  rw [hsame] at hview₂
  have hs₂ : s₂ = (s₁.setWord t' i' (writeProtect e)).setMap (mapNr (pageAddr e))
      (s₁.memMap (mapNr (pageAddr e)) + 1) := by
    simp only [s₂, hmem₁]
  have hkeep := (h.keeps_setWord hd ht i (writeProtect e)).trans
    (hs₁ ▸ hinv₁.keeps_setWord hd' htab₁ i' (writeProtect e))
  rw [hs₂, hs₁]
  exact ⟨hs₁ ▸ hinv₂, ⟨rfl, hkeep.mem⟩, hs₁ ▸ hsame'.then_set hview₂⟩

/-- `try_to_share`: nothing happens, or the current task gets the clean page of
the other one. -/
theorem tryToShare_spec (h : s.Inv) {address p cur : Nat} (ha : address < 2 ^ 26) (hp : 0 < p)
    (hplt : p < 64) (hcur : 0 < cur) (hclt : cur < 64) :
    (s.tryToShare address (p * 0x4000000) (cur * 0x4000000)).Ends noFreePanic fun r =>
      r.2.Inv ∧ Keeps s r.2 ∧ match r.1 with
        | .no => r.2 = s ∧ ¬ s.Sharable (taskSlot p address)
        | .yes => s.Sharable (taskSlot p address) ∧
            (s.tableAt (taskSlot cur address).1 ≠ none ∨ s.getFreePage.1 ≠ none) ∧
            ViewSet s r.2 (taskSlot cur address) (s.view (taskSlot p address))
        | .oom => ViewSame s r.2 := by
  have hxp := taskSlot_mem hp hplt ha
  have hxc := taskSlot_mem hcur hclt ha
  have hd := (mem_userPages.mp hxp).1
  have hd' := (mem_userPages.mp hxc).1
  have hi := pageNr_lt address
  simp only [taskSlot] at hxp hxc hd hd'
  unfold tryToShare
  rw [dirNr_task hplt, dirNr_task hclt]
  dsimp only
  set d := dirNr address + 16 * p with hdp
  set d' := dirNr address + 16 * cur with hdc
  by_cases hfrom : present (s.pgDir d) = true
  swap
  · rw [if_neg hfrom]
    refine ⟨h, Keeps.refl s, rfl, ?_⟩
    rintro ⟨e, he, -⟩
    have hnone : s.entryAt (d, pageNr address) = none :=
      entryAt_of_no_table (by simp [tableAt, hfrom])
    rw [taskSlot, ← hdp, hnone] at he
    cases he
  rw [if_pos hfrom]
  have ht : s.tableAt d = some (pageAddr (s.pgDir d)) := tableAt_some.mpr ⟨hfrom, rfl⟩
  have hread := entryAt_of_table ht (pageNr address)
  set t := pageAddr (s.pgDir d) with htt
  by_cases hclean : s.mem t (pageNr address) &&& 0x41#32 ≠ 1#32
  · rw [if_pos hclean]
    refine ⟨h, Keeps.refl s, rfl, ?_⟩
    rintro ⟨e, he, hde, -⟩
    rw [taskSlot, ← hdp, hread] at he
    split at he
    · next hpe =>
      cases he
      exact hclean ((clean_iff _).mpr ⟨hpe, hde⟩)
    · cases he
  rw [if_neg hclean]
  obtain ⟨hpe, hde⟩ := (clean_iff _).mp (not_not.mp hclean)
  rw [if_pos hpe] at hread
  set e := s.mem t (pageNr address) with he
  by_cases hrange : s.highMemory ≤ pageAddr e ∨ pageAddr e < LOW_MEM
  · rw [if_pos hrange]
    refine ⟨h, Keeps.refl s, rfl, ?_⟩
    rintro ⟨e', he', -, hlo, hhi⟩
    rw [taskSlot, ← hdp, hread] at he'
    cases he'
    omega
  rw [if_neg hrange]
  have hsharable : s.Sharable (taskSlot p address) :=
    ⟨e, hread, hde, by omega, by omega⟩
  have hmain : s.Main (pageAddr e) := by
    rcases h.frame_cases (userPages_subset hxp) (mapsTo_of_entry hread) with ⟨-, hm⟩ | hl
    · exact hm
    · omega
  have htag : pageTag (d, pageNr address) = pageTag (d', pageNr address) := by
    simp only [pageTag, hdp, hdc, Nat.add_mul_mod_self_left]
  by_cases hto : present (s.pgDir d') = true
  · rw [if_pos hto]
    have ht' : s.tableAt d' = some (pageAddr (s.pgDir d')) := tableAt_some.mpr ⟨hto, rfl⟩
    by_cases hex : present (s.mem (pageAddr (s.pgDir d')) (pageNr address)) = true
    · rw [if_pos hex]
      exact ⟨by decide, by decide⟩
    · rw [if_neg hex]
      have hno : s.entryAt (d', pageNr address) = none := by
        rw [entryAt_of_table ht', if_neg hex]
      obtain ⟨hinv, hheld, hview⟩ := shareEntry_spec h hd hi ht hd' hi ht' hread hmain hno htag
      have htable : s.tableAt (taskSlot cur address).1 ≠ none := by
        rw [taskSlot, ← hdc, ht']
        simp
      exact ⟨hinv, hheld, hsharable, Or.inl htable, hview⟩
  · rw [if_neg hto]
    have hnot : s.tableAt d' = none := by simp [tableAt, hto]
    cases hg : s.getFreePage with
    | mk r s₁ =>
      cases r with
      | none =>
          obtain rfl := getFreePage_none hg
          exact ⟨h.setDeny _, ⟨rfl, fun _ _ => rfl⟩, fun _ _ => rfl⟩
      | some f =>
          have hfr := getFreePage_fresh h hg
          obtain ⟨hinv₂, ht₂, hentry₂⟩ := hfr.inv.installTable hfr.mem_held hd'
            (by rw [hfr.table]; exact hnot) hfr.zero
          have hdd : d ≠ d' := by
            intro hEq
            rw [← hEq] at hto
            exact hto hfrom
          dsimp only
          set s₂ := (s₁.setPgDir d' (userEntry f)).unhold f with hs₂
          have hkeep₂ : Keeps s s₂ :=
            ⟨by simp [hs₂, unhold, setPgDir, hfr.held], fun p hp => hfr.held_mem h p hp⟩
          have hsame : ViewSame s s₂ := fun y hy => by
            rw [← hfr.view h hy]
            exact view_congr (hentry₂ y (dir_lt hy)) fun _ _ => rfl
          have hold : s₂.tableAt d = some t := by
            have hset : s₂.tableAt d = s₁.tableAt d := setPgDir_tableAt_of_ne hdd
            rw [hset, hfr.table]
            exact ht
          have hread₂ : s₂.entryAt (d, pageNr address) = some e := by
            rw [hentry₂ _ (dir_lt_of_userPages hxp), hfr.entryAt h (dir_lt_of_userPages hxp)]
            exact hread
          have hno₂ : s₂.entryAt (d', pageNr address) = none := by
            rw [hentry₂ _ (dir_lt_of_userPages hxc), hfr.entryAt h (dir_lt_of_userPages hxc)]
            exact entryAt_of_no_table hnot
          have hnot₂ : ¬ present (s₂.mem f (pageNr address)) = true := by
            rw [show s₂.mem f = s₁.mem f from rfl, hfr.zero]
            simp [present_zero]
          have hmain₂ : s₂.Main (pageAddr e) := by
            have : s₂.Main = s.Main := by
              unfold Main
              rw [show s₂.mainMemoryStart = s₁.mainMemoryStart from rfl,
                show s₂.highMemory = s₁.highMemory from rfl, hfr.start, hfr.high]
            rw [this]
            exact hmain
          rw [if_neg hnot₂]
          obtain ⟨hinv₃, hheld₃, hview₃⟩ :=
            shareEntry_spec hinv₂ hd hi hold hd' hi ht₂ hread₂ hmain₂ hno₂ htag
          rw [hsame _ (userPages_subset hxp)] at hview₃
          exact ⟨hinv₃, hkeep₂.trans hheld₃, hsharable, Or.inr (by simp),
            hsame.then_set hview₃⟩

end Memory

end LinuxKernel.V011.Mm
