import LinuxKernel.V098.Net.UnixBytes

/-!
# LinuxKernel.V098.Net.UnixWrites

The steps of the writers, and **all runs**. What differs from the readers: two writers that
copy at the same time write over each other, so what one has stored is in its place only while
he is alone.
-/

namespace LinuxKernel.V098.Net.Unix

variable {s s' : State} {r w i cando pos : Nat} {t : Task}

namespace AtWrite

/-- Nobody else is copying, or he is not. -/
theorem of_inv (h : Inv s) (hw : Writing s w)
    (halone : copying (s.writer w) = true → ∀ x < s.tasks, x ≠ w → copying (s.writer x) = false) :
    AtWrite s w where
  core := ⟨h.core.page, h.core.readers,
    h.core.writers.of_iff fun _ => or_iff_left_of_imp fun hx => hx ▸ hw, h.core.ordered, h.core.killed⟩
  lt := hw.1
  readPc := h.readPc
  writePc x hx hxw := (h.writePc x hx).imp rfl fun c p k hpc hpos hk =>
    ⟨hpos, fun hal => hk fun y hy hyx _ => by
      by_cases hyw : y = w
      · subst hyw
        cases hc : copying (s.writer y) with
        | false => rfl
        | true =>
            have := halone hc x hx.1 hxw
            rw [copying, hpc] at this
            cases this
      · exact hal y hy hyx hyw⟩

theorem inv (h : AtWrite s w) (hpc : (s.writer w).pc ≠ .idle)
    (ht : WritePc s (fun _ => False) w) : Inv s where
  core := ⟨h.core.page, h.core.readers, h.core.writers.of_iff fun _ =>
    (or_iff_left_of_imp fun hx => hx ▸ And.intro h.lt hpc).symm, h.core.ordered, h.core.killed⟩
  readPc := h.readPc
  writePc x hx := by
    by_cases hxw : x = w
    · exact hxw ▸ ht
    · exact (h.writePc x hx hxw).imp rfl fun _ _ _ _ hpos hk =>
        ⟨hpos, fun hal => hk fun y hy hyx _ => hal y hy hyx fun hk => hk⟩

theorem move (h : AtWrite s w) (hcall : t.call = (s.writer w).call) (hsize : t.size = (s.writer w).size)
    (htodo : t.todo = (s.writer w).todo) : AtWrite (setWriter s w t) w := by
  have hwriting : ∀ x, x ≠ w → (Writing (setWriter s w t) x ↔ Writing s x) := fun x hx => by
    rw [Writing, setWriter_of_ne hx]
    rfl
  refine ⟨⟨h.core.page.congr rfl rfl rfl rfl rfl, h.core.readers,
    (h.core.writers.setPc (Or.inr rfl) hcall hsize htodo).of_iff fun x => ?_,
    h.core.ordered, h.core.killed⟩, h.lt, fun x hx => (h.readPc x hx).congr rfl rfl rfl,
    fun x hx hxw => ?_⟩
  · by_cases hx : x = w
    · exact ⟨fun _ => Or.inr hx, fun _ => Or.inr hx⟩
    · rw [or_iff_left hx, or_iff_left hx, hwriting x hx]
  · refine (h.writePc x ((hwriting x hxw).mp hx) hxw).imp (setWriter_of_ne hxw)
      fun _ _ _ _ hpos hk => ⟨hpos, fun hal => ?_⟩
    have hst := hk fun y hy hyx hyw => by
      rw [← setWriter_of_ne hyw (t := t)]
      exact hal y hy hyx hyw
    exact ⟨hst.start, hst.bytes⟩

/-- It comes to a place in the code other than the copy. -/
theorem set (h : AtWrite s w) (hcall : t.call = (s.writer w).call) (hsize : t.size = (s.writer w).size)
    (htodo : t.todo = (s.writer w).todo) (hpc : t.pc ≠ .idle)
    (ht : WritePc (setWriter s w t) (fun _ => False) w) : Inv (setWriter s w t) := by
  refine (h.move hcall hsize htodo).inv ?_ ht
  rw [setWriter_self]
  exact hpc

/-- It returns what it has counted. -/
theorem return_ (h : AtWrite s w) {n : Int} (hn : (s.writer w).size - (s.writer w).todo = n.toNat) :
    Inv (writeReturn s w n) := by
  have hself : (writeReturn s w n).writer w = { s.writer w with pc := .idle } :=
    Function.update_self ..
  have hother : ∀ x, x ≠ w → (writeReturn s w n).writer x = s.writer x := fun x hx =>
    Function.update_of_ne hx _ _
  have hwriting : ∀ x, Writing (writeReturn s w n) x ↔ (Writing s x ∨ x = w) ∧ x ≠ w := fun x => by
    by_cases hx : x = w
    · subst hx
      rw [Writing, hself]
      exact ⟨fun hk => absurd rfl hk.2, fun hk => absurd rfl hk.2⟩
    · rw [Writing, hother x hx]
      exact ⟨fun hk => ⟨Or.inl hk, hx⟩, fun hk => hk.1.resolve_right hx⟩
  refine ⟨⟨h.core.page.congr rfl rfl rfl rfl rfl, h.core.readers, ?_, h.core.ordered,
    h.core.killed⟩, fun x hx => (h.readPc x hx).congr rfl rfl rfl, fun x hx => ?_⟩
  · have hcalls := h.core.writers.setPc (t := { s.writer w with pc := .idle }) (Or.inr rfl) rfl rfl rfl
    have hw : Function.update s.writer w { s.writer w with pc := .idle } w =
        { s.writer w with pc := .idle } := Function.update_self ..
    have hret := hcalls.return_ (r := w) (n := n) (Or.inr rfl) (by rw [hw]; exact hn)
    rw [hw] at hret
    exact hret.of_iff hwriting
  · obtain ⟨hx, hxw⟩ := (hwriting x).mp hx
    refine (h.writePc x (hx.resolve_right hxw) hxw).imp (hother x hxw)
      fun _ _ _ _ hpos hk => ⟨hpos, fun hal => ?_⟩
    have hst := hk fun y hy hyx hyw => by
      rw [← hother y hyw]
      exact hal y hy hyx fun hk => hk
    exact ⟨hst.start, hst.bytes⟩

/-- The kill is not reached: there is some space. -/
theorem chunk (h : AtWrite s w) (htodo : 0 < (s.writer w).todo) (hspace : bufSpace s ≠ 0) :
    Inv (writeChunk s w (bufSpace s)) := by
  have hpos : 0 < bufSpace s := by
    have := h.core.page.bufSpace_nonneg
    omega
  have hhead := h.core.page.head_lt
  rw [writeChunk, if_neg (Int.not_le.mpr hpos)]
  refine h.set rfl rfl rfl Pc.noConfusion ?_
  rw [WritePc, setWriter_self]
  refine ⟨?_, ?_⟩
  · omega
  · exact Nat.le_trans (Nat.min_le_left _ _) (Nat.min_le_left _ _)

theorem head (h : AtWrite s w) (htodo : 0 < (s.writer w).todo)
    (hsize : (s.writer w).todo = (s.writer w).size) : Inv (writeHead s w) := by
  unfold writeHead
  split
  · split
    · exact h.return_ (by rw [hsize, Nat.sub_self]; rfl)
    · refine h.set rfl rfl rfl Pc.noConfusion ?_
      rw [WritePc, setWriter_self]
      exact ⟨htodo, hsize⟩
  · next hspace => exact h.chunk htodo hspace

theorem done (h : AtWrite s w) (hst : Stored s (s.writer w) pos cando) (hpos : pos + cando ≤ BUF_SIZE)
    (hcando : cando ≤ (s.writer w).todo) (hspace : (cando : Int) ≤ bufSpace s)
    (halone : ∀ x < s.tasks, x ≠ w → copying (s.writer x) = false) : Inv (writeDone s w cando) := by
  have hle := h.core.writers.le w (Or.inr rfl)
  have hcount := h.core.writers.counts w (Or.inr rfl)
  obtain rfl := hst.start
  unfold writeDone
  dsimp only
  generalize hs₁ : ({ setWriter s w { s.writer w with todo := (s.writer w).todo - cando } with
      bpHead := (s.bpHead + cando) % BUF_SIZE
      counted := s.counted ++ Unix.chunk (s.writer w) cando } : State) = s₁
  have hself : s₁.writer w = { s.writer w with todo := (s.writer w).todo - cando } := by
    rw [← hs₁]
    exact Function.update_self ..
  have hother : ∀ x, x ≠ w → s₁.writer x = s.writer x := fun x hx => by
    rw [← hs₁]
    exact Function.update_of_ne hx _ _
  have hput : ∀ c, put s₁ c = if c = (s.writer w).call then put s c + cando else put s c := fun c => by
    rw [put, put, ← hs₁, List.filter_append, List.length_append, filter_chunk]
    split
    · rw [length_chunk]
    · rfl
  have hat : AtWrite s₁ w := by
    subst hs₁
    refine ⟨⟨(h.core.page.count (length_chunk ..) hspace hpos (fun k hk => ?_) rfl).congr
      rfl rfl rfl rfl rfl, h.core.readers, ?_, fun c => ?_, h.core.killed⟩, h.lt,
      fun x hx => ?_, fun x hx hxw => ?_⟩
    · rw [getElem?_chunk hk]
      exact hst.bytes k hk
    · refine (h.core.writers.count_more (n := cando)
        (t := { s.writer w with todo := (s.writer w).todo - cando }) (Or.inr rfl) rfl rfl
        (Nat.sub_add_cancel hcando) hput).of_iff fun x => ?_
      by_cases hx : x = w
      · exact ⟨fun _ => Or.inr hx, fun _ => Or.inr hx⟩
      · rw [Writing, hother x hx]
        rfl
    · rw [hput]
      dsimp only
      rw [List.filter_append, h.core.ordered, filter_chunk]
      split
      · next hc =>
          subst hc
          rw [List.range_add, List.map_append, List.map_map, hcount]
          rfl
      · rw [List.append_nil]
    · refine (h.readPc x hx).imp fun c p k _ hk => ⟨hk.start, hk.len, ?_⟩
      have hlen := hk.len
      rw [hk.out, List.length_map, List.length_take] at hlen
      rw [hk.out]
      change _ = ((List.drop s.delivered.length (s.counted ++ _)).take k).map some
      rw [List.drop_append_of_le_length h.core.page.le, List.take_append_of_le_length (by omega)]
    · have hx' : Writing s x := by
        rw [Writing, hother x hxw] at hx
        exact hx
      refine (h.writePc x hx' hxw).imp (hother x hxw) fun c p k hpc _ _ => ?_
      have := halone x hx'.1 hxw
      rw [copying, hpc] at this
      cases this
  split
  · next hmore => exact hat.chunk (by rw [hself]; exact Nat.pos_of_ne_zero hmore.1) hmore.2
  · refine hat.return_ ?_
    rw [hself]
    dsimp only
    omega

/-- It enters `unix_proto_write`. -/
theorem enter (h : Inv s) (hw : w < s.tasks) (hidle : (s.writer w).pc = .idle) (hcall : t.call = s.calls)
    (htodo : t.todo = t.size) : AtWrite { setWriter s w t with calls := s.calls + 1 } w := by
  have hwriting : ∀ x, x ≠ w →
      (Writing { setWriter s w t with calls := s.calls + 1 } x ↔ Writing s x) := fun x hx => by
    simp only [Writing, setWriter_of_ne hx]
    rfl
  refine ⟨⟨h.core.page.congr rfl rfl rfl rfl rfl, h.core.readers.later,
    (h.core.writers.enter (r := w) (fun hk => hk.2 hidle) hcall htodo).of_iff fun x => ?_,
    h.core.ordered, h.core.killed⟩, hw, fun x hx => (h.readPc x hx).congr rfl rfl rfl,
    fun x hx hxw => ?_⟩
  · by_cases hx : x = w
    · exact ⟨fun _ => Or.inr hx, fun _ => Or.inr hx⟩
    · rw [or_iff_left hx, or_iff_left hx, hwriting x hx]
  · refine (h.writePc x ((hwriting x hxw).mp hx)).imp (setWriter_of_ne hxw)
      fun _ _ _ _ hpos hk => ⟨hpos, fun hal => ?_⟩
    have hst := hk fun y hy hyx _ => by
      by_cases hyw : y = w
      · rw [hyw, copying, hidle]
      · rw [← setWriter_of_ne hyw (t := t)]
        exact hal y hy hyx hyw
    exact ⟨hst.start, hst.bytes⟩

/-- A byte is stored, and nobody else is copying. -/
theorem store (h : Inv s) (hw : Writing s w) {pos : Nat} {b : Byte}
    (hpage : Page { s with buf := Function.update s.buf pos (some b) })
    (halone : ∀ x < s.tasks, x ≠ w → copying (s.writer x) = false) :
    AtWrite { s with buf := Function.update s.buf pos (some b) } w where
  core := ⟨hpage, h.core.readers, h.core.writers.of_iff fun _ => or_iff_left_of_imp fun hx => hx ▸ hw,
    h.core.ordered, h.core.killed⟩
  lt := hw.1
  readPc x hx := (h.readPc x hx).congr rfl rfl rfl
  writePc x hx hxw := (h.writePc x hx).imp rfl fun c p k hpc _ _ => by
    have := halone x hx.1 hxw
    rw [copying, hpc] at this
    cases this

end AtWrite

theorem Stored.byte {b : Byte} (h : Stored s t s.bpHead i) (hb : b = (t.call, t.size - t.todo + i))
    (k : Nat) (hk : k < i + 1) : Function.update s.buf (s.bpHead + i) (some b) (s.bpHead + k) =
      some (t.call, t.size - t.todo + k) := by
  by_cases hki : k = i
  · rw [hki, Function.update_self, hb]
  · rw [Function.update_of_ne (by omega)]
    exact h.bytes k (by omega)

namespace Inv

/-- A byte is stored, and the copy goes on. -/
theorem store (h : Inv s) (hw : Writing s w) {b : Byte} (hb : b = ((s.writer w).call,
      (s.writer w).size - (s.writer w).todo + i))
    (hpage : Page { s with buf := Function.update s.buf (s.bpHead + i) (some b) })
    (hlt : i + 1 < cando) (hcando : cando ≤ (s.writer w).todo)
    (hst : Alone s (fun _ => False) w → Stored s (s.writer w) s.bpHead i) :
    Inv { setWriter s w { s.writer w with pc := .copy cando s.bpHead (i + 1) } with
      buf := Function.update s.buf (s.bpHead + i) (some b) } := by
  have hself : (setWriter s w { s.writer w with pc := .copy cando s.bpHead (i + 1) }).writer w =
      { s.writer w with pc := .copy cando s.bpHead (i + 1) } := setWriter_self ..
  have hother : ∀ x, x ≠ w →
      (setWriter s w { s.writer w with pc := .copy cando s.bpHead (i + 1) }).writer x = s.writer x :=
    fun x hx => setWriter_of_ne hx
  refine ⟨⟨hpage.congr rfl rfl rfl rfl rfl, h.core.readers,
    (h.core.writers.setPc (r := w) (t := { s.writer w with pc := .copy cando s.bpHead (i + 1) })
      hw rfl rfl rfl).of_iff fun x => ?_, h.core.ordered, h.core.killed⟩,
    fun x hx => (h.readPc x hx).congr rfl rfl rfl, fun x hx => ?_⟩
  · by_cases hx : x = w
    · subst hx
      rw [Writing]
      simp only [hself]
      exact ⟨fun _ => hw, fun _ => ⟨hw.1, fun hk => nomatch hk⟩⟩
    · simp only [Writing, hother x hx]
      rfl
  · by_cases hxw : x = w
    · subst hxw
      rw [WritePc]
      simp only [hself]
      refine ⟨hlt, hcando, rfl, fun hal => ⟨rfl, (hst fun y hy hyx hyf => ?_).byte hb⟩⟩
      have := hal y hy hyx hyf
      simp only [hother y hyx] at this
      exact this
    · have hx' : Writing s x := by
        simp only [Writing, hother x hxw] at hx
        exact hx
      refine (h.writePc x hx').imp (hother x hxw) fun _ _ _ _ hpos _ => ⟨hpos, fun hal => ?_⟩
      have := hal w hw.1 (Ne.symm hxw) fun hk => hk
      simp only [copying, hself] at this
      cases this

theorem protoWrite (h : Inv s) (hw : w < s.tasks) (hidle : (s.writer w).pc = .idle) (size : Int)
    (nonblock : Bool) : Inv (protoWrite s w size nonblock) := by
  unfold Unix.protoWrite
  dsimp only
  generalize ht : ({ pc := .idle, call := s.calls, size := size.toNat, todo := size.toNat, nonblock,
                     out := [] } : Task) = t
  have hat := AtWrite.enter (t := t) h hw hidle (by rw [← ht]) (by rw [← ht])
  split
  · refine hat.return_ ?_
    change ((setWriter s w t).writer w).size - ((setWriter s w t).writer w).todo = _
    rw [setWriter_self, ← ht]
    exact Nat.sub_self _
  · refine hat.head ?_ ?_
    · change 0 < ((setWriter s w t).writer w).todo
      rw [setWriter_self, ← ht]
      dsimp only
      omega
    · change ((setWriter s w t).writer w).todo = ((setWriter s w t).writer w).size
      rw [setWriter_self, ← ht]

theorem writeGo (h : Inv s) (hw : w < s.tasks) (hok : WriteFits s w) (signal : Bool) :
    (writeGo s w signal).Ends (fun _ => False) Inv := by
  unfold Unix.writeGo
  dsimp only
  have hpc := h.writePc w
  unfold WriteFits at hok
  unfold WritePc at hpc
  cases hw' : (s.writer w).pc with
  | idle => trivial
  | asleep =>
      have hwriting : Writing s w := ⟨hw, by rw [hw']; exact Pc.noConfusion⟩
      have hpc := hpc hwriting
      rw [hw'] at hpc
      have hat := AtWrite.of_inv h hwriting fun hc => by
        rw [copying, hw'] at hc
        cases hc
      dsimp only
      split
      · exact hat.return_ (by rw [hpc.2, Nat.sub_self]; rfl)
      · exact hat.head hpc.1 hpc.2
  | verify cando =>
      have hwriting : Writing s w := ⟨hw, by rw [hw']; exact Pc.noConfusion⟩
      have hpc := hpc hwriting
      rw [hw'] at hpc
      have hat := AtWrite.of_inv h hwriting fun hc => by
        rw [copying, hw'] at hc
        cases hc
      refine hat.set rfl rfl rfl Pc.noConfusion ?_
      rw [WritePc, setWriter_self]
      exact ⟨hpc.1, hpc.2, rfl, fun _ => ⟨rfl, fun k hk => absurd hk (Nat.not_lt_zero k)⟩⟩
  | copy cando pos i =>
      have hwriting : Writing s w := ⟨hw, by rw [hw']; exact Pc.noConfusion⟩
      have hpc := hpc hwriting
      rw [hw'] at hpc hok
      obtain ⟨hi, hcando, rfl, hst⟩ := hpc
      obtain ⟨hpos, hspace, hlast⟩ := hok
      have hpage := h.core.page.store hspace (some ((s.writer w).call,
        (s.writer w).size - (s.writer w).todo + i))
      dsimp only
      split
      · next hlt => exact h.store hwriting rfl hpage hlt hcando hst
      · next hlt =>
          obtain rfl : i + 1 = cando := by omega
          obtain ⟨hspace, halone⟩ := hlast rfl
          have hat := AtWrite.store h hwriting hpage halone
          have hmove := hat.move (t := { s.writer w with pc := .copy (i + 1) s.bpHead (i + 1) })
            rfl rfl rfl
          have hst := hst fun x hx hxw _ => halone x hx hxw
          refine hmove.done ⟨rfl, fun k hk => ?_⟩ hpos ?_ ?_ fun x hx hxw => ?_
          · rw [setWriter_self]
            exact hst.byte rfl k hk
          · rw [setWriter_self]
            exact hcando
          · exact Int.add_one_le_of_lt hspace
          · rw [setWriter_of_ne hxw]
            exact halone x hx hxw

theorem step (h : Inv s) {a : Act} (hok : Fits s a) :
    (step s a).Ends (fun _ => False) Inv := by
  cases a with
  | read r size nonblock =>
      unfold Unix.step
      dsimp only
      split
      · next hr => exact h.protoRead hr.1 hr.2 size nonblock
      · trivial
  | readGo r signal =>
      unfold Unix.step
      dsimp only
      split
      · next hr => exact h.readGo hr hok signal
      · trivial
  | write w size nonblock =>
      unfold Unix.step
      dsimp only
      split
      · next hw => exact h.protoWrite hw.1 hw.2 size nonblock
      · trivial
  | writeGo w signal =>
      unfold Unix.step
      dsimp only
      split
      · next hw => exact h.writeGo hw hok signal
      · trivial

/-- Each byte was counted once: it has its place among those of its call. -/
theorem once (h : Inv s) : s.counted.Nodup := by
  refine List.nodup_iff_count_le_one.mpr fun b => ?_
  have hcount : s.counted.count b = (s.counted.filter (·.1 = b.1)).count b :=
    (List.count_filter (p := fun x : Byte => x.1 = b.1) (decide_eq_true rfl)).symm
  rw [hcount, h.core.ordered]
  refine List.nodup_iff_count_le_one.mp ?_ b
  exact List.nodup_range.map fun j k hjk => congrArg Prod.snd hjk

theorem sound (h : Inv s) : Sound s where
  inOrder := h.core.page.inOrder
  kept := ⟨by rw [h.core.page.bufAvail_eq]; omega, h.core.page.kept⟩
  once := h.once
  writeRet c n hc := by rw [h.core.ordered, ← (h.core.writers.ret c n hc).2]
  readRet c n hc := (h.core.readers.ret c n hc).2
  killed := h.core.killed

end Inv

/-! ### All runs -/

/-- Every byte that is counted is delivered in its turn, once, and no task is killed, as long as
the bytes that are copied are there and there is room for them, and no two tasks come to the
end of a copy in the same direction together. -/
theorem unix_sound_of_fits (hinit : Init s) (h : Reaches step Fits s s') : Sound s' :=
  (h.invariant (Inv.of_init hinit) fun _ _ _ ht hok hs => (ht.step hok).of_next hs).sound

/-! ### Two runs -/

def connected : State where
  buf := fun _ => none
  bpHead := 0
  bpTail := 0
  tasks := 2
  reader := fun _ => { pc := .idle, call := 0, size := 0, todo := 0, nonblock := false, out := [] }
  writer := fun _ => { pc := .idle, call := 0, size := 0, todo := 0, nonblock := false, out := [] }
  calls := 0
  killed := false
  readRet := fun _ => none
  writeRet := fun _ => none
  counted := []
  delivered := []

theorem init_connected : Init connected :=
  ⟨rfl, rfl, fun _ => rfl, fun _ => rfl, rfl, fun _ => rfl, fun _ => rfl, rfl, rfl⟩

/-- Two readers and two writers, who take turns. -/
def turnsRun : List Act :=
  [.read 0 2 false, .write 0 3 false, .write 1 2 false, .writeGo 0 false, .writeGo 0 false,
    .writeGo 0 false, .readGo 0 false, .writeGo 0 false, .writeGo 1 false, .writeGo 1 false,
    .readGo 0 false, .read 1 4 true, .readGo 0 false, .readGo 0 false, .writeGo 1 false]

theorem unix_sound_of_fits_turnsRun :
    RunOk step Fits connected turnsRun ∧ (∃ s, run step connected turnsRun = .next s) ∧
      ∀ bs, bs <+: turnsRun → ∀ s, run step connected bs = .next s → Sound s := by
  have hok : RunOk step Fits connected turnsRun := by
    iterate 15 refine RunOk.cons (by decide) ?_
    exact True.intro
  exact ⟨hok, ⟨_, Outcome.eq_next (by decide) connected⟩, fun bs hpre s hs =>
    unix_sound_of_fits init_connected (Reaches.of_run hs (hok.of_prefix hpre))⟩

/-- A reader sleeps in `memcpy_tofs`, and another one reads the same byte. -/
def twiceRun : List Act :=
  [.write 0 1 false, .writeGo 0 false, .writeGo 0 false, .read 0 1 false, .readGo 0 false,
    .read 1 1 false, .readGo 1 false, .readGo 1 false, .readGo 0 false]

theorem unix_not_sound :
    ∃ s, Init connected ∧ run step connected twiceRun = .next s ∧ ¬ Sound s := by
  refine ⟨_, init_connected, Outcome.eq_next (show (run step connected twiceRun).isNext = true by
    decide) connected, fun h => ?_⟩
  exact absurd h.inOrder (by decide)

end LinuxKernel.V098.Net.Unix
