import LinuxKernel.V098.Net.UnixCalls

/-!
# LinuxKernel.V098.Net.UnixBytes

**Bytes are conserved**, if no copy goes on with an `avail` or a `space` that no longer holds.

- `Page`: the buffer holds the bytes counted and not delivered, in their order, from `bp_tail`
  on; both indices are the lengths of the histories, modulo the size.
- `ReadPc`, `WritePc`: what a task relies on at its place in the code.
- `AtRead`, `AtWrite`: the same while a task is between two places.
-/

namespace LinuxKernel.V098.Net.Unix

variable {s s' : State} {r w i cando pos : Nat} {t : Task} {E E' : Nat → Prop}

/-! ### The buffer -/

structure Page (s : State) : Prop where
  le : s.delivered.length ≤ s.counted.length
  lt : s.counted.length < s.delivered.length + BUF_SIZE
  head : s.bpHead = s.counted.length % BUF_SIZE
  tail : s.bpTail = s.delivered.length % BUF_SIZE
  inOrder : s.delivered.map (·.2) = (s.counted.take s.delivered.length).map some
  kept : ∀ p, s.delivered.length ≤ p → p < s.counted.length →
    s.buf (p % BUF_SIZE) = s.counted[p]?

namespace Page

theorem bufAvail_eq (h : Page s) :
    bufAvail s = (s.counted.length : Int) - s.delivered.length := by
  have hle := h.le
  have hlt := h.lt
  rw [bufAvail, h.head, h.tail]
  simp only [BUF_SIZE] at *
  omega

theorem bufSpace_eq (h : Page s) :
    bufSpace s = (BUF_SIZE : Int) - 1 - (s.counted.length - s.delivered.length) := by
  rw [bufSpace, h.bufAvail_eq]

theorem bufSpace_nonneg (h : Page s) : 0 ≤ bufSpace s := by
  have hlt := h.lt
  rw [h.bufSpace_eq]
  omega

theorem head_lt (h : Page s) : s.bpHead < BUF_SIZE := by
  rw [h.head]
  exact Nat.mod_lt _ (by decide)

theorem tail_lt (h : Page s) : s.bpTail < BUF_SIZE := by
  rw [h.tail]
  exact Nat.mod_lt _ (by decide)

theorem congr (h : Page s) (hbuf : s'.buf = s.buf) (hhead : s'.bpHead = s.bpHead)
    (htail : s'.bpTail = s.bpTail) (hcounted : s'.counted = s.counted)
    (hdelivered : s'.delivered = s.delivered) : Page s' := by
  constructor
  · rw [hcounted, hdelivered]
    exact h.le
  · rw [hcounted, hdelivered]
    exact h.lt
  · rw [hcounted, hhead]
    exact h.head
  · rw [hdelivered, htail]
    exact h.tail
  · rw [hcounted, hdelivered]
    exact h.inOrder
  · rw [hcounted, hdelivered, hbuf]
    exact h.kept

/-- The byte that a reader gets at place `i` of those available. -/
theorem byte (h : Page s) (hpos : s.bpTail + i < BUF_SIZE) (hi : (i : Int) < bufAvail s) :
    s.buf (s.bpTail + i) = s.counted[s.delivered.length + i]? := by
  have htail := h.tail
  have hidx : s.bpTail + i = (s.delivered.length + i) % BUF_SIZE := by
    simp only [BUF_SIZE] at *
    omega
  rw [h.bufAvail_eq] at hi
  rw [hidx]
  exact h.kept _ (by omega) (by omega)

/-- A byte that is stored in a free place. -/
theorem store (h : Page s) (hi : (i : Int) ≤ bufSpace s) (b : Option Byte) :
    Page { s with buf := Function.update s.buf (s.bpHead + i) b } := by
  refine ⟨h.le, h.lt, h.head, h.tail, h.inOrder, fun p hp hp' => ?_⟩
  have hhead := h.head
  have hlt := h.lt
  rw [h.bufSpace_eq] at hi
  have hne : p % BUF_SIZE ≠ s.bpHead + i := by
    dsimp only at hp hp'
    simp only [BUF_SIZE] at *
    omega
  change Function.update s.buf (s.bpHead + i) b (p % BUF_SIZE) = _
  rw [Function.update_of_ne hne]
  exact h.kept p hp hp'

theorem deliver (h : Page s) {out : List (Option Byte)} {c : Nat} (hlen : out.length = cando)
    (hout : out = ((s.counted.drop s.delivered.length).take cando).map some)
    (hs : s' = { s with bpTail := (s.bpTail + cando) % BUF_SIZE,
                        delivered := s.delivered ++ out.map fun b => (c, b) }) : Page s' := by
  subst hs
  have hle := h.le
  have hlt := h.lt
  have hout' := hlen
  rw [hout, List.length_map, List.length_take, List.length_drop] at hout'
  have hmore : (s.delivered ++ out.map fun b => (c, b)).length = s.delivered.length + cando := by
    rw [List.length_append, List.length_map, hlen]
  refine ⟨?_, ?_, h.head, ?_, ?_, fun p hp hp' => h.kept p ?_ hp'⟩
  · dsimp only
    omega
  · dsimp only
    omega
  · dsimp only
    rw [hmore, h.tail, Nat.mod_add_mod]
  · dsimp only
    rw [hmore, List.map_append, h.inOrder, List.take_add, List.map_append, ← hout, List.map_map]
    congr 1
    exact List.map_id out
  · dsimp only at hp
    omega

theorem count (h : Page s) {bytes : List Byte} (hlen : bytes.length = cando)
    (hspace : (cando : Int) ≤ bufSpace s) (hpos : s.bpHead + cando ≤ BUF_SIZE)
    (hbytes : ∀ k, k < cando → s.buf (s.bpHead + k) = bytes[k]?)
    (hs : s' = { s with bpHead := (s.bpHead + cando) % BUF_SIZE,
                        counted := s.counted ++ bytes }) : Page s' := by
  subst hs
  have hle := h.le
  have hlt := h.lt
  have hhead := h.head
  rw [h.bufSpace_eq] at hspace
  have hmore : (s.counted ++ bytes).length = s.counted.length + cando := by
    rw [List.length_append, hlen]
  refine ⟨?_, ?_, ?_, h.tail, ?_, fun p hp hp' => ?_⟩
  · dsimp only
    omega
  · dsimp only
    omega
  · dsimp only
    rw [hmore, h.head, Nat.mod_add_mod]
  · dsimp only
    rw [List.take_append_of_le_length h.le]
    exact h.inOrder
  · dsimp only at hp hp' ⊢
    by_cases hold : p < s.counted.length
    · rw [List.getElem?_append_left hold]
      exact h.kept p hp hold
    · rw [List.getElem?_append_right (Nat.le_of_not_lt hold), ← hbytes _ (by omega)]
      congr 1
      simp only [BUF_SIZE] at *
      omega

end Page

/-! ### The invariant -/

def Reading (s : State) (r : Nat) : Prop := r < s.tasks ∧ (s.reader r).pc ≠ .idle

def Writing (s : State) (w : Nat) : Prop := w < s.tasks ∧ (s.writer w).pc ≠ .idle

/-- How many bytes a call of `unix_proto_read` has got. -/
def got (s : State) (c : Nat) : Nat := (s.delivered.filter (·.1 = c)).length

theorem length_filter_call (c c' : Nat) (out : List (Option Byte)) :
    ((out.map fun b => (c', b)).filter (·.1 = c)).length = if c = c' then out.length else 0 := by
  split
  · next hc =>
      subst hc
      rw [List.filter_eq_self.mpr, List.length_map]
      intro b hb
      obtain ⟨b', -, rfl⟩ := List.mem_map.mp hb
      exact decide_eq_true rfl
  · next hc =>
      rw [List.filter_eq_nil_iff.mpr, List.length_nil]
      intro b hb
      obtain ⟨b', -, rfl⟩ := List.mem_map.mp hb
      simpa using Ne.symm hc

/-- How many bytes a call of `unix_proto_write` has put. -/
def put (s : State) (c : Nat) : Nat := (s.counted.filter (·.1 = c)).length

/-- The first `i` bytes of a chunk have been copied to `ubuf`. -/
structure Taken (s : State) (t : Task) (pos i : Nat) : Prop where
  start : pos = s.bpTail
  len : t.out.length = i
  out : t.out = ((s.counted.drop s.delivered.length).take i).map some

/-- The first `i` bytes of a chunk have been copied from `ubuf`. -/
structure Stored (s : State) (t : Task) (pos i : Nat) : Prop where
  start : pos = s.bpHead
  bytes : ∀ k, k < i → s.buf (pos + k) = some (t.call, t.size - t.todo + k)

/-- One more byte. -/
theorem Taken.byte {t' : Task} (h : Taken s t s.bpTail i) (hp : Page s)
    (hpos : s.bpTail + i < BUF_SIZE) (hi : (i : Int) < bufAvail s)
    (ht' : t'.out = t.out ++ [s.buf (s.bpTail + i)]) : Taken s t' s.bpTail (i + 1) := by
  refine ⟨rfl, ?_, ?_⟩
  · rw [ht', List.length_append, h.len]
    rfl
  · rw [hp.bufAvail_eq] at hi
    have hlt : s.delivered.length + i < s.counted.length := by omega
    rw [ht', h.out, hp.byte hpos (by rw [hp.bufAvail_eq]; omega), List.take_add_one, List.getElem?_drop,
      List.getElem?_eq_getElem hlt, List.map_append]
    rfl

def ReadPc (s : State) (t : Task) : Prop :=
  match t.pc with
  | .idle => True
  | .asleep => 0 < t.todo ∧ t.todo = t.size
  | .verify cando => 0 < cando ∧ cando ≤ t.todo
  | .copy cando pos i => i < cando ∧ cando ≤ t.todo ∧ Taken s t pos i

/-- Nobody but `w` and those in `E` is copying into the buffer. -/
def Alone (s : State) (E : Nat → Prop) (w : Nat) : Prop :=
  ∀ x < s.tasks, x ≠ w → ¬ E x → copying (s.writer x) = false

/-- What a writer has copied is in its place, if he is alone. -/
def WritePc (s : State) (E : Nat → Prop) (w : Nat) : Prop :=
  match (s.writer w).pc with
  | .idle => True
  | .asleep => 0 < (s.writer w).todo ∧ (s.writer w).todo = (s.writer w).size
  | .verify cando => 0 < cando ∧ cando ≤ (s.writer w).todo
  | .copy cando pos i => i < cando ∧ cando ≤ (s.writer w).todo ∧ pos = s.bpHead ∧
      (Alone s E w → Stored s (s.writer w) pos i)

theorem ReadPc.imp (h : ReadPc s t)
    (ht : ∀ cando pos i, t.pc = .copy cando pos i → Taken s t pos i → Taken s' t pos i) :
    ReadPc s' t := by
  unfold ReadPc at h ⊢
  cases hpc : t.pc with
  | idle => trivial
  | asleep =>
      rw [hpc] at h
      exact h
  | verify cando =>
      rw [hpc] at h
      exact h
  | copy cando pos i =>
      rw [hpc] at h
      exact ⟨h.1, h.2.1, ht cando pos i hpc h.2.2⟩

theorem WritePc.imp (h : WritePc s E w) (hw : s'.writer w = s.writer w)
    (ht : ∀ cando pos i, (s.writer w).pc = .copy cando pos i → pos = s.bpHead →
      (Alone s E w → Stored s (s.writer w) pos i) →
      pos = s'.bpHead ∧ (Alone s' E' w → Stored s' (s.writer w) pos i)) :
    WritePc s' E' w := by
  unfold WritePc at h ⊢
  rw [hw]
  cases hpc : (s.writer w).pc with
  | idle => trivial
  | asleep =>
      rw [hpc] at h
      exact h
  | verify cando =>
      rw [hpc] at h
      exact h
  | copy cando pos i =>
      rw [hpc] at h
      exact ⟨h.1, h.2.1, ht cando pos i hpc h.2.2.1 h.2.2.2⟩

theorem ReadPc.congr (h : ReadPc s t) (htail : s'.bpTail = s.bpTail)
    (hcounted : s'.counted = s.counted) (hdelivered : s'.delivered = s.delivered) : ReadPc s' t :=
  h.imp fun _ _ _ _ hk => ⟨hk.start.trans htail.symm, hk.len, by
    rw [hcounted, hdelivered]
    exact hk.out⟩

theorem WritePc.congr (h : WritePc s E w) (hwriter : s'.writer = s.writer)
    (htasks : s'.tasks = s.tasks) (hhead : s'.bpHead = s.bpHead) (hbuf : s'.buf = s.buf) :
    WritePc s' E w :=
  h.imp (congrFun hwriter w) fun _ _ _ _ hpos hk => ⟨hpos.trans hhead.symm, fun halone => by
    rw [Alone, hwriter, htasks] at halone
    refine ⟨hpos.trans hhead.symm, ?_⟩
    rw [hbuf]
    exact (hk halone).bytes⟩

/-- The readers in `A` and the writers in `B` are in a call. -/
structure Core (s : State) (A B : Nat → Prop) : Prop where
  page : Page s
  readers : Calls s.reader s.readRet s.calls (got s) A
  writers : Calls s.writer s.writeRet s.calls (put s) B
  ordered : ∀ c, s.counted.filter (·.1 = c) = (List.range (put s c)).map (c, ·)
  killed : s.killed = false

structure Inv (s : State) : Prop where
  core : Core s (Reading s) (Writing s)
  readPc : ∀ r, Reading s r → ReadPc s (s.reader r)
  writePc : ∀ w, Writing s w → WritePc s (fun _ => False) w

/-- Reader `r` is at the processor. -/
structure AtRead (s : State) (r : Nat) : Prop where
  core : Core s (fun x => Reading s x ∨ x = r) (Writing s)
  lt : r < s.tasks
  readPc : ∀ x, Reading s x → x ≠ r → ReadPc s (s.reader x)
  writePc : ∀ w, Writing s w → WritePc s (fun _ => False) w

structure AtWrite (s : State) (w : Nat) : Prop where
  core : Core s (Reading s) (fun x => Writing s x ∨ x = w)
  lt : w < s.tasks
  readPc : ∀ r, Reading s r → ReadPc s (s.reader r)
  writePc : ∀ x, Writing s x → x ≠ w → WritePc s (· = w) x

theorem Inv.of_init (h : Init s) : Inv s := by
  have hgot : ∀ c, got s c = 0 := fun c => by simp [got, h.delivered]
  have hput : ∀ c, put s c = 0 := fun c => by simp [put, h.counted]
  have hr : ∀ r, ¬ Reading s r := fun r hr => hr.2 (h.reader r)
  have hw : ∀ w, ¬ Writing s w := fun w hw => hw.2 (h.writer w)
  refine ⟨⟨⟨?_, ?_, ?_, ?_, ?_, ?_⟩, ⟨?_, ?_, ?_, ?_, ?_, ?_, ?_⟩, ⟨?_, ?_, ?_, ?_, ?_, ?_, ?_⟩, ?_,
    h.killed⟩, fun r hr' => absurd hr' (hr r), fun w hw' => absurd hw' (hw w)⟩
  all_goals simp [h.delivered, h.counted, h.bpHead, h.bpTail, h.readRet, h.writeRet, hgot, hput, hr, hw,
    BUF_SIZE]

/-! ### A reader -/

namespace AtRead

theorem of_inv (h : Inv s) (hr : Reading s r) : AtRead s r where
  core := ⟨h.core.page, h.core.readers.of_iff fun _ => or_iff_left_of_imp fun hx => hx ▸ hr,
    h.core.writers, h.core.ordered, h.core.killed⟩
  lt := hr.1
  readPc x hx _ := h.readPc x hx
  writePc := h.writePc

theorem inv (h : AtRead s r) (hpc : (s.reader r).pc ≠ .idle) (ht : ReadPc s (s.reader r)) : Inv s where
  core := ⟨h.core.page, h.core.readers.of_iff fun x =>
    (or_iff_left_of_imp fun hx => hx ▸ And.intro h.lt hpc).symm, h.core.writers, h.core.ordered,
    h.core.killed⟩
  readPc x hx := by
    by_cases hxr : x = r
    · exact hxr ▸ ht
    · exact h.readPc x hx hxr
  writePc := h.writePc

theorem move (h : AtRead s r) (hcall : t.call = (s.reader r).call) (hsize : t.size = (s.reader r).size)
    (htodo : t.todo = (s.reader r).todo) : AtRead (setReader s r t) r := by
  have hreading : ∀ x, x ≠ r → (Reading (setReader s r t) x ↔ Reading s x) := fun x hx => by
    rw [Reading, setReader_of_ne hx]
    rfl
  refine ⟨⟨h.core.page.congr rfl rfl rfl rfl rfl,
    (h.core.readers.setPc (Or.inr rfl) hcall hsize htodo).of_iff fun x => ?_, h.core.writers,
    h.core.ordered, h.core.killed⟩, h.lt, fun x hx hxr => ?_,
    fun w hw => (h.writePc w hw).congr rfl rfl rfl rfl⟩
  · by_cases hx : x = r
    · exact ⟨fun _ => Or.inr hx, fun _ => Or.inr hx⟩
    · rw [or_iff_left hx, or_iff_left hx, hreading x hx]
  · rw [setReader_of_ne hxr]
    exact (h.readPc x ((hreading x hxr).mp hx) hxr).congr rfl rfl rfl

/-- It comes to a place in the code. -/
theorem set (h : AtRead s r) (hcall : t.call = (s.reader r).call) (hsize : t.size = (s.reader r).size)
    (htodo : t.todo = (s.reader r).todo) (hpc : t.pc ≠ .idle) (ht : ReadPc s t) :
    Inv (setReader s r t) := by
  refine (h.move hcall hsize htodo).inv ?_ ?_
  · rw [setReader_self]
    exact hpc
  · rw [setReader_self]
    exact ht.congr rfl rfl rfl

/-- It returns what it has counted. -/
theorem return_ (h : AtRead s r) {n : Int} (hn : (s.reader r).size - (s.reader r).todo = n.toNat) :
    Inv (readReturn s r n) := by
  have hself : (readReturn s r n).reader r = { s.reader r with pc := .idle } :=
    Function.update_self ..
  have hother : ∀ x, x ≠ r → (readReturn s r n).reader x = s.reader x := fun x hx =>
    Function.update_of_ne hx _ _
  have hreading : ∀ x, Reading (readReturn s r n) x ↔ (Reading s x ∨ x = r) ∧ x ≠ r := fun x => by
    by_cases hx : x = r
    · subst hx
      rw [Reading, hself]
      exact ⟨fun hk => absurd rfl hk.2, fun hk => absurd rfl hk.2⟩
    · rw [Reading, hother x hx]
      exact ⟨fun hk => ⟨Or.inl hk, hx⟩, fun hk => hk.1.resolve_right hx⟩
  refine ⟨⟨h.core.page.congr rfl rfl rfl rfl rfl, ?_, h.core.writers, h.core.ordered,
    h.core.killed⟩, fun x hx => ?_, fun w hw => (h.writePc w hw).congr rfl rfl rfl rfl⟩
  · have hcalls := h.core.readers.setPc (t := { s.reader r with pc := .idle }) (Or.inr rfl) rfl rfl rfl
    have hr : Function.update s.reader r { s.reader r with pc := .idle } r =
        { s.reader r with pc := .idle } := Function.update_self ..
    have hret := hcalls.return_ (r := r) (n := n) (Or.inr rfl) (by rw [hr]; exact hn)
    rw [hr] at hret
    exact hret.of_iff hreading
  · obtain ⟨hx, hxr⟩ := (hreading x).mp hx
    rw [hother x hxr]
    exact (h.readPc x (hx.resolve_right hxr) hxr).congr rfl rfl rfl

/-- The kill is not reached: there is something available. -/
theorem chunk (h : AtRead s r) (htodo : 0 < (s.reader r).todo) (havail : bufAvail s ≠ 0) :
    Inv (readChunk s r (bufAvail s)) := by
  have hpos : 0 < bufAvail s := by
    have hle := h.core.page.le
    rw [h.core.page.bufAvail_eq] at havail ⊢
    omega
  have htail := h.core.page.tail_lt
  rw [readChunk, if_neg (Int.not_le.mpr hpos)]
  refine h.set rfl rfl rfl (fun hk => nomatch hk) ⟨?_, ?_⟩
  · omega
  · exact Nat.le_trans (Nat.min_le_left _ _) (Nat.min_le_left _ _)

theorem head (h : AtRead s r) (htodo : 0 < (s.reader r).todo)
    (hsize : (s.reader r).todo = (s.reader r).size) : Inv (readHead s r) := by
  unfold readHead
  split
  · split
    · exact h.return_ (by rw [hsize, Nat.sub_self]; rfl)
    · exact h.set rfl rfl rfl (fun hk => nomatch hk) ⟨htodo, hsize⟩
  · next havail => exact h.chunk htodo havail

theorem done (h : AtRead s r) (htaken : Taken s (s.reader r) pos cando)
    (hcando : cando ≤ (s.reader r).todo)
    (halone : ∀ x < s.tasks, x ≠ r → copying (s.reader x) = false) : Inv (readDone s r cando) := by
  have hle := h.core.readers.le r (Or.inr rfl)
  have hcount := h.core.readers.counts r (Or.inr rfl)
  unfold readDone
  dsimp only
  generalize hs₁ : ({ setReader s r { s.reader r with todo := (s.reader r).todo - cando } with
      bpTail := (s.bpTail + cando) % BUF_SIZE
      delivered := s.delivered ++ (s.reader r).out.map fun b => ((s.reader r).call, b) } : State) = s₁
  have hself : s₁.reader r = { s.reader r with todo := (s.reader r).todo - cando } := by
    rw [← hs₁]
    exact Function.update_self ..
  have hother : ∀ x, x ≠ r → s₁.reader x = s.reader x := fun x hx => by
    rw [← hs₁]
    exact Function.update_of_ne hx _ _
  have hat : AtRead s₁ r := by
    subst hs₁
    refine ⟨⟨(h.core.page.deliver htaken.len htaken.out rfl (c := (s.reader r).call)).congr
      rfl rfl rfl rfl rfl, ?_, h.core.writers, h.core.ordered, h.core.killed⟩, h.lt,
      fun x hx hxr => ?_, fun w hw => (h.writePc w hw).congr rfl rfl rfl rfl⟩
    · refine (h.core.readers.count_more (n := cando)
        (t := { s.reader r with todo := (s.reader r).todo - cando }) (Or.inr rfl) rfl rfl
        (Nat.sub_add_cancel hcando) fun c => ?_).of_iff fun x => ?_
      · rw [got, got, List.filter_append, List.length_append, length_filter_call, htaken.len]
        split <;> rfl
      · by_cases hx : x = r
        · exact ⟨fun _ => Or.inr hx, fun _ => Or.inr hx⟩
        · rw [Reading, hother x hx]
          rfl
    · have hx' : Reading s x := by
        rw [Reading, hother x hxr] at hx
        exact hx
      rw [hother x hxr]
      refine (h.readPc x hx' hxr).imp fun c p k hpc _ => ?_
      have := halone x hx'.1 hxr
      rw [copying, hpc] at this
      cases this
  split
  · next hmore => exact hat.chunk (by rw [hself]; exact Nat.pos_of_ne_zero hmore.1) hmore.2
  · refine hat.return_ ?_
    rw [hself]
    dsimp only
    omega

/-- It enters `unix_proto_read`. -/
theorem enter (h : Inv s) (hr : r < s.tasks) (hidle : (s.reader r).pc = .idle) (hcall : t.call = s.calls)
    (htodo : t.todo = t.size) : AtRead { setReader s r t with calls := s.calls + 1 } r := by
  have hreading : ∀ x, x ≠ r →
      (Reading { setReader s r t with calls := s.calls + 1 } x ↔ Reading s x) := fun x hx => by
    simp only [Reading, setReader_of_ne hx]
    rfl
  refine ⟨⟨h.core.page.congr rfl rfl rfl rfl rfl,
    (h.core.readers.enter (r := r) (fun hk => hk.2 hidle) hcall htodo).of_iff fun x => ?_,
    h.core.writers.later, h.core.ordered, h.core.killed⟩, hr, fun x hx hxr => ?_,
    fun w hw => (h.writePc w hw).congr rfl rfl rfl rfl⟩
  · by_cases hx : x = r
    · exact ⟨fun _ => Or.inr hx, fun _ => Or.inr hx⟩
    · rw [or_iff_left hx, or_iff_left hx, hreading x hx]
  · simp only [setReader_of_ne hxr]
    exact (h.readPc x ((hreading x hxr).mp hx)).congr rfl rfl rfl

end AtRead

namespace Inv

theorem protoRead (h : Inv s) (hr : r < s.tasks) (hidle : (s.reader r).pc = .idle) (size : Int)
    (nonblock : Bool) : Inv (protoRead s r size nonblock) := by
  unfold Unix.protoRead
  dsimp only
  generalize ht : ({ pc := .idle, call := s.calls, size := size.toNat, todo := size.toNat, nonblock,
                     out := [] } : Task) = t
  have hat := AtRead.enter (t := t) h hr hidle (by rw [← ht]) (by rw [← ht])
  split
  · refine hat.return_ ?_
    change ((setReader s r t).reader r).size - ((setReader s r t).reader r).todo = _
    rw [setReader_self, ← ht]
    exact Nat.sub_self _
  · refine hat.head ?_ ?_
    · change 0 < ((setReader s r t).reader r).todo
      rw [setReader_self, ← ht]
      dsimp only
      omega
    · change ((setReader s r t).reader r).todo = ((setReader s r t).reader r).size
      rw [setReader_self, ← ht]

theorem readGo (h : Inv s) (hr : r < s.tasks) (hok : ReadFits s r) (signal : Bool) :
    (readGo s r signal).Ends (fun _ => False) Inv := by
  unfold Unix.readGo
  dsimp only
  have hpc := h.readPc r
  unfold ReadFits at hok
  unfold ReadPc at hpc
  cases hr' : (s.reader r).pc with
  | idle => trivial
  | asleep =>
      have hreading : Reading s r := ⟨hr, by rw [hr']; exact Pc.noConfusion⟩
      have hpc := hpc hreading
      rw [hr'] at hpc
      have hat := AtRead.of_inv h hreading
      dsimp only
      split
      · exact hat.return_ (by rw [hpc.2, Nat.sub_self]; rfl)
      · exact hat.head hpc.1 hpc.2
  | verify cando =>
      have hreading : Reading s r := ⟨hr, by rw [hr']; exact Pc.noConfusion⟩
      have hpc := hpc hreading
      rw [hr'] at hpc
      exact (AtRead.of_inv h hreading).set rfl rfl rfl (fun hk => nomatch hk)
        ⟨hpc.1, hpc.2, rfl, rfl, rfl⟩
  | copy cando pos i =>
      have hreading : Reading s r := ⟨hr, by rw [hr']; exact Pc.noConfusion⟩
      have hpc := hpc hreading
      rw [hr'] at hpc hok
      obtain ⟨hi, hcando, htaken⟩ := hpc
      obtain ⟨hpos, havail, halone⟩ := hok
      obtain rfl := htaken.start
      have hat := AtRead.of_inv h hreading
      dsimp only
      split
      · next hlt =>
          exact hat.set rfl rfl rfl (fun hk => nomatch hk)
            ⟨hlt, hcando, htaken.byte h.core.page hpos havail rfl⟩
      · next hlt =>
          obtain rfl : i + 1 = cando := by omega
          have hmove := hat.move (t := { s.reader r with
            pc := .copy (i + 1) s.bpTail (i + 1)
            out := (s.reader r).out ++ [s.buf (s.bpTail + i)] }) rfl rfl rfl
          refine hmove.done ⟨rfl, ?_, ?_⟩ ?_ fun x hx hxr => ?_
          · rw [setReader_self]
            exact (htaken.byte h.core.page hpos havail rfl).len
          · rw [setReader_self]
            exact (htaken.byte h.core.page hpos havail rfl).out
          · rw [setReader_self]
            exact hcando
          · rw [setReader_of_ne hxr]
            exact halone rfl x hx hxr

end Inv

end LinuxKernel.V098.Net.Unix
