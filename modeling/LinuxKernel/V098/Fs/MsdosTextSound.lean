import LinuxKernel.V098.Fs.MsdosText
import Mathlib.Data.List.GetD

/-!
# LinuxKernel.V098.Fs.MsdosTextSound

**Text files read back as written.** The bytes of a file are those of its clusters, one behind
the other (`Holds`).

- A write converts its characters and puts them behind the last byte; a LF that does not fit
  into a sector behind its CR is owed to the next one.
- What is left to be read is what the rest of the bytes comes to without the CRs.
-/

namespace LinuxKernel.V098.Fs.MsdosText

open Clusters (Entry IsFile zeros)

/-! ### What text files are for -/

/-- Every LF as CR LF. -/
def stored (text : List Byte) : List Byte := text.flatMap fun c => if c = LF then [CR, c] else [c]

/-- Neither CR nor ^Z. -/
def Plain (text : List Byte) : Prop := ∀ c ∈ text, c ≠ CR ∧ c ≠ CTRL_Z

/-- Pieces of these sizes, one behind the other. -/
def chop : List Nat → List Byte → List (List Byte)
  | [], _ => []
  | n :: ns, text => text.take n :: chop ns (text.drop n)

/-- Calls of `msdos_file_write`, each with `O_APPEND` or without: what they return. -/
def writes (vol : Volume) : State → List (Bool × List Byte) → Except Stop (List Nat × State)
  | s, [] => .ok ([], s)
  | s, (append, buf) :: calls =>
      match fileWrite vol s append buf with
      | .error e => .error e
      | .ok (n, s) =>
          match writes vol s calls with
          | .error e => .error e
          | .ok (ns, s) => .ok (n :: ns, s)

/-- Calls of `msdos_file_read`: what they put at `buf`. -/
def reads (vol : Volume) : State → List Nat → Except Stop (List (List Byte) × State)
  | s, [] => .ok ([], s)
  | s, n :: ns =>
      match fileRead vol s n with
      | .error e => .error e
      | .ok (buf, s) =>
          match reads vol s ns with
          | .error e => .error e
          | .ok (bufs, s) => .ok (buf :: bufs, s)

/-- The bytes of the file. -/
def fileBytes (vol : Volume) (s : State) : List Byte :=
  (List.range s.size).map fun k => s.data (smap vol s (k / SECTOR_SIZE)) (k % SECTOR_SIZE)

/-! ### Text -/

variable {text text' buf raw out : List Byte} {left n : Nat} {carry : Bool}

@[simp] theorem stored_nil : stored [] = [] := rfl

theorem stored_cons (c : Byte) (text : List Byte) :
    stored (c :: text) = (if c = LF then [CR, c] else [c]) ++ stored text := rfl

theorem stored_append (text text' : List Byte) :
    stored (text ++ text') = stored text ++ stored text' := List.flatMap_append

/-- A LF that is owed to the next sector. -/
def owed (carry : Bool) : List Byte := if carry then [LF] else []

/-- What a sector gets, what is owed and what is left make up the characters. -/
theorem fill_spec (buf : List Byte) (left : Nat) :
    stored buf = (fill buf left).2.1 ++ owed (fill buf left).2.2 ++ stored (fill buf left).1 ∧
      (fill buf left).2.1.length ≤ left ∧ (fill buf left).1.length ≤ buf.length := by
  induction buf generalizing left with
  | nil => exact ⟨rfl, Nat.zero_le _, Nat.le_refl _⟩
  | cons c buf ih =>
      cases left with
      | zero => exact ⟨rfl, Nat.le_refl _, Nat.le_refl _⟩
      | succ left =>
          rw [fill.eq_def, stored_cons]
          dsimp only
          by_cases hc : c = LF
          · rw [if_pos hc, if_pos hc]
            cases left with
            | zero =>
                rw [hc]
                exact ⟨rfl, Nat.le_refl _, Nat.le_succ _⟩
            | succ left =>
                obtain ⟨heq, hlen, hrest⟩ := ih left
                dsimp only
                rw [heq]
                exact ⟨rfl, Nat.succ_le_succ (Nat.succ_le_succ hlen), Nat.le_succ_of_le hrest⟩
          · rw [if_neg hc, if_neg hc]
            obtain ⟨heq, hlen, hrest⟩ := ih left
            dsimp only
            rw [heq]
            exact ⟨rfl, Nat.succ_le_succ hlen, Nat.le_succ_of_le hrest⟩

/-- A sector with room takes a character. -/
theorem fill_length_lt (h : buf ≠ []) (hleft : 0 < left) :
    (fill buf left).1.length < buf.length := by
  cases buf with
  | nil => exact absurd rfl h
  | cons c buf =>
      cases left with
      | zero => exact absurd hleft (Nat.lt_irrefl 0)
      | succ left =>
          rw [fill.eq_def]
          dsimp only
          split
          next =>
            cases left with
            | zero => exact Nat.lt_succ_self _
            | succ left => exact Nat.lt_succ_of_le (fill_spec buf left).2.2
          next => exact Nat.lt_succ_of_le (fill_spec buf left).2.2

/-- One sector of a text file. -/
theorem convert_spec (carry : Bool) (buf : List Byte) (hleft : 0 < left) :
    owed carry ++ stored buf = (convert false carry buf left).2.1 ++
        owed (convert false carry buf left).2.2 ++ stored (convert false carry buf left).1 ∧
      (convert false carry buf left).2.1.length ≤ left := by
  unfold convert
  rw [if_neg Bool.false_ne_true]
  cases carry with
  | true =>
      obtain ⟨heq, hlen, -⟩ := fill_spec buf (left - 1)
      rw [if_pos rfl]
      dsimp only
      rw [heq, List.length_cons]
      exact ⟨rfl, by omega⟩
  | false =>
      obtain ⟨heq, hlen, -⟩ := fill_spec buf left
      rw [if_neg Bool.false_ne_true]
      exact ⟨heq, hlen⟩

/-- How many sectors may still be needed. -/
def turns (carry : Bool) (buf : List Byte) : Nat := 2 * buf.length + carry.toNat

theorem convert_turns (h : ¬ (buf = [] ∧ carry = false)) (hleft : 0 < left) :
    turns (convert false carry buf left).2.2 (convert false carry buf left).1 <
      turns carry buf := by
  have hbit := Bool.toNat_le (convert false carry buf left).2.2
  unfold convert turns at *
  rw [if_neg Bool.false_ne_true] at *
  cases carry with
  | true =>
      rw [if_pos rfl] at *
      dsimp only at *
      by_cases hnil : buf = []
      · rw [hnil]
        exact Nat.one_pos
      · by_cases hzero : left - 1 = 0
        · rw [hzero]
          cases buf with
          | nil => exact absurd rfl hnil
          | cons c buf => exact Nat.lt_succ_self _
        · have hlt := fill_length_lt hnil (Nat.pos_of_ne_zero hzero)
          simp only [Bool.toNat_true]
          omega
  | false =>
      rw [if_neg Bool.false_ne_true] at *
      have hlt := fill_length_lt (fun hnil => h ⟨hnil, rfl⟩) hleft
      simp only [Bool.toNat_false]
      omega

/-! ### Reading text -/

/-- Without a ^Z the loop comes to the end, and no character is lost but the CRs. -/
theorem drain_eq (h : ∀ c ∈ raw, c ≠ CTRL_Z) : drain raw = (raw.filter (· ≠ CR), false) := by
  induction raw with
  | nil => rfl
  | cons c raw ih =>
      have hc := h c List.mem_cons_self
      have hrest := ih fun x hx => h x (List.mem_cons_of_mem c hx)
      rw [drain, hrest]
      by_cases hcr : c = CR
      · rw [if_pos hcr]
        simp [hcr]
      · rw [if_neg hcr, if_pos hc]
        simp [hcr]

/-- What the bytes of a text come to. -/
def chars (raw : List Byte) : List Byte := raw.filter (· ≠ CR)

theorem chars_append (raw l : List Byte) : chars (raw ++ l) = chars raw ++ chars l :=
  List.filter_append ..

theorem chars_stored (h : Plain text) : chars (stored text) = text := by
  induction text with
  | nil => rfl
  | cons c text ih =>
      have hc := (h c List.mem_cons_self).1
      rw [stored_cons, chars_append, ih fun x hx => h x (List.mem_cons_of_mem c hx)]
      by_cases hlf : c = LF
      · rw [if_pos hlf, hlf]
        rfl
      · rw [if_neg hlf]
        simp [chars, hc]

theorem stored_noCtrlZ (h : Plain text) : ∀ c ∈ stored text, c ≠ CTRL_Z := by
  intro c hc
  obtain ⟨x, hx, hcx⟩ := List.mem_flatMap.mp hc
  split at hcx
  next =>
    rcases List.mem_cons.mp hcx with rfl | hcx
    · decide
    · rw [List.mem_singleton.mp hcx]
      exact (h x hx).2
  next =>
    rw [List.mem_singleton.mp hcx]
    exact (h x hx).2

/-- The bytes of a text do not end with a CR. -/
theorem stored_last (h : Plain text) : (stored text).getLast? ≠ some CR := by
  cases hlast : text.getLast? with
  | none =>
      rw [List.getLast?_eq_none_iff.mp hlast]
      exact fun h => by cases h
  | some c =>
      obtain ⟨l, rfl⟩ := List.getLast?_eq_some_iff.mp hlast
      have hc := (h c (List.mem_append_right l List.mem_cons_self)).1
      rw [stored_append]
      by_cases hlf : c = LF
      · simp [stored_cons, hlf, LF, CR]
      · simp [stored_cons, hlf, hc]

/-- There is a character in what is left of a text. -/
theorem chars_ne_nil (h : raw.getLast? ≠ some CR) (hne : raw.drop n ≠ []) :
    chars (raw.drop n) ≠ [] := by
  intro hnil
  have hlast : (raw.drop n).getLast? = raw.getLast? := by
    have hlt : n < raw.length := by
      by_contra hge
      exact hne (List.drop_eq_nil_of_le (Nat.not_lt.mp hge))
    rw [List.getLast?_drop, if_neg (Nat.not_le.mpr hlt)]
  cases hl : (raw.drop n).getLast? with
  | none => exact hne (List.getLast?_eq_none_iff.mp hl)
  | some c =>
      have hc : c ≠ CR := by
        rintro rfl
        exact h (hlast ▸ hl)
      have hmem : c ∈ chars (raw.drop n) :=
        List.mem_filter.mpr ⟨List.mem_of_getLast? hl, by simpa using hc⟩
      rw [hnil] at hmem
      exact absurd hmem List.not_mem_nil

/-! ### Sectors of a file -/

section File

variable {vol : Volume} {s s' : State} {l : List Nat} {content : List Byte} {c d i j k this : Nat}
  {fat : Nat → Entry}

theorem walkTo_eq (hl : Chain (fun c => (fat c).next) (some this) l) :
    walkTo fat n this = l.getD n 0 := by
  induction n generalizing this l with
  | zero =>
      cases l with
      | nil => cases hl
      | cons a l => exact Option.some.inj hl.1
  | succ n ih =>
      cases l with
      | nil => cases hl
      | cons a l =>
          obtain rfl : this = a := Option.some.inj hl.1
          have htail := hl.2
          dsimp only at htail
          rw [walkTo, List.getD_cons_succ]
          cases hfat : fat this with
          | eof =>
              rw [hfat] at htail
              obtain rfl := Chain.eq_nil htail
              rfl
          | free =>
              rw [hfat] at htail
              obtain rfl := Chain.eq_nil htail
              rfl
          | cluster c =>
              rw [hfat] at htail
              exact ih htail

theorem getCluster_eq (hl : IsFile s.fs s.ino l) : getCluster s n = l.getD n 0 := by
  unfold getCluster
  cases hstart : s.fs.start s.ino with
  | none =>
      unfold IsFile at hl
      rw [hstart] at hl
      obtain rfl := Chain.eq_nil hl
      rfl
  | some this =>
      unfold IsFile at hl
      rw [hstart] at hl
      exact walkTo_eq hl

/-- Where sector `k` of a file with these clusters is. -/
def sectorAt (vol : Volume) (l : List Nat) (k : Nat) : Nat :=
  sectorOf vol (l.getD (k / vol.clusterSize) 0) + k % vol.clusterSize

/-- How many sectors the clusters have. -/
def sectors (vol : Volume) (l : List Nat) : Nat := l.length * vol.clusterSize

theorem div_lt_length (hk : k < sectors vol l) : k / vol.clusterSize < l.length :=
  Nat.div_lt_of_lt_mul (Nat.mul_comm _ _ ▸ hk)

theorem smap_eq (hl : IsFile s.fs s.ino l) (hrange : ∀ c ∈ l, 2 ≤ c) (k : Nat) :
    smap vol s k = if k < sectors vol l then sectorAt vol l k else 0 := by
  unfold smap sectorAt
  dsimp only
  rw [getCluster_eq hl]
  by_cases hk : k < sectors vol l
  · have hlt := div_lt_length hk
    have h2 := hrange _ (List.getElem_mem hlt)
    rw [if_pos hk, List.getD_eq_getElem _ _ hlt, if_neg (by omega)]
  · have hge : l.length ≤ k / vol.clusterSize :=
      (Nat.le_div_iff_mul_le vol.size_pos).mpr (Nat.not_lt.mp hk)
    rw [if_neg hk, List.getD_eq_default _ _ hge, if_pos rfl]

/-- Different places in clusters are different sectors. -/
theorem sector_eq (hc : 2 ≤ c) (hd : 2 ≤ d) (hi : i < vol.clusterSize) (hj : j < vol.clusterSize)
    (h : sectorOf vol c + i = sectorOf vol d + j) : c = d ∧ i = j := by
  have key : ∀ {x : Nat} {y : Nat}, y < vol.clusterSize →
      (x * vol.clusterSize + y) / vol.clusterSize = x ∧
        (x * vol.clusterSize + y) % vol.clusterSize = y := by
    intro x y hy
    rw [Nat.mul_comm, Nat.mul_add_div vol.size_pos, Nat.div_eq_of_lt hy, Nat.mul_add_mod,
      Nat.mod_eq_of_lt hy]
    exact ⟨rfl, rfl⟩
  unfold sectorOf at h
  have hsum : (c - 2) * vol.clusterSize + i = (d - 2) * vol.clusterSize + j := by omega
  have hdiv := congrArg (· / vol.clusterSize) hsum
  have hmod := congrArg (· % vol.clusterSize) hsum
  rw [(key hi).1, (key hj).1] at hdiv
  rw [(key hi).2, (key hj).2] at hmod
  exact ⟨by omega, hmod⟩

theorem sectorAt_inj (hnd : l.Nodup) (hrange : ∀ c ∈ l, 2 ≤ c) (hi : i < sectors vol l)
    (hj : j < sectors vol l) (h : sectorAt vol l i = sectorAt vol l j) : i = j := by
  have hi' := div_lt_length hi
  have hj' := div_lt_length hj
  unfold sectorAt at h
  rw [List.getD_eq_getElem _ _ hi', List.getD_eq_getElem _ _ hj'] at h
  obtain ⟨hcluster, hrest⟩ := sector_eq (hrange _ (List.getElem_mem hi'))
    (hrange _ (List.getElem_mem hj')) (Nat.mod_lt _ vol.size_pos) (Nat.mod_lt _ vol.size_pos) h
  have hdiv := (List.Nodup.getElem_inj_iff hnd).mp hcluster
  rw [← Nat.div_add_mod i vol.clusterSize, ← Nat.div_add_mod j vol.clusterSize, hdiv, hrest]

/-! ### The file -/

/-- The byte at position `k`. -/
def place (vol : Volume) (s : State) (l : List Nat) (k : Nat) : Byte :=
  s.data (sectorAt vol l (k / SECTOR_SIZE)) (k % SECTOR_SIZE)

/-- The clusters of the file, and the free ones: entries of the FAT can hold their numbers. -/
structure Clustered (vol : Volume) (s : State) (l : List Nat) : Prop where
  ino : s.ino ≠ Clusters.MSDOS_ROOT_INO
  file : IsFile s.fs s.ino l
  range : ∀ c ∈ l, 2 ≤ c ∧ c < vol.clusters + 2
  live : ∀ c ∈ l, s.fs.fat c ≠ .free
  named : ∀ c < vol.clusters + 2, s.fs.fat c = .free → c < 2 ^ vol.fatBits - 8
  count : s.fs.freeClusters = -1 ∨ s.fs.freeClusters = zeros vol.toSuper s.fs

/-- The file has these bytes in these clusters. -/
structure Holds (vol : Volume) (s : State) (l : List Nat) (content : List Byte) : Prop where
  clustered : Clustered vol s l
  size : s.size = content.length
  room : content.length ≤ sectors vol l * SECTOR_SIZE
  bytes : ∀ k < content.length, content[k]? = some (place vol s l k)

theorem Clustered.nodup (h : Clustered vol s l) : l.Nodup := Chain.nodup h.file

theorem Clustered.length_le (h : Clustered vol s l) : l.length ≤ vol.clusters := by
  have hsub : l.toFinset ⊆ Finset.Ico 2 (vol.clusters + 2) := fun c hc =>
    Finset.mem_Ico.mpr (h.range c (List.mem_toFinset.mp hc))
  have hcard := Finset.card_le_card hsub
  rw [List.toFinset_card_of_nodup h.nodup, Nat.card_Ico] at hcard
  omega

theorem Clustered.smap (h : Clustered vol s l) (k : Nat) :
    smap vol s k = if k < sectors vol l then sectorAt vol l k else 0 :=
  smap_eq h.file (fun c hc => (h.range c hc).1) k

theorem sectorAt_pos (vol : Volume) (l : List Nat) (k : Nat) : sectorAt vol l k ≠ 0 := by
  have hstart := vol.start_pos
  unfold sectorAt sectorOf
  omega

theorem div_lt_sectors (hk : k < sectors vol l * SECTOR_SIZE) : k / SECTOR_SIZE < sectors vol l :=
  Nat.div_lt_of_lt_mul (Nat.mul_comm _ _ ▸ hk)

/-! ### A new cluster -/

theorem lastCluster_eq (hl : Chain (fun c => (fat c).next) (some this) l)
    (hlive : ∀ c ∈ l, fat c ≠ .free) (hn : l.length ≤ n) :
    ∃ last, l.getLast? = some last ∧ lastCluster fat n this = .ok last := by
  induction l generalizing this n with
  | nil => cases hl
  | cons a l ih =>
      obtain rfl : this = a := Option.some.inj hl.1
      have htail := hl.2
      dsimp only at htail
      cases n with
      | zero => cases hn
      | succ n =>
          rw [lastCluster]
          cases hfat : fat this with
          | eof =>
              rw [hfat] at htail
              obtain rfl := Chain.eq_nil htail
              exact ⟨this, rfl, rfl⟩
          | free => exact absurd hfat (hlive this List.mem_cons_self)
          | cluster c =>
              rw [hfat] at htail
              obtain ⟨last, hlast, heq⟩ := ih htail
                (fun x hx => hlive x (List.mem_cons_of_mem this hx)) (Nat.le_of_succ_le_succ hn)
              refine ⟨last, ?_, heq⟩
              rw [List.getLast?_cons, hlast]
              rfl

/-- Nothing else about the file has changed. -/
structure SameFile (s s' : State) : Prop where
  ino : s'.ino = s.ino
  binary : s'.binary = s.binary
  size : s'.size = s.size
  pos : s'.pos = s.pos

theorem store_fat (sb : Fat.Super) (fs : Clusters.State) (this v : Nat) :
    (Clusters.store sb fs this v).fat c = if c = this then .ofWord sb v else fs.fat c :=
  Function.update_apply _ _ _ _

theorem take_fat (vol : Volume) (fs : Clusters.State) (this c : Nat) :
    (takeCluster vol fs this).fat c = if c = this then .eof else fs.fat c := by
  rw [← Clusters.ofWord_endMark vol.toSuper]
  exact store_fat vol.toSuper fs this _

/-- There is one free cluster less. -/
theorem take_zeros (h : Clustered vol s l) (hthis : 2 ≤ this ∧ this < vol.clusters + 2)
    (hfree : s.fs.fat this = .free) :
    zeros vol.toSuper s.fs = zeros vol.toSuper (takeCluster vol s.fs this) + 1 ∧
      ((takeCluster vol s.fs this).freeClusters = -1 ∨
        (takeCluster vol s.fs this).freeClusters =
          zeros vol.toSuper (takeCluster vol s.fs this)) := by
  have hzeros : zeros vol.toSuper s.fs = zeros vol.toSuper (takeCluster vol s.fs this) + 1 := by
    refine Clusters.zeros_succ hthis ?_ hfree fun d hd => ?_
    · rw [take_fat, if_pos rfl]
      exact fun h => by cases h
    · rw [take_fat, if_neg hd]
  have hcount : (takeCluster vol s.fs this).freeClusters =
      if s.fs.freeClusters ≠ -1 then s.fs.freeClusters - 1 else s.fs.freeClusters := rfl
  refine ⟨hzeros, ?_⟩
  rw [hcount]
  rcases h.count with hc | hc
  · exact .inl (by rw [if_neg (not_not.mpr hc), hc])
  · right
    rw [hc, hzeros, if_pos (by omega)]
    omega

/-- A free cluster is linked to the end of the file. -/
theorem link_spec (h : Clustered vol s l)
    (hthis : 2 ≤ this ∧ this < vol.clusters + 2) (hfree : s.fs.fat this = .free) :
    ∃ s', link vol s this = .ok s' ∧ Clustered vol s' (l ++ [this]) ∧ SameFile s s' ∧
      zeros vol.toSuper s'.fs + 1 = zeros vol.toSuper s.fs ∧
      s'.data = zeroCluster vol this s.data := by
  have hnew : this ∉ l := fun hmem => h.live this hmem hfree
  obtain ⟨hzeros, hcount⟩ := take_zeros h hthis hfree
  have hword : Entry.ofWord vol.toSuper this = .cluster this :=
    Clusters.ofWord_cluster (by omega) (h.named this hthis.2 hfree)
  have hrange : ∀ c ∈ l ++ [this], 2 ≤ c ∧ c < vol.clusters + 2 := by
    intro c hc
    rcases List.mem_append.mp hc with hc | hc
    · exact h.range c hc
    · rw [List.mem_singleton.mp hc]
      exact hthis
  have hlive : ∀ c ∈ l ++ [this], (takeCluster vol s.fs this).fat c ≠ .free := by
    intro c hc
    rw [take_fat]
    rcases List.mem_append.mp hc with hc | hc
    · split_ifs
      · exact fun h => by cases h
      · exact h.live c hc
    · rw [if_pos (List.mem_singleton.mp hc)]
      exact fun h => by cases h
  have hnamed : ∀ c < vol.clusters + 2, (takeCluster vol s.fs this).fat c = .free →
      c < 2 ^ vol.fatBits - 8 := by
    intro c hc
    rw [take_fat]
    split_ifs
    · exact fun h => by cases h
    · exact h.named c hc
  have hfile := h.file
  unfold IsFile at hfile
  unfold link
  dsimp only
  rw [show (takeCluster vol s.fs this).start = s.fs.start from rfl]
  cases hstart : s.fs.start s.ino with
  | none =>
      rw [hstart] at hfile
      obtain rfl := Chain.eq_nil hfile
      refine ⟨_, rfl, ⟨h.ino, ⟨Function.update_self _ _ _, ?_⟩, hrange, hlive, hnamed, hcount⟩,
        ⟨rfl, rfl, rfl, rfl⟩, hzeros.symm, rfl⟩
      change ((takeCluster vol s.fs this).fat this).next = none
      rw [take_fat, if_pos rfl]
      rfl
  | some current =>
      rw [hstart] at hfile
      have hsame : ∀ c ∈ l, (takeCluster vol s.fs this).fat c = s.fs.fat c := by
        intro c hc
        rw [take_fat, if_neg]
        rintro rfl
        exact hnew hc
      have hchain : Chain (fun c => ((takeCluster vol s.fs this).fat c).next) (some current) l :=
        hfile.congr fun c hc => congrArg Entry.next (hsame c hc)
      obtain ⟨last, hlast, hwalk⟩ := lastCluster_eq (n := vol.clusters + 1) hchain
        (fun c hc => hlive c (List.mem_append_left _ hc)) (Nat.le_succ_of_le h.length_le)
      obtain ⟨l₀, rfl⟩ := List.getLast?_eq_some_iff.mp hlast
      have hlt : this ≠ last := by
        rintro rfl
        exact hnew (List.mem_append_right _ List.mem_cons_self)
      have hfree' : ∀ c, (Clusters.store vol.toSuper (takeCluster vol s.fs this) last this).fat c =
          .free ↔ (takeCluster vol s.fs this).fat c = .free := by
        intro c
        rw [store_fat, hword]
        by_cases hc : c = last
        · rw [if_pos hc, hc]
          exact iff_of_false (fun h => by cases h)
            (hlive last (List.mem_append_left _ (List.mem_append_right _ List.mem_cons_self)))
        · rw [if_neg hc]
      have hzeros' := @Clusters.zeros_congr vol.toSuper _ _ hfree'
      dsimp only
      rw [hwalk]
      refine ⟨_, rfl, ⟨h.ino, ?_, hrange, fun c hc => mt (hfree' c).mp (hlive c hc),
        fun c hc h => hnamed c hc ((hfree' c).mp h), ?_⟩,
        ⟨rfl, rfl, rfl, rfl⟩, ?_, rfl⟩
      · change Chain _ (s.fs.start s.ino) _
        rw [hstart, List.append_assoc]
        refine hchain.insert hnew ?_ ?_ fun b hb hb' => ?_
        · change
            ((Clusters.store vol.toSuper (takeCluster vol s.fs this) last this).fat this).next =
            _
          rw [store_fat, if_neg hlt, take_fat, if_pos rfl, hchain.next_eq]
          rfl
        · change
            ((Clusters.store vol.toSuper (takeCluster vol s.fs this) last this).fat last).next =
            _
          rw [store_fat, if_pos rfl, hword]
          rfl
        · change ((Clusters.store vol.toSuper (takeCluster vol s.fs this) last this).fat b).next = _
          rw [store_fat, if_neg hb']
      · dsimp only
        rw [hzeros']
        exact hcount
      · dsimp only
        rw [hzeros']
        exact hzeros.symm

/-- `msdos_add_cluster` finds a cluster where there is one. -/
theorem addCluster_spec (h : Clustered vol s l)
    (hroom : zeros vol.toSuper s.fs ≠ 0) :
    ∃ s' this, addCluster vol s = .ok s' ∧ Clustered vol s' (l ++ [this]) ∧ SameFile s s' ∧
      zeros vol.toSuper s'.fs + 1 = zeros vol.toSuper s.fs ∧
      s'.data = zeroCluster vol this s.data := by
  have hcount : s.fs.freeClusters ≠ 0 := by
    rcases h.count with hc | hc
    · rw [hc]
      decide
    · rw [hc]
      exact fun h0 => hroom (Int.ofNat_eq_zero.mp h0)
  unfold addCluster
  rw [if_neg h.ino, if_neg hcount]
  cases hfind : (List.range vol.clusters).find? fun count =>
      s.fs.fat (Clusters.candidate vol.toSuper s.fs count) = .free with
  | none =>
      refine absurd (@Clusters.Inv.zeros_eq_zero vol.toSuper _ fun k hk => ?_) hroom
      simpa using List.find?_eq_none.mp hfind k (List.mem_range.mpr hk)
  | some count =>
      have hfree := List.find?_some hfind
      have hlt := List.mem_range.mp (List.mem_of_find?_eq_some hfind)
      have hcand : 2 ≤ Clusters.candidate vol.toSuper s.fs count ∧
          Clusters.candidate vol.toSuper s.fs count < vol.clusters + 2 := by
        have hmod := Nat.mod_lt (count + s.fs.previous) (Nat.zero_lt_of_lt hlt)
        unfold Clusters.candidate
        omega
      have hmoved : Clustered vol { s with fs := { s.fs with
          previous := (count + s.fs.previous + 1) % vol.clusters } } l :=
        ⟨h.ino, h.file, h.range, h.live, h.named, h.count⟩
      obtain ⟨s', hs', hl', hsame, hz, hdata⟩ :=
        link_spec hmoved hcand (by simpa using hfree)
      exact ⟨s', _, hs', hl', ⟨hsame.ino, hsame.binary, hsame.size, hsame.pos⟩, hz, hdata⟩

/-! ### Writing -/

theorem sectorAt_append (hi : i < sectors vol l) :
    sectorAt vol (l ++ [this]) i = sectorAt vol l i := by
  unfold sectorAt
  rw [List.getD_append _ _ _ _ (div_lt_length hi)]

/-- The clusters of a file keep their bytes when one is added. -/
theorem place_append (h : Clustered vol s' (l ++ [this]))
    (hdata : s'.data = zeroCluster vol this s.data) (hk : k < sectors vol l * SECTOR_SIZE) :
    place vol s' (l ++ [this]) k = place vol s l k := by
  have hi := div_lt_sectors hk
  have hlt := div_lt_length hi
  have hmem := List.getElem_mem hlt
  unfold place
  rw [sectorAt_append hi, hdata, zeroCluster, if_neg]
  rintro ⟨hlow, hhigh⟩
  unfold sectorAt at hlow hhigh
  rw [List.getD_eq_getElem _ _ hlt] at hlow hhigh
  obtain ⟨heq, -⟩ := sector_eq (h.range _ (List.mem_append_left _ hmem)).1
    (h.range this (List.mem_append_right _ List.mem_cons_self)).1 (Nat.mod_lt _ vol.size_pos)
    (show sectorOf vol _ + k / SECTOR_SIZE % vol.clusterSize - sectorOf vol this <
      vol.clusterSize by omega) (Nat.add_sub_of_le hlow).symm
  have hnd := h.nodup
  rw [List.nodup_append] at hnd
  exact hnd.2.2 _ hmem this List.mem_cons_self heq

theorem Holds.append (h : Holds vol s l content) (hl : Clustered vol s' (l ++ [this]))
    (hsize : s'.size = s.size) (hdata : s'.data = zeroCluster vol this s.data) :
    Holds vol s' (l ++ [this]) content where
  clustered := hl
  size := hsize.trans h.size
  room := by
    refine h.room.trans (Nat.mul_le_mul_right _ (Nat.mul_le_mul_right _ ?_))
    rw [List.length_append]
    exact Nat.le_add_right _ _
  bytes := fun k hk => by
    rw [place_append hl hdata (Nat.lt_of_lt_of_le hk h.room)]
    exact h.bytes k hk

/-- Room for so many bytes, in the clusters of the file and in free ones. -/
def capacity (vol : Volume) (s : State) (l : List Nat) : Nat :=
  (l.length + zeros vol.toSuper s.fs) * (vol.clusterSize * SECTOR_SIZE)

/-- The file is at its end, and in text mode. -/
structure AtEnd (vol : Volume) (s : State) (l : List Nat) (content : List Byte) : Prop where
  holds : Holds vol s l content
  atEnd : s.pos = s.size
  text : s.binary = false

/-- The sector for the next byte. -/
theorem mapSector_spec (h : AtEnd vol s l content)
    (hroom : content.length < capacity vol s l) :
    ∃ s' l', mapSector vol (vol.clusters + 1) s =
        .ok (sectorAt vol l' (s'.pos / SECTOR_SIZE), s') ∧
      AtEnd vol s' l' content ∧ s'.pos / SECTOR_SIZE < sectors vol l' ∧
      capacity vol s' l' = capacity vol s l := by
  have hpos : s.pos = content.length := h.atEnd.trans h.holds.size
  by_cases hk : s.pos / SECTOR_SIZE < sectors vol l
  · refine ⟨s, l, ?_, h, hk, rfl⟩
    rw [mapSector, h.holds.clustered.smap, if_pos hk, if_pos (sectorAt_pos vol l _)]
  · have hfull : content.length = sectors vol l * SECTOR_SIZE := by
      have hle := h.holds.room
      have hge := (Nat.le_div_iff_mul_le (show 0 < SECTOR_SIZE by decide)).mp (Nat.not_lt.mp hk)
      omega
    have hzeros : zeros vol.toSuper s.fs ≠ 0 := by
      intro h0
      unfold capacity at hroom
      rw [h0, Nat.add_zero, ← Nat.mul_assoc] at hroom
      exact absurd hroom (Nat.not_lt.mpr (Nat.le_of_eq hfull.symm))
    obtain ⟨s', this, hs', hl', hsame, hz, hdata⟩ := addCluster_spec h.holds.clustered hzeros
    have hk' : s'.pos / SECTOR_SIZE < sectors vol (l ++ [this]) := by
      have hsize := vol.size_pos
      rw [hsame.pos, hpos, hfull, Nat.mul_div_cancel _ (by decide), sectors, sectors,
        List.length_append, Nat.add_mul]
      simp only [List.length_cons, List.length_nil]
      omega
    have hone : vol.clusters ≠ 0 := by
      have hle := hl'.length_le
      rw [List.length_append] at hle
      simp only [List.length_cons, List.length_nil] at hle
      omega
    obtain ⟨m, hm⟩ := Nat.exists_eq_succ_of_ne_zero hone
    refine ⟨s', l ++ [this], ?_, ⟨h.holds.append hl' hsame.size hdata, ?_, ?_⟩, hk', ?_⟩
    · rw [mapSector, h.holds.clustered.smap, if_neg hk, if_neg (fun h => h rfl), hs']
      dsimp only
      rw [hm, mapSector, hl'.smap, if_pos hk', if_pos (sectorAt_pos vol _ _)]
    · rw [hsame.pos, hsame.size, h.atEnd]
    · rw [hsame.binary, h.text]
    · unfold capacity
      rw [List.length_append, ← hz]
      simp only [List.length_cons, List.length_nil]
      congr 1
      omega

/-- Positions in one sector. -/
theorem same_sector (h : k / SECTOR_SIZE = i / SECTOR_SIZE) :
    (i % SECTOR_SIZE ≤ k % SECTOR_SIZE ↔ i ≤ k) ∧ k % SECTOR_SIZE - i % SECTOR_SIZE = k - i := by
  unfold SECTOR_SIZE at *
  omega

/-- A position in another sector is not among the next ones in this sector. -/
theorem other_sector (h : k / SECTOR_SIZE ≠ i / SECTOR_SIZE) (hle : i ≤ k)
    (hn : n ≤ SECTOR_SIZE - i % SECTOR_SIZE) : n ≤ k - i := by
  unfold SECTOR_SIZE at *
  omega

theorem le_of_sector (h : i / SECTOR_SIZE < k) (hn : n ≤ SECTOR_SIZE - i % SECTOR_SIZE) :
    i + n ≤ k * SECTOR_SIZE := by
  unfold SECTOR_SIZE at *
  omega

theorem place_putAt (h : Clustered vol s l) (hpos : s.pos / SECTOR_SIZE < sectors vol l)
    (hout : out.length ≤ SECTOR_SIZE - s.pos % SECTOR_SIZE) (hk : k < sectors vol l * SECTOR_SIZE) :
    place vol (putAt s (sectorAt vol l (s.pos / SECTOR_SIZE)) out) l k =
      if s.pos ≤ k then (out[k - s.pos]?).getD (place vol s l k) else place vol s l k := by
  unfold place putAt
  dsimp only
  by_cases heq : k / SECTOR_SIZE = s.pos / SECTOR_SIZE
  · obtain ⟨hsub, hdiff⟩ := same_sector heq
    rw [heq, Function.update_self, putBytes]
    by_cases hle : s.pos ≤ k
    · rw [if_pos (hsub.mpr hle), if_pos hle, hdiff]
    · rw [if_neg fun h => hle (hsub.mp h), if_neg hle]
  · have hne : sectorAt vol l (k / SECTOR_SIZE) ≠ sectorAt vol l (s.pos / SECTOR_SIZE) := fun h' =>
      heq (sectorAt_inj h.nodup (fun c hc => (h.range c hc).1) (div_lt_sectors hk) hpos h')
    rw [Function.update_of_ne hne]
    split
    next hle =>
      have hout' : out[k - s.pos]? = none := List.getElem?_eq_none (other_sector heq hle hout)
      rw [hout']
      rfl
    next => rfl

/-- The bytes go behind the last one. -/
theorem putAt_spec (h : AtEnd vol s l content) (hpos : s.pos / SECTOR_SIZE < sectors vol l)
    (hout : out.length ≤ SECTOR_SIZE - s.pos % SECTOR_SIZE) :
    AtEnd vol (putAt s (sectorAt vol l (s.pos / SECTOR_SIZE)) out) l (content ++ out) := by
  have hpos' : s.pos = content.length := h.atEnd.trans h.holds.size
  have hroom : (content ++ out).length ≤ sectors vol l * SECTOR_SIZE := by
    rw [List.length_append, ← hpos']
    exact le_of_sector hpos hout
  have hsize : (putAt s (sectorAt vol l (s.pos / SECTOR_SIZE)) out).size =
      s.pos + out.length := by
    have hatEnd := h.atEnd
    unfold putAt
    dsimp only
    split <;> omega
  have hc := h.holds.clustered
  refine ⟨⟨⟨hc.ino, hc.file, hc.range, hc.live, hc.named, hc.count⟩, ?_, hroom, fun k hk => ?_⟩,
    hsize.symm, h.text⟩
  · rw [hsize, hpos', List.length_append]
  · rw [place_putAt hc hpos hout (Nat.lt_of_lt_of_le hk hroom)]
    by_cases hle : s.pos ≤ k
    · have hlt : k - content.length < out.length := by
        rw [List.length_append] at hk
        omega
      rw [if_pos hle, List.getElem?_append_right (hpos' ▸ hle), hpos',
        List.getElem?_eq_getElem hlt]
      rfl
    · have hlt : k < content.length := by omega
      rw [if_neg hle, List.getElem?_append_left hlt]
      exact h.holds.bytes k hlt

/-- The loop puts the converted characters behind the last byte. -/
theorem writeLoop_spec (carry : Bool) (buf : List Byte) (h : AtEnd vol s l content)
    (hn : turns carry buf < n)
    (hroom : content.length + (owed carry ++ stored buf).length ≤ capacity vol s l) :
    ∃ s' l', writeLoop vol n s buf carry = .ok s' ∧
      AtEnd vol s' l' (content ++ (owed carry ++ stored buf)) ∧
      capacity vol s' l' = capacity vol s l := by
  induction n generalizing s l content buf carry with
  | zero => exact absurd hn (Nat.not_lt_zero _)
  | succ n ih =>
      rw [writeLoop]
      by_cases hdone : buf = [] ∧ carry = false
      · obtain ⟨rfl, rfl⟩ := hdone
        rw [if_pos ⟨rfl, rfl⟩]
        refine ⟨s, l, rfl, ?_, rfl⟩
        rw [show owed false ++ stored [] = [] from rfl, List.append_nil]
        exact h
      · have hsome : (owed carry ++ stored buf).length ≠ 0 := by
          intro h0
          have hnil := List.append_eq_nil_iff.mp (List.length_eq_zero_iff.mp h0)
          refine hdone ⟨?_, ?_⟩
          · cases buf with
            | nil => rfl
            | cons c buf =>
                have hcons := hnil.2
                rw [stored_cons] at hcons
                split at hcons <;> cases hcons
          · cases carry with
            | false => rfl
            | true => cases hnil.1
        obtain ⟨s', l', hmap, h', hpos, hcap⟩ := mapSector_spec h (by omega)
        have hleft : 0 < SECTOR_SIZE - s'.pos % SECTOR_SIZE :=
          Nat.sub_pos_of_lt (Nat.mod_lt _ (by decide))
        obtain ⟨heq, hlen⟩ := convert_spec carry buf hleft
        have hturns := convert_turns hdone hleft
        have hput := putAt_spec h' hpos hlen
        rw [if_neg hdone, hmap]
        dsimp only
        rw [h'.text]
        generalize convert false carry buf (SECTOR_SIZE - s'.pos % SECTOR_SIZE) = r at *
        rw [heq, List.append_assoc] at hroom ⊢
        have hcap' : capacity vol (putAt s' (sectorAt vol l' (s'.pos / SECTOR_SIZE)) r.2.1) l' =
            capacity vol s l := hcap
        have hroom' : (content ++ r.2.1).length + (owed r.2.2 ++ stored r.1).length ≤
            capacity vol s l := by
          rw [List.length_append] at hroom ⊢
          omega
        obtain ⟨s'', l'', hs'', h'', hcap''⟩ := ih _ _ hput (by omega) (hcap' ▸ hroom')
        rw [List.append_assoc] at h''
        exact ⟨s'', l'', hs'', h'', hcap''.trans hcap'⟩

theorem fileWrite_spec (append : Bool) (buf : List Byte) (h : AtEnd vol s l content)
    (hroom : content.length + (stored buf).length ≤ capacity vol s l) :
    ∃ s' l', fileWrite vol s append buf = .ok (buf.length, s') ∧
      AtEnd vol s' l' (content ++ stored buf) ∧ capacity vol s' l' = capacity vol s l := by
  have hmove : ∀ p, p = s.pos → { s with pos := p } = s := fun p hp => by rw [hp]
  have hsame : (if append then { s with pos := s.size } else s) = s := by
    cases append with
    | false => rfl
    | true => exact hmove s.size h.atEnd.symm
  unfold fileWrite
  dsimp only
  rw [hsame]
  by_cases hnil : buf.length = 0
  · obtain rfl := List.length_eq_zero_iff.mp hnil
    rw [if_pos hnil]
    exact ⟨s, l, rfl, by rw [stored_nil, List.append_nil]; exact h, rfl⟩
  · obtain ⟨s', l', hs', h', hcap⟩ := writeLoop_spec (n := 2 * buf.length + 1) false
      buf h (Nat.lt_succ_self _) hroom
    rw [if_neg hnil, hs']
    exact ⟨s', l', rfl, h', hcap⟩

/-- The calls put the text behind what is there. -/
theorem writes_spec (calls : List (Bool × List Byte))
    (h : AtEnd vol s l content)
    (hroom : content.length + (stored (calls.map Prod.snd).flatten).length ≤ capacity vol s l) :
    ∃ s' l', writes vol s calls = .ok (calls.map (·.2.length), s') ∧
      AtEnd vol s' l' (content ++ stored (calls.map Prod.snd).flatten) := by
  induction calls generalizing s l content with
  | nil =>
      refine ⟨s, l, rfl, ?_⟩
      rw [List.map_nil, List.flatten_nil, stored_nil, List.append_nil]
      exact h
  | cons call calls ih =>
      obtain ⟨append, buf⟩ := call
      have hcalls : stored (((append, buf) :: calls).map Prod.snd).flatten =
          stored buf ++ stored (calls.map Prod.snd).flatten := stored_append ..
      rw [hcalls, List.length_append] at hroom
      rw [hcalls]
      obtain ⟨s', l', hs', h', hcap⟩ := fileWrite_spec append buf h (by omega)
      obtain ⟨s'', l'', hs'', h''⟩ := ih h' (by rw [List.length_append, hcap]; omega)
      rw [writes, hs']
      dsimp only
      rw [hs'']
      exact ⟨s'', l'', rfl, by rwa [List.append_assoc] at h''⟩

/-! ### Reading -/

theorem Holds.move (h : Holds vol s l content) (p : Nat) :
    Holds vol { s with pos := p } l content :=
  have hc := h.clustered
  ⟨⟨hc.ino, hc.file, hc.range, hc.live, hc.named, hc.count⟩, h.size, h.room, h.bytes⟩

/-- The bytes of one sector, from the position on. -/
theorem Holds.sectorBytes (h : Holds vol s l content) (hn : n ≤ SECTOR_SIZE - s.pos % SECTOR_SIZE)
    (hlen : s.pos + n ≤ content.length) (hpos : s.pos < content.length) :
    (List.range' (s.pos % SECTOR_SIZE) n).map (s.data (smap vol s (s.pos / SECTOR_SIZE))) =
      (content.drop s.pos).take n := by
  have hlt := div_lt_sectors (Nat.lt_of_lt_of_le hpos h.room)
  rw [h.clustered.smap, if_pos hlt]
  refine List.ext_getElem? fun k => ?_
  by_cases hk : k < n
  · have hdiv : (s.pos + k) / SECTOR_SIZE = s.pos / SECTOR_SIZE ∧
        (s.pos + k) % SECTOR_SIZE = s.pos % SECTOR_SIZE + k := by
      unfold SECTOR_SIZE at *
      omega
    have hbyte := h.bytes (s.pos + k) (by omega)
    unfold place at hbyte
    rw [hdiv.1, hdiv.2] at hbyte
    rw [List.getElem?_take_of_lt hk, List.getElem?_drop, hbyte, List.getElem?_map,
      List.getElem?_range' hk, Nat.one_mul]
    rfl
  · rw [List.getElem?_eq_none, List.getElem?_eq_none]
    · rw [List.length_take]
      omega
    · rw [List.length_map, List.length_range']
      omega

/-- As many characters as there is room for, and the others are left. -/
theorem readLoop_spec (buf : List Byte) (h : Holds vol s l content) (htext : s.binary = false)
    (hz : ∀ c ∈ content, c ≠ CTRL_Z) (hpos : s.pos ≤ content.length) (hn : s.size - s.pos < n) :
    ∃ p, readLoop vol n s i buf =
        .ok (buf ++ (chars (content.drop s.pos)).take (i - buf.length), { s with pos := p }) ∧
      p ≤ content.length ∧
      chars (content.drop p) = (chars (content.drop s.pos)).drop (i - buf.length) := by
  induction n generalizing s buf with
  | zero => exact absurd hn (Nat.not_lt_zero _)
  | succ n ih =>
      have hsize := h.size
      rw [readLoop]
      dsimp only
      by_cases hleft : min (s.size - s.pos) (i - buf.length) = 0
      · rw [if_pos hleft]
        rcases Nat.min_eq_zero_iff.mp hleft with h0 | h0
        · have hnil : content.drop s.pos = [] := List.drop_eq_nil_of_le (by omega)
          refine ⟨s.pos, ?_, hpos, ?_⟩
          · rw [hnil, chars, List.filter_nil, List.take_nil, List.append_nil]
          · rw [hnil, chars, List.filter_nil, List.drop_nil]
        · refine ⟨s.pos, ?_, hpos, ?_⟩
          · rw [h0, List.take_zero, List.append_nil]
          · rw [h0, List.drop_zero]
      · have hmod := Nat.mod_lt s.pos (show SECTOR_SIZE > 0 by decide)
        have hlt : s.pos < content.length := by omega
        have hsector : smap vol s (s.pos / SECTOR_SIZE) ≠ 0 := by
          rw [h.clustered.smap, if_pos (div_lt_sectors (Nat.lt_of_lt_of_le hlt h.room))]
          exact sectorAt_pos vol l _
        rw [if_neg hleft, if_neg hsector, htext, if_neg Bool.false_ne_true]
        generalize hk : min (SECTOR_SIZE - s.pos % SECTOR_SIZE)
          (min (s.size - s.pos) (i - buf.length)) = k
        rw [h.sectorBytes (by omega) (by omega) hlt,
          drain_eq fun c hc => hz c (List.mem_of_mem_drop (List.mem_of_mem_take hc))]
        dsimp only
        rw [if_neg Bool.false_ne_true]
        -- the characters of this sector, then the others
        have hchars : chars (content.drop s.pos) =
            chars ((content.drop s.pos).take k) ++ chars (content.drop (s.pos + k)) := by
          rw [← chars_append, ← List.drop_drop, List.take_append_drop]
        have hle : (chars ((content.drop s.pos).take k)).length ≤ i - buf.length := by
          refine (List.length_filter_le _ _).trans ((List.length_take_le _ _).trans ?_)
          omega
        obtain ⟨p, heq, hp, hrest⟩ := ih (buf ++ chars ((content.drop s.pos).take k))
          (h.move (s.pos + k)) htext (by dsimp only; omega) (by dsimp only; omega)
        dsimp only at heq hrest
        rw [List.length_append, ← Nat.sub_sub] at heq hrest
        refine ⟨p, ?_, hp, ?_⟩
        · rw [htext] at heq
          refine heq.trans ?_
          rw [hchars, List.take_append, List.take_of_length_le hle, List.append_assoc]
        · rw [hrest, hchars, List.drop_append, List.drop_of_length_le hle, List.nil_append]

/-- One call. -/
theorem fileRead_spec (h : Holds vol s l content) (htext : s.binary = false)
    (hz : ∀ c ∈ content, c ≠ CTRL_Z) (hlast : content.getLast? ≠ some CR)
    (hpos : s.pos ≤ content.length) :
    ∃ p, fileRead vol s i =
        .ok ((chars (content.drop s.pos)).take i, { s with pos := p }) ∧
      p ≤ content.length ∧
      chars (content.drop p) = (chars (content.drop s.pos)).drop i := by
  unfold fileRead
  by_cases hnone : s.pos ≥ s.size ∨ i = 0
  · rw [if_pos hnone]
    rcases hnone with hend | rfl
    · have hnil : content.drop s.pos = [] := List.drop_eq_nil_of_le (h.size ▸ hend)
      refine ⟨s.pos, ?_, hpos, ?_⟩
      · rw [hnil, chars, List.filter_nil, List.take_nil]
      · rw [hnil, chars, List.filter_nil, List.drop_nil]
    · exact ⟨s.pos, rfl, hpos, rfl⟩
  · have hsize := h.size
    have hdrop : content.drop s.pos ≠ [] := fun hnil =>
      absurd (List.drop_eq_nil_iff.mp hnil) (by omega)
    have hchars := chars_ne_nil hlast hdrop
    obtain ⟨p, heq, hp, hrest⟩ := readLoop_spec (n := s.size - s.pos + 1) (i := i) []
      h htext hz hpos (Nat.lt_succ_self _)
    rw [List.length_nil, Nat.sub_zero] at heq hrest
    rw [List.nil_append] at heq
    have hsome : (chars (content.drop s.pos)).take i ≠ [] := fun hnil => by
      rcases List.take_eq_nil_iff.mp hnil with h0 | h0
      · exact hnone (.inr h0)
      · exact hchars h0
    rw [if_neg hnone, heq]
    exact ⟨p, if_neg hsome, hp, hrest⟩

/-- One call after the other. -/
theorem reads_spec (counts : List Nat) (h : Holds vol s l content) (htext : s.binary = false)
    (hz : ∀ c ∈ content, c ≠ CTRL_Z) (hlast : content.getLast? ≠ some CR)
    (hpos : s.pos ≤ content.length) :
    ∃ s', reads vol s counts = .ok (chop counts (chars (content.drop s.pos)), s') := by
  induction counts generalizing s with
  | nil => exact ⟨s, rfl⟩
  | cons i counts ih =>
      obtain ⟨p, heq, hp, hrest⟩ := fileRead_spec (i := i) h htext hz hlast hpos
      obtain ⟨s', hs'⟩ := ih (h.move p) htext hp
      dsimp only at hs'
      rw [reads, heq]
      dsimp only
      rw [hs', hrest]
      exact ⟨s', rfl⟩

theorem Holds.fileBytes (h : Holds vol s l content) : fileBytes vol s = content := by
  refine List.ext_getElem? fun k => ?_
  unfold MsdosText.fileBytes
  rw [List.getElem?_map, h.size]
  by_cases hk : k < content.length
  · rw [List.getElem?_range hk, Option.map_some, h.clustered.smap,
      if_pos (div_lt_sectors (Nat.lt_of_lt_of_le hk h.room))]
    exact (h.bytes k hk).symm
  · rw [List.getElem?_eq_none (by simpa using hk), List.getElem?_eq_none (Nat.not_lt.mp hk)]
    rfl

end File

/-! ### The whole -/

theorem flatten_chop (counts : List Nat) (text : List Byte) :
    (chop counts text).flatten = text.take counts.sum := by
  induction counts generalizing text with
  | nil => rfl
  | cons n counts ih => rw [chop, List.flatten_cons, ih, List.sum_cons, List.take_add]

/-- Four clusters with one sector each. -/
def floppy : Volume where
  toSuper := Fat.fourClusters
  clusterSize := 1
  dataStart := 3
  size_pos := Nat.one_pos
  start_pos := by decide

/-- File 6 is empty; another one has a cluster. -/
def emptyFile : State where
  fs := Clusters.oneFile
  ino := 6
  binary := false
  size := 0
  pos := 0
  data _ _ := 0

theorem atEnd_emptyFile : AtEnd floppy emptyFile [] [] where
  holds := {
    clustered := {
      ino := by decide
      file := rfl
      range := fun c hc => absurd hc List.not_mem_nil
      live := fun c hc => absurd hc List.not_mem_nil
      named := by decide
      count := .inr (by decide) }
    size := rfl
    room := Nat.zero_le _
    bytes := fun k hk => absurd hk (Nat.not_lt_zero k) }
  atEnd := rfl
  text := rfl

end LinuxKernel.V098.Fs.MsdosText
