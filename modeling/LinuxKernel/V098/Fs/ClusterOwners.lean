import LinuxKernel.Lib.Chains
import LinuxKernel.V098.Fs.Clusters
import LinuxKernel.V098.Fs.FatCopies

/-!
# LinuxKernel.V098.Fs.ClusterOwners

**Who has which clusters**: a cluster that is in use belongs to a file or to a task, one that
has taken it and not linked it yet, or one that has cut it off and not freed it yet. What each
store of `msdos_add_cluster` and `fat_free` does to that.
-/

namespace LinuxKernel.V098.Fs.Clusters

variable {sb : Fat.Super} {s s' : State} {t : Task} {i : Ino} {c this : Nat} {pc' : Pc}
  {l : List Nat}

/-! ### What is stored in an entry -/

theorem two_pow_bits (sb : Fat.Super) : 16 ≤ 2 ^ sb.fatBits := by
  rcases Fat.fatBits_eq sb with h | h <;> rw [h] <;> decide

theorem ofWord_zero (sb : Fat.Super) : Entry.ofWord sb 0 = .free := by
  have := two_pow_bits sb
  simp only [Entry.ofWord, Nat.zero_mod]
  rw [if_neg (by omega), if_pos trivial]

theorem ofWord_cluster (hc : 0 < c) (hlt : c < 2 ^ sb.fatBits - 8) :
    Entry.ofWord sb c = .cluster c := by
  simp only [Entry.ofWord, Nat.mod_eq_of_lt (show c < 2 ^ sb.fatBits by omega)]
  rw [if_neg (by omega), if_neg (by omega)]

theorem ofWord_endMark (sb : Fat.Super) : Entry.ofWord sb (endMark sb) = .eof := by
  rcases Fat.fatBits_eq sb with hbits | hbits <;> simp [Entry.ofWord, endMark, hbits]

/-- The value that `fat_access` returns. -/
def Entry.reading : Entry → Int
  | free => 0
  | cluster c => c
  | eof => -1

theorem ofWord_reading {v : Nat} (hv : v < 2 ^ sb.fatBits) :
    (Entry.ofWord sb v).reading = Fat.mark sb v := by
  simp only [Entry.ofWord, Nat.mod_eq_of_lt hv, Fat.mark]
  split
  · rfl
  · split
    · next h =>
      rw [h]
      rfl
    · rfl

/-- The entries are those that `fat_access` reads from the sectors of the FAT. -/
def Reads (sb : Fat.Super) (s : State) (f : Fat.State) : Prop :=
  ∀ c < sb.clusters + 2, Fat.diskEntry sb f.store.view c = (s.fat c).reading

/-- They stay so when `fat_access` replaces one. -/
theorem Reads.store {f : Fat.State} {v : Nat} (h : Reads sb s f) (hthis : this < sb.clusters + 2)
    (hf : f.store.cached (Fat.firstSector sb this / 2) = true)
    (hl : f.store.cached (Fat.lastSector sb this / 2) = true) (hv : v < 2 ^ sb.fatBits) :
    Reads sb (store sb s this v) (Fat.write sb f this v) := by
  intro c hc
  change _ = (Function.update s.fat this (.ofWord sb v) c).reading
  by_cases hct : c = this
  · subst hct
    rw [Fat.entry_write hthis hf hl hv, Function.update_self, ofWord_reading hv]
  · rw [Fat.entry_write_of_ne hthis hf hl hc hct hv, Function.update_of_ne hct]
    exact h c hc

/-! ### Who has which clusters -/

inductive Owner
  | file (i : Ino)
  | task (t : Task)
  deriving DecidableEq

/-- The first of the clusters that a task has. -/
def pcHead : Pc → Option Nat
  | .taken _ this | .walk _ this _ | .link _ this _ | .freeLock _ this | .free _ this => some this
  | .freed _ next => next.next
  | .idle | .addLock _ | .addFatLock _ | .scan _ _ | .take _ _ | .zero | .skip _ _ _
  | .cut _ _ _ => none

def next (s : State) (c : Nat) : Option Nat := (s.fat c).next

def head (s : State) : Owner → Option Nat
  | .file i => s.start i
  | .task t => pcHead (s.pc t)

theorem next_store (v : Nat) :
    next (store sb s this v) = Function.update (next s) this (Entry.ofWord sb v).next := by
  funext c
  change (Function.update s.fat this _ c).next = _
  by_cases hc : c = this
  · rw [hc, Function.update_self, Function.update_self]
  · rw [Function.update_of_ne hc, Function.update_of_ne hc]
    rfl

theorem head_setStart {v : Option Nat} (hstart : s'.start = Function.update s.start i v)
    (hpc : s'.pc = Function.update s.pc t pc') :
    head s' = Function.update (Function.update (head s) (.task t) (pcHead pc')) (.file i) v := by
  funext o
  cases o with
  | file j =>
      change s'.start j = _
      rw [hstart]
      by_cases hj : j = i
      · rw [hj, Function.update_self, Function.update_self]
      · rw [Function.update_of_ne hj, Function.update_of_ne (by simpa using hj),
          Function.update_of_ne (by simp)]
        rfl
  | task u =>
      change pcHead (s'.pc u) = _
      rw [hpc, Function.update_of_ne (show Owner.task u ≠ .file i by simp)]
      by_cases hu : u = t
      · rw [hu, Function.update_self, Function.update_self]
      · rw [Function.update_of_ne hu, Function.update_of_ne (by simpa using hu)]
        rfl

variable (pc') in
theorem head_setPc (hstart : s'.start = s.start) (hpc : s'.pc = Function.update s.pc t pc') :
    head s' = Function.update (head s) (.task t) (pcHead pc') := by
  rw [head_setStart (i := 0) (v := s.start 0) (by rw [hstart, Function.update_eq_self]) hpc,
    Function.update_eq_self_iff, Function.update_of_ne (by simp)]
  rfl

theorem next_setPc_store (v : Nat) :
    next (setPc (store sb s this v) t pc') =
      Function.update (next s) this (Entry.ofWord sb v).next :=
  next_store v

theorem head_setPc_store (v : Nat) :
    head (setPc (store sb s this v) t pc') = Function.update (head s) (.task t) (pcHead pc') :=
  head_setPc _ rfl rfl

/-- The clusters in use, by owner. -/
structure Own (sb : Fat.Super) (s : State) (seg : Owner → List Nat) : Prop where
  chains : Chains (next s) (head s) seg
  live : ∀ o, ∀ c ∈ seg o, s.fat c ≠ .free
  range : ∀ o, ∀ c ∈ seg o, 2 ≤ c ∧ c < sb.clusters + 2
  kept : ∀ c, s.allocated c = true → s.fat c ≠ .free → ∃ o, c ∈ seg o

variable {seg : Owner → List Nat}

namespace Own

theorem setPc (h : Own sb s seg) (hfat : s'.fat = s.fat) (hstart : s'.start = s.start)
    (halloc : s'.allocated = s.allocated) (hpc : s'.pc = Function.update s.pc t pc')
    (hhead : pcHead pc' = pcHead (s.pc t)) : Own sb s' seg where
  chains := by
    refine h.chains.congr (fun o c _ => ?_) fun o => ?_
    · rw [next, next, hfat]
    · rw [head_setPc _ hstart hpc]
      by_cases ho : o = .task t
      · rw [ho, Function.update_self]
        exact hhead
      · rw [Function.update_of_ne ho]
  live := by
    rw [hfat]
    exact h.live
  range := h.range
  kept := by
    rw [hfat, halloc]
    exact h.kept

/-- The list of a file is what the invariant says. -/
theorem isFile (h : Own sb s seg) (i : Ino) : IsFile s i l ↔ seg (.file i) = l := by
  have hchain : Chain (next s) (head s (.file i)) (seg (.file i)) := h.chains.chain (.file i)
  refine ⟨fun hl => hchain.unique hl, ?_⟩
  rintro rfl
  exact hchain

theorem seg_task (h : Own sb s seg) (hpc : pcHead (s.pc t) = none) : seg (.task t) = [] := by
  have hhead : head s (.task t) = none := hpc
  exact h.chains.seg_of_none hhead

/-- A task takes a free cluster. -/
theorem take (h : Own sb s seg) (hpc : s.pc t = .take i this) (hfree : s.fat this = .free)
    (hrange : 2 ≤ this ∧ this < sb.clusters + 2) :
    Own sb (take sb s t i this) (Function.update seg (.task t) [this]) := by
  have hnew : ∀ o, this ∉ seg o := fun o ho => h.live o this ho hfree
  have hfat : ∀ c, (Clusters.take sb s t i this).fat c = if c = this then .eof else s.fat c := by
    intro c
    change Function.update s.fat this (Entry.ofWord sb (endMark sb)) c = _
    rw [ofWord_endMark, Function.update_apply]
  have hmem : ∀ o, ∀ c ∈ Function.update seg (.task t) [this] o, c = this ∨ c ∈ seg o := by
    intro o c hc
    by_cases ho : o = .task t
    · rw [ho, Function.update_self] at hc
      exact Or.inl (List.mem_singleton.mp hc)
    · rw [Function.update_of_ne ho] at hc
      exact Or.inr hc
  refine ⟨?_, fun o c hc => ?_, fun o c hc => ?_, fun c hc hlive => ?_⟩
  · have hnext : next (Clusters.take sb s t i this) = Function.update (next s) this none := by
      rw [show (none : Option Nat) = (Entry.ofWord sb (endMark sb)).next by rw [ofWord_endMark]; rfl,
        ← next_store]
      rfl
    have hhead : head (Clusters.take sb s t i this) =
        Function.update (head s) (.task t) (some this) :=
      head_setPc (.taken i this) rfl rfl
    rw [hnext, hhead]
    exact h.chains.start hnew
  · rw [hfat]
    rcases hmem o c hc with rfl | hc
    · rw [if_pos rfl]
      exact nofun
    · split
      · exact nofun
      · exact h.live o c hc
  · rcases hmem o c hc with rfl | hc
    · exact hrange
    · exact h.range o c hc
  · by_cases hct : c = this
    · refine ⟨.task t, ?_⟩
      rw [Function.update_self, hct]
      exact List.mem_singleton_self this
    · rw [hfat, if_neg hct] at hlive
      have hold : s.allocated c = true := by
        change Function.update s.allocated this true c = true at hc
        rwa [Function.update_of_ne hct] at hc
      obtain ⟨o, ho⟩ := h.kept c hold hlive
      refine ⟨o, ?_⟩
      rw [Function.update_of_ne]
      · exact ho
      · rintro rfl
        rw [h.seg_task (by rw [hpc]; rfl)] at ho
        exact List.not_mem_nil ho

/-- The clusters in use stay the same, and change owners only. -/
theorem rearrange {seg' : Owner → List Nat} (h : Own sb s seg)
    (hc : Chains (next s') (head s') seg') (hfree : ∀ c, s'.fat c = .free ↔ s.fat c = .free)
    (halloc : s'.allocated = s.allocated) (hmem : ∀ c, (∃ o, c ∈ seg' o) ↔ ∃ o, c ∈ seg o) :
    Own sb s' seg' where
  chains := hc
  live o c ho := by
    obtain ⟨o', ho'⟩ := (hmem c).mp ⟨o, ho⟩
    exact fun hc => h.live o' c ho' ((hfree c).mp hc)
  range o c ho := by
    obtain ⟨o', ho'⟩ := (hmem c).mp ⟨o, ho⟩
    exact h.range o' c ho'
  kept c ha hc := by
    rw [halloc] at ha
    exact (hmem c).mpr (h.kept c ha fun hfr => hc ((hfree c).mpr hfr))

/-- An entry in use that is replaced by another one in use. -/
theorem free_store {v : Nat} (hlive : s.fat this ≠ .free) (hv : Entry.ofWord sb v ≠ .free)
    (c : Nat) : (Clusters.store sb s this v).fat c = .free ↔ s.fat c = .free := by
  change Function.update s.fat this _ c = _ ↔ _
  rw [Function.update_apply]
  split
  · next he =>
    rw [he]
    exact ⟨fun h => absurd h hv, fun h => absurd h hlive⟩
  · exact Iff.rfl

/-- The taken cluster becomes the first one of the file. -/
theorem begin (h : Own sb s seg) (hstart : s.start i = none) (hseg : seg (.task t) = [this])
    (hfat : s'.fat = s.fat) (hnew : s'.start = Function.update s.start i (some this))
    (halloc : s'.allocated = s.allocated) (hpc : s'.pc = Function.update s.pc t pc')
    (hhead : pcHead pc' = none) :
    Own sb s' (Function.update (Function.update seg (.task t) []) (.file i) [this]) := by
  have hthis : head s (.task t) = some this := by
    have := h.chains.chain (.task t)
    rw [hseg] at this
    exact this.1
  have hempty : seg (.file i) = [] := (h.isFile i).mp hstart
  refine h.rearrange ?_ (fun c => by rw [hfat]) halloc fun c => ?_
  · have hchains := h.chains.hand (show Owner.task t ≠ .file i by simp)
    rw [hthis, hseg] at hchains
    rw [head_setStart hnew hpc, hhead]
    exact hchains.congr (fun o c _ => by rw [next, next, hfat]) fun o => rfl
  · refine Chains.mem_exchange (by simp) (fun c => ?_) c
    rw [hseg, hempty]
    simp

/-- The taken cluster is linked to the last one of the file. -/
theorem link {last : Nat} (h : Own sb s seg) (hfile : IsFile s i (l ++ [last]))
    (hpc : s.pc t = .link i this last) (hseg : seg (.task t) = [this])
    (hlt : this < 2 ^ sb.fatBits - 8) :
    Own sb (Clusters.setPc (store sb s last this) t .zero)
      (Function.update (Function.update seg (.file i) (seg (.file i) ++ seg (.task t)))
        (.task t) []) := by
  have hl := (h.isFile i).mp hfile
  have hthis : this ∈ seg (.task t) := hseg ▸ List.mem_singleton_self this
  have hword := ofWord_cluster (Nat.lt_of_lt_of_le (by decide)
    (h.range _ _ hthis).1) hlt
  have hlast : last ∈ seg (.file i) := hl ▸ List.mem_append_right l (List.mem_singleton_self last)
  refine h.rearrange ?_ (free_store (h.live _ _ hlast) (by rw [hword]; exact nofun)) rfl fun c => ?_
  · have hchains := h.chains.append (show Owner.file i ≠ .task t by simp) hl
    rw [show head s (.task t) = some this from congrArg pcHead hpc] at hchains
    rw [next_setPc_store, head_setPc_store, hword]
    exact hchains
  · refine Chains.mem_exchange (by simp) (fun c => ?_) c
    simp

/-- A file is cut behind `last`: the rest goes to the task. -/
theorem cut {last : Nat} {l' : List Nat} (h : Own sb s seg)
    (hfile : IsFile s i (l ++ last :: this :: l')) (hpc : s.pc t = .cut i last this) :
    Own sb (Clusters.setPc (store sb s last (endMark sb)) t (.freeLock i this))
      (Function.update (Function.update seg (.file i) (l ++ [last])) (.task t) (this :: l')) := by
  have hl := (h.isFile i).mp hfile
  have hlast : last ∈ seg (.file i) := hl ▸ List.mem_append_right l List.mem_cons_self
  have hempty := h.seg_task (t := t) (by rw [hpc]; rfl)
  have hthis : next s last = some this := hfile.suffix.1
  refine h.rearrange ?_ (free_store (h.live _ _ hlast) (by rw [ofWord_endMark]; exact nofun)) rfl
    fun c => ?_
  · have hchains := h.chains.cut (show Owner.file i ≠ .task t by simp) hl
    rw [hthis] at hchains
    rw [next_setPc_store, head_setPc_store, ofWord_endMark]
    exact hchains
  · refine Chains.mem_exchange (by simp) (fun c => ?_) c
    rw [hl, hempty]
    simp [or_assoc]

/-- All clusters of a file go to the task. -/
theorem detach (h : Own sb s seg) (hstart : s.start i = some this)
    (hempty : pcHead (s.pc t) = none) (hfat : s'.fat = s.fat)
    (hnew : s'.start = Function.update s.start i none) (halloc : s'.allocated = s.allocated)
    (hpc : s'.pc = Function.update s.pc t pc') (hhead : pcHead pc' = some this) :
    Own sb s' (Function.update (Function.update seg (.file i) []) (.task t) (seg (.file i))) := by
  refine h.rearrange ?_ (fun c => by rw [hfat]) halloc fun c => ?_
  · have hchains := h.chains.hand (show Owner.file i ≠ .task t by simp)
    rw [head_setStart hnew hpc, hhead, Function.update_comm (by simp)]
    refine hchains.congr (fun o c _ => by rw [next, next, hfat]) fun o => ?_
    rw [show head s (.file i) = some this from hstart]
  · refine Chains.mem_exchange (by simp) (fun c => ?_) c
    rw [h.seg_task hempty]
    simp

/-- The first of the clusters of the task is freed. -/
theorem free (h : Own sb s seg) (hpc : s.pc t = .free i this) (hseg : seg (.task t) = this :: l) :
    Own sb (Clusters.setPc (store sb s this 0) t (.freed i (s.fat this)))
      (Function.update seg (.task t) l) := by
  have hfat : ∀ c, (store sb s this 0).fat c = if c = this then .free else s.fat c := by
    intro c
    change Function.update s.fat this _ c = _
    rw [ofWord_zero, Function.update_apply]
  have hnd := (h.chains.chain (.task t)).nodup
  rw [hseg] at hnd
  have hmem : ∀ o, ∀ c ∈ Function.update seg (.task t) l o, c ∈ seg o ∧ c ≠ this := by
    intro o c hc
    by_cases ho : o = .task t
    · rw [ho, Function.update_self] at hc
      rw [ho, hseg]
      refine ⟨List.mem_cons_of_mem this hc, ?_⟩
      rintro rfl
      exact (List.nodup_cons.mp hnd).1 hc
    · rw [Function.update_of_ne ho] at hc
      refine ⟨hc, ?_⟩
      rintro rfl
      exact ho (h.chains.disjoint o (.task t) c hc (hseg ▸ List.mem_cons_self))
  refine ⟨?_, fun o c hc => ?_, fun o c hc => ?_, fun c ha hc => ?_⟩
  · have hchains := h.chains.pop (v := none) hseg
    rw [next_setPc_store, head_setPc_store, ofWord_zero]
    exact hchains
  · change (store sb s this 0).fat c ≠ _
    rw [hfat, if_neg (hmem o c hc).2]
    exact h.live o c (hmem o c hc).1
  · exact h.range o c (hmem o c hc).1
  · change (store sb s this 0).fat c ≠ _ at hc
    rw [hfat] at hc
    split at hc
    · exact absurd rfl hc
    · next hct =>
      obtain ⟨o, ho⟩ := h.kept c ha hc
      refine ⟨o, ?_⟩
      by_cases hot : o = .task t
      · rw [hot, Function.update_self]
        rw [hot, hseg] at ho
        exact (List.mem_cons.mp ho).resolve_left hct
      · rw [Function.update_of_ne hot]
        exact ho

end Own

end LinuxKernel.V098.Fs.Clusters
