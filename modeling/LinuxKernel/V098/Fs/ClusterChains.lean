import LinuxKernel.V098.Fs.ClusterOwners
import LinuxKernel.V098.Fs.ClusterLocks

/-!
# LinuxKernel.V098.Fs.ClusterChains

**The chains of clusters partition the disk**, as long as `msdos_add_cluster` and `fat_free`
do not meet in one file.

- The walk to the end of a file, the link there and the cut in `fat_free` are outside the
  lock of the FAT: `Steady` says what they take for granted.
- Two tasks that add a cluster to one file at the same time lose one of the two.
-/

namespace LinuxKernel.V098.Fs.Clusters

variable {sb : Fat.Super} {s s' : State} {t u : Task} {i : Ino} {c this : Nat} {pc pc' : Pc}
  {l : List Nat} {seg : Owner → List Nat}

/-! ### The invariant -/

/-- What a task knows where it is; `l` are its clusters. -/
def PcOk (sb : Fat.Super) (s : State) (l : List Nat) : Pc → Prop
  | .scan _ count => count < sb.clusters ∧ ∀ k < count, s.fat (candidate sb s k) ≠ .free
  | .take _ this => s.fat this = .free ∧ 2 ≤ this ∧ this < sb.clusters + 2
  | .taken _ this | .walk _ this _ | .link _ this _ => l = [this]
  | .freed _ next => next ≠ .free
  | .idle | .addLock _ | .addFatLock _ | .zero | .skip _ _ _ | .cut _ _ _ | .freeLock _ _
  | .free _ _ => True

theorem PcOk.congr (h : PcOk sb s l pc)
    (hsame : holds pc = true →
      s'.previous = s.previous ∧ ∀ c, s'.fat c = .free ↔ s.fat c = .free) : PcOk sb s' l pc := by
  cases pc with
  | scan i count =>
      obtain ⟨hprev, hfree⟩ := hsame rfl
      refine ⟨h.1, fun k hk hc => h.2 k hk ?_⟩
      rw [hfree, candidate, hprev] at hc
      exact hc
  | take i this => exact ⟨((hsame rfl).2 this).mpr h.1, h.2⟩
  | idle | addLock | addFatLock | taken | walk | link | zero | skip | cut | freeLock | free
  | freed => exact h

structure Inv (sb : Fat.Super) (s : State) (seg : Owner → List Nat) : Prop where
  own : Own sb s seg
  pcs : ∀ t, PcOk sb s (seg (.task t)) (s.pc t)
  turn : Turn s
  count : Count sb s

namespace Inv

/-- What is left to say about the other tasks when one moves. -/
theorem of_step {seg' : Owner → List Nat} (h : Inv sb s seg) (own : Own sb s' seg')
    (hpc : s'.pc = Function.update s.pc t pc')
    (hseg : ∀ u, u ≠ t → seg' (.task u) = seg (.task u))
    (hsame : ∀ u, u ≠ t → holds (s.pc u) = true →
      s'.previous = s.previous ∧ ∀ c, s'.fat c = .free ↔ s.fat c = .free)
    (hok : PcOk sb s' (seg' (.task t)) pc') (turn : Turn s') (count : Count sb s') :
    Inv sb s' seg' where
  own := own
  pcs u := by
    rw [hpc]
    by_cases hu : u = t
    · rw [hu, Function.update_self]
      exact hok
    · rw [Function.update_of_ne hu, hseg u hu]
      exact (h.pcs u).congr (hsame u hu)
  turn := turn
  count := count

/-- A task moves on and changes nothing else. -/
theorem setPc (h : Inv sb s seg) (hhead : pcHead pc' = pcHead (s.pc t)) (hn : holds pc' = false)
    (howed : owed (s.pc t) = 0) (hok : PcOk sb s (seg (.task t)) pc') :
    Inv sb (setPc s t pc') seg :=
  h.of_step (h.own.setPc rfl rfl rfl rfl hhead) rfl (fun _ _ => rfl)
    (fun _ _ _ => ⟨rfl, fun _ => Iff.rfl⟩) (hok.congr fun _ => ⟨rfl, fun _ => Iff.rfl⟩)
    (h.turn.keep rfl hn rfl)
    (h.count.keep rfl (fun _ => Iff.rfl) rfl ((owed_of_not_holds hn).trans howed.symm))

/-- The locks change. -/
theorem setLocks (h : Inv sb s seg) (lock fatLock : Bool)
    (hlock : fatLock = true ∨ ∀ u, holds (s.pc u) = false) :
    Inv sb { s with lock := lock, fatLock := fatLock } seg where
  own := ⟨h.own.chains, h.own.live, h.own.range, h.own.kept⟩
  pcs u := (h.pcs u).congr fun _ => ⟨rfl, fun _ => Iff.rfl⟩
  turn := by
    refine ⟨h.turn.excl, fun u hu => hlock.resolve_right fun hall => ?_⟩
    change holds (s.pc u) = true at hu
    rw [hall u] at hu
    cases hu
  count := h.count

/-! ### `msdos_add_cluster` -/

/-- The candidates of one scan are all clusters. -/
theorem exists_candidate (hc : 2 ≤ c ∧ c < sb.clusters + 2) :
    ∃ k < sb.clusters, candidate sb s k = c := by
  have hpos : 0 < sb.clusters := by omega
  have hprev := Nat.mod_lt s.previous hpos
  refine ⟨(c - 2 + (sb.clusters - s.previous % sb.clusters)) % sb.clusters,
    Nat.mod_lt _ hpos, ?_⟩
  have hsum : c - 2 + (sb.clusters - s.previous % sb.clusters) + s.previous =
      c - 2 + sb.clusters * (s.previous / sb.clusters + 1) := by
    have := Nat.mod_add_div s.previous sb.clusters
    rw [Nat.mul_add, Nat.mul_one]
    omega
  rw [candidate, Nat.mod_add_mod, hsum, Nat.add_mul_mod_self_left, Nat.mod_eq_of_lt (by omega)]
  omega

theorem zeros_eq_zero (h : ∀ k < sb.clusters, s.fat (candidate sb s k) ≠ .free) :
    zeros sb s = 0 := by
  rw [zeros, Finset.card_eq_zero, Finset.filter_eq_empty_iff]
  intro c hc
  obtain ⟨k, hk, rfl⟩ := exists_candidate (s := s) (Finset.mem_Ico.mp hc)
  exact h k hk

theorem scan {count : Nat} (h : Inv sb s seg) (hothers : ∀ u, u ≠ t → holds (s.pc u) = false)
    (hlock : s.fatLock = true) (hhead : pcHead (s.pc t) = none) (howed : owed (s.pc t) = 0)
    (hseen : ∀ k < count, s.fat (candidate sb s k) ≠ .free) :
    Inv sb (scan sb s t i count) seg := by
  unfold Clusters.scan
  split
  · next hlt =>
    refine h.of_step (h.own.setPc rfl rfl rfl rfl hhead.symm) rfl
      (fun _ _ => rfl) (fun u hu hholds => ?_) ⟨hlt, hseen⟩ (.of_others rfl hothers fun _ => hlock)
      (h.count.keep rfl (fun _ => Iff.rfl) rfl howed.symm)
    rw [hothers u hu] at hholds
    cases hholds
  · next hge =>
    have hzero : zeros sb s = 0 := zeros_eq_zero fun k hk => hseen k (by omega)
    refine h.of_step (h.own.setPc rfl rfl rfl rfl hhead.symm) rfl
      (fun _ _ => rfl) (fun u hu hholds => ?_) trivial (.of_others rfl hothers nofun)
      (.of_holder rfl hothers (Or.inr ?_))
    · rw [hothers u hu] at hholds
      cases hholds
    · change (0 : Int) = (zeros sb s : Nat) + 0
      rw [hzero]
      rfl

theorem lockFatAdd (h : Inv sb s seg) (hhead : pcHead (s.pc t) = none)
    (hn : holds (s.pc t) = false) : Inv sb (lockFatAdd sb s t i) seg := by
  unfold Clusters.lockFatAdd
  split
  · exact h.setPc hhead.symm rfl (owed_of_not_holds hn) trivial
  · next hlock =>
    have hnobody := h.turn.nobody (by simpa using hlock)
    exact (h.setLocks s.lock true (Or.inl rfl)).scan (fun u _ => hnobody u) rfl hhead
      (owed_of_not_holds hn) fun k hk => absurd hk (Nat.not_lt_zero k)

theorem lockAdd (h : Inv sb s seg) (hhead : pcHead (s.pc t) = none)
    (hn : holds (s.pc t) = false) : Inv sb (lockAdd sb s t i) seg := by
  unfold Clusters.lockAdd
  split
  · exact h.setPc hhead.symm rfl (owed_of_not_holds hn) trivial
  · have hlocks : s.fatLock = true ∨ ∀ u, holds (s.pc u) = false := by
      cases hl : s.fatLock with
      | true => exact Or.inl rfl
      | false => exact Or.inr (h.turn.nobody hl)
    exact (h.setLocks true s.fatLock hlocks).lockFatAdd hhead hn

theorem addCluster (h : Inv sb s seg) (hidle : s.pc t = .idle) :
    Inv sb (addCluster sb s t i) seg := by
  unfold Clusters.addCluster
  split
  · exact h
  · split
    · exact h
    · exact h.lockAdd (by rw [hidle]; rfl) (by rw [hidle]; rfl)

theorem scanNext {count : Nat} (h : Inv sb s seg) (hpc : s.pc t = .scan i count) :
    Inv sb (scanNext sb s t i count) seg := by
  have hholds : holds (s.pc t) = true := by rw [hpc]; rfl
  have hothers := h.turn.others hholds
  have hok := h.pcs t
  rw [hpc] at hok
  unfold Clusters.scanNext
  split
  · next hfree =>
    refine h.of_step
      (h.own.setPc rfl rfl rfl rfl (by rw [hpc]; rfl)) rfl (fun _ _ => rfl) (fun u hu hu' => ?_)
      ⟨hfree, ?_⟩ (.of_others rfl hothers fun _ => h.turn.locked t hholds)
      (h.count.keep rfl (fun _ => Iff.rfl) rfl (by rw [hpc]; rfl))
    · rw [hothers u hu] at hu'
      cases hu'
    · have := Nat.mod_lt (count + s.previous) (Nat.zero_lt_of_lt hok.1)
      unfold candidate
      omega
  · next hlive =>
    refine h.scan hothers (h.turn.locked t hholds) (by rw [hpc]; rfl) (by rw [hpc]; rfl)
      fun k hk => ?_
    rcases Nat.lt_succ_iff_lt_or_eq.mp hk with hk | rfl
    · exact hok.2 k hk
    · exact hlive

theorem take (h : Inv sb s seg) (hpc : s.pc t = .take i this) :
    Inv sb (take sb s t i this) (Function.update seg (.task t) [this]) := by
  have hholds : holds (s.pc t) = true := by rw [hpc]; rfl
  have hothers := h.turn.others hholds
  have hok := h.pcs t
  rw [hpc] at hok
  refine h.of_step (h.own.take hpc hok.1 hok.2) rfl (fun u hu => ?_)
    (fun u hu hu' => ?_) (Function.update_self ..)
    (.of_others rfl hothers fun _ => h.turn.locked t hholds) (.of_holder rfl hothers ?_)
  · exact Function.update_of_ne (by simpa using hu) _ _
  · rw [hothers u hu] at hu'
    cases hu'
  · -- there is one zero entry less
    have hzeros := zeros_succ (s := Clusters.take sb s t i this) hok.2
      (by
        change Function.update s.fat this (Entry.ofWord sb (endMark sb)) this ≠ _
        rw [Function.update_self, ofWord_endMark]
        exact nofun)
      hok.1 fun d hd => (Function.update_of_ne hd _ _).symm
    have hcount := h.count.holder hothers
    rw [hpc] at hcount
    change s.freeClusters = -1 ∨ s.freeClusters = _ + 1
    refine hcount.imp id fun hcount => ?_
    rw [hcount, hzeros]
    simp [owed]

theorem taken (h : Inv sb s seg) (hpc : s.pc t = .taken i this) :
    ∃ seg', Inv sb (taken s t i this) seg' := by
  have hholds : holds (s.pc t) = true := by rw [hpc]; rfl
  have hothers := h.turn.others hholds
  have hseg : seg (.task t) = [this] := by
    have := h.pcs t
    rwa [hpc] at this
  have hsame : ∀ {P : Prop} u, u ≠ t → holds (s.pc u) = true → P := by
    intro P u hu hu'
    rw [hothers u hu] at hu'
    cases hu'
  have hcount : ∀ n : Nat, n = zeros sb s →
      (if s.freeClusters ≠ -1 then s.freeClusters - 1 else s.freeClusters) = -1 ∨
        (if s.freeClusters ≠ -1 then s.freeClusters - 1 else s.freeClusters) = n + 0 := by
    rintro n rfl
    have := h.count.holder hothers
    rw [hpc] at this
    change _ ∨ _ = _ + 1 at this
    split <;> omega
  unfold Clusters.taken
  cases hstart : s.start i with
  | none =>
      refine ⟨_, h.of_step (h.own.begin hstart hseg rfl rfl rfl rfl rfl) rfl
        (fun u hu => ?_) (fun u hu hu' => hsame u hu hu') trivial (.of_others rfl hothers nofun)
        (.of_holder rfl hothers (hcount _ (zeros_congr fun _ => Iff.rfl)))⟩
      rw [Function.update_of_ne (by simp), Function.update_of_ne (by simpa using hu)]
  | some current =>
      exact ⟨seg, h.of_step
        (h.own.setPc rfl rfl rfl rfl (by rw [hpc]; rfl)) rfl (fun _ _ => rfl)
        (fun u hu hu' => hsame u hu hu') hseg (.of_others rfl hothers nofun)
        (.of_holder rfl hothers (hcount _ (zeros_congr fun _ => Iff.rfl)))⟩

theorem link {last : Nat} (h : Inv sb s seg) (hpc : s.pc t = .link i this last)
    (hfile : IsFile s i (l ++ [last])) (hlt : this < 2 ^ sb.fatBits - 8) :
    Inv sb (Clusters.setPc (store sb s last this) t .zero)
      (Function.update (Function.update seg (.file i) (seg (.file i) ++ seg (.task t)))
        (.task t) []) := by
  have hseg : seg (.task t) = [this] := by
    have := h.pcs t
    rwa [hpc] at this
  have hlast : last ∈ seg (.file i) := by
    rw [(h.own.isFile i).mp hfile]
    exact List.mem_append_right l (List.mem_singleton_self last)
  have hpos := (h.own.range _ this (hseg ▸ List.mem_singleton_self this)).1
  have hfree := Own.free_store (v := this) (h.own.live _ last hlast)
    (by rw [ofWord_cluster (by omega) hlt]; exact nofun)
  refine h.of_step (h.own.link hfile hpc hseg hlt) rfl (fun u hu => ?_)
    (fun _ _ _ => ⟨rfl, hfree⟩) trivial (h.turn.keep rfl rfl rfl)
    (h.count.keep rfl hfree rfl (by rw [hpc]; rfl))
  rw [Function.update_of_ne (by simpa using hu), Function.update_of_ne (by simp)]

/-! ### `fat_free` -/

theorem cut {last : Nat} {l' : List Nat} (h : Inv sb s seg) (hpc : s.pc t = .cut i last this)
    (hfile : IsFile s i (l ++ last :: this :: l')) :
    Inv sb (Clusters.setPc (store sb s last (endMark sb)) t (.freeLock i this))
      (Function.update (Function.update seg (.file i) (l ++ [last])) (.task t) (this :: l')) := by
  have hlast : last ∈ seg (.file i) := by
    rw [(h.own.isFile i).mp hfile]
    exact List.mem_append_right l List.mem_cons_self
  have hfree := Own.free_store (v := endMark sb) (h.own.live _ last hlast)
    (by rw [ofWord_endMark]; exact nofun)
  refine h.of_step (h.own.cut hfile hpc) rfl (fun u hu => ?_)
    (fun _ _ _ => ⟨rfl, hfree⟩) trivial (h.turn.keep rfl rfl rfl)
    (h.count.keep rfl hfree rfl (by rw [hpc]; rfl))
  rw [Function.update_of_ne (by simpa using hu), Function.update_of_ne (by simp)]

/-- `lock_fat` in `fat_free`, for a task to which the detached clusters have gone. -/
theorem lockFatFree {seg' : Owner → List Nat} (h : Inv sb s seg) (hn : holds (s.pc t) = false)
    (start : Ino → Option Nat)
    (hown : ∀ s' pc', s'.fat = s.fat → s'.start = start → s'.allocated = s.allocated →
      s'.pc = Function.update s.pc t pc' → pcHead pc' = some this → Own sb s' seg')
    (hseg : ∀ u, u ≠ t → seg' (.task u) = seg (.task u)) :
    Inv sb (lockFatFree { s with start := start } t i this) seg' := by
  have howed := (owed_of_not_holds hn).symm
  unfold Clusters.lockFatFree
  split
  · exact h.of_step (hown _ _ rfl rfl rfl rfl rfl) rfl hseg
      (fun _ _ _ => ⟨rfl, fun _ => Iff.rfl⟩) trivial (h.turn.keep rfl rfl rfl)
      (h.count.keep rfl (fun _ => Iff.rfl) rfl howed)
  · next hlock =>
    have hnobody := h.turn.nobody (by simpa using hlock)
    exact h.of_step (hown _ _ rfl rfl rfl rfl rfl) rfl hseg
      (fun _ _ _ => ⟨rfl, fun _ => Iff.rfl⟩) trivial (.of_others rfl (fun u _ => hnobody u) fun _ => rfl)
      (h.count.keep rfl (fun _ => Iff.rfl) rfl howed)

theorem fatFree {skip : Nat} (h : Inv sb s seg) (hidle : s.pc t = .idle) :
    ∃ seg', Inv sb (fatFree s t i skip) seg' := by
  unfold Clusters.fatFree
  cases hstart : s.start i with
  | none => exact ⟨seg, h⟩
  | some this =>
      cases skip with
      | zero =>
          refine ⟨_, h.lockFatFree (by rw [hidle]; rfl) (Function.update s.start i none)
            (fun s' pc' hfat hnew halloc hpc hhead =>
              h.own.detach hstart (by rw [hidle]; rfl) hfat hnew halloc hpc hhead) fun u hu => ?_⟩
          rw [Function.update_of_ne (by simpa using hu), Function.update_of_ne (by simp)]
      | succ n => exact ⟨seg, h.setPc (by rw [hidle]; rfl) rfl (by rw [hidle]; rfl) trivial⟩

theorem skipNext {n : Nat} (h : Inv sb s seg) (hpc : s.pc t = .skip i n this) :
    Inv sb (skipNext s t i n this) seg := by
  have hmove : ∀ pc', pcHead pc' = none → holds pc' = false → PcOk sb s (seg (.task t)) pc' →
      Inv sb (Clusters.setPc s t pc') seg := fun pc' hhead hn hok =>
    h.setPc (by rw [hpc]; exact hhead) hn (by rw [hpc]; rfl) hok
  unfold Clusters.skipNext
  cases s.fat this with
  | free => exact hmove _ rfl rfl trivial
  | eof => exact hmove _ rfl rfl trivial
  | cluster c =>
      cases n with
      | zero => exact hmove _ rfl rfl trivial
      | succ n => exact hmove _ rfl rfl trivial

theorem free (h : Inv sb s seg) (hpc : s.pc t = .free i this) :
    ∃ seg', Inv sb (Clusters.setPc (store sb s this 0) t (.freed i (s.fat this))) seg' := by
  have hholds : holds (s.pc t) = true := by rw [hpc]; rfl
  have hothers := h.turn.others hholds
  have hhead : head s (.task t) = some this := congrArg pcHead hpc
  obtain ⟨l, hseg⟩ := h.own.chains.seg_of_some hhead
  have hthis : this ∈ seg (.task t) := hseg ▸ List.mem_cons_self
  have hlive := h.own.live _ this hthis
  have hfat : (store sb s this 0).fat this = .free := by
    change Function.update s.fat this _ this = _
    rw [Function.update_self, ofWord_zero]
  refine ⟨_, h.of_step (h.own.free hpc hseg) rfl (fun u hu => ?_)
    (fun u hu hu' => ?_) hlive (.of_others rfl hothers fun _ => h.turn.locked t hholds)
    (.of_holder rfl hothers ?_)⟩
  · exact Function.update_of_ne (by simpa using hu) _ _
  · rw [hothers u hu] at hu'
    cases hu'
  · -- there is one zero entry more
    have hzeros := zeros_succ (s := s)
      (h.own.range _ this hthis) hlive hfat fun d hd => Function.update_of_ne hd _ _
    have hcount := h.count.holder hothers
    rw [hpc] at hcount
    change s.freeClusters = -1 ∨ s.freeClusters = (zeros sb (store sb s this 0) : Int) + -1
    refine hcount.imp id fun hcount => ?_
    rw [hcount, hzeros]
    simp [owed]

theorem freeNext {next : Entry} (h : Inv sb s seg) (hpc : s.pc t = .freed i next) :
    (freeNext s t i next).Ends (fun _ => False) fun s' => Inv sb s' seg := by
  have hholds : holds (s.pc t) = true := by rw [hpc]; rfl
  have hothers := h.turn.others hholds
  have hok := h.pcs t
  rw [hpc] at hok
  have hmove : ∀ s' pc', s'.fat = s.fat → s'.start = s.start → s'.allocated = s.allocated →
      s'.previous = s.previous → s'.pc = Function.update s.pc t pc' →
      s'.freeClusters =
        (if s.freeClusters ≠ -1 then { s with freeClusters := s.freeClusters + 1 } else s).freeClusters →
      pcHead pc' = next.next → owed pc' = 0 → PcOk sb s' (seg (.task t)) pc' →
      (holds pc' = true → s'.fatLock = true) → Inv sb s' seg := by
    intro s' pc' hfat hstart halloc hprev hpc' hfc hhead howed hok' hlock
    refine h.of_step (h.own.setPc hfat hstart halloc hpc' (by rw [hpc]; exact hhead)) hpc'
      (fun _ _ => rfl) (fun _ _ _ => ⟨hprev, fun c => by rw [hfat]⟩) hok'
      (.of_others hpc' hothers hlock) (.of_holder hpc' hothers ?_)
    have hcount := h.count.holder hothers
    rw [hpc] at hcount
    change _ ∨ _ = _ + -1 at hcount
    rw [hfc, howed, zeros_congr (s := s) fun c => by rw [hfat]]
    split
    · change s.freeClusters + 1 = -1 ∨ s.freeClusters + 1 = _
      omega
    · omega
  unfold Clusters.freeNext
  cases next with
  | free => exact absurd rfl hok
  | cluster c =>
      refine hmove _ (.free i c) ?_ ?_ ?_ ?_ ?_ rfl rfl rfl trivial fun _ => ?_
      all_goals
        dsimp only [Clusters.setPc]
        split <;> first | rfl | exact h.turn.locked t hholds
  | eof =>
      refine hmove _ .idle ?_ ?_ ?_ ?_ ?_ rfl rfl rfl trivial nofun
      all_goals
        dsimp only [Clusters.setPc, cacheInvalInode]
        split <;> rfl

theorem walk {current : Nat} (h : Inv sb s seg) (hpc : s.pc t = .walk i this current)
    (hfile : IsFile s i l) (hmem : current ∈ l) :
    (walk s t i this current).Ends (fun _ => False) fun s' => Inv sb s' seg := by
  have hmove : ∀ pc', pcHead pc' = some this → holds pc' = false → PcOk sb s (seg (.task t)) pc' →
      Inv sb (Clusters.setPc s t pc') seg := fun pc' hhead hn hok =>
    h.setPc (by rw [hpc]; exact hhead) hn (by rw [hpc]; rfl) hok
  have hseg : seg (.task t) = [this] := by
    have := h.pcs t
    rwa [hpc] at this
  have hlive := h.own.live (.file i) current (by rw [(h.own.isFile i).mp hfile]; exact hmem)
  unfold Clusters.walk
  cases hc : s.fat current with
  | free => exact absurd hc hlive
  | cluster c => exact hmove _ rfl rfl hseg
  | eof => exact hmove _ rfl rfl hseg

/-! ### Every step keeps the invariant -/

theorem go (h : Inv sb s seg) (hok : Steady sb s (.go t)) :
    (go sb s t).Ends (fun _ => False) fun s' => ∃ seg', Inv sb s' seg' := by
  unfold Clusters.go
  unfold Steady at hok
  cases hpc : s.pc t with
  | idle => trivial
  | addLock i => exact ⟨seg, h.lockAdd (by rw [hpc]; rfl) (by rw [hpc]; rfl)⟩
  | addFatLock i => exact ⟨seg, h.lockFatAdd (by rw [hpc]; rfl) (by rw [hpc]; rfl)⟩
  | scan i count => exact ⟨seg, h.scanNext hpc⟩
  | take i this => exact ⟨_, h.take hpc⟩
  | taken i this => exact h.taken hpc
  | walk i this current =>
      simp only [hpc] at hok
      obtain ⟨l, hfile, hmem⟩ := hok
      exact (h.walk hpc hfile hmem).mono fun s' h' => ⟨seg, h'⟩
  | link i this last =>
      simp only [hpc] at hok
      obtain ⟨⟨l, hfile⟩, hlt⟩ := hok
      exact ⟨_, h.link hpc hfile hlt⟩
  | zero => exact ⟨seg, h.setPc (by rw [hpc]; rfl) rfl (by rw [hpc]; rfl) trivial⟩
  | skip i n this => exact ⟨seg, h.skipNext hpc⟩
  | cut i last this =>
      simp only [hpc] at hok
      obtain ⟨l, l', hfile⟩ := hok
      exact ⟨_, h.cut hpc hfile⟩
  | freeLock i this =>
      refine ⟨seg, h.lockFatFree (by rw [hpc]; rfl) s.start (fun s' pc' hfat hnew halloc hpc' hhead =>
        h.own.setPc hfat hnew halloc hpc' ?_) fun _ _ => rfl⟩
      rw [hpc, hhead]
      rfl
  | free i this => exact h.free hpc
  | freed i next => exact (h.freeNext hpc).mono fun s' h' => ⟨seg, h'⟩

theorem step {a : Act} (h : Inv sb s seg) (hok : Steady sb s a) :
    (step sb s a).Ends (fun _ => False) fun s' => ∃ seg', Inv sb s' seg' := by
  cases a with
  | addCluster t i =>
      change (if s.pc t = .idle then .next (Clusters.addCluster sb s t i) else .disabled :
        Outcome State).Ends _ _
      split
      · next hidle => exact ⟨seg, h.addCluster hidle⟩
      · trivial
  | fatFree t i skip =>
      change (if s.pc t = .idle then .next (Clusters.fatFree s t i skip) else .disabled :
        Outcome State).Ends _ _
      split
      · next hidle => exact h.fatFree hidle
      · trivial
  | go t => exact h.go hok

theorem partition (h : Inv sb s seg) (hquiet : Quiet s) : Partition sb s where
  file i := ⟨seg (.file i), h.own.chains.chain (.file i)⟩
  nodup i l hl := hl.nodup
  endMark i l c hl := by
    have hnext : (s.fat c).next = none := hl.last_next
    have hlive := h.own.live (.file i) c (by rw [(h.own.isFile i).mp hl]; simp)
    cases hc : s.fat c with
    | free => exact absurd hc hlive
    | cluster d =>
        rw [hc] at hnext
        cases hnext
    | eof => rfl
  disjoint i j l l' hl hl' hij c hc hc' := by
    rw [← (h.own.isFile i).mp hl] at hc
    rw [← (h.own.isFile j).mp hl'] at hc'
    exact hij (by simpa using h.own.chains.disjoint _ _ c hc hc')
  kept c ha hc := by
    obtain ⟨o, ho⟩ := h.own.kept c ha hc
    cases o with
    | file i => exact ⟨i, seg (.file i), h.own.chains.chain (.file i), ho⟩
    | task t =>
        rw [h.own.seg_task (by rw [hquiet t]; rfl)] at ho
        exact absurd ho List.not_mem_nil
  count := h.count.imp id fun h => h.1 fun t => by rw [hquiet t]; rfl

theorem sound (h : Inv sb s seg) : Sound sb s where
  partition := h.partition
  noPanic a m hok hs := by
    have := h.step hok
    rw [hs] at this
    exact this

end Inv

/-- The clusters of files are in use. -/
theorem Partition.live (h : Partition sb s) (hl : IsFile s i l) (hc : c ∈ l) : s.fat c ≠ .free := by
  obtain ⟨l₁, l₂, rfl⟩ := List.append_of_mem hc
  intro hfree
  have hrest := hl.suffix
  cases l₂ with
  | nil =>
      rw [h.endMark i l₁ c hl] at hfree
      cases hfree
  | cons d l₂ =>
      have hnext : (s.fat c).next = some d := hrest.1
      rw [hfree] at hnext
      cases hnext

/-- Before the first call only the files have clusters. -/
def initialSeg (files : Nat → List Nat) : Owner → List Nat
  | .file i => files i
  | .task _ => []

theorem Init.inv (h : Init sb s) : ∃ seg, Inv sb s seg := by
  choose files hfiles using h.partition.file
  have hmem : ∀ o, ∀ c ∈ initialSeg files o, ∃ i, c ∈ files i := by
    intro o c hc
    cases o with
    | file i => exact ⟨i, hc⟩
    | task t => exact absurd hc List.not_mem_nil
  have hnone : ∀ t, holds (s.pc t) = false := fun t => by rw [h.quiet t]; rfl
  refine ⟨initialSeg files, ⟨⟨fun o => ?_, fun o o' c ho ho' => ?_⟩,
    fun o c hc => ?_, fun o c hc => ?_, fun c hc => ?_⟩, fun t => ?_, ⟨?_, ?_⟩, ?_⟩
  · cases o with
    | file i => exact hfiles i
    | task t =>
        change pcHead (s.pc t) = none
        rw [h.quiet t]
        rfl
  · cases o with
    | file i =>
        cases o' with
        | file j =>
            by_contra hne
            exact h.partition.disjoint i j _ _ (hfiles i) (hfiles j)
              (fun he => hne (congrArg Owner.file he)) ho ho'
        | task u => exact absurd ho' List.not_mem_nil
    | task t => exact absurd ho List.not_mem_nil
  · obtain ⟨i, hi⟩ := hmem o c hc
    exact h.partition.live (hfiles i) hi
  · obtain ⟨i, hi⟩ := hmem o c hc
    exact h.range i _ (hfiles i) c hi
  · rw [h.allocated c] at hc
    cases hc
  · rw [h.quiet t]
    trivial
  · intro t u ht
    rw [hnone t] at ht
    cases ht
  · intro t ht
    rw [hnone t] at ht
    cases ht
  · refine h.partition.count.imp id fun hcount => ⟨fun _ => hcount, fun t ht => ?_⟩
    exact absurd (owed_of_not_holds (hnone t)) ht

/-- **The chains partition the disk and nobody panics** in every steady run. -/
theorem sound_of_steady (h : Init sb s) (hr : Reaches (step sb) (Steady sb) s s') :
    Sound sb s' := by
  obtain ⟨seg, hinv⟩ := hr.invariant (P := fun s => ∃ seg, Inv sb s seg) h.inv
    fun u a u' ⟨seg, hi⟩ hok hs => (hi.step hok).of_next hs
  exact hinv.sound

/-! ### A run with one task -/

def disk : Fat.Super := Fat.fourClusters

/-- File 5 has cluster 2. -/
def oneFile : State where
  fat c := if c = 2 then .eof else .free
  start i := if i = 5 then some 2 else none
  freeClusters := 3
  lock := false
  fatLock := false
  previous := 0
  cache := []
  pc _ := .idle
  allocated _ := false

theorem isFile_oneFile (hl : IsFile oneFile i l) : l = if i = 5 then [2] else [] := by
  refine hl.unique ?_
  split
  · next hi =>
    subst hi
    exact ⟨rfl, rfl⟩
  · next hi => exact if_neg hi

theorem init_oneFile : Init disk oneFile where
  quiet _ := rfl
  lock := rfl
  fatLock := rfl
  allocated _ := rfl
  partition := {
    file i := by
      by_cases hi : i = 5
      · exact ⟨[2], by subst hi; exact ⟨rfl, rfl⟩⟩
      · exact ⟨[], if_neg hi⟩
    nodup i l hl := hl.nodup
    endMark i l c hl := by
      have h := isFile_oneFile hl
      split at h
      · have hc : c ∈ [2] := h ▸ List.mem_append_right l (List.mem_singleton_self c)
        rw [List.mem_singleton.mp hc]
        rfl
      · simp at h
    disjoint i j l l' hl hl' hij c hc hc' := by
      rw [isFile_oneFile hl] at hc
      rw [isFile_oneFile hl'] at hc'
      split at hc
      · next hi =>
        rw [if_neg (fun hj => hij (hi.trans hj.symm))] at hc'
        exact List.not_mem_nil hc'
      · exact List.not_mem_nil hc
    kept c hc := by cases hc
    count := Or.inr (by decide) }
  range i l hl c hc := by
    rw [isFile_oneFile hl] at hc
    split at hc
    · rw [List.mem_singleton.mp hc]
      decide
    · exact absurd hc List.not_mem_nil

/-- The condition on a step of a task at `pc`, with the clusters of the file to check it. -/
def SteadyWith (sb : Fat.Super) (l l' : List Nat) (s : State) : Pc → Prop
  | .walk i _ current => Chain (next s) (s.start i) (l ++ current :: l')
  | .link i this last => Chain (next s) (s.start i) (l ++ [last]) ∧ this < 2 ^ sb.fatBits - 8
  | .cut i last this => Chain (next s) (s.start i) (l ++ last :: this :: l')
  | _ => True

instance (l l' : List Nat) : ∀ pc, Decidable (SteadyWith sb l l' s pc)
  | .walk i _ current => inferInstanceAs (Decidable (Chain (next s) (s.start i) (l ++ current :: l')))
  | .link i this last =>
      inferInstanceAs (Decidable (Chain (next s) (s.start i) (l ++ [last]) ∧
        this < 2 ^ sb.fatBits - 8))
  | .cut i last this =>
      inferInstanceAs (Decidable (Chain (next s) (s.start i) (l ++ last :: this :: l')))
  | .idle | .addLock _ | .addFatLock _ | .scan _ _ | .take _ _ | .taken _ _ | .zero | .skip _ _ _
  | .freeLock _ _ | .free _ _ | .freed _ _ => isTrue trivial

theorem SteadyWith.steady (l l' : List Nat) (h : SteadyWith sb l l' s (s.pc t)) :
    Steady sb s (.go t) := by
  unfold Steady
  cases hpc : s.pc t with
  | walk i this current =>
      rw [hpc] at h
      simp only [hpc]
      exact ⟨_, h, by simp⟩
  | link i this last =>
      rw [hpc] at h
      simp only [hpc]
      exact ⟨⟨l, h.1⟩, h.2⟩
  | cut i last this =>
      rw [hpc] at h
      simp only [hpc]
      exact ⟨l, l', h⟩
  | idle | addLock | addFatLock | scan | take | taken | zero | skip | freeLock | free | freed =>
      simp only [hpc]

/-- A cluster is added to file 5, and the file cut to one cluster again. -/
def steadyRun : List Act :=
  [.addCluster 1 5, .go 1, .go 1, .go 1, .go 1, .go 1, .go 1, .go 1,
    .fatFree 1 5 1, .go 1, .go 1, .go 1, .go 1, .go 1]

theorem sound_of_steady_steadyRun : Sound disk ((run (step disk) oneFile steadyRun).get oneFile) :=
  sound_of_steady init_oneFile
    (.of_run (Outcome.eq_next (by decide) oneFile) (by
      repeat' first
        | exact True.intro
        | refine RunOk.cons (SteadyWith.steady [] [] (by decide)) ?_
        | refine RunOk.cons True.intro ?_))

/-! ### Two tasks at the end of one file -/

/-- Tasks 1 and 2 add a cluster to file 5, and have both found cluster 2 as its end before
either links its own. -/
def lostRun : List Act :=
  [.addCluster 1 5, .go 1, .go 1, .go 1, .go 1, .addCluster 2 5, .go 2, .go 2, .go 2,
    .go 1, .go 2, .go 1, .go 2, .go 1, .go 2]

/-- The task that an action is of. -/
def actor : Act → Task
  | .addCluster t _ | .fatFree t _ _ | .go t => t

section Others

variable {a : Act} (hu : u ≠ t)
include hu

theorem setPc_others : (setPc s t pc').pc u = s.pc u := Function.update_of_ne hu _ _

theorem scan_others {count : Nat} : (scan sb s t i count).pc u = s.pc u := by
  unfold scan
  split <;> exact setPc_others hu

theorem lockFatAdd_others : (lockFatAdd sb s t i).pc u = s.pc u := by
  unfold lockFatAdd
  split
  · exact setPc_others hu
  · exact scan_others hu

theorem lockAdd_others : (lockAdd sb s t i).pc u = s.pc u := by
  unfold lockAdd
  split
  · exact setPc_others hu
  · exact lockFatAdd_others hu

theorem lockFatFree_others : (lockFatFree s t i this).pc u = s.pc u := by
  unfold lockFatFree
  split <;> exact setPc_others hu

theorem freeNext_others {next : Entry} :
    (freeNext s t i next).Ends (fun _ => True) fun s' => s'.pc u = s.pc u := by
  have hpc : (if s.freeClusters ≠ -1 then { s with freeClusters := s.freeClusters + 1 }
      else s).pc u = s.pc u := by
    split <;> rfl
  cases next with
  | free => trivial
  | cluster c => exact (setPc_others hu).trans hpc
  | eof => exact (setPc_others hu).trans hpc

theorem go_others : (go sb s t).Ends (fun _ => True) fun s' => s'.pc u = s.pc u := by
  unfold go
  split
  · trivial
  · exact lockAdd_others hu
  · exact lockFatAdd_others hu
  · rw [Outcome.ends_next, scanNext]
    split
    · exact setPc_others hu
    · exact scan_others hu
  · exact setPc_others hu
  · rw [Outcome.ends_next, taken]
    split <;> exact setPc_others hu
  · unfold walk
    split
    · trivial
    · exact setPc_others hu
    · exact setPc_others hu
  · exact setPc_others hu
  · exact setPc_others hu
  · rw [Outcome.ends_next, skipNext]
    split
    · exact setPc_others hu
    · exact setPc_others hu
    · split <;> exact setPc_others hu
  · exact setPc_others hu
  · exact lockFatFree_others hu
  · exact setPc_others hu
  · exact freeNext_others hu

end Others

/-- Whoever runs, the others stay where they are. -/
theorem step_others {a : Act} (hu : u ≠ actor a) :
    (step sb s a).Ends (fun _ => True) fun s' => s'.pc u = s.pc u := by
  cases a with
  | addCluster t i =>
      change (if s.pc t = .idle then .next (addCluster sb s t i) else .disabled :
        Outcome State).Ends _ _
      split
      · rw [Outcome.ends_next, addCluster]
        split
        · rfl
        · split
          · rfl
          · exact lockAdd_others hu
      · trivial
  | fatFree t i skip =>
      change (if s.pc t = .idle then .next (fatFree s t i skip) else .disabled :
        Outcome State).Ends _ _
      split
      · rw [Outcome.ends_next, fatFree]
        split
        · rfl
        · split
          · exact lockFatFree_others hu
          · exact setPc_others hu
      · trivial
  | go t => exact go_others hu

theorem clusters_not_sound :
    ∃ s, Init disk oneFile ∧ run (step disk) oneFile lostRun = .next s ∧ ¬ Sound disk s := by
  have hrun := Outcome.eq_next (show (run (step disk) oneFile lostRun).isNext = true by
    decide) oneFile
  refine ⟨_, init_oneFile, hrun, fun h => ?_⟩
  have hquiet : Quiet ((run (step disk) oneFile lostRun).get oneFile) := by
    intro u
    by_cases h1 : u = 1
    · subst h1
      decide
    · by_cases h2 : u = 2
      · subst h2
        decide
      · refine run_keeps (fun s => s.pc u) (fun a ha t t' hs => (step_others ?_).of_next hs) hrun
        have hact : actor a = 1 ∨ actor a = 2 := by
          clear hs
          revert a
          decide
        rcases hact with ha | ha <;> rw [ha] <;> assumption
  obtain ⟨i, l, hl, hmem⟩ := (h.partition hquiet).kept 3 (by decide) (by decide +kernel)
  have hstart : ((run (step disk) oneFile lostRun).get oneFile).start = oneFile.start := rfl
  by_cases hi : i = 5
  · subst hi
    have hfile : IsFile ((run (step disk) oneFile lostRun).get oneFile) 5 [2, 4] := by
      unfold IsFile
      decide
    rw [Chain.unique hl hfile] at hmem
    exact absurd hmem (by decide)
  · have hfile : IsFile ((run (step disk) oneFile lostRun).get oneFile) i [] := by
      unfold IsFile
      rw [hstart]
      exact if_neg hi
    rw [Chain.unique hl hfile] at hmem
    exact List.not_mem_nil hmem

end LinuxKernel.V098.Fs.Clusters
