import LinuxKernel.V098.Fs.FatCache

/-!
# LinuxKernel.V098.Fs.FatCacheSound

The cache **agrees with the FAT**, and its list stays whole.

- `Right`: a valid entry names the cluster that the chain has at its place, if the file has a
  first cluster at all. `get_cluster` does not look at the cache of a file that has none.
-/

namespace LinuxKernel.V098.Fs.FatCache

open Clusters (Ino Task Entry)

variable {sb : Dev → Fat.Super} {s s' : State} {d : Dev} {i : Ino} {t : Task} {c f n : Nat}
  {fat : Nat → Entry} {start : Option Nat} {v : Entry}

/-! ### Along the chain -/

theorem plainWalk_add (m n : Nat) :
    plainWalk fat start (m + n) = plainWalk fat (plainWalk fat start m) n := by
  induction n with
  | zero => rfl
  | succ n ih => rw [← Nat.add_assoc, plainWalk, ih, plainWalk]

theorem plainWalk_none : plainWalk fat none n = none := by
  induction n with
  | zero => rfl
  | succ n ih => rw [plainWalk, ih, Option.bind_none]

/-- A store behind which nothing is asked for. -/
theorem plainWalk_update (h : ∀ m < n, plainWalk fat start m ≠ some c) :
    plainWalk (Function.update fat c v) start n = plainWalk fat start n := by
  induction n with
  | zero => rfl
  | succ n ih =>
      rw [plainWalk, plainWalk, ih fun m hm => h m (Nat.lt_succ_of_lt hm)]
      refine Option.bind_congr fun b hb => ?_
      rw [Function.update_of_ne]
      rintro rfl
      exact h n (Nat.lt_succ_self n) hb

/-! ### The entries -/

def Right (s : State) (e : Slot) : Prop :=
  0 < e.fileCluster ∧ ((s.dev e.device).start e.ino ≠ none →
    place s e.device e.ino e.fileCluster = some e.diskCluster)

structure Inv (s : State) : Prop where
  list : ∃ l, Chain s.next s.fatCache l ∧ l.Nodup ∧ ∀ w, w ∈ l ↔ w < FAT_CACHE
  right : ∀ e ∈ slots s, e.device ≠ 0 → Right s e
  get : ∀ d t i cluster count this, s.get d t = .walk i cluster count this → count < cluster

theorem length_of_mem {l : List Nat} (hnd : l.Nodup) (hl : ∀ w, w ∈ l ↔ w < FAT_CACHE) :
    l.length = FAT_CACHE := by
  have hperm : l.Perm (List.range FAT_CACHE) :=
    (List.perm_ext_iff_of_nodup hnd List.nodup_range).mpr fun w => by rw [hl, List.mem_range]
  rw [hperm.length_eq, List.length_range]

theorem entries_eq {l : List Nat} (hc : Chain s.next s.fatCache l) (hlen : l.length = FAT_CACHE) :
    entries s = l := by
  rw [entries, hc.follow_eq (Nat.le_of_eq hlen), Option.getD_some]

namespace Inv

theorem of_init (h : Init s) : Inv s where
  list := ⟨_, h.list, List.nodup_range, fun _ => List.mem_range⟩
  right e he hd := by
    obtain ⟨w, -, rfl⟩ := List.mem_map.mp he
    exact absurd (h.device w) hd
  get d t i cluster count this hpc := by
    rw [h.get] at hpc
    cases hpc

/-! ### Looking up -/

theorem cacheLookup (h : Inv s) (hd : d ≠ 0) (hstart : (s.dev d).start i ≠ none) (cluster : Nat)
    (cache : List Clusters.CacheEntry) (hsub : ∀ e ∈ cache, e ∈ view s d) {fClu dClu : Nat}
    (hf : fClu ≤ cluster) (hp : place s d i fClu = some dClu) :
    (Clusters.cacheLookup i cluster cache fClu dClu).1 ≤ cluster ∧
      place s d i (Clusters.cacheLookup i cluster cache fClu dClu).1 =
        some (Clusters.cacheLookup i cluster cache fClu dClu).2 := by
  induction cache generalizing fClu dClu with
  | nil => exact ⟨hf, hp⟩
  | cons e cache ih =>
      have hsub' := fun e' he' => hsub e' (List.mem_cons_of_mem e he')
      rw [Clusters.cacheLookup]
      split
      · next he =>
          have hplace : place s d i e.fileCluster = some e.diskCluster := by
            obtain ⟨e', he', rfl⟩ := List.mem_map.mp (hsub e List.mem_cons_self)
            obtain ⟨hin, hdev⟩ := List.mem_filter.mp he'
            obtain rfl := of_decide_eq_true hdev
            obtain rfl : i = e'.ino := he.1
            exact (h.right e' hin hd).2 hstart
          split
          · exact ⟨he.2.1, hplace⟩
          · exact ih hsub' he.2.1 hplace
      · exact ih hsub' hf hp

theorem lookup (h : Inv s) (hd : d ≠ 0) (i : Ino) (n : Nat) : lookup s d i n = place s d i n := by
  unfold FatCache.lookup
  cases hs : (s.dev d).start i with
  | none =>
      rw [place, hs, plainWalk_none]
  | some this =>
      dsimp only
      split
      · next hn => rw [hn, place, plainWalk, hs]
      · obtain ⟨hle, hp⟩ := h.cacheLookup hd (by rw [hs]; exact Option.some_ne_none this) n (view s d)
          (fun e he => he) (Nat.zero_le n) (show place s d i 0 = some this by rw [place, plainWalk, hs])
        rw [← hp, place, place, ← plainWalk_add, Nat.add_sub_cancel' hle]

theorem sound (h : Inv s) : Sound s := ⟨fun _ i n hd => h.lookup hd i n, h.list⟩

/-! ### `cache_add` -/

/-- What `cache_add` leaves in the cache was there, or is the new entry. -/
theorem of_slots (h : Inv s) (hl : ∃ l, Chain s'.next s'.fatCache l ∧ l.Nodup ∧ ∀ w, w ∈ l ↔ w < FAT_CACHE)
    (hdev : s'.dev = s.dev) (hget : s'.get = s.get) {e' : Slot} (he' : e'.device ≠ 0 → Right s e')
    (hs : ∀ w, s'.slot w = s.slot w ∨ s'.slot w = e') : Inv s' where
  list := hl
  right e he hd := by
    have hright : ∀ e, Right s e → Right s' e := fun e hr => by
      rw [Right, place, hdev]
      exact hr
    obtain ⟨l', hc', hnd', hmem'⟩ := hl
    obtain ⟨l, hc, hnd, hmem⟩ := h.list
    rw [slots, entries_eq hc' (length_of_mem hnd' hmem')] at he
    obtain ⟨w, hw, rfl⟩ := List.mem_map.mp he
    rcases hs w with hw' | hw'
    · rw [hw'] at hd ⊢
      refine hright _ (h.right _ ?_ hd)
      rw [slots, entries_eq hc (length_of_mem hnd hmem)]
      exact List.mem_map_of_mem ((hmem w).mpr ((hmem' w).mp hw))
    · rw [hw'] at hd ⊢
      exact hright _ (he' hd)
  get := by
    rw [hget]
    exact h.get

/-- The list with an entry in front. -/
theorem list_relink {l₁ l₃ : List Nat} {w p : Nat} (hc : Chain s.next s.fatCache (l₁ ++ p :: w :: l₃))
    (hl : ∀ x, x ∈ l₁ ++ p :: w :: l₃ ↔ x < FAT_CACHE) :
    ∃ l, Chain (relink s w p).next (relink s w p).fatCache l ∧ l.Nodup ∧ ∀ x, x ∈ l ↔ x < FAT_CACHE := by
  have hfront := hc.toFront
  refine ⟨_, hfront, hfront.nodup, fun x => ?_⟩
  rw [← hl]
  simp only [List.mem_cons, List.mem_append]
  tauto

theorem cacheAdd (h : Inv s) {e : Slot} (he : e.device ≠ 0 → Right s e)
    (hsame : ∀ e' ∈ slots s, isFor e.device e.ino e.fileCluster e' = true →
      e'.diskCluster = e.diskCluster) :
    ∃ s', FatCache.cacheAdd s e.device e.ino e.fileCluster e.diskCluster = .next s' ∧ Inv s' := by
  obtain ⟨l, hc, hnd, hmem⟩ := h.list
  have hlen := length_of_mem hnd hmem
  have hslots : slots s = l.map s.slot := by rw [slots, entries_eq hc hlen]
  unfold FatCache.cacheAdd
  rcases hc.walkPrev_cases (P := fun w => s.next w = none || isFor e.device e.ino e.fileCluster (s.slot w))
      (Nat.le_of_eq hlen) none with ⟨hall, -⟩ | ⟨l₁, w, l₂, rfl, hw, -, hwalk⟩
  · -- the loop does not go past the last entry
    rcases List.eq_nil_or_concat l with rfl | ⟨l', p, rfl⟩
    · cases hlen
    · rw [List.concat_eq_append] at hc hall
      have := hall p (List.mem_append_right l' List.mem_cons_self)
      rw [hc.next_eq] at this
      cases this
  · rw [hwalk, Option.or_none]
    have hnext := hc.next_eq
    dsimp only
    split
    · next hlast =>
        rw [hlast] at hnext
        obtain rfl := List.head?_eq_none_iff.mp hnext.symm
        rcases List.eq_nil_or_concat l₁ with rfl | ⟨l', p, rfl⟩
        · cases hlen
        · rw [List.concat_eq_append, List.append_assoc, List.singleton_append] at hc hmem
          rw [List.concat_eq_append, List.getLast?_concat]
          refine ⟨_, rfl, h.of_slots (list_relink (s := setSlot s w e) hc hmem) rfl rfl he fun x => ?_⟩
          change Function.update s.slot w e x = _ ∨ Function.update s.slot w e x = _
          by_cases hx : x = w
          · rw [hx, Function.update_self]
            exact Or.inr rfl
          · rw [Function.update_of_ne hx]
            exact Or.inl rfl
    · next hlast =>
        have hfor : isFor e.device e.ino e.fileCluster (s.slot w) = true := by
          rw [Bool.or_eq_true, decide_eq_true_eq] at hw
          exact hw.resolve_left hlast
        have hin : s.slot w ∈ slots s := by
          rw [hslots]
          exact List.mem_map_of_mem (List.mem_append_right l₁ List.mem_cons_self)
        rw [if_neg (not_not_intro (hsame _ hin hfor))]
        rcases List.eq_nil_or_concat l₁ with rfl | ⟨l', p, rfl⟩
        · exact ⟨s, rfl, h⟩
        · rw [List.concat_eq_append, List.append_assoc, List.singleton_append] at hc hmem
          rw [List.concat_eq_append, List.getLast?_concat]
          exact ⟨_, rfl, h.of_slots (list_relink hc hmem) rfl rfl he fun x => Or.inl rfl⟩

/-! ### `get_cluster` -/

theorem setGet (h : Inv s) {pc : GetPc}
    (hpc : ∀ i cluster count this, pc = .walk i cluster count this → count < cluster) :
    Inv (setGet s d t pc) where
  list := h.list
  right := h.right
  get d' t' i cluster count this hwalk := by
    by_cases hd : d' = d
    · subst hd
      change Function.update s.get d' _ d' t' = _ at hwalk
      rw [Function.update_self] at hwalk
      by_cases ht : t' = t
      · rw [ht, Function.update_self] at hwalk
        exact hpc i cluster count this hwalk
      · rw [Function.update_of_ne ht] at hwalk
        exact h.get d' t' i cluster count this hwalk
    · change Function.update s.get d _ d' t' = _ at hwalk
      rw [Function.update_of_ne hd] at hwalk
      exact h.get d' t' i cluster count this hwalk

theorem setIdle (h : Inv s) (d : Dev) (t : Task) : Inv (FatCache.setGet s d t .idle) :=
  h.setGet fun _ _ _ _ hk => nomatch hk

theorem getDone (h : Inv s) {cluster this : Nat} (hpos : 0 < cluster)
    (hplace : (s.dev d).start i ≠ none → place s d i cluster = some this)
    (hsame : ∀ e ∈ slots s, isFor d i cluster e = true → e.diskCluster = this) (moved : Bool) :
    ∃ s', getDone s d t i cluster this moved = .next s' ∧ Inv s' := by
  unfold FatCache.getDone
  dsimp only
  split
  · exact ⟨_, rfl, h.setIdle d t⟩
  · exact (h.setIdle d t).cacheAdd (e := ⟨d, i, cluster, this⟩) (fun _ => ⟨hpos, hplace⟩) hsame

/-- Of a file with clusters the cache has nothing but what is right. -/
theorem same (h : Inv s) (hd : d ≠ 0) (hstart : (s.dev d).start i ≠ none) {cluster this : Nat}
    (hplace : place s d i cluster = some this) :
    ∀ e ∈ slots s, isFor d i cluster e = true → e.diskCluster = this := by
  intro e he hfor
  simp only [isFor, Bool.and_eq_true, decide_eq_true_eq] at hfor
  obtain ⟨⟨rfl, rfl⟩, rfl⟩ := hfor
  have := (h.right e he hd).2 hstart
  rw [hplace] at this
  exact (Option.some.inj this).symm

theorem getCluster (h : Inv s) (hd : d ≠ 0) (cluster : Nat) (moved : Bool) :
    ∃ s', getCluster s d t i cluster moved = .next s' ∧ Inv s' := by
  unfold FatCache.getCluster
  cases hs : (s.dev d).start i with
  | none => exact ⟨s, rfl, h⟩
  | some this =>
      have hstart : (s.dev d).start i ≠ none := by
        rw [hs]
        exact Option.some_ne_none this
      dsimp only
      split
      · exact ⟨s, rfl, h⟩
      · next hcluster =>
          obtain ⟨hle, hp⟩ := h.cacheLookup hd hstart cluster (view s d) (fun e he => he)
            (Nat.zero_le cluster) (show place s d i 0 = some this by rw [place, plainWalk, hs])
          split
          · next hlt =>
              refine ⟨_, rfl, h.setGet fun _ _ _ _ hk => ?_⟩
              cases hk
              exact hlt
          · next hlt =>
              rw [Nat.le_antisymm hle (Nat.le_of_not_lt hlt)] at hp
              exact h.getDone (Nat.pos_of_ne_zero hcluster) (fun _ => hp) (h.same hd hstart hp) moved

theorem getGo (h : Inv s) (hd : d ≠ 0) {fails moved : Bool} (hok : GetFits s d t fails moved) :
    (getGo s d t fails moved).Ends (fun _ => False) Inv := by
  unfold FatCache.getGo
  unfold GetFits at hok
  cases hpc : s.get d t with
  | idle => trivial
  | walk i cluster count this =>
      rw [hpc] at hok
      dsimp only at hok ⊢
      split
      · exact h.setIdle d t
      · next hfails =>
          have hcount := h.get d t i cluster count this hpc
          cases hfat : (s.dev d).fat this with
          | free => exact h.setIdle d t
          | eof => exact h.setIdle d t
          | cluster c =>
              dsimp only
              split
              · next hlt =>
                  refine h.setGet fun _ _ _ _ hk => ?_
                  cases hk
                  exact hlt
              · next hlt =>
                  obtain rfl : count + 1 = cluster := by omega
                  cases hmoved : moved with
                  | true => exact h.setIdle d t
                  | false =>
                      have hok := hok (Bool.eq_false_iff.mpr hfails) hmoved rfl c hfat
                      have hdone : ∃ s', FatCache.getDone s d t i (count + 1) c false = .next s' ∧
                          Inv s' := by
                        by_cases hstart : (s.dev d).start i = none
                        · rw [if_pos hstart] at hok
                          exact h.getDone (Nat.succ_pos count) (absurd hstart) hok false
                        · rw [if_neg hstart] at hok
                          have hplace : place s d i (count + 1) = some c := by
                            rw [place, plainWalk, ← place, hok, Option.bind_some, hfat]
                            rfl
                          exact h.getDone (Nat.succ_pos count) (fun _ => hplace)
                            (h.same hd hstart hplace) false
                      obtain ⟨s', hs', h'⟩ := hdone
                      rw [hs']
                      exact h'

end Inv

/-! ### `msdos_add_cluster` and `fat_free` -/

/-- What a step of the two functions does to the chains. -/
inductive Change (b b' : Clusters.State) : Clusters.Act → Prop
  | same {a : Clusters.Act} (hfat : b'.fat = b.fat) (hstart : b'.start = b.start) : Change b b' a
  | gone {a : Clusters.Act} (i : Ino) (hfat : b'.fat = b.fat)
      (hstart : b'.start = Function.update b.start i none) : Change b b' a
  | first (t : Task) (i : Ino) (this : Nat) (hpc : b.pc t = .taken i this) (hnone : b.start i = none)
      (hfat : b'.fat = b.fat) (hstart : b'.start = Function.update b.start i (some this)) :
      Change b b' (.go t)
  | store (t : Task) (c : Nat) (v : Entry) (hpc : storeAt (b.pc t) = some c)
      (hfat : b'.fat = Function.update b.fat c v) (hstart : b'.start = b.start) : Change b b' (.go t)

namespace Change

variable {b b' : Clusters.State} {a : Clusters.Act} {sd : Fat.Super}

theorem scan (count : Nat) : Change b (Clusters.scan sd b t i count) a := by
  unfold Clusters.scan
  split <;> exact same rfl rfl

theorem lockFatAdd : Change b (Clusters.lockFatAdd sd b t i) a := by
  unfold Clusters.lockFatAdd
  split
  · exact same rfl rfl
  · unfold Clusters.scan
    split <;> exact same rfl rfl

theorem lockAdd : Change b (Clusters.lockAdd sd b t i) a := by
  unfold Clusters.lockAdd Clusters.lockFatAdd Clusters.scan
  split
  · exact same rfl rfl
  · dsimp only
    split
    · exact same rfl rfl
    · split <;> exact same rfl rfl

theorem of_go (sd : Fat.Super) (b : Clusters.State) (t : Task) :
    (Clusters.go sd b t).Ends (fun m => m ≠ "FAT cache corruption") fun b' => Change b b' (.go t) := by
  unfold Clusters.go
  cases hpc : b.pc t with
  | idle => trivial
  | addLock i => exact lockAdd
  | addFatLock i => exact lockFatAdd
  | scan i count =>
      dsimp only [Outcome.Ends]
      unfold Clusters.scanNext
      split
      · exact same rfl rfl
      · exact scan _
  | take i this => exact store t this _ (by rw [hpc]; rfl) rfl rfl
  | taken i this =>
      dsimp only [Outcome.Ends]
      unfold Clusters.taken
      dsimp only
      split
      · next hnone => exact first t i this hpc hnone rfl rfl
      · exact same rfl rfl
  | walk i this current =>
      dsimp only
      unfold Clusters.walk
      split
      · exact ne_of_beq_false rfl
      · exact same rfl rfl
      · exact same rfl rfl
  | link i this last => exact store t last _ (by rw [hpc]; rfl) rfl rfl
  | zero => exact same rfl rfl
  | skip i n this =>
      dsimp only [Outcome.Ends]
      unfold Clusters.skipNext
      split
      · exact same rfl rfl
      · exact same rfl rfl
      · split <;> exact same rfl rfl
  | cut i last this => exact store t last _ (by rw [hpc]; rfl) rfl rfl
  | freeLock i this =>
      dsimp only [Outcome.Ends]
      unfold Clusters.lockFatFree
      split <;> exact same rfl rfl
  | free i this => exact store t this _ (by rw [hpc]; rfl) rfl rfl
  | freed i next =>
      dsimp only
      unfold Clusters.freeNext
      dsimp only
      split
      · exact ne_of_beq_false rfl
      · dsimp only [Outcome.Ends]
        split <;> exact same rfl rfl
      · dsimp only [Outcome.Ends]
        split <;> exact same rfl rfl

theorem of_step (sd : Fat.Super) (b : Clusters.State) (a : Clusters.Act) :
    (Clusters.step sd b a).Ends (fun m => m ≠ "FAT cache corruption") fun b' => Change b b' a := by
  cases a with
  | addCluster t i =>
      unfold Clusters.step
      dsimp only
      split
      · dsimp only [Outcome.Ends]
        unfold Clusters.addCluster
        split
        · exact same rfl rfl
        · split
          · exact same rfl rfl
          · exact lockAdd
      · trivial
  | fatFree t i skip =>
      unfold Clusters.step
      dsimp only
      split
      · dsimp only [Outcome.Ends]
        unfold Clusters.fatFree
        split
        · exact same rfl rfl
        · split
          · unfold Clusters.lockFatFree
            split <;> exact gone i rfl rfl
          · exact same rfl rfl
      · trivial
  | go t => exact of_go sd b t

end Change

namespace Inv

/-- The chains of a device change, and the entries for it stay right. -/
theorem save (h : Inv s) {b : Clusters.State}
    (hb : ∀ e ∈ slots s, e.device = d → e.device ≠ 0 → b.start e.ino ≠ none →
      plainWalk b.fat (b.start e.ino) e.fileCluster = some e.diskCluster) : Inv (save s d b) where
  list := h.list
  right e he hd := by
    have hr := h.right e he hd
    refine ⟨hr.1, ?_⟩
    unfold place
    change (Function.update s.dev d b e.device).start e.ino ≠ none →
      plainWalk (Function.update s.dev d b e.device).fat
        ((Function.update s.dev d b e.device).start e.ino) e.fileCluster = _
    by_cases hde : e.device = d
    · rw [hde, Function.update_self]
      exact hb e he hde hd
    · rw [Function.update_of_ne hde]
      exact hr.2
  get := h.get

theorem inval (h : Inv s) (d : Dev) (i : Ino) : Inv (cacheInvalInode s d i) where
  list := h.list
  right e he hd := by
    obtain ⟨w, hw, rfl⟩ := List.mem_map.mp he
    have hin : s.slot w ∈ slots s := List.mem_map_of_mem hw
    change Right s (if w ∈ entries s ∧ (s.slot w).device = d ∧ (s.slot w).ino = i then
      { s.slot w with device := 0 } else s.slot w)
    change (if w ∈ entries s ∧ (s.slot w).device = d ∧ (s.slot w).ino = i then
      { s.slot w with device := 0 } else s.slot w).device ≠ 0 at hd
    split at hd
    · exact absurd rfl hd
    · next hne =>
        rw [if_neg hne]
        exact h.right _ hin hd
  get := h.get

theorem base (h : Inv s) {a : Clusters.Act} (hok : Coherent s (.base d a)) :
    (baseStep sb s d a).Ends (fun m => m ≠ "FAT cache corruption") Inv := by
  have hchange := Change.of_step (sb d) (load s d) a
  unfold baseStep
  cases hs : Clusters.step (sb d) (load s d) a with
  | disabled => trivial
  | panic m =>
      rw [hs] at hchange
      exact hchange
  | next b =>
      rw [hs] at hchange
      have h' : Inv (FatCache.save s d b) := by
        refine h.save fun e he hed hd hstart => ?_
        obtain ⟨-, hplace⟩ := h.right e he hd
        rw [place, hed] at hplace
        cases hchange with
        | same hfat hst =>
            rw [hst] at hstart ⊢
            rw [hfat]
            exact hplace hstart
        | gone i hfat hst =>
            rw [hst] at hstart ⊢
            by_cases hei : e.ino = i
            · rw [hei, Function.update_self] at hstart
              exact absurd rfl hstart
            · rw [Function.update_of_ne hei] at hstart ⊢
              rw [hfat]
              exact hplace hstart
        | first t i this hpc hnone hfat hst =>
            have hne := hok.2 i this hpc hnone e he hed
            rw [hst, Function.update_of_ne hne] at hstart ⊢
            rw [hfat]
            exact hplace hstart
        | store t c v hpc hfat hst =>
            rw [hst] at hstart ⊢
            rw [hfat]
            refine (plainWalk_update fun m hm => ?_).trans (hplace hstart)
            exact hok.1 c hpc e he hed hstart m hm
      dsimp only [Outcome.Ends]
      split
      · exact h'.inval d _
      · exact h'

theorem step (h : Inv s) {a : Act} (hok : Coherent s a) :
    (step sb s a).Ends (fun m => m ≠ "FAT cache corruption") Inv := by
  cases a with
  | base d a =>
      unfold FatCache.step
      dsimp only
      split
      · trivial
      · exact h.base hok
  | get d t i cluster moved =>
      unfold FatCache.step
      dsimp only
      split
      · next hd =>
          obtain ⟨s', hs', h'⟩ := h.getCluster hd.1 cluster moved
          rw [hs']
          exact h'
      · trivial
  | getGo d t fails moved =>
      unfold FatCache.step
      dsimp only
      split
      · next hd =>
          have hends := h.getGo hd hok
          cases hs : FatCache.getGo s d t fails moved with
          | next s' =>
              rw [hs] at hends
              exact hends
          | panic m =>
              rw [hs] at hends
              exact hends.elim
          | disabled => trivial
      · trivial

end Inv

/-! ### All runs -/

/-- The cache agrees with the FAT, its list stays whole and the panic is not reached, all along
a run whose calls do not get in each other's way. -/
theorem sound_of_coherent (hinit : Init s) (h : Reaches (FatCache.step sb) (Coherent) s s') :
    Sound s' ∧ ∀ a, Coherent s' a → FatCache.step sb s' a ≠ .panic "FAT cache corruption" := by
  have hinv : Inv s' := h.invariant (Inv.of_init hinit) fun _ _ _ ht hok hs =>
    (ht.step hok).of_next hs
  refine ⟨hinv.sound, fun a hok hs => ?_⟩
  have : (FatCache.step sb s' a).Ends (fun m => m ≠ "FAT cache corruption") Inv := hinv.step hok
  rw [hs] at this
  exact this rfl

/-! ### Two runs -/

/-- The condition of a step, by where the task is. -/
def StoreFitsAt (s : State) (d : Dev) (pc : Clusters.Pc) : Prop :=
  match storeAt pc, pc with
  | some c, _ => NotBehind s d c
  | none, .taken i _ => (s.dev d).start i = none → ∀ e ∈ slots s, e.device = d → e.ino ≠ i
  | none, _ => True

instance (s : State) (d : Dev) (pc : Clusters.Pc) : Decidable (StoreFitsAt s d pc) := by
  unfold StoreFitsAt
  split <;> infer_instance

theorem StoreFitsAt.coherent (h : StoreFitsAt s d ((s.dev d).pc t)) :
    Coherent s (.base d (.go t)) := by
  unfold StoreFitsAt at h
  refine ⟨fun c hc => ?_, fun i this hpc => ?_⟩
  · rw [hc] at h
    exact h
  · rw [hpc] at h
    exact h

/-- The cluster is the next one of a file that has clusters. -/
def GetFitsAt (s : State) (d : Dev) (pc : GetPc) : Prop :=
  match pc with
  | .walk i _ count this => (s.dev d).start i ≠ none ∧ place s d i count = some this
  | .idle => True

instance (s : State) (d : Dev) (pc : GetPc) : Decidable (GetFitsAt s d pc) := by
  unfold GetFitsAt
  split <;> infer_instance

theorem GetFitsAt.coherent {fails moved : Bool} (h : GetFitsAt s d (s.get d t)) :
    Coherent s (.getGo d t fails moved) := by
  unfold GetFitsAt at h
  change GetFits s d t fails moved
  unfold GetFits
  cases hpc : s.get d t with
  | idle => trivial
  | walk i cluster count this =>
      rw [hpc] at h
      intro _ _ _ c _
      rw [if_neg h.1]
      exact h.2

def disk (_ : Dev) : Fat.Super := Fat.fourClusters

/-- On every device, file 5 has the clusters 2, 3 and 4. -/
def mounted : State where
  dev _ := {
    fat c := if c = 2 then .cluster 3 else if c = 3 then .cluster 4 else if c = 4 then .eof else .free
    start i := if i = 5 then some 2 else none
    freeClusters := 1
    lock := false
    fatLock := false
    previous := 0
    cache := []
    pc _ := .idle
    allocated _ := false }
  lock := false
  previous := 1
  fatCache := some 0
  next w := if w < 7 then some (w + 1) else none
  slot _ := { device := 0, ino := 0, fileCluster := 0, diskCluster := 0 }
  get _ _ := .idle

theorem init_mounted : Init mounted := ⟨by decide, fun _ => rfl, fun _ _ => rfl⟩

/-- Cluster 3 gets into the cache, what is behind it is cut off, and task 1 adds a cluster there. -/
def behindRun : List Act :=
  [.get 1 0 5 1 false, .getGo 1 0 false false, .base 1 (.fatFree 2 5 2), .base 1 (.go 2),
    .base 1 (.go 2), .base 1 (.go 2), .base 1 (.go 2), .base 1 (.go 2), .base 1 (.go 2),
    .get 1 0 5 1 false, .getGo 1 0 false false, .get 1 0 5 1 false,
    .base 1 (.addCluster 1 5), .base 1 (.go 1), .base 1 (.go 1), .base 1 (.go 1),
    .base 1 (.go 1), .base 1 (.go 1), .base 1 (.go 1)]

theorem sound_of_coherent_behindRun :
    RunOk (FatCache.step disk) Coherent mounted behindRun ∧
      (∃ s, run (FatCache.step disk) mounted behindRun = .next s) ∧
      ∀ bs, bs <+: behindRun → ∀ s, run (FatCache.step disk) mounted bs = .next s →
        Sound s ∧ ∀ a, Coherent s a → FatCache.step disk s a ≠ .panic "FAT cache corruption" := by
  have hok : RunOk (FatCache.step disk) Coherent mounted behindRun := by
    repeat' first
      | exact True.intro
      | refine RunOk.cons (StoreFitsAt.coherent (by decide)) ?_
      | refine RunOk.cons (GetFitsAt.coherent (by decide)) ?_
      | refine RunOk.cons True.intro ?_
  exact ⟨hok, ⟨_, Outcome.eq_next (by decide) mounted⟩, fun bs hpre s hs =>
    sound_of_coherent init_mounted (Reaches.of_run hs (hok.of_prefix hpre))⟩

/-- Task 0 has come to cluster 3 of file 5. Task 1 cuts the file behind cluster 2, and puts
clusters 3 and 4 into file 6. Task 0 goes on. -/
def reusedRun : List Act :=
  [.get 1 0 5 2 false, .getGo 1 0 false false, .base 1 (.fatFree 1 5 1), .base 1 (.go 1),
    .base 1 (.go 1), .base 1 (.go 1), .base 1 (.go 1), .base 1 (.go 1), .base 1 (.go 1),
    .base 1 (.go 1), .base 1 (.addCluster 1 6), .base 1 (.go 1), .base 1 (.go 1),
    .base 1 (.go 1), .base 1 (.go 1), .base 1 (.addCluster 1 6), .base 1 (.go 1),
    .base 1 (.go 1), .base 1 (.go 1), .base 1 (.go 1), .base 1 (.go 1), .base 1 (.go 1),
    .getGo 1 0 false false]

/-- The cache has the second cluster of file 6 for file 5, of which one cluster is left. -/
theorem fatCache_not_sound :
    ∃ s, Init mounted ∧ run (FatCache.step disk) mounted reusedRun = .next s ∧
      lookup s 1 5 2 = some 4 ∧ place s 1 5 2 = none ∧ ¬ Sound s := by
  have hlookup : lookup ((run (FatCache.step disk) mounted reusedRun).get mounted) 1 5 2 = some 4 := by
    decide
  have hplace : place ((run (FatCache.step disk) mounted reusedRun).get mounted) 1 5 2 = none := by
    decide
  refine ⟨_, init_mounted, Outcome.eq_next (by decide) mounted, hlookup, hplace,
    fun h => ?_⟩
  have := h.lookup 1 5 2 (by decide)
  rw [hlookup, hplace] at this
  cases this

end LinuxKernel.V098.Fs.FatCache
