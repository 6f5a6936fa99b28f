import LinuxKernel.V098.Fs.FatWalks

/-!
# LinuxKernel.V098.Fs.FatWalksEnd

**Where the loops along the FAT end.**

- `get_cluster` counts its turns. The search for the last cluster and `raw_scan_nonroot` end unless
  a number comes twice.
- As long as the numbers that are followed have an entry, no sector outside is touched.
-/

namespace LinuxKernel.V098.Fs.FatWalks

open Clusters (Entry)
open Loop

variable {sb : Super} {bad : Int → Bool} {s s' : State} {this n c : Nat} {new : Option Nat}

/-! ### Reading an entry -/

theorem entry_congr (h : s.byte = s'.byte) (this : Nat) : entry sb s this = entry sb s' this := by
  unfold entry pFirst pLast
  rw [h]

theorem fatAccess_congr (h : s.byte = s'.byte) (this : Nat) (new new' : Option Nat) :
    (fatAccess sb bad s this new).1 = (fatAccess sb bad s' this new').1 := by
  unfold fatAccess
  dsimp only
  split
  · rfl
  · split
    · exact entry_congr h this
    · split
      · rfl
      · exact entry_congr h this

/-- Without a new value nothing is stored. -/
theorem fatAccess_byte (sb : Super) (bad : Int → Bool) (s : State) (this : Nat) :
    (fatAccess sb bad s this none).2.byte = s.byte := by
  unfold fatAccess access
  dsimp only
  split
  · rfl
  · split
    · rfl
    · split <;> rfl

theorem decode_lt (sb : Super) (this : Nat) (p q : BitVec 8) :
    Fat.decode sb.toSuper this p.toNat q.toNat < 2 ^ 16 := by
  have hmarked (x mark : Nat) (hx : x < 2 ^ 16) :
      (if x ≥ mark then (-1 : Int) else x) < 2 ^ 16 := by
    split <;> omega
  have hmask (x : Nat) : x &&& 0xfff < 2 ^ 16 := lt_of_le_of_lt Nat.and_le_right (by decide)
  unfold Fat.decode
  split
  · refine hmarked _ _ ?_
    have hp := p.isLt
    have hq := q.isLt
    rw [Nat.shiftLeft_eq]
    omega
  · refine hmarked _ _ ?_
    split <;> exact hmask _

theorem entry_lt (h : entry sb s this = .cluster c) : c < 2 ^ 16 := by
  have hlt := decode_lt sb this (pFirst sb s this) (pLast sb s this)
  unfold entry at h
  dsimp only at h
  split at h
  · cases h
  · split at h
    · cases h
    · cases h
      omega

theorem fatAccess_cases (sb : Super) (bad : Int → Bool) (s : State) (this : Nat)
    (new : Option Nat) :
    (fatAccess sb bad s this new).1 = .free ∨
      ∃ l, fatAccess sb bad s this new = (entry sb s this,
        access sb bad { s with seen := this :: s.seen, log := l } this new) := by
  unfold fatAccess
  dsimp only
  split
  · exact .inl rfl
  · split
    · exact .inr ⟨_, rfl⟩
    · split
      · exact .inl rfl
      · exact .inr ⟨_, rfl⟩

theorem fatAccess_lt (h : (fatAccess sb bad s this new).1 = .cluster c) : c < 2 ^ 16 := by
  rcases fatAccess_cases sb bad s this new with hfree | ⟨l, heq⟩
  · rw [hfree] at h
    cases h
  · rw [heq] at h
    exact entry_lt h

/-! ### The sectors -/

theorem sectors_cases (sb : Super) (this : Nat) :
    firstSector sb this = lastSector sb this ∨ lastSector sb this = firstSector sb this + 1 := by
  unfold firstSector lastSector Fat.firstSector Fat.lastSector Fat.firstByte Fat.lastByte
  split
  · exact .inl rfl
  · omega

/-- The second state has only such sectors more in its log. -/
def Logs (P : Int → Prop) (s s' : State) : Prop :=
  s'.seen = s.seen ∧ s'.scanned = s.scanned ∧ ∀ sector ∈ s'.log, sector ∈ s.log ∨ P sector

variable {P : Int → Prop}

theorem Logs.refl (s : State) : Logs P s s := ⟨rfl, rfl, fun _ h => .inl h⟩

theorem Logs.trans {s'' : State} (h : Logs P s s') (h' : Logs P s' s'') : Logs P s s'' := by
  refine ⟨h'.1.trans h.1, h'.2.1.trans h.2.1, fun sector hmem => ?_⟩
  rcases h'.2.2 sector hmem with hold | hnew
  · exact h.2.2 sector hold
  · exact .inr hnew

theorem Logs.touch {sector : Int} (h : P sector) (s : State) : Logs P s (touch s sector) := by
  refine ⟨rfl, rfl, fun x hx => ?_⟩
  rcases List.mem_cons.mp hx with rfl | hold
  · exact .inr h
  · exact .inl hold

/-- The sector is in the FAT if the number has an entry. -/
def Fits (sb : Super) (this : Nat) (sector : Int) : Prop := HasEntry sb this → InFat sb sector

/-- The sectors of an entry in a copy. -/
theorem fits_copy (this : Nat) (hc : c < sb.fats) :
    Fits sb this (firstSector sb this + sb.fatLength * c) ∧
      Fits sb this (lastSector sb this + sb.fatLength * c) := by
  have hspace : sb.fatLength * c + sb.fatLength ≤ sb.fats * sb.fatLength := by
    calc sb.fatLength * c + sb.fatLength = (c + 1) * sb.fatLength := by
          rw [Nat.succ_mul, Nat.mul_comm]
      _ ≤ sb.fats * sb.fatLength := Nat.mul_le_mul_right _ hc
  have horder : Fat.firstByte sb.toSuper this ≤ Fat.lastByte sb.toSuper this := by
    unfold Fat.firstByte Fat.lastByte
    split <;> omega
  unfold Fits HasEntry InFat firstSector lastSector Fat.firstSector Fat.lastSector
  have hspace' : (sb.fatLength * c + sb.fatLength : Int) ≤ sb.fats * sb.fatLength := by
    exact_mod_cast hspace
  have hpos : (0 : Int) ≤ sb.fatLength * c := by exact_mod_cast Nat.zero_le _
  push_cast
  omega

theorem writeCopies_logs (bad : Int → Bool) (this : Nat) :
    ∀ (n copy : Nat) (s : State), copy + n ≤ sb.fats →
      Logs (Fits sb this) s (writeCopies sb bad this n copy s)
  | 0, _, s, _ => .refl s
  | n + 1, copy, s, hn => by
      obtain ⟨hfirst, hlast⟩ := fits_copy this (show copy < sb.fats by omega)
      have htouch := Logs.touch hfirst s
      rw [writeCopies]
      dsimp only
      split
      · exact htouch
      · split
        · exact htouch.trans (writeCopies_logs bad this n (copy + 1) _ (by omega))
        · rename_i hne
          have hnext := (sectors_cases sb this).resolve_left hne
          have hlast' : Fits sb this (firstSector sb this + sb.fatLength * copy + 1) := by
            have hsum : (firstSector sb this + sb.fatLength * copy + 1 : Int) =
                lastSector sb this + sb.fatLength * copy := by
              rw [hnext]
              push_cast
              omega
            rwa [hsum]
          have hcopied : Logs (Fits sb this) s
            (memcpy (touch s (firstSector sb this + sb.fatLength * copy))
              (firstSector sb this + sb.fatLength * copy) (firstSector sb this)) := htouch
          split
          · exact hcopied.trans (.touch hlast' _)
          · exact (hcopied.trans (.touch hlast' _)).trans
              (writeCopies_logs bad this n (copy + 1) _ (by omega))

theorem fatAccess_logs (sb : Super) (bad : Int → Bool) (s : State) (this : Nat) (new : Option Nat) :
    Logs (Fits sb this) { s with seen := this :: s.seen } (fatAccess sb bad s this new).2 := by
  obtain ⟨hfirst, hlast⟩ := fits_copy this sb.hasFat
  rw [Nat.cast_zero, mul_zero, add_zero] at hfirst hlast
  have haccess (s : State) : Logs (Fits sb this) s (access sb bad s this new) := by
    cases new with
    | none => exact .refl s
    | some v => exact writeCopies_logs bad this (sb.fats - 1) 1 _ (by have := sb.hasFat; omega)
  have htouch := Logs.touch hfirst { s with seen := this :: s.seen }
  unfold fatAccess
  dsimp only
  split
  · exact htouch
  · split
    · exact htouch.trans (haccess _)
    · split
      · exact htouch.trans (.touch hlast _)
      · exact (htouch.trans (.touch hlast _)).trans (haccess _)

/-- As long as what has been followed has an entry, no sector outside has been touched. -/
def Safe (sb : Super) (s : State) : Prop := Followed sb s → InAreas sb s

theorem Safe.of_logs (h : Safe sb s) (hlogs : Logs P s s')
    (hP : Followed sb s' → ∀ sector, P sector → InFat sb sector ∨ InData sb sector) :
    Safe sb s' := by
  intro hfollowed sector hmem
  have hfollowed' : Followed sb s := by
    unfold Followed at *
    rwa [hlogs.1, hlogs.2.1] at hfollowed
  rcases hlogs.2.2 sector hmem with hold | hnew
  · exact h hfollowed' sector hold
  · exact hP hfollowed sector hnew

theorem Safe.fatAccess (h : Safe sb s) (bad : Int → Bool) (this : Nat) (new : Option Nat) :
    Safe sb (fatAccess sb bad s this new).2 := by
  have hlogs := fatAccess_logs sb bad s this new
  refine Safe.of_logs (fun hfollowed => ?_) hlogs fun hfollowed sector hfits => .inl (hfits ?_)
  · exact h ⟨fun n hn => hfollowed.1 n (List.mem_cons_of_mem this hn), hfollowed.2⟩
  · refine hfollowed.1 this ?_
    rw [hlogs.1]
    exact List.mem_cons_self

/-- The loop touches no sector outside, as long as what it follows has an entry. -/
def Stays {σ ρ : Type} (sb : Super) (turn : σ → Turn σ ρ) (disk : σ → State) (out : ρ → State)
    (z : σ) : Prop :=
  ∀ t, Visits turn z t → Safe sb (disk t) ∧ ∀ r, turn t = .done r → Safe sb (out r)

theorem stays_of_turn {σ ρ : Type} {turn : σ → Turn σ ρ} {disk : σ → State} {out : ρ → State}
    {z : σ} (h₀ : Safe sb (disk z))
    (hturn : ∀ t, Safe sb (disk t) → match turn t with
      | .again t' => Safe sb (disk t')
      | .done r => Safe sb (out r)) : Stays sb turn disk out z := by
  have hvisit (t : σ) (h : Visits turn z t) : Safe sb (disk t) := by
    refine h.invariant (P := fun t => Safe sb (disk t)) h₀ fun t t' _ hsafe hagain => ?_
    have hnext := hturn t hsafe
    rwa [hagain] at hnext
  refine fun t ht => ⟨hvisit t ht, fun r hdone => ?_⟩
  have hlast := hturn t (hvisit t ht)
  rwa [hdone] at hlast

/-! ### `get_cluster` -/

theorem getTurn_ends (cluster : Nat) (z : Get) : Ends (getTurn sb bad cluster) z := by
  refine ends_of_wellFounded Nat.lt_wfRel.wf (fun z => cluster - z.count) fun t t' _ hturn => ?_
  unfold getTurn at hturn
  split at hturn
  · cases hread : fatAccess sb bad t.disk t.this none with
    | mk e s =>
        rw [hread] at hturn
        cases e with
        | free | eof => cases hturn
        | cluster c =>
            cases hturn
            change cluster - (t.count + 1) < cluster - t.count
            omega
  · cases hturn

theorem getTurn_stays (cluster : Nat) {z : Get} (h : Safe sb z.disk) :
    Stays sb (getTurn sb bad cluster) Get.disk Prod.snd z := by
  refine stays_of_turn h fun t hsafe => ?_
  have hnext := hsafe.fatAccess bad t.this none
  unfold getTurn
  by_cases hgo : t.count < cluster
  · rw [if_pos hgo]
    cases hread : fatAccess sb bad t.disk t.this none with
    | mk e s =>
        rw [hread] at hnext
        cases e <;> exact hnext
  · rw [if_neg hgo]
    exact hsafe

/-! ### The search for the last cluster -/

theorem range_follow_finite (sb : Super) (bad : Int → Bool) (s : State) :
    (Set.range (follow sb bad s)).Finite := by
  refine ((Set.finite_lt_nat (2 ^ 16)).image some |>.insert none).subset ?_
  rintro x ⟨this, rfl⟩
  unfold follow
  cases hread : (fatAccess sb bad s this none).1 with
  | free | eof => exact .inl rfl
  | cluster c => exact .inr ⟨c, fatAccess_lt hread, rfl⟩

theorem follow_congr (h : s.byte = s'.byte) : follow sb bad s = follow sb bad s' := by
  funext this
  unfold follow
  rw [fatAccess_congr h]

theorem searchTurn_byte {z t : Search} (h : Visits (searchTurn sb bad) z t) :
    t.disk.byte = z.disk.byte := by
  refine h.invariant (P := fun t => t.disk.byte = z.disk.byte) rfl fun t t' _ hbyte hturn => ?_
  have hread := fatAccess_byte sb bad t.disk t.current
  unfold searchTurn at hturn
  cases hres : fatAccess sb bad t.disk t.current none with
  | mk e s =>
      rw [hres] at hturn hread
      cases e with
      | free | eof => cases hturn
      | cluster c =>
          cases hturn
          exact hread.trans hbyte

theorem searchTurn_ends_iff (z : Search) :
    Ends (searchTurn sb bad) z ↔ Acyclic (follow sb bad z.disk) z.current := by
  refine ends_iff_acyclic Search.current (range_follow_finite sb bad z.disk) fun t ht => ?_
  rw [← follow_congr (searchTurn_byte ht)]
  unfold Follows searchTurn follow
  cases fatAccess sb bad t.disk t.current none with
  | mk e s => cases e <;> rfl

theorem searchTurn_stays {z : Search} (h : Safe sb z.disk) :
    Stays sb (searchTurn sb bad) Search.disk Prod.snd z := by
  refine stays_of_turn h fun t hsafe => ?_
  have hnext := hsafe.fatAccess bad t.current none
  unfold searchTurn
  cases hread : fatAccess sb bad t.disk t.current none with
  | mk e s =>
      rw [hread] at hnext
      cases e <;> exact hnext

/-! ### `raw_scan_nonroot` -/

variable {w : Wanted} {z z' : Scan} {start : Nat}

/-- The same contents, and the same number unless it just counts. -/
def Alike (w : Wanted) (z z' : Scan) : Prop :=
  z.disk.byte = z'.disk.byte ∧ (counts w = false → z.number = z'.number)

theorem isDone_congr (h : Alike w z z') (sector : Int) (entry : Nat) :
    isDone w z sector entry = isDone w z' sector entry := by
  have hbyte (o : Nat) : entryByte z.disk sector entry o = entryByte z'.disk sector entry o := by
    unfold entryByte
    rw [h.1]
  unfold isDone
  cases hname : w.name with
  | some name => exact congrArg (strncmp · name MSDOS_NAME 0) (funext hbyte)
  | none =>
      cases hino : w.ino with
      | false => rfl
      | true =>
          have hnumber : z.number = z'.number := h.2 (by rw [counts, hname, hino]; rfl)
          unfold entryStart
          simp only [hbyte, hnumber]

theorem countEntry_alike (w : Wanted) (z : Scan) (sector : Int) (entry : Nat) :
    Alike w (countEntry w z sector entry) z := by
  unfold countEntry
  split
  · rename_i hcount
    refine ⟨rfl, fun hno => ?_⟩
    rw [hcount.1] at hno
    cases hno
  · exact ⟨rfl, fun _ => rfl⟩

theorem Alike.trans {z'' : Scan} (h : Alike w z z') (h' : Alike w z' z'') : Alike w z z'' :=
  ⟨h.1.trans h'.1, fun hno => (h.2 hno).trans (h'.2 hno)⟩

theorem Alike.symm (h : Alike w z z') : Alike w z' z := ⟨h.1.symm, fun hno => (h.2 hno).symm⟩

theorem rawEntries_congr (sector : Int) :
    ∀ (n entry : Nat) {z z' : Scan}, Alike w z z' →
      (rawEntries w sector n entry z).1 = (rawEntries w sector n entry z').1
  | 0, _, _, _, _ => rfl
  | n + 1, entry, z, z', h => by
      rw [rawEntries, rawEntries, isDone_congr h]
      split
      · unfold entryStart entryByte
        rw [h.1]
      · refine rawEntries_congr sector n (entry + 1) ?_
        exact ((countEntry_alike w z sector entry).trans h).trans (countEntry_alike w z' _ _).symm

/-- Nothing is stored on the disk, and no sector is read. -/
theorem rawEntries_disk (sector : Int) :
    ∀ (n entry : Nat) (z : Scan), (rawEntries w sector n entry z).2.disk = z.disk
  | 0, _, _ => rfl
  | n + 1, entry, z => by
      rw [rawEntries]
      split
      · dsimp only
        split <;> rfl
      · rw [rawEntries_disk sector n (entry + 1)]
        unfold countEntry
        split <;> rfl

theorem rawEntries_alike (sector : Int) :
    ∀ (n entry : Nat) (z : Scan), Alike w (rawEntries w sector n entry z).2 z
  | 0, _, z => ⟨rfl, fun _ => rfl⟩
  | n + 1, entry, z => by
      rw [rawEntries]
      split
      · dsimp only
        split <;> exact ⟨rfl, fun _ => rfl⟩
      · exact (rawEntries_alike sector n (entry + 1) _).trans (countEntry_alike w z sector entry)

theorem rawFound_alike (bad : Int → Bool) (w : Wanted) (z : Scan) (sector : Int) :
    Alike w (rawFound bad w z sector).2 z := by
  unfold rawFound
  dsimp only
  split
  · exact ⟨rfl, fun _ => rfl⟩
  · exact rawEntries_alike sector 16 0 { z with disk := touch z.disk sector }

theorem rawFound_congr (bad : Int → Bool) (h : Alike w z z') (sector : Int) :
    (rawFound bad w z sector).1 = (rawFound bad w z' sector).1 := by
  unfold rawFound
  dsimp only
  split
  · rfl
  · exact rawEntries_congr sector 16 0 h

theorem rawSectors_alike (start : Nat) :
    ∀ (n count : Nat) (z : Scan), Alike w (rawSectors sb bad w start n count z).2 z
  | 0, _, _ => ⟨rfl, fun _ => rfl⟩
  | n + 1, count, z => by
      have hfound := rawFound_alike bad w z (dataSector sb start count)
      rw [rawSectors]
      split
      · exact hfound
      · exact (rawSectors_alike start n (count + 1) _).trans hfound

theorem rawSectors_congr (start : Nat) :
    ∀ (n count : Nat) {z z' : Scan}, Alike w z z' →
      (rawSectors sb bad w start n count z).1 = (rawSectors sb bad w start n count z').1
  | 0, _, _, _, _ => rfl
  | n + 1, count, z, z', h => by
      have heq := rawFound_congr bad h (dataSector sb start count)
      rw [rawSectors, rawSectors, heq]
      split
      · exact heq
      · refine rawSectors_congr start n (count + 1) ?_
        exact ((rawFound_alike bad w z _).trans h).trans (rawFound_alike bad w z' _).symm

theorem rawCluster_alike (sb : Super) (bad : Int → Bool) (w : Wanted) (start : Nat) (z : Scan) :
    Alike w (rawCluster sb bad w start z).2 z :=
  rawSectors_alike start sb.clusterSize 0
    { z with disk := { z.disk with scanned := start :: z.disk.scanned } }

theorem scanOn_congr (h : Alike w z z') : scanOn sb bad w z = scanOn sb bad w z' := by
  funext start
  have hcluster : (rawCluster sb bad w start z).1 = (rawCluster sb bad w start z').1 :=
    rawSectors_congr start sb.clusterSize 0 ⟨h.1, h.2⟩
  unfold scanOn
  rw [hcluster, follow_congr h.1]

theorem rawTurn_cases {t t' : Nat × Scan} (h : rawTurn sb bad w t = .again t') :
    Alike w t'.2 t.2 := by
  have hcluster := rawCluster_alike sb bad w t.1 t.2
  unfold rawTurn at h
  dsimp only at h
  split at h
  · cases h
  · have hread := fatAccess_byte sb bad (rawCluster sb bad w t.1 t.2).2.disk t.1
    cases hres : fatAccess sb bad (rawCluster sb bad w t.1 t.2).2.disk t.1 none with
    | mk e s =>
        rw [hres] at h hread
        cases e with
        | free | eof => cases h
        | cluster c =>
            cases h
            exact ⟨hread.trans hcluster.1, hcluster.2⟩

theorem rawTurn_ends_iff (z : Nat × Scan) :
    Ends (rawTurn sb bad w) z ↔ Acyclic (scanOn sb bad w z.2) z.1 := by
  have hfin : (Set.range (scanOn sb bad w z.2)).Finite := by
    refine ((range_follow_finite sb bad z.2.disk).insert none).subset ?_
    rintro x ⟨this, rfl⟩
    unfold scanOn
    split
    · exact .inl rfl
    · exact .inr ⟨this, rfl⟩
  refine ends_iff_acyclic Prod.fst hfin fun t ht => ?_
  have halike : Alike w t.2 z.2 :=
    ht.invariant (P := fun t => Alike w t.2 z.2) ⟨rfl, fun _ => rfl⟩
      fun t t' _ h hturn => (rawTurn_cases hturn).trans h
  have hread : (fatAccess sb bad (rawCluster sb bad w t.1 t.2).2.disk t.1 none).1 =
      (fatAccess sb bad t.2.disk t.1 none).1 :=
    fatAccess_congr (rawCluster_alike sb bad w t.1 t.2).1 t.1 none none
  rw [← scanOn_congr halike]
  unfold Follows rawTurn scanOn follow
  dsimp only
  rw [← hread]
  by_cases hfound : 0 ≤ (rawCluster sb bad w t.1 t.2).1
  · rw [if_pos hfound, if_pos hfound]
  · rw [if_neg hfound, if_neg hfound]
    cases fatAccess sb bad (rawCluster sb bad w t.1 t.2).2.disk t.1 none with
    | mk e s => cases e <;> rfl

/-- The sectors of a cluster are in the data area. -/
theorem inData_of_isCluster {count : Nat} (h : IsCluster sb start)
    (hcount : count < sb.clusterSize) :
    InData sb (dataSector sb start count) := by
  obtain ⟨hlo, hhi⟩ := h
  obtain ⟨k, rfl⟩ := Nat.exists_eq_add_of_le hlo
  have hlt : (k : Int) * sb.clusterSize + count < sb.clusters * sb.clusterSize := by
    have hle : (k + 1) * sb.clusterSize ≤ sb.clusters * sb.clusterSize :=
      Nat.mul_le_mul_right _ (by omega)
    rw [Nat.succ_mul] at hle
    exact_mod_cast (by omega : k * sb.clusterSize + count < sb.clusters * sb.clusterSize)
  have hpos : (0 : Int) ≤ (k : Int) * sb.clusterSize := by
    exact_mod_cast Nat.zero_le (k * sb.clusterSize)
  unfold InData dataSector
  rw [Nat.cast_add, Nat.cast_ofNat, add_sub_cancel_left]
  omega

theorem rawFound_logs (bad : Int → Bool) (w : Wanted) {sector : Int} (hP : P sector) (z : Scan) :
    Logs P z.disk (rawFound bad w z sector).2.disk := by
  have htouch := Logs.touch hP z.disk
  unfold rawFound
  dsimp only
  split
  · exact htouch
  · rw [rawEntries_disk]
    exact htouch

theorem rawSectors_logs (start : Nat)
    (hP : ∀ count < sb.clusterSize, P (dataSector sb start count)) :
    ∀ (n count : Nat) (z : Scan), count + n ≤ sb.clusterSize →
      Logs P z.disk (rawSectors sb bad w start n count z).2.disk
  | 0, _, z, _ => .refl z.disk
  | n + 1, count, z, hn => by
      have hfound := rawFound_logs bad w (hP count (by omega)) z
      rw [rawSectors]
      split
      · exact hfound
      · exact hfound.trans (rawSectors_logs start hP n (count + 1) _ (by omega))

theorem Safe.rawCluster {z : Scan} (h : Safe sb z.disk) (bad : Int → Bool) (w : Wanted)
    (start : Nat) : Safe sb (rawCluster sb bad w start z).2.disk := by
  have hlogs : Logs (fun sector => IsCluster sb start → InData sb sector)
      { z.disk with scanned := start :: z.disk.scanned }
      (FatWalks.rawCluster sb bad w start z).2.disk :=
    rawSectors_logs start (fun _ hcount hcluster => inData_of_isCluster hcluster hcount)
      sb.clusterSize 0 { z with disk := { z.disk with scanned := start :: z.disk.scanned } }
      (by omega)
  have hsafe : Safe sb { z.disk with scanned := start :: z.disk.scanned } := fun hfollowed =>
    h ⟨hfollowed.1, fun n hn => hfollowed.2 n (List.mem_cons_of_mem start hn)⟩
  refine hsafe.of_logs hlogs fun hfollowed sector hdata => .inr (hdata (hfollowed.2 start ?_))
  rw [hlogs.2.1]
  exact List.mem_cons_self

def Scanned.disk : Scanned → State
  | found _ z | panic z | error _ z => z.disk

theorem rawTurn_stays {z : Nat × Scan} (h : Safe sb z.2.disk) :
    Stays sb (rawTurn sb bad w) (fun t => t.2.disk) Scanned.disk z := by
  refine stays_of_turn h fun t hsafe => ?_
  have hcluster := hsafe.rawCluster bad w t.1
  have hnext := hcluster.fatAccess bad t.1 none
  unfold rawTurn
  dsimp only
  by_cases hfound : 0 ≤ (FatWalks.rawCluster sb bad w t.1 t.2).1
  · rw [if_pos hfound]
    exact hcluster
  · rw [if_neg hfound]
    cases hread : fatAccess sb bad (FatWalks.rawCluster sb bad w t.1 t.2).2.disk t.1 none with
    | mk e s =>
        rw [hread] at hnext
        cases e <;> exact hnext

end LinuxKernel.V098.Fs.FatWalks
