import LinuxKernel.V098.Fs.Fat

/-!
# LinuxKernel.V098.Fs.FatCopies

**The entries of the FAT are independent, and its copies agree**, as long as no change to
the second sector of a copy is forgotten: `fat_access` does not mark that buffer dirty.

The bytes of an entry are first read off the code as bytes of one table (`next_eq`,
`diskByte_write`), where writing and reading are arithmetic. The invariant says which
sectors of which copies the call in progress has still to copy (`Stale`).
-/

namespace LinuxKernel.V098.Fs.Fat

open WriteBack

variable {sb : Super} {s s' : State} {a : Act} {this this' c : Nat} {new : Option Value}

/-! ### The two bytes of an entry -/

theorem fatBits_eq (sb : Super) : sb.fatBits = 16 ∨ sb.fatBits = 12 := by
  have := sb.bits
  split at this
  · exact Or.inl this
  · exact Or.inr this

theorem and_15 (p : Nat) : p &&& 0xf = p % 16 := Nat.and_two_pow_sub_one_eq_mod p 4

theorem and_4095 (p : Nat) : p &&& 0xfff = p % 4096 := Nat.and_two_pow_sub_one_eq_mod p 12

theorem and_255 (p : Nat) : p &&& 0xff = p % 256 := Nat.and_two_pow_sub_one_eq_mod p 8

theorem and_240 {q : Nat} (h : q < 256) : q &&& 0xf0 = q / 16 * 16 := by
  have hall : ∀ q : Fin 256, q.val &&& 0xf0 = q.val / 16 * 16 := by decide +kernel
  exact hall ⟨q, h⟩

theorem or_low {x y : Nat} (h : x < 16) : x ||| y <<< 4 = y * 16 + x := by
  rw [Nat.or_comm, Nat.shiftLeft_eq, Nat.mul_comm, ← Nat.two_pow_add_eq_or_of_lt h]

theorem or_high {x y : Nat} (h : x < 16) : (y * 16) ||| x = y * 16 + x := by
  rw [Nat.mul_comm, show 16 = 2 ^ 4 from rfl, ← Nat.two_pow_add_eq_or_of_lt h]

/-- Which numbers of an entry are read as an end mark. -/
def mark (sb : Super) (x : Nat) : Int := if 2 ^ sb.fatBits - 8 ≤ x then -1 else x

theorem decode_16 (h : sb.fatBits = 16) (this p q : Nat) :
    decode sb this p q = mark sb (p + q * 256) := by
  simp [decode, mark, h, Nat.shiftLeft_eq]

theorem decode_odd (h : sb.fatBits = 12) (hodd : this % 2 = 1) {p q : Nat} (hp : p < 256) :
    decode sb this p q = mark sb ((q * 16 + p / 16) % 4096) := by
  have hor : (p >>> 4) ||| (q <<< 4) = q * 16 + p / 16 := by
    rw [Nat.shiftRight_eq_div_pow]
    exact or_low (by omega)
  simp [decode, mark, h, if_pos hodd, hor, and_4095]

theorem decode_even (h : sb.fatBits = 12) (heven : this % 2 ≠ 1) (p q : Nat) :
    decode sb this p q = mark sb ((p + q * 256) % 4096) := by
  simp [decode, mark, h, if_neg heven, and_4095, Nat.shiftLeft_eq]

/-- An entry reads as what has been written. -/
theorem decode_encode {v p q : Nat} (hv : v < 2 ^ sb.fatBits) (hq : q < 256) :
    decode sb this (encode sb this v p q).1.toNat (encode sb this v p q).2.toNat = mark sb v := by
  rcases fatBits_eq sb with h | h
  · rw [h] at hv
    simp only [decode_16 h, encode, h, if_true, BitVec.toNat_ofNat, Nat.shiftRight_eq_div_pow]
    congr 1
    omega
  · rw [h] at hv
    have h16 : sb.fatBits ≠ 16 := by omega
    by_cases hodd : this % 2 = 1
    · rw [decode_odd h hodd (BitVec.isLt _)]
      simp only [encode, if_neg h16, if_pos hodd, BitVec.toNat_ofNat, and_15,
        or_low (Nat.mod_lt p (by decide : 0 < 16)), Nat.shiftRight_eq_div_pow]
      congr 1
      omega
    · rw [decode_even h hodd]
      simp only [encode, if_neg h16, if_neg hodd, BitVec.toNat_ofNat, and_255, and_240 hq,
        Nat.shiftRight_eq_div_pow, or_high (by omega : v / 2 ^ 8 < 16)]
      congr 1
      omega

/-- The entry that shares the second byte of an even one does not change. -/
theorem decode_next {v p q r : Nat} (h : sb.fatBits = 12) (heven : this % 2 ≠ 1)
    (hv : v < 2 ^ sb.fatBits) (hq : q < 256) :
    decode sb (this + 1) (encode sb this v p q).2.toNat r = decode sb (this + 1) q r := by
  rw [h] at hv
  have h16 : sb.fatBits ≠ 16 := by omega
  rw [decode_odd h (by omega) (BitVec.isLt _), decode_odd h (by omega) hq]
  simp only [encode, if_neg h16, if_neg heven, BitVec.toNat_ofNat, and_240 hq,
    Nat.shiftRight_eq_div_pow, or_high (by omega : v / 2 ^ 8 < 16)]
  congr 1
  omega

/-- The entry that shares the first byte of an odd one does not change. -/
theorem decode_prev {v p q r : Nat} (h : sb.fatBits = 12) (hodd : this % 2 = 1) :
    decode sb (this - 1) r (encode sb this v p q).1.toNat = decode sb (this - 1) r p := by
  have h16 : sb.fatBits ≠ 16 := by omega
  rw [decode_even h (by omega), decode_even h (by omega)]
  simp only [encode, if_neg h16, if_pos hodd, BitVec.toNat_ofNat, and_15,
    or_low (Nat.mod_lt p (by decide : 0 < 16))]
  exact congrArg (mark sb) (by omega)

/-! ### Bytes of a table -/

/-- A byte of copy `c`, as a reader sees it. -/
def fatByte (sb : Super) (s : State) (c a : Nat) : BitVec 8 := diskByte sb s.store.view c a

theorem lt_table (h : this < sb.clusters + 2) : firstByte sb this + 1 < sb.fatLength * 512 := by
  have hroom := sb.room
  unfold SECTOR_SIZE at hroom
  unfold firstByte
  rcases fatBits_eq sb with hb | hb
  · rw [hb] at hroom ⊢
    simp only [if_true]
    omega
  · rw [hb] at hroom ⊢
    rw [if_neg (by decide)]
    omega

theorem first_eq (s : State) (this : Nat) :
    byte s (firstSector sb this) (firstOffset sb this) = fatByte sb s 0 (firstByte sb this) := by
  unfold byte fatByte diskByte firstSector firstOffset
  have hoff : (if sb.fatBits = 16 then firstByte sb this % 512 / 2 * 2
      else firstByte sb this % 512) = firstByte sb this % 512 := by
    split
    · next h =>
      simp only [firstByte, if_pos h]
      omega
    · rfl
  simp only [hoff, Nat.mul_zero, Nat.add_zero]

theorem last_sector (sb : Super) (this : Nat) :
    lastByte sb this / 512 = (firstByte sb this + 1) / 512 := by
  unfold lastByte firstByte
  split
  · omega
  · rfl

theorem last_offset (sb : Super) (this : Nat) :
    lastOffset sb this = (firstByte sb this + 1) % 512 := by
  unfold lastOffset
  split
  · next h =>
    simp only [firstByte, if_pos h]
    omega
  · rfl

theorem first_offset (sb : Super) (this : Nat) :
    firstOffset sb this = firstByte sb this % 512 := by
  unfold firstOffset
  split
  · next h =>
    simp only [firstByte, if_pos h]
    omega
  · rfl

theorem last_eq (s : State) (this : Nat) :
    byte s (lastSector sb this) (lastOffset sb this) = fatByte sb s 0 (firstByte sb this + 1) := by
  unfold byte fatByte diskByte lastSector
  rw [last_sector, last_offset]
  simp only [Nat.mul_zero, Nat.add_zero]

theorem next_eq (s : State) (this : Nat) : next sb s this = diskEntry sb s.store.view this := by
  unfold next diskEntry
  rw [first_eq, last_eq]
  rfl

/-! ### Stores into a sector -/

theorem position_inj {sector sector' o o' : Nat} (ho : o < 512) (ho' : o' < 512)
    (hb : sector / 2 = sector' / 2)
    (hp : sector % 2 * 512 + o = sector' % 2 * 512 + o') : sector = sector' ∧ o = o' := by
  omega

theorem byte_setByte {sector o sector' o' : Nat} {x : BitVec 8}
    (hc : s.store.cached (sector / 2) = true) (ho : o < 512) (ho' : o' < 512) :
    byte (setByte s sector o x) sector' o' =
      if sector' = sector ∧ o' = o then x else byte s sector' o' := by
  unfold byte setByte
  simp only [Store.view_modify hc]
  by_cases hb : sector' / 2 = sector / 2
  · rw [if_pos hb]
    by_cases hp : sector' % 2 * 512 + o' = sector % 2 * 512 + o
    · obtain ⟨rfl, rfl⟩ := position_inj ho' ho hb hp
      simp
    · rw [Function.update_of_ne hp, if_neg]
      rintro ⟨rfl, rfl⟩
      exact hp rfl
  · rw [if_neg hb, if_neg]
    rintro ⟨rfl, -⟩
    exact hb rfl

theorem byte_memcpy {target sector sector' o' : Nat} {m : Bool}
    (hc : s.store.cached (target / 2) = true) (ho' : o' < 512) :
    byte (memcpy s target sector m) sector' o' =
      if sector' = target then byte s sector o' else byte s sector' o' := by
  unfold memcpy
  rw [byte]
  simp only [Store.view_modify hc]
  by_cases hb : sector' / 2 = target / 2
  · rw [if_pos hb]
    by_cases hs : sector' = target
    · rw [if_pos hs, if_pos (by omega)]
      congr 1
      omega
    · rw [if_neg hs, if_neg (by omega)]
      rfl
  · rw [if_neg hb, if_neg]
    · rfl
    · rintro rfl
      exact hb rfl

/-- Sectors of the FAT are told apart by the copy and the sector in it. -/
theorem sector_inj {l c c' k k' : Nat} (hk : k < l) (hk' : k' < l)
    (h : l * c + k = l * c' + k') : c = c' ∧ k = k' := by
  have hdiv : ∀ c k, k < l → (l * c + k) / l = c := fun c k hk => by
    rw [Nat.mul_add_div (by omega), Nat.div_eq_of_lt hk, Nat.add_zero]
  have hc : c = c' := by rw [← hdiv c k hk, h, hdiv c' k' hk']
  subst hc
  exact ⟨rfl, by omega⟩

/-- Sector `k` of copy `c`. -/
def sector (sb : Super) (c k : Nat) : Nat := sb.fatStart + sb.fatLength * c + k

theorem fatByte_eq (s : State) (c a : Nat) :
    fatByte sb s c a = byte s (sector sb c (a / 512)) (a % 512) := rfl

theorem firstSector_eq (sb : Super) (this : Nat) :
    firstSector sb this = sector sb 0 (firstByte sb this / 512) := by
  simp [firstSector, sector]

theorem lastSector_eq (sb : Super) (this : Nat) :
    lastSector sb this = sector sb 0 ((firstByte sb this + 1) / 512) := by
  simp [lastSector, sector, last_sector]

theorem copySector_eq (sb : Super) (this c : Nat) :
    copySector sb this c = sector sb c (firstByte sb this / 512) := by
  unfold copySector firstSector sector
  omega

theorem copySector_succ (h : firstSector sb this ≠ lastSector sb this) :
    copySector sb this c + 1 = sector sb c ((firstByte sb this + 1) / 512) := by
  rw [firstSector_eq, lastSector_eq] at h
  unfold copySector firstSector
  unfold sector at h ⊢
  omega

/-- Two bytes of the FAT are in one place only if they are the same byte. -/
theorem place_iff {c d a b : Nat} (ha : a < sb.fatLength * 512) (hb : b < sb.fatLength * 512) :
    (sector sb c (a / 512) = sector sb d (b / 512) ∧ a % 512 = b % 512) ↔ c = d ∧ a = b := by
  constructor
  · rintro ⟨hs, ho⟩
    have hpos : sb.fatLength * c + a / 512 = sb.fatLength * d + b / 512 := by
      unfold sector at hs
      omega
    obtain ⟨rfl, hk⟩ := sector_inj (by omega) (by omega) hpos
    exact ⟨rfl, by omega⟩
  · rintro ⟨rfl, rfl⟩
    exact ⟨rfl, rfl⟩

/-- The pair of bytes that `write` stores. -/
def stored (sb : Super) (s : State) (this v : Nat) : BitVec 8 × BitVec 8 :=
  encode sb this v (fatByte sb s 0 (firstByte sb this)).toNat
    (fatByte sb s 0 (firstByte sb this + 1)).toNat

theorem fatByte_write {v a : Nat} (hthis : this < sb.clusters + 2)
    (hf : s.store.cached (firstSector sb this / 2) = true)
    (hl : s.store.cached (lastSector sb this / 2) = true) (ha : a < sb.fatLength * 512) :
    fatByte sb (write sb s this v) c a =
      if c = 0 ∧ a = firstByte sb this + 1 then (stored sb s this v).2
      else if c = 0 ∧ a = firstByte sb this then (stored sb s this v).1
      else fatByte sb s c a := by
  have htable := lt_table hthis
  have hl' : (setByte s (firstSector sb this) (firstByte sb this % 512)
      (stored sb s this v).1).store.cached (lastSector sb this / 2) = true := by
    simpa [setByte] using hl
  unfold write
  rw [first_eq, last_eq, first_offset, last_offset]
  change fatByte sb (setByte (setByte s _ _ (stored sb s this v).1) _ _ (stored sb s this v).2) c a = _
  rw [fatByte_eq, byte_setByte hl' (by omega) (by omega), byte_setByte hf (by omega) (by omega),
    firstSector_eq, lastSector_eq]
  simp only [place_iff ha htable, place_iff ha (by omega : firstByte sb this < sb.fatLength * 512),
    ← fatByte_eq]

theorem fatByte_memcpy {d k a : Nat} {m : Bool} (hk : k < sb.fatLength)
    (hc : s.store.cached (sector sb d k / 2) = true) (ha : a < sb.fatLength * 512) :
    fatByte sb (memcpy s (sector sb d k) (sector sb 0 k) m) c a =
      if c = d ∧ a / 512 = k then fatByte sb s 0 a else fatByte sb s c a := by
  rw [fatByte_eq, byte_memcpy hc (by omega)]
  by_cases h : c = d ∧ a / 512 = k
  · obtain ⟨rfl, rfl⟩ := h
    rw [if_pos rfl, if_pos ⟨rfl, rfl⟩]
    rfl
  · rw [if_neg h, if_neg]
    · rfl
    · intro heq
      unfold sector at heq
      exact h (sector_inj (by omega) hk (by omega))

/-! ### One entry is written -/

/-- `new` is stored as a number that reads as it should. -/
def Readable (sb : Super) (new : Option Value) : Prop :=
  ∀ v ∈ new, v.toNat < 2 ^ sb.fatBits ∧ mark sb v.toNat = v.reading

/-- A cluster number that is no end mark. -/
def Small (sb : Super) : Option Value → Prop
  | some (.cluster c) => c < 2 ^ sb.fatBits - 8
  | _ => True

theorem Readable.of_allowed (ha : Allowed sb new) (hs : Small sb new) : Readable sb new := by
  intro v hv
  obtain rfl := Option.mem_def.mp hv
  have hpow : 8 < 2 ^ sb.fatBits := by
    rcases fatBits_eq sb with h | h <;> rw [h] <;> decide
  unfold mark
  cases v with
  | free =>
      refine ⟨by simp only [Value.toNat]; omega, ?_⟩
      rw [if_neg (by simp only [Value.toNat]; omega)]
      rfl
  | cluster c =>
      have hc : c < 2 ^ sb.fatBits - 8 := hs
      refine ⟨by simp only [Value.toNat]; omega, ?_⟩
      rw [if_neg (by simp only [Value.toNat]; omega)]
      rfl
  | eof m =>
      have := ha _ hv
      exact ⟨this.2, if_pos this.1⟩

section Write

variable {v : Nat} (hthis : this < sb.clusters + 2)
  (hf : s.store.cached (firstSector sb this / 2) = true)
  (hl : s.store.cached (lastSector sb this / 2) = true)
include hthis hf hl

theorem entry_write (hv : v < 2 ^ sb.fatBits) :
    diskEntry sb (write sb s this v).store.view this = mark sb v := by
  have htable := lt_table hthis
  have h0 := fatByte_write (c := 0) (v := v) (a := firstByte sb this) hthis hf hl (by omega)
  have h1 := fatByte_write (c := 0) (v := v) hthis hf hl htable
  rw [if_neg (by omega), if_pos ⟨rfl, rfl⟩] at h0
  rw [if_pos ⟨rfl, rfl⟩] at h1
  unfold diskEntry
  unfold fatByte at h0 h1
  rw [h0, h1]
  exact decode_encode hv (BitVec.isLt _)

/-- Two entries share a byte only where one is the odd successor of the other. -/
theorem entry_write_of_ne {n : Nat} (hn : n < sb.clusters + 2) (hne : n ≠ this)
    (hv : v < 2 ^ sb.fatBits) :
    diskEntry sb (write sb s this v).store.view n = diskEntry sb s.store.view n := by
  have htable := lt_table hn
  have h0 := fatByte_write (c := 0) (v := v) (a := firstByte sb n) hthis hf hl (by omega)
  have h1 := fatByte_write (c := 0) (v := v) hthis hf hl htable
  unfold diskEntry
  unfold fatByte at h0 h1
  rw [h0, h1]
  rcases fatBits_eq sb with hb | hb
  · -- entries of two bytes
    have hfb : ∀ n, firstByte sb n = n * 2 := fun n => if_pos hb
    simp only [hfb]
    rw [if_neg (by omega), if_neg (by omega), if_neg (by omega), if_neg (by omega)]
  · have hfb : ∀ n, firstByte sb n = n * 3 / 2 := fun n => if_neg (by omega)
    by_cases hnext : n = this + 1 ∧ this % 2 ≠ 1
    · obtain ⟨rfl, heven⟩ := hnext
      have hbyte : firstByte sb (this + 1) = firstByte sb this + 1 := by
        simp only [hfb]
        omega
      rw [hbyte, if_pos ⟨rfl, rfl⟩, if_neg (by omega), if_neg (by omega)]
      exact decode_next hb heven hv (BitVec.isLt _)
    · by_cases hprev : n + 1 = this ∧ this % 2 = 1
      · obtain ⟨rfl, hodd⟩ := hprev
        have hbyte : firstByte sb (n + 1) = firstByte sb n + 1 := by
          simp only [hfb]
          omega
        rw [hbyte, if_neg (by omega), if_neg (by omega), if_neg (by omega), if_pos ⟨rfl, rfl⟩]
        have := decode_prev (v := v) (q := (fatByte sb s 0 (firstByte sb n + 1 + 1)).toNat)
          (p := (fatByte sb s 0 (firstByte sb n + 1)).toNat)
          (r := (fatByte sb s 0 (firstByte sb n)).toNat) hb hodd
        unfold stored
        rw [hbyte]
        simpa only [fatByte, Nat.add_sub_cancel] using this
      · simp only [hfb]
        rw [if_neg (by omega), if_neg (by omega), if_neg (by omega), if_neg (by omega)]

end Write

/-! ### The invariant -/

/-- Which sectors of which copies the call in progress has not copied yet. -/
def Stale (sb : Super) : Pc → Nat → Nat → Prop
  | .idle, _, _ | .first _ _, _, _ | .second _ _, _, _ => False
  | .copy this c', c, k =>
      c' ≤ c ∧ (k = firstByte sb this / 512 ∨ k = (firstByte sb this + 1) / 512)
  | .copy2 this c', c, k =>
      (c = c' ∧ k = (firstByte sb this + 1) / 512) ∨
        (c' < c ∧ (k = firstByte sb this / 512 ∨ k = (firstByte sb this + 1) / 512))

/-- What holds wherever a call is; `stale` tells where the copies may differ. -/
structure Core (sb : Super) (s : State) (stale : Nat → Nat → Prop) : Prop where
  clean : s.store.Clean
  entry : ∀ n < sb.clusters + 2, diskEntry sb s.store.view n = s.entry n
  copies : ∀ c < sb.fats, ∀ a < sb.fatLength * 512, ¬ stale c (a / 512) →
    fatByte sb s c a = fatByte sb s 0 a
  log : ∀ e ∈ s.log, e.next = e.last

/-- What the place of a call says about its arguments. -/
def PcOk (sb : Super) : Pc → Prop
  | .idle => True
  | .first this new => this < sb.clusters + 2 ∧ Readable sb new
  | .second this new => this < sb.clusters + 2 ∧ Readable sb new
  | .copy this c => this < sb.clusters + 2 ∧ 0 < c
  | .copy2 this c =>
      this < sb.clusters + 2 ∧ 0 < c ∧ firstSector sb this ≠ lastSector sb this

structure Inv (sb : Super) (s : State) : Prop where
  core : Core sb s (Stale sb s.pc)
  pc : PcOk sb s.pc
  held : ∀ b ∈ held sb s.pc, s.store.cached b = true

variable {stale stale' : Nat → Nat → Prop}

theorem Core.setPc (h : Core sb s stale) (pc : Pc) : Core sb { s with pc := pc } stale :=
  ⟨h.clean, h.entry, h.copies, h.log⟩

theorem Core.mono (h : Core sb s stale) (himp : ∀ c k, c < sb.fats → stale c k → stale' c k) :
    Core sb s stale' :=
  ⟨h.clean, h.entry, fun c hc a ha hs => h.copies c hc a ha fun hst => hs (himp c _ hc hst), h.log⟩

/-- A step that no reader of the buffers can see. -/
theorem Core.of_view (h : Core sb s stale) {store : Store Nat Data} (hclean : store.Clean)
    (hview : ∀ b, store.view b = s.store.view b) :
    Core sb { s with store := store } stale := by
  have hview' : store.view = s.store.view := funext hview
  refine ⟨hclean, ?_, ?_, h.log⟩
  · rw [hview']
    exact h.entry
  · intro c hc a ha hst
    have := h.copies c hc a ha hst
    unfold fatByte at this ⊢
    rw [hview']
    exact this

theorem Core.sread (h : Core sb s stale) (k : Nat) : Core sb (sread s k) stale :=
  h.of_view (h.clean.bread _) fun _ => Store.view_bread

theorem Core.memcpy {d k : Nat} {m : Bool} (h : Core sb s stale) (hd : 0 < d)
    (hk : k < sb.fatLength) (hc : s.store.cached (sector sb d k / 2) = true)
    (hm : m = true ∨ s.store.dirty (sector sb d k / 2) = true ∨
      ∀ o < 512, byte s (sector sb d k) o = byte s (sector sb 0 k) o) :
    Core sb (memcpy s (sector sb d k) (sector sb 0 k) m) fun c i =>
      stale c i ∧ ¬ (c = d ∧ i = k) := by
  have hzero : ∀ a < sb.fatLength * 512,
      fatByte sb (Fat.memcpy s (sector sb d k) (sector sb 0 k) m) 0 a = fatByte sb s 0 a := by
    intro a ha
    rw [fatByte_memcpy hk hc ha, if_neg (by omega)]
  refine ⟨h.clean.modify (hm.imp_right (Or.imp_right fun heq => ?_)), ?_, ?_, h.log⟩
  · -- the copy has the same bytes already
    funext o
    by_cases ho : o / 512 = sector sb d k % 2
    · rw [if_pos ho, ← heq (o % 512) (by omega)]
      unfold byte
      exact congrArg _ (by omega)
    · rw [if_neg ho]
  · intro n hn
    have htable := lt_table hn
    have h0 := hzero (firstByte sb n) (by omega)
    have h1 := hzero (firstByte sb n + 1) htable
    unfold fatByte at h0 h1
    refine Eq.trans ?_ (h.entry n hn)
    unfold diskEntry
    rw [h0, h1]
  · intro c hcf a ha hst
    rw [hzero a ha, fatByte_memcpy hk hc ha]
    by_cases hck : c = d ∧ a / 512 = k
    · rw [if_pos hck]
    · rw [if_neg hck]
      exact h.copies c hcf a ha fun hs => hst ⟨hs, hck⟩

theorem Core.write {v : Value} {event : Event} (h : Core sb s fun _ _ => False)
    (hthis : this < sb.clusters + 2) (hf : s.store.cached (firstSector sb this / 2) = true)
    (hl : s.store.cached (lastSector sb this / 2) = true)
    (hv : v.toNat < 2 ^ sb.fatBits ∧ mark sb v.toNat = v.reading) (he : event.next = event.last) :
    Core sb
      { write sb s this v.toNat with
        entry := Function.update s.entry this v.reading, log := event :: s.log }
      (Stale sb (.copy this 1)) := by
  have hclean : (Fat.write sb s this v.toNat).store.Clean :=
    Store.Clean.modify (Store.Clean.modify h.clean (Or.inl rfl)) (Or.inl rfl)
  refine ⟨hclean, fun n hn => ?_, fun c hc a ha hst => ?_, ?_⟩
  · change diskEntry sb (Fat.write sb s this v.toNat).store.view n =
      Function.update s.entry this v.reading n
    by_cases hne : n = this
    · subst hne
      rw [entry_write hthis hf hl hv.1, hv.2, Function.update_self]
    · rw [entry_write_of_ne hthis hf hl hn hne hv.1, Function.update_of_ne hne]
      exact h.entry n hn
  · change fatByte sb (Fat.write sb s this v.toNat) c a = fatByte sb (Fat.write sb s this v.toNat) 0 a
    rcases Nat.eq_zero_or_pos c with rfl | hpos
    · rfl
    · -- the sector is not one that is written
      have hk : ¬ (a / 512 = firstByte sb this / 512 ∨ a / 512 = (firstByte sb this + 1) / 512) :=
        fun hk => hst ⟨hpos, hk⟩
      rw [fatByte_write hthis hf hl ha, fatByte_write hthis hf hl ha, if_neg (by omega),
        if_neg (by omega), if_neg (by omega), if_neg (by omega)]
      exact h.copies c hc a ha id
  · intro e he'
    rcases List.mem_cons.mp he' with rfl | hmem
    · exact he
    · exact h.log e hmem

/-! ### The steps -/

@[simp] theorem cached_sread {k b : Nat} :
    (sread s k).store.cached b = (decide (b = k / 2) || s.store.cached b) :=
  Store.cached_bread

@[simp] theorem cached_memcpy {d k b : Nat} {m : Bool} :
    (memcpy s d k m).store.cached b = s.store.cached b :=
  Store.cached_modify

theorem cached_write {v b : Nat} : (write sb s this v).store.cached b = s.store.cached b := by
  unfold write setByte
  rw [Store.cached_modify, Store.cached_modify]

theorem dirty_sread {k b : Nat} : (sread s k).store.dirty b = s.store.dirty b :=
  Store.dirty_bread

theorem byte_sread {k i o : Nat} : byte (sread s k) i o = byte s i o := by
  unfold byte sread
  rw [Store.view_bread]

section Steps

variable (hthis : this < sb.clusters + 2)
  (hf : s.store.cached (firstSector sb this / 2) = true)
  (hl : s.store.cached (lastSector sb this / 2) = true)
include hthis hf hl

theorem Inv.nextCopy (h : Core sb s (Stale sb (.copy this c))) (hc : 0 < c) :
    Inv sb (nextCopy sb s this c) := by
  unfold Fat.nextCopy
  by_cases hlt : c < sb.fats
  · rw [if_pos hlt]
    refine ⟨h.setPc _, ⟨hthis, hc⟩, fun b hb => ?_⟩
    rcases List.mem_pair.mp hb with rfl | rfl
    · exact hf
    · exact hl
  · rw [if_neg hlt]
    refine ⟨(h.mono fun c' k hc' hs => ?_).setPc _, trivial, nofun⟩
    exact absurd hs.1 (by omega)

theorem Inv.access (h : Core sb s fun _ _ => False) (hnew : Readable sb new) :
    Inv sb (access sb s this new) := by
  have hnext : next sb s this = s.entry this := by
    rw [next_eq]
    exact h.entry this hthis
  unfold Fat.access
  cases new with
  | none =>
      refine ⟨⟨h.clean, h.entry, h.copies, ?_⟩, trivial, nofun⟩
      intro e he
      rcases List.mem_cons.mp he with rfl | hmem
      · exact hnext
      · exact h.log e hmem
  | some v =>
      refine Inv.nextCopy hthis ?_ ?_ (h.write hthis hf hl (hnew v rfl) hnext) Nat.one_pos
      · exact cached_write.trans hf
      · exact cached_write.trans hl

end Steps

def SameBytes (s : State) (k j : Nat) : Prop := ∀ o < 512, byte s k o = byte s j o

/-- The step does not store a number that reads as an end mark for a cluster, and does not
forget a change: the second sector of a copy is dirty already, or has the right bytes. -/
def Mirrors (sb : Super) (s : State) : Act → Prop
  | .fatAccess _ new => Small sb new
  | .go =>
      match s.pc with
      | .copy2 this c =>
          s.store.dirty ((copySector sb this c + 1) / 2) = true ∨
            SameBytes s (copySector sb this c + 1) (lastSector sb this)
      | _ => True
  | _ => True

theorem same_sector (h : firstSector sb this = lastSector sb this) :
    firstByte sb this / 512 = (firstByte sb this + 1) / 512 := by
  rw [firstSector_eq, lastSector_eq] at h
  unfold sector at h
  omega

theorem Inv.go (h : Inv sb s) (hok : Mirrors sb s .go) (hs : go sb s = .next s') : Inv sb s' := by
  have hcore := h.core
  have hpc := h.pc
  have hheld := h.held
  unfold Fat.go at hs
  cases hp : s.pc with
  | idle =>
      rw [hp] at hs
      cases hs
  | first this new =>
      rw [hp] at hs hcore hpc
      have hcore' : Core sb (sread s (firstSector sb this)) fun _ _ => False := hcore.sread _
      dsimp only at hs
      split at hs
      · next heq =>
        cases hs
        exact Inv.access hpc.1 (by simp) (by simp [← heq]) hcore' hpc.2
      · cases hs
        refine ⟨hcore'.setPc _, hpc, fun b hb => ?_⟩
        obtain rfl := List.mem_singleton.mp hb
        simp
  | second this new =>
      rw [hp] at hs hcore hpc hheld
      cases hs
      refine Inv.access hpc.1 ?_ (by simp) (hcore.sread _) hpc.2
      simp [hheld _ (List.mem_singleton.mpr rfl)]
  | copy this c =>
      rw [hp] at hs hcore hpc hheld
      obtain ⟨hthis, hc⟩ := hpc
      have htable := lt_table hthis
      have hf := hheld _ (List.mem_pair.mpr (Or.inl rfl))
      have hl := hheld _ (List.mem_pair.mpr (Or.inr rfl))
      have hcore' := (hcore.sread (copySector sb this c)).memcpy (d := c) (m := true)
        (k := firstByte sb this / 512) hc (by omega) (by simp [copySector_eq]) (Or.inl rfl)
      rw [← copySector_eq, ← firstSector_eq] at hcore'
      dsimp only at hs
      split at hs
      · next heq =>
        cases hs
        refine Inv.nextCopy hthis (by simp [hf]) (by simp [hl]) (hcore'.mono ?_) (Nat.succ_pos c)
        rintro c' k - ⟨⟨hle, hk⟩, hne⟩
        rw [← same_sector heq, or_self] at hk
        exact ⟨by omega, Or.inl hk⟩
      · next hne =>
        cases hs
        refine ⟨(hcore'.mono ?_).setPc _, ⟨hthis, hc, hne⟩, fun b hb => ?_⟩
        · rintro c' k - ⟨⟨hle, hk⟩, hnot⟩
          by_cases heq : c' = c
          · exact Or.inl ⟨heq, hk.resolve_left fun hk => hnot ⟨heq, hk⟩⟩
          · exact Or.inr ⟨by omega, hk⟩
        · rcases List.mem_cons.mp hb with rfl | hb
          · simp [hf]
          · rcases List.mem_pair.mp hb with rfl | rfl
            · simp [hl]
            · simp
  | copy2 this c =>
      simp only [Mirrors, hp] at hok
      rw [hp] at hs hcore hpc hheld
      obtain ⟨hthis, hc, hne⟩ := hpc
      have htable := lt_table hthis
      have hf := hheld _ (List.mem_cons_self ..)
      have hl := hheld _ (List.mem_cons_of_mem _ (List.mem_cons_self ..))
      have hcore' := (hcore.sread (copySector sb this c + 1)).memcpy (d := c) (m := false)
        (k := (firstByte sb this + 1) / 512) hc (by omega) (by simp [copySector_succ hne]) (by
          rw [← copySector_succ hne, ← lastSector_eq]
          simp only [dirty_sread, byte_sread]
          exact Or.inr hok)
      rw [← copySector_succ hne, ← lastSector_eq] at hcore'
      cases hs
      refine Inv.nextCopy hthis (by simp [hf]) (by simp [hl]) (hcore'.mono ?_) (Nat.succ_pos c)
      rintro c' k - ⟨hstale, hnot⟩
      rcases hstale with hlast | ⟨hlt, hk⟩
      · exact absurd hlast hnot
      · exact ⟨hlt, hk⟩

theorem Inv.step (h : Inv sb s) (hok : Mirrors sb s a) (hs : step sb s a = .next s') :
    Inv sb s' := by
  cases a with
  | fatAccess this new =>
      simp only [Fat.step] at hs
      split at hs
      · next hc =>
        obtain ⟨hidle, hthis, hallowed⟩ := hc
        cases hs
        have hcore := h.core
        rw [hidle] at hcore
        exact ⟨hcore.setPc _, ⟨hthis, .of_allowed hallowed hok⟩, nofun⟩
      · cases hs
  | go => exact h.go hok hs
  | writeBack b =>
      cases hs
      refine ⟨h.core.of_view (h.core.clean.writeBack b) fun _ => Store.view_writeBack, h.pc, ?_⟩
      intro b' hb
      exact Store.cached_writeBack.trans (h.held b' hb)
  | drop b =>
      simp only [Fat.step] at hs
      split at hs
      · next hc =>
        obtain ⟨hdirty, hfree⟩ := hc
        cases hs
        refine ⟨h.core.of_view (h.core.clean.drop b) fun _ => h.core.clean.view_drop hdirty,
          h.pc, fun b' hb => ?_⟩
        have hne : b' ≠ b := by
          rintro rfl
          exact hfree hb
        exact (Store.cached_drop hne).trans (h.held b' hb)
      · cases hs

theorem Init.inv (h : Init sb s) : Inv sb s := by
  have hview : s.store.view = s.store.disk := by
    funext b
    simp [Store.view, h.buffer b]
  refine ⟨⟨fun b x hx => ?_, fun n _ => ?_, fun c hc a ha _ => ?_, ?_⟩, ?_, ?_⟩
  · rw [h.buffer b] at hx
    cases hx
  · rw [hview, h.entry]
  · unfold fatByte
    rw [hview]
    exact h.copies c hc a ha
  · simp [h.log]
  · rw [h.pc]
    trivial
  · simp [h.pc, held]

theorem Inv.sound (h : Inv sb s) : Sound sb s := by
  refine ⟨h.core.log, fun n hn => (next_eq s n).trans (h.core.entry n hn), fun hidle => ?_⟩
  have hflush : s.store.flush = s.store.view := funext h.core.clean.flush_eq
  intro c hc a ha
  rw [hflush]
  refine h.core.copies c hc a ha ?_
  rw [hidle]
  exact id

/-- **The entries are independent and the copies agree** in every run that forgets no change
to a copy. -/
theorem sound_of_mirrors (h : Init sb s) (hr : Reaches (step sb) (Mirrors sb) s s') :
    Sound sb s' :=
  (hr.invariant h.inv fun _ _ _ hi hok hs => hi.step hok hs).sound

/-! ### An entry in two sectors -/

instance (new : Option Value) : Decidable (Small sb new) :=
  match new with
  | none | some .free | some (.eof _) => isTrue trivial
  | some (.cluster c) => inferInstanceAs (Decidable (c < _))

instance (s : State) (k j : Nat) : Decidable (SameBytes s k j) :=
  Nat.decidableBallLT 512 fun o _ => byte s k o = byte s j o

instance (s : State) (a : Act) : Decidable (Mirrors sb s a) :=
  match a with
  | .fatAccess _ new => inferInstanceAs (Decidable (Small sb new))
  | .go =>
      match h : s.pc with
      | .copy2 this c =>
          decidable_of_iff (s.store.dirty ((copySector sb this c + 1) / 2) = true ∨
            SameBytes s (copySector sb this c + 1) (lastSector sb this)) (by simp only [Mirrors, h])
      | .idle | .first _ _ | .second _ _ | .copy _ _ => isTrue (by simp only [Mirrors, h])
  | .writeBack _ | .drop _ => isTrue trivial

/-- Two copies of a table of two sectors, the first of them the second of its block. -/
def floppy : Super where
  fatBits := 12
  fats := 2
  fatStart := 1
  fatLength := 2
  clusters := 600
  bits := by decide
  hasFat := Nat.two_pos
  room := by decide

def formatted : State where
  store := { disk := fun _ _ => 0, buffer := fun _ => none }
  pc := .idle
  entry := fun _ => 0
  log := []

theorem init_formatted : Init floppy formatted where
  pc := rfl
  buffer := fun _ => rfl
  copies := fun _ _ _ _ => rfl
  entry := fun this => by
    change 0 = decode floppy this 0 0
    simp [decode]
  log := rfl

/-- Entry 9 is given cluster 10, entry 10 the end mark, and entry 9 is read again after its
block has been written. -/
def chainRun : List Act :=
  [.fatAccess 9 (some (.cluster 10)), .go, .go, .fatAccess 10 (some (.eof 0xff8)), .go, .go,
    .writeBack 0, .drop 0, .fatAccess 9 none, .go]

theorem sound_of_mirrors_chainRun :
    Sound floppy ((run (step floppy) formatted chainRun).get formatted) :=
  sound_of_mirrors init_formatted
    (.of_run (Outcome.eq_next (by decide +kernel) formatted) (by
      repeat' first
        | exact True.intro
        | refine RunOk.cons (by decide +kernel) ?_))

/-- Entry 341 has its first byte in one sector and its second in the next. -/
def straddleRun : List Act := [.fatAccess 341 (some (.eof 0xff8)), .go, .go, .go, .go]

theorem fat_not_sound :
    ∃ s, Init floppy formatted ∧ run (step floppy) formatted straddleRun = .next s ∧
      ¬ Sound floppy s := by
  refine ⟨(run (step floppy) formatted straddleRun).get formatted, init_formatted,
    Outcome.eq_next (by decide +kernel) formatted, fun h => ?_⟩
  have heq := h.copies (by decide +kernel) 1 (by decide) 512 (by decide)
  revert heq
  decide +kernel

end LinuxKernel.V098.Fs.Fat
