import LinuxKernel.V098.Fs.FreeLists

/-!
# LinuxKernel.V098.Fs.FreeListPools

**One list, between the steps of a call.** A call of `ext_new_block` takes a cell off the list
before it takes it off the count, and before `s_firstfreeblock` is that of the new first
header (`Stage`).
-/

namespace LinuxKernel.V098.Fs.FreeLists

/-- What is not yet as it will be: a cell is off the list but not handed out, the count is
ahead, and `s_firstfreeblock` is not read yet. -/
structure Stage where
  taken : Option Nat
  owed : Int
  loaded : Bool

def Stage.exact : Stage := { taken := none, owed := 0, loaded := true }

/-- The cell of a header can be told from its block and the super block. -/
def Kind.Sound (kind : Kind) (valid : Nat → Prop) : Prop :=
  ∀ n, valid n → n ≠ 0 ∧ kind.slot (kind.home n) n = n

structure PoolOk (kind : Kind) (valid : Nat → Prop) (p : Pool) (stage : Stage) : Prop where
  list : ∃ S, FreeList kind.cap p.header p.first S ∧
    (∀ n, n ∈ S ↔ valid n ∧ p.owner n = .free ∧ stage.taken ≠ some n) ∧
    p.count = S.card + stage.owed
  taken : ∀ j, stage.taken = some j → valid j ∧ p.owner j = .free
  cached : stage.loaded = true → p.cached = if p.first = 0 then none else some (kind.home p.first)

theorem blockKind_sound {sb : Super} (h : 0 < sb.firstDataZone) :
    blockKind.Sound (ValidBlock sb) := by
  intro n hn
  exact ⟨Nat.ne_of_gt (Nat.lt_of_lt_of_le h hn.1), rfl⟩

theorem inodeKind_sound (sb : Super) : inodeKind.Sound (ValidInode sb) := by
  intro n hn
  refine ⟨Nat.ne_of_gt hn.1, ?_⟩
  have h1 := hn.1
  unfold inodeKind EXT_INODES_PER_BLOCK
  dsimp only
  omega

variable {kind : Kind} {valid : Nat → Prop} {p : Pool} {stage : Stage} {n j efb : Nat}
  {free : List Nat}

namespace PoolOk

theorem exact_iff : PoolOk kind valid p .exact ↔ Exact kind valid p := by
  constructor
  · rintro ⟨⟨S, hS, hmem, hcount⟩, -, hcached⟩
    refine ⟨⟨S, hS, fun n => ?_, ?_⟩, hcached rfl⟩
    · rw [hmem]
      exact ⟨fun h => ⟨h.1, h.2.1⟩, fun h => ⟨h.1, h.2, fun hc => (nomatch hc)⟩⟩
    · rw [hcount]
      exact Int.add_zero _
  · rintro ⟨⟨S, hS, hmem, hcount⟩, hcached⟩
    refine ⟨⟨S, hS, fun n => ?_, ?_⟩, fun j hj => (nomatch hj), fun _ => hcached⟩
    · rw [hmem]
      exact ⟨fun h => ⟨h.1, h.2, fun hc => (nomatch hc)⟩, fun h => ⟨h.1, h.2.1⟩⟩
    · rw [hcount]
      exact (Int.add_zero _).symm

theorem apart (h : PoolOk kind valid p stage) : Apart kind p := by
  obtain ⟨S, hS, hmem, -⟩ := h.list
  exact ⟨S, hS, fun n hn => ((hmem n).mp hn).2.1⟩

theorem first_valid (h : PoolOk kind valid p stage) (hf : p.first ≠ 0) :
    valid p.first ∧ p.owner p.first = .free := by
  obtain ⟨S, hS, hmem, -⟩ := h.list
  have := (hmem _).mp (hS.first_mem hf)
  exact ⟨this.1, this.2.1⟩

/-- The header that the code works on is the first one. -/
theorem efb_eq (h : PoolOk kind valid p stage) (hk : kind.Sound valid)
    (hl : stage.loaded = true) (hefb : p.efb kind = some efb) : efb = p.first ∧ p.first ≠ 0 := by
  unfold Pool.efb at hefb
  rw [h.cached hl] at hefb
  split at hefb
  · cases hefb
  · next hf => exact ⟨by
      rw [← Option.some.inj hefb]
      exact (hk _ (h.first_valid hf).1).2, hf⟩

/-- What putting `n` on the list comes to. -/
private theorem put {p' : Pool} (h : PoolOk kind valid p .exact) (hv : valid n)
    (hn : p.owner n = .giving)
    (hlist : ∀ S, FreeList kind.cap p.header p.first S → n ∉ S →
      FreeList kind.cap p'.header p'.first (insert n S))
    (howner : p'.owner = Function.update p.owner n .free) (hcount' : p'.count = p.count + 1)
    (hcached : p'.cached = if p'.first = 0 then none else some (kind.home p'.first)) :
    PoolOk kind valid p' .exact := by
  obtain ⟨S, hS, hmem, hcount⟩ := h.list
  have hnS : n ∉ S := by
    rw [hmem, hn]
    rintro ⟨-, hc, -⟩
    cases hc
  refine ⟨⟨insert n S, hlist S hS hnS, fun m => ?_, ?_⟩, fun j hj => (nomatch hj), fun _ => hcached⟩
  · rw [Finset.mem_insert, hmem, howner]
    by_cases hm : m = n
    · subst hm
      rw [Function.update_self]
      exact ⟨fun _ => ⟨hv, rfl, fun hc => (nomatch hc)⟩, fun _ => Or.inl rfl⟩
    · rw [Function.update_of_ne hm]
      exact ⟨fun h => h.resolve_left hm, Or.inr⟩
  · rw [hcount', Finset.card_insert_of_notMem hnS, hcount]
    push_cast
    exact Int.add_right_comm _ _ _

theorem pushEntry (h : PoolOk kind valid p .exact) (hk : kind.Sound valid)
    (hefb : p.efb kind = some efb) (hroom : (p.header efb).free.length ≠ kind.cap)
    (hv : valid n) (hn : p.owner n = .giving) : PoolOk kind valid (p.pushEntry efb n) .exact := by
  obtain ⟨rfl, hf⟩ := h.efb_eq hk rfl hefb
  refine put h hv hn (fun S hS hnS => ?_) rfl rfl (h.cached rfl)
  exact hS.pushEntry hf (Nat.lt_of_le_of_ne (hS.first_cap hf) hroom) hnS

theorem pushHeader (h : PoolOk kind valid p .exact) (hk : kind.Sound valid) (hv : valid n)
    (hn : p.owner n = .giving) : PoolOk kind valid (p.pushHeader kind n) .exact := by
  obtain ⟨hn0, hslot⟩ := hk n hv
  refine put h hv hn (fun S hS hnS => ?_) rfl rfl (if_neg hn0).symm
  unfold Pool.pushHeader
  dsimp only
  rw [hslot]
  exact hS.pushHeader hnS hn0

/-- What taking `j` off the list comes to. -/
private theorem take {p' : Pool} {loaded : Bool} {S : Finset Nat}
    (hlist : FreeList kind.cap p'.header p'.first (S.erase j)) (hj : j ∈ S)
    (hmem : ∀ n, n ∈ S ↔ valid n ∧ p.owner n = .free ∧ Stage.exact.taken ≠ some n)
    (hcount : p.count = S.card + Stage.exact.owed) (howner : p'.owner = p.owner)
    (hcount' : p'.count = p.count)
    (hcached : loaded = true →
      p'.cached = if p'.first = 0 then none else some (kind.home p'.first)) :
    PoolOk kind valid p' { taken := some j, owed := 1, loaded } := by
  refine ⟨⟨S.erase j, hlist, fun m => ?_, ?_⟩, fun i hi => ?_, hcached⟩
  · rw [Finset.mem_erase, hmem, howner]
    constructor
    · rintro ⟨hne, hv, ho, -⟩
      exact ⟨hv, ho, fun hc => hne (Option.some.inj hc).symm⟩
    · rintro ⟨hv, ho, hne⟩
      exact ⟨fun hc => hne (congrArg some hc.symm), hv, ho, fun hc => (nomatch hc)⟩
  · have hpos : 0 < S.card := Finset.card_pos.mpr ⟨j, hj⟩
    rw [Finset.card_erase_of_mem hj, hcount', hcount]
    change (_ : Int) + 0 = _ + 1
    omega
  · rw [← Option.some.inj hi, howner]
    have := (hmem j).mp hj
    exact ⟨this.1, this.2.1⟩

theorem popEntry (h : PoolOk kind valid p .exact) (hk : kind.Sound valid)
    (hefb : p.efb kind = some efb) (hfree : (p.header efb).free = j :: free) :
    PoolOk kind valid (p.popEntry efb free) { taken := some j, owed := 1, loaded := true } := by
  obtain ⟨rfl, hf⟩ := h.efb_eq hk rfl hefb
  obtain ⟨S, hS, hmem, hcount⟩ := h.list
  obtain ⟨hj, hS'⟩ := hS.popEntry hf hfree
  exact take hS' hj hmem hcount rfl rfl h.cached

theorem popHeader (h : PoolOk kind valid p .exact) (hk : kind.Sound valid)
    (hefb : p.efb kind = some efb) (hfree : (p.header efb).free = []) :
    PoolOk kind valid (p.popHeader efb) { taken := some p.first, owed := 1, loaded := false } := by
  obtain ⟨rfl, hf⟩ := h.efb_eq hk rfl hefb
  obtain ⟨S, hS, hmem, hcount⟩ := h.list
  exact take (hS.popHeader hf hfree) (hS.first_mem hf) hmem hcount rfl rfl fun hc => (nomatch hc)

theorem load {taken : Option Nat} {owed : Int} {loaded : Bool}
    (h : PoolOk kind valid p { taken, owed, loaded }) :
    PoolOk kind valid (p.load kind) { taken, owed, loaded := true } :=
  ⟨h.list, h.taken, fun _ => rfl⟩

theorem pay {taken : Option Nat} {loaded : Bool}
    (h : PoolOk kind valid p { taken, owed := 1, loaded }) :
    PoolOk kind valid p.pay { taken, owed := 0, loaded } := by
  obtain ⟨S, hS, hmem, hcount⟩ := h.list
  refine ⟨⟨S, hS, hmem, ?_⟩, h.taken, h.cached⟩
  change p.count - 1 = _ + 0
  rw [hcount]
  change (_ : Int) + 1 - 1 = _
  omega

/-- The cell is handed out. -/
theorem handOut (h : PoolOk kind valid p { taken := some j, owed := 0, loaded := true }) :
    PoolOk kind valid (p.setOwner j .user) .exact := by
  obtain ⟨S, hS, hmem, hcount⟩ := h.list
  refine ⟨⟨S, hS, fun m => ?_, hcount⟩, fun i hi => (nomatch hi), h.cached⟩
  rw [hmem]
  change _ ↔ _ ∧ Function.update p.owner j .user m = .free ∧ _
  by_cases hm : m = j
  · subst hm
    rw [Function.update_self]
    exact ⟨fun h => absurd rfl h.2.2, fun h => (nomatch h.2.1)⟩
  · rw [Function.update_of_ne hm]
    exact ⟨fun h => ⟨h.1, h.2.1, fun hc => (nomatch hc)⟩,
      fun h => ⟨h.1, h.2.1, fun hc => hm (Option.some.inj hc).symm⟩⟩

/-- A cell that is handed out is given back. -/
theorem giveBack (h : PoolOk kind valid p stage) (hn : valid n → p.owner n = .user) :
    PoolOk kind valid (p.setOwner n .giving) stage := by
  obtain ⟨S, hS, hmem, hcount⟩ := h.list
  have howner : ∀ m, valid m →
      (Function.update p.owner n .giving m = .free ↔ p.owner m = .free) := by
    intro m hm
    by_cases hmn : m = n
    · subst hmn
      rw [Function.update_self, hn hm]
      exact ⟨fun hc => (nomatch hc), fun hc => (nomatch hc)⟩
    · rw [Function.update_of_ne hmn]
  refine ⟨⟨S, hS, fun m => ?_, hcount⟩, fun j hj => ?_, h.cached⟩
  · rw [hmem]
    exact ⟨fun h => ⟨h.1, (howner m h.1).mpr h.2.1, h.2.2⟩,
      fun h => ⟨h.1, (howner m h.1).mp h.2.1, h.2.2⟩⟩
  · have := h.taken j hj
    exact ⟨this.1, (howner j this.1).mpr this.2⟩

end PoolOk

end LinuxKernel.V098.Fs.FreeLists
