import LinuxKernel.V098.Net.SockNumber

/-!
# LinuxKernel.V098.Net.SockRoute

**Segments reach the right socket**, if no socket comes to stand where it takes the segments
of another one.

- `Front`: nobody takes the segments of a connected socket that stands behind him.
-/

namespace LinuxKernel.V098.Net.SockArray

variable {s s' : State} {seg : Proto × Nat → List Nat} {P P' : Nat → Prop} {x y num : Nat}
  {prot : Proto} {o : Proto × Nat} {sk : Sock} {l₁ l₂ : List Nat}

/-! ### The order of the chains -/

def Front (s : State) (l : List Nat) : Prop :=
  l.Pairwise fun y c => ¬ Shadows (s.sock y) (s.sock c)

theorem Front.congr {l : List Nat} (h : Front s l) (hs : ∀ y ∈ l, s'.sock y = s.sock y) :
    Front s' l := by
  refine List.Pairwise.imp_of_mem (fun {y c} hy hc hyc => ?_) h
  rw [hs y hy, hs c hc]
  exact hyc

theorem Front.fits (h : Front s (l₁ ++ l₂)) (hx : x ∉ l₁ ++ l₂)
    (hs : ∀ y, y ≠ x → s'.sock y = s.sock y) (hfits : Fits s (s'.sock x) l₁ l₂) :
    Front s' (l₁ ++ x :: l₂) := by
  have hne : ∀ y ∈ l₁ ++ l₂, s'.sock y = s.sock y := fun y hy => hs y (ne_of_mem_of_not_mem hy hx)
  obtain ⟨h₁, h₂, h₁₂⟩ := List.pairwise_append.mp (h.congr hne)
  refine List.pairwise_append.mpr ⟨h₁, List.pairwise_cons.mpr ⟨fun c hc => ?_, h₂⟩, fun y hy c hc => ?_⟩
  · rw [hne c (List.mem_append_right l₁ hc)]
    exact hfits.2 c hc
  · rcases List.mem_cons.mp hc with rfl | hc
    · rw [hne y (List.mem_append_left l₂ hy)]
      exact hfits.1 y hy
    · exact h₁₂ y hy c hc

/-- The socket of a number that nobody else in its chain has fits anywhere. -/
theorem fits_of_num (h : ∀ y ∈ l₁ ++ l₂, (s.sock y).num ≠ sk.num) : Fits s sk l₁ l₂ := by
  refine ⟨fun y hy hsh => ?_, fun y hy hsh => ?_⟩
  · have hnum : (s.sock y).num = sk.num := by
      have := hsh.2
      simp only [takes, Bool.and_eq_true, decide_eq_true_eq] at this
      exact this.1.1.1
    exact h y (List.mem_append_left l₂ hy) hnum
  · have hnum : sk.num = (s.sock y).num := by
      have := hsh.2
      simp only [takes, Bool.and_eq_true, decide_eq_true_eq] at this
      exact this.1.1.1
    exact h y (List.mem_append_right l₁ hy) hnum.symm

theorem ipAddrMatch_self (a : Addr) : ipAddrMatch a a = true := by
  simp [ipAddrMatch]

theorem takes_self (sk : Sock) : takes sk sk.num sk.daddr sk.dest sk.saddr = true := by
  simp [takes, ipAddrMatch_self]

namespace Linked

theorem setSock (h : Linked s seg P) (hprot : sk.prot = (s.sock x).prot)
    (hnum : sk.num = (s.sock x).num) : Linked (SockArray.setSock s x sk) seg P := by
  refine h.of_sock rfl rfl h.live fun y _ => ?_
  by_cases hyx : y = x
  · subst hyx
    simp only [slot, SockArray.setSock, Function.update_self, hprot, hnum]
  · simp only [slot, SockArray.setSock, Function.update_of_ne hyx]

theorem notMem_around (h : Linked s seg P) (hseg : seg o = l₁ ++ x :: l₂) : x ∉ l₁ ++ l₂ := by
  have hnd := h.nodup o
  rw [hseg, List.nodup_append, List.nodup_cons] at hnd
  intro hx
  rcases List.mem_append.mp hx with hx | hx
  · exact hnd.2.2 x hx x List.mem_cons_self rfl
  · exact hnd.2.1.1 hx

theorem stays_iff (h : Linked s seg P) (hseg : seg (slot s x) = l₁ ++ x :: l₂) :
    Stays s x sk ↔ Fits s sk l₁ l₂ := by
  have hx := h.notMem_around hseg
  have hchain : chain s (s.sock x).prot (s.sock x).num = l₁ ++ x :: l₂ :=
    (h.chain_eq _ _).trans hseg
  have hne : ∀ y ∈ l₁, (y ≠ x : Bool) = true := fun y hy =>
    decide_eq_true (ne_of_mem_of_not_mem hy fun hx₁ => hx (List.mem_append_left l₂ hx₁))
  rw [Stays, hchain, List.takeWhile_append_of_pos hne, List.dropWhile_append_of_pos hne]
  simp

end Linked

/-! ### The invariant -/

structure Inv (s : State) : Prop where
  linked : ∃ seg, Linked s seg (· ∈ s.live) ∧ ∀ o, Front s (seg o)
  clash : s.clash = false
  destroyed : ∀ x ∈ s.destroyed, x ∉ s.live

namespace Inv

theorem of_init (h : Init s) : Inv s where
  linked := by
    refine ⟨fun _ => [], ⟨⟨fun o => h.array o, fun o o' a ha => absurd ha List.not_mem_nil⟩,
      fun o y => ?_, fun y hy => hy⟩, fun o => List.Pairwise.nil⟩
    simp [h.live]
  clash := h.clash
  destroyed x hx := by
    rw [h.destroyed] at hx
    cases hx

theorem sound (h : Inv s) : Sound s := by
  obtain ⟨seg, hl, hfront⟩ := h.linked
  refine ⟨fun prot i hi => ⟨seg (prot, i), hl.chains.chain _, hl.nodup _, fun x => ?_⟩, h.clash,
    fun x hx hstate => ?_⟩
  · rw [hl.mem, slot, Prod.mk.injEq]
  · have hxo : x ∈ seg (slot s x) := (hl.mem _ x).mpr ⟨hx, rfl⟩
    obtain ⟨l₁, l₂, hseg⟩ := List.append_of_mem hxo
    have hf := hfront (slot s x)
    rw [hseg] at hf
    refine (hl.walk_eq _ (slot s x)).trans ?_
    rw [hseg, Option.some.injEq, List.find?_eq_some_iff_append]
    refine ⟨takes_self _, l₁, l₂, rfl, fun y hy => ?_⟩
    have := (List.pairwise_append.mp hf).2.2 y hy x List.mem_cons_self
    rw [Shadows, not_and] at this
    rw [Bool.not_eq_true', Bool.eq_false_iff]
    exact this hstate

/-- A socket that was in no chain is put where it fits. -/
theorem put (hfront : ∀ o, Front s (seg o)) (hx : ∀ o, x ∉ seg o) (hsplit : l₁ ++ l₂ = seg o)
    (hl' : Linked s' (Function.update seg o (l₁ ++ x :: l₂)) (· ∈ s'.live))
    (hs : ∀ y, y ≠ x → s'.sock y = s.sock y) (hfits : Fits s (s'.sock x) l₁ l₂)
    (hclash : s'.clash = false) (hd : ∀ x ∈ s'.destroyed, x ∉ s'.live) : Inv s' where
  linked := by
    refine ⟨_, hl', fun w => ?_⟩
    by_cases hw : w = o
    · subst hw
      rw [Function.update_self]
      have hf := hfront w
      have hxw := hx w
      rw [← hsplit] at hf hxw
      exact hf.fits hxw hs hfits
    · rw [Function.update_of_ne hw]
      exact (hfront w).congr fun y hy => hs y (ne_of_mem_of_not_mem hy (hx w))
  clash := hclash
  destroyed := hd

/-- A socket changes in its place, and fits there. -/
theorem setSock (h : Inv s) (hprot : sk.prot = (s.sock x).prot)
    (hnum : sk.num = (s.sock x).num) (hstays : Stays s x sk) : Inv (SockArray.setSock s x sk) := by
  obtain ⟨seg, hl, hfront⟩ := h.linked
  have hs : ∀ y, y ≠ x → (SockArray.setSock s x sk).sock y = s.sock y :=
    fun y hy => Function.update_of_ne hy _ _
  have hsx : (SockArray.setSock s x sk).sock x = sk := Function.update_self ..
  refine ⟨⟨seg, hl.setSock hprot hnum, fun w => ?_⟩, h.clash, h.destroyed⟩
  by_cases hxw : x ∈ seg w
  · obtain rfl : slot s x = w := ((hl.mem w x).mp hxw).2
    obtain ⟨l₁, l₂, hseg⟩ := List.append_of_mem hxw
    have hf := hfront (slot s x)
    rw [hseg] at hf ⊢
    refine Front.fits (hf.sublist (by simp)) (hl.notMem_around hseg) hs ?_
    rw [hsx]
    exact (hl.stays_iff hseg).mp hstays
  · exact (hfront w).congr fun y hy => hs y (ne_of_mem_of_not_mem hy hxw)

/-- A socket stays that takes no more than before, and is taken no more from. -/
theorem stays (h : Inv s) (hx : x ∈ s.live) (hto : ∀ y, Shadows y sk → Shadows y (s.sock x))
    (hfrom : ∀ c, Shadows sk c → Shadows (s.sock x) c) : Stays s x sk := by
  obtain ⟨seg, hl, hfront⟩ := h.linked
  obtain ⟨l₁, l₂, hseg⟩ := List.append_of_mem ((hl.mem (slot s x) x).mpr ⟨hx, rfl⟩)
  have hf := hfront (slot s x)
  rw [hseg] at hf
  obtain ⟨-, hf₂, hf₁⟩ := List.pairwise_append.mp hf
  refine (hl.stays_iff hseg).mpr ⟨fun y hy hsh => ?_, fun y hy hsh => ?_⟩
  · exact hf₁ y hy x List.mem_cons_self (hto _ hsh)
  · exact (List.pairwise_cons.mp hf₂).1 y hy (hfrom _ hsh)

/-! ### `destroy_sock` -/

theorem destroySock (hl : Linked s seg P) (hfront : ∀ o, Front s (seg o)) (hclash : s.clash = false)
    (hd : ∀ y ∈ s.destroyed, y ≠ x → y ∉ s.live) (hP : ∀ y ∈ s.live, y ≠ x → P y) (rest : Bool) :
    ∃ s', SockArray.destroySock s x rest = .next s' ∧ Inv s' := by
  have hlive : ∀ y, y ∈ s.live.filter (· ≠ x) ↔ y ∈ s.live ∧ y ≠ x := fun y => by simp
  have hinv : ∀ n a seg' P', Linked { s with next := n, array := a } seg' P' →
      (∀ o, Front s (seg' o)) → (∀ y, P' y ↔ y ∈ s.live ∧ y ≠ x) →
      Inv { s with next := n, array := a, live := s.live.filter (· ≠ x),
                   destroyed := if rest then x :: s.destroyed else s.destroyed.filter (· ≠ x) } := by
    intro n a seg' P' hl' hfront' hP'
    refine ⟨⟨seg', ⟨hl'.chains, fun o y => ?_, fun y hy => hy⟩, hfront'⟩, hclash, fun y hy hyl => ?_⟩
    · rw [hlive, ← hP']
      exact hl'.mem o y
    · obtain ⟨hyl, hyx⟩ := (hlive y).mp hyl
      refine hd y ?_ hyx hyl
      cases rest with
      | true => exact (List.mem_cons.mp hy).resolve_left hyx
      | false => exact (List.mem_filter.mp hy).1
  unfold SockArray.destroySock
  by_cases hx : P x
  · obtain ⟨n, a, hs, hl'⟩ := hl.removeSock hx
    rw [hs, Outcome.bind_next]
    refine ⟨_, rfl, hinv n a _ _ hl' (fun o => ?_) fun y => ?_⟩
    · by_cases ho : o = slot s x
      · rw [ho, Function.update_self]
        exact (hfront _).sublist List.erase_sublist
      · rw [Function.update_of_ne ho]
        exact hfront o
    · exact ⟨fun hy => ⟨hl.live y hy.2, hy.1⟩, fun hy => ⟨hy.2, hP y hy.1 hy.2⟩⟩
  · rw [hl.removeSock_of_not hx, Outcome.bind_next]
    refine ⟨_, rfl, hinv s.next s.array seg P hl hfront fun y => ?_⟩
    refine ⟨fun hy => ⟨hl.live y hy, ?_⟩, fun hy => hP y hy.1 hy.2⟩
    rintro rfl
    exact hx hy

/-! ### `ip_proto_create` -/

variable (sk) in
/-- A socket goes into its chain with a number that nobody else has. -/
theorem putSock_free (hl : Linked s seg P) (hfront : ∀ o, Front s (seg o)) (hclash : s.clash = false)
    (hd : ∀ y ∈ s.destroyed, y ∉ s.live) (hx : ¬ P x) (hxl : x ∈ s.live)
    (hP : ∀ y ∈ s.live, y ≠ x → P y) (hused : ¬ Used s x (s.sock x).prot num)
    (hsk : sk.prot = (s.sock x).prot) (hnum : sk.num = num) :
    ∃ s', SockArray.putSock s num x = .next s' ∧ s'.sock x = { s.sock x with num } ∧
      Inv (SockArray.setSock s' x sk) := by
  generalize ho : ((s.sock x).prot, num % SOCK_ARRAY_SIZE) = o
  obtain ⟨n, a, hs, hl'⟩ := hl.putSock num hx hxl ho (fun _ _ => rfl)
  refine ⟨_, hs, setSock_self .., ?_⟩
  have hsame := hl'.setSock (x := x) (hsk.trans (by simp only [setSock_self]))
    (hnum.trans (by simp only [setSock_self]))
  have hl'' := hsame.of_iff fun y =>
      ⟨fun hy => or_iff_not_imp_left.mpr (hP y hy), fun hy => hy.elim (fun he => he ▸ hxl) (hl.live y)⟩
  refine put hfront (hl.notMem hx) List.takeWhile_append_dropWhile hl'' (fun y hy => ?_) ?_ hclash hd
  · exact (setSock_of_ne hy _ sk).trans (setSock_of_ne hy s _)
  · rw [setSock_self]
    refine fits_of_num fun y hy hyn => hused ⟨y, ?_⟩
    rw [List.takeWhile_append_dropWhile, hl.mem] at hy
    refine ⟨hl.live y hy.1, fun he => hx (he ▸ hy.1), ?_, hyn.trans hnum⟩
    exact congrArg Prod.fst (hy.2.trans ho.symm)

theorem createPut (hl : Linked s seg P) (hfront : ∀ o, Front s (seg o)) (hclash : s.clash = false)
    (hd : ∀ y ∈ s.destroyed, y ∉ s.live) (hx : ¬ P x) (hxl : x ∈ s.live)
    (hP : ∀ y ∈ s.live, y ≠ x → P y) (hused : ¬ Used s x (s.sock x).prot (s.sock x).num)
    (init : Bool) : ∃ s', SockArray.createPut s x init = .next s' ∧ Inv s' := by
  unfold SockArray.createPut
  split
  · exact destroySock hl hfront hclash (fun y hy _ => hd y hy) hP false
  · obtain ⟨s', hs, hsx, hinv⟩ := putSock_free
      { s.sock x with source := net16 (s.sock x).num } hl hfront hclash hd hx hxl hP hused rfl rfl
    rw [hs, Outcome.bind_next]
    dsimp only
    rw [hsx]
    split
    · obtain ⟨seg', hl', hfront'⟩ := hinv.linked
      exact destroySock hl' hfront' hinv.clash (fun y hy _ => hinv.destroyed y hy) (fun y hy _ => hy) false
    · exact ⟨_, rfl, hinv⟩

/-- The same, where the number is stored first. -/
theorem createNum (hl : Linked s seg P) (hfront : ∀ o, Front s (seg o)) (hclash : s.clash = false)
    (hd : ∀ y ∈ s.destroyed, y ∉ s.live) (hx : ¬ P x) (hxl : x ∈ s.live)
    (hP : ∀ y ∈ s.live, y ≠ x → P y) (hused : ¬ Used s x (s.sock x).prot num) (start : Int)
    (init : Bool) :
    ∃ s', SockArray.createPut (SockArray.setSock { s with start } x { s.sock x with num }) x init =
      .next s' ∧ Inv s' := by
  have hother : ∀ y, y ≠ x →
      (SockArray.setSock { s with start } x { s.sock x with num }).sock y = s.sock y :=
    fun y hy => setSock_of_ne hy _ _
  have hne : ∀ y, P y → y ≠ x := fun y hy he => hx (he ▸ hy)
  refine createPut (s := SockArray.setSock { s with start } x { s.sock x with num })
    (hl.of_sock rfl rfl hl.live fun y hy => ?_) (fun o => (hfront o).congr fun y hy => ?_) hclash hd
    hx hxl hP (fun hu => hused ?_) init
  · rw [slot, slot, hother y (hne y hy)]
  · exact hother y (hne y ((hl.mem o y).mp hy).1)
  · rw [setSock_self] at hu
    obtain ⟨y, hy, hyx, hprot, hnum⟩ := hu
    rw [hother y hyx] at hprot hnum
    exact ⟨y, hy, hyx, hprot, hnum⟩

theorem create (h : Inv s) (hx : x ∉ s.live) (hxd : x ∉ s.destroyed) {type : SockType}
    {protocol : Nat} {suser : Bool} (init : Bool)
    (hok : ∀ prot num, protoOf type protocol suser = some (prot, num) → num = 0 ∧ NumFree s x prot) :
    ∃ s', SockArray.create s x type protocol suser init = .next s' ∧ Inv s' := by
  obtain ⟨seg, hl, hfront⟩ := h.linked
  unfold SockArray.create
  cases hp : protoOf type protocol suser with
  | none => exact ⟨s, rfl, h⟩
  | some r =>
      obtain ⟨prot, num⟩ := r
      obtain ⟨rfl, hfree⟩ := hok prot num hp
      dsimp only
      rw [if_neg (not_not_intro rfl)]
      set sk : Sock := { prot, num := 0, saddr := MY_IP_ADDR s, daddr := 0, source := 0, dest := 0,
                         reuse := false, state := .close } with hsk
      have hother : ∀ y ∈ s.live, (SockArray.setSock s x sk).sock y = s.sock y := fun y hy =>
        setSock_of_ne (ne_of_mem_of_not_mem hy hx) s sk
      have hl₁ : Linked { SockArray.setSock s x sk with next := Function.update s.next x none,
                                                        live := x :: s.live } seg (· ∈ s.live) := by
        refine ⟨hl.chains.congr (fun w y hy => ?_) fun _ => rfl, fun o y => ?_, fun y hy => ?_⟩
        · exact Function.update_of_ne (ne_of_mem_of_not_mem hy (hl.notMem hx w)) _ _
        · rw [hl.mem]
          refine and_congr_right fun hy => ?_
          simp only [slot, hother y hy]
        · exact List.mem_cons_of_mem x hy
      have hP : ∀ y ∈ x :: s.live, y ≠ x → y ∈ s.live := fun y hy hyx =>
        (List.mem_cons.mp hy).resolve_left hyx
      obtain ⟨num, hs, hused⟩ := hl₁.newSocknum hP (hl.numFree_congr hl₁ rfl hother hP hfree)
      rw [hs, Outcome.bind_next]
      refine createNum hl₁ (fun o => (hfront o).congr fun y hy => ?_) h.clash (fun y hy hyl => ?_) hx
        List.mem_cons_self hP ?_ _ init
      · exact hother y ((hl.mem o y).mp hy).1
      · rcases List.mem_cons.mp hyl with rfl | hyl
        · exact hxd hy
        · exact h.destroyed y hy hyl
      · simp only [setSock_self]
        exact hused

/-! ### `tcp_conn_request` -/

theorem connRequest (h : Inv s) (hx : x ∉ s.live) (hxd : x ∉ s.destroyed) {l : Nat}
    {raddr laddr : Addr} {rnum : Nat} (hok : Goes s x (requestSock (s.sock l) raddr rnum laddr)) :
    ∃ s', SockArray.connRequest s l x raddr rnum laddr = .next s' ∧ Inv s' := by
  obtain ⟨seg, hl, hfront⟩ := h.linked
  unfold SockArray.connRequest
  dsimp only
  generalize requestSock (s.sock l) raddr rnum laddr = sk at hok ⊢
  have hother : ∀ y ∈ s.live, (SockArray.setSock s x sk).sock y = s.sock y := fun y hy =>
    setSock_of_ne (ne_of_mem_of_not_mem hy hx) s sk
  have hl₁ : Linked { SockArray.setSock s x sk with live := x :: s.live } seg (· ∈ s.live) := by
    refine hl.of_sock rfl rfl (fun y hy => List.mem_cons_of_mem x hy) fun y hy => ?_
    simp only [slot, hother y hy]
  have hxo := hl₁.notMem hx
  obtain ⟨n, a, hs, hl'⟩ := hl₁.putSock sk.num (Q := stops s sk) hx List.mem_cons_self
    (o := (sk.prot, sk.num % SOCK_ARRAY_SIZE)) (by simp only [setSock_self])
    fun y hy => by simp only [stops, setSock_self, hother y ((hl.mem _ y).mp hy).1]
  rw [hs]
  refine ⟨_, rfl, put hfront hxo List.takeWhile_append_dropWhile (hl'.of_iff fun y => List.mem_cons)
    (fun y hy => ?_) ?_ h.clash fun y hy hyl => ?_⟩
  · exact (setSock_of_ne hy _ _).trans (setSock_of_ne hy s sk)
  · have hchain := hl.chain_eq sk.prot sk.num
    rw [Goes, hchain, List.erase_of_not_mem (hxo _)] at hok
    simp only [setSock_self]
    exact hok
  · rcases List.mem_cons.mp hyl with rfl | hyl
    · exact hxd hy
    · exact h.destroyed y hy hyl

/-! ### `ip_proto_bind` -/

theorem bindAddr_prot (s : State) (x : Nat) (addr : Addr) :
    (bindAddr s x addr).prot = (s.sock x).prot := by
  unfold bindAddr
  split <;> rfl

theorem bindAddr_num (s : State) (x : Nat) (addr : Addr) :
    (bindAddr s x addr).num = (s.sock x).num := by
  unfold bindAddr
  split <;> rfl

/-- A number that nobody else has can be bound to. -/
theorem binds_of_free (h : Inv s) (hx : x ∈ s.live) {snum : Nat} (addr : Addr) (suser : Bool)
    (hused : ¬ Used s x (s.sock x).prot snum) : Binds s x snum addr suser := by
  obtain ⟨seg, hl, hfront⟩ := h.linked
  have hother : ∀ y ∈ seg ((s.sock x).prot, snum % SOCK_ARRAY_SIZE), y ≠ x → (s.sock y).num ≠ snum :=
    fun y hy hyx hnum => by
      obtain ⟨hyl, hslot⟩ := (hl.mem _ y).mp hy
      exact hused ⟨y, hyl, hyx, congrArg Prod.fst hslot, hnum⟩
  have hprot := bindAddr_prot s x addr
  have hnum := bindAddr_num s x addr
  refine Or.inr ?_
  generalize bindAddr s x addr = sk at hprot hnum ⊢
  rw [hl.chain_eq, hprot]
  split
  · next hconf =>
      obtain ⟨y, hy, hconf⟩ := hconf
      simp only [conflict, Bool.and_eq_true, decide_eq_true_eq] at hconf
      -- the only socket in the way can be the one that is bound
      have hyx : y = x := by
        by_contra hyx
        rw [if_neg hyx] at hconf
        exact hother y hy hyx hconf.1.1
      rw [if_pos hyx, hnum] at hconf
      have hslot : ((s.sock x).prot, snum % SOCK_ARRAY_SIZE) = slot s x := by rw [slot, hconf.1.1]
      rw [hslot] at hother
      obtain ⟨l₁, l₂, hseg⟩ := List.append_of_mem ((hl.mem _ x).mpr ⟨hx, rfl⟩)
      refine (hl.stays_iff hseg).mpr (fits_of_num fun y hy => ?_)
      rw [hnum, hconf.1.1]
      refine hother y ?_ (ne_of_mem_of_not_mem hy (hl.notMem_around hseg))
      rw [hseg]
      simp only [List.mem_append, List.mem_cons] at hy ⊢
      tauto
  · rw [Goes, hl.chain_eq]
    refine fits_of_num fun y hy => ?_
    rw [List.takeWhile_append_dropWhile, (hl.nodup _).mem_erase_iff] at hy
    exact hother y hy.2 hy.1

theorem bindNum (h : Inv s) (hx : x ∈ s.live) {snum : Nat} {addr : Addr} {suser : Bool}
    (hok : Binds s x snum addr suser) :
    ∃ s', SockArray.bindNum s x snum addr suser = .next s' ∧ Inv s' := by
  obtain ⟨seg, hl, hfront⟩ := h.linked
  unfold SockArray.bindNum
  dsimp only
  split
  · exact ⟨s, rfl, h⟩
  · next hpriv =>
      have hok := hok.resolve_left hpriv
      have hprot := bindAddr_prot s x addr
      have hnum := bindAddr_num s x addr
      generalize bindAddr s x addr = sk at hok hprot hnum ⊢
      have hl₁ := hl.setSock hprot hnum
      have hother : ∀ y, y ≠ x → (SockArray.setSock s x sk).sock y = s.sock y := fun y hy =>
        setSock_of_ne hy s sk
      have hslot : slot (SockArray.setSock s x sk) x = slot s x := by
        rw [slot, slot, setSock_self, hprot, hnum]
      rw [hl.chain_eq] at hok
      rw [head, hl₁.walk_eq]
      cases hfind : (seg (sk.prot, snum % SOCK_ARRAY_SIZE)).find?
          fun sk2 => conflict sk ((SockArray.setSock s x sk).sock sk2) snum with
      | some y =>
          have hy := List.find?_some hfind
          rw [setSock_apply] at hy
          rw [if_pos ⟨y, List.mem_of_find?_eq_some hfind, hy⟩] at hok
          exact ⟨_, rfl, h.setSock hprot hnum hok⟩
      | none =>
          rw [if_neg] at hok
          · obtain ⟨n, a, hs, hl₂⟩ := hl₁.removeSock hx
            rw [hslot] at hl₂
            have herase : ∀ w, Function.update seg (slot s x) ((seg (slot s x)).erase x) w =
                (seg w).erase x := fun w => by
              by_cases hw : w = slot s x
              · rw [hw, Function.update_self]
              · rw [Function.update_of_ne hw, List.erase_of_not_mem]
                exact fun hxw => hw ((hl.mem w x).mp hxw).2.symm
            have hxo := hl₂.notMem (x := x) fun hx' => hx'.1 rfl
            obtain ⟨n', a', hs', hl₃⟩ := hl₂.putSock snum (Q := stops s sk) (fun hx' => hx'.1 rfl) hx
              (o := (sk.prot, snum % SOCK_ARRAY_SIZE)) (by simp only [setSock_self])
              fun y hy => by
                simp only [stops, setSock_self, hother y (ne_of_mem_of_not_mem hy (hxo _))]
            dsimp only
            rw [hs, Outcome.bind_next, hs', Outcome.bind_next]
            refine ⟨_, rfl, put (s := s) (fun w => ?_) hxo List.takeWhile_append_dropWhile
              ((hl₃.setSock ?_ ?_).of_iff fun y => ?_) (fun y hy => ?_) ?_ h.clash h.destroyed⟩
            · rw [herase]
              exact (hfront w).sublist List.erase_sublist
            · simp only [setSock_self]
            · simp only [setSock_self]
            · refine ⟨fun hy => or_iff_not_imp_left.mpr fun hyx => ⟨hyx, hy⟩, ?_⟩
              rintro (rfl | hy)
              · exact hx
              · exact hy.2
            · refine (setSock_of_ne hy _ _).trans ?_
              exact (setSock_of_ne hy _ _).trans (hother y hy)
            · rw [Goes, hl.chain_eq, ← herase] at hok
              simp only [setSock_self]
              exact hok
          · rintro ⟨y, hy, hconf⟩
            have := List.find?_eq_none.mp hfind y hy
            rw [setSock_apply] at this
            exact this hconf

theorem bind (h : Inv s) (hx : x ∈ s.live) {snum : Nat} {addr : Addr} {suser : Bool}
    (hok : (s.sock x).state = .close →
      if snum = 0 then (s.sock x).num ≤ PROT_SOCK → NumFree s x (s.sock x).prot
      else Binds s x snum addr suser) :
    ∃ s', SockArray.bind s x snum addr suser = .next s' ∧ Inv s' := by
  unfold SockArray.bind
  dsimp only
  split
  · exact ⟨s, rfl, h⟩
  · next hstate =>
      have hok := hok (not_not.mp hstate)
      split
      · next hzero =>
          rw [if_pos hzero] at hok
          split
          · exact ⟨s, rfl, h⟩
          · next hnum =>
              obtain ⟨seg, hl, hfront⟩ := h.linked
              obtain ⟨num, hs, hused⟩ := hl.newSocknum (fun y hy _ => hy) (hok (Nat.le_of_not_lt hnum))
              rw [hs, Outcome.bind_next]
              have h₁ : Inv { s with start := nextStart s.start } :=
                ⟨⟨seg, hl.of_sock rfl rfl hl.live fun _ _ => rfl, hfront⟩, h.clash, h.destroyed⟩
              exact h₁.bindNum hx (h₁.binds_of_free hx addr suser hused)
      · next hzero =>
          rw [if_neg hzero] at hok
          exact h.bindNum hx hok

/-! ### All runs -/

theorem step (h : Inv s) {a : Act} (hok : Routed s a) :
    (step s a).Ends (fun _ => False) Inv := by
  have hends : ∀ o : Outcome State, (∃ s', o = .next s' ∧ Inv s') → o.Ends (fun _ => False) Inv := by
    rintro o ⟨s', rfl, h'⟩
    exact h'
  cases a with
  | create x type protocol suser init =>
      unfold SockArray.step
      dsimp only
      split
      · next hx => exact hends _ (h.create hx.1 hx.2 init hok)
      · trivial
  | bind x snum addr suser =>
      unfold SockArray.step
      dsimp only
      split
      · next hx => exact hends _ (h.bind hx hok)
      · trivial
  | setReuse x reuse =>
      unfold SockArray.step
      dsimp only
      split
      · next hx => exact h.setSock rfl rfl (h.stays hx (fun _ hsh => hsh) fun _ hsh => hsh)
      · trivial
  | listen x =>
      unfold SockArray.step
      dsimp only
      split
      · next hx =>
          exact h.setSock rfl rfl (h.stays hx (fun _ hsh => nomatch hsh.1) fun _ hsh => hsh)
      · trivial
  | connect x daddr dest ok =>
      unfold SockArray.step
      dsimp only
      split
      · exact h.setSock rfl rfl hok
      · trivial
  | synAck x rnum =>
      unfold SockArray.step
      dsimp only
      split
      · exact h.setSock rfl rfl hok
      · trivial
  | connRequest x new raddr rnum laddr =>
      unfold SockArray.step
      dsimp only
      split
      · next hx => exact hends _ (h.connRequest hx.1 hx.2.1 hok)
      · trivial
  | closed x =>
      unfold SockArray.step
      dsimp only
      split
      · next hx =>
          exact h.setSock rfl rfl (h.stays hx (fun _ hsh => nomatch hsh.1) fun _ hsh => hsh)
      · trivial
  | destroy x rest =>
      unfold SockArray.step
      dsimp only
      split
      · obtain ⟨seg, hl, hfront⟩ := h.linked
        exact hends _ (destroySock hl hfront h.clash (fun y hy _ => h.destroyed y hy)
          (fun y hy _ => hy) rest)
      · trivial

end Inv

/-- The chains hold the sockets, numbers are new and segments reach their socket all along a
run, and no loop goes on for ever, if no socket of `SOCK_RAW` or `SOCK_PACKET` is created and
none comes to stand where it takes the segments of another one. -/
theorem sound_of_routed (hinit : Init s) (h : Reaches SockArray.step Routed s s') :
    Sound s' ∧ ∀ a msg, Routed s' a → SockArray.step s' a ≠ .panic msg := by
  have hinv : Inv s' := h.invariant (Inv.of_init hinit) fun t a t' ht hok hs =>
    (ht.step hok).of_next hs
  refine ⟨hinv.sound, fun a msg hok hs => ?_⟩
  have := hinv.step hok
  rw [hs] at this
  exact this

/-! ### Two runs -/

def booted : State where
  sock := fun _ => { prot := .tcp, num := 0, saddr := 0, daddr := 0, source := 0, dest := 0,
                     reuse := false, state := .close }
  array := fun _ => none
  next := fun _ => none
  start := 0
  ipAddr := [0x0100007f#32]
  live := []
  destroyed := []
  clash := false

theorem init_booted : Init booted := ⟨fun _ => rfl, rfl, rfl, rfl, rfl⟩

theorem numFree_of_scan (num : Nat) (h : scan s prot = .next (.inl num)) : NumFree s x prot :=
  fun _ hbest => nomatch h.symm.trans hbest

/-- A server with two connections, and a client. -/
def serverRun : List Act :=
  [.create 0 .stream 0 false true, .bind 0 80 0 true, .listen 0,
    .connRequest 0 1 0x0200007f#32 5 0x0100007f#32, .connRequest 0 2 0x0300007f#32 5 0x0100007f#32,
    .create 3 .stream 6 false true, .connect 3 0x0400007f#32 20480 true, .closed 1, .destroy 1 true,
    .destroy 0 false]

theorem sound_of_routed_serverRun :
    RunOk SockArray.step Routed booted serverRun ∧
      (∃ r, run SockArray.step booted serverRun = .next r) ∧
      ∀ bs, bs <+: serverRun → ∀ r, run SockArray.step booted bs = .next r → Sound r := by
  have hok : RunOk SockArray.step Routed booted serverRun := by
    refine RunOk.cons (fun prot num hp => ?_) ?_
    · obtain ⟨rfl, rfl⟩ := Prod.mk.inj (Option.some.inj hp)
      exact ⟨rfl, numFree_of_scan 1027 (by decide +kernel)⟩
    refine RunOk.cons (fun _ => show Binds _ _ _ _ _ by decide +kernel) ?_
    refine RunOk.cons trivial ?_
    refine RunOk.cons (show Goes _ _ _ by decide +kernel) ?_
    refine RunOk.cons (show Goes _ _ _ by decide +kernel) ?_
    refine RunOk.cons (fun prot num hp => ?_) ?_
    · obtain ⟨rfl, rfl⟩ := Prod.mk.inj (Option.some.inj hp)
      exact ⟨rfl, numFree_of_scan 1028 (by decide +kernel)⟩
    refine RunOk.cons (show Stays _ _ _ by decide +kernel) ?_
    iterate 3 refine RunOk.cons trivial ?_
    exact True.intro
  exact ⟨hok, ⟨_, Outcome.eq_next (by decide +kernel) booted⟩, fun bs hpre r hr =>
    (sound_of_routed init_booted (Reaches.of_run hr (hok.of_prefix hpre))).1⟩

/-- A socket of `SOCK_RAW` is put into its chain twice. -/
theorem sockArray_not_sound :
    ∃ s, Init booted ∧ run SockArray.step booted [.create 0 .raw 1 true true] = .next s ∧
      ¬ Sound s := by
  refine ⟨_, init_booted, Outcome.eq_next (show (run SockArray.step booted
    [.create 0 .raw 1 true true]).isNext = true by decide +kernel) booted, fun h => ?_⟩
  obtain ⟨l, hl, -⟩ := h.chain .raw 1 (by decide)
  exact hl.next_ne (by decide +kernel)

end LinuxKernel.V098.Net.SockArray
