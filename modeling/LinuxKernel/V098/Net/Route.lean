import LinuxKernel.Lib.Index
import Mathlib.Data.BitVec

/-!
# LinuxKernel.V098.Net.Route

**The routing table** of `net/tcp/ip.c`: `ip_addr_match`, `ip_route` and `add_route`.

- `rt_base` is the list of the routes, the first one first. An address has its first octet in
  the lowest byte.
- The table is sorted by the number of significant octets, and of two routes to one network the
  one added last comes first (`Inv`). Of the networks with as many octets only one matches an
  address.
-/

namespace LinuxKernel.V098.Net.Route

abbrev Addr := BitVec 32

structure Rtable where
  net : Addr
  router : Addr
  dev : Nat
  deriving DecidableEq

/-! ### `ip_addr_match` -/

/-- The loop, with `n` turns to go. -/
def matchLoop : Nat → Addr → Addr → Bool
  | 0, _, _ => true
  | n + 1, addr1, addr2 =>
      if addr1 &&& 0xff ≠ addr2 &&& 0xff then if addr1 ≠ 0 then false else true
      else matchLoop n (addr1 >>> 8) (addr2 >>> 8)

def ipAddrMatch (addr1 addr2 : Addr) : Bool :=
  if addr1 = addr2 then true else matchLoop 4 addr1 addr2

/-- The device and the router. -/
def ipRoute (table : List Rtable) (daddr : Addr) : Option (Nat × Addr) :=
  (table.find? fun rt => ipAddrMatch rt.net daddr).map fun rt => (rt.dev, rt.router)

/-! ### `add_route` -/

/-- The loop for `mask`; it comes to `0xffffffff` within four turns. -/
def maskLoop (net : Addr) : Nat → Addr → Addr
  | 0, mask => mask
  | n + 1, mask =>
      if mask = 0xffffffff then mask
      else if mask &&& net ≠ 0 then mask <<< 8
      else maskLoop net n (mask.sshiftRight 8 ||| mask)

def maskOf (net : Addr) : Addr := maskLoop net 4 0xff000000

/-- The loop over the table. -/
def insertRoute (rt : Rtable) (mask : Addr) : List Rtable → List Rtable
  | [] => [rt]
  | r :: rs =>
      if r.net = rt.net then rt :: rs
      else if r.net &&& mask = 0 then rt :: r :: rs
      else r :: insertRoute rt mask rs

def addRoute (table : List Rtable) (rt : Rtable) : List Rtable :=
  if table = [] then [rt] else insertRoute rt (maskOf rt.net) table

/-- The table behind these calls of `add_route`. -/
def tableOf (adds : List Rtable) : List Rtable := adds.foldl addRoute []

/-! ### What routing is for -/

/-- Octet `i` of an address. -/
def octet (a : Addr) (i : Nat) : Nat := a.toNat / 256 ^ i % 256

/-- How many octets are significant: the others are 0 and stand for any. -/
def octets (a : Addr) : Nat :=
  if octet a 3 ≠ 0 then 4 else if octet a 2 ≠ 0 then 3 else if octet a 1 ≠ 0 then 2
  else if octet a 0 ≠ 0 then 1 else 0

/-- The network matches the destination. -/
def Matches (net daddr : Addr) : Prop := ∀ i < octets net, octet net i = octet daddr i

/-- `rt` is the route added last among those that match with the most octets. -/
structure IsBest (adds : List Rtable) (daddr : Addr) (rt : Rtable) : Prop where
  matched : Matches rt.net daddr
  most : ∀ r ∈ adds, Matches r.net daddr → octets r.net ≤ octets rt.net
  last : ∃ before behind, adds = before ++ rt :: behind ∧
    ∀ r ∈ behind, Matches r.net daddr → octets r.net < octets rt.net

/-! ### Octets -/

variable {a b net daddr : Addr} {n k i : Nat}

theorem lt_octets_iff (a : Addr) (hi : i < 4) : i < octets a ↔ a.toNat / 256 ^ i ≠ 0 := by
  have hlt := a.isLt
  unfold octets octet
  obtain rfl | rfl | rfl | rfl : i = 0 ∨ i = 1 ∨ i = 2 ∨ i = 3 := by omega
  all_goals split_ifs <;> omega

theorem octets_le (a : Addr) : octets a ≤ 4 := by
  unfold octets
  split_ifs <;> decide

/-- As many octets as there are bytes up to the last one that is not 0. -/
theorem octets_le_iff (a : Addr) (hk : k < 4) : octets a ≤ k ↔ a.toNat < 256 ^ k := by
  rw [← Nat.not_lt, lt_octets_iff a hk, not_not, Nat.div_eq_zero_iff_lt (Nat.pow_pos (by decide))]

theorem matchLoop_iff :
    matchLoop n a b = true ↔
      ∀ i < n, a.toNat / 256 ^ i ≠ 0 → a.toNat / 256 ^ i % 256 = b.toNat / 256 ^ i % 256 := by
  induction n generalizing a b with
  | zero => exact iff_of_true rfl fun i hi => absurd hi (Nat.not_lt_zero i)
  | succ n ih =>
      have hlow : ∀ c : Addr, (c &&& 0xff).toNat = c.toNat % 256 := fun c => by
        rw [BitVec.toNat_and]
        exact Nat.and_two_pow_sub_one_eq_mod c.toNat 8
      have hshift : ∀ (c : Addr) (i : Nat),
          (c >>> 8).toNat / 256 ^ i = c.toNat / 256 ^ (i + 1) := by
        intro c i
        rw [BitVec.toNat_ushiftRight, Nat.shiftRight_eq_div_pow, Nat.div_div_eq_div_mul]
        exact congrArg (c.toNat / ·) (Nat.pow_succ' (n := i)).symm
      have heq : a &&& 0xff = b &&& 0xff ↔ a.toNat % 256 = b.toNat % 256 := by
        rw [← BitVec.toNat_inj, hlow, hlow]
      have hzero : a = 0 ↔ a.toNat = 0 := BitVec.toNat_inj.symm
      rw [matchLoop]
      by_cases hbyte : a.toNat % 256 = b.toNat % 256
      · rw [if_neg (not_not.mpr (heq.mpr hbyte)), ih]
        constructor
        · intro h i hi hne
          cases i with
          | zero => rwa [Nat.pow_zero, Nat.div_one, Nat.div_one]
          | succ i =>
              have htail := h i (Nat.lt_of_succ_lt_succ hi)
              rw [hshift, hshift] at htail
              exact htail hne
        · intro h i hi
          rw [hshift, hshift]
          exact h (i + 1) (Nat.succ_lt_succ hi)
      · rw [if_pos fun h => hbyte (heq.mp h)]
        by_cases ha : a.toNat = 0
        · rw [if_neg (not_not.mpr (hzero.mpr ha))]
          refine iff_of_true rfl fun i _ hne => absurd ?_ hne
          rw [ha, Nat.zero_div]
        · rw [if_pos fun h => ha (hzero.mp h)]
          refine iff_of_false Bool.false_ne_true fun h => hbyte ?_
          have hfirst := h 0 (Nat.succ_pos n)
          rw [Nat.pow_zero, Nat.div_one, Nat.div_one] at hfirst
          exact hfirst ha

theorem ipAddrMatch_iff : ipAddrMatch a b = true ↔ Matches a b := by
  unfold ipAddrMatch
  split
  next h => exact iff_of_true rfl fun i _ => by rw [h]
  next =>
    rw [matchLoop_iff]
    constructor
    · intro h i hi
      have hi4 := Nat.lt_of_lt_of_le hi (octets_le a)
      exact h i hi4 ((lt_octets_iff a hi4).mp hi)
    · intro h i hi hne
      exact h i ((lt_octets_iff a hi).mpr hne)

/-- Of the networks with as many octets only one matches. -/
theorem Matches.eq (ha : Matches a daddr) (hb : Matches b daddr) (h : octets a = octets b) :
    a = b := by
  have hoctet : ∀ i < 4, a.toNat / 256 ^ i % 256 = b.toNat / 256 ^ i % 256 := by
    intro i hi
    by_cases hlt : i < octets a
    · exact (ha i hlt).trans (hb i (h ▸ hlt)).symm
    · have hza := (lt_octets_iff a hi).not.mp hlt
      have hzb := (lt_octets_iff b hi).not.mp (h ▸ hlt)
      rw [not_not.mp hza, not_not.mp hzb]
  have h0 := hoctet 0 (by decide)
  have h1 := hoctet 1 (by decide)
  have h2 := hoctet 2 (by decide)
  have h3 := hoctet 3 (by decide)
  have halt := a.isLt
  have hblt := b.isLt
  refine BitVec.eq_of_toNat_eq ?_
  omega

/-! ### The mask -/

/-- What a mask of the loop leaves of an address. -/
theorem and_mask (a : Addr) (k : Nat) : a &&& BitVec.allOnes 32 <<< k = 0 ↔ a.toNat < 2 ^ k := by
  have hzero : ∀ i, (0 : Addr).getLsbD i = false := fun i => BitVec.getLsbD_zero
  have hshift : a.toNat < 2 ^ k ↔ a >>> k = 0 := by
    rw [← BitVec.toNat_inj, BitVec.toNat_ushiftRight, Nat.shiftRight_eq_div_pow]
    exact (Nat.div_eq_zero_iff_lt (Nat.two_pow_pos k)).symm
  rw [hshift]
  constructor
  · intro h
    refine BitVec.eq_of_getLsbD_eq fun j hj => ?_
    have hbit := congrArg (fun m : Addr => m.getLsbD (k + j)) h
    simp only [BitVec.getLsbD_and, BitVec.getLsbD_shiftLeft, BitVec.getLsbD_allOnes] at hbit
    rw [BitVec.getLsbD_ushiftRight, hzero]
    by_cases hlt : k + j < 32
    · simpa [hlt, Nat.add_sub_cancel_left, hj, Nat.not_lt.mpr (Nat.le_add_right k j)] using hbit
    · exact BitVec.getLsbD_of_ge a _ (by omega)
  · intro h
    refine BitVec.eq_of_getLsbD_eq fun j hj => ?_
    simp only [BitVec.getLsbD_and, BitVec.getLsbD_shiftLeft, BitVec.getLsbD_allOnes]
    rw [hzero]
    by_cases hlt : j < k
    · simp [hlt]
    · have hbit := congrArg (fun m : Addr => m.getLsbD (j - k)) h
      simp only [BitVec.getLsbD_ushiftRight, Nat.add_sub_cancel' (Nat.not_lt.mp hlt)] at hbit
      rw [hbit, hzero, Bool.false_and]

/-- The mask for a network: the octets behind its significant ones, but all four octets where
there is at most one. -/
theorem maskOf_eq (net : Addr) :
    maskOf net = BitVec.allOnes 32 <<< (if octets net ≤ 1 then 0 else 8 * octets net) := by
  have h3 := and_mask net 24
  have h2 := and_mask net 16
  have h1 := and_mask net 8
  have k3 := octets_le_iff net (k := 3) (by decide)
  have k2 := octets_le_iff net (k := 2) (by decide)
  have k1 := octets_le_iff net (k := 1) (by decide)
  have k4 := octets_le net
  rw [BitVec.and_comm] at h1 h2 h3
  have e3 : BitVec.allOnes 32 <<< 24 = (0xff000000 : Addr) := by decide
  have e2 : BitVec.allOnes 32 <<< 16 = (0xffff0000 : Addr) := by decide
  have e1 : BitVec.allOnes 32 <<< 8 = (0xffffff00 : Addr) := by decide
  have s3 : (0xff000000 : Addr).sshiftRight 8 ||| 0xff000000 = 0xffff0000 := by decide
  have s2 : (0xffff0000 : Addr).sshiftRight 8 ||| 0xffff0000 = 0xffffff00 := by decide
  have s1 : (0xffffff00 : Addr).sshiftRight 8 ||| 0xffffff00 = 0xffffffff := by decide
  rw [e3] at h3
  rw [e2] at h2
  rw [e1] at h1
  unfold maskOf
  rw [maskLoop, if_neg (by decide)]
  by_cases ho3 : octets net ≤ 3
  · rw [if_neg (not_not.mpr (h3.mpr (k3.mp ho3))), s3, maskLoop, if_neg (by decide)]
    by_cases ho2 : octets net ≤ 2
    · rw [if_neg (not_not.mpr (h2.mpr (k2.mp ho2))), s2, maskLoop, if_neg (by decide)]
      by_cases ho1 : octets net ≤ 1
      · rw [if_neg (not_not.mpr (h1.mpr (k1.mp ho1))), s1, maskLoop, if_pos rfl, if_pos ho1]
        decide
      · rw [if_pos fun h => ho1 (k1.mpr (h1.mp h)), if_neg ho1, show octets net = 2 by omega]
        decide
    · rw [if_pos fun h => ho2 (k2.mpr (h2.mp h)), if_neg (by omega), show octets net = 3 by omega]
      decide
  · rw [if_pos fun h => ho3 (k3.mpr (h3.mp h)), if_neg (by omega), show octets net = 4 by omega]
    decide

/-- The test of `add_route` for an element of the table. -/
theorem mask_test (a net : Addr) :
    (a &&& maskOf net = 0 → octets a ≤ octets net) ∧
      (a &&& maskOf net ≠ 0 → octets net ≤ octets a) := by
  have hle := octets_le net
  have hle' := octets_le a
  rw [Ne, maskOf_eq, and_mask]
  by_cases h1 : octets net ≤ 1
  · have h0 := octets_le_iff a (k := 0) (by decide)
    rw [if_pos h1]
    rw [Nat.pow_zero] at h0 ⊢
    rw [← h0]
    omega
  · rw [if_neg h1]
    by_cases h4 : octets net = 4
    · rw [h4]
      have hlt := a.isLt
      exact ⟨fun _ => hle', fun h => absurd hlt h⟩
    · have hk := octets_le_iff a (k := octets net) (by omega)
      have hpow : (2 : Nat) ^ (8 * octets net) = 256 ^ octets net := Nat.pow_mul 2 8 _
      rw [hpow, ← hk]
      omega

/-! ### The table -/

variable {rt r : Rtable} {mask : Addr} {table adds : List Rtable}

/-- No element stands in front of one with more significant octets. -/
def Sorted (table : List Rtable) : Prop := table.Pairwise fun a b => octets b.net ≤ octets a.net

/-- The route to a network that a walk over the table finds. -/
def routeTo (net : Addr) (table : List Rtable) : Option Rtable := table.find? fun r => r.net = net

/-- What `add_route` keeps: the order, and the last route to each network comes first. -/
structure Inv (adds table : List Rtable) : Prop where
  sorted : Sorted table
  latest : ∀ net, routeTo net table = routeTo net adds.reverse

theorem mem_insertRoute (h : r ∈ insertRoute rt mask table) : r = rt ∨ r ∈ table := by
  induction table with
  | nil => exact .inl (List.mem_singleton.mp h)
  | cons x xs ih =>
      rw [insertRoute] at h
      split at h
      next => exact (List.mem_cons.mp h).imp id fun hx => List.mem_cons_of_mem x hx
      next =>
        split at h
        next => exact List.mem_cons.mp h
        next =>
          cases List.mem_cons.mp h with
          | inl hx => exact .inr (hx ▸ List.mem_cons_self)
          | inr hxs => exact (ih hxs).imp id fun hx => List.mem_cons_of_mem x hx

theorem Sorted.insertRoute (h : Sorted table) : Sorted (insertRoute rt (maskOf rt.net) table) := by
  induction table with
  | nil => exact List.pairwise_singleton _ rt
  | cons x xs ih =>
      have htail := List.pairwise_cons.mp h
      rw [Route.insertRoute]
      split
      next hdup =>
        refine List.pairwise_cons.mpr ⟨fun b hb => ?_, htail.2⟩
        rw [← hdup]
        exact htail.1 b hb
      next =>
        split
        next hmask =>
          have hfront := (mask_test x.net rt.net).1 hmask
          refine List.pairwise_cons.mpr ⟨fun b hb => ?_, h⟩
          cases List.mem_cons.mp hb with
          | inl hx => exact hx ▸ hfront
          | inr hxs => exact Nat.le_trans (htail.1 b hxs) hfront
        next hmask =>
          have hbehind := (mask_test x.net rt.net).2 hmask
          refine List.pairwise_cons.mpr ⟨fun b hb => ?_, ih htail.2⟩
          cases mem_insertRoute hb with
          | inl hrt => exact hrt ▸ hbehind
          | inr hxs => exact htail.1 b hxs

/-- The insertion changes what is found for the new route's network only. -/
theorem routeTo_insertRoute (net : Addr) :
    routeTo net (insertRoute rt mask table) = routeTo net (rt :: table) := by
  induction table with
  | nil => rfl
  | cons x xs ih =>
      rw [insertRoute]
      split
      next hdup =>
        by_cases hnet : rt.net = net
        · simp [routeTo, hnet]
        · simp [routeTo, hdup, hnet]
      next hdup =>
        split
        next => rfl
        next =>
          by_cases hx : x.net = net
          · have hnet : rt.net ≠ net := fun h => hdup (hx.trans h.symm)
            simp [routeTo, hx, hnet]
          · have hskip : routeTo net (x :: insertRoute rt mask xs) =
                routeTo net (insertRoute rt mask xs) := by simp [routeTo, hx]
            rw [hskip, ih]
            simp [routeTo, List.find?_cons, hx]

theorem Inv.addRoute (h : Inv adds table) (rt : Rtable) :
    Inv (adds ++ [rt]) (addRoute table rt) := by
  have hnew : ∀ net, routeTo net (Route.addRoute table rt) = routeTo net (rt :: table) := by
    intro net
    unfold Route.addRoute
    split
    next hnil => rw [hnil]
    next => exact routeTo_insertRoute net
  refine ⟨?_, fun net => ?_⟩
  · unfold Route.addRoute
    split
    next => exact List.pairwise_singleton _ rt
    next => exact h.sorted.insertRoute
  · have hold := h.latest net
    unfold routeTo at hold hnew ⊢
    rw [hnew, List.reverse_append, List.reverse_singleton, List.singleton_append,
      List.find?_cons, List.find?_cons, hold]

theorem inv_tableOf (adds : List Rtable) : Inv adds (tableOf adds) := by
  induction adds using List.reverseRecOn with
  | nil => exact ⟨List.Pairwise.nil, fun _ => rfl⟩
  | append_singleton adds rt ih =>
      rw [tableOf, List.foldl_append]
      exact ih.addRoute rt

/-! ### Routing -/

/-- There is a route to a network in the table exactly if one was added. -/
theorem Inv.net_iff (h : Inv adds table) (net : Addr) :
    (∃ r ∈ table, r.net = net) ↔ ∃ r ∈ adds, r.net = net := by
  have hfound : ∀ l : List Rtable, (routeTo net l).isSome ↔ ∃ r ∈ l, r.net = net := by
    intro l
    simp [routeTo, List.find?_isSome]
  rw [← hfound, h.latest, hfound]
  simp only [List.mem_reverse]

/-- The first element that matches is the best route. -/
theorem Inv.isBest (h : Inv adds table)
    (hfind : table.find? (fun rt => ipAddrMatch rt.net daddr) = some rt) :
    IsBest adds daddr rt := by
  have hmatch : Matches rt.net daddr := ipAddrMatch_iff.mp (by simpa using List.find?_some hfind)
  obtain ⟨before, behind, htable, hbefore⟩ := (List.find?_eq_some_iff_append.mp hfind).2
  have hfront : ∀ r ∈ before, ¬ Matches r.net daddr := by
    intro r hr hm
    have hno := hbefore r hr
    rw [ipAddrMatch_iff.mpr hm] at hno
    exact absurd hno (by decide)
  have hmost : ∀ r ∈ adds, Matches r.net daddr → octets r.net ≤ octets rt.net := by
    intro r hr hm
    obtain ⟨r', hr', hnet⟩ := (h.net_iff r.net).mpr ⟨r, hr, rfl⟩
    rw [← hnet] at hm ⊢
    rw [htable, List.mem_append, List.mem_cons] at hr'
    have hsorted := h.sorted
    rw [htable] at hsorted
    rcases hr' with hr' | hr' | hr'
    · exact absurd hm (hfront r' hr')
    · rw [hr']
    · exact (List.pairwise_cons.mp (List.pairwise_append.mp hsorted).2.1).1 r' hr'
  have hfirst : routeTo rt.net table = some rt := by
    refine List.find?_eq_some_iff_append.mpr ⟨by simp, before, behind, htable, fun r hr => ?_⟩
    have hne : r.net ≠ rt.net := fun hnet => hfront r hr (hnet ▸ hmatch)
    simp [hne]
  rw [h.latest] at hfirst
  obtain ⟨newer, older, hadds, hnewer⟩ := (List.find?_eq_some_iff_append.mp hfirst).2
  refine ⟨hmatch, hmost, older.reverse, newer.reverse, ?_, fun r hr hm => ?_⟩
  · have := congrArg List.reverse hadds
    simpa using this
  · have hr' : r ∈ newer := List.mem_reverse.mp hr
    have hmem : r ∈ adds := by
      rw [← List.mem_reverse, hadds]
      exact List.mem_append_left _ hr'
    have hne : r.net ≠ rt.net := by simpa using hnewer r hr'
    exact Nat.lt_of_le_of_ne (hmost r hmem hm) fun heq => hne (hm.eq hmatch heq)

/-- **Routing picks the most specific route**, and of several routes to its network the last. -/
theorem ipRoute_isBest (adds : List Rtable) (daddr : Addr) :
    (ipRoute (tableOf adds) daddr = none ↔ ∀ r ∈ adds, ¬ Matches r.net daddr) ∧
      ∀ dev router, ipRoute (tableOf adds) daddr = some (dev, router) →
        ∃ r, IsBest adds daddr r ∧ r.dev = dev ∧ r.router = router := by
  have hinv := inv_tableOf adds
  constructor
  · rw [ipRoute, Option.map_eq_none_iff, List.find?_eq_none]
    constructor
    · intro h r hr hm
      obtain ⟨r', hr', hnet⟩ := (hinv.net_iff r.net).mpr ⟨r, hr, rfl⟩
      exact h r' hr' (ipAddrMatch_iff.mpr (hnet ▸ hm))
    · intro h r hr hm
      obtain ⟨r', hr', hnet⟩ := (hinv.net_iff r.net).mp ⟨r, hr, rfl⟩
      exact h r' hr' (hnet ▸ ipAddrMatch_iff.mp hm)
  · intro dev router h
    rw [ipRoute, Option.map_eq_some_iff] at h
    obtain ⟨r, hr, heq⟩ := h
    obtain ⟨rfl, rfl⟩ := Prod.mk.inj heq
    exact ⟨r, hinv.isBest hr, rfl, rfl⟩

/-- Of two routes to one network and a route to all networks, the second one to the network. -/
example : ipRoute (tableOf [⟨0x0000a8c0, 1, 1⟩, ⟨0, 2, 2⟩, ⟨0x0000a8c0, 3, 3⟩]) 0x0501a8c0 =
    some (3, 3) := by decide

end LinuxKernel.V098.Net.Route
