import LinuxKernel.Lib.Chain

/-!
# LinuxKernel.Lib.Chains

**Disjoint linked lists in one heap.** Each list has an owner, who has the pointer to its
first element (`head`). The rules say which lists there are after one link has been
changed: a list is appended to another, cut in two, started, handed over to another owner,
or loses its first element.
-/

namespace LinuxKernel

variable {α ω : Type} {next next' : α → Option α} {head head' : ω → Option α}
  {seg : ω → List α} {o o' : ω} {a : α} {l l' : List α} {h h' v : Option α}

namespace Chain

/-- Link the last element to another list. -/
theorem append (hc : Chain next h (l ++ [a])) (hc' : Chain next h' l')
    (ha : next' a = h') (hn : ∀ b, b ≠ a → next' b = next b) (hd : a ∉ l') :
    Chain next' h (l ++ a :: l') := by
  have hnd := hc.nodup
  induction l generalizing h with
  | nil =>
      refine ⟨hc.1, ?_⟩
      rw [ha]
      exact hc'.congr fun b hb => hn b fun he => hd (he ▸ hb)
  | cons b l ih =>
      obtain ⟨hb, hrest⟩ := hc
      have hb' := List.nodup_cons.mp hnd
      refine ⟨hb, ?_⟩
      rw [hn b fun he => hb'.1 (he ▸ List.mem_append_right l List.mem_cons_self)]
      exact ih hrest hb'.2

/-- The part up to an element whose link is cleared. -/
theorem upto (hc : Chain next h (l ++ a :: l')) (ha : next' a = none)
    (hn : ∀ b, b ≠ a → next' b = next b) : Chain next' h (l ++ [a]) := by
  have hnd := hc.nodup
  induction l generalizing h with
  | nil => exact ⟨hc.1, ha⟩
  | cons b l ih =>
      obtain ⟨hb, hrest⟩ := hc
      have hb' := List.nodup_cons.mp hnd
      refine ⟨hb, ?_⟩
      rw [hn b fun he => hb'.1 (he ▸ List.mem_append_right l List.mem_cons_self)]
      exact ih hrest hb'.2

theorem last_next (hc : Chain next h (l ++ [a])) : next a = none := hc.suffix

end Chain

/-- `seg o` is the list of `o`, and no element is in two lists. -/
structure Chains (next : α → Option α) (head : ω → Option α) (seg : ω → List α) : Prop where
  chain : ∀ o, Chain next (head o) (seg o)
  disjoint : ∀ o o' a, a ∈ seg o → a ∈ seg o' → o = o'

namespace Chains

theorem congr (hc : Chains next head seg) (hn : ∀ o, ∀ a ∈ seg o, next' a = next a)
    (hh : ∀ o, head' o = head o) : Chains next' head' seg where
  chain o := by
    rw [hh]
    exact (hc.chain o).congr (hn o)
  disjoint := hc.disjoint

/-- What an owner's pointer leads to is his list. -/
theorem eq_of_chain (hc : Chains next head seg) (hl : Chain next (head o) l) : seg o = l :=
  (hc.chain o).unique hl

theorem seg_of_none (hc : Chains next head seg) (ho : head o = none) : seg o = [] :=
  hc.eq_of_chain ho

theorem seg_of_some (hc : Chains next head seg) (ho : head o = some a) : ∃ l, seg o = a :: l := by
  have := hc.chain o
  cases hs : seg o with
  | nil =>
      rw [hs] at this
      rw [show head o = none from this] at ho
      cases ho
  | cons b l =>
      rw [hs] at this
      obtain rfl : b = a := Option.some.inj (this.1.symm.trans ho)
      exact ⟨l, rfl⟩

variable [DecidableEq ω] {seg' : ω → List α}

/-- Two lists change, and stay apart from the others. -/
theorem of_two (hc : Chains next head seg) (o o' : ω)
    (hn : ∀ w, w ≠ o → w ≠ o' → ∀ a ∈ seg w, next' a = next a)
    (hh : ∀ w, w ≠ o → w ≠ o' → head' w = head w)
    (hs : ∀ w, w ≠ o → w ≠ o' → seg' w = seg w)
    (ho : Chain next' (head' o) (seg' o)) (ho' : Chain next' (head' o') (seg' o'))
    (hdis : ∀ a, a ∈ seg' o → a ∉ seg' o')
    (hout : ∀ w, w ≠ o → w ≠ o' → ∀ a ∈ seg w, a ∉ seg' o ∧ a ∉ seg' o') :
    Chains next' head' seg' where
  chain w := by
    by_cases hw : w = o
    · rw [hw]
      exact ho
    · by_cases hw' : w = o'
      · rw [hw']
        exact ho'
      · rw [hh w hw hw', hs w hw hw']
        exact (hc.chain w).congr (hn w hw hw')
  disjoint := by
    -- of two lists at most the first is one of the changed two, up to symmetry
    have hwlog : ∀ w w' a, a ∈ seg' w → a ∈ seg' w' → w ≠ w' → w' ≠ o → w' ≠ o' → False := by
      intro w w' a ha ha' hww hw'o hw'o'
      rw [hs w' hw'o hw'o'] at ha'
      by_cases hw : w = o
      · exact (hout w' hw'o hw'o' a ha').1 (hw ▸ ha)
      · by_cases hw' : w = o'
        · exact (hout w' hw'o hw'o' a ha').2 (hw' ▸ ha)
        · rw [hs w hw hw'] at ha
          exact hww (hc.disjoint w w' a ha ha')
    intro w w' a ha ha'
    by_contra hww
    by_cases h1 : w' = o
    · by_cases h2 : w = o'
      · exact hdis a (h1 ▸ ha') (h2 ▸ ha)
      · exact hwlog w' w a ha' ha (Ne.symm hww) (fun he => hww (he.trans h1.symm)) h2
    · by_cases h1' : w' = o'
      · by_cases h2 : w = o
        · exact hdis a (h2 ▸ ha) (h1' ▸ ha')
        · exact hwlog w' w a ha' ha (Ne.symm hww) h2 (fun he => hww (he.trans h1'.symm))
      · exact hwlog w w' a ha ha' hww h1 h1'

/-- The list of `o'` is linked behind the last element of that of `o`. -/
theorem append [DecidableEq α] (hc : Chains next head seg) (hne : o ≠ o')
    (ho : seg o = l ++ [a]) :
    Chains (Function.update next a (head o')) (Function.update head o' none)
      (Function.update (Function.update seg o (seg o ++ seg o')) o' []) := by
  have hao : a ∈ seg o := ho ▸ List.mem_append_right l List.mem_cons_self
  have hto : Function.update (Function.update seg o (seg o ++ seg o')) o' [] o =
      seg o ++ seg o' := by
    rw [Function.update_of_ne hne, Function.update_self]
  refine hc.of_two o o' (fun w hw hw' b hb => ?_) (fun w hw hw' => ?_) (fun w hw hw' => ?_)
    ?_ ?_ (fun b _ => ?_) (fun w hw hw' b hb => ?_)
  · refine Function.update_of_ne ?_ _ _
    rintro rfl
    exact hw (hc.disjoint w o b hb hao)
  · exact Function.update_of_ne hw' _ _
  · rw [Function.update_of_ne hw', Function.update_of_ne hw]
  · rw [hto, Function.update_of_ne hne, ho, List.append_assoc]
    refine Chain.append (ho ▸ hc.chain o) (hc.chain o') (Function.update_self ..)
      (fun b hb => Function.update_of_ne hb _ _) fun ha => hne (hc.disjoint o o' a hao ha)
  · rw [Function.update_self, Function.update_self]
    rfl
  · rw [Function.update_self]
    exact List.not_mem_nil
  · rw [hto, Function.update_self]
    refine ⟨fun hb' => ?_, List.not_mem_nil⟩
    rcases List.mem_append.mp hb' with hb' | hb'
    · exact hw (hc.disjoint w o b hb hb')
    · exact hw' (hc.disjoint w o' b hb hb')

/-- The list of `o` is cut behind `a`, and the rest goes to `o'`. -/
theorem cut [DecidableEq α] (hc : Chains next head seg) (hne : o ≠ o')
    (ho : seg o = l ++ a :: l') :
    Chains (Function.update next a none) (Function.update head o' (next a))
      (Function.update (Function.update seg o (l ++ [a])) o' l') := by
  have hall := hc.chain o
  rw [ho] at hall
  have hnd := List.nodup_append.mp hall.nodup
  have hao : a ∈ seg o := ho ▸ List.mem_append_right l List.mem_cons_self
  have hal' : a ∉ l' := (List.nodup_cons.mp hnd.2.1).1
  have hto : Function.update (Function.update seg o (l ++ [a])) o' l' o = l ++ [a] := by
    rw [Function.update_of_ne hne, Function.update_self]
  refine hc.of_two o o' (fun w hw hw' b hb => ?_) (fun w hw hw' => ?_) (fun w hw hw' => ?_)
    ?_ ?_ (fun b hb => ?_) (fun w hw hw' b hb => ?_)
  · refine Function.update_of_ne ?_ _ _
    rintro rfl
    exact hw (hc.disjoint w o b hb hao)
  · exact Function.update_of_ne hw' _ _
  · rw [Function.update_of_ne hw', Function.update_of_ne hw]
  · rw [hto, Function.update_of_ne hne]
    exact hall.upto (Function.update_self ..) fun b hb => Function.update_of_ne hb _ _
  · rw [Function.update_self, Function.update_self]
    refine hall.suffix.congr fun b hb => Function.update_of_ne ?_ _ _
    rintro rfl
    exact hal' hb
  · rw [hto] at hb
    rw [Function.update_self]
    intro hb'
    rcases List.mem_append.mp hb with hb | hb
    · exact hnd.2.2 b hb b (List.mem_cons_of_mem a hb') rfl
    · obtain rfl := List.mem_singleton.mp hb
      exact hal' hb'
  · have hbo : b ∉ seg o := fun hb' => hw (hc.disjoint w o b hb hb')
    rw [ho] at hbo
    rw [hto, Function.update_self]
    refine ⟨fun hb' => hbo ?_, fun hb' => hbo ?_⟩
    · rcases List.mem_append.mp hb' with hb' | hb'
      · exact List.mem_append_left _ hb'
      · exact List.mem_append_right _ (List.mem_singleton.mp hb' ▸ List.mem_cons_self)
    · exact List.mem_append_right _ (List.mem_cons_of_mem a hb')

/-- The list of `o` goes to `o'`. -/
theorem hand (hc : Chains next head seg) (hne : o ≠ o') :
    Chains next (Function.update (Function.update head o none) o' (head o))
      (Function.update (Function.update seg o []) o' (seg o)) := by
  refine hc.of_two o o' (fun w hw hw' b hb => rfl) (fun w hw hw' => ?_) (fun w hw hw' => ?_)
    ?_ ?_ (fun b hb => ?_) (fun w hw hw' b hb => ?_)
  · rw [Function.update_of_ne hw', Function.update_of_ne hw]
  · rw [Function.update_of_ne hw', Function.update_of_ne hw]
  · rw [Function.update_of_ne hne, Function.update_self, Function.update_of_ne hne,
      Function.update_self]
    rfl
  · rw [Function.update_self, Function.update_self]
    exact hc.chain o
  · rw [Function.update_of_ne hne, Function.update_self] at hb
    exact absurd hb List.not_mem_nil
  · rw [Function.update_of_ne hne, Function.update_self, Function.update_self]
    exact ⟨List.not_mem_nil, fun hb' => hw (hc.disjoint w o b hb hb')⟩

/-- Two lists exchange elements: all elements are still in some list. -/
theorem mem_exchange (hne : o ≠ o') (h : ∀ a, a ∈ l ∨ a ∈ l' ↔ a ∈ seg o ∨ a ∈ seg o') (a : α) :
    (∃ w, a ∈ Function.update (Function.update seg o l) o' l' w) ↔ ∃ w, a ∈ seg w := by
  have ho : Function.update (Function.update seg o l) o' l' o = l := by
    rw [Function.update_of_ne hne, Function.update_self]
  have hother : ∀ w, w ≠ o → w ≠ o' → Function.update (Function.update seg o l) o' l' w = seg w :=
    fun w hw hw' => by rw [Function.update_of_ne hw', Function.update_of_ne hw]
  constructor
  · rintro ⟨w, hw⟩
    by_cases hwo : w = o
    · rw [hwo, ho] at hw
      exact ((h a).mp (Or.inl hw)).elim (fun h => ⟨o, h⟩) fun h => ⟨o', h⟩
    · by_cases hwo' : w = o'
      · rw [hwo', Function.update_self] at hw
        exact ((h a).mp (Or.inr hw)).elim (fun h => ⟨o, h⟩) fun h => ⟨o', h⟩
      · rw [hother w hwo hwo'] at hw
        exact ⟨w, hw⟩
  · rintro ⟨w, hw⟩
    by_cases hwo : w = o ∨ w = o'
    · have hold : a ∈ seg o ∨ a ∈ seg o' := by
        rcases hwo with rfl | rfl
        · exact Or.inl hw
        · exact Or.inr hw
      rcases (h a).mpr hold with hl | hl
      · exact ⟨o, by rw [ho]; exact hl⟩
      · exact ⟨o', by rw [Function.update_self]; exact hl⟩
    · rw [not_or] at hwo
      exact ⟨w, by rw [hother w hwo.1 hwo.2]; exact hw⟩

/-- One list changes. -/
theorem of_one (hc : Chains next head seg)
    (hn : ∀ w, w ≠ o → ∀ a ∈ seg w, next' a = next a) (hl : Chain next' h l)
    (hout : ∀ w, w ≠ o → ∀ a ∈ seg w, a ∉ l) :
    Chains next' (Function.update head o h) (Function.update seg o l) where
  chain w := by
    by_cases hw : w = o
    · subst hw
      rw [Function.update_self, Function.update_self]
      exact hl
    · rw [Function.update_of_ne hw, Function.update_of_ne hw]
      exact (hc.chain w).congr (hn w hw)
  disjoint w w' a ha ha' := by
    by_cases hw : w = o
    · by_cases hw' : w' = o
      · exact hw.trans hw'.symm
      · rw [hw, Function.update_self] at ha
        rw [Function.update_of_ne hw'] at ha'
        exact absurd ha (hout w' hw' a ha')
    · rw [Function.update_of_ne hw] at ha
      by_cases hw' : w' = o
      · rw [hw', Function.update_self] at ha'
        exact absurd ha' (hout w hw a ha)
      · rw [Function.update_of_ne hw'] at ha'
        exact hc.disjoint w w' a ha ha'

/-- `o`, who had no list, starts one with a new element. -/
theorem start [DecidableEq α] (hc : Chains next head seg) (ha : ∀ w, a ∉ seg w) :
    Chains (Function.update next a none) (Function.update head o (some a))
      (Function.update seg o [a]) := by
  refine hc.of_one (fun w _ b hb => ?_) ⟨rfl, Function.update_self ..⟩ fun w _ b hb hb' => ?_
  · refine Function.update_of_ne ?_ _ _
    rintro rfl
    exact ha w hb
  · exact ha w (List.mem_singleton.mp hb' ▸ hb)

/-- The list of `o` loses its first element, whose link may become anything. -/
theorem pop [DecidableEq α] (hc : Chains next head seg) (ho : seg o = a :: l) :
    Chains (Function.update next a v) (Function.update head o (next a))
      (Function.update seg o l) := by
  have hall := hc.chain o
  rw [ho] at hall
  have hal := (List.nodup_cons.mp hall.nodup).1
  have hao : a ∈ seg o := ho ▸ List.mem_cons_self
  refine hc.of_one (fun w hw b hb => ?_) ?_ fun w hw b hb hb' => ?_
  · refine Function.update_of_ne ?_ _ _
    rintro rfl
    exact hw (hc.disjoint w o b hb hao)
  · refine hall.2.congr fun b hb => Function.update_of_ne ?_ _ _
    rintro rfl
    exact hal hb
  · exact hw (hc.disjoint w o b hb (ho ▸ List.mem_cons_of_mem a hb'))

end Chains

end LinuxKernel
