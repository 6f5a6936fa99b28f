import LinuxKernel.V011.Fs.Dir

/-!
# LinuxKernel.V011.Fs.DirNames

**Names in a directory are unique** as long as no call comes too late (`Fresh`).

A call looks its name up, sleeps, and puts it into the directory without another
look. What it cannot know of is what others have put there since it began to look,
and what is in blocks it could not read; `Seen` says that there is nothing else.
-/

namespace LinuxKernel.V011.Fs.Dir

/-! ### Names -/

/-- The name in an entry, up to its NUL. -/
def str (name : Fin NAME_LEN → UInt8) : List UInt8 := (List.ofFn name).takeWhile (· ≠ 0)

/-- The name that goes into the directory. -/
def Call.entryName (c : Call) : List UInt8 := c.name.take NAME_LEN

theorem ne_zero_of_mem {n : List UInt8} (hn : 0 ∉ n) : ∀ a ∈ n, decide (a ≠ 0) = true := by
  intro a ha
  have hne : a ≠ 0 := fun he => hn (he ▸ ha)
  exact decide_eq_true hne

theorem takeWhile_padded {n : List UInt8} {k : Nat} (hn : 0 ∉ n) :
    (n ++ List.replicate k 0).takeWhile (· ≠ 0) = n := by
  rw [List.takeWhile_append_of_pos (ne_zero_of_mem hn)]
  cases k with
  | zero => simp
  | succ k => rw [List.replicate_succ, List.takeWhile_cons_of_neg (by simp), List.append_nil]

theorem ofFn_padded {n : List UInt8} (hlen : n.length ≤ NAME_LEN) :
    List.ofFn (padded n) = n ++ List.replicate (NAME_LEN - n.length) 0 := by
  refine List.ext_getElem (by simp; omega) fun i h₁ h₂ => ?_
  rw [List.getElem_ofFn]
  change n.getD i 0 = _
  by_cases hi : i < n.length
  · rw [List.getElem_append_left hi]
    rw [List.getD_eq_getElem?_getD, List.getElem?_eq_getElem hi, Option.getD_some]
  · rw [List.getElem_append_right (by omega), List.getElem_replicate]
    rw [List.getD_eq_getElem?_getD, List.getElem?_eq_none (by omega), Option.getD_none]

/-- What `add_entry` stores is the name. -/
theorem str_padded {n : List UInt8} (hlen : n.length ≤ NAME_LEN) (hn : 0 ∉ n) :
    str (padded n) = n := by
  unfold str
  rw [ofFn_padded hlen, takeWhile_padded hn]

/-- `match` compares the names. -/
theorem matchEntry_iff {n : List UInt8} (hn : 0 ∉ n) {de : DirEntry} :
    matchEntry (namelen n) n de = true ↔ de.inode ≠ 0 ∧ str de.name = n.take NAME_LEN := by
  have hlen : (List.ofFn de.name).length = NAME_LEN := List.length_ofFn
  have htake : n.take (namelen n) = n.take NAME_LEN := by
    unfold namelen
    rw [Nat.min_comm, ← List.take_take, List.take_length]
  have hle : namelen n ≤ NAME_LEN := Nat.min_le_right _ _
  have hnl : (n.take NAME_LEN).length = namelen n := by
    rw [List.length_take]
    exact Nat.min_comm _ _
  have hzero := ne_zero_of_mem (n := n.take NAME_LEN) fun hmem => hn (List.mem_of_mem_take hmem)
  unfold matchEntry
  by_cases hi : de.inode = 0
  · rw [if_pos (Or.inl hi)]
    exact ⟨nofun, fun h => absurd hi h.1⟩
  · have hgo : ¬ (de.inode = 0 ∨ namelen n > NAME_LEN) := by
      rintro (h | h)
      · exact hi h
      · omega
    rw [if_neg hgo, htake]
    refine Iff.trans ?_ (and_iff_right hi).symm
    constructor
    · intro h
      split at h
      · cases h
      · rename_i hend
        have heq := of_decide_eq_true h
        unfold str
        rw [← List.take_append_drop (namelen n) (List.ofFn de.name), heq,
          List.takeWhile_append_of_pos hzero]
        -- behind the name there is a NUL, or the end
        have hrest : ((List.ofFn de.name).drop (namelen n)).takeWhile (· ≠ 0) = [] := by
          by_cases hlt : namelen n < NAME_LEN
          · rw [List.drop_eq_getElem_cons (by omega)]
            refine List.takeWhile_cons_of_neg ?_
            rw [List.getElem_ofFn]
            intro hc
            exact hend ⟨hlt, of_decide_eq_true hc⟩
          · rw [List.drop_eq_nil_of_le (by omega)]
            rfl
        rw [hrest, List.append_nil]
    · intro h
      have hsplit := List.takeWhile_append_dropWhile (p := fun a : UInt8 => decide (a ≠ 0))
        (l := List.ofFn de.name)
      change str de.name ++ _ = _ at hsplit
      rw [h] at hsplit
      rw [if_neg ?_, ← hsplit, List.take_append_of_le_length (by omega),
        List.take_of_length_le (by omega)]
      · exact decide_eq_true rfl
      · rintro ⟨hlt, hend⟩
        refine hend ?_
        have hne : (List.ofFn de.name).dropWhile (fun a => decide (a ≠ 0)) ≠ [] := by
          intro hnil
          rw [hnil, List.append_nil] at hsplit
          rw [← hsplit] at hlen
          omega
        have hhead := List.head_dropWhile_not (fun a : UInt8 => decide (a ≠ 0)) hne
        rw [List.head_eq_getElem] at hhead
        have hget := List.getElem_of_eq hsplit.symm (i := namelen n) (by omega)
        rw [List.getElem_ofFn, List.getElem_append_right (by omega)] at hget
        simp only [hnl, Nat.sub_self] at hget
        rw [hget]
        simpa using hhead

/-! ### What a call knows of the directory -/

/-- Entry `j` is live. -/
def State.Live (s : State) (j : Nat) : Prop := j < s.size ∧ (s.dir j).inode ≠ 0

/-- Entry `j` is live, and this is its name. -/
def State.Has (s : State) (n : List UInt8) (j : Nat) : Prop :=
  s.Live j ∧ str (s.dir j).name = n

/-- No two live entries have the same name. -/
def State.Unique (s : State) : Prop :=
  ∀ i j, s.Live i → s.Live j → str (s.dir i).name = str (s.dir j).name → i = j

/-- The entries made since a call began to look. -/
def State.recent (s : State) (look : Look) : List (Nat × List UInt8) :=
  s.added.take (s.added.length - look.since)

/-- Since the call began to look, no other has put its name into the directory, and the name
is not in what it could not read. -/
def Fresh (s : State) (c : Call) (look : Look) : Prop :=
  (∀ e ∈ s.recent look, e.2 ≠ c.entryName) ∧
    ∀ r ∈ look.unread, ∀ j, r.1 ≤ j → j < r.2 → ¬ s.Has c.entryName j

/-- `add_entry` has a place in this block. -/
def State.Free (s : State) (j : Nat) : Prop := s.size ≤ j ∨ (s.dir j).inode = 0

instance (s : State) (j : Nat) : Decidable (s.Free j) := inferInstanceAs (Decidable (_ ∨ _))

/-- A call that is about to put a name into the directory is not too late. -/
def Ok (s : State) : Op → Prop
  | .run t .ok =>
      match s.pc t with
      | .add c look _ i => (∃ j ∈ inBlock i, s.Free j) → Fresh s c look
      | _ => True
  | _ => True

/-- The name can only be where the call could not see it, or where it has yet to look. -/
structure Known (s : State) (c : Call) (look : Look) (rest : Nat → Prop) : Prop where
  since : look.since ≤ s.added.length
  seen : ∀ j, s.Has c.entryName j →
    (∃ e ∈ s.recent look, e.2 = c.entryName) ∨ (∃ r ∈ look.unread, r.1 ≤ j ∧ j < r.2) ∨ rest j

def Seen (s : State) : Pc → Prop
  | .idle => True
  | .find c look entries i =>
      Known s c look (fun j => i ≤ j ∧ j < entries) ∧ DIR_ENTRIES_PER_BLOCK ∣ i ∧
        (c.isRoot = true ∧ c.name = [46, 46] → i = 0 ∧ 0 < entries)
  | .newInode c look => Known s c look fun _ => False
  | .newBlock c look inum => Known s c look (fun _ => False) ∧ inum ≠ 0
  | .dirBlock c look inum => Known s c look (fun _ => False) ∧ inum ≠ 0
  | .add c look inum _ => Known s c look (fun _ => False) ∧ inum ≠ 0

/-- A directory, and calls in the middle of their work. -/
structure Sound (s : State) : Prop where
  unique : s.Unique
  /-- Behind the last entry there is nothing. -/
  blank : ∀ j, s.size ≤ j → (s.dir j).inode = 0
  /-- The directory itself is its first entry. -/
  dot : s.Has [46] 0
  made : ∀ e ∈ s.added, s.Has e.2 e.1
  seen : ∀ t, Seen s (s.pc t)

/-- A directory that nobody is at work in. -/
structure Init (s : State) : Prop where
  unique : s.Unique
  blank : ∀ j, s.size ≤ j → (s.dir j).inode = 0
  dot : s.Has [46] 0
  idle : ∀ t, s.pc t = .idle
  added : s.added = []

theorem Init.sound {s : State} (h : Init s) : Sound s :=
  ⟨h.unique, h.blank, h.dot, fun e he => by simp [h.added] at he, fun t => by
    rw [h.idle t]
    exact True.intro⟩

theorem Known.mono {s : State} {c : Call} {look : Look} {rest rest' : Nat → Prop}
    (h : Known s c look rest) (himp : ∀ j, s.Has c.entryName j → rest j → rest' j) :
    Known s c look rest' := by
  refine ⟨h.since, fun j hj => ?_⟩
  rcases h.seen j hj with hr | hr | hr
  · exact Or.inl hr
  · exact Or.inr (Or.inl hr)
  · exact Or.inr (Or.inr (himp j hj hr))

/-- What is left to look at turns out to be unreadable. -/
theorem Known.skip {s : State} {c : Call} {look : Look} {rest rest' : Nat → Prop} {r : Nat × Nat}
    (h : Known s c look rest)
    (himp : ∀ j, s.Has c.entryName j → rest j → (r.1 ≤ j ∧ j < r.2) ∨ rest' j) :
    Known s c { look with unread := r :: look.unread } rest' := by
  refine ⟨h.since, fun j hj => ?_⟩
  rcases h.seen j hj with hr | ⟨r', hmem, hr⟩ | hr
  · exact Or.inl hr
  · exact Or.inr (Or.inl ⟨r', List.mem_cons_of_mem _ hmem, hr⟩)
  · rcases himp j hj hr with hr | hr
    · exact Or.inr (Or.inl ⟨r, List.mem_cons_self, hr⟩)
    · exact Or.inr (Or.inr hr)

/-- Nobody else has the name when the call is not too late. -/
theorem Known.absent {s : State} {c : Call} {look : Look} (h : Known s c look fun _ => False)
    (hfresh : Fresh s c look) (j : Nat) : ¬ s.Has c.entryName j := by
  intro hj
  rcases h.seen j hj with ⟨e, he, hname⟩ | ⟨r, hr, hlo, hhi⟩ | hfalse
  · exact hfresh.1 e he hname
  · exact hfresh.2 r hr j hlo hhi hj
  · exact hfalse

/-- Somebody else has the name when the call is too late. -/
theorem Sound.exists_of_not_fresh {s : State} (h : Sound s) {c : Call} {look : Look}
    (hfresh : ¬ Fresh s c look) : ∃ j, s.Has c.entryName j := by
  by_contra hnone
  refine hfresh ⟨fun e he hname => hnone ⟨e.1, ?_⟩, fun r _ j _ _ hj => hnone ⟨j, hj⟩⟩
  rw [← hname]
  exact h.made e (List.mem_of_mem_take he)

/-! ### A new entry -/

section Put

variable {s : State} {t : Task} {c : Call} {inum : BitVec 16} {j : Nat}

theorem str_entryName : str (padded c.entryName) = c.entryName :=
  str_padded (List.length_take_le _ _) fun hmem => c.named.2 (List.mem_of_mem_take hmem)

/-- The new entry has the name, and all others stay. -/
theorem has_putEntry (h : Sound s) (hfree : s.Free j) (hi : inum ≠ 0) {n : List UInt8} {k : Nat} :
    (putEntry s t c inum j).Has n k ↔ (k = j ∧ c.entryName = n) ∨ s.Has n k := by
  have hdead : ¬ s.Has n j := by
    rintro ⟨⟨hlt, hinode⟩, -⟩
    rcases hfree with hle | hz
    · omega
    · exact hinode hz
  unfold State.Has State.Live putEntry
  dsimp only
  by_cases hk : k = j
  · subst hk
    rw [Function.update_self]
    change (_ ∧ inum ≠ 0) ∧ str (padded c.entryName) = n ↔ _
    rw [str_entryName]
    refine ⟨fun ⟨_, hn⟩ => Or.inl ⟨rfl, hn⟩, ?_⟩
    rintro (⟨-, hn⟩ | hhas)
    · exact ⟨⟨by omega, hi⟩, hn⟩
    · exact absurd hhas hdead
  · rw [Function.update_of_ne hk]
    constructor
    · rintro ⟨⟨-, hinode⟩, hn⟩
      refine Or.inr ⟨⟨?_, hinode⟩, hn⟩
      by_contra hge
      exact hinode (h.blank k (by omega))
    · rintro (⟨he, -⟩ | ⟨⟨hlt, hinode⟩, hn⟩)
      · exact absurd he hk
      · exact ⟨⟨by omega, hinode⟩, hn⟩

/-- What another call knows stays true, with the new entry among the recent ones. -/
theorem Known.putEntry (h : Sound s) (hfree : s.Free j) (hi : inum ≠ 0) {c' : Call} {look : Look}
    {rest : Nat → Prop} (hk : Known s c' look rest) :
    Known (putEntry s t c inum j) c' look rest := by
  have hsince := hk.since
  have hrecent : (Dir.putEntry s t c inum j).recent look =
      (j, c.entryName) :: s.recent look := by
    change ((j, c.entryName) :: s.added).take (s.added.length + 1 - look.since) = _
    rw [Nat.succ_sub hsince, List.take_succ_cons]
    rfl
  refine ⟨Nat.le_succ_of_le hsince, fun k hk' => ?_⟩
  rw [hrecent]
  rcases (has_putEntry h hfree hi).1 hk' with ⟨-, hn⟩ | hhas
  · exact Or.inl ⟨_, List.mem_cons_self, hn⟩
  · rcases hk.seen k hhas with ⟨e, he, hn⟩ | hr
    · exact Or.inl ⟨e, List.mem_cons_of_mem _ he, hn⟩
    · exact Or.inr hr

theorem Seen.putEntry (h : Sound s) (hfree : s.Free j) (hi : inum ≠ 0) {pc : Pc}
    (hs : Seen s pc) : Seen (putEntry s t c inum j) pc := by
  cases pc with
  | idle => exact True.intro
  | find c' look entries i => exact ⟨hs.1.putEntry h hfree hi, hs.2⟩
  | newInode c' look => exact Known.putEntry h hfree hi hs
  | newBlock c' look inum' => exact ⟨hs.1.putEntry h hfree hi, hs.2⟩
  | dirBlock c' look inum' => exact ⟨hs.1.putEntry h hfree hi, hs.2⟩
  | add c' look inum' i => exact ⟨hs.1.putEntry h hfree hi, hs.2⟩

/-- A name that nobody has can be put into the directory. -/
theorem Sound.putEntry (h : Sound s) (hfree : s.Free j) (hi : inum ≠ 0)
    (habsent : ∀ k, ¬ s.Has c.entryName k) : Sound (putEntry s t c inum j) where
  unique k l hk hl he := by
    have hk' := (has_putEntry h hfree hi).1 ⟨hk, rfl⟩
    have hl' := (has_putEntry h hfree hi).1 ⟨hl, he.symm⟩
    rcases hk' with ⟨rfl, hnk⟩ | hhask
    · rcases hl' with ⟨rfl, -⟩ | hhasl
      · rfl
      · rw [← hnk] at hhasl
        exact absurd hhasl (habsent l)
    · rcases hl' with ⟨rfl, hnl⟩ | hhasl
      · rw [← hnl] at hhask
        exact absurd hhask (habsent k)
      · exact h.unique k l hhask.1 hhasl.1 (hhask.2.trans hhasl.2.symm)
  blank k hk := by
    change max s.size (j + 1) ≤ k at hk
    change (Function.update s.dir j _ k).inode = 0
    rw [Function.update_of_ne (by omega)]
    exact h.blank k (by omega)
  dot := (has_putEntry h hfree hi).2 (Or.inr h.dot)
  made e he := by
    rcases List.mem_cons.1 he with rfl | he
    · exact (has_putEntry h hfree hi).2 (Or.inl ⟨rfl, rfl⟩)
    · exact (has_putEntry h hfree hi).2 (Or.inr (h.made e he))
  seen u := by
    change Seen _ (Function.update s.pc t Pc.idle u)
    rcases eq_or_ne u t with rfl | hu
    · rw [Function.update_self]
      exact True.intro
    · rw [Function.update_of_ne hu]
      exact (h.seen u).putEntry h hfree hi

/-- A name that somebody has is there twice then. -/
theorem Sound.not_unique_putEntry (h : Sound s) (hfree : s.Free j) (hi : inum ≠ 0) {k : Nat}
    (hhas : s.Has c.entryName k) : ¬ (Dir.putEntry s t c inum j).Unique := by
  intro hunique
  obtain ⟨hj, hnj⟩ := (has_putEntry (t := t) (c := c) h hfree hi).2 (Or.inl ⟨rfl, rfl⟩)
  obtain ⟨hk, hnk⟩ := (has_putEntry (t := t) (c := c) h hfree hi).2 (Or.inr hhas)
  obtain rfl : j = k := hunique j k hj hk (hnj.trans hnk.symm)
  rcases hfree with hle | hz
  · exact Nat.not_lt.2 hle hhas.1.1
  · exact hhas.1.2 hz

end Put

/-! ### The calls -/

section Calls

variable {s s' : State} {t : Task} {c : Call} {look : Look} {inum : BitVec 16} {entries i : Nat}

theorem Known.setPc {rest : Nat → Prop} {pc : Pc} (h : Known s c look rest) :
    Known (s.setPc t pc) c look rest := ⟨h.since, h.seen⟩

theorem Seen.setPc {pc pc' : Pc} (h : Seen s pc') : Seen (s.setPc t pc) pc' := by
  cases pc' with
  | idle => exact True.intro
  | find c look entries i => exact ⟨h.1.setPc, h.2⟩
  | newInode c look => exact Known.setPc h
  | newBlock c look inum => exact ⟨h.1.setPc, h.2⟩
  | dirBlock c look inum => exact ⟨h.1.setPc, h.2⟩
  | add c look inum i => exact ⟨h.1.setPc, h.2⟩

theorem Sound.setPc (h : Sound s) {pc : Pc} (hs : Seen s pc) : Sound (s.setPc t pc) := by
  refine ⟨h.unique, h.blank, h.dot, h.made, fun u => Seen.setPc ?_⟩
  change Seen s (Function.update s.pc t pc u)
  rcases eq_or_ne u t with rfl | hu
  · rw [Function.update_self]
    exact hs
  · rw [Function.update_of_ne hu]
    exact h.seen u

theorem Sound.notFound (h : Sound s) (hk : Known s c look fun _ => False) :
    Sound (notFound s t c look) := by
  unfold Dir.notFound
  split
  · split
    · exact h.setPc hk
    · exact h.setPc True.intro
  · exact h.setPc hk
  · exact h.setPc hk
  · rename_i inum hi _
    exact h.setPc ⟨hk, hi⟩

/-- The next block, or the end of the directory. -/
theorem Sound.findNext (h : Sound s) (hk : Known s c look fun j => i ≤ j ∧ j < entries)
    (hi : DIR_ENTRIES_PER_BLOCK ∣ i) (hdot : ¬ (c.isRoot = true ∧ c.name = [46, 46])) :
    Sound (findNext s t c look entries i) := by
  unfold Dir.findNext
  split
  case isTrue hlt => exact h.setPc ⟨hk, hi, fun hr => absurd hr hdot⟩
  case isFalse hlt => exact h.notFound (hk.mono fun j _ hj => hlt (by omega))

theorem mem_inBlock (hi : DIR_ENTRIES_PER_BLOCK ∣ i) {j : Nat} :
    j ∈ inBlock i ↔ i ≤ j ∧ j < i + DIR_ENTRIES_PER_BLOCK := by
  have hmul : i / DIR_ENTRIES_PER_BLOCK * DIR_ENTRIES_PER_BLOCK = i := Nat.div_mul_cancel hi
  unfold inBlock
  rw [List.mem_range'_1, Nat.add_mul, hmul]
  omega

theorem wanted_of_not (hdot : ¬ (c.isRoot = true ∧ c.name = [46, 46])) : wanted c = c.name :=
  if_neg hdot

/-- In a block without a match, nobody has the name. -/
theorem not_has_of_unmatched (hi : DIR_ENTRIES_PER_BLOCK ∣ i)
    (hdot : ¬ (c.isRoot = true ∧ c.name = [46, 46]))
    (hnone : ¬ ((inBlock i).filter (· < entries)).any (fun j =>
      matchEntry (namelen (wanted c)) (wanted c) (s.dir j)) = true) {j : Nat}
    (hj : i ≤ j ∧ j < entries) (hhas : s.Has c.entryName j) :
    i + DIR_ENTRIES_PER_BLOCK ≤ j := by
  by_contra hlt
  refine hnone (List.any_eq_true.2 ⟨j, ?_, ?_⟩)
  · exact List.mem_filter.2 ⟨(mem_inBlock hi).2 (by omega), decide_eq_true hj.2⟩
  · rw [wanted_of_not hdot]
    exact (matchEntry_iff c.named.2).2 ⟨hhas.1.2, hhas.2⟩

theorem Sound.findBlock (h : Sound s) (hs : Seen s (.find c look entries i)) {choice : Choice}
    (hstep : findBlock s t c look entries i choice = .next s') : Sound s' := by
  obtain ⟨hk, hi, hroot⟩ := hs
  unfold Dir.findBlock at hstep
  cases choice with
  | ok =>
      dsimp only at hstep
      split at hstep
      case isTrue hany =>
        cases hstep
        exact h.setPc True.intro
      case isFalse hnone =>
        cases hstep
        -- `..` in a root finds the directory itself
        have hdot : ¬ (c.isRoot = true ∧ c.name = [46, 46]) := by
          intro hr
          obtain ⟨rfl, hpos⟩ := hroot hr
          refine hnone (List.any_eq_true.2 ⟨0, ?_, ?_⟩)
          · exact List.mem_filter.2 ⟨by decide, decide_eq_true hpos⟩
          · rw [show wanted c = [46] from if_pos hr]
            exact (matchEntry_iff (by decide)).2 ⟨h.dot.1.2, h.dot.2⟩
        refine h.findNext (hk.mono fun j hhas hj => ⟨?_, hj.2⟩) ((Nat.dvd_add_self_right).2 hi) hdot
        exact not_has_of_unmatched hi hdot hnone hj hhas
  | unread =>
      dsimp only at hstep
      split at hstep
      case isTrue hz =>
        cases hstep
        subst hz
        exact h.notFound (hk.skip fun j _ hj => Or.inl hj)
      case isFalse hz =>
        cases hstep
        have hdot : ¬ (c.isRoot = true ∧ c.name = [46, 46]) := fun hr => hz (hroot hr).1
        refine h.findNext (hk.skip fun j _ hj => ?_) ((Nat.dvd_add_self_right).2 hi) hdot
        by_cases hlt : j < i + DIR_ENTRIES_PER_BLOCK
        · exact Or.inl ⟨hj.1, hlt⟩
        · exact Or.inr ⟨by omega, hj.2⟩
  | none => cases hstep
  | inode inum hi => cases hstep

/-- A round of `add_entry`: the new entry is fine exactly when the call is not too late. -/
theorem Sound.addBlock (h : Sound s) (hs : Seen s (.add c look inum i)) {choice : Choice}
    (hstep : addBlock s t c look inum i choice = .next s') :
    (choice = .ok ∧ (∃ j ∈ inBlock i, s.Free j) ∧
      (Fresh s c look → Sound s') ∧ (s'.Unique → Fresh s c look)) ∨
    (¬ (choice = .ok ∧ ∃ j ∈ inBlock i, s.Free j) ∧ Sound s') := by
  obtain ⟨hk, hi⟩ := hs
  unfold Dir.addBlock at hstep
  cases choice with
  | ok =>
      dsimp only at hstep
      split at hstep
      case h_1 j hfind =>
        cases hstep
        have hfree : s.size ≤ j ∨ (s.dir j).inode = 0 := by simpa using List.find?_some hfind
        refine Or.inl ⟨rfl, ⟨j, List.mem_of_find?_eq_some hfind, hfree⟩, fun hfresh => ?_,
          fun hunique => ?_⟩
        · exact h.putEntry hfree hi (hk.absent hfresh)
        · by_contra hlate
          obtain ⟨k, hhas⟩ := h.exists_of_not_fresh hlate
          exact h.not_unique_putEntry hfree hi hhas hunique
      case h_2 hnone =>
        cases hstep
        refine Or.inr ⟨fun ⟨_, j, hj, hfree⟩ => ?_, h.setPc ⟨hk, hi⟩⟩
        have := List.find?_eq_none.1 hnone j hj
        exact this (decide_eq_true hfree)
  | unread =>
      refine Or.inr ⟨fun hc => Choice.noConfusion hc.1, ?_⟩
      dsimp only at hstep
      split at hstep
      · cases hstep
        exact h.setPc True.intro
      · cases hstep
        exact h.setPc ⟨hk, hi⟩
  | none =>
      cases hstep
      exact Or.inr ⟨fun hc => Choice.noConfusion hc.1, h.setPc True.intro⟩
  | inode inum' hi' => cases hstep

/-- A round that does not put a name into the directory. -/
theorem Sound.round (h : Sound s) {choice : Choice} (hstep : round s t choice = .next s') :
    (Ok s (.run t choice) → Sound s') ∧ (s'.Unique → Ok s (.run t choice)) := by
  have hs := h.seen t
  unfold Dir.round at hstep
  -- what a round that leaves the directory alone comes to
  have hquiet : (∀ c look inum i, s.pc t ≠ .add c look inum i) → Sound s' →
      (Ok s (.run t choice) → Sound s') ∧ (s'.Unique → Ok s (.run t choice)) := by
    intro hpc hsound
    refine ⟨fun _ => hsound, fun _ => ?_⟩
    unfold Ok
    cases choice with
    | ok =>
        dsimp only
        split
        · rename_i c look inum i he
          exact absurd he (hpc c look inum i)
        · exact True.intro
    | unread => exact True.intro
    | none => exact True.intro
    | inode inum hi => exact True.intro
  cases hpc : s.pc t with
  | idle =>
      rw [hpc] at hstep
      cases hstep
  | find c look entries i =>
      rw [hpc] at hstep hs
      refine hquiet (by rw [hpc]; nofun) ?_
      dsimp only at hstep
      split at hstep
      · cases hstep
      · exact h.findBlock hs hstep
  | newInode c look =>
      rw [hpc] at hstep hs
      refine hquiet (by rw [hpc]; nofun) ?_
      cases choice with
      | ok => cases hstep
      | unread => cases hstep
      | none =>
          cases hstep
          exact h.setPc True.intro
      | inode inum hi =>
          dsimp only at hstep
          split at hstep
          · cases hstep
            exact h.setPc ⟨hs, hi⟩
          · cases hstep
            exact h.setPc ⟨hs, hi⟩
  | newBlock c look inum =>
      rw [hpc] at hstep hs
      refine hquiet (by rw [hpc]; nofun) ?_
      cases choice with
      | ok =>
          cases hstep
          exact h.setPc hs
      | unread => cases hstep
      | none =>
          cases hstep
          exact h.setPc True.intro
      | inode inum' hi => cases hstep
  | dirBlock c look inum =>
      rw [hpc] at hstep hs
      refine hquiet (by rw [hpc]; nofun) ?_
      cases choice with
      | ok =>
          cases hstep
          exact h.setPc hs
      | unread =>
          cases hstep
          exact h.setPc True.intro
      | none => cases hstep
      | inode inum' hi => cases hstep
  | add c look inum i =>
      rw [hpc] at hstep hs
      dsimp only at hstep
      split at hstep
      case isTrue => cases hstep
      case isFalse =>
        have hok : Ok s (.run t .ok) ↔ ((∃ j ∈ inBlock i, s.Free j) → Fresh s c look) := by
          unfold Ok
          dsimp only
          rw [hpc]
        rcases h.addBlock hs hstep with ⟨rfl, hplace, hfresh, hunique⟩ | ⟨hno, hsound⟩
        · rw [hok]
          exact ⟨fun hf => hfresh (hf hplace), fun hu _ => hunique hu⟩
        · refine ⟨fun _ => hsound, fun _ => ?_⟩
          cases choice with
          | ok => exact hok.2 fun hplace => absurd ⟨rfl, hplace⟩ hno
          | unread => exact True.intro
          | none => exact True.intro
          | inode inum' hi => exact True.intro

theorem Sound.step (h : Sound s) {op : Op} (hstep : step s op = .next s') :
    (Ok s op → Sound s') ∧ (s'.Unique → Ok s op) := by
  cases op with
  | start t c =>
      refine ⟨fun _ => ?_, fun _ => True.intro⟩
      unfold Dir.step at hstep
      dsimp only at hstep
      split at hstep
      · cases hstep
        refine h.setPc ⟨⟨le_refl _, fun j hj => Or.inr (Or.inr ⟨Nat.zero_le j, hj.1.1⟩)⟩,
          Nat.dvd_zero _, fun _ => ⟨rfl, ?_⟩⟩
        exact h.dot.1.1
      · cases hstep
  | run t choice => exact h.round hstep

end Calls

/-- **Names in a directory are unique**, in every state of a run, exactly when no call of the
run that puts a name into it is too late. -/
theorem unique_iff {s s' : State} (h : Init s) {ops : List Op} (hrun : run step s ops = .next s') :
    (∀ pre, pre <+: ops → ∀ u, run step s pre = .next u → u.Unique) ↔ RunOk step Ok s ops :=
  RunOk.iff_prefixes_of (fun _ => Sound.unique) (fun _ _ _ hs hstep => hs.step hstep) h.sound hrun

/-! ### Concrete runs -/

/-- A directory with `.` and `..` in it. -/
def newDir : State :=
  ⟨fun j => if j = 0 then ⟨2, padded [46]⟩ else if j = 1 then ⟨1, padded [46, 46]⟩
    else ⟨0, padded []⟩, 2, fun _ => .idle, []⟩

theorem init_newDir : Init newDir := by
  refine ⟨fun i j hi hj he => ?_, fun j hj => ?_, ⟨⟨by decide, by decide⟩, by decide⟩,
    fun _ => rfl, rfl⟩
  · have hi' : i < 2 := hi.1
    have hj' : j < 2 := hj.1
    have hne : str (newDir.dir 0).name ≠ str (newDir.dir 1).name := by decide
    obtain rfl | rfl : i = 0 ∨ i = 1 := by omega
    · obtain rfl | rfl : j = 0 ∨ j = 1 := by omega
      · rfl
      · exact absurd he hne
    · obtain rfl | rfl : j = 0 ∨ j = 1 := by omega
      · exact absurd he.symm hne
      · rfl
  · have hj' : 2 ≤ j := hj
    change (if j = 0 then (⟨2, padded [46]⟩ : DirEntry) else if j = 1 then ⟨1, padded [46, 46]⟩
      else ⟨0, padded []⟩).inode = 0
    rw [if_neg (by omega), if_neg (by omega)]

/-- `open("a", O_CREAT)`. -/
def openA : Call := ⟨.openCreat, [97], false, true, by decide⟩

/-- `mkdir("b")`. -/
def mkdirB : Call := ⟨.mkdir, [98], false, true, by decide⟩

/-- One task makes a file, and another a directory at the same time. -/
def twoNames : List Op :=
  [.start 1 openA, .run 1 .ok, .start 2 mkdirB, .run 2 .ok, .run 2 (.inode 5 (by decide)),
    .run 1 (.inode 6 (by decide)), .run 1 .ok, .run 2 .ok, .run 2 .ok, .run 2 .ok]

theorem twoNames_eq : run step newDir twoNames = .next ((run step newDir twoNames).get newDir) :=
  Outcome.eq_next (by decide) newDir

theorem unique_iff_twoNames :
    (∀ pre, pre <+: twoNames → ∀ u, run step newDir pre = .next u → u.Unique) ↔
      RunOk step Ok newDir twoNames :=
  unique_iff init_newDir twoNames_eq

/-- Two tasks make the same file: both find that it is not there, and both put it in. -/
def sameName : List Op :=
  [.start 1 openA, .run 1 .ok, .start 2 openA, .run 2 .ok, .run 2 (.inode 5 (by decide)),
    .run 2 .ok, .run 1 (.inode 6 (by decide)), .run 1 .ok]

theorem not_unique : ∃ s, Init s ∧ ∃ u, run step s sameName = .next u ∧ ¬ u.Unique := by
  refine ⟨newDir, init_newDir, (run step newDir sameName).get newDir,
    Outcome.eq_next (by decide) newDir, fun h => ?_⟩
  have htwo := h 2 3 ⟨by decide, by decide +kernel⟩ ⟨by decide +kernel, by decide +kernel⟩
    (by decide)
  omega

end LinuxKernel.V011.Fs.Dir
