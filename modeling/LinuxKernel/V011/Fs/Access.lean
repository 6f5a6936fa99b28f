import Mathlib.Tactic.Common

/-!
# LinuxKernel.V011.Fs.Access

**Two ways to ask for permission**: `sys_access` (`fs/open.c`) with the real user, and
`permission` (`fs/namei.c`) with the effective one.

`sys_access` gives the members of the group the rights of the owner, and does not know
about deleted files. Everywhere else the two agree.
-/

namespace LinuxKernel.V011.Fs.Access

/-- What is used of `struct m_inode`. -/
structure Inode where
  mode : BitVec 16
  uid : BitVec 16
  gid : BitVec 8
  nlinks : BitVec 8
  dev : BitVec 16

/-- What is used of `current`. -/
structure Task where
  uid : BitVec 16
  euid : BitVec 16
  gid : BitVec 16
  egid : BitVec 16

def EACCES : Int := 13

def Task.suser (cur : Task) : Bool := cur.euid = 0

/-- `i_mode` as an `int`. -/
def Inode.bits (inode : Inode) : BitVec 32 := inode.mode.setWidth 32

/-- Not even root can read or write a deleted file. -/
def Inode.deleted (inode : Inode) : Bool := inode.dev ≠ 0 && inode.nlinks = 0

/-- `permission`. -/
def permission (cur : Task) (inode : Inode) (mask : BitVec 32) : Bool :=
  if inode.deleted then false
  else
    let mode :=
      if cur.euid = inode.uid then inode.bits >>> 6
      else if cur.egid = inode.gid.setWidth 16 then inode.bits >>> 3
      else inode.bits
    mode &&& mask &&& 7 = mask || cur.suser

/-- `sys_access`, with what `namei` returns. -/
def sysAccess (cur : Task) (inode : Option Inode) (mode : BitVec 32) : Int :=
  let mode := mode &&& 7
  match inode with
  | none => -EACCES
  | some inode =>
      let iMode := inode.bits &&& 0o777
      let res :=
        if cur.uid = inode.uid then iMode >>> 6
        else if cur.gid = inode.gid.setWidth 16 then iMode >>> 6
        else iMode
      if res &&& 7 &&& mode = mode then 0
      else if cur.uid = 0 ∧ (mode &&& 1 = 0 ∨ iMode &&& 0o111 ≠ 0) then 0
      else -EACCES

/-! ### Where they agree -/

/-- All rights in the mask are among the three of a class. -/
def Grants (rights mask : BitVec 32) : Prop := rights &&& mask &&& 7 = mask

instance (rights mask : BitVec 32) : Decidable (Grants rights mask) :=
  inferInstanceAs (Decidable (_ = _))

/-- The class that `sys_access` looks at. -/
def accessRights (cur : Task) (inode : Inode) : BitVec 32 :=
  if cur.uid = inode.uid ∨ cur.gid = inode.gid.setWidth 16 then inode.bits >>> 6 else inode.bits

/-- The file is not deleted, and the owner's rights serve for the group's; or it is deleted,
and its mode grants nothing. -/
def Alike (cur : Task) (inode : Inode) (mask : BitVec 32) : Prop :=
  if inode.deleted then ¬ Grants (accessRights cur inode) mask
  else cur.uid ≠ inode.uid → cur.gid = inode.gid.setWidth 16 →
    (Grants (inode.bits >>> 6) mask ↔ Grants (inode.bits >>> 3) mask)

variable {cur : Task} {inode : Inode} {m : BitVec 32}

theorem rights_eq (n : Nat) (hn : (0o777#32 >>> n) &&& 7 = 7) (x mask : BitVec 32) :
    ((x &&& 0o777) >>> n &&& 7 &&& mask = mask) ↔ Grants (x >>> n) mask := by
  have hbits : (x &&& 0o777) >>> n &&& 7 = x >>> n &&& 7 := by
    rw [BitVec.ushiftRight_and_distrib, BitVec.and_assoc]
    exact congrArg (x >>> n &&& ·) hn
  rw [hbits, Grants, BitVec.and_assoc, BitVec.and_comm 7 mask, ← BitVec.and_assoc]

/-- `sys_access` for a caller other than root. -/
theorem sysAccess_eq_zero_iff (huid : cur.uid ≠ 0) :
    sysAccess cur (some inode) m = 0 ↔ Grants (accessRights cur inode) (m &&& 7) := by
  have hroot : ∀ p : Prop, ¬ (cur.uid = 0 ∧ p) := fun p h => huid h.1
  have hret : ∀ (p : Prop) [Decidable p], (if p then (0 : Int) else -EACCES) = 0 ↔ p := fun p _ => by
    split
    · next h => exact iff_of_true rfl h
    · next h => exact iff_of_false (by decide) h
  simp only [sysAccess, hroot, if_false, hret]
  rw [accessRights]
  by_cases howner : cur.uid = inode.uid
  · rw [if_pos howner, if_pos (Or.inl howner)]
    exact rights_eq 6 (by decide) ..
  by_cases hgroup : cur.gid = inode.gid.setWidth 16
  · rw [if_neg howner, if_pos hgroup, if_pos (Or.inr hgroup)]
    exact rights_eq 6 (by decide) ..
  · rw [if_neg howner, if_neg hgroup, if_neg (not_or.mpr ⟨howner, hgroup⟩)]
    exact rights_eq 0 (by decide) ..

/-- `permission` for a caller other than root. -/
theorem permission_iff (huid : cur.euid ≠ 0) :
    permission cur inode m = true ↔ inode.deleted = false ∧
      Grants (if cur.euid = inode.uid then inode.bits >>> 6
        else if cur.egid = inode.gid.setWidth 16 then inode.bits >>> 3 else inode.bits) m := by
  have hroot : cur.suser = false := decide_eq_false huid
  rw [permission]
  cases hdel : inode.deleted with
  | true => exact iff_of_false Bool.false_ne_true fun h => nomatch h.1
  | false =>
      simp only [Bool.false_eq_true, if_false, hroot, Bool.or_false, decide_eq_true_eq, true_and]
      exact Iff.rfl

/-- **`access` and `open`** agree exactly where the file is not deleted and the owner's rights
are as good as the group's. -/
theorem access_permission_iff (hroot : cur.euid ≠ 0) (huid : cur.uid = cur.euid)
    (hgid : cur.gid = cur.egid) :
    (sysAccess cur (some inode) m = 0 ↔ permission cur inode (m &&& 7) = true) ↔
      Alike cur inode (m &&& 7) := by
  rw [sysAccess_eq_zero_iff (huid ▸ hroot), permission_iff hroot, Alike]
  cases hdel : inode.deleted with
  | true => simp
  | false =>
      simp only [true_and, Bool.false_eq_true, if_false]
      rw [accessRights, huid, hgid]
      by_cases howner : cur.euid = inode.uid
      · rw [if_pos (Or.inl howner), if_pos howner]
        exact iff_of_true Iff.rfl fun h => absurd howner h
      by_cases hgroup : cur.egid = inode.gid.setWidth 16
      · rw [if_pos (Or.inr hgroup), if_neg howner, if_pos hgroup]
        exact ⟨fun h _ _ => h, fun h => h howner hgroup⟩
      · rw [if_neg (not_or.mpr ⟨howner, hgroup⟩), if_neg howner, if_neg hgroup]
        exact iff_of_true Iff.rfl fun _ h => absurd h hgroup

/-- A user of group 7, and a file with the modes `rwx---r--` of user 5 and group 7. -/
def member : Task := ⟨6, 6, 7, 7⟩

def ownersFile : Inode := ⟨0o100704, 5, 7, 1, 0x301⟩

theorem access_permission_iff_member :
    (sysAccess member (some ownersFile) 4 = 0 ↔ permission member ownersFile (4 &&& 7) = true) ↔
      Alike member ownersFile (4 &&& 7) :=
  access_permission_iff (by decide) rfl rfl

/-- `access` says that a member of the group can write the file, and `permission` does not. -/
theorem access_not_permission : sysAccess member (some ownersFile) 2 = 0 ∧
    permission member ownersFile (2 &&& 7) = false := by decide

end LinuxKernel.V011.Fs.Access
