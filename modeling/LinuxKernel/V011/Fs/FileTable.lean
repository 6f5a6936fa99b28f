import LinuxKernel.Lib.Handles
import LinuxKernel.Lib.System

/-!
# LinuxKernel.V011.Fs.FileTable

**Descriptors, open files and inodes**: `open`, `creat`, `close`, `dup`,
`dup2`, `fcntl`, `pipe`, and what `fork`, `execve` and `exit` do to the tables
(`fs/open.c`, `fs/fcntl.c`, `fs/pipe.c`, `fs/exec.c`, `kernel/fork.c`,
`kernel/exit.c`).

- A call is one step. What it finds on the disk is given with it: a `Path` says
  for each component where it leads.
- Inodes are slots of `inode_table`. `base` is what mounted file systems refer to.
- Of names, modes and contents there is only what decides which way a call goes.
-/

namespace LinuxKernel.V011.Fs.FileTable

/-! ### The data model -/

abbrev NR_OPEN : Nat := 20
abbrev NR_FILE : Nat := 64
abbrev NR_INODE : Nat := 32
abbrev NR_TASKS : Nat := 64

def EPERM : Int := 1
def ENOENT : Int := 2
def ENOEXEC : Int := 8
def EBADF : Int := 9
def EAGAIN : Int := 11
def EACCES : Int := 13
def EEXIST : Int := 17
def EISDIR : Int := 21
def EINVAL : Int := 22
def EMFILE : Int := 24
def ENOSPC : Int := 28

def O_ACCMODE : BitVec 32 := 3
def O_WRONLY : BitVec 32 := 1
def O_CREAT : BitVec 32 := 0x40
def O_EXCL : BitVec 32 := 0x80
def O_TRUNC : BitVec 32 := 0x200
def O_APPEND : BitVec 32 := 0x400
def O_NONBLOCK : BitVec 32 := 0x800

abbrev Ino := Fin NR_INODE

/-- `struct file`. -/
structure File where
  fFlags : BitVec 16
  fCount : Nat
  fInode : Option Ino

/-- A slot of the task table. -/
inductive Status
  | free
  | live
  | zombie
  deriving DecidableEq

/-- The fields of `struct task_struct` that the calls look at. -/
structure Task where
  status : Status
  filp : Fin NR_OPEN → Option (Fin NR_FILE)
  closeOnExec : BitVec 32
  pwd : Option Ino
  root : Option Ino
  executable : Option Ino
  leader : Bool
  tty : Int

structure State where
  task : Fin NR_TASKS → Task
  file : Fin NR_FILE → File
  iCount : Ino → Nat
  base : Ino → Nat
  /-- The descriptors that the last call has returned. -/
  newFds : List (Fin NR_TASKS × Fin NR_OPEN)

def setTask (s : State) (t : Fin NR_TASKS) (k : Task) : State :=
  { s with task := Function.update s.task t k }

def setFile (s : State) (f : Fin NR_FILE) (file : File) : State :=
  { s with file := Function.update s.file f file }

/-- `file_table[f].f_count = n`. -/
def setCount (s : State) (f : Fin NR_FILE) (n : Nat) : State :=
  setFile s f { s.file f with fCount := n }

def setInode (s : State) (i : Ino) (n : Nat) : State :=
  { s with iCount := Function.update s.iCount i n }

/-- `filp[fd] = f`. -/
def Task.setFilp (k : Task) (fd : Fin NR_OPEN) (f : Option (Fin NR_FILE)) : Task :=
  { k with filp := Function.update k.filp fd f }

/-- `close_on_exec &= ~(1<<fd)`. -/
def Task.clearCloexec (k : Task) (fd : Fin NR_OPEN) : Task :=
  { k with closeOnExec := k.closeOnExec &&& ~~~(1#32 <<< fd.val) }

section Fields

variable (s : State) (t u : Fin NR_TASKS) (k : Task) (f : Fin NR_FILE) (file : File) (i : Ino)
  (n : Nat) (fd : Fin NR_OPEN) (v : Option (Fin NR_FILE))

@[simp] theorem setTask_task : (setTask s t k).task = Function.update s.task t k := rfl
@[simp] theorem setTask_file : (setTask s t k).file = s.file := rfl
@[simp] theorem setTask_iCount : (setTask s t k).iCount = s.iCount := rfl
@[simp] theorem setTask_base : (setTask s t k).base = s.base := rfl

@[simp] theorem setFile_task : (setFile s f file).task = s.task := rfl
@[simp] theorem setFile_file : (setFile s f file).file = Function.update s.file f file := rfl
@[simp] theorem setFile_iCount : (setFile s f file).iCount = s.iCount := rfl

@[simp] theorem setCount_task : (setCount s f n).task = s.task := rfl
@[simp] theorem setCount_file :
    (setCount s f n).file = Function.update s.file f { s.file f with fCount := n } := rfl
@[simp] theorem setCount_iCount : (setCount s f n).iCount = s.iCount := rfl
@[simp] theorem setCount_base : (setCount s f n).base = s.base := rfl

@[simp] theorem setInode_task : (setInode s i n).task = s.task := rfl
@[simp] theorem setInode_file : (setInode s i n).file = s.file := rfl
@[simp] theorem setInode_iCount : (setInode s i n).iCount = Function.update s.iCount i n := rfl

@[simp] theorem setFilp_filp : (k.setFilp fd v).filp = Function.update k.filp fd v := rfl
@[simp] theorem setFilp_closeOnExec : (k.setFilp fd v).closeOnExec = k.closeOnExec := rfl

@[simp] theorem clearCloexec_filp : (k.clearCloexec fd).filp = k.filp := rfl

end Fields

/-! ### Inodes -/

/-- `iput`, as far as it is about `i_count`. -/
def iput (s : State) : Option Ino → Outcome State
  | none => .next s
  | some i =>
      if s.iCount i = 0 then .panic "iput: trying to free free inode"
      else .next (setInode s i (s.iCount i - 1))

/-- `get_empty_inode`, which finds `i`. -/
def getEmptyInode (s : State) (i : Ino) : Outcome State :=
  if ∀ j, s.iCount j ≠ 0 then .panic "No free inodes in mem"
  else if s.iCount i = 0 then .next (setInode s i 1)
  else .disabled

/-- `iget` of an inode that is in slot `i`, or is read into it. -/
def iget (s : State) (i : Ino) : Outcome State :=
  if ∀ j, s.iCount j ≠ 0 then .panic "No free inodes in mem"
  else .next (setInode s i (s.iCount i + 1))

/-- `new_inode`: there may be no room on the disk. -/
def newInode (s : State) (i : Ino) (room : Bool) : Outcome (State × Option Ino) :=
  (getEmptyInode s i).bind fun s =>
    if room then .next (s, some i) else (iput s (some i)).bind fun s => .next (s, none)

/-- `get_pipe_inode`: there may be no page. -/
def getPipeInode (s : State) (i : Ino) (page : Bool) : Outcome (State × Option Ino) :=
  (getEmptyInode s i).bind fun s =>
    if page then .next (setInode s i 2, some i) else .next (setInode s i 0, none)

/-! ### Paths -/

/-- What `find_entry` meets: `..` that leads out of a mounted file system to the
inode `up`, and the inode of the entry, if there is one. -/
structure Entry where
  up : Option Ino
  inode : Option Ino

/-- A component of a path, in a directory that can be searched or not. -/
structure Comp where
  searchable : Bool
  entry : Entry

structure Path where
  empty : Bool
  absolute : Bool
  dirs : List Comp
  /-- The last directory can be searched. -/
  searchable : Bool
  /-- Nothing behind the last `/`, or an entry. -/
  last : Option Entry

/-- `find_entry`, as far as it changes the directory. -/
def findEntry (s : State) (dir : Ino) (e : Entry) : Outcome (State × Ino) :=
  match e.up with
  | none => .next (s, dir)
  | some m => (iput s (some dir)).bind fun s => .next (setInode s m (s.iCount m + 1), m)

/-- From a directory to the inode of an entry. -/
def lookup (s : State) (dir : Ino) (e : Entry) : Outcome (State × Option Ino) :=
  (findEntry s dir e).bind fun r =>
    (iput r.1 (some r.2)).bind fun s =>
      match e.inode with
      | none => .next (s, none)
      | some i => (iget s i).bind fun s => .next (s, some i)

/-- The loop of `get_dir`. -/
def walkDirs (s : State) (dir : Ino) : List Comp → Outcome (State × Option Ino)
  | [] => .next (s, some dir)
  | c :: cs =>
      if c.searchable then
        (lookup s dir c.entry).bind fun r =>
          match r.2 with
          | none => .next (r.1, none)
          | some i => walkDirs r.1 i cs
      else (iput s (some dir)).bind fun s => .next (s, none)

/-- `get_dir`. -/
def getDir (s : State) (k : Task) (path : Path) : Outcome (State × Option Ino) :=
  match k.root, k.pwd with
  | none, _ => .panic "No root inode"
  | some _, none => .panic "No cwd inode"
  | some root, some pwd =>
      if s.iCount root = 0 then .panic "No root inode"
      else if s.iCount pwd = 0 then .panic "No cwd inode"
      else if path.empty then .next (s, none)
      else
        let inode := if path.absolute then root else pwd
        (walkDirs (setInode s inode (s.iCount inode + 1)) inode path.dirs).bind fun r =>
          match r.2 with
          | none => .next (r.1, none)
          | some dir =>
              if path.searchable then .next (r.1, some dir)
              else (iput r.1 (some dir)).bind fun s => .next (s, none)

/-- `namei`. -/
def namei (s : State) (k : Task) (path : Path) : Outcome (State × Option Ino) :=
  (getDir s k path).bind fun r =>
    match r.2, path.last with
    | none, _ => .next (r.1, none)
    | some dir, none => .next (r.1, some dir)
    | some dir, some e => lookup r.1 dir e

/-- What `open_namei` learns about the file: `new` is the slot of a new inode. -/
structure Answers where
  permission : Bool
  isDir : Bool
  new : Ino
  room : Bool
  added : Bool

/-- `open_namei` where there is no such entry in `dir`. -/
def createNamei (s : State) (dir : Ino) (flag : BitVec 32) (a : Answers) :
    Outcome (State × (Int ⊕ Ino)) :=
  if flag &&& O_CREAT = 0 then (iput s (some dir)).bind fun s => .next (s, .inl (-ENOENT))
  else if a.permission = false then (iput s (some dir)).bind fun s => .next (s, .inl (-EACCES))
  else
    (newInode s a.new a.room).bind fun r =>
      match r.2 with
      | none => (iput r.1 (some dir)).bind fun s => .next (s, .inl (-ENOSPC))
      | some inode =>
          if a.added then (iput r.1 (some dir)).bind fun s => .next (s, .inr inode)
          else
            (iput r.1 (some inode)).bind fun s =>
              (iput s (some dir)).bind fun s => .next (s, .inl (-ENOSPC))

/-- `open_namei` where the entry leads to `inode`. -/
def existingNamei (s : State) (dir inode : Ino) (flag : BitVec 32) (a : Answers) :
    Outcome (State × (Int ⊕ Ino)) :=
  (iput s (some dir)).bind fun s =>
    if flag &&& O_EXCL ≠ 0 then .next (s, .inl (-EEXIST))
    else
      (iget s inode).bind fun s =>
        if a.isDir ∧ flag &&& O_ACCMODE ≠ 0 ∨ a.permission = false then
          (iput s (some inode)).bind fun s => .next (s, .inl (-EPERM))
        else .next (s, .inr inode)

/-- Who truncates a file writes it. -/
def truncFlag (flag : BitVec 32) : BitVec 32 :=
  if flag &&& O_TRUNC ≠ 0 ∧ flag &&& O_ACCMODE = 0 then flag ||| O_WRONLY else flag

/-- `open_namei`: an error, or an inode. -/
def openNamei (s : State) (k : Task) (path : Path) (flag : BitVec 32) (a : Answers) :
    Outcome (State × (Int ⊕ Ino)) :=
  let flag := truncFlag flag
  (getDir s k path).bind fun r =>
    match r.2, path.last with
    | none, _ => .next (r.1, .inl (-ENOENT))
    | some dir, none =>
        if flag &&& (O_ACCMODE ||| O_CREAT ||| O_TRUNC) = 0 then .next (r.1, .inr dir)
        else (iput r.1 (some dir)).bind fun s => .next (s, .inl (-EISDIR))
    | some dir, some e =>
        (findEntry r.1 dir e).bind fun r =>
          match e.inode with
          | none => createNamei r.1 r.2 flag a
          | some inode => existingNamei r.1 r.2 inode flag a

/-! ### Descriptors -/

/-- What kind of file is opened. -/
inductive Node
  /-- A character device with major number 4. -/
  | tty (minor : Nat)
  /-- A character device with major number 5. -/
  | controllingTty
  | other

def freeFd (k : Task) : Option (Fin NR_OPEN) :=
  (List.finRange NR_OPEN).find? fun fd => (k.filp fd).isNone

def freeFile (s : State) : Option (Fin NR_FILE) :=
  (List.finRange NR_FILE).find? fun f => (s.file f).fCount = 0

/-- The end of `sys_open`, with `filp[fd]` and `f` taken. -/
def finishOpen (s : State) (t : Fin NR_TASKS) (fd : Fin NR_OPEN) (f : Fin NR_FILE) (inode : Ino)
    (flag : BitVec 32) (node : Node) : Outcome (State × Int) :=
  let k := s.task t
  let opened (s : State) : Outcome (State × Int) :=
    .next (setFile s f { fFlags := flag.setWidth 16, fCount := 1, fInode := some inode }, fd.val)
  match node with
  | .tty minor =>
      if k.leader ∧ k.tty < 0 then opened (setTask s t { k with tty := minor }) else opened s
  | .controllingTty =>
      if k.tty < 0 then
        (iput s (some inode)).bind fun s =>
          .next (setCount (setTask s t (k.setFilp fd none)) f 0, -EPERM)
      else opened s
  | .other => opened s

/-- `sys_open`. -/
def sysOpen (s : State) (t : Fin NR_TASKS) (path : Path) (flag : BitVec 32) (a : Answers)
    (node : Node) : Outcome (State × Int) :=
  match freeFd (s.task t) with
  | none => .next (s, -EINVAL)
  | some fd =>
      let s := setTask s t ((s.task t).clearCloexec fd)
      match freeFile s with
      | none => .next (s, -EINVAL)
      | some f =>
          let s := setCount (setTask s t ((s.task t).setFilp fd (some f))) f ((s.file f).fCount + 1)
          (openNamei s (s.task t) path flag a).bind fun r =>
            match r.2 with
            | .inl err =>
                .next (setCount (setTask r.1 t ((r.1.task t).setFilp fd none)) f 0, err)
            | .inr inode => finishOpen r.1 t fd f inode flag node

/-- `sys_creat`. -/
def sysCreat (s : State) (t : Fin NR_TASKS) (path : Path) (a : Answers) (node : Node) :
    Outcome (State × Int) :=
  sysOpen s t path (O_CREAT ||| O_TRUNC) a node

/-- `sys_close` of a descriptor below `NR_OPEN`. -/
def closeFd (s : State) (t : Fin NR_TASKS) (fd : Fin NR_OPEN) : Outcome (State × Int) :=
  let k := (s.task t).clearCloexec fd
  match k.filp fd with
  | none => .next (setTask s t k, -EINVAL)
  | some f =>
      let s := setTask s t (k.setFilp fd none)
      if (s.file f).fCount = 0 then .panic "Close: file count is 0"
      else
        let s := setCount s f ((s.file f).fCount - 1)
        if (s.file f).fCount ≠ 0 then .next (s, 0)
        else (iput s (s.file f).fInode).bind fun s => .next (s, 0)

/-- `sys_close`. -/
def sysClose (s : State) (t : Fin NR_TASKS) (fd : Nat) : Outcome (State × Int) :=
  if h : fd < NR_OPEN then closeFd s t ⟨fd, h⟩ else .next (s, -EINVAL)

/-- `dupfd`. -/
def dupfd (s : State) (t : Fin NR_TASKS) (fd arg : Nat) : Outcome (State × Int) :=
  let k := s.task t
  match if h : fd < NR_OPEN then k.filp ⟨fd, h⟩ else none with
  | none => .next (s, -EBADF)
  | some f =>
      if NR_OPEN ≤ arg then .next (s, -EINVAL)
      else
        match (List.finRange NR_OPEN).find? fun i => arg ≤ i.val && (k.filp i).isNone with
        | none => .next (s, -EMFILE)
        | some i =>
            .next (setCount (setTask s t ((k.clearCloexec i).setFilp i (some f))) f
              ((s.file f).fCount + 1), i.val)

/-- `sys_dup2`. -/
def sysDup2 (s : State) (t : Fin NR_TASKS) (oldfd newfd : Nat) : Outcome (State × Int) :=
  (sysClose s t newfd).bind fun r => dupfd r.1 t oldfd newfd

/-- `sys_dup`. -/
def sysDup (s : State) (t : Fin NR_TASKS) (fildes : Nat) : Outcome (State × Int) :=
  dupfd s t fildes 0

inductive Cmd
  | dupfd
  | getfd
  | setfd
  | getfl
  | setfl
  /-- The locks, and what is no command. -/
  | other

/-- `sys_fcntl`. -/
def sysFcntl (s : State) (t : Fin NR_TASKS) (fd : Nat) (cmd : Cmd) (arg : BitVec 32) :
    Outcome (State × Int) :=
  if h : fd < NR_OPEN then
    let k := s.task t
    match k.filp ⟨fd, h⟩ with
    | none => .next (s, -EBADF)
    | some f =>
        let file := s.file f
        match cmd with
        | .dupfd => dupfd s t fd arg.toNat
        | .getfd => .next (s, if k.closeOnExec.getLsbD fd then 1 else 0)
        | .setfd =>
            if arg.getLsbD 0 then
              .next (setTask s t { k with closeOnExec := k.closeOnExec ||| 1#32 <<< fd }, 0)
            else .next (setTask s t (k.clearCloexec ⟨fd, h⟩), 0)
        | .getfl => .next (s, file.fFlags.toNat)
        | .setfl =>
            let mask := O_APPEND ||| O_NONBLOCK
            let flags := (file.fFlags.setWidth 32 &&& ~~~mask) ||| (arg &&& mask)
            .next (setFile s f { file with fFlags := flags.setWidth 16 }, 0)
        | .other => .next (s, -1)
  else .next (s, -EBADF)

/-- `sys_pipe` with two open files taken. -/
def pipeFds (s : State) (t : Fin NR_TASKS) (f₀ f₁ : Fin NR_FILE) (i : Ino) (page : Bool) :
    Outcome (State × Option (Fin NR_OPEN × Fin NR_OPEN)) :=
  let undo (s : State) := setCount (setCount s f₀ 0) f₁ 0
  match (List.finRange NR_OPEN).filter fun fd => ((s.task t).filp fd).isNone with
  | [] => .next (undo s, none)
  | [fd₀] =>
      let s := setTask s t ((s.task t).setFilp fd₀ (some f₀))
      .next (undo (setTask s t ((s.task t).setFilp fd₀ none)), none)
  | fd₀ :: fd₁ :: _ =>
      let s := setTask s t (((s.task t).setFilp fd₀ (some f₀)).setFilp fd₁ (some f₁))
      (getPipeInode s i page).bind fun r =>
        match r.2 with
        | none =>
            let k := r.1.task t
            .next (undo (setTask r.1 t ((k.setFilp fd₁ none).setFilp fd₀ none)), none)
        | some inode =>
            let s := setFile r.1 f₀ { r.1.file f₀ with fInode := some inode }
            .next (setFile s f₁ { s.file f₁ with fInode := some inode }, some (fd₀, fd₁))

/-- `sys_pipe`. -/
def sysPipe (s : State) (t : Fin NR_TASKS) (i : Ino) (page : Bool) :
    Outcome (State × Option (Fin NR_OPEN × Fin NR_OPEN)) :=
  match (List.finRange NR_FILE).filter fun f => (s.file f).fCount = 0 with
  | [] => .next (s, none)
  | [f₀] => .next (setCount (setCount s f₀ 1) f₀ 0, none)
  | f₀ :: f₁ :: _ => pipeFds (setCount (setCount s f₀ 1) f₁ 1) t f₀ f₁ i page

/-! ### Tasks -/

/-- `if (f=p->filp[i]) f->f_count++;` -/
def countFile (filp : Fin NR_OPEN → Option (Fin NR_FILE)) (s : State) (fd : Fin NR_OPEN) : State :=
  match filp fd with
  | some f => setCount s f ((s.file f).fCount + 1)
  | none => s

/-- `if (inode) inode->i_count++;` -/
def countInode (s : State) : Option Ino → State
  | some i => setInode s i (s.iCount i + 1)
  | none => s

/-- `copy_process` into slot `nr`, which `find_empty_process` has found; `copied` is
the result of `copy_mem`. -/
def copyProcess (s : State) (t nr : Fin NR_TASKS) (copied : Bool) : Outcome (State × Int) :=
  if nr ≠ 0 ∧ (s.task nr).status = .free then
    if copied then
      let k := { s.task t with leader := false }
      let s := (List.finRange NR_OPEN).foldl (countFile k.filp) (setTask s nr k)
      .next (countInode (countInode (countInode s k.pwd) k.root) k.executable, 0)
    else .next (s, -EAGAIN)
  else .disabled

/-- `sys_close` of the descriptors in `fds` that satisfy `sel`. -/
def closeAll (t : Fin NR_TASKS) (sel : Task → Fin NR_OPEN → Bool) :
    State → List (Fin NR_OPEN) → Outcome State
  | s, [] => .next s
  | s, fd :: fds =>
      if sel (s.task t) fd then (closeFd s t fd).bind fun r => closeAll t sel r.1 fds
      else closeAll t sel s fds

/-- What `do_execve` finds in a file: it is not executable, it is to be executed, or it
is a script, perhaps with an interpreter, which is to be executed or not. -/
inductive Program
  | bad
  | binary
  | script (interp : Option (Path × Bool))

/-- `do_execve` behind the point of no return. -/
def finishExec (s : State) (t : Fin NR_TASKS) (inode : Ino) : Outcome (State × Int) :=
  (iput s (s.task t).executable).bind fun s =>
    let s := setTask s t { s.task t with executable := some inode }
    (closeAll t (fun k fd => k.closeOnExec.getLsbD fd) s (List.finRange NR_OPEN)).bind fun s =>
      .next (setTask s t { s.task t with closeOnExec := 0 }, 0)

/-- `do_execve`. -/
def doExecve (s : State) (t : Fin NR_TASKS) (path : Path) (prog : Program) :
    Outcome (State × Int) :=
  (namei s (s.task t) path).bind fun r =>
    match r.2 with
    | none => .next (r.1, -ENOENT)
    | some inode =>
        match prog with
        | .bad => (iput r.1 (some inode)).bind fun s => .next (s, -ENOEXEC)
        | .binary => finishExec r.1 t inode
        | .script interp =>
            (iput r.1 (some inode)).bind fun s =>
              match interp with
              | none => .next (s, -ENOEXEC)
              | some (path, good) =>
                  (namei s (s.task t) path).bind fun r =>
                    match r.2 with
                    | none => .next (r.1, -ENOENT)
                    | some inode =>
                        if good then finishExec r.1 t inode
                        else (iput r.1 (some inode)).bind fun s => .next (s, -ENOEXEC)

/-- `do_exit`. -/
def doExit (s : State) (t : Fin NR_TASKS) : Outcome State :=
  (closeAll t (fun k fd => (k.filp fd).isSome) s (List.finRange NR_OPEN)).bind fun s =>
    (iput s (s.task t).pwd).bind fun s =>
      let s := setTask s t { s.task t with pwd := none }
      (iput s (s.task t).root).bind fun s =>
        let s := setTask s t { s.task t with root := none }
        (iput s (s.task t).executable).bind fun s =>
          .next (setTask s t { s.task t with executable := none, status := .zombie })

/-! ### The system -/

inductive Op
  | open (path : Path) (flag : BitVec 32) (a : Answers) (node : Node)
  | creat (path : Path) (a : Answers) (node : Node)
  | close (fd : Nat)
  | dup (fd : Nat)
  | dup2 (oldfd newfd : Nat)
  | fcntl (fd : Nat) (cmd : Cmd) (arg : BitVec 32)
  | pipe (i : Ino) (page : Bool)
  | fork (nr : Fin NR_TASKS) (copied : Bool)
  | execve (path : Path) (prog : Program)
  | exit
  /-- Somebody waits for the task. -/
  | release

/-- A call that returns a descriptor, or an error. -/
def returnsFd (t : Fin NR_TASKS) (o : Outcome (State × Int)) : Outcome State :=
  o.bind fun r => .next { r.1 with
    newFds := ((List.finRange NR_OPEN).filter fun fd => (fd.val : Int) = r.2).map fun fd => (t, fd) }

/-- Any other call. -/
def returnsNone (o : Outcome (State × Int)) : Outcome State :=
  o.bind fun r => .next { r.1 with newFds := [] }

def step (s : State) : Fin NR_TASKS × Op → Outcome State
  | (t, .release) =>
      if (s.task t).status = .zombie then
        .next { setTask s t { s.task t with status := .free } with newFds := [] }
      else .disabled
  | (t, op) =>
      if (s.task t).status = .live then
        match op with
        | .open path flag a node => returnsFd t (sysOpen s t path flag a node)
        | .creat path a node => returnsFd t (sysCreat s t path a node)
        | .close fd => returnsNone (sysClose s t fd)
        | .dup fd => returnsFd t (sysDup s t fd)
        | .dup2 oldfd newfd => returnsFd t (sysDup2 s t oldfd newfd)
        | .fcntl fd .dupfd arg => returnsFd t (sysFcntl s t fd .dupfd arg)
        | .fcntl fd cmd arg => returnsNone (sysFcntl s t fd cmd arg)
        | .pipe i page =>
            (sysPipe s t i page).bind fun r => .next { r.1 with
              newFds := match r.2 with
                | some (fd₀, fd₁) => [(t, fd₀), (t, fd₁)]
                | none => [] }
        | .fork nr copied => returnsNone (copyProcess s t nr copied)
        | .execve path prog => returnsNone (doExecve s t path prog)
        | .exit => (doExit s t).bind fun s => .next { s with newFds := [] }
        | .release => .disabled
      else .disabled

/-! ### What is claimed -/

/-- Where a descriptor points to. -/
def State.slot (s : State) (x : Fin NR_TASKS × Fin NR_OPEN) : Option (Fin NR_FILE) :=
  (s.task x.1).filp x.2

/-- The inode of an open file. -/
def State.openInode (s : State) (f : Fin NR_FILE) : Option Ino :=
  if (s.file f).fCount = 0 then none else (s.file f).fInode

/-- What refers to inode `i` besides open files. -/
def State.otherRefs (s : State) (i : Ino) : Nat :=
  refs Finset.univ (fun t => (s.task t).pwd) i + refs Finset.univ (fun t => (s.task t).root) i +
    refs Finset.univ (fun t => (s.task t).executable) i + s.base i

/-- The tables agree. -/
structure Agree (s : State) : Prop where
  /-- `f_count` is the number of descriptors that point to the file. -/
  count : ∀ f, (s.file f).fCount = refs Finset.univ s.slot f
  pointed : ∀ x f, s.slot x = some f → (s.file f).fCount ≠ 0
  /-- Each open file has an inode, and counts once there. -/
  inode : ∀ f, (s.file f).fCount ≠ 0 → ∃ i, s.openInode f = some i
  inodes : ∀ i, s.iCount i = refs Finset.univ s.openInode i + s.otherRefs i
  /-- `close_on_exec` is for open descriptors. -/
  cloexec : ∀ t b, (s.task t).closeOnExec.getLsbD b = true →
    ∃ fd : Fin NR_OPEN, fd.val = b ∧ s.slot (t, fd) ≠ none
  /-- New descriptors are open, and stay so over `execve`. -/
  new : ∀ x ∈ s.newFds, s.slot x ≠ none ∧ (s.task x.1).closeOnExec.getLsbD x.2 = false
  /-- An `unsigned short` holds each count. -/
  small : (∀ f, (s.file f).fCount < 2 ^ 16) ∧ ∀ i, s.iCount i < 2 ^ 16

/-- Task 1 has mounted the root. Task 0, which only sleeps, is left out. -/
def initial : State where
  task := fun t => {
    status := if t = 1 then .live else .free
    filp := fun _ => none
    closeOnExec := 0
    pwd := if t = 1 then some 0 else none
    root := if t = 1 then some 0 else none
    executable := none
    leader := false
    tty := -1 }
  file := fun _ => { fFlags := 0, fCount := 0, fInode := none }
  iCount := fun i => if i = 0 then 4 else 0
  base := fun i => if i = 0 then 2 else 0
  newFds := []

end LinuxKernel.V011.Fs.FileTable
