import Mathlib.Data.List.TakeWhile
import LinuxKernel.Lib.System

/-!
# LinuxKernel.V011.Fs.Exec

**The stack of a new program**: `do_execve`, `copy_strings`, `change_ldt` and
`create_tables` of `fs/exec.c`.

- `argv` and `envp` are lists of C strings, the first block of a file and the
  memory of the new program are functions from addresses.
- `room i`: `get_free_page` finds a page for `page[i]`.
- `image` is what the new program finds where no page of arguments is.
- Files, signals and the old pages are left out.
-/

namespace LinuxKernel.V011.Fs.Exec

def PAGE_SIZE : Nat := 4096
def MAX_ARG_PAGES : Nat := 32
def BLOCK_SIZE : Nat := 1024
def ZMAGIC : BitVec 32 := 0o413

/-- `data_limit`, the size of the data segment. -/
def DATA_LIMIT : Nat := 0x4000000

def ENOENT : Int := 2
def ENOEXEC : Int := 8
def ENOMEM : Int := 12
def EACCES : Int := 13

/-! ### Strings and files -/

abbrev Byte := BitVec 8

/-- The bytes of a C string. -/
structure CString where
  bytes : List Byte
  nonzero : ∀ b ∈ bytes, b ≠ 0

/-- The C string that a pointer to these bytes stands for. -/
def CString.of (l : List Byte) : CString where
  bytes := l.takeWhile fun b => b ≠ 0
  nonzero b hb := by simpa using List.mem_takeWhile_imp hb

/-- With the byte that ends it. -/
def CString.stored (s : CString) : List Byte := s.bytes ++ [0]

structure Inode where
  mode : BitVec 16
  uid : Nat
  gid : Nat
  size : BitVec 32
  /-- What `bread` returns for the first block. -/
  block : Option (Nat → Byte)

/-- `euid` and `egid` of `current`. -/
structure Cred where
  euid : Nat
  egid : Nat

/-- A long word of a block. -/
def blockLong (data : Nat → Byte) (i : Nat) : BitVec 32 :=
  data (4 * i + 3) ++ data (4 * i + 2) ++ data (4 * i + 1) ++ data (4 * i)

/-- `struct exec`. -/
structure Header where
  magic : BitVec 32
  text : BitVec 32
  data : BitVec 32
  bss : BitVec 32
  syms : BitVec 32
  entry : BitVec 32
  trsize : BitVec 32
  drsize : BitVec 32

def readExec (data : Nat → Byte) : Header where
  magic := blockLong data 0
  text := blockLong data 1
  data := blockLong data 2
  bss := blockLong data 3
  syms := blockLong data 4
  entry := blockLong data 5
  trsize := blockLong data 6
  drsize := blockLong data 7

/-- `S_ISREG`. -/
def isReg (inode : Inode) : Bool := inode.mode &&& 0o170000 = 0o100000

def mayExecute (cur : Cred) (inode : Inode) : Bool :=
  let i :=
    if cur.euid = inode.uid then inode.mode >>> 6
    else if cur.egid = inode.gid then inode.mode >>> 3
    else inode.mode
  i &&& 1 ≠ 0 || (inode.mode &&& 0o111 ≠ 0 && cur.euid = 0)

/-- From `restart_interp` until the first block is read. -/
def readBlock (cur : Cred) (inode : Inode) : Except Int (Nat → Byte) :=
  if isReg inode = false then .error (-EACCES)
  else if mayExecute cur inode = false then .error (-ENOEXEC)
  else
    match inode.block with
    | none => .error (-EACCES)
    | some data => .ok data

/-- The tests of the header; `N_TXTOFF` is 1024 for `ZMAGIC`. -/
def checkExec (ex : Header) (size : BitVec 32) : Option Int :=
  if ex.magic ≠ ZMAGIC ∨ ex.trsize ≠ 0 ∨ ex.drsize ≠ 0 ∨ 0x3000000#32 < ex.text + ex.data + ex.bss ∨
      size < ex.text + ex.data + ex.syms + 1024 then some (-ENOEXEC)
  else none

/-! ### The first line of a script -/

def isScript (data : Nat → Byte) : Bool := data 0 = 0x23 && data 1 = 0x21

def blank (c : Byte) : Bool := c = 0x20 || c = 0x09

/-- The loop over the name of the interpreter: `i_name` and `cp`, as what is behind them. -/
def scanName (iName : List Byte) : List Byte → List Byte × List Byte
  | [] => (iName, [])
  | c :: cp => if blank c then (iName, c :: cp) else scanName (if c = 0x2f then cp else iName) cp

structure Interp where
  interp : CString
  name : CString
  arg : Option CString

/-- The `#!` interpretation. -/
def parseScript (data : Nat → Byte) : Option Interp :=
  let buf := (CString.of ((List.range 1022).map fun i => data (i + 2))).bytes
  if 0x0a ∈ buf then
    let cp := (buf.takeWhile (· ≠ 0x0a)).dropWhile blank
    if cp = [] then none
    else
      let (iName, cp') := scanName cp cp
      -- `*cp++ = '\0'` ends both strings
      some {
        interp := CString.of (cp.take (cp.length - cp'.length))
        name := CString.of (iName.take (iName.length - cp'.length))
        arg := match cp' with
          | [] => none
          | _ :: iArg => some (CString.of iArg) }
  else none

/-! ### `copy_strings` -/

/-- The pages of the arguments, and `p`. -/
structure Area where
  page : Nat → Option (Nat → Byte)
  p : Nat

/-- The variables of `copy_strings`; `pag` is `page[pag]`. -/
structure Cursor extends Area where
  offset : Int
  pag : Nat

/-- `*(pag + offset) = b`; a page that `get_free_page` has returned is clear. -/
def writeByte (page : Nat → Option (Nat → Byte)) (pag offset : Nat) (b : Byte) :
    Nat → Option (Nat → Byte) :=
  fun i =>
    if i = pag then some fun o => if o = offset then b else ((page pag).elim 0 fun pg => pg o)
    else page i

/-- One byte: `none` if there is no page for it. The test `p-len < 0` is one of unsigned
numbers and never true: what does not fit is written outside of `page[]`. -/
def copyByte (room : Nat → Bool) (c : Cursor) (b : Byte) : Outcome (Option Cursor) :=
  if c.p = 0 then .panic "page[]"
  else
    let p := c.p - 1
    if c.offset - 1 < 0 then
      if (c.page (p / PAGE_SIZE)).isNone && !room (p / PAGE_SIZE) then .next none
      else .next (some {
        page := writeByte c.page (p / PAGE_SIZE) (p % PAGE_SIZE) b
        p := p
        offset := (p % PAGE_SIZE : Nat)
        pag := p / PAGE_SIZE })
    else .next (some {
      page := writeByte c.page c.pag (c.offset - 1).toNat b
      p := p
      offset := c.offset - 1
      pag := c.pag })

/-- A string from its end. -/
def copyBytes (room : Nat → Bool) : List Byte → Cursor → Outcome (Option Cursor)
  | [], c => .next (some c)
  | b :: bs, c => (copyByte room c b).bind fun
      | none => .next none
      | some c => copyBytes room bs c

/-- `while (argc-- > 0)`. -/
def copyLoop (room : Nat → Bool) (argv : List CString) : Nat → Cursor → Outcome (Option Cursor)
  | 0, c => .next (some c)
  | argc + 1, c =>
      match argv[argc]? with
      | none => .panic "argc is wrong"
      | some s => (copyBytes room s.stored.reverse c).bind fun
          | none => .next none
          | some c => copyLoop room argv argc c

/-- `copy_strings`; where it returns 0 the pages are freed. -/
def copyStrings (room : Nat → Bool) (argc : Int) (argv : List CString) (a : Area) : Outcome Area :=
  if a.p = 0 then .next a
  else (copyLoop room argv argc.toNat { a with offset := 0, pag := 0 }).bind fun
    | none => .next { a with p := 0 }
    | some c => .next c.toArea

/-! ### `create_tables` -/

/-- The memory of the new program. -/
abbrev Mem := Nat → Byte

/-- `put_fs_long`. -/
def putLong (mem : Mem) (a v : Nat) : Mem :=
  fun x => if a ≤ x ∧ x < a + 4 then BitVec.ofNat 8 (v / 256 ^ (x - a)) else mem x

/-- `while (get_fs_byte(p++))`, with `n` bytes left in the segment. -/
def skipString (mem : Mem) : Nat → Nat → Outcome Nat
  | 0, _ => .panic "general protection"
  | n + 1, p => if mem p = 0 then .next (p + 1) else skipString mem n (p + 1)

/-- A pointer for each of `n` strings. -/
def fillTable : Nat → Mem → Nat → Nat → Outcome (Mem × Nat × Nat)
  | 0, mem, p, table => .next (mem, p, table)
  | n + 1, mem, p, table =>
      let mem := putLong mem table p
      (skipString mem (DATA_LIMIT - p) p).bind fun p => fillTable n mem p (table + 4)

/-- `create_tables`. -/
def createTables (mem : Mem) (p argc envc : Nat) : Outcome (Mem × Nat) :=
  let sp := p / 4 * 4
  let envp := sp - 4 * (envc + 1)
  let argv := envp - 4 * (argc + 1)
  let sp := argv - 12
  let mem := putLong (putLong (putLong mem (sp + 8) envp) (sp + 4) argv) sp argc
  (fillTable argc mem p argv).bind fun r =>
    (fillTable envc (putLong r.1 r.2.2 0) r.2.1 envp).bind fun r =>
      .next (putLong r.1 r.2.2 0, sp)

/-! ### `do_execve` -/

/-- Where `page[0]` is put by `change_ldt`. -/
def PAGES : Nat := DATA_LIMIT - MAX_ARG_PAGES * PAGE_SIZE

/-- `change_ldt`. -/
def changeLdt (page : Nat → Option (Nat → Byte)) (image : Mem) : Mem :=
  fun a =>
    if PAGES ≤ a ∧ a < DATA_LIMIT then
      match page ((a - PAGES) / PAGE_SIZE) with
      | some pg => pg ((a - PAGES) % PAGE_SIZE)
      | none => image a
    else image a

/-- `while (i&0xfff) put_fs_byte(0,(char *) (i++));`, `n` times. -/
def clearBytes : Nat → Mem → Nat → Outcome Mem
  | 0, mem, _ => .next mem
  | n + 1, mem, i =>
      if i < DATA_LIMIT then clearBytes n (fun a => if a = i then 0 else mem a) (i + 1)
      else .panic "general protection"

structure Loaded where
  mem : Mem
  sp : Nat
  entry : BitVec 32

/-- `do_execve` behind the point of no return. -/
def finish (image : Mem) (ex : Header) (a : Area) (argc envc : Nat) :
    Outcome (Except Int Loaded) :=
  (createTables (changeLdt a.page image) (a.p + PAGES) argc envc).bind fun r =>
    let i := (ex.text + ex.data).toNat
    (clearBytes ((PAGE_SIZE - i % PAGE_SIZE) % PAGE_SIZE) r.1 i).bind fun mem =>
      .next (.ok { mem := mem, sp := r.2, entry := ex.entry })

/-- `p` and `page[]` at the beginning. -/
def start : Area where
  page := fun _ => none
  p := PAGE_SIZE * MAX_ARG_PAGES - 4

/-- The strings of a script. -/
def scriptStrings (room : Nat → Bool) (i : Interp) (filename : CString) (argv envp : List CString) :
    Outcome Area :=
  (copyStrings room envp.length envp start).bind fun a =>
    (copyStrings room (argv.length - 1) (argv.drop 1) a).bind fun a =>
      (copyStrings room 1 [filename] a).bind fun a =>
        ((match i.arg with
          | none => .next a
          | some iArg => copyStrings room 1 [iArg] a) : Outcome Area).bind fun a =>
            copyStrings room 1 [i.name] a

/-- `argc` of a script. -/
def scriptArgc (i : Interp) (argv : List CString) : Int :=
  argv.length - 1 + 1 + (if i.arg.isSome then 1 else 0) + 1

/-- `do_execve`. -/
def doExecve (cur : Cred) (namei : CString → Option Inode) (room : Nat → Bool) (image : Mem)
    (filename : CString) (argv envp : List CString) : Outcome (Except Int Loaded) :=
  match namei filename with
  | none => .next (.error (-ENOENT))
  | some inode =>
      match readBlock cur inode with
      | .error e => .next (.error e)
      | .ok data =>
          if isScript data then
            match parseScript data with
            | none => .next (.error (-ENOEXEC))
            | some i =>
                (scriptStrings room i filename argv envp).bind fun a =>
                  if a.p = 0 then .next (.error (-ENOMEM))
                  else
                    match namei i.interp with
                    | none => .next (.error (-ENOENT))
                    | some inode =>
                        match readBlock cur inode with
                        | .error e => .next (.error e)
                        | .ok data =>
                            match checkExec (readExec data) inode.size with
                            | some e => .next (.error e)
                            | none =>
                                finish image (readExec data) a (scriptArgc i argv).toNat envp.length
          else
            match checkExec (readExec data) inode.size with
            | some e => .next (.error e)
            | none =>
                (copyStrings room envp.length envp start).bind fun a =>
                  (copyStrings room argv.length argv a).bind fun a =>
                    if a.p = 0 then .next (.error (-ENOMEM))
                    else finish image (readExec data) a argv.length envp.length

end LinuxKernel.V011.Fs.Exec
