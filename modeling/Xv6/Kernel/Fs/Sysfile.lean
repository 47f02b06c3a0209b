import Xv6.Kernel.Fs.Dir
import Xv6.Kernel.Fs.File

/-! The system calls of `sysfile.c`, with what `fork`, `exit` and `exec` do to the file system. A string
that `argstr` cannot fetch is `none`. `short` is how a number is stored in a `short`. -/
namespace Xv6.Fs
open Lib

def ndev : ℕ := 10

def oWronly : ℕ := 0x001
def oRdwr : ℕ := 0x002
def oCreate : ℕ := 0x200
def oTrunc : ℕ := 0x400

/-- How a number is stored in a `short`. -/
structure ShortInt where
  toFun : ℤ → ℤ
  add : ∀ n m, toFun (toFun n + m) = toFun (n + m)
  one : toFun 1 = 1

instance : CoeFun ShortInt fun _ => ℤ → ℤ := ⟨ShortInt.toFun⟩

/-- A `short` of the machine. -/
def short16 : ShortInt := ⟨fun n => n.bmod (2 ^ 16), fun _ _ => Int.bmod_add_bmod, rfl⟩

/-- A `short` without a bound. -/
def ShortInt.unbounded : ShortInt := ⟨fun n => n, fun _ _ => rfl, rfl⟩

/-- The strings "." and "..". -/
def dot : Bytes := fun k => if k < 1 then 46 else 0
def dotdot : Bytes := fun k => if k < 2 then 46 else 0

section
variable (sb : Superblock) (short : ShortInt)

/-- `ip->nlink` changes by `n`, and goes to the disk. -/
def addLinks (i : Fin ninode) (n : ℤ) : FsM Unit := do
  modify fun s => s.setDin i { s.din i with nlink := short ((s.din i).nlink + n) }
  iupdate sb i

/-- The end of `sys_link` when the new name cannot be made. -/
def linkBad (ip : Fin ninode) : FsM ℤ := do
  ilock ip
  addLinks sb short ip (-1)
  iunlockput sb ip
  endOp
  return -1

def linkNew (cwd ip : Fin ninode) (new : List UInt8) : FsM ℤ := do
  match ← nameiparent sb cwd new with
  | (none, _) => linkBad sb short ip
  | (some dp, name) => do
    ilock dp
    let r ← dirlink sb dp name ((← get).inode ip).inum
    if r < 0 then do
      iunlockput sb dp
      linkBad sb short ip
    else do
      iunlockput sb dp
      iput sb ip
      endOp
      return 0

def sysLink (cwd : Fin ninode) (old new : Option (List UInt8)) : FsM ℤ := do
  match old, new with
  | some old, some new => do
    beginOp
    match ← namei sb cwd old with
    | none => do
      endOp
      return -1
    | some ip => do
      ilock ip
      if ((← get).din ip).type = .dir then do
        iunlockput sb ip
        endOp
        return -1
      else do
        addLinks sb short ip 1
        iunlock ip
        linkNew sb short cwd ip new
  | _, _ => return -1

/-- The loop of `isdirempty`. -/
def isdiremptyLoop (dp : Fin ninode) : ℕ → ℕ → FsM Bool
  | 0, _ => return true
  | fuel + 1, off => do
    if off < ((← get).din dp).size then do
      let de ← readDirent sb dp off .isdiremptyReadi
      if de.inum ≠ 0 then return false
      else isdiremptyLoop dp fuel (off + direntSize)
    else return true

def isdirempty (dp : Fin ninode) : FsM Bool := do
  isdiremptyLoop sb dp (((← get).din dp).size / direntSize + 1) (2 * direntSize)

/-- A directory that is not empty is not unlinked. -/
def unlinkBusy (ip : Fin ninode) : FsM Bool := do
  if ((← get).din ip).type = .dir then return !(← isdirempty sb ip)
  else return false

/-- The end of `sys_unlink` when the name cannot be removed. -/
def unlinkBad (dp : Fin ninode) : FsM ℤ := do
  iunlockput sb dp
  endOp
  return -1

/-- `sys_unlink` once the entry is found at `off`. -/
def unlinkEntry (dp ip : Fin ninode) (off : ℕ) : FsM ℤ := do
  ilock ip
  let d := (← get).din ip
  if d.nlink < 1 then throw (.panic .unlinkNlink)
  if ← unlinkBusy sb ip then do
    iunlockput sb ip
    unlinkBad sb dp
  else do
    eraseDirent sb dp off
    if d.type = .dir then addLinks sb short dp (-1)
    iunlockput sb dp
    addLinks sb short ip (-1)
    iunlockput sb ip
    endOp
    return 0

def sysUnlink (cwd : Fin ninode) (path : Option (List UInt8)) : FsM ℤ := do
  match path with
  | none => return -1
  | some path => do
    beginOp
    match ← nameiparent sb cwd path with
    | (none, _) => do
      endOp
      return -1
    | (some dp, name) => do
      ilock dp
      if namecmp name dot = 0 ∨ namecmp name dotdot = 0 then unlinkBad sb dp
      else
        match ← dirlookup sb dp name with
        | none => unlinkBad sb dp
        | some (ip, off) => unlinkEntry sb short dp ip off

/-- The entries `.` and `..` of a new directory. -/
def createDots (dp ip : Fin ninode) : FsM Unit := do
  addLinks sb short dp 1
  let r ← dirlink sb ip dot ((← get).inode ip).inum
  if r < 0 then throw (.panic .createDots)
  let r ← dirlink sb ip dotdot ((← get).inode dp).inum
  if r < 0 then throw (.panic .createDots)

/-- `create` when there is no such name in `dp`. -/
def createNew (dp : Fin ninode) (name : Bytes) (type : FileType) (major minor : ℤ) : FsM (Option (Fin ninode)) := do
  let ip ← ialloc sb type
  ilock ip
  modify fun s => s.setDin ip { s.din ip with major := short major, minor := short minor, nlink := 1 }
  iupdate sb ip
  if type = .dir then createDots sb short dp ip
  let r ← dirlink sb dp name ((← get).inode ip).inum
  if r < 0 then throw (.panic .createDirlink)
  iunlockput sb dp
  return some ip

/-- `create` when the name is that of `ip`. -/
def createOld (dp ip : Fin ninode) (type : FileType) : FsM (Option (Fin ninode)) := do
  iunlockput sb dp
  ilock ip
  let d := (← get).din ip
  if type = .file ∧ (d.type = .file ∨ d.type = .device) then return some ip
  else do
    iunlockput sb ip
    return none

def create (cwd : Fin ninode) (path : List UInt8) (type : FileType) (major minor : ℤ) :
    FsM (Option (Fin ninode)) := do
  match ← nameiparent sb cwd path with
  | (none, _) => return none
  | (some dp, name) => do
    ilock dp
    match ← dirlookup sb dp name with
    | some (ip, _) => createOld sb dp ip type
    | none => createNew sb short dp name type major minor

/-- The inode that `sys_open` opens, locked. -/
def openInode (cwd : Fin ninode) (path : List UInt8) (omode : ℕ) : FsM (Option (Fin ninode)) := do
  if omode &&& oCreate ≠ 0 then create sb short cwd path .file 0 0
  else
    match ← namei sb cwd path with
    | none => return none
    | some ip => do
      ilock ip
      if ((← get).din ip).type = .dir ∧ omode ≠ 0 then do
        iunlockput sb ip
        return none
      else return some ip

/-- `sys_mkdir` and `sys_mknod`. -/
def makeNode (cwd : Fin ninode) (path : Option (List UInt8)) (type : FileType) (major minor : ℤ) : FsM ℤ := do
  beginOp
  match path with
  | none => do
    endOp
    return -1
  | some path =>
    match ← create sb short cwd path type major minor with
    | none => do
      endOp
      return -1
    | some ip => do
      iunlockput sb ip
      endOp
      return 0

def sysMkdir (cwd : Fin ninode) (path : Option (List UInt8)) : FsM ℤ := makeNode sb short cwd path .dir 0 0

def sysMknod (cwd : Fin ninode) (path : Option (List UInt8)) (major minor : ℤ) : FsM ℤ :=
  makeNode sb short cwd path .device major minor

/-- What `exec` does to the inode of the program: `reads` are the offsets and lengths it reads. -/
def execInode (cwd : Fin ninode) (path : List UInt8) (reads : List (ℕ × ℕ)) : FsM Bool := do
  beginOp
  match ← namei sb cwd path with
  | none => do
    endOp
    return false
  | some ip => do
    ilock ip
    reads.forM fun r => do
      let _ ← readi sb ip .kernel (fun _ => 0) (r.1 % 2 ^ 32) (r.2 % 2 ^ 32)
    iunlockput sb ip
    endOp
    return true

def setOfile (p : Fin nproc) (fd : Fin nofile) (f : Option (Fin nfile)) : SysM Unit :=
  modify fun s => { s with
    proc := Function.update s.proc p { s.proc p with ofile := Function.update (s.proc p).ofile fd f } }

def setCwd (p : Fin nproc) (cwd : Option (Fin ninode)) : SysM Unit :=
  modify fun s => { s with proc := Function.update s.proc p { s.proc p with cwd := cwd } }

def argfd (p : Fin nproc) (fd : ℤ) : SysM (Option (Fin nofile × Fin nfile)) := do
  let s ← get
  if h : fd.toNat < nofile then
    if fd < 0 then return none
    else return ((s.proc p).ofile ⟨fd.toNat, h⟩).map fun f => (⟨fd.toNat, h⟩, f)
  else return none

def fdalloc (p : Fin nproc) (f : Fin nfile) : SysM (Option (Fin nofile)) := do
  let s ← get
  match (List.finRange nofile).find? fun fd => ((s.proc p).ofile fd).isNone with
  | none => return none
  | some fd => do
    setOfile p fd (some f)
    return some fd

def sysDup (p : Fin nproc) (fd : ℤ) : SysM ℤ := do
  match ← argfd p fd with
  | none => return -1
  | some (_, f) =>
    match ← fdalloc p f with
    | none => return -1
    | some fd => do
      filedup f
      return fd.val

def sysClose (p : Fin nproc) (fd : ℤ) : SysM ℤ := do
  match ← argfd p fd with
  | none => return -1
  | some (fd, f) => do
    setOfile p fd none
    fileclose sb f
    return 0

def sysRead (p : Fin nproc) (fd : ℤ) (mapped : ℕ → Bool) (mem : Bytes) (addr : ℕ) (n driver : ℤ) : SysM ℤ := do
  match ← argfd p fd with
  | none => return -1
  | some (_, f) => do
    let (r, _) ← fileread sb f mapped mem addr n driver
    return r

def sysWrite (p : Fin nproc) (fd : ℤ) (page : ℕ → Option Bytes) (addr : ℕ) (n driver : ℤ) : SysM ℤ := do
  match ← argfd p fd with
  | none => return -1
  | some (_, f) => filewrite sb f page addr n driver

/-- `filestat`; `copied` is what `copyout` answers. -/
def sysFstat (p : Fin nproc) (fd : ℤ) (copied : Bool) : SysM ℤ := do
  match ← argfd p fd with
  | none => return -1
  | some (_, f) => do
    let g := (← get).file f
    if g.type = .inode ∨ g.type = .device then do
      onFs (ilock g.ip)
      onFs (iunlock g.ip)
      return if copied then 0 else -1
    else return -1

/-- The end of `sys_open` without a descriptor. -/
def openBad (ip : Fin ninode) : SysM ℤ := do
  onFs (iunlockput sb ip)
  onFs endOp
  return -1

def openFile (p : Fin nproc) (ip : Fin ninode) (omode : ℕ) : SysM ℤ := do
  match ← filealloc with
  | none => openBad sb ip
  | some f =>
    match ← fdalloc p f with
    | none => do
      fileclose sb f
      openBad sb ip
    | some fd => do
      let type := ((← get).fs.din ip).type
      setFile f fun g => { g with
        type := if type = .device then .device else .inode
        off := if type = .device then g.off else 0
        ip := ip
        readable := omode &&& oWronly = 0
        writable := omode &&& oWronly ≠ 0 ∨ omode &&& oRdwr ≠ 0 }
      if omode &&& oTrunc ≠ 0 ∧ type = .file then onFs (itrunc sb ip)
      onFs (iunlock ip)
      onFs endOp
      return fd.val

def sysOpen (p : Fin nproc) (cwd : Fin ninode) (path : Option (List UInt8)) (omode : ℕ) : SysM ℤ := do
  match path with
  | none => return -1
  | some path => do
    onFs beginOp
    match ← onFs (openInode sb short cwd path omode) with
    | none => do
      onFs endOp
      return -1
    | some ip => do
      let d := (← get).fs.din ip
      if d.type = .device ∧ (d.major < 0 ∨ ndev ≤ d.major) then openBad sb ip
      else openFile sb p ip omode

/-- The directory that `sys_chdir` changes to. -/
def chdirInode (cwd : Fin ninode) (path : Option (List UInt8)) : FsM (Option (Fin ninode)) := do
  beginOp
  match path with
  | none => do
    endOp
    return none
  | some path =>
    match ← namei sb cwd path with
    | none => do
      endOp
      return none
    | some ip => do
      ilock ip
      if ((← get).din ip).type ≠ .dir then do
        iunlockput sb ip
        endOp
        return none
      else do
        iunlock ip
        iput sb cwd
        endOp
        return some ip

def sysChdir (p : Fin nproc) (cwd : Fin ninode) (path : Option (List UInt8)) : SysM ℤ := do
  match ← onFs (chdirInode sb cwd path) with
  | none => return -1
  | some ip => do
    setCwd p (some ip)
    return 0

/-- `fork` into the slot `q`, which is free. -/
def sysFork (p q : Fin nproc) (cwd : Fin ninode) : SysM ℤ := do
  let s ← get
  if (s.proc q).cwd.isSome then return -1
  else do
    (List.finRange nofile).forM fun fd => do
      match (s.proc p).ofile fd with
      | none => return
      | some f => do
        filedup f
        setOfile q fd (some f)
    let ip ← onFs (idup cwd)
    setCwd q (some ip)
    return 0

def sysExit (p : Fin nproc) (cwd : Fin ninode) : SysM ℤ := do
  (List.finRange nofile).forM fun fd => do
    match ((← get).proc p).ofile fd with
    | none => return
    | some f => do
      fileclose sb f
      setOfile p fd none
  onFs beginOp
  onFs (iput sb cwd)
  onFs endOp
  setCwd p none
  return 0

end

/-- A string in user memory, up to its NUL. -/
structure CStr where
  bytes : List UInt8
  noNul : 0 ∉ bytes

/-- A system call with its arguments, and what the user memory and the drivers answer. -/
inductive Syscall
  | «open» (path : Option CStr) (omode : ℕ)
  | close (fd : ℤ)
  | dup (fd : ℤ)
  | read (fd : ℤ) (mapped : ℕ → Bool) (mem : Bytes) (addr : ℕ) (n driver : ℤ)
  | write (fd : ℤ) (page : ℕ → Option Bytes) (addr : ℕ) (n driver : ℤ)
  | fstat (fd : ℤ) (copied : Bool)
  | link (old new : Option CStr)
  | unlink (path : Option CStr)
  | mkdir (path : Option CStr)
  | mknod (path : Option CStr) (major minor : ℤ)
  | chdir (path : Option CStr)
  | exec (path : CStr) (reads : List (ℕ × ℕ)) (r : ℤ)
  | fork (q : Fin nproc)
  | exit

/-- Process `p`, whose directory is `cwd`, makes a call. -/
def Syscall.body (sb : Superblock) (short : ShortInt) (p : Fin nproc) (cwd : Fin ninode) : Syscall → SysM ℤ
  | .open path omode => sysOpen sb short p cwd (path.map CStr.bytes) omode
  | .close fd => sysClose sb p fd
  | .dup fd => sysDup p fd
  | .read fd mapped mem addr n driver => sysRead sb p fd mapped mem addr n driver
  | .write fd page addr n driver => sysWrite sb p fd page addr n driver
  | .fstat fd copied => sysFstat p fd copied
  | .link old new => onFs (sysLink sb short cwd (old.map CStr.bytes) (new.map CStr.bytes))
  | .unlink path => onFs (sysUnlink sb short cwd (path.map CStr.bytes))
  | .mkdir path => onFs (sysMkdir sb short cwd (path.map CStr.bytes))
  | .mknod path major minor => onFs (sysMknod sb short cwd (path.map CStr.bytes) major minor)
  | .chdir path => sysChdir sb p cwd (path.map CStr.bytes)
  | .exec path reads r => do
    if ← onFs (execInode sb cwd path.bytes reads) then return r else return -1
  | .fork q => sysFork p q cwd
  | .exit => sysExit sb p cwd

/-- There is nobody in a slot without a directory. -/
def Syscall.run (sb : Superblock) (short : ShortInt) (p : Fin nproc) (c : Syscall) : SysM ℤ := do
  match ((← get).proc p).cwd with
  | none => throw .blocked
  | some cwd => c.body sb short p cwd

/-- A step of the system: a call that returns. -/
def Syscall.step (sb : Superblock) (short : ShortInt) (s : Sys) (a : Fin nproc × Syscall) : Except Halt Sys :=
  match a.2.run sb short a.1 s with
  | .ok (_, s') => .ok s'
  | .error e => .error e

end Xv6.Fs
