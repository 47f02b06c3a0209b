import Xv6.Kernel.Vm.Pagetable

/-! The process table of `proc.c` with the file table of `file.c`, and what `pipe.c` and
`sysfile.c` do to open files. -/
namespace Xv6.Vm
open Lib Function

/-- `RUNNABLE` stands for `SLEEPING` and `RUNNING` too: the scheduler is not modelled here. -/
inductive ProcState
  | unused
  | runnable
  | zombie
  deriving DecidableEq

/-- `f->type` with the fields it makes meaningful. -/
inductive FdType
  | none
  | pipe (pi : Page) (writable : Bool)
  | inode
  | device
  deriving DecidableEq

/-- `struct inode` as far as opening it reads it: whether its type is `T_DEVICE`. -/
structure Inode where
  isDevice : Bool

structure File where
  ref : ℕ
  type : FdType
  deriving DecidableEq

/-- `struct pipe` as far as closing reads it. -/
structure Pipe where
  readopen : Bool
  writeopen : Bool

structure Proc where
  state : ProcState
  pid : ℕ
  parent : Option (Fin nproc)
  xstate : ℕ
  trapframe : Option Page
  pagetable : Option Pagetable
  sz : ℕ
  ofile : Fin nofile → Option (Fin nfile)

/-- A slot of the table as `freeproc` leaves it. -/
def Proc.free : Proc :=
  { state := .unused, pid := 0, parent := none, xstate := 0, trapframe := none, pagetable := none
    sz := 0, ofile := fun _ => none }

/-- `pipe` is what a page holds as a `struct pipe`; `kpagetable` and `kstack` are the kernel's
page table and the pages of the kernel stacks. -/
structure Sys where
  mem : Mem
  proc : Fin nproc → Proc
  file : Fin nfile → File
  pipe : Page → Pipe
  nextpid : ℕ
  initproc : Option (Fin nproc)
  kpagetable : Pagetable
  kstack : Fin nproc → Page

abbrev Kern := StateT Sys (Except Halt)

/-- A function of `vm.c` or `kalloc.c`, which changes the memory only. -/
def onMem {α : Type} (x : K α) : Kern α := fun s =>
  match x s.mem with
  | .ok (a, m) => .ok (a, { s with mem := m })
  | .error e => .error e

def setProc (i : Fin nproc) (p : Proc) : Kern Unit :=
  modify fun s => { s with proc := update s.proc i p }

def updProc (i : Fin nproc) (g : Proc → Proc) : Kern Unit :=
  modify fun s => { s with proc := update s.proc i (g (s.proc i)) }

def setFile (f : Fin nfile) (g : File) : Kern Unit :=
  modify fun s => { s with file := update s.file f g }

def Proc.setOfile (p : Proc) (fd : Fin nofile) (f : Option (Fin nfile)) : Proc :=
  { p with ofile := update p.ofile fd f }

def setOfile (i : Fin nproc) (fd : Fin nofile) (f : Option (Fin nfile)) : Kern Unit :=
  updProc i fun p => p.setOfile fd f

/-- The kernel does not map address 0: to follow a null pointer is a trap in the kernel. -/
def deref {α : Type} : Option α → Kern α
  | some a => return a
  | none => throw (.panic .kerneltrap)

def filealloc : Kern (Option (Fin nfile)) := do
  let s ← get
  match (List.finRange nfile).find? fun f => (s.file f).ref = 0 with
  | none => return none
  | some f =>
    setFile f { s.file f with ref := 1 }
    return some f

def filedup (f : Fin nfile) : Kern Unit := do
  let s ← get
  if (s.file f).ref < 1 then throw (.panic .filedup)
  setFile f { s.file f with ref := (s.file f).ref + 1 }

def pipeclose (pi : Page) (writable : Bool) : Kern Unit := do
  let s ← get
  let p := s.pipe pi
  let p : Pipe := if writable then { p with writeopen := false } else { p with readopen := false }
  set { s with pipe := update s.pipe pi p }
  if !p.readopen && !p.writeopen then onMem (kfree (.page pi))

def fileclose (f : Fin nfile) : Kern Unit := do
  let s ← get
  let ff := s.file f
  if ff.ref < 1 then throw (.panic .fileclose)
  if 0 < ff.ref - 1 then
    setFile f { ff with ref := ff.ref - 1 }
  else do
    setFile f { ref := 0, type := .none }
    match ff.type with
    | .none => return
    | .pipe pi writable => pipeclose pi writable
    -- `iput`, which does not touch memory or open files
    | .inode => return
    | .device => return

/-- `pipealloc` once there is a second file: the page of the pipe, or on the way out at `bad`
both files are closed. -/
def pipeinit (f₀ f₁ : Fin nfile) : Kern Bool := do
  match ← onMem kalloc with
  | none =>
    fileclose f₀
    fileclose f₁
    return false
  | some pi =>
    modify fun s => { s with pipe := update s.pipe pi ⟨true, true⟩ }
    let s ← get
    setFile f₀ { s.file f₀ with type := .pipe pi false }
    setFile f₁ { s.file f₁ with type := .pipe pi true }
    return true

/-- The file to read from and the file to write to. -/
def pipealloc : Kern (Option (Fin nfile × Fin nfile)) := do
  match ← filealloc with
  | none => return none
  | some f₀ =>
    match ← filealloc with
    | none =>
      fileclose f₀
      return none
    | some f₁ =>
      let done ← pipeinit f₀ f₁
      return if done then some (f₀, f₁) else none

/-- `fdalloc` for the process in slot `i`. -/
def fdalloc (i : Fin nproc) (f : Fin nfile) : Kern (Option (Fin nofile)) := do
  let s ← get
  match (List.finRange nofile).find? fun fd => (s.proc i).ofile fd = none with
  | none => return none
  | some fd =>
    setOfile i fd (some f)
    return some fd

/-- `argfd` for the number that the process has passed. -/
def argfd (p : Proc) (fd : ℤ) : Option (Fin nofile × Fin nfile) :=
  if h : 0 ≤ fd ∧ fd < nofile then
    (p.ofile ⟨fd.toNat, by omega⟩).map fun f => (⟨fd.toNat, by omega⟩, f)
  else none

def sysDup (i : Fin nproc) (fd : ℤ) : Kern (Option (Fin nofile)) := do
  let s ← get
  match argfd (s.proc i) fd with
  | none => return none
  | some (_, f) =>
    match ← fdalloc i f with
    | none => return none
    | some fd =>
      filedup f
      return some fd

def sysClose (i : Fin nproc) (fd : ℤ) : Kern Bool := do
  let s ← get
  match argfd (s.proc i) fd with
  | none => return false
  | some (fd, f) =>
    setOfile i fd none
    fileclose f
    return true

/-- `sys_open` from the point where it has looked at the inode. `found` is none when it has
returned before: the path cannot be read, nothing is found or can be created, or the inode is
not to be opened that way. -/
def sysOpen (i : Fin nproc) (found : Option Inode) : Kern (Option (Fin nofile)) := do
  match found with
  | none => return none
  | some ip =>
    match ← filealloc with
    | none => return none
    | some f =>
      match ← fdalloc i f with
      | none =>
        fileclose f
        return none
      | some fd =>
        let s ← get
        setFile f { s.file f with type := if ip.isDevice then .device else .inode }
        return some fd

/-- The bytes of an `int`. -/
def intBytes (n : ℕ) : Bytes := Bytes.set (fun _ => 0) 0 4 n

/-- `sys_pipe` from the point where it has two file descriptors on. -/
def pipeCopyout (i : Fin nproc) (fdarray : ℕ) (rf wf : Fin nfile) (fd₀ fd₁ : Fin nofile) :
    Kern Bool := do
  let s ← get
  let t ← deref (s.proc i).pagetable
  let first ← onMem (copyout t fdarray (intBytes fd₀) 4)
  let both ← if first then onMem (copyout t ((fdarray + 4) % 2 ^ 64) (intBytes fd₁) 4) else pure false
  if both then return true
  setOfile i fd₀ none
  setOfile i fd₁ none
  fileclose rf
  fileclose wf
  return false

/-- Whether `sys_pipe` returns 0. -/
def sysPipe (i : Fin nproc) (fdarray : ℕ) : Kern Bool := do
  match ← pipealloc with
  | none => return false
  | some (rf, wf) =>
    match ← fdalloc i rf with
    | none =>
      fileclose rf
      fileclose wf
      return false
    | some fd₀ =>
      match ← fdalloc i wf with
      | none =>
        setOfile i fd₀ none
        fileclose rf
        fileclose wf
        return false
      | some fd₁ => pipeCopyout i fdarray rf wf fd₀ fd₁

end Xv6.Vm
