import Xv6.Kernel.Proc.Calls

/-! `exec.c`, and `sys_exec` with the pages it holds the arguments in. -/
namespace Xv6.Vm
open Lib

def maxarg : ℕ := 32

/-- The file that `exec` reads: the size and the bytes of the inode. -/
structure Exe where
  size : ℕ
  data : Bytes

/-- The number of bytes that `readi` reads into the kernel, for `uint off` and `uint n`. -/
def Exe.readi (ip : Exe) (off n : ℕ) : ℕ :=
  if ip.size < off ∨ 2 ^ 32 ≤ off + n then 0
  else if ip.size < off + n then ip.size - off
  else n

def elfMagic : ℕ := 0x464C457F
def elfProgLoad : ℕ := 1
def sizeofElfhdr : ℕ := 64
def sizeofProghdr : ℕ := 56

/-- The fields of `struct elfhdr` that `exec` reads. -/
structure Elfhdr where
  magic : ℕ
  entry : ℕ
  phoff : ℕ
  phnum : ℕ
  deriving DecidableEq

def Elfhdr.decode (b : Bytes) : Elfhdr :=
  { magic := b.get 0 4, entry := b.get 24 8, phoff := b.get 32 8, phnum := b.get 56 2 }

def Exe.elfhdr (ip : Exe) : Elfhdr := .decode ip.data

structure Proghdr where
  type : ℕ
  off : ℕ
  vaddr : ℕ
  filesz : ℕ
  memsz : ℕ
  deriving DecidableEq

def Proghdr.decode (b : Bytes) : Proghdr :=
  { type := b.get 0 4
    off := b.get 8 8
    vaddr := b.get 16 8
    filesz := b.get 32 8
    memsz := b.get 40 8 }

def Exe.proghdr (ip : Exe) (off : ℕ) : Proghdr := .decode fun k => ip.data (off + k)

/-- `readi` into a page; the number of bytes. -/
def readiPage (ip : Exe) (pa : Frame) (off n : ℕ) : K ℕ := do
  modify fun m => m.write pa ((m.data pa).blit 0 (ip.readi off n) fun k => ip.data (off + k))
  return ip.readi off n

/-- The loop of `loadseg` over `n` pages from `i` on. A read beyond the end of the file
ends it, so `uint i` does not wrap. -/
def loadsegLoop (t : Pagetable) (va : ℕ) (ip : Exe) (offset sz : ℕ) : ℕ → ℕ → K Bool
  | 0, _ => return true
  | fuel + 1, i => do
    match walkaddr t (va + i) with
    | none => throw (.panic .loadsegAddressShouldExist)
    | some pa =>
      let n := if sz - i < pgsize then sz - i else pgsize
      let count ← readiPage ip pa ((offset + i) % 2 ^ 32) n
      if count ≠ n then return false
      loadsegLoop t va ip offset sz fuel (i + pgsize)

/-- Whether `loadseg` returns 0. -/
def loadseg (t : Pagetable) (va : ℕ) (ip : Exe) (offset sz : ℕ) : K Bool := do
  if va % pgsize ≠ 0 then throw (.panic .loadsegNotAligned)
  loadsegLoop t va ip offset sz ((sz + pgsize - 1) / pgsize) 0

/-- The body of the loop of `exec` for a header of type `ELF_PROG_LOAD`: the table, `sz`, and
whether it does not go to `bad`. -/
def loadSegment (ip : Exe) (ph : Proghdr) (t : Pagetable) (sz : ℕ) : K (Pagetable × ℕ × Bool) := do
  if ph.memsz < ph.filesz then return (t, sz, false)
  if (ph.vaddr + ph.memsz) % 2 ^ 64 < ph.vaddr then return (t, sz, false)
  let (t, sz₁) ← uvmalloc t sz ((ph.vaddr + ph.memsz) % 2 ^ 64)
  if sz₁ = 0 then return (t, sz, false)
  if ph.vaddr % pgsize ≠ 0 then return (t, sz₁, false)
  let loaded ← loadseg t ph.vaddr ip (ph.off % 2 ^ 32) (ph.filesz % 2 ^ 32)
  return (t, sz₁, loaded)

/-- The loop of `exec` over the program headers. -/
def loadLoop (ip : Exe) : ℕ → ℕ → Pagetable → ℕ → K (Pagetable × ℕ × Bool)
  | 0, _, t, sz => return (t, sz, true)
  | i + 1, off, t, sz => do
    if ip.readi off sizeofProghdr ≠ sizeofProghdr then return (t, sz, false)
    if (ip.proghdr off).type ≠ elfProgLoad then
      loadLoop ip i ((off + sizeofProghdr) % 2 ^ 32) t sz
    else
      let (t, sz, loaded) ← loadSegment ip (ip.proghdr off) t sz
      if !loaded then return (t, sz, false)
      loadLoop ip i ((off + sizeofProghdr) % 2 ^ 32) t sz

/-- `sp -= n; sp -= sp % 16` -/
def push (sp n : ℕ) : ℕ :=
  let sp := (sp + (2 ^ 64 - n % 2 ^ 64)) % 2 ^ 64
  sp - sp % 16

/-- A string of the kernel: its bytes and `strlen`. -/
structure Str where
  bytes : Bytes
  len : ℕ

/-- The loop that pushes the argument strings: the addresses they get, and `sp`. -/
def pushArgs (t : Pagetable) (stackbase : ℕ) : List Str → List ℕ → ℕ → K (Option (List ℕ × ℕ))
  | [], ustack, sp => return some (ustack, sp)
  | arg :: argv, ustack, sp => do
    if maxarg ≤ ustack.length then return none
    let sp := push sp (arg.len + 1)
    if sp < stackbase then return none
    let copied ← copyout t sp arg.bytes (arg.len + 1)
    if !copied then return none
    pushArgs t stackbase argv (ustack ++ [sp]) sp

/-- The bytes of the array `ustack`, which a null pointer ends. -/
def ustackBytes (ustack : List ℕ) : Bytes := fun k =>
  UInt8.ofNat ((ustack.getD (k / 8) 0) / 256 ^ (k % 8))

/-- The argument strings and the array of pointers to them; `argc` and `sp`, unless they do not fit
on the stack. -/
def pushStack (t : Pagetable) (sz : ℕ) (argv : List Str) : K (Option (ℕ × ℕ)) := do
  match ← pushArgs t (sz - pgsize) argv [] sz with
  | none => return none
  | some (ustack, sp) =>
    let sp := push sp ((ustack.length + 1) * 8)
    if sp < sz - pgsize then return none
    let copied ← copyout t sp (ustackBytes ustack) ((ustack.length + 1) * 8)
    return if copied then some (ustack.length, sp) else none

/-- Two more pages above the segments: a guard page, and the page of the stack. On the way out at `bad`
the table is freed. -/
def stackPages (t : Pagetable) (sz : ℕ) : K (Option (Pagetable × ℕ)) := do
  let sz := pgRoundUp sz
  let (t, sz₁) ← uvmalloc t sz (sz + 2 * pgsize)
  if sz₁ = 0 then
    procFreepagetable t sz
    return none
  let t ← uvmclear t (sz₁ - 2 * pgsize)
  return some (t, sz₁)

/-- `exec` from the point where it has loaded the segments: the table, its size, `argc` and `sp`. -/
def buildStack (t : Pagetable) (sz : ℕ) (argv : List Str) : K (Option (Pagetable × ℕ × ℕ × ℕ)) := do
  match ← stackPages t sz with
  | none => return none
  | some (t, sz) =>
    match ← pushStack t sz argv with
    | none =>
      procFreepagetable t sz
      return none
    | some (argc, sp) => return some (t, sz, argc, sp)

/-- The part of `exec` that builds the new image. -/
def loadImage (pa : Page) (ip : Exe) (argv : List Str) : K (Option (Pagetable × ℕ × ℕ × ℕ)) := do
  match ← procPagetable pa with
  | none => return none
  | some t =>
    let (t, sz, loaded) ← loadLoop ip ip.elfhdr.phnum (ip.elfhdr.phoff % 2 ^ 32) t 0
    if !loaded then
      procFreepagetable t sz
      return none
    buildStack t sz argv

/-- `exec` on the file that the path names, if any; `argc`, or `none` for -1. -/
def exec (i : Fin nproc) (file : Option Exe) (argv : List Str) : Kern (Option ℕ) := do
  match file with
  | none => return none
  | some ip =>
    if ip.readi 0 sizeofElfhdr ≠ sizeofElfhdr then return none
    if ip.elfhdr.magic ≠ elfMagic then return none
    let s ← get
    let p := s.proc i
    let pa ← deref p.trapframe
    match ← onMem (loadImage pa ip argv) with
    | none => return none
    | some (t, sz, argc, _) =>
      let oldpagetable ← deref p.pagetable
      setProc i { p with pagetable := some t, sz }
      onMem (procFreepagetable oldpagetable p.sz)
      return some argc

/-- A pointer of the array that `sys_exec` is given: `fetchaddr` fails on it, `fetchstr`
fails on what it points to, or it points to a string. -/
inductive Arg
  | badAddr
  | badStr
  | str (s : Str)

/-- The loop of `sys_exec` that gets a page for each argument: the pages, and the arguments
if it gets to the null pointer that ends the array. -/
def fetchArgs : List Arg → List Page → List Str → K (List Page × Option (List Str))
  | [], pages, argv => return (pages, if pages.length < maxarg then some argv else none)
  | arg :: args, pages, argv => do
    if maxarg ≤ pages.length then return (pages, none)
    match arg with
    | .badAddr => return (pages, none)
    | .badStr =>
      let pa ← kalloc
      return (pa.toList ++ pages, none)
    | .str s =>
      match ← kalloc with
      | none => return (pages, none)
      | some pa =>
        fill (.page pa) s.bytes
        fetchArgs args (pa :: pages) (argv ++ [s])

def sysExec (i : Fin nproc) (file : Option Exe) (args : List Arg) : Kern (Option ℕ) := do
  let (pages, argv) ← onMem (fetchArgs args [] [])
  let ret ← argv.elim (pure none) (exec i file)
  pages.forM fun pa => onMem (kfree (.page pa))
  return ret

/-- The system calls that change address spaces, open files or move pages. `copyout` stands for every
call that stores into the memory of the process, as `read` and `fstat` do. -/
inductive Call
  | fork
  | exec (file : Option Exe) (args : List Arg)
  | sbrk (n : ℤ)
  | exit (status : ℕ)
  | wait (addr : ℕ)
  | pipe (fdarray : ℕ)
  | dup (fd : ℤ)
  | close (fd : ℤ)
  | open (found : Option Inode)
  | copyout (dstva : ℕ) (src : Bytes) (len : ℕ)

def sysCopyout (i : Fin nproc) (dstva : ℕ) (src : Bytes) (len : ℕ) : Kern Bool := do
  let s ← get
  let t ← deref (s.proc i).pagetable
  onMem (copyout t dstva src len)

def syscall (i : Fin nproc) : Call → Kern Unit
  | .fork => do let _ ← fork i
  | .exec file args => do let _ ← sysExec i file args
  | .sbrk n => do let _ ← growproc i n
  | .exit status => exit i status
  | .wait addr => do let _ ← wait i addr
  | .pipe fdarray => do let _ ← sysPipe i fdarray
  | .dup fd => do let _ ← sysDup i fd
  | .close fd => do let _ ← sysClose i fd
  | .open found => do let _ ← sysOpen i found
  | .copyout dstva src len => do let _ ← sysCopyout i dstva src len

/-- A call by the process in slot `proc`; `fails` says which calls of `kalloc` fail in it. -/
structure Action where
  proc : Fin nproc
  call : Call
  fails : List Bool

/-- A process that has not exited makes a call. -/
def step (s : Sys) (a : Action) : Except Halt Sys :=
  if (s.proc a.proc).state = .runnable then
    (syscall a.proc a.call { s with mem := { s.mem with fails := a.fails } }).map Prod.snd
  else .error .blocked

end Xv6.Vm
