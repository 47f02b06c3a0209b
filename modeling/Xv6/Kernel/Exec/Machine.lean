import Xv6.Kernel.Fs.Lookup
import Xv6.Kernel.Proc.Spaces

/-! `exec` on the whole kernel: the file system, the memory and the process table. -/
namespace Xv6.Exec
open Lib Function
open Fs (Superblock CStr)
open Vm (Pagetable Page Frame Elfhdr Proghdr Str)

/-- The parts of the kernel that `exec` works on. `name` has the names of the processes, and
`outstanding` counts the system calls in the log. -/
structure World where
  fs : Fs.State
  sys : Vm.Sys
  name : Fin nproc → Bytes
  outstanding : ℤ

abbrev M := StateT World (Except Halt)

def onFs {α : Type} (x : Fs.FsM α) : M α := fun w =>
  match x w.fs with
  | .ok (a, fs) => .ok (a, { w with fs })
  | .error e => .error e

def onSys {α : Type} (x : Vm.Kern α) : M α := fun w =>
  match x w.sys with
  | .ok (a, sys) => .ok (a, { w with sys })
  | .error e => .error e

def onMem {α : Type} (x : Vm.K α) : M α := onSys (Vm.onMem x)

def beginOp : M Unit := do
  modify fun w => { w with outstanding := w.outstanding + 1 }
  onFs Fs.beginOp

def endOp : M Unit := do
  modify fun w => { w with outstanding := w.outstanding - 1 }
  onFs Fs.endOp

/-- A string as `strlen` and `copyout` see it. -/
def str (s : CStr) : Str := { bytes := fun k => s.bytes.getD k 0, len := s.bytes.length }

section
variable (sb : Superblock)

/-- `readi` into a page; the number of bytes. -/
def readiPage (ip : Fin ninode) (pa : Frame) (off n : ℕ) : M ℕ := do
  let w ← get
  let (count, page) ← onFs (Fs.readi sb ip .kernel (w.sys.mem.data pa) off n)
  onMem (modify fun m => m.write pa page)
  return count

/-- The loop of `loadseg` over `fuel` pages from `i` on. -/
def loadsegLoop (t : Pagetable) (va : ℕ) (ip : Fin ninode) (offset sz : ℕ) : ℕ → ℕ → M Bool
  | 0, _ => return true
  | fuel + 1, i => do
    match Vm.walkaddr t (va + i) with
    | none => throw (.panic .loadsegAddressShouldExist)
    | some pa =>
      let n := if sz - i < pgsize then sz - i else pgsize
      let count ← readiPage sb ip pa ((offset + i) % 2 ^ 32) n
      if count ≠ n then return false
      loadsegLoop t va ip offset sz fuel (i + pgsize)

def loadseg (t : Pagetable) (va : ℕ) (ip : Fin ninode) (offset sz : ℕ) : M Bool := do
  if va % pgsize ≠ 0 then throw (.panic .loadsegNotAligned)
  loadsegLoop sb t va ip offset sz ((sz + pgsize - 1) / pgsize) 0

/-- The body of the loop over the headers for one of type `ELF_PROG_LOAD`: the table, `sz`, and whether
it does not go to `bad`. -/
def loadSegment (ip : Fin ninode) (ph : Proghdr) (t : Pagetable) (sz : ℕ) : M (Pagetable × ℕ × Bool) := do
  if ph.memsz < ph.filesz then return (t, sz, false)
  if (ph.vaddr + ph.memsz) % 2 ^ 64 < ph.vaddr then return (t, sz, false)
  let (t, sz₁) ← onMem (Vm.uvmalloc t sz ((ph.vaddr + ph.memsz) % 2 ^ 64))
  if sz₁ = 0 then return (t, sz, false)
  if ph.vaddr % pgsize ≠ 0 then return (t, sz₁, false)
  let loaded ← loadseg sb t ph.vaddr ip (ph.off % 2 ^ 32) (ph.filesz % 2 ^ 32)
  return (t, sz₁, loaded)

/-- The loop over the headers. `int off` is what `readi` takes as a `uint`. -/
def loadLoop (ip : Fin ninode) : ℕ → ℕ → Pagetable → ℕ → M (Pagetable × ℕ × Bool)
  | 0, _, t, sz => return (t, sz, true)
  | i + 1, off, t, sz => do
    let (count, ph) ← onFs (Fs.readi sb ip .kernel (fun _ => 0) off Vm.sizeofProghdr)
    if count ≠ Vm.sizeofProghdr then return (t, sz, false)
    if (Proghdr.decode ph).type ≠ Vm.elfProgLoad then
      loadLoop ip i ((off + Vm.sizeofProghdr) % 2 ^ 32) t sz
    else
      let (t, sz, loaded) ← loadSegment sb ip (.decode ph) t sz
      if !loaded then return (t, sz, false)
      loadLoop ip i ((off + Vm.sizeofProghdr) % 2 ^ 32) t sz

/-- The way out at `bad` with `ip` locked; `image` is the page table with `sz`, unless it is null. -/
def bad (image : Option (Pagetable × ℕ)) (ip : Fin ninode) : M ℤ := do
  match image with
  | none => pure ()
  | some (t, sz) => onMem (Vm.procFreepagetable t sz)
  onFs (Fs.iunlockput sb ip)
  endOp
  return -1

/-- `for (last = s = path; *s; s++) if (*s == '/') last = s + 1` -/
def lastElem : List UInt8 → List UInt8 → List UInt8
  | last, [] => last
  | last, c :: s => if c = Fs.slash then lastElem s s else lastElem last s

/-- `safestrcpy` from index `i` on, with `n` turns of the loop left. -/
def safestrcpy (s : Bytes) : ℕ → ℕ → List UInt8 → Bytes
  | 0, i, _ => update s i 0
  | _ + 1, i, [] => update (update s i 0) (i + 1) 0
  | n + 1, i, c :: t => safestrcpy (update s i c) n (i + 1) t

/-- `sizeof(p->name)` -/
def sizeofName : ℕ := 16

/-- A register in the trapframe. -/
def setReg (pa : Page) (off v : ℕ) : M Unit :=
  onMem (modify fun m => m.write (.page pa) ((m.data (.page pa)).set off 8 v))

/-- The offsets of `epc`, `sp` and `a1` in `struct trapframe`. -/
def offEpc : ℕ := 24
def offSp : ℕ := 48
def offA1 : ℕ := 120

/-- Process `i` gets the new image. -/
def commit (i : Fin nproc) (path : CStr) (t : Pagetable) (sz sp entry : ℕ) : M Unit := do
  let w ← get
  let p := w.sys.proc i
  let pa ← onSys (Vm.deref p.trapframe)
  setReg pa offA1 sp
  modify fun w => { w with
    name := update w.name i (safestrcpy (w.name i) (sizeofName - 1) 0 (lastElem path.bytes path.bytes)) }
  let oldpagetable ← onSys (Vm.deref p.pagetable)
  onSys (Vm.setProc i { p with pagetable := some t, sz })
  setReg pa offEpc entry
  setReg pa offSp sp
  onMem (Vm.procFreepagetable oldpagetable p.sz)

/-- `exec` from the point where it has loaded the segments. -/
def finish (i : Fin nproc) (path : CStr) (argv : List CStr) (ip : Fin ninode) (t : Pagetable) (sz entry : ℕ) : M ℤ := do
  onFs (Fs.iunlockput sb ip)
  endOp
  match ← onMem (Vm.buildStack t sz (argv.map str)) with
  | none => return -1
  | some (t, sz, argc, sp) => do
    commit i path t sz sp entry
    return argc

/-- `exec` from the point where it has locked the inode. -/
def execLocked (i : Fin nproc) (path : CStr) (argv : List CStr) (ip : Fin ninode) : M ℤ := do
  let (count, elf) ← onFs (Fs.readi sb ip .kernel (fun _ => 0) 0 Vm.sizeofElfhdr)
  if count ≠ Vm.sizeofElfhdr then bad sb none ip
  else if (Elfhdr.decode elf).magic ≠ Vm.elfMagic then bad sb none ip
  else do
    let w ← get
    let pa ← onSys (Vm.deref (w.sys.proc i).trapframe)
    match ← onMem (Vm.procPagetable pa) with
    | none => bad sb none ip
    | some t => do
      let (t, sz, loaded) ← loadLoop sb ip (Elfhdr.decode elf).phnum ((Elfhdr.decode elf).phoff % 2 ^ 32) t 0
      if !loaded then bad sb (some (t, sz)) ip
      else finish sb i path argv ip t sz (Elfhdr.decode elf).entry

/-- `exec` by process `i`, whose directory is `cwd`. -/
def exec (i : Fin nproc) (cwd : Fin ninode) (path : CStr) (argv : List CStr) : M ℤ := do
  beginOp
  match ← onFs (Fs.namei sb cwd path.bytes) with
  | none => do
    endOp
    return -1
  | some ip => do
    onFs (Fs.ilock ip)
    execLocked sb i path argv ip

end

end Xv6.Exec
