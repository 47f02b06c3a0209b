import Xv6.Kernel.Fs.Inode

/-! The open files of `file.c` over the inodes. A pipe and a device do nothing to the file system:
what `pipe.c` or a driver answers is given. -/
namespace Xv6.Fs
open Lib

inductive FdType
  | none
  | pipe
  | inode
  | device
  deriving DecidableEq

/-- `ip` has a meaning for `FD_INODE` and `FD_DEVICE`, `off` for `FD_INODE`. -/
structure File where
  type : FdType
  ref : ℕ
  readable : Bool
  writable : Bool
  ip : Fin ninode
  off : ℕ

/-- `struct proc` as the file system knows it; a slot without a process has no `cwd`. -/
structure Proc where
  cwd : Option (Fin ninode)
  ofile : Fin nofile → Option (Fin nfile)

structure Sys where
  fs : State
  file : Fin nfile → File
  proc : Fin nproc → Proc

abbrev SysM := StateT Sys (Except Halt)

/-- A function of `fs.c` or `log.c`. -/
def onFs {α : Type} (x : FsM α) : SysM α := fun s =>
  match x s.fs with
  | .ok (a, fs) => .ok (a, { s with fs := fs })
  | .error e => .error e

theorem wp_onFs {α : Type} {E : Halt → Prop} {x : FsM α} {s : Sys} {Q : α → Sys → Prop} :
    Wp E (onFs x) s Q ↔ Wp E x s.fs fun a fs => Q a { s with fs := fs } := by
  cases hx : x s.fs with
  | ok r => rw [wp_of_eq_ok (show onFs x s = .ok (r.1, { s with fs := r.2 }) by unfold onFs; rw [hx]), wp_of_eq_ok hx]
  | error e => rw [wp_of_eq_error (show onFs x s = .error e by unfold onFs; rw [hx]), wp_of_eq_error hx]

def setFile (f : Fin nfile) (g : File → File) : SysM Unit :=
  modify fun s => { s with file := Function.update s.file f (g (s.file f)) }

def filealloc : SysM (Option (Fin nfile)) := do
  let s ← get
  match (List.finRange nfile).find? fun f => (s.file f).ref = 0 with
  | none => return none
  | some f => do
    setFile f fun g => { g with ref := 1 }
    return some f

def filedup (f : Fin nfile) : SysM Unit := do
  if ((← get).file f).ref < 1 then throw (.panic .filedup)
  setFile f fun g => { g with ref := g.ref + 1 }

section
variable (sb : Superblock)

def fileclose (f : Fin nfile) : SysM Unit := do
  let ff := (← get).file f
  if ff.ref < 1 then throw (.panic .fileclose)
  if 0 < ff.ref - 1 then
    setFile f fun g => { g with ref := g.ref - 1 }
  else do
    setFile f fun g => { g with ref := 0, type := .none }
    if ff.type = .inode ∨ ff.type = .device then do
      onFs beginOp
      onFs (iput sb ff.ip)
      onFs endOp

/-- `n` is an `int`, which `readi` takes as a `uint`. -/
def fileread (f : Fin nfile) (mapped : ℕ → Bool) (mem : Bytes) (addr : ℕ) (n driver : ℤ) : SysM (ℤ × Bytes) := do
  let g := (← get).file f
  if !g.readable then return (-1, mem)
  match g.type with
  | .none => throw (.panic .fileread)
  | .pipe => return (driver, mem)
  | .device => return (driver, mem)
  | .inode => do
    onFs (ilock g.ip)
    let off := ((← get).file f).off
    let (r, mem) ← onFs (readi sb g.ip (.user mapped addr) mem off (n % 2 ^ 32).toNat)
    if 0 < r then setFile f fun g => { g with off := (g.off + r) % 2 ^ 32 }
    onFs (iunlock g.ip)
    return (r, mem)

/-- The turns of `filewrite` write at most this much. -/
def maxChunk : ℕ := (maxOpBlocks - 1 - 1 - 2) / 2 * bsize

/-- The part of a turn of `filewrite` between `ilock` and `iunlock`. -/
def writeLocked (f : Fin nfile) (page : ℕ → Option Bytes) (addr n1 : ℕ) : SysM ℤ := do
  let g := (← get).file f
  let r ← onFs (writei sb g.ip (.user page addr) g.off n1)
  if 0 < r then setFile f fun g => { g with off := (g.off + r.toNat) % 2 ^ 32 }
  return r

/-- One transaction of `filewrite`. -/
def writeChunk (f : Fin nfile) (page : ℕ → Option Bytes) (addr n1 : ℕ) : SysM ℤ := do
  onFs beginOp
  let ip := ((← get).file f).ip
  onFs (ilock ip)
  let r ← writeLocked sb f page addr n1
  onFs (iunlock ip)
  onFs endOp
  return r

/-- The body of the loop of `filewrite`: the next `i`, or none when it leaves the loop. -/
def writeTurn (f : Fin nfile) (page : ℕ → Option Bytes) (addr n i : ℕ) : SysM (Option ℕ) := do
  let n1 := min (n - i) maxChunk
  let r ← writeChunk sb f page ((addr + i) % 2 ^ 64) n1
  if r < 0 then return none
  if r ≠ n1 then throw (.panic .shortFilewrite)
  return some (i + r.toNat)

/-- The loop of `filewrite`, from `i` on, with the value of `i` at its end. Every turn writes a byte,
so `fuel` need not exceed `n`. -/
def filewriteLoop (f : Fin nfile) (page : ℕ → Option Bytes) (addr n : ℕ) : ℕ → ℕ → SysM ℕ
  | 0, i => return i
  | fuel + 1, i => do
    if i < n then do
      match ← writeTurn sb f page addr n i with
      | none => return i
      | some i => filewriteLoop f page addr n fuel i
    else return i

/-- What `filewrite` returns when `i` of `n` bytes are written. -/
def writeResult (i : ℕ) (n : ℤ) : ℤ := if (i : ℤ) = n then n else -1

def filewrite (f : Fin nfile) (page : ℕ → Option Bytes) (addr : ℕ) (n driver : ℤ) : SysM ℤ := do
  let g := (← get).file f
  if !g.writable then return -1
  match g.type with
  | .none => throw (.panic .filewrite)
  | .pipe => return driver
  | .device => return driver
  | .inode => do
    let i ← filewriteLoop sb f page addr n.toNat n.toNat 0
    return writeResult i n

/-- The file system after a write of `r` bytes to `f`, with the new offset. -/
def Sys.advance (s : Sys) (f : Fin nfile) (r : ℤ) (fs : State) : Sys :=
  { s with
    fs := fs
    file := if 0 < r then Function.update s.file f { s.file f with off := ((s.file f).off + r.toNat) % 2 ^ 32 }
      else s.file }

variable {E : Halt → Prop} {s : Sys} {f : Fin nfile} {page : ℕ → Option Bytes} {addr n1 : ℕ}

theorem wp_writeLocked {Q : ℤ → Sys → Prop} : Wp E (writeLocked sb f page addr n1) s Q ↔
    Wp E (writei sb (s.file f).ip (.user page addr) (s.file f).off n1) s.fs fun r fs => Q r (s.advance f r fs) := by
  unfold writeLocked setFile
  rw [wp_bind, wp_get, wp_bind, wp_onFs]
  refine ⟨fun h => h.mono fun r fs hr => ?_, fun h => h.mono fun r fs hr => ?_⟩
  · unfold Sys.advance
    split_ifs at hr ⊢ with hpos
    · rwa [wp_bind, wp_modify, wp_pure] at hr
    · rwa [wp_pure] at hr
  · unfold Sys.advance at hr
    split_ifs at hr ⊢ with hpos
    · rwa [wp_bind, wp_modify, wp_pure]
    · rwa [wp_pure]

theorem wp_writeChunk {Q : ℤ → Sys → Prop} : Wp E (writeChunk sb f page addr n1) s Q ↔
    Wp E (ilock (s.file f).ip) s.fs.beginOp fun _ fs =>
      Wp E (writei sb (s.file f).ip (.user page addr) (s.file f).off n1) fs fun r fs =>
        Wp E (iunlock (s.file f).ip) fs fun _ fs => Q r (s.advance f r fs.endOp) := by
  simp only [writeChunk, beginOp, endOp, wp_bind, wp_onFs, wp_modify, wp_get, wp_writeLocked, wp_pure]
  rfl

end

end Xv6.Fs
