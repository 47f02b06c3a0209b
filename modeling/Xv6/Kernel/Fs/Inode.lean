import Mathlib.Logic.Function.Basic
import Xv6.Kernel.Param
import Xv6.Kernel.Vm.Pagetable
import Xv6.Lib.Wp

/-! The blocks and inodes of `fs.c`: allocation, the inode cache, and the content of an inode.
Blocks are what `bread` finds in them; the inode blocks and the bitmap are decoded. -/
namespace Xv6.Fs
open Lib Function
open Vm (maxva)

def ndirect : ℕ := 12
def nindirect : ℕ := bsize / 4
def maxfile : ℕ := ndirect + nindirect

/-- `BSIZE / sizeof(struct dinode)`. -/
def ipb : ℕ := bsize / 64
def bpb : ℕ := bsize * 8
def rootino : ℕ := 1

/-- The fields of `struct superblock` that the kernel reads here; `size` is a `uint`. -/
structure Superblock where
  size : ℕ
  ninodes : ℕ
  inodestart : ℕ
  bmapstart : ℕ
  size_lt : size < 2 ^ 32

def Superblock.iblock (sb : Superblock) (inum : ℕ) : ℕ := inum / ipb + sb.inodestart
def Superblock.bblock (sb : Superblock) (b : ℕ) : ℕ := b / bpb + sb.bmapstart

/-- The values of `type`; 0 is a free inode. -/
inductive FileType
  | free
  | dir
  | file
  | device
  deriving DecidableEq, Repr

/-- `struct dinode`; the entries of `addrs` are those up to `NDIRECT`. -/
structure Dinode where
  type : FileType
  major : ℤ
  minor : ℤ
  nlink : ℤ
  size : ℕ
  addrs : ℕ → ℕ

def Dinode.zero : Dinode :=
  { type := .free, major := 0, minor := 0, nlink := 0, size := 0, addrs := fun _ => 0 }

/-- `struct inode`; `din` is its copy of the inode on disk. -/
structure Inode where
  inum : ℕ
  ref : ℤ
  locked : Bool
  valid : Bool
  din : Dinode

/-- `trans` is whether the caller is between `begin_op` and `end_op`, `logged` the blocks it has
passed to `log_write` since. -/
structure State where
  dinode : ℕ → Dinode
  bitmap : ℕ → Bool
  data : ℕ → Bytes
  trans : Bool
  logged : List ℕ
  inode : Fin ninode → Inode

abbrev FsM := StateT State (Except Halt)

namespace State

def setData (s : State) (b : ℕ) (block : Bytes) : State := { s with data := update s.data b block }

def setBit (s : State) (b : ℕ) (used : Bool) : State := { s with bitmap := update s.bitmap b used }

def setInode (s : State) (i : Fin ninode) (ip : Inode) : State := { s with inode := update s.inode i ip }

def din (s : State) (i : Fin ninode) : Dinode := (s.inode i).din

def setDin (s : State) (i : Fin ninode) (d : Dinode) : State := s.setInode i { s.inode i with din := d }

def setDinode (s : State) (inum : ℕ) (d : Dinode) : State := { s with dinode := update s.dinode inum d }

/-- A block that is in the transaction already is absorbed. -/
def log (s : State) (b : ℕ) : State := { s with logged := if b ∈ s.logged then s.logged else s.logged ++ [b] }

end State

def State.beginOp (s : State) : State := { s with trans := true, logged := [] }

def State.endOp (s : State) : State := { s with trans := false }

def beginOp : FsM Unit := modify State.beginOp

def endOp : FsM Unit := modify State.endOp

def logWrite (b : ℕ) : FsM Unit := do
  let s ← get
  if !s.trans then throw (.panic .logWriteOutsideTrans)
  set (s.log b)

def bzero (b : ℕ) : FsM Unit := do
  modify fun s => s.setData b fun _ => 0
  logWrite b

section
variable (sb : Superblock)

/-- The two loops of `balloc` look at the bits in order. -/
def balloc : FsM ℕ := do
  let s ← get
  match (List.range sb.size).find? fun b => !s.bitmap b with
  | none => throw (.panic .ballocOutOfBlocks)
  | some b => do
    set (s.setBit b true)
    logWrite (sb.bblock b)
    bzero b
    return b

def bfree (b : ℕ) : FsM Unit := do
  let s ← get
  if !s.bitmap b then throw (.panic .freeingFreeBlock)
  set (s.setBit b false)
  logWrite (sb.bblock b)

def iget (inum : ℕ) : FsM (Fin ninode) := do
  let s ← get
  match (List.finRange ninode).find? fun i => 0 < (s.inode i).ref ∧ (s.inode i).inum = inum with
  | some i => do
    set (s.setInode i { s.inode i with ref := (s.inode i).ref + 1 })
    return i
  | none =>
    match (List.finRange ninode).find? fun i => (s.inode i).ref = 0 with
    | none => throw (.panic .igetNoInodes)
    | some i => do
      set (s.setInode i { s.inode i with inum := inum, ref := 1, valid := false })
      return i

def ialloc (type : FileType) : FsM (Fin ninode) := do
  let s ← get
  match (List.range' 1 (sb.ninodes - 1)).find? fun inum => (s.dinode inum).type = .free with
  | none => throw (.panic .iallocNoInodes)
  | some inum => do
    set (s.setDinode inum { Dinode.zero with type := type })
    logWrite (sb.iblock inum)
    iget inum

def iupdate (i : Fin ninode) : FsM Unit := do
  modify fun s => s.setDinode (s.inode i).inum (s.din i)
  logWrite (sb.iblock ((← get).inode i).inum)

def idup (i : Fin ninode) : FsM (Fin ninode) := do
  modify fun s => s.setInode i { s.inode i with ref := (s.inode i).ref + 1 }
  return i

/-- A process that finds the lock of the inode held sleeps. -/
def ilock (i : Fin ninode) : FsM Unit := do
  let s ← get
  if (s.inode i).ref < 1 then throw (.panic .ilock)
  if (s.inode i).locked then throw .blocked
  if (s.inode i).valid then
    set (s.setInode i { s.inode i with locked := true })
  else do
    let d := s.dinode (s.inode i).inum
    set (s.setInode i { s.inode i with locked := true, valid := true, din := d })
    if d.type = .free then throw (.panic .ilockNoType)

def iunlock (i : Fin ninode) : FsM Unit := do
  let s ← get
  if !(s.inode i).locked || decide ((s.inode i).ref < 1) then throw (.panic .iunlock)
  set (s.setInode i { s.inode i with locked := false })

/-- The part of `bmap` once the indirect block is there. -/
def bmapIndirect (i : Fin ninode) (k : ℕ) : FsM ℕ := do
  let s ← get
  let ind := (s.din i).addrs ndirect
  let addr := (s.data ind).get (4 * k) 4
  if addr = 0 then do
    let addr ← balloc sb
    modify fun s => s.setData ind ((s.data ind).set (4 * k) 4 addr)
    logWrite ind
    return addr
  else return addr

/-- The address of block `bn` of the file; a block that is missing is allocated. -/
def bmap (i : Fin ninode) (bn : ℕ) : FsM ℕ := do
  let s ← get
  if bn < ndirect then
    if (s.din i).addrs bn = 0 then do
      let addr ← balloc sb
      modify fun s => s.setDin i { s.din i with addrs := update (s.din i).addrs bn addr }
      return addr
    else return (s.din i).addrs bn
  else if bn - ndirect < nindirect then do
    if (s.din i).addrs ndirect = 0 then do
      let addr ← balloc sb
      modify fun s => s.setDin i { s.din i with addrs := update (s.din i).addrs ndirect addr }
    bmapIndirect sb i (bn - ndirect)
  else throw (.panic .bmapOutOfRange)

def itruncDirect (i : Fin ninode) (k : ℕ) : FsM Unit := do
  let s ← get
  if (s.din i).addrs k ≠ 0 then do
    bfree sb ((s.din i).addrs k)
    modify fun s => s.setDin i { s.din i with addrs := update (s.din i).addrs k 0 }

def itrunc (i : Fin ninode) : FsM Unit := do
  (List.range ndirect).forM (itruncDirect sb i)
  let s ← get
  let ind := (s.din i).addrs ndirect
  if ind ≠ 0 then do
    (List.range nindirect).forM fun j => do
      let addr := (s.data ind).get (4 * j) 4
      if addr ≠ 0 then bfree sb addr
    bfree sb ind
    modify fun s => s.setDin i { s.din i with addrs := update (s.din i).addrs ndirect 0 }
  modify fun s => s.setDin i { s.din i with size := 0 }
  iupdate sb i

/-- The last reference to an inode without links frees it. -/
def iput (i : Fin ninode) : FsM Unit := do
  let s ← get
  let ip := s.inode i
  if ip.ref = 1 ∧ ip.valid ∧ ip.din.nlink = 0 then do
    if ip.locked then throw .blocked
    modify fun s => s.setInode i { s.inode i with locked := true }
    itrunc sb i
    modify fun s => s.setDin i { s.din i with type := .free }
    iupdate sb i
    modify fun s => s.setInode i { s.inode i with valid := false, locked := false }
  modify fun s => s.setInode i { s.inode i with ref := (s.inode i).ref - 1 }

def iunlockput (i : Fin ninode) : FsM Unit := do
  iunlock i
  iput sb i

/-- Where `readi` copies to: a kernel buffer, or an address of a process of which some pages
can be found. -/
inductive Dst
  | kernel
  | user (mapped : ℕ → Bool) (va : ℕ)

def eitherCopyout (dst : Dst) (mem : Bytes) (tot : ℕ) (src : Bytes) (len : ℕ) : Bool × Bytes :=
  match dst with
  | .kernel => (true, mem.blit tot len src)
  | .user mapped va => copyout (fun a => a < maxva && mapped a) mem ((va + tot) % 2 ^ 64) src len

/-- The loop of `readi`: `tot`, and the memory of the destination. Every turn reads a byte, so
`fuel` need not exceed `n`. -/
def readiLoop (i : Fin ninode) (dst : Dst) (n : ℕ) : ℕ → ℕ → ℕ → Bytes → FsM (ℕ × Bytes)
  | 0, tot, _, mem => return (tot, mem)
  | fuel + 1, tot, off, mem => do
    if tot < n then do
      let addr ← bmap sb i (off / bsize)
      let block := (← get).data addr
      let m := min (n - tot) (bsize - off % bsize)
      let (ok, mem) := eitherCopyout dst mem tot (fun k => block (off % bsize + k)) m
      if ok then readiLoop i dst n fuel (tot + m) (off + m) mem
      else return (tot, mem)
    else return (tot, mem)

def readi (i : Fin ninode) (dst : Dst) (mem : Bytes) (off n : ℕ) : FsM (ℕ × Bytes) := do
  let size := ((← get).din i).size
  if size < off ∨ (off + n) % 2 ^ 32 < off then return (0, mem)
  let n := if size < (off + n) % 2 ^ 32 then size - off else n
  readiLoop sb i dst n n 0 off mem

/-- Where `writei` copies from: the bytes at a kernel address, or an address of a process with
its user pages. -/
inductive Src
  | kernel (src : Bytes)
  | user (page : ℕ → Option Bytes) (va : ℕ)

def walkaddr (page : ℕ → Option Bytes) (va : ℕ) : Option Bytes := if maxva ≤ va then none else page va

def eitherCopyin (dst : Bytes) (d : ℕ) (src : Src) (tot len : ℕ) : Bool × Bytes :=
  match src with
  | .kernel src => (true, dst.blit d len fun k => src (tot + k))
  | .user page va => copyin (walkaddr page) dst d ((va + tot) % 2 ^ 64) len

/-- The loop of `writei`, with the offset it ends at. A fault leaves what was copied of the piece
in the block, unlogged. -/
def writeiLoop (i : Fin ninode) (src : Src) (n : ℕ) : ℕ → ℕ → ℕ → FsM ℕ
  | 0, _, off => return off
  | fuel + 1, tot, off => do
    if tot < n then do
      let addr ← bmap sb i (off / bsize)
      let s ← get
      let m := min (n - tot) (bsize - off % bsize)
      let (ok, block) := eitherCopyin (s.data addr) (off % bsize) src tot m
      set (s.setData addr block)
      if ok then do
        logWrite addr
        writeiLoop i src n fuel (tot + m) (off + m)
      else return off
    else return off

def writei (i : Fin ninode) (src : Src) (off n : ℕ) : FsM ℤ := do
  let size := ((← get).din i).size
  if size < off ∨ (off + n) % 2 ^ 32 < off then return -1
  if maxfile * bsize < (off + n) % 2 ^ 32 then return -1
  let off ← writeiLoop sb i src n n 0 off
  if 0 < n then do
    modify fun s => if (s.din i).size < off then s.setDin i { s.din i with size := off } else s
    iupdate sb i
  return n

end

end Xv6.Fs
