import Mathlib.Algebra.GroupWithZero.Nat

/-! Constants of `param.h`, `fs.h` and `memlayout.h`, and the ways the kernel can stop. -/
namespace Xv6

def nproc : ℕ := 64
def nofile : ℕ := 16
def nfile : ℕ := 100
def maxOpBlocks : ℕ := 10
def logSize : ℕ := maxOpBlocks * 3
def ninode : ℕ := 50
def nbuf : ℕ := maxOpBlocks * 3
def rootDev : ℕ := 1
def bsize : ℕ := 1024
def kernbase : ℕ := 0x80000000
def phystop : ℕ := kernbase + 128 * 1024 * 1024

theorem nproc_pos : 0 < nproc := by decide

instance : NeZero nproc := ⟨by decide⟩
instance : NeZero nofile := ⟨by decide⟩
instance : NeZero nfile := ⟨by decide⟩
instance : NeZero ninode := ⟨by decide⟩

/-- The `panic` calls of the modelled functions. -/
inductive Panic
  | tooBigTransaction
  | logWriteOutsideTrans
  | logCommitting
  | bgetNoBuffers
  | bwrite
  | brelse
  | kfree
  | walk
  | remap
  | uvmunmapNotAligned
  | uvmunmapWalk
  | uvmunmapNotMapped
  | uvmunmapNotALeaf
  | freewalkLeaf
  | uvmcopyPteShouldExist
  | uvmcopyPageNotPresent
  | uvmclear
  | loadsegNotAligned
  | loadsegAddressShouldExist
  | kalloc
  | kvmmap
  | initExiting
  | fileclose
  | filedup
  | kerneltrap
  | acquire
  | release
  | wakeup1
  | schedLock
  | schedLocks
  | schedRunning
  | zombieExit
  | ballocOutOfBlocks
  | freeingFreeBlock
  | iallocNoInodes
  | igetNoInodes
  | ilock
  | ilockNoType
  | iunlock
  | bmapOutOfRange
  | fileread
  | filewrite
  | shortFilewrite
  | dirlookupNotDir
  | dirlookupRead
  | dirlinkRead
  | dirlink
  | unlinkNlink
  | unlinkWritei
  | isdiremptyReadi
  | createDots
  | createDirlink
  deriving DecidableEq, Repr

/-- Why a process makes no step: it sleeps (or the step is not its to make), or the
kernel has stopped. -/
inductive Halt
  | blocked
  | panic (why : Panic)
  deriving DecidableEq, Repr

end Xv6
