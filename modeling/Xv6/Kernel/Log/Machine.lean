import Xv6.Kernel.Bio.Cache
import Xv6.Kernel.Log.Header
import Xv6.Kernel.Vm.Copyin
import Xv6.Lib.Run
import Mathlib.Tactic.Simps.Basic

/-! The block layer as a machine. Every process runs the functions of `bio.c` and
`log.c` one critical section (or one disk transfer, or one access to a buffer it has
locked) at a time; a boot runs `recover_from_log` first. -/
namespace Xv6
open Lib Function

/-- Which of its three calls `write_head` returns to. -/
inductive HeadUse
  | commit
  | erase
  | recover
  deriving DecidableEq

/-- Which of its two calls `install_trans` returns to. -/
inductive Caller
  | commit
  | recover
  deriving DecidableEq

/-- The point a process has reached outside `bread` and `brelse`. -/
inductive Pc
  | user
  | logWrite (b : BufId)
  | commit
  | writeLog (tail : ℕ)
  | writeLogFrom (tail : ℕ) (toBuf : BufId)
  | writeLogCopy (tail : ℕ) (toBuf fromBuf : BufId)
  | writeLogPutFrom (tail : ℕ) (toBuf fromBuf : BufId)
  | writeLogPutTo (tail : ℕ) (toBuf : BufId)
  | writeHead (w : HeadUse)
  | writeHeadFill (w : HeadUse) (buf : BufId)
  | writeHeadPut (w : HeadUse) (buf : BufId)
  | installTrans (w : Caller) (tail : ℕ)
  | installTransDst (w : Caller) (tail : ℕ) (lbuf : BufId)
  | installTransCopy (w : Caller) (tail : ℕ) (lbuf dbuf : BufId)
  | installTransUnpin (w : Caller) (tail : ℕ) (lbuf dbuf : BufId)
  | installTransPutL (w : Caller) (tail : ℕ) (lbuf dbuf : BufId)
  | installTransPutD (w : Caller) (tail : ℕ) (dbuf : BufId)
  | clear (w : Caller)
  | wakeup
  | readHead
  | readHeadCopy (buf : BufId)
  | readHeadPut (buf : BufId)
  | recovered
  deriving DecidableEq

/-- The point a process has reached inside `bread` or `brelse`. -/
inductive Busy
  | none
  | getting (b : BufId)
  | filling (b : BufId)
  | putting (b : BufId)
  deriving DecidableEq

structure Proc where
  inOp : Bool
  pc : Pc
  busy : Busy
  deriving DecidableEq

/-- What a run shows of itself: operations, the contents they log, the contents `bread`
returns to them, the contents `write_log` copies, and the header write that commits. -/
inductive Event
  | beginOp (p : Pid)
  | endOp (p : Pid)
  | logWrite (p : Pid) (blockno : ℕ) (data : Block)
  | bread (p : Pid) (blockno : ℕ) (data : Block)
  | writeLog (blockno : ℕ) (data : Block)
  | commit

/-- `dirty`, `unpinned` and `trace` are bookkeeping that no step reads: the buffers
changed since their last `log_write`, how many entries of `log.lh` the commit or the
recovery under way has unpinned, and the events so far. -/
structure State where
  cache : Bcache
  log : Log
  disk : ℕ → Block
  proc : Pid → Proc
  booted : Bool
  dirty : BufId → Bool
  unpinned : ℕ
  trace : List Event

/-- What a process in user code may call, and `run` for the next step of a call. -/
inductive Act
  | bread (blockno : ℕ)
  | modify (b : BufId) (data : Block)
  | copyin (b : BufId) (walkaddr : ℕ → Option Bytes) (d srcva len : ℕ)
  | logWrite (b : BufId)
  | brelse (b : BufId)
  | beginOp
  | endOp
  | run

/-- `lh->n` and `lh->block[i]` in the header block. -/
def Block.header (b : Block) : List ℕ :=
  (List.range (Bytes.get b 0 4)).map fun i => Bytes.get b (4 * (i + 1)) 4

/-- `hb->block[i] = log.lh.block[i]` for the entries from `i` on. -/
def Block.setEntries (b : Block) (i : ℕ) : List ℕ → Block
  | [] => b
  | n :: lh => Block.setEntries (Bytes.set b (4 * (i + 1)) 4 n) (i + 1) lh

def Block.setHeader (b : Block) (lh : List ℕ) : Block :=
  Block.setEntries (Bytes.set b 0 4 lh.length) 0 lh

/-- Where a caller of `bread` goes on with the buffer it returns. -/
def Pc.got : Pc → BufId → Pc
  | .writeLog t, b => .writeLogFrom t b
  | .writeLogFrom t toBuf, b => .writeLogCopy t toBuf b
  | .writeHead w, b => .writeHeadFill w b
  | .installTrans w t, b => .installTransDst w t b
  | .installTransDst w t l, b => .installTransCopy w t l b
  | .readHead, b => .readHeadCopy b
  | pc, _ => pc

namespace State

@[simps -fullyApplied] def setProc (s : State) (p : Pid) (pr : Proc) : State :=
  { s with proc := update s.proc p pr }

@[simps -fullyApplied] def goto (s : State) (p : Pid) (pc : Pc) : State :=
  { s with proc := update s.proc p { s.proc p with pc } }

@[simps -fullyApplied] def wait (s : State) (p : Pid) (busy : Busy) : State :=
  { s with proc := update s.proc p { s.proc p with busy } }

@[simps -fullyApplied] def emit (s : State) (e : Event) : State := { s with trace := s.trace ++ [e] }

@[simps -fullyApplied] def setBuf (s : State) (i : BufId) (f : Buf → Buf) : State :=
  { s with cache := s.cache.update i f }

/-- `bread` as far as the first critical section of `bget`. -/
def bread (s : State) (p : Pid) (blockno : ℕ) : Except Halt State :=
  match s.cache.bget blockno with
  | .ok (i, cache) => .ok ({ s with cache }.wait p (.getting i))
  | .error e => .error e

/-- The rest of `bread` once `b->lock` is held. -/
def fill (s : State) (p : Pid) (i : BufId) : State :=
  let s := if (s.cache.buf i).valid then s
    else s.setBuf i fun b => { b with data := s.disk b.blockno, valid := true }
  let pr := s.proc p
  let s := if pr.pc = .user then
      s.emit (.bread p (s.cache.buf i).blockno (s.cache.buf i).data) else s
  s.setProc p { pr with pc := pr.pc.got i, busy := .none }

/-- `memmove(b->data, data, BSIZE)`, then the transfer to the disk. -/
@[simps -fullyApplied] def store (s : State) (i : BufId) (data : Block) : State :=
  { s with cache := s.cache.update i fun b => { b with data }
           disk := update s.disk (s.cache.buf i).blockno data }

/-- `memmove(b->data, data, BSIZE); bwrite(b)` -/
def bwrite (s : State) (p : Pid) (i : BufId) (data : Block) : Except Halt State :=
  if (s.cache.buf i).lock = some p then .ok (s.store i data) else .error (.panic .bwrite)

/-- `brelse` as far as `releasesleep`; its caller goes on at `pc`. -/
def brelse (s : State) (p : Pid) (i : BufId) (pc : Pc) : Except Halt State :=
  if (s.cache.buf i).lock = some p then
    .ok ((s.setBuf i fun b => { b with lock := none }).setProc p
      { s.proc p with pc, busy := .putting i })
  else .error (.panic .brelse)

/-- Where `write_head` returns. -/
def afterHead : HeadUse → Pc
  | .commit => .installTrans .commit 0
  | .erase => .wakeup
  | .recover => .recovered

/-- The `write_head` that follows `log.lh.n = 0`. -/
def afterClear : Caller → HeadUse
  | .commit => .erase
  | .recover => .recover

/-- The next step of the function that process `p` is in. -/
def runPc (s : State) (p : Pid) : Pc → Except Halt State
  | .user => .error .blocked
  | .logWrite b =>
    let buf := s.cache.buf b
    let cache := if buf.blockno ∈ s.log.lh then s.cache else s.cache.bpin b
    let s := { s with cache, log := s.log.logWrite buf.blockno,
                      dirty := update s.dirty b false }
    .ok ((s.emit (.logWrite p buf.blockno buf.data)).goto p .user)
  | .commit => .ok (s.goto p (if 0 < s.log.lh.length then .writeLog 0 else .wakeup))
  | .writeLog t =>
    if t < s.log.lh.length then s.bread p (s.log.start + t + 1)
    else .ok (s.goto p (.writeHead .commit))
  | .writeLogFrom t _ => s.bread p (s.log.lh.getD t 0)
  | .writeLogCopy t toBuf fromBuf => do
    let buf := s.cache.buf fromBuf
    let s ← s.bwrite p toBuf buf.data
    return (s.emit (.writeLog buf.blockno buf.data)).goto p (.writeLogPutFrom t toBuf fromBuf)
  | .writeLogPutFrom t toBuf fromBuf => s.brelse p fromBuf (.writeLogPutTo t toBuf)
  | .writeLogPutTo t toBuf => s.brelse p toBuf (.writeLog (t + 1))
  | .writeHead _ => s.bread p s.log.start
  | .writeHeadFill w b => do
    let s ← s.bwrite p b (Block.setHeader (s.cache.buf b).data s.log.lh)
    return (if w = .commit then s.emit .commit else s).goto p (.writeHeadPut w b)
  | .writeHeadPut w b => s.brelse p b (afterHead w)
  | .installTrans w t =>
    if t < s.log.lh.length then s.bread p (s.log.start + t + 1)
    else .ok (s.goto p (.clear w))
  | .installTransDst _ t _ => s.bread p (s.log.lh.getD t 0)
  | .installTransCopy w t l d => do
    let s ← s.bwrite p d (s.cache.buf l).data
    return s.goto p (.installTransUnpin w t l d)
  | .installTransUnpin w t l d =>
    .ok ({ s with cache := s.cache.bunpin d, unpinned := s.unpinned + 1 }.goto p
      (.installTransPutL w t l d))
  | .installTransPutL w t l d => s.brelse p l (.installTransPutD w t d)
  | .installTransPutD w t d => s.brelse p d (.installTrans w (t + 1))
  | .clear w =>
    .ok ({ s with log := { s.log with lh := [] },
                  unpinned := if w = Caller.commit then 0 else s.unpinned }.goto p
      (.writeHead (afterClear w)))
  | .wakeup => .ok ({ s with log := { s.log with committing := false } }.goto p .user)
  | .readHead => s.bread p s.log.start
  | .readHeadCopy b =>
    .ok ({ s with log := { s.log with lh := Block.header (s.cache.buf b).data } }.goto p
      (.readHeadPut b))
  | .readHeadPut b => s.brelse p b (.installTrans .recover 0)
  | .recovered => .ok ({ s with booted := true, unpinned := 0 }.goto p .user)

def run (s : State) (p : Pid) : Except Halt State :=
  match (s.proc p).busy with
  | .none => s.runPc p (s.proc p).pc
  | .getting i =>
    if (s.cache.buf i).lock = none then
      .ok ((s.setBuf i fun b => { b with lock := some p }).wait p (.filling i))
    else .error .blocked
  | .filling i => .ok (s.fill p i)
  | .putting i => .ok ({ s with cache := s.cache.put i }.wait p .none)

/-- A call by a process in user code. -/
def call (s : State) (p : Pid) : Act → Except Halt State
  | .bread n => s.bread p n
  | .modify b data =>
    if (s.cache.buf b).lock = some p then
      .ok { s.setBuf b (fun x => { x with data }) with dirty := update s.dirty b true }
    else .error .blocked
  | .copyin b walkaddr d srcva len =>
    if (s.cache.buf b).lock = some p then
      let (ok, data) := Xv6.copyin walkaddr (s.cache.buf b).data d srcva len
      .ok { s.setBuf b (fun x => { x with data }) with
            dirty := if ok then update s.dirty b true else s.dirty }
    else .error .blocked
  | .logWrite b => do
    s.log.logWriteCheck
    return s.goto p (.logWrite b)
  | .brelse b => s.brelse p b .user
  | .beginOp => do
    let log ← s.log.beginOp
    return ({ s with log }.setProc p { s.proc p with inOp := true }).emit (.beginOp p)
  | .endOp => do
    let (log, doCommit) ← s.log.endOp
    return ({ s with log }.setProc p
      { inOp := false, pc := if doCommit then .commit else .user, busy := .none }).emit (.endOp p)
  | .run => .error .blocked

end State

def step (s : State) : Pid × Act → Except Halt State
  | (p, .run) => s.run p
  | (p, a) =>
    if s.booted ∧ (s.proc p).pc = .user ∧ (s.proc p).busy = .none then s.call p a
    else .error .blocked

/-- The process that runs `recover_from_log`. -/
def first : Pid := ⟨0, nproc_pos⟩

/-- The first process in the kernel that boots on `disk`, with the log that `mkfs` lays
out: `logstart = 2`, `nlog = LOGSIZE`. -/
def boot (disk : ℕ → Block) : State where
  cache := Bcache.binit
  log := Log.init 2 logSize
  disk
  proc p := { inOp := false, pc := if p.val = 0 then .readHead else .user, busy := .none }
  booted := false
  dirty _ := false
  unpinned := 0
  trace := []

end Xv6
