import Xv6.Kernel.Sched.Calls
import Xv6.Lib.Fifo
import Mathlib.Tactic

/-! `virtio_disk.c`: `virtio_disk_rw` by any number of processes, `virtio_disk_intr` on any CPU, and
the device. -/
namespace Xv6.Virtio
open Lib Sched Function

/-- `NUM` -/
def num : ℕ := 8

instance : NeZero num := ⟨by decide⟩

/-- What a descriptor points to: nothing, the header of a request, the data of a buffer, or
`disk.info[i].status`. -/
inductive Addr
  | null
  | header (write : Bool) (sector : ℕ)
  | data (b : ℕ)
  | status (i : Fin num)
  deriving DecidableEq

/-- `VRING_DESC_F_NEXT` -/
def descFNext : BitVec 16 := 1

/-- `VRING_DESC_F_WRITE` -/
def descFWrite : BitVec 16 := 2

/-- `struct VRingDesc` -/
structure Desc where
  addr : Addr
  len : ℕ
  flags : BitVec 16
  next : BitVec 16

/-- An element of `disk.info` -/
structure Info where
  b : Option ℕ
  status : UInt8

/-- The panics of this file, and an access to what does not exist. -/
inductive Panic
  | intr1
  | intr2
  | intrStatus
  | fault
  deriving DecidableEq

/-- What the driver shares with the device: `avail[1]` is `availIdx`, and `used->id` is `usedId`.
Then how far the driver has looked in `used->elems`, and what the device knows: how far it has
looked in `avail`, the requests it has taken, and the one that it has stored in `used->elems`
without having told so. Last, the requests with their numbers: how many there have been, the last
one that begins with a descriptor, those that are complete, and those that `virtio_disk_intr` has
dealt with. -/
structure Rings where
  avail : Fin num → BitVec 16
  availIdx : BitVec 16
  elems : Fin num → BitVec 32
  usedId : BitVec 16
  usedIdx : BitVec 16
  seen : BitVec 16
  pending : List (BitVec 16)
  storing : Option (BitVec 16)
  issued : ℕ
  request : Fin num → ℕ
  completed : List ℕ
  processed : List ℕ

/-- `struct disk`, and the fields `disk`, `blockno` and `lock.locked` of the buffers. -/
structure Disk extends Rings where
  free : Fin num → Bool
  desc : Fin num → Desc
  info : Fin num → Info
  disk : ℕ → Bool
  blockno : ℕ → ℕ
  locked : ℕ → Bool

namespace Disk

/-- `virtio_disk_init`. The counters begin at 0, which nothing depends on. -/
def init (blockno : ℕ → ℕ) (n : BitVec 16) : Disk where
  free _ := true
  desc _ := { addr := .null, len := 0, flags := 0, next := 0 }
  avail _ := 0
  availIdx := n
  elems _ := 0
  usedId := n
  usedIdx := n % 8
  info _ := { b := none, status := 0 }
  disk _ := false
  blockno := blockno
  locked _ := false
  seen := n
  pending := []
  storing := none
  issued := 0
  request _ := 0
  completed := []
  processed := []

/-- `alloc_desc` -/
def allocDesc (d : Disk) : Option (Fin num × Disk) :=
  (List.finRange num).find? d.free |>.map fun i => (i, { d with free := update d.free i false })

/-- The loop of `alloc3_desc`, as far as `alloc_desc` finds a descriptor. -/
def allocDescs (d : Disk) : ℕ → List (Fin num) × Disk
  | 0 => ([], d)
  | n + 1 =>
    match d.allocDesc with
    | none => ([], d)
    | some (i, d') =>
      let r := d'.allocDescs n
      (i :: r.1, r.2)

/-- `free_desc`, without the `wakeup`. -/
def freeDesc (d : Disk) (i : ℕ) : Except Panic (Fin num × Disk) :=
  if h : i < num then
    if d.free ⟨i, h⟩ then .error .intr2
    else .ok (⟨i, h⟩, { d with
      desc := update d.desc ⟨i, h⟩ { d.desc ⟨i, h⟩ with addr := .null }
      free := update d.free ⟨i, h⟩ true })
  else .error .intr1

end Disk

/-- `int idx[3]` -/
structure Idx where
  i0 : Fin num
  i1 : Fin num
  i2 : Fin num

def Idx.toList (idx : Idx) : List (Fin num) := [idx.i0, idx.i1, idx.i2]

/-- The index of a descriptor, as it is stored. -/
def enc (w : ℕ) (i : Fin num) : BitVec w := BitVec.ofNat w i

/-- The descriptor that the device finds there. -/
def dec (i : BitVec 16) : Option (Fin num) := if h : i.toNat < num then some ⟨_, h⟩ else none

namespace Disk

/-- The three descriptors are set, `b->disk` and `disk.info[idx[0]]`. -/
def format (d : Disk) (b : ℕ) (write : Bool) (idx : Idx) : Disk :=
  let desc := update d.desc idx.i0
    { addr := .header write (d.blockno b * 2), len := 16, flags := descFNext, next := enc 16 idx.i1 }
  let desc := update desc idx.i1
    { addr := .data b, len := 1024, flags := (if write then 0 else descFWrite) ||| descFNext, next := enc 16 idx.i2 }
  let desc := update desc idx.i2 { addr := .status idx.i0, len := 1, flags := descFWrite, next := 0 }
  { d with desc, disk := update d.disk b true, info := update d.info idx.i0 { b := some b, status := 0 } }

/-- `disk.avail[1] = disk.avail[1] + 1`, which makes a request of it. -/
def notify (d : Disk) (i : Fin num) : Disk :=
  { d with
    availIdx := d.availIdx + 1
    issued := d.issued + 1
    request := update d.request i d.issued }

/-- The body of the loop of `virtio_disk_intr` up to the `wakeup`, with what is woken up. -/
def complete (d : Disk) : Except Panic (ℕ × Disk) :=
  if h : d.usedIdx.toNat < num then
    let id := d.elems ⟨_, h⟩
    if h : id.toNat < num then
      let i : Fin num := ⟨_, h⟩
      if (d.info i).status ≠ 0 then .error .intrStatus
      else
        match (d.info i).b with
        | none => .error .fault
        | some b => .ok (b, { d with disk := update d.disk b false, processed := d.processed ++ [d.request i] })
    else .error .fault
  else .error .fault

/-- The device writes the status 0 where the third descriptor of a chain says. -/
def writeStatus (d : Disk) (head : BitVec 16) : Disk :=
  match (dec head).bind fun i => (dec (d.desc i).next).bind fun i => dec (d.desc i).next with
  | none => d
  | some i =>
    match (d.desc i).addr with
    | .status j => { d with info := update d.info j { d.info j with status := 0 } }
    | _ => d

end Disk

namespace Rings

/-- The device takes a request. -/
def take (q : Rings) : Rings :=
  if q.seen = q.availIdx then q
  else { q with seen := q.seen + 1, pending := q.pending ++ [q.avail (cell num q.seen)] }

/-- It stores a request that is complete, the `k`th of those it has taken. -/
def store (q : Rings) (k : ℕ) (head : BitVec 16) : Rings :=
  { q with
    elems := update q.elems (cell num q.usedId) (head.setWidth 32)
    pending := q.pending.eraseIdx k
    storing := some head }

/-- It increments `used->id`. -/
def publish (q : Rings) : Rings :=
  match q.storing with
  | none => q
  | some head => { q with
      usedId := q.usedId + 1
      storing := none
      completed := q.completed ++ ((dec head).map q.request).toList }

end Rings

/-- What the device does next, by a number. -/
def Disk.device (d : Disk) (n : ℕ) : Disk :=
  match n % 3 with
  | 0 => { d with toRings := d.take }
  | 1 =>
    match d.storing, d.pending[n / 3]? with
    | none, some head => { d.writeStatus head with toRings := d.store (n / 3) head }
    | _, _ => d
  | _ => { d with toRings := d.publish }

/-- `&disk.free[0]` or a buffer -/
inductive Chan
  | free
  | buf (b : ℕ)
  deriving DecidableEq

/-- Places in `virtio_disk_rw` and `virtio_disk_intr`, with the local variables. Two more
are there to follow what happens: `r` is the number of the request, and `rest` is what is left of
its chain. -/
inductive Place
  /-- `acquiresleep(&b->lock)`, before the call -/
  | lock (b : ℕ) (write : Bool)
  | rw (b : ℕ) (write : Bool)
  /-- `alloc3_desc` -/
  | alloc (b : ℕ) (write : Bool)
  /-- `for (int j = 0; j < i; j++) free_desc(idx[j])` -/
  | undo (b : ℕ) (write : Bool) (idx : List (Fin num))
  | undoWake (b : ℕ) (write : Bool) (idx : List (Fin num))
  | allocSleep (b : ℕ) (write : Bool)
  | format (b : ℕ) (write : Bool) (idx : Idx)
  /-- `disk.avail[2 + (disk.avail[1] % NUM)] = idx[0]` -/
  | avail (b : ℕ) (idx : Idx)
  | notify (b : ℕ) (idx : Idx)
  /-- `while (b->disk == 1)` -/
  | wait (b : ℕ) (idx : Idx) (r : ℕ)
  | waitSleep (b : ℕ) (idx : Idx) (r : ℕ)
  /-- `free_desc(i)` in `free_chain` -/
  | free (b : ℕ) (i : ℕ) (rest : List (Fin num)) (r : ℕ)
  | freeWake (b : ℕ) (i : Fin num) (rest : List (Fin num)) (r : ℕ)
  /-- `if (disk.desc[i].flags & VRING_DESC_F_NEXT)` -/
  | freeNext (b : ℕ) (i : Fin num) (rest : List (Fin num)) (r : ℕ)
  | done (b : ℕ) (r : ℕ)
  /-- `releasesleep(&b->lock)`, after the call -/
  | unlock (b : ℕ) (r : ℕ)
  | intr
  /-- the test and the body of the loop -/
  | intrWhile
  | intrWake (b : ℕ)
  /-- `disk.used_idx = (disk.used_idx + 1) % NUM` -/
  | intrNext
  | intrDone
  | iret
  | panic (why : Panic)

/-- Who wants a buffer that is locked tries again later. -/
def code : Place → Instr (Label Place) Disk Chan Unit
  | .lock b write => .run fun d _ _ =>
      if d.locked b then (d, .user) else ({ d with locked := update d.locked b true }, .sys (.rw b write))
  | .rw b write => .acquire () (.sys (.alloc b write))
  | .alloc b write => .run fun d _ _ =>
      match d.allocDescs 3 with
      | ([i0, i1, i2], d') => (d', .sys (.format b write ⟨i0, i1, i2⟩))
      | (idx, d') => (d', .sys (.undo b write idx))
  | .undo b write [] => .run fun d _ _ => (d, .sys (.allocSleep b write))
  | .undo b write (i :: idx) => .run fun d _ _ =>
      match d.freeDesc i with
      | .ok (_, d') => (d', .sys (.undoWake b write idx))
      | .error why => (d, .sys (.panic why))
  | .undoWake b write idx => .wakeup .free (.sys (.undo b write idx))
  | .allocSleep b write => .sleep .free () (.sys (.alloc b write))
  | .format b write idx => .run fun d _ _ => (d.format b write idx, .sys (.avail b idx))
  | .avail b idx => .run fun d _ _ =>
      ({ d with avail := update d.avail (cell num d.availIdx) (enc 16 idx.i0) }, .sys (.notify b idx))
  | .notify b idx => .run fun d _ _ => (d.notify idx.i0, .sys (.wait b idx d.issued))
  | .wait b idx r => .run fun d _ _ =>
      if d.disk b then (d, .sys (.waitSleep b idx r))
      else ({ d with info := update d.info idx.i0 { d.info idx.i0 with b := none } }, .sys (.free b idx.i0 idx.toList r))
  | .waitSleep b idx r => .sleep (.buf b) () (.sys (.wait b idx r))
  | .free b i rest r => .run fun d _ _ =>
      match d.freeDesc i with
      | .ok (i, d') => (d', .sys (.freeWake b i rest.tail r))
      | .error why => (d, .sys (.panic why))
  | .freeWake b i rest r => .wakeup .free (.sys (.freeNext b i rest r))
  | .freeNext b i rest r => .run fun d _ _ => (d, .sys
      (if (d.desc i).flags &&& descFNext ≠ 0 then .free b (d.desc i).next.toNat rest r else .done b r))
  | .done b r => .release () (.sys (.unlock b r))
  | .unlock b _ => .run fun d _ _ => ({ d with locked := update d.locked b false }, .user)
  | .intr => .acquire () (.sys .intrWhile)
  | .intrWhile => .run fun d _ _ =>
      if cell num d.usedIdx ≠ cell num d.usedId then
        match d.complete with
        | .ok (b, d') => (d', .sys (.intrWake b))
        | .error why => (d, .sys (.panic why))
      else (d, .sys .intrDone)
  | .intrWake b => .wakeup (.buf b) (.sys .intrNext)
  | .intrNext => .run fun d _ _ => ({ d with usedIdx := (d.usedIdx + 1) % 8 }, .sys .intrWhile)
  | .intrDone => .release () (.sys .iret)
  | .iret => .iret
  | .panic why => .run fun d _ _ => (d, .sys (.panic why))

def calls : Calls Place Disk Chan Unit where
  call m := .lock (m / 2) (m % 2 = 0)
  code := code
  handler
    | .intr => true
    | _ => false
  dma := Disk.device

def locks : Place → List Unit
  | .lock .. | .rw .. | .unlock .. | .intr | .iret => []
  | _ => [()]

theorem balanced : calls.kernel.Balanced (Label.locks locks) := by
  refine Calls.balanced (fun l => ?_) (fun n => rfl) (fun l => ?_) fun l hl => ?_
  · cases l <;> simp [locks]
  · cases l with
    | lock b write | wait b idx r | freeNext b i rest r =>
      intro d _ _
      dsimp only
      split_ifs <;> rfl
    | alloc b write | free b i rest r =>
      intro d _ _
      dsimp only
      split <;> rfl
    | undo b write idx =>
      cases idx with
      | nil => exact fun _ _ _ => rfl
      | cons i idx =>
        intro d _ _
        dsimp only
        split <;> rfl
    | intrWhile =>
      intro d _ _
      dsimp only
      split_ifs
      · split <;> rfl
      · rfl
    | allocSleep b write | waitSleep b idx r => exact ⟨rfl, rfl⟩
    | format b write idx | avail b idx | notify b idx | unlock b r | intrNext | panic why => exact fun _ _ _ => rfl
    | _ => rfl
  · cases l <;> first | rfl | cases hl

end Xv6.Virtio
