import Xv6.Kernel.Console.Copy
import Xv6.Kernel.Fs.Boot
import Xv6.Kernel.Pipe.Read

/-! `fileread` on files of every type, with the memory of the process that reads. -/
namespace Xv6.Fs
open Lib
open Vm (walks)

/-- What is behind the files that are not inodes, and what it is each time the process wakes up. -/
structure Ends where
  killed : Bool
  pipe : Pipe
  pipeWakes : List (Pipe × Bool)
  /-- `devsw[f->major].read` is `consoleread`; other devices have none. -/
  console : Bool
  cons : Console.Cons
  consWakes : List (Console.Cons × Bool)

/-- What a call leaves: its value, the memory, and the other end of the file. `copied` is what
`consoleread` has copied out. -/
structure Reply where
  value : ℤ
  mem : Bytes
  pipe : Pipe
  cons : Console.Cons
  copied : List UInt8

/-- `fileread`. It has not returned while the process is asleep. -/
def Ends.fileread (e : Ends) (sb : Superblock) (f : Fin nfile) (mapped : ℕ → Bool) (mem : Bytes) (addr : ℕ) (n : ℤ) :
    SysM (Option Reply) := do
  let g := (← get).file f
  if !g.readable then return some ⟨-1, mem, e.pipe, e.cons, []⟩
  match g.type with
  | .none => throw (.panic .fileread)
  | .pipe => return (Pipe.piperead mapped addr n e.pipe e.killed e.pipeWakes mem).map fun (r, d, mem) => ⟨r, mem, d, e.cons, []⟩
  | .device =>
    if !e.console then return some ⟨-1, mem, e.pipe, e.cons, []⟩
    return (Console.consoleread mapped addr n e.cons e.killed e.consWakes mem).map fun a =>
      ⟨a.value, a.mem, e.pipe, a.cons, a.copied⟩
  | .inode => do
    let (r, mem) ← Fs.fileread sb f mapped mem addr n 0
    return some ⟨r, mem, e.pipe, e.cons, []⟩

/-- Where the bytes of a read come from: the file from its offset on, the ring of the pipe, or what
`consoleread` has taken out of `cons.buf`. -/
inductive Origin (s : Sys) (f : Fin nfile) (e : Ends) (a : Reply) : Bytes → Prop
  | inode (ht : (s.file f).type = .inode) :
      Origin s f e a fun k => s.fs.disk.byte (s.fs.inode (s.file f).ip).inum ((s.file f).off + k)
  | pipe (ht : (s.file f).type = .pipe) (d : Pipe) (hd : d ∈ e.pipe :: e.pipeWakes.map Prod.fst) :
      Origin s f e a fun k => d.data (cell pipesize (d.nread + BitVec.ofNat 32 k))
  | device (ht : (s.file f).type = .device) : Origin s f e a fun k => a.copied.getD k 0

/-- A read of `n` bytes stores nothing outside of them, and returns -1 or the number of those that
it has delivered, by which the offset of an inode has moved. -/
structure Reads (s : Sys) (f : Fin nfile) (e : Ends) (mapped : ℕ → Bool) (mem : Bytes) (addr n : ℕ) (a : Reply) (s' : Sys) :
    Prop where
  frame : ∀ x, x < addr ∨ addr + n ≤ x → a.mem x = mem x
  value : a.value = -1 ∨ ∃ k src, a.value = (k : ℕ) ∧ Origin s f e a src ∧ Received (walks mapped) addr n src mem k a.mem
  off : (s'.file f).off = (s.file f).off + if (s.file f).type = .inode then a.value.toNat else 0

section
variable {sb : Superblock} {s : Sys} {f : Fin nfile} {e : Ends} {mapped : ℕ → Bool} {mem : Bytes} {addr : ℕ} {n : ℤ}

theorem reads_pipe (ht : (s.file f).type = .pipe) (haddr : addr < 2 ^ 64) {r : ℤ} {d : Pipe} {mem' : Bytes}
    (h : Pipe.piperead mapped addr n e.pipe e.killed e.pipeWakes mem = some (r, d, mem')) :
    Reads s f e mapped mem addr n.toNat ⟨r, mem', d, e.cons, []⟩ s := by
  have hoff : (s.file f).off = (s.file f).off + if (s.file f).type = .inode then r.toNat else 0 := by simp [ht]
  obtain ⟨rfl, rfl, -⟩ | ⟨go, hgo, j, hj, rfl, -, rfl, -⟩ := Pipe.piperead_spec haddr h
  · exact ⟨fun _ _ => rfl, .inl rfl, hoff⟩
  · have hrec := received_blit (walks mapped) addr
      (fun q => go.data (cell pipesize (go.nread + BitVec.ofNat 32 q))) mem (show j ≤ n.toNat by omega)
    exact ⟨hrec.frame, .inr ⟨j, _, rfl, .pipe ht go hgo, hrec⟩, hoff⟩

theorem reads_console (ht : (s.file f).type = .device) (haddr : addr < 2 ^ 64) {a : Console.Answer}
    (h : Console.consoleread mapped addr n e.cons e.killed e.consWakes mem = some a) :
    Reads s f e mapped mem addr n.toNat ⟨a.value, a.mem, e.pipe, a.cons, a.copied⟩ s := by
  obtain ⟨hv, hle, hmem⟩ := Console.consoleread_spec haddr h
  have hrec := received_blit (walks mapped) addr (fun k => a.copied.getD k 0) mem hle
  rw [← hmem] at hrec
  exact ⟨hrec.frame, hv.imp_right fun hv => ⟨_, _, hv, .device ht, hrec⟩, by simp [ht]⟩

end

def noEnds : Ends where
  killed := false
  pipe := .pipealloc (fun _ => 0) 0
  pipeWakes := []
  console := false
  cons := ⟨fun _ => 0, 0, 0, 0⟩
  consWakes := []

/-- `/a` gets three bytes and is opened once more. -/
def threeBytes : List (Fin nproc × Syscall) :=
  [(0, .open (some pathA) (oCreate + oRdwr)), (0, .write 0 (fun _ => some fun _ => 7) 0 3 0), (0, .open (some pathA) oRdwr)]

/-- The call has returned 3, and has stored 7 at 4097. -/
def stored : Except Halt (Option Reply × Sys) → Bool
  | .ok (some b, _) => decide (b.value = 3 ∧ b.mem 4097 = 7)
  | _ => false

end Xv6.Fs
