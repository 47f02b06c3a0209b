import Xv6.Kernel.Proc.Table

/-! `proc.c`: the calls that create, resize and free processes. The registers in a trapframe
are left out. -/
namespace Xv6.Vm
open Lib

/-- `proc_pagetable` for a process with its trapframe in page `pa`. -/
def procPagetable (pa : Page) : K (Option Pagetable) := do
  match ← uvmcreate with
  | none => return none
  | some t =>
    let (t, mapped) ← mappages t trampoline pgsize .trampoline permRX
    if !mapped then
      uvmfree t 0
      return none
    let (t, mapped) ← mappages t trapframe pgsize (.page pa) permRW
    if !mapped then
      let t ← uvmunmap t trampoline 1 false
      uvmfree t 0
      return none
    return some t

def procFreepagetable (t : Pagetable) (sz : ℕ) : K Unit := do
  let t ← uvmunmap t trampoline 1 false
  let t ← uvmunmap t trapframe 1 false
  uvmfree t sz

def freeproc (i : Fin nproc) : Kern Unit := do
  let s ← get
  let p := s.proc i
  p.trapframe.elim (pure ()) fun pa => onMem (kfree (.page pa))
  p.pagetable.elim (pure ()) fun t => onMem (procFreepagetable t p.sz)
  setProc i { Proc.free with ofile := p.ofile }

def allocpid : Kern ℕ := do
  let s ← get
  set { s with nextpid := s.nextpid + 1 }
  return s.nextpid

def allocproc : Kern (Option (Fin nproc)) := do
  let s ← get
  match (List.finRange nproc).find? fun i => (s.proc i).state = .unused with
  | none => return none
  | some i =>
    let pid ← allocpid
    let p := { s.proc i with pid }
    setProc i p
    match ← onMem kalloc with
    | none =>
      setProc i { p with trapframe := none }
      return none
    | some pa =>
      let p := { p with trapframe := some pa }
      setProc i p
      match ← onMem (procPagetable pa) with
      | none =>
        setProc i { p with pagetable := none }
        freeproc i
        return none
      | some t =>
        setProc i { p with pagetable := some t }
        return some i

/-- The page that `kalloc` returns is not checked, and neither is whether it is mapped. -/
def uvminit (t : Pagetable) (src : Bytes) : Kern Pagetable := do
  let mem ← deref (← onMem kalloc)
  onMem (fill (.page mem) src)
  let (t, _) ← onMem (mappages t 0 pgsize (.page mem) permRWXU)
  return t

/-- `userinit`, with `initcode` in a page of zeros. -/
def userinit (initcode : Bytes) : Kern Unit := do
  let i ← allocproc
  modify fun s => { s with initproc := i }
  let i ← deref i
  let s ← get
  let t ← deref (s.proc i).pagetable
  let t ← uvminit t initcode
  setProc i { s.proc i with pagetable := some t, sz := pgsize, state := .runnable }

/-- `sys_sbrk`: `growproc` with its `uint sz`, which takes the size modulo 2³². The flag is
whether it returns 0. -/
def growproc (i : Fin nproc) (n : ℤ) : Kern Bool := do
  let s ← get
  let p := s.proc i
  let t ← deref p.pagetable
  let sz := p.sz % 2 ^ 32
  let newsz := ((sz + n) % 2 ^ 32).toNat
  if 0 < n then
    let (t, sz) ← onMem (uvmalloc t sz newsz)
    let sz := sz % 2 ^ 32
    if sz = 0 then
      setProc i { p with pagetable := some t }
      return false
    setProc i { p with pagetable := some t, sz }
    return true
  else if n < 0 then
    let (t, sz) ← onMem (uvmdealloc t sz newsz)
    setProc i { p with pagetable := some t, sz := sz % 2 ^ 32 }
    return true
  else
    setProc i { p with sz }
    return true

/-- `np->ofile[fd] = filedup(p->ofile[fd])` for the open ones. -/
def forkFile (i j : Fin nproc) (fd : Fin nofile) : Kern Unit := do
  let s ← get
  ((s.proc i).ofile fd).elim (pure ()) fun f => do
    filedup f
    setOfile j fd (some f)

/-- The pid of the child, or `none` for -1. -/
def fork (i : Fin nproc) : Kern (Option ℕ) := do
  match ← allocproc with
  | none => return none
  | some j =>
    let s ← get
    let np := s.proc j
    let old ← deref (s.proc i).pagetable
    let new ← deref np.pagetable
    let (new, copied) ← onMem (uvmcopy old new (s.proc i).sz)
    let np := { np with pagetable := some new }
    if !copied then
      setProc j np
      freeproc j
      return none
    setProc j { np with sz := (s.proc i).sz, parent := some i }
    (List.finRange nofile).forM (forkFile i j)
    updProc j fun np => { np with state := .runnable }
    return some np.pid

/-- `reparent` gives the children of `i` to init. -/
def reparent (i : Fin nproc) : Kern Unit :=
  modify fun s => { s with proc := fun j =>
    if (s.proc j).parent = some i then { s.proc j with parent := s.initproc } else s.proc j }

/-- `fileclose(p->ofile[fd]); p->ofile[fd] = 0` for an open one. -/
def exitFile (i : Fin nproc) (fd : Fin nofile) : Kern Unit := do
  let s ← get
  ((s.proc i).ofile fd).elim (pure ()) fun f => do
    fileclose f
    setOfile i fd none

def exit (i : Fin nproc) (status : ℕ) : Kern Unit := do
  let s ← get
  if s.initproc = some i then throw (.panic .initExiting)
  (List.finRange nofile).forM (exitFile i)
  reparent i
  updProc i fun p => { p with xstate := status, state := .zombie }

/-- The pid of a child that has exited, `none` for -1; while there are only children that
have not exited, the process sleeps. -/
def wait (i : Fin nproc) (addr : ℕ) : Kern (Option ℕ) := do
  let s ← get
  let children := (List.finRange nproc).filter fun j => (s.proc j).parent = some i
  match children.find? fun j => (s.proc j).state = .zombie with
  | some j =>
    let t ← deref (s.proc i).pagetable
    let copied ← if addr = 0 then pure true
      else onMem (copyout t addr (intBytes (s.proc j).xstate) 4)
    if !copied then return none
    freeproc j
    return some (s.proc j).pid
  | none =>
    if children = [] then return none
    throw .blocked

end Xv6.Vm
