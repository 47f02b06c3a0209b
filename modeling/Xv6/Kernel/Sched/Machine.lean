import Xv6.Kernel.Param
import Mathlib.Data.Fintype.Basic
import Mathlib.Logic.Function.Basic
import Mathlib.Tactic.Simps.Basic

/-! `proc.c` on several CPUs: the scheduler, `sleep` and `wakeup`, `fork`, `exit`, `wait` and
`kill`, one step for each stretch of code between two points where another CPU can interfere.
These are the calls of `acquire`, the reads without a lock, and the switches. The code that
calls these functions is a parameter. -/
namespace Xv6.Sched

inductive ProcState
  | unused
  | sleeping
  | runnable
  | running
  | zombie
  deriving DecidableEq, Repr

/-- `p - proc` for a process `p`. -/
abbrev Slot := Fin nproc

/-- The process that `userinit` has made. -/
def initproc : Slot := ⟨0, nproc_pos⟩

/-- What a process can sleep on: a process, in `wait`, or something else. -/
inductive Chan (κ : Type)
  | proc (p : Slot)
  | other (chan : κ)
  deriving DecidableEq

/-- A step of the code that runs on top of `proc.c`, with what comes next. `run` is a stretch of
code that reads and writes data, reads `p->killed` and may depend on something that is not
modelled, here a number. An interrupt handler ends with `iret`. -/
inductive Instr (ι D κ Λ : Type)
  | acquire (lk : Λ) (next : ι)
  | release (lk : Λ) (next : ι)
  | run (f : D → Bool → ℕ → D × ι)
  | sleep (chan : κ) (lk : Λ) (next : ι)
  | wakeup (chan : κ) (next : ι)
  | kill (pid : ℤ) (next : Bool → ι)
  | fork (child : ι) (next : Option ℤ → ι)
  | exit (status : ℤ)
  | wait (addr : ℕ) (next : Option ℤ → ι)
  | iret

/-- The rest of the kernel: its code, the labels at which interrupt handlers begin, and what the
devices do to memory on their own, where a number says which of them and how. -/
structure Kernel (ι D κ Λ : Type) where
  code : ι → Instr ι D κ Λ
  handler : ι → Bool
  dma : D → ℕ → D

/-- Where a kernel thread is. Each constructor is a point of the function in its name, with the
local variables that are live there. -/
inductive Pc (ι κ Λ : Type)
  | code (l : ι)
  /-- `acquire(&p->lock)` -/
  | sleep (chan : κ) (lk : Λ) (next : ι)
  /-- `release(lk)` -/
  | sleepRelease (chan : κ) (lk : Λ) (next : ι)
  /-- `p->chan = chan; p->state = SLEEPING` -/
  | sleepMark (chan : κ) (lk : Λ) (next : ι)
  /-- after `sched()` -/
  | sleepTidy (lk : Λ) (next : ι)
  /-- `acquire(lk)` -/
  | sleepAcquire (lk : Λ) (next : ι)
  | wakeup (chan : κ) (i : ℕ) (next : ι)
  | kill (pid : ℤ) (i : ℕ) (next : Bool → ι)
  /-- `acquire(&p->lock)`, interrupted at `k` -/
  | yield (k : Pc ι κ Λ)
  /-- after `sched()` -/
  | yieldRelease (k : Pc ι κ Λ)
  /-- the loop of `allocproc` -/
  | alloc (i : ℕ) (child : ι) (next : Option ℤ → ι)
  /-- `found:` in `allocproc` -/
  | allocFound (np : Slot) (child : ι) (next : Option ℤ → ι)
  /-- `np->state = RUNNABLE` -/
  | forkRun (np : Slot) (next : Option ℤ → ι)
  | forkret (l : ι)
  /-- `acquire(&initproc->lock)` -/
  | exit (status : ℤ)
  /-- the copy of `p->parent` -/
  | exitParent (status : ℤ)
  /-- `acquire(&original_parent->lock)` -/
  | exitLock (status : ℤ) (parent : Option Slot)
  /-- `acquire(&p->lock)` -/
  | exitSelf (status : ℤ) (parent : Slot)
  /-- `if (pp->parent == p)` -/
  | reparent (status : ℤ) (parent : Slot) (i : ℕ)
  /-- `acquire(&pp->lock)` -/
  | reparentChild (status : ℤ) (parent : Slot) (pp : Slot)
  /-- `wakeup1(original_parent)` -/
  | exitZombie (status : ℤ) (parent : Slot)
  /-- `panic("zombie exit")` -/
  | zombieExit
  /-- `acquire(&p->lock)` -/
  | wait (addr : ℕ) (next : Option ℤ → ι)
  /-- `if (np->parent == p)` -/
  | waitScan (addr : ℕ) (i : ℕ) (havekids : Bool) (next : Option ℤ → ι)
  /-- `acquire(&np->lock)` -/
  | waitChild (addr : ℕ) (np : Slot) (next : Option ℤ → ι)
  /-- `sleep(p, &p->lock)` -/
  | waitSleep (addr : ℕ) (next : Option ℤ → ι)
  /-- after `sched()` -/
  | waitTidy (addr : ℕ) (next : Option ℤ → ι)
  /-- `sched()`, which returns to `k` -/
  | sched (k : Pc ι κ Λ)

/-- `lock` is the CPU that holds `p->lock`, and `pc` is where the kernel thread is: the saved
context, while no CPU runs it. -/
structure Proc (ι κ Λ C : Type) where
  state : ProcState
  parent : Option Slot
  chan : Option (Chan κ)
  killed : Bool
  xstate : ℤ
  pid : ℤ
  lock : Option C
  pc : Pc ι κ Λ

/-- What a CPU executes: the loop of `scheduler` at a process, the kernel thread of a process
or, for it, user code, or `scheduler` after `swtch` has returned. -/
inductive Loc
  | scan (i : Slot)
  | run (p : Slot)
  | back (p : Slot)
  deriving DecidableEq

/-- `c->proc`, what the CPU executes, and where it is in an interrupt handler. -/
structure Cpu (ι κ Λ : Type) where
  proc : Option Slot
  loc : Loc
  handler : Option (Pc ι κ Λ)

/-- What happens to processes: `fork` of `p` has made `np`, or frees it again; `p` calls `exit`,
gives `child` to init, and is a zombie; `wait` of `p` frees `np` and returns its pid, with the
status if that is copied out. -/
inductive Event
  | forked (p np : Slot) (pid : ℤ)
  | discarded (p np : Slot)
  | exiting (p : Slot) (status : ℤ)
  | abandoned (p child : Slot)
  | exited (p : Slot)
  | reaped (p np : Slot) (pid : ℤ) (status : Option ℤ)
  deriving DecidableEq

/-- The process table, the CPUs, the other spinlocks with their holders, the data they protect,
and what has happened, the newest first. -/
structure State (ι D κ Λ C : Type) where
  proc : Slot → Proc ι κ Λ C
  cpu : C → Cpu ι κ Λ
  lock : Λ → Option C
  data : D
  nextpid : ℤ
  log : List Event

section Step
variable {ι D κ Λ C : Type} [DecidableEq κ] [DecidableEq Λ] [Fintype Λ] [DecidableEq C]

@[simps cpu lock data log] def State.setProc (s : State ι D κ Λ C) (p : Slot) (f : Proc ι κ Λ C → Proc ι κ Λ C) :
    State ι D κ Λ C :=
  { s with proc := Function.update s.proc p (f (s.proc p)) }

@[simps! cpu lock data log] def State.setPc (s : State ι D κ Λ C) (p : Slot) (k : Pc ι κ Λ) : State ι D κ Λ C :=
  s.setProc p fun q => { q with pc := k }

@[simps proc lock data log] def State.setLoc (s : State ι D κ Λ C) (c : C) (proc : Option Slot) (loc : Loc) : State ι D κ Λ C :=
  { s with cpu := Function.update s.cpu c { s.cpu c with proc, loc } }

@[simps proc lock data log] def State.setHandler (s : State ι D κ Λ C) (c : C) (k : Option (Pc ι κ Λ)) : State ι D κ Λ C :=
  { s with cpu := Function.update s.cpu c { s.cpu c with handler := k } }

@[simps proc cpu data log] def State.setLock (s : State ι D κ Λ C) (lk : Λ) (h : Option C) : State ι D κ Λ C :=
  { s with lock := Function.update s.lock lk h }

@[simps] def State.note (s : State ι D κ Λ C) (e : Event) : State ι D κ Λ C := { s with log := e :: s.log }

section Fields
variable (s : State ι D κ Λ C) (p q : Slot) (f : Proc ι κ Λ C → Proc ι κ Λ C) (k : Pc ι κ Λ)

omit [DecidableEq κ] [DecidableEq Λ] [Fintype Λ] [DecidableEq C]

@[simp] theorem State.setProc_proc :
    (s.setProc p f).proc q = if q = p then f (s.proc q) else s.proc q := by
  unfold State.setProc
  by_cases h : q = p
  · subst h
    simp
  · simp [h]

@[simp] theorem State.setPc_proc :
    (s.setPc p k).proc q = if q = p then { s.proc q with pc := k } else s.proc q :=
  State.setProc_proc s p q _

end Fields

section Fields
variable (s : State ι D κ Λ C) (c : C) (p : Option Slot) (loc : Loc) (k : Option (Pc ι κ Λ))

omit [DecidableEq κ] [DecidableEq Λ] [Fintype Λ]

@[simp] theorem State.setLoc_cpu (c' : C) : (s.setLoc c p loc).cpu c' =
    if c' = c then { s.cpu c' with proc := p, loc } else s.cpu c' := by
  unfold State.setLoc
  by_cases h : c' = c
  · subst h
    simp
  · simp [h]

@[simp] theorem State.setHandler_cpu (c' : C) : (s.setHandler c k).cpu c' =
    if c' = c then { s.cpu c' with handler := k } else s.cpu c' := by
  unfold State.setHandler
  by_cases h : c' = c
  · subst h
    simp
  · simp [h]

theorem State.setHandler_loc (c' : C) : ((s.setHandler c k).cpu c').loc = (s.cpu c').loc := by
  rw [State.setHandler_cpu]
  split_ifs <;> rfl

theorem State.setHandler_curproc (c' : C) : ((s.setHandler c k).cpu c').proc = (s.cpu c').proc := by
  rw [State.setHandler_cpu]
  split_ifs <;> rfl

end Fields

/-- The critical section of `p->lock`: `acquire` spins while the lock is taken, and panics if
it is the CPU itself that has it. -/
def State.locked (s : State ι D κ Λ C) (c : C) (p : Slot) (body : Except Halt (State ι D κ Λ C)) :
    Except Halt (State ι D κ Λ C) :=
  match (s.proc p).lock with
  | none => body
  | some c' => .error (if c' = c then .panic .acquire else .blocked)

/-- `release(&p->lock)` panics if the CPU does not have the lock. -/
def State.holding (s : State ι D κ Λ C) (c : C) (p : Slot) (body : Except Halt (State ι D κ Λ C)) :
    Except Halt (State ι D κ Λ C) :=
  if (s.proc p).lock = some c then body else .error (.panic .release)

/-- `acquire` of another lock. -/
def State.acquire (s : State ι D κ Λ C) (c : C) (lk : Λ) : Except Halt (State ι D κ Λ C) :=
  match s.lock lk with
  | none => .ok (s.setLock lk (some c))
  | some c' => .error (if c' = c then .panic .acquire else .blocked)

/-- `release` of another lock. -/
def State.release (s : State ι D κ Λ C) (c : C) (lk : Λ) : Except Halt (State ι D κ Λ C) :=
  if s.lock lk = some c then .ok (s.setLock lk none) else .error (.panic .release)

/-- The CPU holds no spinlock, except that of `p`: by `push_off` and `pop_off`, `noff` counts the
locks that a CPU holds, and while it is not 0 interrupts are off. -/
def State.HoldsOnly (s : State ι D κ Λ C) (c : C) (p : Option Slot) : Prop :=
  (∀ q, (s.proc q).lock = some c → p = some q) ∧ ∀ lk, s.lock lk ≠ some c

instance (s : State ι D κ Λ C) (c : C) (p : Option Slot) : Decidable (s.HoldsOnly c p) :=
  inferInstanceAs (Decidable (_ ∧ _))

/-- `if (p->state == SLEEPING && p->chan == chan) p->state = RUNNABLE` -/
def Proc.wake (q : Proc ι κ Λ C) (chan : Chan κ) : Proc ι κ Λ C :=
  if q.state = .sleeping ∧ q.chan = some chan then { q with state := .runnable } else q

/-- `killed` is set, and the process wakes up from `sleep`. -/
def Proc.kill (q : Proc ι κ Λ C) : Proc ι κ Λ C :=
  { q with killed := true, state := if q.state = .sleeping then .runnable else q.state }

/-- `freeproc`, as far as it sets fields that are modelled. -/
def Proc.freeproc (q : Proc ι κ Λ C) : Proc ι κ Λ C :=
  { q with pid := 0, parent := none, chan := none, killed := false, xstate := 0, state := .unused }

/-- The loops over the table: `body` for the process at `i`, `done` after the last. -/
def forProc {α : Type} (i : ℕ) (body : Slot → α) (done : α) : α :=
  if h : i < nproc then body ⟨i, h⟩ else done

/-- The step of the kernel thread of `p` on CPU `c`. The number says how a part that is not
modelled goes: which allocation fails in `fork`, whether `copyout` does, and what `run` reads. -/
def stepThread (code : ι → Instr ι D κ Λ) (s : State ι D κ Λ C) (c : C) (n : ℕ) (p : Slot) :
    Pc ι κ Λ → Except Halt (State ι D κ Λ C)
  | .code l =>
    match code l with
    | .acquire lk next => (s.acquire c lk).map fun s => s.setPc p (.code next)
    | .release lk next => (s.release c lk).map fun s => s.setPc p (.code next)
    | .run f =>
      let r := f s.data (s.proc p).killed n
      .ok ({ s with data := r.1 }.setPc p (.code r.2))
    | .sleep chan lk next => .ok (s.setPc p (.sleep chan lk next))
    | .wakeup chan next => .ok (s.setPc p (.wakeup chan 0 next))
    | .kill pid next => .ok (s.setPc p (.kill pid 0 next))
    | .fork child next => .ok (s.setPc p (.alloc 0 child next))
    | .exit status =>
      if p = initproc then .error (.panic .initExiting)
      else .ok ((s.setPc p (.exit status)).note (.exiting p status))
    | .wait addr next => .ok (s.setPc p (.wait addr next))
    | .iret => .error (.panic .kerneltrap)
  | .sleep chan lk next => s.locked c p <|
    .ok (s.setProc p fun q => { q with lock := some c, pc := .sleepRelease chan lk next })
  | .sleepRelease chan lk next => (s.release c lk).map fun s => s.setPc p (.sleepMark chan lk next)
  | .sleepMark chan lk next => .ok (s.setProc p fun q =>
    { q with chan := some (.other chan), state := .sleeping, pc := .sched (.sleepTidy lk next) })
  | .sleepTidy lk next => s.holding c p <| .ok (s.setProc p fun q =>
    { q with chan := none, lock := none, pc := .sleepAcquire lk next })
  | .sleepAcquire lk next => (s.acquire c lk).map fun s => s.setPc p (.code next)
  | .wakeup chan i next =>
    forProc i (fun q => s.locked c q <|
        .ok ((s.setProc q fun r => r.wake (.other chan)).setPc p (.wakeup chan (i + 1) next)))
      (.ok (s.setPc p (.code next)))
  | .kill pid i next =>
    forProc i (fun q => s.locked c q <|
        if (s.proc q).pid = pid then .ok ((s.setProc q Proc.kill).setPc p (.code (next true)))
        else .ok (s.setPc p (.kill pid (i + 1) next)))
      (.ok (s.setPc p (.code (next false))))
  | .yield k => s.locked c p <|
    .ok (s.setProc p fun q => { q with lock := some c, state := .runnable, pc := .sched (.yieldRelease k) })
  | .yieldRelease k => s.holding c p <| .ok (s.setProc p fun q => { q with lock := none, pc := k })
  | .alloc i child next =>
    forProc i (fun q => s.locked c q <|
        if (s.proc q).state = .unused then
          .ok ((s.setProc q fun r => { r with lock := some c }).setPc p (.allocFound q child next))
        else .ok (s.setPc p (.alloc (i + 1) child next)))
      (.ok (s.setPc p (.code (next none))))
  | .allocFound np child next =>
    let s' := { s with nextpid := (s.nextpid + 1).bmod (2 ^ 32) }
    match n with
    -- no page for the trapframe
    | 0 => s.holding c np <| .ok ((s'.setProc np fun r => { r with pid := s.nextpid, lock := none }).setPc p
        (.code (next none)))
    -- no page for the page table, or for a copy of the user memory
    | 1 => s.holding c np <| .ok (((s'.setProc np fun r => { r.freeproc with lock := none }).setPc p
        (.code (next none))).note (.discarded p np))
    | _ => .ok ((s'.setProc np fun r =>
        { r with pid := s.nextpid, parent := some p, pc := .forkret child }).setPc p (.forkRun np next))
  | .forkRun np next =>
    let pid := (s.proc np).pid
    s.holding c np <| .ok (((s.setProc np fun r => { r with state := .runnable, lock := none }).setPc p
      (.code (next (some pid)))).note (.forked p np pid))
  | .forkret l => s.holding c p <| .ok (s.setProc p fun q => { q with lock := none, pc := .code l })
  | .exit status => s.locked c initproc <|
    .ok ((s.setProc initproc fun q => q.wake (.proc initproc)).setPc p (.exitParent status))
  | .exitParent status => s.locked c p <| .ok (s.setPc p (.exitLock status (s.proc p).parent))
  | .exitLock _ none => .error (.panic .kerneltrap)
  | .exitLock status (some parent) => s.locked c parent <|
    .ok ((s.setProc parent fun q => { q with lock := some c }).setPc p (.exitSelf status parent))
  | .exitSelf status parent => s.locked c p <|
    .ok (s.setProc p fun q => { q with lock := some c, pc := .reparent status parent 0 })
  | .reparent status parent i =>
    forProc i (fun pp =>
        if (s.proc pp).parent = some p then .ok (s.setPc p (.reparentChild status parent pp))
        else .ok (s.setPc p (.reparent status parent (i + 1))))
      (.ok (s.setPc p (.exitZombie status parent)))
  | .reparentChild status parent pp => s.locked c pp <|
    .ok (((s.setProc pp fun q => { q with parent := some initproc }).setPc p
      (.reparent status parent (pp + 1))).note (.abandoned p pp))
  | .exitZombie status parent =>
    if (s.proc parent).lock = some c then
      .ok (((s.setProc parent fun q => { q.wake (.proc parent) with lock := none }).setProc p fun q =>
        { q with xstate := status, state := .zombie, pc := .sched .zombieExit }).note (.exited p))
    else .error (.panic .wakeup1)
  | .zombieExit => .error (.panic .zombieExit)
  | .wait addr next => s.locked c p <|
    .ok (s.setProc p fun q => { q with lock := some c, pc := .waitScan addr 0 false next })
  | .waitScan addr i havekids next =>
    forProc i (fun np =>
        if (s.proc np).parent = some p then .ok (s.setPc p (.waitChild addr np next))
        else .ok (s.setPc p (.waitScan addr (i + 1) havekids next)))
      (if !havekids || (s.proc p).killed then
        s.holding c p <| .ok (s.setProc p fun q => { q with lock := none, pc := .code (next none) })
      else .ok (s.setPc p (.waitSleep addr next)))
  | .waitChild addr np next => s.locked c np <|
    if (s.proc np).state = .zombie then
      if addr ≠ 0 ∧ n = 0 then
        s.holding c p <| .ok (s.setProc p fun q => { q with lock := none, pc := .code (next none) })
      else
        let pid := (s.proc np).pid
        s.holding c p <| .ok (((s.setProc np Proc.freeproc).setProc p fun q =>
          { q with lock := none, pc := .code (next (some pid)) }).note
            (.reaped p np pid (if addr = 0 then none else some (s.proc np).xstate)))
    else .ok (s.setPc p (.waitScan addr (np + 1) true next))
  | .waitSleep addr next => .ok (s.setProc p fun q =>
    { q with chan := some (.proc p), state := .sleeping, pc := .sched (.waitTidy addr next) })
  | .waitTidy addr next => .ok (s.setProc p fun q =>
    { q with chan := none, pc := .waitScan addr 0 false next })
  | .sched k =>
    if (s.proc p).lock ≠ some c then .error (.panic .schedLock)
    else if ¬ s.HoldsOnly c (some p) then .error (.panic .schedLocks)
    else if (s.proc p).state = .running then .error (.panic .schedRunning)
    else .ok ((s.setPc p k).setLoc c (s.cpu c).proc (.back p))

/-- The step of an interrupt handler, which does not sleep and is not a process. -/
def stepHandler (code : ι → Instr ι D κ Λ) (s : State ι D κ Λ C) (c : C) (n : ℕ) :
    Pc ι κ Λ → Except Halt (State ι D κ Λ C)
  | .code l =>
    match code l with
    | .acquire lk next => (s.acquire c lk).map fun s => s.setHandler c (some (.code next))
    | .release lk next => (s.release c lk).map fun s => s.setHandler c (some (.code next))
    | .run f =>
      let r := f s.data false n
      .ok ({ s with data := r.1 }.setHandler c (some (.code r.2)))
    | .wakeup chan next => .ok (s.setHandler c (some (.wakeup chan 0 next)))
    | .iret => .ok (s.setHandler c none)
    | _ => .error (.panic .kerneltrap)
  | .wakeup chan i next =>
    forProc i (fun q => s.locked c q <|
        .ok ((s.setProc q fun r => r.wake (.other chan)).setHandler c (some (.wakeup chan (i + 1) next))))
      (.ok (s.setHandler c (some (.code next))))
  | _ => .error (.panic .kerneltrap)

/-- The next process in the loop of `scheduler`. -/
def Slot.next (i : Slot) : Slot := ⟨(i + 1) % nproc, Nat.mod_lt _ (by decide)⟩

/-- The step of `scheduler`. -/
def stepScheduler (s : State ι D κ Λ C) (c : C) : Loc → Except Halt (State ι D κ Λ C)
  | .scan i => s.locked c i <|
    if (s.proc i).state = .runnable then
      .ok ((s.setProc i fun q => { q with state := .running, lock := some c }).setLoc c (some i) (.run i))
    else .ok (s.setLoc c none (.scan i.next))
  | .back i => s.holding c i <| .ok ((s.setProc i fun q => { q with lock := none }).setLoc c none (.scan i.next))
  | .run _ => .error .blocked

/-- What happens on a CPU next: it goes on, or takes an interrupt, from the timer or from a device
with its handler at a label. Or a device does something. -/
inductive Act (ι : Type)
  | go (n : ℕ)
  | timer
  | device (l : ι)
  | dma (n : ℕ)

/-- A CPU takes a step. Interrupts are taken while it holds no lock; `yield` follows one from the
timer if it runs a process. -/
def step (K : Kernel ι D κ Λ) (s : State ι D κ Λ C) (a : C × Act ι) :
    Except Halt (State ι D κ Λ C) :=
  let c := a.1
  match a.2, (s.cpu c).handler, (s.cpu c).loc with
  | .dma n, _, _ => .ok { s with data := K.dma s.data n }
  | .go n, some k, _ => stepHandler K.code s c n k
  | .go n, none, .run p => stepThread K.code s c n p (s.proc p).pc
  | .go _, none, loc => stepScheduler s c loc
  | .timer, none, .run p =>
    if s.HoldsOnly c none ∧ (s.proc p).state = .running then .ok (s.setPc p (.yield (s.proc p).pc))
    else .error .blocked
  | .device l, none, _ =>
    if s.HoldsOnly c none ∧ K.handler l then .ok (s.setHandler c (some (.code l))) else .error .blocked
  | _, _, _ => .error .blocked

end Step

/-- The state in which the CPUs enter `scheduler`: `userinit` has made the first process. Where
the thread of a process was that has never been used does not matter. -/
def boot {ι D κ Λ C : Type} (data : D) (start : ι) : State ι D κ Λ C where
  proc p :=
    if p = initproc then
      { state := .runnable, parent := none, chan := none, killed := false, xstate := 0, pid := 1, lock := none,
        pc := .forkret start }
    else
      { state := .unused, parent := none, chan := none, killed := false, xstate := 0, pid := 0, lock := none,
        pc := .zombieExit }
  cpu _ := { proc := none, loc := .scan initproc, handler := none }
  lock _ := none
  data := data
  nextpid := 2
  log := []

end Xv6.Sched
