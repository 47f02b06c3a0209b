import Xv6.Kernel.Sched.Machine
import Mathlib.Tactic

/-! What a step can do, with all that has been tested on the way. -/
namespace Xv6.Sched

variable {ι D κ Λ C : Type} [DecidableEq κ]

/-- Where a call of a function of `proc.c` begins. -/
def Instr.entry : Instr ι D κ Λ → Option (Pc ι κ Λ)
  | .sleep chan lk next => some (.sleep chan lk next)
  | .wakeup chan next => some (.wakeup chan 0 next)
  | .kill pid next => some (.kill pid 0 next)
  | .fork child next => some (.alloc 0 child next)
  | .wait addr next => some (.wait addr next)
  | _ => none

section
variable (code : ι → Instr ι D κ Λ) (s : State ι D κ Λ C) (c : C) (n : ℕ) (p : Slot) [DecidableEq Λ]

/-- The steps of the thread of `p` on CPU `c`. -/
inductive ThreadTrans : Pc ι κ Λ → State ι D κ Λ C → Prop
  | acquire {l lk next} : code l = .acquire lk next → s.lock lk = none →
    ThreadTrans (.code l) ((s.setLock lk (some c)).setPc p (.code next))
  | release {l lk next} : code l = .release lk next → s.lock lk = some c →
    ThreadTrans (.code l) ((s.setLock lk none).setPc p (.code next))
  | run {l f} : code l = .run f → ThreadTrans (.code l) ({ s with data := (f s.data (s.proc p).killed n).1 }.setPc p
        (.code (f s.data (s.proc p).killed n).2))
  | call {l k} : (code l).entry = some k → ThreadTrans (.code l) (s.setPc p k)
  | exiting {l status} : code l = .exit status → p ≠ initproc →
    ThreadTrans (.code l) ((s.setPc p (.exit status)).note (.exiting p status))
  | sleep {chan lk next} : (s.proc p).lock = none → ThreadTrans (.sleep chan lk next)
      (s.setProc p fun q => { q with lock := some c, pc := .sleepRelease chan lk next })
  | sleepRelease {chan lk next} : s.lock lk = some c → ThreadTrans (.sleepRelease chan lk next)
      ((s.setLock lk none).setPc p (.sleepMark chan lk next))
  | sleepMark {chan lk next} : ThreadTrans (.sleepMark chan lk next) (s.setProc p fun q =>
      { q with chan := some (.other chan), state := .sleeping, pc := .sched (.sleepTidy lk next) })
  | sleepTidy {lk next} : (s.proc p).lock = some c → ThreadTrans (.sleepTidy lk next)
      (s.setProc p fun q => { q with chan := none, lock := none, pc := .sleepAcquire lk next })
  | sleepAcquire {lk next} : s.lock lk = none → ThreadTrans (.sleepAcquire lk next)
      ((s.setLock lk (some c)).setPc p (.code next))
  | wakeup {chan next} {q : Slot} : (s.proc q).lock = none → ThreadTrans (.wakeup chan q next)
      ((s.setProc q fun r => r.wake (.other chan)).setPc p (.wakeup chan (q + 1) next))
  | wakeupDone {chan i next} : nproc ≤ i → ThreadTrans (.wakeup chan i next) (s.setPc p (.code next))
  | killHit {pid next} {q : Slot} : (s.proc q).lock = none → (s.proc q).pid = pid →
    ThreadTrans (.kill pid q next) ((s.setProc q Proc.kill).setPc p (.code (next true)))
  | killMiss {pid next} {q : Slot} : (s.proc q).lock = none → (s.proc q).pid ≠ pid →
    ThreadTrans (.kill pid q next) (s.setPc p (.kill pid (q + 1) next))
  | killDone {pid i next} : nproc ≤ i → ThreadTrans (.kill pid i next) (s.setPc p (.code (next false)))
  | yield {k} : (s.proc p).lock = none → ThreadTrans (.yield k) (s.setProc p fun q =>
      { q with lock := some c, state := .runnable, pc := .sched (.yieldRelease k) })
  | yieldRelease {k} : (s.proc p).lock = some c → ThreadTrans (.yieldRelease k)
      (s.setProc p fun q => { q with lock := none, pc := k })
  | allocUnused {child next} {q : Slot} : (s.proc q).lock = none → (s.proc q).state = .unused →
    ThreadTrans (.alloc q child next)
      ((s.setProc q fun r => { r with lock := some c }).setPc p (.allocFound q child next))
  | allocUsed {child next} {q : Slot} : (s.proc q).lock = none → (s.proc q).state ≠ .unused →
    ThreadTrans (.alloc q child next) (s.setPc p (.alloc (q + 1) child next))
  | allocDone {i child next} : nproc ≤ i → ThreadTrans (.alloc i child next) (s.setPc p (.code (next none)))
  | noTrapframe {np child next} : (s.proc np).lock = some c → n = 0 → ThreadTrans (.allocFound np child next)
      (({ s with nextpid := (s.nextpid + 1).bmod (2 ^ 32) }.setProc np
        fun r => { r with pid := s.nextpid, lock := none }).setPc p (.code (next none)))
  | noMemory {np child next} : (s.proc np).lock = some c → ThreadTrans (.allocFound np child next)
      ((({ s with nextpid := (s.nextpid + 1).bmod (2 ^ 32) }.setProc np
        fun r => { r.freeproc with lock := none }).setPc p (.code (next none))).note (.discarded p np))
  | allocFound {np child next} : ThreadTrans (.allocFound np child next)
      (({ s with nextpid := (s.nextpid + 1).bmod (2 ^ 32) }.setProc np
        fun r => { r with pid := s.nextpid, parent := some p, pc := .forkret child }).setPc p (.forkRun np next))
  | forkRun {np next} : (s.proc np).lock = some c → ThreadTrans (.forkRun np next)
      (((s.setProc np fun r => { r with state := .runnable, lock := none }).setPc p
        (.code (next (some (s.proc np).pid)))).note (.forked p np (s.proc np).pid))
  | forkret {l} : (s.proc p).lock = some c → ThreadTrans (.forkret l)
      (s.setProc p fun q => { q with lock := none, pc := .code l })
  | exit {status} : (s.proc initproc).lock = none → ThreadTrans (.exit status)
      ((s.setProc initproc fun q => q.wake (.proc initproc)).setPc p (.exitParent status))
  | exitParent {status} : (s.proc p).lock = none → ThreadTrans (.exitParent status)
      (s.setPc p (.exitLock status (s.proc p).parent))
  | exitLock {status parent} : (s.proc parent).lock = none → ThreadTrans (.exitLock status (some parent))
      ((s.setProc parent fun q => { q with lock := some c }).setPc p (.exitSelf status parent))
  | exitSelf {status parent} : (s.proc p).lock = none → ThreadTrans (.exitSelf status parent)
      (s.setProc p fun q => { q with lock := some c, pc := .reparent status parent 0 })
  | reparentHit {status parent} {pp : Slot} : (s.proc pp).parent = some p →
    ThreadTrans (.reparent status parent pp) (s.setPc p (.reparentChild status parent pp))
  | reparentMiss {status parent} {pp : Slot} : (s.proc pp).parent ≠ some p →
    ThreadTrans (.reparent status parent pp) (s.setPc p (.reparent status parent (pp + 1)))
  | reparentDone {status parent i} : nproc ≤ i →
    ThreadTrans (.reparent status parent i) (s.setPc p (.exitZombie status parent))
  | reparentChild {status parent pp} : (s.proc pp).lock = none → ThreadTrans (.reparentChild status parent pp)
      (((s.setProc pp fun q => { q with parent := some initproc }).setPc p
        (.reparent status parent (pp + 1))).note (.abandoned p pp))
  | exitZombie {status parent} : (s.proc parent).lock = some c → ThreadTrans (.exitZombie status parent)
      (((s.setProc parent fun q => { q.wake (.proc parent) with lock := none }).setProc p fun q =>
        { q with xstate := status, state := .zombie, pc := .sched .zombieExit }).note (.exited p))
  | wait {addr next} : (s.proc p).lock = none → ThreadTrans (.wait addr next)
      (s.setProc p fun q => { q with lock := some c, pc := .waitScan addr 0 false next })
  | waitHit {addr havekids next} {np : Slot} : (s.proc np).parent = some p →
    ThreadTrans (.waitScan addr np havekids next) (s.setPc p (.waitChild addr np next))
  | waitMiss {addr havekids next} {np : Slot} : (s.proc np).parent ≠ some p →
    ThreadTrans (.waitScan addr np havekids next)
      (s.setPc p (.waitScan addr (np + 1) havekids next))
  | waitReturn {addr i havekids next} : nproc ≤ i → (s.proc p).lock = some c →
    ThreadTrans (.waitScan addr i havekids next)
      (s.setProc p fun q => { q with lock := none, pc := .code (next none) })
  | waitDone {addr i next} : nproc ≤ i → (s.proc p).killed = false →
    ThreadTrans (.waitScan addr i true next) (s.setPc p (.waitSleep addr next))
  | waitAlive {addr np next} : (s.proc np).lock = none → (s.proc np).state ≠ .zombie →
    ThreadTrans (.waitChild addr np next) (s.setPc p (.waitScan addr (np + 1) true next))
  | waitFault {addr np next} : (s.proc np).lock = none → (s.proc np).state = .zombie →
    (s.proc p).lock = some c → ThreadTrans (.waitChild addr np next)
      (s.setProc p fun q => { q with lock := none, pc := .code (next none) })
  | waitReap {addr np next} : (s.proc np).lock = none → (s.proc np).state = .zombie →
    (s.proc p).lock = some c → ThreadTrans (.waitChild addr np next)
      (((s.setProc np Proc.freeproc).setProc p fun q =>
        { q with lock := none, pc := .code (next (some (s.proc np).pid)) }).note
          (.reaped p np (s.proc np).pid (if addr = 0 then none else some (s.proc np).xstate)))
  | waitSleep {addr next} : ThreadTrans (.waitSleep addr next) (s.setProc p fun q =>
      { q with chan := some (.proc p), state := .sleeping, pc := .sched (.waitTidy addr next) })
  | waitTidy {addr next} : ThreadTrans (.waitTidy addr next) (s.setProc p fun q =>
      { q with chan := none, pc := .waitScan addr 0 false next })

end

section
variable {s s' : State ι D κ Λ C} {c : C}

omit [DecidableEq κ] in
theorem forProc_eq_ok {i : ℕ} {body : Slot → Except Halt (State ι D κ Λ C)}
    {done : Except Halt (State ι D κ Λ C)} (h : forProc i body done = .ok s') :
    (∃ q : Slot, i = q ∧ body q = .ok s') ∨ nproc ≤ i ∧ done = .ok s' := by
  unfold forProc at h
  split_ifs at h with hi
  · exact .inl ⟨⟨i, hi⟩, rfl, h⟩
  · exact .inr ⟨not_lt.mp hi, h⟩

variable [DecidableEq C]

omit [DecidableEq κ] in
theorem locked_eq_ok {p : Slot} {body : Except Halt (State ι D κ Λ C)} (h : s.locked c p body = .ok s') :
    (s.proc p).lock = none ∧ body = .ok s' := by
  unfold State.locked at h
  split at h
  · exact ⟨‹_›, h⟩
  · cases h

omit [DecidableEq κ] in
theorem holding_eq_ok {p : Slot} {body : Except Halt (State ι D κ Λ C)} (h : s.holding c p body = .ok s') :
    (s.proc p).lock = some c ∧ body = .ok s' := by
  unfold State.holding at h
  split_ifs at h with hl
  exact ⟨hl, h⟩

variable [DecidableEq Λ]

omit [DecidableEq κ] in
theorem acquire_eq_ok {lk : Λ} {f : State ι D κ Λ C → State ι D κ Λ C}
    (h : (s.acquire c lk).map f = .ok s') : s.lock lk = none ∧ f (s.setLock lk (some c)) = s' := by
  unfold State.acquire at h
  split at h
  · exact ⟨‹_›, Except.ok.inj h⟩
  · cases h

omit [DecidableEq κ] in
theorem release_eq_ok {lk : Λ} {f : State ι D κ Λ C → State ι D κ Λ C}
    (h : (s.release c lk).map f = .ok s') : s.lock lk = some c ∧ f (s.setLock lk none) = s' := by
  unfold State.release at h
  split_ifs at h with hl
  · exact ⟨hl, Except.ok.inj h⟩
  · cases h

/-- The steps of an interrupt handler on CPU `c`. -/
inductive HandlerTrans (code : ι → Instr ι D κ Λ) (s : State ι D κ Λ C) (c : C) (n : ℕ) :
    Pc ι κ Λ → State ι D κ Λ C → Prop
  | acquire {l lk next} : code l = .acquire lk next → s.lock lk = none →
    HandlerTrans code s c n (.code l) ((s.setLock lk (some c)).setHandler c (some (.code next)))
  | release {l lk next} : code l = .release lk next → s.lock lk = some c →
    HandlerTrans code s c n (.code l) ((s.setLock lk none).setHandler c (some (.code next)))
  | run {l f} : code l = .run f → HandlerTrans code s c n (.code l)
      ({ s with data := (f s.data false n).1 }.setHandler c (some (.code (f s.data false n).2)))
  | call {l chan next} : code l = .wakeup chan next →
    HandlerTrans code s c n (.code l) (s.setHandler c (some (.wakeup chan 0 next)))
  | iret {l} : code l = .iret → HandlerTrans code s c n (.code l) (s.setHandler c none)
  | wakeup {chan next} {q : Slot} : (s.proc q).lock = none →
    HandlerTrans code s c n (.wakeup chan q next)
      ((s.setProc q fun r => r.wake (.other chan)).setHandler c (some (.wakeup chan (q + 1) next)))
  | wakeupDone {chan i next} : nproc ≤ i →
    HandlerTrans code s c n (.wakeup chan i next) (s.setHandler c (some (.code next)))

theorem handler_cases {code : ι → Instr ι D κ Λ} {n : ℕ} {k : Pc ι κ Λ}
    (h : stepHandler code s c n k = .ok s') : HandlerTrans code s c n k s' := by
  cases k with
  | code l =>
    unfold stepHandler at h
    cases hl : code l <;> simp only [hl] at h
    case acquire lk next =>
      obtain ⟨hlk, rfl⟩ := acquire_eq_ok h
      exact .acquire hl hlk
    case release lk next =>
      obtain ⟨hlk, rfl⟩ := release_eq_ok h
      exact .release hl hlk
    case run f =>
      cases h
      exact .run hl
    case wakeup chan next =>
      cases h
      exact .call hl
    case iret =>
      cases h
      exact .iret hl
    all_goals cases h
  | wakeup chan i next =>
    rw [stepHandler] at h
    obtain ⟨q, rfl, h⟩ | ⟨hi, h⟩ := forProc_eq_ok h
    · obtain ⟨hl, h⟩ := locked_eq_ok h
      cases h
      exact .wakeup hl
    · cases h
      exact .wakeupDone hi
  | _ => cases h

variable [Fintype Λ]

theorem thread_trans {code : ι → Instr ι D κ Λ} {n : ℕ} {p : Slot} {k : Pc ι κ Λ}
    (h : stepThread code s c n p k = .ok s') (hk : ∀ k', k ≠ .sched k') : ThreadTrans code s c n p k s' := by
  cases k with
  | code l =>
    unfold stepThread at h
    cases hl : code l <;> simp only [hl] at h
    case acquire lk next =>
      obtain ⟨hlk, rfl⟩ := acquire_eq_ok h
      exact .acquire hl hlk
    case release lk next =>
      obtain ⟨hlk, rfl⟩ := release_eq_ok h
      exact .release hl hlk
    case run f =>
      cases h
      exact .run hl
    case exit status =>
      split_ifs at h with hp
      cases h
      exact .exiting hl hp
    case iret => cases h
    all_goals
      cases h
      exact .call (by rw [hl]; rfl)
  | sleep chan lk next =>
    obtain ⟨hl, h⟩ := locked_eq_ok h
    cases h
    exact .sleep hl
  | sleepRelease chan lk next =>
    obtain ⟨hl, rfl⟩ := release_eq_ok h
    exact .sleepRelease hl
  | sleepMark chan lk next =>
    cases h
    exact .sleepMark
  | sleepTidy lk next =>
    obtain ⟨hl, h⟩ := holding_eq_ok h
    cases h
    exact .sleepTidy hl
  | sleepAcquire lk next =>
    obtain ⟨hl, rfl⟩ := acquire_eq_ok h
    exact .sleepAcquire hl
  | wakeup chan i next =>
    rw [stepThread] at h
    obtain ⟨q, rfl, h⟩ | ⟨hi, h⟩ := forProc_eq_ok h
    · obtain ⟨hl, h⟩ := locked_eq_ok h
      cases h
      exact .wakeup hl
    · cases h
      exact .wakeupDone hi
  | kill pid i next =>
    rw [stepThread] at h
    obtain ⟨q, rfl, h⟩ | ⟨hi, h⟩ := forProc_eq_ok h
    · obtain ⟨hl, h⟩ := locked_eq_ok h
      split_ifs at h with hpid <;> cases h
      · exact .killHit hl hpid
      · exact .killMiss hl hpid
    · cases h
      exact .killDone hi
  | yield k =>
    obtain ⟨hl, h⟩ := locked_eq_ok h
    cases h
    exact .yield hl
  | yieldRelease k =>
    obtain ⟨hl, h⟩ := holding_eq_ok h
    cases h
    exact .yieldRelease hl
  | alloc i child next =>
    rw [stepThread] at h
    obtain ⟨q, rfl, h⟩ | ⟨hi, h⟩ := forProc_eq_ok h
    · obtain ⟨hl, h⟩ := locked_eq_ok h
      split_ifs at h with hst <;> cases h
      · exact .allocUnused hl hst
      · exact .allocUsed hl hst
    · cases h
      exact .allocDone hi
  | allocFound np child next =>
    match n, h with
    | 0, h =>
      obtain ⟨hl, h⟩ := holding_eq_ok h
      cases h
      exact .noTrapframe hl rfl
    | 1, h =>
      obtain ⟨hl, h⟩ := holding_eq_ok h
      cases h
      exact .noMemory hl
    | _ + 2, h =>
      cases h
      exact .allocFound
  | forkRun np next =>
    obtain ⟨hl, h⟩ := holding_eq_ok h
    cases h
    exact .forkRun hl
  | forkret l =>
    obtain ⟨hl, h⟩ := holding_eq_ok h
    cases h
    exact .forkret hl
  | exit status =>
    obtain ⟨hl, h⟩ := locked_eq_ok h
    cases h
    exact .exit hl
  | exitParent status =>
    obtain ⟨hl, h⟩ := locked_eq_ok h
    cases h
    exact .exitParent hl
  | exitLock status parent =>
    cases parent with
    | none => cases h
    | some parent =>
      obtain ⟨hl, h⟩ := locked_eq_ok h
      cases h
      exact .exitLock hl
  | exitSelf status parent =>
    obtain ⟨hl, h⟩ := locked_eq_ok h
    cases h
    exact .exitSelf hl
  | reparent status parent i =>
    rw [stepThread] at h
    obtain ⟨q, rfl, h⟩ | ⟨hi, h⟩ := forProc_eq_ok h
    · split_ifs at h with hpp <;> cases h
      · exact .reparentHit hpp
      · exact .reparentMiss hpp
    · cases h
      exact .reparentDone hi
  | reparentChild status parent pp =>
    obtain ⟨hl, h⟩ := locked_eq_ok h
    cases h
    exact .reparentChild hl
  | exitZombie status parent =>
    rw [stepThread] at h
    split_ifs at h with hl
    cases h
    exact .exitZombie hl
  | zombieExit => cases h
  | wait addr next =>
    obtain ⟨hl, h⟩ := locked_eq_ok h
    cases h
    exact .wait hl
  | waitScan addr i havekids next =>
    rw [stepThread] at h
    obtain ⟨q, rfl, hq⟩ | ⟨hi, hd⟩ := forProc_eq_ok h
    · split_ifs at hq with hnp <;> cases hq
      · exact .waitHit hnp
      · exact .waitMiss hnp
    · split_ifs at hd with hk
      · obtain ⟨hl, hd⟩ := holding_eq_ok hd
        cases hd
        exact .waitReturn hi hl
      · obtain ⟨rfl, hkilled⟩ : havekids = true ∧ (s.proc p).killed = false := by simpa using hk
        cases hd
        exact .waitDone hi hkilled
  | waitChild addr np next =>
    obtain ⟨hnp, h⟩ := locked_eq_ok h
    by_cases hst : (s.proc np).state = .zombie
    · rw [if_pos hst] at h
      split at h
      · obtain ⟨hl, h⟩ := holding_eq_ok h
        cases h
        exact .waitFault hnp hst hl
      · obtain ⟨hl, h⟩ := holding_eq_ok h
        cases h
        exact .waitReap hnp hst hl
    · rw [if_neg hst] at h
      cases h
      exact .waitAlive hnp hst
  | waitSleep addr next =>
    cases h
    exact .waitSleep
  | waitTidy addr next =>
    cases h
    exact .waitTidy
  | sched k => exact absurd rfl (hk k)

/-- A step of a thread is one of the transitions, or the switch to the scheduler. -/
theorem thread_cases {code : ι → Instr ι D κ Λ} {n : ℕ} {p : Slot} {k : Pc ι κ Λ}
    (h : stepThread code s c n p k = .ok s') :
    ThreadTrans code s c n p k s' ∨ ∃ k', k = .sched k' ∧ (s.proc p).lock = some c ∧
      s.HoldsOnly c (some p) ∧ (s.proc p).state ≠ .running ∧
      s' = (s.setPc p k').setLoc c (s.cpu c).proc (.back p) := by
  by_cases hk : ∀ k', k ≠ .sched k'
  · exact .inl (thread_trans h hk)
  obtain ⟨k, rfl⟩ := not_forall_not.mp hk
  rw [stepThread] at h
  split_ifs at h with hl ho hst
  cases h
  exact .inr ⟨k, rfl, not_not.mp hl, ho, hst, rfl⟩

/-- The steps of the machine on CPU `c`. -/
inductive Trans (K : Kernel ι D κ Λ) (s : State ι D κ Λ C) (c : C) : Act ι → State ι D κ Λ C → Prop
  | thread {n p s'} : (s.cpu c).handler = none → (s.cpu c).loc = .run p →
    ThreadTrans K.code s c n p (s.proc p).pc s' → Trans K s c (.go n) s'
  | handler {n k s'} : (s.cpu c).handler = some k → HandlerTrans K.code s c n k s' → Trans K s c (.go n) s'
  | swtch {n p k} : (s.cpu c).handler = none → (s.cpu c).loc = .run p → (s.proc p).pc = .sched k →
    (s.proc p).lock = some c → s.HoldsOnly c (some p) → (s.proc p).state ≠ .running →
    Trans K s c (.go n) ((s.setPc p k).setLoc c (s.cpu c).proc (.back p))
  | skip {n i} : (s.cpu c).handler = none → (s.cpu c).loc = .scan i → (s.proc i).lock = none →
    Trans K s c (.go n) (s.setLoc c none (.scan i.next))
  | pick {n i} : (s.cpu c).handler = none → (s.cpu c).loc = .scan i → (s.proc i).lock = none →
    (s.proc i).state = .runnable → Trans K s c (.go n)
      ((s.setProc i fun q => { q with state := .running, lock := some c }).setLoc c (some i) (.run i))
  | back {n i} : (s.cpu c).handler = none → (s.cpu c).loc = .back i → (s.proc i).lock = some c →
    Trans K s c (.go n) ((s.setProc i fun q => { q with lock := none }).setLoc c none (.scan i.next))
  | timer {p} : (s.cpu c).handler = none → (s.cpu c).loc = .run p → s.HoldsOnly c none →
    (s.proc p).state = .running → Trans K s c .timer (s.setPc p (.yield (s.proc p).pc))
  | device {l} : (s.cpu c).handler = none → s.HoldsOnly c none → K.handler l →
    Trans K s c (.device l) (s.setHandler c (some (.code l)))
  | dma {n} : Trans K s c (.dma n) { s with data := K.dma s.data n }

theorem step_cases {K : Kernel ι D κ Λ} {a : Act ι} (h : step K s (c, a) = .ok s') : Trans K s c a s' := by
  unfold step at h
  dsimp only at h
  split at h
  case h_1 =>
    cases h
    exact .dma
  case h_2 hk => exact .handler hk (handler_cases h)
  case h_3 hk hl =>
    rcases thread_cases h with h | ⟨k, hpc, hlock, ho, hst, rfl⟩
    · exact .thread hk hl h
    · exact .swtch hk hl hpc hlock ho hst
  case h_4 hk hrun =>
    cases hl : (s.cpu c).loc with
    | scan i =>
      rw [hl] at h
      obtain ⟨hlock, h⟩ := locked_eq_ok h
      split_ifs at h with hst <;> cases h
      · exact .pick hk hl hlock hst
      · exact .skip hk hl hlock
    | back i =>
      rw [hl] at h
      obtain ⟨hlock, h⟩ := holding_eq_ok h
      cases h
      exact .back hk hl hlock
    | run p => exact absurd hl (hrun p)
  case h_5 hk hl =>
    split_ifs at h with ho
    cases h
    exact .timer hk hl ho.1 ho.2
  case h_6 hk =>
    split_ifs at h with ho
    cases h
    exact .device hk ho.1 ho.2
  case h_7 => cases h

end

end Xv6.Sched
