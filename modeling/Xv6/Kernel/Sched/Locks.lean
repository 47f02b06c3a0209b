import Xv6.Kernel.Sched.Transitions
import Mathlib.Tactic

/-! Which CPU holds which `p->lock`, and which process it executes: what every step keeps. -/
namespace Xv6.Sched

variable {ι D κ Λ C : Type}

/-- The process locks that the thread of `p` holds. -/
def Pc.held (p : Slot) : Pc ι κ Λ → List Slot
  | .sleepRelease .. | .sleepMark .. | .sleepTidy .. | .yieldRelease _ | .forkret _ | .zombieExit
  | .waitScan .. | .waitChild .. | .waitSleep .. | .waitTidy .. | .sched _ => [p]
  | .allocFound np .. | .forkRun np _ => [np]
  | .exitSelf _ parent => [parent]
  | .reparent _ parent _ | .reparentChild _ parent _ | .exitZombie _ parent => [parent, p]
  | _ => []

/-- Where `sched` returns to. -/
def Pc.Resumes : Pc ι κ Λ → Prop
  | .sleepTidy .. | .yieldRelease _ | .forkret _ | .zombieExit | .waitTidy .. => True
  | _ => False

/-- A thread yields where it holds no process lock, and exits with the lock of another process. -/
def Pc.Wf (p : Slot) : Pc ι κ Λ → Prop
  | .yield k | .yieldRelease k => k.held p = [] ∧ k.Wf p
  | .sched k => k.Resumes ∧ k.Wf p
  | .reparent _ parent _ | .reparentChild _ parent _ | .exitZombie _ parent => parent ≠ p
  | _ => True

/-- A process that is not on a CPU, or about to leave it. -/
def ProcState.Parked (st : ProcState) : Prop := st = .runnable ∨ st = .sleeping ∨ st = .zombie

/-- A process on a CPU is `RUNNING`, until it is in `sched`. -/
def Pc.Runs (st : ProcState) : Pc ι κ Λ → Prop
  | .sched _ => st.Parked
  | _ => st = .running

/-- `fork` works on a process that is `UNUSED`. -/
def State.At (s : State ι D κ Λ C) : Pc ι κ Λ → Prop
  | .allocFound np .. => (s.proc np).state = .unused
  | .forkRun np _ => (s.proc np).state = .unused ∧ ∃ l, (s.proc np).pc = .forkret l
  | _ => True

def Loc.proc : Loc → Option Slot
  | .scan _ => none
  | .run p | .back p => some p

/-- The process locks that a CPU holds. -/
def State.heldBy (s : State ι D κ Λ C) (c : C) : List Slot :=
  match (s.cpu c).loc with
  | .scan _ => []
  | .run p => (s.proc p).pc.held p
  | .back p => [p]

/-- A CPU executes the thread of `p`, or has just left it. -/
def State.On (s : State ι D κ Λ C) (c : C) (p : Slot) : Prop := (s.cpu c).loc.proc = some p

structure Inv (s : State ι D κ Λ C) : Prop where
  proc : ∀ c, (s.cpu c).proc = (s.cpu c).loc.proc
  uniq : ∀ c c' p, s.On c p → s.On c' p → c = c'
  wf : ∀ p, (s.proc p).pc.Wf p
  lock : ∀ c q, (s.proc q).lock = some c ↔ q ∈ s.heldBy c
  run : ∀ c p, (s.cpu c).loc = .run p → (s.proc p).pc.Runs (s.proc p).state ∧ s.At (s.proc p).pc
  back : ∀ c p, (s.cpu c).loc = .back p → (s.proc p).pc.Resumes ∧ (s.proc p).state.Parked
  off : ∀ p, (∀ c, ¬ s.On c p) → (s.proc p).state ≠ .running ∧
    ((s.proc p).state.Parked → (s.proc p).pc.Resumes)

variable {s s' : State ι D κ Λ C} {c c' : C} {p q : Slot} {k : Pc ι κ Λ}

theorem ProcState.Parked.ne_running {st : ProcState} (h : st.Parked) : st ≠ .running := by
  rcases h with rfl | rfl | rfl <;> decide

theorem Pc.Runs.ne_unused {st : ProcState} (h : k.Runs st) : st ≠ .unused := by
  rintro rfl
  cases k <;> simp [Pc.Runs, ProcState.Parked] at h

theorem Pc.mem_held_of_runs {st : ProcState} (h : k.Runs st) (hst : st ≠ .running) : p ∈ k.held p := by
  cases k <;> first | exact absurd h hst | simp [Pc.held]

theorem Pc.held_of_resumes (h : k.Resumes) (p : Slot) : k.held p = [p] := by
  cases k <;> first | exact h.elim | rfl

theorem Pc.runs_of_held_nil (h : k.held p = []) : k.Runs .running := by
  cases k with
  | sched k => simp [Pc.held] at h
  | _ => rfl

theorem Pc.runs_of_resumes (h : k.Resumes) : k.Runs .running := by
  cases k with
  | sched k => exact h.elim
  | _ => rfl

theorem State.At.congr (h : s.At k) (heq : ∀ q ∈ k.held p, (s.proc q).state = .unused →
    (s'.proc q).state = (s.proc q).state ∧ (s'.proc q).pc = (s.proc q).pc) : s'.At k := by
  cases k with
  | allocFound np child next => exact (heq np (List.mem_singleton_self np) h).1.trans h
  | forkRun np next =>
    obtain ⟨hst, hpc⟩ := heq np (List.mem_singleton_self np) h.1
    exact ⟨hst.trans h.1, hpc.symm ▸ h.2⟩
  | _ => trivial

theorem State.at_of_held_nil (h : k.held p = []) : s.At k := by
  cases k <;> trivial

theorem State.at_of_resumes (h : k.Resumes) : s.At k := by
  cases k <;> trivial

theorem State.on_run (h : (s.cpu c).loc = .run p) : s.On c p := by simp [State.On, h, Loc.proc]

theorem State.on_back (h : (s.cpu c).loc = .back p) : s.On c p := by simp [State.On, h, Loc.proc]

theorem State.On.cases (h : s.On c p) : (s.cpu c).loc = .run p ∨ (s.cpu c).loc = .back p := by
  unfold State.On at h
  cases hl : (s.cpu c).loc with
  | scan i => simp [hl, Loc.proc] at h
  | run r =>
    rw [hl] at h
    exact .inl (congrArg Loc.run (Option.some.inj h))
  | back r =>
    rw [hl] at h
    exact .inr (congrArg Loc.back (Option.some.inj h))

theorem State.heldBy_run (h : (s.cpu c).loc = .run p) : s.heldBy c = (s.proc p).pc.held p := by
  simp [State.heldBy, h]

theorem State.heldBy_back (h : (s.cpu c).loc = .back p) : s.heldBy c = [p] := by
  simp [State.heldBy, h]

theorem State.heldBy_congr (hloc : (s'.cpu c).loc = (s.cpu c).loc)
    (hpc : ∀ p, s.On c p → (s'.proc p).pc = (s.proc p).pc) : s'.heldBy c = s.heldBy c := by
  unfold State.heldBy
  rw [hloc]
  cases hl : (s.cpu c).loc with
  | run p => simp only [hpc p (State.on_run hl)]
  | _ => rfl

namespace Inv

theorem lock_of_on (h : Inv s) (hon : s.On c p) (hst : (s.proc p).state ≠ .running) :
    (s.proc p).lock = some c := by
  rw [h.lock]
  rcases hon.cases with hl | hl
  · rw [State.heldBy_run hl]
    exact Pc.mem_held_of_runs (h.run c p hl).1 hst
  · simp [State.heldBy_back hl]

theorem mem_held (h : Inv s) (hl : (s.cpu c).loc = .run p) :
    (s.proc q).lock = some c ↔ q ∈ (s.proc p).pc.held p := by
  rw [h.lock, State.heldBy_run hl]

end Inv

/-- A step leaves what another CPU relies on as it is: a process either keeps its state and its
place, or is not `RUNNING` before and after, and its lock is not held by another CPU. -/
def State.Yields (s s' : State ι D κ Λ C) (c : C) (q : Slot) : Prop :=
  ((s'.proc q).state = (s.proc q).state ∧ (s'.proc q).pc = (s.proc q).pc) ∨
  ((s.proc q).lock = none ∨ (s.proc q).lock = some c) ∧ (s.proc q).state ≠ .running ∧
    (s'.proc q).state ≠ .running ∧ ((s'.proc q).state.Parked → (s'.proc q).pc.Resumes)

/-- What a step of the thread of `p` on CPU `c`, at `k`, does to process locks and states. -/
structure ThreadStep (s s' : State ι D κ Λ C) (c : C) (p : Slot) (k : Pc ι κ Λ) : Prop where
  cpu : s'.cpu = s.cpu
  lock : ∀ q, (s'.proc q).lock = if q ∈ (s'.proc p).pc.held p then some c
    else if q ∈ k.held p then none else (s.proc q).lock
  free : ∀ q ∈ (s'.proc p).pc.held p, q ∉ k.held p → (s.proc q).lock = none
  wf : ∀ q, (s'.proc q).pc = (s.proc q).pc ∨ (s'.proc q).pc.Wf q
  self : (s'.proc p).pc.Runs (s'.proc p).state ∧ s'.At (s'.proc p).pc
  other : ∀ q ≠ p, s.Yields s' c q

namespace Inv

theorem same_of_yields (h : Inv s) (hy : ∀ q ≠ p, s.Yields s' c q) (hp : s.On c p) (hc : c' ≠ c)
    (hon : s.On c' q) : (s'.proc q).state = (s.proc q).state ∧ (s'.proc q).pc = (s.proc q).pc := by
  have hqp : q ≠ p := by
    rintro rfl
    exact hc (h.uniq c' c q hon hp)
  rcases hy q hqp with hq | ⟨hl, hst, -⟩
  · exact hq
  · have hlock := h.lock_of_on hon hst
    rcases hl with hl | hl <;> rw [hl] at hlock
    · cases hlock
    · exact absurd (Option.some.inj hlock).symm hc

theorem thread (h : Inv s) (hl : (s.cpu c).loc = .run p) (hs : ThreadStep s s' c p (s.proc p).pc) :
    Inv s' := by
  have hp : s.On c p := State.on_run hl
  have hon : ∀ c' q, s'.On c' q ↔ s.On c' q := fun c' q => by unfold State.On; rw [hs.cpu]
  have hsame : ∀ c' q, c' ≠ c → s.On c' q →
      (s'.proc q).state = (s.proc q).state ∧ (s'.proc q).pc = (s.proc q).pc :=
    fun c' q hc => h.same_of_yields hs.other hp hc
  refine ⟨fun c' => ?_, fun c' c'' q => ?_, fun q => ?_, fun c' q => ?_, fun c' q hq => ?_,
    fun c' q hq => ?_, fun q hq => ?_⟩
  · rw [hs.cpu]
    exact h.proc c'
  · rw [hon, hon]
    exact h.uniq c' c'' q
  · rcases hs.wf q with he | hw
    · rw [he]
      exact h.wf q
    · exact hw
  · rw [hs.lock q]
    by_cases hc : c' = c
    · subst hc
      rw [State.heldBy_run (hs.cpu ▸ hl)]
      split_ifs with h1 h2
      · simp [h1]
      · simp [h1]
      · simpa [h1, h.mem_held hl] using h2
    · have hne : c ≠ c' := fun he => hc he.symm
      rw [State.heldBy_congr (by rw [hs.cpu]) fun r hr => (hsame c' r hc hr).2, ← h.lock c' q]
      split_ifs with h1 h2
      · by_cases h2 : q ∈ (s.proc p).pc.held p
        · simp [(h.mem_held hl).mpr h2, hne]
        · simp [hs.free q h1 h2, hne]
      · simp [(h.mem_held hl).mpr h2, hne]
      · rfl
  · rw [hs.cpu] at hq
    by_cases hc : c' = c
    · subst hc
      obtain rfl : p = q := by simpa [hl] using hq
      exact hs.self
    · obtain ⟨hst, hpc⟩ := hsame c' q hc (State.on_run hq)
      rw [hst, hpc]
      refine ⟨(h.run c' q hq).1, (h.run c' q hq).2.congr (p := q) fun r hr hu => ?_⟩
      -- the other CPU has locked this process, which is not `p`
      have hrp : r ≠ p := by
        rintro rfl
        exact (h.run c r hl).1.ne_unused hu
      have hlock := (h.mem_held hq).mpr hr
      rcases hs.other r hrp with hr | ⟨hr | hr, -⟩
      · exact hr
      · simp [hr] at hlock
      · exact absurd (Option.some.inj (hlock.symm.trans hr)) hc
  · rw [hs.cpu] at hq
    have hc : c' ≠ c := by
      rintro rfl
      simp [hl] at hq
    obtain ⟨hst, hpc⟩ := hsame c' q hc (State.on_back hq)
    rw [hst, hpc]
    exact h.back c' q hq
  · simp only [hon] at hq
    rcases hs.other q (fun he => hq c (he ▸ hp)) with ⟨hst, hpc⟩ | ⟨-, -, hst, hres⟩
    · rw [hst, hpc]
      exact h.off q hq
    · exact ⟨hst, hres⟩

end Inv

end Xv6.Sched
