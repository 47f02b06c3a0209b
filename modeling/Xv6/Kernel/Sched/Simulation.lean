import Xv6.Kernel.Sched.Client
import Xv6.Kernel.Sched.Reparent
import Mathlib.Tactic

/-! The machine with its scheduler does what the threads of the clients do. -/
namespace Xv6.Sched
open Lib

variable {ι D κ Λ C : Type} {s s' : State ι D κ Λ C} {a : Client ι D κ Λ C} {c : C} {p q : Slot} {k : Pc ι κ Λ}

/-- Where the thread of a process is, for the clients. While it is `SLEEPING` it waits for its
channel. -/
def Pc.point (st : ProcState) (ch : Option (Chan κ)) : Pc ι κ Λ → Option (Point ι κ Λ)
  | .code l | .forkret l => some (.code l)
  | .sleep chan lk next | .sleepRelease chan lk next => some (.sleep chan lk next)
  | .sleepMark chan lk next => some (.wait chan lk next)
  | .sleepTidy lk next =>
    match st, ch with
    | .sleeping, some (.other chan) => some (.wait chan lk next)
    | _, _ => some (.wake lk next)
  | .sleepAcquire lk next => some (.wake lk next)
  | .wakeup chan i next => some (.wakeup chan i next)
  | .kill _ _ next => some (.call fun l => ∃ r, l = next r)
  | .alloc _ _ next | .allocFound _ _ next | .forkRun _ next | .wait _ next | .waitScan _ _ _ next
  | .waitChild _ _ next | .waitSleep _ next | .waitTidy _ next => some (.call fun l => ∃ r, l = next r)
  | .yield k | .yieldRelease k | .sched k => k.point st ch
  | .exit .. | .exitParent .. | .exitLock .. | .exitSelf .. | .reparent .. | .reparentChild .. | .exitZombie ..
  | .zombieExit => none

def Proc.point (r : Proc ι κ Λ C) : Option (Point ι κ Λ) :=
  if r.state = .unused ∨ r.state = .zombie then none else r.pc.point r.state r.chan

/-- A thread is on a CPU. -/
def State.Hosts (s : State ι D κ Λ C) (c : C) : Slot ⊕ C → Prop
  | .inl p => (s.cpu c).loc = .run p
  | .inr c' => c' = c

/-- The locks of the clients: the CPU that holds one runs the thread that holds it. A thread that
has been interrupted holds none. -/
structure LockSim (s : State ι D κ Λ C) (a : Client ι D κ Λ C) : Prop where
  free : ∀ lk, s.lock lk = none → a.lock lk = none
  held : ∀ lk c, s.lock lk = some c → ∃ t, a.lock lk = some t ∧ s.Hosts c t
  inside : ∀ c p lk, (s.cpu c).handler ≠ none → (s.cpu c).loc = .run p → a.lock lk ≠ some (.inl p)

structure Sim (s : State ι D κ Λ C) (a : Client ι D κ Λ C) : Prop extends LockSim s a where
  data : a.data = s.data
  proc : ∀ p, a.task (.inl p) = (s.proc p).point
  handler : ∀ c, a.task (.inr c) = (s.cpu c).handler.bind (Pc.point .running none)

/-- A process that sleeps is in `sleep`; `fork` starts children where its callers say. -/
def Pc.Spawns (K : Kernel ι D κ Λ) (p : Slot) : Pc ι κ Λ → Prop
  | .alloc _ child _ | .allocFound _ child _ => K.Forks child
  | .forkret l => K.Forks l ∨ p = initproc
  | .yield k | .yieldRelease k | .sched k => k.Spawns K p
  | _ => True

structure Sound (K : Kernel ι D κ Λ) (s : State ι D κ Λ C) : Prop where
  doze : ∀ p chan, (s.proc p).state = .sleeping → (s.proc p).chan = some (.other chan) →
    ∃ lk next, (s.proc p).pc = .sched (.sleepTidy lk next) ∨ (s.proc p).pc = .sleepTidy lk next
  spawns : ∀ p, (s.proc p).pc.Spawns K p

theorem Pc.point_congr {st st' : ProcState} (h : st ≠ .sleeping) (h' : st' ≠ .sleeping) (ch ch' : Option (Chan κ))
    (k : Pc ι κ Λ) : k.point st ch = k.point st' ch' := by
  induction k with
  | sleepTidy lk next => cases st <;> cases st' <;> first | rfl | exact absurd rfl h | exact absurd rfl h'
  | yield k ih | yieldRelease k ih | sched k ih => exact ih
  | _ => rfl

theorem Pc.point_of_not_other {ch : Option (Chan κ)} (h : ∀ chan, ch ≠ some (.other chan)) (st st' : ProcState)
    (k : Pc ι κ Λ) : k.point st ch = k.point st' ch := by
  induction k with
  | sleepTidy lk next =>
    unfold Pc.point
    split
    · exact absurd rfl (h _)
    · split
      · exact absurd rfl (h _)
      · rfl
  | yield k ih | yieldRelease k ih | sched k ih => exact ih
  | _ => rfl

theorem Pc.point_eq_wait {st : ProcState} {ch : Option (Chan κ)} {chan : κ} {lk : Λ} {next : ι}
    (h : k.point st ch = some (.wait chan lk next)) :
    k.under = .sleepMark chan lk next ∨ st = .sleeping ∧ ch = some (.other chan) := by
  induction k with
  | sleepMark chan lk next =>
    simp only [Pc.point, Option.some.injEq, Point.wait.injEq] at h
    obtain ⟨rfl, rfl, rfl⟩ := h
    exact .inl rfl
  | sleepTidy lk next =>
    unfold Pc.point at h
    split at h
    · simp only [Option.some.injEq, Point.wait.injEq] at h
      exact .inr ⟨rfl, by rw [h.1]⟩
    · simp at h
  | yield k ih | yieldRelease k ih | sched k ih => exact ih h
  | _ => simp [Pc.point] at h

theorem Pc.eq_of_under_sleepMark {chan : κ} {lk : Λ} {next : ι} (hwf : k.Wf p)
    (h : k.under = .sleepMark chan lk next) : k = .sleepMark chan lk next := by
  induction k with
  | yield k ih | yieldRelease k ih =>
    have := ih hwf.2 h
    simp [this, Pc.Wf, Pc.held] at hwf
  | sched k ih =>
    have := ih hwf.2 h
    simp [this, Pc.Wf, Pc.Resumes] at hwf
  | _ => exact h

theorem Inv.sleeping_of_point (hi : Inv s) (hlock : (s.proc q).lock = none) {chan : κ} {lk : Λ} {next : ι}
    (h : (s.proc q).point = some (.wait chan lk next)) :
    (s.proc q).state = .sleeping ∧ (s.proc q).chan = some (.other chan) := by
  unfold Proc.point at h
  split_ifs at h with hst
  rcases Pc.point_eq_wait h with hu | he
  · exfalso
    have hpc := Pc.eq_of_under_sleepMark (hi.wf q) hu
    by_cases hon : ∃ c, s.On c q
    · obtain ⟨c, hon⟩ := hon
      rcases hon.cases with hl | hl
      · have : (s.proc q).lock = some c := (hi.mem_held hl).mpr (by simp [hpc, Pc.held])
        simp [this] at hlock
      · have := (hi.back c q hl).1
        simp [hpc, Pc.Resumes] at this
    · obtain ⟨hrun, hres⟩ := hi.off q fun c hc => hon ⟨c, hc⟩
      have hpark : (s.proc q).state.Parked := by
        unfold ProcState.Parked
        cases hs : (s.proc q).state <;> simp_all
      have := hres hpark
      simp [hpc, Pc.Resumes] at this
  · exact he

/-- A process does not fall asleep. -/
def Proc.Dozes (r r' : Proc ι κ Λ C) : Prop :=
  r'.state = .sleeping → r.state = .sleeping ∧ r'.chan = r.chan ∧ r'.pc = r.pc

theorem Proc.dozes_wake [DecidableEq κ] (r : Proc ι κ Λ C) (chan : Chan κ) : r.Dozes (r.wake chan) := by
  unfold Proc.wake
  split_ifs
  · intro h
    cases h
  · exact fun h => ⟨h, rfl, rfl⟩

theorem Proc.dozes_kill (r : Proc ι κ Λ C) : r.Dozes r.kill := by
  intro h
  unfold Proc.kill at h
  dsimp only at h
  split_ifs at h with hs
  exact absurd h hs

namespace Sound
variable {K : Kernel ι D κ Λ}

theorem next (h : Sound K s) (hother : ∀ q ≠ p, (s.proc q).Dozes (s'.proc q))
    (hself : ∀ chan, (s'.proc p).state = .sleeping → (s'.proc p).chan = some (.other chan) →
      ∃ lk next, (s'.proc p).pc = .sched (.sleepTidy lk next) ∨ (s'.proc p).pc = .sleepTidy lk next)
    (hspawn : ∀ q, (s'.proc q).pc = (s.proc q).pc ∨ (s'.proc q).pc.Spawns K q) : Sound K s' := by
  refine ⟨fun q chan hst hch => ?_, fun q => ?_⟩
  · by_cases hq : q = p
    · subst hq
      exact hself chan hst hch
    · obtain ⟨hst', hch', hpc⟩ := hother q hq hst
      rw [hpc]
      exact h.doze q chan hst' (hch'.symm.trans hch)
  · rcases hspawn q with he | hs
    · rw [he]
      exact h.spawns q
    · exact hs

theorem setPc (h : Sound K s) (hst : (s.proc p).state = .running) (hproc : s'.proc = (s.setPc p k).proc)
    (hk : k.Spawns K p) : Sound K s' := by
  refine h.next (p := p) (fun q hq => ?_) (fun chan hs => ?_) fun q => ?_
  · rw [hproc, State.setPc_proc, if_neg hq]
    exact fun h => ⟨h, rfl, rfl⟩
  · simp [hproc, hst] at hs
  · rw [hproc, State.setPc_proc]
    split_ifs with hq
    · exact .inr (hq ▸ hk)
    · exact .inl rfl

theorem own (h : Sound K s) {f : Proc ι κ Λ C → Proc ι κ Λ C} (hproc : s'.proc = (s.setProc p f).proc)
    (hst : (f (s.proc p)).state = .sleeping → ∀ chan, (f (s.proc p)).chan = some (.other chan) →
      ∃ lk next, (f (s.proc p)).pc = .sched (.sleepTidy lk next))
    (hk : (f (s.proc p)).pc.Spawns K p) : Sound K s' := by
  refine h.next (p := p) (fun q hq => ?_) (fun chan hs hch => ?_) fun q => ?_
  · rw [hproc, State.setProc_proc, if_neg hq]
    exact fun h => ⟨h, rfl, rfl⟩
  · simp only [hproc, State.setProc_proc, if_true] at hs hch ⊢
    obtain ⟨lk, next, he⟩ := hst hs chan hch
    exact ⟨lk, next, .inl he⟩
  · rw [hproc, State.setProc_proc]
    split_ifs with hq
    · subst hq
      exact .inr hk
    · exact .inl rfl

theorem touch (h : Sound K s) (hst : (s.proc p).state = .running) {f : Proc ι κ Λ C → Proc ι κ Λ C}
    (hproc : s'.proc = ((s.setProc q f).setPc p k).proc) (hf : (s.proc q).Dozes (f (s.proc q)))
    (hpc : (f (s.proc q)).pc = (s.proc q).pc ∨ (f (s.proc q)).pc.Spawns K q) (hk : k.Spawns K p) : Sound K s' := by
  refine h.next (p := p) (fun r hr => ?_) (fun chan hs => ?_) fun r => ?_
  · rw [hproc, State.setPc_proc, if_neg hr, State.setProc_proc]
    split_ifs with hrq
    · subst hrq
      exact hf
    · exact fun h => ⟨h, rfl, rfl⟩
  · rw [hproc, State.setPc_proc, if_pos rfl, State.setProc_proc] at hs
    split_ifs at hs with hpq
    · subst hpq
      simp [(hf hs).1] at hst
    · simp [hst] at hs
  · rw [hproc, State.setPc_proc]
    split_ifs with hr
    · exact .inr (hr ▸ hk)
    · rw [State.setProc_proc]
      split_ifs with hrq
      · subst hrq
        exact hpc
      · exact .inl rfl

theorem boot (K : Kernel ι D κ Λ) (data : D) (start : ι) : Sound K (boot data start : State ι D κ Λ C) := by
  refine ⟨fun p chan hst => ?_, fun p => ?_⟩
  · simp only [Sched.boot] at hst
    split_ifs at hst
  · simp only [Sched.boot]
    split_ifs with hp
    · exact .inr hp
    · trivial

variable [DecidableEq κ] [DecidableEq Λ] {n : ℕ}

theorem thread (h : Sound K s) (hi : Inv s) (hl : (s.cpu c).loc = .run p)
    (hs : ThreadTrans K.code s c n p (s.proc p).pc s') : Sound K s' := by
  obtain ⟨hruns, hat⟩ := hi.run c p hl
  have hsp := h.spawns p
  generalize hk : (s.proc p).pc = k at hs hruns hat hsp
  cases hs with
  | acquire | release | run | exiting | sleepRelease | sleepAcquire | wakeupDone | killMiss | killDone | allocDone
  | exitParent | reparentHit | reparentMiss | reparentDone | waitHit | waitMiss | waitDone | waitAlive =>
    exact h.setPc hruns rfl trivial
  | allocUsed => exact h.setPc hruns rfl hsp
  | @call l k' he =>
    refine h.setPc hruns rfl ?_
    cases hc : K.code l <;> rw [hc] at he <;> cases he
    case fork.refl child next => exact ⟨l, next, hc⟩
    all_goals trivial
  | wakeup | exit => exact h.touch hruns rfl (Proc.dozes_wake _ _) (.inl (Proc.soft_wake _ _).1) trivial
  | killHit => exact h.touch hruns rfl (Proc.dozes_kill _) (.inl rfl) trivial
  | allocUnused => exact h.touch hruns rfl (fun h => ⟨h, rfl, rfl⟩) (.inl rfl) hsp
  | exitLock | reparentChild => exact h.touch hruns rfl (fun h => ⟨h, rfl, rfl⟩) (.inl rfl) trivial
  | sleep | sleepTidy | wait | waitReturn | waitFault | waitTidy | exitSelf | forkret =>
    have hst : (s.proc p).state = .running := hruns
    exact h.own rfl (fun h => by simp [hst] at h) trivial
  | yieldRelease =>
    have hst : (s.proc p).state = .running := hruns
    exact h.own rfl (fun h => by simp [hst] at h) hsp
  | yield => exact h.own rfl (fun h => by cases h) hsp
  | @sleepMark chan lk next => exact h.own rfl (fun _ _ _ => ⟨lk, next, rfl⟩) trivial
  | waitSleep => exact h.own rfl (fun _ _ hch => by simp at hch) trivial
  | @noTrapframe np child next =>
    have hu : (s.proc np).state = .unused := hat
    exact h.touch (k := .code (next none)) (f := fun r => { r with pid := s.nextpid, lock := none }) hruns rfl
      (fun h => by simp [hu] at h) (.inl rfl) trivial
  | @noMemory np child next =>
    exact h.touch (k := .code (next none)) (f := fun r => { r.freeproc with lock := none }) hruns rfl
      (fun h => by cases h) (.inl rfl) trivial
  | @allocFound np child next =>
    have hu : (s.proc np).state = .unused := hat
    exact h.touch (k := .forkRun np next)
      (f := fun r => { r with pid := s.nextpid, parent := some p, pc := .forkret child }) hruns rfl
      (fun h => by simp [hu] at h) (.inr (.inl hsp)) trivial
  | forkRun => exact h.touch hruns rfl (fun h => by cases h) (.inl rfl) trivial
  | @exitZombie status parent =>
    refine h.next (p := p) (fun q hq => ?_) (fun chan hs => ?_) fun q => ?_
    · rw [State.note_proc, State.setProc_proc, if_neg hq, State.setProc_proc]
      split_ifs
      · exact (s.proc q).dozes_wake _
      · exact fun h => ⟨h, rfl, rfl⟩
    · simp at hs
    · rw [State.note_proc, State.setProc_proc, State.setProc_proc]
      split_ifs
      · exact .inr trivial
      · exact .inr trivial
      · exact .inl ((s.proc q).soft_wake _).1
      · exact .inl rfl
  | @waitReap addr np next _ hz =>
    have hst : (s.proc p).state = .running := hruns
    refine h.next (p := p) (fun q hq => ?_) (fun chan hs => ?_) fun q => ?_
    · rw [State.note_proc, State.setProc_proc, if_neg hq, State.setProc_proc]
      split_ifs
      · intro h
        cases h
      · exact fun h => ⟨h, rfl, rfl⟩
    · rw [State.note_proc, State.setProc_proc, if_pos rfl, State.setProc_proc] at hs
      split_ifs at hs
      · cases hs
      · simp [hst] at hs
    · rw [State.note_proc, State.setProc_proc, State.setProc_proc]
      split_ifs
      · exact .inr trivial
      · exact .inr trivial
      · exact .inl rfl
      · exact .inl rfl

theorem trans [DecidableEq C] {a : Act ι} (h : Sound K s) (hi : Inv s) (hs : Trans K s c a s') : Sound K s' := by
  have hself : ∀ q, (s.proc q).Dozes (s.proc q) := fun q h => ⟨h, rfl, rfl⟩
  have hsame : ∀ {s' : State ι D κ Λ C}, (∀ q, (s.proc q).Dozes (s'.proc q)) →
      (∀ q, (s'.proc q).pc = (s.proc q).pc ∨ (s'.proc q).pc.Spawns K q) → Sound K s' := by
    intro s' hd hspawn
    refine h.next (p := initproc) (fun q _ => hd q) (fun chan hst hch => ?_) hspawn
    obtain ⟨hst', hch', hpc⟩ := hd _ hst
    rw [hpc]
    exact h.doze _ chan hst' (hch'.symm.trans hch)
  cases hs with
  | thread _ hl hs => exact h.thread hi hl hs
  | handler _ hs =>
    cases hs with
    | @wakeup chan next q =>
      refine hsame (fun r => ?_) fun r => .inl ?_
      · rw [State.setHandler_proc, State.setProc_proc]
        split_ifs
        · exact (s.proc r).dozes_wake _
        · exact hself r
      · rw [State.setHandler_proc, State.setProc_proc]
        split_ifs
        · exact ((s.proc r).soft_wake _).1
        · rfl
    | _ => exact hsame hself fun _ => .inl rfl
  | @swtch _ p k _ hl hk =>
    refine h.next (p := p) (fun q hq => ?_) (fun chan hst hch => ?_) fun q => ?_
    · rw [State.setLoc_proc, State.setPc_proc, if_neg hq]
      exact hself q
    · simp only [State.setLoc_proc, State.setPc_proc, if_true] at hst hch ⊢
      obtain ⟨lk, next, he | he⟩ := h.doze p chan hst hch <;> rw [hk] at he
      · exact ⟨lk, next, .inr (Pc.sched.inj he)⟩
      · cases he
    · rw [State.setLoc_proc, State.setPc_proc]
      split_ifs with hq
      · have := h.spawns p
        rw [hk] at this
        exact .inr (hq ▸ this)
      · exact .inl rfl
  | @pick _ i _ hl hlock hst =>
    refine hsame (fun r => ?_) fun r => .inl ?_
    · rw [State.setLoc_proc, State.setProc_proc]
      split_ifs
      · intro h
        cases h
      · exact hself r
    · rw [State.setLoc_proc, State.setProc_proc]
      split_ifs <;> rfl
  | @back _ i _ hl hlock =>
    refine hsame (fun r => ?_) fun r => .inl ?_
    · rw [State.setLoc_proc, State.setProc_proc]
      split_ifs
      · exact fun h => ⟨h, rfl, rfl⟩
      · exact hself r
    · rw [State.setLoc_proc, State.setProc_proc]
      split_ifs <;> rfl
  | @timer p _ hl ho hst => exact h.setPc hst rfl (h.spawns p)
  | _ => exact hsame hself fun _ => .inl rfl

end Sound
end Xv6.Sched
