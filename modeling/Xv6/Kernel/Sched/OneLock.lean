import Xv6.Kernel.Sched.Calls
import Mathlib.Tactic

/-! `sched` is entered with one lock: what that takes, and that nothing else leads to the panic. -/
namespace Xv6.Sched
open Lib

variable {ι D κ Λ C : Type} {K : Kernel ι D κ Λ} {L : ι → List Λ} {allow : ι → D → Bool → ℕ → Prop}
  {s s' : State ι D κ Λ C} {a a' : Client ι D κ Λ C} {c : C} {n : ℕ} {p q : Slot} {k : Pc ι κ Λ}

section Panics
variable [DecidableEq C]

theorem locked_ne {body : Except Halt (State ι D κ Λ C)} (h : body ≠ .error (.panic .schedLocks)) :
    s.locked c p body ≠ .error (.panic .schedLocks) := by
  unfold State.locked
  split
  · exact h
  · split_ifs <;> simp

theorem holding_ne {body : Except Halt (State ι D κ Λ C)} (h : body ≠ .error (.panic .schedLocks)) :
    s.holding c p body ≠ .error (.panic .schedLocks) := by
  unfold State.holding
  split_ifs
  · exact h
  · simp

omit [DecidableEq C] in
theorem forProc_ne {i : ℕ} {body : Slot → Except Halt (State ι D κ Λ C)} {done : Except Halt (State ι D κ Λ C)}
    (h : ∀ q, body q ≠ .error (.panic .schedLocks)) (hd : done ≠ .error (.panic .schedLocks)) :
    forProc i body done ≠ .error (.panic .schedLocks) := by
  unfold forProc
  split_ifs
  · exact h _
  · exact hd

variable [DecidableEq Λ]

theorem acquire_ne {lk : Λ} (f : State ι D κ Λ C → State ι D κ Λ C) :
    (s.acquire c lk).map f ≠ .error (.panic .schedLocks) := by
  unfold State.acquire
  split
  · simp [Except.map]
  · split_ifs <;> simp [Except.map]

theorem release_ne {lk : Λ} (f : State ι D κ Λ C → State ι D κ Λ C) :
    (s.release c lk).map f ≠ .error (.panic .schedLocks) := by
  unfold State.release
  split_ifs <;> simp [Except.map]

variable [DecidableEq κ] [Fintype Λ]

theorem thread_schedLocks (h : stepThread K.code s c n p k = .error (.panic .schedLocks)) :
    (∃ k', k = .sched k') ∧ ¬ s.HoldsOnly c (some p) := by
  by_contra hcon
  revert h
  cases k with
  | code l =>
    unfold stepThread
    cases hl : K.code l <;> simp only [hl]
    case acquire => exact acquire_ne _
    case release => exact release_ne _
    case exit => split_ifs <;> simp
    all_goals simp
  | sched k' =>
    rw [stepThread]
    split_ifs with h1 h2
    · simp
    · simp
    · simp
    · exact absurd ⟨⟨k', rfl⟩, h2⟩ hcon
  | sleepRelease => exact release_ne _
  | sleepAcquire => exact acquire_ne _
  | wakeup =>
    rw [stepThread]
    refine forProc_ne (fun q => locked_ne ?_) ?_ <;> simp
  | kill | alloc =>
    rw [stepThread]
    refine forProc_ne (fun q => locked_ne ?_) ?_
    · split_ifs <;> simp
    · simp
  | allocFound =>
    rcases n with _ | _ | n
    · refine holding_ne ?_
      simp
    · refine holding_ne ?_
      simp
    · simp [stepThread]
  | exitLock status parent =>
    cases parent with
    | none => simp [stepThread]
    | some parent =>
      refine locked_ne ?_
      simp
  | reparent =>
    rw [stepThread]
    refine forProc_ne (fun q => ?_) ?_
    · split_ifs <;> simp
    · simp
  | exitZombie =>
    rw [stepThread]
    split_ifs <;> simp
  | waitScan =>
    rw [stepThread]
    refine forProc_ne (fun q => ?_) ?_
    · split_ifs <;> simp
    · split_ifs
      · refine holding_ne ?_
        simp
      · simp
  | waitChild addr np next =>
    refine locked_ne ?_
    by_cases hz : (s.proc np).state = .zombie
    · rw [if_pos hz]
      by_cases hf : addr ≠ 0 ∧ n = 0
      · rw [if_pos hf]
        refine holding_ne ?_
        simp
      · rw [if_neg hf]
        refine holding_ne ?_
        simp
    · simp [if_neg hz]
  | sleep | yield | exit | exitParent | exitSelf | reparentChild | wait =>
    refine locked_ne ?_
    simp
  | sleepTidy | yieldRelease | forkRun | forkret =>
    refine holding_ne ?_
    simp
  | sleepMark | waitSleep | waitTidy | zombieExit => simp [stepThread]

omit [Fintype Λ] in
theorem handler_schedLocks : stepHandler K.code s c n k ≠ .error (.panic .schedLocks) := by
  cases k with
  | code l =>
    unfold stepHandler
    cases hl : K.code l <;> simp only [hl]
    case acquire => exact acquire_ne _
    case release => exact release_ne _
    all_goals simp
  | wakeup =>
    rw [stepHandler]
    refine forProc_ne (fun q => locked_ne ?_) ?_ <;> simp
  | _ => simp [stepHandler]

theorem step_schedLocks {act : C × Act ι} (h : step K s act = .error (.panic .schedLocks)) :
    ∃ p k, (s.cpu act.1).handler = none ∧ (s.cpu act.1).loc = .run p ∧ (s.proc p).pc = .sched k ∧
      ¬ s.HoldsOnly act.1 (some p) := by
  unfold step at h
  dsimp only at h
  split at h
  · simp at h
  · exact absurd h handler_schedLocks
  case h_3 hk hl =>
    obtain ⟨⟨k, hpc⟩, hno⟩ := thread_schedLocks h
    exact ⟨_, k, hk, hl, hpc, hno⟩
  case h_4 hk hl =>
    revert h
    cases (s.cpu act.1).loc with
    | scan i =>
      refine fun h => absurd h (locked_ne ?_)
      split_ifs <;> simp
    | back i =>
      refine fun h => absurd h (holding_ne ?_)
      simp
    | run p => exact fun h => absurd h (by simp [stepScheduler])
  · split_ifs at h
    simp at h
  · split_ifs at h
    simp at h
  · simp at h

end Panics

/-- A thread that has been interrupted by the timer has no lock of the clients. A new thread is
not in `sched`. -/
def Pc.Bare (L : ι → List Λ) : Pc ι κ Λ → Prop
  | .yield k | .yieldRelease k => Point.locks L (k.point .running none) = [] ∧ k.Bare L
  | .sched (.forkret _) => False
  | .sched k => k.Bare L
  | _ => True

theorem Pc.Bare.of_sched (h : (Pc.sched k).Bare L) : k.Bare L := by
  cases k with
  | forkret l => exact h.elim
  | _ => exact h

/-- A thread sleeps with no lock but the one that it gives to `sleep`. -/
def Client.Alone (L : ι → List Λ) (a : Client ι D κ Λ C) : Prop :=
  ∀ t l, (∃ chan lk, a.task t = some (.sleep chan lk l)) ∨ (∃ chan lk, a.task t = some (.wait chan lk l)) ∨
    (∃ lk, a.task t = some (.wake lk l)) → (L l).tail = []

/-- Where the code calls `sleep` it has no other lock. -/
def Client.Sleeps (K : Kernel ι D κ Λ) (L : ι → List Λ) (a : Client ι D κ Λ C) : Prop :=
  ∀ t l chan lk next, a.task t = some (.code l) → K.code l = .sleep chan lk next → (L l).tail = []

section
variable [DecidableEq C]

theorem Client.Alone.move (h : a.Alone L) {t : Slot ⊕ C} {pt : Option (Point ι κ Λ)} (htask : a'.task = (a.set t pt).task)
    (hpt : ∀ l, (∃ chan lk, pt = some (.sleep chan lk l)) ∨ (∃ chan lk, pt = some (.wait chan lk l)) ∨
      (∃ lk, pt = some (.wake lk l)) → (L l).tail = []) : a'.Alone L := by
  intro u l hu
  rw [htask, Client.set_task] at hu
  split_ifs at hu
  · exact hpt l hu
  · exact h u l hu

variable [DecidableEq Λ]

theorem Client.Alone.step (hK : K.Balanced L) (h : a.Alone L) (hsl : a.Sleeps K L) (hs : ClientStep K allow a a') :
    a'.Alone L := by
  cases hs with
  | @enter t l pt ht hp =>
    refine h.move rfl fun l' he => ?_
    have hc : ∃ chan lk, K.code l = .sleep chan lk l' := by
      rcases he with ⟨chan, lk, he⟩ | ⟨chan, lk, he⟩ | ⟨lk, he⟩ <;> obtain rfl := Option.some.inj he <;>
      cases hc : K.code l <;> rw [hc] at hp <;> cases hp
      exact ⟨chan, lk, rfl⟩
    obtain ⟨chan, lk, hc⟩ := hc
    rw [(hK.sleep hc).1]
    exact hsl t l chan lk l' ht hc
  | @sleep t chan lk next ht =>
    refine h.move rfl fun l he => ?_
    obtain rfl : next = l := by simpa using he
    exact h t next (.inl ⟨chan, lk, ht⟩)
  | @woken t chan lk next ht =>
    refine h.move rfl fun l he => ?_
    obtain rfl : next = l := by simpa using he
    exact h t next (.inr (.inl ⟨chan, lk, ht⟩))
  | @run t l f b n =>
    have htask : ({ a with data := (f a.data b n).1 }.set t (some (.code (f a.data b n).2))).task =
        (a.set t (some (.code (f a.data b n).2))).task := rfl
    exact h.move htask (by simp)
  | dma => exact h
  | _ => exact h.move rfl (by simp)

theorem Client.Alone.of_reaches (hK : K.Balanced L) {data : D} {start : ι}
    (hsl : ∀ a : Client ι D κ Λ C, a.Reaches K allow data start → a.Sleeps K L) (h : a.Reaches K allow data start) : a.Alone L := by
  induction h with
  | refl =>
    intro t l ht
    simp only [Client.boot] at ht
    split_ifs at ht <;> simp at ht
  | tail hr hst ih => exact ih.step hK (hsl _ hr) hst

end

/-- All threads. -/
def State.Bare (L : ι → List Λ) (s : State ι D κ Λ C) : Prop := ∀ p, (s.proc p).pc.Bare L

namespace State.Bare

theorem own (h : s.Bare L) {f : Proc ι κ Λ C → Proc ι κ Λ C} (hproc : s'.proc = (s.setProc p f).proc)
    (hf : (f (s.proc p)).pc.Bare L) : s'.Bare L := by
  intro q
  rw [hproc, State.setProc_proc]
  split_ifs with hq
  · subst hq
    exact hf
  · exact h q

theorem setPc (h : s.Bare L) (hproc : s'.proc = (s.setPc p k).proc) (hk : k.Bare L) : s'.Bare L :=
  h.own hproc hk

theorem note (h : s.Bare L) (e : Event) : (s.note e).Bare L := h

theorem touch (h : s.Bare L) {f g : Proc ι κ Λ C → Proc ι κ Λ C} (hproc : s'.proc = ((s.setProc q f).setProc p g).proc)
    (hf : (f (s.proc q)).pc.Bare L) (hg : (g ((s.setProc q f).proc p)).pc.Bare L) : s'.Bare L :=
  State.Bare.own (h.own rfl hf) hproc hg

theorem thread [DecidableEq κ] [DecidableEq Λ] (h : s.Bare L) (hs : ThreadTrans K.code s c n p (s.proc p).pc s') :
    s'.Bare L := by
  have hp := h p
  have hwake : ∀ chan q, ((s.proc q).wake chan).pc.Bare L := fun chan q => by
    rw [(Proc.soft_wake _ _).1]
    exact h q
  generalize hk : (s.proc p).pc = k at hs hp
  cases hs with
  | @call l k' he =>
    refine h.setPc rfl ?_
    cases hc : K.code l <;> rw [hc] at he <;> cases he <;> trivial
  | yield => exact h.own rfl hp
  | yieldRelease => exact h.own rfl hp.2
  | wakeup | exit =>
    refine h.touch rfl ?_ ?_
    · exact hwake _ _
    · trivial
  | exitZombie =>
    refine (State.Bare.touch h rfl ?_ ?_).note _
    · exact hwake _ _
    · trivial
  | killHit | allocUnused | exitLock =>
    refine h.touch rfl ?_ ?_
    · exact h _
    · trivial
  | forkRun | reparentChild | waitReap =>
    refine (State.Bare.touch h rfl ?_ ?_).note _
    · exact h _
    · trivial
  | @noTrapframe np child next =>
    exact h.touch (f := fun r => { r with pid := s.nextpid, lock := none })
      (g := fun q => { q with pc := .code (next none) }) rfl (h np) trivial
  | @noMemory np child next =>
    exact h.touch (f := fun r => { r.freeproc with lock := none })
      (g := fun q => { q with pc := .code (next none) }) rfl (h np) trivial
  | @allocFound np child next =>
    exact h.touch (f := fun r => { r with pid := s.nextpid, parent := some p, pc := .forkret child })
      (g := fun q => { q with pc := .forkRun np next }) rfl trivial trivial
  | sleep | sleepMark | sleepTidy | forkret | exitSelf | wait | waitReturn | waitFault | waitSleep | waitTidy =>
    exact h.own rfl trivial
  | _ => exact h.setPc rfl trivial

theorem trans [DecidableEq κ] [DecidableEq Λ] [DecidableEq C] {act : Act ι} (h : s.Bare L) (hs : Trans K s c act s')
    (htimer : ∀ p, (s.cpu c).loc = .run p → s.HoldsOnly c none → (s.proc p).state = .running →
      Point.locks L (s.proc p).point = []) : s'.Bare L := by
  cases hs with
  | thread _ _ hs => exact h.thread hs
  | handler _ hs =>
    cases hs with
    | @wakeup chan next q =>
      refine h.own (f := fun r => r.wake (.other chan)) rfl ?_
      rw [(Proc.soft_wake _ _).1]
      exact h q
    | _ => exact h
  | @swtch _ p k _ _ hpc =>
    have hp := h p
    rw [hpc] at hp
    exact h.own (f := fun q => { q with pc := k }) rfl hp.of_sched
  | @pick _ i => exact h.own (f := fun q => { q with state := .running, lock := some c }) rfl (h i)
  | @back _ i => exact h.own (f := fun q => { q with lock := none }) rfl (h i)
  | @timer p _ hl ho hst =>
    refine h.own rfl ⟨?_, h p⟩
    rw [← Proc.point_of_running hst]
    exact htimer p hl ho hst
  | _ => exact h

end State.Bare

theorem Pc.point_of_held_nil {st st' : ProcState} {ch ch' : Option (Chan κ)} (h : k.held p = []) (hwf : k.Wf p) :
    k.point st ch = k.point st' ch' := by
  induction k with
  | yield k ih => exact ih hwf.1 hwf.2
  | sleepTidy | yieldRelease | sched => simp [Pc.held] at h
  | _ => rfl

theorem Pc.locks_sched {st : ProcState} {ch : Option (Chan κ)} (hwf : (Pc.sched k).Wf p) (hb : (Pc.sched k).Bare L)
    (htidy : ∀ lk next, k = .sleepTidy lk next → (L next).tail = []) : Point.locks L (k.point st ch) = [] := by
  obtain ⟨hr, hwf⟩ := hwf
  cases k with
  | sleepTidy lk next =>
    unfold Pc.point
    split <;> exact htidy lk next rfl
  | yieldRelease k =>
    change Point.locks L (k.point st ch) = []
    rw [Pc.point_of_held_nil hwf.1 hwf.2]
    exact hb.1
  | forkret l => exact hb.elim
  | zombieExit | waitTidy addr next => rfl
  | _ => exact hr.elim

theorem Sim.locks_eq_nil (h : Sim s a) (hi : Inv s) (ho : a.Owns K L) (hl : (s.cpu c).loc = .run p)
    (hno : ∀ lk, s.lock lk ≠ some c) : Point.locks L (s.proc p).point = [] := by
  rw [← h.proc, List.eq_nil_iff_forall_not_mem]
  intro lk hmem
  have hp := (ho.lock lk (.inl p)).mpr hmem
  cases hlk : s.lock lk with
  | none => simp [h.free lk hlk] at hp
  | some c' =>
    obtain ⟨t, ht, hhost⟩ := h.held lk c' hlk
    obtain rfl : t = .inl p := Option.some.inj (ht.symm.trans hp)
    obtain rfl := hi.uniq c' c p (State.on_run hhost) (State.on_run hl)
    exact hno lk hlk

section Runs
variable [DecidableEq κ] [DecidableEq Λ] [Fintype Λ] [DecidableEq C] {data : D} {start : ι}

theorem State.Bare.of_run (hK : K.Balanced L) (hstart : L start = [])
    (h : Run (step K) (Heeds allow) (boot data start) s) : s.Bare L := by
  induction h with
  | refl =>
    intro p
    simp only [boot]
    split_ifs <;> trivial
  | tail hr hst ih =>
    obtain ⟨⟨c, act⟩, -, hs⟩ := hst
    obtain ⟨hi, -, a, hreach, hsim⟩ := refines hK hstart hr
    exact ih.trans (step_cases hs) fun p hl ho _ => hsim.locks_eq_nil hi (.of_reaches hK hstart hreach) hl ho.2

theorem sched_one_lock (hK : K.Balanced L) (hstart : L start = [])
    (hsl : ∀ a : Client ι D κ Λ C, a.Reaches K allow data start → a.Sleeps K L)
    (h : Run (step K) (Heeds allow) (boot data start) s) (hh : (s.cpu c).handler = none) (hl : (s.cpu c).loc = .run p)
    (hpc : (s.proc p).pc = .sched k) : s.HoldsOnly c (some p) := by
  obtain ⟨hi, -, a, hreach, hsim⟩ := refines hK hstart h
  have ho := Client.Owns.of_reaches hK hstart hreach
  have hal := Client.Alone.of_reaches hK hsl hreach
  refine ⟨fun q hq => ?_, fun lk hlk => ?_⟩
  · have := (hi.mem_held hl).mp hq
    rw [hpc] at this
    rw [List.mem_singleton.mp this]
  · have hmem := (ho.lock lk _).mp (hsim.owner ho hh hl hlk)
    have hwf := hi.wf p
    have hb := State.Bare.of_run hK hstart h p
    rw [hpc] at hwf hb
    have hpt : a.task (.inl p) = none ∨ a.task (.inl p) = k.point (s.proc p).state (s.proc p).chan := by
      rw [hsim.proc, Proc.point]
      split_ifs
      · exact .inl rfl
      · rw [hpc]
        exact .inr rfl
    rcases hpt with hpt | hpt
    · rw [hpt] at hmem
      exact absurd hmem List.not_mem_nil
    · have hnil : Point.locks L (k.point (s.proc p).state (s.proc p).chan) = [] := by
        refine Pc.locks_sched hwf hb ?_
        rintro lk' next rfl
        -- the thread is asleep, or has been woken up
        refine hal (.inl p) next (.inr ?_)
        rw [hpt]
        unfold Pc.point
        split
        · exact .inl ⟨_, _, rfl⟩
        · exact .inr ⟨_, rfl⟩
      rw [hpt, hnil] at hmem
      exact absurd hmem List.not_mem_nil

theorem no_schedLocks (hK : K.Balanced L) (hstart : L start = [])
    (hsl : ∀ a : Client ι D κ Λ C, a.Reaches K allow data start → a.Sleeps K L)
    (h : Run (step K) (Heeds allow) (boot data start) s) (act : C × Act ι) :
    step K s act ≠ .error (.panic .schedLocks) := by
  intro he
  obtain ⟨p, k, hh, hl, hpc, hno⟩ := step_schedLocks he
  exact hno (sched_one_lock hK hstart hsl h hh hl hpc)

end Runs
end Xv6.Sched
