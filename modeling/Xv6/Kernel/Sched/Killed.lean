import Xv6.Kernel.Sched.Calls
import Mathlib.Tactic

/-! Loops that test `killed` before they sleep. Between the test and the `acquire` of `p->lock` in
`sleep`, `kill` does not wake the process up, and the process does not notice it. -/
namespace Xv6.Sched
open Lib

variable {ι D κ Λ C : Type}

/-- The labels in `win` come after a test that has found `killed` to be 0, and lead to a `sleep` on
one of the channels in `loop`. -/
def Instr.Tests (win : ι → Prop) (loop : κ → Prop) (l : ι) : Instr ι D κ Λ → Prop
  | .run f => ∀ d n, win (f d true n).2 → win l
  | .acquire _ next | .release _ next | .wakeup _ next => win next → win l
  | .sleep chan _ next => (loop chan → win l) ∧ ¬ win next
  | .kill _ next | .wait _ next => ∀ r, ¬ win (next r)
  | .fork child next => ¬ win child ∧ ∀ r, ¬ win (next r)
  | .exit _ | .iret => True

/-- Where a thread is between the test and the `acquire`. -/
def Pc.Open (win : ι → Prop) (loop : κ → Prop) : Pc ι κ Λ → Prop
  | .code l | .wakeup _ _ l => win l
  | .sleep chan _ _ => loop chan
  | .yield k | .yieldRelease k | .sched k => k.Open win loop
  | _ => False

/-- And where it has `p->lock`. -/
def Pc.Closed (loop : κ → Prop) : Pc ι κ Λ → Prop
  | .sleepRelease chan .. | .sleepMark chan .. => loop chan
  | .waitSleep .. => True
  | _ => False

/-- What comes after a call is not between the test and the `acquire`. -/
def Pc.Leaves (win : ι → Prop) : Pc ι κ Λ → Prop
  | .sleep _ _ l | .sleepRelease _ _ l | .sleepMark _ _ l | .sleepTidy _ l | .sleepAcquire _ l | .forkret l => ¬ win l
  | .kill _ _ next => ∀ r, ¬ win (next r)
  | .alloc _ child next | .allocFound _ child next => ¬ win child ∧ ∀ r, ¬ win (next r)
  | .forkRun _ next | .wait _ next | .waitScan _ _ _ next | .waitChild _ _ next | .waitSleep _ next | .waitTidy _ next =>
    ∀ r, ¬ win (next r)
  | .yield k | .yieldRelease k | .sched k => k.Leaves win
  | _ => True

/-- What a process sleeps on in `wait`, or in one of the loops. -/
def Chan.Loop (loop : κ → Prop) : Chan κ → Prop
  | .proc _ => True
  | .other chan => loop chan

/-- `kill` does not reach a process between the test and the `acquire`. -/
def Spares (win : ι → Prop) (loop : κ → Prop) (s : State ι D κ Λ C) (act : C × Act ι) : Prop :=
  match (s.cpu act.1).loc with
  | .run p =>
    match (s.proc p).pc with
    | .kill pid i _ => ∀ q : Slot, q = i → (s.proc q).pid = pid → ¬ (s.proc q).pc.Open win loop
    | _ => True
  | _ => True

section Decide
variable {win : ι → Prop} {loop : κ → Prop} [DecidablePred win] [DecidablePred loop]

def Pc.decOpen : (k : Pc ι κ Λ) → Decidable (k.Open win loop)
  | .code l | .wakeup _ _ l => inferInstanceAs (Decidable (win l))
  | .sleep chan _ _ => inferInstanceAs (Decidable (loop chan))
  | .yield k | .yieldRelease k | .sched k => k.decOpen
  | .sleepRelease .. | .sleepMark .. | .sleepTidy .. | .sleepAcquire .. | .kill .. | .alloc .. | .allocFound ..
  | .forkRun .. | .forkret .. | .exit .. | .exitParent .. | .exitLock .. | .exitSelf .. | .reparent ..
  | .reparentChild .. | .exitZombie .. | .zombieExit | .wait .. | .waitScan .. | .waitChild .. | .waitSleep ..
  | .waitTidy .. => inferInstanceAs (Decidable False)

instance (k : Pc ι κ Λ) : Decidable (k.Open win loop) := k.decOpen

def Pc.decSpares (P : ℤ → ℕ → Prop) (hP : ∀ pid i, Decidable (P pid i)) (k : Pc ι κ Λ) :
    Decidable (match k with | .kill pid i _ => P pid i | _ => True) := by
  apply @Pc.casesOn _ _ _ _ k <;> intros <;> first | exact instDecidableTrue | exact hP _ _

def Loc.decSpares (P : Slot → Prop) (hP : ∀ p, Decidable (P p)) :
    (l : Loc) → Decidable (match l with | .run p => P p | _ => True)
  | .run p => hP p
  | .scan _ | .back _ => inferInstanceAs (Decidable True)

instance (s : State ι D κ Λ C) (act : C × Act ι) : Decidable (Spares win loop s act) := by
  unfold Spares
  exact Loc.decSpares _ (fun p => (s.proc p).pc.decSpares _ fun _ _ => inferInstance) _

end Decide

variable {K : Kernel ι D κ Λ} {win : ι → Prop} {loop : κ → Prop} {s s' : State ι D κ Λ C} {c : C} {n : ℕ} {p q : Slot}
  {k : Pc ι κ Λ} {r : Proc ι κ Λ C}

/-- A process that is about to sleep in one of the loops, or sleeps there, has not been killed. -/
structure Proc.Alert (win : ι → Prop) (loop : κ → Prop) (r : Proc ι κ Λ C) : Prop where
  leaves : r.pc.Leaves win
  falls : r.state ≠ .unused → r.pc.Open win loop ∨ r.pc.Closed loop → r.killed = false
  sleeps : ∀ chan, r.state = .sleeping → r.chan = some chan → chan.Loop loop → r.killed = false

namespace Proc.Alert

theorem of_running (hst : r.state = .running) (hn : r.pc.Leaves win)
    (h : r.pc.Open win loop ∨ r.pc.Closed loop → r.killed = false) : r.Alert win loop :=
  ⟨hn, fun _ => h, fun chan hs => by simp [hst] at hs⟩

theorem wake [DecidableEq κ] (h : r.Alert win loop) (chan : Chan κ) : (r.wake chan).Alert win loop := by
  unfold Proc.wake
  split_ifs with hr
  · exact ⟨h.leaves, fun _ => h.falls (by simp [hr.1]), fun _ hs => by simp at hs⟩
  · exact h

theorem setLock (h : r.Alert win loop) (l : Option C) : { r with lock := l }.Alert win loop :=
  ⟨h.leaves, h.falls, h.sleeps⟩

end Proc.Alert

/-- All processes. -/
def State.Alert (win : ι → Prop) (loop : κ → Prop) (s : State ι D κ Λ C) : Prop := ∀ p, (s.proc p).Alert win loop

namespace State.Alert

theorem own (h : s.Alert win loop) {f : Proc ι κ Λ C → Proc ι κ Λ C} (hproc : s'.proc = (s.setProc p f).proc)
    (hf : (f (s.proc p)).Alert win loop) : s'.Alert win loop := by
  intro q
  rw [hproc, State.setProc_proc]
  split_ifs with hq
  · subst hq
    exact hf
  · exact h q

theorem note (h : s.Alert win loop) (e : Event) : (s.note e).Alert win loop := h

theorem setPc (h : s.Alert win loop) (hst : (s.proc p).state = .running) (hproc : s'.proc = (s.setPc p k).proc)
    (hn : k.Leaves win) (hk : k.Open win loop ∨ k.Closed loop → (s.proc p).killed = false) : s'.Alert win loop :=
  h.own hproc (.of_running hst hn hk)

theorem touch (h : s.Alert win loop) {f : Proc ι κ Λ C → Proc ι κ Λ C} (hproc : s'.proc = ((s.setProc q f).setPc p k).proc)
    (hf : (f (s.proc q)).Alert win loop) (hst : ((s.setProc q f).proc p).state = .running) (hn : k.Leaves win)
    (hk : k.Open win loop ∨ k.Closed loop → ((s.setProc q f).proc p).killed = false) : s'.Alert win loop :=
  State.Alert.setPc (h.own rfl hf) hst hproc hn hk

end State.Alert

theorem Proc.wake_running [DecidableEq κ] (chan : Chan κ) (h : r.state = .running) : (r.wake chan).state = .running := by
  simp [Proc.wake, h]

theorem Pc.not_closed_of_held_nil (h : k.held p = []) : ¬ k.Closed loop := by
  intro hk
  cases k <;> simp [Pc.Closed, Pc.held] at hk h

theorem Pc.not_closed_of_resumes (h : k.Resumes) : ¬ k.Closed loop := by
  intro hk
  cases k <;> simp [Pc.Closed, Pc.Resumes] at hk h

theorem Inv.not_closed (h : Inv s) (hl : (s.proc q).lock = none) (hst : (s.proc q).state ≠ .unused) :
    ¬ (s.proc q).pc.Closed loop := by
  intro hk
  have hres : ¬ (s.proc q).pc.Resumes := by
    cases hpc : (s.proc q).pc <;> simp [hpc, Pc.Closed, Pc.Resumes] at hk ⊢
  by_cases hon : ∃ c, s.On c q
  · obtain ⟨c, hon⟩ := hon
    rcases hon.cases with hc | hc
    · have hmem : q ∈ (s.proc q).pc.held q := by
        cases hpc : (s.proc q).pc <;> simp [hpc, Pc.Closed, Pc.held] at hk ⊢
      simp [(h.mem_held hc).mpr hmem] at hl
    · exact hres (h.back c q hc).1
  · obtain ⟨hrun, hpark⟩ := h.off q (not_exists.mp hon)
    refine hres (hpark ?_)
    cases hs : (s.proc q).state <;> simp [hs, ProcState.Parked] at hst hrun ⊢

namespace State.Alert

theorem thread [DecidableEq κ] [DecidableEq Λ] {act : Act ι} (hK : ∀ l, (K.code l).Tests win loop l) (hi : Inv s)
    (h : s.Alert win loop) (hl : (s.cpu c).loc = .run p) (hok : Spares win loop s (c, act))
    (hs : ThreadTrans K.code s c n p (s.proc p).pc s') : s'.Alert win loop := by
  obtain ⟨hst, hat⟩ := hi.run c p hl
  have hn := (h p).leaves
  have hp := (h p).falls hst.ne_unused
  unfold Spares at hok
  simp only [hl] at hok
  generalize hk : (s.proc p).pc = k at hs hn hp hst hat hok
  have hrun : (s.proc p).state = .running := by cases hs <;> exact hst
  have hstays : ∀ (q : Slot) (f : Proc ι κ Λ C → Proc ι κ Λ C), (q = p → (f (s.proc q)).state = (s.proc q).state) →
      ((s.setProc q f).proc p).state = .running := fun q f hf => by
    rw [State.setProc_proc]
    split_ifs with hq
    · subst hq
      exact (hf rfl).trans hrun
    · exact hrun
  have hwake : ∀ chan (q : Slot), ((s.setProc q fun r => r.wake chan).proc p).state = .running := fun chan q =>
    hstays q _ fun hq => by
      subst hq
      exact (Proc.wake_running chan hrun).trans hrun.symm
  have hno : ∀ {P : Prop}, False ∨ False → P := fun h => (h.elim id id).elim
  cases hs with
  | @acquire l lk next hc | @release l lk next hc =>
    have ht := hK l
    rw [hc] at ht
    exact h.setPc hrun rfl trivial fun ho => hp (.inl (ht (ho.resolve_right id)))
  | @run l f hc =>
    have ht := hK l
    rw [hc] at ht
    refine h.setPc hrun rfl trivial fun ho => ?_
    by_contra hkd
    rw [Bool.not_eq_false] at hkd
    rw [hkd] at ho
    simp [hp (.inl (ht _ _ (ho.resolve_right id)))] at hkd
  | @call l k' he =>
    have ht := hK l
    cases hc : K.code l <;> rw [hc] at he ht <;> cases he
    · exact h.setPc hrun rfl ht.2 fun ho => hp (.inl (ht.1 (ho.resolve_right id)))
    · exact h.setPc hrun rfl trivial fun ho => hp (.inl (ht (ho.resolve_right id)))
    all_goals exact h.setPc hrun rfl ht hno
  | sleep => exact h.own rfl (.of_running hrun hn fun ho => hp (.inl (ho.resolve_left id)))
  | sleepRelease => exact h.setPc hrun rfl hn fun ho => hp (.inr (ho.resolve_left id))
  | @sleepMark chan lk next =>
    refine h.own rfl ⟨hn, fun _ => hno, fun ch _ hch hloop => hp (.inr ?_)⟩
    obtain rfl := Option.some.inj hch
    exact hloop
  | sleepTidy | wait | waitTidy => exact h.own rfl (.of_running hrun hn hno)
  | sleepAcquire => exact h.setPc hrun rfl trivial fun ho => absurd (ho.resolve_right id) hn
  | @wakeup chan next q =>
    refine h.touch rfl ((h q).wake _) (hwake _ _) trivial fun ho => ?_
    rw [State.setProc_proc]
    split_ifs
    · rw [Proc.wake_killed]
      exact hp ho
    · exact hp ho
  | wakeupDone => exact h.setPc hrun rfl trivial hp
  | @killHit pid next q hlock hpid =>
    refine h.touch rfl ⟨(h q).leaves, fun hu ho => ?_, fun _ hs => ?_⟩ ?_ trivial fun ho => absurd (ho.resolve_right id) (hn _)
    · have hst' : (s.proc q).state ≠ .unused := fun he => hu (by simp [Proc.kill, he])
      rcases ho with ho | ho
      · exact absurd ho (hok q rfl hpid)
      · exact absurd ho (hi.not_closed hlock hst')
    · simp only [Proc.kill] at hs
      split_ifs at hs with hsl
      exact absurd hs hsl
    · refine hstays q _ fun hq => ?_
      subst hq
      simp [Proc.kill, hrun]
  | killMiss | allocUsed | waitHit | waitMiss | waitAlive => exact h.setPc hrun rfl hn hno
  | killDone => exact h.setPc hrun rfl trivial fun ho => absurd (ho.resolve_right id) (hn _)
  | allocDone => exact h.setPc hrun rfl trivial fun ho => absurd (ho.resolve_right id) (hn.2 _)
  | yield => exact h.own rfl ⟨hn, fun _ ho => hp (.inl (ho.resolve_right id)), fun _ hs => by simp at hs⟩
  | @yieldRelease k =>
    have hwf := hi.wf p
    rw [hk] at hwf
    refine h.own rfl (.of_running hrun hn fun ho => hp (.inl (ho.resolve_right ?_)))
    exact Pc.not_closed_of_held_nil hwf.1
  | @allocUnused child next q =>
    exact h.touch rfl ((h q).setLock _) (hstays _ _ fun _ => rfl) hn hno
  | @noTrapframe np child next =>
    refine State.Alert.touch (s := { s with nextpid := (s.nextpid + 1).bmod (2 ^ 32) }) h rfl ?_ ?_ trivial fun ho =>
      absurd (ho.resolve_right id) (hn.2 _)
    · exact ⟨(h np).leaves, (h np).falls, (h np).sleeps⟩
    · exact hstays np (fun r => { r with pid := s.nextpid, lock := none }) fun _ => rfl
  | @noMemory np child next =>
    refine (State.Alert.touch (s := { s with nextpid := (s.nextpid + 1).bmod (2 ^ 32) }) h rfl ?_ ?_ ?_ ?_).note _
    · exact ⟨(h np).leaves, fun hu => absurd rfl hu, fun _ hs => by cases hs⟩
    · exact hstays np (fun r => { r.freeproc with lock := none }) fun _ => (show _ = _ from hat).symm
    · trivial
    · exact fun ho => absurd (ho.resolve_right id) (hn.2 _)
  | @allocFound np child next =>
    refine State.Alert.touch (s := { s with nextpid := (s.nextpid + 1).bmod (2 ^ 32) }) h rfl ?_ ?_ hn.2 hno
    · refine ⟨hn.1, fun _ => hno, (h np).sleeps⟩
    · exact hstays np (fun r => { r with pid := s.nextpid, parent := some p, pc := .forkret child }) fun _ => rfl
  | @forkRun np next =>
    obtain ⟨hu, l, hpc⟩ := hat
    refine (State.Alert.touch h rfl ?_ ?_ ?_ ?_).note _
    · refine ⟨(h np).leaves, fun _ ho => ?_, fun _ hs => by cases hs⟩
      rw [hpc] at ho
      exact hno ho
    · refine hstays np _ fun hq => ?_
      subst hq
      simp [hrun] at hu
    · trivial
    · exact fun ho => absurd (ho.resolve_right id) (hn _)
  | forkret => exact h.own rfl (.of_running hrun trivial fun ho => absurd (ho.resolve_right id) hn)
  | exiting | exitParent | reparentHit | reparentMiss | reparentDone => exact h.setPc hrun rfl trivial hno
  | exit => exact h.touch rfl ((h _).wake _) (hwake _ _) trivial hno
  | exitLock => exact h.touch rfl ((h _).setLock _) (hstays _ _ fun _ => rfl) trivial hno
  | exitSelf => exact h.own rfl (.of_running hrun trivial hno)
  | @reparentChild status parent pp =>
    refine (State.Alert.touch h rfl ?_ ?_ ?_ ?_).note _
    · exact ⟨(h pp).leaves, (h pp).falls, (h pp).sleeps⟩
    · exact hstays _ _ fun _ => rfl
    · trivial
    · exact hno
  | @exitZombie status parent =>
    refine (State.Alert.own (h.own rfl (((h parent).wake _).setLock none)) rfl ?_).note _
    exact ⟨trivial, fun _ => hno, fun _ hs => by cases hs⟩
  | waitReturn | waitFault =>
    exact h.own rfl (.of_running hrun trivial fun ho => absurd (ho.resolve_right id) (hn _))
  | waitDone _ hkd => exact h.setPc hrun rfl hn fun _ => hkd
  | @waitReap addr np next _ hz =>
    refine (State.Alert.own (h.own (f := Proc.freeproc) rfl ?_) rfl ?_).note _
    · exact ⟨(h np).leaves, fun hu => absurd rfl hu, fun _ hs => by cases hs⟩
    · refine .of_running (hstays np Proc.freeproc fun hq => ?_) trivial fun ho => absurd (ho.resolve_right id) (hn _)
      subst hq
      simp [hrun] at hz
  | waitSleep => exact h.own rfl ⟨hn, fun _ => hno, fun ch _ hch hloop => hp (.inr trivial)⟩

theorem trans [DecidableEq κ] [DecidableEq Λ] [DecidableEq C] {act : Act ι} (hK : ∀ l, (K.code l).Tests win loop l)
    (hi : Inv s) (h : s.Alert win loop) (hok : Spares win loop s (c, act)) (hs : Trans K s c act s') :
    s'.Alert win loop := by
  cases hs with
  | thread _ hl hs => exact h.thread hK hi hl hok hs
  | handler _ hs =>
    cases hs with
    | @wakeup chan next q => exact h.own (f := fun r => r.wake (.other chan)) rfl ((h q).wake _)
    | _ => exact h
  | @swtch _ p k _ _ hpc =>
    have hp := h p
    have hwf := hi.wf p
    rw [hpc] at hwf
    refine h.own (f := fun q => { q with pc := k }) rfl ⟨?_, fun hu ho => hp.falls hu (.inl ?_), hp.sleeps⟩
    · have hn := hp.leaves
      rw [hpc] at hn
      exact hn
    · rw [hpc]
      exact ho.resolve_right (Pc.not_closed_of_resumes hwf.1)
  | @pick _ i _ _ _ hst =>
    exact h.own (f := fun q => { q with state := .running, lock := some c }) rfl
      (.of_running rfl (h i).leaves ((h i).falls (by simp [hst])))
  | @back _ i => exact h.own (f := fun q => { q with lock := none }) rfl ((h i).setLock none)
  | @timer p _ _ _ hst =>
    refine h.own rfl (.of_running hst (h p).leaves fun ho => (h p).falls (by simp [hst]) (.inl ?_))
    exact ho.resolve_right id
  | _ => exact h

end State.Alert

section Runs
variable [DecidableEq κ] [DecidableEq Λ] [Fintype Λ] [DecidableEq C] {data : D} {start : ι}

theorem killed_awake (hK : ∀ l, (K.code l).Tests win loop l) (hstart : ¬ win start)
    (h : Run (step K) (Spares win loop) (boot data start) s) {chan : Chan κ} (hst : (s.proc p).state = .sleeping)
    (hch : (s.proc p).chan = some chan) (hloop : chan.Loop loop) : (s.proc p).killed = false := by
  have hal := (run_induct h (J := fun s => s.Alert win loop) (fun q => ?_)
    fun s c a s' hi hj hok ht => hj.trans hK hi hok ht).2
  · exact (hal p).sleeps chan hst hch hloop
  · simp only [boot]
    split_ifs
    · exact ⟨hstart, fun _ ho => (ho.elim id id).elim, fun _ hs => by cases hs⟩
    · exact ⟨trivial, fun _ ho => (ho.elim id id).elim, fun _ hs => by cases hs⟩

end Runs
end Xv6.Sched
