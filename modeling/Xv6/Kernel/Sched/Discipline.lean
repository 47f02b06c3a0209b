import Xv6.Kernel.Sched.Threads
import Xv6.Lib.Run
import Mathlib.Tactic

/-! The discipline of locks holds in every run, on any number of CPUs. -/
namespace Xv6.Sched
open Lib

variable {ι D κ Λ C : Type} {s s' : State ι D κ Λ C} {c : C} {n : ℕ} {a : Act ι} {p q : Slot} {k : Pc ι κ Λ}

namespace Inv

theorem soft (h : Inv s) (hloc : ∀ c, (s'.cpu c).loc = (s.cpu c).loc)
    (hcpu : ∀ c, (s'.cpu c).proc = (s.cpu c).proc) (hlock : ∀ q, (s'.proc q).lock = (s.proc q).lock)
    (hproc : ∀ q, s'.proc q = s.proc q ∨ (s.proc q).lock = none ∧ (s.proc q).Soft (s'.proc q)) : Inv s' := by
  have hon : ∀ c q, s'.On c q ↔ s.On c q := fun c q => by unfold State.On; rw [hloc]
  have hpc : ∀ q, (s'.proc q).pc = (s.proc q).pc := by
    intro q
    rcases hproc q with he | ⟨-, hs⟩
    · rw [he]
    · exact hs.1
  have hst : ∀ q, (s'.proc q).state = (s.proc q).state ∨ (s.proc q).state = .sleeping ∧
      (s'.proc q).state = .runnable ∧ (s.proc q).lock = none := by
    intro q
    rcases hproc q with he | ⟨hl, -, hst | ⟨hst, hst'⟩⟩
    · exact .inl (by rw [he])
    · exact .inl hst
    · exact .inr ⟨hst, hst', hl⟩
  have hsame : ∀ c q, s.On c q → (s'.proc q).state = (s.proc q).state := by
    intro c q hq
    rcases hst q with he | ⟨he, -, hl⟩
    · exact he
    · exact absurd hq (h.not_on (c := c) (by simp [he]) (.inl hl) c)
  refine ⟨fun c => ?_, fun c c' q => ?_, fun q => ?_, fun c q => ?_, fun c q hq => ?_, fun c q hq => ?_,
    fun q hq => ?_⟩
  · rw [hloc, hcpu]
    exact h.proc c
  · rw [hon, hon]
    exact h.uniq c c' q
  · rw [hpc]
    exact h.wf q
  · rw [hlock, State.heldBy_congr (hloc c) fun r _ => hpc r]
    exact h.lock c q
  · rw [hloc] at hq
    rw [hpc, hsame c q (State.on_run hq)]
    refine ⟨(h.run c q hq).1, (h.run c q hq).2.congr (p := q) fun r hr hu => ⟨?_, hpc r⟩⟩
    exact (hst r).resolve_right fun he => by simp [he.1] at hu
  · rw [hloc] at hq
    rw [hpc, hsame c q (State.on_back hq)]
    exact h.back c q hq
  · simp only [hon] at hq
    rw [hpc]
    rcases hst q with he | ⟨he, he', -⟩
    · rw [he]
      exact h.off q hq
    · exact ⟨by simp [he'], fun _ => (h.off q hq).2 (.inr (.inl he))⟩

/-- A step of the scheduler, or the switch to it: of the processes only `i` is concerned, which is
on no other CPU. -/
theorem switch (h : Inv s) (hcpu : ∀ c' ≠ c, s'.cpu c' = s.cpu c') (hproc : ∀ q ≠ p, s'.proc q = s.proc q)
    (hc : (s'.cpu c).proc = (s'.cpu c).loc.proc) (hp : ∀ c' ≠ c, ¬ s.On c' p)
    (hon : ∀ q, s.On c q ∨ s'.On c q → q = p)
    (hheld : ∀ q, q ∈ s.heldBy c ∨ q ∈ s'.heldBy c → q = p)
    (hl : (s.proc p).lock = none ∨ (s.proc p).lock = some c)
    (hlock : (s'.proc p).lock = if p ∈ s'.heldBy c then some c else none)
    (hwf : (s'.proc p).pc.Wf p)
    (hrun : (s'.cpu c).loc = .run p → (s'.proc p).pc.Runs (s'.proc p).state ∧ s'.At (s'.proc p).pc)
    (hback : (s'.cpu c).loc = .back p → (s'.proc p).pc.Resumes ∧ (s'.proc p).state.Parked)
    (hoff : ¬ s'.On c p → (s'.proc p).state ≠ .running ∧ ((s'.proc p).state.Parked → (s'.proc p).pc.Resumes)) :
    Inv s' := by
  have hon' : ∀ c' ≠ c, ∀ q, s'.On c' q ↔ s.On c' q := fun c' hne q => by unfold State.On; rw [hcpu c' hne]
  have hne : ∀ c' ≠ c, ∀ q, s.On c' q → q ≠ p := by
    rintro c' hne q hq rfl
    exact hp c' hne hq
  refine ⟨fun c' => ?_, fun c' c'' q hq hq' => ?_, fun q => ?_, fun c' q => ?_, fun c' q hq => ?_,
    fun c' q hq => ?_, fun q hq => ?_⟩
  · by_cases hc' : c' = c
    · rw [hc', hc]
    · rw [hcpu c' hc']
      exact h.proc c'
  · by_cases hc' : c' = c <;> by_cases hc'' : c'' = c
    · rw [hc', hc'']
    · subst hc'
      rw [hon' c'' hc''] at hq'
      exact absurd (hon q (.inr hq)) (hne c'' hc'' q hq')
    · subst hc''
      rw [hon' c' hc'] at hq
      exact absurd (hon q (.inr hq')) (hne c' hc' q hq)
    · rw [hon' c' hc'] at hq
      rw [hon' c'' hc''] at hq'
      exact h.uniq c' c'' q hq hq'
  · by_cases hq : q = p
    · rwa [hq]
    · rw [hproc q hq]
      exact h.wf q
  · by_cases hc' : c' = c
    · subst hc'
      by_cases hq : q = p
      · subst hq
        rw [hlock]
        split_ifs with hm <;> simp [hm]
      · rw [hproc q hq, h.lock]
        exact ⟨fun hm => absurd (hheld q (.inl hm)) hq, fun hm => absurd (hheld q (.inr hm)) hq⟩
    · have hheld' : s'.heldBy c' = s.heldBy c' :=
        State.heldBy_congr (by rw [hcpu c' hc']) fun q hq => by rw [hproc q (hne c' hc' q hq)]
      rw [hheld', ← h.lock]
      by_cases hq : q = p
      · subst hq
        have hcc : c ≠ c' := fun he => hc' he.symm
        rw [hlock]
        rcases hl with hl | hl <;> rw [hl] <;> split_ifs <;> simp [hcc]
      · rw [hproc q hq]
  · by_cases hc' : c' = c
    · subst hc'
      obtain rfl := hon q (.inr (State.on_run hq))
      exact hrun hq
    · rw [hcpu c' hc'] at hq
      rw [hproc q (hne c' hc' q (State.on_run hq))]
      refine ⟨(h.run c' q hq).1, (h.run c' q hq).2.congr (p := q) fun r hr _ => ?_⟩
      have hr' : r ≠ p := by
        rintro rfl
        have hlr := (h.mem_held hq).mpr hr
        rcases hl with hl | hl <;> rw [hl] at hlr
        · cases hlr
        · exact hc' (Option.some.inj hlr).symm
      rw [hproc r hr']
      exact ⟨rfl, rfl⟩
  · by_cases hc' : c' = c
    · subst hc'
      obtain rfl := hon q (.inr (State.on_back hq))
      exact hback hq
    · rw [hcpu c' hc'] at hq
      rw [hproc q (hne c' hc' q (State.on_back hq))]
      exact h.back c' q hq
  · by_cases hqp : q = p
    · subst hqp
      exact hoff (hq c)
    · rw [hproc q hqp]
      refine h.off q fun c' hc' => ?_
      by_cases hcc : c' = c
      · subst hcc
        exact hqp (hon q (.inl hc'))
      · exact hq c' ((hon' c' hcc q).mpr hc')

theorem scan [DecidableEq C] (h : Inv s) {i : Slot} (hl : (s.cpu c).loc = .scan i) (j : Slot) :
    Inv (s.setLoc c none (.scan j)) := by
  have hloc : ∀ c' l, (∀ j, l ≠ .scan j) →
      (((s.setLoc c none (.scan j)).cpu c').loc = l ↔ (s.cpu c').loc = l) := by
    intro c' l hne
    rw [State.setLoc_cpu]
    split_ifs with hc
    · subst hc
      simp only [hl]
      exact ⟨fun he => absurd he.symm (hne j), fun he => absurd he.symm (hne i)⟩
    · rfl
  have hon : ∀ c' q, (s.setLoc c none (.scan j)).On c' q ↔ s.On c' q := by
    intro c' q
    unfold State.On
    rw [State.setLoc_cpu]
    split_ifs with hc
    · subst hc
      simp [hl, Loc.proc]
    · rfl
  have hheld : ∀ c', (s.setLoc c none (.scan j)).heldBy c' = s.heldBy c' := by
    intro c'
    unfold State.heldBy
    rw [State.setLoc_cpu]
    split_ifs with hc
    · subst hc
      simp [hl]
    · rfl
  refine ⟨fun c' => ?_, fun c' c'' q => ?_, h.wf, fun c' q => ?_, fun c' q hq => ?_, fun c' q hq => ?_,
    fun q hq => ?_⟩
  · rw [State.setLoc_cpu]
    split_ifs
    · rfl
    · exact h.proc c'
  · rw [hon, hon]
    exact h.uniq c' c'' q
  · rw [hheld]
    exact h.lock c' q
  · rw [hloc c' _ (by simp)] at hq
    exact h.run c' q hq
  · rw [hloc c' _ (by simp)] at hq
    exact h.back c' q hq
  · simp only [hon] at hq
    exact h.off q hq

variable [DecidableEq κ] [DecidableEq Λ] [DecidableEq C] {K : Kernel ι D κ Λ}

theorem handler (h : Inv s) (ht : HandlerTrans K.code s c n k s') : Inv s' := by
  cases ht with
  | acquire | release | run | call | iret | wakeupDone =>
    exact h.soft (State.setHandler_loc _ c _) (State.setHandler_curproc _ c _) (fun _ => rfl) fun _ => .inl rfl
  | @wakeup chan next q hq =>
    refine h.soft (State.setHandler_loc _ c _) (State.setHandler_curproc _ c _) (fun r => ?_) fun r => ?_
    · rw [State.setHandler_proc, State.setProc_proc]
      split_ifs <;> simp
    · rw [State.setHandler_proc, State.setProc_proc]
      split_ifs with he
      · exact .inr ⟨he ▸ hq, (s.proc r).soft_wake _⟩
      · exact .inl rfl

/-- Every step keeps the discipline of locks. -/
theorem trans (h : Inv s) (ht : Trans K s c a s') : Inv s' := by
  cases ht with
  | thread _ hl ht => exact h.thread hl (h.threadStep hl ht)
  | handler _ ht => exact h.handler ht
  | @swtch _ p k _ hl hk hlock ho hst =>
    obtain ⟨hres, hwf⟩ : k.Resumes ∧ k.Wf p := by simpa [hk, Pc.Wf] using h.wf p
    have hpark : (s.proc p).state.Parked := by simpa [hk, Pc.Runs] using (h.run c p hl).1
    have hback : (((s.setPc p k).setLoc c (s.cpu c).proc (.back p)).cpu c).loc = .back p := by simp
    refine h.switch (c := c) (p := p) (fun c' hc => by simp [hc]) (fun q hq => by simp [hq]) ?_
      (fun c' hc hon => hc (h.uniq c' c p hon (State.on_run hl))) (fun q hq => ?_) (fun q hq => ?_) (.inr hlock)
      ?_ (by simpa using hwf) (by simp) (fun _ => by simpa using ⟨hres, hpark⟩)
      fun hoff => absurd (State.on_back hback) hoff
    · simpa [hl, Loc.proc] using h.proc c
    · simpa [State.On, hl, Loc.proc, eq_comm] using hq
    · simpa [State.heldBy_run hl, hk, Pc.held, State.heldBy_back hback] using hq
    · simpa [State.heldBy_back hback] using hlock
  | @skip _ i _ hl hlock => exact h.scan hl i.next
  | @pick _ i _ hl hlock hst =>
    have hoff : ∀ c', ¬ s.On c' i := h.not_on (c := c) (by simp [hst]) (.inl hlock)
    have hres : (s.proc i).pc.Resumes := (h.off i hoff).2 (.inl hst)
    have hrun : (((s.setProc i fun q => { q with state := .running, lock := some c }).setLoc c (some i)
        (.run i)).cpu c).loc = .run i := by simp
    refine h.switch (c := c) (p := i) (fun c' hc => by simp [hc]) (fun q hq => by simp [hq]) (by simp [Loc.proc])
      (fun c' _ => hoff c') (fun q hq => ?_) (fun q hq => ?_) (.inl hlock) ?_ (by simpa using h.wf i)
      (fun _ => ?_) (by simp) fun hoff => absurd (State.on_run hrun) hoff
    · simpa [State.On, hl, Loc.proc, eq_comm] using hq
    · simpa [State.heldBy, hl, Pc.held_of_resumes hres] using hq
    · simp [State.heldBy_run hrun, Pc.held_of_resumes hres]
    · simpa using ⟨Pc.runs_of_resumes hres, State.at_of_resumes hres⟩
  | @back _ i _ hl hlock =>
    obtain ⟨hres, hpark⟩ := h.back c i hl
    refine h.switch (c := c) (p := i) (fun c' hc => by simp [hc]) (fun q hq => by simp [hq]) (by simp [Loc.proc])
      (fun c' hc hon => hc (h.uniq c' c i hon (State.on_back hl))) (fun q hq => ?_) (fun q hq => ?_)
      (.inr hlock) ?_ (by simpa using h.wf i) (by simp) (by simp) fun _ => ?_
    · simpa [State.On, hl, Loc.proc, eq_comm] using hq
    · simpa [State.heldBy, hl] using hq
    · simp [State.heldBy]
    · simpa using ⟨hpark.ne_running, fun _ => hres⟩
  | @timer p _ hl ho hst =>
    have hheld : (s.proc p).pc.held p = [] :=
      List.eq_nil_iff_forall_not_mem.mpr fun q hq => by simpa using ho.1 q ((h.mem_held hl).mpr hq)
    exact h.thread hl (h.threadStep_setPc hl hst rfl rfl hheld.symm ⟨hheld, h.wf p⟩ rfl trivial)
  | dma => exact h.soft (fun _ => rfl) (fun _ => rfl) (fun _ => rfl) fun _ => .inl rfl
  | device => exact h.soft (State.setHandler_loc _ c _) (State.setHandler_curproc _ c _) (fun _ => rfl) fun _ => .inl rfl

end Inv

theorem inv_boot (data : D) (start : ι) : Inv (boot data start : State ι D κ Λ C) := by
  have hoff : ∀ c p, ¬ (boot data start : State ι D κ Λ C).On c p := fun c p h => by cases h
  refine ⟨fun c => rfl, fun c c' p h => absurd h (hoff c p), fun p => ?_, fun c q => ?_, fun c p h => ?_,
    fun c p h => ?_, fun p _ => ?_⟩
  · simp only [boot]
    split_ifs <;> trivial
  · have hl : ((boot data start : State ι D κ Λ C).proc q).lock = none := by
      simp only [boot]
      split_ifs <;> rfl
    rw [hl]
    simp [State.heldBy, boot]
  · cases h
  · cases h
  · simp only [boot]
    split_ifs <;> simp [ProcState.Parked, Pc.Resumes]

section Runs
variable [DecidableEq κ] [DecidableEq Λ] [DecidableEq C] {K : Kernel ι D κ Λ} {data : D} {start : ι}

/-- The process that `freeproc` has been called for. -/
def Event.freed : Event → Option Slot
  | .reaped _ np _ _ | .discarded _ np => some np
  | _ => none

theorem Inv.not_on_freed {e : Event} (h : Inv s) (ht : Trans K s c a s') (hlog : s'.log = e :: s.log)
    (he : e.freed = some q) (c' : C) : ¬ s.On c' q := by
  have hne : ∀ {l : List Event}, l ≠ e :: l := fun hl => by simpa using congrArg List.length hl
  cases ht with
  | @thread _ p _ _ hl ht =>
    obtain ⟨hruns, hat⟩ := h.run c p hl
    have hmem : ∀ q, q ∈ (s.proc p).pc.held p → (s.proc q).lock = some c := fun q => (h.mem_held hl).mpr
    have hnot : q ≠ p → ¬ s.On c q := fun hqp hon => hqp (by simpa [State.On, hl, Loc.proc, eq_comm] using hon)
    generalize hk : (s.proc p).pc = k at ht hruns hat hmem
    cases ht with
    | @noMemory np =>
      obtain rfl := (List.cons.inj hlog).1
      obtain rfl : np = q := Option.some.inj he
      have hst : (s.proc np).state = .unused := hat
      have hnp : np ≠ p := by
        rintro rfl
        exact hruns.ne_unused hst
      exact h.not_on (c := c) (by simp [hst]) (.inr ⟨hmem np (List.mem_singleton_self np), hnot hnp⟩) c'
    | @waitReap _ np _ hlock hst =>
      obtain rfl := (List.cons.inj hlog).1
      obtain rfl : np = q := Option.some.inj he
      exact h.not_on (c := c) (by simp [hst]) (.inl hlock) c'
    | exiting | forkRun | reparentChild | exitZombie =>
      obtain rfl := (List.cons.inj hlog).1
      cases he
    | _ => exact absurd hlog hne
  | handler _ ht => cases ht <;> exact absurd hlog hne
  | _ => exact absurd hlog hne

variable [Fintype Λ]

/-- `s` is a state that the kernel reaches after boot. -/
def Reachable (K : Kernel ι D κ Λ) (data : D) (start : ι) (s : State ι D κ Λ C) : Prop :=
  Run (step K) (fun _ _ => True) (boot data start) s

theorem run_induct {ok : State ι D κ Λ C → C × Act ι → Prop} {J : State ι D κ Λ C → Prop}
    (h : Run (step K) ok (boot data start) s) (h0 : J (boot data start))
    (hstep : ∀ s c a s', Inv s → J s → ok s (c, a) → Trans K s c a s' → J s') : Inv s ∧ J s := by
  refine Run.invariant (I := fun s => Inv s ∧ J s) h ⟨inv_boot data start, h0⟩ ?_
  rintro s ⟨c, a⟩ s' ⟨hi, hj⟩ ha hs
  exact ⟨hi.trans (step_cases hs), hstep s c a s' hi hj ha (step_cases hs)⟩

theorem Reachable.induct {J : State ι D κ Λ C → Prop} (h : Reachable K data start s)
    (h0 : J (boot data start)) (hstep : ∀ s c a s', Inv s → J s → Trans K s c a s' → J s') : J s :=
  (run_induct h h0 fun s c a s' hi hj _ ht => hstep s c a s' hi hj ht).2

theorem Reachable.inv (h : Reachable K data start s) : Inv s :=
  (run_induct h (J := fun _ => True) trivial fun _ _ _ _ _ _ _ _ => trivial).1

/-- One CPU per process, and no process is freed while a CPU is on its kernel stack. -/
theorem one_cpu_per_process (h : Reachable K data start s) :
    (∀ c c' p, (s.cpu c).proc = some p → (s.cpu c').proc = some p → c = c') ∧
    (∀ c p, s.On c p → (s.proc p).state = .running ∨ (s.proc p).lock = some c) ∧
    (∀ p, (s.proc p).state ∈ [.runnable, .sleeping, .unused] → (s.proc p).lock = none → ∀ c, ¬ s.On c p) ∧
    ∀ a s' e q, step K s a = .ok s' → s'.log = e :: s.log → e.freed = some q → ∀ c, ¬ s.On c q := by
  have hi := h.inv
  refine ⟨fun c c' p hc hc' => ?_, fun c p hon => ?_, fun p hst hl c => ?_, fun a s' e q hs hlog he => ?_⟩
  · rw [hi.proc] at hc hc'
    exact hi.uniq c c' p hc hc'
  · by_cases hst : (s.proc p).state = .running
    · exact .inl hst
    · exact .inr (hi.lock_of_on hon hst)
  · refine hi.not_on (c := c) ?_ (.inl hl) c
    rintro hrun
    simp [hrun] at hst
  · exact hi.not_on_freed (step_cases (a := a.2) hs) hlog he

end Runs

/-- Init forks and waits, its child exits. -/
def forkAndWait : Kernel (Fin 3) Unit Empty Empty where
  code
    | 0 => .fork 1 fun _ => 2
    | 1 => .exit 7
    | 2 => .wait 8 fun _ => 0
  handler _ := false
  dma d _ := d

/-- On two CPUs the child has exited, and `wait` is about to free it. -/
theorem one_cpu_per_process_reaping : ∃ (s : State (Fin 3) Unit Empty Empty Bool) (s' : _),
    Reachable forkAndWait () 0 s ∧ step forkAndWait s (false, .go 1) = .ok s' ∧
    s'.log = .reaped 0 1 2 (some 7) :: s.log ∧ (s.cpu false).proc = some 0 ∧ ∀ c, ¬ s.On c 1 := by
  obtain ⟨s, hrun, htest⟩ := exists_run_of_exec (step forkAndWait) (fun _ _ => True)
    (boot () 0 : State (Fin 3) Unit Empty Empty Bool)
    (List.replicate 8 (false, .go 2) ++ List.replicate 77 (true, .go 2) ++ List.replicate 3 (false, .go 2))
    (fun s => (step forkAndWait s (false, .go 1)).toOption.any fun s' : State (Fin 3) Unit Empty Empty Bool =>
      decide (s'.log = .reaped 0 1 2 (some 7) :: s.log ∧ (s.cpu false).proc = some 0)) (by decide +kernel)
  cases hstep : step forkAndWait s (false, .go 1) with
  | error e =>
    rw [hstep] at htest
    cases htest
  | ok s' =>
    rw [hstep] at htest
    obtain ⟨hlog, hproc⟩ := of_decide_eq_true htest
    exact ⟨s, s', hrun, hstep, hlog, hproc, (one_cpu_per_process hrun).2.2.2 _ s' _ 1 hstep hlog rfl⟩

end Xv6.Sched
