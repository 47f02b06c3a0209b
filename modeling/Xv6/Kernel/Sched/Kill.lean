import Xv6.Kernel.Sched.Discipline

/-! Which processes `kill` reaches. It looks for the pid without looking at the state, so what
matters is the pid in a slot that is `UNUSED`. -/
namespace Xv6.Sched
open Lib

variable {ι D κ Λ C : Type}

/-- `kill` is not given 0, and `fork` gets a page for the trapframe. -/
def Careful (s : State ι D κ Λ C) (act : C × Act ι) : Prop :=
  match act.2, (s.cpu act.1).handler, (s.cpu act.1).loc with
  | .go n, none, .run p =>
    match (s.proc p).pc with
    | .kill pid _ _ => pid ≠ 0
    | .allocFound .. => n ≠ 0
    | _ => True
  | _, _, _ => True

instance (s : State ι D κ Λ C) (act : C × Act ι) : Decidable (Careful s act) := by
  unfold Careful
  split
  · split <;> infer_instance
  · infer_instance

/-- A thread is in `fork`, with the new process in slot `p`. -/
def State.Forking (s : State ι D κ Λ C) (p : Slot) : Prop :=
  ∃ c q next, (s.cpu c).loc = .run q ∧ (s.proc q).pc = .forkRun p next

/-- A slot that is `UNUSED` has not been killed, and has no pid until `fork` gives it one. -/
def State.Blank (s : State ι D κ Λ C) : Prop :=
  ∀ p, (s.proc p).state = .unused → (s.proc p).killed = false ∧ ((s.proc p).pid = 0 ∨ s.Forking p)

/-- A process that is `UNUSED` after a step was so before, with the same pid; and no flag is set. -/
structure Proc.Mild (r r' : Proc ι κ Λ C) : Prop where
  unused : r'.state = .unused → r.state = .unused ∧ r'.pid = r.pid
  killed : r'.killed = r.killed

variable {K : Kernel ι D κ Λ} {s s' : State ι D κ Λ C} {c : C} {n : ℕ} {p q : Slot} {k : Pc ι κ Λ}
  {r r' : Proc ι κ Λ C}

theorem Proc.Mild.of_eq (hst : r'.state = r.state) (hk : r'.killed = r.killed) (hp : r'.pid = r.pid) : r.Mild r' :=
  ⟨fun h => ⟨hst ▸ h, hp⟩, hk⟩

theorem Proc.Mild.of_ne (h : r'.state ≠ .unused) (hk : r'.killed = r.killed) : r.Mild r' :=
  ⟨fun hu => absurd hu h, hk⟩

theorem Proc.mild_wake [DecidableEq κ] (r : Proc ι κ Λ C) (chan : Chan κ) : r.Mild (r.wake chan) := by
  unfold Proc.wake
  split_ifs
  · exact .of_ne (by simp) rfl
  · exact .of_eq rfl rfl rfl

theorem Proc.kill_unused : r.kill.state = .unused ↔ r.state = .unused := by
  unfold Proc.kill
  dsimp only
  split_ifs with h
  · simp [h]
  · rfl

theorem State.mild_setProc {f : Proc ι κ Λ C → Proc ι κ Λ C} (hf : (s.proc p).Mild (f (s.proc p)))
    (h : s'.proc = (s.setProc p f).proc) (q : Slot) : (s.proc q).Mild (s'.proc q) := by
  rw [h, State.setProc_proc]
  split_ifs with hq
  · subst hq
    exact hf
  · exact .of_eq rfl rfl rfl

theorem State.mild_setPc (hs : ∀ q, (s.proc q).Mild (s'.proc q)) (k : Pc ι κ Λ) (q : Slot) :
    (s.proc q).Mild ((s'.setPc p k).proc q) := by
  rw [State.setPc_proc]
  split_ifs
  · exact ⟨(hs q).unused, (hs q).killed⟩
  · exact hs q

/-- What a step of the thread of `p` does to slot `q`. -/
inductive Effect (s s' : State ι D κ Λ C) (n : ℕ) (p q : Slot) : Prop
  | mild : (s.proc q).Mild (s'.proc q) → Effect s s' n p q
  | freed : (s'.proc q).killed = false → (s'.proc q).pid = 0 → Effect s s' n p q
  | forking : (s.proc q).state = .unused → (s'.proc q).killed = (s.proc q).killed → s'.Forking q → Effect s s' n p q
  | noTrapframe {child next} : (s.proc p).pc = .allocFound q child next → n = 0 →
    (s'.proc q).killed = (s.proc q).killed → Effect s s' n p q
  | kill {pid next} : (s.proc p).pc = .kill pid q next → (s.proc q).lock = none → (s.proc q).pid = pid →
    s' = (s.setProc q Proc.kill).setPc p (.code (next true)) → Effect s s' n p q

theorem State.setPc_setPc (k' : Pc ι κ Λ) : (s.setPc p k).setPc p k' = s.setPc p k' := by
  unfold State.setPc State.setProc
  simp

theorem State.setPc_kill (k' : Pc ι κ Λ) :
    ((s.setPc p k).setProc q Proc.kill).setPc p k' = (s.setProc q Proc.kill).setPc p k' := by
  have hproc : (((s.setPc p k).setProc q Proc.kill).setPc p k').proc = ((s.setProc q Proc.kill).setPc p k').proc := by
    funext r
    simp only [State.setPc_proc, State.setProc_proc]
    split_ifs <;> rfl
  exact congrArg (fun f => { s with proc := f }) hproc

section Steps
variable [DecidableEq κ] [DecidableEq Λ] [DecidableEq C] {act : Act ι}

theorem State.Forking.trans (h : s.Forking p) (hi : Inv s) (ht : Trans K s c act s') :
    s'.Forking p ∨ (s'.proc p).state ≠ .unused := by
  obtain ⟨c', q, next, hl, hpc⟩ := h
  have hlock : (s.proc p).lock = some c' := (hi.mem_held hl).mpr (by simp [hpc, Pc.held])
  have hne : ∀ {p'}, (s.cpu c).loc.proc = some p' → c' ≠ c → q ≠ p' := by
    rintro p' hp' hc rfl
    exact hc (hi.uniq c' c q (State.on_run hl) hp')
  cases ht with
  | @thread _ p' _ _ hl' hs =>
    have hts := hi.threadStep hl' hs
    by_cases hc : c' = c
    · subst hc
      obtain rfl : q = p' := by simpa [hl] using hl'
      rw [hpc] at hs
      cases hs
      refine .inr ?_
      simp only [State.note_proc, State.setPc_proc, State.setProc_proc]
      split_ifs <;> simp
    · obtain ⟨-, hpc'⟩ := hi.same_of_yields hts.other (State.on_run hl') hc (State.on_run hl)
      exact .inl ⟨c', q, next, by rw [hts.cpu, hl], by rw [hpc', hpc]⟩
  | handler _ hs =>
    refine .inl ⟨c', q, next, ?_, ?_⟩
    · cases hs <;> exact (State.setHandler_loc ..).trans hl
    · cases hs with
      | @wakeup chan _ r =>
        simp only [State.setHandler_proc, State.setProc_proc]
        split_ifs
        · rw [((s.proc q).soft_wake _).1, hpc]
        · exact hpc
      | _ => exact hpc
  | @swtch _ p' k _ hl' hpc' =>
    have hc : c' ≠ c := by
      rintro rfl
      obtain rfl : q = p' := by simpa [hl] using hl'
      simp [hpc] at hpc'
    refine .inl ⟨c', q, next, by simpa [hc] using hl, ?_⟩
    simpa [hne (State.on_run hl') hc] using hpc
  | skip _ hl' =>
    have hc : c' ≠ c := by
      rintro rfl
      simp [hl] at hl'
    exact .inl ⟨c', q, next, by simpa [hc] using hl, hpc⟩
  | @pick _ i _ hl' | @back _ i _ hl' =>
    have hc : c' ≠ c := by
      rintro rfl
      simp [hl] at hl'
    refine .inl ⟨c', q, next, by simpa [hc] using hl, ?_⟩
    simp only [State.setLoc_proc, State.setProc_proc]
    split_ifs <;> exact hpc
  | @timer p' _ hl' ho =>
    have hc : c' ≠ c := by
      rintro rfl
      exact absurd (ho.1 p hlock) (by simp)
    exact .inl ⟨c', q, next, hl, by simpa [hne (State.on_run hl') hc] using hpc⟩
  | device => exact .inl ⟨c', q, next, (State.setHandler_loc ..).trans hl, hpc⟩
  | dma => exact .inl ⟨c', q, next, hl, hpc⟩

omit [DecidableEq κ] [DecidableEq Λ] [DecidableEq C] in
theorem effect_of_other {f : Proc ι κ Λ C → Proc ι κ Λ C} {np : Slot} (hne : np ≠ p)
    (hproc : s'.proc = ((s.setProc np f).setPc p k).proc) (hnp : (s'.proc np) = f (s.proc np) → Effect s s' n p np)
    (q : Slot) : Effect s s' n p q := by
  by_cases hq : q = np
  · subst hq
    exact hnp (by simp [hproc, hne])
  · refine .mild ?_
    by_cases hqp : q = p
    · exact .of_eq (by simp [hproc, hqp, hne.symm]) (by simp [hproc, hqp, hne.symm]) (by simp [hproc, hqp, hne.symm])
    · exact .of_eq (by simp [hproc, hq, hqp]) (by simp [hproc, hq, hqp]) (by simp [hproc, hq, hqp])

omit [DecidableEq C] in
theorem Inv.effect (hi : Inv s) (hl : (s.cpu c).loc = .run p)
    (hs : ThreadTrans K.code s c n p (s.proc p).pc s') (q : Slot) : Effect s s' n p q := by
  obtain ⟨hruns, hat⟩ := hi.run c p hl
  generalize hk : (s.proc p).pc = k at hs hruns hat
  have hne : (s.proc p).state ≠ .unused := hruns.ne_unused
  have hself : ∀ q, (s.proc q).Mild (s.proc q) := fun _ => .of_eq rfl rfl rfl
  cases hs with
  | acquire | release | run | call | exiting | sleepRelease | sleepAcquire | wakeupDone | killMiss | killDone
  | allocUsed | allocDone | exitParent | reparentHit | reparentMiss | reparentDone | waitHit | waitMiss
  | waitDone | waitAlive => exact .mild (State.mild_setPc hself _ q)
  | sleep | sleepTidy | yieldRelease | forkret | exitSelf | wait | waitReturn | waitFault | waitTidy =>
    exact .mild (State.mild_setProc (.of_eq rfl rfl rfl) rfl q)
  | sleepMark | yield | waitSleep => exact .mild (State.mild_setProc (.of_ne (by simp) rfl) rfl q)
  | wakeup | exit => exact .mild (State.mild_setPc (State.mild_setProc (Proc.mild_wake _ _) rfl) _ q)
  | allocUnused | exitLock | reparentChild =>
    exact .mild (State.mild_setPc (State.mild_setProc (.of_eq rfl rfl rfl) rfl) _ q)
  | forkRun => exact .mild (State.mild_setPc (State.mild_setProc (.of_ne (by simp) rfl) rfl) _ q)
  | @killHit pid next r hlock hpid =>
    by_cases hq : q = r
    · subst hq
      exact .kill hk hlock hpid rfl
    · by_cases hqp : q = p
      · subst hqp
        exact .mild (.of_eq (by simp [hq]) (by simp [hq]) (by simp [hq]))
      · exact .mild (.of_eq (by simp [hq, hqp]) (by simp [hq, hqp]) (by simp [hq, hqp]))
  | @noTrapframe np child next _ hn =>
    have hnp : np ≠ p := fun he => hne (he ▸ hat)
    refine effect_of_other (k := .code (next none)) (f := fun r => { r with pid := s.nextpid, lock := none }) hnp ?_
      (fun he => ?_) q
    · rfl
    · exact .noTrapframe hk hn (by rw [he])
  | @noMemory np child next =>
    have hnp : np ≠ p := fun he => hne (he ▸ hat)
    refine effect_of_other (k := .code (next none)) (f := fun r => { r.freeproc with lock := none }) hnp ?_
      (fun he => ?_) q
    · rfl
    · exact .freed (by rw [he]; rfl) (by rw [he]; rfl)
  | @allocFound np child next =>
    have hst : (s.proc np).state = .unused := hat
    have hnp : np ≠ p := fun he => hne (he ▸ hst)
    refine effect_of_other (k := .forkRun np next)
      (f := fun r => { r with pid := s.nextpid, parent := some p, pc := .forkret child }) hnp ?_ (fun he => ?_) q
    · rfl
    · exact .forking hst (by rw [he]) ⟨c, p, next, hl, by simp⟩
  | @exitZombie status parent =>
    refine .mild ?_
    by_cases hqp : q = p
    · subst hqp
      have hwf : parent ≠ q := by simpa [hk, Pc.Wf] using hi.wf q
      exact .of_ne (by simp) (by simp [hwf.symm])
    · by_cases hqr : q = parent
      · subst hqr
        have hm := (s.proc q).mild_wake (.proc q)
        exact ⟨by simpa [hqp] using hm.unused, by simpa [hqp] using hm.killed⟩
      · exact .of_eq (by simp [hqp, hqr]) (by simp [hqp, hqr]) (by simp [hqp, hqr])
  | @waitReap addr np next _ hz =>
    have hnp : np ≠ p := by
      rintro rfl
      simp [show (s.proc np).state = .running from hruns] at hz
    by_cases hq : q = np
    · subst hq
      exact .freed (by simp [hnp, Proc.freeproc]) (by simp [hnp, Proc.freeproc])
    · refine .mild ?_
      by_cases hqp : q = p
      · exact .of_eq (by simp [hqp, hnp.symm]) (by simp [hqp, hnp.symm]) (by simp [hqp, hnp.symm])
      · exact .of_eq (by simp [hq, hqp]) (by simp [hq, hqp]) (by simp [hq, hqp])

theorem Trans.thread_or_mild {act : Act ι} (ht : Trans K s c act s') :
    (∃ n p, act = .go n ∧ (s.cpu c).handler = none ∧ (s.cpu c).loc = .run p ∧
      ThreadTrans K.code s c n p (s.proc p).pc s') ∨ ∀ q, (s.proc q).Mild (s'.proc q) := by
  have hself : ∀ q, (s.proc q).Mild (s.proc q) := fun _ => .of_eq rfl rfl rfl
  cases ht with
  | thread hh hl hs => exact .inl ⟨_, _, rfl, hh, hl, hs⟩
  | handler _ hs =>
    refine .inr fun q => ?_
    cases hs with
    | @wakeup chan next r =>
      exact State.mild_setProc (f := fun r => r.wake (.other chan)) (Proc.mild_wake _ _) rfl q
    | _ => exact hself q
  | swtch | timer => exact .inr (State.mild_setPc hself _)
  | pick =>
    exact .inr (State.mild_setProc (f := fun q => { q with state := .running, lock := some c })
      (.of_ne (by simp) rfl) rfl)
  | back => exact .inr (State.mild_setProc (f := fun q => { q with lock := none }) (.of_eq rfl rfl rfl) rfl)
  | skip | device | dma => exact .inr hself

theorem Inv.killHit {act : Act ι} (hi : Inv s) (ht : Trans K s c act s') (hq : (s.proc q).killed = false)
    (hq' : (s'.proc q).killed = true) : ∃ n p pid next, act = .go n ∧ (s.cpu c).handler = none ∧
      (s.cpu c).loc = .run p ∧ (s.proc p).pc = .kill pid q next ∧ (s.proc q).lock = none ∧
      (s.proc q).pid = pid ∧ s' = (s.setProc q Proc.kill).setPc p (.code (next true)) := by
  have hne : (s'.proc q).killed ≠ (s.proc q).killed := by simp [hq, hq']
  rcases ht.thread_or_mild with ⟨n, p, rfl, hh, hl, hs⟩ | hm
  swap
  · exact absurd (hm q).killed hne
  cases hi.effect hl hs q with
  | mild hm => exact absurd hm.killed hne
  | freed hk => simp [hk] at hq'
  | forking _ hk | noTrapframe _ _ hk => exact absurd hk hne
  | kill hpc hlock hpid hs' => exact ⟨n, p, _, _, rfl, hh, hl, hpc, hlock, hpid, hs'⟩

theorem Inv.forked {act : Act ι} (hi : Inv s) (ht : Trans K s c act s') {np : Slot} {pid : ℤ}
    (hlog : s'.log = .forked p np pid :: s.log) :
    (s.proc np).state = .unused ∧ (s'.proc np).killed = (s.proc np).killed := by
  have hne : ∀ {l : List Event} {e : Event}, l ≠ e :: l := fun hl => by simpa using congrArg List.length hl
  cases ht with
  | @thread _ p' _ _ hl ht =>
    obtain ⟨-, hat⟩ := hi.run c p' hl
    generalize (s.proc p').pc = k at ht hat
    cases ht with
    | forkRun =>
      cases (List.cons.inj hlog).1
      refine ⟨hat.1, ?_⟩
      simp only [State.note_proc, State.setPc_proc, State.setProc_proc, if_true]
      split_ifs <;> rfl
    | exiting | noMemory | reparentChild | exitZombie | waitReap => cases (List.cons.inj hlog).1
    | _ => exact absurd hlog hne
  | handler _ ht => cases ht <;> exact absurd hlog hne
  | _ => exact absurd hlog hne

end Steps

namespace State.Blank

theorem ne_unused (h : s.Blank) (hi : Inv s) (hl : (s.proc q).lock = none) (hpid : (s.proc q).pid ≠ 0) :
    (s.proc q).state ≠ .unused := by
  intro hu
  obtain ⟨c, p, next, hloc, hpc⟩ := (h q hu).2.resolve_left hpid
  have hlock : (s.proc q).lock = some c := (hi.mem_held hloc).mpr (by simp [hpc, Pc.held])
  simp [hl] at hlock

theorem mild (h : s.Blank) (hf : s.Forking p → s'.Forking p ∨ (s'.proc p).state ≠ .unused)
    (hm : (s.proc p).Mild (s'.proc p)) (hu : (s'.proc p).state = .unused) :
    (s'.proc p).killed = false ∧ ((s'.proc p).pid = 0 ∨ s'.Forking p) := by
  obtain ⟨hst, hpid⟩ := hm.unused hu
  obtain ⟨hk, hp⟩ := h p hst
  refine ⟨hm.killed.trans hk, ?_⟩
  rcases hp with hp | hp
  · exact .inl (hpid.trans hp)
  · exact .inr ((hf hp).resolve_right fun hne => hne hu)

theorem trans [DecidableEq κ] [DecidableEq Λ] [DecidableEq C] {act : Act ι} (h : s.Blank) (hi : Inv s)
    (hok : Careful s (c, act)) (ht : Trans K s c act s') : s'.Blank := by
  have hf : ∀ q, s.Forking q → s'.Forking q ∨ (s'.proc q).state ≠ .unused := fun q hq => hq.trans hi ht
  rcases ht.thread_or_mild with ⟨n, p, rfl, hh, hl, hs⟩ | hm
  swap
  · exact fun q => h.mild (hf q) (hm q)
  unfold Careful at hok
  simp only [hh, hl] at hok
  intro q hu
  cases hi.effect hl hs q with
  | mild hm => exact h.mild (hf q) hm hu
  | freed hk hp => exact ⟨hk, .inl hp⟩
  | forking hst hk hp => exact ⟨hk.trans (h q hst).1, .inr hp⟩
  | noTrapframe hpc hn =>
    rw [hpc] at hok
    exact absurd hn hok
  | kill hpc hlock hpid hs' =>
    rw [hpc] at hok
    refine absurd ?_ (h.ne_unused hi hlock (hpid ▸ hok))
    rw [hs', State.setPc_proc, State.setProc_proc, if_pos rfl] at hu
    rw [← Proc.kill_unused]
    split_ifs at hu
    · exact hu
    · exact hu

end State.Blank

section Runs
variable [DecidableEq κ] [DecidableEq Λ] [Fintype Λ] [DecidableEq C] {data : D} {start : ι}

theorem blank_of_run (h : Run (step K) Careful (boot data start) s) : Inv s ∧ s.Blank := by
  refine run_induct h (fun p hu => ?_) fun s c a s' hi hj hok ht => hj.trans hi hok ht
  have hp : p ≠ initproc := by
    rintro rfl
    simp [boot] at hu
  simp [boot, hp]

theorem kill_loop (hh : (s.cpu c).handler = none) (hl : (s.cpu c).loc = .run p) {pid : ℤ} {i : ℕ}
    {next : Bool → ι} (hpc : (s.proc p).pc = .kill pid i next) (hlock : ∀ q, (s.proc q).lock = none) :
    (∃ q : Slot, (s.proc q).pid = pid ∧ Run (step K) (fun _ a => a = (c, .go 0)) s
      ((s.setProc q Proc.kill).setPc p (.code (next true)))) ∨
    (∀ q : Slot, i ≤ q → (s.proc q).pid ≠ pid) ∧ Run (step K) (fun _ a => a = (c, .go 0)) s
      (s.setPc p (.code (next false))) := by
  have hstep : step K s (c, .go 0) = stepThread K.code s c 0 p (.kill pid i next) := by
    simp only [step, hh, hl, hpc]
  induction hn : nproc - i generalizing s i with
  | zero =>
    have hi : ¬ i < nproc := by omega
    refine .inr ⟨fun q hq => absurd q.isLt (by omega), (Run.refl s).tail rfl ?_⟩
    rw [hstep]
    simp only [stepThread, forProc, hi, dif_neg, not_false_eq_true]
  | succ m ih =>
    have hi : i < nproc := by omega
    rw [stepThread, forProc, dif_pos hi, State.locked, hlock] at hstep
    dsimp only at hstep
    by_cases hpid : (s.proc ⟨i, hi⟩).pid = pid
    · rw [if_pos hpid] at hstep
      exact .inl ⟨⟨i, hi⟩, hpid, (Run.refl s).tail rfl hstep⟩
    · rw [if_neg hpid] at hstep
      have hsame : ∀ q, ((s.setPc p (.kill pid (i + 1) next)).proc q).pid = (s.proc q).pid := by
        intro q
        rw [State.setPc_proc]
        split_ifs <;> rfl
      have hrun : Run (step K) (fun _ a => a = (c, .go 0)) s (s.setPc p (.kill pid (i + 1) next)) :=
        (Run.refl s).tail rfl hstep
      have hnext := ih (s := s.setPc p (.kill pid (i + 1) next)) (i := i + 1) hh hl (by simp) (fun q => by
        rw [State.setPc_proc]
        split_ifs
        · exact hlock q
        · exact hlock q) (by simp only [step, State.setPc_cpu, hh, hl, State.setPc_proc, if_true]) (by omega)
      simp only [hsame, State.setPc_kill, State.setPc_setPc] at hnext
      rcases hnext with ⟨q, hq, hr⟩ | ⟨hnone, hr⟩
      · exact .inl ⟨q, hq, hrun.trans hr⟩
      · refine .inr ⟨fun q hq => ?_, hrun.trans hr⟩
        rcases Nat.eq_or_lt_of_le hq with he | hlt
        · obtain rfl : q = ⟨i, hi⟩ := Fin.ext he.symm
          exact hpid
        · exact hnone q hlt

/-- As long as `kill` is not given 0 and no `fork` fails for want of a trapframe: a slot that is
`UNUSED` has no pid and no flag; a `kill` that runs without interruption returns 0 if and only if
there is a process with this pid, and changes only that; in any interleaving, `kill` sets the flag
of a process with its pid; and a new process has no flag. -/
theorem kill_processes (h : Run (step K) Careful (boot data start) s) :
    (∀ p, (s.proc p).state = .unused → (s.proc p).lock = none → (s.proc p).pid = 0 ∧ (s.proc p).killed = false) ∧
    (∀ c p pid next, (s.cpu c).handler = none → (s.cpu c).loc = .run p → (s.proc p).pc = .kill pid 0 next →
      (∀ q, (s.proc q).lock = none) → pid ≠ 0 → ∃ s', Run (step K) (fun _ a => a = (c, .go 0)) s s' ∧
        ((∃ q, (s.proc q).state ≠ .unused ∧ (s.proc q).pid = pid ∧
          s' = (s.setProc q Proc.kill).setPc p (.code (next true))) ∨
        (∀ q, (s.proc q).state ≠ .unused → (s.proc q).pid ≠ pid) ∧ s' = s.setPc p (.code (next false)))) ∧
    ∀ c act s', Careful s (c, act) → step K s (c, act) = .ok s' →
      (∀ q, (s.proc q).killed = false → (s'.proc q).killed = true → (s.proc q).state ≠ .unused ∧
        ∃ p next, (s.proc p).pc = .kill (s.proc q).pid q next ∧
          s' = (s.setProc q Proc.kill).setPc p (.code (next true))) ∧
      ∀ p np pid, s'.log = .forked p np pid :: s.log → (s'.proc np).killed = false := by
  obtain ⟨hi, hb⟩ := blank_of_run h
  refine ⟨fun p hu hl => ?_, fun c p pid next hh hl hpc hlock hpid => ?_, fun c act s' hok hs => ⟨fun q hq hq' => ?_,
    fun p np pid hlog => ?_⟩⟩
  · refine ⟨?_, (hb p hu).1⟩
    by_contra hpid
    exact hb.ne_unused hi hl hpid hu
  · rcases kill_loop (K := K) hh hl hpc hlock with ⟨q, hq, hr⟩ | ⟨hnone, hr⟩
    · exact ⟨_, hr, .inl ⟨q, hb.ne_unused hi (hlock q) (hq ▸ hpid), hq, rfl⟩⟩
    · exact ⟨_, hr, .inr ⟨fun q _ => hnone q (Nat.zero_le _), rfl⟩⟩
  · obtain ⟨n, p, pid, next, rfl, hh, hl, hpc, hlock, rfl, hs'⟩ := hi.killHit (step_cases hs) hq hq'
    unfold Careful at hok
    simp only [hh, hl, hpc] at hok
    exact ⟨hb.ne_unused hi hlock hok, p, next, hpc, hs'⟩
  · obtain ⟨hst, hkd⟩ := hi.forked (step_cases hs) hlog
    rw [hkd]
    exact (hb np hst).1

end Runs

/-- From 0 on: `kill(0)`, and if it returns 0, `fork`. From 2 on: `fork`, `kill(2)`. -/
def killAndFork : Kernel (Fin 6) Unit Empty Empty where
  code
    | 0 => .kill 0 fun found => if found then 1 else 5
    | 1 => .fork 5 fun _ => 5
    | 2 => .fork 5 fun _ => 3
    | 3 => .kill 2 fun found => if found then 4 else 5
    | 4 => .wait 0 fun _ => 4
    | 5 => .wait 0 fun _ => 5
  handler _ := false
  dma d _ := d

/-- The label of the code that a thread is at. -/
def Pc.label : Pc ι κ Λ → Option ι
  | .code l => some l
  | _ => none

/-- `kill(0)` returns 0 when no process has the pid 0, and sets the flag of the next process that is
made. After a `fork` without a page for the trapframe, its pid stays in a slot that is `UNUSED`,
and `kill` of it returns 0. -/
theorem kill_unused_slot :
    (∃ s : State (Fin 6) Unit Empty Empty Bool, Reachable killAndFork () 0 s ∧ (s.proc 0).pc.label = some 1 ∧
      ∀ q, (s.proc q).state ≠ .unused → (s.proc q).pid ≠ 0) ∧
    (∃ s s' : State (Fin 6) Unit Empty Empty Bool, Reachable killAndFork () 0 s ∧
      step killAndFork s (false, .go 2) = .ok s' ∧ s'.log = .forked 0 1 2 :: s.log ∧ (s'.proc 1).killed = true) ∧
    ∃ s : State (Fin 6) Unit Empty Empty Bool, Reachable killAndFork () 2 s ∧ (s.proc 0).pc.label = some 4 ∧
      ((s.proc 1).state = .unused ∧ (s.proc 1).lock = none ∧ (s.proc 1).pid = 2) ∧
      ∀ q, (s.proc q).state ≠ .unused → (s.proc q).pid ≠ 2 := by
  refine ⟨?_, ?_, ?_⟩
  · obtain ⟨s, hrun, htest⟩ := exists_run_of_exec (step killAndFork) (fun _ _ => True)
      (boot () 0 : State (Fin 6) Unit Empty Empty Bool) (List.replicate 5 (false, .go 2))
      (fun s => decide ((s.proc 0).pc.label = some 1 ∧ ∀ q, (s.proc q).state ≠ .unused → (s.proc q).pid ≠ 0))
      (by decide +kernel)
    exact ⟨s, hrun, of_decide_eq_true htest⟩
  · obtain ⟨s, hrun, htest⟩ := exists_run_of_exec (step killAndFork) (fun _ _ => True)
      (boot () 0 : State (Fin 6) Unit Empty Empty Bool) (List.replicate 9 (false, .go 2))
      (fun s => (step killAndFork s (false, .go 2)).toOption.any fun s' : State (Fin 6) Unit Empty Empty Bool =>
        decide (s'.log = .forked 0 1 2 :: s.log ∧ (s'.proc 1).killed = true)) (by decide +kernel)
    cases hstep : step killAndFork s (false, .go 2) with
    | error e =>
      rw [hstep] at htest
      cases htest
    | ok s' =>
      rw [hstep] at htest
      exact ⟨s, s', hrun, hstep, of_decide_eq_true htest⟩
  · obtain ⟨s, hrun, htest⟩ := exists_run_of_exec (step killAndFork) (fun _ _ => True)
      (boot () 2 : State (Fin 6) Unit Empty Empty Bool) (List.replicate 9 (false, .go 0))
      (fun s => decide ((s.proc 0).pc.label = some 4 ∧
        ((s.proc 1).state = .unused ∧ (s.proc 1).lock = none ∧ (s.proc 1).pid = 2) ∧
        ∀ q, (s.proc q).state ≠ .unused → (s.proc q).pid ≠ 2)) (by decide +kernel)
    exact ⟨s, hrun, of_decide_eq_true htest⟩

/-- Init has made a process with the pid 2 and kills it. -/
theorem kill_processes_child : ∃ s s' : State (Fin 6) Unit Empty Empty Bool,
    Run (step killAndFork) Careful (boot () 2) s ∧ (s.proc 1).state = .runnable ∧ (s.proc 1).pid = 2 ∧
    Run (step killAndFork) (fun _ a => a = (false, .go 0)) s s' ∧
    ∃ q, (s.proc q).pid = 2 ∧ (s'.proc q).killed = true := by
  obtain ⟨s, hrun, htest⟩ := exists_run_of_exec (step killAndFork) Careful
    (boot () 2 : State (Fin 6) Unit Empty Empty Bool) (List.replicate 8 (false, .go 2))
    (fun s => decide ((s.cpu false).handler.isNone ∧ (s.cpu false).loc = .run 0 ∧ (∀ q, (s.proc q).lock = none) ∧
      (s.proc 1).state = .runnable ∧ (s.proc 1).pid = 2) &&
      match (s.proc 0).pc with | .kill pid 0 _ => decide (pid = 2) | _ => false) (by decide +kernel)
  obtain ⟨hfacts, hpc⟩ := Bool.and_eq_true_iff.mp htest
  obtain ⟨hh, hl, hlock, hst, hpid⟩ := of_decide_eq_true hfacts
  split at hpc
  case h_1 pid next hk =>
    obtain rfl := of_decide_eq_true hpc
    obtain ⟨s', hr, hs' | hs'⟩ := (kill_processes hrun).2.1 false 0 2 next (Option.isNone_iff_eq_none.mp hh) hl hk hlock
      (by decide)
    · obtain ⟨q, -, hq, rfl⟩ := hs'
      refine ⟨s, _, hrun, hst, hpid, hr, q, hq, ?_⟩
      simp only [State.setPc_proc, State.setProc_proc, if_true, Proc.kill]
      split_ifs <;> rfl
    · exact absurd hpid (hs'.1 1 (by simp [hst]))
  case h_2 => cases hpc

end Xv6.Sched
