import Xv6.Kernel.Sched.Locks
import Mathlib.Tactic

/-! Each step of a thread follows the discipline of locks. -/
namespace Xv6.Sched

variable {ι D κ Λ C : Type} {s s' : State ι D κ Λ C} {c : C} {n : ℕ} {a : Act ι} {p q : Slot} {k : Pc ι κ Λ}

/-- A process is woken up, or its state is left as it is. -/
def Proc.Soft (r r' : Proc ι κ Λ C) : Prop :=
  r'.pc = r.pc ∧ (r'.state = r.state ∨ r.state = .sleeping ∧ r'.state = .runnable)

@[simp] theorem Proc.wake_lock [DecidableEq κ] (r : Proc ι κ Λ C) (chan : Chan κ) :
    (r.wake chan).lock = r.lock := by
  unfold Proc.wake
  split_ifs <;> rfl

theorem Proc.wake_killed [DecidableEq κ] (r : Proc ι κ Λ C) (chan : Chan κ) : (r.wake chan).killed = r.killed := by
  unfold Proc.wake
  split_ifs <;> rfl

theorem Proc.soft_wake [DecidableEq κ] (r : Proc ι κ Λ C) (chan : Chan κ) : r.Soft (r.wake chan) := by
  unfold Proc.wake
  split_ifs with hr
  · exact ⟨rfl, .inr ⟨hr.1, rfl⟩⟩
  · exact ⟨rfl, .inl rfl⟩

theorem Proc.soft_kill (r : Proc ι κ Λ C) : r.Soft r.kill := by
  refine ⟨rfl, ?_⟩
  unfold Proc.kill
  dsimp only
  split_ifs with hr
  · exact .inr ⟨hr, rfl⟩
  · exact .inl rfl

namespace Inv

theorem not_on (h : Inv s) (hst : (s.proc q).state ≠ .running)
    (hl : (s.proc q).lock = none ∨ (s.proc q).lock = some c ∧ ¬ s.On c q) (c' : C) : ¬ s.On c' q := by
  intro hon
  have hlock := h.lock_of_on hon hst
  rcases hl with hl | ⟨hl, hoff⟩
  · rw [hl] at hlock
    cases hlock
  · obtain rfl := Option.some.inj (hl.symm.trans hlock)
    exact hoff hon

theorem yields_soft (h : Inv s) (hl : (s.proc q).lock = none ∨ (s.proc q).lock = some c ∧ ¬ s.On c q)
    (hs : (s.proc q).Soft (s'.proc q)) : s.Yields s' c q := by
  obtain ⟨hpc, hst | ⟨hst, hst'⟩⟩ := hs
  · exact .inl ⟨hst, hpc⟩
  · refine .inr ⟨hl.imp_right And.left, by simp [hst], by simp [hst'], fun _ => ?_⟩
    rw [hpc]
    exact (h.off q (h.not_on (by simp [hst]) hl)).2 (.inr (.inl hst))

theorem threadStep_soft (h : Inv s) (hl : (s.cpu c).loc = .run p) (hcpu : s'.cpu = s.cpu)
    (hpc : (s'.proc p).pc = k) (hheld : k.held p = (s.proc p).pc.held p) (hwf : k.Wf p)
    (hlock : ∀ q, (s'.proc q).lock = (s.proc q).lock) (hruns : k.Runs (s'.proc p).state)
    (hother : ∀ q ≠ p, s'.proc q = s.proc q ∨ (s.proc q).lock = none ∧ (s.proc q).Soft (s'.proc q))
    (hat : s.At k) : ThreadStep s s' c p (s.proc p).pc := by
  refine ⟨hcpu, fun q => ?_, fun q hq hq' => ?_, fun q => ?_, ⟨hpc ▸ hruns, ?_⟩, fun q hq => ?_⟩
  · rw [hpc, hheld, hlock]
    split_ifs with hq
    · exact (h.mem_held hl).mpr hq
    · rfl
  · exact absurd (hheld ▸ hpc ▸ hq) hq'
  · by_cases hq : q = p
    · subst hq
      exact .inr (hpc ▸ hwf)
    · rcases hother q hq with he | ⟨-, hs⟩
      · exact .inl (by rw [he])
      · exact .inl hs.1
  · rw [hpc]
    refine hat.congr (p := p) fun q hq hu => ?_
    have hqp : q ≠ p := by
      rintro rfl
      exact (h.run c q hl).1.ne_unused hu
    rcases hother q hqp with he | ⟨-, hpc, hst | ⟨hst, -⟩⟩
    · exact ⟨by rw [he], by rw [he]⟩
    · exact ⟨hst, hpc⟩
    · simp [hst] at hu
  · rcases hother q hq with he | ⟨hl, hs⟩
    · exact .inl ⟨by rw [he], by rw [he]⟩
    · exact h.yields_soft (.inl hl) hs

theorem threadStep_setPc (h : Inv s) (hl : (s.cpu c).loc = .run p) (hst : (s.proc p).state = .running)
    (hcpu : s'.cpu = s.cpu) (hproc : s'.proc = (s.setPc p k).proc)
    (hheld : k.held p = (s.proc p).pc.held p) (hwf : k.Wf p) (hruns : k.Runs .running) (hat : s.At k) :
    ThreadStep s s' c p (s.proc p).pc := by
  refine h.threadStep_soft hl hcpu (k := k) (by simp [hproc]) hheld hwf (fun q => ?_) ?_
    (fun q hq => .inl (by simp [hproc, hq])) hat
  · rw [hproc, State.setPc_proc]
    split_ifs <;> rfl
  · simpa [hproc, hst] using hruns

theorem threadStep_touch (h : Inv s) (hl : (s.cpu c).loc = .run p) (hst : (s.proc p).state = .running)
    {f : Proc ι κ Λ C → Proc ι κ Λ C} (hproc : s'.proc = ((s.setProc q f).setPc p k).proc)
    (hcpu : s'.cpu = s.cpu) (hq : (s.proc q).lock = none) (hf : ∀ r : Proc ι κ Λ C, r.Soft (f r))
    (hlock : ∀ r : Proc ι κ Λ C, (f r).lock = r.lock)
    (hheld : k.held p = (s.proc p).pc.held p) (hwf : k.Wf p) (hruns : k.Runs .running) (hat : s.At k) :
    ThreadStep s s' c p (s.proc p).pc := by
  have hst' : (f (s.proc p)).state = .running := by
    rcases (hf (s.proc p)).2 with he | ⟨he, -⟩
    · rw [he, hst]
    · simp [hst] at he
  refine h.threadStep_soft hl hcpu (k := k) (by simp [hproc]) hheld hwf (fun r => ?_) ?_
    (fun r hr => ?_) hat
  · rw [hproc, State.setPc_proc, State.setProc_proc]
    split_ifs <;> first | exact hlock _ | rfl
  · have hrun : (s'.proc p).state = .running := by
      rw [hproc, State.setPc_proc, if_pos rfl, State.setProc_proc]
      split_ifs
      · exact hst'
      · exact hst
    rwa [hrun]
  · rw [hproc, State.setPc_proc, State.setProc_proc, if_neg hr]
    split_ifs with he
    · exact .inr ⟨he ▸ hq, hf _⟩
    · exact .inl rfl

theorem threadStep_own (h : Inv s) (hl : (s.cpu c).loc = .run p) {f : Proc ι κ Λ C → Proc ι κ Λ C}
    (hproc : s'.proc = (s.setProc p f).proc) (hcpu : s'.cpu = s.cpu) (hpc : (f (s.proc p)).pc = k)
    (hheld : ∀ q ≠ p, q ∈ k.held p ↔ q ∈ (s.proc p).pc.held p)
    (hlock : (f (s.proc p)).lock = if p ∈ k.held p then some c else none)
    (hfree : p ∈ (s.proc p).pc.held p ∨ (s.proc p).lock = none) (hwf : k.Wf p)
    (hruns : k.Runs (f (s.proc p)).state) (hat : s.At k) : ThreadStep s s' c p (s.proc p).pc := by
  have hself : s'.proc p = f (s.proc p) := by simp [hproc]
  have hother : ∀ q ≠ p, s'.proc q = s.proc q := fun q hq => by simp [hproc, hq]
  refine ⟨hcpu, fun q => ?_, fun q hq hq' => ?_, fun q => ?_, ?_, fun q hq => ?_⟩
  · rw [hself, hpc]
    by_cases hq : q = p
    · subst hq
      rw [hself, hlock]
      rcases hfree with hfree | hfree <;> simp [hfree]
    · simp only [hother q hq, hheld q hq]
      split_ifs with hm
      · exact (h.mem_held hl).mpr hm
      · rfl
  · rw [hself, hpc] at hq
    by_cases hqp : q = p
    · subst hqp
      exact hfree.resolve_left hq'
    · exact absurd ((hheld q hqp).mp hq) hq'
  · by_cases hq : q = p
    · subst hq
      exact .inr (by rwa [hself, hpc])
    · exact .inl (by rw [hother q hq])
  · rw [hself, hpc]
    refine ⟨hruns, hat.congr (p := p) fun q hq hu => ?_⟩
    have hqp : q ≠ p := by
      rintro rfl
      exact (h.run c q hl).1.ne_unused hu
    rw [hother q hqp]
    exact ⟨rfl, rfl⟩
  · rw [State.Yields, hother q hq]
    exact .inl ⟨rfl, rfl⟩

theorem threadStep_other (h : Inv s) (hl : (s.cpu c).loc = .run p) (hst : (s.proc p).state = .running)
    {f : Proc ι κ Λ C → Proc ι κ Λ C} (hproc : s'.proc = ((s.setProc q f).setPc p k).proc)
    (hcpu : s'.cpu = s.cpu) (hself : q = p → (f (s.proc q)).state = .running)
    (hheld : ∀ r ≠ q, r ∈ k.held p ↔ r ∈ (s.proc p).pc.held p)
    (hlock : (f (s.proc q)).lock = if q ∈ k.held p then some c else none)
    (hfree : q ∈ (s.proc p).pc.held p ∨ (s.proc q).lock = none)
    (hwf : k.Wf p) (hwf' : (f (s.proc q)).pc = (s.proc q).pc ∨ (f (s.proc q)).pc.Wf q)
    (hruns : k.Runs .running) (hat : s'.At k) (hy : q ≠ p → s.Yields s' c q) :
    ThreadStep s s' c p (s.proc p).pc := by
  have hpc : (s'.proc p).pc = k := by simp [hproc]
  have hlk : ∀ r, (s'.proc r).lock = if r = q then (f (s.proc r)).lock else (s.proc r).lock := by
    intro r
    rw [hproc, State.setPc_proc, State.setProc_proc]
    split_ifs <;> rfl
  refine ⟨hcpu, fun r => ?_, fun r hr hr' => ?_, fun r => ?_, ⟨?_, hpc ▸ hat⟩, fun r hr => ?_⟩
  · rw [hpc, hlk]
    by_cases hr : r = q
    · subst hr
      rw [if_pos rfl, hlock]
      rcases hfree with hfree | hfree <;> simp [hfree]
    · simp only [hr, hheld r hr, if_false]
      split_ifs with hm
      · exact (h.mem_held hl).mpr hm
      · rfl
  · rw [hpc] at hr
    by_cases hrq : r = q
    · subst hrq
      exact hfree.resolve_left hr'
    · exact absurd ((hheld r hrq).mp hr) hr'
  · by_cases hr : r = p
    · subst hr
      exact .inr (hpc ▸ hwf)
    · rw [hproc, State.setPc_proc, if_neg hr, State.setProc_proc]
      split_ifs with hrq
      · subst hrq
        exact hwf'
      · exact .inl rfl
  · have hrun : (s'.proc p).state = .running := by
      rw [hproc, State.setPc_proc, if_pos rfl, State.setProc_proc]
      split_ifs with hq
      · subst hq
        exact hself rfl
      · exact hst
    rwa [hpc, hrun]
  · by_cases hrq : r = q
    · subst hrq
      exact hy hr
    · exact .inl (by simp [hproc, hr, hrq])

/-- What each step of a thread does to process locks and states. -/
theorem threadStep [DecidableEq κ] [DecidableEq Λ] {code : ι → Instr ι D κ Λ} (h : Inv s)
    (hl : (s.cpu c).loc = .run p) (ht : ThreadTrans code s c n p (s.proc p).pc s') :
    ThreadStep s s' c p (s.proc p).pc := by
  obtain ⟨hruns, hat⟩ := h.run c p hl
  have hwf := h.wf p
  have hmem : ∀ q, q ∈ (s.proc p).pc.held p → (s.proc q).lock = some c := fun q => (h.mem_held hl).mpr
  generalize hk : (s.proc p).pc = k at ht hruns hat hwf hmem
  rw [← hk]
  have hpc : ∀ {k' : Pc ι κ Λ} {s' : State ι D κ Λ C}, s'.proc = (s.setPc p k').proc → s'.cpu = s.cpu →
      (s.proc p).state = .running → k'.held p = k.held p → k'.Wf p → k'.Runs .running → s.At k' →
      ThreadStep s s' c p (s.proc p).pc := by
    intro k' s' hproc hcpu hst hheld hwf hruns hat
    exact h.threadStep_setPc hl hst hcpu hproc (hk ▸ hheld) hwf hruns hat
  cases ht with
  | acquire | release | run | exiting | sleepRelease | sleepAcquire | wakeupDone | killMiss | killDone
  | allocUsed | allocDone | exitParent | waitHit | waitMiss | waitDone | waitAlive =>
    exact hpc rfl rfl hruns rfl trivial rfl trivial
  | reparentHit | reparentMiss | reparentDone =>
    exact hpc rfl rfl hruns rfl hwf rfl trivial
  | @call l k' he =>
    have : k'.held p = [] ∧ k'.Wf p ∧ k'.Runs .running ∧ s.At k' := by
      cases hi : code l <;> rw [hi] at he <;> cases he <;> exact ⟨rfl, trivial, rfl, trivial⟩
    exact hpc rfl rfl hruns this.1 this.2.1 this.2.2.1 this.2.2.2
  | wakeup hq | exit hq =>
    exact h.threadStep_touch hl hruns rfl rfl hq (fun r => r.soft_wake _) (fun r => r.wake_lock _)
      (hk ▸ rfl) trivial rfl trivial
  | killHit hq =>
    exact h.threadStep_touch hl hruns rfl rfl hq Proc.soft_kill (fun _ => rfl) (hk ▸ rfl) trivial rfl trivial
  | reparentChild hq =>
    exact h.threadStep_touch hl hruns rfl rfl hq (fun r => ⟨rfl, .inl rfl⟩) (fun _ => rfl)
      (hk ▸ rfl) hwf rfl trivial
  | sleep hq | wait hq =>
    exact h.threadStep_own hl rfl rfl rfl (by simp [hk, Pc.held]) (by simp [Pc.held]) (.inr hq) trivial
      hruns trivial
  | yield hq =>
    exact h.threadStep_own hl rfl rfl rfl (by simp [hk, Pc.held]) (by simp [Pc.held]) (.inr hq)
      ⟨trivial, hwf⟩ (.inl rfl) trivial
  | exitSelf hq =>
    refine h.threadStep_own hl rfl rfl rfl (fun q hq => ?_) (by simp [Pc.held]) (.inr hq) ?_ hruns trivial
    · simp [hk, Pc.held, hq]
    · rintro rfl
      simp [hmem _ (List.mem_singleton_self _)] at hq
  | sleepMark | waitSleep =>
    exact h.threadStep_own hl rfl rfl rfl (by simp [hk, Pc.held])
      (by simpa [Pc.held] using hmem p (List.mem_singleton_self p)) (.inl (by simp [hk, Pc.held]))
      ⟨trivial, trivial⟩ (.inr (.inl rfl)) trivial
  | waitTidy =>
    exact h.threadStep_own hl rfl rfl rfl (by simp [hk, Pc.held])
      (by simpa [Pc.held] using hmem p (List.mem_singleton_self p)) (.inl (by simp [hk, Pc.held]))
      trivial hruns trivial
  | sleepTidy | forkret | waitReturn | waitFault =>
    exact h.threadStep_own hl rfl rfl rfl (by simp [hk, Pc.held]) (by simp [Pc.held])
      (.inl (by simp [hk, Pc.held])) trivial hruns trivial
  | yieldRelease =>
    refine h.threadStep_own hl rfl rfl rfl (fun q hq => ?_) (by simp [hwf.1])
      (.inl (by simp [hk, Pc.held])) hwf.2 (hruns ▸ Pc.runs_of_held_nil hwf.1) (State.at_of_held_nil hwf.1)
    rw [hk, hwf.1]
    simp [Pc.held, hq]
  | @allocUnused _ _ q hq hu =>
    have hqp : q ≠ p := by
      rintro rfl
      exact hruns.ne_unused hu
    refine h.threadStep_other hl hruns rfl rfl (fun he => absurd he hqp) (fun r hr => ?_)
      (by simp [Pc.held]) (.inr hq) trivial (.inl rfl) rfl ?_ fun _ => .inl ?_
    · simp [hk, Pc.held, hr]
    · simpa [State.At, hqp] using hu
    · simp [hqp]
  | @noTrapframe np child next =>
    have hnp : np ≠ p := by
      rintro rfl
      exact hruns.ne_unused hat
    refine h.threadStep_other (k := .code (next none)) (f := fun r => { r with pid := s.nextpid, lock := none })
      hl hruns rfl rfl (fun he => absurd he hnp) (fun r hr => ?_) (by simp [Pc.held])
      (.inl (by simp [hk, Pc.held])) trivial (.inl rfl) rfl trivial fun _ => .inl ?_
    · simp [hk, Pc.held, hr]
    · simp [hnp]
  | @noMemory np child next =>
    have hnp : np ≠ p := by
      rintro rfl
      exact hruns.ne_unused hat
    refine h.threadStep_other (k := .code (next none)) (f := fun r => { r.freeproc with lock := none })
      hl hruns rfl rfl (fun he => absurd he hnp) (fun r hr => ?_) (by simp [Pc.held])
      (.inl (by simp [hk, Pc.held])) trivial (.inl rfl) rfl trivial fun _ => .inl ?_
    · simp [hk, Pc.held, hr]
    · exact ⟨by simpa [hnp, Proc.freeproc] using hat.symm, by simp [hnp, Proc.freeproc]⟩
  | @allocFound np child next =>
    have hnp : np ≠ p := by
      rintro rfl
      exact hruns.ne_unused hat
    have hst : (s.proc np).state = .unused := hat
    have hlock := hmem np (List.mem_singleton_self np)
    refine h.threadStep_other (k := .forkRun np next)
      (f := fun r => { r with pid := s.nextpid, parent := some p, pc := .forkret child })
      hl hruns rfl rfl (fun he => absurd he hnp) (fun r hr => ?_) (by simpa [Pc.held] using hlock)
      (.inl (by simp [hk, Pc.held])) trivial (.inr trivial) rfl ?_ fun _ => .inr ⟨.inr hlock, ?_⟩
    · simp [hk, Pc.held]
    · simp [State.At, hnp, hst]
    · simp [hnp, hst, Pc.Resumes]
  | @forkRun np =>
    have hnp : np ≠ p := by
      rintro rfl
      exact hruns.ne_unused hat.1
    refine h.threadStep_other hl hruns rfl rfl (fun he => absurd he hnp) (fun r hr => ?_)
      (by simp [Pc.held]) (.inl (by simp [hk, Pc.held])) trivial (.inl rfl) rfl trivial
      fun _ => .inr ⟨.inr (hmem np (List.mem_singleton_self np)), ?_⟩
    · simp [hk, Pc.held, hr]
    · obtain ⟨l, hpc⟩ := hat.2
      simp [hnp, hat.1, hpc, Pc.Resumes]
  | @exitLock _ parent hq =>
    refine h.threadStep_other hl hruns rfl rfl (fun he => he ▸ hruns) (fun r hr => ?_)
      (by simp [Pc.held]) (.inr hq) trivial (.inl rfl) rfl trivial fun hne => .inl ?_
    · simp [hk, Pc.held, hr]
    · simp [hne]
  | @exitZombie status parent hq =>
    have hne : parent ≠ p := hwf
    refine ⟨rfl, fun q => ?_, fun q hq hq' => ?_, fun q => ?_, ?_, fun q hq => ?_⟩
    · by_cases hp : q = p
      · subst hp
        simpa [Pc.held, hne.symm] using hmem q (by simp [Pc.held])
      · by_cases hpar : q = parent <;> simp [hk, Pc.held, hp, hpar, hne]
    · simp [Pc.held] at hq
      simp [hk, Pc.held, hq] at hq'
    · by_cases hp : q = p
      · subst hp
        exact .inr (by simp [Pc.Wf, Pc.Resumes])
      · refine .inl ?_
        by_cases hpar : q = parent
        · simp [hpar, hne, ((s.proc parent).soft_wake _).1]
        · simp [hp, hpar]
    · simp [Pc.Runs, ProcState.Parked, State.At]
    · by_cases hpar : q = parent
      · subst hpar
        refine h.yields_soft (.inr ⟨‹_›, fun hon => hne ?_⟩) ?_
        · simpa [State.On, hl, Loc.proc] using hon.symm
        · simpa [hne, Proc.Soft] using (s.proc q).soft_wake (.proc q)
      · exact .inl (by simp [hq, hpar])
  | @waitReap addr np next hq hu =>
    have hnp : np ≠ p := by
      rintro rfl
      simp [show (s.proc np).state = .running from hruns] at hu
    refine ⟨rfl, fun q => ?_, fun q hq => ?_, fun q => ?_, ?_, fun q hqp => ?_⟩
    · by_cases hp : q = p
      · subst hp
        simp [hk, Pc.held]
      · by_cases hqn : q = np
        · simp [hk, Pc.held, hqn, hnp, Proc.freeproc]
        · simp [hk, Pc.held, hp, hqn]
    · simp [Pc.held] at hq
    · by_cases hp : q = p
      · subst hp
        exact .inr (by simp [Pc.Wf])
      · by_cases hqn : q = np
        · exact .inl (by simp [hqn, hnp, Proc.freeproc])
        · exact .inl (by simp [hp, hqn])
    · simpa [Pc.Runs, State.At, hnp.symm] using hruns
    · by_cases hqn : q = np
      · subst hqn
        refine .inr ⟨.inl hq, by simp [hu], ?_, ?_⟩ <;> simp [hnp, Proc.freeproc, ProcState.Parked]
      · exact .inl (by simp [hqp, hqn])

end Inv
end Xv6.Sched
