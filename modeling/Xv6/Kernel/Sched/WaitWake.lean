import Xv6.Kernel.Sched.Reparent
import Mathlib.Tactic

/-! No wakeup is lost between `exit` and `wait`. -/
namespace Xv6.Sched
open Lib

variable {ι D κ Λ C : Type} {s s' : State ι D κ Λ C} {c : C} {n : ℕ} {a : Act ι} {p q : Slot} {k : Pc ι κ Λ} {t : Tree}

/-- How far `wait` has looked for a zombie since it has the lock of its process. -/
def Pc.scanned : Pc ι κ Λ → ℕ
  | .waitScan _ i _ _ => i
  | .waitChild _ np _ => np
  | .waitSleep .. => nproc
  | _ => 0

/-- In `wait`, below the place that it has reached there is no zombie whose parent is `p`; and if
`p` sleeps there is none at all. -/
structure Waits (s : State ι D κ Λ C) : Prop where
  scan : ∀ c p, p ≠ initproc → (s.cpu c).loc = .run p →
    ∀ r : Slot, r < (s.proc p).pc.scanned → s.par r = some p → (s.proc r).state ≠ .zombie
  asleep : ∀ p, p ≠ initproc → (s.proc p).state = .sleeping → (s.proc p).chan = some (.proc p) →
    ∀ r, s.par r = some p → (s.proc r).state ≠ .zombie

/-- A process does not become a zombie, except as a child of init, and does not fall asleep. -/
def Proc.Harmless (r r' : Proc ι κ Λ C) : Prop :=
  (r'.state = .zombie → r'.parent ≠ some initproc → r.state = .zombie ∧ r'.parent = r.parent) ∧
  (r'.state = .sleeping → r.state = .sleeping ∧ r'.chan = r.chan)

theorem Proc.Harmless.of_eq {r r' : Proc ι κ Λ C} (hst : r'.state = r.state) (hpar : r'.parent = r.parent)
    (hch : r'.chan = r.chan) : r.Harmless r' :=
  ⟨fun h _ => ⟨hst ▸ h, hpar⟩, fun h => ⟨hst ▸ h, hch⟩⟩

theorem Proc.Harmless.of_state {r r' : Proc ι κ Λ C} (hz : r'.state ≠ .zombie) (hs : r'.state ≠ .sleeping) :
    r.Harmless r' :=
  ⟨fun h => absurd h hz, fun h => absurd h hs⟩

theorem Proc.harmless_wake [DecidableEq κ] (r : Proc ι κ Λ C) (chan : Chan κ) : r.Harmless (r.wake chan) := by
  unfold Proc.wake
  split_ifs with h
  · exact .of_state (by simp) (by simp)
  · exact .of_eq rfl rfl rfl

theorem Proc.harmless_kill (r : Proc ι κ Λ C) : r.Harmless r.kill := by
  by_cases h : r.state = .sleeping
  · exact .of_state (by simp [Proc.kill, h]) (by simp [Proc.kill, h])
  · exact .of_eq (by simp [Proc.kill, h]) rfl rfl

theorem State.harmless_setProc {f : Proc ι κ Λ C → Proc ι κ Λ C} (hf : (s.proc p).Harmless (f (s.proc p)))
    (q : Slot) : (s.proc q).Harmless ((s.setProc p f).proc q) := by
  rw [State.setProc_proc]
  split_ifs with hq
  · subst hq
    exact hf
  · exact .of_eq rfl rfl rfl

theorem State.harmless_setPc (hs : ∀ q, (s.proc q).Harmless (s'.proc q)) (k : Pc ι κ Λ) (q : Slot) :
    (s.proc q).Harmless ((s'.setPc p k).proc q) := by
  rw [State.setPc_proc]
  split_ifs
  · exact hs q
  · exact hs q

theorem Pc.mem_held_of_scanned (h : k.scanned ≠ 0) (p : Slot) : k.held p = [p] := by
  cases k <;> first | rfl | exact absurd rfl h

theorem Pc.scanned_of_resumes (h : k.Resumes) : k.scanned = 0 := by
  cases k <;> first | rfl | exact h.elim

namespace Waits

theorem harmless (h : Waits s) (hh : ∀ q, (s.proc q).Harmless (s'.proc q))
    (hscan : ∀ c p, p ≠ initproc → (s'.cpu c).loc = .run p → (s'.proc p).pc.scanned ≠ 0 →
      ∀ r : Slot, r < (s'.proc p).pc.scanned → s.par r = some p → (s.proc r).state ≠ .zombie) : Waits s' := by
  refine ⟨fun c p hp hl r hr hpar hz => ?_, fun p hp hst hch r hpar hz => ?_⟩
  · have hne : (s'.proc r).parent ≠ some initproc := fun he => hp (Option.some.inj (hpar.symm.trans he))
    obtain ⟨hz', hpar'⟩ := (hh r).1 hz hne
    exact hscan c p hp hl (Nat.ne_of_gt (Nat.zero_lt_of_lt hr)) r hr (hpar'.symm.trans hpar) hz'
  · have hne : (s'.proc r).parent ≠ some initproc := fun he => hp (Option.some.inj (hpar.symm.trans he))
    obtain ⟨hz', hpar'⟩ := (hh r).1 hz hne
    obtain ⟨hst', hch'⟩ := (hh p).2 hst
    exact h.asleep p hp hst' (hch'.symm.trans hch) r (hpar'.symm.trans hpar) hz'

variable [DecidableEq κ] [DecidableEq Λ] {code : ι → Instr ι D κ Λ}

theorem scan_thread (h : Waits s) (hi : Inv s) (hl : (s.cpu c).loc = .run p)
    (hs : ThreadTrans code s c n p (s.proc p).pc s')
    (hp : p ≠ initproc → (s'.proc p).pc.scanned ≠ 0 → ∀ r : Slot, r < (s'.proc p).pc.scanned →
      s.par r = some p → (s.proc r).state ≠ .zombie) (c' : C) (q : Slot) (hq : q ≠ initproc)
    (hl' : (s'.cpu c').loc = .run q) (hne : (s'.proc q).pc.scanned ≠ 0) :
    ∀ r : Slot, r < (s'.proc q).pc.scanned → s.par r = some q → (s.proc r).state ≠ .zombie := by
  have hstep := hi.threadStep hl hs
  rw [hstep.cpu] at hl'
  by_cases hc : c' = c
  · subst hc
    obtain rfl : p = q := by simpa [hl] using hl'
    exact hp hq hne
  · have hsame := hi.same_of_yields hstep.other (State.on_run hl) hc (State.on_run hl')
    rw [hsame.2]
    exact h.scan c' q hq hl'

theorem falls_asleep (h : Waits s) (hi : Inv s) (hl : (s.cpu c).loc = .run p)
    (hs : ThreadTrans code s c n p (s.proc p).pc s') (hother : ∀ q ≠ p, s'.proc q = s.proc q)
    (hst : (s'.proc p).state = .sleeping) (hpar : (s'.proc p).parent = (s.proc p).parent)
    (hk : (s'.proc p).pc.scanned = 0)
    (hwait : p ≠ initproc → (s'.proc p).chan = some (.proc p) → ∀ r, s.par r = some p →
      (s.proc r).state ≠ .zombie) : Waits s' := by
  have hkids : ∀ r x, s'.par r = some x → (s'.proc r).state = .zombie →
      s.par r = some x ∧ (s.proc r).state = .zombie := by
    intro r x hx hz
    have hr : r ≠ p := by
      rintro rfl
      simp [hst] at hz
    unfold State.par at hx ⊢
    rw [hother r hr] at hx hz
    exact ⟨hx, hz⟩
  refine ⟨fun c' q hq hl' r hr hx hz => ?_, fun q hq hst' hch r hx hz => ?_⟩
  · obtain ⟨hx', hz'⟩ := hkids r q hx hz
    exact h.scan_thread hi hl hs (fun _ hne => absurd hk hne) c' q hq hl' (Nat.ne_of_gt (Nat.zero_lt_of_lt hr)) r hr hx' hz'
  · obtain ⟨hx', hz'⟩ := hkids r q hx hz
    by_cases hqp : q = p
    · subst hqp
      exact hwait hq hch r hx' hz'
    · rw [hother q hqp] at hst' hch
      exact h.asleep q hq hst' hch r hx' hz'

/-- `p` becomes a zombie. The parent that it wakes up is its parent still, unless that is init. -/
theorem becomes_zombie (h : Waits s) (hi : Inv s) (hkin : Kin s t) (hl : (s.cpu c).loc = .run p)
    (hs : ThreadTrans code s c n p (s.proc p).pc s') {status : ℤ} {parent : Slot}
    (hk : (s.proc p).pc = .exitZombie status parent) (hpc : (s'.proc p).pc.scanned = 0)
    (hpar : s'.par = s.par) (hst : (s'.proc p).state = .zombie)
    (hwoken : ¬ ((s'.proc parent).state = .sleeping ∧ (s'.proc parent).chan = some (.proc parent)))
    (hother : ∀ q ≠ p, (s.proc q).Harmless (s'.proc q)) : Waits s' := by
  obtain ⟨life, hlife⟩ := hkin.exists_life (hi.run c p hl).1.ne_unused
  obtain ⟨⟨hp, -⟩, hseen, hno⟩ : (Pc.exitZombie status parent : Pc ι κ Λ).Ok s.par p life := by
    simpa [hk, Pc.under] using hkin.ok p life hlife
  have hparent : ∀ x, x ≠ initproc → s'.par p = some x → x = parent := by
    intro x hx he
    rw [hpar] at he
    rcases hseen with hs | hs <;> rw [hs] at he
    · exact (Option.some.inj he).symm
    · exact absurd (Option.some.inj he).symm hx
  have hkids : ∀ r x, x ≠ initproc → r ≠ p → s'.par r = some x → (s'.proc r).state = .zombie →
      s.par r = some x ∧ (s.proc r).state = .zombie := by
    intro r x hx hr he hz
    have hne : (s'.proc r).parent ≠ some initproc := fun hi => hx (Option.some.inj (he.symm.trans hi))
    exact ⟨hpar ▸ he, ((hother r hr).1 hz hne).1⟩
  refine ⟨fun c' q hq hl' r hr he hz => ?_, fun q hq hst' hch r he hz => ?_⟩
  · by_cases hrp : r = p
    · -- the lock of the parent is held here, so it is not in `wait`
      subst hrp
      obtain rfl := hparent q hq he
      rw [(hi.threadStep hl hs).cpu] at hl'
      have hqc : (s.proc q).lock = some c := (hi.mem_held hl).mpr (by simp [hk, Pc.held])
      by_cases hc : c' = c
      · subst hc
        obtain rfl : r = q := by simpa [hl] using hl'
        rw [hpc] at hr
        exact absurd hr (Nat.not_lt_zero _)
      · have hsame := hi.same_of_yields (hi.threadStep hl hs).other (State.on_run hl) hc (State.on_run hl')
        rw [hsame.2] at hr
        have hheld := Pc.mem_held_of_scanned (Nat.ne_of_gt (Nat.zero_lt_of_lt hr)) q
        have hqc' : (s.proc q).lock = some c' := (hi.mem_held hl').mpr (by simp [hheld])
        exact hc (Option.some.inj (hqc'.symm.trans hqc))
    · obtain ⟨he', hz'⟩ := hkids r q hq hrp he hz
      exact h.scan_thread hi hl hs (fun _ hne => absurd hpc hne) c' q hq hl' (Nat.ne_of_gt (Nat.zero_lt_of_lt hr)) r hr
        he' hz'
  · by_cases hrp : r = p
    · subst hrp
      obtain rfl := hparent q hq he
      exact hwoken ⟨hst', hch⟩
    · obtain ⟨he', hz'⟩ := hkids r q hq hrp he hz
      have hqp : q ≠ p := by
        rintro rfl
        simp [hst] at hst'
      obtain ⟨hst'', hch'⟩ := (hother q hqp).2 hst'
      exact h.asleep q hq hst'' (hch'.symm.trans hch) r he' hz'

theorem thread (h : Waits s) (hi : Inv s) (hkin : Kin s t) (hl : (s.cpu c).loc = .run p)
    (hs : ThreadTrans code s c n p (s.proc p).pc s') : Waits s' := by
  have hs' := hs
  obtain ⟨hruns, hat⟩ := hi.run c p hl
  have hwf := hi.wf p
  have hcalm : (∀ q, (s.proc q).Harmless (s'.proc q)) →
      (p ≠ initproc → (s'.proc p).pc.scanned ≠ 0 → ∀ r : Slot, r < (s'.proc p).pc.scanned →
        s.par r = some p → (s.proc r).state ≠ .zombie) → Waits s' :=
    fun hh hp => h.harmless hh (h.scan_thread hi hl hs hp)
  have hold := h.scan c p
  generalize hk : (s.proc p).pc = k at hs hruns hat hwf hold
  have heq : ∀ q, (s.proc q).Harmless (s.proc q) := fun _ => .of_eq rfl rfl rfl
  cases hs with
  | acquire | release | run | sleepRelease | sleepAcquire | wakeupDone | killMiss | killDone | allocUsed
  | allocDone | exitParent | reparentHit | reparentMiss | reparentDone | exiting =>
    exact hcalm (State.harmless_setPc heq _) fun _ hne => absurd (by simp [Pc.scanned]) hne
  | @call l k' he =>
    refine hcalm (State.harmless_setPc heq _) fun _ hne => absurd ?_ hne
    cases hc : code l <;> rw [hc] at he <;> cases he <;> simp [Pc.scanned]
  | wakeup | exit =>
    exact hcalm (State.harmless_setPc (State.harmless_setProc (Proc.harmless_wake _ _)) _)
      fun _ hne => absurd (by simp [Pc.scanned]) hne
  | killHit =>
    exact hcalm (State.harmless_setPc (State.harmless_setProc (Proc.harmless_kill _)) _)
      fun _ hne => absurd (by simp [Pc.scanned]) hne
  | allocUnused | exitLock =>
    exact hcalm (State.harmless_setPc (State.harmless_setProc (.of_eq rfl rfl rfl)) _)
      fun _ hne => absurd (by simp [Pc.scanned]) hne
  | sleep | forkret | exitSelf | waitReturn | waitFault | wait =>
    exact hcalm (State.harmless_setProc (.of_eq rfl rfl rfl)) fun _ hne => absurd (by simp [Pc.scanned]) hne
  | yieldRelease =>
    refine hcalm (State.harmless_setProc (.of_eq rfl rfl rfl)) fun _ hne => ?_
    simpa [hwf.1] using Pc.mem_held_of_scanned hne p
  | sleepTidy | waitTidy =>
    have hst : (s.proc p).state = .running := hruns
    exact hcalm (State.harmless_setProc (.of_state (by simp [hst]) (by simp [hst])))
      fun _ hne => absurd (by simp [Pc.scanned]) hne
  | yield =>
    exact hcalm (State.harmless_setProc (.of_state (by simp) (by simp))) fun _ hne => absurd (by simp [Pc.scanned]) hne
  | waitHit =>
    exact hcalm (State.harmless_setPc heq _) fun hp _ => by simpa [Pc.scanned] using hold hp hl
  | @waitMiss _ _ _ np hnp =>
    refine hcalm (State.harmless_setPc heq _) fun hp _ r hr hpar => ?_
    have hr : (r : ℕ) < np + 1 := by simpa [Pc.scanned] using hr
    rcases Nat.lt_succ_iff_lt_or_eq.mp hr with hlt | he
    · exact hold hp hl r hlt hpar
    · exact absurd (Fin.ext he ▸ hpar) hnp
  | @waitAlive _ np _ _ hst =>
    refine hcalm (State.harmless_setPc heq _) fun hp _ r hr hpar => ?_
    have hr : (r : ℕ) < np + 1 := by simpa [Pc.scanned] using hr
    rcases Nat.lt_succ_iff_lt_or_eq.mp hr with hlt | he
    · exact hold hp hl r hlt hpar
    · exact Fin.ext he ▸ hst
  | waitDone hn =>
    exact hcalm (State.harmless_setPc heq _) fun hp _ r _ => hold hp hl r (r.isLt.trans_le hn)
  | sleepMark =>
    exact h.falls_asleep hi hl hs' (fun q hq => by simp [hq]) (by simp) (by simp) (by simp [Pc.scanned])
      fun _ hch => by simp at hch
  | waitSleep =>
    exact h.falls_asleep hi hl hs' (fun q hq => by simp [hq]) (by simp) (by simp) (by simp [Pc.scanned])
      fun hp _ r => hold hp hl r r.isLt
  | @noTrapframe np | @allocFound np =>
    have hst : (s.proc np).state = .unused := hat
    exact hcalm (State.harmless_setPc (State.harmless_setProc (s := { s with nextpid := _ })
      (.of_state (by simp [hst]) (by simp [hst]))) _) fun _ hne => absurd (by simp [Pc.scanned]) hne
  | @noMemory np =>
    exact hcalm (State.harmless_setPc (State.harmless_setProc (s := { s with nextpid := _ })
      (.of_state (by simp [Proc.freeproc]) (by simp [Proc.freeproc]))) _)
      fun _ hne => absurd (by simp [Pc.scanned]) hne
  | forkRun =>
    exact hcalm (State.harmless_setPc (State.harmless_setProc (.of_state (by simp) (by simp))) _)
      fun _ hne => absurd (by simp [Pc.scanned]) hne
  | reparentChild =>
    exact hcalm (State.harmless_setPc (State.harmless_setProc ⟨fun _ hne => absurd rfl hne, fun h => ⟨h, rfl⟩⟩) _)
      fun _ hne => absurd (by simp [Pc.scanned]) hne
  | @exitZombie status parent =>
    have hne : parent ≠ p := hwf
    refine h.becomes_zombie hi hkin hl hs' hk (by simp [Pc.scanned]) (funext fun q => ?_) (by simp) ?_ fun q hq => ?_
    · simp only [State.par, State.note_proc, State.setProc_proc]
      split_ifs <;> first | rfl | exact ((s.proc q).sameKin_wake _).1
    · simp only [State.note_proc, State.setProc_proc, hne, if_true, if_false]
      unfold Proc.wake
      split_ifs with hw
      · simp
      · exact hw
    · rw [State.note_proc, State.setProc_proc, if_neg hq, State.setProc_proc]
      split_ifs
      · exact (s.proc q).harmless_wake _
      · exact heq q
  | @waitReap _ np _ _ hz =>
    have hne : np ≠ p := by
      rintro rfl
      simp [show (s.proc np).state = .running from hruns] at hz
    refine hcalm (fun q => ?_) fun _ hne => absurd (by simp [Pc.scanned]) hne
    rw [State.note_proc, State.setProc_proc, State.setProc_proc]
    split_ifs with hqp hqn
    · exact absurd (hqn.symm.trans hqp) hne
    · exact .of_eq rfl rfl rfl
    · exact .of_state (by simp [Proc.freeproc]) (by simp [Proc.freeproc])
    · exact heq q

theorem trans [DecidableEq C] {K : Kernel ι D κ Λ} (h : Waits s) (hi : Inv s) (hkin : Kin s t)
    (hs : Trans K s c a s') : Waits s' := by
  have heq : ∀ q, (s.proc q).Harmless (s.proc q) := fun _ => .of_eq rfl rfl rfl
  -- no thread goes on in `wait`
  have hcalm : (∀ q, (s.proc q).Harmless (s'.proc q)) → (∀ c' q, (s'.cpu c').loc = .run q →
      (s'.proc q).pc.scanned = 0 ∨ (s.cpu c').loc = .run q ∧ (s'.proc q).pc = (s.proc q).pc) → Waits s' := by
    intro hh hpc
    refine h.harmless hh fun c' q hq hl hne => ?_
    rcases hpc c' q hl with h0 | ⟨hl', he⟩
    · exact absurd h0 hne
    · rw [he]
      exact h.scan c' q hq hl'
  cases hs with
  | thread _ hl hs => exact h.thread hi hkin hl hs
  | handler _ hs =>
    cases hs with
    | @wakeup chan next q =>
      refine hcalm (State.harmless_setProc (Proc.harmless_wake _ _)) fun c' r hl => .inr ⟨?_, ?_⟩
      · rwa [State.setHandler_loc] at hl
      · rw [State.setHandler_proc, State.setProc_proc]
        split_ifs
        · exact ((s.proc r).soft_wake _).1
        · rfl
    | _ =>
      refine hcalm heq fun c' r hl => .inr ⟨?_, rfl⟩
      rwa [State.setHandler_loc] at hl
  | @swtch _ p k _ hl hk =>
    refine hcalm (State.harmless_setPc heq k) fun c' r hl' => .inr ?_
    have hc : c' ≠ c := by
      rintro rfl
      simp at hl'
    have hrun : (s.cpu c').loc = .run r := by simpa [hc] using hl'
    have hrp : r ≠ p := by
      rintro rfl
      exact hc (hi.uniq c' c r (State.on_run hrun) (State.on_run hl))
    exact ⟨hrun, by simp [hrp]⟩
  | @skip _ i _ hl =>
    refine hcalm heq fun c' r hl' => .inr ⟨?_, rfl⟩
    have hc : c' ≠ c := by
      rintro rfl
      simp at hl'
    simpa [hc] using hl'
  | @pick _ i _ hl hlock hst =>
    have hoff : ∀ c', ¬ s.On c' i := hi.not_on (c := c) (by simp [hst]) (.inl hlock)
    have hres : (s.proc i).pc.Resumes := (hi.off i hoff).2 (.inl hst)
    have hh : ∀ r, (s.proc r).Harmless
        ((s.setProc i fun q => { q with state := .running, lock := some c }).proc r) :=
      State.harmless_setProc (.of_state (by simp) (by simp))
    refine hcalm hh fun c' r hl' => ?_
    by_cases hc : c' = c
    · obtain rfl : i = r := by simpa [hc] using hl'
      exact .inl (by simpa using Pc.scanned_of_resumes hres)
    · refine .inr ⟨by simpa [hc] using hl', ?_⟩
      rw [State.setLoc_proc, State.setProc_proc]
      split_ifs <;> rfl
  | @back _ i _ hl =>
    have hh : ∀ r, (s.proc r).Harmless ((s.setProc i fun q => { q with lock := none }).proc r) :=
      State.harmless_setProc (.of_eq rfl rfl rfl)
    refine hcalm hh fun c' r hl' => .inr ⟨?_, ?_⟩
    · have hc : c' ≠ c := by
        rintro rfl
        simp at hl'
      simpa [hc] using hl'
    · rw [State.setLoc_proc, State.setProc_proc]
      split_ifs <;> rfl
  | @timer p _ hl =>
    refine hcalm (State.harmless_setPc heq _) fun c' r hl' => ?_
    by_cases hrp : r = p
    · exact .inl (by simp [hrp, Pc.scanned])
    · exact .inr ⟨hl', by simp [hrp]⟩
  | device =>
    refine hcalm heq fun c' r hl => .inr ⟨?_, rfl⟩
    rwa [State.setHandler_loc] at hl
  | dma => exact hcalm heq fun c' r hl => .inr ⟨hl, rfl⟩

end Waits

section Runs
variable [DecidableEq κ] [DecidableEq Λ] [DecidableEq C] [Fintype Λ] {K : Kernel ι D κ Λ} {data : D} {start : ι}

theorem Reachable.waits (h : Reachable K data start s) : Waits s := by
  refine (h.induct (J := fun s => (∃ t, Kin s t) ∧ Waits s) ⟨⟨_, kin_boot data start⟩, ?_, ?_⟩ ?_).2
  · intro c p _ hl
    cases hl
  · intro p hp _ _ r hpar
    exfalso
    simp only [State.par, boot] at hpar
    split_ifs at hpar
  · rintro s c a s' hi ⟨⟨t, hkin⟩, hw⟩ hs
    refine ⟨?_, hw.trans hi hkin hs⟩
    rcases hkin.trans hi hs with ⟨-, hkin'⟩ | ⟨-, t', -, -, hkin'⟩
    · exact ⟨t, hkin'⟩
    · exact ⟨t', hkin'⟩

/-- No wakeup is lost between `exit` and `wait`: a process that sleeps in `wait` has no zombie to
wait for, whether locks are free or not. -/
theorem no_lost_exit (h : Reachable K data start s) :
    ¬ ∃ p, p ≠ initproc ∧ (s.proc p).state = .sleeping ∧ (s.proc p).chan = some (.proc p) ∧
      ∃ q, (s.proc q).parent = some p ∧ (s.proc q).state = .zombie := by
  rintro ⟨p, hp, hst, hch, q, hpar, hz⟩
  exact h.waits.asleep p hp hst hch q hpar hz

end Runs

/-- The child of init forks as well and waits for its own child. -/
def grandchild : Kernel (Fin 5) Unit Empty Empty where
  code
    | 0 => .fork 1 fun _ => 3
    | 1 => .fork 2 fun _ => 4
    | 2 => .exit 5
    | 3 => .wait 0 fun _ => 3
    | 4 => .wait 0 fun _ => 2
  handler _ := false
  dma d _ := d

/-- It sleeps in `wait`, and the child is not a zombie. -/
theorem no_lost_exit_grandchild : ∃ s : State (Fin 5) Unit Empty Empty Bool,
    Reachable grandchild () 0 s ∧ (s.proc 1).state = .sleeping ∧ (s.proc 1).chan = some (.proc 1) ∧
    (s.proc 2).parent = some 1 ∧ (s.proc 2).state ≠ .zombie := by
  obtain ⟨s, hrun, htest⟩ := exists_run_of_exec (step grandchild) (fun _ _ => True)
    (boot () 0 : State (Fin 5) Unit Empty Empty Bool)
    (List.replicate 8 (false, .go 2) ++ List.replicate 80 (true, .go 2))
    (fun s => decide ((s.proc 1).state = .sleeping ∧ (s.proc 1).chan = some (.proc 1) ∧
      (s.proc 2).parent = some 1)) (by decide +kernel)
  obtain ⟨hst, hch, hpar⟩ := of_decide_eq_true htest
  exact ⟨s, hrun, hst, hch, hpar, fun hz => no_lost_exit hrun ⟨1, by decide, hst, hch, 2, hpar, hz⟩⟩

end Xv6.Sched
