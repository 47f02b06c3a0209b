import Xv6.Kernel.Sched.Simulation
import Mathlib.Tactic

/-! Every run of the machine is a run of the threads of its clients. -/
namespace Xv6.Sched
open Lib Function

variable {ι D κ Λ C : Type} {s s' : State ι D κ Λ C} {a a' : Client ι D κ Λ C} {c : C} {p q : Slot} {k : Pc ι κ Λ}
  {K : Kernel ι D κ Λ} {L : ι → List Λ} {lk : Λ} {t : Slot ⊕ C}

theorem Proc.point_of_running {r : Proc ι κ Λ C} (h : r.state = .running) : r.point = r.pc.point .running none := by
  simp only [Proc.point, h, reduceCtorEq, or_self, if_false]
  exact Pc.point_congr (by simp) (by simp) _ _ _

theorem Proc.point_wake_proc [DecidableEq κ] (r : Proc ι κ Λ C) (x : Slot) : (r.wake (.proc x)).point = r.point := by
  unfold Proc.wake
  split_ifs with h
  · simp only [Proc.point, h.1, h.2, reduceCtorEq, or_self, if_false]
    exact Pc.point_of_not_other (by simp) _ _ _
  · rfl

namespace LockSim

theorem congr (h : LockSim s a) (hloc : ∀ c, (s'.cpu c).loc = (s.cpu c).loc)
    (hh : ∀ c, (s'.cpu c).handler ≠ none → (s.cpu c).handler ≠ none) (hlock : s'.lock = s.lock)
    (ha : a'.lock = a.lock) : LockSim s' a' := by
  refine ⟨fun lk hl => ?_, fun lk c hl => ?_, fun c p lk hc hl => ?_⟩
  · rw [ha]
    exact h.free lk (hlock ▸ hl)
  · obtain ⟨t, ht, hhost⟩ := h.held lk c (hlock ▸ hl)
    refine ⟨t, by rw [ha, ht], ?_⟩
    cases t with
    | inl p => exact (hloc c).trans hhost
    | inr c' => exact hhost
  · rw [ha]
    exact h.inside c p lk (hh c hc) (hloc c ▸ hl)

theorem take [DecidableEq Λ] (h : LockSim s a) (hloc : ∀ c, (s'.cpu c).loc = (s.cpu c).loc)
    (hh : ∀ c, (s'.cpu c).handler ≠ none → (s.cpu c).handler ≠ none)
    (hlock : s'.lock = update s.lock lk (some c)) (ha : a'.lock = update a.lock lk (some t))
    (hhost : s.Hosts c t) (hin : ∀ p, t = .inl p → ∀ c, (s.cpu c).handler ≠ none → (s.cpu c).loc ≠ .run p) :
    LockSim s' a' := by
  have hhost' : ∀ c t, s.Hosts c t → s'.Hosts c t := by
    intro c t ht
    cases t with
    | inl p => exact (hloc c).trans ht
    | inr c' => exact ht
  refine ⟨fun lk' hl => ?_, fun lk' c' hl => ?_, fun c' p lk' hc hl => ?_⟩
  · by_cases hk : lk' = lk
    · simp [hlock, hk] at hl
    · rw [hlock, update_of_ne hk] at hl
      rw [ha, update_of_ne hk]
      exact h.free lk' hl
  · by_cases hk : lk' = lk
    · subst hk
      rw [hlock, update_self] at hl
      obtain rfl := Option.some.inj hl
      exact ⟨t, by rw [ha, update_self], hhost' _ _ hhost⟩
    · rw [hlock, update_of_ne hk] at hl
      obtain ⟨u, hu, hc'⟩ := h.held lk' c' hl
      exact ⟨u, by rw [ha, update_of_ne hk, hu], hhost' _ _ hc'⟩
  · by_cases hk : lk' = lk
    · subst hk
      rw [ha, update_self]
      intro he
      exact hin p (Option.some.inj he) c' (hh c' hc) (hloc c' ▸ hl)
    · rw [ha, update_of_ne hk]
      exact h.inside c' p lk' (hh c' hc) (hloc c' ▸ hl)

theorem give [DecidableEq Λ] (h : LockSim s a) (hloc : ∀ c, (s'.cpu c).loc = (s.cpu c).loc)
    (hh : ∀ c, (s'.cpu c).handler ≠ none → (s.cpu c).handler ≠ none)
    (hlock : s'.lock = update s.lock lk none) (ha : a'.lock = update a.lock lk none) :
    LockSim s' a' := by
  refine ⟨fun lk' hl => ?_, fun lk' c' hl => ?_, fun c' p lk' hc hl => ?_⟩
  · by_cases hk : lk' = lk
    · rw [ha, hk, update_self]
    · rw [hlock, update_of_ne hk] at hl
      rw [ha, update_of_ne hk]
      exact h.free lk' hl
  · by_cases hk : lk' = lk
    · simp [hlock, hk] at hl
    · rw [hlock, update_of_ne hk] at hl
      obtain ⟨u, hu, hc'⟩ := h.held lk' c' hl
      refine ⟨u, by rw [ha, update_of_ne hk, hu], ?_⟩
      cases u with
      | inl p => exact (hloc c').trans hc'
      | inr c'' => exact hc'
  · by_cases hk : lk' = lk
    · rw [ha, hk, update_self]
      simp
    · rw [ha, update_of_ne hk]
      exact h.inside c' p lk' (hh c' hc) (hloc c' ▸ hl)

theorem switch (h : LockSim s a) (hlock : s'.lock = s.lock) (hcpu : ∀ c' ≠ c, s'.cpu c' = s.cpu c')
    (hno : ∀ lk, s.lock lk ≠ some c)
    (hin : ∀ p lk, (s'.cpu c).handler ≠ none → (s'.cpu c).loc = .run p → a.lock lk ≠ some (.inl p)) :
    LockSim s' a := by
  refine ⟨fun lk hl => h.free lk (hlock ▸ hl), fun lk c' hl => ?_, fun c' p lk hc hl => ?_⟩
  · rw [hlock] at hl
    have hc : c' ≠ c := by
      rintro rfl
      exact hno lk hl
    obtain ⟨t, ht, hhost⟩ := h.held lk c' hl
    refine ⟨t, ht, ?_⟩
    cases t with
    | inl p => exact (congrArg Cpu.loc (hcpu c' hc)).trans hhost
    | inr c'' => exact hhost
  · by_cases hcc : c' = c
    · subst hcc
      exact hin p lk hc hl
    · rw [hcpu c' hcc] at hc hl
      exact h.inside c' p lk hc hl

end LockSim

namespace Sim

theorem owner (h : Sim s a) (ho : a.Owns K L) (hh : (s.cpu c).handler = none) (hl : (s.cpu c).loc = .run p)
    (hlk : s.lock lk = some c) : a.lock lk = some (.inl p) := by
  obtain ⟨t, ht, hhost⟩ := h.held lk c hlk
  cases t with
  | inl q =>
    obtain rfl : p = q := by simpa [hl] using (show (s.cpu c).loc = .run q from hhost)
    exact ht
  | inr c' =>
    obtain rfl : c' = c := hhost
    have := (ho.lock lk _).mp ht
    simp [h.handler, hh, Point.locks] at this

theorem owner_handler (h : Sim s a) (hh : (s.cpu c).handler = some k) (hlk : s.lock lk = some c) :
    a.lock lk = some (.inr c) := by
  obtain ⟨t, ht, hhost⟩ := h.held lk c hlk
  cases t with
  | inl q => exact absurd ht (h.inside c q lk (by simp [hh]) hhost)
  | inr c' =>
    obtain rfl : c' = c := hhost
    exact ht

variable [DecidableEq C]

theorem move (h : Sim s a) (hcpu : s'.cpu = s.cpu) (hlock : s'.lock = s.lock) (hdata : s'.data = s.data)
    (hother : ∀ q ≠ p, (s'.proc q).point = (s.proc q).point) :
    Sim s' (a.set (.inl p) (s'.proc p).point) := by
  refine ⟨h.toLockSim.congr (fun c => by rw [hcpu]) (fun c => by rw [hcpu]; exact id) hlock rfl, ?_, fun q => ?_,
    fun c => ?_⟩
  · rw [Client.set_data, h.data, hdata]
  · rw [Client.set_task]
    split_ifs with hq
    · rw [Sum.inl.inj hq]
    · rw [h.proc, hother q fun he => hq (he ▸ rfl)]
  · rw [Client.set_task, if_neg (by simp), h.handler, hcpu]

omit [DecidableEq C] in
theorem quiet (h : Sim s a) (hcpu : s'.cpu = s.cpu) (hlock : s'.lock = s.lock) (hdata : s'.data = s.data)
    (hpt : ∀ q, (s'.proc q).point = (s.proc q).point) : Sim s' a := by
  refine ⟨h.toLockSim.congr (fun c => by rw [hcpu]) (fun c => by rw [hcpu]; exact id) hlock rfl, ?_, fun q => ?_,
    fun c => ?_⟩
  · rw [h.data, hdata]
  · rw [h.proc, hpt]
  · rw [h.handler, hcpu]

variable [DecidableEq Λ] {n : ℕ} {tr : Tree} (allow : ι → D → Bool → ℕ → Prop)

theorem woken (h : Sim s a) (hi : Inv s) (hso : Sound K s) (hlock : (s.proc q).lock = none) {f : Proc ι κ Λ C → Proc ι κ Λ C}
    (hf : f (s.proc q) = { s.proc q with state := .runnable, killed := (f (s.proc q)).killed })
    (hst : (s.proc q).state = .sleeping) :
    ∃ a', Relation.ReflTransGen (ClientStep K allow) a a' ∧ Sim (s.setProc q f) a' ∧
      (∀ t, (∀ chan lk next, a.task t ≠ some (.wait chan lk next)) → a'.task t = a.task t) ∧
      ∀ chan lk next, a'.task (.inl q) ≠ some (.wait chan lk next) := by
  have hpt : ∀ r ≠ q, ((s.setProc q f).proc r).point = (s.proc r).point := fun r hr => by simp [hr]
  by_cases hch : ∃ chan, (s.proc q).chan = some (.other chan)
  · obtain ⟨chan, hch⟩ := hch
    obtain ⟨lk, next, hpc⟩ := hso.doze q chan hst hch
    have hold : a.task (.inl q) = some (.wait chan lk next) := by
      rw [h.proc]
      rcases hpc with hpc | hpc <;> simp [Proc.point, hst, hch, hpc, Pc.point]
    have hnew : ((s.setProc q f).proc q).point = some (.wake lk next) := by
      rw [State.setProc_proc, if_pos rfl, hf]
      rcases hpc with hpc | hpc <;> simp [Proc.point, hch, hpc, Pc.point]
    refine ⟨a.set (.inl q) (some (.wake lk next)), .single (.woken hold), ?_, fun t ht => ?_, by simp⟩
    · rw [← hnew]
      exact h.move (p := q) rfl rfl rfl hpt
    · rw [Client.set_task, if_neg]
      rintro rfl
      exact ht _ _ _ hold
  · have hsame : ((s.setProc q f).proc q).point = (s.proc q).point := by
      rw [State.setProc_proc, if_pos rfl, hf]
      simp only [Proc.point, hst, reduceCtorEq, or_self, if_false]
      exact Pc.point_of_not_other (fun chan hc => hch ⟨chan, hc⟩) _ _ _
    refine ⟨a, .refl, h.quiet rfl rfl rfl fun r => ?_, fun t _ => rfl, fun chan lk next hw => ?_⟩
    · by_cases hr : r = q
      · rw [hr, hsame]
      · exact hpt r hr
    · rw [h.proc] at hw
      exact hch ⟨chan, (hi.sleeping_of_point hlock hw).2⟩

omit [DecidableEq C] [DecidableEq Λ] in
theorem touch (h : Sim s a) {f : Proc ι κ Λ C → Proc ι κ Λ C} (hf : (f (s.proc q)).point = (s.proc q).point) :
    Sim (s.setProc q f) a := by
  refine h.quiet rfl rfl rfl fun r => ?_
  rw [State.setProc_proc]
  split_ifs with hr
  · rw [hr, hf]
  · rfl

variable [DecidableEq κ]

theorem wakeup (h : Sim s a) (hi : Inv s) (hso : Sound K s) (hlock : (s.proc q).lock = none) (chan : κ) :
    ∃ a', Relation.ReflTransGen (ClientStep K allow) a a' ∧ Sim (s.setProc q fun r => r.wake (.other chan)) a' ∧
      (∀ t, (∀ chan lk next, a.task t ≠ some (.wait chan lk next)) → a'.task t = a.task t) ∧
      ∀ lk next, a'.task (.inl q) ≠ some (.wait chan lk next) := by
  by_cases hw : (s.proc q).state = .sleeping ∧ (s.proc q).chan = some (.other chan)
  · obtain ⟨a', hrun, hsim, hsame, hno⟩ := h.woken allow (f := fun r => r.wake (.other chan)) hi hso hlock
      (by simp [Proc.wake, hw]) hw.1
    exact ⟨a', hrun, hsim, hsame, hno chan⟩
  · refine ⟨a, .refl, h.touch (by simp [Proc.wake, hw]), fun _ _ => rfl, fun lk next he => ?_⟩
    rw [h.proc] at he
    exact hw (hi.sleeping_of_point hlock he)

omit [DecidableEq κ] in
theorem kill (h : Sim s a) (hi : Inv s) (hso : Sound K s) (hlock : (s.proc q).lock = none) :
    ∃ a', Relation.ReflTransGen (ClientStep K allow) a a' ∧ Sim (s.setProc q Proc.kill) a' ∧
      ∀ t, (∀ chan lk next, a.task t ≠ some (.wait chan lk next)) → a'.task t = a.task t := by
  by_cases hst : (s.proc q).state = .sleeping
  · obtain ⟨a', hrun, hsim, hsame, -⟩ := h.woken allow (f := Proc.kill) hi hso hlock
      (by simp [Proc.kill, hst]) hst
    exact ⟨a', hrun, hsim, hsame⟩
  · exact ⟨a, .refl, h.touch (by simp [Proc.kill, Proc.point, hst]), fun _ _ => rfl⟩

variable {allow}

/-- A step of a thread is a step of the client, or none. -/
theorem thread (h : Sim s a) (hi : Inv s) (hso : Sound K s) (hkin : Kin s tr) (ho : a.Owns K L)
    (hh : (s.cpu c).handler = none) (hl : (s.cpu c).loc = .run p)
    (hs : ThreadTrans K.code s c n p (s.proc p).pc s')
    (hallow : ∀ l, (s.proc p).pc = .code l → allow l s.data (s.proc p).killed n) :
    ∃ a', Relation.ReflTransGen (ClientStep K allow) a a' ∧ Sim s' a' := by
  obtain ⟨hruns, hat⟩ := hi.run c p hl
  have hpt := h.proc p
  have hcpu : ∀ c', (s.cpu c').handler ≠ none → (s.cpu c').loc ≠ .run p := by
    intro c' hc' hl'
    obtain rfl := hi.uniq c' c p (State.on_run hl') (State.on_run hl)
    exact hc' hh
  have hin : ∀ q, (.inl p : Slot ⊕ C) = .inl q → ∀ c', (s.cpu c').handler ≠ none → (s.cpu c').loc ≠ .run q := by
    rintro q he
    rw [← Sum.inl.inj he]
    exact hcpu
  -- `p` goes on at `k'`
  have hset : ∀ k', (s.proc p).state = .running → Sim (s.setPc p k') (a.set (.inl p) (k'.point .running none)) := by
    intro k' hst
    have hm : Sim (s.setPc p k') (a.set (.inl p) ((s.setPc p k').proc p).point) :=
      h.move rfl rfl rfl fun q hq => by simp [hq]
    rw [State.setPc_proc, if_pos rfl, Proc.point_of_running (by exact hst)] at hm
    exact hm
  have hmove : ∀ {s1 : State ι D κ Λ C} {k'}, s1.proc = (s.setPc p k').proc → s1.cpu = s.cpu → s1.lock = s.lock →
      s1.data = s.data → (s.proc p).state = .running →
      ClientStep K allow a (a.set (.inl p) (k'.point .running none)) →
      ∃ a', Relation.ReflTransGen (ClientStep K allow) a a' ∧ Sim s1 a' := by
    intro s1 k' hproc hcpu hlock hdata hst hstep
    exact ⟨_, .single hstep, (hset k' hst).quiet hcpu hlock hdata fun q => by rw [hproc]⟩
  generalize hk : (s.proc p).pc = k at hs hruns hat hallow
  have hat' : (s.proc p).state = .running → a.task (.inl p) = k.point .running none := by
    intro hst
    rw [hpt, Proc.point_of_running hst, hk]
  have hstay : ∀ {s1 : State ι D κ Λ C} {k'}, s1.proc = (s.setPc p k').proc → s1.cpu = s.cpu → s1.lock = s.lock →
      s1.data = s.data → (s.proc p).state = .running → k'.point .running none = k.point .running none →
      ∃ a', Relation.ReflTransGen (ClientStep K allow) a a' ∧ Sim s1 a' := by
    intro s1 k' hproc hcpu hlock hdata hst he
    have h1 : Sim (s.setPc p k') a :=
      h.touch (by rw [Proc.point_of_running (by exact hst), he, ← hpt, hat' hst])
    exact ⟨a, .refl, h1.quiet hcpu hlock hdata fun q => by rw [hproc]⟩
  have hown : ∀ {f : Proc ι κ Λ C → Proc ι κ Λ C}, (f (s.proc p)).point = k.point .running none →
      (s.proc p).state = .running → ∃ a', Relation.ReflTransGen (ClientStep K allow) a a' ∧ Sim (s.setProc p f) a' := by
    intro f he hst
    exact ⟨a, .refl, h.touch (by rw [he, ← hpt, hat' hst])⟩
  -- `p` goes on at `k'`, after something that leaves it where it was
  have hgo : ∀ {s1 : State ι D κ Λ C} {a1 k'} {f : Proc ι κ Λ C → Proc ι κ Λ C},
      Relation.ReflTransGen (ClientStep K allow) a a1 → Sim s1 a1 →
      (f (s1.proc p)).state = .running → (f (s1.proc p)).pc = k' →
      ClientStep K allow a1 (a1.set (.inl p) (k'.point .running none)) →
      ∃ a', Relation.ReflTransGen (ClientStep K allow) a a' ∧ Sim (s1.setProc p f) a' := by
    intro s1 a1 k' f hrun hsim hst hpc hstep
    have hm : Sim (s1.setProc p f) (a1.set (.inl p) ((s1.setProc p f).proc p).point) :=
      hsim.move rfl rfl rfl fun q hq => by simp [hq]
    rw [State.setProc_proc, if_pos rfl, Proc.point_of_running hst, hpc] at hm
    exact ⟨_, hrun.tail hstep, hm⟩
  have hthen : ∀ {s1 : State ι D κ Λ C} {a1 k'}, Relation.ReflTransGen (ClientStep K allow) a a1 → Sim s1 a1 →
      (s1.proc p).state = .running → ClientStep K allow a1 (a1.set (.inl p) (k'.point .running none)) →
      ∃ a', Relation.ReflTransGen (ClientStep K allow) a a' ∧ Sim (s1.setPc p k') a' :=
    fun hrun hsim hst hstep => hgo hrun hsim hst rfl hstep
  have hkeep : ∀ {s1 : State ι D κ Λ C} {k'}, Sim s1 a → (s1.proc p).state = .running → (s.proc p).state = .running →
      k'.point .running none = k.point .running none →
      ∃ a', Relation.ReflTransGen (ClientStep K allow) a a' ∧ Sim (s1.setPc p k') a' := by
    intro s1 k' hsim hst1 hst he
    refine ⟨a, .refl, hsim.touch ?_⟩
    rw [Proc.point_of_running (by exact hst1), he, ← hat' hst, hsim.proc]
  have hnote : ∀ {s1 : State ι D κ Λ C} {e}, (∃ a', Relation.ReflTransGen (ClientStep K allow) a a' ∧ Sim s1 a') →
      ∃ a', Relation.ReflTransGen (ClientStep K allow) a a' ∧ Sim (s1.note e) a' :=
    fun ⟨a', hrun, hsim⟩ => ⟨a', hrun, hsim.quiet rfl rfl rfl fun _ => rfl⟩
  cases hs with
  | @acquire l lk next hc hlk =>
    refine ⟨_, .single (.acquire (hat' hruns) hc (h.free lk hlk)), ?_⟩
    have hm := hset (.code next) hruns
    exact ⟨h.toLockSim.take (fun _ => rfl) (fun _ => id) rfl rfl hl hin, hm.data, hm.proc, hm.handler⟩
  | @release l lk next hc hlk =>
    refine ⟨_, .single (.release (hat' hruns) hc (h.owner ho hh hl hlk)), ?_⟩
    have hm := hset (.code next) hruns
    exact ⟨h.toLockSim.give (fun _ => rfl) (fun _ => id) rfl rfl, hm.data, hm.proc, hm.handler⟩
  | @run l f hc =>
    have hd := h.data
    refine ⟨_, .single (.run (b := (s.proc p).killed) (n := n) (hat' hruns) hc (hd ▸ hallow l rfl)), ?_⟩
    have hm := hset (.code (f s.data (s.proc p).killed n).2) hruns
    rw [hd]
    exact ⟨h.toLockSim.congr (fun _ => rfl) (fun _ => id) rfl rfl, rfl, hm.proc, hm.handler⟩
  | @call l k' he =>
    obtain ⟨pt, hpt, hpt'⟩ : ∃ pt, (K.code l).point = some pt ∧ k'.point .running none = some pt := by
      cases hc : K.code l <;> rw [hc] at he <;> cases he <;> exact ⟨_, rfl, rfl⟩
    refine hmove rfl rfl rfl rfl hruns ?_
    rw [hpt']
    exact .enter (hat' hruns) hpt
  | exiting hc => exact hmove rfl rfl rfl rfl hruns (.exit (hat' hruns) hc)
  | @sleepRelease chan lk next hlk =>
    refine ⟨_, .single (.sleep (hat' hruns) (h.owner ho hh hl hlk)), ?_⟩
    have hm := hset (.sleepMark chan lk next) hruns
    exact ⟨h.toLockSim.give (fun _ => rfl) (fun _ => id) rfl rfl, hm.data, hm.proc, hm.handler⟩
  | @sleepAcquire lk next hlk =>
    refine ⟨_, .single (.wake (hat' hruns) (h.free lk hlk)), ?_⟩
    have hm := hset (.code next) hruns
    exact ⟨h.toLockSim.take (fun _ => rfl) (fun _ => id) rfl rfl hl hin, hm.data, hm.proc, hm.handler⟩
  | wakeupDone hn => exact hmove rfl rfl rfl rfl hruns (.scanned (hat' hruns) hn)
  | killDone | allocDone => exact hmove rfl rfl rfl rfl hruns (.ret (hat' hruns) ⟨_, rfl⟩)
  | killMiss | allocUsed | exitParent | reparentHit | reparentMiss | reparentDone | waitHit | waitMiss | waitDone
  | waitAlive => exact hstay rfl rfl rfl rfl hruns rfl
  | sleep | sleepTidy | wait | waitTidy | exitSelf | forkret | yieldRelease =>
    have hst : (s.proc p).state = .running := hruns
    exact hown ((Proc.point_of_running (by exact hst)).trans rfl) hst
  | yield => exact hown (Pc.point_congr (by simp) (by simp) _ _ _) hruns
  | sleepMark | waitSleep => exact hown rfl hruns
  | @wakeup chan next q hlock =>
    have hst : (s.proc p).state = .running := hruns
    obtain ⟨a1, hrun, hsim, hsame, hno⟩ := h.wakeup allow hi hso hlock chan
    have hp1 : a1.task (.inl p) = some (.wakeup chan q next) := by
      rw [hsame _ (by simp [hat' hst, Pc.point]), hat' hst]
      rfl
    refine hthen hrun hsim ?_ (.scan hp1 hno)
    rw [State.setProc_proc]
    split_ifs
    · simp [Proc.wake, hst]
    · exact hst
  | @killHit pid next q hlock =>
    have hst : (s.proc p).state = .running := hruns
    obtain ⟨a1, hrun, hsim, hsame⟩ := h.kill allow hi hso hlock
    refine hthen hrun hsim ?_ (.ret ((hsame _ (by simp [hat' hst, Pc.point])).trans (hat' hst)) ⟨_, rfl⟩)
    rw [State.setProc_proc]
    split_ifs
    · simp [Proc.kill, hst]
    · exact hst
  | @allocUnused child next q hlock hu | @exitLock status parent =>
    have hst : (s.proc p).state = .running := hruns
    refine hkeep (h.touch rfl) ?_ hst rfl
    rw [State.setProc_proc]
    split_ifs <;> exact hst
  | @reparentChild status parent pp =>
    have hst : (s.proc p).state = .running := hruns
    refine hnote (hkeep (h.touch rfl) ?_ hst rfl)
    rw [State.setProc_proc]
    split_ifs <;> exact hst
  | exit =>
    have hst : (s.proc p).state = .running := hruns
    refine hkeep (h.touch (Proc.point_wake_proc _ _)) ?_ hst rfl
    rw [State.setProc_proc]
    split_ifs
    · simp [Proc.wake, hst]
    · exact hst
  | @noTrapframe np child next hlock =>
    have hst : (s.proc p).state = .running := hruns
    have hu : (s.proc np).state = .unused := hat
    have h1 : Sim { s with nextpid := (s.nextpid + 1).bmod (2 ^ 32) } a := h.quiet rfl rfl rfl fun _ => rfl
    refine hthen .refl (h1.touch (by simp [Proc.point, hu])) ?_ (.ret (hat' hst) ⟨_, rfl⟩)
    rw [State.setProc_proc]
    split_ifs <;> exact hst
  | @noMemory np child next hlock =>
    have hst : (s.proc p).state = .running := hruns
    have hu : (s.proc np).state = .unused := hat
    have hne : p ≠ np := fun he => by simp [← he, hst] at hu
    have h1 : Sim { s with nextpid := (s.nextpid + 1).bmod (2 ^ 32) } a := h.quiet rfl rfl rfl fun _ => rfl
    refine hnote (hthen .refl (h1.touch (by simp [Proc.point, hu, Proc.freeproc])) ?_ (.ret (hat' hst) ⟨_, rfl⟩))
    rw [State.setProc_proc, if_neg hne]
    exact hst
  | @allocFound np child next =>
    have hst : (s.proc p).state = .running := hruns
    have hu : (s.proc np).state = .unused := hat
    have hne : p ≠ np := fun he => by simp [← he, hst] at hu
    have h1 : Sim { s with nextpid := (s.nextpid + 1).bmod (2 ^ 32) } a := h.quiet rfl rfl rfl fun _ => rfl
    refine hkeep (h1.touch (by simp [Proc.point, hu])) ?_ hst rfl
    rw [State.setProc_proc, if_neg hne]
    exact hst
  | @forkRun np next hlock =>
    have hst : (s.proc p).state = .running := hruns
    obtain ⟨hu, child, hpc⟩ := hat
    have hne : p ≠ np := fun he => by simp [← he, hst] at hu
    have hinit : np ≠ initproc := by
      rintro rfl
      obtain ⟨life, hlife, -⟩ := hkin.init
      have := hkin.agrees initproc
      rw [hlife] at this
      exact this.1 hu
    have hforks : K.Forks child := by
      have := hso.spawns np
      rw [hpc] at this
      exact this.resolve_right hinit
    have hnone : a.task (.inl np) = none := by simp [h.proc, Proc.point, hu]
    have h1 : Sim (s.setProc np fun r => { r with state := .runnable, lock := none })
        (a.set (.inl np) (some (.code child))) := by
      have hnp : ((s.setProc np fun r => { r with state := .runnable, lock := none }).proc np).point =
          some (.code child) := by simp [Proc.point, hpc, Pc.point]
      rw [← hnp]
      exact h.move rfl rfl rfl fun q hq => by simp [hq]
    have hp1 : (a.set (.inl np) (some (.code child))).task (.inl p) = (Pc.forkRun np next).point .running none := by
      rw [Client.set_task, if_neg (by simpa using hne)]
      exact hat' hst
    refine hnote (hthen (.single (.spawn hnone hforks)) h1 ?_ (.ret hp1 ⟨_, rfl⟩))
    rw [State.setProc_proc, if_neg hne]
    exact hst
  | @exitZombie status parent hlock =>
    have hst : (s.proc p).state = .running := hruns
    have hnone : a.task (.inl p) = none := hat' hst
    have h1 : Sim (s.setProc parent fun q => { q.wake (.proc parent) with lock := none }) a :=
      h.touch (Proc.point_wake_proc (s.proc parent) parent)
    refine hnote ⟨a, .refl, h1.touch ?_⟩
    rw [← h1.proc, hnone]
    simp [Proc.point]
  | waitReturn | waitFault =>
    have hst : (s.proc p).state = .running := hruns
    exact hgo .refl h hst rfl (.ret (hat' hst) ⟨_, rfl⟩)
  | @waitReap addr np next hlock hz =>
    have hst : (s.proc p).state = .running := hruns
    have hne : p ≠ np := fun he => by simp [← he, hst] at hz
    have h1 : Sim (s.setProc np Proc.freeproc) a := h.touch (by simp [Proc.point, hz, Proc.freeproc])
    refine hnote (hgo .refl h1 ?_ rfl (.ret (hat' hst) ⟨_, rfl⟩))
    rw [State.setProc_proc, if_neg hne]
    exact hst

omit [DecidableEq κ] [DecidableEq Λ] in
theorem moveHandler (h : Sim s a) (k' : Option (Pc ι κ Λ)) (hin : k' ≠ none → (s.cpu c).handler = none →
      ∀ p lk, (s.cpu c).loc = .run p → a.lock lk ≠ some (.inl p)) :
    Sim (s.setHandler c k') (a.set (.inr c) (k'.bind (Pc.point .running none))) := by
  refine ⟨⟨h.free, fun lk c' hl => ?_, fun c' p lk hc hl => ?_⟩, h.data, fun q => ?_, fun c' => ?_⟩
  · obtain ⟨t, ht, hhost⟩ := h.held lk c' hl
    refine ⟨t, ht, ?_⟩
    cases t with
    | inl p => exact (State.setHandler_loc ..).trans hhost
    | inr c'' => exact hhost
  · rw [State.setHandler_loc] at hl
    by_cases hc' : (s.cpu c').handler = none
    · by_cases hcc : c' = c
      · subst hcc
        exact hin (by simpa using hc) hc' p lk hl
      · simp [hcc, hc'] at hc
    · exact h.inside c' p lk hc' hl
  · rw [Client.set_task, if_neg (by simp)]
    exact h.proc q
  · rw [Client.set_task, State.setHandler_cpu]
    split_ifs with h1 h2 h2
    · rfl
    · exact absurd (Sum.inr.inj h1) h2
    · exact absurd (congrArg Sum.inr h2) h1
    · exact h.handler c'

theorem handlerStep (h : Sim s a) (hi : Inv s) (hso : Sound K s) (hh : (s.cpu c).handler = some k) (hs : HandlerTrans K.code s c n k s')
    (hallow : ∀ l, k = .code l → allow l s.data false n) :
    ∃ a', Relation.ReflTransGen (ClientStep K allow) a a' ∧ Sim s' a' := by
  have hat : a.task (.inr c) = k.point .running none := by
    rw [h.handler, hh]
    rfl
  have hmove := fun k' => h.moveHandler (c := c) k' fun _ hn => by simp [hh] at hn
  cases hs with
  | @acquire l lk next hc hlk =>
    refine ⟨_, .single (.acquire hat hc (h.free lk hlk)), ?_⟩
    have hm := hmove (some (.code next))
    exact ⟨hm.toLockSim.take (fun _ => rfl) (fun _ => id) rfl rfl rfl (fun p hp => by simp at hp), hm.data, hm.proc,
      hm.handler⟩
  | @release l lk next hc hlk =>
    refine ⟨_, .single (.release hat hc (h.owner_handler hh hlk)), ?_⟩
    have hm := hmove (some (.code next))
    exact ⟨hm.toLockSim.give (fun _ => rfl) (fun _ => id) rfl rfl, hm.data, hm.proc, hm.handler⟩
  | @run l f hc =>
    have hd := h.data
    refine ⟨_, .single (.run (b := false) (n := n) hat hc (hd ▸ hallow l rfl)), ?_⟩
    have hm := hmove (some (.code (f s.data false n).2))
    rw [hd]
    exact ⟨hm.toLockSim.congr (fun _ => rfl) (fun _ => id) rfl rfl, rfl, hm.proc, hm.handler⟩
  | @call l chan next hc => exact ⟨_, .single (.enter hat (by rw [hc]; rfl)), hmove (some (.wakeup chan 0 next))⟩
  | @iret l hc => exact ⟨_, .single (.iret hat hc), hmove none⟩
  | @wakeup chan next q hlock =>
    obtain ⟨a1, hrun, hsim, hsame, hno⟩ := h.wakeup allow hi hso hlock chan
    have hc1 : a1.task (.inr c) = some (.wakeup chan q next) := by
      rw [hsame _ (by simp [hat, Pc.point]), hat]
      rfl
    exact ⟨_, hrun.tail (.scan hc1 hno), hsim.moveHandler (some (.wakeup chan (q + 1) next)) fun _ hn => by
      simp [hh] at hn⟩
  | @wakeupDone chan i next hn => exact ⟨_, .single (.scanned hat hn), hmove (some (.code next))⟩

omit [DecidableEq κ] [DecidableEq Λ] in
theorem switch (h : Sim s a) (hh : (s.cpu c).handler = none) (hno : ∀ lk, s.lock lk ≠ some c) (proc : Option Slot)
    (loc : Loc) : Sim (s.setLoc c proc loc) a := by
  refine ⟨h.toLockSim.switch (c := c) rfl (fun c' hc' => by simp [hc']) hno fun p lk hc => by simp [hh] at hc, h.data,
    h.proc, fun c' => ?_⟩
  rw [h.handler, State.setLoc_cpu]
  split_ifs <;> rfl

omit [DecidableEq κ] [DecidableEq C] [DecidableEq Λ] in
theorem no_lock (h : Sim s a) (ho : a.Owns K L) (hh : (s.cpu c).handler = none)
    (hl : ∀ p, (s.cpu c).loc ≠ .run p) (lk : Λ) : s.lock lk ≠ some c := by
  intro hlk
  obtain ⟨t, ht, hhost⟩ := h.held lk c hlk
  cases t with
  | inl p => exact hl p hhost
  | inr c' =>
    obtain rfl : c' = c := hhost
    have := (ho.lock lk _).mp ht
    simp [h.handler, hh, Point.locks] at this

end Sim

/-- A stretch of code is permitted. -/
def Pc.Heeds (allow : ι → D → Bool → ℕ → Prop) (d : D) (killed : Bool) (n : ℕ) : Pc ι κ Λ → Prop
  | .code l => allow l d killed n
  | _ => True

instance (allow : ι → D → Bool → ℕ → Prop) [∀ l d b n, Decidable (allow l d b n)] (d : D) (b : Bool) (n : ℕ)
    (k : Pc ι κ Λ) : Decidable (k.Heeds allow d b n) := by
  cases k <;> unfold Pc.Heeds <;> infer_instance

/-- A step of the machine goes through code that is permitted. -/
def Heeds (allow : ι → D → Bool → ℕ → Prop) (s : State ι D κ Λ C) (act : C × Act ι) : Prop :=
  match act.2, (s.cpu act.1).handler, (s.cpu act.1).loc with
  | .go n, none, .run p => (s.proc p).pc.Heeds allow s.data (s.proc p).killed n
  | .go n, some k, _ => k.Heeds allow s.data false n
  | _, _, _ => True

def decHeeds (P : Slot → ℕ → Prop) (Q : Pc ι κ Λ → ℕ → Prop) [∀ p n, Decidable (P p n)] [∀ k n, Decidable (Q k n)]
    (a : Act ι) (o : Option (Pc ι κ Λ)) (l : Loc) :
    Decidable (match a, o, l with | .go n, none, .run p => P p n | .go n, some k, _ => Q k n | _, _, _ => True) := by
  cases a <;> cases o <;> cases l <;> infer_instance

instance (allow : ι → D → Bool → ℕ → Prop) [∀ l d b n, Decidable (allow l d b n)] (s : State ι D κ Λ C)
    (act : C × Act ι) : Decidable (Heeds allow s act) := by
  unfold Heeds
  exact decHeeds _ _ _ _ _

theorem Heeds.thread {allow : ι → D → Bool → ℕ → Prop} {n : ℕ} (h : Heeds allow s (c, .go n))
    (hh : (s.cpu c).handler = none) (hl : (s.cpu c).loc = .run p) :
    (s.proc p).pc.Heeds allow s.data (s.proc p).killed n := by
  simpa only [Sched.Heeds, hh, hl] using h

theorem Heeds.handler {allow : ι → D → Bool → ℕ → Prop} {n : ℕ} (h : Heeds allow s (c, .go n))
    (hh : (s.cpu c).handler = some k) : k.Heeds allow s.data false n := by
  simpa only [Sched.Heeds, hh] using h

namespace Sim
variable [DecidableEq C] [DecidableEq Λ] [DecidableEq κ] {allow : ι → D → Bool → ℕ → Prop} {tr : Tree} {act : Act ι}

theorem trans (h : Sim s a) (hi : Inv s) (hso : Sound K s) (hkin : Kin s tr) (ho : a.Owns K L)
    (hheed : Heeds allow s (c, act)) (hs : Trans K s c act s') :
    ∃ a', Relation.ReflTransGen (ClientStep K allow) a a' ∧ Sim s' a' := by
  cases hs with
  | thread hh hl hs => exact h.thread hi hso hkin ho hh hl hs fun l hpc => by simpa only [hpc, Pc.Heeds] using hheed.thread hh hl
  | handler hh hs =>
    exact h.handlerStep hi hso hh hs fun l hk => by simpa only [hk, Pc.Heeds] using hheed.handler hh
  | @swtch n p k hh hl hpc _ ho =>
    have h1 : Sim (s.setPc p k) a := h.touch (by simp [Proc.point, hpc, Pc.point])
    exact ⟨a, .refl, h1.switch hh ho.2 _ _⟩
  | @skip n i hh hl => exact ⟨a, .refl, h.switch hh (h.no_lock ho hh fun p => by simp [hl]) _ _⟩
  | @pick n i hh hl _ hst =>
    have h1 : Sim (s.setProc i fun q => { q with state := .running, lock := some c }) a := by
      refine h.touch ?_
      simp only [Proc.point, hst, reduceCtorEq, or_self, if_false]
      exact Pc.point_congr (by simp) (by simp) _ _ _
    exact ⟨a, .refl, h1.switch hh (h1.no_lock ho hh fun p => by simp [hl]) _ _⟩
  | @back n i hh hl =>
    have h1 : Sim (s.setProc i fun q => { q with lock := none }) a := h.touch rfl
    exact ⟨a, .refl, h1.switch hh (h1.no_lock ho hh fun p => by simp [hl]) _ _⟩
  | timer => exact ⟨a, .refl, h.touch rfl⟩
  | @device l hh hno hl =>
    have hnone : a.task (.inr c) = none := by simp [h.handler, hh]
    refine ⟨_, .single (.handler hnone hl), h.moveHandler (some (.code l)) fun _ _ p lk hloc ha => ?_⟩
    -- the thread that is interrupted has no lock, because its CPU has none
    cases hlk : s.lock lk with
    | none => simp [h.free lk hlk] at ha
    | some c' =>
      obtain ⟨t, ht, hhost⟩ := h.held lk c' hlk
      obtain rfl : t = .inl p := Option.some.inj (ht.symm.trans ha)
      obtain rfl := hi.uniq c' c p (State.on_run hhost) (State.on_run hloc)
      exact hno.2 lk hlk
  | @dma n =>
    refine ⟨_, .single (.dma (n := n)), ⟨h.free, h.held, h.inside⟩, ?_, h.proc, h.handler⟩
    simp [h.data]

omit [DecidableEq Λ] [DecidableEq κ] in
theorem boot (data : D) (start : ι) : Sim (boot data start : State ι D κ Λ C) (Client.boot data start) := by
  refine ⟨⟨fun lk _ => rfl, fun lk c hl => ?_, fun c p lk hc => ?_⟩, rfl, fun p => ?_, fun c => rfl⟩
  · simp [Sched.boot] at hl
  · simp [Sched.boot] at hc
  · by_cases hp : p = initproc <;> simp [Client.boot, Sched.boot, Proc.point, hp, Pc.point]

end Sim

variable [DecidableEq C] [DecidableEq Λ] [Fintype Λ] [DecidableEq κ] {allow : ι → D → Bool → ℕ → Prop} {data : D}
  {start : ι}

theorem refines (hK : K.Balanced L) (hstart : L start = []) (h : Run (step K) (Heeds allow) (boot data start) s) :
    Inv s ∧ Sound K s ∧ ∃ a : Client ι D κ Λ C, a.Reaches K allow data start ∧ Sim s a := by
  have := run_induct h (J := fun s => Sound K s ∧ (∃ tr, Kin s tr) ∧
    ∃ a : Client ι D κ Λ C, a.Reaches K allow data start ∧ Sim s a)
    ⟨.boot K data start, ⟨_, kin_boot data start⟩, _, .refl, .boot data start⟩ ?_
  · exact ⟨this.1, this.2.1, this.2.2.2⟩
  rintro s c act s' hi ⟨hso, ⟨tr, hkin⟩, a, hreach, hsim⟩ hheed hs
  obtain ⟨a', hrun, hsim'⟩ := hsim.trans hi hso hkin (.of_reaches hK hstart hreach) hheed hs
  refine ⟨hso.trans hi hs, ?_, a', hreach.trans hrun, hsim'⟩
  rcases hkin.trans hi hs with ⟨-, hkin'⟩ | ⟨_, t', -, -, hkin'⟩
  · exact ⟨tr, hkin'⟩
  · exact ⟨t', hkin'⟩

end Xv6.Sched
