import Xv6.Kernel.Sched.Kinship
import Mathlib.Tactic

/-! Every step of the machine is a step of the tree, or of no interest to it. -/
namespace Xv6.Sched
open Lib

variable {ι D κ Λ C : Type} {s s' : State ι D κ Λ C} {c : C} {n : ℕ} {a : Act ι} {p q : Slot} {k : Pc ι κ Λ} {t t' : Tree}

namespace Kin

theorem par_eq_none (h : Kin s t) (hi : Inv s) (hl : (s.cpu c).loc = .run p) {np : Slot} {child : ι}
    {next : Option ℤ → ι} (hk : (s.proc p).pc = .allocFound np child next) (ht : t np = none) :
    s.par np = none := by
  rcases h.unborn np ht with he | ⟨c', q, next', hl', hq, -⟩
  · exact he
  · have hc : (s.proc np).lock = some c := (hi.mem_held hl).mpr (by simp [hk, Pc.held])
    have hc' : (s.proc np).lock = some c' := (hi.mem_held hl').mpr (by simp [hq, Pc.held])
    obtain rfl := Option.some.inj (hc.symm.trans hc')
    obtain rfl : p = q := by simpa [hl] using hl'
    simp [hk] at hq

theorem exists_life_of_par (h : Kin s t) (hpar : s.par q = some p)
    (hnf : ∀ next, (s.proc p).pc ≠ .forkRun q next) : q ≠ initproc ∧ ∃ life, t q = some life ∧ life.parent = p := by
  cases ht : t q with
  | none =>
    rcases h.unborn q ht with he | ⟨c, r, next, -, hr, hp⟩
    · simp [he] at hpar
    · obtain rfl := Option.some.inj (hp.symm.trans hpar)
      exact absurd hr (hnf next)
  | some life =>
    have hag := h.agrees q
    rw [ht] at hag
    have hp : s.par q = _ := hag.2.1
    rw [hpar] at hp
    split_ifs at hp with hq
    exact ⟨hq, life, rfl, (Option.some.inj hp).symm⟩

theorem par_eq (h : Kin s t) {life : Life} (ht : t q = some life) (hq : q ≠ initproc) :
    s.par q = some life.parent := by
  have hag := h.agrees q
  rw [ht] at hag
  exact hag.2.1.trans (if_neg hq)

theorem fork_frame {x : Slot} (hi : Inv s) (hcpu : s'.cpu = s.cpu)
    (hx : ∀ np next, (s.proc p).pc = .forkRun np next → np = x)
    (hpc : ∀ q ≠ p, (s.proc q).state ≠ .unused → (s'.proc q).pc = (s.proc q).pc) (c : C) (q np : Slot)
    (next : Option ℤ → ι) (hne : np ≠ x) (hl : (s.cpu c).loc = .run q) (hq : (s.proc q).pc = .forkRun np next) :
    (s'.cpu c).loc = .run q ∧ (s'.proc q).pc = .forkRun np next := by
  have hqp : q ≠ p := by
    rintro rfl
    exact hne (hx np next hq)
  rw [hcpu, hpc q hqp (hi.run c q hl).1.ne_unused]
  exact ⟨hl, hq⟩

theorem exists_parent (h : Kin s t) {life life' : Life} (ht : t p = some life) (hp : p ≠ initproc)
    (hpar : life'.parent = life.parent) (hz : life'.zombie = false ∨ life.parent ≠ p) :
    ∃ l, t.set p (some life') life'.parent = some l ∧ l.zombie = false := by
  obtain ⟨l, hl, hlz⟩ := h.parent p life hp ht
  rw [hpar]
  by_cases he : life.parent = p
  · exact ⟨life', by rw [he, Tree.set_self], hz.resolve_right fun hne => hne he⟩
  · exact ⟨l, by rw [t.set_of_ne he, hl], hlz⟩

theorem exiting (h : Kin s t) (hi : Inv s) {l : ι} (hk : (s.proc p).pc = .code l) (hp : p ≠ initproc)
    {life : Life} (hlife : t p = some life) (status : ℤ) :
    t.step (.exiting p status) = some (t.set p (some { life with status := some status })) ∧
      Kin ((s.setPc p (.exit status)).note (.exiting p status))
        (t.set p (some { life with status := some status })) := by
  obtain ⟨hnone, hz⟩ : life.status = none ∧ life.zombie = false := by
    simpa [hk, Pc.under, Pc.Ok] using h.ok p life hlife
  refine ⟨by simp [Tree.step, hlife, hp, hnone], ?_⟩
  have hag := h.agrees p
  rw [hlife] at hag
  refine h.change p p _ (fun q hq => ?_) (fun q hq _ => ?_) ?_ (.inl ⟨_, rfl, hz⟩) (fun l _ hl => ?_) (by simp)
    (fork_frame (p := p) hi rfl (by simp [hk]) fun q hq _ => ?_) (fun q _ _ hq => ?_) (fun q _ hq => ?_)
    (fun l hl => ?_) fun hne => absurd rfl hne
  · exact s.sameKin_setPc p _ q
  · simp [hq]
  · rw [State.note_proc, State.setPc_proc, if_pos rfl]
    exact ⟨hag.1, hag.2.1, hag.2.2.1, hag.2.2.2.1, fun hzz => absurd hzz (by simp [hz])⟩
  · obtain rfl := Option.some.inj hl
    exact h.exists_parent hlife hp rfl (.inl hz)
  · simp [hq]
  · simpa [State.par] using hq
  · simpa [State.par] using hq
  · obtain rfl := Option.some.inj hl
    simpa [Pc.under, Pc.Ok] using ⟨hp, rfl, hz⟩

theorem found (h : Kin s t) (hi : Inv s) (hl : (s.cpu c).loc = .run p) {np : Slot} {child : ι}
    {next : Option ℤ → ι} (hk : (s.proc p).pc = .allocFound np child next) (hcpu : s'.cpu = s.cpu)
    {f : Proc ι κ Λ C → Proc ι κ Λ C} {k : Pc ι κ Λ} (hproc : s'.proc = ((s.setProc np f).setPc p k).proc)
    (hst : (f (s.proc np)).state = .unused)
    (hpar : (f (s.proc np)).parent = none ∨
      (f (s.proc np)).parent = some p ∧ k = .forkRun np next)
    (hok : ∀ life : Life, life.status = none ∧ life.zombie = false → k.under.Ok s'.par p life) :
    Kin s' t := by
  have hu : (s.proc np).state = .unused := by simpa [hk, State.At] using (hi.run c p hl).2
  have hnone := h.eq_none hu
  have hnp : np ≠ p := by
    rintro rfl
    exact (hi.run c np hl).1.ne_unused hu
  have hnpar : (s.proc np).parent = none := h.par_eq_none hi hl hk hnone
  have hinit : np ≠ initproc := by
    rintro rfl
    obtain ⟨l, hinit, -⟩ := h.init
    simp [hinit] at hnone
  have hs' : s'.par np = (f (s.proc np)).parent := by simp [State.par, hproc, hnp]
  rw [← set_none hnone]
  refine h.change np p none (fun q hq => ?_) (fun q hq hq' => ?_) ?_ (.inr ⟨hinit, fun q l hq _ hl he => ?_⟩)
    (by simp) (fun _ => ?_) (fork_frame (p := p) hi hcpu (by simp [hk]) fun q hq hq' => ?_) (fun q hq _ he => ?_)
    (fun q _ he => ?_) (by simp) (fun _ l hl => ?_)
  · rw [hproc, State.setPc_proc, State.setProc_proc, if_neg hq]
    split_ifs
    · exact ⟨rfl, rfl, rfl, Iff.rfl, Iff.rfl⟩
    · exact .refl _
  · simp [hproc, hq, hq']
  · simpa [Life.Agrees, hproc, hnp] using hst
  · obtain ⟨l', hl', -⟩ := h.parent q l hq hl
    simp [he, hnone] at hl'
  · rw [hs']
    refine hpar.imp_right fun hk' => ⟨c, p, next, by rw [hcpu, hl], ?_, hk'.1⟩
    simp [hproc, hk'.2]
  · have hqn : q ≠ np := by
      rintro rfl
      exact hq' hu
    simp [hproc, hq, hqn]
  · rw [hs'] at he
    rcases hpar with hpar | ⟨hpar, -⟩ <;> rw [hpar] at he
    · cases he
    · exact absurd (Option.some.inj he).symm hq
  · simp [State.par, hnpar] at he
  · have hpc : (s'.proc p).pc = k := by simp [hproc]
    rw [hpc]
    refine hok l ?_
    simpa [hk, Pc.under, Pc.Ok] using hl

theorem forked (h : Kin s t) (hi : Inv s) (hl : (s.cpu c).loc = .run p) {np : Slot} {next : Option ℤ → ι}
    (hk : (s.proc p).pc = .forkRun np next) {l : ι} (hcpu : s'.cpu = s.cpu)
    (hproc : s'.proc = ((s.setProc np fun r => { r with state := .runnable, lock := none }).setPc p (.code l)).proc) :
    ∃ t', t.step (.forked p np (s.proc np).pid) = some t' ∧ Kin s' t' := by
  obtain ⟨hu, child, hchild⟩ : (s.proc np).state = .unused ∧ ∃ l, (s.proc np).pc = .forkret l := by
    simpa [hk, State.At] using (hi.run c p hl).2
  obtain ⟨life, hlife⟩ := h.exists_life (hi.run c p hl).1.ne_unused
  obtain ⟨⟨hstatus, hz⟩, hpar⟩ : (life.status = none ∧ life.zombie = false) ∧ s.par np = some p := by
    simpa [hk, Pc.under, Pc.Ok] using h.ok p life hlife
  have hnone := h.eq_none hu
  have hnp : np ≠ p := by
    rintro rfl
    exact (hi.run c np hl).1.ne_unused hu
  have hinit : np ≠ initproc := by
    rintro rfl
    obtain ⟨l, hinit, -⟩ := h.init
    simp [hinit] at hnone
  have hpar' : s'.par = s.par := by
    funext q
    simp only [State.par, hproc, State.setPc_proc, State.setProc_proc]
    split_ifs <;> rfl
  refine ⟨t.set np (some { forker := p, orphan := false, pid := (s.proc np).pid, status := none, zombie := false }),
    by simp [Tree.step, hnone, hlife, hstatus], ?_⟩
  refine h.change np p _ (fun q hq => ?_) (fun q hq hq' => by simp [hproc, hq, hq']) ?_ (.inl ⟨_, rfl, rfl⟩)
    (fun l' _ hl' => ?_) (by simp) (fork_frame (p := p) hi hcpu (by simp [hk]) fun q hq hq' => ?_)
    (fun q _ _ he => hpar' ▸ he) (fun q _ he => hpar'.symm ▸ he) (fun l' hl' => ?_) (fun _ l' hl' => ?_)
  · rw [hproc, State.setPc_proc, State.setProc_proc, if_neg hq]
    split_ifs
    · exact ⟨rfl, rfl, rfl, Iff.rfl, Iff.rfl⟩
    · exact .refl _
  · rw [hproc, State.setPc_proc, if_neg hnp, State.setProc_proc, if_pos rfl]
    exact ⟨by simp, by simpa [hinit, Life.parent, State.par] using hpar, rfl, by simp, by simp⟩
  · obtain rfl := Option.some.inj hl'
    exact ⟨life, by simp [Life.parent, t.set_of_ne hnp.symm, hlife], hz⟩
  · have hqn : q ≠ np := by
      rintro rfl
      exact hq' hu
    simp [hproc, hq, hqn]
  · obtain rfl := Option.some.inj hl'
    simp [hproc, hnp, hchild, Pc.under, Pc.Ok]
  · have hok : (l'.status = none ∧ l'.zombie = false) ∧ s.par np = some p := by
      simpa [hk, Pc.under, Pc.Ok] using hl'
    simpa [hproc, Pc.under, Pc.Ok] using hok.1

/-- `reparent` gives a child to init. -/
theorem abandoned (h : Kin s t) (hi : Inv s) (hl : (s.cpu c).loc = .run p) {status : ℤ} {parent pp : Slot}
    (hk : (s.proc p).pc = .reparentChild status parent pp) (hlock : (s.proc pp).lock = none)
    (hcpu : s'.cpu = s.cpu) (hproc : s'.proc = ((s.setProc pp fun q => { q with parent := some initproc }).setPc p
      (.reparent status parent (pp + 1))).proc) :
    ∃ t', t.step (.abandoned p pp) = some t' ∧ Kin s' t' := by
  obtain ⟨life, hlife⟩ := h.exists_life (hi.run c p hl).1.ne_unused
  obtain ⟨⟨hp, hstatus, hz⟩, hseen, hscan, hpar⟩ : (Pc.reparentChild status parent pp : Pc ι κ Λ).Ok s.par p life := by
    simpa [hk, Pc.under] using h.ok p life hlife
  obtain ⟨hpp, below, hbelow, hparent⟩ := h.exists_life_of_par hpar (by simp [hk])
  have hppp : pp ≠ p := by
    rintro rfl
    have hown : (s.proc pp).lock = some c := (hi.mem_held hl).mpr (by simp [hk, Pc.held])
    simp [hown] at hlock
  have hpar' : ∀ q, s'.par q = if q = pp then some initproc else s.par q := by
    intro q
    simp only [State.par, hproc, State.setPc_proc, State.setProc_proc]
    split_ifs <;> rfl
  have hag : Life.Agrees pp (s'.proc pp) (some { below with orphan := true }) := by
    have hag := h.agrees pp
    rw [hbelow] at hag
    rw [hproc, State.setPc_proc, State.setProc_proc, if_pos rfl]
    split_ifs
    · exact ⟨hag.1, by simp [hpp, Life.parent], hag.2.2⟩
    · exact ⟨hag.1, by simp [hpp, Life.parent], hag.2.2⟩
  -- what `p` itself knows when it goes on
  have hokp : ∀ l : Life, (Pc.reparentChild status parent pp : Pc ι κ Λ).Ok s.par p l →
      (s'.proc p).pc.under.Ok s'.par p l := by
    intro l hl
    have hpc : (s'.proc p).pc.under = .reparent status parent (pp + 1) := by simp [hproc, Pc.under]
    rw [hpc]
    refine ⟨hl.1, ?_, fun r hr => ?_⟩
    · unfold Seen
      rw [hpar']
      split_ifs
      · exact .inr rfl
      · exact hl.2.1
    · rw [hpar']
      split_ifs with hrp
      · simpa using hp.symm
      · exact hscan r (lt_of_le_of_ne (Nat.lt_succ_iff.mp hr) hrp)
  have hbz : below.zombie = false ∨ pp ≠ initproc ∧
      ∀ q l, q ≠ initproc → q ≠ pp → t q = some l → l.parent ≠ pp := by
    by_cases hbz : below.zombie = false
    · exact .inl hbz
    · refine .inr ⟨hpp, fun q l hq _ hl he => ?_⟩
      obtain ⟨l', hl', hz'⟩ := h.parent q l hq hl
      rw [he, hbelow] at hl'
      exact hbz (Option.some.inj hl' ▸ hz')
  refine ⟨t.set pp (some { below with orphan := true }),
    by simp [Tree.step, hlife, hbelow, hstatus, hz, hpp, hparent], ?_⟩
  refine h.change pp p _ (fun q hq => ?_) (fun q hq hq' => by simp [hproc, hq, hq']) hag
    (hbz.imp_left fun hbz => ⟨_, rfl, hbz⟩) (fun l' _ hl' => ?_) (by simp)
    (fork_frame (p := p) hi hcpu (by simp [hk]) fun q hq _ => ?_) (fun q _ hqi he => ?_) (fun q hq he => ?_)
    (fun l' hl' => ?_) (fun _ l' hl' => hokp l' (by simpa [hk, Pc.under] using hl'))
  · rw [hproc, State.setPc_proc, State.setProc_proc, if_neg hq]
    split_ifs
    · exact ⟨rfl, rfl, rfl, Iff.rfl, Iff.rfl⟩
    · exact .refl _
  · obtain rfl := Option.some.inj hl'
    obtain ⟨l, hinit, hiz⟩ := h.init
    refine ⟨l, ?_, hiz⟩
    simp only [Life.parent, if_true]
    rw [t.set_of_ne hpp.symm, hinit]
  · rw [hproc, State.setPc_proc, if_neg hq, State.setProc_proc]
    split_ifs <;> rfl
  · rw [hpar', if_pos rfl] at he
    exact absurd (Option.some.inj he).symm hqi
  · rw [hpar] at he
    exact absurd (Option.some.inj he).symm hq
  · obtain rfl := Option.some.inj hl'
    have hpc : (s'.proc pp).pc = (s.proc pp).pc := by simp [hproc, hppp]
    rw [hpc]
    have hok : (s.proc pp).pc.under.Ok s.par pp { below with orphan := true } :=
      (h.ok pp below hbelow).congr_life rfl rfl
    refine hok.frame
      (.inr (by rw [hpar', if_pos rfl])) (fun hqi r hr => ?_) fun r hr => ?_
    · rw [hpar'] at hr
      split_ifs at hr with hrp
      · exact absurd (Option.some.inj hr).symm hqi
      · exact hr
    · have hrp : r ≠ pp := by
        rintro rfl
        exact hppp (Option.some.inj (hr.symm.trans hpar))
      rwa [hpar', if_neg hrp]

theorem exited (h : Kin s t) (hi : Inv s) (hl : (s.cpu c).loc = .run p) {status : ℤ} {parent : Slot}
    (hk : (s.proc p).pc = .exitZombie status parent) (hcpu : s'.cpu = s.cpu)
    (hother : ∀ q ≠ p, (s.proc q).SameKin (s'.proc q) ∧ (s'.proc q).pc = (s.proc q).pc)
    (hst : (s'.proc p).state = .zombie) (hx : (s'.proc p).xstate = status)
    (hpar : (s'.proc p).parent = (s.proc p).parent) (hpid : (s'.proc p).pid = (s.proc p).pid)
    (hpc : (s'.proc p).pc = .sched .zombieExit) :
    ∃ t', t.step (.exited p) = some t' ∧ Kin s' t' := by
  obtain ⟨life, hlife⟩ := h.exists_life (hi.run c p hl).1.ne_unused
  obtain ⟨⟨hp, hstatus, hz⟩, -, hno⟩ : (Pc.exitZombie status parent : Pc ι κ Λ).Ok s.par p life := by
    simpa [hk, Pc.under] using h.ok p life hlife
  have hchild : ∀ q l, q ≠ initproc → t q = some l → l.parent ≠ p := by
    intro q l hq hl he
    exact hno q (by rw [h.par_eq hl hq, he])
  have hag := h.agrees p
  rw [hlife] at hag
  have hpar' : s'.par = s.par := by
    funext q
    by_cases hq : q = p
    · subst hq
      exact hpar
    · exact (hother q hq).1.1
  refine ⟨t.set p (some { life with zombie := true }), ?_, ?_⟩
  · have hc : t.Childless p := fun q hq => by
      cases hl : t q with
      | none => rfl
      | some l => simpa using hchild q l hq hl
    simp [Tree.step, hlife, hstatus, hz, hc]
  · refine h.change p p _ (fun q hq => (hother q hq).1) (fun q hq _ => (hother q hq).2) ?_
      (.inr ⟨hp, fun q l hq _ => hchild q l hq⟩) (fun l _ hl => ?_) (by simp)
      (fork_frame (p := p) hi hcpu (by simp [hk]) fun q hq _ => (hother q hq).2)
      (fun q _ _ he => hpar' ▸ he) (fun q _ he => hpar'.symm ▸ he) (fun l hl => ?_) fun hne => absurd rfl hne
    · exact ⟨by simp [hst], hpar.trans hag.2.1, hpid.trans hag.2.2.1, by simp [hst], fun _ => by rw [hx, hstatus]⟩
    · obtain rfl := Option.some.inj hl
      exact h.exists_parent hlife hp rfl (.inr (hchild p life hp hlife))
    · obtain rfl := Option.some.inj hl
      rw [hpc]
      exact ⟨hp, rfl⟩

theorem reaped (h : Kin s t) (hi : Inv s) (hl : (s.cpu c).loc = .run p) {addr : ℕ} {np : Slot} {next : Option ℤ → ι}
    (hk : (s.proc p).pc = .waitChild addr np next) (hst : (s.proc np).state = .zombie) (hcpu : s'.cpu = s.cpu)
    (hnp : s'.proc np = (s.proc np).freeproc) {l : ι} (hpc : (s'.proc p).pc = .code l)
    (hother : ∀ q ≠ np, (s.proc q).SameKin (s'.proc q) ∧ (q ≠ p → (s'.proc q).pc = (s.proc q).pc)) :
    ∃ t', t.step (.reaped p np (s.proc np).pid (if addr = 0 then none else some (s.proc np).xstate)) = some t' ∧
      Kin s' t' := by
  obtain ⟨life, hlife⟩ := h.exists_life (hi.run c p hl).1.ne_unused
  obtain ⟨halive, hpar⟩ : (Pc.waitChild addr np next : Pc ι κ Λ).Ok s.par p life := by
    simpa [hk, Pc.under] using h.ok p life hlife
  obtain ⟨hinit, dead, hdead, hparent⟩ := h.exists_life_of_par hpar (by simp [hk])
  have hag := h.agrees np
  rw [hdead] at hag
  obtain ⟨-, -, hpid, hzombie, hstatus⟩ := hag
  have hz : dead.zombie = true := hzombie.mp hst
  have hnp' : s'.par np = none := by
    unfold State.par
    rw [hnp]
    rfl
  refine ⟨t.set np none, ?_, ?_⟩
  · have hs : (if addr = 0 then none else some (s.proc np).xstate) = none ∨
        (if addr = 0 then none else some (s.proc np).xstate) = dead.status := by
      split_ifs
      · exact .inl rfl
      · exact .inr (hstatus hz).symm
    simp only [Tree.step, hdead, Option.bind_eq_bind, Option.bind_some]
    exact if_pos ⟨hz, hinit, hparent, hpid.symm, hs⟩
  · refine h.change np p none (fun q hq => (hother q hq).1) (fun q hq hq' => (hother q hq').2 hq) ?_
      (.inr ⟨hinit, fun q l hq _ hl he => ?_⟩) (by simp) (fun _ => .inl hnp')
      (fork_frame (p := p) hi hcpu (by simp [hk]) fun q hq _ => ?_) (fun q _ _ he => ?_) (fun q hq he => ?_) (by simp)
      (fun _ l hl => ?_)
    · rw [hnp]
      rfl
    · obtain ⟨l', hl', hz'⟩ := h.parent q l hq hl
      rw [he, hdead] at hl'
      obtain rfl := Option.some.inj hl'
      simp [hz] at hz'
    · by_cases hqn : q = np
      · rw [hqn, hnp]
        rfl
      · exact (hother q hqn).2 hq
    · simp [hnp'] at he
    · rw [hpar] at he
      exact absurd (Option.some.inj he).symm hq
    · rw [hpc]
      have hok : (Pc.waitChild addr np next : Pc ι κ Λ).Ok s.par p l := by simpa [hk, Pc.under] using hl
      exact hok.1

variable [DecidableEq κ] [DecidableEq Λ] {code : ι → Instr ι D κ Λ}

/-- What each step of a thread does to the tree. -/
theorem thread (h : Kin s t) (hi : Inv s) (hl : (s.cpu c).loc = .run p)
    (hs : ThreadTrans code s c n p (s.proc p).pc s') :
    s'.log = s.log ∧ Kin s' t ∨ ∃ e t', s'.log = e :: s.log ∧ t.step e = some t' ∧ Kin s' t' := by
  obtain ⟨hruns, hat⟩ := hi.run c p hl
  obtain ⟨life, hlife⟩ := h.exists_life hruns.ne_unused
  have hok := h.ok p life hlife
  have hwf := hi.wf p
  have hnp : ∀ {np}, (s.proc np).state = .unused → np ≠ p := by
    rintro np hu rfl
    exact hruns.ne_unused hu
  have hquiet : ∀ {s' : State ι D κ Λ C}, (∀ q, (s.proc q).SameKin (s'.proc q)) → s'.log = s.log →
      s'.cpu = s.cpu → (∀ q ≠ p, (s'.proc q).pc = (s.proc q).pc) → (∀ np next, (s.proc p).pc ≠ .forkRun np next) →
      (∀ life, (s.proc p).pc.under.Ok s.par p life → (s'.proc p).pc.under.Ok s.par p life) →
      s'.log = s.log ∧ Kin s' t ∨ ∃ e t', s'.log = e :: s.log ∧ t.step e = some t' ∧ Kin s' t' :=
    fun hkin hlog hcpu hother hnf hok => .inl ⟨hlog, h.quiet_thread rfl hcpu hkin hother hnf hok⟩
  generalize hk : (s.proc p).pc = k at *
  have hpc : ∀ {k' : Pc ι κ Λ} {s' : State ι D κ Λ C}, s'.proc = (s.setPc p k').proc → s'.log = s.log →
      s'.cpu = s.cpu → (∀ np next, k ≠ .forkRun np next) →
      (∀ life, k.under.Ok s.par p life → k'.under.Ok s.par p life) →
      s'.log = s.log ∧ Kin s' t ∨ ∃ e t', s'.log = e :: s.log ∧ t.step e = some t' ∧ Kin s' t' := by
    intro k' s' hproc hlog hcpu hnf hok
    refine hquiet (fun q => ?_) hlog hcpu (fun q hq => ?_) hnf ?_
    · rw [hproc]
      exact s.sameKin_setPc p k' q
    · simp [hproc, hq]
    · simpa [hproc] using hok
  have hown : ∀ {f : Proc ι κ Λ C → Proc ι κ Λ C} {s' : State ι D κ Λ C}, s' = s.setProc p f →
      (s.proc p).SameKin (f (s.proc p)) → (∀ np next, k ≠ .forkRun np next) →
      (∀ life, k.under.Ok s.par p life → (f (s.proc p)).pc.under.Ok s.par p life) →
      s'.log = s.log ∧ Kin s' t ∨ ∃ e t', s'.log = e :: s.log ∧ t.step e = some t' ∧ Kin s' t' := by
    rintro f s' rfl hf hnf hok
    exact hquiet (State.sameKin_setProc hf) rfl rfl (fun q hq => by simp [hq]) hnf (by simpa using hok)
  have htouch : ∀ {f : Proc ι κ Λ C → Proc ι κ Λ C} {k'} {q} {s' : State ι D κ Λ C},
      s' = (s.setProc q f).setPc p k' → (∀ r : Proc ι κ Λ C, r.SameKin (f r) ∧ (f r).pc = r.pc) →
      (∀ np next, k ≠ .forkRun np next) → (∀ life, k.under.Ok s.par p life → k'.under.Ok s.par p life) →
      s'.log = s.log ∧ Kin s' t ∨ ∃ e t', s'.log = e :: s.log ∧ t.step e = some t' ∧ Kin s' t' := by
    rintro f k' q s' rfl hf hnf hok
    refine hquiet (fun r => ?_) rfl rfl (fun r hr => ?_) hnf (by simpa using hok)
    · exact (State.sameKin_setProc (hf _).1 r).trans (State.sameKin_setPc _ p k' r)
    · rw [State.setPc_proc, if_neg hr, State.setProc_proc]
      split_ifs
      · exact (hf _).2
      · rfl
  have hnoted : ∀ {s' : State ι D κ Λ C} {e}, s'.log = e :: s.log → (∃ t', t.step e = some t' ∧ Kin s' t') →
      ∃ e t', s'.log = e :: s.log ∧ t.step e = some t' ∧ Kin s' t' :=
    fun hlog ⟨t', hstep, hkin⟩ => ⟨_, t', hlog, hstep, hkin⟩
  have hwake : ∀ (chan : Chan κ) (r : Proc ι κ Λ C), r.SameKin (r.wake chan) ∧ (r.wake chan).pc = r.pc :=
    fun chan r => ⟨r.sameKin_wake chan, (r.soft_wake chan).1⟩
  cases hs with
  | acquire | release | run | sleepRelease | sleepAcquire | wakeupDone | killMiss | killDone | allocUsed
  | allocDone | waitMiss | waitDone =>
    exact hpc rfl rfl rfl (by simp) fun _ h => h
  | waitAlive => exact hpc rfl rfl rfl (by simp) fun _ h => h.1
  | waitHit hnp => exact hpc rfl rfl rfl (by simp) fun _ h => ⟨h, hnp⟩
  | exitParent => exact hpc rfl rfl rfl (by simp) fun _ h => ⟨h, .inl rfl⟩
  | reparentHit hpp => exact hpc rfl rfl rfl (by simp) fun _ h => ⟨h.1, h.2.1, h.2.2, hpp⟩
  | @reparentMiss _ _ pp hpp =>
    refine hpc rfl rfl rfl (by simp) fun _ h => ⟨h.1, h.2.1, fun r hr => ?_⟩
    rcases Nat.lt_succ_iff_lt_or_eq.mp hr with hr | hr
    · exact h.2.2 r hr
    · rwa [Fin.ext hr]
  | reparentDone hi =>
    exact hpc rfl rfl rfl (by simp) fun _ h => ⟨h.1, h.2.1, fun r => h.2.2 r (r.isLt.trans_le hi)⟩
  | @call l k' he =>
    have hk' : ∀ life : Life, (life.status = none ∧ life.zombie = false) → k'.under.Ok s.par p life := by
      cases hc : code l <;> rw [hc] at he <;> cases he <;> exact fun _ h => h
    exact hpc rfl rfl rfl (by simp) hk'
  | wakeup | exit => exact htouch rfl (hwake _) (by simp) fun _ h => h
  | killHit => exact htouch rfl (fun r => ⟨r.sameKin_kill, rfl⟩) (by simp) fun _ h => h
  | allocUnused | exitLock =>
    exact htouch rfl (fun r => ⟨⟨rfl, rfl, rfl, Iff.rfl, Iff.rfl⟩, rfl⟩) (by simp) fun _ h => h
  | sleep | sleepTidy | yieldRelease | forkret | wait | waitReturn | waitTidy =>
    exact hown rfl ⟨rfl, rfl, rfl, Iff.rfl, Iff.rfl⟩ (by simp) fun _ h => h
  | waitFault => exact hown rfl ⟨rfl, rfl, rfl, Iff.rfl, Iff.rfl⟩ (by simp) fun _ h => h.1
  | exitSelf =>
    exact hown rfl ⟨rfl, rfl, rfl, Iff.rfl, Iff.rfl⟩ (by simp) fun _ h => ⟨h.1, h.2, fun _ hr => absurd hr (by simp)⟩
  | sleepMark | waitSleep | yield =>
    have hst : (s.proc p).state = .running := hruns
    exact hown rfl ⟨rfl, rfl, rfl, by simp [hst], by simp [hst]⟩ (by simp) fun _ h => h
  | @exiting l status _ hp =>
    exact .inr ⟨_, _, rfl, h.exiting hi hk hp hlife status⟩
  | @noTrapframe np child next =>
    refine .inl ⟨rfl, h.found hi hl hk (f := fun r => { r with pid := s.nextpid, lock := none })
      (k := .code (next none)) rfl rfl hat (.inl ?_) fun _ h => h⟩
    exact h.par_eq_none hi hl hk (h.eq_none hat)
  | @noMemory np child next =>
    refine .inr ⟨_, t, rfl, by simp [Tree.step, h.eq_none hat], ?_⟩
    exact h.found hi hl hk (f := fun r => { r.freeproc with lock := none }) (k := .code (next none)) rfl rfl rfl
      (.inl rfl) fun _ h => h
  | @allocFound np child next =>
    have hne : np ≠ p := hnp hat
    refine .inl ⟨rfl, h.found hi hl hk
      (f := fun r => { r with pid := s.nextpid, parent := some p, pc := .forkret child })
      (k := .forkRun np next) rfl rfl hat (.inr ⟨rfl, rfl⟩) fun _ h => ⟨h, ?_⟩⟩
    simp [State.par, hne]
  | @forkRun np next =>
    exact .inr (hnoted rfl (h.forked hi hl hk rfl rfl))
  | @reparentChild status parent pp hlock =>
    exact .inr (hnoted rfl (h.abandoned hi hl hk hlock rfl rfl))
  | @exitZombie status parent hlock =>
    have hne : parent ≠ p := hwf
    have hother : ∀ q ≠ p, (s.proc q).SameKin (((s.setProc parent fun q =>
        { q.wake (.proc parent) with lock := none }).setProc p fun q =>
        { q with xstate := status, state := .zombie, pc := .sched .zombieExit }).proc q) ∧ (((s.setProc parent fun q =>
        { q.wake (.proc parent) with lock := none }).setProc p fun q =>
        { q with xstate := status, state := .zombie, pc := .sched .zombieExit }).proc q).pc = (s.proc q).pc := by
      intro q hq
      rw [State.setProc_proc, if_neg hq, State.setProc_proc]
      split_ifs
      · exact ⟨((s.proc q).sameKin_wake _).trans ⟨rfl, rfl, rfl, Iff.rfl, Iff.rfl⟩, ((s.proc q).soft_wake _).1⟩
      · exact ⟨.refl _, rfl⟩
    exact .inr (hnoted rfl (h.exited hi hl hk rfl hother (by simp) (by simp) (by simp [hne.symm]) (by simp [hne.symm])
      (by simp)))
  | @waitReap addr np next hnone hst hlock =>
    have hne : np ≠ p := by
      rintro rfl
      simp [show (s.proc np).state = .running from hruns] at hst
    have hother : ∀ q ≠ np, (s.proc q).SameKin (((s.setProc np Proc.freeproc).setProc p fun q =>
        { q with lock := none, pc := .code (next (some (s.proc np).pid)) }).proc q) ∧
        (q ≠ p → (((s.setProc np Proc.freeproc).setProc p fun q =>
          { q with lock := none, pc := .code (next (some (s.proc np).pid)) }).proc q).pc = (s.proc q).pc) := by
      intro q hq
      rw [State.setProc_proc, State.setProc_proc, if_neg hq]
      split_ifs with hqp
      · exact ⟨⟨rfl, rfl, rfl, Iff.rfl, Iff.rfl⟩, fun hne => absurd hqp hne⟩
      · exact ⟨.refl _, fun _ => rfl⟩
    exact .inr (hnoted rfl (h.reaped (l := next (some (s.proc np).pid)) hi hl hk hst rfl (by simp [hne]) (by simp) hother))

/-- Every step of the machine. -/
theorem trans [DecidableEq C] {K : Kernel ι D κ Λ} (h : Kin s t) (hi : Inv s) (hs : Trans K s c a s') :
    s'.log = s.log ∧ Kin s' t ∨ ∃ e t', s'.log = e :: s.log ∧ t.step e = some t' ∧ Kin s' t' := by
  cases hs with
  | thread _ hl hs => exact h.thread hi hl hs
  | handler _ hs =>
    cases hs with
    | @wakeup chan next q hlock =>
      refine .inl ⟨rfl, h.quiet (fun r => State.sameKin_setProc ((s.proc q).sameKin_wake _) r) (fun r life hr => ?_)
        fun c r np next hl hr => ⟨?_, ?_⟩⟩
      · rw [State.setHandler_proc, State.setProc_proc]
        split_ifs
        · rwa [((s.proc r).soft_wake _).1]
        · exact hr
      · rw [State.setHandler_loc, State.setProc_cpu]
        exact hl
      · rw [State.setHandler_proc, State.setProc_proc]
        split_ifs
        · rwa [((s.proc r).soft_wake _).1]
        · exact hr
    | _ =>
      refine .inl ⟨rfl, h.quiet (fun _ => .refl _) (fun _ _ hr => hr) fun c r np next hl hr => ⟨?_, hr⟩⟩
      rw [State.setHandler_loc]
      exact hl
  | @swtch _ p k _ hl hk hlock ho hst =>
    refine .inl ⟨rfl, h.quiet (s.sameKin_setPc p k) (fun r life hr => ?_) fun c' r np next hl' hr => ?_⟩
    · by_cases hrp : r = p
      · subst hrp
        simpa [hk, Pc.under] using hr
      · simpa [hrp] using hr
    · have hrp : r ≠ p := by
        rintro rfl
        simp [hk] at hr
      have hc : c' ≠ c := by
        rintro rfl
        simp [hl, hrp.symm] at hl'
      simp [hc, hrp, hl', hr]
  | @skip _ i _ hl =>
    refine .inl ⟨rfl, h.quiet (fun _ => .refl _) (fun _ _ hr => hr) fun c' r np next hl' hr => ⟨?_, hr⟩⟩
    have hc : c' ≠ c := by
      rintro rfl
      simp [hl] at hl'
    simp [hc, hl']
  | @pick _ i _ hl hlock hst =>
    have hkin : ∀ r, (s.proc r).SameKin
        ((s.setProc i fun q => { q with state := .running, lock := some c }).proc r) :=
      State.sameKin_setProc ⟨rfl, rfl, rfl, by simp [hst], by simp [hst]⟩
    refine .inl ⟨rfl, h.quiet hkin (fun r life hr => ?_) fun c' r np next hl' hr => ⟨?_, ?_⟩⟩
    · rw [State.setLoc_proc, State.setProc_proc]
      split_ifs <;> exact hr
    · have hc : c' ≠ c := by
        rintro rfl
        simp [hl] at hl'
      simp [hc, hl']
    · rw [State.setLoc_proc, State.setProc_proc]
      split_ifs <;> exact hr
  | @back _ i _ hl hlock =>
    have hkin : ∀ r, (s.proc r).SameKin ((s.setProc i fun q => { q with lock := none }).proc r) :=
      State.sameKin_setProc ⟨rfl, rfl, rfl, Iff.rfl, Iff.rfl⟩
    refine .inl ⟨rfl, h.quiet hkin (fun r life hr => ?_) fun c' r np next hl' hr => ⟨?_, ?_⟩⟩
    · rw [State.setLoc_proc, State.setProc_proc]
      split_ifs <;> exact hr
    · have hc : c' ≠ c := by
        rintro rfl
        simp [hl] at hl'
      simp [hc, hl']
    · rw [State.setLoc_proc, State.setProc_proc]
      split_ifs <;> exact hr
  | @timer p _ hl ho hst =>
    refine .inl ⟨rfl, h.quiet (s.sameKin_setPc p _) (fun r life hr => ?_) fun c' r np next hl' hr => ⟨hl', ?_⟩⟩
    · by_cases hrp : r = p
      · subst hrp
        simpa [Pc.under] using hr
      · simpa [hrp] using hr
    · have hrp : r ≠ p := by
        rintro rfl
        -- a thread in `fork` holds the lock of the child
        have hheld := ho.1 np ((hi.mem_held hl).mpr (by simp [hr, Pc.held]))
        cases hheld
      simp [hrp, hr]
  | device =>
    refine .inl ⟨rfl, h.quiet (fun _ => .refl _) (fun _ _ hr => hr) fun c r np next hl hr => ⟨?_, hr⟩⟩
    rw [State.setHandler_loc]
    exact hl
  | dma => exact .inl ⟨rfl, h.quiet (fun _ => .refl _) (fun _ _ hr => hr) fun c r np next hl hr => ⟨hl, hr⟩⟩

end Kin

theorem kin_boot (data : D) (start : ι) : Kin (boot data start : State ι D κ Λ C) Tree.boot := by
  have hnone : ∀ {q}, q ≠ initproc → Tree.boot q = none := fun hq => Tree.set_of_ne _ hq _
  have hinit : Tree.boot initproc = some _ := Tree.set_self _ _ _
  refine ⟨fun q => ?_, ⟨_, hinit, rfl⟩, fun q life hq hl => ?_, fun q _ => .inl ?_, fun q life hl => ?_⟩
  · by_cases hq : q = initproc
    · subst hq
      rw [hinit]
      simp [Life.Agrees, boot]
    · rw [hnone hq]
      simp [Life.Agrees, boot, hq]
  · simp [hnone hq] at hl
  · simp only [State.par, boot]
    split_ifs <;> rfl
  · by_cases hq : q = initproc
    · subst hq
      rw [hinit] at hl
      obtain rfl := Option.some.inj hl
      simp [boot, Pc.under, Pc.Ok]
    · simp [hnone hq] at hl

/-- Below init, parents rank below their children. -/
def Tree.Ranked (t : Tree) (rank : Slot → ℕ) : Prop :=
  ∀ p life, t p = some life → p ≠ initproc → life.parent = initproc ∨ rank life.parent < rank p

namespace Tree.Ranked
variable {rank : Slot → ℕ}

/-- A process goes, stays with its parent or is given to init. -/
theorem set (h : t.Ranked rank) {life : Option Life}
    (hp : ∀ l, life = some l → l.parent = initproc ∨ ∃ k, t p = some k ∧ k.parent = l.parent) :
    (t.set p life).Ranked rank := by
  intro q l hl hq
  by_cases hqp : q = p
  · subst hqp
    rcases hp l (by rw [← hl, Tree.set_self]) with hi | ⟨k, hk, hkl⟩
    · exact .inl hi
    · exact hkl ▸ h q k hk hq
  · exact h q l (by rw [← hl, t.set_of_ne hqp]) hq

theorem step (h : t.Ranked rank) (hkin : Kin s t) {e : Event} (hs : t.step e = some t') :
    ∃ rank, t'.Ranked rank := by
  cases e <;> simp only [Tree.step, Option.bind_eq_bind, Option.bind_eq_some_iff, Option.ite_none_right_eq_some,
    Option.some.injEq] at hs
  case forked p np pid =>
    obtain ⟨⟨hnp, hp⟩, rfl⟩ := hs
    refine ⟨Function.update rank np (rank p + 1), fun q l hl hq => ?_⟩
    by_cases hqn : q = np
    · subst hqn
      obtain rfl := Option.some.inj ((t.set_self q _).symm.trans hl)
      have hpq : p ≠ q := by
        rintro rfl
        simp [hnp] at hp
      simp [Life.parent, hpq]
    · rw [t.set_of_ne hqn] at hl
      -- nobody has the new process for a parent
      have hne : l.parent ≠ np := by
        rintro rfl
        simpa [hnp] using hkin.parent q l hq hl
      simpa [hqn, hne] using h q l hl hq
  case discarded =>
    obtain ⟨-, rfl⟩ := hs
    exact ⟨rank, h⟩
  case exiting | exited =>
    obtain ⟨life, hl, -, rfl⟩ := hs
    exact ⟨rank, h.set fun l hl' => .inr ⟨life, hl, Option.some.inj hl' ▸ rfl⟩⟩
  case abandoned =>
    obtain ⟨life, -, below, -, -, rfl⟩ := hs
    exact ⟨rank, h.set fun l hl => .inl (Option.some.inj hl ▸ rfl)⟩
  case reaped =>
    obtain ⟨life, -, -, rfl⟩ := hs
    exact ⟨rank, h.set (by simp)⟩

end Tree.Ranked

section Runs
variable [DecidableEq κ] [DecidableEq Λ] [DecidableEq C] [Fintype Λ] {K : Kernel ι D κ Λ} {data : D} {start : ι}

theorem Reachable.kin (h : Reachable K data start s) : ∃ t, Tree.replay s.log = some t ∧ Kin s t := by
  refine h.induct (J := fun s => ∃ t, Tree.replay s.log = some t ∧ Kin s t) ⟨_, rfl, kin_boot data start⟩ ?_
  rintro s c a s' hi ⟨t, hreplay, hkin⟩ hs
  rcases hkin.trans hi hs with ⟨hlog, hkin'⟩ | ⟨e, t', hlog, hstep, hkin'⟩
  · exact ⟨t, by rw [hlog, hreplay], hkin'⟩
  · exact ⟨t', by rw [hlog, Tree.replay, hreplay, Option.bind_some, hstep], hkin'⟩

theorem Reachable.ranked (h : Reachable K data start s) : ∃ t rank, Kin s t ∧ t.Ranked rank := by
  refine h.induct (J := fun s => ∃ t rank, Kin s t ∧ t.Ranked rank)
    ⟨_, fun _ => 0, kin_boot data start, fun p life hl hp => ?_⟩ ?_
  · cases (Tree.set_of_ne _ hp _).symm.trans hl
  · rintro s c a s' hi ⟨t, rank, hkin, ht⟩ hs
    rcases hkin.trans hi hs with ⟨-, hkin'⟩ | ⟨e, t', -, hstep, hkin'⟩
    · exact ⟨t, rank, hkin', ht⟩
    · obtain ⟨rank', ht'⟩ := ht.step hkin hstep
      exact ⟨t', rank', hkin', ht'⟩

/-- The processes are a tree with init at its root: however forks, exits and waits interleave, the
parent of a process, its parent and so on lead to init. -/
theorem descends_from_init (h : Reachable K data start s) (hp : (s.proc p).state ≠ .unused) :
    Relation.ReflTransGen (fun p q => (s.proc p).parent = some q) p initproc := by
  obtain ⟨t, rank, hkin, ht⟩ := h.ranked
  obtain ⟨life, hlife⟩ := hkin.exists_life hp
  clear hp
  induction hn : rank p using Nat.strong_induction_on generalizing p life with
  | _ n ih =>
    by_cases hpi : p = initproc
    · rw [hpi]
    · have hup := hkin.par_eq hlife hpi
      rcases ht p life hlife hpi with hi | hlt
      · exact .single (hi ▸ hup)
      · obtain ⟨l, hl, -⟩ := hkin.parent p life hpi hlife
        exact .head hup (ih _ (hn ▸ hlt) l hl rfl)

end Runs
/-- Init has forked a child. -/
theorem descends_from_init_forked : ∃ s : State (Fin 3) Unit Empty Empty Bool, Reachable forkAndWait () 0 s ∧
    (s.proc 1).state = .runnable ∧ Relation.ReflTransGen (fun p q => (s.proc p).parent = some q) 1 initproc := by
  obtain ⟨s, hrun, htest⟩ := exists_run_of_exec (step forkAndWait) (fun _ _ => True)
    (boot () 0 : State (Fin 3) Unit Empty Empty Bool) (List.replicate 8 (false, .go 2))
    (fun s => decide ((s.proc 1).state = .runnable)) (by decide +kernel)
  have hst := of_decide_eq_true htest
  exact ⟨s, hrun, hst, descends_from_init hrun (by simp [hst])⟩

end Xv6.Sched
