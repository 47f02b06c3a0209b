import Xv6.Kernel.Sched.Discipline
import Xv6.Kernel.Sched.Tree
import Mathlib.Tactic

/-! `exit`, `reparent` and `wait` agree: the process table is the tree that the events make. -/
namespace Xv6.Sched
open Lib

variable {ι D κ Λ C : Type} {s s' : State ι D κ Λ C} {c : C} {p q : Slot} {k : Pc ι κ Λ} {t t' : Tree}

/-- What the table says about a process. -/
def Life.Agrees (p : Slot) (r : Proc ι κ Λ C) : Option Life → Prop
  | none => r.state = .unused
  | some life => r.state ≠ .unused ∧ r.parent = (if p = initproc then none else some life.parent) ∧
      r.pid = life.pid ∧ (r.state = .zombie ↔ life.zombie = true) ∧
      (life.zombie = true → life.status = some r.xstate)

/-- Where a thread is, whether it is on a CPU or has yielded it there. -/
def Pc.under : Pc ι κ Λ → Pc ι κ Λ
  | .yield k | .yieldRelease k | .sched k => k.under
  | k => k

def State.par (s : State ι D κ Λ C) (p : Slot) : Option Slot := (s.proc p).parent

/-- `p` has called `exit` with a status. -/
def Life.Exiting (p : Slot) (status : ℤ) (life : Life) : Prop :=
  p ≠ initproc ∧ life.status = some status ∧ life.zombie = false

/-- The parent that `exit` has seen: a process is given away once at most, to init. -/
def Seen (par : Slot → Option Slot) (p : Slot) (parent : Option Slot) : Prop :=
  par p = parent ∨ par p = some initproc

/-- What a thread knows of the tree at each place of `fork`, `exit` and `wait`. -/
def Pc.Ok (par : Slot → Option Slot) (p : Slot) (life : Life) : Pc ι κ Λ → Prop
  | .exit status | .exitParent status => life.Exiting p status
  | .exitLock status parent => life.Exiting p status ∧ Seen par p parent
  | .exitSelf status parent => life.Exiting p status ∧ Seen par p (some parent)
  | .reparent status parent i =>
    life.Exiting p status ∧ Seen par p (some parent) ∧ ∀ r : Slot, r < i → par r ≠ some p
  | .reparentChild status parent pp => life.Exiting p status ∧ Seen par p (some parent) ∧
      (∀ r : Slot, r < pp → par r ≠ some p) ∧ par pp = some p
  | .exitZombie status parent =>
    life.Exiting p status ∧ Seen par p (some parent) ∧ ∀ r, par r ≠ some p
  | .zombieExit => p ≠ initproc ∧ life.zombie = true
  | .forkRun np _ => (life.status = none ∧ life.zombie = false) ∧ par np = some p
  | .waitChild _ np _ => (life.status = none ∧ life.zombie = false) ∧ par np = some p
  | _ => life.status = none ∧ life.zombie = false

/-- The table and the tree. A parent that is not in the tree yet is set by `fork` only, which is
about to make the process. -/
structure Kin (s : State ι D κ Λ C) (t : Tree) : Prop where
  agrees : ∀ p, Life.Agrees p (s.proc p) (t p)
  init : ∃ life, t initproc = some life ∧ life.zombie = false
  parent : ∀ p life, p ≠ initproc → t p = some life → ∃ l, t life.parent = some l ∧ l.zombie = false
  unborn : ∀ p, t p = none → s.par p = none ∨
    ∃ c q next, (s.cpu c).loc = .run q ∧ (s.proc q).pc = .forkRun p next ∧ s.par p = some q
  ok : ∀ p life, t p = some life → (s.proc p).pc.under.Ok s.par p life

/-- Nothing that the tree is about has changed. -/
def Proc.SameKin (r r' : Proc ι κ Λ C) : Prop :=
  r'.parent = r.parent ∧ r'.pid = r.pid ∧ r'.xstate = r.xstate ∧
    (r'.state = .unused ↔ r.state = .unused) ∧ (r'.state = .zombie ↔ r.state = .zombie)

theorem Proc.SameKin.refl (r : Proc ι κ Λ C) : r.SameKin r := ⟨rfl, rfl, rfl, Iff.rfl, Iff.rfl⟩

theorem Proc.SameKin.trans {r r' r'' : Proc ι κ Λ C} (h : r.SameKin r') (h' : r'.SameKin r'') :
    r.SameKin r'' :=
  ⟨h'.1.trans h.1, h'.2.1.trans h.2.1, h'.2.2.1.trans h.2.2.1, h'.2.2.2.1.trans h.2.2.2.1,
    h'.2.2.2.2.trans h.2.2.2.2⟩

theorem Proc.sameKin_wake [DecidableEq κ] (r : Proc ι κ Λ C) (chan : Chan κ) : r.SameKin (r.wake chan) := by
  unfold Proc.wake
  split_ifs with h
  · exact ⟨rfl, rfl, rfl, by simp [h.1], by simp [h.1]⟩
  · exact .refl r

theorem Proc.sameKin_kill (r : Proc ι κ Λ C) : r.SameKin r.kill := by
  refine ⟨rfl, rfl, rfl, ?_, ?_⟩ <;> unfold Proc.kill <;> dsimp only <;> split_ifs with h <;> simp [h]

theorem State.sameKin_setProc {f : Proc ι κ Λ C → Proc ι κ Λ C} (hf : (s.proc p).SameKin (f (s.proc p)))
    (q : Slot) : (s.proc q).SameKin ((s.setProc p f).proc q) := by
  rw [State.setProc_proc]
  split_ifs with hq
  · subst hq
    exact hf
  · exact .refl _

theorem State.sameKin_setPc (s : State ι D κ Λ C) (p : Slot) (k : Pc ι κ Λ) (q : Slot) :
    (s.proc q).SameKin ((s.setPc p k).proc q) :=
  State.sameKin_setProc ⟨rfl, rfl, rfl, Iff.rfl, Iff.rfl⟩ q

theorem Life.Agrees.congr {r r' : Proc ι κ Λ C} {life : Option Life} (h : Life.Agrees p r life)
    (hs : r.SameKin r') : Life.Agrees p r' life := by
  obtain ⟨hpar, hpid, hx, hu, hz⟩ := hs
  cases life with
  | none => exact hu.mpr h
  | some life =>
    obtain ⟨h1, h2, h3, h4, h5⟩ := h
    exact ⟨fun he => h1 (hu.mp he), hpar.trans h2, hpid.trans h3, hz.trans h4, fun he => by rw [hx, h5 he]⟩

namespace Kin

theorem exists_life (h : Kin s t) (hst : (s.proc p).state ≠ .unused) : ∃ life, t p = some life := by
  cases ht : t p with
  | none =>
    have := h.agrees p
    rw [ht] at this
    exact absurd this hst
  | some life => exact ⟨life, rfl⟩

theorem eq_none (h : Kin s t) (hst : (s.proc p).state = .unused) : t p = none := by
  cases ht : t p with
  | none => rfl
  | some life =>
    have := h.agrees p
    rw [ht] at this
    exact absurd hst this.1

theorem quiet (h : Kin s t) (hkin : ∀ q, (s.proc q).SameKin (s'.proc q))
    (hok : ∀ q life, (s.proc q).pc.under.Ok s.par q life → (s'.proc q).pc.under.Ok s.par q life)
    (hfork : ∀ c q np next, (s.cpu c).loc = .run q → (s.proc q).pc = .forkRun np next →
      (s'.cpu c).loc = .run q ∧ (s'.proc q).pc = .forkRun np next) : Kin s' t := by
  have hpar : s'.par = s.par := funext fun q => (hkin q).1
  refine ⟨fun q => (h.agrees q).congr (hkin q), h.init, h.parent, fun q hq => ?_, fun q life hq => ?_⟩
  · rw [hpar]
    refine (h.unborn q hq).imp_right ?_
    rintro ⟨c, r, next, hl, hpc, hp⟩
    obtain ⟨hl', hpc'⟩ := hfork c r q next hl hpc
    exact ⟨c, r, next, hl', hpc', hp⟩
  · rw [hpar]
    exact hok q life (h.ok q life hq)

theorem quiet_thread (h : Kin s t) (hk : (s.proc p).pc = k) (hcpu : s'.cpu = s.cpu)
    (hkin : ∀ q, (s.proc q).SameKin (s'.proc q)) (hother : ∀ q ≠ p, (s'.proc q).pc = (s.proc q).pc)
    (hnf : ∀ np next, k ≠ .forkRun np next)
    (hok : ∀ life, k.under.Ok s.par p life → (s'.proc p).pc.under.Ok s.par p life) : Kin s' t := by
  refine h.quiet hkin (fun q life hq => ?_) fun c q np next hl hpc => ?_
  · by_cases hqp : q = p
    · subst hqp
      exact hok life (hk ▸ hq)
    · rwa [hother q hqp]
  · have hqp : q ≠ p := by
      rintro rfl
      exact hnf np next (hk.symm.trans hpc)
    rw [hcpu, hother q hqp]
    exact ⟨hl, hpc⟩

end Kin

theorem Pc.Ok.frame {par par' : Slot → Option Slot} {life : Life} (h : k.Ok par q life)
    (hself : par' q = par q ∨ par' q = some initproc)
    (hnew : q ≠ initproc → ∀ r, par' r = some q → par r = some q)
    (hold : ∀ r, par r = some q → par' r = some q) : k.Ok par' q life := by
  have hseen : ∀ {parent}, Seen par q parent → Seen par' q parent := by
    intro parent hs
    rcases hself with he | he
    · unfold Seen
      rwa [he]
    · exact .inr he
  cases k with
  | exitLock status parent | exitSelf status parent => exact ⟨h.1, hseen h.2⟩
  | reparent status parent i => exact ⟨h.1, hseen h.2.1, fun r hr he => h.2.2 r hr (hnew h.1.1 r he)⟩
  | reparentChild status parent pp =>
    exact ⟨h.1, hseen h.2.1, fun r hr he => h.2.2.1 r hr (hnew h.1.1 r he), hold pp h.2.2.2⟩
  | exitZombie status parent => exact ⟨h.1, hseen h.2.1, fun r he => h.2.2 r (hnew h.1.1 r he)⟩
  | forkRun np next | waitChild addr np next => exact ⟨h.1, hold np h.2⟩
  | _ => exact h

theorem Pc.Ok.congr_life {par : Slot → Option Slot} {life life' : Life} (h : k.Ok par q life)
    (hs : life'.status = life.status) (hz : life'.zombie = life.zombie) : k.Ok par q life' := by
  cases k <;> simp only [Pc.Ok, Life.Exiting, hs, hz] at h ⊢ <;> exact h

namespace Kin

/-- A step of the thread of `p` that changes the place of `x` in the tree. -/
theorem change (h : Kin s t) (x p : Slot) (life : Option Life)
    (hkin : ∀ q ≠ x, (s.proc q).SameKin (s'.proc q))
    (hpc : ∀ q, q ≠ p → q ≠ x → (s'.proc q).pc = (s.proc q).pc)
    (hx : Life.Agrees x (s'.proc x) life)
    (halive : (∃ l, life = some l ∧ l.zombie = false) ∨
      x ≠ initproc ∧ ∀ q l, q ≠ initproc → q ≠ x → t q = some l → l.parent ≠ x)
    (hpar : ∀ l, x ≠ initproc → life = some l → ∃ l', t.set x life l.parent = some l' ∧ l'.zombie = false)
    (hunborn : life = none → s'.par x = none ∨
      ∃ c q next, (s'.cpu c).loc = .run q ∧ (s'.proc q).pc = .forkRun x next ∧ s'.par x = some q)
    (hfork : ∀ c q np next, np ≠ x → (s.cpu c).loc = .run q → (s.proc q).pc = .forkRun np next →
      (s'.cpu c).loc = .run q ∧ (s'.proc q).pc = .forkRun np next)
    (hnew : ∀ q, q ≠ p → q ≠ initproc → s'.par x = some q → s.par x = some q)
    (hold : ∀ q ≠ p, s.par x = some q → s'.par x = some q)
    (hokx : ∀ l, life = some l → (s'.proc x).pc.under.Ok s'.par x l)
    (hokp : p ≠ x → ∀ l, (s.proc p).pc.under.Ok s.par p l → (s'.proc p).pc.under.Ok s'.par p l) :
    Kin s' (t.set x life) := by
  have hpar' : ∀ q ≠ x, s'.par q = s.par q := fun q hq => (hkin q hq).1
  refine ⟨fun q => ?_, ?_, fun q l hq htq => ?_, fun q htq => ?_, fun q l htq => ?_⟩
  · by_cases hq : q = x
    · subst hq
      rwa [Tree.set_self]
    · rw [t.set_of_ne hq]
      exact (h.agrees q).congr (hkin q hq)
  · by_cases hi : initproc = x
    · obtain ⟨l, hl, hz⟩ := halive.resolve_right fun he => he.1 hi.symm
      exact ⟨l, by rw [hi, Tree.set_self, hl], hz⟩
    · rw [t.set_of_ne hi]
      exact h.init
  · by_cases hqx : q = x
    · subst hqx
      rw [Tree.set_self] at htq
      exact hpar l hq htq
    · rw [t.set_of_ne hqx] at htq
      obtain ⟨l', hl', hz⟩ := h.parent q l hq htq
      by_cases hlx : l.parent = x
      · rcases halive with ⟨l'', hl'', hz''⟩ | ⟨-, hno⟩
        · exact ⟨l'', by rw [hlx, Tree.set_self, hl''], hz''⟩
        · exact absurd hlx (hno q l hq hqx htq)
      · exact ⟨l', by rw [t.set_of_ne hlx, hl'], hz⟩
  · by_cases hqx : q = x
    · subst hqx
      rw [Tree.set_self] at htq
      exact hunborn htq
    · rw [t.set_of_ne hqx] at htq
      rw [hpar' q hqx]
      refine (h.unborn q htq).imp_right ?_
      rintro ⟨c, r, next, hl, hr, hp⟩
      obtain ⟨hl', hr'⟩ := hfork c r q next hqx hl hr
      exact ⟨c, r, next, hl', hr', hp⟩
  · by_cases hqx : q = x
    · subst hqx
      rw [Tree.set_self] at htq
      exact hokx l htq
    · rw [t.set_of_ne hqx] at htq
      by_cases hqp : q = p
      · subst hqp
        exact hokp hqx l (h.ok q l htq)
      · rw [hpc q hqp hqx]
        refine (h.ok q l htq).frame (.inl (hpar' q hqx)) (fun hi r hr => ?_) fun r hr => ?_
        · by_cases hrx : r = x
          · subst hrx
            exact hnew q hqp hi hr
          · rwa [← hpar' r hrx]
        · by_cases hrx : r = x
          · subst hrx
            exact hold q hqp hr
          · rwa [hpar' r hrx]

theorem set_none (ht : t p = none) : t.set p none = t := by
  funext q
  by_cases hq : q = p
  · subst hq
    rw [Tree.set_self, ht]
  · exact t.set_of_ne hq none

end Kin
end Xv6.Sched
