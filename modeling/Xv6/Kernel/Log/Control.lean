import Xv6.Kernel.Log.Step
import Xv6.Lib.Count

/-! Who may run what: operations are counted, `commit` runs alone and outside every
operation, and a recovery runs before everything else. -/
namespace Xv6
open Lib Function

structure Control (s : State) : Prop where
  start : s.log.start = 2
  outstanding : s.log.outstanding = count (fun pr : Proc => pr.inOp = true) s.proc
  excl : ∀ q, (s.proc q).pc.Excl →
    s.log.outstanding = 0 ∧ (s.log.committing = true ∨ s.booted = false)
  unique : ∀ p q, (s.proc p).pc.Excl → (s.proc q).pc.Excl → p = q
  recovering : ∀ q, (s.proc q).pc.Excl → ((s.proc q).pc.Recovering ↔ s.booted = false)
  logging : ∀ q b, (s.proc q).pc = .logWrite b → (s.proc q).inOp = true ∧ (s.proc q).busy = .none
  quiet : s.booted = false → ∀ q : Pid, q.val ≠ 0 → s.proc q = ⟨false, .user, .none⟩
  booting : s.booted = false → ∀ q : Pid, q.val = 0 → (s.proc q).pc.Excl

namespace Control
variable {s s' : State} {p q : Pid}

theorem not_excl (h : Control s) (hp : (s.proc p).inOp = true) (q : Pid) :
    ¬ (s.proc q).pc.Excl := by
  intro hq
  have hz := (h.excl q hq).1
  rw [h.outstanding, count_eq_zero] at hz
  exact hz p hp

theorem first (h : Control s) (ht : Trans s p s') (hb : s.booted = false) : p.val = 0 := by
  by_contra hp
  have hq := h.quiet hb p hp
  cases ht <;> simp_all [Pc.wants, Pc.puts]

theorem logging_update (h : Control s) {pr : Proc} (hproc : s'.proc = update s.proc p pr)
    (hpr : ∀ b, pr.pc = .logWrite b → pr.inOp = true ∧ pr.busy = .none) :
    ∀ q b, (s'.proc q).pc = .logWrite b → (s'.proc q).inOp = true ∧ (s'.proc q).busy = .none := by
  rw [hproc]
  exact (forall_update_iff s.proc fun _ r => ∀ b, r.pc = .logWrite b → r.inOp = true ∧ r.busy = .none).mpr
    ⟨hpr, fun q _ => h.logging q⟩

theorem move (h : Control s) (hp : s.booted = false → p.val = 0) {pr : Proc}
    (hproc : s'.proc = update s.proc p pr) (hstart : s'.log.start = s.log.start)
    (hout : s'.log.outstanding = s.log.outstanding)
    (hcomm : s'.log.committing = s.log.committing) (hboot : s'.booted = s.booted)
    (hop : pr.inOp = (s.proc p).inOp)
    (hex : pr.pc.Excl ↔ (s.proc p).pc.Excl)
    (hrec : pr.pc.Excl → (pr.pc.Recovering ↔ (s.proc p).pc.Recovering))
    (hlw : ∀ b, pr.pc = .logWrite b → pr.inOp = true ∧ pr.busy = .none) : Control s' := by
  have hself : s'.proc p = pr := by simp [hproc]
  have hother : ∀ q, q ≠ p → s'.proc q = s.proc q := fun q hq => by simp [hproc, hq]
  have hexcl : ∀ q, (s'.proc q).pc.Excl ↔ (s.proc q).pc.Excl := fun q => by
    by_cases hqp : q = p
    · subst q
      rw [hself, hex]
    · rw [hother q hqp]
  constructor
  · rw [hstart, h.start]
  · have hcard := count_update (fun pr : Proc => pr.inOp = true) s.proc p pr
    rw [← hproc, hop] at hcard
    rw [hout, h.outstanding]
    omega
  · intro q hq
    rw [hout, hcomm, hboot]
    exact h.excl q ((hexcl q).mp hq)
  · exact fun q r hq hr => h.unique q r ((hexcl q).mp hq) ((hexcl r).mp hr)
  · intro q hq
    rw [hboot, ← h.recovering q ((hexcl q).mp hq)]
    by_cases hqp : q = p
    · subst q
      rw [hself] at hq ⊢
      exact hrec hq
    · rw [hother q hqp]
  · exact h.logging_update hproc hlw
  · intro hb q hq
    rw [hboot] at hb
    have hqp : q ≠ p := fun e => hq (e ▸ hp hb)
    rw [hother q hqp]
    exact h.quiet hb q hq
  · intro hb q hq
    rw [hboot] at hb
    exact (hexcl q).mpr (h.booting hb q hq)

theorem beginOp (h : Control s) (hpr : s.proc p = ⟨false, .user, .none⟩) (hboot : s.booted)
    (hc : s.log.committing = false)
    (hproc : s'.proc = update s.proc p ⟨true, .user, .none⟩)
    (hlog : s'.log = { s.log with outstanding := s.log.outstanding + 1 })
    (hboot' : s'.booted = s.booted) : Control s' := by
  have hnone : ∀ q, ¬ (s.proc q).pc.Excl := fun q hq => by
    have := (h.excl q hq).2
    simp [hc, hboot] at this
  have hnone' : ∀ q, ¬ (s'.proc q).pc.Excl := fun q hq => by
    by_cases hqp : q = p
    · simp [hproc, hqp, Pc.Excl] at hq
    · rw [hproc, update_of_ne hqp] at hq
      exact hnone q hq
  constructor
  · rw [hlog]
    exact h.start
  · have hcard := count_update (fun pr : Proc => pr.inOp = true) s.proc p ⟨true, .user, .none⟩
    rw [← hproc, hpr] at hcard
    rw [hlog]
    have := h.outstanding
    simp at hcard ⊢
    omega
  · exact fun q hq => absurd hq (hnone' q)
  · exact fun q r hq => absurd hq (hnone' q)
  · exact fun q hq => absurd hq (hnone' q)
  · exact h.logging_update hproc (by simp)
  · intro hb
    simp [hboot', hboot] at hb
  · intro hb
    simp [hboot', hboot] at hb

theorem endOp (h : Control s) (hpr : s.proc p = ⟨true, .user, .none⟩) (hboot : s.booted)
    (hproc : s'.proc = update s.proc p
      ⟨false, if s.log.outstanding - 1 = 0 then .commit else .user, .none⟩)
    (hlog : s'.log = { s.log with
      outstanding := s.log.outstanding - 1
      committing := decide (s.log.outstanding - 1 = 0) })
    (hboot' : s'.booted = s.booted) : Control s' := by
  have hnone := h.not_excl (p := p) (by rw [hpr])
  have hexcl : ∀ q, (s'.proc q).pc.Excl → q = p ∧ s.log.outstanding - 1 = 0 := by
    intro q hq
    by_cases hqp : q = p
    · refine ⟨hqp, ?_⟩
      by_contra hz
      simp [hproc, hqp, hz, Pc.Excl] at hq
    · rw [hproc, update_of_ne hqp] at hq
      exact absurd hq (hnone q)
  constructor
  · rw [hlog]
    exact h.start
  · have hcard := count_update (fun pr : Proc => pr.inOp = true) s.proc p
      ⟨false, if s.log.outstanding - 1 = 0 then .commit else .user, .none⟩
    rw [← hproc, hpr] at hcard
    rw [hlog]
    have := h.outstanding
    simp at hcard ⊢
    omega
  · intro q hq
    rw [hlog]
    have := (hexcl q hq).2
    simp [this]
  · intro q r hq hr
    rw [(hexcl q hq).1, (hexcl r hr).1]
  · intro q hq
    obtain ⟨rfl, hz⟩ := hexcl q hq
    rw [hproc, update_self, hboot', hboot]
    simp [hz, Pc.Recovering]
  · refine h.logging_update hproc fun b hb => ?_
    simp only at hb
    split_ifs at hb
  · intro hb
    simp [hboot', hboot] at hb
  · intro hb
    simp [hboot', hboot] at hb

theorem leave (h : Control s) (hex : (s.proc p).pc.Excl) {pr : Proc}
    (hpr : pr = { s.proc p with pc := .user })
    (hproc : s'.proc = update s.proc p pr) (hstart : s'.log.start = s.log.start)
    (hout : s'.log.outstanding = s.log.outstanding) (hboot : s'.booted = true) : Control s' := by
  have hnone : ∀ q, ¬ (s'.proc q).pc.Excl := fun q hq => by
    by_cases hqp : q = p
    · simp [hproc, hqp, hpr, Pc.Excl] at hq
    · rw [hproc, update_of_ne hqp] at hq
      exact hqp (h.unique q p hq hex)
  constructor
  · rw [hstart, h.start]
  · have hcard := count_update (fun pr : Proc => pr.inOp = true) s.proc p pr
    have hop : pr.inOp = (s.proc p).inOp := by rw [hpr]
    rw [← hproc, hop] at hcard
    rw [hout, h.outstanding]
    omega
  · exact fun q hq => absurd hq (hnone q)
  · exact fun q r hq => absurd hq (hnone q)
  · exact fun q hq => absurd hq (hnone q)
  · exact h.logging_update hproc (by simp [hpr])
  · intro hb
    simp [hboot] at hb
  · intro hb
    simp [hboot] at hb

theorem excl_got (pc : Pc) (i : BufId) : (pc.got i).Excl ↔ pc.Excl := by
  cases pc <;> simp [Pc.got, Pc.Excl]

theorem recovering_got (pc : Pc) (i : BufId) : (pc.got i).Recovering ↔ pc.Recovering := by
  cases pc <;> simp [Pc.got, Pc.Recovering]

theorem puts_excl {pc pc' : Pc} {i : BufId} (h : pc.puts = some (i, pc')) :
    pc.Excl ∧ pc'.Excl ∧ (pc'.Recovering ↔ pc.Recovering) := by
  cases pc <;> simp only [Pc.puts, reduceCtorEq, Option.some.injEq, Prod.mk.injEq] at h
  case writeHeadPut w b =>
    obtain ⟨rfl, rfl⟩ := h
    cases w <;> simp [Pc.Excl, Pc.Recovering, State.afterHead]
  all_goals
    obtain ⟨rfl, rfl⟩ := h
    simp [Pc.Excl, Pc.Recovering]

theorem step (h : Control s) (ht : Trans s p s') : Control s' := by
  have hfirst := h.first ht
  have goto : ∀ {s' : State} {pc pc' : Pc}, (s.proc p).pc = pc →
      s'.proc = update s.proc p { s.proc p with pc := pc' } →
      s'.log.start = s.log.start → s'.log.outstanding = s.log.outstanding →
      s'.log.committing = s.log.committing → s'.booted = s.booted →
      (pc'.Excl ↔ pc.Excl) → (pc'.Excl → (pc'.Recovering ↔ pc.Recovering)) →
      (∀ b, pc' ≠ .logWrite b) → Control s' := by
    intro s' pc pc' hpc hproc hstart hout hcomm hboot hex hrec hlw
    exact h.move hfirst hproc hstart hout hcomm hboot rfl (by rwa [hpc]) (by rwa [hpc])
      fun b hb => absurd hb (hlw b)
  cases ht with
  | get hbusy hn hb =>
    refine h.move hfirst rfl rfl rfl rfl rfl rfl Iff.rfl (fun _ => Iff.rfl) fun b hpc => ?_
    rcases hn with ⟨hu, -⟩ | hn
    · simp [hu] at hpc
    · have hpc : (s.proc p).pc = .logWrite b := hpc
      simp [hpc, Pc.wants] at hn
  | acquire hbusy hfree | put hbusy =>
    refine h.move hfirst rfl rfl rfl rfl rfl rfl Iff.rfl (fun _ => Iff.rfl) fun b hpc => ?_
    have := (h.logging p b hpc).2
    simp [hbusy] at this
  | @fill i hbusy =>
    refine h.move hfirst rfl rfl rfl rfl rfl rfl (excl_got _ i) (fun _ => recovering_got _ i) ?_
    · intro b hb
      cases hpc : (s.proc p).pc with
      | logWrite b' =>
        have := (h.logging p b' hpc).2
        simp [hbusy] at this
      | _ => simp [hpc, Pc.got] at hb
  | release hbusy hheld hpc =>
    refine h.move hfirst rfl rfl rfl rfl rfl rfl ?_ ?_ ?_
    · rcases hpc with ⟨hu, rfl, -⟩ | hp
      · simp [hu, Pc.Excl]
      · exact iff_of_true (puts_excl hp).2.1 (puts_excl hp).1
    · intro hex
      rcases hpc with ⟨-, rfl, -⟩ | hp
      · simp [Pc.Excl] at hex
      · exact (puts_excl hp).2.2
    · intro b hb
      rcases hpc with ⟨-, rfl, -⟩ | hp
      · simp at hb
      · have := (puts_excl hp).2.1
        simp only at hb
        simp [hb, Pc.Excl] at this
  | change data hpr hboot hheld hhome =>
    exact h.move hfirst (update_eq_self p s.proc).symm rfl rfl rfl rfl rfl
      Iff.rfl (fun _ => Iff.rfl) fun b hb => h.logging p b hb
  | fault hpr hboot => exact h
  | logWriteCall hpr hboot hheld hhome =>
    exact h.move hfirst rfl rfl rfl rfl rfl rfl (by simp [hpr, Pc.Excl]) (by simp [Pc.Excl])
      fun b _ => by simp [hpr]
  | logWrite hbusy hpc =>
    refine goto hpc rfl ?_ (Log.logWrite_outstanding _ _) (Log.logWrite_committing _ _) rfl
      (by simp [Pc.Excl]) (by simp [Pc.Excl]) (by simp)
    show (s.log.logWrite _).start = s.log.start
    unfold Log.logWrite
    split_ifs <;> rfl
  | beginOp hpr hboot hc => exact h.beginOp hpr hboot hc rfl rfl rfl
  | endOp hpr hboot hclean hc => exact h.endOp hpr hboot rfl rfl rfl
  | commit hbusy hpc =>
    refine goto hpc rfl rfl rfl rfl rfl ?_ ?_ ?_
    · split_ifs <;> simp [Pc.Excl]
    · intro _
      split_ifs <;> simp [Pc.Recovering]
    · intro b
      split_ifs <;> simp
  | writeLogDone _ hpc | writeLogCopy _ hpc | writeHeadFill _ hpc | installTransDone _ hpc | installTransCopy _ hpc
  | installTransUnpin _ hpc | readHeadCopy _ hpc =>
    exact goto hpc rfl rfl rfl rfl rfl (by simp [Pc.Excl]) (by simp [Pc.Recovering]) (by simp)
  | @clear w hbusy hpc =>
    refine goto hpc rfl rfl rfl rfl rfl (by simp [Pc.Excl]) (fun _ => ?_) (by simp)
    cases w <;> simp [Pc.Recovering, State.afterClear]
  | wakeup hbusy hpc =>
    have hex : (s.proc p).pc.Excl := by simp [hpc, Pc.Excl]
    refine h.leave hex rfl rfl rfl rfl ?_
    have := (h.recovering p hex).not
    show s.booted = true
    simpa [hpc, Pc.Recovering] using this
  | recovered hbusy hpc =>
    exact h.leave (p := p) (by simp [hpc, Pc.Excl]) rfl rfl rfl rfl rfl

theorem boot (d : Disk) : Control (boot d) where
  start := rfl
  outstanding := by
    symm
    rw [Xv6.boot, Log.init, count_eq_zero]
    simp
  excl q _ := ⟨rfl, .inr rfl⟩
  unique p q hp hq := by
    have key : ∀ r : Pid, (((Xv6.boot d).proc r).pc).Excl → r = 0 := fun r hr => by
      by_contra hne
      simp [Xv6.boot, hne, Pc.Excl] at hr
    exact (key p hp).trans (key q hq).symm
  recovering q hq := by
    by_cases hz : q = 0
    · simp [Xv6.boot, hz, Pc.Recovering]
    · simp [Xv6.boot, hz, Pc.Excl] at hq
  logging q b hq := by
    by_cases hz : q = 0 <;> simp [Xv6.boot, hz] at hq
  quiet _ q hq := by simpa [Xv6.boot] using hq
  booting _ q hq := by
    obtain rfl : q = 0 := Fin.ext hq
    simp [Xv6.boot, Pc.Excl]

end Control
end Xv6
