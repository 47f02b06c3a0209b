import Xv6.Kernel.Log.Recovery
import Xv6.Kernel.Log.Transparent

/-! A crash at any moment, then any number of crashed recoveries and one that returns,
leave the groups whose header write had reached the disk. -/
namespace Xv6
open Lib

/-- A recovery that starts on `d` crashes and leaves `d'`. -/
def Interrupted (d d' : Disk) : Prop :=
  ∃ s, Run step Logged (boot d) s ∧ s.booted = false ∧ s.disk = d'

/-- A recovery that starts on `d` returns and leaves `d'`. -/
def Completed (d d' : Disk) : Prop :=
  ∃ s, Run step Logged (boot d) s ∧ s.booted = false ∧ s.Recovered ∧ s.disk = d'

/-- Two disks that a completed recovery makes equal outside the log. -/
structure SameRecovered (d d' : Disk) : Prop where
  recoverable : Recoverable d'
  same : ∀ n, ¬ InLog n → recovered d' n = recovered d n

theorem Inv.sameRecovered {d : Disk} {s : State} (h : Inv d s) (hb : s.booted = false) :
    SameRecovered d s.disk := by
  constructor
  · exact h.recoverable
  · intro n hn
    rw [h.crash n hn, State.dur, h.trace_nil hb, committed_nil, replay_nil]

namespace Interrupted
variable {d d' : Disk}

theorem sameRecovered (hd : Recoverable d) (h : Interrupted d d') : SameRecovered d d' := by
  obtain ⟨s, hrun, hb, rfl⟩ := h
  exact (inv_of_run hd hrun (by simp [hb])).sameRecovered hb

theorem iterate (hd : Recoverable d) (h : Relation.ReflTransGen Interrupted d d') :
    SameRecovered d d' := by
  induction h with
  | refl => exact ⟨hd, fun _ _ => rfl⟩
  | tail _ hlast ih =>
    have hstep := sameRecovered ih.recoverable hlast
    constructor
    · exact hstep.recoverable
    · intro n hn
      rw [hstep.same n hn, ih.same n hn]

end Interrupted

namespace Completed
variable {d d' : Disk}

theorem exists_of_recoverable (hd : Recoverable d) : ∃ d', Completed d d' := by
  obtain ⟨s, hrun, hb, hrec⟩ := recovery_returns hd (Run.refl (boot d)) rfl
  exact ⟨s.disk, s, hrun, hb, hrec, rfl⟩

theorem eq_recovered (hd : Recoverable d) (h : Completed d d') {n : ℕ} (hn : ¬ InLog n) :
    d' n = recovered d n := by
  obtain ⟨s, hrun, hb, hrec, rfl⟩ := h
  have hinv := inv_of_run hd hrun (by simp [hb])
  have hst := hinv.stage first
  rw [hrec.1] at hst
  rw [← (hinv.sameRecovered hb).same n hn, recovered_of_empty hst.2.1]

end Completed

/-- No operation logs anything outside `begin_op` and `end_op`. -/
def Bracketed (tr : List Event) : Prop :=
  ∀ pre p n v post, tr = pre ++ .logWrite p n v :: post → inOp pre p = true

theorem Inv.bracketed {d : Disk} {s : State} (h : Inv d s) : Bracketed s.trace :=
  fun pre _ _ _ post htr => h.trace_ok pre _ post htr

theorem committed_eq_nil_or (tr : List Event) :
    committed tr = [] ∨ ∃ pre, committed tr = pre ++ [.commit] := by
  induction tr using List.reverseRecOn with
  | nil => exact .inl rfl
  | append_singleton tr e ih =>
    rw [committed_concat]
    cases e with
    | commit => exact .inr ⟨tr, rfl⟩
    | _ => exact ih

theorem Inv.complete {d : Disk} {s : State} (h : Inv d s) : Complete (committed s.trace) := by
  obtain ⟨post, hpost⟩ := committed_prefix s.trace
  rcases committed_eq_nil_or s.trace with hnil | ⟨pre, hpre⟩
  · rw [hnil]
    exact fun p => rfl
  · have hok := h.trace_ok pre .commit post (by rw [← hpost, hpre]; simp)
    rw [hpre]
    intro p
    rw [inOp_concat]
    exact hok p

section Idle
variable {d : Disk} {s : State} (hd : (d 2).header = []) (h : Run step Logged (boot d) s)
include hd h

/-- While no operation is outstanding and no commit is under way, nothing is logged. -/
theorem lh_eq_nil : s.booted = true → s.log.outstanding = 0 → s.log.committing = false → s.log.lh = [] := by
  refine (h.invariant (I := fun s => Run step Logged (boot d) s ∧
    (s.booted = true → s.log.outstanding = 0 → s.log.committing = false → s.log.lh = [])) ⟨Run.refl _, ?_⟩ ?_).2
  · simp [boot]
  · rintro s ⟨p, a⟩ s' ⟨hrun, hq⟩ hok hst
    refine ⟨hrun.tail hok hst, fun hb ho hc => ?_⟩
    have hinv := inv_of_empty hd hrun
    have hstage := hinv.stage p
    cases Trans.of_step hinv.control.start hok hst with
    | logWrite hbusy hpc =>
      have hin := (hinv.control.logging p _ hpc).1
      have hz : s.log.outstanding = 0 := by simpa using ho
      rw [hinv.control.outstanding, count_eq_zero] at hz
      exact absurd hin (hz p)
    | beginOp => simp at ho
    | endOp => simp_all
    | clear => rfl
    | wakeup hbusy hpc | recovered hbusy hpc =>
      rw [hpc] at hstage
      exact hstage.1
    | readHeadCopy hbusy hpc =>
      have := (hinv.control.recovering p (by simp [hpc, Pc.Excl])).mp (by simp [hpc, Pc.Recovering])
      simp [show s.booted = true from hb] at this
    | _ => exact hq hb ho hc

/-- While the log is idle the disk has all that has been logged, and a crash loses nothing. -/
theorem idle_durable (hb : s.booted = true) (ho : s.log.outstanding = 0) (hc : s.log.committing = false) :
    (∀ n, ¬ InLog n → s.disk n = replay d s.trace n) ∧
      ∀ d', Relation.ReflTransGen Interrupted s.disk d' → ∀ d'', Completed d' d'' →
        ∀ n, ¬ InLog n → d'' n = replay d s.trace n := by
  have hinv := inv_of_empty hd h
  have hidle : ∀ q, ¬ (s.proc q).pc.Excl := fun q hq => by
    have := (hinv.control.excl q hq).2
    simp [hc, hb] at this
  have hdisk : ∀ n, ¬ InLog n → s.disk n = replay d s.trace n := fun n hn => by
    have hmem := hinv.mem_disk n hn (by simp [State.pend, lh_eq_nil hd h hb ho hc])
      fun q hq => absurd (Pc.excl_of_loading hq) (hidle q)
    rw [← hmem, State.mem, recovered_of_empty hd]
  refine ⟨hdisk, fun d' hint d'' hcomp n hn => ?_⟩
  have hsame := Interrupted.iterate hinv.recoverable hint
  rw [hcomp.eq_recovered hsame.recoverable hn, hsame.same n hn, recovered_of_empty (hinv.idle hidle).1, hdisk n hn]

end Idle

/-- One operation has logged block 100, and its commit is over. -/
theorem idle_durable_oneOp : ∃ s, Run step Logged (boot zeroDisk) s ∧ s.disk 100 0 ≠ 0 ∧
    s.disk 100 = replay zeroDisk s.trace 100 := by
  obtain ⟨s, hrun, hs⟩ := exists_direct_run (oneOp ++ List.replicate 40 (first, .run))
    (fun s => s.booted ∧ s.log.outstanding = 0 ∧ s.log.committing = false ∧ s.disk 100 0 ≠ 0) (by decide +kernel)
  obtain ⟨hb, ho, hc, hv⟩ := of_decide_eq_true hs
  exact ⟨s, hrun, hv, (idle_durable zeroDisk_header hrun hb ho hc).1 100 (by decide)⟩

end Xv6
