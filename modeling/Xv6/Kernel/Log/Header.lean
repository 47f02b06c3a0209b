import Xv6.Kernel.Param
import Mathlib.Tactic

/-! `struct log` and the critical sections of `begin_op`, `end_op` and `log_write`. -/
namespace Xv6

/-- `lh` holds `lh.block[0 .. lh.n)`; what the array holds beyond `lh.n` is never read. -/
structure Log where
  start : ℕ
  size : ℕ
  outstanding : ℕ
  committing : Bool
  lh : List ℕ
  deriving DecidableEq, Repr

namespace Log

/-- One turn of the loop of `begin_op`; `blocked` is the `sleep(&log, &log.lock)`. -/
def beginOp (log : Log) : Except Halt Log :=
  if log.committing then .error .blocked
  else if logSize < log.lh.length + (log.outstanding + 1) * maxOpBlocks then .error .blocked
  else .ok { log with outstanding := log.outstanding + 1 }

/-- The first critical section of `end_op`; the flag is `do_commit`. -/
def endOp (log : Log) : Except Halt (Log × Bool) :=
  let outstanding := log.outstanding - 1
  if log.committing then .error (.panic .logCommitting)
  else if outstanding = 0 then .ok ({ log with outstanding, committing := true }, true)
  else .ok ({ log with outstanding }, false)

/-- The two tests that `log_write` makes before it takes `log.lock`. -/
def logWriteCheck (log : Log) : Except Halt Unit :=
  if logSize ≤ log.lh.length ∨ log.size - 1 ≤ log.lh.length then
    .error (.panic .tooBigTransaction)
  else if log.outstanding < 1 then .error (.panic .logWriteOutsideTrans)
  else .ok ()

/-- The critical section of `log_write`; the block is pinned exactly when it is new. -/
def logWrite (log : Log) (blockno : ℕ) : Log :=
  if blockno ∈ log.lh then log else { log with lh := log.lh ++ [blockno] }

/-- The number of logged blocks at which `log_write` panics. -/
def capacity (log : Log) : ℕ := min logSize (log.size - 1)

/-- `initlog` on an empty on-disk log. -/
def init (start nlog : ℕ) : Log :=
  { start, size := nlog, outstanding := 0, committing := false, lh := [] }

theorem logWriteCheck_tooBig (log : Log) :
    log.logWriteCheck = .error (.panic .tooBigTransaction) ↔ log.capacity ≤ log.lh.length := by
  unfold logWriteCheck capacity
  rw [min_le_iff]
  split_ifs <;> simp_all

@[simp] theorem logWrite_size (log : Log) (b : ℕ) : (log.logWrite b).size = log.size := by
  unfold logWrite
  split_ifs <;> rfl

@[simp] theorem logWrite_outstanding (log : Log) (b : ℕ) :
    (log.logWrite b).outstanding = log.outstanding := by
  unfold logWrite
  split_ifs <;> rfl

@[simp] theorem logWrite_committing (log : Log) (b : ℕ) :
    (log.logWrite b).committing = log.committing := by
  unfold logWrite
  split_ifs <;> rfl

theorem beginOp_ok {log log' : Log} (h : log.beginOp = .ok log') :
    log.committing = false ∧ log.lh.length + (log.outstanding + 1) * maxOpBlocks ≤ logSize ∧
      log' = { log with outstanding := log.outstanding + 1 } := by
  unfold beginOp at h
  split_ifs at h with hc hn
  exact ⟨by simpa using hc, not_lt.mp hn, (Except.ok.inj h).symm⟩

theorem endOp_ok {log log' : Log} {commit : Bool} (h : log.endOp = .ok (log', commit)) :
    log.committing = false ∧ commit = decide (log.outstanding - 1 = 0) ∧
      log' = { log with outstanding := log.outstanding - 1, committing := commit } := by
  unfold endOp at h
  dsimp only at h
  split_ifs at h with hc hz
  · obtain ⟨rfl, rfl⟩ := Prod.mk.inj (Except.ok.inj h)
    exact ⟨by simpa using hc, by simp [hz], rfl⟩
  · obtain ⟨rfl, rfl⟩ := Prod.mk.inj (Except.ok.inj h)
    have hc' : log.committing = false := by simpa using hc
    exact ⟨hc', by simp [hz], by rw [← hc']⟩

end Log
end Xv6
