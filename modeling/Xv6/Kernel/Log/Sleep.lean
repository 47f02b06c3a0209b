import Xv6.Kernel.Log.Header
import Xv6.Kernel.Sched.Phase
import Xv6.Lib.Count
import Mathlib.Tactic

/-! `begin_op` and `end_op` with their `sleep` and `wakeup`, by any number of processes. -/
namespace Xv6.LogOp
open Lib Sched Function

/-- Places in an operation. -/
inductive Place
  | begin
  /-- the body of `while (1)` -/
  | beginTest
  | beginSleep
  | beginDone
  /-- between the calls -/
  | op
  /-- the tests of `log_write` -/
  | logWrite (blockno : ℕ)
  | logAcquire (blockno : ℕ)
  | logAppend (blockno : ℕ)
  | logDone
  | finish
  /-- from `log.outstanding -= 1` on -/
  | endTest
  | endWake
  | endDone (doCommit : Bool)
  | commit
  /-- `write_log`, `write_head` and `install_trans` -/
  | commitWrite
  /-- `log.lh.n = 0` -/
  | commitClear
  /-- `write_head` -/
  | commitHead
  | endAcquire
  /-- `log.committing = 0` -/
  | endClear
  | panic (why : Panic)

/-- `commit` writes blocks for some time, in which it does not touch `log`. -/
def code : Place → Instr (Label Place) Log Unit Unit
  | .begin => .acquire () (.sys .beginTest)
  | .beginTest => .run fun log _ _ =>
      match log.beginOp with
      | .ok log' => (log', .sys .beginDone)
      | .error _ => (log, .sys .beginSleep)
  | .beginSleep => .sleep () () (.sys .beginTest)
  | .beginDone => .release () (.sys .op)
  | .op => .run fun log _ n => (log, .sys (match n with | 0 => .finish | b + 1 => .logWrite b))
  | .logWrite b => .run fun log _ _ =>
      match log.logWriteCheck with
      | .ok () => (log, .sys (.logAcquire b))
      | .error (.panic why) => (log, .sys (.panic why))
      | .error .blocked => (log, .sys (.logWrite b))
  | .logAcquire b => .acquire () (.sys (.logAppend b))
  | .logAppend b => .run fun log _ _ => (log.logWrite b, .sys .logDone)
  | .logDone => .release () (.sys .op)
  | .finish => .acquire () (.sys .endTest)
  | .endTest => .run fun log _ _ =>
      match log.endOp with
      | .ok (log', true) => (log', .sys (.endDone true))
      | .ok (log', false) => (log', .sys .endWake)
      | .error _ => (log, .sys (.panic .logCommitting))
  | .endWake => .wakeup () (.sys (.endDone false))
  | .endDone doCommit => .release () (if doCommit then .sys .commit else .user)
  | .commit => .run fun log _ _ => (log, .sys (if log.lh = [] then .endAcquire else .commitWrite))
  | .commitWrite => .run fun log _ n => (log, .sys (if n = 0 then .commitClear else .commitWrite))
  | .commitClear => .run fun log _ _ => ({ log with lh := [] }, .sys .commitHead)
  | .commitHead => .run fun log _ n => (log, .sys (if n = 0 then .endAcquire else .commitHead))
  | .endAcquire => .acquire () (.sys .endClear)
  | .endClear => .run fun log _ _ => ({ log with committing := false }, .sys .endWake)
  | .panic why => .run fun log _ _ => (log, .sys (.panic why))

def calls : Calls Place Log Unit Unit where
  call _ := .begin
  code := code
  handler _ := false
  dma d _ := d

def locks : Place → List Unit
  | .beginTest | .beginSleep | .beginDone | .logAppend _ | .logDone | .endTest | .endWake | .endDone _ | .endClear
  | .panic .logCommitting => [()]
  | _ => []

theorem locks_of_check {log : Log} {why : Panic} (h : log.logWriteCheck = .error (.panic why)) :
    locks (.panic why) = [] := by
  unfold Log.logWriteCheck at h
  split_ifs at h <;> cases h <;> rfl

theorem balanced : calls.kernel.Balanced (Label.locks locks) := by
  refine Calls.balanced (fun l => ?_) (fun n => rfl) (fun l => ?_) fun l hl => ?_
  · have : ∀ l, locks l = [] ∨ locks l = [()] := fun l => by
      unfold locks
      split <;> simp
    rcases this l with h | h <;> simp [h]
  · cases l with
    | beginTest | endTest =>
      intro log b n
      dsimp only
      split <;> rfl
    | op =>
      rintro log b (_ | n) <;> rfl
    | logWrite blockno =>
      intro log b n
      dsimp only
      split
      · rfl
      · exact locks_of_check ‹_›
      · rfl
    | endDone doCommit => cases doCommit <;> rfl
    | commit | commitWrite | commitHead =>
      intro log b n
      dsimp only
      split_ifs <;> rfl
    | beginSleep => exact ⟨rfl, rfl⟩
    | logAppend b | commitClear | endClear | panic why => exact fun _ _ _ => rfl
    | _ => rfl
  · cases hl

/-- A process is in an operation, in `commit` with the header as it was, or in `commit` with the
header erased. -/
inductive Phase
  | idle
  | op
  | commit
  | cleared
  deriving DecidableEq

def phase : Place → Phase
  | .beginDone | .op | .logWrite _ | .logAcquire _ | .logAppend _ | .logDone | .finish | .endTest | .panic _ => .op
  | .endDone true | .commit | .commitWrite | .commitClear => .commit
  | .commitHead | .endAcquire | .endClear => .cleared
  | _ => .idle

theorem phased : calls.kernel.Phased (Label.phase phase .idle) .idle := by
  refine Calls.phased (fun l => ?_) fun l hl => ?_
  · cases l with
    | endDone doCommit => cases doCommit <;> rfl
    | _ => first | rfl | trivial
  · cases hl

def Phase.Commits (x : Phase) : Prop := x = .commit ∨ x = .cleared

instance : DecidablePred Phase.Commits := fun _ => inferInstanceAs (Decidable (_ ∨ _))

@[simp] theorem Phase.commits_commit : Phase.commit.Commits := .inl rfl
@[simp] theorem Phase.commits_cleared : Phase.cleared.Commits := .inr rfl
@[simp] theorem Phase.not_commits_idle : ¬ Phase.idle.Commits := by simp [Phase.Commits]
@[simp] theorem Phase.not_commits_op : ¬ Phase.op.Commits := by simp [Phase.Commits]

/-- What the counters count. -/
structure Counted {ι : Type} [Fintype ι] (π : ι → Phase) (log : Log) : Prop where
  ops : count (· = .op) π = log.outstanding
  commits : count Phase.Commits π = if log.committing then 1 else 0
  alone : log.committing = true → log.outstanding = 0
  cleared : ∀ t, π t = .cleared → log.lh = []
  empty : log.outstanding = 0 → log.committing = false → log.lh = []

namespace Counted
variable {ι : Type} [Fintype ι] [DecidableEq ι] {π : ι → Phase} {log log' : Log} {t : ι} {x : Phase}

omit [DecidableEq ι] in
theorem committing (h : Counted π log) (ht : (π t).Commits) : log.committing = true := by
  have hne : count Phase.Commits π ≠ 0 := fun h0 => count_eq_zero _ |>.mp h0 t ht
  rw [h.commits] at hne
  by_contra hc
  simp [hc] at hne

omit [DecidableEq ι] in
theorem outstanding_pos (h : Counted π log) (ht : π t = .op) : 0 < log.outstanding := by
  rw [← h.ops, Nat.pos_iff_ne_zero]
  exact fun h0 => count_eq_zero _ |>.mp h0 t ht

omit [DecidableEq ι] in
theorem not_committing (h : Counted π log) (ht : π t = .op) : log.committing = false := by
  by_contra hc
  have := h.alone (by simpa using hc)
  have := h.outstanding_pos ht
  omega

theorem stay (h : Counted π log) : Counted (update π t (π t)) log := by rwa [update_eq_self]

theorem beginOp (h : Counted π log) (ht : π t = .idle) (hb : log.beginOp = .ok log') :
    Counted (update π t .op) log' := by
  obtain ⟨hc, -, rfl⟩ := Log.beginOp_ok hb
  have h1 := count_update (· = Phase.op) π t .op
  have h2 := count_update Phase.Commits π t .op
  simp [ht] at h1 h2
  refine ⟨?_, ?_, fun hcom => ?_, fun u hu => ?_, fun h0 => ?_⟩
  · rw [← h.ops]
    exact h1
  · exact h2.trans h.commits
  · simp [hc] at hcom
  · have hut : u ≠ t := by
      rintro rfl
      simp at hu
    rw [update_of_ne hut] at hu
    simp [h.committing (.inr hu)] at hc
  · simp at h0

theorem endOp {doCommit : Bool} (h : Counted π log) (ht : π t = .op) (he : log.endOp = .ok (log', doCommit)) :
    Counted (update π t (if doCommit then .commit else .idle)) log' := by
  obtain ⟨hc, hd, rfl⟩ := Log.endOp_ok he
  have hpos := h.outstanding_pos ht
  have hops := h.ops
  have hcom := h.commits
  simp only [hc, Bool.false_eq_true, if_false] at hcom
  have h1 := count_update (· = Phase.op) π t (if doCommit then .commit else .idle)
  have h2 := count_update Phase.Commits π t (if doCommit then .commit else .idle)
  have hclear : ∀ u, update π t (if doCommit then .commit else .idle) u ≠ .cleared := by
    intro u hu
    by_cases hut : u = t
    · cases doCommit <;> simp [hut] at hu
    · rw [update_of_ne hut] at hu
      simp [h.committing (.inr hu)] at hc
  cases doCommit with
  | true =>
    have hz : log.outstanding - 1 = 0 := of_decide_eq_true hd.symm
    simp [ht] at h1 h2
    refine ⟨?_, ?_, fun _ => hz, fun u hu => absurd hu (hclear u), fun _ hf => (by cases hf)⟩ <;> simp <;> omega
  | false =>
    have hz : log.outstanding - 1 ≠ 0 := of_decide_eq_false hd.symm
    simp [ht] at h1 h2
    refine ⟨?_, ?_, fun hf => (by cases hf), fun u hu => absurd hu (hclear u), fun h0 => absurd h0 hz⟩ <;> simp <;> omega

omit [DecidableEq ι] in
theorem logWrite (h : Counted π log) (ht : π t = .op) (b : ℕ) : Counted π (log.logWrite b) := by
  have hc := h.not_committing ht
  have hpos := h.outstanding_pos ht
  refine ⟨by rw [Log.logWrite_outstanding]; exact h.ops, by rw [Log.logWrite_committing]; exact h.commits,
    fun hcom => ?_, fun u hu => ?_, fun h0 => ?_⟩
  · rw [Log.logWrite_committing] at hcom
    simp [hc] at hcom
  · simp [h.committing (.inr hu)] at hc
  · rw [Log.logWrite_outstanding] at h0
    omega

theorem commit (h : Counted π log) (ht : (π t).Commits) (hx : x.Commits) (hl : log'.lh = log.lh ∨ log'.lh = [])
    (ho : log'.outstanding = log.outstanding) (hcom : log'.committing = log.committing) (hc : x = .cleared → log'.lh = []) :
    Counted (update π t x) log' := by
  have h1 := count_update (· = Phase.op) π t x
  have h2 := count_update Phase.Commits π t x
  have hnop : ∀ y : Phase, y.Commits → y ≠ .op := by
    rintro y (rfl | rfl) <;> simp
  rw [if_neg (hnop _ ht), if_neg (hnop _ hx)] at h1
  rw [if_pos ht, if_pos hx] at h2
  have hlh : log.lh = [] → log'.lh = [] := fun h0 => by
    rcases hl with hl | hl
    · rw [hl, h0]
    · exact hl
  refine ⟨by rw [ho, ← h.ops]; exact h1, by rw [hcom, ← h.commits]; omega, ?_, fun u hu => ?_, fun _ hf => ?_⟩
  · rw [ho, hcom]
    exact h.alone
  · by_cases hut : u = t
    · subst hut
      rw [update_self] at hu
      exact hc hu
    · rw [update_of_ne hut] at hu
      exact hlh (h.cleared u hu)
  · rw [hcom, h.committing ht] at hf
    cases hf

theorem endClear (h : Counted π log) (ht : π t = .cleared) :
    Counted (update π t .idle) { log with committing := false } := by
  have hc := h.committing (.inr ht)
  have hcom := h.commits
  rw [hc, if_pos rfl] at hcom
  have h1 := count_update (· = Phase.op) π t .idle
  have h2 := count_update Phase.Commits π t .idle
  rw [if_pos (show (π t).Commits from .inr ht), if_neg (by simp [Phase.Commits])] at h2
  simp only [ht, reduceCtorEq, if_false] at h1
  refine ⟨h1.trans h.ops, ?_, fun hf => (by cases hf), fun u hu => ?_, fun _ _ => h.cleared t ht⟩
  · simp only [Bool.false_eq_true, if_false]
    omega
  · exact h.cleared t ht

theorem run (h : Counted π log) {l : Place} {f : Log → Bool → ℕ → Log × Label Place} (hc : code l = .run f)
    (ht : π t = phase l) (b : Bool) (n : ℕ) :
    Counted (update π t (Label.phase phase .idle (f log b n).2)) (f log b n).1 := by
  have hstay : ∀ {l'}, phase l' = phase l → Counted (update π t (phase l')) log := by
    intro l' he
    rw [he, ← ht]
    exact h.stay
  cases l <;> simp only [code, reduceCtorEq, Instr.run.injEq] at hc <;> subst hc
  case beginTest =>
    dsimp only
    split
    · exact h.beginOp ht ‹_›
    · exact hstay rfl
  case op =>
    dsimp only
    split <;> exact hstay rfl
  case logWrite blockno =>
    dsimp only
    split <;> exact hstay rfl
  case logAppend blockno =>
    have hs := (h.logWrite ht blockno).stay (t := t)
    rwa [ht] at hs
  case endTest =>
    dsimp only
    split
    · exact h.endOp ht ‹_›
    · exact h.endOp ht ‹_›
    · exact hstay rfl
  case commit =>
    dsimp only
    split_ifs with hl
    · exact h.commit (.inl ht) (.inr rfl) (.inl rfl) rfl rfl fun _ => hl
    · exact hstay rfl
  case commitWrite =>
    dsimp only
    split_ifs <;> exact hstay rfl
  case commitClear => exact h.commit (.inl ht) (.inr rfl) (.inr rfl) rfl rfl fun _ => rfl
  case commitHead =>
    dsimp only
    split_ifs <;> exact hstay rfl
  case endClear => exact h.endClear ht
  case panic why => exact hstay rfl

end Counted
/-- The test of `begin_op`. -/
def Waits (log : Log) : Prop :=
  log.committing = true ∨ logSize < log.lh.length + (log.outstanding + 1) * maxOpBlocks

theorem beginOp_error {log : Log} {e : Halt} (h : log.beginOp = .error e) : Waits log := by
  unfold Log.beginOp at h
  split_ifs at h with hc hn
  · exact .inl hc
  · exact .inr hn

theorem Waits.logWrite {log : Log} (h : Waits log) (b : ℕ) : Waits (log.logWrite b) := by
  unfold Waits at h ⊢
  rw [Log.logWrite_committing, Log.logWrite_outstanding]
  have hle : log.lh.length ≤ (log.logWrite b).lh.length := by
    unfold Log.logWrite
    split_ifs <;> simp
  rcases h with h | h
  · exact .inl h
  · exact .inr (by omega)

/-- A process goes to sleep for a reason, and `end_op` does not find another commit. -/
def Known : Place → Log → Prop
  | .beginSleep, log => Waits log
  | .panic why, _ => why ≠ .logCommitting
  | _, _ => True

/-- Once it has lowered `outstanding` or cleared `committing`, a thread owes a `wakeup`. -/
def Owes : Place → Prop
  | .endWake => True
  | _ => False

section
variable {C : Type} [Fintype C] [DecidableEq C]

def Tallied (a : Sched.Client (Label Place) Log Unit Unit C) : Prop :=
  Counted (a.phase (Label.phase phase .idle) .idle) a.data

variable {allow : Label Place → Log → Bool → ℕ → Prop} {a : Sched.Client (Label Place) Log Unit Unit C} {start nlog : ℕ}

theorem tallied (h : a.Reaches calls.kernel allow (Log.init start nlog) .user) : Tallied a := by
  refine h.phase_induct (J := fun π log => Counted π log) phased rfl ?_ fun π d π' d' hj hs => ?_
  · refine ⟨?_, ?_, fun _ => rfl, fun _ _ => rfl, fun _ _ => rfl⟩ <;> simp [count, Log.init]
  · rcases Calls.phaseStep_cases (fun _ => rfl) hs with ⟨rfl, rfl⟩ | ⟨t, l, f, b, n, hc, -, ht, rfl, rfl⟩ | ⟨n, rfl, rfl⟩
    · exact hj
    · exact hj.run hc ht b n
    · exact hj

omit [DecidableEq C] in
theorem Tallied.at_op (h : Tallied a) {t : Slot ⊕ C} {l : Place} (ht : a.task t = some (.code (.sys l)))
    (hl : phase l = .op) : a.data.committing = false := by
  refine Counted.not_committing (t := t) h ?_
  unfold Sched.Client.phase
  rw [ht]
  exact hl

omit [DecidableEq C] in
theorem Tallied.at_commit (h : Tallied a) {t : Slot ⊕ C} {l : Place} (ht : a.task t = some (.code (.sys l)))
    (hl : (phase l).Commits) : a.data.committing = true := by
  refine Counted.committing (t := t) h ?_
  unfold Sched.Client.phase
  rw [ht]
  exact hl

omit [DecidableEq C] in
theorem outline : Outline calls.kernel (Label.locks locks) allow (Tallied (C := C)) () (Label.Asserts Known)
    fun _ => True := by
  refine Calls.outline (fun {a t l} hI ht => ?_) fun _ _ => .refl _
  have hin : () ∈ ([()] : List Unit) := List.mem_singleton_self ()
  cases l with
  | beginTest =>
    refine fun b n _ => ⟨fun _ _ => ?_, fun hno => absurd hin hno⟩
    dsimp only
    split
    · trivial
    · exact beginOp_error ‹_›
  | endTest =>
    refine fun b n _ => ⟨fun _ _ => ?_, fun hno => absurd hin hno⟩
    dsimp only
    split
    · trivial
    · trivial
    · rename_i e he
      have hc := hI.at_op ht rfl
      unfold Log.endOp at he
      simp only [hc, Bool.false_eq_true, if_false] at he
      split_ifs at he
  | logAppend b | endClear => exact fun _ _ _ => ⟨fun _ _ => trivial, fun hno => absurd hin hno⟩
  | op | commit | commitWrite | commitHead =>
    exact fun _ n _ => ⟨fun hmem => absurd hmem List.not_mem_nil, fun _ => .refl _⟩
  | logWrite blockno =>
    refine fun _ n _ => ⟨fun hmem => absurd hmem List.not_mem_nil, fun _ => ?_⟩
    dsimp only
    split <;> exact .refl _
  | commitClear =>
    refine fun _ n _ => ⟨fun hmem => absurd hmem List.not_mem_nil, fun _ => ⟨id, fun l hl hA => ?_⟩⟩
    -- the header is erased while `log.committing` is set
    have hc := hI.at_commit ht (.inl rfl)
    cases l with
    | sys l =>
      cases l with
      | beginSleep => exact .inl hc
      | _ => exact hA
    | _ => trivial
  | panic why => exact fun _ n _ => ⟨fun _ => id, fun _ => .refl _⟩
  | beginSleep => exact ⟨fun _ => ⟨fun _ => trivial, fun _ _ => trivial⟩, fun hne => absurd rfl hne⟩
  | beginDone | logDone | endDone doCommit | begin | logAcquire b | finish | endAcquire =>
    exact ⟨fun _ _ => trivial, fun hne => absurd rfl hne⟩
  | endWake => exact fun _ _ => trivial

theorem outlined (h : a.Reaches calls.kernel allow (Log.init start nlog) .user) :
    a.Outlined () (Label.Asserts Known) fun _ => True :=
  .of_reaches outline balanced rfl trivial (fun _ ha => tallied ha) h

omit [DecidableEq C] in
theorem monitor : Monitor calls.kernel (Label.locks locks) allow
    (fun a : Sched.Client (Label Place) Log Unit Unit C => Tallied a ∧
      ∀ t, a.task t = some (.code (.sys .beginSleep)) → Waits a.data) () () Waits (Label.In Owes) := by
  refine Calls.monitor (fun {a t l} hI ht => ?_) fun _ _ hW => hW
  have hin : () ∈ ([()] : List Unit) := List.mem_singleton_self ()
  cases l with
  | beginTest =>
    refine fun b n _ => ⟨fun _ _ => ⟨id, fun hW => ?_⟩, fun hno => absurd hin hno⟩
    dsimp only
    split
    · obtain ⟨hc, hle, -⟩ := Log.beginOp_ok ‹_›
      rcases hW with hW | hW
      · simp [hc] at hW
      · omega
    · exact hW
  | endTest =>
    refine fun b n _ => ⟨fun _ => ?_, fun hno => absurd hin hno⟩
    dsimp only
    split
    · obtain ⟨-, -, rfl⟩ := Log.endOp_ok ‹_›
      exact fun _ => ⟨id, fun _ => .inl rfl⟩
    · exact fun hno => absurd trivial hno
    · exact fun _ => ⟨id, id⟩
  | logAppend b => exact fun _ _ _ => ⟨fun _ _ => ⟨id, fun hW => hW.logWrite b⟩, fun hno => absurd hin hno⟩
  | endClear => exact fun _ _ _ => ⟨fun _ hno => absurd trivial hno, fun hno => absurd hin hno⟩
  | op | commit | commitWrite | commitHead => exact fun _ n _ => ⟨fun hmem => absurd hmem List.not_mem_nil, fun _ => id⟩
  | logWrite blockno =>
    refine fun _ n _ => ⟨fun hmem => absurd hmem List.not_mem_nil, fun _ => ?_⟩
    dsimp only
    split <;> exact id
  | commitClear =>
    exact fun _ n _ => ⟨fun hmem => absurd hmem List.not_mem_nil, fun _ _ => .inl (hI.1.at_commit ht (.inl rfl))⟩
  | panic why => exact fun _ n _ => ⟨fun _ _ => ⟨id, id⟩, fun _ => id⟩
  | beginSleep => exact ⟨fun _ => ⟨rfl, hI.2 t ht⟩, fun _ => id⟩
  | beginDone | logDone | endDone doCommit => exact ⟨fun _ => id, fun hne => absurd rfl hne⟩
  | begin | logAcquire b | finish | endAcquire | endWake => exact fun hne => absurd rfl hne

end

/-- Where a process is in its operation. -/
def phaseOf {C : Type} (s : Sched.State (Label Place) Log Unit Unit C) (p : Slot) : Phase :=
  s.phase (Label.phase phase .idle) .idle p

variable {C : Type} [Fintype C] [DecidableEq C] {start nlog : ℕ} {s : Sched.State (Label Place) Log Unit Unit C}

/-- The state machine of operations: a commit runs alone, the log is empty between transactions,
and no operation sleeps that could be admitted. -/
theorem operations (h : Reachable calls.kernel (Log.init start nlog) .user s) :
    (∀ p, (phaseOf s p).Commits → s.data.outstanding = 0 ∧ s.data.committing = true ∧ ∀ q, phaseOf s q ≠ .op) ∧
    (∀ p, (s.proc p).point ≠ some (.code (.sys (.panic .logCommitting)))) ∧
    (s.data.outstanding = 0 → s.data.committing = false → s.data.lh = []) ∧
    (s.lock () = none → ∀ p, (s.proc p).state = .sleeping → (s.proc p).chan = some (.other ()) →
      s.data.committing = true ∨ logSize < s.data.lh.length + (s.data.outstanding + 1) * maxOpBlocks) := by
  obtain ⟨-, -, a, hreach, hsim⟩ := refines balanced rfl h.heeds
  have ht := tallied hreach
  unfold Tallied at ht
  rw [hsim.data] at ht
  refine ⟨fun p hp => ?_, fun p hp => ?_, ht.empty, fun hfree p hst hch => ?_⟩
  · unfold phaseOf at hp
    rw [← hsim.phase] at hp
    have hc := ht.committing hp
    refine ⟨ht.alone hc, hc, fun q hq => ?_⟩
    unfold phaseOf at hq
    rw [← hsim.phase] at hq
    simp [ht.not_committing hq] at hc
  · rw [← hsim.proc] at hp
    exact (outlined hreach).at_label (.of_reaches balanced rfl hreach) hp (List.mem_singleton_self ()) rfl
  · refine monitor.sleeping balanced rfl (fun a ha => ⟨tallied ha, fun t hta => ?_⟩) h.heeds hfree hst hch
    exact (outlined ha).at_label (.of_reaches balanced rfl ha) hta (List.mem_singleton_self ())

/-- Init is the only process, and commits an operation that has logged a block. -/
theorem operations_commit : ∃ s : Sched.State (Label Place) Log Unit Unit Bool,
    Reachable calls.kernel (Log.init 2 30) .user s ∧ phaseOf s 0 = .commit ∧ s.data.lh = [4] ∧
    s.data.outstanding = 0 ∧ s.data.committing = true := by
  obtain ⟨s, hrun, htest⟩ := exists_run_of_exec (Sched.step calls.kernel) (fun _ _ => True)
    (Sched.boot (Log.init 2 30) .user : Sched.State (Label Place) Log Unit Unit Bool)
    (List.replicate 6 (false, .go 3) ++ List.replicate 5 (false, .go 5) ++ List.replicate 5 (false, .go 0))
    (fun s => decide (phaseOf s 0 = .commit ∧ s.data.lh = [4])) (by decide +kernel)
  obtain ⟨hp, hlh⟩ := of_decide_eq_true htest
  obtain ⟨ho, hc, -⟩ := (operations hrun).1 0 (.inl hp)
  exact ⟨s, hrun, hp, hlh, ho, hc⟩

end Xv6.LogOp
