import Xv6.Lib.Run
import Xv6.Kernel.Log.Header
import Mathlib.Algebra.BigOperators.Group.Finset.Basic
import Mathlib.Algebra.Order.BigOperators.Group.Finset

/-! Log-space admission. The machine interleaves the critical sections of any number
of operations; what an operation does between them is left open except for the block
numbers it logs. -/
namespace Xv6.Admission
open Lib

/-- Where an operation stands; `logged` are the distinct blocks it has logged so far. -/
inductive Pc
  | idle
  | running (logged : List ℕ)
  | logging (logged : List ℕ) (blockno : ℕ)
  | commit
  | wake
  deriving DecidableEq

structure State where
  log : Log
  pc : ℕ → Pc

inductive Act
  | beginOp
  | logWrite (blockno : ℕ)
  | endOp
  | run
  deriving DecidableEq

def State.set (s : State) (p : ℕ) (log : Log) (pc : Pc) : State :=
  { log, pc := Function.update s.pc p pc }

/-- The next critical section of process `p`; `commit()` is left with an empty header. -/
def step (s : State) : ℕ × Act → Except Halt State
  | (p, .beginOp) =>
    match s.pc p with
    | .idle => do return s.set p (← s.log.beginOp) (.running [])
    | _ => .error .blocked
  | (p, .logWrite b) =>
    match s.pc p with
    | .running l => do
      s.log.logWriteCheck
      return s.set p s.log (.logging l b)
    | _ => .error .blocked
  | (p, .endOp) =>
    match s.pc p with
    | .running _ => do
      let (log, doCommit) ← s.log.endOp
      return s.set p log (if doCommit then .commit else .idle)
    | _ => .error .blocked
  | (p, .run) =>
    match s.pc p with
    | .logging l b =>
      .ok (s.set p (s.log.logWrite b) (.running (if b ∈ l then l else b :: l)))
    | .commit => .ok (s.set p { s.log with lh := [] } .wake)
    | .wake => .ok (s.set p { s.log with committing := false } .idle)
    | _ => .error .blocked

/-- The premise on the operations: none logs more than `MAXOPBLOCKS` distinct blocks. -/
def Pc.MayLog (b : ℕ) : Pc → Prop
  | .running l => b ∈ l ∨ l.length < maxOpBlocks
  | _ => True

instance (b : ℕ) : (pc : Pc) → Decidable (pc.MayLog b)
  | .running l => inferInstanceAs (Decidable (b ∈ l ∨ l.length < maxOpBlocks))
  | .idle | .logging _ _ | .commit | .wake => .isTrue trivial

def Client (s : State) : ℕ × Act → Prop
  | (p, .logWrite b) => (s.pc p).MayLog b
  | _ => True

instance (s : State) : (a : ℕ × Act) → Decidable (Client s a)
  | (p, .logWrite b) => inferInstanceAs (Decidable ((s.pc p).MayLog b))
  | (_, .beginOp) | (_, .endOp) | (_, .run) => .isTrue trivial

/-- The admission test of `begin_op` made against what `log_write` enforces. -/
def Roomy (s : State) : ℕ × Act → Prop
  | (_, .beginOp) => s.log.lh.length + (s.log.outstanding + 1) * maxOpBlocks < s.log.capacity
  | _ => True

instance (s : State) : (a : ℕ × Act) → Decidable (Roomy s a)
  | (_, .beginOp) =>
    inferInstanceAs (Decidable (s.log.lh.length + (s.log.outstanding + 1) * maxOpBlocks <
      s.log.capacity))
  | (_, .logWrite _) | (_, .endOp) | (_, .run) => .isTrue trivial

/-- The kernel after `initlog` on the image `mkfs` writes: `logstart = 2`, `nlog = LOGSIZE`. -/
def boot : State :=
  { log := Log.init 2 logSize, pc := fun _ => .idle }

/-- How many more blocks an operation may log. -/
def Pc.left : Pc → ℕ
  | .running l => maxOpBlocks - l.length
  | .logging l _ => maxOpBlocks - l.length
  | _ => 0

theorem Pc.left_running (l : List ℕ) : (Pc.running l).left = maxOpBlocks - l.length := rfl

theorem Pc.left_logging (l : List ℕ) (b : ℕ) : (Pc.logging l b).left = maxOpBlocks - l.length :=
  rfl

/-- Between `begin_op` and `end_op`, with the blocks logged so far. -/
def Pc.logged : Pc → Option (List ℕ)
  | .running l => some l
  | .logging l _ => some l
  | _ => none

/-- Inside `commit()` or about to clear `log.committing`. -/
def Pc.Committing : Pc → Prop
  | .commit => True
  | .wake => True
  | _ => False

/-- `ops` are the outstanding operations. The space still reserved for them fits under
the capacity, and everything they have logged is in the header. -/
structure Reserved (s : State) (ops : Finset ℕ) : Prop where
  mem_ops : ∀ p, p ∈ ops ↔ (s.pc p).logged.isSome
  outstanding : s.log.outstanding = ops.card
  room : s.log.lh.length + ∑ p ∈ ops, (s.pc p).left < s.log.capacity
  logged : ∀ p l, (s.pc p).logged = some l → l ⊆ s.log.lh
  budget : ∀ p l b, s.pc p = .logging l b → b ∈ l ∨ l.length < maxOpBlocks
  committing : ∀ p, (s.pc p).Committing → s.log.committing = true ∧ s.log.outstanding = 0
  unique : ∀ p q, (s.pc p).Committing → (s.pc q).Committing → p = q

section Set
variable {s : State} {p : ℕ} {log : Log} {pc : Pc}

@[simp] theorem set_log : (s.set p log pc).log = log := rfl

@[simp] theorem set_pc_self : (s.set p log pc).pc p = pc := by
  simp [State.set]

theorem set_pc_ne {q : ℕ} (h : q ≠ p) : (s.set p log pc).pc q = s.pc q := by
  simp [State.set, h]

theorem sum_left_set (s : State) (log : Log) (pc : Pc) {ops : Finset ℕ} (hp : p ∈ ops) :
    ∑ q ∈ ops, ((s.set p log pc).pc q).left + (s.pc p).left =
      ∑ q ∈ ops, (s.pc q).left + pc.left := by
  rw [← Finset.add_sum_erase ops _ hp, ← Finset.add_sum_erase ops (fun q => (s.pc q).left) hp,
    set_pc_self]
  have : ∑ q ∈ ops.erase p, ((s.set p log pc).pc q).left = ∑ q ∈ ops.erase p, (s.pc q).left :=
    Finset.sum_congr rfl fun q hq => by rw [set_pc_ne (Finset.ne_of_mem_erase hq)]
  omega

theorem sum_left_set_of_notMem {ops : Finset ℕ} (hp : p ∉ ops) :
    ∑ q ∈ ops, ((s.set p log pc).pc q).left = ∑ q ∈ ops, (s.pc q).left :=
  Finset.sum_congr rfl fun q hq => by rw [set_pc_ne (ne_of_mem_of_not_mem hq hp)]

end Set

theorem sum_left_le (s : State) (ops : Finset ℕ) :
    ∑ p ∈ ops, (s.pc p).left ≤ ops.card * maxOpBlocks := by
  refine (Finset.sum_le_card_nsmul ops _ maxOpBlocks fun p _ => ?_).trans (by simp)
  unfold Pc.left
  split <;> omega

namespace Reserved
variable {s s' : State} {ops ops' : Finset ℕ} {p : ℕ} {log : Log} {pc : Pc}

theorem set (h : Reserved s ops)
    (hops : ∀ q, q ∈ ops' ↔ if q = p then pc.logged.isSome = true else q ∈ ops)
    (hout : log.outstanding = ops'.card)
    (hroom : log.lh.length + ∑ q ∈ ops', ((s.set p log pc).pc q).left < log.capacity)
    (hlh : ∀ q ∈ ops, q ≠ p → s.log.lh ⊆ log.lh)
    (hlogged : ∀ l, pc.logged = some l → l ⊆ log.lh)
    (hbudget : ∀ l b, pc = .logging l b → b ∈ l ∨ l.length < maxOpBlocks)
    (hother : ∀ q ≠ p, (s.pc q).Committing → log.committing = true ∧ log.outstanding = 0)
    (hself : pc.Committing → (log.committing = true ∧ log.outstanding = 0) ∧
      ∀ q ≠ p, ¬ (s.pc q).Committing) :
    Reserved (s.set p log pc) ops' := by
  refine ⟨fun q => ?_, hout, hroom, fun q l hl => ?_, fun q l b hq => ?_, fun q hq => ?_,
    fun q r hq hr => ?_⟩
  · rw [hops]
    by_cases hqp : q = p
    · subst q; simp
    · rw [set_pc_ne hqp, if_neg hqp, h.mem_ops]
  · by_cases hqp : q = p
    · subst q; rw [set_pc_self] at hl; exact hlogged l hl
    · rw [set_pc_ne hqp] at hl
      have hq : q ∈ ops := by rw [h.mem_ops, hl]; rfl
      exact List.Subset.trans (h.logged q l hl) (hlh q hq hqp)
  · by_cases hqp : q = p
    · subst q; rw [set_pc_self] at hq; exact hbudget l b hq
    · rw [set_pc_ne hqp] at hq; exact h.budget q l b hq
  · by_cases hqp : q = p
    · subst q; rw [set_pc_self] at hq; exact (hself hq).1
    · rw [set_pc_ne hqp] at hq; exact hother q hqp hq
  · by_cases hqp : q = p <;> by_cases hrp : r = p
    · rw [hqp, hrp]
    · subst q
      rw [set_pc_self] at hq
      rw [set_pc_ne hrp] at hr
      exact absurd hr ((hself hq).2 r hrp)
    · subst r
      rw [set_pc_self] at hr
      rw [set_pc_ne hqp] at hq
      exact absurd hq ((hself hr).2 q hqp)
    · rw [set_pc_ne hqp] at hq
      rw [set_pc_ne hrp] at hr
      exact h.unique q r hq hr

theorem not_committing (h : Reserved s ops) (hc : s.log.committing = false) (q : ℕ) :
    ¬ (s.pc q).Committing := by
  intro hq
  have := (h.committing q hq).1
  simp [hc] at this

theorem mem_iff (h : Reserved s ops) {l : List ℕ} (hl : (s.pc p).logged = some l) : p ∈ ops := by
  rw [h.mem_ops, hl]; rfl

theorem beginOp (h : Reserved s ops) (hok : Roomy s (p, .beginOp)) (hpc : s.pc p = .idle)
    (hb : s.log.beginOp = .ok log) : Reserved (s.set p log (.running [])) (insert p ops) := by
  obtain ⟨hc, -, rfl⟩ := Log.beginOp_ok hb
  have hp : p ∉ ops := by rw [h.mem_ops, hpc]; simp [Pc.logged]
  have hno := h.not_committing hc
  refine h.set (fun q => ?_) ?_ ?_ (fun _ _ _ => List.Subset.refl _) ?_ (by simp)
    (fun q _ hq => absurd hq (hno q)) (by simp [Pc.Committing])
  · by_cases hq : q = p <;> simp [hq, Pc.logged]
  · simp [Finset.card_insert_of_notMem hp, h.outstanding]
  · have hroom : s.log.lh.length + (ops.card + 1) * maxOpBlocks < s.log.capacity := by
      rw [← h.outstanding]; exact hok
    have hle := sum_left_le s ops
    rw [Finset.sum_insert hp, sum_left_set_of_notMem hp]
    rw [set_pc_self, Pc.left_running]
    simp only [List.length_nil, Log.capacity, Nat.add_mul] at *
    omega
  · intro l hl
    obtain rfl : [] = l := Option.some.inj hl
    simp

theorem logWrite (h : Reserved s ops) {l : List ℕ} {b : ℕ} (hpc : s.pc p = .running l)
    (hok : b ∈ l ∨ l.length < maxOpBlocks) : Reserved (s.set p s.log (.logging l b)) ops := by
  have hp : p ∈ ops := h.mem_iff (l := l) (by rw [hpc]; rfl)
  refine h.set (fun q => ?_) h.outstanding ?_ (fun _ _ _ => List.Subset.refl _) ?_ ?_
    (fun q _ hq => h.committing q hq) (by simp [Pc.Committing])
  · by_cases hq : q = p <;> simp [hq, Pc.logged, hp]
  · have hsum := sum_left_set s s.log (.logging l b) hp
    rw [hpc, Pc.left_running, Pc.left_logging] at hsum
    have := h.room
    omega
  · intro l' hl'
    obtain rfl : l = l' := Option.some.inj hl'
    exact h.logged p l (by rw [hpc]; rfl)
  · intro l' b' hb'
    obtain ⟨rfl, rfl⟩ := Pc.logging.inj hb'
    exact hok

theorem append (h : Reserved s ops) {l : List ℕ} {b : ℕ} (hpc : s.pc p = .logging l b) :
    Reserved (s.set p (s.log.logWrite b) (.running (if b ∈ l then l else b :: l))) ops := by
  have hp : p ∈ ops := h.mem_iff (l := l) (by rw [hpc]; rfl)
  have hl : l ⊆ s.log.lh := h.logged p l (by rw [hpc]; rfl)
  have hsub : s.log.lh ⊆ (s.log.logWrite b).lh := by
    unfold Log.logWrite
    split_ifs <;> simp
  have hmem : b ∈ (s.log.logWrite b).lh := by
    unfold Log.logWrite
    split_ifs with hb <;> simp [hb]
  have hcap : (s.log.logWrite b).capacity = s.log.capacity := by simp [Log.capacity]
  refine h.set (fun q => ?_) ?_ ?_ (fun _ _ _ => hsub) ?_ (by simp) ?_ (by simp [Pc.Committing])
  · by_cases hq : q = p <;> simp [hq, Pc.logged, hp]
  · rw [Log.logWrite_outstanding, h.outstanding]
  · have hsum := sum_left_set s (s.log.logWrite b)
      (.running (if b ∈ l then l else b :: l)) hp
    have hbud := h.budget p l b hpc
    have hroom := h.room
    rw [hpc, Pc.left_logging, Pc.left_running] at hsum
    rw [hcap]
    by_cases hbl : b ∈ l
    · have hlen : (s.log.logWrite b).lh.length = s.log.lh.length := by
        simp [Log.logWrite, hl hbl]
      simp only [hbl, if_true] at hsum ⊢
      omega
    · have hlen : (s.log.logWrite b).lh.length ≤ s.log.lh.length + 1 := by
        unfold Log.logWrite
        split_ifs <;> simp
      have hlt : l.length < maxOpBlocks := hbud.resolve_left hbl
      simp only [hbl, if_false, List.length_cons] at hsum ⊢
      omega
  · intro l' hl'
    obtain rfl := Option.some.inj hl'
    split_ifs with hbl
    · exact List.Subset.trans hl hsub
    · exact List.cons_subset.mpr ⟨hmem, List.Subset.trans hl hsub⟩
  · intro q _ hq
    simpa using h.committing q hq

theorem endOp (h : Reserved s ops) {l : List ℕ} {commit : Bool} (hpc : s.pc p = .running l)
    (he : s.log.endOp = .ok (log, commit)) :
    Reserved (s.set p log (if commit then .commit else .idle)) (ops.erase p) := by
  obtain ⟨hc, hcommit, rfl⟩ := Log.endOp_ok he
  have hp : p ∈ ops := h.mem_iff (l := l) (by rw [hpc]; rfl)
  have hno := h.not_committing hc
  have hcard : s.log.outstanding - 1 = (ops.erase p).card := by
    rw [Finset.card_erase_of_mem hp, h.outstanding]
  have hlog : (if commit then Pc.commit else Pc.idle).logged = none := by
    cases commit <;> rfl
  refine h.set (fun q => ?_) hcard ?_ (fun _ _ _ => List.Subset.refl _) ?_ ?_
    (fun q _ hq => absurd hq (hno q)) (fun hcp => ⟨?_, fun q _ => hno q⟩)
  · by_cases hq : q = p <;> simp [hq, hlog]
  · have hroom := h.room
    rw [← Finset.add_sum_erase ops _ hp] at hroom
    rw [sum_left_set_of_notMem (Finset.notMem_erase p ops)]
    simp only [Log.capacity] at *
    omega
  · simp [hlog]
  · intro l' b' hb'
    cases commit <;> simp at hb'
  · cases hcm : commit with
    | false => simp [hcm, Pc.Committing] at hcp
    | true => exact ⟨rfl, by simpa [hcm] using hcommit.symm⟩

theorem commit (h : Reserved s ops) (hpc : (s.pc p).Committing)
    (hlog : pc.logged = none) (hb : ∀ l b, pc ≠ .logging l b)
    (hlen : log.lh.length ≤ s.log.lh.length) (hcap : log.capacity = s.log.capacity)
    (hout : log.outstanding = s.log.outstanding)
    (hcom : pc.Committing → log.committing = true) : Reserved (s.set p log pc) ops := by
  have hz := (h.committing p hpc).2
  obtain rfl : ops = ∅ := Finset.card_eq_zero.mp (by rw [← h.outstanding, hz])
  refine h.set (fun q => ?_) ?_ ?_ (by simp) (by simp [hlog]) (fun l b hl => absurd hl (hb l b))
    (fun q hqp hq => absurd (h.unique q p hq hpc) hqp)
    (fun hp => ⟨⟨hcom hp, by rw [hout, hz]⟩, fun q hqp hq => hqp (h.unique q p hq hpc)⟩)
  · by_cases hq : q = p <;> simp [hq, hlog]
  · rw [hout, h.outstanding]
  · have := h.room
    simp only [Finset.sum_empty] at *
    omega

theorem step (h : Reserved s ops) {a : ℕ × Act} (hc : Client s a) (hr : Roomy s a)
    (hs : Admission.step s a = .ok s') : ∃ ops', Reserved s' ops' := by
  obtain ⟨p, a⟩ := a
  cases a with
  | beginOp =>
    cases hpc : s.pc p with
    | idle =>
      cases hb : s.log.beginOp with
      | error e => simp [Admission.step, hpc, hb, bind, Except.bind] at hs
      | ok log =>
        obtain rfl : s.set p log (.running []) = s' := by
          simpa [Admission.step, hpc, hb, bind, Except.bind, pure, Except.pure] using hs
        exact ⟨_, h.beginOp hr hpc hb⟩
    | _ => simp [Admission.step, hpc] at hs
  | logWrite b =>
    cases hpc : s.pc p with
    | running l =>
      cases hk : s.log.logWriteCheck with
      | error e => simp [Admission.step, hpc, hk, bind, Except.bind] at hs
      | ok u =>
        obtain rfl : s.set p s.log (.logging l b) = s' := by
          simpa [Admission.step, hpc, hk, bind, Except.bind, pure, Except.pure] using hs
        exact ⟨_, h.logWrite hpc (by simpa [Client, hpc, Pc.MayLog] using hc)⟩
    | _ => simp [Admission.step, hpc] at hs
  | endOp =>
    cases hpc : s.pc p with
    | running l =>
      cases he : s.log.endOp with
      | error e => simp [Admission.step, hpc, he, bind, Except.bind] at hs
      | ok r =>
        obtain ⟨log, commit⟩ := r
        obtain rfl : s.set p log (if commit then .commit else .idle) = s' := by
          simpa [Admission.step, hpc, he, bind, Except.bind, pure, Except.pure] using hs
        exact ⟨_, h.endOp hpc he⟩
    | _ => simp [Admission.step, hpc] at hs
  | run =>
    cases hpc : s.pc p with
    | logging l b =>
      simp only [Admission.step, hpc, Except.ok.injEq] at hs
      subst s'
      exact ⟨_, h.append hpc⟩
    | commit =>
      simp only [Admission.step, hpc, Except.ok.injEq] at hs
      subst s'
      have hcm : (s.pc p).Committing := by simp [hpc, Pc.Committing]
      exact ⟨_, h.commit hcm rfl (by simp) (by simp) rfl rfl fun _ => (h.committing p hcm).1⟩
    | wake =>
      simp only [Admission.step, hpc, Except.ok.injEq] at hs
      subst s'
      have hcm : (s.pc p).Committing := by simp [hpc, Pc.Committing]
      exact ⟨_, h.commit hcm rfl (by simp) le_rfl rfl rfl (by simp [Pc.Committing])⟩
    | _ => simp [Admission.step, hpc] at hs

end Reserved

theorem reserved_boot : Reserved boot ∅ where
  mem_ops p := by simp [boot, Pc.logged]
  outstanding := rfl
  room := by decide
  logged p l hl := by simp [boot, Pc.logged] at hl
  budget p l b h := by simp [boot] at h
  committing p h := by simp [boot, Pc.Committing] at h
  unique p q h := by simp [boot, Pc.Committing] at h

/-- While every admission leaves room under the capacity that `log_write` enforces, the
number of logged blocks stays below it, and no `log_write` finds the log full. -/
theorem logWrite_never_tooBig {s : State}
    (h : Run step (fun s a => Client s a ∧ Roomy s a) boot s) :
    s.log.lh.length < s.log.capacity ∧
      ∀ p b, step s (p, .logWrite b) ≠ .error (.panic .tooBigTransaction) := by
  obtain ⟨ops, hr⟩ : ∃ ops, Reserved s ops := by
    refine h.invariant (I := fun s => ∃ ops, Reserved s ops) ⟨∅, reserved_boot⟩ ?_
    rintro s a s' ⟨ops, hs⟩ ⟨hc, hroom⟩ hst
    exact hs.step hc hroom hst
  have hlt : s.log.lh.length < s.log.capacity := by have := hr.room; omega
  refine ⟨hlt, fun p b hb => ?_⟩
  have hck := (Log.logWriteCheck_tooBig s.log).not.mpr (not_le.mpr hlt)
  cases hpc : s.pc p with
  | running l =>
    cases hk : s.log.logWriteCheck with
    | error e =>
      simp [step, hpc, hk, bind, Except.bind] at hb
      exact hck (by rw [hk, hb])
    | ok u => simp [step, hpc, hk, bind, Except.bind, pure, Except.pure] at hb
  | _ => simp [step, hpc] at hb

/-- An operation that logs one block meets the hypotheses. -/
theorem logWrite_never_tooBig_one : ∃ s, Run step (fun s a => Client s a ∧ Roomy s a) boot s ∧
    s.log.lh = [5] ∧ s.log.lh.length < s.log.capacity ∧
      ∀ p b, step s (p, .logWrite b) ≠ .error (.panic .tooBigTransaction) := by
  obtain ⟨s, hrun, hs⟩ := exists_run_of_exec step (fun s a => Client s a ∧ Roomy s a) boot
    [(0, .beginOp), (0, .logWrite 5), (0, .run)] (fun s => s.log.lh = [5])
    (by decide +kernel)
  exact ⟨s, hrun, by simpa using hs, logWrite_never_tooBig hrun⟩

/-- Three operations, each logging ten blocks of its own. -/
def threeFullOps : List (ℕ × Act) :=
  [(0, .beginOp), (1, .beginOp), (2, .beginOp)] ++
    (List.range 29).flatMap fun b => [(b / 10, .logWrite b), (b / 10, .run)]

/-- The thirtieth block of three admitted operations finds the log full. -/
theorem threeFullOps_tooBig : ∃ s, Run step Client boot s ∧ Client s (2, .logWrite 29) ∧
    step s (2, .logWrite 29) = .error (.panic .tooBigTransaction) := by
  obtain ⟨s, hrun, hs⟩ := exists_run_of_exec step Client boot threeFullOps
    (fun s => Client s (2, .logWrite 29) ∧
      ((step s (2, .logWrite 29)).map fun _ => ()) = .error (.panic .tooBigTransaction))
    (by decide +kernel)
  simp only [decide_eq_true_eq] at hs
  exact ⟨s, hrun, hs.1, map_unit_eq_error.mp hs.2⟩

end Xv6.Admission
