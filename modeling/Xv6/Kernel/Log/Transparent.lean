import Xv6.Kernel.Log.Crash

/-! From a boot that finds an empty log, the buffer cache and the log refine a flat array
of blocks, and a cached block outside the log is the block on disk. -/
namespace Xv6
open Lib

variable {d : Disk} {s : State}

theorem inv_of_empty (hd : (d 2).header = []) (h : Run step Logged (boot d) s) : Inv d s :=
  inv_of_run (.of_empty hd) h fun _ => hd

/-- The calls other than `copyin`. -/
def Direct (s : State) (a : Pid × Act) : Prop :=
  Client s a ∧ ∀ b walkaddr d srcva len, a.2 ≠ .copyin b walkaddr d srcva len

instance (s : State) : (a : Pid × Act) → Decidable (Client s a)
  | (_, .bread n) => inferInstanceAs (Decidable (n < 2 ^ 32))
  | (p, .modify b _) =>
    inferInstanceAs (Decidable ((s.proc p).inOp = true ∧ ¬ InLog (s.cache.buf b).blockno))
  | (p, .copyin b _ d _ len) => inferInstanceAs (Decidable ((s.proc p).inOp = true ∧
      ¬ InLog (s.cache.buf b).blockno ∧ d + len ≤ bsize))
  | (p, .logWrite b) => inferInstanceAs (Decidable ((s.proc p).inOp = true ∧
      (s.cache.buf b).lock = some p ∧ ¬ InLog (s.cache.buf b).blockno))
  | (_, .brelse b) => inferInstanceAs (Decidable (s.dirty b = false))
  | (p, .beginOp) => inferInstanceAs (Decidable ((s.proc p).inOp = false))
  | (p, .endOp) => inferInstanceAs (Decidable ((s.proc p).inOp = true ∧
      ∀ b, (s.cache.buf b).lock = some p → s.dirty b = false))
  | (_, .run) => .isTrue trivial

instance (s : State) : (a : Pid × Act) → Decidable (Direct s a)
  | (_, .copyin ..) => .isFalse fun h => h.2 _ _ _ _ _ rfl
  | (p, .bread n) => decidable_of_iff (Client s (p, .bread n)) (by simp [Direct])
  | (p, .modify b v) => decidable_of_iff (Client s (p, .modify b v)) (by simp [Direct])
  | (p, .logWrite b) => decidable_of_iff (Client s (p, .logWrite b)) (by simp [Direct])
  | (p, .brelse b) => decidable_of_iff (Client s (p, .brelse b)) (by simp [Direct])
  | (p, .beginOp) => decidable_of_iff (Client s (p, .beginOp)) (by simp [Direct])
  | (p, .endOp) => decidable_of_iff (Client s (p, .endOp)) (by simp [Direct])
  | (p, .run) => decidable_of_iff (Client s (p, .run)) (by simp [Direct])

theorem Logged.of_direct (s : State) (a : Pid × Act) (h : Direct s a) : Logged s a := by
  obtain ⟨p, a⟩ := a
  refine ⟨h.1, ?_⟩
  cases a with
  | copyin b walkaddr d srcva len => exact absurd rfl (h.2 b walkaddr d srcva len)
  | _ => trivial

/-- The disk of zero bytes. -/
def zeroDisk : Disk := fun _ _ => 0

theorem zeroDisk_header : (zeroDisk 2).header = [] := by decide

/-- The buffer that the first `bread` after such a boot is given. -/
def buf₁ : BufId := ⟨1, by decide⟩

/-- The boot on an empty log, then an operation that logs block 100 and ends. -/
def oneOp : List (Pid × Act) :=
  List.replicate 15 (first, .run) ++ [(first, .beginOp), (first, .bread 100)] ++
    List.replicate 2 (first, .run) ++
    [(first, .modify buf₁ fun _ => 7), (first, .logWrite buf₁), (first, .run),
      (first, .brelse buf₁), (first, .run), (first, .endOp)]

theorem exists_direct_run (as : List (Pid × Act)) (test : State → Bool)
    (h : (exec step Direct (boot zeroDisk) as).any test = true) :
    ∃ s, Run step Logged (boot zeroDisk) s ∧ test s = true := by
  obtain ⟨s, hrun, hs⟩ := exists_run_of_exec step Direct (boot zeroDisk) as test h
  exact ⟨s, hrun.mono Logged.of_direct, hs⟩

/-- One buffer holds a block at a time, the list through the head has every buffer once,
`bread` returns what was logged last, and `write_log` copies it. -/
theorem cache_transparent (hd : (d 2).header = []) (h : Run step Logged (boot d) s) :
    (∀ i j n, (s.cache.buf i).Holds n → (s.cache.buf j).Holds n → i = j) ∧
      s.cache.Linked ∧
      (∀ pre p n v post, s.trace = pre ++ .bread p n v :: post → ¬ InLog n →
        v = replay d pre n) ∧
      (∀ pre n v post, s.trace = pre ++ .writeLog n v :: post → v = replay d pre n) ∧
      ∀ q k, (s.proc q).pc = .writeHead .commit → k < s.log.lh.length →
        s.disk (2 + k + 1) = replay d s.trace (s.log.lh.getD k 0) := by
  have hinv := inv_of_empty hd h
  have hbase := recovered_of_empty hd
  refine ⟨hinv.cache.unique, hinv.cache.linked, ?_, ?_, ?_⟩
  · intro pre p n v post htr hn
    have hok := hinv.trace_ok pre _ post htr
    rw [hbase] at hok
    exact hok hn
  · intro pre n v post htr
    have hok := hinv.trace_ok pre _ post htr
    rwa [hbase] at hok
  · intro q k hpc hk
    have hst := hinv.stage q
    rw [hpc] at hst
    have hcopied := hst.2.2 k hk hk
    rwa [State.mem, hbase] at hcopied

/-- The hypotheses hold after the commit of one block has reached its header write. -/
theorem cache_transparent_oneOp : ∃ s, Run step Logged (boot zeroDisk) s ∧
    (s.proc first).pc = .writeHead .commit ∧ s.log.lh = [100] ∧
      s.disk 3 = replay zeroDisk s.trace 100 := by
  obtain ⟨s, hrun, hs⟩ := exists_direct_run (oneOp ++ List.replicate 13 (first, .run))
    (fun s => (s.proc first).pc = .writeHead .commit ∧ s.log.lh = [100]) (by decide +kernel)
  obtain ⟨hpc, hlh⟩ : (s.proc first).pc = .writeHead .commit ∧ s.log.lh = [100] := by
    simpa using hs
  have h := (cache_transparent zeroDisk_header hrun).2.2.2.2 first 0 hpc (by simp [hlh])
  exact ⟨s, hrun, hpc, hlh, by simpa [hlh] using h⟩

theorem valid_dev (hd : (d 2).header = []) (h : Run step Logged (boot d) s) (i : BufId)
    (hv : (s.cache.buf i).valid = true) : (s.cache.buf i).dev = rootDev := by
  have key : Run step Logged (boot d) s ∧
      ∀ i, (s.cache.buf i).valid = true → (s.cache.buf i).dev = rootDev := by
    refine h.invariant (I := fun s => Run step Logged (boot d) s ∧
      ∀ i, (s.cache.buf i).valid = true → (s.cache.buf i).dev = rootDev) ⟨Run.refl _, ?_⟩ ?_
    · simp [boot, Bcache.binit]
    · rintro s ⟨p, a⟩ s' ⟨hrun, hvalid⟩ hok hst
      refine ⟨hrun.tail hok hst, fun i hv => ?_⟩
      have hinv := inv_of_empty hd hrun
      have ht := Trans.of_step hinv.control.start hok hst
      cases hinv.bufStep (.of_empty hd) ht i with
      | same hval hdev =>
        rw [hdev]
        exact hvalid i (hval ▸ hv)
      | held hheld hdev =>
        rw [hdev]
        exact hinv.cache.lock_dev i p hheld
      | taken _ hwait hdev =>
        rw [hdev]
        exact hinv.cache.getting_dev p i hwait
      | rebound _ _ _ _ hval => simp [hval] at hv
  exact key.2 i hv

/-- While no `copyin` stores a part and then faults, a valid and unlocked buffer whose
block is not in the log holds the bytes on disk. -/
theorem unlogged_eq_disk (hd : (d 2).header = []) (h : Run step Logged (boot d) s) {i : BufId}
    (hv : (s.cache.buf i).valid = true) (hl : (s.cache.buf i).lock = none)
    (hn : (s.cache.buf i).blockno ∉ s.log.lh) :
    (s.cache.buf i).data = s.disk (s.cache.buf i).blockno := by
  have hinv := inv_of_empty hd h
  have hclean : s.dirty i = false := hinv.data.clean (by simp [hl])
  have hahead : (s.cache.buf i).blockno ∉ s.ahead := by
    unfold State.ahead State.pend
    split_ifs
    · exact fun hm => hn (List.mem_of_mem_drop hm)
    · exact List.not_mem_nil
  rw [hinv.data.coh i _ ⟨valid_dev hd h i hv, rfl⟩ hv hclean, view, if_neg hahead]

/-- The hypotheses hold once the commit of one block is over. -/
theorem unlogged_eq_disk_oneOp : ∃ s, Run step Logged (boot zeroDisk) s ∧
    (s.cache.buf buf₁).blockno = 100 ∧
      (s.cache.buf buf₁).data = s.disk 100 := by
  obtain ⟨s, hrun, hs⟩ := exists_direct_run (oneOp ++ List.replicate 40 (first, .run))
    (fun s => (s.cache.buf buf₁).valid ∧ (s.cache.buf buf₁).lock = none ∧
      (s.cache.buf buf₁).blockno = 100 ∧ s.log.lh = []) (by decide +kernel)
  simp only [Bool.decide_and, Bool.decide_eq_true, Bool.and_eq_true, decide_eq_true_eq] at hs
  obtain ⟨hv, hl, hno, hlh⟩ := hs
  have h := unlogged_eq_disk zeroDisk_header hrun hv hl (by simp [hlh])
  exact ⟨s, hrun, hno, by rw [h, hno]⟩

/-- A source of two bytes of which only the first one is mapped. -/
def halfMapped (va : ℕ) : Option Bytes := if va = 0 then some fun _ => 1 else none

/-- A `copyin` that faults on its second page leaves its first byte in the cache only. -/
theorem halfMapped_diverges : ∃ s i, Run step Client (boot zeroDisk) s ∧
    (s.cache.buf i).valid = true ∧ (s.cache.buf i).lock = none ∧
      (s.cache.buf i).blockno ∉ s.log.lh ∧
      (s.cache.buf i).data ≠ s.disk (s.cache.buf i).blockno := by
  obtain ⟨s, hrun, hs⟩ := exists_run_of_exec step Client (boot zeroDisk)
    (List.replicate 15 (first, .run) ++ [(first, .beginOp), (first, .bread 100)] ++
      List.replicate 2 (first, .run) ++
      [(first, .copyin buf₁ halfMapped 0 4095 2), (first, .brelse buf₁)])
    (fun s => (s.cache.buf buf₁).valid ∧ (s.cache.buf buf₁).lock = none ∧
      (s.cache.buf buf₁).blockno ∉ s.log.lh ∧
      (s.cache.buf buf₁).data 0 ≠ s.disk (s.cache.buf buf₁).blockno 0)
    (by decide +kernel)
  simp only [Bool.decide_and, Bool.decide_eq_true, Bool.and_eq_true, decide_eq_true_eq] at hs
  obtain ⟨hv, hl, hno, hne⟩ := hs
  exact ⟨s, buf₁, hrun, hv, hl, hno, fun h => hne (congrFun h 0)⟩

end Xv6
