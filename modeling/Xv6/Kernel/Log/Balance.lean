import Xv6.Kernel.Log.Recovery
import Xv6.Kernel.Log.Shape

/-! The reference counts of the buffers. `install_trans` takes back the reference that
`log_write` took; a recovery runs it on buffers that `log_write` never pinned. -/
namespace Xv6
open Lib

/-- The references to a buffer that are out, plus one for a logged block that has not been
installed yet. -/
def State.owed (s : State) (i : BufId) : ℕ :=
  refs s.cache s.busy i +
    if (s.cache.buf i).dev = rootDev ∧ (s.cache.buf i).blockno ∈ s.pend then 1 else 0

/-- Every count is what is owed, which is one for each logged block while no commit is
under way; and `bget` recycles no buffer that is referenced. -/
structure State.Balanced (s : State) : Prop where
  refcnt : ∀ i, (s.cache.buf i).refcnt = s.owed i
  idle : (∀ q, ¬ (s.proc q).pc.Excl) → s.pend = s.log.lh
  recycled : ∀ n i cache, s.cache.bget n = .ok (i, cache) → ¬ (s.cache.buf i).Holds n →
    refs s.cache s.busy i = 0

variable {d : Disk} {s t : State}

theorem refs_of_recycled (hl : s.cache.Linked) {n : ℕ} {i : BufId} {cache : Bcache}
    (hc : (s.cache.buf i).refcnt = s.owed i) (hget : s.cache.bget n = .ok (i, cache))
    (hno : ¬ (s.cache.buf i).Holds n) : refs s.cache s.busy i = 0 := by
  rcases Bcache.bget_ok hl hget with ⟨hh, -⟩ | ⟨-, hz, -⟩
  · exact absurd hh hno
  · rw [hz, State.owed] at hc
    omega

theorem Inv.refcnt_eq_owed (h : Inv d s) (hb : s.booted = true) (i : BufId) :
    (s.cache.buf i).refcnt = s.owed i := by
  have hle := refs_le s.cache s.busy i
  rw [h.cache.refcnt i, bonus, bias_booted hb, State.owed]
  by_cases hdev : (s.cache.buf i).dev = rootDev
  · by_cases hm : (s.cache.buf i).blockno ∈ s.pend
    · simp only [hdev, hm, and_self, if_true]
      omega
    · simp only [hdev, hm, and_false, if_true, if_false]
      omega
  · simp only [hdev, false_and, if_false]
    omega

theorem balanced_of_run (hd : (d 2).header = []) (h : Run step Client (boot d) s)
    (hb : s.booted = true) : s.Balanced := by
  obtain ⟨t, hrun, hsh, -⟩ := exists_logged_run hd h
  have hinv := inv_of_empty hd hrun
  have hbt : t.booted = true := by
    rw [← hb, ← State.shape_booted, ← hsh, State.shape_booted]
  have hlinked : s.cache.Linked := by
    have hlinks : s.shape.cache.links = t.cache.links := by rw [hsh]; rfl
    show ∃ l, s.shape.cache.links.Ring l ∧ ∀ i, i ∈ l
    rw [hlinks]
    exact hinv.cache.linked
  have hcount : ∀ i, (s.cache.buf i).refcnt = s.owed i := by
    intro i
    show (s.shape.cache.buf i).refcnt = s.shape.owed i
    rw [hsh]
    exact hinv.refcnt_eq_owed hbt i
  constructor
  · exact hcount
  · show (∀ q, ¬ (s.shape.proc q).pc.Excl) → s.shape.pend = s.shape.log.lh
    rw [hsh]
    intro hex
    show t.pend = t.log.lh
    rw [State.pend, (hinv.idle hex).2, List.drop_zero]
  · intro n i cache
    exact refs_of_recycled hlinked (hcount i)

theorem Inv.refcnt_recovered (hd : (d 2).header = []) (h : Inv d s) (hb : s.booted = false)
    (hrec : s.Recovered) (i : BufId) : (s.cache.buf i).refcnt = 0 := by
  have hr : refs s.cache s.busy i = 0 :=
    h.refs_booting hb rfl hrec.2 fun n => by simp [hrec.1, Pc.owns]
  rw [h.cache.refcnt i, hr, bonus, bias_booting hb, hd]
  simp

theorem Inv.refcnt_installed (h : Inv d s) (hb : s.booted = false) (hrec : s.Recovered) {n : ℕ}
    (hn : n ∈ (d 2).header) : ∃ i, (s.cache.buf i).refcnt = 2 ^ 32 - 1 := by
  have hst := h.stage first
  rw [hrec.1] at hst
  have hall : (d 2).header.take s.unpinned = (d 2).header := by
    rw [hst.2.2, List.take_length]
  obtain ⟨i, hi⟩ := h.installed hb n (by rwa [hall])
  have hr : refs s.cache s.busy i = 0 :=
    h.refs_booting hb rfl hrec.2 fun n => by simp [hrec.1, Pc.owns]
  use i
  rw [h.cache.refcnt i, hr, bonus, if_pos hi.1, hi.2, bias_booting hb, hall, if_pos hn]
  norm_num

/-- The recovery leaves the counts right, for then and for good, exactly if it found
nothing to install. -/
theorem refcnt_balanced_iff (hd : Recoverable d) :
    ((∀ s, Run step Client (boot d) s → s.booted = false → s.Recovered →
        ∀ i, (s.cache.buf i).refcnt = 0) ∧
      ∀ s, Run step Client (boot d) s → s.booted = true → s.Balanced) ↔ (d 2).header = [] := by
  constructor
  · rintro ⟨hzero, -⟩
    obtain ⟨s, hrun, hb, hrec⟩ := recovery_returns hd (Run.refl (boot d)) rfl
    have hinv := inv_of_run hd hrun (by simp [hb])
    apply List.eq_nil_iff_forall_not_mem.mpr
    intro n hn
    obtain ⟨i, hi⟩ := hinv.refcnt_installed hb hrec hn
    rw [hzero s (hrun.mono fun _ _ h => h.1) hb hrec i] at hi
    norm_num at hi
  · intro hempty
    constructor
    · intro s hrun hb hrec
      obtain ⟨t, ht, -, hsame⟩ := exists_logged_run hempty hrun
      obtain rfl := hsame hb
      exact (inv_of_empty hempty ht).refcnt_recovered hempty hb hrec
    · intro s hrun hb
      exact balanced_of_run hempty hrun hb

/-- A disk whose log holds one block, for block 100. -/
def oneLogged : Disk := Function.update zeroDisk 2 (Block.setHeader (fun _ => 0) [100])

theorem oneLogged_header : (oneLogged 2).header = [100] := by
  rw [oneLogged, Function.update_self, Block.header_setHeader] <;> simp

theorem oneLogged_recoverable : Recoverable oneLogged := by
  constructor <;> rw [oneLogged_header]
  · decide
  · decide
  · decide

theorem refcnt_balanced_iff_oneLogged : Recoverable oneLogged ∧
    ¬ ((∀ s, Run step Client (boot oneLogged) s → s.booted = false → s.Recovered →
        ∀ i, (s.cache.buf i).refcnt = 0) ∧
      ∀ s, Run step Client (boot oneLogged) s → s.booted = true → s.Balanced) := by
  refine ⟨oneLogged_recoverable, fun h => ?_⟩
  have := (refcnt_balanced_iff oneLogged_recoverable).mp h
  simp [oneLogged_header] at this

/-- The recovery of one block leaves its buffer with the count 0xffffffff. -/
theorem oneLogged_refcnt_wraps : ∃ s i, Run step Client (boot oneLogged) s ∧ s.booted = false ∧
    s.Recovered ∧ (s.cache.buf i).refcnt = 2 ^ 32 - 1 := by
  obtain ⟨s, hrun, hs⟩ := exists_run_of_exec step Client (boot oneLogged)
    (List.replicate 26 (first, .run))
    (fun s => s.booted = false ∧ (s.proc first).pc = .recovered ∧ (s.proc first).busy = .none ∧
      (s.cache.buf ⟨2, by decide⟩).refcnt = 2 ^ 32 - 1) (by decide +kernel)
  simp only [Bool.decide_and, Bool.and_eq_true, decide_eq_true_eq] at hs
  exact ⟨s, _, hrun, hs.1, ⟨hs.2.1, hs.2.2.1⟩, hs.2.2.2⟩

end Xv6
