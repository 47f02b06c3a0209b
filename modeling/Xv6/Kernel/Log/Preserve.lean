import Xv6.Kernel.Log.Invariant

/-! The contents of cache and disk along the steps, and the invariant of a whole run. -/
namespace Xv6
open Lib Function

namespace Inv
variable {d₀ : Disk} {s s' : State} {p : Pid}

theorem mem_lh_of_ahead {n : ℕ} (hn : n ∈ s.ahead) : n ∈ s.log.lh := by
  unfold State.ahead at hn
  split_ifs at hn
  · exact List.mem_of_mem_drop hn
  · simp at hn

theorem view_inLog (h : Inv d₀ s) {n : ℕ} (hn : InLog n) (disk mem : Disk) :
    view s.ahead disk mem n = disk n := by
  rw [view, if_neg fun hm => h.lh_home n (mem_lh_of_ahead hm) hn]

theorem proc_keep (pr : Proc) (hop : pr.inOp = (s.proc p).inOp)
    (hb : ∀ j, pr.busy = .filling j → (s.proc p).busy = .filling j) (j : BufId) (q : Pid)
    (hq : (s.proc q).inOp = true) (hne : (s.proc q).busy ≠ .filling j) :
    (update s.proc p pr q).inOp = true ∧
      (update s.proc p pr q).busy ≠ .filling j := by
  by_cases hqp : q = p
  · subst q
    rw [update_self]
    exact ⟨hop.trans hq, fun hf => hne (hb j hf)⟩
  · rw [update_of_ne hqp]
    exact ⟨hq, hne⟩

theorem data_goto (h : Inv d₀ s) {pr : Proc} (hproc : s'.proc = update s.proc p pr)
    (hop : pr.inOp = (s.proc p).inOp) (hbusy : pr.busy = (s.proc p).busy)
    (hcache : s'.cache = s.cache) (hdirty : s'.dirty = s.dirty) (hdisk : s'.disk = s.disk)
    (hmem : s'.mem d₀ = s.mem d₀) (hahead : s'.ahead = s.ahead) :
    DataInv s'.cache s'.dirty s'.proc s'.disk (s'.mem d₀) s'.ahead := by
  rw [hcache, hdirty, hdisk, hmem, hahead, hproc]
  refine h.data.keep (fun _ => ⟨rfl, rfl, rfl, rfl⟩) ?_
  intro j q _ hl hq hne
  exact ⟨hl, proc_keep pr hop (fun _ hf => hbusy ▸ hf) j q hq hne⟩

theorem data_op (h : Inv d₀ s) (hcache : s'.cache = s.cache) (hdirty : s'.dirty = s.dirty)
    (hmem : s'.mem d₀ = s.mem d₀) (hdisk : s'.disk = s.disk) (hahead : s'.ahead = s.ahead)
    (hproc : ∀ j q, s.dirty j = true → (s.cache.buf j).lock = some q → (s.proc q).inOp = true →
      (s.proc q).busy ≠ .filling j → (s'.proc q).inOp = true ∧ (s'.proc q).busy ≠ .filling j) :
    DataInv s'.cache s'.dirty s'.proc s'.disk (s'.mem d₀) s'.ahead := by
  rw [hcache, hdirty, hdisk, hmem, hahead]
  exact h.data.keep (fun _ => ⟨rfl, rfl, rfl, rfl⟩)
    fun j q hd hl hq hne => ⟨hl, hproc j q hd hl hq hne⟩

theorem data_store (h : Inv d₀ s) {pr : Proc} {i : BufId} {n : ℕ} {data : Block}
    (hproc : s'.proc = update s.proc p pr) (hop : pr.inOp = (s.proc p).inOp)
    (hbusy : pr.busy = (s.proc p).busy) (hi : (s.cache.buf i).Holds n)
    (hcache : s'.cache = s.cache.update i fun b => { b with data })
    (hdirty : s'.dirty = s.dirty)
    (hdisk : s'.disk = update s.disk (s.cache.buf i).blockno data)
    (hmem : s'.mem d₀ = s.mem d₀) (hahead : s'.ahead = s.ahead)
    (hdata : n ∈ s.ahead → data = s.mem d₀ n) :
    DataInv s'.cache s'.dirty s'.proc s'.disk (s'.mem d₀) s'.ahead := by
  rw [hcache, hdirty, hdisk, hmem, hahead, hproc, hi.2]
  refine (h.data.store data h.cache.unique hi hdata).keep (fun _ => ⟨rfl, rfl, rfl, rfl⟩) ?_
  intro j q _ hl hq hne
  exact ⟨hl, proc_keep pr hop (fun _ hf => hbusy ▸ hf) j q hq hne⟩

theorem data_get (h : Inv d₀ s) {n : ℕ} {i : BufId} {cache : Bcache}
    (hb : s.cache.bget n = .ok (i, cache))
    (hfree : ∀ i, (s.cache.buf i).refcnt = 0 →
      refs s.cache s.busy i = 0 ∧ bonus s.cache (s.bias d₀) i = 0) :
    DataInv cache s.dirty (update s.proc p { s.proc p with busy := .getting i }) s.disk
      (s.mem d₀) s.ahead := by
  have hproc : ∀ j q, (s.proc q).inOp = true → (s.proc q).busy ≠ .filling j →
      (update s.proc p { s.proc p with busy := .getting i } q).inOp = true ∧
        (update s.proc p { s.proc p with busy := .getting i } q).busy ≠ .filling j :=
    proc_keep _ rfl (by simp)
  rcases Bcache.bget_ok h.cache.linked hb with ⟨-, rfl⟩ | ⟨-, hz, rfl⟩
  · refine h.data.keep (fun j => ?_) fun j q _ hl hq hne => ⟨?_, hproc j q hq hne⟩
    · by_cases hj : j = i
      · subst j
        simp [Buf.incr]
      · simp [Bcache.update_ne _ _ hj]
    · rw [← hl]
      exact (HeldBy.same_incr s.cache i j).1
  · obtain ⟨hr, hbonus⟩ := hfree i hz
    refine h.data.rebind (refs_eq_zero hr).1 ?_ hproc
    intro m hm hholds
    rw [bonus, if_pos hholds.1, hholds.2] at hbonus
    unfold State.ahead at hm
    split_ifs at hm with hbt
    · rw [bias_booted hbt, if_pos hm] at hbonus
      omega
    · simp at hm

theorem data_logWrite (h : Inv d₀ s) {b : BufId} (hbusy : (s.proc p).busy = .none)
    (hpc : (s.proc p).pc = .logWrite b) {cache : Bcache}
    (hcache : cache = if (s.cache.buf b).blockno ∈ s.log.lh then s.cache else s.cache.bpin b)
    {pr : Proc} (hop : pr.inOp = (s.proc p).inOp) (hbusy' : pr.busy = (s.proc p).busy)
    (hboot : s'.booted = s.booted) (hun : s'.unpinned = s.unpinned)
    (hlog : s'.log = s.log.logWrite (s.cache.buf b).blockno)
    (hmem : s'.mem d₀ =
      update (s.mem d₀) (s.cache.buf b).blockno (s.cache.buf b).data) :
    DataInv cache (update s.dirty b false) (update s.proc p pr) s.disk
      (s'.mem d₀) s'.ahead := by
  have hin := (h.control.logging p b hpc).1
  have hlock := ((h.held p).logging b hpc).1
  have hbt := h.booted_of_inOp hin
  have hholds : (s.cache.buf b).Holds (s.cache.buf b).blockno := ⟨h.cache.lock_dev b p hlock, rfl⟩
  have hvalid := h.cache.held_valid b p hlock (by simp [State.busy, hbusy])
  have hahead : ∀ m, m ∈ s'.ahead ↔ m ∈ s.ahead ∨ m = (s.cache.buf b).blockno := by
    intro m
    rw [ahead_booted hbt, ahead_booted (hboot.trans hbt), h.pend_of_inOp hin, State.pend, hun,
      h.unpinned_of_inOp hin, List.drop_zero, hlog, Log.logWrite]
    split_ifs with hm
    · constructor
      · exact .inl
      · rintro (hm' | rfl) <;> assumption
    · simp
  rw [hmem]
  refine (h.data.logWrite h.cache.unique hholds hvalid hahead).keep (fun j => ?_)
    fun j q _ hl hq hne => ⟨?_, proc_keep pr hop (fun _ hf => hbusy' ▸ hf) j q hq hne⟩
  · rw [hcache]
    split_ifs
    · simp
    · by_cases hj : j = b
      · subst j
        simp [Bcache.bpin, Buf.incr]
      · simp [Bcache.bpin, Bcache.update_ne _ _ hj]
  · rw [hcache, ← hl]
    split_ifs
    · rfl
    · exact (HeldBy.same_incr s.cache b j).1

theorem data_unpin (h : Inv d₀ s) {w : Caller} {t : ℕ} {l d : BufId}
    (hpc : (s.proc p).pc = .installTransUnpin w t l d) {pr : Proc}
    (hop : pr.inOp = (s.proc p).inOp) (hbusy' : pr.busy = (s.proc p).busy)
    (hboot : s'.booted = s.booted) (hun : s'.unpinned = s.unpinned + 1)
    (hlh : s'.log.lh = s.log.lh) :
    DataInv (s.cache.bunpin d) s.dirty (update s.proc p pr) s.disk (s.mem d₀)
      s'.ahead := by
  obtain ⟨ht, hu, -, -, hdisk, -⟩ := h.dst hpc
  have hahead : ∀ n, n ∈ s'.ahead ↔ n ∈ s.ahead ∧ n ≠ s.log.lh.getD t 0 := by
    intro n
    unfold State.ahead State.pend
    rw [hboot, hun, hlh, hu]
    split_ifs
    · exact mem_drop_succ h.lh_nodup ht n
    · simp
  have hview : ∀ i n, (s.cache.buf i).Holds n →
      view s'.ahead s.disk (s.mem d₀) n = view s.ahead s.disk (s.mem d₀) n := by
    intro i n _
    unfold view
    by_cases hn : n = s.log.lh.getD t 0
    · rw [if_neg fun hm => ((hahead n).mp hm).2 hn, hn, hdisk, ite_self]
    · simp only [hahead, ne_eq, hn, not_false_eq_true, and_true]
  refine (h.data.congr hview fun n hn => ((hahead n).mp hn).1).keep (fun j => ?_)
    fun j q _ hl hq hne => ⟨?_, proc_keep pr hop (fun _ hf => hbusy' ▸ hf) j q hq hne⟩
  · by_cases hj : j = d
    · subst j
      simp [Bcache.bunpin, Buf.decr]
    · simp [Bcache.bunpin, Bcache.update_ne _ _ hj]
  · rw [← hl]
    exact (HeldBy.same_decr s.cache d j).1

theorem data_release (h : Inv d₀ s) {i : BufId} (hclean : s.dirty i = false) {pr : Proc}
    (hop : pr.inOp = (s.proc p).inOp) (hb : ∀ j, pr.busy ≠ .filling j) :
    DataInv (s.cache.update i fun b => { b with lock := none }) s.dirty
      (update s.proc p pr) s.disk (s.mem d₀) s.ahead := by
  refine h.data.keep (fun j => ?_) fun j q hd hl hq hne =>
    ⟨?_, proc_keep pr hop (fun j hf => absurd hf (hb j)) j q hq hne⟩
  · by_cases hj : j = i
    · subst j
      simp
    · simp [Bcache.update_ne _ _ hj]
  · have hj : j ≠ i := fun e => by simp [e, hclean] at hd
    rwa [Bcache.update_ne _ _ hj]

theorem data_acquire (h : Inv d₀ s) {i : BufId} (hfree : (s.cache.buf i).lock = none) :
    DataInv (s.cache.update i fun b => { b with lock := some p }) s.dirty
      (update s.proc p { s.proc p with busy := .filling i }) s.disk (s.mem d₀)
      s.ahead := by
  refine h.data.keep (fun j => ?_) fun j q hd hl hq hne => ?_
  · by_cases hj : j = i
    · subst j
      simp
    · simp [Bcache.update_ne _ _ hj]
  · have hj : j ≠ i := fun e => by simp [e, hfree] at hl
    rw [Bcache.update_ne _ _ hj]
    refine ⟨hl, ?_⟩
    by_cases hqp : q = p
    · subst q
      rw [update_self]
      exact ⟨hq, fun hf => hj (Busy.filling.inj hf).symm⟩
    · rw [update_of_ne hqp]
      exact ⟨hq, hne⟩

theorem data_put (h : Inv d₀ s) (i : BufId) :
    DataInv (s.cache.put i) s.dirty (update s.proc p { s.proc p with busy := .none })
      s.disk (s.mem d₀) s.ahead := by
  refine h.data.keep (fun j => ?_) fun j q hd hl hq hne => ⟨?_, ?_⟩
  · rw [Bcache.put_buf]
    by_cases hj : j = i
    · subst j
      simp [Buf.decr]
    · simp [Bcache.update_ne _ _ hj]
  · rw [Bcache.put_buf, ← hl]
    exact (HeldBy.same_decr s.cache i j).1
  · exact proc_keep { s.proc p with busy := .none } rfl (by simp) j q hq hne

theorem ahead_clear (h : Inv d₀ s) {w : Caller} (hpc : (s.proc p).pc = .clear w)
    (hboot : s'.booted = s.booted) (hlh : s'.log.lh = []) : s'.ahead = s.ahead := by
  have hst := h.stage p
  rw [hpc] at hst
  simp [State.ahead, State.pend, hboot, hlh, hst.2]

theorem data_step (hd : Recoverable d₀) (h : Inv d₀ s) (ht : Trans s p s') :
    DataInv s'.cache s'.dirty s'.proc s'.disk (s'.mem d₀) s'.ahead := by
  have hlt := fun hget i => h.cache.refs_of_refcnt_zero (h.count_lt hd hget ht i)
  cases ht with
  | get hbusy hn hb =>
    refine h.data_get hb (hlt ⟨hbusy, ?_⟩)
    rcases hn with ⟨hu, hbt, -⟩ | hw
    · exact .inl ⟨hu, hbt⟩
    · exact .inr (by simp [hw])
  | acquire hbusy hfree => exact h.data_acquire hfree
  | @fill i hbusy =>
    have hmem : State.mem d₀ ({ s with
        cache := s.cache.update i (Buf.filled s.disk)
        trace := if (s.proc p).pc = Pc.user then s.trace ++ [Event.bread p (s.cache.buf i).blockno
          ((s.cache.buf i).filled s.disk).data] else s.trace }.setProc p
        { s.proc p with pc := (s.proc p).pc.got i, busy := .none }) = s.mem d₀ := by
      by_cases hu : (s.proc p).pc = .user
      · simp [State.mem, hu, Event.apply]
      · simp [State.mem, hu]
    rw [hmem]
    exact h.data.fill h.cache.unique (proc_keep _ rfl (by simp))
  | @release i pc hbusy hheld hpc =>
    refine h.data_release ?_ rfl (by simp)
    rcases hpc with ⟨-, -, -, hclean⟩ | hp
    · exact hclean
    · refine h.data.clean fun q hq hop => ?_
      exact absurd (Control.puts_excl hp).1 (h.control.not_excl hop p)
  | put hbusy => exact h.data_put _
  | change data hpr hb hheld hhome =>
    exact h.data.change data hheld (by rw [hpr]) (by rw [hpr]; simp) hhome
  | fault hpr hb => exact h.data
  | logWriteCall hpr hb hheld hhome | commit hbusy hpc | writeLogDone hbusy hpc ht | installTransDone hbusy hpc ht
  | wakeup hbusy hpc => exact h.data_goto rfl rfl rfl rfl rfl rfl rfl rfl
  | logWrite hbusy hpc =>
    exact h.data_logWrite hbusy hpc rfl rfl rfl rfl rfl rfl (by simp [State.mem, Event.apply])
  | beginOp hpr hb hc =>
    refine h.data_op rfl rfl (by simp [State.mem, Event.apply]) rfl rfl ?_
    intro j q _ hl hq hne
    by_cases hqp : q = p
    · subst q
      simp
    · simp [hqp, hq, hne]
  | endOp hpr hb hclean hc =>
    refine h.data_op rfl rfl (by simp [State.mem, Event.apply]) rfl rfl ?_
    intro j q hdirty hl hq hne
    by_cases hqp : q = p
    · subst q
      simp [hclean j hl] at hdirty
    · simp [hqp, hq, hne]
  | @writeLogCopy t toBuf fromBuf hbusy hpc hheld =>
    obtain ⟨-, hto, -, -⟩ := h.owned_data hbusy (i := toBuf) (n := 2 + t + 1)
      (by simp [hpc, Pc.owns])
    have hw := (h.held p).within
    rw [hpc] at hw
    refine h.data_store rfl rfl rfl hto rfl rfl rfl (by simp [State.mem, Event.apply]) rfl
      fun hm => ?_
    exact absurd (Pc.inLog_copy hw.1 hw.2) (h.lh_home _ (mem_lh_of_ahead hm))
  | @writeHeadFill w b hbusy hpc hheld data hdata =>
    obtain ⟨-, hto, -, -⟩ := h.owned_data hbusy (i := b) (n := 2) (by simp [hpc, Pc.owns])
    refine h.data_store rfl rfl rfl hto rfl rfl rfl ?_ rfl fun hm => ?_
    · unfold State.mem
      simp only [State.goto_trace]
      split_ifs
      · rw [replay_concat]
        rfl
      · rfl
    · exact absurd (by constructor <;> simp [logSize, maxOpBlocks])
        (h.lh_home 2 (mem_lh_of_ahead hm))
  | @installTransCopy w t l d hbusy hpc hheld =>
    obtain ⟨-, -, -, hl⟩ := h.owned_data hbusy (i := l) (n := 2 + t + 1) (by simp [hpc, Pc.owns])
    obtain ⟨-, hto, -, -⟩ := h.owned_data hbusy (i := d) (n := s.log.lh.getD t 0)
      (by simp [hpc, Pc.owns])
    have hw := (h.held p).within
    have hst := h.stage p
    rw [hpc] at hw hst
    refine h.data_store rfl rfl rfl hto rfl rfl rfl rfl rfl fun _ => ?_
    rw [hl, h.view_inLog (Pc.inLog_copy hw.1 hw.2)]
    exact hst.1.copied t hw.1 hw.1
  | installTransUnpin hbusy hpc => exact h.data_unpin hpc rfl rfl rfl rfl rfl
  | clear hbusy hpc =>
    exact h.data_goto rfl rfl rfl rfl rfl rfl rfl (h.ahead_clear hpc rfl rfl)
  | readHeadCopy hbusy hpc =>
    have hbt := h.booting_of_recovering hpc trivial trivial
    refine h.data_goto rfl rfl rfl rfl rfl rfl rfl ?_
    rw [ahead_booting hbt, ahead_booting (by exact hbt)]
  | recovered hbusy hpc =>
    have hbt := h.booting_of_recovering hpc trivial trivial
    have hst := h.stage p
    rw [hpc] at hst
    refine h.data_goto rfl rfl rfl rfl rfl rfl rfl ?_
    rw [ahead_booting hbt, ahead_booted rfl]
    simp [State.pend, hst.1]

end Inv
end Xv6
