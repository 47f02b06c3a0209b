import Xv6.Kernel.Log.Preserve

/-! The log on disk along the steps: how far a commit has come, and that what a recovery
would make of the disk is always what has been committed. -/
namespace Xv6
open Lib Function

namespace Pc
variable {d₀ disk mem dur : Disk} {lh : List ℕ} {unpinned : ℕ} {booted : Bool} {pc pc' : Pc}
  {i : BufId}

theorem stage_got (h : pc.Stage d₀ disk mem dur lh unpinned booted) :
    (pc.got i).Stage d₀ disk mem dur lh unpinned booted := by
  cases pc with
  | writeHead w => cases w <;> exact h
  | _ => exact h

theorem stage_puts (h : pc.Stage d₀ disk mem dur lh unpinned booted)
    (hp : pc.puts = some (i, pc')) : pc'.Stage d₀ disk mem dur lh unpinned booted := by
  cases pc <;> simp only [puts, reduceCtorEq, Option.some.injEq, Prod.mk.injEq] at hp
  case writeHeadPut w b =>
    obtain ⟨-, rfl⟩ := hp
    cases w <;> exact h
  all_goals
    obtain ⟨-, rfl⟩ := hp
    exact h

theorem excl_of_loading (h : pc.Loading) : pc.Excl := by
  cases pc <;> simp [Loading, Excl] at h ⊢

end Pc

theorem Copied.mono {disk mem : Disk} {lh : List ℕ} {t t' : ℕ} (h : Copied disk mem lh t)
    (ht : t' ≤ t) : Copied disk mem lh t' :=
  fun k hk => h k (by omega)

theorem Copied.congr {disk disk' mem : Disk} {lh : List ℕ} {t : ℕ} (h : Copied disk mem lh t)
    (hd : ∀ k, k < lh.length → disk' (2 + k + 1) = disk (2 + k + 1)) : Copied disk' mem lh t :=
  fun k hk hk' => by rw [hd k hk', h k hk hk']

theorem not_inLog_ne {n m : ℕ} (hn : ¬ InLog n) (hm : InLog m) : n ≠ m := fun e => hn (e ▸ hm)

theorem inLog_head : InLog 2 := by
  constructor <;> simp [logSize, maxOpBlocks]

namespace Inv
variable {d₀ : Disk} {s s' : State} {p : Pid}

theorem mem_dur_same (ht : s'.trace = s.trace ∨
      ∃ e, s'.trace = s.trace ++ [e] ∧ e.isCommit = false ∧ ∀ m, e.apply m = m) :
    s'.mem d₀ = s.mem d₀ ∧ s'.dur d₀ = s.dur d₀ := by
  unfold State.mem State.dur
  rcases ht with ht | ⟨e, ht, hc, ha⟩
  · rw [ht]
    exact ⟨rfl, rfl⟩
  · rw [ht, replay_concat, ha, committed_concat, if_neg (by simp [hc])]
    exact ⟨rfl, rfl⟩

theorem mem_dur_fill {i : BufId} {pr : Proc} {cache : Bcache} {v : Block} :
    State.mem d₀ ({ s with
      cache
      trace := if (s.proc p).pc = Pc.user then s.trace ++ [Event.bread p (s.cache.buf i).blockno v]
        else s.trace }.setProc p pr) = s.mem d₀ ∧
    State.dur d₀ ({ s with
      cache
      trace := if (s.proc p).pc = Pc.user then s.trace ++ [Event.bread p (s.cache.buf i).blockno v]
        else s.trace }.setProc p pr) = s.dur d₀ := by
  apply mem_dur_same
  by_cases hu : (s.proc p).pc = .user
  · exact .inr ⟨.bread p (s.cache.buf i).blockno v, by simp [hu], rfl, fun _ => rfl⟩
  · exact .inl (by simp [hu])

theorem loading_step (ht : Trans s p s') {q : Pid} (hq : (s.proc q).pc.Loading) :
    (s'.proc q).pc.Loading ∨ ∃ b, q = p ∧ (s.proc p).pc = .readHeadCopy b ∧
      (s'.proc p).pc = .readHeadPut b := by
  by_cases hqp : q = p
  · subst q
    cases ht with
    | get | acquire | put | change => exact .inl (by simpa using hq)
    | fault => exact .inl hq
    | fill hbusy =>
      left
      cases hpc : (s.proc p).pc <;> simp [hpc, Pc.Loading, Pc.got] at hq ⊢
    | release hbusy hheld hp =>
      rcases hp with ⟨hu, -⟩ | hp
      · simp [hu, Pc.Loading] at hq
      · cases hpc : (s.proc p).pc <;> simp [hpc, Pc.Loading, Pc.puts] at hq hp
    | readHeadCopy hbusy hpc => exact .inr ⟨_, rfl, hpc, by simp⟩
    | logWriteCall hpr | beginOp hpr | endOp hpr => simp [hpr, Pc.Loading] at hq
    | logWrite hbusy hpc | commit hbusy hpc | writeLogDone hbusy hpc | writeLogCopy hbusy hpc
    | writeHeadFill hbusy hpc | installTransDone hbusy hpc | installTransCopy hbusy hpc
    | installTransUnpin hbusy hpc | clear hbusy hpc | wakeup hbusy hpc | recovered hbusy hpc =>
      simp [hpc, Pc.Loading] at hq
  · exact .inl (by rwa [proc_ne ht hqp])

theorem not_loading (h : Inv d₀ s) {pc : Pc} (hpc : (s.proc p).pc = pc) (hex : pc.Excl)
    (hl : ¬ pc.Loading) (q : Pid) : ¬ (s.proc q).pc.Loading := by
  intro hq
  obtain rfl := h.control.unique q p (Pc.excl_of_loading hq) (by rwa [hpc])
  exact hl (by rwa [hpc] at hq)

theorem mem_disk_keep (h : Inv d₀ s) {n : ℕ} (hn : ¬ InLog n) (hp : n ∉ s'.pend)
    (hl : ∀ q, (s'.proc q).pc.Loading → n ∉ (s'.disk 2).header) (hmem : s'.mem d₀ = s.mem d₀)
    (hdisk : s'.disk = s.disk) (hpend : s'.pend = s.pend)
    (hload : ∀ q, (s.proc q).pc.Loading → (s'.proc q).pc.Loading) :
    s'.mem d₀ n = s'.disk n := by
  rw [hmem, hdisk]
  refine h.mem_disk n hn (by rwa [← hpend]) fun q hq => ?_
  rw [← hdisk]
  exact hl q (hload q hq)

theorem mem_disk_step (h : Inv d₀ s) (ht : Trans s p s') (n : ℕ) (hn : ¬ InLog n)
    (hp : n ∉ s'.pend) (hl : ∀ q, (s'.proc q).pc.Loading → n ∉ (s'.disk 2).header) :
    s'.mem d₀ n = s'.disk n := by
  have hload := fun q => loading_step ht (q := q)
  have written : ∀ {pc : Pc}, (s.proc p).pc = pc → pc.Excl → ¬ pc.Loading → n ∉ s.pend →
      s.mem d₀ n = s.disk n := fun hpc hex hnl hnp =>
    h.mem_disk n hn hnp fun q hq => absurd hq (h.not_loading hpc hex hnl q)
  cases ht with
  | @fill i hbusy =>
    refine h.mem_disk_keep hn hp hl mem_dur_fill.1 rfl rfl fun q hq => ?_
    rcases hload q hq with hq' | ⟨b, -, hpc, hpc'⟩
    · exact hq'
    · simp [hpc, Pc.got] at hpc'
  | @logWrite b hbusy hpc =>
    have hop := (h.control.logging p b hpc).1
    have hpend : ∀ m, m ∈ (s.log.logWrite (s.cache.buf b).blockno).lh ↔
        m ∈ s.pend ∨ m = (s.cache.buf b).blockno := by
      intro m
      rw [h.pend_of_inOp hop, Log.logWrite]
      split_ifs with hm
      · constructor
        · exact .inl
        · rintro (hm' | rfl) <;> assumption
      · simp
    have hp' : n ∉ (s.log.logWrite (s.cache.buf b).blockno).lh := by
      simpa [State.pend, h.unpinned_of_inOp hop] using hp
    rw [hpend, not_or] at hp'
    have hmem : s.mem d₀ n = s.disk n := h.mem_disk n hn hp'.1 fun q hq =>
      absurd (Pc.excl_of_loading hq) (h.control.not_excl hop q)
    simpa [State.mem, Event.apply, hp'.2] using hmem
  | beginOp hpr hb hc | endOp hpr hb hclean hc =>
    refine h.mem_disk_keep hn hp hl (by simp [State.mem, Event.apply]) rfl rfl fun q hq => ?_
    rcases hload q hq with hq' | ⟨b, -, hpc, -⟩
    · exact hq'
    · simp [hpr] at hpc
  | @writeLogCopy t toBuf fromBuf hbusy hpc hheld =>
    obtain ⟨-, hto⟩ := (h.held p).owned toBuf (2 + t + 1) (by simp [hpc, Pc.owns])
    have hw := (h.held p).within
    rw [hpc] at hw
    have hne := not_inLog_ne hn (Pc.inLog_copy hw.1 hw.2)
    have := written hpc trivial id hp
    simpa [State.mem, Event.apply, hto, hne] using this
  | @writeHeadFill w b hbusy hpc hheld data hdata =>
    obtain ⟨-, hto⟩ := (h.held p).owned b 2 (by simp [hpc, Pc.owns])
    have hne := not_inLog_ne hn inLog_head
    have := written hpc trivial id hp
    cases w <;> simpa [State.mem, Event.apply, hto, hne] using this
  | @installTransCopy w t l d hbusy hpc hheld =>
    obtain ⟨-, hto⟩ := (h.held p).owned d (s.log.lh.getD t 0) (by simp [hpc, Pc.owns])
    have hw := (h.held p).within
    have hst := h.stage p
    rw [hpc] at hw hst
    have hne : n ≠ s.log.lh.getD t 0 := by
      rintro rfl
      apply hp
      simp only [State.pend, State.goto_log, State.store_log, State.goto_unpinned,
        State.store_unpinned, hst.2]
      rw [List.drop_eq_getElem_cons hw.1, getD_of_lt hw.1]
      exact List.mem_cons_self
    have := written hpc trivial id hp
    simp only [State.goto_disk, State.store_disk, hto, update_of_ne hne]
    exact this
  | @installTransUnpin w t l d hbusy hpc =>
    obtain ⟨hlt, hun, -, -, hdisk, -⟩ := h.dst hpc
    by_cases hne : n = s.log.lh.getD t 0
    · rw [hne]
      exact hdisk.symm
    · refine written hpc trivial id fun hm => hp ?_
      simp only [State.pend, State.goto_log, State.goto_unpinned, hun] at hm ⊢
      exact (mem_drop_succ h.lh_nodup hlt n).mpr ⟨hm, hne⟩
  | clear hbusy hpc =>
    have hst := h.stage p
    rw [hpc] at hst
    exact written hpc trivial id (by simp [State.pend, hst.2])
  | @readHeadCopy b hbusy hpc =>
    have hst := h.stage p
    rw [hpc] at hst
    obtain ⟨-, -, -, hdata⟩ := h.owned_data hbusy (i := b) (n := 2) (by simp [hpc, Pc.owns])
    rw [h.view_inLog inLog_head] at hdata
    refine h.mem_disk n hn (by simp [State.pend, hst.1]) fun q _ => ?_
    simpa [State.pend, hst.2.1, hdata] using hp
  | recovered hbusy hpc =>
    have hst := h.stage p
    rw [hpc] at hst
    exact written hpc trivial id (by simp [State.pend, hst.1])
  | _ =>
    refine h.mem_disk_keep hn hp hl rfl rfl rfl fun q hq => ?_
    rcases hload q hq with hq' | ⟨b, -, hpc, hpc'⟩
    · exact hq'
    · simp_all [Pc.puts]

theorem from_data (h : Inv d₀ s) {t : ℕ} {toBuf fromBuf : BufId}
    (hbusy : (s.proc p).busy = .none) (hpc : (s.proc p).pc = .writeLogCopy t toBuf fromBuf) :
    (s.cache.buf fromBuf).blockno = s.log.lh.getD t 0 ∧
      (s.cache.buf fromBuf).data = s.mem d₀ (s.log.lh.getD t 0) := by
  obtain ⟨-, hf, -, hdata⟩ := h.owned_data hbusy (i := fromBuf) (n := s.log.lh.getD t 0)
    (by simp [hpc, Pc.owns])
  have hw := (h.held p).within
  have hst := h.stage p
  rw [hpc] at hw hst
  have hmem : s.log.lh.getD t 0 ∈ s.ahead := by
    rw [ahead_booted (h.booted_of_committing hpc trivial id), State.pend, hst.2.1, List.drop_zero,
      getD_of_lt hw.1]
    exact List.getElem_mem hw.1
  rw [view, if_pos hmem] at hdata
  exact ⟨hf.2, hdata⟩

theorem lbuf_data (h : Inv d₀ s) {w : Caller} {t : ℕ} {l d : BufId}
    (hbusy : (s.proc p).busy = .none) (hpc : (s.proc p).pc = .installTransCopy w t l d) :
    (s.cache.buf d).blockno = s.log.lh.getD t 0 ∧
      (s.cache.buf l).data = s.disk (2 + t + 1) ∧
      (s.cache.buf l).data = s.mem d₀ (s.log.lh.getD t 0) := by
  obtain ⟨-, -, -, hl⟩ := h.owned_data hbusy (i := l) (n := 2 + t + 1) (by simp [hpc, Pc.owns])
  obtain ⟨-, hto⟩ := (h.held p).owned d (s.log.lh.getD t 0) (by simp [hpc, Pc.owns])
  have hw := (h.held p).within
  have hst := h.stage p
  rw [hpc] at hw hst
  rw [h.view_inLog (Pc.inLog_copy hw.1 hw.2)] at hl
  exact ⟨hto, hl, hl.trans (hst.1.copied t hw.1 hw.1)⟩

theorem stage_writeLogCopy (h : Inv d₀ s) {t : ℕ} {toBuf fromBuf : BufId}
    (hbusy : (s.proc p).busy = .none) (hpc : (s.proc p).pc = .writeLogCopy t toBuf fromBuf) :
    Pc.Stage d₀ (update s.disk (s.cache.buf toBuf).blockno (s.cache.buf fromBuf).data)
      (s.mem d₀) (s.dur d₀) s.log.lh s.unpinned s.booted (.writeLogPutFrom t toBuf fromBuf) := by
  obtain ⟨-, hto⟩ := (h.held p).owned toBuf (2 + t + 1) (by simp [hpc, Pc.owns])
  have hst := h.stage p
  rw [hpc] at hst
  obtain ⟨hhead, hun, hcop⟩ := hst
  rw [hto, (h.from_data hbusy hpc).2]
  refine ⟨?_, hun, ?_⟩
  · rwa [update_of_ne (by omega)]
  · intro k hk hk'
    by_cases hkt : k = t
    · subst k
      rw [update_self]
    · rw [update_of_ne (by omega)]
      exact hcop k (by omega) hk'

theorem stage_installTransCopy (h : Inv d₀ s) {w : Caller} {t : ℕ} {l d : BufId}
    (hbusy : (s.proc p).busy = .none) (hpc : (s.proc p).pc = .installTransCopy w t l d) :
    Pc.Stage d₀ (update s.disk (s.cache.buf d).blockno (s.cache.buf l).data)
      (s.mem d₀) (s.dur d₀) s.log.lh s.unpinned s.booted (.installTransUnpin w t l d) := by
  obtain ⟨hto, -, hl⟩ := h.lbuf_data hbusy hpc
  have hst := h.stage p
  have hw := (h.held p).within
  rw [hpc] at hst hw
  obtain ⟨hseal, hun⟩ := hst
  have hhome := Pc.getD_home h.lh_home hw.1
  rw [hto, hl]
  refine ⟨⟨?_, ?_, hseal.durable, hseal.found⟩, hun, update_self ..⟩
  · rw [update_of_ne (not_inLog_ne hhome inLog_head).symm]
    exact hseal.head
  · refine hseal.copied.congr fun k hk => ?_
    rw [update_of_ne (not_inLog_ne hhome (Pc.inLog_copy hk hw.2)).symm]

theorem header_written (h : Inv d₀ s) {b : Block} (hlen : s.log.lh.length < logSize) :
    (b.setHeader s.log.lh).header = s.log.lh :=
  Block.header_setHeader b (hlen.trans (by simp [logSize, maxOpBlocks])) h.lh_small

theorem stage_writeHeadFill (h : Inv d₀ s) {w : HeadUse} {b : BufId}
    (hpc : (s.proc p).pc = .writeHeadFill w b) {data : Block}
    (hdata : data = (s.cache.buf b).data.setHeader s.log.lh) {dur : Disk}
    (hdur : dur = if w = .commit then s.mem d₀ else s.dur d₀) :
    Pc.Stage d₀ (update s.disk (s.cache.buf b).blockno data) (s.mem d₀) dur s.log.lh
      s.unpinned s.booted (.writeHeadPut w b) := by
  obtain ⟨-, hto⟩ := (h.held p).owned b 2 (by simp [hpc, Pc.owns])
  have hst := h.stage p
  have hw := (h.held p).within
  rw [hpc] at hst hw
  have hhead : (update s.disk 2 data 2).header = data.header := by
    rw [update_self]
  rw [hto]
  cases w with
  | commit =>
    obtain ⟨-, hun, hcop⟩ := hst
    refine ⟨⟨?_, ?_, ?_, ?_⟩, hun⟩
    · rw [hhead, hdata, h.header_written hw]
    · exact hcop.congr fun k _ => update_of_ne (by omega) _ _
    · simp [hdur]
    · intro hbt
      rw [h.booted_of_committing hpc trivial (by simp [Pc.Recovering])] at hbt
      simp at hbt
  | erase | recover =>
    refine ⟨hst.1, ?_, hst.2.2⟩
    rw [hhead, hdata, h.header_written (by simp [hst.1, logSize, maxOpBlocks])]
    exact hst.1

theorem stage_readHeadCopy (h : Inv d₀ s) (hd : Recoverable d₀) {b : BufId}
    (hbusy : (s.proc p).busy = .none) (hpc : (s.proc p).pc = .readHeadCopy b) :
    Pc.Stage d₀ s.disk (s.mem d₀) (s.dur d₀) (s.cache.buf b).data.header s.unpinned s.booted
      (.readHeadPut b) := by
  obtain ⟨-, -, -, hdata⟩ := h.owned_data hbusy (i := b) (n := 2) (by simp [hpc, Pc.owns])
  rw [h.view_inLog inLog_head] at hdata
  have hst := h.stage p
  rw [hpc] at hst
  obtain ⟨-, hun, hdisk, hmem, hdur⟩ := hst
  rw [hdata, hmem, hdur, hdisk]
  refine ⟨⟨rfl, ?_, fun _ _ => rfl, fun _ => rfl⟩, hun⟩
  intro k hk _
  rw [getD_of_lt hk, recovered_of_getElem hd.nodup hk]

/-- The stage of the process that makes the step. -/
theorem stage_self (hd : Recoverable d₀) (h : Inv d₀ s) (ht : Trans s p s') :
    (s'.proc p).pc.Stage d₀ s'.disk (s'.mem d₀) (s'.dur d₀) s'.log.lh s'.unpinned s'.booted := by
  have hst := h.stage p
  have moved : ∀ {s' : State} {pr : Proc} {mem dur : Disk},
      s'.proc = update s.proc p pr → s'.mem d₀ = mem → s'.dur d₀ = dur →
      pr.pc.Stage d₀ s'.disk mem dur s'.log.lh s'.unpinned s'.booted →
      (s'.proc p).pc.Stage d₀ s'.disk (s'.mem d₀) (s'.dur d₀) s'.log.lh s'.unpinned s'.booted := by
    intro s' pr mem dur hproc hmem hdur hpr
    rwa [hproc, update_self, hmem, hdur]
  cases ht with
  | get hbusy hn hb | acquire hbusy hfree | put hbusy =>
    exact moved rfl rfl rfl hst
  | fill hbusy =>
    exact moved rfl mem_dur_fill.1 mem_dur_fill.2 (Pc.stage_got hst)
  | release hbusy hheld hp =>
    refine moved rfl rfl rfl ?_
    rcases hp with ⟨-, rfl, -⟩ | hp
    · trivial
    · exact Pc.stage_puts hst hp
  | change data hpr hb hheld hhome | fault hpr hb => exact hst
  | logWriteCall hpr hb hheld hhome | logWrite hbusy hpc | beginOp hpr hb hc | wakeup hbusy hpc
  | recovered hbusy hpc =>
    exact moved rfl rfl rfl trivial
  | endOp hpr hb hclean hc =>
    refine moved rfl rfl rfl ?_
    show Pc.Stage _ _ _ _ _ _ _ (if _ then _ else _)
    split_ifs
    · exact h.idle (h.control.not_excl (p := p) (by rw [hpr]))
    · trivial
  | commit hbusy hpc =>
    rw [hpc] at hst
    refine moved rfl rfl rfl ?_
    show Pc.Stage _ _ _ _ _ _ _ (if _ then _ else _)
    split_ifs with hlen
    · exact ⟨hst.1, hst.2, fun k hk => by omega⟩
    · exact ⟨List.length_eq_zero_iff.mp (Nat.eq_zero_of_not_pos hlen), hst.1, hst.2⟩
  | writeLogDone hbusy hpc hlen =>
    rw [hpc] at hst
    exact moved rfl rfl rfl (⟨hst.1, hst.2.1, hst.2.2.mono hlen⟩)
  | writeLogCopy hbusy hpc hheld =>
    exact moved rfl (by simp [State.mem, Event.apply])
      (by simp [State.dur, committed_concat, Event.isCommit]) (h.stage_writeLogCopy hbusy hpc)
  | @writeHeadFill w b hbusy hpc hheld data hdata =>
    refine moved rfl ?_ rfl (h.stage_writeHeadFill hpc hdata ?_)
    · cases w <;> simp [State.mem, Event.apply]
    · cases w <;> simp [State.mem, State.dur, committed_concat, Event.isCommit, Event.apply]
  | installTransDone hbusy hpc hlen =>
    have hw := (h.held p).within
    rw [hpc] at hst hw
    exact moved rfl rfl rfl (⟨hst.1, hst.2.trans (le_antisymm hw.1 hlen)⟩)
  | installTransCopy hbusy hpc hheld =>
    exact moved rfl rfl rfl (h.stage_installTransCopy hbusy hpc)
  | installTransUnpin hbusy hpc =>
    rw [hpc] at hst
    exact moved rfl rfl rfl (⟨hst.1, congrArg (· + 1) hst.2.1⟩)
  | @clear w hbusy hpc =>
    rw [hpc] at hst
    refine moved rfl rfl rfl ?_
    cases w with
    | commit => exact ⟨rfl, hst.1.durable, rfl⟩
    | recover =>
      refine ⟨rfl, hst.1.durable, ?_⟩
      have hbt := h.booting_of_recovering hpc trivial rfl
      show s.unpinned = _
      rw [hst.2, hst.1.found hbt]
      rfl
  | readHeadCopy hbusy hpc =>
    exact moved rfl rfl rfl (h.stage_readHeadCopy hd hbusy hpc)

theorem stage_step (hd : Recoverable d₀) (h : Inv d₀ s) (ht : Trans s p s') (q : Pid) :
    (s'.proc q).pc.Stage d₀ s'.disk (s'.mem d₀) (s'.dur d₀) s'.log.lh s'.unpinned s'.booted := by
  by_cases hq : q = p
  · subst q
    exact h.stage_self hd ht
  · rw [proc_ne ht hq]
    by_cases hex : (s.proc q).pc.Excl
    · obtain ⟨h1, h2, h3, h4, h5, h6⟩ := h.quiet hq hex ht
      rw [h1, h2, h3, h4, h5, h6]
      exact h.stage q
    · cases hpc : (s.proc q).pc <;> simp [hpc, Pc.Excl] at hex
      all_goals trivial

theorem idle_step (h : Inv d₀ s) (ht : Trans s p s') (hnone : ∀ q, ¬ (s'.proc q).pc.Excl) :
    (s'.disk 2).header = [] ∧ s'.unpinned = 0 := by
  have hst := h.stage p
  have still : ¬ (s.proc p).pc.Excl → (s.disk 2).header = [] ∧ s.unpinned = 0 := fun hp => by
    refine h.idle fun q => ?_
    by_cases hq : q = p
    · rwa [hq]
    · rw [← proc_ne ht hq]
      exact hnone q
  have hp := hnone p
  cases ht with
  | get | acquire | put => exact still (by simpa using hp)
  | fill => exact still (by simpa [Control.excl_got] using hp)
  | release hbusy hheld hpc =>
    rcases hpc with ⟨hu, -⟩ | hpc
    · exact still (by simp [hu, Pc.Excl])
    · have := (Control.puts_excl hpc).2.1
      simp [this] at hp
  | change data hpr | fault hpr | logWriteCall hpr | beginOp hpr | endOp hpr => exact still (by simp [hpr, Pc.Excl])
  | logWrite hbusy hpc => exact still (by simp [hpc, Pc.Excl])
  | commit hbusy hpc =>
    simp only [State.goto_proc, update_self] at hp
    split_ifs at hp <;> simp [Pc.Excl] at hp
  | wakeup hbusy hpc =>
    rw [hpc] at hst
    exact hst.2
  | recovered hbusy hpc =>
    rw [hpc] at hst
    exact ⟨hst.2.1, rfl⟩
  | _ => simp [Pc.Excl] at hp

theorem crash_writeHead {disk mem : Disk} {data : Block}
    (hcop : Copied disk mem data.header data.header.length)
    (hdisk : ∀ n, ¬ InLog n → n ∉ data.header → disk n = mem n) (n : ℕ) (hn : ¬ InLog n) :
    recovered (update disk 2 data) n = mem n := by
  unfold recovered
  rw [update_self]
  split_ifs with hm
  · have hk := List.idxOf_lt_length_of_mem hm
    rw [update_of_ne (by omega), hcop _ hk hk, getD_of_lt hk, List.getElem_idxOf]
  · rw [update_of_ne (not_inLog_ne hn inLog_head), hdisk n hn hm]

theorem crash_install {d : Disk} (hr : Recoverable d) {t : ℕ} (ht : t < (d 2).header.length)
    (n : ℕ) : recovered (update d ((d 2).header.getD t 0) (d (2 + t + 1))) n =
      recovered d n := by
  have hhome := Pc.getD_home hr.home ht
  unfold recovered
  rw [update_of_ne (not_inLog_ne hhome inLog_head).symm]
  split_ifs with hm
  · have hk := List.idxOf_lt_length_of_mem hm
    rw [update_of_ne (not_inLog_ne hhome (Pc.inLog_copy hk hr.room)).symm]
  · rw [update_of_ne]
    rintro rfl
    rw [getD_of_lt ht] at hm
    exact hm (List.getElem_mem ht)

theorem recoverable_of_header {d d' : Disk} (h : Recoverable d)
    (hd : (d' 2).header = (d 2).header) : Recoverable d' := by
  constructor
  · rw [hd]
    exact h.room
  · rw [hd]
    exact h.nodup
  · rw [hd]
    exact h.home

theorem crash_step (h : Inv d₀ s) (ht : Trans s p s') :
    Recoverable s'.disk ∧ ∀ n, ¬ InLog n → recovered s'.disk n = s'.dur d₀ n := by
  have keep : ∀ {s' : State}, s'.disk = s.disk → s'.dur d₀ = s.dur d₀ →
      Recoverable s'.disk ∧ ∀ n, ¬ InLog n → recovered s'.disk n = s'.dur d₀ n := by
    intro s' hdisk hdur
    rw [hdisk, hdur]
    exact ⟨h.recoverable, h.crash⟩
  have hst := h.stage p
  have hw := (h.held p).within
  cases ht with
  | fill => exact keep rfl mem_dur_fill.2
  | logWrite | beginOp | endOp => exact keep rfl (by simp [State.dur, committed_concat, Event.isCommit])
  | @writeLogCopy t toBuf fromBuf hbusy hpc hheld =>
    obtain ⟨-, hto⟩ := (h.held p).owned toBuf (2 + t + 1) (by simp [hpc, Pc.owns])
    rw [hpc] at hst hw
    simp only [State.goto_disk, State.emit_disk, State.store_disk, hto]
    have hhead : (update s.disk (2 + t + 1) (s.cache.buf fromBuf).data 2).header = [] := by
      rw [update_of_ne (by omega)]
      exact hst.1
    refine ⟨Recoverable.of_empty hhead, fun n hn => ?_⟩
    have hcrash := h.crash n hn
    rw [recovered_of_empty hst.1] at hcrash
    rw [recovered_of_empty hhead,
      update_of_ne (not_inLog_ne hn (Pc.inLog_copy hw.1 hw.2)), hcrash]
    simp [State.dur, committed_concat, Event.isCommit]
  | @writeHeadFill w b hbusy hpc hheld data hdata =>
    obtain ⟨-, hto⟩ := (h.held p).owned b 2 (by simp [hpc, Pc.owns])
    rw [hpc] at hst hw
    have hdisk : ∀ n, ¬ InLog n → n ∉ s.log.lh → s.disk n = s.mem d₀ n := fun n hn hm => by
      refine (h.mem_disk n hn (fun hp => hm (List.mem_of_mem_drop hp)) fun q hq => ?_).symm
      exact absurd hq (h.not_loading hpc trivial id q)
    have hlen : s.log.lh.length < logSize ∧
        Copied s.disk (s.mem d₀) s.log.lh s.log.lh.length ∧
        ∀ n, ¬ InLog n → s.mem d₀ n = replay (recovered d₀) (committed
          (if w = .commit then s.trace ++ [.commit] else s.trace)) n := by
      cases w with
      | commit =>
        refine ⟨hw, hst.2.2, fun n _ => ?_⟩
        simp [State.mem, committed_concat, Event.isCommit, Event.apply]
      | erase | recover => exact ⟨by simp [hst.1, logSize, maxOpBlocks], by simp [hst.1, Copied],
          fun n hn => (hst.2.1 n hn).symm⟩
    have hhead : data.header = s.log.lh := by rw [hdata, h.header_written hlen.1]
    simp only [State.goto_disk, State.store_disk, hto]
    constructor
    · constructor <;> rw [update_self, hhead]
      · exact hlen.1
      · exact h.lh_nodup
      · exact h.lh_home
    · intro n hn
      rw [crash_writeHead (by rw [hhead]; exact hlen.2.1) (by rw [hhead]; exact hdisk) n hn,
        hlen.2.2 n hn]
      rfl
  | @installTransCopy w t l d hbusy hpc hheld =>
    obtain ⟨hto, hl, -⟩ := h.lbuf_data hbusy hpc
    rw [hpc] at hst hw
    have hlt : t < (s.disk 2).header.length := by
      rw [hst.1.head]
      exact hw.1
    simp only [State.goto_disk, State.store_disk, hto, hl, ← hst.1.head]
    constructor
    · refine recoverable_of_header h.recoverable ?_
      rw [update_of_ne (not_inLog_ne (Pc.getD_home h.recoverable.home hlt) inLog_head).symm]
    · intro n hn
      rw [crash_install h.recoverable hlt, h.crash n hn]
      rfl
  | _ => exact keep rfl rfl

theorem trace_nil_step (h : Inv d₀ s) (ht : Trans s p s') (hb : s'.booted = false) :
    s'.trace = [] := by
  have hbt := booted_mono ht hb
  have hnil := h.trace_nil hbt
  have hp := h.control.booting hbt p (h.control.first ht hbt)
  cases ht with
  | fill hbusy =>
    have hu : (s.proc p).pc ≠ .user := fun hu => by simp [hu, Pc.Excl] at hp
    simp only [State.setProc_trace, if_neg hu]
    exact hnil
  | logWrite hbusy hpc => simp [hpc, Pc.Excl] at hp
  | beginOp hpr | endOp hpr => simp [hpr, Pc.Excl] at hp
  | writeLogCopy hbusy hpc =>
    have := h.booted_of_committing hpc trivial id
    simp [hbt] at this
  | @writeHeadFill w b hbusy hpc =>
    have hw : w ≠ .commit := by
      rintro rfl
      have := h.booted_of_committing hpc trivial (by simp [Pc.Recovering])
      simp [hbt] at this
    simp only [State.goto_trace, if_neg hw]
    exact hnil
  | recovered => simp at hb
  | _ => exact hnil

theorem trace_inOp_step (h : Inv d₀ s) (ht : Trans s p s') (q : Pid) :
    inOp s'.trace q = (s'.proc q).inOp := by
  have hq := h.trace_inOp q
  cases ht with
  | fill hbusy =>
    simp only [State.setProc_trace, State.setProc_proc]
    by_cases hqp : q = p
    · subst q
      split_ifs <;> simpa using hq
    · split_ifs <;> simpa [hqp] using hq
  | beginOp hpr | endOp hpr =>
    by_cases hqp : q = p
    · subst q
      simp
    · simp [hqp, Ne.symm hqp, hq]
  | @writeHeadFill w b hbusy hpc =>
    by_cases hqp : q = p
    · subst q
      cases w <;> simpa using hq
    · cases w <;> simpa [hqp] using hq
  | _ =>
    by_cases hqp : q = p
    · subst q
      simpa using hq
    · simpa [hqp] using hq

theorem ok_concat {base : Disk} {tr : List Event} {e' : Event}
    (h : ∀ pre e post, tr = pre ++ e :: post → e.Ok base pre) (he : e'.Ok base tr)
    (pre : List Event) (e : Event) (post : List Event) (heq : tr ++ [e'] = pre ++ e :: post) :
    e.Ok base pre := by
  rcases List.eq_nil_or_concat post with rfl | ⟨post', x, rfl⟩
  · obtain ⟨rfl, hx⟩ := List.append_inj' heq rfl
    rw [← List.head_eq_of_cons_eq hx]
    exact he
  · have heq' : tr ++ [e'] = (pre ++ e :: post') ++ [x] := by simpa using heq
    exact h pre e post' (List.append_inj' heq' rfl).1

theorem bread_ok (h : Inv d₀ s) {i : BufId} (hbusy : (s.proc p).busy = .filling i)
    (hu : (s.proc p).pc = .user) (hn : ¬ InLog (s.cache.buf i).blockno) :
    ((s.cache.buf i).filled s.disk).data = s.mem d₀ (s.cache.buf i).blockno := by
  have hlock := h.cache.filling_lock p i hbusy
  have hholds : (s.cache.buf i).Holds (s.cache.buf i).blockno := ⟨h.cache.lock_dev i p hlock, rfl⟩
  have hclean : s.dirty i = false := by
    refine h.data.clean fun q hq _ => ?_
    rw [hlock] at hq
    rwa [← Option.some.inj hq]
  have hbt : s.booted = true := by
    cases hb : s.booted with
    | true => rfl
    | false =>
      have hz : p.val = 0 := by
        by_contra hp
        simp [h.control.quiet hb p hp] at hbusy
      have := h.control.booting hb p hz
      simp [hu, Pc.Excl] at this
  rw [h.data.filled_eq h.cache.unique hholds hclean, view, ahead_booted hbt]
  split_ifs with hm
  · rfl
  · refine (h.mem_disk _ hn hm fun q hq => ?_).symm
    have := h.control.recovering q (Pc.excl_of_loading hq)
    cases hpc : (s.proc q).pc <;> simp [hpc, Pc.Loading, Pc.Recovering, hbt] at hq this

theorem trace_ok_step (h : Inv d₀ s) (ht : Trans s p s') :
    ∀ pre e post, s'.trace = pre ++ e :: post → e.Ok (recovered d₀) pre := by
  cases ht with
  | fill hbusy =>
    simp only [State.setProc_trace]
    split_ifs with hu
    · exact ok_concat h.trace_ok (h.bread_ok hbusy hu)
    · exact h.trace_ok
  | @logWrite b hbusy hpc =>
    refine ok_concat h.trace_ok ?_
    exact (h.trace_inOp p).trans (h.control.logging p b hpc).1
  | beginOp | endOp => exact ok_concat h.trace_ok trivial
  | writeLogCopy hbusy hpc hheld =>
    obtain ⟨hno, hdata⟩ := h.from_data hbusy hpc
    refine ok_concat h.trace_ok ?_
    show _ = s.mem d₀ _
    rw [hno, hdata]
  | writeHeadFill hbusy hpc hheld data hdata =>
    simp only [State.goto_trace]
    split_ifs
    · refine ok_concat h.trace_ok fun q => ?_
      rw [h.trace_inOp q]
      cases hop : (s.proc q).inOp with
      | false => rfl
      | true => exact absurd (by simp [hpc, Pc.Excl]) (h.control.not_excl hop p)
    · exact h.trace_ok
  | _ => exact h.trace_ok

theorem step (hd : Recoverable d₀) (h : Inv d₀ s) (ht : Trans s p s')
    (hboot : s.booted = false → s'.booted = true → (d₀ 2).header = []) : Inv d₀ s' where
  control := h.control.step ht
  cache := h.cache_step hd ht hboot
  data := h.data_step hd ht
  held := h.held_step hd ht
  small := h.small_step hd ht
  lh_nodup := (h.lh_step ht).1
  lh_home n hn := ((h.lh_step ht).2 n hn).1
  lh_small n hn := ((h.lh_step ht).2 n hn).2
  mem_disk := h.mem_disk_step ht
  idle := h.idle_step ht
  stage := h.stage_step hd ht
  recoverable := (h.crash_step ht).1
  crash := (h.crash_step ht).2
  installed := h.installed_step hd ht
  trace_nil := h.trace_nil_step ht
  trace_inOp := h.trace_inOp_step ht
  trace_ok := h.trace_ok_step ht

theorem cacheInv_binit (bias : ℕ → ℕ) : CacheInv Bcache.binit (boot d₀).busy bias where
  linked := Bcache.linked_binit
  unique i j n hi := absurd hi.1 (by simp [Bcache.binit, rootDev])
  refcnt i := by
    have hc : count (Busy.Counts i) (boot d₀).busy = 0 := by
      rw [count_eq_zero]
      intro q
      simp [State.busy, boot, Busy.Counts]
    simp [refs, bonus, hc, Bcache.binit, rootDev]
  lock_dev i q hq := by simp [Bcache.binit] at hq
  getting_dev q i hq := by simp [State.busy, boot] at hq
  filling_lock q i hq := by simp [State.busy, boot] at hq
  held_valid i q hq := by simp [Bcache.binit] at hq

theorem heldBy_boot (q : Pid) : HeldBy (boot d₀) q := by
  have hpc : ((boot d₀).proc q).pc.owns (boot d₀).log.lh = [] ∧
      (∀ b, ((boot d₀).proc q).pc ≠ .logWrite b) ∧
      ((boot d₀).proc q).pc.Within (boot d₀).log.lh := by
    by_cases hq : q = 0 <;> simp [boot, hq, Pc.owns, Pc.Within]
  constructor
  · simp [hpc.1]
  · simp [State.busy, boot]
  · exact fun b hb => absurd hb (hpc.2.1 b)
  · intro _ i hi
    simp [boot, Bcache.binit] at hi
  · exact hpc.2.2

theorem boot (hd : Recoverable d₀) : Inv d₀ (boot d₀) where
  control := Control.boot d₀
  cache := cacheInv_binit _
  data := by
    constructor
    · intro i n hi
      simp [Xv6.boot, Buf.Holds, Bcache.binit, rootDev] at hi
    · simp [State.ahead, Xv6.boot]
    · simp [Xv6.boot]
  held := heldBy_boot
  small i := by simp [Xv6.boot, Bcache.binit]
  lh_nodup := List.nodup_nil
  lh_home := by simp [Xv6.boot, Log.init]
  lh_small := by simp [Xv6.boot, Log.init]
  mem_disk n _ _ hl := by
    have : n ∉ (d₀ 2).header := hl ⟨0, by decide⟩ (by simp [Xv6.boot, Pc.Loading])
    simp only [State.mem, Xv6.boot, replay_nil, recovered]
    rw [if_neg this]
  idle hnone := absurd (by simp [Xv6.boot, Pc.Excl]) (hnone ⟨0, by decide⟩)
  stage q := by
    by_cases hq : q.val = 0
    · simp only [Xv6.boot, hq, if_true]
      exact ⟨rfl, rfl, rfl, rfl, rfl⟩
    · simp only [Xv6.boot, hq, if_false]
      trivial
  recoverable := hd
  crash _ _ := rfl
  installed _ := by simp [Xv6.boot]
  trace_nil _ := rfl
  trace_inOp q := by simp [Xv6.boot]
  trace_ok pre e post h := by simp [Xv6.boot] at h

end Inv

theorem start_step {s s' : State} {p : Pid} (ht : Trans s p s') : s'.log.start = s.log.start := by
  cases ht with
  | logWrite =>
    simp only [State.goto_log, State.emit_log, Log.logWrite]
    split_ifs <;> rfl
  | _ => rfl

theorem inv_of_run {d₀ : Disk} {s : State} (hd : Recoverable d₀) (h : Run step Logged (boot d₀) s)
    (hb : s.booted = true → (d₀ 2).header = []) : Inv d₀ s := by
  have key : s.log.start = 2 ∧ ((s.booted = true → (d₀ 2).header = []) → Inv d₀ s) := by
    refine h.invariant
      (I := fun s => s.log.start = 2 ∧ ((s.booted = true → (d₀ 2).header = []) → Inv d₀ s))
      ⟨rfl, fun _ => Inv.boot hd⟩ ?_
    rintro s ⟨p, a⟩ s' ⟨hstart, hs⟩ hok hst
    have ht := Trans.of_step hstart hok hst
    refine ⟨(start_step ht).trans hstart, fun hb' => ?_⟩
    have hmono : s.booted = true → s'.booted = true := fun hbt => by
      cases hb'' : s'.booted with
      | true => rfl
      | false => rw [Inv.booted_mono ht hb''] at hbt; exact hbt
    exact (hs fun hbt => hb' (hmono hbt)).step hd ht fun _ => hb'
  exact key.2 hb

end Xv6
