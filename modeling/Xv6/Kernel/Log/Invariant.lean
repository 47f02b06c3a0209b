import Xv6.Kernel.Log.Data

/-! The invariant of the block layer over whole runs: counts, contents, and what a crash
at any moment leaves for the recovery. It speaks of runs from a boot on `d₀`; once the
recovery is over it holds on if the log found on `d₀` was empty. -/
namespace Xv6
open Lib Function

namespace State

/-- What has been logged, as a flat array of blocks. -/
def mem (d₀ : Disk) (s : State) : Disk := replay (recovered d₀) s.trace

/-- What has been committed. -/
def dur (d₀ : Disk) (s : State) : Disk := replay (recovered d₀) (committed s.trace)

/-- The logged blocks that await their installation. -/
def pend (s : State) : List ℕ := s.log.lh.drop s.unpinned

/-- The blocks that the cache has and the disk does not; a recovery reads all from disk. -/
def ahead (s : State) : List ℕ := if s.booted = true then s.pend else []

/-- `log_write` counts for one reference; a recovery drops references it never took. -/
def bias (d₀ : Disk) (s : State) (n : ℕ) : ℕ :=
  if s.booted = true then (if n ∈ s.pend then 1 else 0)
  else if n ∈ (d₀ 2).header.take s.unpinned then 2 ^ 32 - 1 else 0

end State

/-- The first `t` blocks of the log hold what was logged for their home blocks. -/
def Copied (disk mem : Disk) (lh : List ℕ) (t : ℕ) : Prop :=
  ∀ k, k < t → k < lh.length → disk (2 + k + 1) = mem (lh.getD k 0)

/-- The group in the log is committed. -/
structure Sealed (d₀ disk mem dur : Disk) (lh : List ℕ) (booted : Bool) : Prop where
  head : (disk 2).header = lh
  copied : Copied disk mem lh lh.length
  durable : ∀ n, ¬ InLog n → dur n = mem n
  found : booted = false → lh = (d₀ 2).header

/-- Where the log on disk stands at each point of `commit` and `recover_from_log`. -/
def Pc.Stage (d₀ disk mem dur : Disk) (lh : List ℕ) (unpinned : ℕ) (booted : Bool) : Pc → Prop
  | .user | .logWrite _ => True
  | .commit => (disk 2).header = [] ∧ unpinned = 0
  | .writeLog t | .writeLogFrom t _ | .writeLogCopy t _ _ =>
    (disk 2).header = [] ∧ unpinned = 0 ∧ Copied disk mem lh t
  | .writeLogPutFrom t _ _ | .writeLogPutTo t _ =>
    (disk 2).header = [] ∧ unpinned = 0 ∧ Copied disk mem lh (t + 1)
  | .writeHead .commit | .writeHeadFill .commit _ =>
    (disk 2).header = [] ∧ unpinned = 0 ∧ Copied disk mem lh lh.length
  | .writeHeadPut .commit _ | .readHeadPut _ =>
    Sealed d₀ disk mem dur lh booted ∧ unpinned = 0
  | .installTrans _ t | .installTransDst _ t _ | .installTransCopy _ t _ _ =>
    Sealed d₀ disk mem dur lh booted ∧ unpinned = t
  | .installTransUnpin _ t _ _ => Sealed d₀ disk mem dur lh booted ∧ unpinned = t ∧
    disk (lh.getD t 0) = mem (lh.getD t 0)
  | .installTransPutL _ t _ _ | .installTransPutD _ t _ =>
    Sealed d₀ disk mem dur lh booted ∧ unpinned = t + 1
  | .clear _ => Sealed d₀ disk mem dur lh booted ∧ unpinned = lh.length
  | .writeHead w | .writeHeadFill w _ => lh = [] ∧ (∀ n, ¬ InLog n → dur n = mem n) ∧
    unpinned = if w = .recover then (d₀ 2).header.length else 0
  | .writeHeadPut w _ => lh = [] ∧ (disk 2).header = [] ∧
    unpinned = if w = .recover then (d₀ 2).header.length else 0
  | .wakeup => lh = [] ∧ (disk 2).header = [] ∧ unpinned = 0
  | .recovered => lh = [] ∧ (disk 2).header = [] ∧ unpinned = (d₀ 2).header.length
  | .readHead | .readHeadCopy _ =>
    lh = [] ∧ unpinned = 0 ∧ disk = d₀ ∧ mem = Xv6.recovered d₀ ∧ dur = Xv6.recovered d₀

/-- The header has not been read yet. -/
def Pc.Loading : Pc → Prop
  | .readHead | .readHeadCopy _ => True
  | _ => False

/-- What each event of a run tells about the events before it. -/
def Event.Ok (base : Disk) (tr : List Event) : Event → Prop
  | .bread _ n v => ¬ InLog n → v = replay base tr n
  | .writeLog n v => v = replay base tr n
  | .logWrite p _ _ => inOp tr p = true
  | .commit => Complete tr
  | _ => True

structure Inv (d₀ : Disk) (s : State) : Prop where
  control : Control s
  cache : CacheInv s.cache s.busy (s.bias d₀)
  data : DataInv s.cache s.dirty s.proc s.disk (s.mem d₀) s.ahead
  held : ∀ q, HeldBy s q
  small : ∀ i, (s.cache.buf i).blockno < 2 ^ 32
  lh_nodup : s.log.lh.Nodup
  lh_home : ∀ n ∈ s.log.lh, ¬ InLog n
  lh_small : ∀ n ∈ s.log.lh, n < 2 ^ 32
  mem_disk : ∀ n, ¬ InLog n → n ∉ s.pend →
    (∀ q, (s.proc q).pc.Loading → n ∉ (s.disk 2).header) → s.mem d₀ n = s.disk n
  idle : (∀ q, ¬ (s.proc q).pc.Excl) → (s.disk 2).header = [] ∧ s.unpinned = 0
  stage : ∀ q,
    (s.proc q).pc.Stage d₀ s.disk (s.mem d₀) (s.dur d₀) s.log.lh s.unpinned s.booted
  recoverable : Recoverable s.disk
  crash : ∀ n, ¬ InLog n → recovered s.disk n = s.dur d₀ n
  installed : s.booted = false → ∀ n ∈ (d₀ 2).header.take s.unpinned,
    ∃ i, (s.cache.buf i).Holds n
  trace_nil : s.booted = false → s.trace = []
  trace_inOp : ∀ q, inOp s.trace q = (s.proc q).inOp
  trace_ok : ∀ pre e post, s.trace = pre ++ e :: post → e.Ok (recovered d₀) pre

theorem busy_update {s s' : State} {p : Pid} {pr : Proc}
    (h : s'.proc = update s.proc p pr) : s'.busy = update s.busy p pr.busy := by
  funext q
  unfold State.busy
  rw [h]
  by_cases hq : q = p
  · subst q
    simp
  · simp [hq]

theorem busy_same {s s' : State} {p : Pid} {pr : Proc}
    (h : s'.proc = update s.proc p pr) (hb : pr.busy = (s.proc p).busy) :
    s'.busy = s.busy := by
  rw [busy_update h, hb]
  exact update_eq_self p s.busy

theorem busy_goto (s : State) (p : Pid) (pc : Pc) : (s.goto p pc).busy = s.busy :=
  busy_same rfl rfl

namespace Inv
variable {d₀ : Disk} {s s' : State} {p : Pid}

theorem bias_booted (hb : s.booted = true) (n : ℕ) :
    s.bias d₀ n = if n ∈ s.pend then 1 else 0 := by
  rw [State.bias, if_pos hb]

theorem bias_booting (hb : s.booted = false) (n : ℕ) :
    s.bias d₀ n = if n ∈ (d₀ 2).header.take s.unpinned then 2 ^ 32 - 1 else 0 := by
  rw [State.bias, if_neg (by simp [hb])]

theorem ahead_booted (hb : s.booted = true) : s.ahead = s.pend := by
  rw [State.ahead, if_pos hb]

theorem ahead_booting (hb : s.booted = false) : s.ahead = [] := by
  rw [State.ahead, if_neg (by simp [hb])]

theorem refs_booting (h : Inv d₀ s) (hb : s.booted = false) (hp : p.val = 0)
    (hbusy : s.busy p = .none) {i : BufId}
    (hi : ∀ n, (i, n) ∉ (s.proc p).pc.owns s.log.lh) : refs s.cache s.busy i = 0 := by
  have hnone : ∀ q, s.busy q = .none := by
    intro q
    by_cases hq : q.val = 0
    · rwa [show q = p from Fin.ext (hq.trans hp.symm)]
    · rw [State.busy, h.control.quiet hb q hq]
  have hcount : count (Busy.Counts i) s.busy = 0 := by
    rw [count_eq_zero]
    intro q
    simp [hnone q, Busy.Counts]
  have hlock : (s.cache.buf i).lock = none := by
    cases hl : (s.cache.buf i).lock with
    | none => rfl
    | some q =>
      rcases (h.held q).alone hb i hl with ⟨n, hn⟩ | hf
      · by_cases hq : q.val = 0
        · obtain rfl : q = p := Fin.ext (hq.trans hp.symm)
          exact absurd hn (hi n)
        · rw [h.control.quiet hb q hq] at hn
          simp [Pc.owns] at hn
      · simp [hnone q] at hf
  simp [refs, hcount, hlock]

theorem inLog_of_wants {pc : Pc} {lh : List ℕ} (hw : (pc.wants lh).isSome = true)
    (hin : pc.Within lh) {i : BufId} {n : ℕ} (ho : (i, n) ∈ pc.owns lh) : InLog n := by
  cases pc <;> simp [Pc.wants, Pc.owns] at hw ho
  all_goals
    obtain ⟨-, rfl⟩ := ho
    exact Pc.inLog_copy hin.1 hin.2

theorem count_lt (hd : Recoverable d₀) (h : Inv d₀ s) (hget : MayGet s p) (ht : Trans s p s')
    (i : BufId) : refs s.cache s.busy i + bonus s.cache (s.bias d₀) i < 2 ^ 32 := by
  cases hb : s.booted with
  | true =>
    have := refs_le s.cache s.busy i
    unfold bonus
    split_ifs
    · rw [bias_booted hb]
      split_ifs <;> omega
    · omega
  | false =>
    have hp := h.control.first ht hb
    by_cases hz : bonus s.cache (s.bias d₀) i = 0
    · have := refs_le s.cache s.busy i
      omega
    · unfold bonus at hz
      split_ifs at hz with hdev
      · rw [bias_booting hb] at hz
        split_ifs at hz with hmem
        · have hhome : ¬ InLog (s.cache.buf i).blockno :=
            hd.home _ (List.mem_of_mem_take hmem)
          have hw : ((s.proc p).pc.wants s.log.lh).isSome = true := by
            rcases hget.2 with ⟨-, hbt⟩ | hw
            · simp [hb] at hbt
            · exact hw
          have hr : refs s.cache s.busy i = 0 := by
            refine h.refs_booting hb hp hget.1 fun n hn => hhome ?_
            rw [((h.held p).owned i n hn).2]
            exact inLog_of_wants hw (h.held p).within hn
          rw [hr, bonus, if_pos hdev, bias_booting hb, if_pos hmem]
          norm_num
        · exact absurd rfl hz
      · exact absurd rfl hz

theorem free (hd : Recoverable d₀) (h : Inv d₀ s) (ht : Trans s p s') (hget : MayGet s p)
    (i : BufId) (hz : (s.cache.buf i).refcnt = 0) : refs s.cache s.busy i = 0 :=
  (h.cache.refs_of_refcnt_zero (h.count_lt hd hget ht i) hz).1

theorem booted_of_inOp (h : Inv d₀ s) (hp : (s.proc p).inOp = true) : s.booted = true := by
  cases hb : s.booted with
  | true => rfl
  | false => exact absurd (h.control.booting hb ⟨0, by decide⟩ rfl) (h.control.not_excl hp _)

theorem unpinned_of_inOp (h : Inv d₀ s) (hp : (s.proc p).inOp = true) : s.unpinned = 0 :=
  (h.idle (h.control.not_excl hp)).2

theorem pend_of_inOp (h : Inv d₀ s) (hp : (s.proc p).inOp = true) : s.pend = s.log.lh := by
  rw [State.pend, h.unpinned_of_inOp hp, List.drop_zero]

section Lists
variable {l : List ℕ} {t : ℕ}

theorem getD_of_lt (ht : t < l.length) : l.getD t 0 = l[t] := by
  rw [List.getD_eq_getElem?_getD, List.getElem?_eq_getElem ht, Option.getD_some]

theorem mem_drop_succ (hnd : l.Nodup) (ht : t < l.length) (n : ℕ) :
    n ∈ l.drop (t + 1) ↔ n ∈ l.drop t ∧ n ≠ l.getD t 0 := by
  have hd := List.drop_eq_getElem_cons ht
  have hn : l[t] ∉ l.drop (t + 1) := by
    have := hnd.sublist (List.drop_sublist t l)
    rw [hd] at this
    exact (List.nodup_cons.mp this).1
  rw [hd, getD_of_lt ht, List.mem_cons]
  constructor
  · intro hm
    exact ⟨.inr hm, fun e => hn (e ▸ hm)⟩
  · rintro ⟨hm | hm, hne⟩
    · exact absurd hm hne
    · exact hm

theorem mem_take_succ (ht : t < l.length) (n : ℕ) :
    n ∈ l.take (t + 1) ↔ n ∈ l.take t ∨ n = l.getD t 0 := by
  rw [List.take_succ_eq_append_getElem ht, getD_of_lt ht, List.mem_append, List.mem_singleton]

theorem getD_notMem_take (hnd : l.Nodup) (ht : t < l.length) : l.getD t 0 ∉ l.take t := by
  have := hnd.sublist (List.take_sublist (t + 1) l)
  rw [List.take_succ_eq_append_getElem ht, List.nodup_append] at this
  rw [getD_of_lt ht]
  intro hm
  exact this.2.2 _ hm _ (by simp) rfl

end Lists

theorem dst (h : Inv d₀ s) {w : Caller} {t : ℕ} {l d : BufId}
    (hpc : (s.proc p).pc = .installTransUnpin w t l d) :
    t < s.log.lh.length ∧ s.unpinned = t ∧ (s.cache.buf d).lock = some p ∧
      (s.cache.buf d).Holds (s.log.lh.getD t 0) ∧
      s.disk (s.log.lh.getD t 0) = s.mem d₀ (s.log.lh.getD t 0) ∧
      (s.booted = false → s.log.lh = (d₀ 2).header) := by
  have hst := h.stage p
  have hw := (h.held p).within
  obtain ⟨hl, hn⟩ := (h.held p).owned d (s.log.lh.getD t 0) (by simp [hpc, Pc.owns])
  rw [hpc] at hst hw
  exact ⟨hw.1, hst.2.1, hl, ⟨h.cache.lock_dev d p hl, hn⟩, hst.2.2, hst.1.found⟩

theorem bias_unpin (h : Inv d₀ s) {w : Caller} {t : ℕ} {l d : BufId}
    (hpc : (s.proc p).pc = .installTransUnpin w t l d) (hb : s'.booted = s.booted)
    (hlh : s'.log.lh = s.log.lh) (hu : s'.unpinned = s.unpinned + 1) (n : ℕ) :
    s'.bias d₀ n = if n = s.log.lh.getD t 0 then (if s.booted = true then 0 else 2 ^ 32 - 1)
      else s.bias d₀ n := by
  obtain ⟨ht, hun, -, -, -, hfound⟩ := h.dst hpc
  unfold State.bias State.pend
  rw [hb, hlh, hu, hun]
  cases hbt : s.booted with
  | true =>
    simp only [if_true, mem_drop_succ h.lh_nodup ht n]
    by_cases hn : n = s.log.lh.getD t 0
    · rw [if_pos hn, if_neg fun hm => hm.2 hn]
    · simp only [ne_eq, hn, not_false_eq_true, and_true, if_false]
  | false =>
    rw [← hfound hbt]
    simp only [Bool.false_eq_true, if_false, mem_take_succ ht n]
    by_cases hn : n = s.log.lh.getD t 0
    · rw [if_pos hn, if_pos (.inr hn)]
    · simp only [hn, or_false, if_false]

theorem cache_unpin (h : Inv d₀ s) {w : Caller} {t : ℕ} {l d : BufId}
    (hpc : (s.proc p).pc = .installTransUnpin w t l d) (hb : s'.booted = s.booted)
    (hlh : s'.log.lh = s.log.lh) (hu : s'.unpinned = s.unpinned + 1) :
    CacheInv (s.cache.bunpin d) s.busy (s'.bias d₀) := by
  obtain ⟨ht, hun, -, hholds, -, hfound⟩ := h.dst hpc
  have hbias := h.bias_unpin hpc hb hlh hu
  have hold : s.bias d₀ (s.log.lh.getD t 0) = if s.booted = true then 1 else 0 := by
    unfold State.bias State.pend
    rw [hun]
    cases hbt : s.booted with
    | true =>
      have : s.log.lh.getD t 0 ∈ s.log.lh.drop t := by
        rw [List.drop_eq_getElem_cons ht, getD_of_lt ht]
        exact List.mem_cons_self
      simp only [if_true, this]
    | false =>
      have := getD_notMem_take h.lh_nodup ht
      rw [← hfound hbt]
      simp only [Bool.false_eq_true, if_false, this]
  refine h.cache.recount p (s.cache.buf d).decr.refcnt ?_ ?_
  · intro j hj
    unfold bonus
    split_ifs with hdev
    · rw [hbias, if_neg]
      intro hn
      exact hj (h.cache.unique j d _ ⟨hdev, hn⟩ hholds)
    · rfl
  · have hr := h.cache.refcnt d
    have hle := refs_le s.cache s.busy d
    rw [bonus, if_pos hholds.1, hholds.2, hold] at hr
    rw [bonus, if_pos hholds.1, hholds.2, hbias, if_pos rfl, Buf.decr_refcnt]
    cases hbt : s.booted with
    | true =>
      simp only [hbt, if_true] at hr ⊢
      split_ifs <;> omega
    | false =>
      simp only [hbt, Bool.false_eq_true, if_false] at hr ⊢
      split_ifs <;> omega

theorem cache_pin (h : Inv d₀ s) {b : BufId} (hpc : (s.proc p).pc = .logWrite b)
    (hb : s'.booted = s.booted) (hu : s'.unpinned = s.unpinned)
    (hlh : s'.log = s.log.logWrite (s.cache.buf b).blockno) :
    CacheInv (if (s.cache.buf b).blockno ∈ s.log.lh then s.cache else s.cache.bpin b) s.busy
      (s'.bias d₀) := by
  have hop := (h.control.logging p b hpc).1
  have hbt := h.booted_of_inOp hop
  have hpend := h.pend_of_inOp hop
  have hdev := h.cache.lock_dev b p ((h.held p).logging b hpc).1
  have hpend' : s'.pend = (s.log.logWrite (s.cache.buf b).blockno).lh := by
    rw [State.pend, hlh, hu, h.unpinned_of_inOp hop, List.drop_zero]
  by_cases hmem : (s.cache.buf b).blockno ∈ s.log.lh
  · have hbias : s'.bias d₀ = s.bias d₀ := by
      funext n
      rw [bias_booted (hb.trans hbt), bias_booted hbt, hpend, hpend', Log.logWrite, if_pos hmem]
    rw [if_pos hmem, hbias]
    exact h.cache
  · have hbias : ∀ n, s'.bias d₀ n = if n = (s.cache.buf b).blockno then 1 else s.bias d₀ n := by
      intro n
      rw [bias_booted (hb.trans hbt), bias_booted hbt, hpend, hpend', Log.logWrite, if_neg hmem]
      by_cases hn : n = (s.cache.buf b).blockno <;> simp [hn]
    rw [if_neg hmem]
    refine h.cache.recount p (s.cache.buf b).incr.refcnt ?_ ?_
    · intro j hj
      unfold bonus
      split_ifs with hdj
      · rw [hbias, if_neg]
        intro hn
        exact hj (h.cache.unique j b _ ⟨hdj, hn⟩ ⟨hdev, rfl⟩)
      · rfl
    · have hr := h.cache.refcnt b
      rw [bonus, if_pos hdev, bias_booted hbt, hpend, if_neg hmem] at hr
      rw [bonus, if_pos hdev, hbias, if_pos rfl, Buf.incr_refcnt, hr]
      omega

theorem cache_step (hd : Recoverable d₀) (h : Inv d₀ s) (ht : Trans s p s')
    (hboot : s.booted = false → s'.booted = true → (d₀ 2).header = []) :
    CacheInv s'.cache s'.busy (s'.bias d₀) := by
  have hlt := fun hget => h.count_lt hd hget ht
  have keep : ∀ {s' : State} {pr : Proc}, s'.proc = update s.proc p pr →
      pr.busy = (s.proc p).busy → s'.bias d₀ = s.bias d₀ →
      CacheInv s'.cache s.busy (s.bias d₀) → CacheInv s'.cache s'.busy (s'.bias d₀) := by
    intro s' pr hproc hbusy hbias hc
    rw [busy_same hproc hbusy, hbias]
    exact hc
  cases ht with
  | @get n i cache hbusy hn hb =>
    rw [busy_update rfl]
    refine h.cache.get hbusy (hlt ⟨hbusy, ?_⟩) ?_ hb
    · rcases hn with ⟨hu, hbt, -⟩ | hw
      · exact .inl ⟨hu, hbt⟩
      · exact .inr (by simp [hw])
    · intro hne
      cases hbt : s.booted with
      | true =>
        have hmem : n ∈ s.ahead := by
          rw [ahead_booted hbt]
          by_contra hn
          exact hne (by rw [State.bias, if_pos (by exact hbt)]; exact if_neg hn)
        obtain ⟨j, hj, -⟩ := h.data.cached n hmem
        exact ⟨j, hj⟩
      | false =>
        refine h.installed hbt n ?_
        by_contra hn
        exact hne (by rw [State.bias, if_neg (by simp [hbt])]; exact if_neg hn)
  | acquire hbusy hfree =>
    rw [busy_update rfl]
    exact h.cache.acquire hbusy hfree
  | @fill i hbusy =>
    rw [busy_update rfl]
    refine h.cache.fill hbusy (Buf.filled s.disk) ?_ ?_ ?_ ?_ ?_ <;> unfold Buf.filled
    · split_ifs <;> rfl
    · split_ifs <;> rfl
    · split_ifs <;> rfl
    · split_ifs <;> rfl
    · split_ifs with hv
      · exact hv
      · rfl
  | release hbusy hheld hpc =>
    rw [busy_update rfl]
    exact h.cache.release hbusy hheld
  | put hbusy =>
    rw [busy_update rfl]
    exact h.cache.put hbusy
  | change data hpr hb hheld hhome => exact h.cache.write data
  | fault hpr hb => exact h.cache
  | logWriteCall hpr hb hheld hhome | commit hbusy hpc | writeLogDone hbusy hpc ht | installTransDone hbusy hpc ht
  | wakeup hbusy hpc => exact keep rfl rfl rfl h.cache
  | logWrite hbusy hpc =>
    rw [busy_goto]
    exact h.cache_pin hpc rfl rfl rfl
  | beginOp hpr hb hc | endOp hpr hb hclean hc => exact keep rfl (by rw [hpr]) rfl h.cache
  | writeLogCopy hbusy hpc hheld | installTransCopy hbusy hpc hheld => exact keep rfl rfl rfl (h.cache.write _)
  | writeHeadFill hbusy hpc hheld data hdata => exact keep rfl rfl rfl (h.cache.write data)
  | installTransUnpin hbusy hpc =>
    rw [busy_goto]
    exact h.cache_unpin hpc rfl rfl rfl
  | @clear w hbusy hpc =>
    refine keep rfl rfl ?_ h.cache
    have hst := h.stage p
    rw [hpc] at hst
    funext n
    cases hbt : s.booted with
    | true =>
      have hw : w = .commit := by
        have := (h.control.recovering p (by simp [hpc, Pc.Excl])).not
        cases w with
        | commit => rfl
        | recover => simp [hpc, hbt, Pc.Recovering] at this
      rw [bias_booted hbt, bias_booted rfl]
      simp [State.pend, hst.2]
    | false =>
      have hw : w = .recover := by
        have := h.control.recovering p (by simp [hpc, Pc.Excl])
        cases w with
        | commit => simp [hpc, hbt, Pc.Recovering] at this
        | recover => rfl
      rw [bias_booting hbt, bias_booting rfl]
      simp [hw]
  | readHeadCopy hbusy hpc =>
    refine keep rfl rfl ?_ h.cache
    have hbt := (h.control.recovering p (by simp [hpc, Pc.Excl])).mp (by simp [hpc, Pc.Recovering])
    funext n
    rw [bias_booting hbt, bias_booting (by exact hbt)]
    rfl
  | recovered hbusy hpc =>
    refine keep rfl rfl ?_ h.cache
    have hbt := (h.control.recovering p (by simp [hpc, Pc.Excl])).mp (by simp [hpc, Pc.Recovering])
    have hst := h.stage p
    rw [hpc] at hst
    funext n
    rw [bias_booting hbt, bias_booted rfl, hboot hbt rfl]
    simp [State.pend, hst.1]

theorem room (h : Inv d₀ s) (hb : s.booted = true) (hu : s.unpinned = 0) {i : BufId}
    (hi : InLog (s.cache.buf i).blockno) : s.log.lh.length < logSize := by
  have hsub : s.log.lh.toFinset ⊆
      (Finset.univ.erase i).image fun j => (s.cache.buf j).blockno := by
    intro n hn
    rw [List.mem_toFinset] at hn
    obtain ⟨j, hj, -⟩ := h.data.cached n (by
      rw [ahead_booted hb, State.pend, hu, List.drop_zero]
      exact hn)
    rw [Finset.mem_image]
    refine ⟨j, ?_, hj.2⟩
    rw [Finset.mem_erase]
    refine ⟨fun e => h.lh_home n hn ?_, Finset.mem_univ j⟩
    rw [← hj.2, e]
    exact hi
  have hcard := (Finset.card_le_card hsub).trans Finset.card_image_le
  rw [List.toFinset_card_of_nodup h.lh_nodup, Finset.card_erase_of_mem (Finset.mem_univ i),
    Finset.card_univ, Fintype.card_fin] at hcard
  simp only [logSize, nbuf, maxOpBlocks] at hcard ⊢
  omega

theorem owned_data (h : Inv d₀ s) (hbusy : s.busy p = .none) {i : BufId} {n : ℕ}
    (ho : (i, n) ∈ (s.proc p).pc.owns s.log.lh) :
    (s.cache.buf i).lock = some p ∧ (s.cache.buf i).Holds n ∧ s.dirty i = false ∧
      (s.cache.buf i).data = view s.ahead s.disk (s.mem d₀) n := by
  obtain ⟨hl, hn⟩ := (h.held p).owned i n ho
  have hex : (s.proc p).pc.Excl := by
    by_contra hex
    rw [(Pc.inert hex _).1] at ho
    simp at ho
  have hclean : s.dirty i = false := by
    refine h.data.clean fun q hq hop => absurd hex ?_
    exact h.control.not_excl hop p
  have hholds : (s.cache.buf i).Holds n := ⟨h.cache.lock_dev i p hl, hn⟩
  have hvalid := h.cache.held_valid i p hl (by rw [hbusy]; simp)
  exact ⟨hl, hholds, hclean, h.data.coh i n hholds hvalid hclean⟩

theorem booting_of_recovering (h : Inv d₀ s) {pc : Pc} (hpc : (s.proc p).pc = pc) (hex : pc.Excl)
    (hrec : pc.Recovering) : s.booted = false := by
  rw [← h.control.recovering p (by rwa [hpc]), hpc]
  exact hrec

theorem booted_of_committing (h : Inv d₀ s) {pc : Pc} (hpc : (s.proc p).pc = pc) (hex : pc.Excl)
    (hrec : ¬ pc.Recovering) : s.booted = true := by
  rw [← hpc, h.control.recovering p (by rwa [hpc])] at hrec
  simpa using hrec

theorem quiet (h : Inv d₀ s) {q : Pid} (hq : q ≠ p) (hex : (s.proc q).pc.Excl)
    (ht : Trans s p s') :
    s'.disk = s.disk ∧ s'.log.lh = s.log.lh ∧ s'.unpinned = s.unpinned ∧ s'.booted = s.booted ∧
      s'.mem d₀ = s.mem d₀ ∧ s'.dur d₀ = s.dur d₀ := by
  have alone : ∀ {pc : Pc}, (s.proc p).pc = pc → ¬ pc.Excl := fun hpc he =>
    hq (h.control.unique q p hex (by rwa [hpc]))
  have hop : (s.proc p).inOp ≠ true := fun hop => h.control.not_excl hop q hex
  cases ht with
  | fill hbusy =>
    refine ⟨rfl, rfl, rfl, rfl, ?_, ?_⟩
    · unfold State.mem
      simp only [State.setProc_trace]
      split_ifs
      · rw [replay_concat]
        rfl
      · rfl
    · unfold State.dur
      simp only [State.setProc_trace]
      split_ifs
      · rw [committed_concat]
        rfl
      · rfl
  | logWrite hbusy hpc => exact absurd (h.control.logging p _ hpc).1 hop
  | beginOp hpr hb hc =>
    refine ⟨rfl, rfl, rfl, rfl, ?_, ?_⟩
    · simp [State.mem, Event.apply]
    · simp [State.dur, committed_concat, Event.isCommit]
  | endOp hpr hb hclean hc => simp [hpr] at hop
  | writeLogCopy hbusy hpc | writeHeadFill hbusy hpc | installTransCopy hbusy hpc | installTransUnpin hbusy hpc
  | clear hbusy hpc | readHeadCopy hbusy hpc | recovered hbusy hpc => exact absurd trivial (alone hpc)
  | _ => exact ⟨rfl, rfl, rfl, rfl, rfl, rfl⟩

theorem proc_ne (ht : Trans s p s') {q : Pid} (hq : q ≠ p) : s'.proc q = s.proc q := by
  cases ht <;> simp [hq]

theorem booted_mono (ht : Trans s p s') (hb : s'.booted = false) : s.booted = false := by
  cases ht <;> first | exact hb | simp at hb

theorem held_step (hd : Recoverable d₀) (h : Inv d₀ s) (ht : Trans s p s') (q : Pid) :
    HeldBy s' q := by
  have hfill := h.cache.filling_lock
  have hfree := h.free hd ht
  by_cases hq : q = p
  · subst q
    refine (h.held p).step h.cache.linked h.control (hfill p) hfree h.lh_home ?_ ?_ ht
    · intro i hl hin hpc
      have hst := h.stage p
      rw [hpc] at hst
      exact h.room (h.booted_of_committing hpc trivial id) hst.2.1 hin
    · intro b hbusy hpc
      obtain ⟨-, -, -, hdata⟩ := h.owned_data hbusy (i := b) (n := 2) (by simp [hpc, Pc.owns])
      rw [hdata, ahead_booting (h.booting_of_recovering hpc trivial trivial)]
      simpa [view] using h.recoverable.room
  · refine (h.held q).frame hq (BufStep.of_trans h.cache.linked (hfill p) hfree ht) (proc_ne ht hq)
      (fun hex => (h.quiet hq hex ht).2.1) (booted_mono ht) (hfill q)

theorem bufStep (hd : Recoverable d₀) (h : Inv d₀ s) (ht : Trans s p s') (i : BufId) :
    BufStep s p i (s'.cache.buf i) :=
  BufStep.of_trans h.cache.linked (h.cache.filling_lock p) (h.free hd ht) ht i

theorem small_step (hd : Recoverable d₀) (h : Inv d₀ s) (ht : Trans s p s') (i : BufId) :
    (s'.cache.buf i).blockno < 2 ^ 32 := by
  cases h.bufStep hd ht i with
  | same _ _ hno | held _ _ hno | taken _ _ _ hno =>
    rw [hno]
    exact h.small i
  | rebound _ _ _ hno =>
    rcases hno with hn | hw
    · exact hn
    · exact Pc.wants_lt hw (h.held p).within h.lh_small

theorem bias_lt (d₀ : Disk) (s : State) (n : ℕ) : s.bias d₀ n < 2 ^ 32 := by
  unfold State.bias
  split_ifs <;> omega

theorem holds_step (hd : Recoverable d₀) (h : Inv d₀ s) (ht : Trans s p s') {i : BufId} {n : ℕ}
    (hi : (s.cache.buf i).Holds n) (hn : s.bias d₀ n ≠ 0) : (s'.cache.buf i).Holds n := by
  cases h.bufStep hd ht i with
  | same _ hdev hno | held _ hdev hno | taken _ _ hdev hno => exact ⟨hdev.trans hi.1, hno.trans hi.2⟩
  | rebound hz hfree =>
    have hr := h.cache.refcnt i
    have := bias_lt d₀ s n
    rw [hz, hfree, bonus, if_pos hi.1, hi.2] at hr
    omega

theorem installed_step (hd : Recoverable d₀) (h : Inv d₀ s) (ht : Trans s p s')
    (hb : s'.booted = false) : ∀ n ∈ (d₀ 2).header.take s'.unpinned,
      ∃ i, (s'.cache.buf i).Holds n := by
  have hbt := booted_mono ht hb
  have keep : ∀ n ∈ (d₀ 2).header.take s.unpinned, ∃ i, (s'.cache.buf i).Holds n := by
    intro n hn
    obtain ⟨i, hi⟩ := h.installed hbt n hn
    refine ⟨i, h.holds_step hd ht hi ?_⟩
    rw [bias_booting hbt, if_pos hn]
    norm_num
  cases ht with
  | @installTransUnpin w t l d hbusy hpc =>
    intro n hn
    obtain ⟨hlt, hun, -, hholds, -, hfound⟩ := h.dst hpc
    rw [hun] at keep
    simp only [State.goto_unpinned, hun, ← hfound hbt, mem_take_succ hlt] at hn
    rcases hn with hn | rfl
    · exact keep n (by rwa [← hfound hbt])
    · refine ⟨d, ?_⟩
      simp only [State.goto_cache, Bcache.bunpin, Bcache.update_self]
      exact hholds
  | @clear w hbusy hpc =>
    cases w with
    | commit => simp
    | recover => exact keep
  | recovered hbusy hpc => simp at hb
  | _ => exact keep

theorem lh_step (h : Inv d₀ s) (ht : Trans s p s') :
    s'.log.lh.Nodup ∧ ∀ n ∈ s'.log.lh, ¬ InLog n ∧ n < 2 ^ 32 := by
  have keep : s.log.lh.Nodup ∧ ∀ n ∈ s.log.lh, ¬ InLog n ∧ n < 2 ^ 32 :=
    ⟨h.lh_nodup, fun n hn => ⟨h.lh_home n hn, h.lh_small n hn⟩⟩
  cases ht with
  | @logWrite b hbusy hpc =>
    simp only [State.goto_log, State.emit_log, Log.logWrite]
    split_ifs with hmem
    · exact keep
    · refine ⟨by simpa using h.lh_nodup.concat hmem, ?_⟩
      intro n hn
      rcases List.mem_append.mp hn with hn | hn
      · exact keep.2 n hn
      · rw [List.mem_singleton] at hn
        subst n
        exact ⟨((h.held p).logging b hpc).2, h.small b⟩
  | clear hbusy hpc => exact ⟨List.nodup_nil, by simp⟩
  | @readHeadCopy b hbusy hpc =>
    obtain ⟨-, -, -, hdata⟩ := h.owned_data hbusy (i := b) (n := 2) (by simp [hpc, Pc.owns])
    rw [ahead_booting (h.booting_of_recovering hpc trivial trivial)] at hdata
    have hhead : (s.cache.buf b).data = s.disk 2 := by simpa [view] using hdata
    simp only [State.goto_log, hhead]
    exact ⟨h.recoverable.nodup, fun n hn => ⟨h.recoverable.home n hn, Block.header_lt _ n hn⟩⟩
  | _ => exact keep

end Inv
end Xv6
