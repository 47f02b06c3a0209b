import Xv6.Kernel.Log.Replay

/-! The rules that callers of the block layer keep, and the steps a process can make
under them, one case for each kind of step. -/
namespace Xv6
open Lib

/-- A caller reads blocks by `uint` numbers; inside an operation it changes blocks outside
the log, calls `log_write` on each buffer it changed before it releases the buffer or ends
the operation, and asks `copyin` for no more than fits into the block. -/
def Client (s : State) : Pid × Act → Prop
  | (_, .bread n) => n < 2 ^ 32
  | (p, .modify b _) => (s.proc p).inOp = true ∧ ¬ InLog (s.cache.buf b).blockno
  | (p, .copyin b _ d _ len) =>
    (s.proc p).inOp = true ∧ ¬ InLog (s.cache.buf b).blockno ∧ d + len ≤ bsize
  | (p, .logWrite b) => (s.proc p).inOp = true ∧ (s.cache.buf b).lock = some p ∧
    ¬ InLog (s.cache.buf b).blockno
  | (_, .brelse b) => s.dirty b = false
  | (p, .beginOp) => (s.proc p).inOp = false
  | (p, .endOp) => (s.proc p).inOp = true ∧
    ∀ b, (s.cache.buf b).lock = some p → s.dirty b = false
  | (_, .run) => True

/-- A `copyin` that faults has stored nothing before. -/
def Whole (s : State) : Pid × Act → Prop
  | (_, .copyin b walkaddr d srcva len) =>
    (copyin walkaddr (s.cache.buf b).data d srcva len).1 = false →
      (copyin walkaddr (s.cache.buf b).data d srcva len).2 = (s.cache.buf b).data
  | _ => True

/-- Every change that a caller makes to a buffer, it logs. -/
def Logged (s : State) (a : Pid × Act) : Prop := Client s a ∧ Whole s a

/-- The buffer as `bread` returns it. -/
def Buf.filled (disk : Disk) (b : Buf) : Buf :=
  if b.valid then b else { b with data := disk b.blockno, valid := true }

namespace Pc

/-- The process runs `commit` or `recover_from_log`. -/
def Excl : Pc → Prop
  | .user | .logWrite _ => False
  | _ => True

/-- The process runs `recover_from_log`. -/
def Recovering : Pc → Prop
  | .readHead | .readHeadCopy _ | .readHeadPut _ | .recovered => True
  | .installTrans w _ | .installTransDst w _ _ | .installTransCopy w _ _ _
  | .installTransUnpin w _ _ _ | .installTransPutL w _ _ _ | .installTransPutD w _ _
  | .clear w => w = .recover
  | .writeHead w | .writeHeadFill w _ | .writeHeadPut w _ => w = .recover
  | _ => False

/-- The block that the process passes to `bread` next. -/
def wants (lh : List ℕ) : Pc → Option ℕ
  | .writeLog t | .installTrans _ t => if t < lh.length then some (2 + t + 1) else none
  | .writeLogFrom t _ | .installTransDst _ t _ => some (lh.getD t 0)
  | .writeHead _ | .readHead => some 2
  | _ => none

/-- The buffers the process has locked, with the blocks they are bound to. -/
def owns (lh : List ℕ) : Pc → List (BufId × ℕ)
  | .writeLogFrom t b | .writeLogPutTo t b | .installTransDst _ t b => [(b, 2 + t + 1)]
  | .writeLogCopy t b d | .writeLogPutFrom t b d | .installTransCopy _ t b d
  | .installTransUnpin _ t b d | .installTransPutL _ t b d =>
    [(b, 2 + t + 1), (d, lh.getD t 0)]
  | .installTransPutD _ t d => [(d, lh.getD t 0)]
  | .writeHeadFill _ b | .writeHeadPut _ b | .readHeadCopy b | .readHeadPut b => [(b, 2)]
  | _ => []

/-- The buffer that the process passes to `brelse` next, and where it goes on. -/
def puts : Pc → Option (BufId × Pc)
  | .writeLogPutFrom t b d => some (d, .writeLogPutTo t b)
  | .writeLogPutTo t b => some (b, .writeLog (t + 1))
  | .writeHeadPut w b => some (b, State.afterHead w)
  | .installTransPutL w t l d => some (l, .installTransPutD w t d)
  | .installTransPutD w t d => some (d, .installTrans w (t + 1))
  | .readHeadPut b => some (b, .installTrans .recover 0)
  | _ => none

end Pc

/-- The steps of process `p`. -/
inductive Trans (s : State) (p : Pid) : State → Prop
  | get {n i cache} (hbusy : (s.proc p).busy = .none)
      (hn : (s.proc p).pc = .user ∧ s.booted ∧ n < 2 ^ 32 ∨
        (s.proc p).pc.wants s.log.lh = some n) (hb : s.cache.bget n = .ok (i, cache)) :
      Trans s p ({ s with cache }.wait p (.getting i))
  | acquire {i} (hbusy : (s.proc p).busy = .getting i) (hfree : (s.cache.buf i).lock = none) :
      Trans s p ((s.setBuf i fun b => { b with lock := some p }).wait p (.filling i))
  | fill {i} (hbusy : (s.proc p).busy = .filling i) :
      Trans s p ({ s with
        cache := s.cache.update i (Buf.filled s.disk)
        trace := if (s.proc p).pc = Pc.user then s.trace ++ [Event.bread p (s.cache.buf i).blockno
          ((s.cache.buf i).filled s.disk).data] else s.trace }.setProc p
        { s.proc p with pc := (s.proc p).pc.got i, busy := .none })
  | release {i pc} (hbusy : (s.proc p).busy = .none) (hheld : (s.cache.buf i).lock = some p)
      (hpc : (s.proc p).pc = .user ∧ pc = .user ∧ s.booted ∧ s.dirty i = false ∨
        (s.proc p).pc.puts = some (i, pc)) :
      Trans s p ((s.setBuf i fun b => { b with lock := none }).setProc p
        { s.proc p with pc, busy := .putting i })
  | put {i} (hbusy : (s.proc p).busy = .putting i) :
      Trans s p ({ s with cache := s.cache.put i }.wait p .none)
  | change {b} (data : Block) (hpr : s.proc p = ⟨true, .user, .none⟩) (hboot : s.booted)
      (hheld : (s.cache.buf b).lock = some p) (hhome : ¬ InLog (s.cache.buf b).blockno) :
      Trans s p { s.setBuf b (fun x => { x with data }) with
                  dirty := Function.update s.dirty b true }
  | fault (hpr : s.proc p = ⟨true, .user, .none⟩) (hboot : s.booted) : Trans s p s
  | logWriteCall {b} (hpr : s.proc p = ⟨true, .user, .none⟩) (hboot : s.booted)
      (hheld : (s.cache.buf b).lock = some p) (hhome : ¬ InLog (s.cache.buf b).blockno) :
      Trans s p (s.goto p (.logWrite b))
  | logWrite {b} (hbusy : (s.proc p).busy = .none) (hpc : (s.proc p).pc = .logWrite b) :
      Trans s p (({ s with
        cache := if (s.cache.buf b).blockno ∈ s.log.lh then s.cache else s.cache.bpin b
        log := s.log.logWrite (s.cache.buf b).blockno
        dirty := Function.update s.dirty b false }.emit
          (.logWrite p (s.cache.buf b).blockno (s.cache.buf b).data)).goto p .user)
  | beginOp (hpr : s.proc p = ⟨false, .user, .none⟩) (hboot : s.booted)
      (hc : s.log.committing = false) :
      Trans s p (({ s with log := { s.log with outstanding := s.log.outstanding + 1 } }.setProc p
        ⟨true, .user, .none⟩).emit (.beginOp p))
  | endOp (hpr : s.proc p = ⟨true, .user, .none⟩) (hboot : s.booted)
      (hclean : ∀ b, (s.cache.buf b).lock = some p → s.dirty b = false)
      (hc : s.log.committing = false) :
      Trans s p (({ s with log := { s.log with
          outstanding := s.log.outstanding - 1
          committing := decide (s.log.outstanding - 1 = 0) } }.setProc p
        ⟨false, if s.log.outstanding - 1 = 0 then .commit else .user, .none⟩).emit (.endOp p))
  | commit (hbusy : (s.proc p).busy = .none) (hpc : (s.proc p).pc = .commit) :
      Trans s p (s.goto p (if 0 < s.log.lh.length then .writeLog 0 else .wakeup))
  | writeLogDone {t} (hbusy : (s.proc p).busy = .none) (hpc : (s.proc p).pc = .writeLog t)
      (ht : s.log.lh.length ≤ t) : Trans s p (s.goto p (.writeHead .commit))
  | writeLogCopy {t toBuf fromBuf} (hbusy : (s.proc p).busy = .none)
      (hpc : (s.proc p).pc = .writeLogCopy t toBuf fromBuf)
      (hheld : (s.cache.buf toBuf).lock = some p) :
      Trans s p (((s.store toBuf (s.cache.buf fromBuf).data).emit
          (.writeLog (s.cache.buf fromBuf).blockno (s.cache.buf fromBuf).data)).goto p
        (.writeLogPutFrom t toBuf fromBuf))
  | writeHeadFill {w : HeadUse} {b} (hbusy : (s.proc p).busy = .none)
      (hpc : (s.proc p).pc = .writeHeadFill w b) (hheld : (s.cache.buf b).lock = some p)
      (data : Block) (hdata : data = (s.cache.buf b).data.setHeader s.log.lh) :
      Trans s p ({ s.store b data with
          trace := if w = HeadUse.commit then s.trace ++ [Event.commit] else s.trace }.goto p
        (.writeHeadPut w b))
  | installTransDone {w t} (hbusy : (s.proc p).busy = .none)
      (hpc : (s.proc p).pc = .installTrans w t) (ht : s.log.lh.length ≤ t) :
      Trans s p (s.goto p (.clear w))
  | installTransCopy {w t l d} (hbusy : (s.proc p).busy = .none)
      (hpc : (s.proc p).pc = .installTransCopy w t l d) (hheld : (s.cache.buf d).lock = some p) :
      Trans s p ((s.store d (s.cache.buf l).data).goto p (.installTransUnpin w t l d))
  | installTransUnpin {w t l d} (hbusy : (s.proc p).busy = .none)
      (hpc : (s.proc p).pc = .installTransUnpin w t l d) :
      Trans s p ({ s with cache := s.cache.bunpin d, unpinned := s.unpinned + 1 }.goto p
        (.installTransPutL w t l d))
  | clear {w : Caller} (hbusy : (s.proc p).busy = .none) (hpc : (s.proc p).pc = .clear w) :
      Trans s p ({ s with log := { s.log with lh := [] },
                          unpinned := if w = Caller.commit then 0 else s.unpinned }.goto p
        (.writeHead (State.afterClear w)))
  | wakeup (hbusy : (s.proc p).busy = .none) (hpc : (s.proc p).pc = .wakeup) :
      Trans s p ({ s with log := { s.log with committing := false } }.goto p .user)
  | readHeadCopy {b} (hbusy : (s.proc p).busy = .none) (hpc : (s.proc p).pc = .readHeadCopy b) :
      Trans s p ({ s with log := { s.log with lh := (s.cache.buf b).data.header } }.goto p
        (.readHeadPut b))
  | recovered (hbusy : (s.proc p).busy = .none) (hpc : (s.proc p).pc = .recovered) :
      Trans s p ({ s with booted := true, unpinned := 0 }.goto p .user)

theorem State.fill_eq (s : State) (p : Pid) (i : BufId) :
    s.fill p i = { s with
      cache := s.cache.update i (Buf.filled s.disk)
      trace := if (s.proc p).pc = Pc.user then s.trace ++ [Event.bread p (s.cache.buf i).blockno
        ((s.cache.buf i).filled s.disk).data] else s.trace }.setProc p
      { s.proc p with pc := (s.proc p).pc.got i, busy := .none } := by
  have hself : (s.cache.buf i).valid → s.cache.update i (Buf.filled s.disk) = s.cache := by
    intro hv
    simp [Bcache.update, Buf.filled, hv]
  unfold State.fill
  by_cases hv : (s.cache.buf i).valid <;> by_cases hu : (s.proc p).pc = .user
  · simp [hv, hu, hself, Buf.filled, State.emit, State.setProc]
  · simp [hv, hu, hself, State.setProc]
  · simp [hv, hu, Buf.filled, State.emit, State.setProc, State.setBuf, Bcache.update]
  · simp [hv, hu, Buf.filled, State.setProc, State.setBuf, Bcache.update]

namespace Trans
variable {s s' : State} {p : Pid}

theorem of_bread {n : ℕ} (hbusy : (s.proc p).busy = .none)
    (hn : (s.proc p).pc = .user ∧ s.booted ∧ n < 2 ^ 32 ∨
      (s.proc p).pc.wants s.log.lh = some n) (h : s.bread p n = .ok s') : Trans s p s' := by
  unfold State.bread at h
  split at h
  · next hb =>
    rw [← Except.ok.inj h]
    exact .get hbusy hn hb
  · simp at h

theorem of_brelse {i : BufId} {pc : Pc} (hbusy : (s.proc p).busy = .none)
    (hpc : (s.proc p).pc = .user ∧ pc = .user ∧ s.booted ∧ s.dirty i = false ∨
      (s.proc p).pc.puts = some (i, pc)) (h : s.brelse p i pc = .ok s') : Trans s p s' := by
  unfold State.brelse at h
  split_ifs at h with hheld
  rw [← Except.ok.inj h]
  exact .release hbusy hheld hpc

theorem of_runPc (hstart : s.log.start = 2) (hbusy : (s.proc p).busy = .none)
    (h : s.runPc p (s.proc p).pc = .ok s') : Trans s p s' := by
  cases hpc : (s.proc p).pc with
  | user => simp [hpc, State.runPc] at h
  | logWrite b =>
    rw [hpc] at h
    rw [← Except.ok.inj h]
    exact .logWrite hbusy hpc
  | commit =>
    rw [hpc] at h
    rw [← Except.ok.inj h]
    exact .commit hbusy hpc
  | writeLog t =>
    simp only [hpc, State.runPc, hstart] at h
    split_ifs at h with ht
    · exact of_bread hbusy (.inr (by simp [hpc, Pc.wants, ht])) h
    · rw [← Except.ok.inj h]
      exact .writeLogDone hbusy hpc (not_lt.mp ht)
  | writeLogFrom t b | installTransDst w t l =>
    rw [hpc] at h
    exact of_bread hbusy (.inr (by simp [hpc, Pc.wants])) h
  | writeLogCopy t b d =>
    simp only [hpc, State.runPc, State.bwrite] at h
    split_ifs at h with hheld
    · rw [← Except.ok.inj h]
      exact .writeLogCopy hbusy hpc hheld
    · simp [bind, Except.bind] at h
  | writeLogPutFrom t b d | writeLogPutTo t b | writeHeadPut w b | installTransPutL w t l d
  | installTransPutD w t d | readHeadPut b =>
    rw [hpc] at h
    exact of_brelse hbusy (.inr (by simp [hpc, Pc.puts])) h
  | writeHead w | readHead =>
    simp only [hpc, State.runPc, hstart] at h
    exact of_bread hbusy (.inr (by simp [hpc, Pc.wants])) h
  | writeHeadFill w b =>
    simp only [hpc, State.runPc, State.bwrite] at h
    by_cases hheld : (s.cache.buf b).lock = some p
    · rw [if_pos hheld] at h
      have hs : ∀ data, (if w = .commit then (s.store b data).emit .commit else s.store b data) =
          { s.store b data with
            trace := if w = .commit then s.trace ++ [.commit] else s.trace } := fun data => by
        split_ifs <;> rfl
      rw [← Except.ok.inj h, hs]
      exact .writeHeadFill hbusy hpc hheld _ rfl
    · simp [hheld, bind, Except.bind] at h
  | installTrans w t =>
    simp only [hpc, State.runPc, hstart] at h
    split_ifs at h with ht
    · exact of_bread hbusy (.inr (by simp [hpc, Pc.wants, ht])) h
    · rw [← Except.ok.inj h]
      exact .installTransDone hbusy hpc (not_lt.mp ht)
  | installTransCopy w t l d =>
    simp only [hpc, State.runPc, State.bwrite] at h
    split_ifs at h with hheld
    · rw [← Except.ok.inj h]
      exact .installTransCopy hbusy hpc hheld
    · simp [bind, Except.bind] at h
  | installTransUnpin w t l d =>
    rw [hpc] at h
    rw [← Except.ok.inj h]
    exact .installTransUnpin hbusy hpc
  | clear w =>
    rw [hpc] at h
    rw [← Except.ok.inj h]
    exact .clear hbusy hpc
  | wakeup =>
    rw [hpc] at h
    rw [← Except.ok.inj h]
    exact .wakeup hbusy hpc
  | readHeadCopy b =>
    rw [hpc] at h
    rw [← Except.ok.inj h]
    exact .readHeadCopy hbusy hpc
  | recovered =>
    rw [hpc] at h
    rw [← Except.ok.inj h]
    exact .recovered hbusy hpc

theorem of_fill {i : BufId} (hbusy : (s.proc p).busy = .filling i) : Trans s p (s.fill p i) := by
  rw [State.fill_eq]
  exact .fill hbusy

theorem of_run (hstart : s.log.start = 2) (h : s.run p = .ok s') : Trans s p s' := by
  unfold State.run at h
  cases hbusy : (s.proc p).busy with
  | none =>
    rw [hbusy] at h
    exact of_runPc hstart hbusy h
  | getting i =>
    simp only [hbusy] at h
    split_ifs at h with hfree
    rw [← Except.ok.inj h]
    exact .acquire hbusy hfree
  | filling i =>
    simp only [hbusy] at h
    rw [← Except.ok.inj h]
    exact of_fill hbusy
  | putting i =>
    simp only [hbusy] at h
    rw [← Except.ok.inj h]
    exact .put hbusy

theorem of_call {a : Act} (hboot : s.booted) (hpc : (s.proc p).pc = .user)
    (hbusy : (s.proc p).busy = .none) (hok : Logged s (p, a)) (h : s.call p a = .ok s') :
    Trans s p s' := by
  have hpr : ∀ b, (s.proc p).inOp = b → s.proc p = ⟨b, .user, .none⟩ := fun b hb => by
    rw [← hb, ← hpc, ← hbusy]
  obtain ⟨hc, hw⟩ := hok
  cases a with
  | bread n => exact of_bread hbusy (.inl ⟨hpc, hboot, hc⟩) h
  | modify b data =>
    simp only [State.call] at h
    split_ifs at h with hheld
    rw [← Except.ok.inj h]
    exact .change data (hpr true hc.1) hboot hheld hc.2
  | copyin b walkaddr d srcva len =>
    simp only [State.call] at h
    split_ifs at h with hheld hcopied
    · rw [← Except.ok.inj h]
      exact .change _ (hpr true hc.1) hboot hheld hc.2.1
    · have hsame := hw (by simpa using hcopied)
      have hs : s.setBuf b (fun x =>
          { x with data := (copyin walkaddr (s.cache.buf b).data d srcva len).2 }) = s := by
        simp [State.setBuf, Bcache.update, hsame]
      rw [← Except.ok.inj h, hs]
      exact .fault (hpr true hc.1) hboot
  | logWrite b =>
    simp only [State.call] at h
    cases hck : s.log.logWriteCheck with
    | error e => simp [hck, bind, Except.bind] at h
    | ok u =>
      rw [hck] at h
      rw [← Except.ok.inj h]
      exact .logWriteCall (hpr true hc.1) hboot hc.2.1 hc.2.2
  | brelse b => exact of_brelse hbusy (.inl ⟨hpc, rfl, hboot, hc⟩) h
  | beginOp =>
    simp only [State.call] at h
    cases hb : s.log.beginOp with
    | error e => simp [hb, bind, Except.bind] at h
    | ok log =>
      rw [hb] at h
      obtain ⟨hcm, -, rfl⟩ := Log.beginOp_ok hb
      rw [← Except.ok.inj h]
      have := Trans.beginOp (hpr false hc) hboot hcm
      rw [hpr false hc]
      exact this
  | endOp =>
    simp only [State.call] at h
    cases hb : s.log.endOp with
    | error e => simp [hb, bind, Except.bind] at h
    | ok r =>
      obtain ⟨log, commit⟩ := r
      rw [hb] at h
      obtain ⟨hcm, rfl, rfl⟩ := Log.endOp_ok hb
      rw [← Except.ok.inj h]
      have := Trans.endOp (hpr true hc.1) hboot hc.2 hcm
      simpa using this
  | run => simp [State.call] at h

theorem of_step {a : Act} (hstart : s.log.start = 2) (hok : Logged s (p, a))
    (h : step s (p, a) = .ok s') : Trans s p s' := by
  cases a with
  | run => exact of_run hstart h
  | _ =>
    simp only [step] at h
    split_ifs at h with hu
    exact of_call hu.1 hu.2.1 hu.2.2 hok h

end Trans
end Xv6
