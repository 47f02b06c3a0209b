import Xv6.Kernel.Log.Transparent

/-! Outside the boot no step of the block layer looks at the bytes of a block: a run in
which a `copyin` faults half-way differs in bytes only from a run in which it faults at
once. -/
namespace Xv6
open Lib

def Buf.shape (b : Buf) : Buf := { b with data := fun _ => 0 }

def Bcache.shape (c : Bcache) : Bcache := { c with buf := fun i => (c.buf i).shape }

/-- The state with all bytes forgotten. -/
@[simps -fullyApplied] def State.shape (s : State) : State :=
  { s with cache := s.cache.shape, disk := fun _ _ => 0, trace := [] }

theorem Bcache.shape_update {f g : Buf → Buf} (c : Bcache) (i : BufId)
    (h : (f (c.buf i)).shape = (g (c.buf i).shape).shape) :
    (c.update i f).shape = (c.shape.update i g).shape := by
  unfold Bcache.shape
  simp only [Bcache.mk.injEq, Bcache.update_links, and_true]
  funext j
  by_cases hj : j = i
  · subst j
    rw [Bcache.update_self, Bcache.update_self]
    exact h
  · rw [Bcache.update_ne _ _ hj, Bcache.update_ne _ _ hj]
    rfl

theorem Bcache.shape_write (c : Bcache) (i : BufId) (data : Block) :
    (c.update i fun b => { b with data }).shape = c.shape := by
  unfold Bcache.shape
  simp only [Bcache.mk.injEq, Bcache.update_links, and_true]
  funext j
  by_cases hj : j = i
  · subst j
    rw [Bcache.update_self]
    rfl
  · rw [Bcache.update_ne _ _ hj]

theorem Bcache.shape_put (c : Bcache) (i : BufId) : (c.put i).shape = (c.shape.put i).shape := by
  have hu : (c.update i Buf.decr).shape = (c.shape.update i Buf.decr).shape := by
    apply shape_update
    rfl
  have hr : ((c.shape.update i Buf.decr).buf i).refcnt = ((c.update i Buf.decr).buf i).refcnt := by
    rw [update_self, update_self]
    rfl
  have hb := congrArg Bcache.buf hu
  unfold put
  dsimp only
  rw [hr]
  split_ifs
  · exact congrArg (fun buf => Bcache.mk buf _) hb
  · exact hu

theorem Bcache.shape_bget (c : Bcache) (n : ℕ) :
    ((c.bget n).map fun r => (r.1, r.2.shape)) =
      (c.shape.bget n).map fun r => (r.1, r.2.shape) := by
  have hm : (c.shape.mru.find? fun i => (c.shape.buf i).Holds n) =
      c.mru.find? fun i => (c.buf i).Holds n := rfl
  have hl : (c.shape.lru.find? fun i => (c.shape.buf i).refcnt = 0) =
      c.lru.find? fun i => (c.buf i).refcnt = 0 := rfl
  unfold Bcache.bget
  rw [hm, hl]
  cases c.mru.find? fun i => (c.buf i).Holds n with
  | some i =>
    simp only [Except.map, Except.ok.injEq, Prod.mk.injEq, true_and]
    apply shape_update
    rfl
  | none =>
    cases c.lru.find? fun i => (c.buf i).refcnt = 0 with
    | some i =>
      simp only [Except.map, Except.ok.injEq, Prod.mk.injEq, true_and]
      apply shape_update
      rfl
    | none => rfl

namespace State

theorem shape_eq {s t : State} (hc : s.cache.shape = t.cache.shape) (hl : s.log = t.log)
    (hp : s.proc = t.proc) (hb : s.booted = t.booted) (hd : s.dirty = t.dirty)
    (hu : s.unpinned = t.unpinned) : s.shape = t.shape := by
  unfold shape
  rw [hc, hl, hp, hb, hd, hu]

theorem shape_bread (s : State) (p : Pid) (n : ℕ) :
    (s.bread p n).map shape = (s.shape.bread p n).map shape := by
  have h := Bcache.shape_bget s.cache n
  unfold State.bread
  rw [show s.shape.cache = s.cache.shape from rfl]
  cases hb : s.cache.bget n with
  | error e =>
    cases hb' : s.cache.shape.bget n with
    | error e' => simpa only [hb, hb', Except.map, Except.error.injEq] using h
    | ok r => simp [hb, hb', Except.map] at h
  | ok r =>
    cases hb' : s.cache.shape.bget n with
    | error e' => simp [hb, hb', Except.map] at h
    | ok r' =>
      simp only [hb, hb', Except.map, Except.ok.injEq, Prod.mk.injEq] at h
      exact congrArg Except.ok (shape_eq h.2 rfl (by simp [h.1, wait, shape]) rfl rfl rfl)

theorem shape_goto {s t : State} (h : s.shape = t.shape) (p : Pid) (pc : Pc) :
    (s.goto p pc).shape = (t.goto p pc).shape := by
  have hs : ∀ s : State, (s.goto p pc).shape = s.shape.goto p pc := fun _ => rfl
  rw [hs, hs, h]

theorem shape_bwrite (s : State) (p : Pid) (i : BufId) (data data' : Block) (f g : State → State)
    (hf : ∀ {s t : State}, s.shape = t.shape → (f s).shape = (g t).shape) :
    ((s.bwrite p i data).map f).map shape = ((s.shape.bwrite p i data').map g).map shape := by
  have hl : (s.shape.cache.buf i).lock = (s.cache.buf i).lock := rfl
  unfold State.bwrite
  rw [hl]
  split_ifs
  · refine congrArg Except.ok (hf (shape_eq ?_ rfl rfl rfl rfl rfl))
    simp only [store_cache, shape_cache]
    apply Bcache.shape_update
    rfl
  · rfl

theorem shape_brelse (s : State) (p : Pid) (i : BufId) (pc : Pc) :
    (s.brelse p i pc).map shape = (s.shape.brelse p i pc).map shape := by
  have hl : (s.shape.cache.buf i).lock = (s.cache.buf i).lock := rfl
  unfold State.brelse
  rw [hl]
  split_ifs
  · refine congrArg Except.ok (shape_eq ?_ rfl rfl rfl rfl rfl)
    simp only [setProc_cache, setBuf_cache, shape_cache]
    apply Bcache.shape_update
    rfl
  · rfl

theorem shape_runPc (s : State) (p : Pid) (pc : Pc) (hpc : ∀ b, pc ≠ .readHeadCopy b) :
    (s.runPc p pc).map shape = (s.shape.runPc p pc).map shape := by
  cases pc with
  | user | commit | clear _ | wakeup | recovered => rfl
  | logWrite b =>
    refine congrArg Except.ok (shape_eq ?_ rfl rfl rfl rfl rfl)
    show Bcache.shape (if (s.cache.buf b).blockno ∈ s.log.lh then _ else _) =
      Bcache.shape (if (s.cache.buf b).blockno ∈ s.log.lh then _ else _)
    split_ifs
    · rfl
    · apply Bcache.shape_update
      rfl
  | writeLog t | installTrans w t =>
    simp only [runPc]
    rw [show s.shape.log = s.log from rfl]
    split_ifs
    · exact shape_bread _ _ _
    · rfl
  | writeLogFrom _ _ | writeHead _ | installTransDst _ _ _ | readHead => exact shape_bread _ _ _
  | writeLogPutFrom _ _ _ | writeLogPutTo _ _ | writeHeadPut _ _ | installTransPutL _ _ _ _
  | installTransPutD _ _ _ | readHeadPut _ => exact shape_brelse _ _ _ _
  | writeLogCopy t toBuf fromBuf =>
    exact shape_bwrite s p toBuf _ _ (fun s => (s.emit _).goto p _) _ fun h => shape_goto h p _
  | writeHeadFill w b =>
    refine shape_bwrite s p b _ _ (fun s => (if w = .commit then s.emit .commit else s).goto p _) _
      fun h => ?_
    split_ifs <;> exact shape_goto h p _
  | installTransCopy w t l d =>
    exact shape_bwrite s p d _ _ (fun s => s.goto p _) _ fun h => shape_goto h p _
  | installTransUnpin w t l d =>
    refine congrArg Except.ok (shape_eq ?_ rfl rfl rfl rfl rfl)
    apply Bcache.shape_update
    rfl
  | readHeadCopy b => exact absurd rfl (hpc b)

theorem shape_fill (s : State) (p : Pid) (i : BufId) :
    (s.fill p i).shape = (s.shape.fill p i).shape := by
  rw [fill_eq, fill_eq]
  refine shape_eq ?_ rfl rfl rfl rfl rfl
  simp only [setProc_cache, shape_cache]
  apply Bcache.shape_update
  unfold Buf.filled
  rw [show (s.cache.buf i).shape.valid = (s.cache.buf i).valid from rfl]
  split_ifs <;> rfl

theorem shape_run (s : State) (p : Pid) (hpc : ∀ b, (s.proc p).pc ≠ .readHeadCopy b) :
    (s.run p).map shape = (s.shape.run p).map shape := by
  unfold run
  rw [shape_proc]
  cases (s.proc p).busy with
  | none => exact shape_runPc s p _ hpc
  | getting i =>
    dsimp only
    rw [show (s.shape.cache.buf i).lock = (s.cache.buf i).lock from rfl]
    split_ifs
    · refine congrArg Except.ok (shape_eq ?_ rfl rfl rfl rfl rfl)
      simp only [wait_cache, setBuf_cache, shape_cache]
      apply Bcache.shape_update
      rfl
    · rfl
  | filling i => exact congrArg Except.ok (shape_fill s p i)
  | putting i =>
    exact congrArg Except.ok (shape_eq (Bcache.shape_put s.cache i) rfl rfl rfl rfl rfl)

theorem shape_call (s : State) (p : Pid) (a : Act)
    (ha : ∀ b walkaddr d srcva len, a ≠ .copyin b walkaddr d srcva len) :
    (s.call p a).map shape = (s.shape.call p a).map shape := by
  cases a with
  | bread n => exact shape_bread s p n
  | modify b data =>
    simp only [call]
    rw [show (s.shape.cache.buf b).lock = (s.cache.buf b).lock from rfl]
    split_ifs
    · refine congrArg Except.ok (shape_eq ?_ rfl rfl rfl rfl rfl)
      simp only [setBuf_cache, shape_cache]
      apply Bcache.shape_update
      rfl
    · rfl
  | copyin b walkaddr d srcva len => exact absurd rfl (ha b walkaddr d srcva len)
  | logWrite b =>
    simp only [call, shape_log]
    cases s.log.logWriteCheck <;> rfl
  | brelse b => exact shape_brelse s p b .user
  | beginOp =>
    simp only [call, shape_log]
    cases s.log.beginOp <;> rfl
  | endOp =>
    simp only [call, shape_log]
    cases s.log.endOp <;> rfl
  | run => rfl

end State
theorem client_shape (s : State) (a : Pid × Act) : Client s.shape a ↔ Client s a := by
  obtain ⟨p, a⟩ := a
  cases a <;> exact Iff.rfl

variable {d : Disk} {s s' t : State}

theorem exists_step_of_shape {p : Pid} {a : Act} (h : s.shape = t.shape)
    (hpc : ∀ b, (s.proc p).pc ≠ .readHeadCopy b)
    (ha : ∀ b walkaddr d srcva len, a ≠ .copyin b walkaddr d srcva len)
    (hst : step s (p, a) = .ok s') : ∃ t', step t (p, a) = .ok t' ∧ s'.shape = t'.shape := by
  have hstep : ∀ u : State, (∀ b, (u.proc p).pc ≠ .readHeadCopy b) →
      (step u (p, a)).map State.shape = (step u.shape (p, a)).map State.shape := by
    intro u hu
    cases a with
    | run => exact State.shape_run u p hu
    | _ =>
      simp only [step]
      rw [State.shape_booted, State.shape_proc]
      split_ifs
      · exact State.shape_call u p _ ha
      · rfl
  have hproc : t.proc = s.proc := (congrArg State.proc h).symm
  have hmap := hstep s hpc
  rw [h, ← hstep t (by rwa [hproc]), hst] at hmap
  cases ht : step t (p, a) with
  | error e => simp [ht, Except.map] at hmap
  | ok t' => exact ⟨t', rfl, by simpa [ht, Except.map] using hmap⟩

theorem exists_run_of_copyin {p : Pid} {b : BufId} {walkaddr : ℕ → Option Bytes}
    {off srcva len : ℕ} (h : s.shape = t.shape) (hok : Client s (p, .copyin b walkaddr off srcva len))
    (hst : step s (p, .copyin b walkaddr off srcva len) = .ok s') :
    ∃ t', Run step Logged t t' ∧ s'.shape = t'.shape := by
  simp only [step] at hst
  split_ifs at hst with hu
  simp only [State.call] at hst
  split_ifs at hst with hheld hcopied
  · have hmod : step s (p, .modify b (copyin walkaddr (s.cache.buf b).data off srcva len).2) =
        .ok s' := by
      simp only [step, if_pos hu, State.call, if_pos hheld]
      exact hst
    obtain ⟨t', ht', hsh⟩ := exists_step_of_shape h (by simp [hu.2.1]) (by simp) hmod
    have hclient : ∀ data, Client t (p, .modify b data) := by
      intro data
      rw [← client_shape, ← h, client_shape]
      exact ⟨hok.1, hok.2.1⟩
    exact ⟨t', (Run.refl t).tail ⟨hclient _, trivial⟩ ht', hsh⟩
  · refine ⟨t, Run.refl t, ?_⟩
    rw [← h, ← Except.ok.inj hst]
    exact State.shape_eq (Bcache.shape_write _ _ _) rfl rfl rfl rfl rfl

theorem booted_of_run (hd : (d 2).header = []) (hrun : Run step Logged (boot d) t)
    (hb : t.booted = true) {t' : State} (h : Run step Logged t t') : t'.booted = true := by
  have key : Run step Logged (boot d) t' ∧ t'.booted = true := by
    refine h.invariant (I := fun u => Run step Logged (boot d) u ∧ u.booted = true) ⟨hrun, hb⟩ ?_
    rintro u ⟨p, a⟩ u' ⟨hu, hbu⟩ hok hst
    have ht := Trans.of_step (inv_of_empty hd hu).control.start hok hst
    refine ⟨hu.tail hok hst, ?_⟩
    cases hb' : u'.booted with
    | true => rfl
    | false => rw [← Inv.booted_mono ht hb', hbu]
  exact key.2

theorem exists_logged_run (hd : (d 2).header = []) (h : Run step Client (boot d) s) :
    ∃ t, Run step Logged (boot d) t ∧ s.shape = t.shape ∧ (s.booted = false → s = t) := by
  refine h.invariant (I := fun s => ∃ t, Run step Logged (boot d) t ∧ s.shape = t.shape ∧
    (s.booted = false → s = t)) ⟨boot d, Run.refl _, rfl, fun _ => rfl⟩ ?_
  rintro s ⟨p, a⟩ s' ⟨t, hrun, hsh, hboot⟩ hok hst
  cases hb : s.booted with
  | false =>
    obtain rfl := hboot hb
    cases a with
    | run => exact ⟨s', hrun.tail ⟨hok, trivial⟩ hst, rfl, fun _ => rfl⟩
    | _ => simp [step, hb] at hst
  | true =>
    have hbooted : ∀ {s t : State}, s.shape = t.shape → s.booted = t.booted := fun h => by
      rw [← State.shape_booted, h, State.shape_booted]
    have hproc : s.proc = t.proc := by rw [← State.shape_proc, hsh, State.shape_proc]
    have hbt : t.booted = true := by rw [← hbooted hsh, hb]
    obtain ⟨t', ht', hsh'⟩ : ∃ t', Run step Logged t t' ∧ s'.shape = t'.shape := by
      by_cases ha : ∃ b walkaddr off srcva len, a = .copyin b walkaddr off srcva len
      · obtain ⟨b, walkaddr, off, srcva, len, rfl⟩ := ha
        exact exists_run_of_copyin hsh hok hst
      · have hpc : ∀ b, (s.proc p).pc ≠ .readHeadCopy b := by
          intro b hpc
          have hrec := (inv_of_empty hd hrun).control.recovering p
          rw [← hproc, hpc, hbt] at hrec
          simp [Pc.Excl, Pc.Recovering] at hrec
        obtain ⟨t', ht', hsh'⟩ := exists_step_of_shape hsh hpc
          (fun b walkaddr off srcva len h => ha ⟨b, walkaddr, off, srcva, len, h⟩) hst
        have hclient : Client t (p, a) := by rwa [← client_shape, ← hsh, client_shape]
        have hwhole : Whole t (p, a) := by
          cases a with
          | copyin b walkaddr off srcva len => exact absurd ⟨_, _, _, _, _, rfl⟩ ha
          | _ => trivial
        exact ⟨t', (Run.refl t).tail ⟨hclient, hwhole⟩ ht', hsh'⟩
    have hbt' := booted_of_run hd hrun hbt ht'
    exact ⟨t', hrun.trans ht', hsh', fun hb' => by simp [hbooted hsh', hbt'] at hb'⟩

end Xv6
