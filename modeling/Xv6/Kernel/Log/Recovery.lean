import Xv6.Kernel.Log.Crash

/-! `recover_from_log` returns on every disk that a crash can leave. -/
namespace Xv6
open Lib

/-- `recover_from_log` has returned. -/
def State.Recovered (s : State) : Prop :=
  (s.proc first).pc = .recovered ∧ (s.proc first).busy = .none

/-- The points of a recovery still to come, for a log of `len` blocks. -/
def Pc.rank (len : ℕ) : Pc → ℕ
  | .readHead => 10 * len + 8
  | .readHeadCopy _ => 10 * len + 7
  | .readHeadPut _ => 10 * len + 6
  | .installTrans _ t => 10 * (len - t) + 5
  | .installTransDst _ t _ => 10 * (len - t) + 4
  | .installTransCopy _ t _ _ => 10 * (len - t) + 3
  | .installTransUnpin _ t _ _ => 10 * (len - t) + 2
  | .installTransPutL _ t _ _ => 10 * (len - t) + 1
  | .installTransPutD _ t _ => 10 * (len - t)
  | .clear _ => 4
  | .writeHead _ => 3
  | .writeHeadFill _ _ => 2
  | .writeHeadPut _ _ => 1
  | _ => 0

def Busy.rank : Busy → ℕ
  | .putting _ => 4
  | .none => 3
  | .getting _ => 2
  | .filling _ => 1

def State.rank (len : ℕ) (s : State) : ℕ :=
  4 * (s.proc first).pc.rank len + (s.proc first).busy.rank

namespace Inv
variable {d₀ : Disk} {s s' : State}

theorem eq_first {p : Pid} (hp : p.val = 0) : p = first := Fin.ext hp

theorem recovering_first (h : Inv d₀ s) (hb : s.booted = false) :
    (s.proc first).pc.Excl ∧ (s.proc first).pc.Recovering := by
  have hex := h.control.booting hb first rfl
  exact ⟨hex, (h.control.recovering first hex).mpr hb⟩

theorem lock_booting (h : Inv d₀ s) (hb : s.booted = false) {i : BufId} {q : Pid}
    (hl : (s.cache.buf i).lock = some q) :
    q = first ∧ ((∃ n, (i, n) ∈ (s.proc first).pc.owns s.log.lh) ∨
      s.busy first = .filling i) := by
  have hal := (h.held q).alone hb i hl
  by_cases hq : q.val = 0
  · obtain rfl := eq_first hq
    exact ⟨rfl, hal⟩
  · rw [State.busy, h.control.quiet hb q hq] at hal
    simp [Pc.owns] at hal

theorem wants_ne_owned {pc : Pc} {lh : List ℕ} {n m : ℕ} {i : BufId} (hw : pc.wants lh = some n)
    (hin : pc.Within lh) (hhome : ∀ n ∈ lh, ¬ InLog n) (ho : (i, m) ∈ pc.owns lh) : m ≠ n := by
  cases pc <;> simp only [Pc.wants, Pc.owns, List.not_mem_nil, reduceCtorEq] at hw ho
  all_goals
    rw [List.mem_singleton, Prod.mk.injEq] at ho
    rw [ho.2, ← Option.some.inj hw]
    exact (not_inLog_ne (Pc.getD_home hhome hin.1) (Pc.inLog_copy hin.1 hin.2)).symm

theorem getting_free (h : Inv d₀ s) (hb : s.booted = false) {i : BufId}
    (hbusy : s.busy first = .getting i) : (s.cache.buf i).lock = none := by
  cases hl : (s.cache.buf i).lock with
  | none => rfl
  | some q =>
    obtain ⟨rfl, ⟨n, ho⟩ | hf⟩ := h.lock_booting hb hl
    · rcases (h.held first).wanted i (.inl hbusy) with hu | hw
      · have := (h.recovering_first hb).1
        simp [hu, Pc.Excl] at this
      · have hn := ((h.held first).owned i n ho).2
        exact absurd hn.symm (wants_ne_owned hw (h.held first).within h.lh_home ho)
    · simp [hbusy] at hf

theorem referenced_booting (h : Inv d₀ s) (hb : s.booted = false) (hbusy : s.busy first = .none)
    {i : BufId} (hne : (s.cache.buf i).refcnt ≠ 0) :
    (∃ m, (i, m) ∈ (s.proc first).pc.owns s.log.lh) ∨
      (s.cache.buf i).dev = rootDev ∧ (s.cache.buf i).blockno ∈ (d₀ 2).header.take s.unpinned := by
  by_cases ho : ∃ m, (i, m) ∈ (s.proc first).pc.owns s.log.lh
  · exact .inl ho
  · right
    have hr := h.refs_booting hb rfl hbusy fun m hm => ho ⟨m, hm⟩
    have hc := h.cache.refcnt i
    rw [hr] at hc
    by_contra hn
    apply hne
    rw [hc, bonus]
    split_ifs with hdev
    · rw [bias_booting hb, if_neg fun hm => hn ⟨hdev, hm⟩]
      rfl
    · rfl

theorem nbuf_le (h : Inv d₀ s) (hb : s.booted = false) (hbusy : s.busy first = .none)
    (hne : ∀ i, (s.cache.buf i).refcnt ≠ 0) :
    nbuf ≤ ((s.proc first).pc.owns s.log.lh).length + ((d₀ 2).header.take s.unpinned).length := by
  have hsub : (Finset.univ : Finset BufId) ⊆
      ((s.proc first).pc.owns s.log.lh).toFinset.image Prod.fst ∪
        Finset.univ.filter fun i => (s.cache.buf i).dev = rootDev ∧
          (s.cache.buf i).blockno ∈ (d₀ 2).header.take s.unpinned := by
    intro i _
    rw [Finset.mem_union]
    rcases h.referenced_booting hb hbusy (hne i) with ⟨m, hm⟩ | hi
    · exact .inl (Finset.mem_image.mpr ⟨(i, m), by simpa using hm, rfl⟩)
    · exact .inr (by simpa using hi)
  have hinst : (Finset.univ.filter fun i : BufId => (s.cache.buf i).dev = rootDev ∧
      (s.cache.buf i).blockno ∈ (d₀ 2).header.take s.unpinned).card ≤
        ((d₀ 2).header.take s.unpinned).length := by
    refine le_trans (Finset.card_le_card_of_injOn (fun i => (s.cache.buf i).blockno)
      (t := ((d₀ 2).header.take s.unpinned).toFinset) ?_ ?_) (List.toFinset_card_le _)
    · intro i hi
      have hi := (Finset.mem_filter.mp (Finset.mem_coe.mp hi)).2
      simpa using hi.2
    · intro i hi j hj hij
      have hi := (Finset.mem_filter.mp (Finset.mem_coe.mp hi)).2
      have hj := (Finset.mem_filter.mp (Finset.mem_coe.mp hj)).2
      exact h.cache.unique i j _ ⟨hi.1, rfl⟩ ⟨hj.1, hij.symm⟩
  have howns : (((s.proc first).pc.owns s.log.lh).toFinset.image Prod.fst).card ≤
      ((s.proc first).pc.owns s.log.lh).length :=
    Finset.card_image_le.trans (List.toFinset_card_le _)
  have hcard := (Finset.card_le_card hsub).trans (Finset.card_union_le _ _)
  rw [Finset.card_univ, Fintype.card_fin] at hcard
  omega

theorem bget_ok (hd : Recoverable d₀) (h : Inv d₀ s) (hb : s.booted = false)
    (hbusy : s.busy first = .none) {n : ℕ}
    (hw : (s.proc first).pc.wants s.log.lh = some n) : ∃ r, s.cache.bget n = .ok r := by
  by_contra hno
  have hle := h.nbuf_le hb hbusy (Bcache.bget_error h.cache.linked fun r hr => hno ⟨r, hr⟩)
  have hst := h.stage first
  have hin := (h.held first).within
  have hroom := hd.room
  have hlen := List.length_take_le s.unpinned (d₀ 2).header
  have hlen' := List.length_take_le' s.unpinned (d₀ 2).header
  have hrec := (h.recovering_first hb).2
  simp only [nbuf, logSize, maxOpBlocks] at hle hroom
  cases hpc : (s.proc first).pc <;>
    simp only [hpc, Pc.wants, Pc.Recovering, reduceCtorEq] at hw hrec
  all_goals
    rw [hpc] at hle hst hin
    simp only [Pc.owns, List.length_nil, List.length_singleton] at hle
  case readHead => omega
  case writeHead w => omega
  case installTrans w t =>
    split_ifs at hw with hlt
    rw [hst.1.found hb] at hlt
    have := hst.2
    omega
  case installTransDst w t l =>
    have hlt := hin.1
    rw [hst.1.found hb] at hlt
    have := hst.2
    omega

theorem bread_returns (hd : Recoverable d₀) (h : Inv d₀ s) (hb : s.booted = false)
    (hbusy : s.busy first = .none) {n : ℕ} (hw : (s.proc first).pc.wants s.log.lh = some n) :
    ∃ s', s.bread first n = .ok s' := by
  obtain ⟨⟨i, cache⟩, hr⟩ := h.bget_ok hd hb hbusy hw
  exact ⟨_, by rw [State.bread, hr]⟩

theorem bwrite_returns (h : Inv d₀ s) {p : Pid} {i : BufId} {n : ℕ}
    (ho : (i, n) ∈ (s.proc p).pc.owns s.log.lh) (data : Block) :
    s.bwrite p i data = .ok (s.store i data) :=
  if_pos ((h.held p).owned i n ho).1

theorem brelse_returns (h : Inv d₀ s) {p : Pid} {i : BufId} {n : ℕ}
    (ho : (i, n) ∈ (s.proc p).pc.owns s.log.lh) (pc : Pc) : ∃ s', s.brelse p i pc = .ok s' :=
  ⟨_, if_pos ((h.held p).owned i n ho).1⟩

theorem runPc_returns (hd : Recoverable d₀) (h : Inv d₀ s) (hb : s.booted = false)
    (hbusy : s.busy first = .none) : ∃ s', s.runPc first (s.proc first).pc = .ok s' := by
  have hrec := (h.recovering_first hb).2
  have hstart := h.control.start
  have hread := fun n => h.bread_returns hd hb hbusy (n := n)
  cases hpc : (s.proc first).pc <;> simp only [hpc, Pc.Recovering] at hrec
  case installTrans w t =>
    simp only [State.runPc, hstart]
    split_ifs with ht
    · exact hread _ (by simp [hpc, Pc.wants, ht])
    · exact ⟨_, rfl⟩
  case installTransDst w t l => exact hread _ (by simp [hpc, Pc.wants])
  case installTransCopy w t l d =>
    simp only [State.runPc, h.bwrite_returns (p := first) (i := d) (n := s.log.lh.getD t 0)
      (by simp [hpc, Pc.owns])]
    exact ⟨_, rfl⟩
  case installTransPutL w t l d =>
    exact h.brelse_returns (n := 2 + t + 1) (by simp [hpc, Pc.owns]) _
  case installTransPutD w t d =>
    exact h.brelse_returns (n := s.log.lh.getD t 0) (by simp [hpc, Pc.owns]) _
  case writeHead w => exact hread _ (by simp [hpc, Pc.wants, hstart])
  case writeHeadFill w b =>
    simp only [State.runPc, h.bwrite_returns (p := first) (i := b) (n := 2) (by simp [hpc, Pc.owns])]
    exact ⟨_, rfl⟩
  case writeHeadPut w b => exact h.brelse_returns (n := 2) (by simp [hpc, Pc.owns]) _
  case readHead => exact hread _ (by simp [hpc, Pc.wants, hstart])
  case readHeadPut b => exact h.brelse_returns (n := 2) (by simp [hpc, Pc.owns]) _
  all_goals exact ⟨_, rfl⟩

theorem run_returns (hd : Recoverable d₀) (h : Inv d₀ s) (hb : s.booted = false) :
    ∃ s', s.run first = .ok s' := by
  unfold State.run
  cases hbusy : (s.proc first).busy with
  | none => exact h.runPc_returns hd hb hbusy
  | getting i => exact ⟨_, if_pos (h.getting_free hb hbusy)⟩
  | filling i | putting i => exact ⟨_, rfl⟩

theorem rank_got (pc : Pc) (i : BufId) (len : ℕ) {lh : List ℕ} (hw : (pc.wants lh).isSome)
    (hrec : pc.Recovering) : (pc.got i).rank len < pc.rank len := by
  cases pc <;> simp only [Pc.wants, Option.isSome_none, Bool.false_eq_true, Pc.Recovering] at hw hrec
  all_goals
    simp only [Pc.got, Pc.rank]
    omega

theorem rank_puts {pc pc' : Pc} {i : BufId} {len : ℕ} (hp : pc.puts = some (i, pc'))
    (hlt : ∀ w t d, pc = .installTransPutD w t d → t < len) (hrec : pc.Recovering) :
    pc'.rank len < pc.rank len := by
  cases pc <;> simp only [Pc.puts, Pc.Recovering, reduceCtorEq, Option.some.injEq, Prod.mk.injEq]
    at hp hrec
  all_goals
    obtain ⟨-, rfl⟩ := hp
    simp only [Pc.rank]
  case writeHeadPut w b =>
    subst w
    simp [State.afterHead]
  case installTransPutD w t d =>
    have := hlt w t d rfl
    omega
  all_goals omega

theorem booted_run (hnr : ¬ s.Recovered) (ht : Trans s first s') : s'.booted = s.booted := by
  cases ht with
  | recovered hbusy hpc => exact absurd ⟨hpc, hbusy⟩ hnr
  | _ => rfl

theorem rank_lt (h : Inv d₀ s) (hb : s.booted = false) (hnr : ¬ s.Recovered)
    (ht : Trans s first s') : s'.rank (d₀ 2).header.length < s.rank (d₀ 2).header.length := by
  have hrec := (h.recovering_first hb).2
  have hex := (h.recovering_first hb).1
  have hlt : ∀ w t d, (s.proc first).pc = .installTransPutD w t d → t < (d₀ 2).header.length := by
    intro w t d hpc
    have hst := h.stage first
    have hin := (h.held first).within
    rw [hpc] at hst hin
    rw [← hst.1.found hb]
    exact hin.1
  unfold State.rank
  cases ht with
  | get hbusy | acquire hbusy | put hbusy =>
    simp [hbusy, Busy.rank]
  | @fill i hbusy =>
    have hw : ((s.proc first).pc.wants s.log.lh).isSome := by
      rcases (h.held first).wanted i (.inr hbusy) with hu | hw
      · simp [hu, Pc.Excl] at hex
      · simp [hw]
    have := rank_got _ i (d₀ 2).header.length hw hrec
    simp only [State.setProc_proc, Function.update_self, hbusy, Busy.rank]
    omega
  | release hbusy _ hpc =>
    rcases hpc with ⟨hu, -⟩ | hpc
    · simp [hu, Pc.Excl] at hex
    · have := rank_puts hpc hlt hrec
      simp only [State.setProc_proc, Function.update_self, hbusy, Busy.rank]
      omega
  | change _ hpr | fault hpr | logWriteCall hpr | beginOp hpr | endOp hpr =>
    simp [hpr, Pc.Excl] at hex
  | recovered hbusy hpc => exact absurd ⟨hpc, hbusy⟩ hnr
  | logWrite hbusy hpc | commit hbusy hpc | writeLogDone hbusy hpc | writeLogCopy hbusy hpc
  | wakeup hbusy hpc => simp [hpc, Pc.Recovering] at hrec
  | writeHeadFill hbusy hpc | installTransCopy hbusy hpc | installTransUnpin hbusy hpc
  | clear hbusy hpc | readHeadCopy hbusy hpc | installTransDone hbusy hpc =>
    simp only [State.goto_proc, State.store_proc, Function.update_self, hpc, Pc.rank]
    omega

end Inv

theorem recovery_returns {d : Disk} (hd : Recoverable d) {s : State}
    (hrun : Run step Logged (boot d) s) (hb : s.booted = false) :
    ∃ s', Run step Logged s s' ∧ s'.booted = false ∧ s'.Recovered := by
  have hnext : ∀ s, (Run step Logged (boot d) s ∧ s.booted = false) → ¬ s.Recovered →
      ∃ a s', Logged s a ∧ step s a = .ok s' ∧ (Run step Logged (boot d) s' ∧ s'.booted = false) ∧
        s'.rank (d 2).header.length < s.rank (d 2).header.length := by
    rintro s ⟨hs, hbs⟩ hnr
    have h : Inv d s := inv_of_run hd hs (by simp [hbs])
    obtain ⟨s', hs'⟩ := h.run_returns hd hbs
    have ht := Trans.of_run h.control.start hs'
    have hok : Logged s (first, .run) := ⟨trivial, trivial⟩
    have hbs' : s'.booted = false := (Inv.booted_run hnr ht).trans hbs
    exact ⟨(first, .run), s', hok, hs', ⟨hs.tail hok hs', hbs'⟩, h.rank_lt hbs hnr ht⟩
  obtain ⟨s', hs', ⟨-, hb'⟩, hrec⟩ := Run.reaches _ hnext s ⟨hrun, hb⟩
  exact ⟨s', hs', hb', hrec⟩

end Xv6
