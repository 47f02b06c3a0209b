import Xv6.Kernel.Bio.Coherence
import Xv6.Kernel.Log.Control

/-! Which buffers a process has locked at each point of `log.c`, and that no other
process changes them. -/
namespace Xv6
open Lib

def State.busy (s : State) (q : Pid) : Busy := (s.proc q).busy

/-- What a step of `p` can do to one buffer besides changing its count: the lock that `p`
holds protects it, `p` takes the lock, or nobody has a reference and it is rebound. -/
inductive BufStep (s : State) (p : Pid) (i : BufId) (b : Buf) : Prop
  | same (hvalid : b.valid = (s.cache.buf i).valid) (hdev : b.dev = (s.cache.buf i).dev)
      (hno : b.blockno = (s.cache.buf i).blockno) (hlock : b.lock = (s.cache.buf i).lock)
      (hdata : b.data = (s.cache.buf i).data)
  | held (hheld : (s.cache.buf i).lock = some p) (hdev : b.dev = (s.cache.buf i).dev)
      (hno : b.blockno = (s.cache.buf i).blockno) (hlock : b.lock = some p ∨ b.lock = none)
  | taken (hfree : (s.cache.buf i).lock = none) (hwait : s.busy p = .getting i)
      (hdev : b.dev = (s.cache.buf i).dev) (hno : b.blockno = (s.cache.buf i).blockno)
      (hlock : b.lock = some p)
  | rebound (hz : (s.cache.buf i).refcnt = 0) (hfree : refs s.cache s.busy i = 0)
      (hlock : b.lock = none)
      (hno : b.blockno < 2 ^ 32 ∨ (s.proc p).pc.wants s.log.lh = some b.blockno)
      (hvalid : b.valid = false)

/-- The process is about to call `bget`. -/
def MayGet (s : State) (p : Pid) : Prop :=
  (s.proc p).busy = .none ∧
    ((s.proc p).pc = .user ∧ s.booted = true ∨ ((s.proc p).pc.wants s.log.lh).isSome = true)

namespace BufStep
variable {s s' : State} {p : Pid}

theorem refl (i : BufId) : BufStep s p i (s.cache.buf i) := .same rfl rfl rfl rfl rfl

theorem of_update {i j : BufId} {f : Buf → Buf} (h : BufStep s p i (f (s.cache.buf i))) :
    BufStep s p j ((s.cache.update i f).buf j) := by
  by_cases hj : j = i
  · subst j
    rwa [Bcache.update_self]
  · rw [Bcache.update_ne _ _ hj]
    exact refl j

theorem of_decr {i j : BufId} : BufStep s p j ((s.cache.update i Buf.decr).buf j) := by
  apply of_update
  exact .same rfl rfl rfl rfl rfl

theorem of_store {i j : BufId} {data : Block} (hheld : (s.cache.buf i).lock = some p) :
    BufStep s p j ((s.cache.update i fun x => { x with data }).buf j) :=
  of_update (.held hheld rfl rfl (.inl hheld))

theorem of_trans (hl : s.cache.Linked) (hfill : ∀ i, s.busy p = .filling i →
      (s.cache.buf i).lock = some p)
    (hfree : MayGet s p → ∀ i, (s.cache.buf i).refcnt = 0 → refs s.cache s.busy i = 0)
    (ht : Trans s p s') (i : BufId) : BufStep s p i (s'.cache.buf i) := by
  cases ht with
  | @get n j cache hbusy hn hb =>
    show BufStep s p i (cache.buf i)
    rcases Bcache.bget_ok hl hb with ⟨-, rfl⟩ | ⟨-, hz, rfl⟩
    · apply of_update
      exact .same rfl rfl rfl rfl rfl
    · have hmay : MayGet s p := by
        refine ⟨hbusy, ?_⟩
        rcases hn with ⟨hu, hb, -⟩ | hw
        · exact .inl ⟨hu, hb⟩
        · exact .inr (by simp [hw])
      have hr := hfree hmay j hz
      apply of_update
      refine .rebound hz hr (refs_eq_zero hr).1 ?_ rfl
      rcases hn with ⟨-, -, hn⟩ | hw
      · exact .inl hn
      · exact .inr hw
  | acquire hbusy hfree =>
    simp only [State.wait_cache, State.setBuf_cache]
    apply of_update
    exact .taken hfree hbusy rfl rfl rfl
  | @fill j hbusy =>
    have hheld := hfill j hbusy
    refine of_update (.held hheld ?_ ?_ (.inl ?_)) <;> unfold Buf.filled
    · split_ifs <;> rfl
    · split_ifs <;> rfl
    · split_ifs <;> exact hheld
  | release hbusy hheld hpc =>
    simp only [State.setProc_cache, State.setBuf_cache]
    apply of_update
    exact .held hheld rfl rfl (.inr rfl)
  | @put j hbusy =>
    show BufStep s p i ((s.cache.put j).buf i)
    rw [Bcache.put_buf]
    exact of_decr
  | change data hpr hboot hheld hhome | writeLogCopy hbusy hpc hheld | writeHeadFill hbusy hpc hheld data hdata
  | installTransCopy hbusy hpc hheld => exact of_store hheld
  | logWrite hbusy hpc =>
    show BufStep s p i ((if _ then s.cache else s.cache.bpin _).buf i)
    split_ifs
    · exact refl i
    · apply of_update
      exact .same rfl rfl rfl rfl rfl
  | installTransUnpin hbusy hpc =>
    simp only [State.goto_cache]
    exact of_decr
  | _ => exact refl i

variable {b : Buf} {i : BufId} {q : Pid}

theorem locked (h : BufStep s p i b) (hq : q ≠ p) (hl : (s.cache.buf i).lock = some q) :
    b.lock = some q ∧ b.blockno = (s.cache.buf i).blockno := by
  cases h with
  | same _ _ hno hlock _ => exact ⟨by rw [hlock, hl], hno⟩
  | held hheld => simp [hheld, Ne.symm hq] at hl
  | taken hfree => simp [hfree] at hl
  | rebound _ hfree => simp [(refs_eq_zero hfree).1] at hl

theorem locked_of (h : BufStep s p i b) (hq : q ≠ p) (hl : b.lock = some q) :
    (s.cache.buf i).lock = some q := by
  cases h with
  | same _ _ _ hlock _ => rwa [hlock] at hl
  | held _ _ _ hlock => rcases hlock with h | h <;> simp [h, Ne.symm hq] at hl
  | taken _ _ _ _ hlock => simp [hlock, Ne.symm hq] at hl
  | rebound _ _ hlock => simp [hlock] at hl

theorem awaited (h : BufStep s p i b) (hw : s.busy q = .getting i) :
    b.blockno = (s.cache.buf i).blockno := by
  cases h with
  | same _ _ hno | held _ _ hno | taken _ _ _ hno => exact hno
  | rebound _ hfree => exact absurd (by simp [hw, Busy.Counts]) ((refs_eq_zero hfree).2 q)

end BufStep

namespace Pc
variable {lh : List ℕ} {pc pc' : Pc} {i : BufId} {n : ℕ}

/-- The loop counters stay in range, and a log that is being written or installed fits
into the blocks behind the header. -/
def Within (lh : List ℕ) : Pc → Prop
  | .writeLog t => t ≤ lh.length ∧ 0 < lh.length ∧ (t ≠ 0 → lh.length < logSize)
  | .installTrans _ t => t ≤ lh.length ∧ lh.length < logSize
  | .writeLogFrom t _ | .writeLogCopy t _ _ | .writeLogPutFrom t _ _ | .writeLogPutTo t _
  | .installTransDst _ t _ | .installTransCopy _ t _ _ | .installTransUnpin _ t _ _
  | .installTransPutL _ t _ _ | .installTransPutD _ t _ => t < lh.length ∧ lh.length < logSize
  | .writeHead .commit | .writeHeadFill .commit _ | .writeHeadPut .commit _
  | .clear _ | .readHeadPut _ => lh.length < logSize
  | _ => True

theorem inert (h : ¬ pc.Excl) (lh : List ℕ) :
    pc.owns lh = [] ∧ pc.wants lh = none ∧ pc.Within lh := by
  cases pc <;> simp [Excl, owns, wants, Within] at h ⊢

theorem owns_got (h : pc.wants lh = some n) :
    (pc.got i).owns lh = pc.owns lh ++ [(i, n)] ∧ ∀ b, pc.got i ≠ .logWrite b := by
  cases pc <;> simp [wants, got, owns] at h ⊢ <;> grind

theorem within_got (h : pc.wants lh = some n) (hw : pc.Within lh)
    (hroom : pc = .writeLog 0 → lh.length < logSize) : (pc.got i).Within lh := by
  cases pc with
  | writeLog t =>
    simp only [wants, Option.ite_none_right_eq_some] at h
    refine ⟨h.1, ?_⟩
    by_cases ht : t = 0
    · exact hroom (by rw [ht])
    · exact hw.2.2 ht
  | installTrans w t =>
    simp only [wants, Option.ite_none_right_eq_some] at h
    exact ⟨h.1, hw.2⟩
  | writeHead w => cases w <;> exact hw
  | writeLogFrom t b | installTransDst w t l => exact hw
  | readHead => trivial
  | _ => simp [wants] at h

theorem getD_home (hhome : ∀ n ∈ lh, ¬ InLog n) {t : ℕ} (ht : t < lh.length) :
    ¬ InLog (lh.getD t 0) := by
  rw [List.getD_eq_getElem?_getD, List.getElem?_eq_getElem ht, Option.getD_some]
  exact hhome _ (List.getElem_mem ht)

theorem wants_lt (h : pc.wants lh = some n) (hw : pc.Within lh) (hsmall : ∀ n ∈ lh, n < 2 ^ 32) :
    n < 2 ^ 32 := by
  have hget : ∀ {t : ℕ}, t < lh.length → lh.getD t 0 < 2 ^ 32 := fun ht => by
    rw [List.getD_eq_getElem?_getD, List.getElem?_eq_getElem ht, Option.getD_some]
    exact hsmall _ (List.getElem_mem ht)
  have hlog : logSize = 30 := rfl
  cases pc with
  | writeLog t =>
    simp only [wants, Option.ite_none_right_eq_some, Option.some.injEq] at h
    obtain ⟨ht, rfl⟩ := h
    by_cases h0 : t = 0
    · omega
    · have := hw.2.2 h0
      omega
  | installTrans w t =>
    simp only [wants, Option.ite_none_right_eq_some, Option.some.injEq] at h
    obtain ⟨ht, rfl⟩ := h
    have := hw.2
    omega
  | writeLogFrom t b | installTransDst w t l =>
    rw [← Option.some.inj h]
    exact hget hw.1
  | writeHead w | readHead =>
    rw [← Option.some.inj h]
    omega
  | _ => simp [wants] at h

theorem inLog_copy {t : ℕ} (ht : t < lh.length) (hlen : lh.length < logSize) :
    InLog (2 + t + 1) := by
  constructor <;> omega

theorem owns_puts (h : pc.puts = some (i, pc')) (hw : pc.Within lh)
    (hhome : ∀ n ∈ lh, ¬ InLog n) :
    (∃ n, (i, n) ∈ pc.owns lh ∧ (∀ j m, (j, m) ∈ pc'.owns lh → (j, m) ∈ pc.owns lh ∧ m ≠ n) ∧
      ∀ j m, (j, m) ∈ pc.owns lh → j = i ∨ (j, m) ∈ pc'.owns lh) ∧ pc'.Within lh ∧
      ∀ b, pc' ≠ .logWrite b := by
  cases pc <;> simp only [puts, reduceCtorEq, Option.some.injEq, Prod.mk.injEq] at h
  case writeLogPutFrom t b d =>
    obtain ⟨rfl, rfl⟩ := h
    have hne : 2 + t + 1 ≠ lh.getD t 0 := fun e =>
      getD_home hhome hw.1 (e ▸ inLog_copy hw.1 hw.2)
    exact ⟨⟨lh.getD t 0, by simp [owns], by simp [owns]; grind, by simp [owns]; grind⟩, hw, by simp⟩
  case writeLogPutTo t b =>
    obtain ⟨rfl, rfl⟩ := h
    refine ⟨⟨2 + t + 1, by simp [owns], by simp [owns], by simp [owns]⟩, ?_, by simp⟩
    exact ⟨hw.1, by have := hw.1; omega, fun _ => hw.2⟩
  case writeHeadPut w b =>
    obtain ⟨rfl, rfl⟩ := h
    refine ⟨⟨2, by simp [owns], ?_, by simp [owns]⟩, ?_, ?_⟩
    · cases w <;> simp [State.afterHead, owns]
    · cases w <;> simp [State.afterHead, Within]
      exact hw
    · cases w <;> simp [State.afterHead]
  case installTransPutL w t l d =>
    obtain ⟨rfl, rfl⟩ := h
    have hne : lh.getD t 0 ≠ 2 + t + 1 := fun e =>
      getD_home hhome hw.1 (e ▸ inLog_copy hw.1 hw.2)
    exact ⟨⟨2 + t + 1, by simp [owns], by simp [owns]; grind, by simp [owns]; grind⟩, hw, by simp⟩
  case installTransPutD w t d =>
    obtain ⟨rfl, rfl⟩ := h
    exact ⟨⟨lh.getD t 0, by simp [owns], by simp [owns], by simp [owns]⟩, ⟨hw.1, hw.2⟩,
      by simp⟩
  case readHeadPut b =>
    obtain ⟨rfl, rfl⟩ := h
    exact ⟨⟨2, by simp [owns], by simp [owns], by simp [owns]⟩, ⟨by omega, hw⟩, by simp⟩

end Pc

/-- What process `q` holds, waits for and counts. -/
structure HeldBy (s : State) (q : Pid) : Prop where
  owned : ∀ i n, (i, n) ∈ (s.proc q).pc.owns s.log.lh →
    (s.cache.buf i).lock = some q ∧ (s.cache.buf i).blockno = n
  wanted : ∀ i, s.busy q = .getting i ∨ s.busy q = .filling i →
    (s.proc q).pc = .user ∨ (s.proc q).pc.wants s.log.lh = some (s.cache.buf i).blockno
  logging : ∀ b, (s.proc q).pc = .logWrite b →
    (s.cache.buf b).lock = some q ∧ ¬ InLog (s.cache.buf b).blockno
  alone : s.booted = false → ∀ i, (s.cache.buf i).lock = some q →
    (∃ n, (i, n) ∈ (s.proc q).pc.owns s.log.lh) ∨ s.busy q = .filling i
  within : (s.proc q).pc.Within s.log.lh

namespace HeldBy
variable {s s' : State} {p q : Pid}

theorem frame (h : HeldBy s q) (hq : q ≠ p) (hstep : ∀ i, BufStep s p i (s'.cache.buf i))
    (hproc : s'.proc q = s.proc q) (hlh : (s.proc q).pc.Excl → s'.log.lh = s.log.lh)
    (hboot : s'.booted = false → s.booted = false)
    (hfill : ∀ i, s.busy q = .filling i → (s.cache.buf i).lock = some q) : HeldBy s' q := by
  have hinert : (s.proc q).pc.owns s'.log.lh = (s.proc q).pc.owns s.log.lh ∧
      (s.proc q).pc.wants s'.log.lh = (s.proc q).pc.wants s.log.lh ∧
      (s.proc q).pc.Within s'.log.lh := by
    by_cases hex : (s.proc q).pc.Excl
    · rw [hlh hex]
      exact ⟨rfl, rfl, h.within⟩
    · obtain ⟨ho, hw, -⟩ := Pc.inert hex s.log.lh
      obtain ⟨ho', hw', hin⟩ := Pc.inert hex s'.log.lh
      exact ⟨by rw [ho, ho'], by rw [hw, hw'], hin⟩
  have hbusy : s'.busy q = s.busy q := by rw [State.busy, hproc, State.busy]
  constructor
  · intro i n hi
    rw [hproc, hinert.1] at hi
    obtain ⟨hl, hn⟩ := h.owned i n hi
    obtain ⟨hl', hn'⟩ := (hstep i).locked hq hl
    exact ⟨hl', hn'.trans hn⟩
  · intro i hi
    rw [hbusy] at hi
    have hn : (s'.cache.buf i).blockno = (s.cache.buf i).blockno := by
      rcases hi with hi | hi
      · exact (hstep i).awaited hi
      · exact ((hstep i).locked hq (hfill i hi)).2
    rw [hproc, hinert.2.1, hn]
    exact h.wanted i hi
  · intro b hb
    rw [hproc] at hb
    obtain ⟨hl, hn⟩ := h.logging b hb
    obtain ⟨hl', hn'⟩ := (hstep b).locked hq hl
    exact ⟨hl', by rwa [hn']⟩
  · intro hb i hi
    rw [hproc, hinert.1, hbusy]
    exact h.alone (hboot hb) i ((hstep i).locked_of hq hi)
  · rw [hproc]
    exact hinert.2.2

theorem goto (h : HeldBy s q) (hidle : s.busy q = .none) {pr : Proc}
    (hupd : s'.proc = Function.update s.proc q pr) (hbusy : pr.busy = .none)
    (hsame : ∀ i, (s'.cache.buf i).lock = (s.cache.buf i).lock ∧
      (s'.cache.buf i).blockno = (s.cache.buf i).blockno)
    (howns : pr.pc.owns s'.log.lh = (s.proc q).pc.owns s.log.lh)
    (hlog : ∀ b, pr.pc = .logWrite b → (s.cache.buf b).lock = some q ∧
      ¬ InLog (s.cache.buf b).blockno)
    (hboot : s'.booted = false → s.booted = false) (hw : pr.pc.Within s'.log.lh) :
    HeldBy s' q := by
  have hproc : s'.proc q = pr := by simp [hupd]
  constructor
  · intro i n hi
    rw [hproc, howns] at hi
    rw [(hsame i).1, (hsame i).2]
    exact h.owned i n hi
  · intro i hi
    rw [State.busy, hproc, hbusy] at hi
    simp at hi
  · intro b hb
    rw [hproc] at hb
    rw [(hsame b).1, (hsame b).2]
    exact hlog b hb
  · intro hb i hi
    rw [(hsame i).1] at hi
    rw [hproc, howns]
    rcases h.alone (hboot hb) i hi with ho | hf
    · exact .inl ho
    · simp [hidle] at hf
  · rw [hproc]
    exact hw

theorem get {n : ℕ} {i : BufId} {cache : Bcache} (h : HeldBy s p) (hl : s.cache.Linked)
    (hfree : ∀ i, (s.cache.buf i).refcnt = 0 → refs s.cache s.busy i = 0)
    (hbusy : s.busy p = .none)
    (hn : (s.proc p).pc = .user ∨ (s.proc p).pc.wants s.log.lh = some n)
    (hb : s.cache.bget n = .ok (i, cache)) :
    HeldBy ({ s with cache }.wait p (.getting i)) p := by
  have hi : (cache.buf i).blockno = n := by
    rcases Bcache.bget_ok hl hb with ⟨hh, rfl⟩ | ⟨-, -, rfl⟩
    · simpa using hh.2
    · simp
  have hsame : ∀ j, (s.cache.buf j).lock = some p ∨ (cache.buf j).lock = some p →
      (cache.buf j).lock = (s.cache.buf j).lock ∧
        (cache.buf j).blockno = (s.cache.buf j).blockno := by
    intro j hj
    rcases Bcache.bget_ok hl hb with ⟨-, rfl⟩ | ⟨-, hz, rfl⟩
    · by_cases hji : j = i
      · subst j
        simp
      · simp [Bcache.update_ne _ _ hji]
    · have hun := (refs_eq_zero (hfree i hz)).1
      have hji : j ≠ i := fun e => by simp [e, hun] at hj
      simp [Bcache.update_ne _ _ hji]
  have hproc : ({ s with cache }.wait p (.getting i)).proc p =
      { s.proc p with busy := .getting i } := by simp
  constructor
  · intro j m hj
    rw [hproc] at hj
    obtain ⟨hlk, hm⟩ := h.owned j m hj
    obtain ⟨h1, h2⟩ := hsame j (.inl hlk)
    exact ⟨h1.trans hlk, h2.trans hm⟩
  · intro j hj
    rw [State.busy, hproc] at hj
    obtain rfl : i = j := by simpa using hj
    rw [hproc]
    show _ ∨ _ = some (cache.buf i).blockno
    rwa [hi]
  · intro b hb
    rw [hproc] at hb
    obtain ⟨hlk, hno⟩ := h.logging b hb
    obtain ⟨h1, h2⟩ := hsame b (.inl hlk)
    refine ⟨h1.trans hlk, ?_⟩
    show ¬ InLog (cache.buf b).blockno
    rwa [h2]
  · intro hb j hj
    have hj : (cache.buf j).lock = some p := hj
    rw [(hsame j (.inr hj)).1] at hj
    rw [hproc]
    rcases h.alone hb j hj with ho | hf
    · exact .inl ho
    · simp [hbusy] at hf
  · rw [hproc]
    exact h.within

theorem acquire {i : BufId} (h : HeldBy s p) (hbusy : s.busy p = .getting i)
    (hfree : (s.cache.buf i).lock = none) :
    HeldBy ((s.setBuf i fun b => { b with lock := some p }).wait p (.filling i)) p := by
  have hproc : ((s.setBuf i fun b => { b with lock := some p }).wait p (.filling i)).proc p =
      { s.proc p with busy := .filling i } := by simp
  have hno : ∀ j, ((s.cache.update i fun b => { b with lock := some p }).buf j).blockno =
      (s.cache.buf j).blockno := fun j => by
    by_cases hj : j = i
    · subst j
      simp
    · rw [Bcache.update_ne _ _ hj]
  have hlk : ∀ j, (s.cache.buf j).lock = some p →
      ((s.cache.update i fun b => { b with lock := some p }).buf j).lock = some p := by
    intro j hj
    have hji : j ≠ i := fun e => by simp [e, hfree] at hj
    rwa [Bcache.update_ne _ _ hji]
  constructor
  · intro j m hj
    rw [hproc] at hj
    obtain ⟨h1, h2⟩ := h.owned j m hj
    exact ⟨hlk j h1, (hno j).trans h2⟩
  · intro j hj
    rw [State.busy, hproc] at hj
    obtain rfl : i = j := by simpa using hj
    rw [hproc]
    show _ ∨ _ = some ((s.cache.update i fun b => { b with lock := some p }).buf i).blockno
    rw [hno]
    exact h.wanted i (.inl hbusy)
  · intro b hb
    rw [hproc] at hb
    obtain ⟨h1, h2⟩ := h.logging b hb
    refine ⟨hlk b h1, ?_⟩
    show ¬ InLog ((s.cache.update i fun b => { b with lock := some p }).buf b).blockno
    rwa [hno]
  · intro hb j hj
    rw [State.busy, hproc]
    by_cases hji : j = i
    · exact .inr (by rw [hji])
    · have hj : ((s.cache.update i fun b => { b with lock := some p }).buf j).lock = some p := hj
      rw [Bcache.update_ne _ _ hji] at hj
      rcases h.alone hb j hj with ho | hf
      · exact .inl ho
      · simp [hbusy] at hf
  · rw [hproc]
    exact h.within

theorem fill {i : BufId} {cache : Bcache} {trace : List Event} (h : HeldBy s p)
    (hbusy : s.busy p = .filling i) (hheld : (s.cache.buf i).lock = some p)
    (hsame : ∀ j, (cache.buf j).lock = (s.cache.buf j).lock ∧
      (cache.buf j).blockno = (s.cache.buf j).blockno)
    (huser : s.booted = false → (s.proc p).pc ≠ .user)
    (hroom : (s.proc p).pc = .writeLog 0 → s.log.lh.length < logSize) :
    HeldBy ({ s with cache, trace }.setProc p
      { s.proc p with pc := (s.proc p).pc.got i, busy := .none }) p := by
  have hproc : ({ s with cache, trace }.setProc p
      { s.proc p with pc := (s.proc p).pc.got i, busy := .none }).proc p =
      { s.proc p with pc := (s.proc p).pc.got i, busy := .none } := by simp
  have hgot : ((s.proc p).pc.got i).Within s.log.lh ∧
      (∀ b, (s.proc p).pc.got i ≠ .logWrite b) ∧
      ∀ j m, (j, m) ∈ ((s.proc p).pc.got i).owns s.log.lh ↔
        (j, m) ∈ (s.proc p).pc.owns s.log.lh ∨
          (s.proc p).pc ≠ .user ∧ j = i ∧ m = (s.cache.buf i).blockno := by
    rcases h.wanted i (.inr hbusy) with hu | hw
    · simp [hu, Pc.got, Pc.Within, Pc.owns]
    · have hne : (s.proc p).pc ≠ .user := fun e => by simp [e, Pc.wants] at hw
      refine ⟨Pc.within_got hw h.within hroom, (Pc.owns_got hw).2, fun j m => ?_⟩
      rw [(Pc.owns_got hw).1]
      simp [hne]
  constructor
  · intro j m hj
    rw [hproc] at hj
    show (cache.buf j).lock = some p ∧ (cache.buf j).blockno = m
    rw [(hsame j).1, (hsame j).2]
    rcases (hgot.2.2 j m).mp hj with ho | ⟨-, rfl, rfl⟩
    · exact h.owned j m ho
    · exact ⟨hheld, rfl⟩
  · intro j hj
    rw [State.busy, hproc] at hj
    simp at hj
  · intro b hb
    rw [hproc] at hb
    exact absurd hb (hgot.2.1 b)
  · intro hb j hj
    have hj : (cache.buf j).lock = some p := hj
    rw [(hsame j).1] at hj
    rw [hproc]
    rcases h.alone hb j hj with ⟨m, ho⟩ | hf
    · exact .inl ⟨m, (hgot.2.2 j m).mpr (.inl ho)⟩
    · obtain rfl : i = j := by rw [hbusy] at hf; exact Busy.filling.inj hf
      exact .inl ⟨_, (hgot.2.2 i _).mpr (.inr ⟨huser hb, rfl, rfl⟩)⟩
  · rw [hproc]
    exact hgot.1

theorem release {i : BufId} {pc : Pc} (h : HeldBy s p) (hbusy : s.busy p = .none)
    (hhome : ∀ n ∈ s.log.lh, ¬ InLog n)
    (hpc : (s.proc p).pc = .user ∧ pc = .user ∨ (s.proc p).pc.puts = some (i, pc)) :
    HeldBy ((s.setBuf i fun b => { b with lock := none }).setProc p
      { s.proc p with pc, busy := .putting i }) p := by
  have hproc : ((s.setBuf i fun b => { b with lock := none }).setProc p
      { s.proc p with pc, busy := .putting i }).proc p =
      { s.proc p with pc, busy := .putting i } := by simp
  have hputs : pc.Within s.log.lh ∧ (∀ b, pc ≠ .logWrite b) ∧
      (∀ j m, (j, m) ∈ pc.owns s.log.lh → j ≠ i ∧ (j, m) ∈ (s.proc p).pc.owns s.log.lh) ∧
      ∀ j m, (j, m) ∈ (s.proc p).pc.owns s.log.lh → j = i ∨ (j, m) ∈ pc.owns s.log.lh := by
    rcases hpc with ⟨hu, rfl⟩ | hp
    · simp [hu, Pc.Within, Pc.owns]
    · obtain ⟨⟨n, hn, hsub, hsup⟩, hw, hlw⟩ := Pc.owns_puts hp h.within hhome
      refine ⟨hw, hlw, fun j m hj => ⟨?_, (hsub j m hj).1⟩, hsup⟩
      rintro rfl
      exact (hsub j m hj).2 ((h.owned j m (hsub j m hj).1).2.symm.trans (h.owned j n hn).2)
  have hother : ∀ j, j ≠ i →
      (s.cache.update i fun b => { b with lock := none }).buf j = s.cache.buf j :=
    fun j hj => Bcache.update_ne _ _ hj
  constructor
  · intro j m hj
    rw [hproc] at hj
    obtain ⟨hji, ho⟩ := hputs.2.2.1 j m hj
    show (Bcache.buf _ j).lock = _ ∧ (Bcache.buf _ j).blockno = _
    simp only [State.setProc_cache, State.setBuf_cache, hother j hji]
    exact h.owned j m ho
  · intro j hj
    rw [State.busy, hproc] at hj
    simp at hj
  · intro b hb
    rw [hproc] at hb
    exact absurd hb (hputs.2.1 b)
  · intro hb j hj
    simp only [State.setProc_cache, State.setBuf_cache] at hj
    have hji : j ≠ i := fun e => by simp [e] at hj
    rw [hother j hji] at hj
    rw [hproc]
    rcases h.alone hb j hj with ⟨m, ho⟩ | hf
    · exact .inl ⟨m, (hputs.2.2.2 j m ho).resolve_left hji⟩
    · simp [hbusy] at hf
  · rw [hproc]
    exact hputs.1

theorem put {i : BufId} (h : HeldBy s p) (hbusy : s.busy p = .putting i) :
    HeldBy ({ s with cache := s.cache.put i }.wait p .none) p := by
  have hproc : ({ s with cache := s.cache.put i }.wait p .none).proc p =
      { s.proc p with busy := .none } := by simp
  have hsame : ∀ j, ((s.cache.put i).buf j).lock = (s.cache.buf j).lock ∧
      ((s.cache.put i).buf j).blockno = (s.cache.buf j).blockno := fun j => by
    rw [Bcache.put_buf]
    by_cases hj : j = i
    · subst j
      simp
    · simp [Bcache.update_ne _ _ hj]
  constructor
  · intro j m hj
    rw [hproc] at hj
    simp only [State.wait_cache, hsame]
    exact h.owned j m hj
  · intro j hj
    rw [State.busy, hproc] at hj
    simp at hj
  · intro b hb
    rw [hproc] at hb
    simp only [State.wait_cache, hsame]
    exact h.logging b hb
  · intro hb j hj
    simp only [State.wait_cache, hsame] at hj
    rw [hproc]
    rcases h.alone hb j hj with ho | hf
    · exact .inl ho
    · simp [hbusy] at hf
  · rw [hproc]
    exact h.within

theorem update_same (cache : Bcache) (i : BufId) (f : Buf → Buf)
    (hl : ∀ b, (f b).lock = b.lock) (hn : ∀ b, (f b).blockno = b.blockno) (j : BufId) :
    ((cache.update i f).buf j).lock = (cache.buf j).lock ∧
      ((cache.update i f).buf j).blockno = (cache.buf j).blockno := by
  by_cases hj : j = i
  · subst j
    simp [hl, hn]
  · simp [Bcache.update_ne _ _ hj]

theorem same_write (cache : Bcache) (i : BufId) (data : Block) (j : BufId) :
    ((cache.update i fun b => { b with data }).buf j).lock = (cache.buf j).lock ∧
      ((cache.update i fun b => { b with data }).buf j).blockno = (cache.buf j).blockno := by
  apply update_same <;> simp

theorem same_incr (cache : Bcache) (i j : BufId) :
    ((cache.bpin i).buf j).lock = (cache.buf j).lock ∧
      ((cache.bpin i).buf j).blockno = (cache.buf j).blockno := by
  apply update_same <;> simp

theorem same_decr (cache : Bcache) (i j : BufId) :
    ((cache.bunpin i).buf j).lock = (cache.buf j).lock ∧
      ((cache.bunpin i).buf j).blockno = (cache.buf j).blockno := by
  apply update_same <;> simp

theorem same_filled (cache : Bcache) (i : BufId) (disk : Disk) (j : BufId) :
    ((cache.update i (Buf.filled disk)).buf j).lock = (cache.buf j).lock ∧
      ((cache.update i (Buf.filled disk)).buf j).blockno = (cache.buf j).blockno := by
  apply update_same <;> intro b <;> unfold Buf.filled <;> split_ifs <;> rfl

/-- A step of the process itself. -/
theorem step (h : HeldBy s p) (hl : s.cache.Linked) (hctl : Control s)
    (hfill : ∀ i, s.busy p = .filling i → (s.cache.buf i).lock = some p)
    (hfree : MayGet s p → ∀ i, (s.cache.buf i).refcnt = 0 → refs s.cache s.busy i = 0)
    (hhome : ∀ n ∈ s.log.lh, ¬ InLog n)
    (hroom : ∀ i, (s.cache.buf i).lock = some p → InLog (s.cache.buf i).blockno →
      (s.proc p).pc = .writeLog 0 → s.log.lh.length < logSize)
    (hhead : ∀ b, s.busy p = .none → (s.proc p).pc = .readHeadCopy b →
      (s.cache.buf b).data.header.length < logSize)
    (ht : Trans s p s') : HeldBy s' p := by
  have hw := h.within
  cases ht with
  | get hbusy hn hb =>
    refine h.get hl (hfree ⟨hbusy, ?_⟩) hbusy ?_ hb
    · rcases hn with ⟨hu, hbt, -⟩ | hw
      · exact .inl ⟨hu, hbt⟩
      · exact .inr (by simp [hw])
    · rcases hn with ⟨hu, -⟩ | hw
      · exact .inl hu
      · exact .inr hw
  | acquire hbusy hfree => exact h.acquire hbusy hfree
  | @fill i hbusy =>
    refine h.fill hbusy (hfill i hbusy) ?_ ?_ ?_
    · exact same_filled s.cache i s.disk
    · intro hb hu
      have hz : p.val = 0 := by
        by_contra hp
        simp [hctl.quiet hb p hp] at hbusy
      simpa [hu, Pc.Excl] using hctl.booting hb p hz
    · intro hpc
      refine hroom i (hfill i hbusy) ?_ hpc
      rcases h.wanted i (.inr hbusy) with hu | hwant
      · simp [hu] at hpc
      · rw [hpc, Pc.wants] at hwant
        split_ifs at hwant with hlt
        rw [← Option.some.inj hwant]
        constructor <;> simp [logSize, maxOpBlocks]
  | release hbusy hheld hpc =>
    refine h.release hbusy hhome ?_
    rcases hpc with ⟨hu, hu', -⟩ | hp
    · exact .inl ⟨hu, hu'⟩
    · exact .inr hp
  | put hbusy => exact h.put hbusy
  | change data hpr hboot hheld hhome =>
    exact h.goto (by rw [State.busy, hpr]) (Function.update_eq_self p s.proc).symm (by rw [hpr])
      (same_write s.cache _ _) rfl h.logging id hw
  | fault hpr hboot => exact h
  | @logWriteCall b hpr hboot hheld hhome =>
    refine h.goto (by rw [State.busy, hpr]) rfl (by simp [hpr])
      (fun _ => ⟨rfl, rfl⟩) (by simp [hpr, Pc.owns]) ?_ id trivial
    intro b' hb'
    obtain rfl : b = b' := Pc.logWrite.inj hb'
    exact ⟨hheld, hhome⟩
  | logWrite hbusy hpc =>
    refine h.goto hbusy rfl hbusy ?_ (by simp [hpc, Pc.owns]) (by simp) id trivial
    intro i
    simp only [State.goto_cache, State.emit_cache]
    split_ifs
    · simp
    · exact same_incr s.cache _ i
  | beginOp hpr hboot hc =>
    exact h.goto (by rw [State.busy, hpr]) rfl rfl (fun _ => ⟨rfl, rfl⟩)
      (by simp [hpr, Pc.owns]) (by simp) id trivial
  | endOp hpr hboot hclean hc =>
    refine h.goto (by rw [State.busy, hpr]) rfl rfl (fun _ => ⟨rfl, rfl⟩) ?_ ?_ id ?_
    · split_ifs <;> simp [hpr, Pc.owns]
    · intro b
      split_ifs <;> simp
    · split_ifs <;> trivial
  | commit hbusy hpc =>
    refine h.goto hbusy rfl hbusy (fun _ => ⟨rfl, rfl⟩) ?_ ?_ id ?_
    · split_ifs <;> simp [hpc, Pc.owns]
    · intro b
      split_ifs <;> simp
    · split_ifs with hlt
      · exact ⟨by omega, hlt, by simp⟩
      · trivial
  | writeLogDone hbusy hpc ht =>
    refine h.goto hbusy rfl hbusy (fun _ => ⟨rfl, rfl⟩) (by simp [hpc, Pc.owns]) (by simp)
      id ?_
    rw [hpc] at hw
    obtain ⟨h1, h2, h3⟩ := hw
    exact h3 (by omega)
  | writeLogCopy hbusy hpc hheld | installTransCopy hbusy hpc hheld =>
    rw [hpc] at hw
    exact h.goto hbusy rfl hbusy (same_write s.cache _ _)
      (by simp [hpc, Pc.owns]) (by simp) id hw
  | @writeHeadFill w b hbusy hpc hheld data hdata =>
    refine h.goto hbusy rfl hbusy (same_write s.cache _ _)
      (by simp [hpc, Pc.owns]) (by simp) id ?_
    rw [hpc] at hw
    cases w <;> exact hw
  | installTransDone hbusy hpc ht =>
    rw [hpc] at hw
    exact h.goto hbusy rfl hbusy (fun _ => ⟨rfl, rfl⟩) (by simp [hpc, Pc.owns]) (by simp)
      id hw.2
  | installTransUnpin hbusy hpc =>
    rw [hpc] at hw
    exact h.goto hbusy rfl hbusy (same_decr s.cache _)
      (by simp [hpc, Pc.owns]) (by simp) id hw
  | @clear w hbusy hpc =>
    refine h.goto hbusy rfl hbusy (fun _ => ⟨rfl, rfl⟩) (by simp [hpc, Pc.owns]) (by simp)
      id ?_
    cases w <;> trivial
  | wakeup hbusy hpc =>
    exact h.goto hbusy rfl hbusy (fun _ => ⟨rfl, rfl⟩) (by simp [hpc, Pc.owns]) (by simp)
      id trivial
  | @readHeadCopy b hbusy hpc =>
    refine h.goto hbusy rfl hbusy (fun _ => ⟨rfl, rfl⟩) (by simp [hpc, Pc.owns]) (by simp)
      id ?_
    exact hhead b hbusy hpc
  | recovered hbusy hpc =>
    exact h.goto hbusy rfl hbusy (fun _ => ⟨rfl, rfl⟩) (by simp [hpc, Pc.owns]) (by simp)
      (by simp) trivial

end HeldBy
end Xv6
