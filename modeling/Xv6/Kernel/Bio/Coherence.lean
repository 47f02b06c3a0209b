import Xv6.Kernel.Log.Machine
import Xv6.Lib.Count

/-! What the buffer cache guarantees while every change to a buffer is logged: the
counts add up, no two buffers hold one block, and a clean buffer holds what was last
logged for its block. -/
namespace Xv6
open Lib Function

/-- The process counts for one reference to `i`, besides the one of the lock holder. -/
def Busy.Counts (i : BufId) : Busy → Prop
  | .getting j => j = i
  | .putting j => j = i
  | _ => False

instance (i : BufId) : (b : Busy) → Decidable (b.Counts i)
  | .getting j => inferInstanceAs (Decidable (j = i))
  | .putting j => inferInstanceAs (Decidable (j = i))
  | .none | .filling _ => .isFalse id

/-- The references to `i` that `bget` has given and `brelse` has not taken back. -/
def refs (cache : Bcache) (busy : Pid → Busy) (i : BufId) : ℕ :=
  (if (cache.buf i).lock.isSome then 1 else 0) +
    count (Busy.Counts i) busy

/-- What a buffer's count has beyond its references, by the block it is bound to. -/
def bonus (cache : Bcache) (bias : ℕ → ℕ) (i : BufId) : ℕ :=
  if (cache.buf i).dev = rootDev then bias (cache.buf i).blockno else 0

/-- `bias n` is what the log adds to the count of the buffer of block `n`. -/
structure CacheInv (cache : Bcache) (busy : Pid → Busy) (bias : ℕ → ℕ) : Prop where
  linked : cache.Linked
  unique : ∀ i j n, (cache.buf i).Holds n → (cache.buf j).Holds n → i = j
  refcnt : ∀ i, (cache.buf i).refcnt = (refs cache busy i + bonus cache bias i) % 2 ^ 32
  lock_dev : ∀ i p, (cache.buf i).lock = some p → (cache.buf i).dev = rootDev
  getting_dev : ∀ p i, busy p = .getting i → (cache.buf i).dev = rootDev
  filling_lock : ∀ p i, busy p = .filling i → (cache.buf i).lock = some p
  held_valid : ∀ i p, (cache.buf i).lock = some p → busy p ≠ .filling i → (cache.buf i).valid

theorem refs_le (cache : Bcache) (busy : Pid → Busy) (i : BufId) : refs cache busy i ≤ 65 := by
  have h : count (Busy.Counts i) busy ≤ 64 := by
    simpa [nproc] using count_le (Busy.Counts i) busy
  unfold refs
  split_ifs <;> omega

theorem refs_update (cache cache' : Bcache) (busy : Pid → Busy) (p : Pid) (b : Busy) (j : BufId) :
    refs cache' (update busy p b) j +
        (if (cache.buf j).lock.isSome then 1 else 0) + (if (busy p).Counts j then 1 else 0) =
      refs cache busy j + (if b.Counts j then 1 else 0) +
        (if (cache'.buf j).lock.isSome then 1 else 0) := by
  have h := count_update (Busy.Counts j) busy p b
  unfold refs
  omega

theorem refs_eq_zero {cache : Bcache} {busy : Pid → Busy} {i : BufId} (h : refs cache busy i = 0) :
    (cache.buf i).lock = none ∧ ∀ q, ¬ (busy q).Counts i := by
  unfold refs at h
  constructor
  · cases hl : (cache.buf i).lock with
    | none => rfl
    | some q => simp [hl] at h
  · exact (count_eq_zero _).mp (by omega)

namespace CacheInv
variable {cache cache' : Bcache} {busy : Pid → Busy} {bias bias' : ℕ → ℕ} {p : Pid} {i : BufId}
  {b : Busy}

theorem keep (h : CacheInv cache busy bias) (hl : cache'.Linked)
    (hoth : ∀ j, j ≠ i → cache'.buf j = cache.buf j)
    (hdev : (cache'.buf i).dev = (cache.buf i).dev)
    (hno : (cache'.buf i).blockno = (cache.buf i).blockno)
    (hcnt : ∀ j, j ≠ i → ((busy p).Counts j ↔ b.Counts j))
    (hpf : ∀ j, j ≠ i → busy p = .filling j → b = .filling j)
    (hbias : ∀ j, j ≠ i → bonus cache bias' j = bonus cache bias j)
    (href : (cache'.buf i).refcnt =
      (refs cache' (update busy p b) i + bonus cache bias' i) % 2 ^ 32)
    (hlock : ∀ q, (cache'.buf i).lock = some q → (cache.buf i).dev = rootDev ∧
      (update busy p b q ≠ .filling i → (cache'.buf i).valid))
    (hget : ∀ j, b = .getting j → (cache.buf j).dev = rootDev)
    (hfill : ∀ q j, update busy p b q = .filling j → (cache'.buf j).lock = some q) :
    CacheInv cache' (update busy p b) bias' := by
  have hdev' : ∀ j, (cache'.buf j).dev = (cache.buf j).dev := fun j => by
    by_cases hj : j = i
    · rw [hj, hdev]
    · rw [hoth j hj]
  have hno' : ∀ j, (cache'.buf j).blockno = (cache.buf j).blockno := fun j => by
    by_cases hj : j = i
    · rw [hj, hno]
    · rw [hoth j hj]
  have hbonus : ∀ j, bonus cache' bias' j = bonus cache bias' j := fun j => by
    unfold bonus
    rw [hdev', hno']
  constructor
  · exact hl
  · intro j k n hj hk
    unfold Buf.Holds at hj hk
    rw [hdev', hno'] at hj hk
    exact h.unique j k n hj hk
  · intro j
    by_cases hj : j = i
    · rw [hj, href, hbonus]
    · have hr := refs_update cache cache' busy p b j
      have hc := hcnt j hj
      rw [hoth j hj] at hr ⊢
      simp only [hc] at hr
      rw [h.refcnt, hbonus, hbias j hj]
      congr 2
      omega
  · intro j q hq
    rw [hdev']
    by_cases hj : j = i
    · subst j
      exact (hlock q hq).1
    · rw [hoth j hj] at hq
      exact h.lock_dev j q hq
  · intro q j hq
    rw [hdev']
    by_cases hqp : q = p
    · subst q
      exact hget j (by simpa using hq)
    · rw [update_of_ne hqp] at hq
      exact h.getting_dev q j hq
  · exact hfill
  · intro j q hq hne
    by_cases hj : j = i
    · subst j
      exact (hlock q hq).2 hne
    · rw [hoth j hj] at hq ⊢
      refine h.held_valid j q hq fun hf => ?_
      by_cases hqp : q = p
      · subst q
        exact hne (by simpa using hpf j hj hf)
      · rw [update_of_ne hqp] at hne
        exact hne hf

theorem congr (h : CacheInv cache busy bias) (hlinks : cache'.links = cache.links)
    (hsame : ∀ j, (cache'.buf j).valid = (cache.buf j).valid ∧
      (cache'.buf j).dev = (cache.buf j).dev ∧ (cache'.buf j).blockno = (cache.buf j).blockno ∧
      (cache'.buf j).lock = (cache.buf j).lock ∧ (cache'.buf j).refcnt = (cache.buf j).refcnt) :
    CacheInv cache' busy bias := by
  constructor
  · obtain ⟨l, hl, hall⟩ := h.linked
    exact ⟨l, by rwa [hlinks], hall⟩
  · intro j k n hj hk
    unfold Buf.Holds at hj hk
    rw [(hsame j).2.1, (hsame j).2.2.1] at hj
    rw [(hsame k).2.1, (hsame k).2.2.1] at hk
    exact h.unique j k n hj hk
  · intro j
    obtain ⟨-, hdev, hno, hlock, href⟩ := hsame j
    rw [href, h.refcnt]
    unfold refs bonus
    rw [hdev, hno, hlock]
  · intro j q hq
    rw [(hsame j).2.2.2.1] at hq
    rw [(hsame j).2.1]
    exact h.lock_dev j q hq
  · intro q j hq
    rw [(hsame j).2.1]
    exact h.getting_dev q j hq
  · intro q j hq
    rw [(hsame j).2.2.2.1]
    exact h.filling_lock q j hq
  · intro j q hq hne
    rw [(hsame j).2.2.2.1] at hq
    rw [(hsame j).1]
    exact h.held_valid j q hq hne

theorem write (h : CacheInv cache busy bias) (data : Block) :
    CacheInv (cache.update i fun x => { x with data }) busy bias := by
  refine h.congr rfl fun j => ?_
  by_cases hj : j = i
  · subst j
    simp
  · simp [Bcache.update_ne _ _ hj]

theorem filling_ne (h : CacheInv cache busy bias)
    (hb : ∀ j, b ≠ .filling j) {q : Pid} {j : BufId}
    (hq : update busy p b q = .filling j) :
    q ≠ p ∧ busy q = .filling j ∧ (cache.buf j).lock = some q := by
  by_cases hqp : q = p
  · subst q
    exact absurd (by simpa using hq) (hb j)
  · rw [update_of_ne hqp] at hq
    exact ⟨hqp, hq, h.filling_lock q j hq⟩

theorem acquire (h : CacheInv cache busy bias) (hp : busy p = .getting i)
    (hfree : (cache.buf i).lock = none) :
    CacheInv (cache.update i fun x => { x with lock := some p })
      (update busy p (.filling i)) bias := by
  have hr := refs_update cache (cache.update i fun x => { x with lock := some p }) busy p
    (.filling i) i
  simp only [hp, hfree, Busy.Counts, Bcache.update_self, Option.isSome_none, Option.isSome_some,
    Bool.false_eq_true, ↓reduceIte] at hr
  refine h.keep h.linked (fun j hj => Bcache.update_ne _ _ hj) (by simp) (by simp) ?_ ?_
    (fun _ _ => rfl) ?_ ?_ ?_ ?_
  · intro j hj
    simp [hp, Busy.Counts, Ne.symm hj]
  · simp [hp]
  · have := h.refcnt i
    simp only [Bcache.update_self]
    rw [this]
    congr 2
    omega
  · intro q hq
    obtain rfl : p = q := by simpa using hq
    exact ⟨h.getting_dev p i hp, by simp⟩
  · simp
  · intro q j hq
    by_cases hqp : q = p
    · subst q
      obtain rfl : i = j := by simpa using hq
      simp
    · rw [update_of_ne hqp] at hq
      have hl := h.filling_lock q j hq
      have hj : j ≠ i := fun e => by simp [e, hfree] at hl
      rwa [Bcache.update_ne _ _ hj]

theorem fill (h : CacheInv cache busy bias) (hp : busy p = .filling i) (f : Buf → Buf)
    (hdev : (f (cache.buf i)).dev = (cache.buf i).dev)
    (hno : (f (cache.buf i)).blockno = (cache.buf i).blockno)
    (hlock : (f (cache.buf i)).lock = (cache.buf i).lock)
    (href : (f (cache.buf i)).refcnt = (cache.buf i).refcnt) (hv : (f (cache.buf i)).valid) :
    CacheInv (cache.update i f) (update busy p .none) bias := by
  have hr := refs_update cache (cache.update i f) busy p .none i
  simp only [hp, hlock, Busy.Counts, Bcache.update_self, ↓reduceIte] at hr
  refine h.keep h.linked (fun j hj => Bcache.update_ne _ _ hj) (by simp [hdev]) (by simp [hno])
    ?_ ?_ (fun _ _ => rfl) ?_ ?_ ?_ ?_
  · simp [hp, Busy.Counts]
  · intro j hj hf
    rw [hp] at hf
    exact absurd (Busy.filling.inj hf).symm hj
  · rw [Bcache.update_self, href, h.refcnt]
    congr 2
    omega
  · intro q hq
    rw [Bcache.update_self, hlock] at hq
    exact ⟨h.lock_dev i q hq, fun _ => by simpa using hv⟩
  · simp
  · intro q j hq
    have hqp : q ≠ p := fun e => by simp [e] at hq
    rw [update_of_ne hqp] at hq
    have hl := h.filling_lock q j hq
    by_cases hj : j = i
    · subst j
      rwa [Bcache.update_self, hlock]
    · rwa [Bcache.update_ne _ _ hj]

theorem release (h : CacheInv cache busy bias) (hp : busy p = .none)
    (hheld : (cache.buf i).lock = some p) :
    CacheInv (cache.update i fun x => { x with lock := none })
      (update busy p (.putting i)) bias := by
  have hr := refs_update cache (cache.update i fun x => { x with lock := none }) busy p
    (.putting i) i
  simp only [hp, hheld, Busy.Counts, Bcache.update_self, Option.isSome_none, Option.isSome_some,
    Bool.false_eq_true, ↓reduceIte] at hr
  refine h.keep h.linked (fun j hj => Bcache.update_ne _ _ hj) (by simp) (by simp) ?_ ?_
    (fun _ _ => rfl) ?_ ?_ ?_ ?_
  · intro j hj
    simp [hp, Busy.Counts, Ne.symm hj]
  · simp [hp]
  · have := h.refcnt i
    simp only [Bcache.update_self]
    rw [this]
    congr 2
    omega
  · simp
  · simp
  · intro q j hq
    obtain ⟨hqp, -, hl⟩ := h.filling_ne (by simp) hq
    have hj : j ≠ i := fun e => by
      rw [e, hheld] at hl
      exact hqp (Option.some.inj hl).symm
    rwa [Bcache.update_ne _ _ hj]

theorem put (h : CacheInv cache busy bias) (hp : busy p = .putting i) :
    CacheInv (cache.put i) (update busy p .none) bias := by
  have hr := refs_update cache (cache.put i) busy p .none i
  simp only [hp, Busy.Counts, Bcache.put_buf, Bcache.update_self, Buf.decr, ↓reduceIte] at hr
  refine h.keep (i := i) (h.linked.put i) ?_ (by simp [Buf.decr]) (by simp [Buf.decr]) ?_ ?_
    (fun _ _ => rfl) ?_ ?_ ?_ ?_
  · intro j hj
    rw [Bcache.put_buf, Bcache.update_ne _ _ hj]
  · intro j hj
    simp [hp, Busy.Counts, Ne.symm hj]
  · simp [hp]
  · have := h.refcnt i
    simp only [Bcache.put_buf, Bcache.update_self, Buf.decr]
    split_ifs <;> omega
  · intro q hq
    rw [Bcache.put_buf, Bcache.update_self, Buf.decr] at hq ⊢
    refine ⟨h.lock_dev i q hq, fun hne => h.held_valid i q hq fun hf => hne ?_⟩
    have hqp : q ≠ p := fun e => by simp [e, hp] at hf
    rwa [update_of_ne hqp]
  · simp
  · intro q j hq
    obtain ⟨-, -, hl⟩ := h.filling_ne (by simp) hq
    rw [Bcache.put_buf]
    by_cases hj : j = i
    · subst j
      simpa [Buf.decr] using hl
    · rwa [Bcache.update_ne _ _ hj]

theorem recount (h : CacheInv cache busy bias) (p : Pid) (m : ℕ)
    (hbias : ∀ j, j ≠ i → bonus cache bias' j = bonus cache bias j)
    (href : m = (refs cache busy i + bonus cache bias' i) % 2 ^ 32) :
    CacheInv (cache.update i fun x => { x with refcnt := m }) busy bias' := by
  have hsame : ∀ j, ((cache.update i fun x => { x with refcnt := m }).buf j).lock =
      (cache.buf j).lock := fun j => by
    by_cases hj : j = i
    · subst j
      simp
    · rw [Bcache.update_ne _ _ hj]
  rw [← update_eq_self p busy]
  refine h.keep h.linked (fun j hj => Bcache.update_ne _ _ hj) (by simp) (by simp)
    (fun _ _ => Iff.rfl) (fun _ _ hf => hf) hbias ?_ ?_ ?_ ?_
  · have hr : refs (cache.update i fun x => { x with refcnt := m }) busy i =
        refs cache busy i := by
      unfold refs
      rw [hsame]
    rw [update_eq_self, hr, Bcache.update_self]
    exact href
  · intro q hq
    rw [hsame] at hq
    rw [update_eq_self, Bcache.update_self]
    exact ⟨h.lock_dev i q hq, fun hne => h.held_valid i q hq hne⟩
  · exact fun j hj => h.getting_dev _ j hj
  · intro q j hq
    rw [update_eq_self] at hq
    rw [hsame]
    exact h.filling_lock q j hq

theorem get_hit (h : CacheInv cache busy bias) (hp : busy p = .none)
    (hdev : (cache.buf i).dev = rootDev) :
    CacheInv (cache.update i Buf.incr) (update busy p (.getting i)) bias := by
  have hr := refs_update cache (cache.update i Buf.incr) busy p (.getting i) i
  simp only [hp, Busy.Counts, Bcache.update_self, Buf.incr, ↓reduceIte] at hr
  refine h.keep h.linked (fun j hj => Bcache.update_ne _ _ hj) (by simp [Buf.incr])
    (by simp [Buf.incr]) ?_ ?_ (fun _ _ => rfl) ?_ ?_ ?_ ?_
  · intro j hj
    simp [hp, Busy.Counts, Ne.symm hj]
  · simp [hp]
  · have := h.refcnt i
    simp only [Bcache.update_self, Buf.incr]
    omega
  · intro q hq
    rw [Bcache.update_self, Buf.incr] at hq ⊢
    refine ⟨hdev, fun hne => h.held_valid i q hq fun hf => hne ?_⟩
    have hqp : q ≠ p := fun e => by simp [e, hp] at hf
    rwa [update_of_ne hqp]
  · rintro j hj
    obtain rfl : i = j := Busy.getting.inj hj
    exact hdev
  · intro q j hq
    obtain ⟨-, -, hl⟩ := h.filling_ne (by simp) hq
    by_cases hj : j = i
    · subst j
      simpa [Buf.incr] using hl
    · rwa [Bcache.update_ne _ _ hj]

theorem get_miss {n : ℕ} (h : CacheInv cache busy bias) (hp : busy p = .none)
    (hno : ∀ j, ¬ (cache.buf j).Holds n) (hz : refs cache busy i = 0) (hbias : bias n = 0) :
    CacheInv (cache.update i fun x =>
        { x with dev := rootDev, blockno := n, valid := false, refcnt := 1 })
      (update busy p (.getting i)) bias := by
  have hr := refs_update cache (cache.update i fun x =>
    { x with dev := rootDev, blockno := n, valid := false, refcnt := 1 }) busy p (.getting i)
  obtain ⟨hfree, hidle⟩ := refs_eq_zero hz
  constructor
  · exact h.linked
  · intro j k m hj hk
    by_cases hji : j = i <;> by_cases hki : k = i
    · rw [hji, hki]
    · subst j
      rw [Bcache.update_ne _ _ hki] at hk
      obtain rfl : n = m := by simpa [Buf.Holds] using hj
      exact absurd hk (hno k)
    · subst k
      rw [Bcache.update_ne _ _ hji] at hj
      obtain rfl : n = m := by simpa [Buf.Holds] using hk
      exact absurd hj (hno j)
    · rw [Bcache.update_ne _ _ hji] at hj
      rw [Bcache.update_ne _ _ hki] at hk
      exact h.unique j k m hj hk
  · intro j
    have hrj := hr j
    by_cases hj : j = i
    · subst j
      simp only [hp, hfree, hz, Busy.Counts, Bcache.update_self, Option.isSome_none,
        Bool.false_eq_true, ↓reduceIte] at hrj
      rw [bonus, Bcache.update_self, if_pos rfl, hbias]
      show 1 = _
      omega
    · have hb : ∀ f, bonus (cache.update i f) bias j = bonus cache bias j := fun f => by
        unfold bonus
        rw [Bcache.update_ne _ _ hj]
      rw [hb]
      rw [Bcache.update_ne _ _ hj] at hrj ⊢
      simp only [hp, Busy.Counts, Ne.symm hj, ↓reduceIte] at hrj
      rw [h.refcnt]
      omega
  · intro j q hq
    by_cases hj : j = i
    · simp [hj]
    · rw [Bcache.update_ne _ _ hj] at hq ⊢
      exact h.lock_dev j q hq
  · intro q j hq
    by_cases hj : j = i
    · simp [hj]
    · have hqp : q ≠ p := fun e => by
        rw [e, update_self] at hq
        exact hj (Busy.getting.inj hq).symm
      rw [update_of_ne hqp] at hq
      rw [Bcache.update_ne _ _ hj]
      exact h.getting_dev q j hq
  · intro q j hq
    obtain ⟨-, -, hl⟩ := h.filling_ne (by simp) hq
    have hj : j ≠ i := fun e => by simp [e, hfree] at hl
    rwa [Bcache.update_ne _ _ hj]
  · intro j q hq hne
    have hj : j ≠ i := fun e => by simp [e, hfree] at hq
    rw [Bcache.update_ne _ _ hj] at hq ⊢
    refine h.held_valid j q hq fun hf => hne ?_
    have hqp : q ≠ p := fun e => by simp [e, hp] at hf
    rwa [update_of_ne hqp]

theorem refs_of_refcnt_zero (h : CacheInv cache busy bias)
    (hlt : refs cache busy i + bonus cache bias i < 2 ^ 32) (hz : (cache.buf i).refcnt = 0) :
    refs cache busy i = 0 ∧ bonus cache bias i = 0 := by
  rw [h.refcnt, Nat.mod_eq_of_lt hlt] at hz
  omega

theorem get {n : ℕ} (h : CacheInv cache busy bias) (hp : busy p = .none)
    (hlt : ∀ i, refs cache busy i + bonus cache bias i < 2 ^ 32)
    (hbias : bias n ≠ 0 → ∃ j, (cache.buf j).Holds n) (hb : cache.bget n = .ok (i, cache')) :
    CacheInv cache' (update busy p (.getting i)) bias := by
  rcases Bcache.bget_ok h.linked hb with ⟨hi, rfl⟩ | ⟨hno, hz, rfl⟩
  · exact h.get_hit hp hi.1
  · have hn : bias n = 0 := by
      by_contra hn
      obtain ⟨j, hj⟩ := hbias hn
      exact hno j hj
    exact h.get_miss hp hno (h.refs_of_refcnt_zero (hlt i) hz).1 hn

end CacheInv

end Xv6
