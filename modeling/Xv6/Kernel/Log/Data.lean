import Xv6.Kernel.Log.Held

/-! What the buffers contain while every change to a buffer is logged. -/
namespace Xv6
open Lib Function

/-- The contents of a block: what was last logged for it while the disk is behind, and
the disk's bytes otherwise. -/
def view (ahead : List ℕ) (disk mem : Disk) (n : ℕ) : Block :=
  if n ∈ ahead then mem n else disk n

/-- `ahead` lists the blocks whose logged contents `mem` have not reached the disk. -/
structure DataInv (cache : Bcache) (dirty : BufId → Bool) (proc : Pid → Proc) (disk mem : Disk)
    (ahead : List ℕ) : Prop where
  coh : ∀ i n, (cache.buf i).Holds n → (cache.buf i).valid = true → dirty i = false →
    (cache.buf i).data = view ahead disk mem n
  cached : ∀ n ∈ ahead, ∃ i, (cache.buf i).Holds n ∧ (cache.buf i).valid = true
  dirty_lock : ∀ i, dirty i = true → ∃ q, (cache.buf i).lock = some q ∧
    (proc q).inOp = true ∧ (proc q).busy ≠ .filling i ∧ ¬ InLog (cache.buf i).blockno

namespace DataInv
variable {cache cache' : Bcache} {dirty : BufId → Bool} {proc proc' : Pid → Proc}
  {disk disk' mem mem' : Disk} {ahead ahead' : List ℕ} {i : BufId} {p : Pid}

theorem clean (h : DataInv cache dirty proc disk mem ahead)
    (hi : ∀ q, (cache.buf i).lock = some q → (proc q).inOp = true → (proc q).busy = .filling i) :
    dirty i = false := by
  cases hd : dirty i with
  | false => rfl
  | true =>
    obtain ⟨q, hl, hop, hne, -⟩ := h.dirty_lock i hd
    exact absurd (hi q hl hop) hne

theorem keep (h : DataInv cache dirty proc disk mem ahead)
    (hsame : ∀ j, (cache'.buf j).valid = (cache.buf j).valid ∧
      (cache'.buf j).dev = (cache.buf j).dev ∧ (cache'.buf j).blockno = (cache.buf j).blockno ∧
      (cache'.buf j).data = (cache.buf j).data)
    (hlock : ∀ j q, dirty j = true → (cache.buf j).lock = some q → (proc q).inOp = true →
      (proc q).busy ≠ .filling j → (cache'.buf j).lock = some q ∧ (proc' q).inOp = true ∧
        (proc' q).busy ≠ .filling j) :
    DataInv cache' dirty proc' disk mem ahead := by
  have hholds : ∀ j n, (cache'.buf j).Holds n ↔ (cache.buf j).Holds n := fun j n => by
    unfold Buf.Holds
    rw [(hsame j).2.1, (hsame j).2.2.1]
  constructor
  · intro j n hj hv hd
    rw [(hsame j).1] at hv
    rw [(hsame j).2.2.2]
    exact h.coh j n ((hholds j n).mp hj) hv hd
  · intro n hn
    obtain ⟨j, hj, hv⟩ := h.cached n hn
    exact ⟨j, (hholds j n).mpr hj, by rw [(hsame j).1, hv]⟩
  · intro j hd
    obtain ⟨q, hl, hop, hne, hhome⟩ := h.dirty_lock j hd
    obtain ⟨hl', hop', hne'⟩ := hlock j q hd hl hop hne
    exact ⟨q, hl', hop', hne', by rwa [(hsame j).2.2.1]⟩

theorem congr (h : DataInv cache dirty proc disk mem ahead)
    (hview : ∀ i n, (cache.buf i).Holds n → view ahead' disk' mem' n = view ahead disk mem n)
    (hsub : ∀ n ∈ ahead', n ∈ ahead) : DataInv cache dirty proc disk' mem' ahead' where
  coh i n hi hv hd := by rw [hview i n hi, h.coh i n hi hv hd]
  cached n hn := h.cached n (hsub n hn)
  dirty_lock := h.dirty_lock

theorem rebind {n : ℕ} (h : DataInv cache dirty proc disk mem ahead)
    (hfree : (cache.buf i).lock = none) (hpend : ∀ n ∈ ahead, ¬ (cache.buf i).Holds n)
    (hproc : ∀ j q, (proc q).inOp = true → (proc q).busy ≠ .filling j →
      (proc' q).inOp = true ∧ (proc' q).busy ≠ .filling j) :
    DataInv (cache.update i fun b =>
        { b with dev := rootDev, blockno := n, valid := false, refcnt := 1 })
      dirty proc' disk mem ahead := by
  constructor
  · intro j m hj hv hd
    have hji : j ≠ i := fun e => by simp [e] at hv
    rw [Bcache.update_ne _ _ hji] at hj hv ⊢
    exact h.coh j m hj hv hd
  · intro m hm
    obtain ⟨j, hj, hv⟩ := h.cached m hm
    have hji : j ≠ i := fun e => hpend m hm (e ▸ hj)
    exact ⟨j, by rwa [Bcache.update_ne _ _ hji], by rwa [Bcache.update_ne _ _ hji]⟩
  · intro j hd
    obtain ⟨q, hl, hop, hne, hhome⟩ := h.dirty_lock j hd
    have hji : j ≠ i := fun e => by simp [e, hfree] at hl
    rw [Bcache.update_ne _ _ hji]
    exact ⟨q, hl, (hproc j q hop hne).1, (hproc j q hop hne).2, hhome⟩

theorem filled_eq {n : ℕ} (h : DataInv cache dirty proc disk mem ahead)
    (hu : ∀ i j n, (cache.buf i).Holds n → (cache.buf j).Holds n → i = j)
    (hi : (cache.buf i).Holds n) (hd : dirty i = false) :
    ((cache.buf i).filled disk).data = view ahead disk mem n := by
  unfold Buf.filled
  split_ifs with hv
  · exact h.coh i n hi hv hd
  · have hn : n ∉ ahead := fun hn => by
      obtain ⟨j, hj, hv'⟩ := h.cached n hn
      obtain rfl := hu j i n hj hi
      exact hv hv'
    rw [view, if_neg hn, hi.2]

theorem fill (h : DataInv cache dirty proc disk mem ahead)
    (hu : ∀ i j n, (cache.buf i).Holds n → (cache.buf j).Holds n → i = j)
    (hproc : ∀ j q, (proc q).inOp = true → (proc q).busy ≠ .filling j →
      (proc' q).inOp = true ∧ (proc' q).busy ≠ .filling j) :
    DataInv (cache.update i (Buf.filled disk)) dirty proc' disk mem ahead := by
  have hkeep : ∀ b : Buf, (b.filled disk).dev = b.dev ∧ (b.filled disk).blockno = b.blockno ∧
      (b.filled disk).lock = b.lock ∧ (b.filled disk).valid = true := fun b => by
    unfold Buf.filled
    split_ifs with hv <;> simp [hv]
  constructor
  · intro j n hj hv hd
    by_cases hji : j = i
    · subst j
      rw [Bcache.update_self] at hj ⊢
      have hj' : (cache.buf i).Holds n := by
        unfold Buf.Holds at hj ⊢
        rwa [(hkeep _).1, (hkeep _).2.1] at hj
      exact h.filled_eq hu hj' hd
    · rw [Bcache.update_ne _ _ hji] at hj hv ⊢
      exact h.coh j n hj hv hd
  · intro n hn
    obtain ⟨j, hj, hv⟩ := h.cached n hn
    by_cases hji : j = i
    · subst j
      refine ⟨i, ?_, ?_⟩ <;> rw [Bcache.update_self]
      · unfold Buf.Holds at hj ⊢
        rwa [(hkeep _).1, (hkeep _).2.1]
      · exact (hkeep _).2.2.2
    · exact ⟨j, by rwa [Bcache.update_ne _ _ hji], by rwa [Bcache.update_ne _ _ hji]⟩
  · intro j hd
    obtain ⟨q, hl, hop, hne, hhome⟩ := h.dirty_lock j hd
    refine ⟨q, ?_, (hproc j q hop hne).1, (hproc j q hop hne).2, ?_⟩
    · by_cases hji : j = i
      · subst j
        rwa [Bcache.update_self, (hkeep _).2.2.1]
      · rwa [Bcache.update_ne _ _ hji]
    · by_cases hji : j = i
      · subst j
        rwa [Bcache.update_self, (hkeep _).2.1]
      · rwa [Bcache.update_ne _ _ hji]

theorem change (h : DataInv cache dirty proc disk mem ahead) (data : Block)
    (hheld : (cache.buf i).lock = some p) (hop : (proc p).inOp = true)
    (hbusy : (proc p).busy ≠ .filling i) (hhome : ¬ InLog (cache.buf i).blockno) :
    DataInv (cache.update i fun b => { b with data }) (update dirty i true) proc disk mem
      ahead := by
  constructor
  · intro j n hj hv hd
    have hji : j ≠ i := fun e => by simp [e] at hd
    rw [update_of_ne hji] at hd
    rw [Bcache.update_ne _ _ hji] at hj hv ⊢
    exact h.coh j n hj hv hd
  · intro n hn
    obtain ⟨j, hj, hv⟩ := h.cached n hn
    by_cases hji : j = i
    · subst j
      exact ⟨i, by simpa [Buf.Holds] using hj, by simpa using hv⟩
    · exact ⟨j, by rwa [Bcache.update_ne _ _ hji], by rwa [Bcache.update_ne _ _ hji]⟩
  · intro j hd
    by_cases hji : j = i
    · subst j
      exact ⟨p, by simpa using hheld, hop, hbusy, by simpa using hhome⟩
    · rw [update_of_ne hji] at hd
      rw [Bcache.update_ne _ _ hji]
      exact h.dirty_lock j hd

theorem logWrite {n : ℕ} (h : DataInv cache dirty proc disk mem ahead)
    (hu : ∀ i j n, (cache.buf i).Holds n → (cache.buf j).Holds n → i = j)
    (hi : (cache.buf i).Holds n) (hv : (cache.buf i).valid = true)
    (hahead : ∀ m, m ∈ ahead' ↔ m ∈ ahead ∨ m = n) :
    DataInv cache (update dirty i false) proc disk
      (update mem n (cache.buf i).data) ahead' := by
  constructor
  · intro j m hj hvj hd
    by_cases hji : j = i
    · subst j
      obtain rfl : n = m := hi.2.symm.trans hj.2
      rw [view, if_pos ((hahead n).mpr (.inr rfl)), update_self]
    · rw [update_of_ne hji] at hd
      have hmn : m ≠ n := fun e => hji (hu j i n (e ▸ hj) hi)
      rw [h.coh j m hj hvj hd]
      simp only [view, hahead, hmn, or_false, update_of_ne hmn]
  · intro m hm
    rcases (hahead m).mp hm with hm | rfl
    · exact h.cached m hm
    · exact ⟨i, hi, hv⟩
  · intro j hd
    have hji : j ≠ i := fun e => by simp [e] at hd
    rw [update_of_ne hji] at hd
    exact h.dirty_lock j hd

theorem store {n : ℕ} (h : DataInv cache dirty proc disk mem ahead) (data : Block)
    (hu : ∀ i j n, (cache.buf i).Holds n → (cache.buf j).Holds n → i = j)
    (hi : (cache.buf i).Holds n) (hdata : n ∈ ahead → data = mem n) :
    DataInv (cache.update i fun b => { b with data }) dirty proc (update disk n data) mem
      ahead := by
  constructor
  · intro j m hj hv hd
    by_cases hji : j = i
    · subst j
      rw [Bcache.update_self] at hj ⊢
      obtain rfl : n = m := hi.2.symm.trans hj.2
      unfold view
      split_ifs with hn
      · exact hdata hn
      · rw [update_self]
    · rw [Bcache.update_ne _ _ hji] at hj hv ⊢
      have hmn : m ≠ n := fun e => hji (hu j i n (e ▸ hj) hi)
      rw [h.coh j m hj hv hd, view, view, update_of_ne hmn]
  · intro m hm
    obtain ⟨j, hj, hv⟩ := h.cached m hm
    by_cases hji : j = i
    · subst j
      exact ⟨i, by simpa [Buf.Holds] using hj, by simpa using hv⟩
    · exact ⟨j, by rwa [Bcache.update_ne _ _ hji], by rwa [Bcache.update_ne _ _ hji]⟩
  · intro j hd
    obtain ⟨q, hl, hop, hne, hhome⟩ := h.dirty_lock j hd
    by_cases hji : j = i
    · subst j
      exact ⟨q, by simpa using hl, hop, hne, by simpa using hhome⟩
    · exact ⟨q, by rwa [Bcache.update_ne _ _ hji], hop, hne, by rwa [Bcache.update_ne _ _ hji]⟩

end DataInv
end Xv6
