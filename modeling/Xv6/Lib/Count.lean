import Mathlib.Data.Fintype.Card
import Mathlib.Algebra.BigOperators.Group.Finset.Piecewise
import Mathlib.Tactic

/-! Counting the indices at which a function has a property, and adding up its values, while
it changes at one index at a time. -/
namespace Xv6.Lib
open Function

variable {ι α : Type*} [Fintype ι] (P : α → Prop) [DecidablePred P]

/-- The number of indices at which `f` has the property. -/
def count (f : ι → α) : ℕ := (Finset.univ.filter fun i => P (f i)).card

theorem count_eq_add_erase [DecidableEq ι] (f : ι → α) (i : ι) :
    count P f = (if P (f i) then 1 else 0) + ((Finset.univ.erase i).filter fun j => P (f j)).card := by
  unfold count
  rw [← Finset.insert_erase (Finset.mem_univ i), Finset.filter_insert,
    Finset.erase_insert (Finset.notMem_erase i _)]
  split_ifs with h
  · rw [Finset.card_insert_of_notMem (by simp)]
    omega
  · omega

theorem count_update [DecidableEq ι] (f : ι → α) (i : ι) (a : α) :
    count P (update f i a) + (if P (f i) then 1 else 0) =
      count P f + (if P a then 1 else 0) := by
  have hrest : (Finset.univ.erase i).filter (fun j => P (update f i a j)) =
      (Finset.univ.erase i).filter fun j => P (f j) := by
    refine Finset.filter_congr fun j hj => ?_
    rw [update_of_ne (Finset.ne_of_mem_erase hj)]
  rw [count_eq_add_erase P _ i, count_eq_add_erase P f i, hrest, update_self]
  omega

theorem count_le (f : ι → α) : count P f ≤ Fintype.card ι :=
  Finset.card_filter_le _ _

theorem count_eq_zero {f : ι → α} : count P f = 0 ↔ ∀ i, ¬ P (f i) := by
  unfold count
  rw [Finset.card_eq_zero, Finset.filter_eq_empty_iff]
  simp

theorem sum_update_add {ι M : Type*} [Fintype ι] [DecidableEq ι] [AddCommMonoid M] (f : ι → M) (i : ι)
    (b : M) : (∑ j, update f i b j) + f i = (∑ j, f j) + b := by
  rw [Finset.sum_update_of_mem (Finset.mem_univ i), ← Finset.add_sum_erase _ f (Finset.mem_univ i),
    Finset.sdiff_singleton_eq_erase]
  abel

theorem sum_singleton {β : Type*} {n : ℕ} (f : Fin n → β) :
    ∑ i, ({f i} : Multiset β) = ((List.finRange n).map f : Multiset β) := by
  rw [Fin.sum_univ_def]
  induction List.finRange n with
  | nil => rfl
  | cons i l ih =>
    rw [List.map_cons, List.map_cons, List.sum_cons, ih]
    rfl

end Xv6.Lib
