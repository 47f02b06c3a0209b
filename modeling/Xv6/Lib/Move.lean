import Mathlib.Algebra.Group.Basic
import Mathlib.Data.Int.Cast.Basic
import Mathlib.Logic.Function.Basic
import Mathlib.Tactic.Abel

/-! Copying a region of memory a cell at a time, from its first cell on or from its last cell back, when
the two regions may overlap. -/
namespace Xv6.Lib
open Function

variable {α β : Type} [DecidableEq α] [AddCommGroupWithOne α]

/-- `while (n-- > 0) *dst++ = *src++` -/
def copyUp (mem : α → β) (dst src : α) : ℕ → α → β
  | 0 => mem
  | n + 1 => copyUp (update mem dst (mem src)) (dst + 1) (src + 1) n

/-- `while (n-- > 0) *--dst = *--src` -/
def copyDown (mem : α → β) (dst src : α) : ℕ → α → β
  | 0 => mem
  | n + 1 => copyDown (update mem (dst - 1) (mem (src - 1))) (dst - 1) (src - 1) n

/-- The `n` cells at `dst` are what those at `src` were, and no other cell has changed. -/
structure Moved (mem : α → β) (dst src : α) (n : ℕ) (mem' : α → β) : Prop where
  copied : ∀ k < n, mem' (dst + k) = mem (src + k)
  frame : ∀ a, (∀ k < n, a ≠ dst + (k : α)) → mem' a = mem a

variable {mem : α → β} {dst src : α} {n : ℕ}

theorem moved_copyUp (hinj : ∀ i j, i < j → j < n → dst + (i : α) ≠ dst + j)
    (hsep : ∀ i j, i < j → j < n → dst + (i : α) ≠ src + j) : Moved mem dst src n (copyUp mem dst src n) := by
  induction n generalizing mem dst src with
  | zero => exact ⟨fun k hk => absurd hk (Nat.not_lt_zero k), fun a _ => rfl⟩
  | succ n ih =>
    have hnext : ∀ (p : α) (k : ℕ), p + 1 + (k : α) = p + ((k + 1 : ℕ) : α) := fun p k => by
      push_cast
      abel
    have hrest := @ih (update mem dst (mem src)) (dst + 1) (src + 1)
      (fun i j hij hj => by
        rw [hnext, hnext]
        exact hinj (i + 1) (j + 1) (by omega) (by omega))
      (fun i j hij hj => by
        rw [hnext, hnext]
        exact hsep (i + 1) (j + 1) (by omega) (by omega))
    refine ⟨fun k hk => ?_, fun a ha => ?_⟩
    · cases k with
      | zero =>
        show copyUp _ (dst + 1) (src + 1) n _ = _
        rw [hrest.frame _ fun k hk => by rw [hnext]; exact hinj 0 (k + 1) (by omega) (by omega)]
        rw [Nat.cast_zero, add_zero, add_zero, update_self]
      | succ k =>
        have hcopied := hrest.copied k (by omega)
        rw [hnext, hnext, update_of_ne] at hcopied
        · exact hcopied
        · have := hsep 0 (k + 1) (by omega) hk
          rw [Nat.cast_zero, add_zero] at this
          exact this.symm
    · have hframe := hrest.frame a fun k hk => by
        rw [hnext]
        exact ha (k + 1) (by omega)
      have hne := ha 0 (by omega)
      rw [Nat.cast_zero, add_zero] at hne
      rw [update_of_ne hne] at hframe
      exact hframe

theorem moved_copyDown (hinj : ∀ i j, i < j → j < n → dst + (i : α) ≠ dst + j)
    (hsep : ∀ i j, i < j → j < n → dst + (j : α) ≠ src + i) :
    Moved mem dst src n (copyDown mem (dst + n) (src + n) n) := by
  induction n generalizing mem with
  | zero => exact ⟨fun k hk => absurd hk (Nat.not_lt_zero k), fun a _ => rfl⟩
  | succ n ih =>
    have hlast : ∀ p : α, p + ((n + 1 : ℕ) : α) - 1 = p + n := fun p => by
      push_cast
      abel
    have hrest := @ih (update mem (dst + n) (mem (src + n))) (fun i j hij hj => hinj i j hij (by omega))
      fun i j hij hj => hsep i j hij (by omega)
    have hstep : copyDown mem (dst + ((n + 1 : ℕ) : α)) (src + ((n + 1 : ℕ) : α)) (n + 1) =
        copyDown (update mem (dst + n) (mem (src + n))) (dst + n) (src + n) n := by
      rw [copyDown, hlast, hlast]
    rw [hstep]
    refine ⟨fun k hk => ?_, fun a ha => ?_⟩
    · by_cases hkn : k = n
      · subst hkn
        rw [hrest.frame _ fun i hi => (hinj i k hi (by omega)).symm, update_self]
      · rw [hrest.copied k (by omega), update_of_ne]
        exact (hsep k n (by omega) (by omega)).symm
    · rw [hrest.frame a fun k hk => ha k (by omega), update_of_ne (ha n (by omega))]

end Xv6.Lib
