import Mathlib.Data.Nat.Notation
import Mathlib.Logic.Function.Basic
import Mathlib.Tactic.Common

/-! Partial maps from numbers, to which a range is added or from which one is removed. -/
namespace Xv6.Lib
open Function

variable {β : Type} {M M' M'' : ℕ → Option β} {v n n' : ℕ} {f g : ℕ → β}

/-- `M'` is `M` with the `n` numbers from `v` on, which `M` does not have. -/
structure Adds (M M' : ℕ → Option β) (v n : ℕ) (f : ℕ → β) : Prop where
  free : ∀ k < n, M (v + k) = none
  added : ∀ k < n, M' (v + k) = some (f k)
  rest : ∀ w, w < v ∨ v + n ≤ w → M' w = M w

/-- `M'` is `M` without the `n` numbers from `v` on, which `M` has. -/
structure Removes (M M' : ℕ → Option β) (v n : ℕ) : Prop where
  mapped : ∀ k < n, (M (v + k)).isSome = true
  gone : ∀ k < n, M' (v + k) = none
  rest : ∀ w, w < v ∨ v + n ≤ w → M' w = M w

namespace Adds

theorem zero (M : ℕ → Option β) (v : ℕ) (f : ℕ → β) : Adds M M v 0 f :=
  ⟨fun k hk => absurd hk (Nat.not_lt_zero k), fun k hk => absurd hk (Nat.not_lt_zero k), fun _ _ => rfl⟩

theorem cons (hfree : M v = none) (h : Adds (update M v (some (f 0))) M' (v + 1) n g)
    (hg : ∀ k < n, g k = f (k + 1)) : Adds M M' v (n + 1) f := by
  refine ⟨fun k hk => ?_, fun k hk => ?_, fun w hw => ?_⟩
  · cases k with
    | zero => exact hfree
    | succ k =>
      have hk' := h.free k (by omega)
      rw [update_of_ne (by omega)] at hk'
      rwa [show v + (k + 1) = v + 1 + k by omega]
  · cases k with
    | zero => rw [Nat.add_zero, h.rest v (.inl (by omega)), update_self]
    | succ k =>
      rw [show v + (k + 1) = v + 1 + k by omega, h.added k (by omega), hg k (by omega)]
  · rw [h.rest w (by omega), update_of_ne (by omega)]

theorem append (h : Adds M M' v n f) (h' : Adds M' M'' (v + n) n' g) (hfg : ∀ k < n', g k = f (n + k)) :
    Adds M M'' v (n + n') f := by
  refine ⟨fun k hk => ?_, fun k hk => ?_, fun w hw => ?_⟩
  · by_cases hkn : k < n
    · exact h.free k hkn
    · have hk' := h'.free (k - n) (by omega)
      rwa [show v + n + (k - n) = v + k by omega, h.rest _ (.inr (by omega))] at hk'
  · by_cases hkn : k < n
    · rw [h'.rest _ (.inl (by omega)), h.added k hkn]
    · have hk' := h'.added (k - n) (by omega)
      rwa [show v + n + (k - n) = v + k by omega, hfg _ (by omega), show n + (k - n) = k by omega] at hk'
  · rw [h'.rest w (by omega), h.rest w (by omega)]

theorem removed (h : Adds M M' v n f) (h' : Removes M' M'' v n) : M'' = M := by
  funext w
  by_cases hw : v ≤ w ∧ w < v + n
  · have hsum : v + (w - v) = w := by omega
    have hgone := h'.gone (w - v) (by omega)
    have hfree := h.free (w - v) (by omega)
    rw [hsum] at hgone hfree
    rw [hgone, hfree]
  · rw [h'.rest w (by omega), h.rest w (by omega)]

end Adds

namespace Removes

theorem zero (M : ℕ → Option β) (v : ℕ) : Removes M M v 0 :=
  ⟨fun k hk => absurd hk (Nat.not_lt_zero k), fun k hk => absurd hk (Nat.not_lt_zero k), fun _ _ => rfl⟩

theorem cons (hmapped : (M v).isSome = true) (h : Removes (update M v none) M' (v + 1) n) :
    Removes M M' v (n + 1) := by
  refine ⟨fun k hk => ?_, fun k hk => ?_, fun w hw => ?_⟩
  · cases k with
    | zero => exact hmapped
    | succ k =>
      have hk' := h.mapped k (by omega)
      rw [update_of_ne (by omega)] at hk'
      rwa [show v + (k + 1) = v + 1 + k by omega]
  · cases k with
    | zero => rw [Nat.add_zero, h.rest v (.inl (by omega)), update_self]
    | succ k => rw [show v + (k + 1) = v + 1 + k by omega, h.gone k (by omega)]
  · rw [h.rest w (by omega), update_of_ne (by omega)]

end Removes
end Xv6.Lib
