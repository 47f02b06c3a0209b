import Mathlib.Data.Nat.Notation
import Mathlib.Tactic

/-! Little-endian fields of a byte array: an unsigned integer of `n` bytes at a byte
offset, read and stored. -/
namespace Xv6.Lib

/-- A byte array; the offsets that exist are fixed by the user of the array. -/
abbrev Bytes := ℕ → UInt8

namespace Bytes

def get (a : Bytes) (off : ℕ) : ℕ → ℕ
  | 0 => 0
  | n + 1 => (a off).toNat + 256 * get a (off + 1) n

/-- Store the low `n` bytes of `v` at `off`. -/
def set (a : Bytes) (off n v : ℕ) : Bytes := fun k =>
  if off ≤ k ∧ k < off + n then UInt8.ofNat (v / 256 ^ (k - off)) else a k

/-- Store the bytes `src[0 .. n)` at `off`. -/
def blit (a : Bytes) (off n : ℕ) (src : Bytes) : Bytes := fun k =>
  if off ≤ k ∧ k < off + n then src (k - off) else a k

theorem blit_zero (a : Bytes) (off : ℕ) (src : Bytes) : a.blit off 0 src = a := by
  funext k
  exact if_neg (by omega)

theorem blit_congr {f g : Bytes} {n : ℕ} (h : ∀ k < n, f k = g k) (a : Bytes) (off : ℕ) :
    a.blit off n f = a.blit off n g := by
  funext k
  unfold blit
  split_ifs with hk
  · exact h _ (by omega)
  · rfl

theorem blit_blit {f g src : Bytes} {m n : ℕ} (hf : ∀ k < m, f k = src k) (hg : ∀ k < n, g k = src (m + k))
    (a : Bytes) (off : ℕ) : (a.blit off m f).blit (off + m) n g = a.blit off (m + n) src := by
  funext k
  unfold blit
  by_cases h₁ : off + m ≤ k ∧ k < off + m + n
  · rw [if_pos h₁, if_pos (by omega), hg _ (by omega)]
    congr 1
    omega
  · rw [if_neg h₁]
    by_cases h₂ : off ≤ k ∧ k < off + m
    · rw [if_pos h₂, if_pos (by omega), hf _ (by omega)]
    · rw [if_neg h₂, if_neg (by omega)]

theorem get_congr {a b : Bytes} {off n : ℕ} (h : ∀ k, off ≤ k → k < off + n → a k = b k) :
    a.get off n = b.get off n := by
  induction n generalizing off with
  | zero => rfl
  | succ n ih =>
    rw [get, get, h off le_rfl (by omega), ih fun k hk hk' => h k (by omega) (by omega)]

theorem get_zero (off n : ℕ) : get (fun _ => 0) off n = 0 := by
  induction n generalizing off with
  | zero => rfl
  | succ n ih => rw [get, ih, UInt8.toNat_zero]

theorem get_lt (a : Bytes) (off n : ℕ) : a.get off n < 256 ^ n := by
  induction n generalizing off with
  | zero => simp [get]
  | succ n ih =>
    have h := ih (off + 1)
    have hb := (a off).toNat_lt
    rw [get, pow_succ]
    omega

theorem get_of_bytes {a : Bytes} {off n v : ℕ} (hv : v < 256 ^ n)
    (h : ∀ k < n, a (off + k) = UInt8.ofNat (v / 256 ^ k)) : a.get off n = v := by
  induction n generalizing off v with
  | zero =>
    rw [pow_zero] at hv
    rw [get]
    omega
  | succ n ih =>
    have h0 : a off = UInt8.ofNat v := by simpa using h 0 (by omega)
    have hdiv : v / 256 < 256 ^ n := by
      rw [pow_succ] at hv
      omega
    have hrest : a.get (off + 1) n = v / 256 := by
      refine ih hdiv fun k hk => ?_
      have := h (k + 1) (by omega)
      rw [show off + (k + 1) = off + 1 + k by omega, pow_succ', ← Nat.div_div_eq_div_mul] at this
      exact this
    rw [get, h0, hrest, UInt8.toNat_ofNat']
    omega

@[simp] theorem get_set {a : Bytes} {off n v : ℕ} (hv : v < 256 ^ n) :
    (a.set off n v).get off n = v :=
  get_of_bytes hv fun k hk => by simp [set, hk]

theorem get_set_of_disjoint {a : Bytes} {off n v off' n' : ℕ}
    (h : off' + n' ≤ off ∨ off + n ≤ off') : (a.set off n v).get off' n' = a.get off' n' := by
  refine get_congr fun k hk hk' => ?_
  rw [set, if_neg (by omega)]

end Bytes
end Xv6.Lib
