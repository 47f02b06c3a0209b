import Mathlib.Data.BitVec
import Mathlib.Logic.Function.Basic
import Xv6.Lib.Bytes
import Xv6.Lib.Move

/-! `memmove`, and `strncmp` and `strncpy` on fields of a fixed size, which need not end in a NUL. -/
namespace Xv6
open Lib Function

def memmove (mem : BitVec 64 → UInt8) (dst src : BitVec 64) (n : BitVec 32) : BitVec 64 → UInt8 :=
  if src < dst ∧ dst < src + n.setWidth 64 then
    copyDown mem (dst + n.setWidth 64) (src + n.setWidth 64) n.toNat
  else copyUp mem dst src n.toNat

section
variable {mem : BitVec 64 → UInt8} {dst src : BitVec 64}

theorem toNat_add_natCast {p : BitVec 64} {k : ℕ} (h : p.toNat + k < 2 ^ 64) :
    (p + (k : BitVec 64)).toNat = p.toNat + k := by
  rw [BitVec.toNat_add, BitVec.natCast_eq_ofNat, BitVec.toNat_ofNat, Nat.mod_eq_of_lt (b := 2 ^ 64) (a := k) (by omega),
    Nat.mod_eq_of_lt h]

theorem add_natCast_ne {p q : BitVec 64} {i j n : ℕ} (hp : p.toNat + n ≤ 2 ^ 64) (hq : q.toNat + n ≤ 2 ^ 64) (hi : i < n)
    (hj : j < n) (hne : p.toNat + i ≠ q.toNat + j) : p + (i : BitVec 64) ≠ q + j := fun heq => by
  have := congrArg BitVec.toNat heq
  rw [toNat_add_natCast (by omega), toNat_add_natCast (by omega)] at this
  exact hne this

theorem moved_up {n : ℕ} (hs : src.toNat + n ≤ 2 ^ 64) (hd : dst.toNat + n ≤ 2 ^ 64)
    (hlt : dst.toNat ≤ src.toNat ∨ src.toNat + n ≤ dst.toNat) : Moved mem dst src n (copyUp mem dst src n) :=
  moved_copyUp (fun _ _ hij hj => add_natCast_ne hd hd (hij.trans hj) hj (by omega))
    fun _ _ hij hj => add_natCast_ne hd hs (hij.trans hj) hj (by omega)

theorem moved_down {n : ℕ} (hs : src.toNat + n ≤ 2 ^ 64) (hd : dst.toNat + n ≤ 2 ^ 64) (hle : src.toNat ≤ dst.toNat) :
    Moved mem dst src n (copyDown mem (dst + n) (src + n) n) :=
  moved_copyDown (fun _ _ hij hj => add_natCast_ne hd hd (hij.trans hj) hj (by omega))
    fun _ _ hij hj => add_natCast_ne hd hs hj (hij.trans hj) (by omega)

theorem moved_memmove {n : BitVec 32} (hs : src.toNat + n.toNat ≤ 2 ^ 64) (hd : dst.toNat + n.toNat ≤ 2 ^ 64) :
    Moved mem dst src n.toNat (memmove mem dst src n) := by
  have hn : n.setWidth 64 = ((n.toNat : ℕ) : BitVec 64) := by
    rw [BitVec.natCast_eq_ofNat, BitVec.ofNat_toNat]
  unfold memmove
  rw [hn]
  by_cases hback : src < dst ∧ dst < src + ((n.toNat : ℕ) : BitVec 64)
  · rw [if_pos hback]
    have hlt : src.toNat < dst.toNat := BitVec.lt_def.mp hback.1
    exact moved_down hs hd hlt.le
  · rw [if_neg hback]
    refine moved_up hs hd ?_
    by_contra hover
    rw [not_or, Nat.not_le, Nat.not_le] at hover
    -- the end of the source does not wrap around: the destination ends behind it
    have hend := @toNat_add_natCast src n.toNat (by omega)
    exact hback ⟨BitVec.lt_def.mpr hover.1, BitVec.lt_def.mpr (by rw [hend]; exact hover.2)⟩

end

/-- The loop of `strncmp` at offset `k`, with `n` bytes to go. -/
def strncmpFrom (p q : Bytes) : ℕ → ℕ → ℤ
  | _, 0 => 0
  | k, n + 1 => if p k ≠ 0 ∧ p k = q k then strncmpFrom p q (k + 1) n else (p k).toNat - (q k).toNat

def strncmp (p q : Bytes) (n : ℕ) : ℤ := strncmpFrom p q 0 n

/-- The loops of `strncpy` at offset `k`, with `n` bytes to go. -/
def strncpyFrom (s t : Bytes) : ℕ → ℕ → Bytes
  | _, 0 => s
  | k, n + 1 =>
    if t k ≠ 0 then strncpyFrom (update s k (t k)) t (k + 1) n
    else Bytes.blit (update s k (t k)) (k + 1) n fun _ => 0

def strncpy (s t : Bytes) (n : ℕ) : Bytes := strncpyFrom s t 0 n

/-- The string in the `n` bytes from `k` on. -/
def strnFrom (p : Bytes) : ℕ → ℕ → List UInt8
  | _, 0 => []
  | k, n + 1 => if p k = 0 then [] else p k :: strnFrom p (k + 1) n

/-- The string in a field of `n` bytes. -/
def strn (p : Bytes) (n : ℕ) : List UInt8 := strnFrom p 0 n

theorem strnFrom_congr {p q : Bytes} {k n : ℕ} (h : ∀ m, k ≤ m → m < k + n → p m = q m) :
    strnFrom p k n = strnFrom q k n := by
  induction n generalizing k with
  | zero => rfl
  | succ n ih =>
    unfold strnFrom
    rw [h k le_rfl (by omega), ih fun m h₁ h₂ => h m (by omega) (by omega)]

theorem strn_congr {p q : Bytes} {n : ℕ} (h : ∀ m < n, p m = q m) : strn p n = strn q n :=
  strnFrom_congr fun m _ hm => h m (by omega)

theorem strncmpFrom_eq_zero (p q : Bytes) (k n : ℕ) :
    strncmpFrom p q k n = 0 ↔ strnFrom p k n = strnFrom q k n := by
  induction n generalizing k with
  | zero => simp [strncmpFrom, strnFrom]
  | succ n ih =>
    unfold strncmpFrom strnFrom
    have hsub : ((p k).toNat : ℤ) - (q k).toNat = 0 ↔ p k = q k := by
      rw [← UInt8.toNat_inj]
      omega
    by_cases hp : p k = 0
    · rw [if_neg fun h => h.1 hp, if_pos hp, hsub, hp]
      by_cases hq : q k = 0
      · simp [hq]
      · simp [hq, Ne.symm hq]
    · by_cases hpq : p k = q k
      · rw [if_pos ⟨hp, hpq⟩, if_neg hp, if_neg (hpq ▸ hp), ih (k + 1), hpq]
        simp
      · rw [if_neg fun h => hpq h.2, if_neg hp, hsub]
        by_cases hq : q k = 0
        · simp [hq, hp]
        · simp [hq, hpq]

theorem strncmp_eq_zero (p q : Bytes) (n : ℕ) : strncmp p q n = 0 ↔ strn p n = strn q n := strncmpFrom_eq_zero p q 0 n

theorem strncpyFrom_of_lt (s t : Bytes) (n : ℕ) {k m : ℕ} (h : m < k) : strncpyFrom s t k n m = s m := by
  induction n generalizing s k with
  | zero => rfl
  | succ n ih =>
    unfold strncpyFrom
    split_ifs
    · rw [ih _ (by omega), update_of_ne (by omega)]
    · rw [Bytes.blit, if_neg (by omega), update_of_ne (by omega)]

theorem strnFrom_strncpyFrom (s t : Bytes) (k n : ℕ) : strnFrom (strncpyFrom s t k n) k n = strnFrom t k n := by
  induction n generalizing s k with
  | zero => rfl
  | succ n ih =>
    have hk : strncpyFrom s t k (n + 1) k = t k := by
      unfold strncpyFrom
      split_ifs
      · rw [strncpyFrom_of_lt _ _ _ (by omega), update_self]
      · rw [Bytes.blit, if_neg (by omega), update_self]
    rw [strnFrom, hk, strnFrom]
    split_ifs with h0
    · rfl
    · unfold strncpyFrom
      rw [if_pos h0, ih]

theorem strn_strncpy (s t : Bytes) (n : ℕ) : strn (strncpy s t n) n = strn t n := strnFrom_strncpyFrom s t 0 n

end Xv6
