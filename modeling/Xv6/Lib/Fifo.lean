import Mathlib.Data.BitVec
import Mathlib.Tactic

/-! A ring of `N` cells with counters that run freely modulo `2 ^ w`: what is stored between two
counters. -/
namespace Xv6.Lib
open Function

variable {α : Type*} {w N : ℕ} [NeZero N] {buf : Fin N → α} {r e : BitVec w} {x : α}

/-- `x % N` -/
def cell (N : ℕ) [NeZero N] (x : BitVec w) : Fin N := Fin.ofNat N x.toNat

/-- The cells of `r`, `r + 1` and so on, `n` in all. -/
def window (buf : Fin N → α) (r : BitVec w) (n : ℕ) : List α :=
  (List.range n).map fun i => buf (cell N (r + BitVec.ofNat w i))

/-- What is stored from `r` up to `e`. -/
def contents (buf : Fin N → α) (r e : BitVec w) : List α := window buf r (e - r).toNat

@[simp] theorem length_window (n : ℕ) : (window buf r n).length = n := by simp [window]

@[simp] theorem length_contents : (contents buf r e).length = (e - r).toNat := length_window _

theorem window_succ_last (n : ℕ) :
    window buf r (n + 1) = window buf r n ++ [buf (cell N (r + BitVec.ofNat w n))] := by
  simp [window, List.range_succ]

theorem window_succ_first (n : ℕ) : window buf r (n + 1) = buf (cell N r) :: window buf (r + 1) n := by
  unfold window
  rw [List.range_succ_eq_map, List.map_cons, List.map_map]
  refine congrArg₂ _ (by simp) (List.map_congr_left fun i _ => ?_)
  have : r + BitVec.ofNat w (i + 1) = r + 1 + BitVec.ofNat w i := by
    rw [BitVec.ofNat_add, add_comm (BitVec.ofNat w i), ← add_assoc]
    rfl
  simp only [Function.comp_apply, Nat.succ_eq_add_one, this]

theorem take_window {m n : ℕ} (h : m ≤ n) : (window buf r n).take m = window buf r m := by
  unfold window
  rw [← List.map_take, List.take_range, min_eq_left h]

theorem window_add (m n : ℕ) : window buf r (m + n) = window buf r m ++ window buf (r + BitVec.ofNat w m) n := by
  unfold window
  rw [List.range_add, List.map_append, List.map_map]
  refine congrArg _ (List.map_congr_left fun i _ => ?_)
  simp only [Function.comp_apply, BitVec.ofNat_add, add_assoc]

theorem cell_add (hN : N ∣ 2 ^ w) (x : BitVec w) (n : ℕ) :
    cell N (x + BitVec.ofNat w n) = Fin.ofNat N (x.toNat + n) := by
  apply Fin.ext
  simp only [cell, Fin.val_ofNat, BitVec.toNat_add, BitVec.toNat_ofNat, Nat.add_mod_mod]
  exact Nat.mod_mod_of_dvd _ hN

theorem cell_ne (hN : N ∣ 2 ^ w) (x : BitVec w) {m n : ℕ} (hm : m < N) (hn : n < N) (hne : m ≠ n) :
    cell N (x + BitVec.ofNat w m) ≠ cell N (x + BitVec.ofNat w n) := by
  rw [cell_add hN, cell_add hN]
  intro he
  have hmod : x.toNat + m ≡ x.toNat + n [MOD N] := congrArg Fin.val he
  exact hne (Nat.ModEq.eq_of_lt_of_lt (Nat.ModEq.add_left_cancel' _ hmod) hm hn)

theorem window_update (hN : N ∣ 2 ^ w) {n m : ℕ} (hn : n ≤ m) (hm : m < N) :
    window (update buf (cell N (r + BitVec.ofNat w m)) x) r n = window buf r n := by
  refine List.map_congr_left fun i hi => ?_
  have hi' := List.mem_range.mp hi
  exact update_of_ne (cell_ne hN r (by omega) hm (by omega)) _ _

theorem add_toNat_sub (r e : BitVec w) : r + BitVec.ofNat w (e - r).toNat = e := by
  rw [BitVec.ofNat_toNat, BitVec.setWidth_eq]
  ring

theorem toNat_one (h : 1 < 2 ^ w) : (1 : BitVec w).toNat = 1 := by
  rw [show (1 : BitVec w) = BitVec.ofNat w 1 from rfl, BitVec.toNat_ofNat]
  exact Nat.mod_eq_of_lt h

theorem toNat_succ_sub (h : (e - r).toNat + 1 < 2 ^ w) : (e + 1 - r).toNat = (e - r).toNat + 1 := by
  rw [show e + 1 - r = e - r + 1 by ring, BitVec.toNat_add, toNat_one (by omega)]
  exact Nat.mod_eq_of_lt h

theorem toNat_sub_pos (h : r ≠ e) : 0 < (e - r).toNat := by
  rw [Nat.pos_iff_ne_zero]
  intro h0
  exact h (sub_eq_zero.mp (BitVec.eq_of_toNat_eq (by simpa using h0))).symm

theorem toNat_sub_succ (h : r ≠ e) : (e - (r + 1)).toNat + 1 = (e - r).toNat := by
  have hpos := toNat_sub_pos h
  have hone : (1 : BitVec w).toNat = 1 := toNat_one (by have := (e - r).isLt; omega)
  rw [show e - (r + 1) = e - r - 1 by ring, BitVec.toNat_sub_of_le (by rw [BitVec.le_def, hone]; omega), hone]
  omega

theorem contents_push (hN : N ∣ 2 ^ w) (hw : N < 2 ^ w) (h : (e - r).toNat < N) :
    contents (update buf (cell N e) x) r (e + 1) = contents buf r e ++ [x] := by
  unfold contents
  have hcell : cell N e = cell N (r + BitVec.ofNat w (e - r).toNat) := by rw [add_toNat_sub]
  rw [toNat_succ_sub (by omega), window_succ_last, hcell, window_update hN le_rfl h, update_self]

theorem contents_succ (hN : N ∣ 2 ^ w) (hw : N < 2 ^ w) (h : (e - r).toNat < N) :
    contents buf r (e + 1) = contents buf r e ++ [buf (cell N e)] := by
  rw [← contents_push hN hw h, update_eq_self]

theorem contents_pop (h : r ≠ e) : contents buf r e = buf (cell N r) :: contents buf (r + 1) e := by
  unfold contents
  rw [← toNat_sub_succ h, window_succ_first]

theorem toNat_sub_add {m : BitVec w} (h : (m - r).toNat ≤ (e - r).toNat) :
    (m - r).toNat + (e - m).toNat = (e - r).toNat := by
  have he : e - m = e - r - (m - r) := by ring
  rw [he, BitVec.toNat_sub_of_le (BitVec.le_def.mpr h)]
  omega

theorem contents_append {m : BitVec w} (h : (m - r).toNat ≤ (e - r).toNat) :
    contents buf r m ++ contents buf m e = contents buf r e := by
  unfold contents
  rw [← toNat_sub_add h, window_add, add_toNat_sub]

theorem contents_update {m : BitVec w} (hN : N ∣ 2 ^ w) (hm : (m - r).toNat ≤ (e - r).toNat) (he : (e - r).toNat < N) :
    contents (update buf (cell N e) x) r m = contents buf r m := by
  have hcell : cell N e = cell N (r + BitVec.ofNat w (e - r).toNat) := by rw [add_toNat_sub]
  unfold contents
  rw [hcell]
  exact window_update hN hm he

theorem contents_self : contents buf r r = [] := by simp [contents, window]

theorem toNat_pred_sub (h : r ≠ e) : (e - 1 - r).toNat = (e - r).toNat - 1 := by
  have hpos := toNat_sub_pos h
  have hone : (1 : BitVec w).toNat = 1 := toNat_one (by have := (e - r).isLt; omega)
  rw [show e - 1 - r = e - r - 1 by ring, BitVec.toNat_sub_of_le (by rw [BitVec.le_def, hone]; omega), hone]

theorem contents_dropLast (h : r ≠ e) : contents buf r (e - 1) = (contents buf r e).dropLast := by
  unfold contents
  rw [toNat_pred_sub h, List.dropLast_eq_take, length_window, take_window (Nat.sub_le _ _)]

theorem getLast_contents (h : r ≠ e) : (contents buf r e).getLast? = some (buf (cell N (e - 1))) := by
  have hpos := toNat_sub_pos h
  obtain ⟨n, hn⟩ : ∃ n, (e - r).toNat = n + 1 := ⟨(e - r).toNat - 1, by omega⟩
  have hlast : r + BitVec.ofNat w n = e - 1 := by
    have := add_toNat_sub r e
    rw [hn, BitVec.ofNat_add] at this
    rw [← this]
    change _ = r + (BitVec.ofNat w n + 1) - 1
    ring
  unfold contents
  rw [hn, window_succ_last, hlast, List.getLast?_append]
  rfl

end Xv6.Lib
