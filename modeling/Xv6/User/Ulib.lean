import Xv6.Kernel.String

/-! The string and memory functions of the user library. -/
namespace Xv6.User
open Lib

/-- `n` is an `int` here: a copy of a negative number of bytes does nothing. -/
def memmove (mem : BitVec 64 → UInt8) (dst src : BitVec 64) (n : BitVec 32) : BitVec 64 → UInt8 :=
  if dst < src then copyUp mem dst src n.toInt.toNat
  else copyDown mem (dst + n.signExtend 64) (src + n.signExtend 64) n.toInt.toNat

section
variable {mem : BitVec 64 → UInt8} {dst src : BitVec 64} {n : BitVec 32}

theorem signExtend_of_nonneg (h : 0 ≤ n.toInt) : n.signExtend 64 = ((n.toInt.toNat : ℕ) : BitVec 64) := by
  refine BitVec.eq_of_toInt_eq ?_
  rw [BitVec.toInt_signExtend_of_le (by decide), BitVec.natCast_eq_ofNat, BitVec.toInt_ofNat', Int.toNat_of_nonneg h]
  have hlt := n.toInt_lt
  rw [Int.bmod_eq_of_le (by omega) (by omega)]

theorem moved_memmove (hs : src.toNat + n.toInt.toNat ≤ 2 ^ 64) (hd : dst.toNat + n.toInt.toNat ≤ 2 ^ 64) :
    Moved mem dst src n.toInt.toNat (memmove mem dst src n) := by
  unfold memmove
  by_cases hlt : dst < src
  · rw [if_pos hlt]
    exact moved_up hs hd (.inl (BitVec.lt_def.mp hlt).le)
  · rw [if_neg hlt]
    have hle : src.toNat ≤ dst.toNat := Nat.not_lt.mp fun h => hlt (BitVec.lt_def.mpr h)
    by_cases hneg : n.toInt < 0
    · rw [Int.toNat_of_nonpos hneg.le]
      exact ⟨fun k hk => absurd hk (Nat.not_lt_zero k), fun a _ => rfl⟩
    · rw [signExtend_of_nonneg (Int.not_lt.mp hneg)]
      exact moved_down hs hd hle

end

/-- Both versions of `memmove` are right for regions that overlap. -/
theorem memmove_correct (mem : BitVec 64 → UInt8) (dst src : BitVec 64) (n : BitVec 32) :
    (src.toNat + n.toNat ≤ 2 ^ 64 → dst.toNat + n.toNat ≤ 2 ^ 64 →
      Moved mem dst src n.toNat (Xv6.memmove mem dst src n)) ∧
    (src.toNat + n.toInt.toNat ≤ 2 ^ 64 → dst.toNat + n.toInt.toNat ≤ 2 ^ 64 →
      Moved mem dst src n.toInt.toNat (memmove mem dst src n)) :=
  ⟨Xv6.moved_memmove, moved_memmove⟩

/-- Sixteen bytes move up by four. -/
theorem memmove_overlap :
    Moved (fun a => UInt8.ofNat a.toNat) (104 : BitVec 64) 100 16 (Xv6.memmove (fun a => UInt8.ofNat a.toNat) 104 100 16) ∧
    Moved (fun a => UInt8.ofNat a.toNat) (104 : BitVec 64) 100 16 (memmove (fun a => UInt8.ofNat a.toNat) 104 100 16) := by
  have h := memmove_correct (fun a => UInt8.ofNat a.toNat) 104 100 16
  exact ⟨h.1 (by decide) (by decide), h.2 (by decide) (by decide)⟩

abbrev Mem := BitVec 64 → UInt8

/-- `strchr`, of a string that ends within `n` bytes. -/
def strchr (mem : Mem) (c : UInt8) : ℕ → BitVec 64 → Option (BitVec 64)
  | 0, _ => none
  | n + 1, s => if mem s = 0 then none else if mem s = c then some s else strchr mem c n (s + 1)

/-- The string at `s`, which ends within `n` bytes. -/
def cstring (mem : Mem) : ℕ → BitVec 64 → List UInt8
  | 0, _ => []
  | n + 1, s => if mem s = 0 then [] else mem s :: cstring mem n (s + 1)

/-- The bytes `l` are put at `a`. -/
def store (mem : Mem) (a : BitVec 64) : List UInt8 → Mem
  | [] => mem
  | c :: l => store (Function.update mem a c) (a + 1) l

/-- The bytes at `a` are `l`. -/
def Holds (mem : Mem) : BitVec 64 → List UInt8 → Prop
  | _, [] => True
  | a, c :: l => mem a = c ∧ Holds mem (a + 1) l

section
variable {mem mem' : Mem} {a : BitVec 64} {l l' : List UInt8} {c : UInt8}

theorem add_one_natCast (a : BitVec 64) (k : ℕ) : a + 1 + (k : BitVec 64) = a + ((k + 1 : ℕ) : BitVec 64) := by
  push_cast
  ring

theorem natCast_inj {i j : ℕ} (hi : i < 2 ^ 64) (hj : j < 2 ^ 64) (h : a + (i : BitVec 64) = a + j) : i = j := by
  have := congrArg BitVec.toNat (add_left_cancel h)
  rwa [BitVec.natCast_eq_ofNat, BitVec.natCast_eq_ofNat, BitVec.toNat_ofNat, BitVec.toNat_ofNat, Nat.mod_eq_of_lt hi,
    Nat.mod_eq_of_lt hj] at this

theorem holds_iff : Holds mem a l ↔ ∀ k (h : k < l.length), mem (a + (k : BitVec 64)) = l[k] := by
  induction l generalizing a with
  | nil => exact iff_of_true trivial fun k hk => absurd hk (Nat.not_lt_zero k)
  | cons c l ih =>
    rw [Holds, ih]
    constructor
    · rintro ⟨hc, hl⟩ k hk
      cases k with
      | zero => simpa using hc
      | succ k =>
        rw [← add_one_natCast]
        exact hl k (by simpa using hk)
    · intro h
      have hc := h 0 (by simp)
      rw [Nat.cast_zero, add_zero] at hc
      refine ⟨hc, fun k hk => ?_⟩
      rw [add_one_natCast]
      exact h (k + 1) (by simpa using hk)

theorem Holds.congr (h : Holds mem a l) (heq : ∀ k < l.length, mem' (a + (k : BitVec 64)) = mem (a + (k : BitVec 64))) :
    Holds mem' a l := by
  rw [holds_iff] at h ⊢
  intro k hk
  rw [heq k hk, h k hk]

theorem holds_append : Holds mem a (l ++ l') ↔ Holds mem a l ∧ Holds mem (a + (l.length : BitVec 64)) l' := by
  induction l generalizing a with
  | nil => simp [Holds]
  | cons c l ih => rw [List.cons_append, Holds, Holds, ih, and_assoc, List.length_cons, add_one_natCast]

theorem Holds.update {i : ℕ} (h : Holds mem a l) (hi : i < 2 ^ 64) (hout : l.length ≤ i) :
    Holds (Function.update mem (a + (i : BitVec 64)) c) a l :=
  h.congr fun k hk => Function.update_of_ne (fun heq => by have := natCast_inj (by omega) hi heq; omega) _ _

theorem Holds.update_before (h : Holds mem (a + 1) l) (hl : l.length < 2 ^ 64) :
    Holds (Function.update mem a c) (a + 1) l := by
  refine h.congr fun k hk => Function.update_of_ne (fun heq => ?_) _ _
  rw [add_one_natCast] at heq
  have := @natCast_inj a (k + 1) 0 (by omega) (by decide) (by rwa [Nat.cast_zero, add_zero])
  omega

theorem store_of_ne {b : BitVec 64} (h : ∀ k < l.length, b ≠ a + (k : BitVec 64)) : store mem a l b = mem b := by
  induction l generalizing mem a with
  | nil => rfl
  | cons c l ih =>
    rw [store, ih fun k hk => by rw [add_one_natCast]; exact h (k + 1) (by simpa using hk)]
    have hne := h 0 (by simp)
    rw [Nat.cast_zero, add_zero] at hne
    exact Function.update_of_ne hne _ _

theorem holds_store (hl : l.length ≤ 2 ^ 64) : Holds (store mem a l) a l := by
  induction l generalizing mem a with
  | nil => trivial
  | cons c l ih =>
    rw [List.length_cons] at hl
    refine ⟨?_, ih (by omega)⟩
    rw [store, store_of_ne fun k hk heq => ?_, Function.update_self]
    rw [add_one_natCast] at heq
    have := @natCast_inj a 0 (k + 1) (by decide) (by omega) (by rwa [Nat.cast_zero, add_zero])
    omega

theorem Holds.store (h : Holds mem a l) (hl : l.length + l'.length ≤ 2 ^ 64) :
    Holds (store mem (a + (l.length : BitVec 64)) l') a l := by
  refine h.congr fun k hk => store_of_ne fun j hj heq => ?_
  rw [add_assoc, ← Nat.cast_add] at heq
  have := natCast_inj (by omega) (by omega) heq
  omega

theorem strchr_cons {n : ℕ} {d : UInt8} (h : Holds mem a (d :: l)) (hd : d ≠ 0 ∧ d ≠ c) :
    strchr mem c (n + 1) a = strchr mem c n (a + 1) := by
  rw [strchr, h.1, if_neg hd.1, if_neg hd.2]

theorem strchr_eq_some {n : ℕ} (h : Holds mem a (l ++ [c])) (hl : ∀ d ∈ l, d ≠ 0 ∧ d ≠ c) (hc : c ≠ 0) (hn : l.length < n) :
    strchr mem c n a = some (a + (l.length : BitVec 64)) := by
  induction l generalizing a n with
  | nil =>
    obtain ⟨n, rfl⟩ := Nat.exists_eq_succ_of_ne_zero (Nat.ne_of_gt hn)
    rw [strchr, h.1, if_neg hc, if_pos rfl, List.length_nil, Nat.cast_zero, add_zero]
  | cons d l ih =>
    rw [List.length_cons] at hn
    obtain ⟨n, rfl⟩ := Nat.exists_eq_succ_of_ne_zero (show n ≠ 0 by omega)
    rw [strchr_cons h (hl d (List.mem_cons_self ..)), ih h.2 (fun e he => hl e (List.mem_cons_of_mem d he)) (by omega),
      add_one_natCast]
    rfl

theorem strchr_eq_none {n : ℕ} (h : Holds mem a (l ++ [0])) (hl : ∀ d ∈ l, d ≠ 0 ∧ d ≠ c) (hn : l.length < n) :
    strchr mem c n a = none := by
  induction l generalizing a n with
  | nil =>
    obtain ⟨n, rfl⟩ := Nat.exists_eq_succ_of_ne_zero (Nat.ne_of_gt hn)
    rw [strchr, h.1, if_pos rfl]
  | cons d l ih =>
    rw [List.length_cons] at hn
    obtain ⟨n, rfl⟩ := Nat.exists_eq_succ_of_ne_zero (show n ≠ 0 by omega)
    rw [strchr_cons h (hl d (List.mem_cons_self ..))]
    exact ih h.2 (fun e he => hl e (List.mem_cons_of_mem d he)) (by omega)

theorem cstring_eq {n : ℕ} (h : Holds mem a (l ++ [0])) (hl : 0 ∉ l) (hn : l.length < n) : cstring mem n a = l := by
  induction l generalizing a n with
  | nil =>
    obtain ⟨n, rfl⟩ := Nat.exists_eq_succ_of_ne_zero (Nat.ne_of_gt hn)
    rw [cstring, h.1, if_pos rfl]
  | cons d l ih =>
    rw [List.length_cons] at hn
    obtain ⟨n, rfl⟩ := Nat.exists_eq_succ_of_ne_zero (show n ≠ 0 by omega)
    rw [cstring, h.1, if_neg (List.ne_of_not_mem_cons hl).symm, ih h.2 (List.not_mem_of_not_mem_cons hl) (by omega)]

end

end Xv6.User
