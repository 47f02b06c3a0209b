import Mathlib.Data.Nat.Notation
import Mathlib.Tactic.Common
import Mathlib.Tactic.SplitIfs

/-! A finite map kept in a list of slots: a key is looked for from the first slot on, a new one goes
to the first slot that is free, and to the end if there is none. -/
namespace Xv6.Lib.SlotMap

variable {κ β : Type}

/-- The first slot with the key, when the slots before `n` have been passed. -/
def findFrom [DecidableEq κ] (key : κ) : ℕ → List (Option (κ × β)) → Option (ℕ × β)
  | _, [] => none
  | n, none :: l => findFrom key (n + 1) l
  | n, some (k, v) :: l => if k = key then some (n, v) else findFrom key (n + 1) l

def find [DecidableEq κ] (key : κ) (l : List (Option (κ × β))) : Option (ℕ × β) := findFrom key 0 l

/-- The first free slot, when the slots before `n` have been passed. -/
def freeFrom : ℕ → List (Option (κ × β)) → ℕ
  | n, [] => n
  | n, none :: _ => n
  | n, some _ :: l => freeFrom (n + 1) l

def free (l : List (Option (κ × β))) : ℕ := freeFrom 0 l

/-- The slots with `e` in slot `n`, which may be the one after the last. -/
def put (l : List (Option (κ × β))) (n : ℕ) (e : Option (κ × β)) : List (Option (κ × β)) :=
  if n < l.length then l.set n e else l ++ [e]

/-- No two slots have the same key. -/
def Unique (l : List (Option (κ × β))) : Prop :=
  ∀ (m n : ℕ) k v w, l[m]? = some (some (k, v)) → l[n]? = some (some (k, w)) → m = n

variable {l : List (Option (κ × β))} {key k : κ} {v : β} {n : ℕ}

theorem freeFrom_spec : n ≤ freeFrom n l ∧ freeFrom n l ≤ n + l.length ∧
    (freeFrom n l < n + l.length → l[freeFrom n l - n]? = some none) ∧
    ∀ m, n ≤ m → m < freeFrom n l → ∃ e, l[m - n]? = some (some e) := by
  induction l generalizing n with
  | nil =>
    refine ⟨Nat.le_refl n, Nat.le_refl n, fun h => absurd h (Nat.lt_irrefl n), fun m h₁ h₂ => ?_⟩
    exact absurd h₂ (Nat.not_lt.mpr h₁)
  | cons e l ih =>
    match e with
    | none =>
      refine ⟨Nat.le_refl n, by simp [freeFrom], fun _ => by simp [freeFrom], fun m h₁ h₂ => ?_⟩
      exact absurd h₂ (Nat.not_lt.mpr h₁)
    | some e =>
      obtain ⟨h₁, h₂, h₃, h₄⟩ := ih (n := n + 1)
      show n ≤ freeFrom (n + 1) l ∧ freeFrom (n + 1) l ≤ n + (l.length + 1) ∧
        (freeFrom (n + 1) l < n + (l.length + 1) → (some e :: l)[freeFrom (n + 1) l - n]? = some none) ∧
        ∀ m, n ≤ m → m < freeFrom (n + 1) l → ∃ e', (some e :: l)[m - n]? = some (some e')
      refine ⟨by omega, by omega, fun h => ?_, fun m hm hlt => ?_⟩
      · rw [show freeFrom (n + 1) l - n = freeFrom (n + 1) l - (n + 1) + 1 by omega, List.getElem?_cons_succ]
        exact h₃ (by omega)
      · by_cases hmn : m = n
        · exact ⟨e, by simp [hmn]⟩
        · rw [show m - n = m - (n + 1) + 1 by omega, List.getElem?_cons_succ]
          exact h₄ m (by omega) hlt

theorem free_le (l : List (Option (κ × β))) : free l ≤ l.length := by
  simpa [free] using (freeFrom_spec (l := l) (n := 0)).2.1

theorem getElem?_free (h : free l < l.length) : l[free l]? = some none := by
  simpa [free] using (freeFrom_spec (l := l) (n := 0)).2.2.1 (by simpa [free] using h)

theorem length_put (l : List (Option (κ × β))) (n : ℕ) (e : Option (κ × β)) :
    (put l n e).length = if n < l.length then l.length else l.length + 1 := by
  unfold put
  split_ifs with h
  · rw [List.length_set]
  · rw [List.length_append]
    rfl

theorem getElem?_put (hn : n ≤ l.length) (e : Option (κ × β)) (m : ℕ) :
    (put l n e)[m]? = if m = n then some e else l[m]? := by
  unfold put
  by_cases h : n < l.length
  · rw [if_pos h, List.getElem?_set]
    by_cases hm : m = n
    · subst hm
      simp [h]
    · rw [if_neg (Ne.symm hm), if_neg hm]
  · obtain rfl : n = l.length := by omega
    rw [if_neg h, List.getElem?_append]
    by_cases hm : m < l.length
    · rw [if_pos hm, if_neg (by omega)]
    · rw [if_neg hm]
      by_cases hm' : m = l.length
      · simp [hm']
      · rw [if_neg hm', List.getElem?_eq_none (by simp; omega), List.getElem?_eq_none (by omega)]

theorem getElem?_insert {e : Option (κ × β)} {m : ℕ} {x : κ × β} (hm : l[m]? = some (some x)) :
    (put l (free l) e)[m]? = some (some x) := by
  rw [getElem?_put (free_le l), if_neg, hm]
  rintro rfl
  have hlt : free l < l.length := by
    by_contra h
    rw [List.getElem?_eq_none (by omega)] at hm
    simp at hm
  rw [getElem?_free hlt] at hm
  simp at hm

theorem Unique.put_none (hu : Unique l) (hn : n ≤ l.length) : Unique (put l n none) := by
  have hold : ∀ (m : ℕ) (k : κ) (w : β), (put l n none)[m]? = some (some (k, w)) → l[m]? = some (some (k, w)) := by
    intro m k w h
    rw [getElem?_put hn] at h
    split_ifs at h with hm
    · simp at h
    · exact h
  intro m m' k w w' hm hm'
  exact hu m m' k w w' (hold m k w hm) (hold m' k w' hm')

theorem Unique.erase (hu : Unique l) (n : ℕ) : Unique (l.set n none) := by
  by_cases hn : n < l.length
  · have := hu.put_none (Nat.le_of_lt hn)
    rwa [put, if_pos hn] at this
  · rwa [List.set_eq_of_length_le (Nat.not_lt.mp hn)]

section
variable [DecidableEq κ]

theorem findFrom_eq_none : findFrom key n l = none ↔ ∀ (m : ℕ) v, l[m]? ≠ some (some (key, v)) := by
  induction l generalizing n with
  | nil => simp [findFrom]
  | cons e l ih =>
    have hcons : (∀ (m : ℕ) v, (e :: l)[m]? ≠ some (some (key, v))) ↔
        (∀ v, e ≠ some (key, v)) ∧ ∀ (m : ℕ) v, l[m]? ≠ some (some (key, v)) := by
      constructor
      · intro h
        exact ⟨fun v he => h 0 v (by simp [he]), fun m v => by simpa using h (m + 1) v⟩
      · rintro ⟨h₀, h⟩ (_ | m) v
        · simpa using h₀ v
        · simpa using h m v
    rw [hcons]
    match e with
    | none => simp [findFrom, ih]
    | some (k, v) =>
      unfold findFrom
      split_ifs with hk
      · simp [hk]
      · simp [hk, ih]

theorem findFrom_eq_some {m : ℕ} (h : findFrom key n l = some (m, v)) :
    n ≤ m ∧ l[m - n]? = some (some (key, v)) := by
  induction l generalizing n with
  | nil => simp [findFrom] at h
  | cons e l ih =>
    have hnext : findFrom key (n + 1) l = some (m, v) → n ≤ m ∧ (e :: l)[m - n]? = some (some (key, v)) := by
      intro h'
      obtain ⟨hle, hget⟩ := ih h'
      rw [show m - n = m - (n + 1) + 1 by omega, List.getElem?_cons_succ]
      exact ⟨by omega, hget⟩
    match e with
    | none => exact hnext h
    | some (k, w) =>
      unfold findFrom at h
      split_ifs at h with hk
      · obtain ⟨rfl, rfl⟩ := Prod.mk.inj (Option.some.inj h)
        exact ⟨Nat.le_refl n, by simp [hk]⟩
      · exact hnext h

theorem find_eq_none : find key l = none ↔ ∀ (m : ℕ) v, l[m]? ≠ some (some (key, v)) := findFrom_eq_none

theorem getElem?_of_find (h : find key l = some (n, v)) : l[n]? = some (some (key, v)) := by
  simpa using (findFrom_eq_some h).2

theorem Unique.find_eq_some (hu : Unique l) : find key l = some (n, v) ↔ l[n]? = some (some (key, v)) := by
  refine ⟨getElem?_of_find, fun h => ?_⟩
  cases hf : find key l with
  | none => exact absurd h (find_eq_none.mp hf n v)
  | some r =>
    obtain ⟨m, w⟩ := r
    have hm := getElem?_of_find hf
    obtain rfl := hu m n key w v hm h
    rw [h] at hm
    simp only [Option.some.injEq, Prod.mk.injEq, true_and] at hm
    rw [hm]

theorem Unique.find_congr {l' : List (Option (κ × β))} (hu' : Unique l')
    (h : ∀ (n : ℕ) v, l'[n]? = some (some (k, v)) ↔ l[n]? = some (some (k, v))) : find k l' = find k l := by
  cases hf : find k l with
  | none =>
    rw [find_eq_none] at hf ⊢
    intro m v hm
    exact hf m v ((h m v).mp hm)
  | some r =>
    obtain ⟨n, v⟩ := r
    rw [hu'.find_eq_some, h]
    exact getElem?_of_find hf

theorem Unique.insert (hu : Unique l) (hnew : find key l = none) (v : β) :
    Unique (put l (free l) (some (key, v))) := by
  have hcases : ∀ m k w, (put l (free l) (some (key, v)))[m]? = some (some (k, w)) →
      m = free l ∧ k = key ∨ l[m]? = some (some (k, w)) := by
    intro m k w h
    rw [getElem?_put (free_le l)] at h
    split_ifs at h with hm
    · simp only [Option.some.injEq, Prod.mk.injEq] at h
      exact .inl ⟨hm, h.1.symm⟩
    · exact .inr h
  intro m n k w w' hm hn
  rcases hcases m k w hm with ⟨rfl, rfl⟩ | hm'
  · rcases hcases n k w' hn with ⟨rfl, -⟩ | hn'
    · rfl
    · exact absurd hn' (find_eq_none.mp hnew n w')
  · rcases hcases n k w' hn with ⟨rfl, rfl⟩ | hn'
    · exact absurd hm' (find_eq_none.mp hnew m w)
    · exact hu m n k w w' hm' hn'

theorem Unique.find_insert (hu : Unique l) (hnew : find key l = none) (v : β) (k : κ) :
    find k (put l (free l) (some (key, v))) = if k = key then some (free l, v) else find k l := by
  have hu' := hu.insert hnew v
  split_ifs with hk
  · subst hk
    rw [hu'.find_eq_some, getElem?_put (free_le l), if_pos rfl]
  · refine hu'.find_congr fun n w => ⟨fun h => ?_, getElem?_insert⟩
    rw [getElem?_put (free_le l)] at h
    split_ifs at h with hn
    · simp only [Option.some.injEq, Prod.mk.injEq] at h
      exact absurd h.1.symm hk
    · exact h

theorem Unique.find_erase (hu : Unique l) (hf : find key l = some (n, v)) (k : κ) :
    find k (l.set n none) = if k = key then none else find k l := by
  have hget := getElem?_of_find hf
  split_ifs with hk
  · subst hk
    rw [find_eq_none]
    intro m w hm
    rw [List.getElem?_set] at hm
    split_ifs at hm with h₁ h₂
    · simp at hm
    · exact h₁ (hu n m k v w hget hm)
  · refine (hu.erase n).find_congr fun m w => ?_
    rw [List.getElem?_set]
    by_cases hm : n = m
    · subst hm
      rw [if_pos rfl, hget]
      simp [Ne.symm hk]
    · rw [if_neg hm]

end

end Xv6.Lib.SlotMap
