import Mathlib.Data.Fintype.Card
import Mathlib.Data.List.Nodup
import Mathlib.Tactic

/-! Things that are free, or that one thread has. -/
namespace Xv6.Lib
open Function

variable {τ α : Type*} [DecidableEq τ] [DecidableEq α] {own : τ → List α} {free : α → Bool} {t u : τ} {x : α} {l : List α}

/-- What is not free is in the list of one thread, once. -/
structure Owned (own : τ → List α) (free : α → Bool) : Prop where
  taken : ∀ x, free x = false ↔ ∃ t, x ∈ own t
  unique : ∀ t u x, x ∈ own t → x ∈ own u → t = u
  nodup : ∀ t, (own t).Nodup

namespace Owned

omit [DecidableEq τ] [DecidableEq α] in
theorem not_free (h : Owned own free) (hx : x ∈ own t) : free x = false := (h.taken x).mpr ⟨t, hx⟩

theorem take (h : Owned own free) (hnil : own t = []) (hl : l.Nodup) (hfree : ∀ x ∈ l, free x = true) :
    Owned (update own t l) fun x => free x && decide (x ∉ l) := by
  have hno : ∀ {x u}, x ∈ l → x ∉ own u := fun {x u} hx hu => by
    have := hfree x hx
    simp [h.not_free hu] at this
  refine ⟨fun x => ⟨fun hx => ?_, ?_⟩, fun u v x hu hv => ?_, fun u => ?_⟩
  · by_cases hxl : x ∈ l
    · exact ⟨t, by simpa using hxl⟩
    · obtain ⟨u, hu⟩ := (h.taken x).mp (by simpa [hxl] using hx)
      refine ⟨u, ?_⟩
      rwa [update_of_ne]
      rintro rfl
      simp [hnil] at hu
  · rintro ⟨u, hu⟩
    rw [update_apply] at hu
    split_ifs at hu
    · simp [hu]
    · simp [h.not_free hu]
  · rw [update_apply] at hu hv
    split_ifs at hu hv with h1 h2 h2
    · rw [h1, h2]
    · exact absurd hv (hno hu)
    · exact absurd hu (hno hv)
    · exact h.unique u v x hu hv
  · rw [update_apply]
    split_ifs
    · exact hl
    · exact h.nodup u

theorem give (h : Owned own free) (ht : own t = x :: l) :
    Owned (update own t l) (update free x true) := by
  have hnd := h.nodup t
  rw [ht, List.nodup_cons] at hnd
  have hsub : ∀ {u y}, y ∈ update own t l u → y ∈ own u ∧ y ≠ x := by
    intro u y hy
    rw [update_apply] at hy
    split_ifs at hy with hu
    · subst hu
      rw [ht]
      exact ⟨List.mem_cons_of_mem _ hy, fun he => hnd.1 (he ▸ hy)⟩
    · refine ⟨hy, fun he => hu (h.unique u t y hy ?_)⟩
      simp [ht, he]
  refine ⟨fun y => ⟨fun hy => ?_, ?_⟩, fun u v y hu hv => h.unique u v y (hsub hu).1 (hsub hv).1, fun u => ?_⟩
  · have hyx : y ≠ x := by
      rintro rfl
      simp at hy
    rw [update_of_ne hyx, h.taken] at hy
    obtain ⟨u, hu⟩ := hy
    refine ⟨u, ?_⟩
    rw [update_apply]
    split_ifs with hut
    · rw [hut, ht, List.mem_cons] at hu
      exact hu.resolve_left hyx
    · exact hu
  · rintro ⟨u, hu⟩
    obtain ⟨hu, hyx⟩ := hsub hu
    rw [update_of_ne hyx]
    exact h.not_free hu
  · rw [update_apply]
    split_ifs
    · exact hnd.2
    · exact h.nodup u

omit [DecidableEq τ] [DecidableEq α] in
theorem length_le [Fintype α] {k : ℕ} (h : Owned own free) {ts : List τ} (hts : ts.Nodup)
    (hk : ∀ t ∈ ts, (own t).length = k) : ts.length * k ≤ Fintype.card α := by
  have hnd : (ts.flatMap own).Nodup := by
    refine List.nodup_flatMap.mpr ⟨fun t _ => h.nodup t, hts.imp ?_⟩
    intro t u hne x hx hu
    exact hne (h.unique t u x hx hu)
  calc ts.length * k = (ts.flatMap own).length := by
        rw [List.length_flatMap, List.map_congr_left hk, List.map_const', List.sum_replicate, smul_eq_mul]
    _ ≤ Fintype.card α := hnd.length_le_card

end Owned
end Xv6.Lib
