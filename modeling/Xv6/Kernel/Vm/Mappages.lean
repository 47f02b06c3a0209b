import Xv6.Kernel.Vm.Maps

/-! `mappages` over many pages, as the kernel maps its own memory: what is mapped, and how
many pages the table grows by. -/
namespace Xv6.Vm
open Lib

variable {E : Halt → Prop} {m : Mem} {t : Pagetable} {v n : ℕ}

theorem leafNode_congr (t : Pagetable) {v w : ℕ} (h : v / 512 = w / 512) :
    t.leafNode (v * pgsize) = t.leafNode (w * pgsize) := by
  have hpx : ∀ k, px (k + 1) (v * pgsize) = px (k + 1) (w * pgsize) := by
    intro k
    apply Fin.ext
    rw [px_mul, px_mul, Nat.pow_succ', ← Nat.div_div_eq_div_mul, ← Nat.div_div_eq_div_mul, h]
  unfold Node.leafNode
  rw [hpx 1, hpx 0]

/-- The pages from `v` on are mapped one after the other, until there is no page for the
table. A new page at each multiple of 512 and one at the first page, each with one above it,
are enough. -/
theorem wp_mappagesLoop (perm : Perm) (hv : v + n ≤ 2 ^ 26) (pa : Frame)
    (hfree : ∀ w, v ≤ w → w < v + n → look t w = none) {c : ℕ}
    (hc : c = 2 * ((v + n - 1) / 512 - v / 512) + if (t.leafNode (v * pgsize)).isSome then 0 else 2) :
    Wp E (mappagesLoop perm n t (v * pgsize) pa) m fun r m' =>
      Mem.Moves (nodes t) (nodes r.1) m m' ∧
      (∀ w < vpns, w < v ∨ v + n ≤ w → look r.1 w = look t w) ∧
      ∀ k, m.Enough (k + c) → r.2 = true ∧ m'.Enough k := by
  induction n generalizing v t m pa c with
  | zero =>
    rw [mappagesLoop, wp_pure]
    exact ⟨.refl _ m, fun _ _ _ => rfl, fun k hk => ⟨rfl, hk.mono (by omega)⟩⟩
  | succ n ih =>
    have hnone : look t v = none := hfree v le_rfl (by omega)
    -- the rest of the loop, in a table that has the page for `v`
    have hrest : ∀ {t' : Pagetable} {m' : Mem} (j : ℕ),
        Mem.Moves (nodes t) (nodes t') m m' →
        (∀ w < vpns, look t' w = if w = v then some ⟨pa, perm⟩ else look t w) →
        (∀ k, m.Enough (k + j) → m'.Enough k) →
        (∀ k, k + j + 2 * ((v + n) / 512 - v / 512) ≤ k + c) →
        Wp E (mappagesLoop perm n t' ((v + 1) * pgsize) pa.next) m' fun r m' =>
          Mem.Moves (nodes t) (nodes r.1) m m' ∧
          (∀ w < vpns, w < v ∨ v + (n + 1) ≤ w → look r.1 w = look t w) ∧
          ∀ k, m.Enough (k + c) → r.2 = true ∧ m'.Enough k := by
      intro t' m' j hm hl henough hle
      have hvp : v < vpns := by
        unfold vpns
        omega
      have hv' : (t'.leafNode (v * pgsize)).isSome = true :=
        leafNode_of_pte (show look t' v = some ⟨pa, perm⟩ by rw [hl v hvp, if_pos rfl])
      have hfree' : ∀ w, v + 1 ≤ w → w < v + 1 + n → look t' w = none := by
        intro w hw hw'
        rw [hl w (by unfold vpns; omega), if_neg (by omega)]
        exact hfree w (by omega) (by omega)
      rcases Nat.eq_zero_or_pos n with rfl | hn
      · rw [mappagesLoop, wp_pure]
        refine ⟨hm, fun w hw hout => ?_, fun k hk => ⟨rfl, henough k (hk.mono ?_)⟩⟩
        · rw [hl w hw, if_neg (by omega)]
        · have := hle k
          omega
      refine (ih (by omega) pa.next hfree' rfl).mono ?_
      rintro r m'' ⟨hm', hl', henough'⟩
      refine ⟨hm.trans hm', fun w hw hout => ?_, fun k hk => henough' k (henough _ (hk.mono ?_))⟩
      · rw [hl' w hw (by omega), hl w hw, if_neg (by omega)]
      · have := hle k
        by_cases hsame : v / 512 = (v + 1) / 512
        · rw [← leafNode_congr t' hsame, if_pos hv', show v + 1 + n - 1 = v + n by omega, ← hsame]
          omega
        · rw [show v + 1 + n - 1 = v + n by omega]
          split_ifs <;> omega
    cases hleaf : (t.leafNode (v * pgsize)).isSome with
    | true =>
      apply wp_mappagesLoop_found (by omega) hnone hleaf
      rw [hleaf, if_pos rfl] at hc
      refine hrest 0 ?_ (fun w hw => ?_) (fun k hk => hk) fun k => by
        rw [hc, show v + (n + 1) - 1 = v + n by omega]; omega
      · rw [nodes_setPte]
        exact .refl _ m
      · exact look_setPte (by unfold vpns; omega) hw hleaf _
    | false =>
      rw [hleaf, if_neg (by simp)] at hc
      apply wp_mappagesLoop_succ (by omega) hnone
      · intro t' m' hm hl hno
        refine ⟨hm, fun w hw _ => hl w hw, fun k hk => absurd hk ?_⟩
        rw [hc, ← Nat.add_assoc]
        exact hno _
      · intro t' m' hm hl henough
        refine hrest 2 hm hl henough fun k => ?_
        rw [hc, show v + (n + 1) - 1 = v + n by omega]
        omega

theorem mappages_range (hn : 0 < n) (hv : v + n ≤ 2 ^ 26) (t : Pagetable) (pa : Frame) (perm : Perm) :
    mappages t (v * pgsize) (n * pgsize) pa perm = mappagesLoop perm n t (v * pgsize) pa := by
  have hlast : pgRoundDown ((v * pgsize + n * pgsize + 2 ^ 64 - 1) % 2 ^ 64) = (v + n - 1) * pgsize := by
    unfold pgRoundDown pgsize
    omega
  have hcount : ((v + n - 1) * pgsize + 2 ^ 64 - v * pgsize) % 2 ^ 64 / pgsize + 1 = n := by
    unfold pgsize
    omega
  unfold mappages
  simp only [pgRoundDown_mul, hlast, hcount]

/-- At most this many pages are taken for the table of `n` pages. -/
def tableCost (n : ℕ) : ℕ := 2 * (n / 512 + 2)

theorem wp_mappages_range (hn : 0 < n) (hv : v + n ≤ 2 ^ 26) (pa : Frame) (perm : Perm)
    (hfree : ∀ w, v ≤ w → w < v + n → look t w = none) :
    Wp E (mappages t (v * pgsize) (n * pgsize) pa perm) m fun r m' =>
      Mem.Moves (nodes t) (nodes r.1) m m' ∧
      (∀ w < vpns, w < v ∨ v + n ≤ w → look r.1 w = look t w) ∧
      ∀ k, m.Enough (k + tableCost n) → r.2 = true ∧ m'.Enough k := by
  rw [mappages_range hn hv]
  refine (wp_mappagesLoop perm hv pa hfree rfl).mono ?_
  rintro r m' ⟨hm, hl, henough⟩
  refine ⟨hm, hl, fun k hk => henough k (hk.mono ?_)⟩
  unfold tableCost
  split_ifs <;> omega

end Xv6.Vm
