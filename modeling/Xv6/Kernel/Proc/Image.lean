import Xv6.Kernel.Vm.Uvm
import Xv6.Kernel.Proc.Exec

/-! The images that `proc_pagetable` and `exec` make are address spaces, and where they fail
every page is free again. -/
namespace Xv6.Vm
open Lib

/-- The page numbers of the trapframe and the trampoline. -/
def tops : Set ℕ := {userPages, userPages + 1}

theorem trapframe_eq : trapframe = userPages * pgsize := by decide

theorem trampoline_eq : trampoline = (userPages + 1) * pgsize := by decide

namespace Space
variable {rights : Perm → Prop} {t t' : Pagetable} {n v : ℕ} {top : Set ℕ} {m : Mem}
  {E : Halt → Prop}

theorem insertTop (h : Space rights t n top) (hv : userPages ≤ v) {e : Pte} (he : e.perm.u = false)
    (hset : ∀ w < vpns, look t' w = if w = v then some e else look t w) :
    Space rights t' n (insert v top) ∧ user t' = user t := by
  have hle := h.le
  have hbelow : ∀ w < userPages, look t' w = look t w := fun w hw => by
    rw [hset w (lt_vpns hw), if_neg (by omega)]
  refine ⟨⟨?_, ?_, h.le, ?_, ?_⟩, user_congr hbelow⟩
  · intro w hw
    rw [hset w hw, Set.mem_insert_iff]
    split_ifs with he
    · simp [he]
    · rw [h.mapped w hw, or_iff_right he]
  · intro w hw
    rw [hbelow w (by omega)]
    exact h.page w hw
  · intro w hw
    rcases Set.mem_insert_iff.mp hw with rfl | hw
    · exact hv
    · exact h.above w hw
  · intro w hw hup f hf
    rw [hset w hw] at hf
    split_ifs at hf
    · rw [← Option.some.inj hf, he]
    · exact h.closed w hw hup f hf

theorem wp_unmapTop (h : Space rights t n top) (hv : v ∈ top) (hlt : v < 2 ^ 26) :
    Wp E (uvmunmap t (v * pgsize) 1 false) m fun t' m' =>
      Space rights t' n (top \ {v}) ∧ holdings t' = holdings t ∧ Mem.Moves 0 0 m m' := by
  have hle := h.le
  have hup := h.above v hv
  have hvp : v < vpns := by
    unfold vpns
    omega
  have hcount : ((v * pgsize + 1 * pgsize) % 2 ^ 64 - v * pgsize) / pgsize = 1 := by
    unfold pgsize
    omega
  unfold uvmunmap
  rw [Nat.mul_mod_left, if_neg (by simp), hcount]
  refine (wp_uvmunmapLoop false (n := 1) (by omega) ?_ (by simp)).mono ?_
  · intro w hw hw'
    have he : w = v := by omega
    rw [he]
    exact (h.mapped v hvp).mpr (.inr hv)
  · rintro t' m' ⟨hnodes, -, hm, hlook⟩
    have hbelow : ∀ w < userPages, look t' w = look t w := fun w hw => by
      rw [hlook w (lt_vpns hw), if_neg (by omega)]
    refine ⟨⟨?_, ?_, h.le, fun w hw => h.above w hw.1, ?_⟩, ?_, by simpa using hm⟩
    · intro w hw
      rw [hlook w hw, Set.mem_sdiff, Set.mem_singleton_iff]
      split_ifs with he
      · have hwv : w = v := by omega
        have hnot : ¬ v < n := by omega
        simp [hwv, hnot]
      · have hne : w ≠ v := by omega
        rw [h.mapped w hw, and_iff_left hne]
    · intro w hw
      rw [hbelow w (by omega)]
      exact h.page w hw
    · intro w hw hup f hf
      rw [hlook w hw] at hf
      split_ifs at hf
      exact h.closed w hw hup f hf
    · rw [holdings, holdings, hnodes, user_congr hbelow]

end Space

variable {rights : Perm → Prop} {t : Pagetable} {m : Mem} {E : Halt → Prop}

theorem space_empty (rights : Perm → Prop) (pa : Page) : Space rights (Node.empty _ pa) 0 ∅ ∧
    holdings (Node.empty _ pa) = {pa} := by
  have hnone : ∀ v, look (Node.empty _ pa) v = none := fun v => rfl
  refine ⟨⟨?_, ?_, Nat.zero_le _, ?_, ?_⟩, ?_⟩
  · intro v _
    simp [hnone v]
  · intro v hv
    omega
  · intro v hv
    exact absurd hv (Set.notMem_empty v)
  · intro v _ _ e he
    simp [hnone v] at he
  · have huser : user (Node.empty _ pa) = 0 := by
      rw [user_eq]
      exact Finset.sum_eq_zero fun v _ => by simp [leaf, hnone v]
    rw [holdings, huser, add_zero]
    exact pages_empty _ pa

theorem leafNode_trapframe (t : Pagetable) :
    t.leafNode (userPages * pgsize) = t.leafNode ((userPages + 1) * pgsize) := by
  have h₂ : px 2 (userPages * pgsize) = px 2 ((userPages + 1) * pgsize) := by decide
  have h₁ : px 1 (userPages * pgsize) = px 1 ((userPages + 1) * pgsize) := by decide
  rw [Node.leafNode, Node.leafNode, h₂, h₁]

theorem wp_procPagetable (rights : Perm → Prop) (pa : Page) {Q : Option Pagetable → Mem → Prop}
    (hnone : ∀ m' : Mem, Mem.Moves 0 0 m m' → (∀ k, ¬ m.Enough (k + 3)) → Q none m')
    (hsome : ∀ t, ∀ m' : Mem, Space rights t 0 tops → Mem.Moves 0 (holdings t) m m' →
      (∀ k, m.Enough (k + 3) → m'.Enough k) → Q (some t) m') :
    Wp E (procPagetable pa) m Q := by
  have hup := userPages_eq
  unfold procPagetable uvmcreate
  simp only [wp_bind]
  apply wp_kalloc
  · intro m₁ hm₁ _ hno
    simp only [wp_pure, Option.map_none]
    exact hnone _ hm₁ fun k => hno (k + 2)
  · intro root m₀ _ hm₀ henough
    obtain ⟨hs₀, hhold₀⟩ := space_empty rights root
    rw [← hhold₀] at hm₀
    simp only [wp_pure, Option.map_some, wp_bind]
    rw [trampoline_eq, trapframe_eq]
    refine (wp_mappages (by omega) rfl _ _).mono ?_
    rintro ⟨t₁, mapped⟩ m₁ ⟨hpages, hlook, henough₁⟩
    dsimp only at hpages
    cases mapped with
    | false =>
      simp only [Bool.not_false, if_true, wp_bind, wp_pure]
      have hsame : ∀ w < vpns, look t₁ w = look (Node.empty _ root) w := fun w hw => by
        simpa using hlook w hw
      have hhold₁ := hpages.frame (user (Node.empty _ root))
      rw [← holdings, ← user_congr fun w hw => hsame w (lt_vpns hw), ← holdings] at hhold₁
      have hs₁ : Space rights t₁ (pgs 0) ∅ := hs₀.congr hsame
      refine hs₁.wp_uvmfree.mono ?_
      intro _ m₂ hm₂
      exact hnone _ ((hm₀.trans hhold₁).trans hm₂) fun k hk =>
        absurd (henough₁ k (henough _ hk)).1 (by simp)
    | true =>
      have hset : ∀ w < vpns, look t₁ w = if w = userPages + 1 then some ⟨.trampoline, permRX⟩
          else look (Node.empty _ root) w := fun w hw => by simpa using hlook w hw
      obtain ⟨hs₁, huser₁⟩ := hs₀.insertTop (by omega) rfl hset
      have hhold₁ := hpages.frame (user (Node.empty _ root))
      rw [← holdings, ← huser₁, ← holdings] at hhold₁
      have hvp : userPages + 1 < vpns := by
        unfold vpns
        omega
      have htop : look t₁ (userPages + 1) = some ⟨.trampoline, permRX⟩ := by
        rw [hlook _ hvp]
        simp
      have hleaf : (t₁.leafNode (userPages * pgsize)).isSome = true := by
        rw [leafNode_trapframe]
        exact leafNode_of_pte htop
      have hfresh : look t₁ userPages = none :=
        hs₁.look_none (by omega) (Nat.zero_le _) (by simp)
      simp only [Bool.not_true, Bool.false_eq_true, if_false, wp_bind]
      apply wp_mappages_found (by omega) hfresh hleaf
      simp only [Bool.not_true, Bool.false_eq_true, if_false, wp_pure]
      obtain ⟨hs₂, huser₂⟩ := hs₁.insertTop (v := userPages) le_rfl (by rfl)
        fun w hw => look_setPte (by omega) hw hleaf (some ⟨.page pa, permRW⟩)
      refine hsome _ _ ?_ ?_ fun k hk => (henough₁ k (henough _ hk)).2
      · simpa [tops] using hs₂
      · rw [holdings, nodes_setPte, huser₂, ← holdings]
        exact hm₀.trans hhold₁

theorem wp_procFreepagetable {sz : ℕ} (h : Space rights t (pgs sz) tops) :
    Wp E (procFreepagetable t sz) m fun _ m' => Mem.Moves (holdings t) 0 m m' := by
  have hup := userPages_eq
  have hleft : (tops \ {userPages + 1}) \ {userPages} = (∅ : Set ℕ) := by
    ext v
    simp [tops]
  unfold procFreepagetable
  simp only [wp_bind]
  rw [trampoline_eq, trapframe_eq]
  refine (h.wp_unmapTop (v := userPages + 1) (by simp [tops]) (by omega)).mono ?_
  rintro t₁ m₁ ⟨hs₁, hhold₁, hm₁⟩
  refine (hs₁.wp_unmapTop (v := userPages) (by simp [tops]) (by omega)).mono ?_
  rintro t₂ m₂ ⟨hs₂, hhold₂, hm₂⟩
  rw [hleft] at hs₂
  refine hs₂.wp_uvmfree.mono ?_
  intro _ m₃ hm₃
  rw [hhold₂, hhold₁] at hm₃
  have hm := (hm₁.trans hm₂).grow (holdings t)
  rw [add_zero] at hm
  exact hm.trans hm₃

end Xv6.Vm
