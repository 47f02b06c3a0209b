import Xv6.Lib.Wp
import Xv6.Kernel.Vm.Pagetable
import Mathlib.Data.Multiset.AddSub
import Mathlib.Tactic

/-! Ownership of pages. A page is on the free list or somebody's; a function moves pages
between its caller and the free list, and changes the bytes of these pages only. -/
namespace Xv6.Vm
open Lib

/-- The next `k` calls of `kalloc` return a page. -/
def Mem.Enough (k : ℕ) (m : Mem) : Prop := m.fails = [] ∧ k ≤ m.free.length

theorem Mem.Enough.mono {j k : ℕ} {m : Mem} (h : m.Enough k) (hj : j ≤ k) : m.Enough j :=
  ⟨h.1, hj.trans h.2⟩

/-- The caller owns the pages `S` before and `S'` after; what changes is in these and in the
free pages. -/
structure Mem.Moves (S S' : Multiset Page) (m m' : Mem) : Prop where
  pages : (m'.free : Multiset Page) + S' = m.free + S
  data : ∀ f, (∀ pa ∈ (m.free : Multiset Page) + S, f ≠ .page pa) → m'.data f = m.data f

namespace Mem.Moves
variable {S S' S'' : Multiset Page} {m m' m'' : Mem}

theorem refl (S : Multiset Page) (m : Mem) : Mem.Moves S S m m := ⟨rfl, fun _ _ => rfl⟩

theorem trans (h : Mem.Moves S S' m m') (h' : Mem.Moves S' S'' m' m'') : Mem.Moves S S'' m m'' := by
  refine ⟨h'.pages.trans h.pages, fun f hf => ?_⟩
  rw [h'.data f, h.data f hf]
  rwa [h.pages]

theorem frame (h : Mem.Moves S S' m m') (R : Multiset Page) : Mem.Moves (S + R) (S' + R) m m' := by
  refine ⟨?_, fun f hf => h.data f fun pa hpa => hf pa ?_⟩
  · rw [← add_assoc, h.pages, add_assoc]
  · rw [← add_assoc]
    exact Multiset.mem_add.mpr (.inl hpa)

theorem grow (h : Mem.Moves 0 S' m m') (R : Multiset Page) : Mem.Moves R (R + S') m m' := by
  have h := h.frame R
  rwa [zero_add, add_comm] at h

theorem shrink (h : Mem.Moves S 0 m m') (R : Multiset Page) : Mem.Moves (R + S) R m m' := by
  have h := h.frame R
  rwa [zero_add, add_comm] at h

theorem nodup (h : Mem.Moves S S' m m') (hnd : ((m.free : Multiset Page) + S).Nodup) :
    ((m'.free : Multiset Page) + S').Nodup := by rwa [h.pages]

theorem card (h : Mem.Moves S S' m m') : m'.free.length + S'.card = m.free.length + S.card := by
  have := congrArg Multiset.card h.pages
  simpa only [Multiset.card_add, Multiset.coe_card] using this

theorem exchange {part part' table table' : Multiset Page} (h : Mem.Moves part part' m m')
    (ht : table' + part = table + part') (hpart : ∀ pa ∈ part, pa ∈ table) :
    Mem.Moves table table' m m' := by
  refine ⟨?_, fun f hf => h.data f fun pa hpa => hf pa ?_⟩
  · apply add_right_cancel (b := part)
    rw [add_assoc, ht, ← add_assoc, add_right_comm, h.pages, add_right_comm]
  · rcases Multiset.mem_add.mp hpa with hpa | hpa
    · exact Multiset.mem_add.mpr (.inl hpa)
    · exact Multiset.mem_add.mpr (.inr (hpart pa hpa))

end Mem.Moves

variable {E : Halt → Prop} {m : Mem} {S : Multiset Page}

theorem wp_kalloc {Q : Option Page → Mem → Prop}
    (hnone : ∀ m', Mem.Moves 0 0 m m' → m'.free = m.free → (∀ k, ¬ m.Enough (k + 1)) → Q none m')
    (hsome : ∀ pa m', m.free = pa :: m'.free → Mem.Moves 0 {pa} m m' →
      (∀ k, m.Enough (k + 1) → m'.Enough k) → Q (some pa) m') :
    Wp E kalloc m Q := by
  obtain ⟨free, fails, data⟩ := m
  unfold Wp kalloc
  cases hf : fails.headD false with
  | true =>
    refine hnone _ ⟨rfl, fun _ _ => rfl⟩ rfl fun k hk => ?_
    rw [show fails = [] from hk.1] at hf
    simp at hf
  | false =>
    cases free with
    | nil => exact hnone _ ⟨rfl, fun _ _ => rfl⟩ rfl fun k hk => by simpa using hk.2
    | cons pa free =>
      refine hsome pa _ rfl ⟨?_, fun f hf => ?_⟩ fun k hk => ⟨?_, ?_⟩
      · show (free : Multiset Page) + {pa} = (pa :: free : List Page) + 0
        rw [add_zero, ← Multiset.cons_coe, ← Multiset.singleton_add, add_comm]
      · have hne : f ≠ .page pa := hf pa (by simp)
        simp [hne]
      · rw [show fails = [] from hk.1]
        rfl
      · simpa using hk.2

theorem wp_kfree {Q : Unit → Mem → Prop} (pa : Page)
    (h : ∀ m', m'.free = pa :: m.free → m'.fails = m.fails → Mem.Moves {pa} 0 m m' → Q () m') :
    Wp E (kfree (.page pa)) m Q := by
  refine (wp_modify _ _).mpr (h _ rfl rfl ⟨?_, fun f hf => ?_⟩)
  · show ((pa :: m.free : List Page) : Multiset Page) + 0 = m.free + {pa}
    rw [add_zero, ← Multiset.cons_coe, ← Multiset.singleton_add, add_comm]
  · have hne : f ≠ .page pa := hf pa (by simp)
    simp [hne]

theorem Mem.moves_write {pa : Page} (h : pa ∈ S) (b : Bytes) : Mem.Moves S S m (m.write (.page pa) b) := by
  refine ⟨rfl, fun f hf => ?_⟩
  have hne : f ≠ .page pa := hf pa (Multiset.mem_add.mpr (.inr h))
  simp [hne]

@[simp] theorem wp_fill (f : Frame) (b : Bytes) (Q : Unit → Mem → Prop) :
    Wp E (fill f b) m Q ↔ Q () (m.write f b) := wp_modify _ _

end Xv6.Vm
