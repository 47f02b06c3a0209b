import Xv6.Kernel.Vm.Memory
import Mathlib.Algebra.BigOperators.Fin
import Mathlib.Algebra.BigOperators.Group.Finset.Basic
import Mathlib.Data.Multiset.Basic
import Mathlib.Tactic

/-! A page table as a map from page numbers to leaf entries, the pages it is made of, and
what `walk`, `mappages`, `uvmunmap` and `freewalk` do to both. -/
namespace Xv6.Vm
open Lib

/-- The number of page numbers that the three levels can tell apart. -/
def vpns : ℕ := 2 ^ 27

/-- The leaf entry of page number `v`. -/
def look (t : Pagetable) (v : ℕ) : Option Pte := t.pte (v * pgsize)

/-- The page of the lowest level that `walk` ends in. -/
def Node.leafNode (t : Pagetable) (va : ℕ) : Option (Node Pte) :=
  (t.entry (px 2 va)).bind fun t₁ => t₁.entry (px 1 va)

/-- The pages of a node and of what its entries point to. -/
@[irreducible] def Node.pages {α : Type} (sub : α → Multiset Page) (n : Node α) : Multiset Page :=
  {n.page} + ∑ i, (n.entry i).elim 0 sub

theorem Node.pages_eq {α : Type} (sub : α → Multiset Page) (n : Node α) :
    n.pages sub = {n.page} + ∑ i, (n.entry i).elim 0 sub := by
  unfold Node.pages
  with_reducible rfl

/-- The pages that a table is made of. -/
def nodes (t : Pagetable) : Multiset Page := t.pages (Node.pages (Node.pages fun _ => 0))

theorem px_mul (level v : ℕ) : (px level (v * pgsize)).val = v / 512 ^ level % 512 := by
  show v * pgsize / pgsize / 512 ^ level % 512 = _
  rw [Nat.mul_div_cancel _ (by decide)]

theorem px_inj {v w : ℕ} (hv : v < vpns) (hw : w < vpns) (h₂ : px 2 (v * pgsize) = px 2 (w * pgsize))
    (h₁ : px 1 (v * pgsize) = px 1 (w * pgsize)) (h₀ : px 0 (v * pgsize) = px 0 (w * pgsize)) :
    v = w := by
  have e₂ := congrArg Fin.val h₂
  have e₁ := congrArg Fin.val h₁
  have e₀ := congrArg Fin.val h₀
  rw [px_mul, px_mul] at e₂ e₁ e₀
  unfold vpns at hv hw
  norm_num at e₂ e₁ e₀
  omega

theorem exists_px (i j k : Fin 512) : ∃ v < vpns,
    px 2 (v * pgsize) = i ∧ px 1 (v * pgsize) = j ∧ px 0 (v * pgsize) = k := by
  refine ⟨i.val * 2 ^ 18 + j.val * 2 ^ 9 + k.val, ?_, Fin.ext ?_, Fin.ext ?_, Fin.ext ?_⟩
  · unfold vpns
    omega
  all_goals
    rw [px_mul]
    norm_num
    omega

theorem pte_eq_leafNode (t : Pagetable) (va : ℕ) :
    t.pte va = (t.leafNode va).bind fun t₀ => t₀.entry (px 0 va) := by
  unfold Node.pte Node.leafNode
  cases t.entry (px 2 va) <;> rfl

theorem setPte_eq {t t₁ : _} {t₀ : Node Pte} {va : ℕ} (h₂ : t.entry (px 2 va) = some t₁)
    (h₁ : t₁.entry (px 1 va) = some t₀) (e : Option Pte) :
    Node.setPte t va e = t.set (px 2 va) (some (t₁.set (px 1 va) (some (t₀.set (px 0 va) e)))) := by
  unfold Node.setPte
  simp only [h₂, h₁]

theorem exists_of_leafNode {t : Pagetable} {va : ℕ} (h : (t.leafNode va).isSome = true) :
    ∃ t₁ t₀, t.entry (px 2 va) = some t₁ ∧ t₁.entry (px 1 va) = some t₀ := by
  obtain ⟨t₀, ht₀⟩ := Option.isSome_iff_exists.mp h
  obtain ⟨t₁, h₂, h₁⟩ := Option.bind_eq_some_iff.mp ht₀
  exact ⟨t₁, t₀, h₂, h₁⟩

theorem look_setPte {t : Pagetable} {v w : ℕ} (hv : v < vpns) (hw : w < vpns)
    (h : (t.leafNode (v * pgsize)).isSome = true) (e : Option Pte) :
    look (t.setPte (v * pgsize) e) w = if w = v then e else look t w := by
  obtain ⟨t₁, t₀, h₂, h₁⟩ := exists_of_leafNode h
  rw [setPte_eq h₂ h₁, look, look, Node.pte, Node.pte]
  by_cases e₂ : px 2 (w * pgsize) = px 2 (v * pgsize)
  · by_cases e₁ : px 1 (w * pgsize) = px 1 (v * pgsize)
    · by_cases e₀ : px 0 (w * pgsize) = px 0 (v * pgsize)
      · obtain rfl := px_inj hw hv e₂ e₁ e₀
        simp
      · have hne : w ≠ v := fun he => e₀ (by rw [he])
        simp [e₂, e₁, e₀, h₂, h₁, hne]
    · have hne : w ≠ v := fun he => e₁ (by rw [he])
      simp [e₂, e₁, h₂, hne]
  · have hne : w ≠ v := fun he => e₂ (by rw [he])
    simp [e₂, hne]

theorem pages_set {α : Type} (sub : α → Multiset Page) (n : Node α) (i : Fin 512) (e : Option α) :
    (n.set i e).pages sub + (n.entry i).elim 0 sub = n.pages sub + e.elim 0 sub := by
  have hsum : ∀ f : Fin 512 → Option α, ∑ j, (f j).elim 0 sub =
      (f i).elim 0 sub + ∑ j ∈ Finset.univ.erase i, (f j).elim 0 sub := fun f =>
    (Finset.add_sum_erase _ _ (Finset.mem_univ i)).symm
  have hrest : ∑ j ∈ Finset.univ.erase i, ((n.set i e).entry j).elim 0 sub =
      ∑ j ∈ Finset.univ.erase i, (n.entry j).elim 0 sub := by
    apply Finset.sum_congr rfl
    intro j hj
    rw [Node.set_entry, Function.update_of_ne (Finset.ne_of_mem_erase hj)]
  rw [Node.pages_eq, Node.pages_eq, hsum, hsum n.entry, hrest, Node.set_entry, Function.update_self, Node.set_page]
  abel

theorem pages_set_some {α : Type} (sub : α → Multiset Page) {n : Node α} {i : Fin 512} {a b : α}
    (h : n.entry i = some a) (hab : sub b = sub a) : (n.set i (some b)).pages sub = n.pages sub := by
  have := pages_set sub n i (some b)
  rw [h, Option.elim_some, Option.elim_some, hab] at this
  exact add_right_cancel this

theorem pages_empty {α : Type} (sub : α → Multiset Page) (pa : Page) :
    (Node.empty α pa).pages sub = {pa} := by
  simp [Node.pages_eq]

theorem pages_zero_set (n : Node Pte) (i : Fin 512) (e : Option Pte) :
    (n.set i e).pages (fun _ => 0) = n.pages fun _ => 0 := by
  have hz : ∀ o : Option Pte, o.elim 0 (fun _ => (0 : Multiset Page)) = 0 := by
    intro o
    cases o <;> rfl
  simp [Node.pages_eq, hz]

theorem nodes_setPte (t : Pagetable) (va : ℕ) (e : Option Pte) : nodes (t.setPte va e) = nodes t := by
  unfold Node.setPte
  cases h₂ : t.entry (px 2 va) with
  | none => rfl
  | some t₁ =>
    cases h₁ : t₁.entry (px 1 va) with
    | none => simp only [h₁]
    | some t₀ =>
      simp only [h₁]
      apply pages_set_some _ h₂
      apply pages_set_some _ h₁
      exact pages_zero_set t₀ _ e

variable {E : Halt → Prop} {m : Mem}

theorem wp_child {α : Type} (n : Node (Node α)) (i : Fin 512) (sub : α → Multiset Page) :
    Wp E (n.child i true) m fun c m' =>
      (c = none → Mem.Moves 0 0 m m') ∧
      (∀ c', c = some c' → (∀ j, c'.entry j = (n.entry i).bind fun d => d.entry j) ∧
        Mem.Moves ((n.entry i).elim 0 (Node.pages sub)) (c'.pages sub) m m') ∧
      ∀ k, m.Enough (k + 1) → c.isSome = true ∧ m'.Enough k := by
  unfold Node.child
  cases h : n.entry i with
  | some c =>
    rw [wp_pure]
    refine ⟨by simp, ?_, fun k hk => ⟨rfl, hk.mono (by omega)⟩⟩
    rintro c' hc
    obtain rfl := Option.some.inj hc
    exact ⟨fun j => rfl, .refl _ m⟩
  | none =>
    simp only [Bool.not_true, Bool.false_eq_true, if_false, wp_bind, wp_pure]
    apply wp_kalloc
    · exact fun m' hm _ hno => ⟨fun _ => hm, by simp, fun k hk => absurd hk (hno k)⟩
    · intro pa m' _ hm henough
      refine ⟨by simp, ?_, fun k hk => ⟨rfl, henough k hk⟩⟩
      rintro c' hc
      obtain rfl := Option.some.inj hc
      refine ⟨fun j => rfl, ?_⟩
      rwa [pages_empty]

theorem mem_pages {α : Type} {sub : α → Multiset Page} {n : Node α} {i : Fin 512} {pa : Page}
    (h : pa ∈ (n.entry i).elim 0 sub) : pa ∈ n.pages sub := by
  rw [Node.pages_eq, ← Finset.add_sum_erase _ _ (Finset.mem_univ i)]
  exact Multiset.mem_add.mpr (.inr (Multiset.mem_add.mpr (.inl h)))

theorem moves_set {α : Type} {sub : α → Multiset Page} {n : Node α} {i : Fin 512} {b : α} {m' : Mem}
    (h : Mem.Moves ((n.entry i).elim 0 sub) (sub b) m m') :
    Mem.Moves (n.pages sub) ((n.set i (some b)).pages sub) m m' := by
  have hset := pages_set sub n i (some b)
  rw [Option.elim_some] at hset
  exact h.exchange hset fun pa hpa => mem_pages hpa

theorem pte_set_child {t : Pagetable} {i : Fin 512} {t₁ : Node (Node Pte)}
    (h : ∀ j, t₁.entry j = (t.entry i).bind fun d => d.entry j) (w : ℕ) :
    Node.pte (t.set i (some t₁)) w = t.pte w := by
  rw [pte_eq_leafNode, pte_eq_leafNode]
  congr 1
  unfold Node.leafNode
  by_cases hw : px 2 w = i
  · simp [hw, h]
  · simp [hw]

theorem pte_set_grandchild {t : Pagetable} {i j : Fin 512} {t₁ : Node (Node Pte)} {t₀ : Node Pte}
    (h₁ : ∀ k, t₁.entry k = (t.entry i).bind fun d => d.entry k)
    (h₀ : ∀ k, t₀.entry k = (t₁.entry j).bind fun d => d.entry k) (w : ℕ) :
    Node.pte (t.set i (some (t₁.set j (some t₀)))) w = t.pte w := by
  have hset := pte_set_child h₁ w
  rw [← hset]
  unfold Node.pte
  by_cases hi : px 2 w = i
  · by_cases hj : px 1 w = j
    · simp [hi, hj, h₀]
    · simp [hi, hj]
  · simp [hi]

theorem wp_walk (t : Pagetable) {va : ℕ} (hva : va < maxva) :
    Wp E (walk t va true) m fun r m' =>
      (∀ w, r.1.pte w = t.pte w) ∧ Mem.Moves (nodes t) (nodes r.1) m m' ∧
      (r.2 = true → (r.1.leafNode va).isSome = true) ∧
      ∀ k, m.Enough (k + 2) → r.2 = true ∧ m'.Enough k := by
  unfold walk
  rw [if_neg (not_le.mpr hva), wp_bind]
  refine (wp_child t (px 2 va) (Node.pages fun _ => 0)).mono ?_
  rintro c m₁ ⟨hnone, hsome, henough⟩
  cases c with
  | none =>
    rw [wp_pure]
    refine ⟨fun _ => rfl, by simpa using (hnone rfl).grow (nodes t), by simp, fun k hk => ?_⟩
    simpa using (henough (k + 1) hk).1
  | some t₁ =>
    obtain ⟨hent, hpages⟩ := hsome t₁ rfl
    simp only [wp_bind]
    refine (wp_child t₁ (px 1 va) fun _ => 0).mono ?_
    rintro c m₂ ⟨hnone', hsome', henough'⟩
    cases c with
    | none =>
      rw [wp_pure]
      refine ⟨pte_set_child hent, ?_, by simp, fun k hk => ?_⟩
      · have hmid := (hnone' rfl).grow (Node.pages (Node.pages fun _ => 0) t₁)
        rw [add_zero] at hmid
        exact moves_set (hpages.trans hmid)
      · simpa using (henough' k (henough (k + 1) hk).2).1
    | some t₀ =>
      obtain ⟨hent', hpages'⟩ := hsome' t₀ rfl
      rw [wp_pure]
      refine ⟨pte_set_grandchild hent hent', ?_, fun _ => by simp [Node.leafNode], fun k hk => ?_⟩
      · exact moves_set (hpages.trans (moves_set hpages'))
      · exact ⟨rfl, (henough' k (henough (k + 1) hk).2).2⟩

theorem leafNode_of_pte {t : Pagetable} {va : ℕ} {pte : Pte} (h : t.pte va = some pte) :
    (t.leafNode va).isSome = true := by
  rw [pte_eq_leafNode] at h
  obtain ⟨t₀, ht₀, -⟩ := Option.bind_eq_some_iff.mp h
  rw [ht₀]
  rfl

theorem wp_walk_found {t : Pagetable} {va : ℕ} {alloc : Bool} (hva : va < maxva)
    (h : (t.leafNode va).isSome = true) {Q : Pagetable × Bool → Mem → Prop} (hQ : Q (t, true) m) :
    Wp E (walk t va alloc) m Q := by
  obtain ⟨t₁, t₀, h₂, h₁⟩ := exists_of_leafNode h
  have hset₁ : t₁.set (px 1 va) (some t₀) = t₁ := by
    rw [← h₁]
    exact congrArg (Node.mk t₁.page) (Function.update_eq_self _ _)
  have hset : t.set (px 2 va) (some t₁) = t := by
    rw [← h₂]
    exact congrArg (Node.mk t.page) (Function.update_eq_self _ _)
  unfold walk
  rw [if_neg (not_le.mpr hva)]
  simp only [Node.child, h₂, h₁, wp_bind, wp_pure, hset₁, hset]
  exact hQ

theorem pgRoundDown_mul (v : ℕ) : pgRoundDown (v * pgsize) = v * pgsize := by
  rw [pgRoundDown, Nat.mul_div_cancel _ (by decide)]

theorem mul_lt_maxva {v : ℕ} (hv : v < 2 ^ 26) : v * pgsize < maxva := by
  unfold pgsize maxva
  omega

theorem wp_mappagesLoop_succ {t : Pagetable} {v n : ℕ} {pa : Frame} {perm : Perm} (hv : v < 2 ^ 26)
    (hfree : look t v = none) {Q : Pagetable × Bool → Mem → Prop}
    (hfail : ∀ t' m', Mem.Moves (nodes t) (nodes t') m m' → (∀ w < vpns, look t' w = look t w) →
      (∀ k, ¬ m.Enough (k + 2)) → Q (t', false) m')
    (hnext : ∀ t' m', Mem.Moves (nodes t) (nodes t') m m' →
      (∀ w < vpns, look t' w = if w = v then some ⟨pa, perm⟩ else look t w) →
      (∀ k, m.Enough (k + 2) → m'.Enough k) →
      Wp E (mappagesLoop perm n t' ((v + 1) * pgsize) pa.next) m' Q) :
    Wp E (mappagesLoop perm (n + 1) t (v * pgsize) pa) m Q := by
  unfold mappagesLoop
  rw [wp_bind]
  refine (wp_walk t (mul_lt_maxva hv)).mono ?_
  rintro ⟨t', found⟩ m' ⟨hpte, hpages, hleaf, henough⟩
  have hlook : ∀ w, look t' w = look t w := fun w => hpte _
  cases found with
  | false =>
    simp only [Bool.not_false, if_true, wp_pure]
    exact hfail t' m' hpages (fun w _ => hlook w) fun k hk => absurd (henough k hk).1 (by simp)
  | true =>
    have hnone : Node.pte t' (v * pgsize) = none := (hlook v).trans hfree
    simp only [Bool.not_true, Bool.false_eq_true, if_false, hnone, Option.isSome_none]
    rw [← Nat.succ_mul]
    refine hnext _ m' ?_ (fun w hw => ?_) fun k hk => (henough k hk).2
    · rwa [nodes_setPte]
    · rw [look_setPte (by unfold vpns; omega) hw (hleaf rfl), hlook]

theorem wp_mappagesLoop_found {t : Pagetable} {v n : ℕ} {pa : Frame} {perm : Perm} (hv : v < 2 ^ 26)
    (hfree : look t v = none) (h : (t.leafNode (v * pgsize)).isSome = true)
    {Q : Pagetable × Bool → Mem → Prop}
    (hnext : Wp E (mappagesLoop perm n (t.setPte (v * pgsize) (some ⟨pa, perm⟩)) ((v + 1) * pgsize)
      pa.next) m Q) : Wp E (mappagesLoop perm (n + 1) t (v * pgsize) pa) m Q := by
  have hnone : t.pte (v * pgsize) = none := hfree
  unfold mappagesLoop
  rw [wp_bind]
  apply wp_walk_found (mul_lt_maxva hv) h
  simp only [Bool.not_true, Bool.false_eq_true, if_false, hnone, Option.isSome_none]
  rwa [← Nat.succ_mul]

theorem mappages_page {v : ℕ} (hv : v < 2 ^ 26) (t : Pagetable) (pa : Frame) (perm : Perm) :
    mappages t (v * pgsize) pgsize pa perm = mappagesLoop perm 1 t (v * pgsize) pa := by
  have hlast : pgRoundDown ((v * pgsize + pgsize + 2 ^ 64 - 1) % 2 ^ 64) = v * pgsize := by
    unfold pgRoundDown pgsize
    omega
  have hone : (v * pgsize + 2 ^ 64 - v * pgsize) % 2 ^ 64 / pgsize + 1 = 1 := by
    unfold pgsize
    omega
  unfold mappages
  simp only [pgRoundDown_mul, hlast, hone]

theorem wp_mappages {t : Pagetable} {v : ℕ} (hv : v < 2 ^ 26) (hfree : look t v = none) (pa : Frame)
    (perm : Perm) : Wp E (mappages t (v * pgsize) pgsize pa perm) m fun r m' =>
      Mem.Moves (nodes t) (nodes r.1) m m' ∧
      (∀ w < vpns, look r.1 w = if r.2 = true ∧ w = v then some ⟨pa, perm⟩ else look t w) ∧
      ∀ k, m.Enough (k + 2) → r.2 = true ∧ m'.Enough k := by
  rw [mappages_page hv]
  apply wp_mappagesLoop_succ hv hfree
  · intro t' m' hm hl hno
    exact ⟨hm, fun w hw => by simpa using hl w hw, fun k hk => absurd hk (hno k)⟩
  · intro t' m' hm hl henough
    rw [mappagesLoop, wp_pure]
    exact ⟨hm, fun w hw => by simpa using hl w hw, fun k hk => ⟨rfl, henough k hk⟩⟩

theorem wp_mappages_found {t : Pagetable} {v : ℕ} (hv : v < 2 ^ 26) (hfree : look t v = none)
    (h : (t.leafNode (v * pgsize)).isSome = true) (pa : Frame) (perm : Perm)
    {Q : Pagetable × Bool → Mem → Prop} (hQ : Q (t.setPte (v * pgsize) (some ⟨pa, perm⟩), true) m) :
    Wp E (mappages t (v * pgsize) pgsize pa perm) m Q := by
  rw [mappages_page hv]
  apply wp_mappagesLoop_found hv hfree h
  rwa [mappagesLoop, wp_pure]

/-- The pages that the leaf of page number `v` holds; the trampoline is nobody's. -/
def leaf (t : Pagetable) (v : ℕ) : Multiset Page :=
  match look t v with
  | some ⟨.page pa, _⟩ => {pa}
  | _ => 0

theorem leaf_congr {t t' : Pagetable} {v : ℕ} (h : look t' v = look t v) : leaf t' v = leaf t v := by
  unfold leaf
  rw [h]

/-- The pages from `v` on are unmapped, and freed if `doFree` says so. -/
theorem wp_uvmunmapLoop (doFree : Bool) {n v : ℕ} {t : Pagetable} (hv : v + n ≤ 2 ^ 26)
    (hmap : ∀ w, v ≤ w → w < v + n → (look t w).isSome = true)
    (hpage : doFree = true → ∀ w, v ≤ w → w < v + n → ∃ pa perm, look t w = some ⟨.page pa, perm⟩) :
    Wp E (uvmunmapLoop doFree n t (v * pgsize)) m fun t' m' =>
      nodes t' = nodes t ∧ m'.fails = m.fails ∧
      Mem.Moves (if doFree then ∑ k ∈ Finset.range n, leaf t (v + k) else 0) 0 m m' ∧
      ∀ w < vpns, look t' w = if v ≤ w ∧ w < v + n then none else look t w := by
  induction n generalizing v t m with
  | zero =>
    rw [uvmunmapLoop, wp_pure]
    refine ⟨rfl, rfl, by simpa using Mem.Moves.refl 0 m, fun w _ => ?_⟩
    rw [if_neg (by omega)]
  | succ n ih =>
    obtain ⟨pte, hpte⟩ := Option.isSome_iff_exists.mp (hmap v le_rfl (by omega))
    have hleaf := leafNode_of_pte hpte
    unfold uvmunmapLoop
    rw [wp_bind]
    apply wp_walk_found (mul_lt_maxva (by omega)) hleaf
    have hflags : (pte.perm.r || pte.perm.w || pte.perm.x || pte.perm.u ||
        decide (pte.perm.rest ≠ 0)) = true := by
      rw [pte.perm.leaf, Bool.true_or, Bool.true_or]
    simp only [Bool.not_true, Bool.false_eq_true, if_false, show Node.pte t (v * pgsize) = some pte
      from hpte, hflags]
    have hnext : (v + 1) * pgsize = v * pgsize + pgsize := Nat.succ_mul v pgsize
    have hlook : ∀ w < vpns, look (t.setPte (v * pgsize) none) w = if w = v then none else look t w :=
      fun w hw => look_setPte (by unfold vpns; omega) hw hleaf none
    have hkeep : ∀ w, v + 1 ≤ w → w < v + 1 + n → look (t.setPte (v * pgsize) none) w = look t w :=
      fun w hw hw' => by rw [hlook w (by unfold vpns; omega), if_neg (by omega)]
    have hsum : ∑ k ∈ Finset.range (n + 1), leaf t (v + k) =
        leaf t v + ∑ k ∈ Finset.range n, leaf (t.setPte (v * pgsize) none) (v + 1 + k) := by
      rw [Finset.sum_range_succ', add_comm, Nat.add_zero]
      congr 1
      apply Finset.sum_congr rfl
      intro k hk
      rw [leaf_congr (hkeep (v + 1 + k) (by omega) (by have := Finset.mem_range.mp hk; omega))]
      congr 1
      omega
    have hrest : ∀ m : Mem, Wp E (uvmunmapLoop doFree n (t.setPte (v * pgsize) none)
        (v * pgsize + pgsize)) m _ := fun m => by
      rw [← hnext]
      exact ih (by omega) (fun w hw hw' => by rw [hkeep w hw hw']; exact hmap w (by omega) (by omega))
        fun hd w hw hw' => by rw [hkeep w hw hw']; exact hpage hd w (by omega) (by omega)
    have hfinal : ∀ t' : Pagetable, (∀ w < vpns, look t' w = if v + 1 ≤ w ∧ w < v + 1 + n then none
        else look (t.setPte (v * pgsize) none) w) →
        ∀ w < vpns, look t' w = if v ≤ w ∧ w < v + (n + 1) then none else look t w := by
      intro t' ht' w hw
      rw [ht' w hw, hlook w hw]
      split_ifs <;> first | rfl | omega
    cases doFree with
    | false =>
      simp only [Bool.false_eq_true, if_false]
      refine (hrest m).mono ?_
      rintro t' m' ⟨hnodes, hfails, hfree, hl⟩
      exact ⟨hnodes.trans (nodes_setPte ..), hfails, hfree, hfinal t' hl⟩
    | true =>
      obtain ⟨pa, perm, hpa⟩ := hpage rfl v le_rfl (by omega)
      obtain rfl : pte = ⟨.page pa, perm⟩ := Option.some.inj (hpte.symm.trans hpa)
      simp only [if_true, wp_bind]
      apply wp_kfree
      intro m₁ _ hfails₁ hm₁
      refine (hrest m₁).mono ?_
      rintro t' m' ⟨hnodes, hfails, hm, hl⟩
      refine ⟨hnodes.trans (nodes_setPte ..), hfails.trans hfails₁, ?_, hfinal t' hl⟩
      have hleaf : leaf t v = {pa} := by simp [leaf, hpa]
      simp only [if_true] at hm ⊢
      rw [hsum, hleaf, add_comm]
      exact (hm₁.shrink _).trans hm

theorem wp_freeEntries {α : Type} {freeEntry : α → K Unit} {sub : α → Multiset Page} (n : Node α)
    (h : ∀ i e, n.entry i = some e → ∀ m, Wp E (freeEntry e) m fun _ m' =>
      Mem.Moves (sub e) 0 m m') (l : List (Fin 512)) :
    Wp E (l.forM fun i => (n.entry i).elim (pure ()) freeEntry) m
      fun _ m' => Mem.Moves (l.map fun i => (n.entry i).elim 0 sub).sum 0 m m' := by
  induction l generalizing m with
  | nil => simpa using Mem.Moves.refl 0 m
  | cons i l ih =>
    rw [wp_forM_cons, List.map_cons, List.sum_cons]
    cases he : n.entry i with
    | none =>
      rw [Option.elim_none, wp_pure, Option.elim_none, zero_add]
      exact ih
    | some e =>
      rw [Option.elim_some]
      refine (h i e he m).mono ?_
      intro _ m' hm'
      refine ih.mono ?_
      intro _ m'' hm''
      rw [Option.elim_some, add_comm]
      exact (hm'.shrink _).trans hm''

theorem wp_freewalkNode {α : Type} {freeEntry : α → K Unit} {sub : α → Multiset Page} (n : Node α)
    (h : ∀ i e, n.entry i = some e → ∀ m, Wp E (freeEntry e) m fun _ m' =>
      Mem.Moves (sub e) 0 m m') :
    Wp E (freewalkNode freeEntry n) m fun _ m' => Mem.Moves (n.pages sub) 0 m m' := by
  have hp : n.pages sub =
      {n.page} + ((List.finRange 512).map fun i => (n.entry i).elim 0 sub).sum := by
    rw [Node.pages_eq, Fin.sum_univ_def]
  rw [freewalkNode, wp_bind, hp]
  generalize List.finRange 512 = l
  refine (wp_freeEntries n h l).mono ?_
  intro _ m' hm'
  apply wp_kfree
  intro m'' _ _ hm''
  exact (hm'.shrink _).trans hm''

theorem wp_freewalk {t : Pagetable} (h : ∀ v < vpns, look t v = none) :
    Wp E (freewalk t) m fun _ m' => Mem.Moves (nodes t) 0 m m' := by
  have hempty : ∀ i j k t₁ t₀, t.entry i = some t₁ → t₁.entry j = some t₀ → t₀.entry k = none := by
    intro i j k t₁ t₀ h₂ h₁
    obtain ⟨v, hv, rfl, rfl, rfl⟩ := exists_px i j k
    simpa [look, Node.pte, h₂, h₁] using h v hv
  have hfree : ∀ i t₁, t.entry i = some t₁ → ∀ m, Wp E (freewalkNode (freewalkNode fun _ =>
      throw (.panic .freewalkLeaf)) t₁) m fun _ m' =>
        Mem.Moves (t₁.pages (Node.pages fun _ => 0)) 0 m m' := by
    intro i t₁ h₂ m
    apply wp_freewalkNode
    intro j t₀ h₁ m
    apply wp_freewalkNode
    intro k e h₀
    rw [hempty i j k t₁ t₀ h₂ h₁] at h₀
    simp at h₀
  exact wp_freewalkNode t hfree

end Xv6.Vm
