import Xv6.Kernel.Vm.Maps

/-! A user address space: the pages from 0 on without a gap, and the pages at the top.
Every function of `vm.c` that changes one leaves one, on success and on failure, and loses
no page. -/
namespace Xv6.Vm
open Lib Multiset

/-- The number of pages below the trapframe. -/
def userPages : ℕ := trapframe / pgsize

/-- The number of pages for `sz` bytes. -/
def pgs (sz : ℕ) : ℕ := (sz + pgsize - 1) / pgsize

/-- The pages that user memory occupies. -/
@[irreducible] def user (t : Pagetable) : Multiset Page := ∑ v ∈ Finset.range userPages, leaf t v

/-- The pages that go back to `kalloc` with the table. -/
def holdings (t : Pagetable) : Multiset Page := nodes t + user t

theorem holdings_add (t : Pagetable) (S : Multiset Page) :
    holdings t + S = nodes t + (user t + S) := by
  rw [holdings, add_assoc]

/-- The table maps the page numbers below `n`, with rights that `rights` admits, those in
`top`, which user code may not touch, and nothing else. -/
structure Space (rights : Perm → Prop) (t : Pagetable) (n : ℕ) (top : Set ℕ) : Prop where
  mapped : ∀ v < vpns, (look t v).isSome = true ↔ v < n ∨ v ∈ top
  page : ∀ v < n, ∃ pa perm, look t v = some ⟨.page pa, perm⟩ ∧ rights perm
  le : n ≤ userPages
  above : ∀ v ∈ top, userPages ≤ v
  closed : ∀ v < vpns, userPages ≤ v → ∀ e, look t v = some e → e.perm.u = false

theorem userPages_eq : userPages = 2 ^ 26 - 2 := by decide

theorem le_of_pgs {sz n : ℕ} (h : pgs sz ≤ n) : sz ≤ n * pgsize := by
  unfold pgs at h
  unfold pgsize at *
  omega

theorem pgRoundUp_eq {sz : ℕ} (h : pgs sz ≤ userPages) : pgRoundUp sz = pgs sz * pgsize := by
  have hle := le_of_pgs h
  rw [userPages_eq] at hle
  unfold pgRoundUp pgs
  unfold pgsize at *
  omega

theorem pgs_mul (n : ℕ) : pgs (n * pgsize) = n := by
  unfold pgs pgsize
  omega

theorem throughInt_of_lt {n : ℕ} (h : n < 2 ^ 31) : throughInt n = n := by
  unfold throughInt
  rw [if_pos (by omega)]
  omega

theorem pgs_mono {a b : ℕ} (h : a ≤ b) : pgs a ≤ pgs b := by
  unfold pgs
  apply Nat.div_le_div_right
  omega

theorem user_eq (t : Pagetable) : user t = ∑ v ∈ Finset.range userPages, leaf t v := by
  unfold user
  with_reducible rfl

theorem lt_vpns {v : ℕ} (h : v < userPages) : v < vpns := by
  rw [userPages_eq] at h
  unfold vpns
  omega

theorem user_congr {t t' : Pagetable} (h : ∀ v < userPages, look t' v = look t v) :
    user t' = user t := by
  rw [user_eq, user_eq]
  apply Finset.sum_congr rfl
  intro v hv
  exact leaf_congr (h v (Finset.mem_range.mp hv))

theorem mem_user {t : Pagetable} {v : ℕ} {pa : Page} {perm : Perm} (hv : v < userPages)
    (h : look t v = some ⟨.page pa, perm⟩) : pa ∈ user t := by
  have hleaf : leaf t v = {pa} := by simp [leaf, h]
  rw [user_eq, ← Finset.add_sum_erase _ _ (Finset.mem_range.mpr hv), hleaf, mem_add]
  left
  exact mem_singleton_self pa

theorem user_map {t t' : Pagetable} {v : ℕ} {pa : Page} {perm : Perm} (hv : v < userPages)
    (hnone : look t v = none)
    (h : ∀ w < vpns, look t' w = if w = v then some ⟨.page pa, perm⟩ else look t w) :
    user t' = user t + {pa} := by
  have hmem := Finset.mem_range.mpr hv
  have hrest : ∑ w ∈ (Finset.range userPages).erase v, leaf t' w =
      ∑ w ∈ (Finset.range userPages).erase v, leaf t w := by
    apply Finset.sum_congr rfl
    intro w hw
    obtain ⟨hne, hw⟩ := Finset.mem_erase.mp hw
    apply leaf_congr
    rw [h w (lt_vpns (Finset.mem_range.mp hw)), if_neg hne]
  have hnew : leaf t' v = {pa} := by simp [leaf, h v (lt_vpns hv)]
  have hold : leaf t v = 0 := by simp [leaf, hnone]
  rw [user_eq, user_eq, ← Finset.add_sum_erase _ _ hmem, ← Finset.add_sum_erase _ (leaf t) hmem, hrest, hnew, hold,
    zero_add, add_comm]

theorem user_unmap {t t' : Pagetable} {n v : ℕ} (hn : v + n ≤ userPages)
    (h : ∀ w < vpns, look t' w = if v ≤ w ∧ w < v + n then none else look t w) :
    user t' + ∑ k ∈ Finset.range n, leaf t (v + k) = user t := by
  have hsplit : ∀ w ∈ Finset.range userPages,
      leaf t' w + (if v ≤ w ∧ w < v + n then leaf t w else 0) = leaf t w := by
    intro w hw
    have hl := h w (lt_vpns (Finset.mem_range.mp hw))
    split_ifs with hin
    · rw [if_pos hin] at hl
      simp [leaf, hl]
    · rw [if_neg hin] at hl
      rw [leaf_congr hl, add_zero]
  have hpart : ∑ w ∈ Finset.range userPages, (if v ≤ w ∧ w < v + n then leaf t w else 0) =
      ∑ k ∈ Finset.range n, leaf t (v + k) := by
    rw [← Finset.sum_filter]
    symm
    refine Finset.sum_bij (fun k _ => v + k) ?_ ?_ ?_ fun _ _ => rfl
    · intro k hk
      have := Finset.mem_range.mp hk
      simp only [Finset.mem_filter, Finset.mem_range]
      omega
    · intro a _ b _ hab
      omega
    · intro w hw
      simp only [Finset.mem_filter, Finset.mem_range] at hw
      exact ⟨w - v, Finset.mem_range.mpr (by omega), by omega⟩
  rw [user_eq, user_eq, ← hpart, ← Finset.sum_add_distrib]
  exact Finset.sum_congr rfl hsplit

theorem one_le_card_nodes (t : Pagetable) : 1 ≤ (nodes t).card := by
  rw [nodes, Node.pages_eq, card_add, Multiset.card_singleton]
  omega

/-- The free pages and those of the table are apart. -/
def Apart (t : Pagetable) (m : Mem) : Prop := ((m.free : Multiset Page) + holdings t).Nodup

theorem Apart.moves {t t' : Pagetable} {m m' : Mem} (h : Apart t m) (hm : Mem.Moves (holdings t) (holdings t') m m') :
    Apart t' m' := hm.nodup h

theorem Apart.user {t : Pagetable} {m : Mem} (h : Apart t m) : ((m.free : Multiset Page) + user t).Nodup :=
  nodup_of_le (add_le_add le_rfl (le_add_left _ _)) h

/-- The pages below `k` and those at the top are mapped as they were, and the former hold what they held. -/
structure Same (k : ℕ) (t : Pagetable) (m : Mem) (t' : Pagetable) (m' : Mem) : Prop where
  le : k ≤ userPages
  entry : ∀ v < vpns, v < k ∨ userPages ≤ v → look t' v = look t v
  data : ∀ v < k, ∀ e, look t v = some e → m'.data e.pa = m.data e.pa

/-- The pages from `k` up to `n` are new. -/
def Zeroed (k n : ℕ) (t : Pagetable) (m : Mem) : Prop :=
  ∀ v, k ≤ v → v < n → ∃ pa, look t v = some ⟨.page pa, permRWXU⟩ ∧ m.data (.page pa) = fun _ => 0

section
variable {t t' t'' : Pagetable} {m m' m'' : Mem} {k n : ℕ}

theorem Same.refl (hk : k ≤ userPages) (t : Pagetable) (m : Mem) : Same k t m t m :=
  ⟨hk, fun _ _ _ => rfl, fun _ _ _ _ => rfl⟩

theorem Same.entry_of_lt (h : Same k t m t' m') {v : ℕ} (hv : v < k) : look t' v = look t v :=
  h.entry v (lt_vpns (lt_of_lt_of_le hv h.le)) (.inl hv)

theorem Same.trans (h : Same k t m t' m') (h' : Same k t' m' t'' m'') : Same k t m t'' m'' where
  le := h.le
  entry v hv hk := (h'.entry v hv hk).trans (h.entry v hv hk)
  data v hv e he := (h'.data v hv e ((h.entry_of_lt hv).trans he)).trans (h.data v hv e he)

theorem Same.mono (h : Same n t m t' m') (hk : k ≤ n) : Same k t m t' m' where
  le := hk.trans h.le
  entry v hv hkv := h.entry v hv (hkv.imp_left fun hlt => lt_of_lt_of_le hlt hk)
  data v hv := h.data v (lt_of_lt_of_le hv hk)

theorem Zeroed.nil (k : ℕ) (t : Pagetable) (m : Mem) : Zeroed k k t m := fun _ hk hn => absurd hn (not_lt.mpr hk)

theorem Same.of_moves {S S' R : Multiset Page} (hk : k ≤ userPages)
    (hl : ∀ v < vpns, v < k ∨ userPages ≤ v → look t' v = look t v)
    (hpage : ∀ v < k, ∀ e, look t v = some e → ∃ pa ∈ R, e.pa = .page pa) (hm : Mem.Moves S S' m m')
    (hnd : ((m.free : Multiset Page) + S + R).Nodup) : Same k t m t' m' := by
  refine ⟨hk, hl, fun v hv e he => hm.data e.pa fun pa' hpa' heq => ?_⟩
  obtain ⟨pa, hpa, hep⟩ := hpage v hv e he
  rw [hep] at heq
  obtain rfl := Frame.page.inj heq
  exact disjoint_left.mp (nodup_add.mp hnd).2.2 hpa' hpa

end

namespace Space
variable {rights : Perm → Prop} {t : Pagetable} {n : ℕ} {top : Set ℕ} {m : Mem}
  {E : Halt → Prop}

theorem mem_user_of_look (h : Space rights t n top) {v : ℕ} (hv : v < n) {e : Pte} (he : look t v = some e) :
    ∃ pa ∈ user t, e.pa = .page pa := by
  obtain ⟨pa, perm, hl, -⟩ := h.page v hv
  rw [hl] at he
  obtain rfl := Option.some.inj he
  exact ⟨pa, mem_user (lt_of_lt_of_le hv h.le) hl, rfl⟩

theorem le_card_user (h : Space rights t n top) : n ≤ (user t).card := by
  have hcard : ∀ v < n, (leaf t v).card = 1 := by
    intro v hv
    obtain ⟨pa, perm, hl, -⟩ := h.page v hv
    simp [leaf, hl]
  have hsub : Finset.range n ⊆ Finset.range userPages := by
    intro v hv
    exact Finset.mem_range.mpr (lt_of_lt_of_le (Finset.mem_range.mp hv) h.le)
  calc n = ∑ v ∈ Finset.range n, (leaf t v).card := by
        rw [Finset.sum_congr rfl fun v hv => hcard v (Finset.mem_range.mp hv)]
        simp
    _ ≤ ∑ v ∈ Finset.range userPages, (leaf t v).card := Finset.sum_le_sum_of_subset hsub
    _ = (user t).card := by rw [user_eq, Multiset.card_sum]

theorem look_none (h : Space rights t n top) {v : ℕ} (hv : v < vpns) (hn : n ≤ v) (ht : v ∉ top) :
    look t v = none := by
  cases hl : look t v with
  | none => rfl
  | some pte =>
    rcases (h.mapped v hv).mp (by rw [hl]; rfl) with hlt | hmem
    · omega
    · exact absurd hmem ht

theorem notMem_top (h : Space rights t n top) {v : ℕ} (hv : v < userPages) : v ∉ top := fun hm =>
  absurd (h.above v hm) (not_le.mpr hv)

/-- The user pages from `k` on are unmapped and freed. -/
theorem wp_uvmunmap (h : Space rights t n top) {k : ℕ} (hk : k ≤ n) :
    Wp E (uvmunmap t (k * pgsize) (n - k) true) m fun t' m' =>
      Space rights t' k top ∧ Mem.Moves (holdings t) (holdings t') m m' ∧ (Apart t m → Same k t m t' m') := by
  have hle := h.le
  have hcount : ((k * pgsize + (n - k) * pgsize) % 2 ^ 64 - k * pgsize) / pgsize = n - k := by
    rw [userPages_eq] at hle
    unfold pgsize
    omega
  unfold uvmunmap
  rw [Nat.mul_mod_left, if_neg (by simp), hcount]
  refine (wp_uvmunmapLoop true (n := n - k) (by rw [userPages_eq] at hle; omega) ?_ ?_).mono ?_
  · intro w _ hw
    obtain ⟨pa, perm, hl, -⟩ := h.page w (by omega)
    rw [hl]
    rfl
  · intro _ w _ hw
    obtain ⟨pa, perm, hl, -⟩ := h.page w (by omega)
    exact ⟨pa, perm, hl⟩
  · rintro t' m' ⟨hnodes, -, hm, hlook⟩
    rw [Nat.add_sub_cancel' hk] at hlook
    rw [if_pos rfl] at hm
    have huser : user t' + ∑ j ∈ Finset.range (n - k), leaf t (k + j) = user t :=
      user_unmap (by omega) (by rwa [Nat.add_sub_cancel' hk])
    have hhold : holdings t = holdings t' + ∑ j ∈ Finset.range (n - k), leaf t (k + j) := by
      rw [holdings, holdings, hnodes, ← huser, ← add_assoc]
    have hs : Space rights t' k top := by
      constructor
      · intro v hv
        rw [hlook v hv]
        split_ifs with hin
        · have := h.notMem_top (lt_of_lt_of_le hin.2 hle)
          simp [this, not_lt.mpr hin.1]
        · rw [h.mapped v hv]
          constructor
          · rintro (hlt | hm)
            · exact .inl (by omega)
            · exact .inr hm
          · rintro (hlt | hm)
            · exact .inl (by omega)
            · exact .inr hm
      · intro v hv
        rw [hlook v (lt_vpns (by omega)), if_neg (by omega)]
        exact h.page v (by omega)
      · omega
      · exact h.above
      · intro v hv hup
        rw [hlook v hv, if_neg (by omega)]
        exact h.closed v hv hup
    have hsame : ∀ v < vpns, v < k ∨ userPages ≤ v → look t' v = look t v := fun v hv hk => by
      rw [hlook v hv, if_neg (by omega)]
    have hpage : ∀ v < k, ∀ e, look t v = some e → ∃ pa ∈ user t', e.pa = .page pa := fun v hv e he =>
      hs.mem_user_of_look hv ((hsame v (lt_vpns (by omega)) (.inl hv)).trans he)
    refine ⟨hs, ?_, fun hap => .of_moves (by omega) hsame hpage hm ?_⟩
    · rw [hhold]
      exact hm.shrink _
    · -- the pages that stay are those of the new table
      unfold Apart at hap
      rw [hhold, holdings] at hap
      refine nodup_of_le ?_ hap
      rw [add_assoc, add_comm (∑ j ∈ Finset.range (n - k), leaf t (k + j))]
      exact add_le_add le_rfl (add_le_add (le_add_left _ _) le_rfl)

theorem wp_uvmdealloc {oldsz newsz : ℕ} (h : Space rights t (pgs oldsz) top) :
    Wp E (uvmdealloc t oldsz newsz) m fun r m' =>
      r.2 = min oldsz newsz ∧ Space rights r.1 (pgs r.2) top ∧
        Mem.Moves (holdings t) (holdings r.1) m m' ∧ (Apart t m → Same (pgs r.2) t m r.1 m') := by
  have hle := h.le
  unfold uvmdealloc
  by_cases hlt : oldsz ≤ newsz
  · rw [if_pos hlt, wp_pure]
    exact ⟨(min_eq_left hlt).symm, h, .refl _ m, fun _ => .refl hle t m⟩
  have hk : pgs newsz ≤ pgs oldsz := pgs_mono (by omega)
  have hold := pgRoundUp_eq hle
  have hnew := pgRoundUp_eq (hk.trans hle)
  rw [if_neg hlt]
  split_ifs with hpages
  · have hn : throughInt ((pgRoundUp oldsz - pgRoundUp newsz) / pgsize) = pgs oldsz - pgs newsz := by
      rw [hold, hnew, ← Nat.sub_mul, Nat.mul_div_cancel _ (by decide)]
      exact throughInt_of_lt (by rw [userPages_eq] at hle; omega)
    simp only [wp_bind, wp_pure]
    rw [hn, hnew]
    refine (h.wp_uvmunmap hk).mono ?_
    rintro t' m' ⟨hs, hc⟩
    exact ⟨(min_eq_right (by omega)).symm, hs, hc⟩
  · rw [wp_pure]
    have hsame : pgs newsz = pgs oldsz := by
      rw [hold, hnew] at hpages
      have : pgs oldsz ≤ pgs newsz := Nat.le_of_mul_le_mul_right (not_lt.mp hpages) (by decide)
      omega
    exact ⟨(min_eq_right (by omega)).symm, by rwa [hsame], .refl _ m, fun _ => .refl (hk.trans hle) t m⟩

theorem lt_userPages (h : Space rights t n top) (free : List Page)
    (hb : free.length + 1 + (holdings t).card < 2 ^ 26) : n < userPages := by
  have huser := h.le_card_user
  have hnodes := one_le_card_nodes t
  rw [holdings, card_add] at hb
  rw [userPages_eq]
  omega

theorem congr (h : Space rights t n top) {t' : Pagetable} (hsame : ∀ w < vpns, look t' w = look t w) :
    Space rights t' n top := by
  have hle := h.le
  constructor
  · intro v hv
    rw [hsame v hv]
    exact h.mapped v hv
  · intro v hv
    rw [hsame v (lt_vpns (by omega))]
    exact h.page v hv
  · exact h.le
  · exact h.above
  · intro v hv hup
    rw [hsame v hv]
    exact h.closed v hv hup

theorem snoc (h : Space rights t n top) (hlt : n < userPages) {t' : Pagetable} {mem : Page}
    {perm : Perm} (hp : rights perm) (hset : ∀ w < vpns, look t' w = if w = n then some ⟨.page mem, perm⟩ else look t w) :
    Space rights t' (n + 1) top := by
  constructor
  · intro v hv
    rw [hset v hv]
    split_ifs with he
    · simp [he]
    · rw [h.mapped v hv, Nat.lt_succ_iff_lt_or_eq, or_iff_left he]
  · intro v hv
    rw [hset v (lt_vpns (by omega))]
    split_ifs with he
    · exact ⟨mem, perm, rfl, hp⟩
    · exact h.page v (by omega)
  · exact hlt
  · exact h.above
  · intro v hv hup
    rw [hset v hv, if_neg (by omega)]
    exact h.closed v hv hup

theorem wp_mappages (h : Space rights t n top) (hlt : n < userPages) (mem : Page) (perm : Perm)
    (hp : rights perm) : Wp E (mappages t (n * pgsize) pgsize (.page mem) perm) m fun r m' =>
      Space rights r.1 (if r.2 = true then n + 1 else n) top ∧
      Mem.Moves (nodes t) (nodes r.1) m m' ∧
      user r.1 = user t + (if r.2 = true then {mem} else 0) ∧
      (∀ w < vpns, look r.1 w = if r.2 = true ∧ w = n then some ⟨.page mem, perm⟩ else look t w) ∧
      ∀ k, m.Enough (k + 2) → r.2 = true ∧ m'.Enough k := by
  have hnone := h.look_none (lt_vpns hlt) le_rfl (h.notMem_top hlt)
  refine (Vm.wp_mappages (by rw [userPages_eq] at hlt; omega) hnone (.page mem) perm).mono ?_
  rintro ⟨t', mapped⟩ m' ⟨hpages, hlook, henough⟩
  cases mapped with
  | false =>
    have hsame : ∀ w < vpns, look t' w = look t w := fun w hw => by simpa using hlook w hw
    refine ⟨h.congr hsame, hpages, ?_, hlook, henough⟩
    simp only [Bool.false_eq_true, if_false, add_zero]
    exact user_congr fun w hw => hsame w (lt_vpns hw)
  | true =>
    have hset : ∀ w < vpns, look t' w = if w = n then some ⟨.page mem, perm⟩ else look t w :=
      fun w hw => by simpa using hlook w hw
    exact ⟨h.snoc hlt hp hset, hpages, user_map hlt hnone hset, hlook, henough⟩

theorem same_mappages {k : ℕ} (h : Space rights t k top) (hap : Apart t m) {t' : Pagetable} {mem : Page} {m₁ m' : Mem}
    (hfree : m.free = mem :: m₁.free) (hm₁ : Mem.Moves 0 {mem} m m₁)
    (hm' : Mem.Moves (nodes t) (nodes t') (m₁.write (.page mem) fun _ => 0) m')
    (hl : ∀ v < vpns, v < k ∨ userPages ≤ v → look t' v = look t v) :
    Same k t m t' m' ∧ m'.data (.page mem) = fun _ => 0 := by
  have hnd : (mem ::ₘ ((m₁.free : Multiset Page) + nodes t + user t)).Nodup := by
    unfold Apart at hap
    rwa [hfree, ← Multiset.cons_coe, cons_add, holdings, ← add_assoc] at hap
  obtain ⟨hnot, hnd'⟩ := nodup_cons.mp hnd
  have hpage : ∀ v < k, ∀ e, look t v = some e → ∃ pa ∈ user t, e.pa = .page pa := fun v hv e he => h.mem_user_of_look hv he
  constructor
  · have hclear : Same k t m t (m₁.write (.page mem) fun _ => 0) := by
      refine .of_moves h.le (fun _ _ _ => rfl) hpage (hm₁.trans (Mem.moves_write (mem_singleton_self mem) _)) ?_
      rw [add_zero]
      exact hap.user
    exact hclear.trans (.of_moves h.le hl hpage hm' hnd')
  · rw [hm'.data (.page mem) fun pa hpa heq => hnot ?_]
    · simp
    · rw [Frame.page.inj heq]
      exact mem_add.mpr (.inl hpa)

/-- The space grows by `n` pages, or falls back to what it was before `uvmalloc`. -/
theorem wp_uvmallocLoop {k n₀ : ℕ} (h : Space rights t k top) (hk : n₀ ≤ k)
    (hp : rights permRWXU) (hb : m.free.length + (holdings t).card < 2 ^ 26) :
    Wp E (uvmallocLoop (n₀ * pgsize) n t (k * pgsize)) m fun r m' =>
      Space rights r.1 (if r.2 = true then k + n else n₀) top ∧
      Mem.Moves (holdings t) (holdings r.1) m m' ∧
      (∀ j, m.Enough (j + 3 * n) → r.2 = true ∧ m'.Enough j) ∧
      (Apart t m → Same (if r.2 = true then k else n₀) t m r.1 m' ∧ (r.2 = true → Zeroed k (k + n) r.1 m')) := by
  induction n generalizing t k m with
  | zero =>
    rw [uvmallocLoop, wp_pure]
    exact ⟨h, .refl _ m, fun j hj => ⟨rfl, hj⟩, fun _ => ⟨.refl h.le t m, fun _ => .nil k t m⟩⟩
  | succ n ih =>
    have hdealloc : ∀ {t : Pagetable} {m : Mem}, Space rights t k top → Wp E (uvmdealloc t (k * pgsize)
        (n₀ * pgsize)) m fun r m' => Space rights r.1 n₀ top ∧
          Mem.Moves (holdings t) (holdings r.1) m m' ∧ (Apart t m → Same n₀ t m r.1 m') := by
      intro t m hs
      refine (wp_uvmdealloc (by rwa [pgs_mul])).mono ?_
      rintro r m' ⟨hr, hs', hc, hsame⟩
      have hmin : min (k * pgsize) (n₀ * pgsize) = n₀ * pgsize :=
        min_eq_right (Nat.mul_le_mul_right _ hk)
      rw [hr, hmin, pgs_mul] at hs' hsame
      exact ⟨hs', hc, hsame⟩
    unfold uvmallocLoop
    rw [wp_bind]
    apply wp_kalloc
    · intro m₁ hm₁ _ hno
      simp only [wp_bind, wp_pure]
      refine (hdealloc h).mono ?_
      rintro r m' ⟨hs, hc, hsame⟩
      have hm₁' := hm₁.grow (holdings t)
      rw [add_zero] at hm₁'
      refine ⟨hs, hm₁'.trans hc, fun j hj => absurd hj ?_, fun hap => ⟨?_, fun hf => absurd hf (by simp)⟩⟩
      · rw [show j + 3 * (n + 1) = j + 3 * n + 2 + 1 by ring]
        exact hno _
      · have hfailed : Same k t m t m₁ :=
          .of_moves h.le (fun _ _ _ => rfl) (fun v hv e he => h.mem_user_of_look hv he) hm₁
            (by rw [add_zero]; exact hap.user)
        exact (hfailed.mono hk).trans (hsame (hap.moves hm₁'))
    · intro mem m₁ hfree hm₁ henough
      have hlen : m.free.length = m₁.free.length + 1 := by rw [hfree]; rfl
      have hlt : k < userPages := h.lt_userPages m₁.free (by omega)
      have hm₂ : Mem.Moves (holdings t) (holdings t + {mem}) m (m₁.write (.page mem) fun _ => 0) :=
        (hm₁.grow _).trans (Mem.moves_write (by simp) _)
      rw [holdings_add] at hm₂
      simp only [wp_bind, wp_fill]
      refine (h.wp_mappages hlt mem _ hp).mono ?_
      rintro ⟨t', mapped⟩ m' ⟨hs, hnodes, huser, hlook, henough'⟩
      have hcontent : Apart t m → Same k t m t' m' ∧ m'.data (.page mem) = fun _ => 0 := fun hap =>
        h.same_mappages hap hfree hm₁ hnodes fun v hv hk => by
          rw [hlook v hv, if_neg (by omega)]
      have hgo : ∀ j, m.Enough (j + 3 * (n + 1)) → mapped = true ∧ m'.Enough (j + 3 * n) := by
        intro j hj
        exact henough' _ (henough _ (by
          rwa [show j + 3 * (n + 1) = j + 3 * n + 2 + 1 by ring] at hj))
      dsimp only at hnodes
      have hmap := hm₂.trans (hnodes.frame (user t + {mem}))
      cases mapped with
      | false =>
        simp only [Bool.false_eq_true, if_false, add_zero] at hs huser
        simp only [Bool.not_false, if_true, wp_bind, wp_pure]
        apply wp_kfree
        intro m₃ _ _ hm₃
        refine (hdealloc hs).mono ?_
        rintro r m'' ⟨hs'', hc'', hsame⟩
        rw [← huser, ← add_assoc, ← holdings] at hmap
        have hback := hmap.trans (hm₃.shrink _)
        refine ⟨hs'', hback.trans hc'', fun j hj => absurd (hgo j hj).1 (by simp), fun hap => ⟨?_, fun hf => absurd hf (by simp)⟩⟩
        have hnd : ((m'.free : Multiset Page) + {mem} + user t').Nodup := by
          refine nodup_of_le ?_ (hmap.nodup hap)
          rw [add_assoc, add_comm ({mem} : Multiset Page)]
          exact add_le_add le_rfl (add_le_add (le_add_left _ _) le_rfl)
        have hfreed : Same k t' m' t' m₃ :=
          .of_moves hs.le (fun _ _ _ => rfl) (fun v hv e he => hs.mem_user_of_look hv he) hm₃ hnd
        exact (((hcontent hap).1.trans hfreed).mono hk).trans (hsame (hap.moves hback))
      | true =>
        simp only [if_true] at hs huser
        simp only [Bool.not_true, Bool.false_eq_true, if_false]
        rw [← huser, ← holdings] at hmap
        have hcard := hmap.card
        rw [← Nat.succ_mul]
        refine (ih hs (by omega) (by omega)).mono ?_
        rintro ⟨t'', done⟩ m'' ⟨hs'', hc'', henough'', hsame⟩
        refine ⟨?_, hmap.trans hc'', fun j hj => henough'' j (hgo j hj).2, fun hap => ?_⟩
        · rwa [show k + (n + 1) = k + 1 + n by omega]
        · obtain ⟨hkept, hzero⟩ := hsame (hap.moves hmap)
          cases done with
          | false => exact ⟨((hcontent hap).1.mono hk).trans hkept, fun hf => absurd hf (by simp)⟩
          | true =>
            refine ⟨(hcontent hap).1.trans (hkept.mono (Nat.le_succ k)), fun _ v hv hlt => ?_⟩
            by_cases hvk : v = k
            · have hnew : look t' k = some ⟨.page mem, permRWXU⟩ := by
                rw [hlook k (lt_vpns (by omega)), if_pos ⟨rfl, rfl⟩]
              rw [hvk]
              exact ⟨mem, (hkept.entry_of_lt (Nat.lt_succ_self k)).trans hnew,
                (hkept.data k (Nat.lt_succ_self k) _ hnew).trans (hcontent hap).2⟩
            · exact hzero rfl v (by omega) (by omega)

end Space
end Xv6.Vm
