import Xv6.Kernel.Vm.Space

/-! `uvmalloc`, `uvmfree`, `uvmcopy`, `uvmclear` and `copyout` on address spaces. -/
namespace Xv6.Vm
open Lib Multiset

/-- The first `n` pages of `new` hold the bytes of those of `old`, with the same rights. -/
def Copied (old new : Pagetable) (m : Mem) (n : ℕ) : Prop :=
  ∀ v < n, ∃ pa mem perm, look old v = some ⟨.page pa, perm⟩ ∧
    look new v = some ⟨.page mem, perm⟩ ∧ m.data (.page mem) = m.data (.page pa)

namespace Space
variable {rights : Perm → Prop} {t : Pagetable} {n : ℕ} {top : Set ℕ} {m : Mem} {E : Halt → Prop}

theorem wp_uvmalloc {oldsz : ℕ} (h : Space rights t (pgs oldsz) top) (newsz : ℕ) (hp : rights permRWXU)
    (hb : m.free.length + (holdings t).card < 2 ^ 26) :
    Wp E (uvmalloc t oldsz newsz) m fun r m' =>
      Space rights r.1 (pgs (if r.2 = 0 then oldsz else r.2)) top ∧
      Mem.Moves (holdings t) (holdings r.1) m m' ∧
      (r.2 = 0 ∨ r.2 = max oldsz newsz) ∧
      (∀ j, m.Enough (j + 3 * pgs newsz) → r.2 = max oldsz newsz ∧ m'.Enough j) ∧
      (Apart t m → Same (pgs oldsz) t m r.1 m' ∧ (r.2 ≠ 0 → Zeroed (pgs oldsz) (pgs r.2) r.1 m')) := by
  unfold uvmalloc
  split_ifs with hlt
  · have hmax : max oldsz newsz = oldsz := max_eq_left hlt.le
    rw [wp_pure, hmax]
    exact ⟨by simpa using h, .refl _ m, .inr rfl, fun j hj => ⟨rfl, hj.mono (by omega)⟩,
      fun _ => ⟨.refl h.le t m, fun _ => .nil _ t m⟩⟩
  · have hmax : max oldsz newsz = newsz := max_eq_right (not_lt.mp hlt)
    simp only [wp_bind, wp_pure]
    rw [pgRoundUp_eq h.le, hmax]
    have hcount : pgs oldsz + (newsz - pgs oldsz * pgsize + pgsize - 1) / pgsize = pgs newsz := by
      have hle := pgs_mono (not_lt.mp hlt)
      unfold pgs at *
      unfold pgsize at *
      omega
    refine (wp_uvmallocLoop h le_rfl hp hb).mono ?_
    rintro ⟨t', done⟩ m' ⟨hs, hc, henough, hcontent⟩
    have hgo : ∀ j, m.Enough (j + 3 * pgs newsz) → done = true ∧ m'.Enough j := fun j hj =>
      henough j (hj.mono (by omega))
    cases done with
    | false =>
      refine ⟨by simpa using hs, hc, .inl rfl, fun j hj => absurd (hgo j hj).1 (by simp),
        fun hap => ⟨(hcontent hap).1, fun hf => absurd rfl hf⟩⟩
    | true =>
      simp only [if_true] at hs ⊢
      rw [hcount] at hs hcontent
      refine ⟨?_, hc, .inr trivial, fun j hj => ⟨trivial, (hgo j hj).2⟩, fun hap =>
        ⟨(hcontent hap).1, fun _ => (hcontent hap).2 rfl⟩⟩
      by_cases hz : newsz = 0
      · subst hz
        have : oldsz = 0 := by omega
        simpa [this] using hs
      · rwa [if_neg hz]

theorem wp_uvmfree {sz : ℕ} (h : Space rights t (pgs sz) ∅) :
    Wp E (uvmfree t sz) m fun _ m' => Mem.Moves (holdings t) 0 m m' := by
  have hfree : ∀ {t : Pagetable} {m : Mem}, Space rights t 0 ∅ → Wp E (freewalk t) m fun _ m' =>
      Mem.Moves (holdings t) 0 m m' := by
    intro t m hs
    have hnone : ∀ v < vpns, look t v = none := fun v hv => hs.look_none hv (by omega) (by simp)
    have huser : user t = 0 := by
      rw [user_eq]
      apply Finset.sum_eq_zero
      intro v hv
      simp [leaf, hnone v (lt_vpns (Finset.mem_range.mp hv))]
    rw [holdings, huser, add_zero]
    exact wp_freewalk hnone
  unfold uvmfree
  split_ifs with hpos
  · have hround : pgRoundUp sz / pgsize = pgs sz := by
      rw [pgRoundUp_eq h.le, Nat.mul_div_cancel _ (by decide)]
    rw [wp_bind, hround]
    have hun := h.wp_uvmunmap (m := m) (E := E) (Nat.zero_le (pgs sz))
    rw [Nat.zero_mul, Nat.sub_zero] at hun
    refine hun.mono ?_
    rintro t' m' ⟨hs, hc, -⟩
    refine (hfree hs).mono ?_
    intro _ m'' hm''
    exact hc.trans hm''
  · have hz : sz = 0 := by omega
    subst hz
    exact hfree h

/-- Pages that the copy owns or the original owns keep their bytes while the next page is
copied. -/
theorem copied_succ {old new new' : Pagetable} {k : ℕ} {pa mem : Page} {perm : Perm} {m₁ m' : Mem}
    (hk : k < userPages)
    (hnd : ((m.free : Multiset Page) + holdings new + user old).Nodup)
    (hfree : m.free = mem :: m₁.free) (hm₁ : Mem.Moves 0 {mem} m m₁)
    (hm' : Mem.Moves (nodes new) (nodes new') (m₁.write (.page mem) (m₁.data (.page pa))) m')
    (hold : look old k = some ⟨.page pa, perm⟩)
    (hnew : ∀ w < vpns, look new' w = if w = k then some ⟨.page mem, perm⟩ else look new w)
    (h : Copied old new m k) : Copied old new' m' (k + 1) := by
  obtain ⟨hnd', -, hdisj⟩ := nodup_add.mp hnd
  obtain ⟨hndfree, hndhold, hdisj'⟩ := nodup_add.mp hnd'
  have hmem : mem ∈ (m.free : Multiset Page) := by simp [hfree]
  have hsub : ∀ q ∈ (m₁.free : Multiset Page), q ∈ (m.free : Multiset Page) := fun q hq => by
    simpa [hfree] using .inr hq
  obtain ⟨-, -, hdisj''⟩ := nodup_add.mp hndhold
  have hmemfree : mem ∉ (m₁.free : Multiset Page) := by
    rw [hfree] at hndfree
    simpa using (List.nodup_cons.mp hndfree).1
  have hmemnodes : mem ∉ nodes new := fun hq =>
    disjoint_left.mp hdisj' hmem (mem_add.mpr (.inl hq))
  have hout : ∀ q, q ∉ (m.free : Multiset Page) → q ∉ nodes new →
      m'.data (.page q) = m.data (.page q) := by
    intro q hqfree hqnodes
    have hne : q ≠ mem := fun he => hqfree (he ▸ hmem)
    rw [hm'.data, Mem.write_data, Function.update_of_ne (by simpa using hne), hm₁.data]
    · intro p hp he
      rw [add_zero] at hp
      exact hqfree (Frame.page.inj he ▸ hp)
    · intro p hp he
      obtain rfl := Frame.page.inj he
      rcases mem_add.mp hp with hp | hp
      · exact hqfree (hsub q hp)
      · exact hqnodes hp
  have holdout : ∀ q ∈ user old, m'.data (.page q) = m.data (.page q) := by
    intro q hq
    apply hout q
    · exact fun hf => disjoint_left.mp hdisj (mem_add.mpr (.inl hf)) hq
    · exact fun hn => disjoint_left.mp hdisj
        (mem_add.mpr (.inr (mem_add.mpr (.inl hn)))) hq
  intro v hv
  by_cases he : v = k
  · subst he
    refine ⟨pa, mem, perm, hold, by rw [hnew v (lt_vpns hk), if_pos rfl], ?_⟩
    have hpa := mem_user hk hold
    rw [holdout pa hpa, hm'.data]
    · rw [Mem.write_data, Function.update_self, hm₁.data]
      intro p hp hpage
      rw [add_zero] at hp
      exact disjoint_left.mp hdisj (mem_add.mpr (.inl hp))
        (Frame.page.inj hpage ▸ hpa)
    · intro p hp hpage
      obtain rfl := Frame.page.inj hpage
      rcases mem_add.mp hp with hp | hp
      · exact hmemfree hp
      · exact hmemnodes hp
  · obtain ⟨pa, q, perm, ho, hn, hd⟩ := h v (by omega)
    refine ⟨pa, q, perm, ho, by rw [hnew v (lt_vpns (by omega)), if_neg he]; exact hn, ?_⟩
    have hq := mem_user (by omega) hn
    rw [holdout pa (mem_user (by omega) ho), hout q, hd]
    · exact fun hf => disjoint_left.mp hdisj' hf (mem_add.mpr (.inr hq))
    · exact fun hf => disjoint_left.mp hdisj'' hf hq

/-- The copy has as many pages as the original and the same bytes, or no pages. -/
theorem wp_uvmcopyLoop {old new : Pagetable} {k : ℕ} (hold : Space rights old (k + n) top)
    (h : Space (fun _ => True) new k top) (hb : m.free.length + (holdings new).card < 2 ^ 26) :
    Wp E (uvmcopyLoop old n new (k * pgsize)) m fun r m' =>
      Space (fun _ => True) r.1 (if r.2 = true then k + n else 0) top ∧
      Mem.Moves (holdings new) (holdings r.1) m m' ∧
      (((m.free : Multiset Page) + holdings new + user old).Nodup → Copied old new m k →
        r.2 = true → Copied old r.1 m' (k + n)) := by
  induction n generalizing new k m with
  | zero =>
    rw [uvmcopyLoop, wp_pure]
    exact ⟨h, .refl _ m, fun _ hcopied _ => hcopied⟩
  | succ n ih =>
    have hundo : ∀ {new : Pagetable} {m : Mem}, Space (fun _ => True) new k top →
        Wp E (uvmunmap new 0 (k * pgsize / pgsize) true) m fun new' m' =>
          Space (fun _ => True) new' 0 top ∧ Mem.Moves (holdings new) (holdings new') m m' := by
      intro new m hs
      have hun := hs.wp_uvmunmap (m := m) (E := E) (Nat.zero_le k)
      rw [Nat.zero_mul, Nat.sub_zero] at hun
      rw [Nat.mul_div_cancel k (show 0 < pgsize by decide)]
      exact hun.mono fun _ _ ⟨hs', hm, _⟩ => ⟨hs', hm⟩
    have hle := hold.le
    obtain ⟨pa, perm, hl, -⟩ := hold.page k (by omega)
    have hlk : old.pte (k * pgsize) = some ⟨.page pa, perm⟩ := hl
    unfold uvmcopyLoop
    rw [wp_bind]
    apply wp_walk_found (mul_lt_maxva (by rw [userPages_eq] at hle; omega)) (leafNode_of_pte hlk)
    simp only [Bool.not_true, Bool.false_eq_true, if_false, hlk, wp_bind]
    apply wp_kalloc
    · intro m₁ hm₁ _ _
      simp only [wp_bind, wp_pure]
      refine (hundo h).mono ?_
      rintro new' m' ⟨hs, hc⟩
      have hm₁ := hm₁.grow (holdings new)
      rw [add_zero] at hm₁
      exact ⟨hs, hm₁.trans hc, by simp⟩
    · intro mem m₁ hfree hm₁ _
      have hfill : Mem.Moves (holdings new) (holdings new + {mem}) m
          (m₁.write (.page mem) (m₁.data (.page pa))) :=
        (hm₁.grow _).trans (Mem.moves_write (by simp) _)
      rw [holdings_add] at hfill
      simp only [wp_bind, wp_get, wp_fill]
      refine (h.wp_mappages (by omega) mem perm trivial).mono ?_
      rintro ⟨new', mapped⟩ m' ⟨hs, hnodes, huser, hlook, -⟩
      dsimp only at hnodes
      have hmap := hfill.trans (hnodes.frame (user new + {mem}))
      cases mapped with
      | false =>
        simp only [Bool.false_eq_true, if_false, add_zero] at hs huser
        simp only [Bool.not_false, if_true, wp_bind, wp_pure]
        apply wp_kfree
        intro m₂ _ _ hm₂
        rw [← huser, ← add_assoc, ← holdings] at hmap
        refine (hundo hs).mono ?_
        rintro new'' m'' ⟨hs'', hc''⟩
        exact ⟨hs'', (hmap.trans (hm₂.shrink _)).trans hc'', by simp⟩
      | true =>
        simp only [if_true] at hs huser
        simp only [Bool.not_true, Bool.false_eq_true, if_false]
        rw [← huser, ← holdings] at hmap
        have hcard := hmap.card
        have hold' : Space rights old (k + 1 + n) top := by
          rwa [show k + 1 + n = k + (n + 1) by omega]
        rw [← Nat.succ_mul]
        refine (ih hold' hs (by omega)).mono ?_
        rintro ⟨new'', done⟩ m'' ⟨hs'', hc'', hcopied''⟩
        have hsum : k + (n + 1) = k + 1 + n := by omega
        refine ⟨by rwa [hsum], hmap.trans hc'', fun hnd hcopied hdone => ?_⟩
        rw [hsum]
        refine hcopied'' (by rwa [hmap.pages]) ?_ hdone
        exact copied_succ (by omega) hnd hfree hm₁ hnodes hl (by simpa using hlook) hcopied

theorem wp_uvmcopy {old new : Pagetable} {sz : ℕ} (hold : Space rights old (pgs sz) top)
    (h : Space (fun _ => True) new 0 top) (hb : m.free.length + (holdings new).card < 2 ^ 26) :
    Wp E (uvmcopy old new sz) m fun r m' =>
      Space (fun _ => True) r.1 (if r.2 = true then pgs sz else 0) top ∧
      Mem.Moves (holdings new) (holdings r.1) m m' ∧
      (((m.free : Multiset Page) + holdings new + user old).Nodup →
        r.2 = true → Copied old r.1 m' (pgs sz)) := by
  have hcopy := wp_uvmcopyLoop (E := E) (k := 0) (n := pgs sz) (by rwa [Nat.zero_add]) h hb
  rw [Nat.zero_mul, Nat.zero_add] at hcopy
  refine hcopy.mono ?_
  rintro r m' ⟨hs, hm, hcopied⟩
  exact ⟨hs, hm, fun hnd hr => hcopied hnd (fun v hv => absurd hv (by omega)) hr⟩

theorem wp_uvmclear {v : ℕ} (h : Space rights t n top) (hv : v < n) :
    Wp E (uvmclear t (v * pgsize)) m fun t' m' =>
      Space (fun _ => True) t' n top ∧ holdings t' = holdings t ∧ m' = m ∧
        (∀ w < vpns, w ≠ v → look t' w = look t w) ∧ ∀ e, look t' v = some e → e.perm.u = false := by
  have hle := h.le
  obtain ⟨pa, perm, hl, -⟩ := h.page v hv
  have hlk : t.pte (v * pgsize) = some ⟨.page pa, perm⟩ := hl
  have hleaf := leafNode_of_pte hlk
  have hlook := fun w (hw : w < vpns) => look_setPte (lt_vpns (by omega)) hw hleaf
    (some ⟨.page pa, { perm with u := false }⟩)
  unfold uvmclear
  rw [wp_bind]
  apply wp_walk_found (mul_lt_maxva (by rw [userPages_eq] at hle; omega)) hleaf
  simp only [Bool.not_true, Bool.false_eq_true, if_false, wp_pure, hlk, Option.map_some]
  refine ⟨⟨?_, ?_, h.le, h.above, ?_⟩, ?_, trivial, fun w hw hne => by rw [hlook w hw, if_neg hne], fun e he => ?_⟩
  · intro w hw
    rw [hlook w hw]
    split_ifs with he
    · simp [he, hv]
    · exact h.mapped w hw
  · intro w hw
    rw [hlook w (lt_vpns (by omega))]
    split_ifs with he
    · exact ⟨pa, _, rfl, trivial⟩
    · obtain ⟨pa, perm, hl, -⟩ := h.page w hw
      exact ⟨pa, perm, hl, trivial⟩
  · intro w hw hup
    rw [hlook w hw, if_neg (by omega)]
    exact h.closed w hw hup
  · have huser : user (t.setPte (v * pgsize) (some ⟨.page pa, { perm with u := false }⟩)) = user t := by
      rw [user_eq, user_eq]
      apply Finset.sum_congr rfl
      intro w hw
      unfold leaf
      rw [hlook w (lt_vpns (Finset.mem_range.mp hw))]
      split_ifs with he
      · rw [he, hl]
      · rfl
    rw [holdings, holdings, nodes_setPte, huser]
  · rw [hlook v (lt_vpns (by omega)), if_pos rfl] at he
    rw [← Option.some.inj he]

theorem mem_user_of_walkaddr (h : Space rights t n top) {v : ℕ} {f : Frame}
    (hw : walkaddr t (v * pgsize) = some f) : ∃ pa ∈ user t, f = .page pa := by
  unfold walkaddr at hw
  split_ifs at hw with hmax
  have hv : v < 2 ^ 26 := by
    unfold maxva pgsize at hmax
    omega
  have hvp : v < vpns := by
    unfold vpns
    omega
  cases hl : t.pte (v * pgsize) with
  | none => simp [hl] at hw
  | some e =>
    have hlook : look t v = some e := hl
    by_cases hu : e.perm.u = true
    · simp only [hl, hu, if_true, Option.some.injEq] at hw
      by_cases hup : userPages ≤ v
      · rw [h.closed v hvp hup e hlook] at hu
        simp at hu
      · have hn : v < n := by
          rcases (h.mapped v hvp).mp (by rw [hlook]; rfl) with hn | htop
          · exact hn
          · exact absurd (h.above v htop) hup
        obtain ⟨pa, perm, hpage, -⟩ := h.page v hn
        obtain rfl : e = ⟨.page pa, perm⟩ := Option.some.inj (hlook.symm.trans hpage)
        exact ⟨pa, mem_user (by omega) hlook, hw.symm⟩
    · simp [hl, hu] at hw

theorem wp_copyoutLoop (h : Space rights t n top) (src : Bytes) {fuel dstva k len : ℕ} :
    Wp E (copyoutLoop t src fuel dstva k len) m fun _ m' =>
      m'.free = m.free ∧ Mem.Moves (holdings t) (holdings t) m m' := by
  induction fuel generalizing m dstva k len with
  | zero =>
    rw [copyoutLoop, wp_pure]
    exact ⟨rfl, .refl _ m⟩
  | succ fuel ih =>
    unfold copyoutLoop
    split_ifs with hlen
    · rw [wp_pure]
      exact ⟨rfl, .refl _ m⟩
    · dsimp only
      cases hw : walkaddr t (pgRoundDown dstva) with
      | none =>
        rw [wp_pure]
        exact ⟨rfl, .refl _ m⟩
      | some f =>
        obtain ⟨pa, hpa, rfl⟩ := h.mem_user_of_walkaddr (v := dstva / pgsize) hw
        simp only [wp_bind, wp_modify]
        refine ih.mono ?_
        rintro _ m' ⟨hfree, hm⟩
        refine ⟨hfree, Mem.Moves.trans (Mem.moves_write ?_ _) hm⟩
        exact mem_add.mpr (.inr hpa)

theorem wp_copyout (h : Space rights t n top) (dstva : ℕ) (src : Bytes) (len : ℕ) :
    Wp E (copyout t dstva src len) m fun _ m' =>
      m'.free = m.free ∧ Mem.Moves (holdings t) (holdings t) m m' := h.wp_copyoutLoop src

end Space
end Xv6.Vm
