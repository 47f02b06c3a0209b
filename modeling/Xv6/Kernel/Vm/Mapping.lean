import Xv6.Lib.Range
import Xv6.Kernel.Vm.Words

/-! A page table as a partial map from page numbers, and what each call that returns does to
the map. -/
namespace Xv6.Vm
open Lib Function

/-- What an entry tells the hardware: a physical page and flags. -/
def Pte.target (e : Pte) : ℕ × BitVec 10 := (e.pa.number, e.perm.flags)

/-- The map that a table stands for. -/
def mapping (t : Pagetable) (v : ℕ) : Option (ℕ × BitVec 10) :=
  if v < 2 ^ 26 then (look t v).map Pte.target else none

variable {t t' : Pagetable} {v n : ℕ} {m : Mem}

theorem mapping_congr (h : ∀ w < vpns, look t' w = look t w) : mapping t' = mapping t := by
  funext w
  unfold mapping
  split_ifs with hw
  · rw [h w (by unfold vpns; omega)]
  · rfl

theorem mapping_update {e : Option Pte} (hv : v < 2 ^ 26)
    (h : ∀ w < vpns, look t' w = if w = v then e else look t w) :
    mapping t' = update (mapping t) v (e.map Pte.target) := by
  funext w
  unfold mapping
  by_cases hw : w = v
  · subst hw
    rw [if_pos hv, h w (by unfold vpns; omega), if_pos rfl, update_self]
  · rw [update_of_ne hw]
    split_ifs with hlt
    · rw [h w (by unfold vpns; omega), if_neg hw]
    · rfl

theorem mapping_of_lt (hv : v < 2 ^ 26) : mapping t v = (look t v).map Pte.target := if_pos hv

theorem wp_walk_false {E : Halt → Prop} {va : ℕ} (hva : va < maxva) {Q : Pagetable × Bool → Mem → Prop}
    (hQ : Q (t, (t.leafNode va).isSome) m) : Wp E (walk t va false) m Q := by
  cases hleaf : (t.leafNode va).isSome with
  | true => exact wp_walk_found hva hleaf (hleaf ▸ hQ)
  | false =>
    rw [hleaf] at hQ
    unfold walk Node.child
    rw [if_neg (not_le.mpr hva)]
    cases h₂ : t.entry (px 2 va) with
    | none => simpa using hQ
    | some t₁ =>
      have h₁ : t₁.entry (px 1 va) = none := by simpa [Node.leafNode, h₂] using hleaf
      have hset : t.set (px 2 va) (some t₁) = t := by
        rw [← h₂]
        exact congrArg (Node.mk t.page) (update_eq_self _ _)
      simpa [h₁, hset] using hQ

theorem wp_walk_panic {va : ℕ} {alloc : Bool} (hva : ¬ va < maxva) {Q : Pagetable × Bool → Mem → Prop} :
    Wp (fun _ => True) (walk t va alloc) m Q := by
  unfold walk
  rw [if_pos (not_lt.mp hva)]
  simp

theorem not_lt_maxva (hv : ¬ v < 2 ^ 26) : ¬ v * pgsize < maxva := by
  unfold maxva pgsize
  omega

/-- The number of pages that `uvmunmap` unmaps: `npages`, if the range ends below `2 ^ 64`. -/
def unmapCount (va npages : ℕ) : ℕ := ((va + npages * pgsize) % 2 ^ 64 - va) / pgsize

/-- The number of pages that `uvmdealloc` unmaps, which goes through an `int`. -/
def deallocCount (oldsz newsz : ℕ) : ℕ :=
  if newsz < oldsz ∧ pgRoundUp newsz < pgRoundUp oldsz then
    unmapCount (pgRoundUp newsz) (throughInt ((pgRoundUp oldsz - pgRoundUp newsz) / pgsize))
  else 0

theorem wp_mappagesLoop_adds (perm : Perm) {pa : ℕ} (hpa : pa < 2 ^ 52) :
    Wp (fun _ => True) (mappagesLoop perm n t (v * pgsize) (.page pa)) m fun r _ =>
      ∃ j ≤ n, (r.2 = true ↔ j = n) ∧
        Adds (mapping t) (mapping r.1) v j fun k => ((pa + k) % 2 ^ 52, perm.flags) := by
  induction n generalizing t v pa m with
  | zero =>
    rw [mappagesLoop, wp_pure]
    exact ⟨0, le_rfl, by simp, .zero _ _ _⟩
  | succ n ih =>
    by_cases hv : v < 2 ^ 26
    · cases hl : look t v with
      | some e =>
        have he : t.pte (v * pgsize) = some e := hl
        unfold mappagesLoop
        rw [wp_bind]
        apply wp_walk_found (mul_lt_maxva hv) (leafNode_of_pte he)
        simp [he]
      | none =>
        apply wp_mappagesLoop_succ hv hl
        · intro t' m' _ hlook _
          refine ⟨0, Nat.zero_le _, by simp, ?_⟩
          rw [mapping_congr hlook]
          exact .zero _ _ _
        · intro t' m' _ hlook _
          refine (ih (Nat.mod_lt _ (by decide))).mono ?_
          rintro r m'' ⟨j, hj, hr, hadds⟩
          refine ⟨j + 1, by omega, hr.trans Nat.succ_inj.symm, ?_⟩
          rw [mapping_update hv hlook] at hadds
          refine .cons (by rw [mapping_of_lt hv, hl]; rfl)
            (g := fun k => (((pa + 1) % 2 ^ 52 + k) % 2 ^ 52, perm.flags)) ?_ ?_
          · rwa [Nat.add_zero, Nat.mod_eq_of_lt hpa]
          · intro k _
            rw [Nat.mod_add_mod, Nat.add_assoc, Nat.add_comm 1 k]
    · unfold mappagesLoop
      rw [wp_bind]
      exact wp_walk_panic (not_lt_maxva hv)

theorem wp_uvmunmapLoop_removes (doFree : Bool) :
    Wp (fun _ => True) (uvmunmapLoop doFree n t (v * pgsize)) m fun t' _ =>
      Removes (mapping t) (mapping t') v n := by
  induction n generalizing t v m with
  | zero =>
    rw [uvmunmapLoop, wp_pure]
    exact .zero _ _
  | succ n ih =>
    unfold uvmunmapLoop
    rw [wp_bind]
    by_cases hv : v < 2 ^ 26
    · apply wp_walk_false (mul_lt_maxva hv)
      cases hleaf : (t.leafNode (v * pgsize)).isSome with
      | false => simp
      | true =>
        cases he : t.pte (v * pgsize) with
        | none => simp [he]
        | some e =>
          have hl : look t v = some e := he
          have hmap := mapping_update hv fun w hw => look_setPte (by unfold vpns; omega) hw hleaf none
          have hrest : ∀ m : Mem, Wp (fun _ => True)
              (uvmunmapLoop doFree n (t.setPte (v * pgsize) none) (v * pgsize + pgsize)) m fun t' _ =>
                Removes (mapping t) (mapping t') v (n + 1) := by
            intro m
            rw [← Nat.succ_mul]
            refine ih.mono ?_
            intro t' m' h
            rw [hmap] at h
            exact .cons (by rw [mapping_of_lt hv, hl]; rfl) h
          have hflags : (e.perm.r || e.perm.w || e.perm.x || e.perm.u || decide (e.perm.rest ≠ 0)) = true := by
            rw [e.perm.leaf, Bool.true_or, Bool.true_or]
          simp only [he, hflags, Bool.not_true, Bool.false_eq_true, if_false]
          cases doFree with
          | false => exact hrest m
          | true =>
            rw [if_pos rfl, wp_bind]
            cases e.pa with
            | trampoline => exact (wp_throw _).mpr trivial
            | page pa =>
              rw [kfree, wp_modify]
              exact hrest _
    · exact wp_walk_panic (not_lt_maxva hv)

theorem wp_mappages_adds {va size pa : ℕ} (perm : Perm) (hpa : pa < 2 ^ 52) :
    Wp (fun _ => True) (mappages t va size (.page pa) perm) m fun r _ =>
      ∃ j ≤ mapCount va size, (r.2 = true ↔ j = mapCount va size) ∧
        Adds (mapping t) (mapping r.1) (va / pgsize) j fun k => ((pa + k) % 2 ^ 52, perm.flags) :=
  wp_mappagesLoop_adds perm hpa

theorem wp_uvmunmap_removes {va npages : ℕ} (doFree : Bool) :
    Wp (fun _ => True) (uvmunmap t va npages doFree) m fun t' _ =>
      va % pgsize = 0 ∧ Removes (mapping t) (mapping t') (va / pgsize) (unmapCount va npages) := by
  unfold uvmunmap
  split_ifs with hva
  · simp
  · have hround : va / pgsize * pgsize = va := Nat.div_mul_cancel (Nat.dvd_of_mod_eq_zero (by omega))
    have h := wp_uvmunmapLoop_removes (t := t) (v := va / pgsize) (n := unmapCount va npages) (m := m) doFree
    rw [hround] at h
    exact h.mono fun t' m' h' => ⟨by omega, h'⟩

theorem wp_uvmdealloc_removes {oldsz newsz : ℕ} :
    Wp (fun _ => True) (uvmdealloc t oldsz newsz) m fun r _ =>
      r.2 = min oldsz newsz ∧
      Removes (mapping t) (mapping r.1) (pgRoundUp newsz / pgsize) (deallocCount oldsz newsz) := by
  unfold uvmdealloc deallocCount
  by_cases hle : oldsz ≤ newsz
  · rw [if_pos hle, if_neg (by omega), wp_pure]
    exact ⟨(min_eq_left hle).symm, .zero _ _⟩
  rw [if_neg hle]
  have hmin : newsz = min oldsz newsz := (min_eq_right (by omega)).symm
  by_cases hr : pgRoundUp newsz < pgRoundUp oldsz
  · rw [if_pos hr, if_pos ⟨by omega, hr⟩]
    simp only [wp_bind, wp_pure]
    refine (wp_uvmunmap_removes true).mono ?_
    rintro t' m' ⟨-, h⟩
    exact ⟨hmin, h⟩
  · rw [if_neg hr, if_neg (by omega), wp_pure]
    exact ⟨hmin, .zero _ _⟩

theorem wp_uvmdealloc_undo {v₀ k : ℕ} {t₀ : Pagetable} {f : ℕ → ℕ × BitVec 10} (hk : v₀ + k ≤ 2 ^ 26)
    (h : Adds (mapping t₀) (mapping t) v₀ k f) :
    Wp (fun _ => True) (uvmdealloc t ((v₀ + k) * pgsize) (v₀ * pgsize)) m fun r _ =>
      mapping r.1 = mapping t₀ := by
  have hround : ∀ w ≤ 2 ^ 26, pgRoundUp (w * pgsize) = w * pgsize := by
    intro w hw
    unfold pgRoundUp pgsize
    omega
  have hcount : deallocCount ((v₀ + k) * pgsize) (v₀ * pgsize) = k := by
    unfold deallocCount unmapCount
    rw [hround _ hk, hround v₀ (by omega)]
    have hdiff : ((v₀ + k) * pgsize - v₀ * pgsize) / pgsize = k := by
      rw [← Nat.sub_mul, Nat.add_sub_cancel_left, Nat.mul_div_cancel _ (by decide)]
    have hint : throughInt k = k := by
      rw [throughInt, if_pos (by omega)]
      omega
    rw [hdiff, hint]
    unfold pgsize
    split_ifs <;> omega
  refine wp_uvmdealloc_removes.mono ?_
  rintro r m' ⟨-, hr⟩
  rw [hcount, hround v₀ (by omega), Nat.mul_div_cancel _ (by decide)] at hr
  exact h.removed hr

/-- The flags of the pages that `uvmalloc` maps. -/
def userFlags : BitVec 10 := 0b11111

theorem wp_mappages_page_adds (v mem : ℕ) :
    Wp (fun _ => True) (mappages t (v * pgsize) pgsize (.page mem) permRWXU) m fun r _ =>
      (r.2 = true → v < 2 ^ 26 ∧ Adds (mapping t) (mapping r.1) v 1 fun _ => (mem, userFlags)) ∧
      (r.2 = false → mapping r.1 = mapping t) := by
  by_cases hv : v < 2 ^ 26
  · cases hl : look t v with
    | some e =>
      have he : t.pte (v * pgsize) = some e := hl
      rw [mappages_page hv, mappagesLoop, wp_bind]
      apply wp_walk_found (mul_lt_maxva hv) (leafNode_of_pte he)
      simp [he]
    | none =>
      refine (wp_mappages hv hl (.page mem) permRWXU).mono ?_
      rintro ⟨t', mapped⟩ m' ⟨-, hlook, -⟩
      cases mapped with
      | false => exact ⟨by simp, fun _ => mapping_congr (by simpa using hlook)⟩
      | true =>
        refine ⟨fun _ => ⟨hv, ?_⟩, by simp⟩
        have hmap := mapping_update (e := some ⟨.page mem, permRWXU⟩) hv (by simpa using hlook)
        rw [show mapping t' = _ from hmap]
        refine .cons (by rw [mapping_of_lt hv, hl]; rfl) (.zero _ _ fun _ => (mem, userFlags)) ?_
        exact fun k hk => absurd hk (Nat.not_lt_zero k)
  · unfold mappages
    dsimp only
    rw [pgRoundDown_mul, mappagesLoop, wp_bind]
    exact wp_walk_panic (not_lt_maxva hv)

theorem wp_uvmallocLoop_adds {v₀ k : ℕ} {t₀ : Pagetable} {f : ℕ → ℕ} (hk : k = 0 ∨ v₀ + k ≤ 2 ^ 26)
    (h : Adds (mapping t₀) (mapping t) v₀ k fun j => (f j, userFlags)) :
    Wp (fun _ => True) (uvmallocLoop (v₀ * pgsize) n t ((v₀ + k) * pgsize)) m fun r _ =>
      (r.2 = true → ∃ g : ℕ → ℕ, Adds (mapping t₀) (mapping r.1) v₀ (k + n) fun j => (g j, userFlags)) ∧
      (r.2 = false → mapping r.1 = mapping t₀) := by
  induction n generalizing t k m f with
  | zero =>
    rw [uvmallocLoop, wp_pure]
    exact ⟨fun _ => ⟨f, h⟩, by simp⟩
  | succ n ih =>
    have hundo : ∀ {t' : Pagetable} {m' : Mem}, mapping t' = mapping t →
        Wp (fun _ => True) (uvmdealloc t' ((v₀ + k) * pgsize) (v₀ * pgsize)) m' fun r _ =>
          mapping r.1 = mapping t₀ := by
      intro t' m' ht'
      rw [← ht'] at h
      rcases hk with rfl | hk
      · have hle : (v₀ + 0) * pgsize ≤ v₀ * pgsize := by simp
        rw [uvmdealloc, if_pos hle, wp_pure]
        exact h.removed (.zero _ _)
      · exact wp_uvmdealloc_undo hk h
    unfold uvmallocLoop
    rw [wp_bind]
    apply wp_kalloc
    · intro m₁ _ _ _
      simp only [wp_bind, wp_pure]
      refine (hundo rfl).mono ?_
      intro r m' hr
      exact ⟨by simp, fun _ => hr⟩
    · intro mem m₁ _ _ _
      simp only [wp_bind, wp_fill]
      refine (wp_mappages_page_adds (v₀ + k) mem).mono ?_
      rintro ⟨t', mapped⟩ m' ⟨hadds, hsame⟩
      cases mapped with
      | false =>
        simp only [Bool.not_false, if_true, wp_bind, wp_pure]
        apply wp_kfree
        intro m₂ _ _ _
        refine (hundo (hsame rfl)).mono ?_
        intro r m' hr
        exact ⟨by simp, fun _ => hr⟩
      | true =>
        obtain ⟨hlt, hone⟩ := hadds rfl
        have hnext : (v₀ + k) * pgsize + pgsize = (v₀ + (k + 1)) * pgsize := by ring
        simp only [Bool.not_true, Bool.false_eq_true, if_false]
        rw [hnext]
        have happ : Adds (mapping t₀) (mapping t') v₀ (k + 1)
            fun j => (if j < k then f j else mem, userFlags) := by
          refine .append (g := fun _ => (mem, userFlags)) ⟨h.free, fun j hj => ?_, h.rest⟩ hone ?_
          · rw [h.added j hj, if_pos hj]
          · intro j _
            rw [if_neg (by omega)]
        have hrest := ih (m := m') (.inr (by omega)) happ
        rwa [Nat.add_right_comm k 1 n] at hrest

theorem wp_uvmalloc_adds {oldsz newsz : ℕ} :
    Wp (fun _ => True) (uvmalloc t oldsz newsz) m fun r _ =>
      (newsz < oldsz ∧ r.2 = oldsz ∧ mapping r.1 = mapping t) ∨
      (oldsz ≤ newsz ∧ r.2 = newsz ∧ ∃ f : ℕ → ℕ, Adds (mapping t) (mapping r.1) (pgRoundUp oldsz / pgsize)
        ((newsz - pgRoundUp oldsz + pgsize - 1) / pgsize) fun k => (f k, userFlags)) ∨
      (oldsz ≤ newsz ∧ r.2 = 0 ∧ mapping r.1 = mapping t) := by
  unfold uvmalloc
  split_ifs with hlt
  · rw [wp_pure]
    exact .inl ⟨hlt, rfl, rfl⟩
  · have hround : pgRoundUp oldsz / pgsize * pgsize = pgRoundUp oldsz := by
      unfold pgRoundUp
      rw [Nat.mul_div_cancel _ (by decide)]
    have hloop := wp_uvmallocLoop_adds (n := (newsz - pgRoundUp oldsz + pgsize - 1) / pgsize) (m := m)
      (.inl rfl) (Adds.zero (mapping t) (pgRoundUp oldsz / pgsize) fun _ => (0, userFlags))
    rw [Nat.add_zero, hround, Nat.zero_add] at hloop
    simp only [wp_bind, wp_pure]
    refine hloop.mono ?_
    rintro ⟨t', done⟩ m' ⟨hadds, hsame⟩
    cases done with
    | true => exact .inr (.inl ⟨by omega, rfl, hadds rfl⟩)
    | false => exact .inr (.inr ⟨by omega, rfl, hsame rfl⟩)

theorem wp_uvmclear_clears {va : ℕ} :
    Wp (fun _ => True) (uvmclear t va) m fun t' _ =>
      mapping t' = update (mapping t) (va / pgsize)
        ((mapping t (va / pgsize)).map fun e => (e.1, e.2 &&& ~~~0b10000)) := by
  unfold uvmclear
  rw [wp_bind]
  by_cases hva : va < maxva
  · apply wp_walk_false hva
    cases hleaf : (t.leafNode va).isSome with
    | false =>
      simp only [Bool.not_false, if_true, wp_bind, wp_throw]
    | true =>
      have hv : va / pgsize < 2 ^ 26 := by
        unfold maxva at hva
        unfold pgsize
        omega
      have hlook : look t (va / pgsize) = t.pte va := pte_round t va
      simp only [Bool.not_true, Bool.false_eq_true, if_false, wp_pure]
      rw [mapping_update hv fun w hw => look_setPte_round hva hleaf _ hw, mapping_of_lt hv, hlook]
      cases t.pte va with
      | none => rfl
      | some e => simp [Pte.target, flags_clear]
  · exact wp_walk_panic hva

end Xv6.Vm
