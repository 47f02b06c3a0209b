import Xv6.Kernel.Vm.Words

/-! The functions on page tables in memory follow the functions on trees. -/
namespace Xv6.Vm
open Lib Function

/-- Memory holds the table `t`, and the free lists agree. While pages are allocated no free
page is in use; once one has been freed that is not asked for. -/
structure Linked (ready : Bool) (s : Ram) (m : Mem) (t : Pagetable) (S : Set ℕ) : Prop where
  shape : Shape s.word t S
  free : m.free = s.free
  fails : m.fails = s.fails
  nodup : ready = true → s.free.Nodup
  fresh : ready = true → ∀ p ∈ s.free, p < 2 ^ 52 ∧ p ∉ S ∧ ∀ q, t.pageAt q ≠ some p

/-- The functions end by themselves: an error is a panic. -/
def Panics (e : Halt) : Prop := e ≠ .blocked

theorem panics (why : Panic) : Panics (.panic why) := by
  unfold Panics
  simp

variable {ready : Bool} {s : Ram} {m : Mem} {t : Pagetable} {S : Set ℕ}

theorem Linked.unready (h : Linked ready s m t S) : Linked false s m t S :=
  ⟨h.shape, h.free, h.fails, by simp, by simp⟩

theorem Linked.congr (h : Linked ready s m t S) {word : Page → Fin 512 → U64} {data : Frame → Bytes}
    (hword : ∀ q p, t.pageAt q = some p → word p = s.word p) :
    Linked ready { s with word } { m with data } t S :=
  ⟨h.shape.congr hword, h.free, h.fails, h.nodup, h.fresh⟩

namespace Ram

theorem refines_kalloc (h : Linked true s m t S) :
    Refines Panics kalloc s Vm.kalloc m fun r s' b m' =>
      r = b.map addr ∧ Linked true s' m' t S ∧
      ∀ p, b = some p → p < 2 ^ 52 ∧ p ∉ S ∧ p ∉ s'.free ∧ ∀ q, t.pageAt q ≠ some p := by
  obtain ⟨word, free, fails⟩ := s
  obtain ⟨mfree, mfails, data⟩ := m
  obtain ⟨hshape, rfl, rfl, hnodup, hfresh⟩ := h
  unfold Refines kalloc Vm.kalloc
  rw [wp_bind, wp_get]
  dsimp only
  have hnone : Linked true ⟨word, mfree, mfails.tail⟩ ⟨mfree, mfails.tail, data⟩ t S :=
    ⟨hshape, rfl, rfl, hnodup, hfresh⟩
  cases hf : mfails.headD false with
  | true =>
    simp only [wp_bind, wp_set, wp_pure]
    exact ⟨none, _, rfl, rfl, hnone, by simp⟩
  | false =>
    cases mfree with
    | nil =>
      simp only [wp_bind, wp_set, wp_pure]
      exact ⟨none, _, rfl, rfl, hnone, by simp⟩
    | cons p free =>
      obtain ⟨hp, hS, hpt⟩ := hfresh rfl p (by simp)
      obtain ⟨hpfree, hnd⟩ := List.nodup_cons.mp (hnodup rfl)
      simp only [wp_bind, wp_set, wp_pure, memset, wp_modify]
      refine ⟨some p, _, rfl, rfl, ⟨?_, rfl, rfl, fun _ => hnd, fun _ p' hp' => ?_⟩, ?_⟩
      · rw [pageOf_addr hp]
        apply hshape.congr
        intro q p' hq
        have hne : p' ≠ p := fun he => hpt q (he ▸ hq)
        exact update_of_ne hne _ _
      · exact hfresh rfl p' (List.mem_cons_of_mem p hp')
      · intro p' hp'
        obtain rfl := Option.some.inj hp'
        exact ⟨hp, hS, hpfree, hpt⟩

theorem entry_and_pteV (p : ℕ) (flags : BitVec 10) :
    entry p flags &&& pteV = (flags &&& 1).setWidth 64 := entry_and p flags 1

/-- One turn of `walk`, at the page at `q`, finds or makes the child at its index. -/
theorem refines_walkTurn {α : Type} {n : Node (Node α)} {level : ℕ} {va : U64} (q : List (Fin 512))
    (put : Node α → Pagetable) (h : Linked ready s m t S) (hq : t.pageAt q = some n.page)
    (hword : t.wordAt q (px level va) = childWord (n.entry (px level va)))
    (hold : ∀ c, n.entry (px level va) = some c → put c = t ∧ ∃ q', t.pageAt q' = some c.page)
    (hnew : n.entry (px level va) = none → ∀ p, Grows t (put (Node.empty α p)) q (px level va) p) :
    Refines Panics (walkTurn level (addr n.page) va ready) s (n.child (px level va) ready) m
      fun r s' c m' => r = (c.map fun c => addr c.page) ∧ Linked ready s' m' (c.elim t put) S ∧
        (c.elim t put).page = t.page ∧ ∀ w, (c.elim t put).pte w = t.pte w := by
  have hpage := pageOf_addr (h.shape.lt _ _ hq)
  have hload : s.word n.page (px level va) = childWord (n.entry (px level va)) := by
    rw [h.shape.rep _ _ hq, hword]
  unfold walkTurn Node.child
  apply refines_left
  rw [load, wp_bind, wp_get, wp_pure]
  dsimp only
  rw [hpage, hload]
  cases hc : n.entry (px level va) with
  | some c =>
    obtain ⟨hput, q', hq'⟩ := hold c hc
    have hv : childWord (some c) &&& pteV ≠ 0 := by
      rw [childWord, entry_and_pteV]
      decide
    rw [if_pos hv, childWord, pte2pa_entry (h.shape.lt _ _ hq')]
    exact refines_pure ⟨rfl, by rwa [Option.elim_some, hput], by rw [Option.elim_some, hput],
      fun w => by rw [Option.elim_some, hput]⟩
  | none =>
    have hv : ¬ childWord (none : Option (Node α)) &&& pteV ≠ 0 := by
      rw [childWord]
      decide
    rw [if_neg hv]
    cases ready with
    | false => exact refines_pure ⟨rfl, h, rfl, fun _ => rfl⟩
    | true =>
      simp only [Bool.not_true, Bool.false_eq_true, if_false]
      refine refines_bind (refines_kalloc h) ?_
      rintro r s' b m' ⟨rfl, hl, hb⟩
      cases b with
      | none => exact refines_pure ⟨rfl, hl, rfl, fun _ => rfl⟩
      | some p =>
        obtain ⟨hp, hS, hpfree, hpt⟩ := hb p rfl
        simp only [Option.map_some, memset, store]
        apply refines_left
        rw [wp_modify]
        apply refines_left
        rw [wp_modify]
        dsimp only
        rw [hpage, pageOf_addr hp]
        apply refines_pure
        refine ⟨rfl, ⟨?_, hl.free, hl.fails, hl.nodup, fun _ p' hp' => ?_⟩, ?_, (hnew hc p).pte⟩
        · have hgrow := hl.shape.grow hq (hnew hc p) hp hS hpt
          rw [show entry p 1 = pa2pte (addr p) ||| pteV from rfl] at hgrow
          simpa using hgrow
        · obtain ⟨hlt, hS', hold'⟩ := hl.fresh rfl p' hp'
          refine ⟨hlt, hS', fun q' => ?_⟩
          rw [Option.elim_some, (hnew hc p).page]
          split_ifs
          · exact fun he => hpfree (Option.some.inj he ▸ hp')
          · exact hold' q'
        · have htop := (hnew hc p).page []
          rw [if_neg (by simp)] at htop
          exact Option.some.inj htop

theorem set_entry_eq {α : Type} {n : Node α} {i : Fin 512} {e : Option α} (h : n.entry i = e) :
    n.set i e = n := by
  rw [← h]
  exact congrArg (Node.mk n.page) (update_eq_self _ _)

/-- A pointer to the entry of `va` is a pointer into the leaf page for it. -/
def PointsTo (t : Pagetable) (va : U64) (pte : U64 × Fin 512) : Prop :=
  ∃ t₀, t.leafNode va.toNat = some t₀ ∧ pte = (addr t₀.page, Vm.px 0 va.toNat)

theorem refines_walk (h : Linked ready s m t S) {root : U64} (hroot : root = addr t.page) (va : U64) :
    Refines Panics (walk root va ready) s (Vm.walk t va.toNat ready) m fun r s' b m' =>
      va.toNat < Vm.maxva ∧ Linked ready s' m' b.1 S ∧ b.1.page = t.page ∧
      (∀ w, b.1.pte w = t.pte w) ∧ b.2 = r.isSome ∧ ∀ pte, r = some pte → PointsTo b.1 va pte := by
  subst hroot
  have hmax : (maxva ≤ va) ↔ Vm.maxva ≤ va.toNat := Iff.rfl
  unfold walk Vm.walk
  by_cases hva : maxva ≤ va
  · rw [if_pos hva]
    exact refines_throw (panics _)
  rw [if_neg hva, if_neg (mt hmax.mpr hva)]
  have hlt : va.toNat < Vm.maxva := not_le.mp (mt hmax.mpr hva)
  unfold walkLoop walkLoop walkLoop
  simp only [bind_assoc]
  rw [← px_eq, ← px_eq]
  refine refines_bind (refines_walkTurn [] (fun c => t.set (px 2 va) (some c)) h rfl rfl
    (fun c hc => ⟨set_entry_eq hc, [px 2 va], by simp [Node.pageAt, hc]⟩) fun hc p => grows_top hc p) ?_
  rintro r s₁ c m₁ ⟨rfl, hl, hpage, hpte⟩
  cases c with
  | none =>
    simp only [Option.map_none, pure_bind]
    exact refines_pure ⟨hlt, hl, rfl, fun _ => rfl, rfl, by simp⟩
  | some t₁ =>
    simp only [Option.map_some, Option.elim_some, bind_assoc] at hl hpage hpte ⊢
    have hentry : (t.set (px 2 va) (some t₁)).entry (px 2 va) = some t₁ := by simp
    refine refines_bind (refines_walkTurn [px 2 va]
      (fun c => (t.set (px 2 va) (some t₁)).set (px 2 va) (some (t₁.set (px 1 va) (some c)))) hl
      (by simp [Node.pageAt]) (by simp [Node.wordAt]) (fun c hc => ⟨?_, [px 2 va, px 1 va], ?_⟩)
      fun hc p => grows_mid hentry hc p) ?_
    · rw [set_entry_eq hc, set_entry_eq hentry]
    · simp [Node.pageAt, hc]
    rintro r s₂ c m₂ ⟨rfl, hl', hpage', hpte'⟩
    cases c with
    | none =>
      simp only [Option.map_none, pure_bind]
      exact refines_pure ⟨hlt, hl', hpage, hpte, rfl, by simp⟩
    | some t₀ =>
      have hset : (t.set (px 2 va) (some t₁)).set (px 2 va) (some (t₁.set (px 1 va) (some t₀))) =
          t.set (px 2 va) (some (t₁.set (px 1 va) (some t₀))) := by
        simp [Node.set]
      simp only [Option.map_some, Option.elim_some, pure_bind, hset] at hl' hpage' hpte' ⊢
      refine refines_pure ⟨hlt, hl', hpage'.trans hpage, fun w => (hpte' w).trans (hpte w), rfl, ?_⟩
      rintro pte hr
      obtain rfl := Option.some.inj hr
      exact ⟨t₀, by simp [Node.leafNode, ← px_eq], by rw [px_eq]⟩

variable {root va : U64} {pte : U64 × Fin 512}

theorem wp_load (h : Linked ready s m t S) (hp : PointsTo t va pte) {Q : U64 → Ram → Prop}
    (hQ : Q (leafWord (t.pte va.toNat)) s) : Wp Panics (load pte) s Q := by
  obtain ⟨t₀, ht₀, rfl⟩ := hp
  have hpage := pageAt_leafNode ht₀
  rw [load, wp_bind, wp_get, wp_pure, pageOf_addr (h.shape.lt _ _ hpage), h.shape.rep _ _ hpage]
  exact hQ

theorem wp_store (h : Linked ready s m t S) (hp : PointsTo t va pte) (hva : va.toNat < Vm.maxva)
    (e : Option Pte) (he : ∀ e', e = some e' → ∃ pa ∈ S, pa < 2 ^ 52 ∧ e'.pa = .page pa)
    {Q : Unit → Ram → Prop} (hQ : ∀ s', Linked ready s' m (t.setPte va.toNat e) S → Q ⟨⟩ s') :
    Wp Panics (store pte (leafWord e)) s Q := by
  obtain ⟨t₀, ht₀, rfl⟩ := hp
  rw [store, wp_modify]
  dsimp only
  rw [pageOf_addr (h.shape.lt _ _ (pageAt_leafNode ht₀))]
  refine hQ _ ⟨h.shape.setPte hva ht₀ e he, h.free, h.fails, h.nodup, fun hr p hpf => ?_⟩
  obtain ⟨hlt, hS, hpt⟩ := h.fresh hr p hpf
  exact ⟨hlt, hS, fun q => by rw [pageAt_setPte]; exact hpt q⟩

theorem leafWord_and_pteV (e : Option Pte) : leafWord e &&& pteV = 0 ↔ e = none := by
  cases e with
  | none => simp [leafWord]
  | some e =>
    rw [leafWord, entry_and_pteV, flags_and_one]
    simp

theorem pteFlags_leafWord (e : Pte) : pteFlags (leafWord (some e)) = e.perm.flags.setWidth 64 := by
  have hmask := entry_and e.pa.number e.perm.flags 0x3FF
  rw [show e.perm.flags &&& 0x3FF = e.perm.flags from BitVec.and_allOnes] at hmask
  exact hmask

theorem pteFlags_leafWord_ne (e : Pte) : pteFlags (leafWord (some e)) ≠ pteV := by
  rw [pteFlags_leafWord]
  intro he
  have hlow := congrArg (BitVec.setWidth 10) he
  rw [BitVec.setWidth_setWidth_of_le _ (by decide), BitVec.setWidth_eq] at hlow
  exact flags_ne_one e.perm hlow

theorem leafWord_page (pa : U64) (perm : BitVec 10) (hperm : perm &&& 0b1110 ≠ 0) :
    pa2pte pa ||| perm.setWidth 64 ||| pteV =
      leafWord (some ⟨.page (pageOf pa), permOf perm hperm⟩) := by
  have hor : ((perm ||| 1).setWidth 64 : U64) = perm.setWidth 64 ||| pteV := BitVec.setWidth_or
  rw [leafWord, entry, Frame.number, pa2pte_addr_pageOf, flags_permOf, hor, BitVec.or_assoc]

theorem pageOf_add (pa : U64) : pageOf (pa + 4096) = (pageOf pa + 1) % 2 ^ 52 := by
  unfold pageOf pgsize
  rw [BitVec.toNat_add]
  have hlt := pa.isLt
  show (pa.toNat + 4096) % 2 ^ 64 / 4096 = _
  omega

/-- Page after page is mapped in memory as it is in the tree. -/
theorem refines_mappagesLoop {perm : BitVec 10} (hperm : perm &&& 0b1110 ≠ 0) {last a pa : U64}
    {fuel n : ℕ} (h : Linked true s m t S) (hroot : root = addr t.page)
    (hn : (last - a).toNat = n * 4096) (hfuel : n < fuel)
    (hS : ∀ k ≤ n, (pageOf pa + k) % 2 ^ 52 ∈ S) :
    Refines Panics (mappagesLoop root last perm fuel a pa) s
      (Vm.mappagesLoop (permOf perm hperm) (n + 1) t a.toNat (.page (pageOf pa))) m
      fun r s' b m' => r = b.2 ∧ Linked true s' m' b.1 S ∧ b.1.page = t.page ∧ a.toNat < Vm.maxva := by
  induction fuel generalizing s m t a pa n with
  | zero => omega
  | succ fuel ih =>
    unfold mappagesLoop Vm.mappagesLoop
    refine refines_bind (refines_walk h hroot a) ?_
    rintro r s' ⟨t', found⟩ m' ⟨hlt, hl, hpage, hpte, rfl, hpoints⟩
    cases r with
    | none => exact refines_pure ⟨rfl, hl, hpage, hlt⟩
    | some pte =>
      simp only [Option.isSome_some, Bool.not_true, Bool.false_eq_true, if_false]
      apply refines_left
      apply wp_load hl (hpoints pte rfl)
      have hmem : (pageOf pa) ∈ S := by
        have hmem := hS 0 (Nat.zero_le n)
        rwa [Nat.add_zero, Nat.mod_eq_of_lt (pageOf_lt pa)] at hmem
      cases he : Node.pte t' a.toNat with
      | some e =>
        rw [if_pos ((leafWord_and_pteV _).not.mpr (by simp))]
        exact refines_throw (panics _)
      | none =>
        rw [if_neg (not_not.mpr ((leafWord_and_pteV none).mpr rfl)), leafWord_page pa perm hperm]
        simp only [Option.isSome_none, Bool.false_eq_true, if_false]
        apply refines_left
        apply wp_store hl (hpoints pte rfl) hlt
        · intro e' he'
          obtain rfl := Option.some.inj he'
          exact ⟨pageOf pa, hmem, pageOf_lt pa, rfl⟩
        intro s'' hl''
        have hpage'' : (t'.setPte a.toNat (some ⟨.page (pageOf pa), permOf perm hperm⟩)).page = t.page :=
          (page_setPte t' a.toNat _).trans hpage
        by_cases hend : a = last
        · subst hend
          have hz : n = 0 := by
            rw [BitVec.sub_self] at hn
            simpa using hn.symm
          subst hz
          rw [if_pos rfl, Vm.mappagesLoop]
          exact refines_pure ⟨rfl, hl'', hpage'', hlt⟩
        · have hnz : n ≠ 0 := by
            rintro rfl
            rw [Nat.zero_mul] at hn
            exact hend (by bv_omega)
          obtain ⟨k, rfl⟩ := Nat.exists_eq_succ_of_ne_zero hnz
          have hnext : (a + 4096).toNat = a.toNat + pgsize := by
            unfold Vm.maxva at hlt
            unfold pgsize
            bv_omega
          have hrest : (last - (a + 4096)).toNat = k * 4096 := by
            rw [Nat.succ_eq_add_one, Nat.add_mul] at hn
            bv_omega
          rw [if_neg hend, ← hnext, Frame.next, ← pageOf_add]
          refine (ih hl'' (hroot.trans (by rw [hpage''])) hrest (by omega) fun j hj => ?_).mono ?_
          · have := hS (j + 1) (by omega)
            rw [pageOf_add]
            rwa [Nat.mod_add_mod, Nat.add_assoc, Nat.add_comm 1 j]
          · rintro r s' b m' ⟨hr, hl, hp, -⟩
            exact ⟨hr, hl, hp.trans hpage'', hlt⟩

theorem refines_mappages (perm : BitVec 10) (hperm : perm &&& 0b1110 ≠ 0) {size pa : U64}
    (h : Linked true s m t S) (hroot : root = addr t.page)
    (hS : ∀ k < mapCount va.toNat size.toNat, (pageOf pa + k) % 2 ^ 52 ∈ S) :
    Refines Panics (mappages root va size pa perm) s
      (Vm.mappages t va.toNat size.toNat (.page (pageOf pa)) (permOf perm hperm)) m
      fun r s' b m' => r = b.2 ∧ Linked true s' m' b.1 S ∧ b.1.page = t.page ∧
        (pgRoundDown va).toNat < Vm.maxva := by
  have hsum : (va + size - 1).toNat = (va.toNat + size.toNat + 2 ^ 64 - 1) % 2 ^ 64 := by
    bv_omega
  have hlast := toNat_pgRoundDown (va + size - 1)
  have ha := toNat_pgRoundDown va
  rw [hsum] at hlast
  have hdiff : (pgRoundDown (va + size - 1) - pgRoundDown va).toNat =
      ((pgRoundDown (va + size - 1)).toNat + 2 ^ 64 - (pgRoundDown va).toNat) % 2 ^ 64 := by
    bv_omega
  unfold mapCount pgsize at hS
  have hmod : ((Xv6.pgRoundDown ((va.toNat + size.toNat + 2 ^ 64 - 1) % 2 ^ 64) + 2 ^ 64 -
      Xv6.pgRoundDown va.toNat) % 2 ^ 64) % 4096 = 0 := by
    have := va.isLt
    unfold Xv6.pgRoundDown pgsize
    omega
  unfold mappages Vm.mappages
  dsimp only
  rw [← ha]
  refine refines_mappagesLoop hperm h hroot ?_ ?_ fun k hk => hS k ?_
  · rw [hdiff, hlast, ha]
    unfold pgsize
    omega
  · rw [ha]
    unfold pgsize
    omega
  · rw [ha] at hk
    unfold pgsize at hk
    omega

theorem refines_kfree {kend : U64} {pa : ℕ} (h : Linked ready s m t S) (hpa : pa ∈ S)
    (hlt : pa < 2 ^ 52) :
    Refines Panics (kfree kend (addr pa)) s (Vm.kfree (.page pa)) m fun _ s' _ m' =>
      Linked false s' m' t S := by
  unfold kfree
  split_ifs
  · exact refines_throw (panics _)
  · simp only [memset, store, Refines, wp_bind, wp_modify, wp_get, pageOf_addr hlt]
    refine ⟨⟨⟩, _, rfl, ?_, ?_, h.fails, by simp, by simp⟩
    · apply h.shape.congr
      intro q p hq
      have hne : p ≠ pa := fun he => h.shape.apart q p hq (he ▸ hpa)
      dsimp only
      rw [put, update_of_ne hne, update_of_ne hne]
    · exact congrArg (List.cons pa) h.free

/-- Page after page is unmapped in memory as it is in the tree. -/
theorem refines_uvmunmapLoop {kend stop a : U64} {doFree : Bool} {fuel : ℕ} (h : Linked false s m t S)
    (hroot : root = addr t.page) (ha : a.toNat % 4096 = 0) (hstop : stop.toNat % 4096 = 0)
    (hfuel : (stop.toNat - a.toNat) / pgsize < fuel) :
    Refines Panics (uvmunmapLoop kend root stop doFree fuel a) s
      (Vm.uvmunmapLoop doFree ((stop.toNat - a.toNat) / pgsize) t a.toNat) m
      fun _ s' t' m' => Linked false s' m' t' S ∧ t'.page = t.page := by
  induction fuel generalizing s m t a with
  | zero => exact absurd hfuel (Nat.not_lt_zero _)
  | succ fuel ih =>
    unfold uvmunmapLoop
    by_cases hlt : a < stop
    · have hcount : (stop.toNat - a.toNat) / pgsize = (stop.toNat - (a + 4096).toNat) / pgsize + 1 := by
        unfold pgsize
        bv_omega
      have hnext : (a + 4096).toNat = a.toNat + pgsize := by
        unfold pgsize
        bv_omega
      rw [if_pos hlt, hcount, Vm.uvmunmapLoop]
      refine refines_bind (refines_walk h hroot a) ?_
      rintro r s' ⟨t', found⟩ m' ⟨hmax, hl, hpage, hpte, rfl, hpoints⟩
      cases r with
      | none => exact refines_throw (panics _)
      | some pte =>
        simp only [Option.isSome_some, Bool.not_true, Bool.false_eq_true, if_false]
        apply refines_left
        apply wp_load hl (hpoints pte rfl)
        cases he : Node.pte t' a.toNat with
        | none =>
          rw [if_pos ((leafWord_and_pteV none).mpr rfl)]
          exact refines_throw (panics _)
        | some e =>
          obtain ⟨pa, hpa, hpalt, hepa⟩ := hl.shape.leaf_pte hmax he
          have hflags : (e.perm.r || e.perm.w || e.perm.x || e.perm.u || decide (e.perm.rest ≠ 0)) = true := by
            rw [e.perm.leaf, Bool.true_or, Bool.true_or]
          rw [if_neg ((leafWord_and_pteV _).not.mpr (by simp)), if_neg (pteFlags_leafWord_ne e)]
          simp only [hflags, Bool.not_true, Bool.false_eq_true, if_false]
          rw [leafWord, hepa, Frame.number, pte2pa_entry hpalt]
          -- the page is freed or not; then the entry is cleared
          have hclear : ∀ {s' : Ram} {m' : Mem}, Linked false s' m' t' S →
              Refines Panics (do store pte 0; uvmunmapLoop kend root stop doFree fuel (a + 4096)) s'
                (Vm.uvmunmapLoop doFree ((stop.toNat - (a + 4096).toNat) / pgsize)
                  (t'.setPte a.toNat none) (a.toNat + pgsize)) m'
                fun _ s' t' m' => Linked false s' m' t' S ∧ t'.page = t.page := by
            intro s' m' hl'
            apply refines_left
            apply wp_store hl' (hpoints pte rfl) hmax none (by simp)
            intro s'' hl''
            have hpage'' : (t'.setPte a.toNat none).page = t.page :=
              (page_setPte t' a.toNat none).trans hpage
            rw [← hnext]
            refine (ih hl'' (hroot.trans (by rw [hpage''])) ?_ ?_).mono ?_
            · unfold pgsize at hnext
              omega
            · omega
            · rintro _ s' b m' ⟨hl, hp⟩
              exact ⟨hl, hp.trans hpage''⟩
          cases doFree with
          | false => exact hclear hl
          | true =>
            refine refines_bind (refines_kfree hl hpa hpalt) ?_
            intro _ s' _ m' hl'
            exact hclear hl'
    · have hz : (stop.toNat - a.toNat) / pgsize = 0 := by
        rw [Nat.sub_eq_zero_of_le (by bv_omega), Nat.zero_div]
      rw [if_neg hlt, hz, Vm.uvmunmapLoop]
      exact refines_pure ⟨h, rfl⟩

variable {kend : U64}

theorem refines_uvmunmap {npages : U64} {doFree : Bool} (h : Linked ready s m t S)
    (hroot : root = addr t.page) :
    Refines Panics (uvmunmap kend root va npages doFree) s
      (Vm.uvmunmap t va.toNat npages.toNat doFree) m
      fun _ s' t' m' => Linked false s' m' t' S ∧ t'.page = t.page := by
  unfold uvmunmap Vm.uvmunmap
  split_ifs with hva
  · exact refines_throw (panics _)
  · unfold pgsize at hva
    have hstop : (va + npages * 4096).toNat = (va.toNat + npages.toNat * pgsize) % 2 ^ 64 := by
      rw [BitVec.toNat_add, BitVec.toNat_mul, Nat.add_mod_mod]
      rfl
    rw [← hstop]
    refine refines_uvmunmapLoop h.unready hroot (by omega) ?_ ?_
    · rw [hstop]
      unfold pgsize
      omega
    · have := (va + npages * 4096).isLt
      unfold pgsize
      omega

theorem toNat_throughInt (x : U64) :
    ((x.setWidth 32).signExtend 64 : U64).toNat = throughInt x.toNat := by
  rw [BitVec.toNat_signExtend, BitVec.msb_eq_decide, BitVec.toNat_setWidth, BitVec.toNat_setWidth]
  unfold throughInt
  have := x.isLt
  split_ifs with h h' h' <;> simp at h h' <;> omega

theorem refines_uvmdealloc {oldsz newsz : U64} (h : Linked ready s m t S) (hroot : root = addr t.page) :
    Refines Panics (uvmdealloc kend root oldsz newsz) s
      (Vm.uvmdealloc t oldsz.toNat newsz.toNat) m
      fun r s' b m' => r.toNat = b.2 ∧ Linked false s' m' b.1 S ∧ b.1.page = t.page := by
  have hle : oldsz ≤ newsz ↔ oldsz.toNat ≤ newsz.toNat := Iff.rfl
  have hround : pgRoundUp newsz < pgRoundUp oldsz ↔
      Vm.pgRoundUp newsz.toNat < Vm.pgRoundUp oldsz.toNat := by
    rw [BitVec.lt_def, toNat_pgRoundUp, toNat_pgRoundUp]
  unfold uvmdealloc Vm.uvmdealloc
  by_cases hs : oldsz ≤ newsz
  · rw [if_pos hs, if_pos (hle.mp hs)]
    exact refines_pure ⟨rfl, h.unready, rfl⟩
  rw [if_neg hs, if_neg (mt hle.mpr hs)]
  by_cases hr : pgRoundUp newsz < pgRoundUp oldsz
  · have hnpages : ((((pgRoundUp oldsz - pgRoundUp newsz) / 4096).setWidth 32).signExtend 64 : U64).toNat =
        throughInt ((Vm.pgRoundUp oldsz.toNat - Vm.pgRoundUp newsz.toNat) / pgsize) := by
      rw [toNat_throughInt, BitVec.toNat_udiv, BitVec.toNat_sub_of_le (BitVec.le_of_lt hr),
        toNat_pgRoundUp, toNat_pgRoundUp]
      rfl
    rw [if_pos hr, if_pos (hround.mp hr)]
    dsimp only
    rw [← hnpages, ← toNat_pgRoundUp newsz]
    refine refines_bind (refines_uvmunmap h hroot) ?_
    rintro _ s' t' m' ⟨hl, hpage⟩
    exact refines_pure ⟨rfl, hl, hpage⟩
  · rw [if_neg hr, if_neg (mt hround.mpr hr)]
    exact refines_pure ⟨rfl, h.unready, rfl⟩

theorem Linked.insert {p : ℕ} (h : Linked true s m t S) (hfree : p ∉ s.free)
    (hpt : ∀ q, t.pageAt q ≠ some p) : Linked true s m t (insert p S) := by
  refine ⟨h.shape.mono (fun q p' hq => ?_) fun v hv e he => ?_, h.free, h.fails, h.nodup, fun _ p' hp' => ?_⟩
  · rintro (rfl | hS)
    · exact hpt q hq
    · exact h.shape.apart q p' hq hS
  · obtain ⟨pa, hpa, hlt, hepa⟩ := h.shape.leaf v hv e he
    exact ⟨pa, .inr hpa, hlt, hepa⟩
  · obtain ⟨hlt, hS, hold⟩ := h.fresh rfl p' hp'
    refine ⟨hlt, ?_, hold⟩
    rintro (rfl | hS')
    · exact hfree hp'
    · exact hS hS'

theorem mapCount_page {a : ℕ} (ha : a % 4096 = 0) (hlt : a < 2 ^ 64) : mapCount a pgsize = 1 := by
  rw [mapCount_eq (by decide) (by unfold pgsize; omega)]
  unfold pgsize
  omega

theorem refines_uvmallocLoop {oldsz newsz a : U64} {fuel : ℕ} (h : Linked true s m t S)
    (hroot : root = addr t.page) (ha : a.toNat % 4096 = 0)
    (hfuel : (Vm.maxva - a.toNat) / 4096 + 1 < fuel) :
    Refines Panics (uvmallocLoop kend root oldsz newsz fuel a) s
      (Vm.uvmallocLoop oldsz.toNat ((newsz.toNat - a.toNat + pgsize - 1) / pgsize) t a.toNat) m
      fun r s' b m' => r = b.2 ∧ b.1.page = t.page ∧ ∃ S', Linked false s' m' b.1 S' := by
  induction fuel generalizing s m t a S with
  | zero => exact absurd hfuel (Nat.not_lt_zero _)
  | succ fuel ih =>
    unfold uvmallocLoop
    by_cases hlt : a < newsz
    · have hcount : (newsz.toNat - a.toNat + pgsize - 1) / pgsize =
          (newsz.toNat - (a.toNat + pgsize) + pgsize - 1) / pgsize + 1 := by
        unfold pgsize
        bv_omega
      rw [if_pos hlt, hcount, Vm.uvmallocLoop]
      -- the pages that have been mapped are unmapped
      have hundo : ∀ {s : Ram} {m : Mem} {t' : Pagetable} {ready : Bool} {S' : Set ℕ},
          Linked ready s m t' S' → t'.page = t.page →
          Refines Panics (do let _ ← uvmdealloc kend root a oldsz; return false) s
            (do let r ← Vm.uvmdealloc t' a.toNat oldsz.toNat; return (r.1, false)) m
            fun r s' b m' => r = b.2 ∧ b.1.page = t.page ∧ ∃ S', Linked false s' m' b.1 S' := by
        intro s m t' ready S' hl hpage
        refine refines_bind (refines_uvmdealloc hl (hroot.trans (by rw [hpage]))) ?_
        rintro _ s' b m' ⟨-, hl', hpage'⟩
        exact refines_pure ⟨rfl, hpage'.trans hpage, S', hl'⟩
      refine refines_bind (refines_kalloc h) ?_
      rintro r s₁ b m₁ ⟨rfl, hl, hb⟩
      cases b with
      | none => exact hundo hl rfl
      | some p =>
        obtain ⟨hp, hS, hpfree, hpt⟩ := hb p rfl
        simp only [Option.map_some]
        apply refines_left
        rw [memset, wp_modify]
        refine refines_right (show fill (.page p) _ m₁ = .ok ((), _) from rfl) ?_
        have hfill : Linked true
            { s₁ with word := update s₁.word (pageOf (addr p)) fun _ => 0 * 0x0101010101010101 }
            (m₁.write (.page p) fun _ => 0) t (insert p S) := by
          refine (Linked.insert hl hpfree hpt).congr fun q p' hq => ?_
          have hne : p' ≠ p := fun he => hpt q (he ▸ hq)
          rw [pageOf_addr hp, update_of_ne hne]
        have hone : ∀ k < mapCount a.toNat (4096 : U64).toNat, (pageOf (addr p) + k) % 2 ^ 52 ∈ insert p S := by
          intro k hk
          rw [show (4096 : U64).toNat = pgsize from rfl, mapCount_page ha a.isLt, Nat.lt_one_iff] at hk
          rw [hk, pageOf_addr hp, Nat.add_zero, Nat.mod_eq_of_lt hp]
          exact Set.mem_insert p S
        have hmap := refines_mappages pteWXRU (by decide) hfill hroot hone
        rw [show permOf pteWXRU _ = permRWXU from rfl] at hmap
        have hframe : Frame.page (pageOf (addr p)) = .page p := congrArg Frame.page (pageOf_addr hp)
        rw [hframe] at hmap
        refine refines_bind hmap ?_
        rintro r s₂ ⟨t', mapped⟩ m₂ ⟨rfl, hl₂, hpage, hmax⟩
        cases r with
        | false =>
          simp only [Bool.not_false, if_true]
          refine refines_bind (refines_kfree hl₂ (Set.mem_insert p S) hp) ?_
          intro _ s₃ _ m₃ hl₃
          exact hundo hl₃ hpage
        | true =>
          simp only [Bool.not_true, Bool.false_eq_true, if_false]
          rw [toNat_pgRoundDown] at hmax
          have hlt' : a.toNat < Vm.maxva := by
            unfold Xv6.pgRoundDown pgsize at hmax
            unfold Vm.maxva at hmax ⊢
            omega
          have hnext : (a + 4096).toNat = a.toNat + pgsize := by
            unfold Vm.maxva at hlt'
            unfold pgsize
            bv_omega
          rw [← hnext]
          refine (ih hl₂ (hroot.trans (by rw [hpage])) ?_ ?_).mono ?_
          · rw [hnext]
            unfold pgsize
            omega
          · rw [hnext]
            unfold Vm.maxva pgsize at *
            omega
          · rintro r s' b m' ⟨hr, hp, hl⟩
            exact ⟨hr, hp.trans hpage, hl⟩
    · have hz : (newsz.toNat - a.toNat + pgsize - 1) / pgsize = 0 := by
        rw [Nat.sub_eq_zero_of_le (BitVec.not_lt.mp hlt)]
        decide
      rw [if_neg hlt, hz, Vm.uvmallocLoop]
      exact refines_pure ⟨rfl, rfl, S, h.unready⟩

theorem refines_uvmalloc {oldsz newsz : U64} (h : Linked true s m t S) (hroot : root = addr t.page) :
    Refines Panics (uvmalloc kend root oldsz newsz) s
      (Vm.uvmalloc t oldsz.toNat newsz.toNat) m
      fun r s' b m' => r.toNat = b.2 ∧ b.1.page = t.page ∧ ∃ S', Linked false s' m' b.1 S' := by
  have hlt : newsz < oldsz ↔ newsz.toNat < oldsz.toNat := Iff.rfl
  unfold uvmalloc Vm.uvmalloc
  by_cases hs : newsz < oldsz
  · rw [if_pos hs, if_pos (hlt.mp hs)]
    exact refines_pure ⟨rfl, rfl, S, h.unready⟩
  rw [if_neg hs, if_neg (mt hlt.mpr hs)]
  dsimp only
  rw [← toNat_pgRoundUp]
  refine refines_bind (refines_uvmallocLoop h hroot ?_ ?_) ?_
  · rw [toNat_pgRoundUp]
    unfold Vm.pgRoundUp pgsize
    omega
  · unfold Vm.maxva
    omega
  · rintro r s' ⟨t', done⟩ m' ⟨rfl, hpage, hl⟩
    refine refines_pure ⟨?_, hpage, hl⟩
    cases r <;> rfl

theorem leafWord_clear (e : Option Pte) : leafWord e &&& ~~~pteU =
    leafWord (e.map fun e => { e with perm := { e.perm with u := false } }) := by
  cases e with
  | none => simp [leafWord]
  | some e =>
    rw [Option.map_some, leafWord, leafWord, flags_clear]
    exact entry_and_not _ _ 0b10000

theorem refines_uvmclear (h : Linked ready s m t S) (hroot : root = addr t.page) :
    Refines Panics (uvmclear root va) s (Vm.uvmclear t va.toNat) m
      fun _ s' t' m' => Linked false s' m' t' S ∧ t'.page = t.page := by
  unfold uvmclear Vm.uvmclear
  refine refines_bind (refines_walk h.unready hroot va) ?_
  rintro r s' ⟨t', found⟩ m' ⟨hmax, hl, hpage, hpte, rfl, hpoints⟩
  cases r with
  | none => exact refines_throw (panics _)
  | some pte =>
    apply refines_left
    apply wp_load hl (hpoints pte rfl)
    rw [leafWord_clear]
    simp only [Option.isSome_some, Bool.not_true, Bool.false_eq_true, if_false]
    unfold Refines
    apply wp_store hl (hpoints pte rfl) hmax
    · intro e' he'
      obtain ⟨e, he, rfl⟩ := Option.map_eq_some_iff.mp he'
      obtain ⟨pa, hpa, hlt, hepa⟩ := hl.shape.leaf_pte hmax he
      exact ⟨pa, hpa, hlt, hepa⟩
    · intro s'' hl''
      exact ⟨_, _, rfl, hl'', (page_setPte _ _ _).trans hpage⟩

end Ram
end Xv6.Vm
