import Xv6.Lib.Run
import Xv6.Kernel.Vm.Refine
import Xv6.Kernel.Vm.Mapping

/-! A page table in memory, changed by the calls of the kernel, is a finite map from page
numbers to physical pages and flags. -/
namespace Xv6.Vm
open Lib

/-- The calls that change the mappings of a page table. -/
inductive Op
  | mappages (va size pa : U64) (perm : BitVec 10)
  | uvmunmap (va npages : U64) (doFree : Bool)
  | uvmalloc (oldsz newsz : U64)
  | uvmdealloc (oldsz newsz : U64)
  | uvmclear (va : U64)

namespace Ram

/-- What a call does in memory, and what it returns. -/
def call (kend root : U64) : Op → R U64
  | .mappages va size pa perm => do
    if ← mappages root va size pa perm then return 0 else return -1
  | .uvmunmap va npages doFree => do
    uvmunmap kend root va npages doFree
    return 0
  | .uvmalloc oldsz newsz => uvmalloc kend root oldsz newsz
  | .uvmdealloc oldsz newsz => uvmdealloc kend root oldsz newsz
  | .uvmclear va => do
    uvmclear root va
    return 0

/-- A page of the table, or a page that it maps. -/
def InUse (s : Ram) (root : U64) (p : ℕ) : Prop :=
  (∃ q, q.length ≤ 2 ∧ follow s.word root q = some (addr p)) ∨
  ∃ va flags, translate s root va = some (p, flags)

end Ram

/-- The physical pages that a call of `mappages` is given. -/
def Op.given : Op → Set ℕ
  | .mappages va size pa _ =>
    { p | ∃ k < mapCount va.toNat size.toNat, p = (Ram.pageOf pa + k) % 2 ^ 52 }
  | _ => ∅

/-- The free pages are nobody's, and the permissions are those of a leaf. -/
structure Allowed (s : Ram) (root : U64) (op : Op) : Prop where
  nodup : s.free.Nodup
  fresh : ∀ p ∈ s.free, p < 2 ^ 52 ∧ ¬ s.InUse root p ∧ p ∉ op.given
  leaf : ∀ va size pa perm, op = .mappages va size pa perm → perm &&& 0b1110 ≠ 0

/-- No page of the table itself is mapped. -/
def Op.Foreign (op : Op) (s : Ram) (root : U64) : Prop :=
  ∀ p ∈ op.given, ∀ q, q.length ≤ 2 → Ram.follow s.word root q ≠ some (Ram.addr p)

/-- What a call that returns `r` does to a map from page numbers. -/
def MapStep (M M' : ℕ → Option (ℕ × BitVec 10)) (r : U64) : Op → Prop
  | .mappages va size pa perm => ∃ j ≤ mapCount va.toNat size.toNat,
    (j = mapCount va.toNat size.toNat ∧ r = 0 ∨ j < mapCount va.toNat size.toNat ∧ r = -1) ∧
    Adds M M' (Ram.pageOf va) j fun k => ((Ram.pageOf pa + k) % 2 ^ 52, perm ||| 1)
  | .uvmunmap va npages _ =>
    r = 0 ∧ Removes M M' (Ram.pageOf va) (unmapCount va.toNat npages.toNat)
  | .uvmalloc oldsz newsz =>
    (newsz < oldsz ∧ r = oldsz ∧ M' = M) ∨
    (oldsz ≤ newsz ∧ r = newsz ∧ ∃ f : ℕ → ℕ, Adds M M' (pgRoundUp oldsz.toNat / pgsize)
      ((newsz.toNat - pgRoundUp oldsz.toNat + pgsize - 1) / pgsize) fun k => (f k, userFlags)) ∨
    (oldsz ≤ newsz ∧ r = 0 ∧ M' = M)
  | .uvmdealloc oldsz newsz =>
    r.toNat = min oldsz.toNat newsz.toNat ∧
    Removes M M' (pgRoundUp newsz.toNat / pgsize) (deallocCount oldsz.toNat newsz.toNat)
  | .uvmclear va =>
    r = 0 ∧ M' = Function.update M (Ram.pageOf va)
      ((M (Ram.pageOf va)).map fun e => (e.1, e.2 &&& ~~~0b10000))

/-- The map after a sequence of calls with what they returned. -/
inductive MapRun : List (Op × U64) → (ℕ → Option (ℕ × BitVec 10)) → Prop
  | empty : MapRun [] fun _ => none
  | call {log : List (Op × U64)} {M M' : ℕ → Option (ℕ × BitVec 10)} {op : Op} {r : U64} :
    MapRun log M → MapStep M M' r op → MapRun (log ++ [(op, r)]) M'

/-- Memory, and the calls so far with what they returned. -/
abbrev History := Ram × List (Op × U64)

/-- A call finds memory and the free list as others have left them. -/
structure Turn where
  op : Op
  found : Ram

def callStep (kend root : U64) (h : History) (a : Turn) : Except Halt History :=
  (Ram.call kend root a.op a.found).map fun r => (r.2, h.2 ++ [(a.op, r.1)])

/-- Others write to no page of the table. -/
def Undisturbed (root : U64) (h : History) (a : Turn) : Prop :=
  ∀ q pa, q.length ≤ 2 → Ram.follow h.1.word root q = some pa →
    a.found.word (Ram.pageOf pa) = h.1.word (Ram.pageOf pa)

def CallOk (root : U64) (h : History) (a : Turn) : Prop :=
  Undisturbed root h a ∧ Allowed a.found root a.op ∧ a.op.Foreign a.found root

namespace Ram
variable {s : Ram} {t : Pagetable} {S : Set ℕ} {root : U64}

theorem length_of_pageAt {q : List (Fin 512)} {p : ℕ} (h : t.pageAt q = some p) : q.length ≤ 2 := by
  match q with
  | [] => simp
  | [_] => simp
  | [_, _] => simp
  | _ :: _ :: _ :: _ => simp [Node.pageAt] at h

theorem childWord_and_pteV {α : Type} (c : Option (Node α)) : childWord c &&& pteV = 0 ↔ c = none := by
  cases c with
  | none => simp [childWord]
  | some c =>
    rw [childWord, entry_and_pteV]
    simp

theorem follow_eq (h : Shape s.word t S) (hroot : root = addr t.page) {q : List (Fin 512)}
    (hq : q.length ≤ 2) : follow s.word root q = (t.pageAt q).map addr := by
  have htop : ∀ i, s.word (pageOf root) i = childWord (t.entry i) := by
    intro i
    rw [hroot, pageOf_addr (h.lt [] _ rfl), h.rep [] _ rfl]
    rfl
  match q with
  | [] => rw [follow, hroot]; rfl
  | [i] =>
    rw [follow, htop]
    cases hi : t.entry i with
    | none => simp [Node.pageAt, hi, (childWord_and_pteV _).mpr]
    | some t₁ =>
      have hp : t.pageAt [i] = some t₁.page := by simp [Node.pageAt, hi]
      rw [if_neg ((childWord_and_pteV _).not.mpr (by simp)), hp, childWord, pte2pa_entry (h.lt _ _ hp)]
      rfl
  | [i, j] =>
    rw [follow, htop]
    cases hi : t.entry i with
    | none => simp [Node.pageAt, hi, (childWord_and_pteV _).mpr]
    | some t₁ =>
      have hp : t.pageAt [i] = some t₁.page := by simp [Node.pageAt, hi]
      have hmid : s.word t₁.page j = childWord (t₁.entry j) := by
        rw [h.rep _ _ hp]
        simp [Node.wordAt, hi]
      rw [if_neg ((childWord_and_pteV _).not.mpr (by simp)), childWord, pte2pa_entry (h.lt _ _ hp), follow,
        pageOf_addr (h.lt _ _ hp), hmid]
      cases hj : t₁.entry j with
      | none => simp [Node.pageAt, hi, hj, (childWord_and_pteV _).mpr]
      | some t₀ =>
        have hp₀ : t.pageAt [i, j] = some t₀.page := by simp [Node.pageAt, hi, hj]
        rw [if_neg ((childWord_and_pteV _).not.mpr (by simp)), hp₀, childWord, pte2pa_entry (h.lt _ _ hp₀)]
        rfl
  | _ :: _ :: _ :: _ => simp at hq

theorem wp_walk_follow {E : Halt → Prop} {va : U64} (hva : ¬ maxva ≤ va)
    {Q : Option (U64 × Fin 512) → Ram → Prop}
    (hQ : Q ((follow s.word root [px 2 va, px 1 va]).map fun a => (a, px 0 va)) s) :
    Wp E (walk root va false) s Q := by
  have hturn : ∀ {Q : Option U64 → Ram → Prop} level a, Q (follow s.word a [px level va]) s →
      Wp E (walkTurn level a va false) s Q := by
    intro Q level a hQ
    unfold walkTurn load
    simp only [wp_bind, wp_get, wp_pure, follow] at hQ ⊢
    by_cases hw : s.word (pageOf a) (px level va) &&& pteV = 0
    · rw [if_pos hw] at hQ
      rw [if_neg (not_not.mpr hw), if_pos (by rfl), wp_pure]
      exact hQ
    · rw [if_neg hw] at hQ
      rw [if_pos hw, wp_pure]
      exact hQ
  unfold walk walkLoop walkLoop walkLoop
  rw [if_neg hva]
  simp only [wp_bind]
  apply hturn
  by_cases h₂ : s.word (pageOf root) (px 2 va) &&& pteV = 0
  · rw [follow, if_pos h₂] at hQ ⊢
    simpa using hQ
  · rw [follow, if_neg h₂] at hQ ⊢
    rw [follow]
    dsimp only
    rw [wp_bind]
    apply hturn
    cases hf : follow s.word (pte2pa (s.word (pageOf root) (px 2 va))) [px 1 va] with
    | none | some a =>
      rw [hf] at hQ
      simpa using hQ

theorem translate_eq (h : Shape s.word t S) (hroot : root = addr t.page) (va : U64) :
    translate s root va = mapping t (pageOf va) := by
  unfold translate
  by_cases hva : maxva ≤ va
  · have hpage : ¬ pageOf va < 2 ^ 26 := by
      have hle : 2 ^ 38 ≤ va.toNat := hva
      unfold pageOf pgsize
      omega
    rw [walk, if_pos hva, mapping, if_neg hpage]
    rfl
  · have hlt : va.toNat < Vm.maxva := not_le.mp hva
    have hpage : pageOf va < 2 ^ 26 := by
      unfold Vm.maxva at hlt
      unfold pageOf pgsize
      omega
    have hwalk : Wp (fun _ => False) (walk root va false) s fun r s' =>
        r = (follow s.word root [px 2 va, px 1 va]).map (fun a => (a, px 0 va)) ∧ s' = s :=
      wp_walk_follow hva ⟨rfl, rfl⟩
    obtain ⟨r, s', hw, rfl, rfl⟩ := hwalk.returns
    rw [hw, mapping_of_lt hpage, show look t (pageOf va) = t.pte va.toNat from pte_round t va.toNat,
      follow_eq h hroot (by simp), px_eq, px_eq, px_eq]
    cases hleaf : t.leafNode va.toNat with
    | none =>
      have hpageAt : t.pageAt [Vm.px 2 va.toNat, Vm.px 1 va.toNat] = none := by
        unfold Node.leafNode at hleaf
        simpa [Node.pageAt, Option.map_bind] using hleaf
      rw [hpageAt, pte_eq_leafNode, hleaf]
      rfl
    | some t₀ =>
      have hpageAt := pageAt_leafNode hleaf
      rw [hpageAt, Option.map_some, Option.map_some]
      dsimp only
      rw [pageOf_addr (h.lt _ _ hpageAt), h.rep _ _ hpageAt, wordAt_leafNode]
      cases he : t.pte va.toNat with
      | none => rw [if_pos ((leafWord_and_pteV none).mpr rfl)]; rfl
      | some e =>
        obtain ⟨pa, -, hpa, hepa⟩ := h.leaf_pte hlt he
        rw [if_neg ((leafWord_and_pteV _).not.mpr (by simp)), pteFlags_leafWord, leafWord, Option.map_some,
          Pte.target, hepa, Frame.number, pte2pa_entry hpa, pageOf_addr hpa,
          BitVec.setWidth_setWidth_of_le _ (by decide), BitVec.setWidth_eq]

/-- The pages that the leaves of a table point to. -/
def leaves (t : Pagetable) : Set ℕ := { p | ∃ v < 2 ^ 26, ∃ e, look t v = some e ∧ e.pa = .page p }

theorem linked_of_allowed {op : Op} (h : Shape s.word t S) (hroot : root = addr t.page)
    (hok : Allowed s root op) (hforeign : op.Foreign s root) (data : Frame → Bytes) :
    Linked true s ⟨s.free, s.fails, data⟩ t (leaves t ∪ op.given) := by
  have hfollow : ∀ q p, t.pageAt q = some p → follow s.word root q = some (addr p) := by
    intro q p hq
    rw [follow_eq h hroot (length_of_pageAt hq), hq]
    rfl
  refine ⟨h.mono (fun q p hq => ?_) fun v hv e he => ?_, rfl, rfl, fun _ => hok.nodup, fun _ p hp => ?_⟩
  · rintro (⟨v, hv, e, he, hepa⟩ | hgiven)
    · obtain ⟨pa, hpa, -, hepa'⟩ := h.leaf v hv e he
      obtain rfl := Frame.page.inj (hepa.symm.trans hepa')
      exact h.apart q p hq hpa
    · exact hforeign p hgiven q (length_of_pageAt hq) (hfollow q p hq)
  · obtain ⟨pa, -, hlt, hepa⟩ := h.leaf v hv e he
    exact ⟨pa, .inl ⟨v, hv, e, he, hepa⟩, hlt, hepa⟩
  · obtain ⟨hlt, huse, hgiven⟩ := hok.fresh p hp
    refine ⟨hlt, ?_, fun q hq => huse (.inl ⟨q, length_of_pageAt hq, hfollow q p hq⟩)⟩
    rintro (⟨v, hv, e, he, hepa⟩ | hmem)
    · refine huse (.inr ⟨addr v, e.perm.flags, ?_⟩)
      rw [translate_eq h hroot, pageOf_addr (by omega), mapping_of_lt hv, he, Option.map_some, Pte.target,
        hepa]
      rfl
    · exact hgiven hmem

theorem wp_call (kend : U64) {op : Op} (h : Shape s.word t S) (hroot : root = addr t.page)
    (hok : Allowed s root op) (hforeign : op.Foreign s root) :
    Wp Panics (call kend root op) s fun r s' => ∃ t' S',
      Shape s'.word t' S' ∧ t'.page = t.page ∧ MapStep (mapping t) (mapping t') r op := by
  have hl := linked_of_allowed h hroot hok hforeign fun _ _ => 0
  cases op with
  | mappages va size pa perm =>
    have hperm := hok.leaf va size pa perm rfl
    have hS : ∀ k < mapCount va.toNat size.toNat,
        (pageOf pa + k) % 2 ^ 52 ∈ leaves t ∪ (Op.mappages va size pa perm).given :=
      fun k hk => .inr ⟨k, hk, rfl⟩
    rw [call, wp_bind]
    refine Wp.mono ((refines_mappages perm hperm hl hroot hS).and_wp
      (wp_mappages_adds _ (pageOf_lt pa))) ?_
    rintro r s' ⟨b, m', -, ⟨rfl, hl', hpage, -⟩, j, hj, hr, hadds⟩
    rw [flags_permOf] at hadds
    split_ifs with hb
    · rw [wp_pure]
      exact ⟨b.1, _, hl'.shape, hpage, j, hj, .inl ⟨hr.mp hb, rfl⟩, hadds⟩
    · rw [wp_pure]
      exact ⟨b.1, _, hl'.shape, hpage, j, hj, .inr ⟨lt_of_le_of_ne hj (mt hr.mpr hb), rfl⟩, hadds⟩
  | uvmunmap va npages doFree =>
    rw [call, wp_bind]
    refine Wp.mono ((refines_uvmunmap hl hroot).and_wp (wp_uvmunmap_removes doFree)) ?_
    rintro _ s' ⟨t', m', -, ⟨hl', hpage⟩, -, hremoves⟩
    rw [wp_pure]
    exact ⟨t', _, hl'.shape, hpage, rfl, hremoves⟩
  | uvmalloc oldsz newsz =>
    refine Wp.mono ((refines_uvmalloc hl hroot).and_wp wp_uvmalloc_adds) ?_
    rintro r s' ⟨b, m', -, ⟨hr, hpage, S', hl'⟩, hmap⟩
    refine ⟨b.1, S', hl'.shape, hpage, ?_⟩
    rw [← hr] at hmap
    rcases hmap with ⟨hlt, hr', hsame⟩ | ⟨hle, hr', hadds⟩ | ⟨hle, hr', hsame⟩
    · exact .inl ⟨hlt, BitVec.eq_of_toNat_eq hr', hsame⟩
    · exact .inr (.inl ⟨hle, BitVec.eq_of_toNat_eq hr', hadds⟩)
    · exact .inr (.inr ⟨hle, BitVec.eq_of_toNat_eq hr', hsame⟩)
  | uvmdealloc oldsz newsz =>
    refine Wp.mono ((refines_uvmdealloc hl hroot).and_wp wp_uvmdealloc_removes) ?_
    rintro r s' ⟨b, m', -, ⟨hr, hl', hpage⟩, hr', hremoves⟩
    exact ⟨b.1, _, hl'.shape, hpage, hr.trans hr', hremoves⟩
  | uvmclear va =>
    rw [call, wp_bind]
    refine Wp.mono ((refines_uvmclear hl hroot).and_wp wp_uvmclear_clears) ?_
    rintro _ s' ⟨t', m', -, ⟨hl', hpage⟩, hclears⟩
    rw [wp_pure]
    exact ⟨t', _, hl'.shape, hpage, rfl, hclears⟩

theorem shape_empty {p : ℕ} (hp : p < 2 ^ 52) (hzero : ∀ i, s.word p i = 0) :
    Shape s.word (Node.empty _ p) ∅ := by
  have htop : ∀ q p', Node.pageAt (Node.empty _ p) q = some p' → q = [] ∧ p' = p := by
    intro q p' hq
    match q with
    | [] => exact ⟨rfl, (Option.some.inj hq).symm⟩
    | [_] => simp [Node.pageAt] at hq
    | [_, _] => simp [Node.pageAt] at hq
    | _ :: _ :: _ :: _ => simp [Node.pageAt] at hq
  refine ⟨fun q p' hq => ?_, fun q q' p' hq hq' => ?_, fun q p' hq => ?_, fun _ _ _ => Set.notMem_empty _,
    fun v _ e he => ?_⟩
  · obtain ⟨rfl, rfl⟩ := htop q p' hq
    funext i
    exact hzero i
  · rw [(htop q p' hq).1, (htop q' p' hq').1]
  · exact (htop q p' hq).2 ▸ hp
  · simp [look, Node.pte] at he

end Ram

variable {kend root : U64} {s : Ram} {h : History}

/-- Memory holds a table, and the calls so far have made its map. -/
def Represents (root : U64) (h : History) : Prop :=
  ∃ t S, root = Ram.addr t.page ∧ Shape h.1.word t S ∧ MapRun h.2 (mapping t)

theorem Represents.step {a : Turn} {h' : History} (hrep : Represents root h) (hok : CallOk root h a)
    (hstep : callStep kend root h a = .ok h') : Represents root h' := by
  obtain ⟨t, S, hroot, hshape, hrun⟩ := hrep
  obtain ⟨hundisturbed, hallowed, hforeign⟩ := hok
  have hfound : Shape a.found.word t S := by
    apply hshape.congr
    intro q p hq
    have hlen := Ram.length_of_pageAt hq
    have hfollow := Ram.follow_eq hshape hroot hlen
    rw [hq] at hfollow
    have hsame := hundisturbed q _ hlen hfollow
    rwa [Ram.pageOf_addr (hshape.lt q p hq)] at hsame
  have hwp := Ram.wp_call kend hfound hroot hallowed hforeign
  unfold callStep at hstep
  cases hcall : Ram.call kend root a.op a.found with
  | error e => simp [hcall, Except.map] at hstep
  | ok r =>
    obtain ⟨t', S', hshape', hpage, hmap⟩ := hwp.of_ok hcall
    rw [hcall] at hstep
    obtain rfl := Except.ok.inj hstep
    exact ⟨t', S', hroot.trans (by rw [hpage]), hshape', hrun.call hmap⟩

/-- Whatever calls have been made on an empty page table, walking it gives for each virtual
address what the map of these calls has for its page number, and no two sequences of indices
lead to one page of the table. -/
theorem page_table_refines_map {p : ℕ} (hp : p < 2 ^ 52) (hroot : root = Ram.addr p)
    (hempty : ∀ i, s.word p i = 0) (hrun : Run (callStep kend root) (CallOk root) (s, []) h) :
    (∃ M, MapRun h.2 M ∧
      ∀ va < Ram.maxva, Ram.translate h.1 root va = M (Ram.pageOf va)) ∧
    ∀ q q' pa, q.length ≤ 2 → q'.length ≤ 2 → Ram.follow h.1.word root q = some pa →
      Ram.follow h.1.word root q' = some pa → q = q' := by
  have hrep : Represents root h := by
    refine hrun.invariant ⟨Node.empty _ p, ∅, hroot, Ram.shape_empty hp hempty, ?_⟩
      fun h₀ a h' hrep hok hstep => hrep.step hok hstep
    have hnone : mapping (Node.empty _ p) = fun _ => none := by
      funext v
      simp [mapping, look, Node.pte]
    rw [hnone]
    exact .empty
  obtain ⟨t, S, hroot', hshape, hmap⟩ := hrep
  refine ⟨⟨mapping t, hmap, fun va _ => Ram.translate_eq hshape hroot' va⟩, ?_⟩
  intro q q' pa hq hq' hpa hpa'
  rw [Ram.follow_eq hshape hroot' hq] at hpa
  rw [Ram.follow_eq hshape hroot' hq'] at hpa'
  obtain ⟨p₁, hp₁, rfl⟩ := Option.map_eq_some_iff.mp hpa
  obtain ⟨p₂, hp₂, he⟩ := Option.map_eq_some_iff.mp hpa'
  have hsame : p₂ = p₁ := by
    rw [← Ram.pageOf_addr (hshape.lt _ _ hp₁), ← he, Ram.pageOf_addr (hshape.lt _ _ hp₂)]
  exact hshape.inj q q' p₁ hp₁ (hsame ▸ hp₂)

/-- Memory with two free pages, and the root of an empty table in front of them. -/
def emptyTable : Ram := ⟨fun _ _ => 0, [0x87001, 0x87002], []⟩

def emptyRoot : U64 := Ram.addr 0x87000

theorem follow_emptyTable {q : List (Fin 512)} {pa : U64}
    (h : Ram.follow emptyTable.word emptyRoot q = some pa) : pa = emptyRoot := by
  cases q with
  | nil => exact (Option.some.inj h).symm
  | cons i q => simp [Ram.follow, emptyTable] at h

/-- A page is mapped at address 0. -/
def mapFirst (pa : U64) : Op := .mappages 0 4096 pa 0b110

theorem eq_of_mem_given {pa : U64} {p : ℕ} (h : p ∈ (mapFirst pa).given) : p = Ram.pageOf pa := by
  obtain ⟨k, hk, rfl⟩ := h
  have hz : k = 0 := Nat.lt_one_iff.mp hk
  rw [hz, Nat.add_zero, Nat.mod_eq_of_lt (Ram.pageOf_lt pa)]

theorem allowed_mapFirst {pa : U64} (hpa : Ram.pageOf pa ∉ emptyTable.free) :
    Allowed emptyTable emptyRoot (mapFirst pa) := by
  have hlt : ∀ p ∈ emptyTable.free, p < 2 ^ 52 ∧ Ram.addr p ≠ emptyRoot := by decide
  refine ⟨by decide, fun p hp => ⟨(hlt p hp).1, ?_, ?_⟩, ?_⟩
  · rintro (⟨q, -, hq⟩ | ⟨va, flags, ht⟩)
    · exact (hlt p hp).2 (follow_emptyTable hq)
    · have hshape := Ram.shape_empty (s := emptyTable) (p := 0x87000) (by decide) fun _ => rfl
      rw [Ram.translate_eq hshape (show emptyRoot = _ from rfl)] at ht
      simp [mapping, look, Node.pte] at ht
  · intro hgiven
    exact hpa (eq_of_mem_given hgiven ▸ hp)
  · intro va size pa' perm he
    obtain ⟨-, -, -, rfl⟩ := Op.mappages.inj he
    decide

/-- One page is mapped in an empty table. -/
theorem page_table_refines_map_onePage : ∃ h : History,
    Run (callStep 0x80022000 emptyRoot) (CallOk emptyRoot) (emptyTable, []) h ∧
    Ram.translate h.1 emptyRoot 0 = some (0x87005, 0b111) ∧
    (∃ M, MapRun h.2 M ∧ ∀ va < Ram.maxva, Ram.translate h.1 emptyRoot va = M (Ram.pageOf va)) ∧
    ∀ q q' pa, q.length ≤ 2 → q'.length ≤ 2 → Ram.follow h.1.word emptyRoot q = some pa →
      Ram.follow h.1.word emptyRoot q' = some pa → q = q' := by
  have htest : ((callStep 0x80022000 emptyRoot (emptyTable, [])
      ⟨mapFirst 0x87005000, emptyTable⟩).toOption.any
      fun h => decide (Ram.translate h.1 emptyRoot 0 = some (0x87005, 0b111))) = true := by
    decide +kernel
  cases hstep : callStep 0x80022000 emptyRoot (emptyTable, []) ⟨mapFirst 0x87005000, emptyTable⟩ with
  | error e =>
    rw [hstep] at htest
    cases htest
  | ok h =>
    rw [hstep] at htest
    have ht := of_decide_eq_true htest
    have hforeign : (mapFirst 0x87005000).Foreign emptyTable emptyRoot := by
      intro p hp q _ hq
      rw [eq_of_mem_given hp] at hq
      exact absurd (follow_emptyTable hq) (by decide)
    have hok : CallOk emptyRoot (emptyTable, []) ⟨mapFirst 0x87005000, emptyTable⟩ :=
      ⟨fun _ _ _ _ => rfl, allowed_mapFirst (by decide), hforeign⟩
    have hrun := (Run.refl (emptyTable, [])).tail hok hstep
    exact ⟨h, hrun, ht, page_table_refines_map (by decide) rfl (fun _ => rfl) hrun⟩

/-- The root of the table is mapped, and then unmapped and freed. -/
def mapAndFreeRoot : Except Halt History := do
  let h ← callStep 0x80022000 emptyRoot (emptyTable, []) ⟨mapFirst emptyRoot, emptyTable⟩
  callStep 0x80022000 emptyRoot h ⟨.uvmunmap 0 1 true, { h.1 with free := [] }⟩

/-- `kfree` overwrites the table, and then its indices lead to one page. -/
theorem root_mapped_and_freed : ∃ h : History,
    Run (callStep 0x80022000 emptyRoot)
      (fun h a => Undisturbed emptyRoot h a ∧ Allowed a.found emptyRoot a.op) (emptyTable, []) h ∧
    ∃ q q' pa, q.length ≤ 2 ∧ q'.length ≤ 2 ∧ Ram.follow h.1.word emptyRoot q = some pa ∧
      Ram.follow h.1.word emptyRoot q' = some pa ∧ q ≠ q' := by
  have htest : (mapAndFreeRoot.toOption.any fun h => decide
      (Ram.follow h.1.word emptyRoot [1] = some 0x404040404040000 ∧
        Ram.follow h.1.word emptyRoot [2] = some 0x404040404040000)) = true := by
    decide +kernel
  unfold mapAndFreeRoot at htest
  cases hmap : callStep 0x80022000 emptyRoot (emptyTable, []) ⟨mapFirst emptyRoot, emptyTable⟩ with
  | error e =>
    rw [hmap] at htest
    cases htest
  | ok h₁ =>
    rw [hmap] at htest
    change ((callStep 0x80022000 emptyRoot h₁
      ⟨.uvmunmap 0 1 true, { h₁.1 with free := [] }⟩).toOption.any _) = true at htest
    cases hfree : callStep 0x80022000 emptyRoot h₁ ⟨.uvmunmap 0 1 true, { h₁.1 with free := [] }⟩ with
    | error e =>
      rw [hfree] at htest
      cases htest
    | ok h₂ =>
      rw [hfree] at htest
      obtain ⟨ht, ht'⟩ := of_decide_eq_true htest
      refine ⟨h₂, ?_, [1], [2], _, by decide, by decide, ht, ht', by decide⟩
      refine ((Run.refl (emptyTable, [])).tail ⟨fun _ _ _ _ => rfl, allowed_mapFirst (by decide)⟩
        hmap).tail ⟨fun _ _ _ _ => rfl, ⟨List.nodup_nil, by simp, by simp⟩⟩ hfree

end Xv6.Vm
