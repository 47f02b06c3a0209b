import Xv6.Kernel.Vm.Ram
import Xv6.Kernel.Vm.Maps
import Xv6.Lib.Refine

/-! How the words of a page table in memory stand for the tree of its pages. -/
namespace Xv6.Vm.Ram

/-- An entry that points to a page. -/
def entry (p : ℕ) (flags : BitVec 10) : U64 := pa2pte (addr p) ||| flags.setWidth 64

theorem toNat_addr {p : ℕ} (hp : p < 2 ^ 52) : (addr p).toNat = p * pgsize := by
  unfold addr pgsize
  rw [BitVec.toNat_ofNat]
  omega

theorem pageOf_addr {p : ℕ} (hp : p < 2 ^ 52) : pageOf (addr p) = p := by
  rw [pageOf, toNat_addr hp, Nat.mul_div_cancel _ (by decide)]

theorem pageOf_lt (pa : U64) : pageOf pa < 2 ^ 52 := by
  have := pa.isLt
  unfold pageOf pgsize
  omega

theorem toNat_pa2pte (pa : U64) : (pa2pte pa).toNat = pageOf pa * 1024 := by
  have := pa.isLt
  unfold pa2pte pageOf pgsize
  rw [BitVec.toNat_shiftLeft, BitVec.toNat_ushiftRight, Nat.shiftRight_eq_div_pow, Nat.shiftLeft_eq]
  omega

theorem pa2pte_addr_pageOf (pa : U64) : pa2pte (addr (pageOf pa)) = pa2pte pa := by
  apply BitVec.eq_of_toNat_eq
  rw [toNat_pa2pte, toNat_pa2pte, pageOf_addr (pageOf_lt pa)]

theorem toNat_entry {p : ℕ} (hp : p < 2 ^ 52) (flags : BitVec 10) :
    (entry p flags).toNat = p * 1024 + flags.toNat := by
  have hf := flags.isLt
  unfold entry
  rw [BitVec.toNat_or, toNat_pa2pte, pageOf_addr hp, BitVec.toNat_setWidth,
    Nat.mod_eq_of_lt (by omega), show p * 1024 = p <<< 10 from (Nat.shiftLeft_eq p 10).symm]
  exact (Nat.shiftLeft_add_eq_or_of_lt hf p).symm

theorem pte2pa_entry {p : ℕ} (hp : p < 2 ^ 52) (flags : BitVec 10) :
    pte2pa (entry p flags) = addr p := by
  have hf := flags.isLt
  apply BitVec.eq_of_toNat_eq
  unfold pte2pa
  rw [toNat_addr hp, BitVec.toNat_shiftLeft, BitVec.toNat_ushiftRight, toNat_entry hp,
    Nat.shiftRight_eq_div_pow, Nat.shiftLeft_eq]
  unfold pgsize
  omega

theorem entry_and (p : ℕ) (flags mask : BitVec 10) :
    entry p flags &&& mask.setWidth 64 = (flags &&& mask).setWidth 64 := by
  apply BitVec.eq_of_getLsbD_eq
  intro i hi
  by_cases hlow : i < 10
  · simp [entry, pa2pte, hlow, hi]
  · simp [entry, pa2pte, hi, BitVec.getLsbD_of_ge mask i (by omega)]

theorem entry_and_not (p : ℕ) (flags mask : BitVec 10) :
    entry p flags &&& ~~~mask.setWidth 64 = entry p (flags &&& ~~~mask) := by
  apply BitVec.eq_of_getLsbD_eq
  intro i hi
  by_cases hlow : i < 10
  · simp [entry, pa2pte, hlow, hi]
  · simp [entry, pa2pte, hlow, hi, BitVec.getLsbD_of_ge mask i (by omega),
      BitVec.getLsbD_of_ge flags i (by omega)]

theorem px_eq (level : ℕ) (va : U64) : px level va = Vm.px level va.toNat := by
  apply Fin.ext
  show (va >>> (12 + 9 * level) &&& 0x1FF).toNat = va.toNat / pgsize / 512 ^ level % 512
  rw [BitVec.toNat_and, BitVec.toNat_ushiftRight, Nat.shiftRight_eq_div_pow, Nat.pow_add,
    ← Nat.div_div_eq_div_mul, Nat.pow_mul]
  exact Nat.and_two_pow_sub_one_eq_mod _ 9

theorem toNat_pgRoundDown (a : U64) : (pgRoundDown a).toNat = Xv6.pgRoundDown a.toNat := by
  have hmask : ∀ i, (4096 - 1 : U64).getLsbD i = decide (i < 12) := by
    intro i
    show (BitVec.ofNat 64 (2 ^ 12 - 1)).getLsbD i = _
    rw [BitVec.getLsbD_ofNat, Nat.testBit_two_pow_sub_one]
    by_cases hi : i < 12 <;> simp [hi]
    omega
  have hshift : pgRoundDown a = a >>> 12 <<< 12 := by
    apply BitVec.eq_of_getLsbD_eq
    intro i hi
    unfold pgRoundDown
    rw [BitVec.getLsbD_and, BitVec.getLsbD_not, hmask, BitVec.getLsbD_shiftLeft,
      BitVec.getLsbD_ushiftRight]
    by_cases hlow : i < 12
    · simp [hlow]
    · simp [hlow, hi, show 12 + (i - 12) = i by omega]
  have hlt := a.isLt
  rw [hshift, BitVec.toNat_shiftLeft, BitVec.toNat_ushiftRight, Nat.shiftRight_eq_div_pow,
    Nat.shiftLeft_eq]
  unfold Xv6.pgRoundDown pgsize
  omega

theorem toNat_pgRoundUp (sz : U64) : (pgRoundUp sz).toNat = Vm.pgRoundUp sz.toNat := by
  have hsum : (sz + 4096 - 1).toNat = (sz.toNat + pgsize - 1) % 2 ^ 64 := by
    have hlt := sz.isLt
    unfold pgsize
    bv_omega
  rw [show pgRoundUp sz = pgRoundDown (sz + 4096 - 1) from rfl, toNat_pgRoundDown, hsum]
  rfl

end Ram
open Function

/-- The flags of a leaf entry, `PTE_V` included. -/
def Perm.flags (p : Perm) : BitVec 10 :=
  BitVec.ofNat 10 (1 + 2 * p.r.toNat + 4 * p.w.toNat + 8 * p.x.toNat + 16 * p.u.toNat + 32 * p.rest)

/-- The permissions in an argument of `mappages`. -/
def permOf (b : BitVec 10) (h : b &&& 0b1110 ≠ 0) : Perm where
  r := b.getLsbD 1
  w := b.getLsbD 2
  x := b.getLsbD 3
  u := b.getLsbD 4
  rest := ⟨b.toNat / 32, by have := b.isLt; omega⟩
  leaf := by
    revert b
    decide +kernel

theorem flags_permOf (b : BitVec 10) (h : b &&& 0b1110 ≠ 0) : (permOf b h).flags = b ||| 1 := by
  revert b
  unfold Perm.flags permOf
  decide +kernel

theorem flags_clear (p : Perm) :
    ({ p with u := false } : Perm).flags = p.flags &&& ~~~0b10000 := by
  obtain ⟨r, w, x, u, rest, -⟩ := p
  revert r w x u rest
  unfold Perm.flags
  decide +kernel

theorem flags_ne_one (p : Perm) : p.flags ≠ 1 := by
  obtain ⟨r, w, x, u, rest, h⟩ := p
  revert r w x u rest
  unfold Perm.flags
  decide +kernel

theorem flags_and_one (p : Perm) : p.flags &&& 1 = 1 := by
  obtain ⟨r, w, x, u, rest, -⟩ := p
  revert r w x u rest
  unfold Perm.flags
  decide +kernel

/-- The number of pages that `mappages` maps. -/
def mapCount (va size : ℕ) : ℕ :=
  (pgRoundDown ((va + size + 2 ^ 64 - 1) % 2 ^ 64) + 2 ^ 64 - pgRoundDown va) % 2 ^ 64 / pgsize + 1

theorem mapCount_eq {va size : ℕ} (hsize : 0 < size) (h : va + size ≤ 2 ^ 64) :
    mapCount va size = (va + size - 1) / pgsize - va / pgsize + 1 := by
  unfold mapCount pgRoundDown pgsize
  omega

def Frame.number : Frame → ℕ
  | .trampoline => 0
  | .page pa => pa

/-- The word of a leaf entry. -/
def leafWord : Option Pte → U64
  | none => 0
  | some e => Ram.entry e.pa.number e.perm.flags

/-- The word of an entry that points to a page of the table. -/
def childWord {α : Type} : Option (Node α) → U64
  | none => 0
  | some c => Ram.entry c.page 1

/-- The page of the table that a sequence of indices leads to. -/
def Node.pageAt (t : Pagetable) : List (Fin 512) → Option ℕ
  | [] => some t.page
  | [i] => (t.entry i).map Node.page
  | [i, j] => (t.entry i).bind fun t₁ => (t₁.entry j).map Node.page
  | _ => none

/-- The words of that page. -/
def Node.wordAt (t : Pagetable) : List (Fin 512) → Fin 512 → U64
  | [], i => childWord (t.entry i)
  | [i], j => childWord ((t.entry i).bind fun t₁ => t₁.entry j)
  | [i, j], k => leafWord ((t.entry i).bind fun t₁ => (t₁.entry j).bind fun t₀ => t₀.entry k)
  | _, _ => 0

/-- `word` holds the table `t`, each of whose pages is in one place; `S` has the pages that
the leaves point to, and no page of the table. -/
structure Shape (word : Page → Fin 512 → U64) (t : Pagetable) (S : Set ℕ) : Prop where
  rep : ∀ q p, t.pageAt q = some p → word p = t.wordAt q
  inj : ∀ q q' p, t.pageAt q = some p → t.pageAt q' = some p → q = q'
  lt : ∀ q p, t.pageAt q = some p → p < 2 ^ 52
  apart : ∀ q p, t.pageAt q = some p → p ∉ S
  leaf : ∀ v < 2 ^ 26, ∀ e, look t v = some e → ∃ pa ∈ S, pa < 2 ^ 52 ∧ e.pa = .page pa

/-- A page is added to the table, at index `i` of the page at `q`. -/
structure Grows (t t' : Pagetable) (q : List (Fin 512)) (i : Fin 512) (p : ℕ) : Prop where
  page : ∀ q', t'.pageAt q' = if q' = q ++ [i] then some p else t.pageAt q'
  word : ∀ q', t'.wordAt q' = if q' = q ++ [i] then fun _ => 0
    else if q' = q then update (t.wordAt q) i (Ram.entry p 1) else t.wordAt q'
  pte : ∀ w, t'.pte w = t.pte w

theorem grows_top {t : Pagetable} {i : Fin 512} (h : t.entry i = none) (p : ℕ) :
    Grows t (t.set i (some (Node.empty _ p))) [] i p := by
  refine ⟨fun q' => ?_, fun q' => ?_, pte_set_child fun j => by simp [h]⟩
  · match q' with
    | [] => simp [Node.pageAt]
    | [k] =>
      by_cases hk : k = i
      · simp [Node.pageAt, hk]
      · simp [Node.pageAt, hk]
    | [k, j] =>
      by_cases hk : k = i
      · simp [Node.pageAt, hk, h]
      · simp [Node.pageAt, hk]
    | _ :: _ :: _ :: _ => simp [Node.pageAt]
  · funext j
    match q' with
    | [] =>
      by_cases hj : j = i
      · simp [Node.wordAt, hj, childWord]
      · simp [Node.wordAt, hj]
    | [k] =>
      by_cases hk : k = i
      · simp [Node.wordAt, hk, childWord]
      · simp [Node.wordAt, hk]
    | [k, l] =>
      by_cases hk : k = i
      · simp [Node.wordAt, hk, h]
      · simp [Node.wordAt, hk]
    | _ :: _ :: _ :: _ => simp [Node.wordAt]

theorem grows_mid {t : Pagetable} {t₁ : Node (Node Pte)} {i j : Fin 512} (h₂ : t.entry i = some t₁)
    (h₁ : t₁.entry j = none) (p : ℕ) :
    Grows t (t.set i (some (t₁.set j (some (Node.empty _ p))))) [i] j p := by
  refine ⟨fun q' => ?_, fun q' => ?_, pte_set_grandchild (fun k => by simp [h₂]) fun k => by simp [h₁]⟩
  · match q' with
    | [] => simp [Node.pageAt]
    | [k] =>
      by_cases hk : k = i
      · simp [Node.pageAt, hk, h₂]
      · simp [Node.pageAt, hk]
    | [k, l] =>
      by_cases hk : k = i
      · by_cases hl : l = j
        · simp [Node.pageAt, hk, hl]
        · simp [Node.pageAt, hk, hl, h₂]
      · simp [Node.pageAt, hk]
    | _ :: _ :: _ :: _ => simp [Node.pageAt]
  · funext l
    match q' with
    | [] =>
      by_cases hl : l = i
      · simp [Node.wordAt, hl, childWord, h₂]
      · simp [Node.wordAt, hl]
    | [k] =>
      by_cases hk : k = i
      · by_cases hl : l = j
        · simp [Node.wordAt, hk, hl, childWord]
        · simp [Node.wordAt, hk, hl, h₂]
      · simp [Node.wordAt, hk]
    | [k, r] =>
      by_cases hk : k = i
      · by_cases hr : r = j
        · simp [Node.wordAt, hk, hr, leafWord]
        · simp [Node.wordAt, hk, hr, h₂]
      · simp [Node.wordAt, hk]
    | _ :: _ :: _ :: _ => simp [Node.wordAt]

variable {word : Page → Fin 512 → U64} {t t' : Pagetable} {S S' : Set ℕ}

theorem Shape.congr (h : Shape word t S) {word' : Page → Fin 512 → U64}
    (hword : ∀ q p, t.pageAt q = some p → word' p = word p) : Shape word' t S :=
  { h with rep := fun q p hq => by rw [hword q p hq, h.rep q p hq] }

theorem Shape.mono (h : Shape word t S) (hapart : ∀ q p, t.pageAt q = some p → p ∉ S')
    (hleaf : ∀ v < 2 ^ 26, ∀ e, look t v = some e → ∃ pa ∈ S', pa < 2 ^ 52 ∧ e.pa = .page pa) :
    Shape word t S' := { h with apart := hapart, leaf := hleaf }

theorem Shape.grow (h : Shape word t S) {q : List (Fin 512)} {i : Fin 512} {p₀ p : ℕ}
    (hq : t.pageAt q = some p₀) (hg : Grows t t' q i p) (hp : p < 2 ^ 52) (hS : p ∉ S)
    (hfresh : ∀ q, t.pageAt q ≠ some p) :
    Shape (Ram.put (update word p fun _ => 0) p₀ i (Ram.entry p 1)) t' S := by
  have hqi : q ≠ q ++ [i] := by simp
  have hne : p₀ ≠ p := fun he => hfresh q (he ▸ hq)
  refine ⟨fun q' p' hq' => ?_, fun q' q'' p' hq' hq'' => ?_, fun q' p' hq' => ?_, fun q' p' hq' => ?_,
    fun v hv e he => h.leaf v hv e ((hg.pte _).symm.trans he)⟩
  · rw [hg.page] at hq'
    rw [hg.word]
    unfold Ram.put
    split_ifs at hq' ⊢ with hnew hsame
    · obtain rfl := Option.some.inj hq'
      rw [update_of_ne hne.symm, update_self]
    · subst hsame
      obtain rfl := Option.some.inj (hq.symm.trans hq')
      rw [update_self, update_of_ne hne, h.rep _ _ hq]
    · have hp' : p' ≠ p₀ := fun he => hsame (h.inj _ _ _ hq' (he ▸ hq))
      have hold : p' ≠ p := fun he => hfresh q' (he ▸ hq')
      rw [update_of_ne hp', update_of_ne hold, h.rep _ _ hq']
  · rw [hg.page] at hq' hq''
    split_ifs at hq' hq'' with hnew hnew' hnew'
    · rw [hnew, hnew']
    · exact absurd (Option.some.inj hq' ▸ hq'') (hfresh q'')
    · exact absurd (Option.some.inj hq'' ▸ hq') (hfresh q')
    · exact h.inj _ _ _ hq' hq''
  · rw [hg.page] at hq'
    split_ifs at hq'
    · exact Option.some.inj hq' ▸ hp
    · exact h.lt _ _ hq'
  · rw [hg.page] at hq'
    split_ifs at hq'
    · exact Option.some.inj hq' ▸ hS
    · exact h.apart _ _ hq'

theorem pageAt_leafNode {t₀ : Node Pte} {va : ℕ} (h : t.leafNode va = some t₀) :
    t.pageAt [px 2 va, px 1 va] = some t₀.page := by
  obtain ⟨t₁, h₂, h₁⟩ := Option.bind_eq_some_iff.mp h
  simp [Node.pageAt, h₂, h₁]

theorem wordAt_leafNode (t : Pagetable) (va : ℕ) :
    t.wordAt [px 2 va, px 1 va] (px 0 va) = leafWord (t.pte va) := rfl

theorem pageAt_setPte (t : Pagetable) (va : ℕ) (e : Option Pte) (q : List (Fin 512)) :
    (t.setPte va e).pageAt q = t.pageAt q := by
  unfold Node.setPte
  cases h₂ : t.entry (px 2 va) with
  | none => rfl
  | some t₁ =>
    cases h₁ : t₁.entry (px 1 va) with
    | none => simp only [h₁]
    | some t₀ =>
      simp only [h₁]
      match q with
      | [] => simp [Node.pageAt]
      | [k] =>
        by_cases hk : k = px 2 va
        · simp [Node.pageAt, hk, h₂]
        · simp [Node.pageAt, hk]
      | [k, l] =>
        by_cases hk : k = px 2 va
        · by_cases hl : l = px 1 va
          · simp [Node.pageAt, hk, hl, h₂, h₁]
          · simp [Node.pageAt, hk, hl, h₂]
        · simp [Node.pageAt, hk]
      | _ :: _ :: _ :: _ => simp [Node.pageAt]

theorem page_setPte (t : Pagetable) (va : ℕ) (e : Option Pte) : (t.setPte va e).page = t.page :=
  Option.some.inj (pageAt_setPte t va e [])

theorem wordAt_setPte {va : ℕ} (h : (t.leafNode va).isSome = true) (e : Option Pte) (q : List (Fin 512)) :
    (t.setPte va e).wordAt q = if q = [px 2 va, px 1 va] then
      update (t.wordAt q) (px 0 va) (leafWord e) else t.wordAt q := by
  obtain ⟨t₁, t₀, h₂, h₁⟩ := exists_of_leafNode h
  rw [setPte_eq h₂ h₁]
  funext r
  match q with
  | [] =>
    by_cases hr : r = px 2 va
    · simp [Node.wordAt, hr, h₂, childWord]
    · simp [Node.wordAt, hr]
  | [k] =>
    by_cases hk : k = px 2 va
    · by_cases hr : r = px 1 va
      · simp [Node.wordAt, hk, hr, h₂, h₁, childWord]
      · simp [Node.wordAt, hk, hr, h₂]
    · simp [Node.wordAt, hk]
  | [k, l] =>
    by_cases hk : k = px 2 va
    · by_cases hl : l = px 1 va
      · by_cases hr : r = px 0 va
        · simp [Node.wordAt, hk, hl, hr]
        · simp [Node.wordAt, hk, hl, hr, h₂, h₁]
      · simp [Node.wordAt, hk, hl, h₂]
    · simp [Node.wordAt, hk]
  | _ :: _ :: _ :: _ => simp [Node.wordAt]

theorem px_round (level va : ℕ) : px level (va / pgsize * pgsize) = px level va := by
  apply Fin.ext
  rw [px_mul]
  rfl

theorem pte_round (t : Pagetable) (va : ℕ) : t.pte (va / pgsize * pgsize) = t.pte va := by
  unfold Node.pte
  simp only [px_round]

theorem Shape.leaf_pte (h : Shape word t S) {va : ℕ} {e : Pte} (hva : va < maxva)
    (he : t.pte va = some e) : ∃ pa ∈ S, pa < 2 ^ 52 ∧ e.pa = .page pa := by
  refine h.leaf (va / pgsize) ?_ e ((pte_round t va).trans he)
  unfold maxva at hva
  unfold pgsize
  omega

theorem look_setPte_round {va w : ℕ} (hva : va < maxva) (h : (t.leafNode va).isSome = true)
    (e : Option Pte) (hw : w < vpns) :
    look (t.setPte va e) w = if w = va / pgsize then e else look t w := by
  have hround : t.setPte va e = t.setPte (va / pgsize * pgsize) e := by
    unfold Node.setPte
    simp only [px_round]
  have hsome : (t.leafNode (va / pgsize * pgsize)).isSome = true := by
    unfold Node.leafNode at h ⊢
    rwa [px_round, px_round]
  have hv : va / pgsize < vpns := by
    unfold maxva at hva
    unfold vpns pgsize
    omega
  rw [hround, look_setPte hv hw hsome]

theorem Shape.setPte (h : Shape word t S) {va : ℕ} {t₀ : Node Pte} (hva : va < maxva)
    (ht₀ : t.leafNode va = some t₀) (e : Option Pte)
    (he : ∀ e', e = some e' → ∃ pa ∈ S, pa < 2 ^ 52 ∧ e'.pa = .page pa) :
    Shape (Ram.put word t₀.page (px 0 va) (leafWord e)) (t.setPte va e) S := by
  have hsome : (t.leafNode va).isSome = true := by rw [ht₀]; rfl
  have hpage := pageAt_leafNode ht₀
  refine ⟨fun q p hq => ?_, fun q q' p hq hq' => ?_, fun q p hq => ?_, fun q p hq => ?_,
    fun w hw e' he' => ?_⟩
  · rw [pageAt_setPte] at hq
    rw [wordAt_setPte hsome, Ram.put]
    split_ifs with hsame
    · subst hsame
      obtain rfl := Option.some.inj (hpage.symm.trans hq)
      rw [update_self, h.rep _ _ hq]
    · have hne : p ≠ t₀.page := fun hp => hsame (h.inj _ _ _ hq (hp ▸ hpage))
      rw [update_of_ne hne, h.rep _ _ hq]
  · rw [pageAt_setPte] at hq hq'
    exact h.inj _ _ _ hq hq'
  · rw [pageAt_setPte] at hq
    exact h.lt _ _ hq
  · rw [pageAt_setPte] at hq
    exact h.apart _ _ hq
  · rw [look_setPte_round hva hsome e (by unfold vpns; omega)] at he'
    split_ifs at he' with hwv
    · exact he e' he'
    · exact h.leaf w hw e' he'

end Xv6.Vm
