import Xv6.Kernel.Vm.Usercopy
import Xv6.Kernel.Vm.Uvm

/-! The memory that user code sees through a page table, and what stores and the calls that change
the table do to it. -/
namespace Xv6.Vm
open Lib Function

/-- What user code finds at each address, and 0 where it may not look. -/
def userMem (t : Pagetable) (m : Mem) : Bytes := fun a => (byteAt t m a).getD 0

/-- No page stands at two addresses that user code may use. -/
def Distinct (t : Pagetable) : Prop :=
  ∀ a b pa, walkaddr t (pgRoundDown a) = some pa → walkaddr t (pgRoundDown b) = some pa → pgRoundDown a = pgRoundDown b

/-- The byte at `k` in the page of an entry. -/
def pageByte (m : Mem) (k : ℕ) : Option Pte → UInt8
  | some e => if e.perm.u then m.data e.pa k else 0
  | none => 0

section
variable {rights : Perm → Prop} {t t' : Pagetable} {m m' : Mem} {k n v a : ℕ} {top : Set ℕ}

theorem div_lt_vpns (h : a < maxva) : a / pgsize < vpns := by
  unfold maxva at h
  unfold vpns pgsize
  omega

theorem walkaddr_eq_some {pa : Frame} :
    walkaddr t (pgRoundDown a) = some pa ↔ a < maxva ∧ ∃ perm, look t (a / pgsize) = some ⟨pa, perm⟩ ∧ perm.u = true := by
  have hlook : t.pte (pgRoundDown a) = look t (a / pgsize) := rfl
  unfold walkaddr
  rw [← pgRoundDown_lt_maxva, hlook]
  by_cases hmax : maxva ≤ pgRoundDown a
  · rw [if_pos hmax]
    simp [not_lt.mpr hmax]
  · rw [if_neg hmax]
    cases look t (a / pgsize) with
    | none => simp
    | some e =>
      obtain ⟨f, perm⟩ := e
      cases hu : perm.u <;> simp [hu, not_le.mp hmax]

theorem userMem_eq (t : Pagetable) (m : Mem) (a : ℕ) :
    userMem t m a = if a < maxva then pageByte m (a % pgsize) (look t (a / pgsize)) else 0 := by
  unfold userMem byteAt
  cases hw : walkaddr t (pgRoundDown a) with
  | some pa =>
    obtain ⟨hlt, perm, hl, hu⟩ := walkaddr_eq_some.mp hw
    rw [if_pos hlt, hl, pageByte, if_pos hu]
    rfl
  | none =>
    split_ifs with hlt
    · cases hl : look t (a / pgsize) with
      | none => rfl
      | some e =>
        obtain ⟨f, perm⟩ := e
        have hu : ¬ perm.u = true := fun hu => by
          have := walkaddr_eq_some.mpr ⟨hlt, perm, hl, hu⟩
          rw [hw] at this
          cases this
        rw [pageByte, if_neg hu]
        rfl
    · rfl

theorem byteAt_of_accessible (h : Accessible t a) : byteAt t m a = some (userMem t m a) := by
  obtain ⟨b, hb⟩ := Option.isSome_iff_exists.mp ((isSome_byteAt (m := m) a).mpr h)
  rw [userMem, hb]
  rfl

theorem not_nodup_user {w : ℕ} {q : Page} {perm perm' : Perm} (hne : v ≠ w) (hv : v < userPages) (hw : w < userPages)
    (hlv : look t v = some ⟨.page q, perm⟩) (hlw : look t w = some ⟨.page q, perm'⟩) : ¬ (user t).Nodup := by
  have hleafv : leaf t v = {q} := by simp [leaf, hlv]
  have hleafw : leaf t w = {q} := by simp [leaf, hlw]
  have hmem : w ∈ (Finset.range userPages).erase v := Finset.mem_erase.mpr ⟨hne.symm, Finset.mem_range.mpr hw⟩
  obtain ⟨rest, hrest⟩ : ∃ rest : Multiset Page, user t = {q} + ({q} + rest) := by
    rw [user_eq, ← Finset.add_sum_erase _ _ (Finset.mem_range.mpr hv), ← Finset.add_sum_erase _ _ hmem, hleafv, hleafw]
    exact ⟨_, rfl⟩
  rw [hrest]
  intro hnd
  exact Multiset.disjoint_left.mp (Multiset.nodup_add.mp hnd).2.2 (Multiset.mem_singleton_self q)
    (Multiset.mem_add.mpr (.inl (Multiset.mem_singleton_self q)))

theorem Space.page_of_walkaddr (h : Space rights t n top) {pa : Frame} (hw : walkaddr t (pgRoundDown a) = some pa) :
    a / pgsize < userPages ∧ ∃ q perm, pa = .page q ∧ look t (a / pgsize) = some ⟨.page q, perm⟩ := by
  obtain ⟨hmax, perm, hl, hu⟩ := walkaddr_eq_some.mp hw
  have hlt := div_lt_vpns hmax
  have hup : a / pgsize < userPages := by
    by_contra hge
    have := h.closed _ hlt (not_lt.mp hge) _ hl
    rw [hu] at this
    cases this
  obtain ⟨q, perm', hl'⟩ : ∃ q perm', look t (a / pgsize) = some ⟨.page q, perm'⟩ := by
    rcases (h.mapped _ hlt).mp (by rw [hl]; rfl) with hn | htop
    · obtain ⟨q, perm', hl', -⟩ := h.page _ hn
      exact ⟨q, perm', hl'⟩
    · exact absurd (h.above _ htop) (not_le.mpr hup)
  rw [hl] at hl'
  obtain ⟨rfl, rfl⟩ := Pte.mk.inj (Option.some.inj hl')
  exact ⟨hup, q, perm, rfl, hl⟩

theorem Space.userMem_congr (h : Space rights t n top)
    (hdata : ∀ q ∈ user t, m'.data (.page q) = m.data (.page q)) : userMem t m' = userMem t m := by
  funext a
  unfold userMem byteAt
  cases hw : walkaddr t (pgRoundDown a) with
  | none => rfl
  | some pa =>
    obtain ⟨hup, q, perm, rfl, hl⟩ := h.page_of_walkaddr hw
    rw [Option.map_some, Option.map_some, hdata q (mem_user hup hl)]

theorem Space.distinct (h : Space rights t n top) (hnd : (user t).Nodup) : Distinct t := by
  intro a b pa ha hb
  obtain ⟨hau, q, perm, rfl, hla⟩ := h.page_of_walkaddr ha
  obtain ⟨hbu, q', perm', hq, hlb⟩ := h.page_of_walkaddr hb
  obtain rfl := Frame.page.inj hq
  by_contra hne
  have hdiv : a / pgsize ≠ b / pgsize := fun heq => hne (by unfold pgRoundDown; rw [heq])
  exact absurd hnd (not_nodup_user hdiv hau hbu hla hlb)

theorem Apart.distinct (h : Apart t m) (hs : Space rights t n top) : Distinct t :=
  hs.distinct (Multiset.nodup_add.mp h.user).2.1

theorem userMem_store (hd : Distinct t) (ha : Accessible t a) (b : UInt8) :
    userMem t (m.store t a b) = update (userMem t m) a b := by
  obtain ⟨x, hx⟩ := Option.isSome_iff_exists.mp ((isSome_byteAt (m := m) a).mpr ha)
  obtain ⟨pa, hw, -⟩ := Option.map_eq_some_iff.mp hx
  funext c
  unfold userMem byteAt Mem.store
  rw [hw]
  dsimp only
  by_cases hc : c = a
  · subst hc
    rw [hw, update_self]
    simp [Mem.write]
  · rw [update_of_ne hc]
    cases hwc : walkaddr t (pgRoundDown c) with
    | none => rfl
    | some pc =>
      by_cases hp : pc = pa
      · subst hp
        have hround := hd c a pc hwc hw
        have hmod : c % pgsize ≠ a % pgsize := by
          have h₁ := Nat.div_add_mod' c pgsize
          have h₂ := Nat.div_add_mod' a pgsize
          unfold pgRoundDown at hround
          omega
        simp [Mem.write, update_of_ne hmod]
      · simp [Mem.write, update_of_ne hp]

theorem userMem_storeBytes (hd : Distinct t) (ha : ∀ i < n, Accessible t (a + i)) (src : Bytes) :
    userMem t (m.storeBytes t a src n) = (userMem t m).blit a n src := by
  induction n with
  | zero => rw [Mem.storeBytes, Bytes.blit_zero]
  | succ n ih =>
    rw [Mem.storeBytes, userMem_store hd (ha n (Nat.lt_succ_self n)), ih fun i hi => ha i (by omega), update_blit]

theorem userMem_grow (h : Space rights t k top) (h' : Space rights t' n top) (hsame : Same k t m t' m')
    (hzero : Zeroed k n t' m') : userMem t' m' = userMem t m := by
  funext a
  rw [userMem_eq, userMem_eq]
  split_ifs with hmax
  · have hv := div_lt_vpns hmax
    by_cases hk : a / pgsize < k
    · rw [hsame.entry_of_lt hk]
      cases hl : look t (a / pgsize) with
      | none => rfl
      | some e => rw [pageByte, pageByte, hsame.data _ hk e hl]
    · by_cases hn : a / pgsize < n
      · obtain ⟨pa, hl, hd⟩ := hzero _ (not_lt.mp hk) hn
        have hup := lt_of_lt_of_le hn h'.le
        rw [h.look_none hv (not_lt.mp hk) fun htop => absurd (h.above _ htop) (not_le.mpr hup), hl, pageByte, hd]
        simp [pageByte]
      · by_cases hup : userPages ≤ a / pgsize
        · rw [hsame.entry _ hv (.inr hup)]
          cases hl : look t (a / pgsize) with
          | none => rfl
          | some e => simp [pageByte, h.closed _ hv hup e hl]
        · rw [h.look_none hv (not_lt.mp hk) fun htop => hup (h.above _ htop),
            h'.look_none hv (not_lt.mp hn) fun htop => hup (h'.above _ htop)]
          rfl
  · rfl

theorem userMem_above (h : Space rights t n top) (ha : n ≤ a / pgsize) : userMem t m a = 0 := by
  rw [userMem_eq]
  split_ifs with hmax
  · have hv := div_lt_vpns hmax
    by_cases hup : userPages ≤ a / pgsize
    · cases hl : look t (a / pgsize) with
      | none => rfl
      | some e => simp [pageByte, h.closed _ hv hup e hl]
    · rw [h.look_none hv ha fun htop => hup (h.above _ htop)]
      rfl
  · rfl

theorem userMem_empty (h : Space rights t 0 top) : userMem t m = fun _ => 0 :=
  funext fun _ => userMem_above h (Nat.zero_le _)

theorem userMem_clear (hlook : ∀ w < vpns, w ≠ v → look t' w = look t w)
    (hclosed : ∀ e, look t' v = some e → e.perm.u = false) (hzero : ∀ a, a / pgsize = v → userMem t m a = 0) :
    userMem t' m = userMem t m := by
  funext a
  by_cases hv : a / pgsize = v
  · rw [hzero a hv, userMem_eq]
    split_ifs
    · rw [hv]
      cases hl : look t' v with
      | none => rfl
      | some e => simp [pageByte, hclosed e hl]
    · rfl
  · rw [userMem_eq, userMem_eq]
    split_ifs with hmax
    · rw [hlook _ (div_lt_vpns hmax) hv]
    · rfl

theorem accessible_of_look (hmax : a < maxva) {e : Pte} (hl : look t (a / pgsize) = some e) (hu : e.perm.u = true) :
    Accessible t a := by
  have hpte : t.pte a = some e := by
    rw [← pte_pgRoundDown]
    exact hl
  exact ⟨hmax, e, hpte, hu⟩

end

end Xv6.Vm
