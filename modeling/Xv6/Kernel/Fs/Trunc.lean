import Xv6.Kernel.Fs.Write

/-! `itrunc`: the blocks of the file are freed, one slot after the other. -/
namespace Xv6.Fs
open Lib Function

section
variable {sb : Superblock} {s s' : State} {i : Fin ninode}

/-- `bm` is the bitmap with the blocks of the first `m` slots of the file freed. -/
def Freed (s : State) (i : Fin ninode) (m : ℕ) (bm : ℕ → Bool) : Prop :=
  ∀ b, bm b = true ↔ s.bitmap b = true ∧ ∀ k < m, s.view.slot (s.inode i).inum k = b → b = 0

theorem Freed.zero (s : State) (i : Fin ninode) : Freed s i 0 s.bitmap :=
  fun _ => ⟨fun h => ⟨h, fun _ hk => absurd hk (by omega)⟩, fun h => h.1⟩

theorem Freed.empty {m : ℕ} {bm : ℕ → Bool} (h : Freed s i m bm) (h0 : s.view.slot (s.inode i).inum m = 0) :
    Freed s i (m + 1) bm := by
  intro b
  rw [h b]
  refine and_congr_right fun _ => ⟨fun hall k hk hkb => ?_, fun hall k hk => hall k (by omega)⟩
  rcases Nat.lt_succ_iff_lt_or_eq.mp hk with hk | rfl
  · exact hall k hk hkb
  · exact hkb.symm.trans h0

theorem Writable.freed {m : ℕ} {bm : ℕ → Bool} (hw : Writable sb s i) (hm : m ≤ maxfile) (h : Freed s i m bm)
    (hne : s.view.slot (s.inode i).inum m ≠ 0) : bm (s.view.slot (s.inode i).inum m) = true ∧
      Freed s i (m + 1) (update bm (s.view.slot (s.inode i).inum m) false) := by
  set b₀ := s.view.slot (s.inode i).inum m with hb₀
  refine ⟨(h b₀).mpr ⟨(hw.owned.used _ _ hw.live hm hne).2.2, fun k hk hkb => ?_⟩, fun b => ?_⟩
  · have := (hw.owned.inj _ m _ k hw.live hw.live hm (by omega) hne hkb.symm).2
    omega
  · rw [update_apply]
    split_ifs with hb
    · subst hb
      exact ⟨False.elim, fun hall => absurd (hall.2 m (by omega) rfl) hne⟩
    · rw [h b]
      refine and_congr_right fun _ => ⟨fun hall k hk hkb => ?_, fun hall k hk => hall k (by omega)⟩
      rcases Nat.lt_succ_iff_lt_or_eq.mp hk with hk | rfl
      · exact hall k hk hkb
      · exact absurd hkb.symm hb

theorem wp_bfree {E : Halt → Prop} {Q : PUnit → State → Prop} {b : ℕ} (ht : s.trans = true)
    (hb : s.bitmap b = true) : Wp E (bfree sb b) s Q ↔ Q ⟨⟩ ((s.setBit b false).log (sb.bblock b)) := by
  have ht' : (s.setBit b false).trans = true := ht
  simp [bfree, hb, wp_logWrite ht']

/-- Part of `itrunc` is done: the first `m` slots are free, the first `k` addresses 0. -/
structure Truncating (i : Fin ninode) (s : State) (k m : ℕ) (s' : State) : Prop where
  touches : State.Touches i s s'
  data : s'.data = s.data
  din : s'.din i = { s.din i with addrs := fun l => if l < k then 0 else (s.din i).addrs l }
  freed : Freed s i m s'.bitmap

theorem State.touches_setBit (s : State) (i : Fin ninode) (b c : ℕ) (u : Bool) :
    State.Touches i s ((s.setBit b u).log c) where
  dinode _ _ := rfl
  trans := rfl
  inode := (update_eq_self i s.inode).symm

theorem Truncating.addrs {k m l : ℕ} (h : Truncating i s k m s') (hl : k ≤ l) :
    (s'.din i).addrs l = (s.din i).addrs l := by
  rw [h.din]
  exact if_neg (by omega)

theorem zeroed_succ {addrs a : ℕ → ℕ} {k : ℕ} (h0 : addrs k = 0)
    (h : ∀ l, l ≠ k → addrs l = if l < k then 0 else a l) : addrs = fun l => if l < k + 1 then 0 else a l := by
  funext l
  by_cases hlk : l = k
  · rw [hlk, h0, if_pos (by omega)]
  · rw [h l hlk]
    by_cases hlt : l < k
    · rw [if_pos hlt, if_pos (by omega)]
    · rw [if_neg hlt, if_neg (by omega)]

theorem Truncating.zero_addr {k m n b c : ℕ} (h : Truncating i s k m s')
    (hf : Freed s i n (update s'.bitmap b false)) :
    Truncating i s (k + 1) n
      (((s'.setBit b false).log c).setDin i
        { s'.din i with addrs := update (s'.din i).addrs k 0 }) := by
  refine ⟨(h.touches.comp (s'.touches_setBit i _ _ _)).comp (State.touches_setDin _ i _), h.data, ?_, hf⟩
  have ha := zeroed_succ (a := (s.din i).addrs) (update_self k 0 (s'.din i).addrs) fun l hl => by
    rw [update_of_ne hl, h.din]
  rw [State.din_setDin, ← ha, h.din]

theorem Truncating.skip_addr {k m n : ℕ} (h : Truncating i s k m s') (h0 : (s.din i).addrs k = 0)
    (hf : Freed s i n s'.bitmap) : Truncating i s (k + 1) n s' := by
  refine ⟨h.touches, h.data, ?_, hf⟩
  have ha := zeroed_succ (a := (s.din i).addrs) ((h.addrs le_rfl).trans h0) fun l _ => by rw [h.din]
  rw [← ha, h.din]

theorem wp_itruncDirect {E : Halt → Prop} {k : ℕ} (hw : Writable sb s i) (ht : s.trans = true) (hk : k < ndirect)
    (h : Truncating i s k k s') : Wp E (itruncDirect sb i k) s' fun _ s'' => Truncating i s (k + 1) (k + 1) s'' := by
  have hslot : s.view.slot (s.inode i).inum k = (s.din i).addrs k := by
    rw [View.slot, hw.has.node, Dinode.slot_direct _ _ hk]
  have hmax := (lt_maxfile hk).le
  unfold itruncDirect
  rw [wp_bind, wp_get, h.addrs le_rfl, ← hslot]
  split_ifs with hne
  · obtain ⟨hb, hf⟩ := hw.freed hmax h.freed hne
    have ht' : s'.trans = true := h.touches.trans.trans ht
    rw [wp_bind, wp_bfree ht' hb, wp_modify]
    exact h.zero_addr hf
  · rw [wp_pure]
    rw [not_not] at hne
    exact h.skip_addr (hslot.symm.trans hne) (h.freed.empty hne)

theorem Freed.empties {m n : ℕ} {bm : ℕ → Bool} (h : Freed s i m bm) (hmn : m ≤ n)
    (h0 : ∀ k, m ≤ k → k < n → s.view.slot (s.inode i).inum k = 0) : Freed s i n bm := by
  induction n, hmn using Nat.le_induction with
  | base => exact h
  | succ n hmn ih => exact (ih fun k hk hkn => h0 k hk (by omega)).empty (h0 n hmn (by omega))

theorem wp_itruncEntry {E : Halt → Prop} {k : ℕ} (hw : Writable sb s i) (ht : s.trans = true) (hk : k < nindirect)
    (hind : s.view.slot (s.inode i).inum maxfile ≠ 0) (h : Truncating i s ndirect (ndirect + k) s') {addr : ℕ}
    (haddr : addr = (s.data (s.view.slot (s.inode i).inum maxfile)).get (4 * k) 4) :
    Wp E (if addr ≠ 0 then bfree sb addr else pure ⟨⟩) s' fun _ s'' =>
      Truncating i s ndirect (ndirect + (k + 1)) s'' := by
  have hslot : s.view.slot (s.inode i).inum (ndirect + k) = addr := by
    rw [View.slot_maxfile, hw.has.node] at hind haddr
    rw [haddr, View.slot, hw.has.node, Dinode.slot_entry hk hind]
    rfl
  rw [← hslot]
  split_ifs with hne
  · obtain ⟨hb, hf⟩ := hw.freed (entry_lt_maxfile hk).le h.freed hne
    rw [wp_bfree (h.touches.trans.trans ht) hb]
    exact ⟨h.touches.comp (s'.touches_setBit i _ _ _), h.data, h.din, hf⟩
  · rw [wp_pure]
    exact ⟨h.touches, h.data, h.din, h.freed.empty (not_not.mp hne)⟩

/-- What `itrunc` does. -/
structure Truncates (sb : Superblock) (i : Fin ninode) (s s' : State) : Prop where
  touches : State.Touches i s s'
  data : s'.data = s.data
  din : s'.din i = { s.din i with addrs := fun l => if l ≤ ndirect then 0 else (s.din i).addrs l, size := 0 }
  saved : s'.dinode (s.inode i).inum = s'.din i
  freed : Freed s i (maxfile + 1) s'.bitmap

theorem Truncating.truncates (h : Truncating i s (ndirect + 1) (maxfile + 1) s') (b : ℕ) :
    Truncates sb i s (((s'.setDin i { s'.din i with size := 0 }).setDinode (s'.inode i).inum
      { s'.din i with size := 0 }).log b) where
  touches := by
    have ht := (s'.touches_setDin i { s'.din i with size := 0 }).comp (State.touches_iupdate _ i b)
    rw [(s'.touches_setDin i _).inum, State.din_setDin] at ht
    exact h.touches.comp ht
  data := h.data
  din := by
    show (s'.setDin i { s'.din i with size := 0 }).din i = _
    rw [State.din_setDin, h.din]
    simp only [Nat.lt_succ_iff]
  saved := by
    show update s'.dinode (s'.inode i).inum { s'.din i with size := 0 } (s.inode i).inum =
      (s'.setDin i { s'.din i with size := 0 }).din i
    rw [h.touches.inum, update_self, State.din_setDin]
  freed := h.freed

theorem wp_itrunc {E : Halt → Prop} (hw : Writable sb s i) (ht : s.trans = true) :
    Wp E (itrunc sb i) s fun _ s' => Truncates sb i s s' := by
  unfold itrunc
  rw [wp_bind]
  have hzero : Truncating i s 0 0 s := ⟨.refl i s, rfl, by simp, .zero s i⟩
  refine (wp_forM_range (fun k hk s' h => wp_itruncDirect hw ht hk h) hzero).mono fun _ s₁ h₁ => ?_
  rw [wp_bind, wp_get]
  have ht₁ : s₁.trans = true := h₁.touches.trans.trans ht
  have hind : (s₁.din i).addrs ndirect = s.view.slot (s.inode i).inum maxfile := by
    rw [h₁.addrs le_rfl, View.slot_maxfile, hw.has.node]
  -- what is left once the blocks are free: the size, and the inode goes to the disk
  have hend : ∀ s', Truncating i s (ndirect + 1) (maxfile + 1) s' →
      Wp E (do modify fun s => s.setDin i { s.din i with size := 0 }
               iupdate sb i) s' fun _ s'' => Truncates sb i s s'' := by
    intro s' h
    have ht' : (s'.setDin i { s'.din i with size := 0 }).trans = true := h.touches.trans.trans ht
    rw [wp_bind, wp_modify, wp_iupdate ht', State.din_setDin, (s'.touches_setDin i _).inum]
    exact h.truncates _
  dsimp only
  rw [hind, h₁.data]
  split_ifs with hne
  · rw [wp_bind]
    refine (wp_forM_range (fun k hk s' h => wp_itruncEntry hw ht hk hne h rfl) h₁).mono fun _ s₂ h₂ => ?_
    obtain ⟨hb, hf⟩ := hw.freed le_rfl h₂.freed hne
    rw [wp_bind, wp_bfree (h₂.touches.trans.trans ht) hb, wp_bind, wp_modify]
    exact hend _ (h₂.zero_addr hf)
  · rw [not_not] at hne
    refine hend _ (h₁.skip_addr ?_ (h₁.freed.empties (by decide) fun k hk hk' => ?_))
    · rw [← h₁.addrs le_rfl, hind, hne]
    · rw [View.slot_maxfile] at hne
      rcases Dinode.slot_cases (Nat.lt_succ_iff.mp hk') with hlt | ⟨e, he, rfl⟩ | rfl
      · omega
      · exact Dinode.slot_entry_of_zero he hne
      · rw [View.slot_maxfile, hne]

theorem Truncates.node {j : ℕ} (h : Truncates sb i s s') (hi : s.Has i) (hj : j ≠ (s.inode i).inum) :
    s'.view.node j = s.view.node j := by
  rw [h.touches.node hi, update_of_ne hj]

theorem Truncates.slot_other {j : ℕ} (h : Truncates sb i s s') (hi : s.Has i) (hj : j ≠ (s.inode i).inum) (k : ℕ) :
    s'.view.slot j k = s.view.slot j k := by
  show (s'.view.node j).slot s'.data k = _
  rw [h.node hi hj, h.data]
  rfl

theorem Truncates.slot_own {k : ℕ} (h : Truncates sb i s s') (hi : s.Has i) (hk : k ≤ maxfile) :
    s'.view.slot (s.inode i).inum k = 0 := by
  have hnode : s'.view.node (s.inode i).inum = s'.din i := by rw [h.touches.node hi, update_self]
  have haddr : ∀ l ≤ ndirect, (s'.din i).addrs l = 0 := fun l hl => by
    rw [h.din]
    exact if_pos hl
  rw [View.slot, hnode]
  rcases Dinode.slot_cases hk with hlt | ⟨e, he, rfl⟩ | rfl
  · rw [Dinode.slot_direct _ _ hlt, haddr k hlt.le]
  · exact Dinode.slot_entry_of_zero he (haddr ndirect le_rfl)
  · rw [Dinode.slot_ind, haddr ndirect le_rfl]

theorem Truncates.type (h : Truncates sb i s s') (hi : s.Has i) (j : ℕ) :
    (s'.view.node j).type = (s.view.node j).type := by
  by_cases hj : j = (s.inode i).inum
  · rw [hj, h.touches.node hi, update_self, h.din, hi.node]
  · rw [h.node hi hj]

theorem Truncates.owned (h : Truncates sb i s s') (hw : Writable sb s i) : s'.view.Owned sb := by
  have hi := hw.has
  have hlive := View.live_congr sb (h.type hi)
  -- the slots that are not empty are those of the other inodes
  have hslot : ∀ j k, k ≤ maxfile → s'.view.slot j k ≠ 0 →
      j ≠ (s.inode i).inum ∧ s'.view.slot j k = s.view.slot j k := by
    intro j k hk hne
    have hj : j ≠ (s.inode i).inum := by
      rintro rfl
      exact hne (h.slot_own hi hk)
    exact ⟨hj, h.slot_other hi hj k⟩
  refine ⟨fun b hb => (h.freed b).mpr ⟨hw.owned.metadata b hb, fun k hk hkb => ?_⟩, fun j k hj hk hne => ?_,
    fun j k j' k' hj hj' hk hk' hne heq => ?_⟩
  · by_contra h0
    have := (hw.owned.used _ k hw.live (by omega) (hkb ▸ h0)).1
    omega
  · rw [hlive] at hj
    obtain ⟨hji, heq⟩ := hslot j k hk hne
    rw [heq] at hne ⊢
    obtain ⟨h₁, h₂, h₃⟩ := hw.owned.used j k hj hk hne
    refine ⟨h₁, h₂, (h.freed _).mpr ⟨h₃, fun l hl hlb => ?_⟩⟩
    exact absurd (hw.owned.inj j k _ l hj hw.live hk (by omega) hne hlb.symm).1 hji
  · rw [hlive] at hj hj'
    have h₁ := (hslot j k hk hne).2
    have h₂ := (hslot j' k' hk' (heq ▸ hne)).2
    rw [h₁] at hne heq
    rw [h₂] at heq
    exact hw.owned.inj j k j' k' hj hj' hk hk' hne heq

end

end Xv6.Fs
