import Xv6.Kernel.Fs.View

/-! `balloc` and `bmap`: a block that is missing is filled with a free one. -/
namespace Xv6.Fs
open Lib Function

namespace State

/-- The entry of the cache that has been read for inode `j`. -/
def cached (s : State) (j : ℕ) : Option (Fin ninode) :=
  (List.finRange ninode).find? fun i => 0 < (s.inode i).ref ∧ (s.inode i).valid = true ∧ (s.inode i).inum = j

/-- An inode is what the cache has of it, and what the disk has if it is not cached. -/
def view (s : State) : View where
  node j := ((s.cached j).map s.din).getD (s.dinode j)
  bitmap := s.bitmap
  data := s.data

/-- `i` is the entry of its inode. -/
def Has (s : State) (i : Fin ninode) : Prop := s.cached (s.inode i).inum = some i

variable {s s' : State} {i : Fin ninode} {j : ℕ}

theorem inum_of_cached (h : s.cached j = some i) : (s.inode i).inum = j := by
  have := List.find?_some h
  simp only [decide_eq_true_eq] at this
  exact this.2.2

theorem cached_congr (h : ∀ i, (s'.inode i).ref = (s.inode i).ref ∧ (s'.inode i).valid = (s.inode i).valid ∧
    (s'.inode i).inum = (s.inode i).inum) : s'.cached = s.cached := by
  funext j
  unfold cached
  congr 1
  funext i
  rw [(h i).1, (h i).2.1, (h i).2.2]

theorem Has.node (h : s.Has i) : s.view.node (s.inode i).inum = s.din i := by
  have hc : s.cached (s.inode i).inum = some i := h
  simp only [view, hc, Option.map_some, Option.getD_some]

/-- `s'` differs from `s` in the inode of entry `i`, in the blocks, the bitmap and the transaction. -/
structure Touches (i : Fin ninode) (s s' : State) : Prop where
  dinode : ∀ j, j ≠ (s.inode i).inum → s'.dinode j = s.dinode j
  trans : s'.trans = s.trans
  inode : s'.inode = update s.inode i { s.inode i with din := s'.din i }

theorem Touches.refl (i : Fin ninode) (s : State) : Touches i s s where
  dinode _ _ := rfl
  trans := rfl
  inode := (update_eq_self i s.inode).symm

theorem Touches.inum (h : Touches i s s') : (s'.inode i).inum = (s.inode i).inum := by
  rw [h.inode, update_self]

theorem Touches.comp {s'' : State} (h : Touches i s s') (h' : Touches i s' s'') : Touches i s s'' where
  dinode j hj := (h'.dinode j (by rwa [h.inum])).trans (h.dinode j hj)
  trans := h'.trans.trans h.trans
  inode := by
    have hi := h'.inode
    rw [h.inode] at hi
    simpa using hi

theorem Touches.cached (h : Touches i s s') : s'.cached = s.cached := by
  refine cached_congr fun k => ?_
  rw [h.inode, update_apply]
  split_ifs with hk
  · subst hk
    exact ⟨rfl, rfl, rfl⟩
  · exact ⟨rfl, rfl, rfl⟩

theorem Touches.has (h : Touches i s s') (hi : s.Has i) : s'.Has i := by
  unfold Has
  rw [h.inum, h.cached]
  exact hi

theorem Touches.node (h : Touches i s s') (hi : s.Has i) :
    s'.view.node = update s.view.node (s.inode i).inum (s'.din i) := by
  funext j
  by_cases hj : j = (s.inode i).inum
  · subst hj
    rw [update_self, ← h.inum, (h.has hi).node]
  · rw [update_of_ne hj]
    unfold view
    simp only [h.cached, h.dinode j hj]
    cases hc : s.cached j with
    | none => rfl
    | some k =>
      have hk : k ≠ i := by
        rintro rfl
        exact hj (inum_of_cached hc).symm
      have hin : s'.inode k = s.inode k := by rw [h.inode, update_of_ne hk]
      simp only [Option.map_some, Option.getD_some, din, hin]

end State

namespace View
variable {sb : Superblock} {v : View} {j k b : ℕ}

/-- Block `b` becomes address `k` of inode `j`. -/
def fillAddr (v : View) (j k b : ℕ) : View where
  node := update v.node j { v.node j with addrs := update (v.node j).addrs k b }
  bitmap := update v.bitmap b true
  data := update v.data b fun _ => 0

/-- Block `b` becomes entry `k` of the indirect block of inode `j`. -/
def fillEntry (v : View) (j k b : ℕ) : View where
  node := v.node
  bitmap := update v.bitmap b true
  data := update (update v.data b fun _ => 0) (v.slot j maxfile)
    ((v.data (v.slot j maxfile)).set (4 * k) 4 b)

theorem type_fillAddr (v : View) (j k b i : ℕ) : ((v.fillAddr j k b).node i).type = (v.node i).type := by
  unfold fillAddr
  dsimp only
  rw [update_apply]
  split_ifs with hi
  · rw [hi]
  · rfl

theorem Owned.slot_zero (h : v.Owned sb) (hj : v.Live sb j) (hb : v.bitmap b = false) (l : ℕ) :
    (v.node j).slot (update v.data b fun _ => 0) l = v.slot j l := by
  refine Dinode.slot_congr (fun _ => update_of_ne ?_ _ _) l
  rw [← v.slot_maxfile j]
  exact h.slot_ne hb hj le_rfl

theorem Owned.fills_direct (h : v.Owned sb) (hk : k < ndirect) (hb : v.bitmap b = false) (hlt : b < sb.size) :
    Fills sb v (v.fillAddr j k b) j k b where
  node := v.type_fillAddr j k b
  slot i l hi hl := by
    unfold slot fillAddr
    dsimp only
    by_cases hij : i = j
    · subst hij
      rw [update_self, ← slot, ← h.slot_zero hi hb l]
      have hind : update (v.node i).addrs k b ndirect = (v.node i).addrs ndirect :=
        update_of_ne hk.ne' _ _
      rcases Dinode.slot_cases hl with hl | ⟨e, he, rfl⟩ | rfl
      · rw [Dinode.slot_direct _ _ hl, Dinode.slot_direct _ _ hl]
        dsimp only
        rw [update_apply]
        simp only [true_and]
      · rw [if_neg (by omega)]
        by_cases h0 : (v.node i).addrs ndirect = 0
        · rw [Dinode.slot_entry_of_zero he h0, Dinode.slot_entry_of_zero he (hind.trans h0)]
        · rw [Dinode.slot_entry he h0, Dinode.slot_entry he (ne_of_eq_of_ne hind h0)]
          dsimp only
          rw [hind]
      · rw [if_neg (fun hc => absurd (hc.2 ▸ hk) (by decide)), Dinode.slot_ind, Dinode.slot_ind]
        exact hind
    · rw [update_of_ne hij, h.slot_zero hi hb l, if_neg (fun hc => hij hc.1)]
      rfl
  bitmap := rfl
  free := hb
  lt := hlt

theorem Owned.fills_ind (h : v.Owned sb) (h0 : v.slot j maxfile = 0) (hb : v.bitmap b = false)
    (hlt : b < sb.size) : Fills sb v (v.fillAddr j ndirect b) j maxfile b where
  node := v.type_fillAddr j ndirect b
  slot i l hi hl := by
    unfold slot fillAddr
    dsimp only
    by_cases hij : i = j
    · subst hij
      rw [v.slot_maxfile] at h0
      rw [update_self]
      have hind : update (v.node i).addrs ndirect b ndirect = b := update_self _ _ _
      have hb0 := h.ne_zero_of_free hb
      rcases Dinode.slot_cases hl with hl | ⟨e, he, rfl⟩ | rfl
      · rw [Dinode.slot_direct _ _ hl, Dinode.slot_direct _ _ hl, if_neg fun hc => (lt_maxfile hl).ne hc.2]
        exact update_of_ne hl.ne _ _
      · rw [if_neg fun hc => (entry_lt_maxfile he).ne hc.2, Dinode.slot_entry_of_zero he h0,
          Dinode.slot_entry he (ne_of_eq_of_ne hind hb0)]
        dsimp only
        rw [hind, update_self, Bytes.get_zero]
      · rw [if_pos ⟨rfl, rfl⟩, Dinode.slot_ind]
        exact hind
    · rw [update_of_ne hij, h.slot_zero hi hb l, if_neg (fun hc => hij hc.1)]
      rfl
  bitmap := rfl
  free := hb
  lt := hlt

theorem Owned.fills_entry (h : v.Owned sb) (hj : v.Live sb j) (hind : v.slot j maxfile ≠ 0) (hk : k < nindirect)
    (hb : v.bitmap b = false) (hlt : b < sb.size) : Fills sb v (v.fillEntry j k b) j (ndirect + k) b where
  node _ := rfl
  slot i l hi hl := by
    unfold slot fillEntry
    dsimp only
    by_cases hij : i = j
    · subst hij
      rw [v.slot_maxfile] at hind ⊢
      rcases Dinode.slot_cases hl with hl | ⟨e, he, rfl⟩ | rfl
      · rw [Dinode.slot_direct _ _ hl, Dinode.slot_direct _ _ hl, if_neg (by omega)]
      · rw [Dinode.slot_entry he hind, Dinode.slot_entry he hind, update_self]
        by_cases hek : e = k
        · subst hek
          rw [if_pos ⟨rfl, rfl⟩, Bytes.get_set (hlt.trans_le (sb.size_lt.le.trans (by norm_num)))]
        · rw [if_neg (by omega), Bytes.get_set_of_disjoint (by omega)]
      · rw [if_neg fun hc => (entry_lt_maxfile hk).ne' hc.2, Dinode.slot_ind, Dinode.slot_ind]
    · rw [if_neg (fun hc => hij hc.1), ← slot, ← h.slot_zero hi hb l]
      refine Dinode.slot_congr (fun h0 => update_of_ne (fun heq => ?_) _ _) l
      rw [← v.slot_maxfile] at heq h0
      exact hij (h.inj i maxfile j maxfile hi hj le_rfl le_rfl h0 heq).1
  bitmap := rfl
  free := hb
  lt := hlt

theorem Owned.grow_direct (h : v.Owned sb) (hj : v.Live sb j) (hk : k < ndirect) (h0 : v.slot j k = 0)
    (hb : v.bitmap b = false) (hlt : b < sb.size) : Grow sb j v (v.fillAddr j k b) := by
  refine h.grow (h.fills_direct hk hb hlt) hj (lt_maxfile hk).le h0 (fun i hi => ?_) (fun a ha _ => ?_) fun _ => ?_
  · exact update_of_ne hi _ _
  · refine update_of_ne (fun hab => ?_) _ _
    simp [hab, hb] at ha
  · exact update_self _ _ _

theorem Owned.grow_ind (h : v.Owned sb) (hj : v.Live sb j) (h0 : v.slot j maxfile = 0)
    (hb : v.bitmap b = false) (hlt : b < sb.size) : Grow sb j v (v.fillAddr j ndirect b) := by
  refine h.grow (h.fills_ind h0 hb hlt) hj le_rfl h0 (fun i hi => ?_) (fun a ha _ => ?_) fun hlt => ?_
  · exact update_of_ne hi _ _
  · refine update_of_ne (fun hab => ?_) _ _
    simp [hab, hb] at ha
  · exact absurd hlt (lt_irrefl maxfile)

theorem Owned.grow_entry (h : v.Owned sb) (hj : v.Live sb j) (hind : v.slot j maxfile ≠ 0) (hk : k < nindirect)
    (h0 : v.slot j (ndirect + k) = 0) (hb : v.bitmap b = false) (hlt : b < sb.size) :
    Grow sb j v (v.fillEntry j k b) := by
  have hne : b ≠ v.slot j maxfile := (h.slot_ne hb hj le_rfl).symm
  refine h.grow (h.fills_entry hj hind hk hb hlt) hj (entry_lt_maxfile hk).le h0 (fun _ _ => rfl)
    (fun a ha ha' => ?_) fun _ => ?_
  · refine (update_of_ne ha' _ _).trans (update_of_ne (fun hab => ?_) _ _)
    simp [hab, hb] at ha
  · exact (update_of_ne hne _ _).trans (update_self _ _ _)

theorem ind_ne_zero {l : ℕ} (hl : ndirect ≤ l) (hlt : l < maxfile) (hne : v.slot j l ≠ 0) : v.slot j maxfile ≠ 0 := by
  obtain ⟨e, rfl⟩ := Nat.exists_eq_add_of_le hl
  rw [v.slot_maxfile]
  exact fun h0 => hne (Dinode.slot_entry_of_zero (Nat.lt_of_add_lt_add_left hlt) h0)

/-- The number of free blocks. -/
def nfree (sb : Superblock) (v : View) : ℕ := ((Finset.range sb.size).filter fun b => v.bitmap b = false).card

theorem Fills.nfree {v' : View} (h : Fills sb v v' j k b) : v'.nfree sb + 1 = v.nfree sb := by
  have heq : (Finset.range sb.size).filter (fun a => v'.bitmap a = false) =
      ((Finset.range sb.size).filter fun a => v.bitmap a = false).erase b := by
    ext a
    simp only [Finset.mem_filter, Finset.mem_range, Finset.mem_erase, h.bitmap, update_apply]
    by_cases hab : a = b <;> simp [hab]
  have hmem : b ∈ (Finset.range sb.size).filter fun a => v.bitmap a = false :=
    Finset.mem_filter.mpr ⟨Finset.mem_range.mpr h.lt, h.free⟩
  unfold View.nfree
  rw [heq, Finset.card_erase_of_mem hmem]
  have := Finset.card_pos.mpr ⟨b, hmem⟩
  omega

/-- The blocks that `bmap` has to allocate for block `bn` of `j`. -/
def lack (v : View) (j bn : ℕ) : ℕ :=
  (if v.slot j bn = 0 then 1 else 0) + if ndirect ≤ bn ∧ v.slot j maxfile = 0 then 1 else 0

end View

section
variable {sb : Superblock} {s : State} {i : Fin ninode} {E : Halt → Prop}

namespace State

/-- What `balloc` does with the block it has found. -/
def take (sb : Superblock) (s : State) (b : ℕ) : State :=
  (((s.setBit b true).log (sb.bblock b)).setData b fun _ => 0).log b

def fillAddr (sb : Superblock) (s : State) (i : Fin ninode) (k b : ℕ) : State :=
  (s.take sb b).setDin i { s.din i with addrs := update (s.din i).addrs k b }

def fillEntry (sb : Superblock) (s : State) (i : Fin ninode) (k b : ℕ) : State :=
  let ind := (s.din i).addrs ndirect
  ((s.take sb b).setData ind (((s.take sb b).data ind).set (4 * k) 4 b)).log ind

@[simp] theorem din_setDin (s : State) (i : Fin ninode) (d : Dinode) : (s.setDin i d).din i = d := by
  simp [setDin, setInode, din]

theorem touches_setDin (s : State) (i : Fin ninode) (d : Dinode) : Touches i s (s.setDin i d) where
  dinode _ _ := rfl
  trans := rfl
  inode := by
    rw [din_setDin]
    rfl

theorem touches_take (sb : Superblock) (s : State) (i : Fin ninode) (b : ℕ) : Touches i s (s.take sb b) where
  dinode _ _ := rfl
  trans := rfl
  inode := (update_eq_self i s.inode).symm

theorem touches_fillAddr (sb : Superblock) (s : State) (i : Fin ninode) (k b : ℕ) :
    Touches i s (s.fillAddr sb i k b) := (s.touches_take sb i b).comp ((s.take sb b).touches_setDin i _)

theorem touches_fillEntry (sb : Superblock) (s : State) (i : Fin ninode) (k b : ℕ) :
    Touches i s (s.fillEntry sb i k b) where
  dinode _ _ := rfl
  trans := rfl
  inode := (update_eq_self i s.inode).symm

theorem Has.view_fillAddr (h : s.Has i) (sb : Superblock) (k b : ℕ) :
    (s.fillAddr sb i k b).view = s.view.fillAddr (s.inode i).inum k b := by
  have hn := (s.touches_fillAddr sb i k b).node h
  unfold View.fillAddr
  rw [h.node]
  simp only [fillAddr, din_setDin] at hn ⊢
  rw [← hn]
  rfl

theorem Has.view_fillEntry (h : s.Has i) (sb : Superblock) {k b : ℕ} (hb : (s.din i).addrs ndirect ≠ b) :
    (s.fillEntry sb i k b).view = s.view.fillEntry (s.inode i).inum k b := by
  have hind : s.view.slot (s.inode i).inum maxfile = (s.din i).addrs ndirect := by
    rw [View.slot_maxfile, h.node]
  have hdata : (s.take sb b).data ((s.din i).addrs ndirect) = s.data ((s.din i).addrs ndirect) :=
    update_of_ne hb _ _
  unfold View.fillEntry
  rw [hind]
  simp only [fillEntry, hdata]
  rfl

end State

theorem wp_logWrite {b : ℕ} {Q : PUnit → State → Prop} (ht : s.trans = true) :
    Wp E (logWrite b) s Q ↔ Q ⟨⟩ (s.log b) := by
  simp [logWrite, ht]

theorem wp_balloc {Q : ℕ → State → Prop} (ht : s.trans = true)
    (hE : (∀ b < sb.size, s.bitmap b = true) → E (.panic .ballocOutOfBlocks))
    (hQ : ∀ b < sb.size, s.bitmap b = false → Q b (s.take sb b)) : Wp E (balloc sb) s Q := by
  unfold balloc
  rw [wp_bind, wp_get]
  cases hf : (List.range sb.size).find? fun b => !s.bitmap b with
  | none =>
    rw [wp_throw]
    refine hE fun b hb => ?_
    simpa using List.find?_eq_none.mp hf b (List.mem_range.mpr hb)
  | some b =>
    have hb := List.mem_range.mp (List.mem_of_find?_eq_some hf)
    have hfree : s.bitmap b = false := by simpa using List.find?_some hf
    have h₁ : (s.setBit b true).trans = true := ht
    have h₂ : (((s.setBit b true).log (sb.bblock b)).setData b fun _ => 0).trans = true := ht
    simp only [bzero, wp_bind, wp_set, wp_modify, wp_logWrite h₁, wp_logWrite h₂, wp_pure]
    exact hQ b hb hfree

/-- What `bmap` does for a file of a consistent disk when it returns `addr`. -/
structure Mapped (sb : Superblock) (i : Fin ninode) (bn : ℕ) (s : State) (addr : ℕ) (s' : State) : Prop where
  touches : State.Touches i s s'
  din : s'.din i = { s.din i with addrs := (s'.din i).addrs }
  grow : View.Grow sb (s.inode i).inum s.view s'.view
  slot : ∀ l < maxfile, s'.view.slot (s.inode i).inum l = if l = bn then addr else s.view.slot (s.inode i).inum l
  ne : addr ≠ 0
  same : s.view.slot (s.inode i).inum bn ≠ 0 → s' = s
  nfree : s'.view.nfree sb + s.view.lack (s.inode i).inum bn = s.view.nfree sb

theorem nfree_eq_zero (h : ∀ b < sb.size, s.bitmap b = true) : s.view.nfree sb = 0 := by
  refine Finset.card_eq_zero.mpr (Finset.filter_eq_empty_iff.mpr fun b hb => ?_)
  simp [State.view, h b (Finset.mem_range.mp hb)]

/-- An inode is locked and can be written: it is in use and its entry is the one of the cache. -/
structure Writable (sb : Superblock) (s : State) (i : Fin ninode) : Prop where
  has : s.Has i
  live : s.view.Live sb (s.inode i).inum
  owned : s.view.Owned sb

theorem Writable.mapped_same {bn : ℕ} (h : Writable sb s i) (hbn : bn < maxfile)
    (hne : s.view.slot (s.inode i).inum bn ≠ 0) :
    Mapped sb i bn s (s.view.slot (s.inode i).inum bn) s where
  touches := .refl i s
  din := rfl
  grow := h.owned.grow_refl
  slot l _ := by
    split_ifs with hl
    · rw [hl]
    · rfl
  ne := hne
  same _ := rfl
  nfree := by
    rw [View.lack, if_neg hne, if_neg fun hc => View.ind_ne_zero hc.1 hbn hne hc.2]
    rfl

theorem Writable.mapped_direct {bn b : ℕ} (h : Writable sb s i) (hbn : bn < ndirect)
    (h0 : s.view.slot (s.inode i).inum bn = 0) (hb : s.bitmap b = false) (hlt : b < sb.size) :
    Mapped sb i bn s b (s.fillAddr sb i bn b) := by
  have hf := h.owned.fills_direct (j := (s.inode i).inum) hbn hb hlt
  have hg := h.owned.grow_direct h.live hbn h0 hb hlt
  rw [← h.has.view_fillAddr sb] at hf hg
  refine ⟨s.touches_fillAddr sb i bn b, ?_, hg, fun l hl => ?_, h.owned.ne_zero_of_free hb, ?_, ?_⟩
  · simp [State.fillAddr]
  · rw [hf.slot _ l h.live hl.le]
    simp only [true_and]
  · exact fun hne => absurd h0 hne
  · rw [View.lack, if_pos h0, if_neg (fun hc => absurd hc.1 (by omega))]
    exact hf.nfree

theorem Writable.fillAddr {b : ℕ} (h : Writable sb s i) (h0 : s.view.slot (s.inode i).inum maxfile = 0)
    (hb : s.bitmap b = false) (hlt : b < sb.size) : Writable sb (s.fillAddr sb i ndirect b) i := by
  have hf := h.owned.fills_ind h0 hb hlt
  rw [← h.has.view_fillAddr sb] at hf
  have ht := s.touches_fillAddr sb i ndirect b
  refine ⟨ht.has h.has, ?_, h.owned.fills hf⟩
  rw [ht.inum, View.live_congr sb hf.node]
  exact h.live

theorem Writable.mapped_entry {k b : ℕ} (h : Writable sb s i) (hind : s.view.slot (s.inode i).inum maxfile ≠ 0)
    (hk : k < nindirect) (h0 : s.view.slot (s.inode i).inum (ndirect + k) = 0) (hb : s.bitmap b = false)
    (hlt : b < sb.size) : Mapped sb i (ndirect + k) s b (s.fillEntry sb i k b) := by
  have hf := h.owned.fills_entry h.live hind hk hb hlt
  have hg := h.owned.grow_entry h.live hind hk h0 hb hlt
  have hne : (s.din i).addrs ndirect ≠ b := by
    rw [← h.has.node, ← View.slot_maxfile]
    exact h.owned.slot_ne hb h.live le_rfl
  rw [← h.has.view_fillEntry sb hne] at hf hg
  refine ⟨s.touches_fillEntry sb i k b, rfl, hg, fun l hl => ?_, h.owned.ne_zero_of_free hb, ?_, ?_⟩
  · rw [hf.slot _ l h.live hl.le]
    simp only [true_and]
  · exact fun hne => absurd h0 hne
  · rw [View.lack, if_pos h0, if_neg fun hc => hind hc.2]
    exact hf.nfree

theorem Writable.lack_fillAddr {k a : ℕ} (h : Writable sb s i) (hk : k < nindirect)
    (h0 : s.view.slot (s.inode i).inum maxfile = 0) (ha : s.bitmap a = false) (hlt : a < sb.size) :
    (s.fillAddr sb i ndirect a).view.lack (s.inode i).inum (ndirect + k) + 1 =
      s.view.lack (s.inode i).inum (ndirect + k) := by
  have hf := h.owned.fills_ind h0 ha hlt
  rw [← h.has.view_fillAddr sb] at hf
  have hlt := entry_lt_maxfile hk
  have hslot := hf.slot _ (ndirect + k) h.live hlt.le
  have hind := hf.slot _ maxfile h.live le_rfl
  rw [if_neg fun hc => hlt.ne hc.2] at hslot
  rw [if_pos ⟨rfl, rfl⟩] at hind
  have ha0 : ¬(ndirect ≤ ndirect + k ∧ a = 0) := fun hc => h.owned.ne_zero_of_free ha hc.2
  have hp : ndirect ≤ ndirect + k ∧ s.view.slot (s.inode i).inum maxfile = 0 := ⟨Nat.le_add_right _ _, h0⟩
  rw [View.lack, View.lack, hslot, hind, if_neg ha0, if_pos hp, Nat.add_zero]

theorem Writable.mapped_of_ind {k a b : ℕ} {s' : State} (h : Writable sb s i) (hk : k < nindirect)
    (h0 : s.view.slot (s.inode i).inum maxfile = 0) (ha : s.bitmap a = false) (hlt : a < sb.size)
    (hm : Mapped sb i (ndirect + k) (s.fillAddr sb i ndirect a) b s') : Mapped sb i (ndirect + k) s b s' := by
  have hf := h.owned.fills_ind h0 ha hlt
  have hg := h.owned.grow_ind h.live h0 ha hlt
  rw [← h.has.view_fillAddr sb] at hf hg
  have ht := s.touches_fillAddr sb i ndirect a
  have hz : s.view.slot (s.inode i).inum (ndirect + k) = 0 := by
    rw [View.slot_maxfile] at h0
    exact Dinode.slot_entry_of_zero hk h0
  have hslot : ∀ l < maxfile, (s.fillAddr sb i ndirect a).view.slot (s.inode i).inum l =
      s.view.slot (s.inode i).inum l := fun l hl => by
    rw [hf.slot _ l h.live hl.le, if_neg fun hc => hl.ne hc.2]
  have hmg := hm.grow
  have hms := hm.slot
  have hmf := hm.nfree
  rw [ht.inum] at hmg hms hmf
  refine ⟨ht.comp hm.touches, ?_, hg.trans hmg h.live, fun l hl => ?_, hm.ne, fun hne => absurd hz hne, ?_⟩
  · rw [hm.din]
    simp [State.fillAddr]
  · rw [hms l hl, hslot l hl]
  · have hfree := hf.nfree
    have hlack := h.lack_fillAddr hk h0 ha hlt
    omega

theorem wp_bmapIndirect {k : ℕ} (h : Writable sb s i) (hk : k < nindirect)
    (hind : s.view.slot (s.inode i).inum maxfile ≠ 0)
    (ht : s.trans = true ∨ s.view.slot (s.inode i).inum (ndirect + k) ≠ 0)
    (hE : s.view.nfree sb < s.view.lack (s.inode i).inum (ndirect + k) → E (.panic .ballocOutOfBlocks)) :
    Wp E (bmapIndirect sb i k) s (Mapped sb i (ndirect + k) s) := by
  have hslot : s.view.slot (s.inode i).inum (ndirect + k) = (s.data ((s.din i).addrs ndirect)).get (4 * k) 4 := by
    rw [View.slot_maxfile, h.has.node] at hind
    rw [View.slot, h.has.node, Dinode.slot_entry hk hind]
    rfl
  unfold bmapIndirect
  rw [wp_bind, wp_get]
  dsimp only
  split_ifs with h0
  · rw [← hslot] at h0
    have ht := ht.resolve_right (not_not.mpr h0)
    rw [wp_bind]
    refine wp_balloc ht (fun hfull => hE ?_) fun b hb hfree => ?_
    · rw [nfree_eq_zero hfull, View.lack, if_pos h0]
      omega
    · rw [wp_bind, wp_modify, wp_bind]
      refine (wp_logWrite (by exact ht)).mpr ?_
      rw [wp_pure]
      exact h.mapped_entry hind hk h0 hfree hb
  · rw [wp_pure, ← hslot]
    rw [← hslot] at h0
    exact h.mapped_same (entry_lt_maxfile hk) h0

theorem wp_bmap {bn : ℕ} (h : Writable sb s i) (hbn : bn < maxfile)
    (ht : s.trans = true ∨ s.view.slot (s.inode i).inum bn ≠ 0) :
    Wp (fun e => e = .panic .ballocOutOfBlocks ∧ s.view.nfree sb < s.view.lack (s.inode i).inum bn)
      (bmap sb i bn) s (Mapped sb i bn s) := by
  have hdin := h.has.node
  unfold bmap
  rw [wp_bind, wp_get]
  rcases Dinode.slot_cases hbn.le with hlt | ⟨k, hk, rfl⟩ | rfl
  · rw [if_pos hlt]
    have hslot : s.view.slot (s.inode i).inum bn = (s.din i).addrs bn := by
      rw [View.slot, hdin, Dinode.slot_direct _ _ hlt]
    split_ifs with h0
    · rw [← hslot] at h0
      have ht := ht.resolve_right (not_not.mpr h0)
      rw [wp_bind]
      refine wp_balloc ht (fun hfull => ⟨rfl, ?_⟩) fun b hb hfree => ?_
      · rw [nfree_eq_zero hfull, View.lack, if_pos h0]
        omega
      · rw [wp_bind, wp_modify, wp_pure]
        exact h.mapped_direct hlt h0 hfree hb
    · rw [wp_pure, ← hslot]
      rw [← hslot] at h0
      exact h.mapped_same hbn h0
  · rw [if_neg (by omega), Nat.add_sub_cancel_left, if_pos hk]
    have hslot : s.view.slot (s.inode i).inum maxfile = (s.din i).addrs ndirect := by
      rw [View.slot_maxfile, hdin]
    split_ifs with h0
    · rw [← hslot] at h0
      have hz : s.view.slot (s.inode i).inum (ndirect + k) = 0 := by
        rw [View.slot_maxfile] at h0
        exact Dinode.slot_entry_of_zero hk h0
      have ht := ht.resolve_right (not_not.mpr hz)
      rw [wp_bind]
      refine wp_balloc ht (fun hfull => ⟨rfl, ?_⟩) fun a ha hfree => ?_
      · rw [nfree_eq_zero hfull, View.lack, if_pos hz]
        omega
      · rw [wp_bind, wp_modify]
        have hf := h.owned.fills_ind h0 hfree ha
        rw [← h.has.view_fillAddr sb] at hf
        have hinum := (s.touches_fillAddr sb i ndirect a).inum
        refine (wp_bmapIndirect (h.fillAddr h0 hfree ha) hk ?_ (.inl ht) fun hlack => ⟨rfl, ?_⟩).mono
          fun b s' hm => h.mapped_of_ind hk h0 hfree ha hm
        · rw [hinum, hf.slot _ maxfile h.live le_rfl, if_pos ⟨rfl, rfl⟩]
          exact h.owned.ne_zero_of_free hfree
        · have hn := hf.nfree
          have hl := h.lack_fillAddr hk h0 hfree ha
          rw [hinum] at hlack
          omega
    · rw [← hslot] at h0
      exact wp_bmapIndirect h hk h0 ht fun hlack => ⟨rfl, hlack⟩
  · exact absurd hbn (lt_irrefl maxfile)

end

end Xv6.Fs
