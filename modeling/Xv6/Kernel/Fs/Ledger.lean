import Mathlib.Data.Multiset.Count
import Xv6.Kernel.Fs.Lock
import Xv6.Kernel.Fs.Trunc

/-! The inode cache against a ledger of the references that are held, each with the inode it was
taken for. -/
namespace Xv6.Fs
open Lib Function Multiset

/-- The inodes and blocks as they are on the disk. -/
def State.disk (s : State) : View := ⟨s.dinode, s.bitmap, s.data⟩

/-- Every block in use belongs to one file, no file lacks a block. -/
structure View.Sound (sb : Superblock) (v : View) : Prop where
  owned : v.Owned sb
  exact : ∀ b, sb.nmeta ≤ b → b < sb.size → v.bitmap b = true → ∃ j k, v.Live sb j ∧ k ≤ maxfile ∧ v.slot j k = b
  noHole : ∀ j, v.Live sb j → v.NoHole j

/-- A reference: the entry of the cache and the inode it is for. -/
abbrev Handle := Fin ninode × ℕ

/-- `H` are the references that are held, `L` the entries that are locked, `t` whether a transaction
is open. -/
structure Ok (sb : Superblock) (t : Bool) (L : Finset (Fin ninode)) (H : Multiset Handle) (s : State) : Prop where
  trans : s.trans = t
  ref : ∀ i, (s.inode i).ref = ((H.map Prod.fst).count i : ℕ)
  inum : ∀ i j, (i, j) ∈ H → (s.inode i).inum = j
  unique : ∀ i k j, (i, j) ∈ H → (k, j) ∈ H → i = k
  saved : ∀ i j, (i, j) ∈ H → (s.inode i).valid = true → s.dinode j = s.din i ∧ s.disk.Live sb j
  locked : ∀ i, (s.inode i).locked = true ↔ i ∈ L
  held : ∀ i ∈ L, (s.inode i).valid = true ∧ ∃ j, (i, j) ∈ H
  sound : s.disk.Sound sb

section
variable {sb : Superblock} {t : Bool} {L : Finset (Fin ninode)} {H : Multiset Handle} {s s' : State}
  {i k : Fin ninode} {j : ℕ}

namespace Ok

theorem mem_iff (h : Ok sb t L H s) : 0 < (s.inode i).ref ↔ ∃ j, (i, j) ∈ H := by
  rw [h.ref i, Int.natCast_pos, Multiset.count_pos, Multiset.mem_map]
  constructor
  · rintro ⟨⟨k, j⟩, hm, rfl⟩
    exact ⟨j, hm⟩
  · rintro ⟨j, hm⟩
    exact ⟨_, hm, rfl⟩

theorem ref_nonneg (h : Ok sb t L H s) (i : Fin ninode) : 0 ≤ (s.inode i).ref := by
  rw [h.ref i]
  exact Int.natCast_nonneg _

theorem pos (h : Ok sb t L H s) (hm : (i, j) ∈ H) : 0 < (s.inode i).ref := h.mem_iff.mpr ⟨j, hm⟩

theorem inum_unique (h : Ok sb t L H s) {l : ℕ} (hm : (i, j) ∈ H) (hl : (i, l) ∈ H) : j = l :=
  (h.inum _ _ hm).symm.trans (h.inum _ _ hl)

theorem refd (h : Ok sb t L H s) (hm : (i, j) ∈ H) : Refd s i := by
  refine ⟨h.pos hm, fun k hk hinum => ?_⟩
  obtain ⟨l, hl⟩ := h.mem_iff.mp hk
  rw [h.inum _ _ hl, h.inum _ _ hm] at hinum
  subst hinum
  exact h.unique k i l hl hm

theorem view_eq (h : Ok sb t L H s) : s.view = s.disk := by
  have hnode : s.view.node = s.dinode := by
    funext j
    show ((s.cached j).map s.din).getD (s.dinode j) = _
    cases hc : s.cached j with
    | none => rfl
    | some i =>
      obtain ⟨hr, hv, hi⟩ := State.of_cached hc
      obtain ⟨l, hl⟩ := h.mem_iff.mp hr
      have hlj : l = j := (h.inum _ _ hl).symm.trans hi
      subst hlj
      exact (h.saved i l hl hv).1.symm
  show ({ node := s.view.node, bitmap := s.bitmap, data := s.data } : View) = _
  rw [hnode]
  rfl

theorem valid (h : Ok sb t L H s) (hi : i ∈ L) : (s.inode i).valid = true := (h.held i hi).1

theorem has (h : Ok sb t L H s) (hm : (i, j) ∈ H) (hi : i ∈ L) : s.Has i := (h.refd hm).has (h.valid hi)

theorem din (h : Ok sb t L H s) (hm : (i, j) ∈ H) (hi : i ∈ L) : s.din i = s.disk.node j :=
  (h.saved i j hm (h.valid hi)).1.symm

theorem live (h : Ok sb t L H s) (hm : (i, j) ∈ H) (hv : (s.inode i).valid = true) : s.disk.Live sb j :=
  (h.saved i j hm hv).2

theorem writable (h : Ok sb t L H s) (hm : (i, j) ∈ H) (hi : i ∈ L) : Writable sb s i := by
  refine ⟨h.has hm hi, ?_, ?_⟩
  · rw [h.view_eq, h.inum _ _ hm]
    exact h.live hm (h.valid hi)
  · rw [h.view_eq]
    exact h.sound.owned

theorem setInode (h : Ok sb t L H s) (hm : (i, j) ∈ H) {ip : Inode} {L' : Finset (Fin ninode)}
    (hinum : ip.inum = j) (href : ip.ref = (s.inode i).ref)
    (hsaved : ip.valid = true → s.dinode j = ip.din ∧ s.disk.Live sb j)
    (hL : ∀ k, k ∈ L' ↔ if k = i then ip.locked = true else k ∈ L)
    (hheld : ip.locked = true → ip.valid = true) : Ok sb t L' H (s.setInode i ip) := by
  have hinode : ∀ k, (s.setInode i ip).inode k = if k = i then ip else s.inode k := fun k =>
    update_apply _ _ _ _
  refine ⟨h.trans, fun k => ?_, fun k l hl => ?_, h.unique, fun k l hl hv => ?_, fun k => ?_, fun k hk => ?_, h.sound⟩
  · rw [hinode, ← h.ref k]
    split_ifs with hk
    · rw [hk, href]
    · rfl
  · rw [hinode]
    split_ifs with hk
    · subst hk
      exact hinum.trans (h.inum_unique hm hl)
    · exact h.inum k l hl
  · show s.dinode l = ((s.setInode i ip).inode k).din ∧ s.disk.Live sb l
    rw [hinode] at hv ⊢
    split_ifs at hv ⊢ with hk
    · subst hk
      rw [← h.inum_unique hm hl]
      exact hsaved hv
    · exact h.saved k l hl hv
  · rw [hinode, hL]
    split_ifs with hk
    · rfl
    · exact h.locked k
  · rw [hL] at hk
    rw [hinode]
    split_ifs at hk ⊢ with hki
    · exact ⟨hheld hk, j, hki ▸ hm⟩
    · exact h.held k hk

theorem touches (h : Ok sb t L H s) (hm : (i, j) ∈ H) (hi : i ∈ L) (ht : State.Touches i s s')
    (hsaved : s'.dinode j = s'.din i) (htype : (s'.din i).type ≠ .free) (hsound : s'.disk.Sound sb) :
    Ok sb t L H s' := by
  have hsame : ∀ k, (s'.inode k).ref = (s.inode k).ref ∧ (s'.inode k).inum = (s.inode k).inum ∧
      (s'.inode k).valid = (s.inode k).valid ∧ (s'.inode k).locked = (s.inode k).locked := by
    intro k
    rw [ht.inode, update_apply]
    split_ifs with hk
    · subst hk
      exact ⟨rfl, rfl, rfl, rfl⟩
    · exact ⟨rfl, rfl, rfl, rfl⟩
  refine ⟨ht.trans.trans h.trans, fun k => ?_, fun k l hl => ?_, h.unique, fun k l hl hv => ?_, fun k => ?_,
    fun k hk => ?_, hsound⟩
  · rw [(hsame k).1]
    exact h.ref k
  · rw [(hsame k).2.1]
    exact h.inum k l hl
  · by_cases hk : k = i
    · subst hk
      rw [← h.inum_unique hm hl]
      refine ⟨hsaved, (h.live hm (h.valid hi)).1, ?_⟩
      show (s'.dinode j).type ≠ _
      rwa [hsaved]
    · have hl' : l ≠ (s.inode i).inum := by
        rw [h.inum _ _ hm]
        rintro rfl
        exact hk (h.unique k i l hl hm)
      have hin : s'.inode k = s.inode k := by rw [ht.inode, update_of_ne hk]
      have hd := ht.dinode l hl'
      rw [hin] at hv
      obtain ⟨hs, hlive⟩ := h.saved k l hl hv
      rw [State.din, hin, hd]
      refine ⟨hs, hlive.1, ?_⟩
      show (s'.dinode l).type ≠ _
      rw [hd]
      exact hlive.2
  · rw [(hsame k).2.2.2]
    exact h.locked k
  · rw [(hsame k).2.2.1]
    exact h.held k hk

theorem setRef (h : Ok sb t L H s) {H' : Multiset Handle} {r : ℤ} (hmem : ∀ p ∈ H', p ∈ H)
    (hL : ∀ k ∈ L, ∀ l, (k, l) ∈ H → (k, l) ∈ H')
    (href : ∀ k, (if k = i then r else (s.inode k).ref) = ((H'.map Prod.fst).count k : ℕ)) :
    Ok sb t L H' (s.setInode i { s.inode i with ref := r }) := by
  have hinode : ∀ k, (s.setInode i { s.inode i with ref := r }).inode k =
      { s.inode k with ref := if k = i then r else (s.inode k).ref } := by
    intro k
    show update s.inode i _ k = _
    rw [update_apply]
    split_ifs with hk
    · rw [hk]
    · rfl
  refine ⟨h.trans, fun k => ?_, fun k l hl => ?_, fun k k' l hl hl' => h.unique k k' l (hmem _ hl) (hmem _ hl'),
    fun k l hl hv => ?_, fun k => ?_, fun k hk => ?_, h.sound⟩
  · rw [hinode]
    exact href k
  · rw [hinode]
    exact h.inum k l (hmem _ hl)
  · rw [hinode] at hv
    rw [State.din, hinode]
    exact h.saved k l (hmem _ hl) hv
  · rw [hinode]
    exact h.locked k
  · rw [hinode]
    obtain ⟨hv, l, hl⟩ := h.held k hk
    exact ⟨hv, l, hL k hk l hl⟩

theorem dup (h : Ok sb t L H s) (hm : (i, j) ∈ H) :
    Ok sb t L ((i, j) ::ₘ H) (s.setInode i { s.inode i with ref := (s.inode i).ref + 1 }) := by
  refine h.setRef (fun p hp => ?_) (fun k _ l hl => mem_cons_of_mem hl) fun k => ?_
  · rcases mem_cons.mp hp with rfl | hp
    · exact hm
    · exact hp
  · rw [Multiset.map_cons, Multiset.count_cons]
    have hr := h.ref k
    split_ifs with hk
    · subst hk
      push_cast
      omega
    · exact hr

theorem drop (h : Ok sb t L ((i, j) ::ₘ H) s) (hi : i ∈ L → (i, j) ∈ H) :
    Ok sb t L H (s.setInode i { s.inode i with ref := (s.inode i).ref - 1 }) := by
  refine h.setRef (fun p hp => mem_cons_of_mem hp) (fun k hk l hl => ?_) fun k => ?_
  · rcases mem_cons.mp hl with heq | hl
    · obtain ⟨rfl, rfl⟩ := Prod.mk.inj heq
      exact hi hk
    · exact hl
  · have hr := h.ref k
    rw [Multiset.map_cons, Multiset.count_cons] at hr
    split_ifs at hr ⊢ with hk
    · subst hk
      push_cast at hr
      omega
    · exact hr

theorem take (h : Ok sb t L H s) (hi : (s.inode i).ref = 0) (hnew : ∀ k, (k, j) ∉ H) :
    Ok sb t L ((i, j) ::ₘ H) (s.setInode i { s.inode i with inum := j, ref := 1, valid := false }) := by
  have hinode : ∀ k, (s.setInode i { s.inode i with inum := j, ref := 1, valid := false }).inode k =
      if k = i then { s.inode i with inum := j, ref := 1, valid := false } else s.inode k := fun k =>
    update_apply _ _ _ _
  have hcount : (H.map Prod.fst).count i = 0 := by
    have := h.ref i
    omega
  have hfree : ∀ l, (i, l) ∉ H := fun l hl => (h.pos hl).ne' hi
  have hL : i ∉ L := fun hL => by
    obtain ⟨-, l, hl⟩ := h.held i hL
    exact hfree l hl
  refine ⟨h.trans, fun k => ?_, fun k l hl => ?_, fun k k' l hl hl' => ?_, fun k l hl hv => ?_, fun k => ?_,
    fun k hk => ?_, h.sound⟩
  · rw [hinode, Multiset.map_cons, Multiset.count_cons]
    split_ifs with hk
    · rw [hk, hcount]
      rfl
    · rw [Nat.add_zero]
      exact h.ref k
  · rw [hinode]
    rcases mem_cons.mp hl with heq | hlH
    · obtain ⟨rfl, rfl⟩ := Prod.mk.inj heq
      rw [if_pos rfl]
    · have hk : k ≠ i := fun hk => hfree l (hk ▸ hlH)
      rw [if_neg hk]
      exact h.inum k l hlH
  · rcases mem_cons.mp hl with heq | hlH
    · rcases mem_cons.mp hl' with heq' | hlH'
      · exact (Prod.mk.inj heq).1.trans (Prod.mk.inj heq').1.symm
      · exact absurd ((Prod.mk.inj heq).2 ▸ hlH') (hnew k')
    · rcases mem_cons.mp hl' with heq' | hlH'
      · exact absurd ((Prod.mk.inj heq').2 ▸ hlH) (hnew k)
      · exact h.unique k k' l hlH hlH'
  · by_cases hk : k = i
    · rw [hinode, if_pos hk] at hv
      exact absurd hv Bool.false_ne_true
    · rw [State.din, hinode, if_neg hk]
      rw [hinode, if_neg hk] at hv
      rcases mem_cons.mp hl with heq | hlH
      · exact absurd (Prod.mk.inj heq).1 hk
      · exact h.saved k l hlH hv
  · rw [hinode]
    split_ifs with hk
    · subst hk
      exact h.locked k
    · exact h.locked k
  · have hki : k ≠ i := by
      rintro rfl
      exact hL hk
    rw [hinode, if_neg hki]
    obtain ⟨hv, l, hl⟩ := h.held k hk
    exact ⟨hv, l, mem_cons_of_mem hl⟩

end Ok

/-- What has been read stays so while it is held. -/
def Keeps (H : Multiset Handle) (s s' : State) : Prop :=
  ∀ k l, (k, l) ∈ H → (s.inode k).valid = true → (s'.inode k).valid = true

theorem Keeps.refl (H : Multiset Handle) (s : State) : Keeps H s s := fun _ _ _ hv => hv

theorem Keeps.trans {s'' : State} (h : Keeps H s s') (h' : Keeps H s' s'') : Keeps H s s'' :=
  fun k l hk hv => h' k l hk (h k l hk hv)

theorem Keeps.mono {H' : Multiset Handle} (h : Keeps H s s') (hle : H' ⊆ H) : Keeps H' s s' :=
  fun k l hk hv => h k l (hle hk) hv

theorem Keeps.setInode {ip : Inode} (h : (s.inode i).valid = true → ip.valid = true) : Keeps H s (s.setInode i ip) := by
  intro k l _ hv
  by_cases hk : k = i
  · subst hk
    rw [State.inode_setInode]
    exact h hv
  · rwa [s.inode_setInode_of_ne _ hk]

theorem State.Touches.keeps (h : State.Touches i s s') : Keeps H s s' := by
  intro k l _ hv
  rw [h.inode]
  by_cases hk : k = i
  · subst hk
    rwa [update_self]
  · rwa [update_of_ne hk]

theorem wp_iget {E : Halt → Prop} {Q : Fin ninode → State → Prop} (h : Ok sb t L H s)
    (hE : (∀ i, 0 < (s.inode i).ref) → E (.panic .igetNoInodes))
    (hQ : ∀ i s', s'.disk = s.disk → ((s'.inode i).valid = true → (i, j) ∈ H) → Keeps H s s' →
      Ok sb t L ((i, j) ::ₘ H) s' → Q i s') : Wp E (iget j) s Q := by
  unfold iget
  rw [wp_bind, wp_get]
  cases hf : (List.finRange ninode).find? fun i => 0 < (s.inode i).ref ∧ (s.inode i).inum = j with
  | some i =>
    obtain ⟨hr, hi⟩ : 0 < (s.inode i).ref ∧ (s.inode i).inum = j := by simpa using List.find?_some hf
    obtain ⟨l, hl⟩ := h.mem_iff.mp hr
    rw [h.inum _ _ hl] at hi
    subst hi
    dsimp only
    rw [wp_bind, wp_set, wp_pure]
    exact hQ i _ rfl (fun _ => hl) (.setInode fun hv => hv) (h.dup hl)
  | none =>
    have hnew : ∀ k, (k, j) ∉ H := fun k hk => by
      have := List.find?_eq_none.mp hf k (List.mem_finRange k)
      simp [h.pos hk, h.inum _ _ hk] at this
    dsimp only
    cases hg : (List.finRange ninode).find? fun i => (s.inode i).ref = 0 with
    | none =>
      rw [wp_throw]
      refine hE fun i => ?_
      have hne : (s.inode i).ref ≠ 0 := by simpa using List.find?_eq_none.mp hg i (List.mem_finRange i)
      have := h.ref_nonneg i
      omega
    | some i =>
      have hr : (s.inode i).ref = 0 := by simpa using List.find?_some hg
      dsimp only
      rw [wp_bind, wp_set, wp_pure]
      refine hQ i _ rfl (fun hv => ?_) (fun k l hk hv => ?_) (h.take hr hnew)
      · rw [State.inode_setInode] at hv
        exact absurd hv Bool.false_ne_true
      · have hki : k ≠ i := fun hki => by
          have := h.pos hk
          rw [hki] at this
          omega
        rwa [s.inode_setInode_of_ne _ hki]

theorem wp_idup {E : Halt → Prop} {Q : Fin ninode → State → Prop} (h : Ok sb t L H s) (hm : (i, j) ∈ H)
    (hQ : ∀ s', s'.disk = s.disk → Keeps H s s' → Ok sb t L ((i, j) ::ₘ H) s' → Q i s') : Wp E (idup i) s Q := by
  unfold idup
  rw [wp_bind, wp_modify, wp_pure]
  exact hQ _ rfl (.setInode fun hv => hv) (h.dup hm)

theorem wp_ilock_ok {E : Halt → Prop} {Q : PUnit → State → Prop} (h : Ok sb t L H s) (hm : (i, j) ∈ H)
    (hj : j < sb.ninodes)
    (hblocked : i ∈ L → E .blocked) (hE : (s.disk.node j).type = .free → E (.panic .ilockNoType))
    (hQ : ∀ s', i ∉ L → s'.disk = s.disk → s.disk.Live sb j → Keeps H s s' → Ok sb t (insert i L) H s' → Q ⟨⟩ s') :
    Wp E (ilock i) s Q := by
  have hr := h.pos hm
  have hinum := h.inum i j hm
  by_cases hi : i ∈ L
  · unfold ilock
    rw [wp_bind, wp_get, if_neg (by omega), if_pos ((h.locked i).mpr hi)]
    dsimp only
    rw [wp_bind, wp_throw]
    exact hblocked hi
  · have hl : (s.inode i).locked = false := by
      rw [← Bool.not_eq_true, h.locked i]
      exact hi
    by_cases hfree : (s.disk.node j).type = .free
    · -- an entry that has been read is in use
      have hv : (s.inode i).valid = false := by
        rw [← Bool.not_eq_true]
        exact fun hv => (h.live hm hv).2 hfree
      have hd : (s.dinode (s.inode i).inum).type = .free := by rwa [hinum]
      unfold ilock
      rw [wp_bind, wp_get, if_neg (by omega), if_neg (by simp [hl]), if_neg (by simp [hv]), wp_bind, wp_set, if_pos hd,
        wp_throw]
      exact hE hfree
    · have hnode : s.view.node (s.inode i).inum = s.disk.node j := by rw [h.view_eq, hinum]
      rw [wp_ilock (h.refd hm) hl (by rwa [hnode])]
      refine hQ _ hi rfl ⟨hj, hfree⟩ (.setInode fun _ => rfl) ?_
      refine h.setInode hm hinum rfl (fun _ => ?_) (fun k => ?_) fun _ => rfl
      · rw [hnode]
        exact ⟨rfl, hj, hfree⟩
      · rw [Finset.mem_insert]
        split_ifs with hk
        · simp [hk]
        · simp [hk]

theorem wp_iunlock_ok {E : Halt → Prop} {Q : PUnit → State → Prop} (h : Ok sb t L H s) (hi : i ∈ L)
    (hQ : ∀ s', s'.disk = s.disk → (s'.inode i).valid = true → Keeps H s s' → Ok sb t (L.erase i) H s' → Q ⟨⟩ s') :
    Wp E (iunlock i) s Q := by
  obtain ⟨hv, j, hm⟩ := h.held i hi
  rw [wp_iunlock (h.pos hm) ((h.locked i).mpr hi)]
  refine hQ _ rfl ?_ (.setInode fun hv => hv) ?_
  · rw [State.unlock, State.inode_setInode]
    exact hv
  · refine h.setInode hm (h.inum _ _ hm) rfl (h.saved i j hm) (fun k => ?_) fun hf => absurd hf Bool.false_ne_true
    rw [Finset.mem_erase]
    split_ifs with hk
    · simp [hk]
    · simp [hk]

/-- The inode `j` has been freed. -/
structure View.Reaps (j : ℕ) (v v' : View) : Prop where
  node : ∀ k, k ≠ j → v'.node k = v.node k
  type : (v'.node j).type = .free
  data : v'.data = v.data

theorem View.Sound.reap {v v' : View} (h : v.Sound sb) (hj : v.Live sb j) (hr : View.Reaps j v v')
    (hbits : ∀ b, v'.bitmap b = true ↔ v.bitmap b = true ∧ ∀ k ≤ maxfile, v.slot j k = b → b = 0) : v'.Sound sb := by
  have hlive : ∀ l, v'.Live sb l → l ≠ j ∧ v.Live sb l := by
    intro l hl
    have hne : l ≠ j := by
      rintro rfl
      exact hl.2 hr.type
    exact ⟨hne, hl.1, hr.node l hne ▸ hl.2⟩
  have hlive' : ∀ l, l ≠ j → v.Live sb l → v'.Live sb l := fun l hne hl =>
    ⟨hl.1, (hr.node l hne).symm ▸ hl.2⟩
  have hslot : ∀ l, l ≠ j → ∀ k, v'.slot l k = v.slot l k := by
    intro l hne k
    unfold View.slot
    rw [hr.node l hne, hr.data]
  -- a block of another file is none of those of `j`
  have hother : ∀ l k, l ≠ j → v.Live sb l → k ≤ maxfile → v.slot l k ≠ 0 → ∀ m ≤ maxfile, v.slot j m ≠ v.slot l k :=
    fun l k hne hl hk h0 m hm heq => hne (h.owned.inj l k j m hl hj hk hm h0 heq.symm).1
  refine ⟨⟨fun b hb => ?_, fun l k hl hk h0 => ?_, fun l k l' k' hl hl' hk hk' h0 heq => ?_⟩, fun b hb hlt hbit => ?_,
    fun l hl => ?_⟩
  · refine (hbits b).mpr ⟨h.owned.metadata b hb, fun k hk hkb => ?_⟩
    by_contra h0
    have := (h.owned.used j k hj hk (hkb ▸ h0)).1
    omega
  · obtain ⟨hne, hl⟩ := hlive l hl
    rw [hslot l hne] at h0 ⊢
    obtain ⟨h₁, h₂, h₃⟩ := h.owned.used l k hl hk h0
    exact ⟨h₁, h₂, (hbits _).mpr ⟨h₃, fun m hm heq => absurd heq (hother l k hne hl hk h0 m hm)⟩⟩
  · obtain ⟨hne, hl⟩ := hlive l hl
    obtain ⟨hne', hl'⟩ := hlive l' hl'
    rw [hslot l hne] at h0 heq
    rw [hslot l' hne'] at heq
    exact h.owned.inj l k l' k' hl hl' hk hk' h0 heq
  · obtain ⟨hold, hnone⟩ := (hbits b).mp hbit
    obtain ⟨l, k, hl, hk, rfl⟩ := h.exact b hb hlt hold
    have hpos : 0 < sb.nmeta := Nat.succ_pos _
    have hne : l ≠ j := by
      rintro rfl
      have := hnone k hk rfl
      omega
    exact ⟨l, k, hlive' l hne hl, hk, hslot l hne k⟩
  · obtain ⟨hne, hl⟩ := hlive l hl
    unfold View.NoHole
    rw [hr.node l hne, hr.data]
    exact h.noHole l hl

theorem Ok.reap (h : Ok sb t L ((i, j) ::ₘ H) s) (hi : i ∉ L) (hv : (s.inode i).valid = true)
    (hlast : ∀ k, (k, j) ∉ H) {ip : Inode} (hip : ip.locked = false ∧ ip.ref = (s.inode i).ref - 1)
    (htrans : s'.trans = s.trans) (hinode : s'.inode = update s.inode i ip)
    (hr : View.Reaps j s.disk s'.disk)
    (hbits : ∀ b, s'.bitmap b = true ↔ s.bitmap b = true ∧ ∀ k ≤ maxfile, s.disk.slot j k = b → b = 0) :
    Ok sb t L H s' := by
  have hself : (i, j) ∈ (i, j) ::ₘ H := mem_cons_self _ _
  have hother : ∀ k l, (k, l) ∈ H → k ≠ i ∧ l ≠ j := by
    intro k l hl
    refine ⟨?_, ?_⟩
    · rintro rfl
      have := h.inum_unique hself (mem_cons_of_mem hl)
      exact hlast k (this ▸ hl)
    · rintro rfl
      exact hlast k hl
  have hsame : ∀ k, k ≠ i → s'.inode k = s.inode k := fun k hk => by rw [hinode, update_of_ne hk]
  refine ⟨htrans.trans h.trans, fun k => ?_, fun k l hl => ?_, fun k k' l hl hl' => ?_, fun k l hl hkv => ?_, fun k => ?_,
    fun k hk => ?_, h.sound.reap (h.live hself hv) hr hbits⟩
  · have hc := h.ref k
    rw [Multiset.map_cons, Multiset.count_cons] at hc
    by_cases hk : k = i
    · subst hk
      rw [if_pos rfl] at hc
      rw [hinode, update_self, hip.2]
      push_cast at hc
      omega
    · rw [if_neg hk] at hc
      rw [hsame k hk]
      exact hc
  · rw [hsame k (hother k l hl).1]
    exact h.inum k l (mem_cons_of_mem hl)
  · exact h.unique k k' l (mem_cons_of_mem hl) (mem_cons_of_mem hl')
  · obtain ⟨hk, hlj⟩ := hother k l hl
    have hd : s'.dinode l = s.dinode l := hr.node l hlj
    rw [State.din, hsame k hk, hd]
    rw [hsame k hk] at hkv
    obtain ⟨hs, hlive⟩ := h.saved k l (mem_cons_of_mem hl) hkv
    refine ⟨hs, hlive.1, ?_⟩
    show (s'.dinode l).type ≠ _
    rw [hd]
    exact hlive.2
  · by_cases hk : k = i
    · subst hk
      rw [hinode, update_self, hip.1]
      simp [hi]
    · rw [hsame k hk]
      exact h.locked k
  · have hki : k ≠ i := by
      rintro rfl
      exact hi hk
    obtain ⟨hkv, l, hl⟩ := h.held k hk
    rw [hsame k hki]
    rcases mem_cons.mp hl with heq | hlH
    · exact absurd (Prod.mk.inj heq).1 hki
    · exact ⟨hkv, l, hlH⟩

/-- What the last `iput` of an inode without links does. -/
def State.reapable (s : State) (H : Multiset Handle) (i : Fin ninode) (j : ℕ) : Prop :=
  (s.inode i).valid = true ∧ (s.disk.node j).nlink = 0 ∧ ∀ k, (k, j) ∉ H

theorem Ok.reapable_iff (h : Ok sb t L ((i, j) ::ₘ H) s) :
    ((s.inode i).ref = 1 ∧ (s.inode i).valid = true ∧ (s.inode i).din.nlink = 0) ↔ s.reapable H i j := by
  have hself : (i, j) ∈ (i, j) ::ₘ H := mem_cons_self _ _
  have hone : (s.inode i).ref = 1 ↔ ∀ k, (k, j) ∉ H := by
    rw [h.ref i, Multiset.map_cons, count_cons_self]
    constructor
    · intro hc k hk
      have hki : k = i := h.unique k i j (mem_cons_of_mem hk) hself
      have hpos : 0 < (H.map Prod.fst).count i :=
        Multiset.count_pos.mpr (Multiset.mem_map.mpr ⟨(k, j), hk, hki⟩)
      omega
    · intro hall
      have hzero : (H.map Prod.fst).count i = 0 := by
        rw [Multiset.count_eq_zero, Multiset.mem_map]
        rintro ⟨⟨k, l⟩, hkl, rfl⟩
        have := h.inum_unique hself (mem_cons_of_mem hkl)
        exact hall k (this ▸ hkl)
      rw [hzero]
      rfl
  unfold State.reapable
  rw [hone]
  constructor
  · rintro ⟨hall, hv, hn⟩
    refine ⟨hv, ?_, hall⟩
    show (s.dinode j).nlink = 0
    rw [(h.saved i j hself hv).1]
    exact hn
  · rintro ⟨hv, hn, hall⟩
    refine ⟨hall, hv, ?_⟩
    change (s.dinode j).nlink = 0 at hn
    rw [(h.saved i j hself hv).1] at hn
    exact hn

theorem wp_iput {E : Halt → Prop} {Q : PUnit → State → Prop} (h : Ok sb true L ((i, j) ::ₘ H) s)
    (hL : i ∈ L → (i, j) ∈ H)
    (hQ : ∀ s', (s.reapable H i j ∧ View.Reaps j s.disk s'.disk ∨ ¬ s.reapable H i j ∧ s'.disk = s.disk) →
      Keeps H s s' → Ok sb true L H s' → Q ⟨⟩ s') : Wp E (iput sb i) s Q := by
  have hself : (i, j) ∈ (i, j) ::ₘ H := mem_cons_self _ _
  have hinum := h.inum _ _ hself
  unfold iput
  rw [wp_bind, wp_get]
  dsimp only
  by_cases hreap : s.reapable H i j
  · have hc := h.reapable_iff.mpr hreap
    have hi : i ∉ L := fun hi => hreap.2.2 i (hL hi)
    have hl : (s.inode i).locked = false := by
      rw [← Bool.not_eq_true, h.locked i]
      exact hi
    rw [if_pos hc, if_neg (by simp [hl])]
    -- the entry is locked while the inode is freed
    have h₁ : Ok sb true (insert i L) ((i, j) ::ₘ H) (s.setInode i { s.inode i with locked := true }) := by
      refine h.setInode hself hinum rfl (h.saved i j hself) (fun k => ?_) fun _ => hreap.1
      rw [Finset.mem_insert]
      split_ifs with hk
      · simp [hk]
      · simp [hk]
    have hw := h₁.writable hself (Finset.mem_insert_self i L)
    rw [wp_bind, wp_modify, wp_bind]
    refine (wp_itrunc hw h₁.trans).mono fun _ s₂ h₂ => ?_
    have ht₂ : s₂.trans = true := h₂.touches.trans.trans h₁.trans
    have hinum₂ : (s₂.inode i).inum = j := by
      rw [h₂.touches.inum, State.inode_setInode]
      exact hinum
    rw [wp_bind, wp_modify, wp_bind, wp_iupdate (by exact ht₂), wp_bind, wp_modify, wp_modify]
    have hreaps : View.Reaps j s.disk
        (((s₂.setDin i { s₂.din i with type := .free }).setDinode
          ((s₂.setDin i { s₂.din i with type := .free }).inode i).inum
          ((s₂.setDin i { s₂.din i with type := .free }).din i)).disk) := by
      have hinum₃ : ((s₂.setDin i { s₂.din i with type := .free }).inode i).inum = j := by
        rw [State.setDin, State.inode_setInode]
        exact hinum₂
      rw [hinum₃, State.din_setDin]
      refine ⟨fun k hk => ?_, ?_, h₂.data⟩
      · show update s₂.dinode j _ k = s.dinode k
        rw [update_of_ne hk]
        exact h₂.touches.dinode k (by rw [State.inode_setInode, hinum]; exact hk)
      · show (update s₂.dinode j _ j).type = _
        rw [update_self]
    have hother : ∀ k, k ≠ i → s₂.inode k = s.inode k := fun k hk => by
      rw [h₂.touches.inode, update_of_ne hk, s.inode_setInode_of_ne _ hk]
    have href₂ : (s₂.inode i).ref = (s.inode i).ref := by
      rw [h₂.touches.inode, update_self, State.inode_setInode]
    let ip : Inode := { s₂.inode i with
      din := { s₂.din i with type := .free }, valid := false, locked := false, ref := (s₂.inode i).ref - 1 }
    have hip : ip.locked = false ∧ ip.ref = (s.inode i).ref - 1 := ⟨rfl, congrArg (· - 1) href₂⟩
    refine hQ _ (.inl ⟨hreap, hreaps⟩) (fun k l hk hv => ?_) (h.reap hi hreap.1 hreap.2.2 hip h₂.touches.trans ?_ hreaps fun b => ?_)
    · have hki : k ≠ i := fun hki => by
        subst hki
        have := h.inum_unique (mem_cons_of_mem hk) hself
        exact hreap.2.2 k (this ▸ hk)
      have hinode : (s₂.inode k).valid = true := by rwa [hother k hki]
      simpa [State.setDin, State.setInode, State.setDinode, State.log, hki] using hinode
    · funext k
      by_cases hk : k = i
      · subst hk
        simp [State.setDin, State.setInode, State.setDinode, State.log, ip]
      · rw [update_of_ne hk, ← hother k hk]
        simp [State.setDin, State.setInode, State.setDinode, State.log, hk]
    · have hf := h₂.freed b
      rw [h₁.view_eq, State.inode_setInode, hinum] at hf
      refine hf.trans (and_congr_right fun _ => ⟨fun hall k hk => ?_, fun hall k hk => ?_⟩)
      · exact hall k (Nat.lt_succ_of_le hk)
      · exact hall k (Nat.le_of_lt_succ hk)
  · rw [if_neg fun hc => hreap (h.reapable_iff.mp hc), wp_modify]
    exact hQ _ (.inr ⟨hreap, rfl⟩) (.setInode fun hv => hv) (h.drop hL)

end

end Xv6.Fs
