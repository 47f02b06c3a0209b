import Xv6.Kernel.Fs.Bmap

/-! `ilock` and `iunlock`: what an inode is does not change when it is read from the disk, locked
or unlocked. -/
namespace Xv6.Fs
open Lib

section
variable {sb : Superblock} {s s' : State} {i : Fin ninode}

/-- Entry `i` is referenced, and no other entry has the same inode. -/
structure Refd (s : State) (i : Fin ninode) : Prop where
  ref : 0 < (s.inode i).ref
  unique : ∀ k, 0 < (s.inode k).ref → (s.inode k).inum = (s.inode i).inum → k = i

theorem State.of_cached {j : ℕ} (h : s.cached j = some i) :
    0 < (s.inode i).ref ∧ (s.inode i).valid = true ∧ (s.inode i).inum = j := by
  simpa using List.find?_some h

theorem State.cached_eq_none {j : ℕ} :
    s.cached j = none ↔ ∀ i, 0 < (s.inode i).ref → (s.inode i).valid = true → (s.inode i).inum ≠ j := by
  unfold cached
  rw [List.find?_eq_none]
  simp [List.mem_finRange]

theorem Refd.has (h : Refd s i) (hv : (s.inode i).valid = true) : s.Has i := by
  unfold State.Has
  cases hc : s.cached (s.inode i).inum with
  | none => exact absurd rfl (State.cached_eq_none.mp hc i h.ref hv)
  | some k =>
    obtain ⟨hr, -, hk⟩ := State.of_cached hc
    rw [h.unique k hr hk]

theorem Refd.node (h : Refd s i) (hv : (s.inode i).valid = false) :
    s.view.node (s.inode i).inum = s.dinode (s.inode i).inum := by
  have hc : s.cached (s.inode i).inum = none := by
    refine State.cached_eq_none.mpr fun k hr hkv hk => ?_
    rw [h.unique k hr hk, hv] at hkv
    exact Bool.false_ne_true hkv
  simp only [State.view, hc, Option.map_none, Option.getD_none]

@[simp] theorem State.inode_setInode (s : State) (i : Fin ninode) (ip : Inode) : (s.setInode i ip).inode i = ip :=
  Function.update_self _ _ _

theorem State.inode_setInode_of_ne (s : State) {i k : Fin ninode} (ip : Inode) (h : k ≠ i) :
    (s.setInode i ip).inode k = s.inode k := Function.update_of_ne h _ _

theorem State.node_setInode_of_ne {ip : Inode} {j : ℕ} (h : (s.inode i).inum ≠ j) (h' : ip.inum ≠ j) :
    (s.setInode i ip).view.node j = s.view.node j := by
  have hc : (s.setInode i ip).cached j = s.cached j := by
    unfold cached
    congr 1
    funext k
    by_cases hk : k = i
    · subst hk
      simp [h, h']
    · rw [s.inode_setInode_of_ne ip hk]
  unfold view
  simp only [hc]
  cases hcj : s.cached j with
  | none => rfl
  | some k =>
    have hk : k ≠ i := by
      rintro rfl
      exact h (of_cached hcj).2.2
    simp only [Option.map_some, Option.getD_some, din, s.inode_setInode_of_ne ip hk]

theorem Refd.setInode {ip : Inode} (h : Refd s i) (href : 0 < ip.ref) (hinum : ip.inum = (s.inode i).inum) :
    Refd (s.setInode i ip) i := by
  refine ⟨by simpa using href, fun k hr hk => ?_⟩
  by_contra hne
  rw [s.inode_setInode_of_ne ip hne] at hr hk
  rw [State.inode_setInode, hinum] at hk
  exact hne (h.unique k hr hk)

theorem Refd.view_setInode {ip : Inode} (h : Refd s i) (href : 0 < ip.ref) (hinum : ip.inum = (s.inode i).inum)
    (hdin : (if ip.valid = true then ip.din else s.dinode (s.inode i).inum) = s.view.node (s.inode i).inum) :
    (s.setInode i ip).view = s.view := by
  have hnode : (s.setInode i ip).view.node = s.view.node := by
    funext j
    by_cases hj : (s.inode i).inum = j
    · subst hj
      have h' := h.setInode href hinum
      cases hv : ip.valid with
      | true =>
        rw [if_pos hv] at hdin
        have := (h'.has (by simpa using hv)).node
        rwa [State.inode_setInode, hinum, State.din, State.inode_setInode, hdin] at this
      | false =>
        rw [if_neg (by simp [hv])] at hdin
        have := h'.node (by simpa using hv)
        rw [State.inode_setInode, hinum] at this
        exact this.trans hdin
    · exact State.node_setInode_of_ne hj (hinum ▸ hj)
  show ({ node := (s.setInode i ip).view.node, bitmap := s.bitmap, data := s.data } : View) = s.view
  rw [hnode]
  rfl

theorem Refd.node_eq (h : Refd s i) : (if (s.inode i).valid = true then (s.inode i).din
    else s.dinode (s.inode i).inum) = s.view.node (s.inode i).inum := by
  split_ifs with hv
  · exact (h.has hv).node.symm
  · exact (h.node (by simpa using hv)).symm

/-- `ip` as `ilock` leaves it. -/
def State.lock (s : State) (i : Fin ninode) : State :=
  s.setInode i { s.inode i with locked := true, valid := true, din := s.view.node (s.inode i).inum }

def State.unlock (s : State) (i : Fin ninode) : State := s.setInode i { s.inode i with locked := false }

theorem Refd.view_lock (h : Refd s i) : (s.lock i).view = s.view := h.view_setInode h.ref rfl rfl

theorem Refd.view_unlock (h : Refd s i) : (s.unlock i).view = s.view := h.view_setInode h.ref rfl h.node_eq

theorem Refd.lock (h : Refd s i) : Refd (s.lock i) i := h.setInode h.ref rfl

theorem Refd.unlock (h : Refd s i) : Refd (s.unlock i) i := h.setInode h.ref rfl

theorem Refd.has_lock (h : Refd s i) : (s.lock i).Has i := by
  refine h.lock.has ?_
  rw [State.lock, State.inode_setInode]

theorem wp_ilock {E : Halt → Prop} {Q : PUnit → State → Prop} (h : Refd s i) (hl : (s.inode i).locked = false)
    (ht : (s.view.node (s.inode i).inum).type ≠ .free) : Wp E (ilock i) s Q ↔ Q ⟨⟩ (s.lock i) := by
  have href := h.ref
  unfold ilock
  rw [wp_bind, wp_get, if_neg (by omega), if_neg (by simp [hl])]
  cases hv : (s.inode i).valid with
  | true =>
    have hdin : s.view.node (s.inode i).inum = (s.inode i).din := (h.has hv).node
    rw [if_pos rfl, wp_set, State.lock, hdin, ← hv]
  | false =>
    rw [h.node hv] at ht
    rw [if_neg Bool.false_ne_true, wp_bind, wp_set, if_neg ht, wp_pure, State.lock, h.node hv]

theorem wp_iunlock {E : Halt → Prop} {Q : PUnit → State → Prop} (h : 0 < (s.inode i).ref)
    (hl : (s.inode i).locked = true) : Wp E (iunlock i) s Q ↔ Q ⟨⟩ (s.unlock i) := by
  have hc : (!(s.inode i).locked || decide ((s.inode i).ref < 1)) = false := by
    simp [hl]
    omega
  unfold iunlock
  rw [wp_bind, wp_get, hc, if_neg Bool.false_ne_true, wp_set]
  rfl

end

end Xv6.Fs
