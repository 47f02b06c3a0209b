import Xv6.Kernel.Fs.Reserve

/-! `filewrite`: a write is made of pieces, each a transaction, that go to the offset of the file. -/
namespace Xv6.Fs
open Lib Function

/-- The inode of an open file while no one has it locked. -/
structure Ready (sb : Superblock) (s : State) (i : Fin ninode) : Prop extends Refd s i where
  unlocked : (s.inode i).locked = false
  live : s.view.Live sb (s.inode i).inum
  owned : s.view.Owned sb
  noHole : s.view.NoHole (s.inode i).inum

/-- What a turn of `filewrite` does to the file system when it returns `r`. -/
structure Chunk (sb : Superblock) (i : Fin ninode) (src : Src) (off n : ℕ) (s : State) (r : ℤ) (s' : State) : Prop where
  ready : Ready sb s' i
  inum : (s'.inode i).inum = (s.inode i).inum
  result : r = -1 ∧ s'.view = s.view ∧
      ((s.view.node (s.inode i).inum).size < off ∨ maxfile * bsize < off + n) ∨
    r = n ∧ off ≤ (s.view.node (s.inode i).inum).size ∧ off + n ≤ maxfile * bsize ∧ ∃ off',
      (s'.view.node (s.inode i).inum).size = max (s.view.node (s.inode i).inum).size off' ∧
      View.Wrote sb (s.inode i).inum src 0 off n off' s.view s'.view

section
variable {sb : Superblock} {s s' : State} {i : Fin ninode} {src : Src}

theorem Ready.beginOp (h : Ready sb s i) : Ready sb s.beginOp i :=
  { toRefd := ⟨h.ref, h.unique⟩, unlocked := h.unlocked, live := h.live, owned := h.owned, noHole := h.noHole }

theorem Refd.touches (h : Refd s i) (ht : State.Touches i s s') : Refd s' i := by
  refine ⟨?_, fun k hr hk => ?_⟩
  · rw [ht.inode, update_self]
    exact h.ref
  · by_contra hne
    rw [ht.inum] at hk
    rw [ht.inode, update_of_ne hne] at hr hk
    exact hne (h.unique k hr hk)

theorem Ready.lock (h : Ready sb s i) : Writable sb (s.lock i) i where
  has := h.toRefd.has_lock
  live := by
    rw [h.toRefd.view_lock]
    show s.view.Live sb ((s.lock i).inode i).inum
    rw [State.lock, State.inode_setInode]
    exact h.live
  owned := by
    rw [h.toRefd.view_lock]
    exact h.owned

theorem Ready.unlock (h : Ready sb s i) (ht : State.Touches i (s.lock i) s') (hlive : s'.view.Live sb (s.inode i).inum)
    (ho : s'.view.Owned sb) (hh : s'.view.NoHole (s.inode i).inum) :
    Ready sb (s'.unlock i).endOp i ∧ (s'.unlock i).endOp.view = s'.view ∧
      ((s'.unlock i).endOp.inode i).inum = (s.inode i).inum := by
  have hr : Refd s' i := h.toRefd.lock.touches ht
  have hview : (s'.unlock i).endOp.view = s'.view := hr.view_unlock
  have hinum : ((s'.unlock i).endOp.inode i).inum = (s.inode i).inum := by
    have h₁ : ((s'.unlock i).endOp.inode i).inum = (s'.inode i).inum := by
      show ((s'.unlock i).inode i).inum = _
      rw [State.unlock, State.inode_setInode]
    have h₂ : ((s.lock i).inode i).inum = (s.inode i).inum := by rw [State.lock, State.inode_setInode]
    rw [h₁, ht.inum, h₂]
  refine ⟨{ toRefd := ⟨hr.unlock.ref, hr.unlock.unique⟩, unlocked := ?_, live := ?_, owned := ?_, noHole := ?_ }, hview, hinum⟩
  · show ((s'.unlock i).inode i).locked = false
    rw [State.unlock, State.inode_setInode]
  · rwa [hview, hinum]
  · rwa [hview]
  · rwa [hview, hinum]

theorem wp_writeChunk_ready {s : Sys} {f : Fin nfile} {page : ℕ → Option Bytes} {addr n : ℕ}
    (h : Ready sb s.fs (s.file f).ip) (hn : n ≤ maxChunk) (hoff : (s.file f).off < 2 ^ 32) :
    Wp (fun e => e = .panic .ballocOutOfBlocks) (writeChunk sb f page addr n) s fun r s' =>
      Chunk sb (s.file f).ip (.user page addr) (s.file f).off n s.fs r s'.fs ∧ s' = s.advance f r s'.fs := by
  have hmaxChunk : maxChunk = 3072 := rfl
  have hmaxfile : maxfile * bsize = 274432 := rfl
  generalize hi : (s.file f).ip = i at h
  generalize ho : (s.file f).off = off at hoff
  set fs₀ := s.fs.beginOp with hfs₀
  have h₀ : Ready sb fs₀ i := h.beginOp
  have hw := h₀.lock
  have hv₁ : (fs₀.lock i).view = s.fs.view := h₀.toRefd.view_lock
  have hin₁ : ((fs₀.lock i).inode i).inum = (s.fs.inode i).inum := by
    rw [State.lock, State.inode_setInode]
    rfl
  have hsize : ((fs₀.lock i).din i).size = (s.fs.view.node (s.fs.inode i).inum).size := by
    rw [← hw.has.node, hv₁, hin₁]
  have hlocked : ∀ {fs₂}, State.Touches i (fs₀.lock i) fs₂ →
      0 < (fs₂.inode i).ref ∧ (fs₂.inode i).locked = true := fun ht => by
    rw [ht.inode, update_self, State.lock, State.inode_setInode]
    exact ⟨h₀.ref, rfl⟩
  rw [wp_writeChunk, hi, ho, wp_ilock h₀.toRefd h₀.unlocked h₀.live.2]
  by_cases href : (s.fs.view.node (s.fs.inode i).inum).size < off ∨ maxfile * bsize < off + n
  · rw [wp_of_eq_ok (writei_refused (by omega) (by rw [hsize]; omega))]
    have ht := State.Touches.refl i (fs₀.lock i)
    rw [wp_iunlock (hlocked ht).1 (hlocked ht).2]
    obtain ⟨hready, hview, hinum⟩ := h₀.unlock ht (hv₁ ▸ h.live) (hv₁ ▸ h.owned) (hv₁ ▸ h.noHole)
    exact ⟨⟨hready, hinum, .inl ⟨rfl, hview.trans hv₁, href⟩⟩, rfl⟩
  · rw [not_or, not_lt, not_lt] at href
    refine (wp_writei hw rfl (by omega) (by rw [hsize]; exact href.1) href.2).imp (fun e he => he.1) ?_
    rintro r fs₂ ⟨rfl, off', hwr⟩
    rw [wp_iunlock (hlocked hwr.touches).1 (hlocked hwr.touches).2]
    have hsz := hwr.size hw.has
    have hwv := hwr.view
    rw [hin₁, hv₁] at hsz hwv
    obtain ⟨hready, hview, hinum⟩ := h₀.unlock hwr.touches (by rw [hwv.live]; exact h.live) hwv.owned
      (hwv.noHole h.live hsz href.1 href.2 h.noHole)
    refine ⟨⟨hready, hinum, .inr ⟨rfl, href.1, href.2, off', ?_, ?_⟩⟩, rfl⟩
    · show ((fs₂.unlock i).endOp.view.node _).size = _
      rw [hview]
      exact hsz
    · show View.Wrote sb _ _ _ _ _ _ _ (fs₂.unlock i).endOp.view
      rw [hview]
      exact hwv

end

/-- The bytes of the file that `f` has open. -/
def Sys.bytes (s : Sys) (f : Fin nfile) : List UInt8 := s.fs.view.content (s.fs.inode (s.file f).ip).inum

theorem overwrite_nil (c : List UInt8) (off : ℕ) : overwrite c off [] = c := by
  simp [overwrite]

theorem overwrite_overwrite {c : List UInt8} {off : ℕ} (h : off ≤ c.length) (a b : List UInt8) :
    overwrite (overwrite c off a) (off + a.length) b = overwrite c off (a ++ b) := by
  have hlen : (overwrite c off a).length = max c.length (off + a.length) := length_overwrite h
  refine List.ext_getElem? fun o => ?_
  rw [getElem?_overwrite (by omega), getElem?_overwrite h, getElem?_overwrite h, List.length_append]
  by_cases h₁ : off ≤ o ∧ o < off + a.length
  · rw [if_neg (by omega), if_pos h₁, if_pos (by omega), List.getElem?_append_left (by omega)]
  · rw [if_neg h₁]
    by_cases h₂ : off + a.length ≤ o ∧ o < off + a.length + b.length
    · rw [if_pos h₂, if_pos (by omega), List.getElem?_append_right (by omega)]
      congr 1
      omega
    · rw [if_neg h₂, if_neg (by omega)]

/-- Bytes `k .. k'` of `g` have been written to `f` at its offset. -/
structure Stored (sb : Superblock) (f : Fin nfile) (g : Bytes) (k k' : ℕ) (s s' : Sys) : Prop where
  le : k ≤ k'
  file : s'.file = update s.file f { s.file f with off := (s.file f).off + (k' - k) }
  proc : s'.proc = s.proc
  ready : Ready sb s'.fs (s.file f).ip
  bytes : s'.bytes f = overwrite (s.bytes f) (s.file f).off ((List.range' k (k' - k)).map g)
  off_le : k < k' → (s.file f).off ≤ (s.bytes f).length
  le_max : k < k' → (s.file f).off + (k' - k) ≤ maxfile * bsize

section
variable {sb : Superblock} {s s' s'' : Sys} {f : Fin nfile} {g : Bytes}

theorem Stored.ip {k k' : ℕ} (h : Stored sb f g k k' s s') : (s'.file f).ip = (s.file f).ip := by
  rw [h.file, update_self]

theorem Stored.off {k k' : ℕ} (h : Stored sb f g k k' s s') : (s'.file f).off = (s.file f).off + (k' - k) := by
  rw [h.file, update_self]

theorem Stored.trans {k k' k'' : ℕ} (h : Stored sb f g k k' s s') (h' : Stored sb f g k' k'' s' s'') (hlt : k < k') :
    Stored sb f g k k'' s s'' := by
  have h₁ := h.le
  have h₂ := h'.le
  have hoff := h.off
  have hip := h.ip
  have hready := h'.ready
  rw [hip] at hready
  refine ⟨by omega, ?_, h'.proc.trans h.proc, hready, ?_, fun _ => h.off_le hlt, fun _ => ?_⟩
  · rw [h'.file, h.file, update_idem, update_self]
    dsimp only
    rw [Nat.add_assoc, show k' - k + (k'' - k') = k'' - k by omega]
  · have hsplit : List.range' k (k'' - k) = List.range' k (k' - k) ++ List.range' k' (k'' - k') := by
      rw [show k'' - k = (k' - k) + (k'' - k') by omega, ← List.range'_append_1, show k + (k' - k) = k' by omega]
    have hlen : ((List.range' k (k' - k)).map g).length = k' - k := by simp
    rw [h'.bytes, h.bytes, hoff, hsplit, List.map_append, ← overwrite_overwrite (h.off_le hlt), hlen]
  · by_cases hk : k' < k''
    · have := h'.le_max hk
      omega
    · have := h.le_max hlt
      omega

theorem Src.byte_user_add (page : ℕ → Option Bytes) (addr i k : ℕ) :
    (Src.user page ((addr + i) % 2 ^ 64)).byte k = (Src.user page addr).byte (i + k) := by
  rw [Src.byte_user, Src.byte_user]
  congr 1
  omega

theorem Chunk.stored {page : ℕ → Option Bytes} {addr k n1 : ℕ} (hpos : 0 < n1) {r : ℤ}
    (hready : Ready sb s.fs (s.file f).ip)
    (h : Chunk sb (s.file f).ip (.user page ((addr + k) % 2 ^ 64)) (s.file f).off n1 s.fs r s'.fs)
    (hs : s' = s.advance f r s'.fs) (hsrc : ∀ l < n1, (Src.user page addr).byte (k + l) = some (g (k + l))) :
    (r = -1 ∧ ((s.bytes f).length < (s.file f).off ∨ maxfile * bsize < (s.file f).off + n1) ∧
      Stored sb f g k k s s') ∨ (r = n1 ∧ Stored sb f g k (k + n1) s s') := by
  have hfile : s'.file = (s.advance f r s'.fs).file := by rw [← hs]
  have hproc : s'.proc = s.proc := by rw [hs]; rfl
  have hip : (s'.file f).ip = (s.file f).ip := by
    rw [hfile, Sys.advance]
    dsimp only
    split_ifs
    · rw [update_self]
    · rfl
  have hbytes : s'.bytes f = s'.fs.view.content (s.fs.inode (s.file f).ip).inum := by
    rw [Sys.bytes, hip, h.inum]
  rcases h.result with ⟨rfl, hview, href⟩ | ⟨rfl, hoff, hmax, off', hsize, hwr⟩
  · rw [← View.length_content] at href
    refine .inl ⟨rfl, href, le_rfl, ?_, hproc, h.ready, ?_, fun hk => absurd hk (lt_irrefl k),
      fun hk => absurd hk (lt_irrefl k)⟩
    · rw [hfile, Nat.sub_self, Nat.add_zero, update_eq_self]
      rfl
    · rw [hbytes, hview, Nat.sub_self]
      exact (overwrite_nil _ _).symm
  · have hsrc' : ∀ l < n1, (Src.user page ((addr + k) % 2 ^ 64)).byte l = some (g (k + l)) := fun l hl => by
      rw [Src.byte_user_add, hsrc l hl]
    obtain rfl : off' = (s.file f).off + n1 := by
      have h₁ := hwr.le_add
      by_contra hne
      obtain ⟨l, hl, hnone⟩ := hwr.fault (by omega)
      rw [Nat.zero_add, hsrc' l hl] at hnone
      simp at hnone
    have hcontent := hwr.content (f := fun l => g (k + l)) hsize hsrc' hoff hready.noHole
    have hmaxfile : maxfile * bsize = 274432 := rfl
    refine .inr ⟨rfl, Nat.le_add_right _ _, ?_, hproc, h.ready, ?_, fun _ => ?_, fun _ => ?_⟩
    · rw [hfile, Sys.advance]
      dsimp only
      rw [if_pos (by omega), Int.toNat_natCast, Nat.mod_eq_of_lt (by omega), Nat.add_sub_cancel_left]
    · rw [hbytes, hcontent, Nat.add_sub_cancel_left, List.range'_eq_map_range, List.map_map]
      rfl
    · rw [Sys.bytes, View.length_content]
      exact hoff
    · omega

theorem Ready.stored_refl (h : Ready sb s.fs (s.file f).ip) (g : Bytes) (k : ℕ) : Stored sb f g k k s s where
  le := le_rfl
  file := by rw [Nat.sub_self, Nat.add_zero, update_eq_self]
  proc := rfl
  ready := h
  bytes := by
    rw [Nat.sub_self]
    exact (overwrite_nil _ _).symm
  off_le hk := absurd hk (lt_irrefl k)
  le_max hk := absurd hk (lt_irrefl k)

theorem wp_writeTurn {page : ℕ → Option Bytes} {addr n k : ℕ} (h : Ready sb s.fs (s.file f).ip)
    (hoff : (s.file f).off < 2 ^ 32) (hk : k < n) (hsrc : ∀ l < n, (Src.user page addr).byte l = some (g l)) :
    Wp (fun e => e = .panic .ballocOutOfBlocks) (writeTurn sb f page addr n k) s fun r s' =>
      (r = none ∧ ((s.bytes f).length < (s.file f).off ∨
          maxfile * bsize < (s.file f).off + min (n - k) maxChunk) ∧ Stored sb f g k k s s') ∨
      (r = some (k + min (n - k) maxChunk) ∧ Stored sb f g k (k + min (n - k) maxChunk) s s') := by
  have hmax : 0 < maxChunk := by decide
  unfold writeTurn
  dsimp only
  rw [wp_bind]
  refine (wp_writeChunk_ready h (min_le_right _ _) hoff).mono fun r s₁ hc => ?_
  have hst := hc.1.stored (by omega) h hc.2 fun l hl => hsrc (k + l) (by omega)
  rcases hst with ⟨rfl, href, hst⟩ | ⟨rfl, hst⟩
  · rw [if_pos (by omega), wp_pure]
    exact .inl ⟨rfl, href, hst⟩
  · rw [if_neg (by omega), if_neg (by simp), wp_pure, Int.toNat_natCast]
    exact .inr ⟨rfl, hst⟩

theorem wp_filewriteLoop {page : ℕ → Option Bytes} {addr n fuel k : ℕ} (h : Ready sb s.fs (s.file f).ip)
    (hoff : (s.file f).off < 2 ^ 32) (hfuel : n - k ≤ fuel) (hk : k ≤ n)
    (hsrc : ∀ l < n, (Src.user page addr).byte l = some (g l)) :
    Wp (fun e => e = .panic .ballocOutOfBlocks) (filewriteLoop sb f page addr n fuel k) s fun k' s' =>
      k' ≤ n ∧ Stored sb f g k k' s s' := by
  induction fuel generalizing s k with
  | zero =>
    rw [filewriteLoop, wp_pure]
    exact ⟨hk, h.stored_refl g k⟩
  | succ fuel ih =>
    rw [filewriteLoop]
    by_cases hlt : k < n
    · have hmax : 0 < maxChunk := by decide
      rw [if_pos hlt, wp_bind]
      refine (wp_writeTurn h hoff hlt hsrc).mono fun r s₁ hr => ?_
      rcases hr with ⟨rfl, -, hst⟩ | ⟨rfl, hst⟩
      · dsimp only
        rw [wp_pure]
        exact ⟨hk, hst⟩
      · have hmaxfile : maxfile * bsize = 274432 := rfl
        have hle := hst.le_max (by omega)
        refine (ih ?_ ?_ ?_ ?_).mono fun k' s' h' => ⟨h'.1, hst.trans h'.2 (by omega)⟩
        · rw [hst.ip]
          exact hst.ready
        · rw [hst.off]
          omega
        · omega
        · omega
    · rw [if_neg hlt, wp_pure]
      exact ⟨hk, h.stored_refl g k⟩

/-- `k` bytes of the buffer are in the file, and `f->off` has moved by them. -/
structure Reported (f : Fin nfile) (g : Bytes) (s : Sys) (k : ℕ) (s' : Sys) : Prop where
  off : (s'.file f).off = (s.file f).off + k
  bytes : s'.bytes f = overwrite (s.bytes f) (s.file f).off ((List.range k).map g)
  off_le : 0 < k → (s'.file f).off ≤ (s'.bytes f).length

theorem Stored.reported {k : ℕ} (h : Stored sb f g 0 k s s') : Reported f g s k s' := by
  have hoff := h.off
  have hbytes := h.bytes
  rw [Nat.sub_zero] at hoff hbytes
  rw [← List.range_eq_range'] at hbytes
  refine ⟨hoff, hbytes, fun hk => ?_⟩
  rw [hoff, hbytes, length_overwrite (h.off_le hk), List.length_map, List.length_range]
  exact le_max_right _ _

theorem wp_filewrite_inode {page : ℕ → Option Bytes} {addr : ℕ} {n driver : ℤ} (hn : 0 ≤ n)
    (htype : (s.file f).type = .inode) (h : Ready sb s.fs (s.file f).ip) (hoff : (s.file f).off < 2 ^ 32)
    (hsrc : ∀ l < n.toNat, (Src.user page addr).byte l = some (g l)) :
    Wp (fun e => e = .panic .ballocOutOfBlocks) (filewrite sb f page addr n driver) s fun r s' =>
      ∃ k ≤ n.toNat, Reported f g s k s' ∧ (r = n → k = n.toNat) := by
  unfold filewrite
  rw [wp_bind, wp_get]
  dsimp only
  cases hw : (s.file f).writable with
  | false =>
    rw [if_pos (by decide), wp_pure]
    exact ⟨0, Nat.zero_le _, (h.stored_refl g 0).reported, fun hr => by omega⟩
  | true =>
    rw [if_neg (by simp), htype]
    dsimp only
    rw [wp_bind]
    refine (wp_filewriteLoop h hoff (Nat.sub_le _ _) (Nat.zero_le _) hsrc).mono fun k s' hk => ?_
    rw [wp_pure]
    refine ⟨k, hk.1, hk.2.reported, fun hr => ?_⟩
    unfold writeResult at hr
    split_ifs at hr with heq
    · omega
    · omega

theorem wp_writei_user {fs : State} {i : Fin ninode} {page : ℕ → Option Bytes} {addr off n : ℕ}
    (hw : Writable sb fs i) (hh : fs.view.NoHole (fs.inode i).inum) (ht : fs.trans = true) (ho : off < 2 ^ 32)
    (hn : n < 2 ^ 32) (hsrc : ∀ l < n, (Src.user page addr).byte l = some (g l)) :
    Wp (fun e => e = .panic .ballocOutOfBlocks) (writei sb i (.user page addr) off n) fs fun r fs' =>
      0 ≤ r → r = n ∧ fs'.view.content (fs.inode i).inum =
        overwrite (fs.view.content (fs.inode i).inum) off ((List.range n).map g) := by
  by_cases href : (fs.din i).size < off ∨ 2 ^ 32 ≤ off + n ∨ maxfile * bsize < off + n
  · rw [wp_of_eq_ok (writei_refused hn href)]
    exact fun hr => absurd hr (by decide)
  · rw [not_or, not_or, not_lt, not_lt] at href
    refine (wp_writei hw ht hn href.1 href.2.2).imp (fun e he => he.1) fun r fs' hr _ => ⟨hr.1, ?_⟩
    obtain ⟨off', hwr⟩ := hr.2
    obtain rfl : off' = off + n := by
      have h₁ := hwr.view.le_add
      by_contra hne
      obtain ⟨l, hl, hnone⟩ := hwr.view.fault (by omega)
      rw [Nat.zero_add, hsrc l hl] at hnone
      simp at hnone
    exact hwr.view.content (hwr.size hw.has) hsrc (by rw [hw.has.node]; exact href.1) hh

end

theorem soleSys_ready {size off : ℕ} (h : size ≤ bsize) : Ready soleSb (soleSys size off).fs 0 := by
  have hv : (soleSys size off).fs.view = (sole size).view := by
    have hr : Refd (sole size) 0 := by
      refine ⟨Int.zero_lt_one, fun k hk _ => ?_⟩
      by_contra hne
      have : (0 : ℤ) < ((sole size).inode k).ref := hk
      simp [sole, hne] at this
    exact hr.view_unlock
  refine { ref := Int.zero_lt_one, unique := fun k hk _ => ?_, unlocked := rfl, live := ?_, owned := ?_, noHole := ?_ }
  · by_contra hne
    have : (0 : ℤ) < (((sole size).unlock 0).inode k).ref := hk
    rw [State.unlock, State.inode_setInode_of_ne _ _ hne] at this
    simp [sole, hne] at this
  · rw [hv]
    exact (sole_writable size).live
  · rw [hv]
    exact (sole_writable size).owned
  · rw [hv]
    exact sole_noHole h 1 (sole_writable size).live

end Xv6.Fs
