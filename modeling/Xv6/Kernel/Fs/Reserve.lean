import Xv6.Kernel.Fs.File
import Xv6.Kernel.Fs.Lock
import Xv6.Kernel.Fs.Content

/-! How many blocks a turn of `filewrite` passes to `log_write`. -/
namespace Xv6.Fs
open Lib Function

namespace State

theorem mem_log (s : State) {a : ℕ} (b : ℕ) (h : a ∈ s.logged) : a ∈ (s.log b).logged := by
  unfold log
  dsimp only
  split_ifs
  · exact h
  · exact List.mem_append_left _ h

theorem mem_log_self (s : State) (b : ℕ) : b ∈ (s.log b).logged := by
  unfold log
  dsimp only
  split_ifs with hb
  · exact hb
  · exact List.mem_append_right _ (List.mem_singleton_self b)

theorem log_of_mem {s : State} {b : ℕ} (h : b ∈ s.logged) : (s.log b).logged = s.logged := if_pos h

theorem length_log_le (s : State) (b : ℕ) : (s.log b).logged.length ≤ s.logged.length + 1 := by
  unfold log
  dsimp only
  split_ifs
  · exact Nat.le_succ _
  · rw [List.length_append]
    rfl

theorem nodup_log {s : State} (b : ℕ) (h : s.logged.Nodup) : (s.log b).logged.Nodup := by
  unfold log
  dsimp only
  split_ifs with hb
  · exact h
  · exact List.Nodup.append h (List.nodup_singleton b) (List.disjoint_singleton.mpr hb)

/-- The blocks that the indirect block of entry `i` can still cost: itself and its bitmap block. -/
def pending (s : State) (i : Fin ninode) : ℕ :=
  if (s.din i).addrs ndirect ≠ 0 ∧ (s.din i).addrs ndirect ∈ s.logged then 0 else 2

theorem pending_le {s s' : State} {i : Fin ninode} (ha : (s'.din i).addrs ndirect = (s.din i).addrs ndirect)
    (hl : ∀ a ∈ s.logged, a ∈ s'.logged) : s'.pending i ≤ s.pending i := by
  unfold pending
  rw [ha]
  by_cases h : (s.din i).addrs ndirect ≠ 0 ∧ (s.din i).addrs ndirect ∈ s.logged
  · rw [if_pos h, if_pos ⟨h.1, hl _ h.2⟩]
  · rw [if_neg h]
    split_ifs <;> omega

end State

/-- At most `c` more blocks go to the log than the indirect block accounts for. -/
structure Spends (i : Fin ninode) (c : ℕ) (s s' : State) : Prop where
  len : s'.logged.length + s'.pending i ≤ s.logged.length + s.pending i + c
  nodup : s.logged.Nodup → s'.logged.Nodup
  boot : s.bitmap 0 = true → s'.bitmap 0 = true
  trans : s'.trans = s.trans

section
variable {sb : Superblock} {s s' s'' : State} {i : Fin ninode}

theorem Spends.refl (i : Fin ninode) (s : State) : Spends i 0 s s := ⟨le_rfl, id, id, rfl⟩

theorem Spends.comp {c c' : ℕ} (h : Spends i c s s') (h' : Spends i c' s' s'') : Spends i (c + c') s s'' where
  len := by
    have h₁ := h.len
    have h₂ := h'.len
    omega
  nodup hn := h'.nodup (h.nodup hn)
  boot hb := h'.boot (h.boot hb)
  trans := h'.trans.trans h.trans

theorem Spends.mono {c c' : ℕ} (h : Spends i c s s') (hc : c ≤ c') : Spends i c' s s' :=
  ⟨h.len.trans (Nat.add_le_add_left hc _), h.nodup, h.boot, h.trans⟩

theorem spends_log (s : State) (i : Fin ninode) (b : ℕ) : Spends i 1 s (s.log b) where
  len := by
    have h₁ := s.length_log_le b
    have h₂ : (s.log b).pending i ≤ s.pending i := State.pending_le rfl fun a ha => s.mem_log b ha
    omega
  nodup := State.nodup_log b
  boot hb := hb
  trans := rfl

theorem spends_log_of_mem {b : ℕ} (i : Fin ninode) (h : b ∈ s.logged) : Spends i 0 s (s.log b) where
  len := by
    have h₁ := State.log_of_mem h
    have h₂ : (s.log b).pending i ≤ s.pending i := State.pending_le rfl fun a ha => s.mem_log b ha
    rw [h₁]
    omega
  nodup := State.nodup_log b
  boot hb := hb
  trans := rfl

theorem spends_setData (s : State) (i : Fin ninode) (b : ℕ) (block : Bytes) : Spends i 0 s (s.setData b block) :=
  ⟨le_rfl, id, id, rfl⟩

theorem spends_setBit (s : State) (i : Fin ninode) (b : ℕ) : Spends i 0 s (s.setBit b true) := by
  refine ⟨le_rfl, id, fun h => ?_, rfl⟩
  show update s.bitmap b true 0 = true
  rw [update_apply, h, ite_self]

theorem spends_take (sb : Superblock) (s : State) (i : Fin ninode) (b : ℕ) : Spends i 2 s (s.take sb b) :=
  (((spends_setBit s i b).comp (spends_log _ i (sb.bblock b))).comp (spends_setData _ i b _)).comp (spends_log _ i b)

theorem length_take_le (sb : Superblock) (s : State) (b : ℕ) :
    (s.take sb b).logged.length ≤ s.logged.length + 2 := by
  have h₁ := State.length_log_le (s.setBit b true) (sb.bblock b)
  have h₂ := State.length_log_le (((s.setBit b true).log (sb.bblock b)).setData b fun _ => 0) b
  exact h₂.trans (Nat.succ_le_succ h₁)

theorem mem_take (sb : Superblock) (s : State) (b : ℕ) : b ∈ (s.take sb b).logged := State.mem_log_self _ b

theorem spends_setDin {d : Dinode} (h : d.addrs ndirect = (s.din i).addrs ndirect) : Spends i 0 s (s.setDin i d) := by
  refine ⟨?_, id, id, rfl⟩
  have h₁ : (s.setDin i d).pending i ≤ s.pending i := State.pending_le (by rw [State.din_setDin, h]) fun a ha => ha
  show s.logged.length + _ ≤ _
  omega

theorem spends_fillDirect {k : ℕ} (hk : k < ndirect) (b : ℕ) : Spends i 2 s (s.fillAddr sb i k b) := by
  refine (spends_take sb s i b).comp (spends_setDin ?_)
  exact update_of_ne hk.ne' _ _

theorem spends_fillInd {b : ℕ} (hb : b ≠ 0) (h0 : (s.din i).addrs ndirect = 0) :
    Spends i 0 s (s.fillAddr sb i ndirect b) ∧ b ∈ (s.fillAddr sb i ndirect b).logged := by
  have hmem : b ∈ (s.fillAddr sb i ndirect b).logged := mem_take sb s b
  have htake := spends_take sb s i b
  refine ⟨⟨?_, htake.nodup, htake.boot, rfl⟩, hmem⟩
  have hpend : (s.fillAddr sb i ndirect b).pending i = 0 := by
    refine if_pos ?_
    rw [State.fillAddr, State.din_setDin]
    dsimp only
    rw [update_self]
    exact ⟨hb, hmem⟩
  have hpend' : s.pending i = 2 := if_neg fun h => h.1 h0
  rw [hpend, hpend']
  exact length_take_le sb s b

theorem spends_fillEntry {k b : ℕ} (hind : (s.din i).addrs ndirect ≠ 0) : Spends i 2 s (s.fillEntry sb i k b) := by
  set ind := (s.din i).addrs ndirect with hindeq
  set s₁ := (s.take sb b).setData ind (((s.take sb b).data ind).set (4 * k) 4 b) with hs₁
  have h₁ : Spends i 2 s s₁ := (spends_take sb s i b).comp (spends_setData _ i ind _)
  show Spends i 2 s (s₁.log ind)
  by_cases hmem : ind ∈ s₁.logged
  · exact h₁.comp (spends_log_of_mem i hmem)
  · -- the log did not have it, so it had not been paid for
    refine ⟨?_, fun h => State.nodup_log _ (h₁.nodup h), h₁.boot, rfl⟩
    have hpend : (s₁.log ind).pending i = 0 := if_pos ⟨hind, s₁.mem_log_self ind⟩
    have hnot : ind ∉ s.logged := fun h => hmem (State.mem_log _ _ (State.mem_log _ _ h))
    have hpend' : s.pending i = 2 := if_neg fun h => hnot h.2
    have hlen : s₁.logged.length ≤ s.logged.length + 2 := length_take_le sb s b
    have hlog := s₁.length_log_le ind
    omega

/-- A block that is there costs nothing. -/
def mapCost (s : State) (i : Fin ninode) (bn : ℕ) : ℕ := if (s.din i).slot s.data bn ≠ 0 then 0 else 2

theorem wp_balloc_ne_zero {Q : ℕ → State → Prop} (ht : s.trans = true) (h0 : s.bitmap 0 = true)
    (hQ : ∀ b, b ≠ 0 → Q b (s.take sb b)) : Wp (fun _ => True) (balloc sb) s Q := by
  refine wp_balloc ht (fun _ => trivial) fun b _ hb => hQ b ?_
  rintro rfl
  simp [h0] at hb

theorem wp_bmapIndirect_spends {k : ℕ} (ht : s.trans = true) (h0 : s.bitmap 0 = true)
    (hind : (s.din i).addrs ndirect ≠ 0) (hz : (s.data ((s.din i).addrs ndirect)).get (4 * k) 4 = 0) :
    Wp (fun _ => True) (bmapIndirect sb i k) s fun addr s' => Spends i 2 s s' ∧ addr ∈ s'.logged := by
  unfold bmapIndirect
  rw [wp_bind, wp_get]
  dsimp only
  rw [if_pos hz, wp_bind]
  refine wp_balloc_ne_zero ht h0 fun b _ => ?_
  rw [wp_bind, wp_modify, wp_bind]
  refine (wp_logWrite (by exact ht)).mpr ?_
  rw [wp_pure]
  exact ⟨spends_fillEntry hind, State.mem_log _ _ (mem_take sb s b)⟩

theorem wp_bmap_spends {bn : ℕ} (hbn : bn < maxfile) (ht : s.trans = true) (h0 : s.bitmap 0 = true) :
    Wp (fun _ => True) (bmap sb i bn) s fun addr s' =>
      Spends i (mapCost s i bn) s s' ∧ (mapCost s i bn = 0 ∨ addr ∈ s'.logged) := by
  by_cases hne : (s.din i).slot s.data bn ≠ 0
  · rw [wp_bmap_present hbn hne, mapCost, if_pos hne]
    exact ⟨.refl i s, .inl rfl⟩
  · rw [mapCost, if_neg hne]
    rw [not_not] at hne
    unfold bmap
    rw [wp_bind, wp_get]
    rcases Dinode.slot_cases hbn.le with hlt | ⟨k, hk, rfl⟩ | rfl
    · rw [Dinode.slot_direct _ _ hlt] at hne
      rw [if_pos hlt, if_pos hne, wp_bind]
      refine wp_balloc_ne_zero ht h0 fun b _ => ?_
      rw [wp_bind, wp_modify, wp_pure]
      exact ⟨spends_fillDirect hlt b, .inr (mem_take sb s b)⟩
    · rw [if_neg (by omega), Nat.add_sub_cancel_left, if_pos hk]
      split_ifs with hind
      · rw [wp_bind]
        refine wp_balloc_ne_zero ht h0 fun b hb => ?_
        rw [wp_bind, wp_modify]
        have h₁ : Spends i 0 s (s.fillAddr sb i ndirect b) := (spends_fillInd hb hind).1
        have haddr : ((s.fillAddr sb i ndirect b).din i).addrs ndirect = b := by
          rw [State.fillAddr, State.din_setDin]
          dsimp only
          rw [update_self]
        have hzero : (s.fillAddr sb i ndirect b).data b = fun _ => 0 := update_self _ _ _
        have hw := @wp_bmapIndirect_spends sb (s.fillAddr sb i ndirect b) i k ht (h₁.boot h0)
          (by rwa [haddr]) (by rw [haddr, hzero, Bytes.get_zero])
        exact hw.mono fun addr s' h => ⟨(h₁.comp h.1).mono (by omega), .inr h.2⟩
      · rw [Dinode.slot_entry hk hind] at hne
        exact (wp_bmapIndirect_spends ht h0 hind hne).mono fun addr s' h => ⟨h.1, .inr h.2⟩
    · exact absurd hbn (lt_irrefl maxfile)

/-- The blocks that `r` bytes from `off` on lie in. -/
def turns (off r : ℕ) : ℕ := if r = 0 then 0 else (off + r - 1) / bsize - off / bsize + 1

theorem turns_succ {off r m : ℕ} (hr : r ≠ 0) (hm : min r (bsize - off % bsize) = m) :
    turns (off + m) (r - m) + 1 = turns off r := by
  have hb : bsize = 1024 := rfl
  unfold turns
  rw [hb] at hm ⊢
  rw [if_neg hr]
  split_ifs with h
  · omega
  · omega

theorem Spends.turn {bn addr : ℕ} (h : Spends i (mapCost s i bn) s s')
    (hlog : mapCost s i bn = 0 ∨ addr ∈ s'.logged) (block : Bytes) :
    Spends i 2 s ((s'.setData addr block).log addr) ∧
      (mapCost s i bn = 0 → Spends i 1 s ((s'.setData addr block).log addr)) := by
  have h₁ := h.comp (spends_setData s' i addr block)
  have hone := h₁.comp (spends_log _ i addr)
  rcases hlog with hc | hmem
  · rw [hc] at hone
    exact ⟨hone.mono (by omega), fun _ => hone⟩
  · have hc : mapCost s i bn ≤ 2 := by
      unfold mapCost
      split_ifs <;> omega
    have hzero := h₁.comp (spends_log_of_mem (s := s'.setData addr block) i hmem)
    exact ⟨hzero.mono (by omega), fun h0 => hone.mono (by omega)⟩

theorem wp_writeiLoop_spends {src : Src} {n fuel tot off : ℕ} (ht : s.trans = true) (h0 : s.bitmap 0 = true)
    (hfuel : n - tot ≤ fuel) (hmax : off + (n - tot) ≤ maxfile * bsize) :
    Wp (fun _ => True) (writeiLoop sb i src n fuel tot off) s fun _ s' =>
      Spends i (2 * turns off (n - tot)) s s' ∧
      (mapCost s i (off / bsize) = 0 → tot < n → Spends i (2 * turns off (n - tot) - 1) s s') := by
  induction fuel generalizing s tot off with
  | zero =>
    rw [writeiLoop, wp_pure]
    exact ⟨(Spends.refl i s).mono (Nat.zero_le _), fun _ h => absurd h (by omega)⟩
  | succ fuel ih =>
    rw [writeiLoop]
    by_cases hlt : tot < n
    · have hmod := Nat.mod_lt off (show 0 < bsize by decide)
      have hbn : off / bsize < maxfile := Nat.div_lt_of_lt_mul (by rw [Nat.mul_comm]; omega)
      rw [if_pos hlt, wp_bind]
      refine (wp_bmap_spends hbn ht h0).mono fun addr s₁ hmap => ?_
      rw [wp_bind, wp_get]
      dsimp only
      generalize hm : min (n - tot) (bsize - off % bsize) = m
      have hturns := turns_succ (by omega) hm
      generalize eitherCopyin (s₁.data addr) (off % bsize) src tot m = r
      obtain ⟨ok, block⟩ := r
      rw [wp_bind, wp_set]
      cases ok with
      | false =>
        rw [if_neg Bool.false_ne_true, wp_pure]
        have hs := hmap.1.comp (spends_setData s₁ i addr block)
        have hc : mapCost s i (off / bsize) ≤ 2 := by
          unfold mapCost
          split_ifs <;> omega
        exact ⟨hs.mono (by omega), fun hz _ => hs.mono (by omega)⟩
      | true =>
        obtain ⟨htwo, hone⟩ := hmap.1.turn hmap.2 block
        rw [if_pos rfl, wp_bind]
        refine (wp_logWrite (by exact hmap.1.trans.trans ht)).mpr ?_
        refine (ih (htwo.trans.trans ht) (htwo.boot h0) (by omega) (by omega)).mono fun _ s' h => ?_
        rw [show n - (tot + m) = n - tot - m by omega] at h
        exact ⟨(htwo.comp h.1).mono (by omega), fun hz _ => ((hone hz).comp h.1).mono (by omega)⟩
    · rw [if_neg hlt, wp_pure]
      exact ⟨(Spends.refl i s).mono (Nat.zero_le _), fun _ h => absurd h hlt⟩

theorem turns_le (off : ℕ) {n : ℕ} (hn : n ≤ maxChunk) : turns off n ≤ 4 ∧ (off % bsize = 0 → turns off n ≤ 3) := by
  have hb : bsize = 1024 := rfl
  have hm : maxChunk = 3072 := rfl
  rw [hm] at hn
  unfold turns
  rw [hb]
  split_ifs <;> omega

theorem spends_iupdate (s : State) (i : Fin ninode) (b : ℕ) :
    Spends i 1 s ((s.setDinode (s.inode i).inum (s.din i)).log b) :=
  (⟨le_rfl, id, id, rfl⟩ : Spends i 0 s (s.setDinode (s.inode i).inum (s.din i))).comp (spends_log _ i b)

theorem wp_writei_spends {src : Src} {off n : ℕ} (ht : s.trans = true) (h0 : s.bitmap 0 = true)
    (hn : n ≤ maxChunk) (hoff : off ≤ (s.din i).size) (hh : (s.din i).NoHole s.data) (hlog : s.logged = []) :
    Wp (fun _ => True) (writei sb i src off n) s fun _ s' => s'.logged.Nodup ∧ s'.logged.length ≤ maxOpBlocks := by
  have hnil : s.logged.Nodup ∧ s.logged.length ≤ maxOpBlocks := by
    rw [hlog]
    exact ⟨List.nodup_nil, Nat.zero_le _⟩
  have hlen : ∀ {c s'}, Spends i c s s' → c ≤ 8 → s'.logged.Nodup ∧ s'.logged.length ≤ maxOpBlocks := by
    intro c s' h hc
    have hops : maxOpBlocks = 10 := rfl
    have hle := h.len
    have hp : s.pending i ≤ 2 := by
      unfold State.pending
      split_ifs <;> omega
    have hl : s.logged.length = 0 := by rw [hlog]; rfl
    exact ⟨h.nodup hnil.1, by omega⟩
  unfold writei
  rw [wp_bind, wp_get]
  dsimp only
  split_ifs with h₁ h₂ hpos
  · rw [wp_pure]
    exact hnil
  · rw [wp_pure]
    exact hnil
  · rw [wp_bind]
    have hmax : off + n ≤ maxfile * bsize := by
      have hm : maxChunk = 3072 := rfl
      have hmf : maxfile * bsize = 274432 := rfl
      omega
    refine (wp_writeiLoop_spends ht h0 (le_refl n) hmax).mono fun off' s₁ hs => ?_
    -- an unaligned start lies in a block that is there
    have hcost : ∃ c ≤ 7, Spends i c s s₁ := by
      obtain ⟨h4, h3⟩ := turns_le off hn
      rw [Nat.sub_zero] at hs
      by_cases hal : off % bsize = 0
      · exact ⟨_, by have := h3 hal; omega, hs.1⟩
      · have hpres := (hh (off / bsize) (by have := Nat.div_add_mod' off bsize; omega)).2
        exact ⟨_, by omega, hs.2 (if_pos hpres) hpos⟩
    obtain ⟨c, hc, hsp⟩ := hcost
    have hgrow : Spends i 0 s₁ (if (s₁.din i).size < off' then s₁.setDin i { s₁.din i with size := off' } else s₁) := by
      split_ifs
      · exact spends_setDin rfl
      · exact .refl i s₁
    have hsp₂ := hsp.comp hgrow
    rw [wp_bind, wp_modify, wp_bind, wp_iupdate (hsp₂.trans.trans ht), wp_pure]
    exact hlen (hsp₂.comp (spends_iupdate _ i _)) (by omega)
  · rw [wp_bind]
    obtain rfl : n = 0 := by omega
    refine (wp_writeiLoop_spends ht h0 (le_refl 0) ?_).mono fun off' s₁ hs => ?_
    · have hmf : maxfile * bsize = 274432 := rfl
      omega
    · rw [wp_pure]
      exact hlen hs.1 (by rw [turns, if_pos (Nat.sub_zero 0)]; omega)

theorem wp_ilock_any {Q : PUnit → State → Prop}
    (hQ : Q ⟨⟩ (s.setInode i { s.inode i with
      locked := true, valid := true
      din := if (s.inode i).valid then s.din i else s.dinode (s.inode i).inum })) :
    Wp (fun _ => True) (ilock i) s Q := by
  unfold ilock
  rw [wp_bind, wp_get]
  by_cases h₁ : (s.inode i).ref < 1
  · rw [if_pos h₁, wp_bind, wp_throw]
    trivial
  by_cases h₂ : (s.inode i).locked = true
  · rw [if_neg h₁, if_pos h₂, wp_bind, wp_throw]
    trivial
  rw [if_neg h₁, if_neg h₂]
  cases hv : (s.inode i).valid with
  | true =>
    rw [hv, if_pos rfl] at hQ
    rw [if_pos rfl, wp_set, ← hv]
    rw [← hv] at hQ
    exact hQ
  | false =>
    rw [hv, if_neg Bool.false_ne_true] at hQ
    rw [if_neg Bool.false_ne_true, wp_bind, wp_set]
    split_ifs
    · rw [wp_throw]
      trivial
    · rw [wp_pure]
      exact hQ

/-- A turn of `filewrite` passes at most `MAXOPBLOCKS` blocks to `log_write`, wherever the free
blocks are, if block 0 is not one of them. -/
theorem chunk_fits_log {s : Sys} {f : Fin nfile} {page : ℕ → Option Bytes} {addr n1 : ℕ} {d : Dinode}
    (hd : d = if (s.fs.inode (s.file f).ip).valid then s.fs.din (s.file f).ip
      else s.fs.dinode (s.fs.inode (s.file f).ip).inum)
    (hn : n1 ≤ maxChunk) (hoff : (s.file f).off ≤ d.size) (hh : d.NoHole s.fs.data) (h0 : s.fs.bitmap 0 = true)
    {r : ℤ} {s' : Sys} (hrun : writeChunk sb f page addr n1 s = .ok (r, s')) :
    s'.fs.logged.Nodup ∧ s'.fs.logged.length ≤ maxOpBlocks := by
  refine Wp.of_ok (E := fun _ => True) (Q := fun _ s' => s'.fs.logged.Nodup ∧ s'.fs.logged.length ≤ maxOpBlocks) ?_ hrun
  rw [wp_writeChunk]
  refine wp_ilock_any ?_
  set fs₁ := s.fs.beginOp.setInode (s.file f).ip _ with hfs₁
  have hdin : fs₁.din (s.file f).ip = d := by
    rw [hd, hfs₁, State.din, State.inode_setInode]
    rfl
  refine (wp_writei_spends (s := fs₁) (i := (s.file f).ip) rfl h0 hn ?_ ?_ rfl).mono fun r fs₂ h => ?_
  · rwa [hdin]
  · rwa [hdin]
  · unfold iunlock
    rw [wp_bind, wp_get]
    split_ifs
    · rw [wp_bind, wp_throw]
      trivial
    · rw [wp_set]
      exact h

end

/-- The one file, open with offset `off`. -/
def soleSys (size off : ℕ) : Sys where
  fs := ((sole size).unlock 0).endOp
  file _ := { type := .inode, ref := 1, readable := true, writable := true, ip := 0, off := off }
  proc _ := { cwd := none, ofile := fun _ => none }

theorem chunk_fits_log_sole : ∃ s', writeChunk soleSb 0 (fun _ => some fun _ => 7) 0 5 (soleSys 3 2) = .ok (5, s') ∧
    s'.fs.logged.Nodup ∧ s'.fs.logged.length ≤ maxOpBlocks := by
  have hmap : (writeChunk soleSb 0 (fun _ => some fun _ => 7) 0 5 (soleSys 3 2)).map Prod.fst = .ok 5 := by
    decide +kernel
  cases hrun : writeChunk soleSb 0 (fun _ => some fun _ => 7) 0 5 (soleSys 3 2) with
  | error e => simp [hrun, Except.map] at hmap
  | ok r =>
    obtain ⟨r, s'⟩ := r
    obtain rfl : r = 5 := by simpa [hrun, Except.map] using hmap
    refine ⟨s', rfl, chunk_fits_log (d := soleDinode 3) rfl (by decide) (by decide) ?_ rfl hrun⟩
    have hh : (sole 3).view.NoHole 1 := sole_noHole (by decide) 1 (sole_writable 3).live
    rwa [View.NoHole, show (sole 3).view.node 1 = soleDinode 3 from (sole_has 3).node] at hh

/-- A disk whose free blocks are block 0 and one or two in each other block of the bitmap; the one
file ends in its twelfth block. -/
def sparseSb : Superblock := { size := 3 * bpb + 2, ninodes := 2, inodestart := 2, bmapstart := 3, size_lt := by decide }

def sparseDinode : Dinode :=
  { type := .file, major := 0, minor := 0, nlink := 1, size := 11 * bsize + 1
    addrs := fun k => if k < ndirect then 100 + k else 0 }

def sparse : Sys where
  fs :=
    { dinode := fun _ => sparseDinode
      bitmap := fun b => Nat.blt 1 (b % bpb) || b == 1 || b == 8193 || b == 16385
      data := fun _ _ => 0
      trans := false
      logged := []
      inode := fun i => if i = 0 then { inum := 1, ref := 1, locked := false, valid := true, din := sparseDinode }
        else { inum := 0, ref := 0, locked := false, valid := false, din := .zero } }
  file _ := { type := .inode, ref := 1, readable := true, writable := true, ip := 0, off := 11 * bsize + 1 }
  proc _ := { cwd := none, ofile := fun _ => none }

/-- Block 0 as the indirect block is taken for none, and another one is allocated. -/
theorem chunk_exceeds_log : (sparse.file 0).off ≤ (sparse.fs.din 0).size ∧ (sparse.fs.din 0).NoHole sparse.fs.data ∧
    (writeChunk sparseSb 0 (fun _ => some fun _ => 0) 0 maxChunk sparse).map
      (fun r => (r.1, r.2.fs.logged.length)) = .ok (3072, 11) := by
  refine ⟨by decide, fun bn hbn => ?_, by decide +kernel⟩
  have hlt : bn < ndirect := by
    have h : bn * 1024 < 11 * 1024 + 1 := hbn
    show bn < 12
    omega
  refine ⟨lt_maxfile hlt, ?_⟩
  rw [Dinode.slot_direct _ _ hlt]
  show (if bn < ndirect then 100 + bn else 0) ≠ 0
  rw [if_pos hlt]
  omega

end Xv6.Fs
