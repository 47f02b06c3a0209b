import Xv6.Kernel.Fs.Write

/-! `readi`: where no block is missing it changes nothing and delivers the bytes of the file. -/
namespace Xv6.Fs
open Lib
open Vm (maxva walks lt_maxva_of_walks)

section
variable {sb : Superblock} {s : State} {i : Fin ninode}

theorem wp_bmap_present {E : Halt → Prop} {Q : ℕ → State → Prop} {bn : ℕ} (hbn : bn < maxfile)
    (hne : (s.din i).slot s.data bn ≠ 0) : Wp E (bmap sb i bn) s Q ↔ Q ((s.din i).slot s.data bn) s := by
  unfold bmap
  rw [wp_bind, wp_get]
  rcases Dinode.slot_cases hbn.le with hlt | ⟨k, hk, rfl⟩ | rfl
  · rw [Dinode.slot_direct _ _ hlt] at hne ⊢
    rw [if_pos hlt, if_neg hne, wp_pure]
  · have hind : (s.din i).addrs ndirect ≠ 0 := fun h0 => hne (Dinode.slot_entry_of_zero hk h0)
    rw [Dinode.slot_entry hk hind] at hne ⊢
    rw [if_neg (by omega), Nat.add_sub_cancel_left, if_pos hk, if_neg hind]
    unfold bmapIndirect
    rw [wp_bind, wp_get]
    dsimp only
    rw [if_neg hne, wp_pure]
  · exact absurd hbn (lt_irrefl maxfile)

theorem byte_add {d : Dinode} {data : ℕ → Bytes} {off k : ℕ} (hk : k < bsize - off % bsize) :
    d.byte data (off + k) = data (d.slot data (off / bsize)) (off % bsize + k) := by
  have hb : bsize = 1024 := rfl
  have h : (off + k) / bsize = off / bsize ∧ (off + k) % bsize = off % bsize + k := by
    rw [hb] at hk ⊢
    omega
  rw [Dinode.byte, h.1, h.2]

theorem wp_readiLoop_turn {E : Halt → Prop} {Q : ℕ × Bytes → State → Prop} {dst : Dst} {n fuel tot off : ℕ} {mem : Bytes}
    (hlt : tot < n) (hbn : off / bsize < maxfile) (hne : (s.din i).slot s.data (off / bsize) ≠ 0) {m : ℕ}
    (hm : min (n - tot) (bsize - off % bsize) = m) {block : Bytes}
    (hblock : block = fun k => s.data ((s.din i).slot s.data (off / bsize)) (off % bsize + k)) :
    Wp E (readiLoop sb i dst n (fuel + 1) tot off mem) s Q ↔
      if (eitherCopyout dst mem tot block m).1 then
        Wp E (readiLoop sb i dst n fuel (tot + m) (off + m) (eitherCopyout dst mem tot block m).2) s Q
      else Q (tot, (eitherCopyout dst mem tot block m).2) s := by
  rw [readiLoop, if_pos hlt, wp_bind, wp_bmap_present hbn hne, wp_bind, wp_get]
  dsimp only
  rw [hm, ← hblock]
  split_ifs with hok
  · exact Iff.rfl
  · exact wp_pure _

/-- What the loop of `readi` returns: all of the bytes to a kernel buffer. -/
def Delivers (s : State) (i : Fin ninode) (dst : Dst) (tot off n : ℕ) (mem : Bytes) (r : ℕ × Bytes) : Prop :=
  r.1 ≤ tot + n ∧ (dst = .kernel → r = (tot + n, mem.blit tot n fun k => (s.din i).byte s.data (off + k)))

theorem delivers_zero (s : State) (i : Fin ninode) (dst : Dst) (tot off : ℕ) (mem : Bytes) :
    Delivers s i dst tot off 0 mem (tot, mem) :=
  ⟨le_rfl, fun _ => by rw [Bytes.blit_zero, Nat.add_zero]⟩

theorem wp_readiLoop {dst : Dst} {n fuel tot off : ℕ} {mem : Bytes} (hfuel : n - tot ≤ fuel) (htot : tot ≤ n)
    (hpres : ∀ o, off ≤ o → o < off + (n - tot) → o / bsize < maxfile ∧ (s.din i).slot s.data (o / bsize) ≠ 0) :
    Wp (fun _ => False) (readiLoop sb i dst n fuel tot off mem) s fun r s' =>
      s' = s ∧ Delivers s i dst tot off (n - tot) mem r := by
  induction fuel generalizing tot off mem with
  | zero =>
    rw [readiLoop, wp_pure, show n - tot = 0 by omega]
    exact ⟨rfl, delivers_zero s i dst tot off mem⟩
  | succ fuel ih =>
    by_cases hlt : tot < n
    · have hmod := Nat.mod_lt off (show 0 < bsize by decide)
      obtain ⟨hbn, hne⟩ := hpres off le_rfl (by omega)
      obtain ⟨m, hm⟩ : ∃ m, min (n - tot) (bsize - off % bsize) = m := ⟨_, rfl⟩
      set block : Bytes := fun k => s.data ((s.din i).slot s.data (off / bsize)) (off % bsize + k) with hblock
      rw [wp_readiLoop_turn hlt hbn hne hm hblock]
      have hker : dst = .kernel → eitherCopyout dst mem tot block m = (true, mem.blit tot m block) := by
        rintro rfl
        rfl
      generalize eitherCopyout dst mem tot block m = r at hker
      obtain ⟨ok, mem'⟩ := r
      cases ok with
      | false =>
        rw [if_neg Bool.false_ne_true]
        exact ⟨rfl, Nat.le_add_right _ _, fun hd => by simpa using hker hd⟩
      | true =>
        rw [if_pos rfl]
        refine (ih (by omega) (by omega) fun o ho ho' => hpres o (by omega) (by omega)).mono
          fun r s' hr => ⟨hr.1, ?_, fun hd => ?_⟩
        · have := hr.2.1
          omega
        · obtain rfl : mem' = mem.blit tot m block := (Prod.ext_iff.mp (hker hd)).2
          have hblit : (mem.blit tot m block).blit (tot + m) (n - (tot + m))
              (fun k => (s.din i).byte s.data (off + m + k)) =
              mem.blit tot (m + (n - (tot + m))) fun k => (s.din i).byte s.data (off + k) :=
            Bytes.blit_blit (fun k hk => (byte_add (by omega)).symm) (fun k _ => by rw [Nat.add_assoc]) mem tot
          rw [hr.2.2 hd, hblit, show m + (n - (tot + m)) = n - tot by omega,
            show tot + m + (n - (tot + m)) = tot + (n - tot) by omega]
    · rw [readiLoop, if_neg hlt, wp_pure, show n - tot = 0 by omega]
      exact ⟨rfl, delivers_zero s i dst tot off mem⟩

/-- A process gets the bytes of the file up to the first piece that cannot be stored as a whole. -/
theorem wp_readiLoop_user {mapped : ℕ → Bool} {addr n fuel tot off : ℕ} {mem : Bytes} (hfuel : n - tot ≤ fuel) (htot : tot ≤ n)
    (haddr : addr + tot < 2 ^ 64)
    (hpres : ∀ o, off ≤ o → o < off + (n - tot) → o / bsize < maxfile ∧ (s.din i).slot s.data (o / bsize) ≠ 0) :
    Wp (fun _ => False) (readiLoop sb i (.user mapped addr) n fuel tot off mem) s fun r s' => s' = s ∧ tot ≤ r.1 ∧
      Received (walks mapped) (addr + tot) (n - tot) (fun k => (s.din i).byte s.data (off + k)) mem (r.1 - tot) r.2 := by
  induction fuel generalizing tot off mem with
  | zero =>
    rw [readiLoop, wp_pure]
    dsimp only
    rw [Nat.sub_self]
    exact ⟨rfl, le_rfl, received_zero⟩
  | succ fuel ih =>
    by_cases hlt : tot < n
    · have hmod := Nat.mod_lt off (show 0 < bsize by decide)
      obtain ⟨hbn, hne⟩ := hpres off le_rfl (by omega)
      obtain ⟨m, hm⟩ : ∃ m, min (n - tot) (bsize - off % bsize) = m := ⟨_, rfl⟩
      set block : Bytes := fun k => s.data ((s.din i).slot s.data (off / bsize)) (off % bsize + k) with hblock
      rw [wp_readiLoop_turn hlt hbn hne hm hblock]
      have hcopy : eitherCopyout (.user mapped addr) mem tot block m = copyout (walks mapped) mem (addr + tot) block m := by
        rw [eitherCopyout, Nat.mod_eq_of_lt haddr]
        rfl
      obtain ⟨hframe, hok, hstored⟩ := copyoutLoop_spec (walks mapped) block (le_refl m) mem 0 (addr + tot)
      rw [hcopy]
      unfold copyout
      split_ifs with hgood
      · have hlast := lt_maxva_of_walks (hok.mp hgood (m - 1) (by omega))
        unfold maxva at hlast
        refine (ih (by omega) (by omega) (by omega) fun o ho ho' => hpres o (by omega) (by omega)).mono ?_
        rintro ⟨r, mem'⟩ s' ⟨hs, hle, hrec⟩
        refine ⟨hs, by omega, ?_⟩
        have hpiece : ∀ k < m, (fun j => block (0 + j)) k = (s.din i).byte s.data (off + k) := by
          intro k hk
          rw [byte_add (by omega), hblock]
          dsimp only
          rw [Nat.zero_add]
        have hsrc : (fun k => (s.din i).byte s.data (off + m + k)) = fun k => (s.din i).byte s.data (off + (m + k)) := by
          simp only [Nat.add_assoc]
        rw [hstored hgood, ← Nat.add_assoc, hsrc] at hrec
        have := Received.append (fun k => (s.din i).byte s.data (off + k)) hpiece hrec
        dsimp only at hle this ⊢
        rwa [show m + (n - (tot + m)) = n - tot by omega, show m + (r - (tot + m)) = r - tot by omega] at this
      · refine ⟨rfl, le_rfl, ?_⟩
        dsimp only
        rw [Nat.sub_self]
        refine ⟨Nat.zero_le _, by omega, fun x hx => hframe x (by omega), fun hall => absurd (hok.mpr fun k hk => ?_) hgood⟩
        exact hall k (by omega)
    · rw [readiLoop, if_neg hlt, wp_pure]
      dsimp only
      rw [Nat.sub_self]
      exact ⟨rfl, le_rfl, received_zero⟩

/-- The bytes that `readi` reads. -/
def readLen (d : Dinode) (off n : ℕ) : ℕ :=
  if d.size < off ∨ (off + n) % 2 ^ 32 < off then 0 else min n (d.size - off)

theorem readLen_le {d : Dinode} {off n k : ℕ} (h : k < readLen d off n) : off + k < d.size ∧ k < n := by
  unfold readLen at h
  split_ifs at h with hout
  · omega
  · omega

theorem wp_readi_iff {E : Halt → Prop} {Q : ℕ × Bytes → State → Prop} {dst : Dst} {off n : ℕ} {mem : Bytes} (hn : n < 2 ^ 32) :
    Wp E (readi sb i dst mem off n) s Q ↔
      Wp E (readiLoop sb i dst (readLen (s.din i) off n) (readLen (s.din i) off n) 0 off mem) s Q := by
  unfold readi readLen
  rw [wp_bind, wp_get]
  dsimp only
  by_cases hout : (s.din i).size < off ∨ (off + n) % 2 ^ 32 < off
  · rw [if_pos hout, if_pos hout, readiLoop]
  · have hlen : (if (s.din i).size < (off + n) % 2 ^ 32 then (s.din i).size - off else n) =
        min n ((s.din i).size - off) := by
      split_ifs with hcut
      · omega
      · omega
    rw [if_neg hout, if_neg hout, hlen]

theorem present_of_readLen {off n : ℕ} (hh : (s.din i).NoHole s.data) (o : ℕ) (ho : off ≤ o)
    (ho' : o < off + (readLen (s.din i) off n - 0)) : o / bsize < maxfile ∧ (s.din i).slot s.data (o / bsize) ≠ 0 := by
  have hlt := (readLen_le (show o - off < readLen (s.din i) off n by omega)).1
  have := Nat.div_mul_le_self o bsize
  exact hh _ (by omega)

theorem wp_readi {dst : Dst} {off n : ℕ} {mem : Bytes} (hn : n < 2 ^ 32) (hh : (s.din i).NoHole s.data) :
    Wp (fun _ => False) (readi sb i dst mem off n) s fun r s' =>
      s' = s ∧ Delivers s i dst 0 off (readLen (s.din i) off n) mem r :=
  (wp_readi_iff hn).mpr (wp_readiLoop (le_refl _) (Nat.zero_le _) (present_of_readLen hh))

theorem wp_readi_user {mapped : ℕ → Bool} {addr off n : ℕ} {mem : Bytes} (hn : n < 2 ^ 32) (haddr : addr < 2 ^ 64)
    (hh : (s.din i).NoHole s.data) : Wp (fun _ => False) (readi sb i (.user mapped addr) mem off n) s fun r s' => s' = s ∧
      Received (walks mapped) addr (readLen (s.din i) off n) (fun k => (s.din i).byte s.data (off + k)) mem r.1 r.2 := by
  refine (wp_readi_iff hn).mpr ((wp_readiLoop_user (le_refl _) (Nat.zero_le _) haddr (present_of_readLen hh)).mono ?_)
  rintro r s' ⟨hs, -, hr⟩
  exact ⟨hs, hr⟩

end

end Xv6.Fs
