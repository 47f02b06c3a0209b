import Xv6.Kernel.Fs.Bmap

/-! `writei`: the bytes of the source replace those of the file. -/
namespace Xv6.Fs
open Lib Function
open Vm (maxva)

/-- The bytes of the source of a write, where they can be found. -/
def Src.byte : Src → ℕ → Option UInt8
  | .kernel src, k => some (src k)
  | .user page va, k => userByte (walkaddr page) ((va + k) % 2 ^ 64)

theorem Src.byte_user (page : ℕ → Option Bytes) (va k : ℕ) :
    (Src.user page va).byte k = userByte (walkaddr page) ((va + k) % 2 ^ 64) := rfl

theorem userByte_eq_none {page : ℕ → Option Bytes} {a : ℕ} (h : maxva ≤ a) :
    userByte (walkaddr page) a = none := by
  have hround : maxva ≤ pgRoundDown a := by
    have hdvd : maxva = maxva / pgsize * pgsize := by decide
    unfold pgRoundDown
    rw [hdvd]
    exact Nat.mul_le_mul_right _ (Nat.div_le_div_right h)
  unfold userByte walkaddr
  rw [if_pos hround]
  rfl

theorem Src.isSome_user {page : ℕ → Option Bytes} {va tot len : ℕ} (hlen : len ≤ 2 ^ 32) :
    (∀ k < len, (userByte (walkaddr page) ((va + tot) % 2 ^ 64 + k)).isSome) ↔
      ∀ k < len, ((Src.user page va).byte (tot + k)).isSome := by
  have hmax : maxva = 2 ^ 38 := rfl
  have hmod : ∀ k, (va + tot) % 2 ^ 64 + k < 2 ^ 64 →
      (va + (tot + k)) % 2 ^ 64 = (va + tot) % 2 ^ 64 + k := fun k hk => by omega
  rcases Nat.eq_zero_or_pos len with rfl | hpos
  · exact ⟨fun _ k hk => absurd hk (by omega), fun _ k hk => absurd hk (by omega)⟩
  · simp only [Src.byte_user]
    by_cases hlow : (va + tot) % 2 ^ 64 < maxva
    · have heq : ∀ k < len, (va + (tot + k)) % 2 ^ 64 = (va + tot) % 2 ^ 64 + k := fun k hk =>
        hmod k (by omega)
      constructor
      · intro h k hk
        rw [heq k hk]
        exact h k hk
      · intro h k hk
        rw [← heq k hk]
        exact h k hk
    · constructor
      · intro h
        have := h 0 hpos
        rw [userByte_eq_none (by omega)] at this
        simp at this
      · intro h
        have := h 0 hpos
        rw [hmod 0 (Nat.mod_lt _ (by decide)), userByte_eq_none (by omega)] at this
        simp at this

theorem eitherCopyin_spec {len : ℕ} (hlen : len ≤ 2 ^ 32) (dst : Bytes) (d : ℕ) (src : Src) (tot : ℕ) :
    (∀ x, x < d ∨ d + len ≤ x → (eitherCopyin dst d src tot len).2 x = dst x) ∧
    ((eitherCopyin dst d src tot len).1 = true ↔ ∀ k < len, (src.byte (tot + k)).isSome) ∧
    ((eitherCopyin dst d src tot len).1 = true → ∀ k < len,
      src.byte (tot + k) = some ((eitherCopyin dst d src tot len).2 (d + k))) := by
  cases src with
  | kernel src =>
    refine ⟨fun x hx => ?_, ⟨fun _ k _ => rfl, fun _ => rfl⟩, fun _ k hk => ?_⟩
    · exact if_neg (by omega)
    · show some (src (tot + k)) = some (dst.blit d len (fun k => src (tot + k)) (d + k))
      rw [Bytes.blit, if_pos (by omega), Nat.add_sub_cancel_left]
  | user page va =>
    obtain ⟨hframe, hok, hcopy⟩ :=
      @copyinLoop_spec (walkaddr page) len len le_rfl dst d ((va + tot) % 2 ^ 64)
    refine ⟨hframe, hok.trans (Src.isSome_user hlen), fun h k hk => ?_⟩
    have hmax : maxva = 2 ^ 38 := rfl
    have hlow : (va + tot) % 2 ^ 64 < maxva := by
      by_contra hge
      have := hok.mp h 0 (by omega)
      rw [userByte_eq_none (by omega)] at this
      simp at this
    have hmod : (va + (tot + k)) % 2 ^ 64 = (va + tot) % 2 ^ 64 + k := by omega
    rw [Src.byte_user, hmod]
    exact hcopy h k hk

/-- The blocks missing below block `hi` of `j`, with the indirect block if it will be needed. -/
def View.lacks (v : View) (j hi : ℕ) : ℕ :=
  ((Finset.range hi).filter fun bn => v.slot j bn = 0).card + if ndirect < hi ∧ v.slot j maxfile = 0 then 1 else 0

theorem View.lack_le_lacks (v : View) (j : ℕ) {bn hi : ℕ} (hbn : bn < hi) : v.lack j bn ≤ v.lacks j hi := by
  unfold lack lacks
  refine Nat.add_le_add ?_ ?_
  · split_ifs with h0
    · exact Finset.card_pos.mpr ⟨bn, Finset.mem_filter.mpr ⟨Finset.mem_range.mpr hbn, h0⟩⟩
    · exact Nat.zero_le _
  · by_cases h0 : ndirect ≤ bn ∧ v.slot j maxfile = 0
    · rw [if_pos h0, if_pos ⟨h0.1.trans_lt hbn, h0.2⟩]
    · rw [if_neg h0]
      exact Nat.zero_le _

section
variable {sb : Superblock} {s s' : State} {i : Fin ninode} {src : Src}

theorem Mapped.lacks {bn addr hi : ℕ} (h : Mapped sb i bn s addr s') (hlive : s.view.Live sb (s.inode i).inum)
    (hbn : bn < hi) (hhi : hi ≤ maxfile) :
    s'.view.lacks (s.inode i).inum hi + s.view.lack (s.inode i).inum bn ≤ s.view.lacks (s.inode i).inum hi := by
  set j := (s.inode i).inum
  have hfil : (Finset.range hi).filter (fun l => s'.view.slot j l = 0) =
      ((Finset.range hi).filter fun l => s.view.slot j l = 0).erase bn := by
    ext l
    simp only [Finset.mem_filter, Finset.mem_range, Finset.mem_erase]
    constructor
    · rintro ⟨hl, h0⟩
      rw [h.slot l (hl.trans_le hhi)] at h0
      split_ifs at h0 with hlb
      · exact absurd h0 h.ne
      · exact ⟨hlb, hl, h0⟩
    · rintro ⟨hlb, hl, h0⟩
      rw [h.slot l (hl.trans_le hhi), if_neg hlb]
      exact ⟨hl, h0⟩
  have hcard : ((Finset.range hi).filter fun l => s'.view.slot j l = 0).card +
      (if s.view.slot j bn = 0 then 1 else 0) ≤ ((Finset.range hi).filter fun l => s.view.slot j l = 0).card := by
    rw [hfil]
    split_ifs with h0
    · have hmem : bn ∈ (Finset.range hi).filter fun l => s.view.slot j l = 0 :=
        Finset.mem_filter.mpr ⟨Finset.mem_range.mpr hbn, h0⟩
      rw [Finset.card_erase_add_one hmem]
    · rw [Nat.add_zero]
      exact Finset.card_erase_le
  have hind : (if ndirect < hi ∧ s'.view.slot j maxfile = 0 then 1 else 0) +
      (if ndirect ≤ bn ∧ s.view.slot j maxfile = 0 then 1 else 0) ≤
      if ndirect < hi ∧ s.view.slot j maxfile = 0 then 1 else 0 := by
    have hslot : s.view.slot j maxfile ≠ 0 → s'.view.slot j maxfile ≠ 0 := fun hne => by
      rwa [h.grow.slot j maxfile hlive le_rfl (.inl hne)]
    have hnew : ndirect ≤ bn → s'.view.slot j maxfile ≠ 0 := fun hle => by
      refine View.ind_ne_zero hle (hbn.trans_le hhi) ?_
      rw [h.slot bn (hbn.trans_le hhi), if_pos rfl]
      exact h.ne
    by_cases h0 : s.view.slot j maxfile = 0
    · by_cases hle : ndirect ≤ bn
      · have := hnew hle
        simp [h0, hle, this, hle.trans_lt hbn]
      · simp only [hle, if_false, h0, and_true]
        split_ifs <;> omega
    · have := hslot h0
      simp [h0, this]
  unfold View.lacks View.lack
  omega

/-- The part of a write to `j` that begins at `off` of the file and `tot` of the source, is `n` bytes
long and has come to `off'`. It has come to its end unless the source ended. -/
structure View.Wrote (sb : Superblock) (j : ℕ) (src : Src) (tot off n off' : ℕ) (v v' : View) : Prop
    extends View.Keep sb j v v' where
  le : off ≤ off'
  le_add : off' ≤ off + n
  present : ∀ o, off ≤ o → o < off' → v'.slot j (o / bsize) ≠ 0
  bytes : ∀ o, off ≤ o → o < off' → src.byte (tot + (o - off)) = some (v'.byte j o)
  rest : ∀ o, o / bsize < maxfile → v.slot j (o / bsize) ≠ 0 → o < off ∨ off + n ≤ o → v'.byte j o = v.byte j o
  fault : off' < off + n → ∃ k < n, src.byte (tot + k) = none

theorem View.Wrote.append {v v' v'' : View} {j tot off m r off' : ℕ} (hlive : v.Live sb j)
    (h : View.Wrote sb j src tot off m (off + m) v v') (h' : View.Wrote sb j src (tot + m) (off + m) r off' v' v'')
    (hmax : off + m ≤ maxfile * bsize) : View.Wrote sb j src tot off (m + r) off' v v'' := by
  have hlt : ∀ o, o < off + m → o / bsize < maxfile := fun o ho =>
    Nat.div_lt_of_lt_mul (by rw [Nat.mul_comm]; omega)
  have hlive' : v'.Live sb j := by rwa [h.live]
  have hle := h'.le
  refine ⟨h.toKeep.trans h'.toKeep hlive, ?_, ?_, fun o ho ho' => ?_, fun o ho ho' => ?_,
    fun o hmx hne ho => ?_, fun hf => ?_⟩
  · omega
  · have := h'.le_add
    omega
  · by_cases hm : o < off + m
    · have hp := h.present o ho hm
      rwa [h'.slot _ _ hlive' (hlt o hm).le (.inl hp)]
    · exact h'.present o (by omega) ho'
  · by_cases hm : o < off + m
    · rw [h'.rest o (hlt o hm) (h.present o ho hm) (.inl hm)]
      exact h.bytes o ho hm
    · rw [← h'.bytes o (by omega) ho']
      congr 1
      omega
  · have hne' : v'.slot j (o / bsize) ≠ 0 := by
      rwa [h.slot _ _ hlive hmx.le (.inl hne)]
    rw [h'.rest o hmx hne' (by omega), h.rest o hmx hne (by omega)]
  · obtain ⟨k, hk, hnone⟩ := h'.fault (by omega)
    exact ⟨m + k, by omega, by rwa [← Nat.add_assoc]⟩

/-- The loop of `writei` up to `off'`. -/
structure Wrote (sb : Superblock) (i : Fin ninode) (src : Src) (tot off n : ℕ) (s : State) (off' : ℕ)
    (s' : State) : Prop where
  touches : State.Touches i s s'
  din : s'.din i = { s.din i with addrs := (s'.din i).addrs }
  view : View.Wrote sb (s.inode i).inum src tot off n off' s.view s'.view

theorem Writable.wrote_zero (h : Writable sb s i) (src : Src) (tot off : ℕ) : Wrote sb i src tot off 0 s off s where
  touches := .refl i s
  din := rfl
  view :=
    { h.owned.grow_refl.toKeep with
      le := le_rfl
      le_add := le_rfl
      present := fun o h₁ h₂ => absurd h₁ (by omega)
      bytes := fun o h₁ h₂ => absurd h₁ (by omega)
      rest := fun _ _ _ _ => rfl
      fault := fun h => absurd h (by omega) }

theorem Writable.touches (h : Writable sb s i) (ht : State.Touches i s s')
    (hk : View.Keep sb (s.inode i).inum s.view s'.view) : Writable sb s' i where
  has := ht.has h.has
  live := by
    rw [ht.inum, hk.live]
    exact h.live
  owned := hk.owned

theorem Wrote.append {tot off m r off' : ℕ} {s'' : State} (hlive : s.view.Live sb (s.inode i).inum)
    (h : Wrote sb i src tot off m s (off + m) s') (h' : Wrote sb i src (tot + m) (off + m) r s' off' s'')
    (hmax : off + m ≤ maxfile * bsize) : Wrote sb i src tot off (m + r) s off' s'' := by
  have hv := h'.view
  rw [h.touches.inum] at hv
  refine ⟨h.touches.comp h'.touches, ?_, h.view.append hlive hv hmax⟩
  rw [h'.din, h.din]

theorem State.touches_setData (s : State) (i : Fin ninode) (b : ℕ) (block : Bytes) :
    State.Touches i s (s.setData b block) where
  dinode _ _ := rfl
  trans := rfl
  inode := (update_eq_self i s.inode).symm

theorem Mapped.slot_setData {bn addr : ℕ} (h : Mapped sb i bn s addr s') (hw : Writable sb s i)
    (hbn : bn < maxfile) (block : Bytes) (l : ℕ) :
    (s'.setData addr block).view.slot (s.inode i).inum l = s'.view.slot (s.inode i).inum l := by
  have hlive : s'.view.Live sb (s.inode i).inum := by
    rw [h.grow.toKeep.live]
    exact hw.live
  have hat : s'.view.slot (s.inode i).inum bn = addr := by rw [h.slot bn hbn, if_pos rfl]
  have hne : s'.view.slot (s.inode i).inum bn ≠ 0 := hat ▸ h.ne
  have := h.grow.owned.slot_store hlive hbn hne block hlive (l := l)
  rw [hat] at this
  exact this

theorem Mapped.wrote_frame {bn addr off n : ℕ} {block : Bytes} (h : Mapped sb i bn s addr s')
    (hw : Writable sb s i) (hbn : bn < maxfile) (hoff : off / bsize = bn)
    (hframe : ∀ x, x < off % bsize ∨ off % bsize + n ≤ x → block x = s'.data addr x) :
    View.Keep sb (s.inode i).inum s.view (s'.setData addr block).view ∧
    ∀ o, o / bsize < maxfile → s.view.slot (s.inode i).inum (o / bsize) ≠ 0 → o < off ∨ off + n ≤ o →
      (s'.setData addr block).view.byte (s.inode i).inum o = s.view.byte (s.inode i).inum o := by
  set j := (s.inode i).inum
  have hlive : s'.view.Live sb j := by
    rw [h.grow.toKeep.live]
    exact hw.live
  have hat : s'.view.slot j bn = addr := by rw [h.slot bn hbn, if_pos rfl]
  have hne : s'.view.slot j bn ≠ 0 := hat ▸ h.ne
  have hview : (s'.setData addr block).view = s'.view.store (s'.view.slot j bn) block := by
    rw [hat]
    rfl
  refine ⟨?_, fun o hmx h0 ho => ?_⟩
  · rw [hview]
    exact h.grow.toKeep.trans (h.grow.owned.keep_store hlive hbn hne block) hw.live
  · have hs := h.grow.slot j (o / bsize) hw.live hmx.le (.inl h0)
    have hown := h.grow.own (o / bsize) hmx h0
    rw [View.byte_eq, View.byte_eq, h.slot_setData hw hbn, hs, ← hown]
    show update s'.data addr block (s.view.slot j (o / bsize)) (o % bsize) = _
    by_cases hob : o / bsize = bn
    · have ha : s.view.slot j (o / bsize) = addr := by rw [← hs, hob, hat]
      rw [ha, update_self]
      refine hframe _ ?_
      have h₁ := Nat.div_add_mod' o bsize
      have h₂ := Nat.div_add_mod' off bsize
      rw [hob] at h₁
      rw [hoff] at h₂
      omega
    · rw [update_of_ne]
      · rfl
      · intro ha
        rw [← hs, ← hat] at ha
        exact hob (h.grow.owned.inj j _ j bn hlive hlive hmx.le hbn.le (by rwa [hs]) ha).2

theorem Mapped.wrote {addr off tot m : ℕ} (h : Mapped sb i (off / bsize) s addr s') (hw : Writable sb s i)
    (hbn : off / bsize < maxfile) (hm : m ≤ bsize - off % bsize)
    (hok : (eitherCopyin (s'.data addr) (off % bsize) src tot m).1 = true) :
    Wrote sb i src tot off m s (off + m)
      (s'.setData addr (eitherCopyin (s'.data addr) (off % bsize) src tot m).2) := by
  have hb : bsize = 1024 := rfl
  obtain ⟨hframe, -, hcopy⟩ := eitherCopyin_spec (show m ≤ 2 ^ 32 by omega) (s'.data addr) (off % bsize) src tot
  obtain ⟨hkeep, hrest⟩ := h.wrote_frame hw hbn rfl hframe
  have hdiv : ∀ o, off ≤ o → o < off + m → o / bsize = off / bsize ∧ o % bsize = off % bsize + (o - off) := by
    intro o ho ho'
    rw [hb] at hm ⊢
    omega
  have hat : s'.view.slot (s.inode i).inum (off / bsize) = addr := by rw [h.slot _ hbn, if_pos rfl]
  refine ⟨h.touches.comp (s'.touches_setData i addr _), h.din, hkeep, Nat.le_add_right _ _, le_rfl,
    fun o ho ho' => ?_, fun o ho ho' => ?_, hrest, fun hf => absurd hf (lt_irrefl _)⟩
  · rw [h.slot_setData hw hbn, (hdiv o ho ho').1, hat]
    exact h.ne
  · rw [hcopy hok (o - off) (by omega)]
    rw [View.byte_eq, h.slot_setData hw hbn, (hdiv o ho ho').1, hat, (hdiv o ho ho').2]
    show _ = some (update s'.data addr _ addr _)
    rw [update_self]

theorem Mapped.wrote_fault {addr off tot m n : ℕ} (h : Mapped sb i (off / bsize) s addr s') (hw : Writable sb s i)
    (hbn : off / bsize < maxfile) (hm : m ≤ bsize - off % bsize) (hmn : m ≤ n)
    (hok : (eitherCopyin (s'.data addr) (off % bsize) src tot m).1 = false) :
    Wrote sb i src tot off n s off
      (s'.setData addr (eitherCopyin (s'.data addr) (off % bsize) src tot m).2) := by
  have hb : bsize = 1024 := rfl
  obtain ⟨hframe, hiff, -⟩ := eitherCopyin_spec (show m ≤ 2 ^ 32 by omega) (s'.data addr) (off % bsize) src tot
  obtain ⟨hkeep, hrest⟩ := h.wrote_frame hw hbn rfl hframe
  refine ⟨h.touches.comp (s'.touches_setData i addr _), h.din, hkeep, le_rfl, Nat.le_add_right _ _,
    fun o ho ho' => absurd ho (by omega), fun o ho ho' => absurd ho (by omega),
    fun o hmx h0 ho => hrest o hmx h0 (by omega), fun _ => ?_⟩
  rw [hok] at hiff
  simp only [Bool.false_eq_true, false_iff, not_forall] at hiff
  obtain ⟨k, hk, hnone⟩ := hiff
  exact ⟨k, by omega, by simpa using hnone⟩

/-- `writei` cannot go on: there are fewer free blocks than it needs. -/
def Short (sb : Superblock) (s : State) (i : Fin ninode) (hi : ℕ) (e : Halt) : Prop :=
  e = .panic .ballocOutOfBlocks ∧ s.view.nfree sb < s.view.lacks (s.inode i).inum hi

theorem Wrote.log {tot off n off' : ℕ} (h : Wrote sb i src tot off n s off' s') (b : ℕ) :
    Wrote sb i src tot off n s off' (s'.log b) :=
  ⟨⟨h.touches.dinode, h.touches.trans, h.touches.inode⟩, h.din, h.view⟩

theorem Mapped.short {bn addr hi : ℕ} {block : Bytes} (h : Mapped sb i bn s addr s') (hw : Writable sb s i)
    (hbn : bn < hi) (hhi : hi ≤ maxfile) {b : ℕ} {e : Halt}
    (he : Short sb ((s'.setData addr block).log b) i hi e) : Short sb s i hi e := by
  have hlacks : ((s'.setData addr block).log b).view.lacks (s.inode i).inum hi =
      s'.view.lacks (s.inode i).inum hi := by
    have hslot := h.slot_setData hw (hbn.trans_le hhi) block
    show (s'.setData addr block).view.lacks _ _ = _
    unfold View.lacks
    simp only [hslot]
  have hinum : (((s'.setData addr block).log b).inode i).inum = (s.inode i).inum := h.touches.inum
  have hlt : s'.view.nfree sb < ((s'.setData addr block).log b).view.lacks (s.inode i).inum hi := hinum ▸ he.2
  have h₁ := h.lacks hw.live hbn hhi
  have h₂ := h.nfree
  refine ⟨he.1, ?_⟩
  omega

theorem wp_writeiLoop {n hi : ℕ} (hhi : hi ≤ maxfile) {fuel tot off : ℕ} (hw : Writable sb s i)
    (ht : s.trans = true) (hfuel : n - tot ≤ fuel) (hoff : off + (n - tot) ≤ hi * bsize) :
    Wp (Short sb s i hi) (writeiLoop sb i src n fuel tot off) s (Wrote sb i src tot off (n - tot) s) := by
  induction fuel generalizing s tot off with
  | zero =>
    rw [writeiLoop, wp_pure, show n - tot = 0 by omega]
    exact hw.wrote_zero src tot off
  | succ fuel ih =>
    rw [writeiLoop]
    by_cases hlt : tot < n
    · rw [if_pos hlt, wp_bind]
      have hbn : off / bsize < hi := Nat.div_lt_of_lt_mul (by rw [Nat.mul_comm]; omega)
      have hmx := hbn.trans_le hhi
      have hmod := Nat.mod_lt off (show 0 < bsize by decide)
      refine (wp_bmap hw hmx (.inl ht)).imp (fun e he => ⟨he.1, ?_⟩) fun addr s₁ hmap => ?_
      · exact he.2.trans_le (View.lack_le_lacks _ _ hbn)
      · rw [wp_bind, wp_get]
        dsimp only
        generalize hm : min (n - tot) (bsize - off % bsize) = m
        have hwr := @Mapped.wrote sb s s₁ i src addr off tot m hmap hw hmx (by omega)
        have hfault := @Mapped.wrote_fault sb s s₁ i src addr off tot m (n - tot) hmap hw hmx (by omega) (by omega)
        generalize eitherCopyin (s₁.data addr) (off % bsize) src tot m = r at hwr hfault
        obtain ⟨ok, block⟩ := r
        rw [wp_bind, wp_set]
        cases ok with
        | false =>
          rw [if_neg Bool.false_ne_true, wp_pure]
          exact hfault rfl
        | true =>
          have hwr := hwr rfl
          have ht₁ : s₁.trans = true := hmap.touches.trans.trans ht
          rw [if_pos rfl, wp_bind]
          refine (wp_logWrite (by exact ht₁)).mpr ?_
          have hwr := hwr.log addr
          refine (ih (hw.touches hwr.touches hwr.view.toKeep) ht₁ (by omega) (by omega)).imp
            (fun e he => hmap.short hw hbn hhi he) fun off' s' hrest => ?_
          have happ := hwr.append hw.live hrest ?_
          · rwa [show m + (n - (tot + m)) = n - tot by omega] at happ
          · have := Nat.mul_le_mul_right bsize hhi
            omega
    · rw [if_neg hlt, wp_pure, show n - tot = 0 by omega]
      exact hw.wrote_zero src tot off

/-- The first block that lies wholly from `n` on. -/
def blocksFor (n : ℕ) : ℕ := (n + bsize - 1) / bsize

theorem le_blocksFor (n : ℕ) : n ≤ blocksFor n * bsize := by
  have hb : bsize = 1024 := rfl
  unfold blocksFor
  rw [hb]
  omega

theorem blocksFor_le {n : ℕ} (h : n ≤ maxfile * bsize) : blocksFor n ≤ maxfile := by
  have hb : bsize = 1024 := rfl
  have hm : maxfile = 268 := rfl
  rw [hm, hb] at h
  rw [blocksFor, hb, hm]
  omega

/-- What `writei` does when it does not refuse: the bytes up to `off'` are those of the source. -/
structure Writes (sb : Superblock) (i : Fin ninode) (src : Src) (off n : ℕ) (s : State) (off' : ℕ)
    (s' : State) : Prop where
  touches : State.Touches i s s'
  din : s'.din i = { s.din i with addrs := (s'.din i).addrs, size := max (s.din i).size off' }
  saved : 0 < n → s'.dinode (s.inode i).inum = s'.din i
  view : View.Wrote sb (s.inode i).inum src 0 off n off' s.view s'.view

theorem State.touches_iupdate (s : State) (i : Fin ninode) (b : ℕ) :
    State.Touches i s ((s.setDinode (s.inode i).inum (s.din i)).log b) where
  dinode _ hj := update_of_ne hj _ _
  trans := rfl
  inode := (update_eq_self i s.inode).symm

theorem State.Touches.view_eq (h : State.Touches i s s') (hi : s.Has i) (hd : s'.data = s.data)
    (hb : s'.bitmap = s.bitmap) : s'.view = s.view.setNode (s.inode i).inum (s'.din i) := by
  have hn := h.node hi
  unfold View.setNode
  rw [← hn]
  show ({ node := s'.view.node, bitmap := s'.bitmap, data := s'.data } : View) = _
  rw [hd, hb]
  rfl

theorem wp_iupdate {E : Halt → Prop} {Q : PUnit → State → Prop} (ht : s.trans = true) :
    Wp E (iupdate sb i) s Q ↔
      Q ⟨⟩ ((s.setDinode (s.inode i).inum (s.din i)).log (sb.iblock (s.inode i).inum)) := by
  have ht' : (s.setDinode (s.inode i).inum (s.din i)).trans = true := ht
  simp only [iupdate, wp_bind, wp_modify, wp_get, wp_logWrite ht']
  rfl

theorem View.Wrote.setNode {v v' : View} {j off n off' : ℕ} {d : Dinode} (h : View.Wrote sb j src 0 off n off' v v')
    (hlive : v.Live sb j) (hty : d.type = (v'.node j).type) (ha : d.addrs = (v'.node j).addrs) :
    View.Wrote sb j src 0 off n off' v (v'.setNode j d) where
  toKeep := h.toKeep.trans (h.owned.keep_setNode hty ha) hlive
  le := h.le
  le_add := h.le_add
  present o ho ho' := by
    rw [View.slot_setNode ha]
    exact h.present o ho ho'
  bytes o ho ho' := by
    rw [View.byte_setNode ha]
    exact h.bytes o ho ho'
  rest o hmx h0 ho := by
    rw [View.byte_setNode ha]
    exact h.rest o hmx h0 ho
  fault := h.fault

theorem Wrote.writes {off n off' : ℕ} {s'' : State} (h : Wrote sb i src 0 off n s off' s') (hw : Writable sb s i)
    (ht : State.Touches i s' s'') (hd : s''.data = s'.data) (hb : s''.bitmap = s'.bitmap)
    (hdin : s''.din i = { s'.din i with size := max (s'.din i).size off' })
    (hsave : 0 < n → s''.dinode (s'.inode i).inum = s''.din i) : Writes sb i src off n s off' s'' := by
  have hw' := hw.touches h.touches h.view.toKeep
  have hview := ht.view_eq hw'.has hd hb
  have hnode := hw'.has.node
  rw [h.touches.inum] at hview hsave hnode
  refine ⟨h.touches.comp ht, ?_, hsave, ?_⟩
  · rw [hdin, h.din]
  · rw [hview]
    refine h.view.setNode hw.live ?_ ?_
    · rw [hdin, hnode]
    · rw [hdin, hnode]

theorem State.exists_grown (s : State) (i : Fin ninode) (off : ℕ) :
    ∃ s', (if (s.din i).size < off then s.setDin i { s.din i with size := off } else s) = s' ∧
      State.Touches i s s' ∧ s'.data = s.data ∧ s'.bitmap = s.bitmap ∧
      s'.din i = { s.din i with size := max (s.din i).size off } := by
  by_cases h : (s.din i).size < off
  · refine ⟨_, if_pos h, s.touches_setDin i _, rfl, rfl, ?_⟩
    rw [State.din_setDin, max_eq_right h.le]
  · refine ⟨_, if_neg h, .refl i s, rfl, rfl, ?_⟩
    rw [max_eq_left (not_lt.mp h)]

theorem wp_writei {off n : ℕ} (hw : Writable sb s i) (ht : s.trans = true) (hn : n < 2 ^ 32)
    (hoff : off ≤ (s.din i).size) (hmax : off + n ≤ maxfile * bsize) :
    Wp (Short sb s i (blocksFor (off + n))) (writei sb i src off n) s
      fun r s' => r = n ∧ ∃ off', Writes sb i src off n s off' s' := by
  have hm : maxfile * bsize = 274432 := rfl
  have hmod : (off + n) % 2 ^ 32 = off + n := Nat.mod_eq_of_lt (by omega)
  unfold writei
  rw [wp_bind, wp_get]
  dsimp only
  rw [if_neg (by omega), if_neg (by omega), wp_bind]
  refine (wp_writeiLoop (blocksFor_le hmax) hw ht (le_refl n) (le_blocksFor (off + n))).mono fun off' s₁ h₁ => ?_
  have ht₁ : s₁.trans = true := h₁.touches.trans.trans ht
  by_cases hpos : 0 < n
  · rw [if_pos hpos, wp_bind, wp_modify, wp_bind]
    obtain ⟨s₂, hs₂, htch, hdata, hbit, hdin⟩ := s₁.exists_grown i off'
    rw [hs₂, wp_iupdate (htch.trans.trans ht₁), wp_pure]
    refine ⟨rfl, off', h₁.writes hw (htch.comp (s₂.touches_iupdate i _)) hdata hbit hdin fun _ => ?_⟩
    rw [← htch.inum]
    exact update_self _ _ _
  · rw [if_neg hpos, wp_pure]
    have hle := h₁.view.le_add
    have hsize : (s₁.din i).size = (s.din i).size := by rw [h₁.din]
    refine ⟨rfl, off', h₁.writes hw (.refl i s₁) rfl rfl ?_ fun h0 => absurd h0 hpos⟩
    rw [max_eq_left (by omega)]

end

end Xv6.Fs
