import Xv6.Kernel.Fs.Holders

/-! The calls on open files keep the references balanced. -/
namespace Xv6.Fs
open Lib Function
open Vm (walks)

/-- A fault, or a descriptor without an open file. -/
def SysFault (e : Halt) : Prop :=
  Fault e ∨ ∃ p ∈ [Panic.filedup, .fileclose, .fileread, .filewrite], e = .panic p

section
variable {sb : Superblock} {short : ShortInt} {s s' : Sys} {f : Fin nfile} {p : Fin nproc} {i : Fin ninode} {j : ℕ}
  {E : Halt → Prop}

theorem idle_setFile (h : Inv sb s) {g : File} (hg : g.ref = 0 → g.type = .none) :
    ∀ k, (update s.file f g k).ref = 0 → (update s.file f g k).type = .none :=
  (forall_update_iff s.file fun _ r => r.ref = 0 → r.type = .none).mpr ⟨hg, fun k _ => h.idle k⟩

theorem Inv.setFile (h : Inv sb s) {g : File} (hg : g.ref = 0 → g.type = .none) (ht : g.type = (s.file f).type)
    (hip : g.ip = (s.file f).ip) (hw : g.writable = (s.file f).writable) :
    Inv sb { s with file := update s.file f g } ∧
      ({ s with file := update s.file f g } : Sys).holders = s.holders := by
  refine @Inv.stay sb s { s with file := update s.file f g } h h.ok (.refl sb _ _)
    (entries_setFile (by unfold File.entry; rw [ht, hip])) (idle_setFile h hg) ?_
  refine (forall_update_iff s.file fun k r => r.type = .inode → r.writable = true →
    (s.file k).type = .inode ∧ (s.file k).writable = true ∧ r.ip = (s.file k).ip).mpr ⟨fun hk hkw => ?_, fun k _ hk hkw => ?_⟩
  · exact ⟨ht ▸ hk, hw ▸ hkw, hip⟩
  · exact ⟨hk, hkw, rfl⟩

theorem wp_setFile {Q : PUnit → Sys → Prop} {g : File → File} :
    Wp E (setFile f g) s Q ↔ Q ⟨⟩ { s with file := update s.file f (g (s.file f)) } := by
  unfold setFile
  rw [wp_modify]

theorem wp_filedup (short : ShortInt) (h : Inv sb s) (hE : ∀ e, SysFault e → E e) :
    Wp E (filedup f) s fun _ s' => Moves sb short s s' ∧ s'.proc = s.proc := by
  unfold filedup
  rw [wp_bind, wp_get]
  by_cases hr : (s.file f).ref < 1
  · rw [if_pos hr, wp_bind, wp_throw]
    exact hE _ (.inr ⟨_, by simp, rfl⟩)
  · rw [if_neg hr]
    dsimp only
    rw [wp_setFile]
    obtain ⟨hI, hH⟩ := @Inv.setFile sb s f h { s.file f with ref := (s.file f).ref + 1 } (fun h0 => absurd h0 (by simp)) rfl
      rfl rfl
    exact ⟨.quiet hI hH rfl, rfl⟩

/-- The reference to `i` that `s'` does not have is dropped. -/
theorem wp_iput_entry {Q : PUnit → State → Prop} (short : ShortInt) (h : Inv sb s) (hent : s.entries = i ::ₘ s'.entries)
    (hidle : ∀ f, (s'.file f).ref = 0 → (s'.file f).type = .none)
    (hfile : ∀ f, (s'.file f).type = .inode → s'.file f = s.file f)
    (hQ : ∀ fs', Moves sb short s { s' with fs := fs'.endOp } → Q ⟨⟩ fs') : Wp E (iput sb i) s.fs.beginOp Q := by
  have hold : s.holders = (i, (s.fs.inode i).inum) ::ₘ handles s.fs s'.entries := by
    rw [← handles_cons, ← hent]
    rfl
  have hok : Ok sb true ∅ ((i, (s.fs.inode i).inum) ::ₘ handles s.fs s'.entries) s.fs.beginOp := by
    rw [← hold]
    exact h.ok.beginOp
  have hv : (s.fs.beginOp.inode i).valid = true := h.valid i _ (by rw [hold]; exact Multiset.mem_cons_self _ _)
  refine wp_iput_read hok (fun hL => absurd hL (Finset.notMem_empty i)) hv fun fs' hf hst hok' => hQ fs' ?_
  obtain ⟨hI, hH⟩ := @Inv.less sb s { s' with fs := fs'.endOp } i h hent hok'.endOp ⟨hst.changes, hst.keeps⟩ hidle hfile
  have hF : Sys.files sb { s' with fs := fs'.endOp } = settle (handles s.fs s'.entries) (s.fs.inode i).inum (s.files sb) := hf
  have hH' : Sys.holders { s' with fs := fs'.endOp } = handles s.fs s'.entries := hH
  refine ⟨hI, fun _ => ?_⟩
  unfold Sys.ns
  rw [hH', hold, hF]
  exact .single .drop

theorem wp_fileclose (short : ShortInt) (h : Inv sb s) (hE : ∀ e, SysFault e → E e) :
    Wp E (fileclose sb f) s fun _ s' => Moves sb short s s' ∧ s'.proc = s.proc := by
  unfold fileclose
  rw [wp_bind, wp_get]
  dsimp only
  by_cases hr : (s.file f).ref < 1
  · rw [if_pos hr, wp_bind, wp_throw]
    exact hE _ (.inr ⟨_, by simp, rfl⟩)
  rw [if_neg hr]
  by_cases hlast : 0 < (s.file f).ref - 1
  · rw [if_pos hlast, wp_setFile]
    obtain ⟨hI, hH⟩ := @Inv.setFile sb s f h { s.file f with ref := (s.file f).ref - 1 }
      (fun h0 => absurd h0 (Nat.pos_iff_ne_zero.mp hlast)) rfl rfl rfl
    exact ⟨.quiet hI hH rfl, rfl⟩
  rw [if_neg hlast, wp_bind, wp_setFile]
  set g : File := { s.file f with ref := 0, type := .none } with hg
  set s₁ : Sys := { s with file := update s.file f g } with hs₁
  have hentry : g.entry = 0 := if_neg (by simp [hg])
  have hupd := entries_update s f g
  rw [hentry, add_zero, ← hs₁] at hupd
  have hidle := @idle_setFile sb s f h g fun _ => rfl
  have hsame : ∀ k, (s₁.file k).type = .inode → s₁.file k = s.file k := fun k hk => by
    by_cases hkf : k = f
    · rw [hkf, hs₁] at hk
      simp [hg] at hk
    · exact update_of_ne hkf _ _
  by_cases hty : (s.file f).type = .inode ∨ (s.file f).type = .device
  · -- the open file held a reference
    rw [if_pos hty]
    have hent : s.entries = (s.file f).ip ::ₘ s₁.entries := by
      rw [← hupd, File.entry, if_pos hty, add_comm, Multiset.singleton_add]
    rw [wp_bind, wp_onFs, beginOp, wp_modify, wp_bind, wp_onFs]
    refine wp_iput_entry (s := s) short h hent hidle hsame fun fs' hmv => ?_
    rw [wp_onFs, endOp, wp_modify]
    exact ⟨hmv, rfl⟩
  · rw [if_neg hty, wp_pure]
    have hent : s₁.entries = s.entries := by rwa [File.entry, if_neg hty, add_zero] at hupd
    obtain ⟨hI, hH⟩ := @Inv.stay sb s s₁ h h.ok (.refl sb _ _) hent hidle fun k hk hkw => by
      have heq := hsame k hk
      rw [heq] at hk hkw ⊢
      exact ⟨hk, hkw, rfl⟩
    exact ⟨.quiet hI hH rfl, rfl⟩

theorem Inv.entry (h : Inv sb s) (ht : (s.file f).type = .inode ∨ (s.file f).type = .device) :
    ((s.file f).ip, (s.fs.inode (s.file f).ip).inum) ∈ s.holders ∧
      s.fs.disk.Live sb (s.fs.inode (s.file f).ip).inum := by
  have hm := mem_holders (mem_entries_of_file ht)
  exact ⟨hm, h.live hm⟩

theorem wp_unlockFile {Q : PUnit → Sys → Prop} {fs : State} {g : File} (h : Inv sb s)
    (hok : Ok sb false (insert i ∅) s.holders fs) (hd : fs.disk = s.fs.disk) (hk : Keeps s.holders s.fs fs)
    (hg : g.ref = 0 → g.type = .none) (ht : g.type = (s.file f).type) (hip : g.ip = (s.file f).ip)
    (hw : g.writable = (s.file f).writable) (hQ : ∀ s', Moves sb short s s' → s'.proc = s.proc → s'.file = update s.file f g → Q ⟨⟩ s') :
    Wp E (onFs (iunlock i)) { s with fs := fs, file := update s.file f g } Q := by
  rw [wp_onFs]
  refine wp_iunlock_ok hok (Finset.mem_insert_self i ∅) fun fs' hd' _ hk' hok' => ?_
  have hdone : Done sb s.holders s.fs fs' := ⟨hok'.unlock_only, by rw [hd', hd], hk.trans hk'⟩
  obtain ⟨hI, hH⟩ := h.done hdone
  obtain ⟨hI', hH'⟩ := @Inv.setFile sb { s with fs := fs' } f hI g hg ht hip hw
  refine hQ _ (.quiet hI' (hH'.trans hH) ?_) rfl rfl
  show fs'.disk.file sb = s.fs.disk.file sb
  rw [hd', hd]

/-- What a read of an inode leaves: `k` bytes of the file have been delivered from its offset on, and
the offset is past them. -/
structure ReadInode (sb : Superblock) (short : ShortInt) (f : Fin nfile) (mapped : ℕ → Bool) (addr : ℕ) (n : ℤ) (mem : Bytes)
    (s : Sys) (r : ℤ × Bytes) (s' : Sys) (k : ℕ) : Prop where
  value : r.1 = k
  moves : Moves sb short s s'
  proc : s'.proc = s.proc
  off : (s'.file f).off = (s.file f).off + k
  received : addr < 2 ^ 64 → Received (walks mapped) addr (n % 2 ^ 32).toNat
    (fun q => s.fs.disk.byte (s.fs.inode (s.file f).ip).inum ((s.file f).off + q)) mem k r.2

theorem wp_fileread_inode (short : ShortInt) {mapped : ℕ → Bool} {mem : Bytes} {addr : ℕ} {n driver : ℤ} (h : Inv sb s)
    (hread : (s.file f).readable = true) (ht : (s.file f).type = .inode) :
    Wp E (fileread sb f mapped mem addr n driver) s fun r s' => ∃ k, ReadInode sb short f mapped addr n mem s r s' k := by
  obtain ⟨hm, hlive⟩ := h.entry (.inl ht : (s.file f).type = .inode ∨ (s.file f).type = .device)
  set i := (s.file f).ip with hi
  set j := (s.fs.inode i).inum with hj
  have hiL : i ∈ insert i (∅ : Finset (Fin ninode)) := Finset.mem_insert_self i ∅
  unfold fileread
  rw [wp_bind, wp_get]
  dsimp only
  rw [if_neg (by simpa using hread), ht]
  dsimp only
  rw [wp_bind, wp_onFs]
  refine wp_ilock_ok h.ok hm hlive.1 (fun hL => absurd hL (Finset.notMem_empty i)) (fun hfree => absurd hfree hlive.2)
    fun fs₁ _ hd₁ _ hk₁ hok₁ => ?_
  have hbyte : (fs₁.din i).byte fs₁.data = s.fs.disk.byte j := by
    rw [hok₁.din hm hiL, ← hd₁]
    rfl
  have hhole : (fs₁.din i).NoHole fs₁.data := by
    rw [hok₁.din hm hiL]
    exact hok₁.sound.noHole j (by rwa [hd₁])
  have hlt : (n % 2 ^ 32).toNat < 2 ^ 32 := by omega
  have hle : readLen (fs₁.din i) (s.file f).off (n % 2 ^ 32).toNat ≤ (n % 2 ^ 32).toNat := by
    by_contra hgt
    have := (readLen_le (not_le.mp hgt)).2
    omega
  -- the bytes are those of the file where the address is one
  have hreadi : Wp (fun _ => False) (readi sb i (.user mapped addr) mem (s.file f).off (n % 2 ^ 32).toNat) fs₁ fun r fs₂ =>
      (fs₂ = fs₁ ∧ r.1 ≤ readLen (fs₁.din i) (s.file f).off (n % 2 ^ 32).toNat) ∧
      (addr < 2 ^ 64 → Received (walks mapped) addr (n % 2 ^ 32).toNat
        (fun q => s.fs.disk.byte j ((s.file f).off + q)) mem r.1 r.2) := by
    by_cases haddr : addr < 2 ^ 64
    · refine (wp_readi_user hlt haddr hhole).mono fun r fs₂ hr => ⟨⟨hr.1, hr.2.le⟩, fun _ => ?_⟩
      rw [← hbyte]
      exact hr.2.mono hle
    · exact (wp_readi hlt hhole).mono fun r fs₂ hr => ⟨⟨hr.1, by simpa using hr.2.1⟩, fun hlt => absurd hlt haddr⟩
  rw [wp_bind, wp_get, wp_bind, wp_onFs]
  refine hreadi.imp (fun _ he => he.elim) ?_
  rintro ⟨r, mem'⟩ fs₂ ⟨⟨rfl, hr⟩, hrec⟩
  dsimp only at hr hrec ⊢
  by_cases hpos : 0 < r
  · have hend : (s.file f).off + r < 2 ^ 32 := by
      have hlast := (readLen_le (lt_of_lt_of_le (Nat.sub_one_lt_of_lt hpos) hr)).1
      have hblock := (hhole _ (lt_of_le_of_lt (Nat.div_mul_le_self _ bsize) hlast)).1
      unfold maxfile ndirect nindirect bsize at hblock
      omega
    rw [if_pos hpos, wp_bind, wp_setFile, wp_bind]
    refine @wp_unlockFile sb short s f i E _ fs₂ _ h hok₁ hd₁ hk₁ (fun h0 => h.idle f h0) rfl rfl rfl fun s' hmv hp hf => ?_
    rw [wp_pure]
    refine ⟨r, rfl, hmv, hp, ?_, hrec⟩
    rw [hf, update_self]
    exact Nat.mod_eq_of_lt hend
  · obtain rfl : r = 0 := by omega
    rw [if_neg hpos, wp_bind]
    have heq : ({ s with fs := fs₂ } : Sys) = { s with fs := fs₂, file := update s.file f (s.file f) } := by
      rw [update_eq_self]
    rw [heq]
    refine @wp_unlockFile sb short s f i E _ fs₂ _ h hok₁ hd₁ hk₁ (fun h0 => h.idle f h0) rfl rfl rfl fun s' hmv hp hf => ?_
    rw [wp_pure]
    refine ⟨0, rfl, hmv, hp, ?_, hrec⟩
    rw [hf, update_self]
    rfl

theorem wp_fileread (short : ShortInt) {mapped : ℕ → Bool} {mem : Bytes} {addr : ℕ} {n driver : ℤ} (h : Inv sb s)
    (hE : ∀ e, SysFault e → E e) :
    Wp E (fileread sb f mapped mem addr n driver) s fun _ s' => Moves sb short s s' ∧ s'.proc = s.proc := by
  have hsame : Moves sb short s s ∧ s.proc = s.proc := ⟨.refl h, rfl⟩
  by_cases hinode : (s.file f).readable = true ∧ (s.file f).type = .inode
  · refine (wp_fileread_inode short h hinode.1 hinode.2).mono ?_
    rintro r s' ⟨k, hk⟩
    exact ⟨hk.moves, hk.proc⟩
  unfold fileread
  rw [wp_bind, wp_get]
  dsimp only
  by_cases hread : (s.file f).readable = true
  swap
  · rw [if_pos (by simpa using hread), wp_pure]
    exact hsame
  rw [if_neg (by simpa using hread)]
  cases ht : (s.file f).type with
  | none =>
    rw [wp_throw]
    exact hE _ (.inr ⟨_, by simp, rfl⟩)
  | pipe | device =>
    rw [wp_pure]
    exact hsame
  | inode => exact absurd ⟨hread, ht⟩ hinode

/-- What a write leaves of the open files. -/
structure Written (sb : Superblock) (short : ShortInt) (f : Fin nfile) (s s' : Sys) : Prop where
  moves : Moves sb short s s'
  proc : s'.proc = s.proc
  type : (s'.file f).type = (s.file f).type
  writable : (s'.file f).writable = (s.file f).writable

theorem Written.trans {s'' : Sys} (h : Written sb short f s s') (h' : Written sb short f s' s'') : Written sb short f s s'' :=
  ⟨h.moves.trans h'.moves, h'.proc.trans h.proc, h'.type.trans h.type, h'.writable.trans h.writable⟩

theorem advance_eq (s : Sys) (f : Fin nfile) (r : ℤ) (fs : State) :
    ∃ g : File, g.ref = (s.file f).ref ∧ g.type = (s.file f).type ∧ g.ip = (s.file f).ip ∧
      g.writable = (s.file f).writable ∧ s.advance f r fs = { s with fs := fs, file := update s.file f g } := by
  unfold Sys.advance
  split_ifs
  · exact ⟨{ s.file f with off := ((s.file f).off + r.toNat) % 2 ^ 32 }, rfl, rfl, rfl, rfl, rfl⟩
  · exact ⟨s.file f, rfl, rfl, rfl, rfl, by rw [update_eq_self]⟩

/-- A transaction of `filewrite` writes to a file that is not a directory, or does nothing. -/
theorem wp_writeChunk_inv (short : ShortInt) {page : ℕ → Option Bytes} {addr n : ℕ} (h : Inv sb s) (ht : (s.file f).type = .inode)
    (hw : (s.file f).writable = true) (hn : 0 < n) (hn' : n < 2 ^ 32) (hE : ∀ e, SysFault e → E e) :
    Wp E (writeChunk sb f page addr n) s fun r s' => (r = -1 ∨ r = n) ∧ Written sb short f s s' := by
  obtain ⟨hm, hlive⟩ := h.entry (.inl ht : (s.file f).type = .inode ∨ (s.file f).type = .device)
  have hdir := h.notDir f ht hw
  rw [wp_writeChunk]
  set i := (s.file f).ip with hi
  set j := (s.fs.inode i).inum with hj
  have hiL : i ∈ insert i (∅ : Finset (Fin ninode)) := Finset.mem_insert_self i ∅
  refine wp_ilock_ok h.ok.beginOp hm hlive.1 (fun hL => absurd hL (Finset.notMem_empty i))
    (fun hfree => absurd hfree hlive.2) fun fs₁ _ hd₁ _ hk₁ hok₁ => ?_
  have hfile₁ := hok₁.file hm hiL
  -- the end of the transaction
  have hend : ∀ (r : ℤ) (fs₂ : State), (r = -1 ∨ r = n) → Ok sb true (insert i ∅) s.holders fs₂ →
      Keeps s.holders fs₁ fs₂ → Changes sb s.holders (fs₁.disk.file sb) (fs₂.disk.file sb) →
      (fs₂.disk.file sb = fs₁.disk.file sb ∨ ∃ c, fs₂.disk.file sb = setContent (fs₁.disk.file sb) j c) →
      Wp E (iunlock i) fs₂ fun _ fs => (r = -1 ∨ r = n) ∧ Written sb short f s (s.advance f r fs.endOp) := by
    intro r fs₂ hr hok₂ hk₂ hc₂ hF
    refine wp_iunlock_ok hok₂ hiL fun fs₃ hd₃ _ hk₃ hok₃ => ⟨hr, ?_⟩
    have hdone : Done sb s.holders s.fs fs₃.endOp := by
      refine ⟨hok₃.unlock_only.endOp, ?_, (hk₁.trans hk₂).trans hk₃⟩
      show Changes sb _ _ (fs₃.disk.file sb)
      rw [hd₁] at hc₂
      rw [hd₃]
      exact hc₂
    obtain ⟨hI, hH⟩ := h.done hdone
    obtain ⟨g, hgr, hgt, hgi, hgw, hadv⟩ := advance_eq s f r fs₃.endOp
    rw [hadv]
    obtain ⟨hI', hH'⟩ := @Inv.setFile sb { s with fs := fs₃.endOp } f hI g
      (fun h0 => by rw [hgt]; exact h.idle f (hgr ▸ h0)) hgt hgi hgw
    refine ⟨⟨hI', fun _ => ?_⟩, rfl, ?_, ?_⟩
    · have hfiles : Sys.files sb { s with fs := fs₃.endOp, file := update s.file f g } = fs₂.disk.file sb := by
        show fs₃.disk.file sb = _
        rw [hd₃]
      unfold Sys.ns
      rw [hH'.trans hH, hfiles]
      rcases hF with heq | ⟨c, heq⟩
      · rw [heq, hd₁]
        exact .refl
      · rw [heq, hd₁]
        exact .single (.write c (View.file_of_live hlive) hdir)
    · show (update s.file f g f).type = _
      rw [update_self, hgt]
    · show (update s.file f g f).writable = _
      rw [update_self, hgw]
  refine wp_writei_any hok₁ hm hiL hn hn' (hE _ (.inl (.inr ⟨_, by simp, rfl⟩)))
    (hend (-1) fs₁ (.inl rfl) hok₁ (.refl _ _) .refl (.inl rfl)) fun fs₂ c hk₂ hok₂ hf₂ => ?_
  refine hend n fs₂ (.inr rfl) hok₂ hk₂ ?_ (.inr ⟨c, by rw [hf₂, hok₁.setContent_eq hm hiL]⟩)
  rw [hf₂]
  refine .single (.data hfile₁ ?_)
  show (fs₁.disk.node j).type ≠ .dir
  rwa [hd₁]

theorem wp_filewriteLoop_inv (short : ShortInt) {page : ℕ → Option Bytes} {addr n fuel k : ℕ} (h : Inv sb s) (ht : (s.file f).type = .inode)
    (hw : (s.file f).writable = true) (hE : ∀ e, SysFault e → E e) :
    Wp E (filewriteLoop sb f page addr n fuel k) s fun _ s' => Written sb short f s s' := by
  induction fuel generalizing k s with
  | zero =>
    rw [filewriteLoop, wp_pure]
    exact ⟨.refl h, rfl, rfl, rfl⟩
  | succ fuel ih =>
    rw [filewriteLoop]
    by_cases hk : k < n
    · rw [if_pos hk, wp_bind, writeTurn, wp_bind]
      have hmax : maxChunk = 3072 := rfl
      refine (wp_writeChunk_inv short h ht hw (by omega) (by omega) hE).mono fun r s₁ ⟨hr, hst⟩ => ?_
      by_cases hneg : r < 0
      · rw [if_pos hneg, wp_pure]
        dsimp only
        rw [wp_pure]
        exact hst
      · rw [if_neg hneg]
        dsimp only
        have hrn : r = (min (n - k) maxChunk : ℕ) := by
          rcases hr with hr | hr
          · omega
          · exact hr
        rw [if_neg (not_not.mpr hrn), wp_pure]
        exact (ih hst.moves.inv (hst.type.trans ht) (hst.writable.trans hw)).mono fun _ _ hst' => hst.trans hst'
    · rw [if_neg hk, wp_pure]
      exact ⟨.refl h, rfl, rfl, rfl⟩

theorem wp_filewrite (short : ShortInt) {page : ℕ → Option Bytes} {addr : ℕ} {n driver : ℤ} (h : Inv sb s) (hE : ∀ e, SysFault e → E e) :
    Wp E (filewrite sb f page addr n driver) s fun _ s' => Moves sb short s s' ∧ s'.proc = s.proc := by
  have hsame : Moves sb short s s ∧ s.proc = s.proc := ⟨.refl h, rfl⟩
  unfold filewrite
  rw [wp_bind, wp_get]
  dsimp only
  by_cases hwr : (s.file f).writable = true
  swap
  · rw [if_pos (by simpa using hwr), wp_pure]
    exact hsame
  rw [if_neg (by simpa using hwr)]
  cases ht : (s.file f).type with
  | none =>
    rw [wp_throw]
    exact hE _ (.inr ⟨_, by simp, rfl⟩)
  | pipe | device =>
    rw [wp_pure]
    exact hsame
  | inode =>
    dsimp only
    rw [wp_bind]
    refine (wp_filewriteLoop_inv short h ht hwr hE).mono fun _ s' hst => ?_
    rw [wp_pure]
    exact ⟨hst.moves, hst.proc⟩

end

end Xv6.Fs
