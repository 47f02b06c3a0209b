import Xv6.Kernel.Fs.Sysopen

/-! Every system call goes from one balanced state to another. -/
namespace Xv6.Fs
open Lib Multiset

/-- Every name leads to a file, and a file without a name is in use. -/
structure Sys.Clear (sb : Superblock) (s : Sys) : Prop where
  settled : Settled s.holders (s.files sb)
  noDangling : NoDangling (s.files sb)
  root : s.files sb rootino ≠ none

/-- The ways in which a call may fail to return. -/
def Fails (sb : Superblock) (s : Sys) (e : Halt) : Prop := SysFault e ∨ e = .panic .ilockNoType ∧ ¬ s.Clear sb

section
variable {sb : Superblock} {short : ShortInt} {s s' : Sys} {fs fs' : State} {p : Fin nproc} {f : Fin nfile}
  {i ip cwd : Fin ninode} {j jc omode : ℕ}

theorem Inv.clear (h : Inv sb s) (hcwd : (s.proc p).cwd = some cwd) (hc : s.Clear sb) :
    Clear s.holders (s.fs.disk.file sb) (s.fs.inode cwd).inum := by
  have hlive := h.live (mem_holders (mem_entries_of_cwd hcwd))
  exact ⟨hc.settled, hc.noDangling, hc.root, fun hn => View.file_eq_none.mp hn hlive⟩

theorem fails_noType (h : Inv sb s) (hcwd : (s.proc p).cwd = some cwd)
    (hc : ¬ Clear s.holders (s.fs.disk.file sb) (s.fs.inode cwd).inum) : Fails sb s (.panic .ilockNoType) :=
  .inr ⟨rfl, fun hclear => hc (h.clear hcwd hclear)⟩

theorem wp_sysOpen {path : Option (List UInt8)} (h : Inv sb s) (hcwd : (s.proc p).cwd = some cwd)
    (hz : ∀ p ∈ path, 0 ∉ p) : Wp (Fails sb s) (sysOpen sb short p cwd path omode) s (OpenPost sb short p omode s) := by
  have hsame : Failed sb short s s := ⟨.refl h, rfl, rfl, rfl⟩
  unfold sysOpen
  cases path with
  | none =>
    dsimp only
    rw [wp_pure]
    exact ⟨hsame.moves, fun _ => ⟨hsame, fun _ _ => rfl⟩⟩
  | some path =>
    dsimp only
    rw [wp_bind, wp_onFs, beginOp, wp_modify, wp_bind, wp_onFs]
    refine (wp_openInode (h.calling hcwd).beginOp (hz path rfl) (fun e he => .inl (.inl he))
      (fails_noType h hcwd)).mono fun r fs₁ hr => ?_
    have hshift : Shift sb s.holders s.fs fs₁ := ⟨hr.shift.changes, hr.shift.keeps⟩
    cases r with
    | none =>
      obtain ⟨hok₁, hd₁⟩ := hr.none rfl
      dsimp only
      rw [wp_bind, wp_onFs, endOp, wp_modify, wp_pure]
      obtain ⟨hI, hH⟩ := @Inv.done sb s fs₁.endOp h ⟨hok₁.endOp, hshift.changes, hshift.keeps⟩
      have hf : Failed sb short s { s with fs := fs₁.endOp } := by
        refine ⟨⟨hI, fun ht => ?_⟩, rfl, rfl, hH⟩
        have hF : Sys.files sb { s with fs := fs₁.endOp } = s.files sb := congrArg (View.file sb) (hd₁ ht.settled)
        unfold Sys.ns
        rw [hH, hF]
      exact ⟨hf.moves, fun _ => ⟨hf, fun hset _ => hd₁ hset⟩⟩
    | some ip =>
      obtain ⟨j, hok₁, hdir, hdisk⟩ := hr.some ip rfl
      have hself : (ip, j) ∈ (ip, j) ::ₘ s.holders := mem_cons_self _ _
      have hi : ip ∈ insert ip (∅ : Finset (Fin ninode)) := Finset.mem_insert_self ip ∅
      have hlive := hok₁.live hself (hok₁.valid hi)
      have ho : Opening sb short s ip j fs₁ := by
        refine ⟨hshift, hok₁, fun ht => ?_⟩
        rcases hdisk ht.settled with hd | ⟨-, -, hact⟩
        · have hd' : fs₁.disk = s.fs.disk := hd
          rw [hd'] at hlive ⊢
          exact .single (.hold ip (View.file_of_live hlive))
        · exact .single hact
      dsimp only
      rw [wp_bind, wp_get]
      dsimp only
      rw [hok₁.din hself hi]
      by_cases hdev : (fs₁.disk.node j).type = .device ∧
          ((fs₁.disk.node j).major < 0 ∨ (ndev : ℤ) ≤ (fs₁.disk.node j).major)
      · rw [if_pos hdev]
        refine (wp_openBad h ho).mono ?_
        rintro r s' ⟨-, hf, hback⟩
        refine ⟨hf.moves, fun _ => ⟨hf, fun hset _ => ?_⟩⟩
        rcases hdisk hset with hd | ⟨-, hty, -⟩
        · have hd' : fs₁.disk = s.fs.disk := hd
          rw [hd'] at hback
          exact hback hset
        · rw [hty] at hdev
          exact absurd hdev.1 (by decide)
      · rw [if_neg hdev]
        refine wp_openFile h ho hdir fun hset => ?_
        rcases hdisk hset with hd | ⟨hc, -, -⟩
        · exact .inl hd
        · exact .inr hc

/-- What the calls do that change nothing when they fail. -/
structure CallPost (sb : Superblock) (short : ShortInt) (s : Sys) (r : ℤ) (s' : Sys) : Prop where
  moves : Moves sb short s s'
  failed : r = -1 → Failed sb short s s' ∧
    (Tidy short (s.ns sb) → s'.fs.disk = s.fs.disk)

theorem CallPost.of_done {r : ℤ} (h : Inv sb s) (hd : Done sb s.holders s.fs fs')
    (hpost : Tidy short (s.ns sb) → r = -1 ∧ fs'.disk = s.fs.disk ∨
      r ≠ -1 ∧ Actions short (s.ns sb) ⟨s.holders, fs'.disk.file sb⟩) :
    CallPost sb short s r { s with fs := fs' } := by
  obtain ⟨hI, hH⟩ := h.done hd
  have hns : Sys.ns sb { s with fs := fs' } = ⟨s.holders, fs'.disk.file sb⟩ := by rw [Sys.ns, hH]; rfl
  have hmv : Moves sb short s { s with fs := fs' } := by
    refine ⟨hI, fun ht => ?_⟩
    rw [hns]
    rcases hpost ht with ⟨-, hd⟩ | ⟨-, hacts⟩
    · rw [hd]
      exact .refl
    · exact hacts
  refine ⟨hmv, fun hr => ⟨⟨hmv, rfl, rfl, hH⟩, fun ht => ?_⟩⟩
  rcases hpost ht with ⟨-, hd⟩ | ⟨hne, -⟩
  · exact hd
  · exact absurd hr hne

theorem wp_link {old new : Option (List UInt8)} (h : Inv sb s) (hcwd : (s.proc p).cwd = some cwd)
    (hold : ∀ p ∈ old, 0 ∉ p) (hnew : ∀ p ∈ new, 0 ∉ p) :
    Wp (Fails sb s) (onFs (sysLink sb short cwd old new)) s (CallPost sb short s) := by
  rw [wp_onFs]
  refine (wp_sysLink (h.calling hcwd) hold hnew (fun e he => .inl (.inl he)) (fails_noType h hcwd)).mono
    fun r fs' ⟨hd, hpost⟩ => .of_done h hd fun ht => ?_
  rcases hpost ht.settled with ⟨hr, hsame⟩ | ⟨hr, j, f, d, g, name, c, hj, hty, hg, hins, hF⟩
  · exact .inl ⟨hr, hsame ht.inRange.restores⟩
  · rw [hF]
    exact .inr ⟨by rw [hr]; decide, .single (.link hj hty hg hins)⟩

theorem wp_unlink {path : Option (List UInt8)} (h : Inv sb s) (hcwd : (s.proc p).cwd = some cwd)
    (hz : ∀ p ∈ path, 0 ∉ p) : Wp (Fails sb s) (onFs (sysUnlink sb short cwd path)) s (CallPost sb short s) := by
  rw [wp_onFs]
  refine (wp_sysUnlink (h.calling hcwd) hz (fun e he => .inl (.inl he)) (fails_noType h hcwd)).mono
    fun r fs' ⟨hd, hpost⟩ => .of_done h hd fun ht => ?_
  rcases hpost ht.settled with hsame | ⟨hr, d, g, m, k, j, f, c, -, hu, hF⟩
  · exact .inl hsame
  · rw [hF]
    exact .inr ⟨by rw [hr]; decide, .single (.unlink hu)⟩

theorem wp_make {path : Option (List UInt8)} {type : FileType} {major minor : ℤ} (h : Inv sb s)
    (hcwd : (s.proc p).cwd = some cwd) (hz : ∀ p ∈ path, 0 ∉ p) (hty : type ≠ .free) (hfile : type ≠ .file) :
    Wp (Fails sb s) (onFs (makeNode sb short cwd path type major minor)) s (CallPost sb short s) := by
  rw [wp_onFs]
  refine (wp_makeNode (h.calling hcwd) hz hty hfile (fun e he => .inl (.inl he)) (fails_noType h hcwd)).mono
    fun r fs' ⟨hd, hpost⟩ => .of_done h hd fun ht => ?_
  rcases hpost ht.settled with hsame | ⟨hr, hacts⟩
  · exact .inl hsame
  · exact .inr ⟨by rw [hr]; decide, hacts⟩

theorem wp_exec {path : List UInt8} {reads : List (ℕ × ℕ)} {r : ℤ} (h : Inv sb s) (hcwd : (s.proc p).cwd = some cwd)
    (hz : 0 ∉ path) : Wp (Fails sb s) (do
      if ← onFs (execInode sb cwd path reads) then return r else return -1) s fun _ s' => Moves sb short s s' := by
  rw [wp_bind, wp_onFs]
  refine (wp_execInode (h.calling hcwd) hz (fun e he => .inl (.inl he)) (fails_noType h hcwd)).mono
    fun found fs' ⟨hd, hsame⟩ => ?_
  obtain ⟨hI, hH⟩ := h.done hd
  have hmv : Moves sb short s { s with fs := fs' } := by
    refine ⟨hI, fun ht => ?_⟩
    have hF : Sys.files sb { s with fs := fs' } = s.files sb := congrArg (View.file sb) (hsame ht.settled)
    unfold Sys.ns
    rw [hH, hF]
  split_ifs
  · rw [wp_pure]
    exact hmv
  · rw [wp_pure]
    exact hmv

/-- `sys_chdir`: the new directory is taken before the old one is dropped. -/
theorem wp_sysChdir {path : Option (List UInt8)} (h : Inv sb s) (hcwd : (s.proc p).cwd = some cwd)
    (hz : ∀ p ∈ path, 0 ∉ p) : Wp (Fails sb s) (sysChdir sb p cwd path) s (CallPost sb short s) := by
  have hcall := h.calling hcwd
  set H := s.holders with hH
  set jc := (s.fs.inode cwd).inum with hjc
  -- the call when it fails
  have hfail : ∀ fs' : State, Done sb H s.fs fs' → (Settled H (s.files sb) → fs'.disk = s.fs.disk) →
      Wp (Fails sb s) (pure (-1) : SysM ℤ) { s with fs := fs' } (CallPost sb short s) := fun fs' hd hsame => by
    rw [wp_pure]
    exact .of_done h hd fun ht => .inl ⟨rfl, hsame ht.settled⟩
  unfold sysChdir chdirInode
  rw [wp_bind, wp_onFs, wp_bind, beginOp, wp_modify]
  cases path with
  | none =>
    dsimp only
    rw [wp_bind, endOp, wp_modify, wp_pure]
    exact hfail _ ⟨hcall.beginOp.ok.endOp, .refl, .refl H s.fs⟩ fun _ => rfl
  | some path =>
    dsimp only
    rw [wp_bind]
    refine wp_namei hcall.beginOp (hz path rfl) (fun _ => .inl (.inl (.inr ⟨_, by simp, rfl⟩))) (fails_noType h hcwd) fun r s₁ hr => ?_
    have hst₁ : Still sb H s.fs s₁ := ⟨hr.changes, hr.same, hr.keeps⟩
    cases ho : r.1 with
    | none =>
      dsimp only
      rw [wp_bind, endOp, wp_modify, wp_pure]
      exact hfail _ (hst₁.done (hr.none ho).1) hst₁.same
    | some ip =>
      dsimp only
      rw [wp_bind]
      refine wp_ilock_found hr ho (fails_noType h hcwd) fun j s₂ _ hd₂ hlive hk₂ hok₂ => ?_
      have hi : ip ∈ insert ip (∅ : Finset (Fin ninode)) := Finset.mem_insert_self ip ∅
      have hst₂ : Still sb H s.fs s₂ := hst₁.trans (.of_disk hd₂ hk₂)
      rw [wp_bind, wp_get, hok₂.din (mem_cons_self _ _) hi]
      by_cases hdir : (s₂.disk.node j).type ≠ .dir
      · rw [if_pos hdir, wp_bind]
        refine wp_unlockput hok₂ fun s₃ _ hst₃ hok₃ => ?_
        rw [wp_bind, endOp, wp_modify, wp_pure]
        have hst := hst₂.trans hst₃
        exact hfail _ (hst.done hok₃) hst.same
      · rw [if_neg hdir, wp_bind]
        refine wp_iunlock_ok hok₂ hi fun s₃ hd₃ hv₃ hk₃ hok₃ => ?_
        -- the references without those of the process
        set K := handles s.fs (s.leave p).entries with hK
        have hHK : H = (cwd, jc) ::ₘ K := by
          rw [hH, Sys.holders, entries_leave hcwd, handles_cons]
        have hKH : K ⊆ H := by
          rw [hHK]
          exact subset_cons K _
        have hcwdH : (cwd, jc) ∈ H := hcall.cwd
        have hst₃ : Still sb H s.fs s₃ := hst₂.trans (.of_disk hd₃ (hk₃.mono (subset_cons H _)))
        have hok₃' : Ok sb true ∅ ((cwd, jc) ::ₘ (ip, j) ::ₘ K) s₃ := by
          rw [cons_swap, ← hHK]
          exact hok₃.unlock_only
        rw [wp_bind]
        refine wp_iput_read hok₃' (fun hL => absurd hL (Finset.notMem_empty cwd))
          (hst₃.keeps cwd jc hcwdH (h.valid cwd jc hcwdH)) fun s₄ hf₄ hst₄ hok₄ => ?_
        rw [wp_bind, endOp, wp_modify, wp_pure]
        dsimp only
        rw [wp_bind, wp_setCwd, wp_pure]
        set s' : Sys := { s with
          fs := s₄.endOp, proc := Function.update s.proc p { s.proc p with cwd := some ip } } with hs'
        have hent : s'.entries = ip ::ₘ (s.leave p).entries := entries_enter hcwd
        have hholders : s'.holders = (ip, j) ::ₘ K := by
          have hinum : (s'.fs.inode ip).inum = j := hok₄.inum ip j (mem_cons_self _ _)
          have hrest : handles s'.fs (s.leave p).entries = K := hok₄.endOp.handles_eq (subset_cons K _)
          unfold Sys.holders
          rw [hent, handles_cons, hinum, hrest]
        have hI : Inv sb s' := by
          refine h.next hKH (by rw [hholders]; exact subset_cons K _) (by rw [hholders]; exact hok₄.endOp)
            ⟨(hst₃.changes.mono fun _ _ hm => hKH hm).trans hst₄.mono.changes, (hst₃.keeps.mono hKH).trans hst₄.mono.keeps⟩
            (fun i l hm => ?_) h.idle fun f ht hw => ?_
          · rw [hholders] at hm
            rcases mem_cons.mp hm with heq | hm
            · obtain ⟨rfl, rfl⟩ := Prod.mk.inj heq
              exact .inr (hst₄.keeps i l (mem_cons_self _ _) hv₃)
            · exact .inl hm
          · refine .inl ⟨ht, hw, rfl, mem_handles.mpr ⟨?_, rfl⟩⟩
            exact mem_entries_of_file (s := s.leave p) (.inl ht)
        refine ⟨⟨hI, fun ht => ?_⟩, fun hr => absurd hr (by decide)⟩
        rw [hst₃.same ht.settled] at hf₄
        have hF : s'.files sb = settle ((ip, j) ::ₘ K) jc (s.files sb) := hf₄
        rw [hst₁.same ht.settled] at hlive
        have hold : Action short ⟨H, s.files sb⟩ ⟨(ip, j) ::ₘ H, s.files sb⟩ := .hold ip (View.file_of_live hlive)
        unfold Sys.ns
        rw [hholders, hF]
        rw [hHK, cons_swap, ← hHK] at hold
        exact .tail (.single hold) .drop

theorem noNul (path : Option CStr) : ∀ l ∈ path.map CStr.bytes, 0 ∉ l := by
  intro l hl
  obtain ⟨c, -, rfl⟩ := Option.mem_map.mp hl
  exact c.noNul

theorem wp_body (h : Inv sb s) (hcwd : (s.proc p).cwd = some cwd) (c : Syscall) :
    Wp (Fails sb s) (c.body sb short p cwd) s fun _ s' => Moves sb short s s' := by
  have hE : ∀ e, SysFault e → Fails sb s e := fun e he => .inl he
  cases c with
  | «open» path omode => exact (wp_sysOpen h hcwd (noNul path)).mono fun _ _ hr => hr.moves
  | close fd => exact wp_sysClose short h hE
  | dup fd => exact wp_sysDup short h hE
  | read fd mapped mem addr n driver => exact wp_sysRead short h hE
  | write fd page addr n driver => exact wp_sysWrite short h hE
  | fstat fd copied => exact wp_sysFstat short h
  | link old new => exact (wp_link h hcwd (noNul old) (noNul new)).mono fun _ _ hr => hr.moves
  | unlink path => exact (wp_unlink h hcwd (noNul path)).mono fun _ _ hr => hr.moves
  | mkdir path | mknod path major minor =>
    exact (wp_make h hcwd (noNul path) (by decide) (by decide)).mono fun _ _ hr => hr.moves
  | chdir path => exact (wp_sysChdir h hcwd (noNul path)).mono fun _ _ hr => hr.moves
  | exec path reads r => exact wp_exec h hcwd path.noNul
  | fork q => exact wp_sysFork short h hcwd hE
  | exit => exact wp_sysExit short h hcwd hE

theorem wp_run (h : Inv sb s) (c : Syscall) :
    Wp (Fails sb s) (c.run sb short p) s fun _ s' => Moves sb short s s' := by
  unfold Syscall.run
  rw [wp_bind, wp_get]
  cases hcwd : (s.proc p).cwd with
  | none =>
    dsimp only
    rw [wp_throw]
    exact .inl (.inl (.inl rfl))
  | some cwd => exact wp_body h hcwd c

theorem moves_of_step {a : Fin nproc × Syscall} (h : Inv sb s) (hs : Syscall.step sb short s a = .ok s') :
    Moves sb short s s' := by
  unfold Syscall.step at hs
  cases hx : a.2.run sb short a.1 s with
  | ok r =>
    rw [hx] at hs
    rw [← Except.ok.inj hs]
    exact (wp_run h a.2).of_ok hx
  | error e =>
    rw [hx] at hs
    cases hs

end

end Xv6.Fs
