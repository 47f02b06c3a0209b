import Xv6.Kernel.Fs.Openfile

/-! The calls on descriptors, `fork` and `exit`. -/
namespace Xv6.Fs
open Lib Function

section
variable {sb : Superblock} {s s' : Sys} {f : Fin nfile} {p : Fin nproc} {i cwd : Fin ninode} {j : ℕ} {E : Halt → Prop}

theorem Inv.setFds (h : Inv sb s) {q : Proc} (hq : q.cwd = (s.proc p).cwd) :
    Inv sb { s with proc := update s.proc p q } ∧
      ({ s with proc := update s.proc p q } : Sys).holders = s.holders := by
  have hent := entries_setProc s p q
  have hentry : q.entry = (s.proc p).entry := by
    unfold Proc.entry
    rw [hq]
  rw [hentry] at hent
  exact @Inv.stay sb s { s with proc := update s.proc p q } h h.ok (.refl sb _ _) (add_right_cancel hent) h.idle
    fun _ ht hw => ⟨ht, hw, rfl⟩

theorem wp_setOfile {Q : PUnit → Sys → Prop} {fd : Fin nofile} {o : Option (Fin nfile)} :
    Wp E (setOfile p fd o) s Q ↔ Q ⟨⟩ { s with
      proc := update s.proc p { s.proc p with ofile := update (s.proc p).ofile fd o } } := by
  unfold setOfile
  rw [wp_modify]

theorem wp_argfd {Q : Option (Fin nofile × Fin nfile) → Sys → Prop} {fd : ℤ} (hQ : ∀ o, Q o s) : Wp E (argfd p fd) s Q := by
  unfold argfd
  rw [wp_bind, wp_get]
  split_ifs
  · rw [wp_pure]
    exact hQ _
  · rw [wp_pure]
    exact hQ _
  · rw [wp_pure]
    exact hQ _

theorem wp_fdalloc {Q : Option (Fin nofile) → Sys → Prop} (hnone : (∀ fd, (s.proc p).ofile fd ≠ none) → Q none s)
    (hsome : ∀ fd, (s.proc p).ofile fd = none → Q (some fd) { s with
      proc := update s.proc p { s.proc p with ofile := update (s.proc p).ofile fd (some f) } }) :
    Wp E (fdalloc p f) s Q := by
  unfold fdalloc
  rw [wp_bind, wp_get]
  cases hf : (List.finRange nofile).find? fun fd => ((s.proc p).ofile fd).isNone with
  | none =>
    dsimp only
    rw [wp_pure]
    refine hnone fun fd hfd => ?_
    have := List.find?_eq_none.mp hf fd (List.mem_finRange fd)
    rw [hfd] at this
    exact this rfl
  | some fd =>
    dsimp only
    rw [wp_bind, wp_setOfile, wp_pure]
    refine hsome fd ?_
    have := List.find?_some hf
    exact Option.isNone_iff_eq_none.mp this

theorem wp_sysDup (short : ShortInt) {fd : ℤ} (h : Inv sb s) (hE : ∀ e, SysFault e → E e) :
    Wp E (sysDup p fd) s fun _ s' => Moves sb short s s' := by
  unfold sysDup
  rw [wp_bind]
  refine wp_argfd fun o => ?_
  cases o with
  | none =>
    dsimp only
    rw [wp_pure]
    exact .refl h
  | some o =>
    dsimp only
    rw [wp_bind]
    refine wp_fdalloc (fun _ => ?_) fun fd' _ => ?_
    · dsimp only
      rw [wp_pure]
      exact .refl h
    · dsimp only
      rw [wp_bind]
      obtain ⟨hI, hH⟩ := @Inv.setFds sb s p h { s.proc p with ofile := update (s.proc p).ofile fd' (some o.2) } rfl
      refine (wp_filedup short hI hE).mono fun _ s' ⟨hmv, _⟩ => ?_
      rw [wp_pure]
      exact Moves.trans (.quiet hI hH rfl) hmv

theorem wp_sysClose (short : ShortInt) {fd : ℤ} (h : Inv sb s) (hE : ∀ e, SysFault e → E e) :
    Wp E (sysClose sb p fd) s fun _ s' => Moves sb short s s' := by
  unfold sysClose
  rw [wp_bind]
  refine wp_argfd fun o => ?_
  cases o with
  | none =>
    dsimp only
    rw [wp_pure]
    exact .refl h
  | some o =>
    dsimp only
    rw [wp_bind, wp_setOfile, wp_bind]
    obtain ⟨hI, hH⟩ := @Inv.setFds sb s p h { s.proc p with ofile := update (s.proc p).ofile o.1 none } rfl
    refine (wp_fileclose short hI hE).mono fun _ s' ⟨hmv, _⟩ => ?_
    rw [wp_pure]
    exact Moves.trans (.quiet hI hH rfl) hmv

theorem wp_sysRead (short : ShortInt) {fd : ℤ} {mapped : ℕ → Bool} {mem : Bytes} {addr : ℕ} {n driver : ℤ} (h : Inv sb s)
    (hE : ∀ e, SysFault e → E e) :
    Wp E (sysRead sb p fd mapped mem addr n driver) s fun _ s' => Moves sb short s s' := by
  unfold sysRead
  rw [wp_bind]
  refine wp_argfd fun o => ?_
  cases o with
  | none =>
    dsimp only
    rw [wp_pure]
    exact .refl h
  | some o =>
    dsimp only
    rw [wp_bind]
    refine (wp_fileread short h hE).mono fun _ s' ⟨hmv, _⟩ => ?_
    rw [wp_pure]
    exact hmv

theorem wp_sysWrite (short : ShortInt) {fd : ℤ} {page : ℕ → Option Bytes} {addr : ℕ} {n driver : ℤ} (h : Inv sb s)
    (hE : ∀ e, SysFault e → E e) :
    Wp E (sysWrite sb p fd page addr n driver) s fun _ s' => Moves sb short s s' := by
  unfold sysWrite
  rw [wp_bind]
  refine wp_argfd fun o => ?_
  cases o with
  | none =>
    dsimp only
    rw [wp_pure]
    exact .refl h
  | some o => exact (wp_filewrite short h hE).mono fun _ s' hmv => hmv.1

theorem wp_sysFstat (short : ShortInt) {fd : ℤ} {copied : Bool} (h : Inv sb s) :
    Wp E (sysFstat p fd copied) s fun _ s' => Moves sb short s s' := by
  unfold sysFstat
  rw [wp_bind]
  refine wp_argfd fun o => ?_
  cases o with
  | none =>
    dsimp only
    rw [wp_pure]
    exact .refl h
  | some o =>
    obtain ⟨fd', f⟩ := o
    dsimp only
    rw [wp_bind, wp_get]
    by_cases ht : (s.file f).type = .inode ∨ (s.file f).type = .device
    · obtain ⟨hm, hlive⟩ := h.entry ht
      rw [if_pos ht, wp_bind, wp_onFs]
      refine wp_ilock_ok h.ok hm hlive.1 (fun hL => absurd hL (Finset.notMem_empty _)) (fun hfree => absurd hfree hlive.2)
        fun fs₁ _ hd₁ _ hk₁ hok₁ => ?_
      rw [wp_bind, wp_onFs]
      refine wp_iunlock_ok hok₁ (Finset.mem_insert_self _ ∅) fun fs₂ hd₂ _ hk₂ hok₂ => ?_
      rw [wp_pure]
      have hdisk : fs₂.disk = s.fs.disk := hd₂.trans hd₁
      obtain ⟨hI, hH⟩ := @Inv.done sb s fs₂ h ⟨hok₂.unlock_only, by rw [hdisk], hk₁.trans hk₂⟩
      refine .quiet hI hH ?_
      show fs₂.disk.file sb = _
      rw [hdisk]
      rfl
    · rw [if_neg ht, wp_pure]
      exact .refl h

/-- `s'` comes from `s` without a change of directory. -/
def Along (sb : Superblock) (short : ShortInt) (s s' : Sys) : Prop :=
  Moves sb short s s' ∧ ∀ q, (s'.proc q).cwd = (s.proc q).cwd

theorem Along.setFds {short : ShortInt} (h : Along sb short s s') {q : Proc} (hq : q.cwd = (s'.proc p).cwd) :
    Along sb short s { s' with proc := update s'.proc p q } := by
  obtain ⟨hI, hH⟩ := h.1.inv.setFds hq
  refine ⟨h.1.trans (.quiet hI hH rfl), fun k => ?_⟩
  show (update s'.proc p q k).cwd = _
  by_cases hk : k = p
  · rw [hk, update_self, hq, h.2]
  · rw [update_of_ne hk, h.2]

theorem wp_setCwd {Q : PUnit → Sys → Prop} {o : Option (Fin ninode)} :
    Wp E (setCwd p o) s Q ↔ Q ⟨⟩ { s with proc := update s.proc p { s.proc p with cwd := o } } := by
  unfold setCwd
  rw [wp_modify]

/-- The references without the directory of a process. -/
def Sys.leave (s : Sys) (p : Fin nproc) : Sys :=
  { s with proc := update s.proc p { s.proc p with cwd := none } }

theorem entries_leave (hcwd : (s.proc p).cwd = some cwd) : s.entries = cwd ::ₘ (s.leave p).entries := by
  have hupd := entries_setProc s p { s.proc p with cwd := none }
  have h0 : ({ s.proc p with cwd := none } : Proc).entry = 0 := rfl
  have h1 : (s.proc p).entry = {cwd} := by
    unfold Proc.entry
    rw [hcwd]
  rw [h0, h1, add_zero, add_comm, Multiset.singleton_add] at hupd
  exact hupd.symm

theorem entries_enter (hcwd : (s.proc p).cwd = some cwd) :
    ({ s with proc := update s.proc p { s.proc p with cwd := some i } } : Sys).entries =
      i ::ₘ (s.leave p).entries := by
  have hupd := entries_setProc s p { s.proc p with cwd := some i }
  have h0 : ({ s.proc p with cwd := some i } : Proc).entry = {i} := rfl
  have h1 : (s.proc p).entry = {cwd} := by
    unfold Proc.entry
    rw [hcwd]
  rw [h0, h1, entries_leave hcwd] at hupd
  refine add_right_cancel (hupd.trans ?_)
  rw [← Multiset.singleton_add cwd, ← Multiset.singleton_add i]
  abel

theorem wp_sysFork (short : ShortInt) {q : Fin nproc} (h : Inv sb s) (hcwd : (s.proc p).cwd = some cwd)
    (hE : ∀ e, SysFault e → E e) : Wp E (sysFork p q cwd) s fun _ s' => Moves sb short s s' := by
  unfold sysFork
  rw [wp_bind, wp_get]
  by_cases hq : (s.proc q).cwd.isSome = true
  · rw [if_pos hq, wp_pure]
    exact .refl h
  rw [if_neg hq, wp_bind]
  refine Wp.mono (wp_forM_inv (I := Along sb short s) (fun fd s₁ h₁ => ?_) ⟨.refl h, fun _ => rfl⟩) fun _ s₁ h₁ => ?_
  · cases ho : (s.proc p).ofile fd with
    | none =>
      dsimp only
      rw [wp_pure]
      exact h₁
    | some f =>
      dsimp only
      rw [wp_bind]
      refine (wp_filedup short h₁.1.inv hE).mono fun _ s₂ ⟨hmv, hp⟩ => ?_
      rw [wp_setOfile]
      have h₂ : Along sb short s s₂ := ⟨h₁.1.trans hmv, fun k => by rw [hp, h₁.2]⟩
      exact h₂.setFds rfl
  · have hI := h₁.1.inv
    have hcwd₁ : (s₁.proc p).cwd = some cwd := by rw [h₁.2, hcwd]
    have hm := mem_holders (mem_entries_of_cwd hcwd₁)
    rw [wp_bind, wp_onFs]
    refine wp_idup hI.ok hm fun fs' hd hk hok => ?_
    rw [wp_bind, wp_setCwd, wp_pure]
    have hfree : (s₁.proc q).cwd = none := by
      rw [h₁.2]
      exact Option.not_isSome_iff_eq_none.mp hq
    have hent := entries_setProc { s₁ with fs := fs' } q { s₁.proc q with cwd := some cwd }
    have h0 : (s₁.proc q).entry = 0 := by
      unfold Proc.entry
      rw [hfree]
    have h1 : ({ s₁.proc q with cwd := some cwd } : Proc).entry = {cwd} := rfl
    rw [h1] at hent
    change _ + (s₁.proc q).entry = s₁.entries + _ at hent
    rw [h0, add_zero, add_comm, Multiset.singleton_add] at hent
    set s₂ : Sys := { s₁ with fs := fs', proc := update s₁.proc q { s₁.proc q with cwd := some cwd } } with hs₂
    obtain ⟨hI', hH'⟩ := @Inv.more sb s₁ s₂ cwd _ hI hent hok ⟨by rw [hs₂, hd], hk⟩ (hk _ _ hm (hI.valid _ _ hm)) hI.idle
      fun _ _ _ => .inl rfl
    refine h₁.1.trans ⟨hI', fun _ => ?_⟩
    have hF : s₂.files sb = s₁.files sb := by
      show fs'.disk.file sb = s₁.fs.disk.file sb
      rw [hd]
    unfold Sys.ns
    rw [hH', hF]
    exact .single (.hold cwd (View.file_of_live (hI.live hm)))

theorem wp_sysExit (short : ShortInt) (h : Inv sb s) (hcwd : (s.proc p).cwd = some cwd) (hE : ∀ e, SysFault e → E e) :
    Wp E (sysExit sb p cwd) s fun _ s' => Moves sb short s s' := by
  unfold sysExit
  rw [wp_bind]
  refine Wp.mono (wp_forM_inv (I := Along sb short s) (fun fd s₁ h₁ => ?_) ⟨.refl h, fun _ => rfl⟩) fun _ s₁ h₁ => ?_
  · rw [wp_bind, wp_get]
    cases ho : (s₁.proc p).ofile fd with
    | none =>
      dsimp only
      rw [wp_pure]
      exact h₁
    | some f =>
      dsimp only
      rw [wp_bind]
      refine (wp_fileclose short h₁.1.inv hE).mono fun _ s₂ ⟨hmv, hp⟩ => ?_
      rw [wp_setOfile]
      have h₂ : Along sb short s s₂ := ⟨h₁.1.trans hmv, fun k => by rw [hp, h₁.2]⟩
      exact h₂.setFds rfl
  · have hI := h₁.1.inv
    have hcwd₁ : (s₁.proc p).cwd = some cwd := by rw [h₁.2, hcwd]
    -- the directory is the last reference of the process
    rw [wp_bind, wp_onFs, beginOp, wp_modify, wp_bind, wp_onFs]
    refine wp_iput_entry short hI (entries_leave hcwd₁) hI.idle (fun _ _ => rfl) fun fs' hmv => ?_
    rw [wp_bind, wp_onFs, endOp, wp_modify, wp_bind, wp_setCwd, wp_pure]
    exact h₁.1.trans hmv

end

end Xv6.Fs
