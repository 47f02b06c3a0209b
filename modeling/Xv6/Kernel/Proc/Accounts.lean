import Xv6.Kernel.Proc.Conserve

/-! The table of open files at the boundaries of system calls: every reference is that of a
descriptor, every file in use has a type, and the page of a pipe is given back once. -/
namespace Xv6.Vm
open Lib Function

/-- Only files in `l` are in use without a type, and these have one reference. -/
def Sys.TypedBut (l : List (Fin nfile)) (s : Sys) : Prop :=
  ∀ f, (s.file f).type = .none → (s.file f).ref = 0 ∨ f ∈ l ∧ (s.file f).ref = 1

variable {s s' : Sys} {pool : Pool} {l : List (Fin nfile)} {α : Type}

theorem Sys.TypedBut.congr (h : s.TypedBut l) (hfile : s'.file = s.file) : s'.TypedBut l := by
  unfold Sys.TypedBut
  rw [hfile]
  exact h

section Untouched

theorem preserves_modify {f : Sys → Sys} (hf : ∀ s, (f s).file = s.file) :
    Preserves (Sys.TypedBut l) (modify f : Kern Unit) :=
  .modify fun s hs => hs.congr (hf s)

theorem preserves_onMem (x : K α) : Preserves (Sys.TypedBut l) (onMem x) := by
  intro s hs
  rw [wp_onMem]
  cases hx : x s.mem with
  | ok r => exact (wp_of_eq_ok hx).mpr (hs.congr rfl)
  | error e => exact (wp_of_eq_error hx).mpr trivial

theorem preserves_deref (o : Option α) : Preserves (Sys.TypedBut l) (deref o) := by
  cases o with
  | none => exact .throw _
  | some a => exact .pure a

theorem preserves_setProc (i : Fin nproc) (p : Proc) : Preserves (Sys.TypedBut l) (setProc i p) :=
  preserves_modify fun _ => rfl

theorem preserves_updProc (i : Fin nproc) (g : Proc → Proc) : Preserves (Sys.TypedBut l) (updProc i g) :=
  preserves_modify fun _ => rfl

theorem preserves_fdalloc (i : Fin nproc) (f : Fin nfile) : Preserves (Sys.TypedBut l) (fdalloc i f) := by
  unfold fdalloc
  refine .bind .get fun s => ?_
  split
  · exact .pure none
  · exact (preserves_updProc i _).bind fun _ => .pure _

theorem preserves_freeproc (i : Fin nproc) : Preserves (Sys.TypedBut l) (freeproc i) := by
  unfold freeproc
  refine .bind .get fun s => .bind ?_ fun _ => .bind ?_ fun _ => preserves_setProc i _
  · exact .elim (.pure ()) fun _ => preserves_onMem _
  · exact .elim (.pure ()) fun _ => preserves_onMem _

theorem preserves_allocpid : Preserves (Sys.TypedBut l) allocpid := by
  intro s hs
  unfold allocpid
  simp only [wp_bind, wp_get, wp_set, wp_pure]
  exact hs.congr rfl

theorem preserves_allocproc : Preserves (Sys.TypedBut l) allocproc := by
  unfold allocproc
  refine .bind .get fun s => ?_
  split
  · exact .pure none
  · refine .bind preserves_allocpid fun pid => .bind (preserves_setProc _ _) fun _ => ?_
    refine .bind (preserves_onMem _) fun r => ?_
    cases r with
    | none => exact .bind (preserves_setProc _ _) fun _ => .pure none
    | some pa =>
      refine .bind (preserves_setProc _ _) fun _ => .bind (preserves_onMem _) fun r => ?_
      cases r with
      | none =>
        exact .bind (preserves_setProc _ _) fun _ => .bind (preserves_freeproc _) fun _ => .pure none
      | some t => exact .bind (preserves_setProc _ _) fun _ => .pure _

theorem preserves_exec (i : Fin nproc) (file : Option Exe) (argv : List Str) :
    Preserves (Sys.TypedBut l) (exec i file argv) := by
  unfold exec
  cases file with
  | none => exact .pure none
  | some ip =>
    refine .ite (.pure none) (.ite (.pure none) (.bind .get fun s => ?_))
    refine .bind (preserves_deref _) fun pa => .bind (preserves_onMem _) fun r => ?_
    cases r with
    | none => exact .pure none
    | some r =>
      refine .bind (preserves_deref _) fun t => .bind (preserves_setProc i _) fun _ => ?_
      exact .bind (preserves_onMem _) fun _ => .pure _

theorem preserves_sysExec (i : Fin nproc) (file : Option Exe) (args : List Arg) :
    Preserves (Sys.TypedBut l) (sysExec i file args) := by
  unfold sysExec
  refine .bind (preserves_onMem _) fun r => .bind (.elim (.pure none) (preserves_exec i file)) fun ret => ?_
  exact .bind (.forM (fun _ => preserves_onMem _) _) fun _ => .pure ret

theorem preserves_growproc (i : Fin nproc) (n : ℤ) : Preserves (Sys.TypedBut l) (growproc i n) := by
  unfold growproc
  refine .bind .get fun s => .bind (preserves_deref _) fun t => .ite ?_ (.ite ?_ ?_)
  · refine .bind (preserves_onMem _) fun r => .ite ?_ ?_
    · exact .bind (preserves_setProc i _) fun _ => .pure _
    · exact .bind (preserves_setProc i _) fun _ => .pure _
  · exact .bind (preserves_onMem _) fun r => .bind (preserves_setProc i _) fun _ => .pure _
  · exact .bind (preserves_setProc i _) fun _ => .pure _

theorem preserves_wait (i : Fin nproc) (addr : ℕ) : Preserves (Sys.TypedBut l) (wait i addr) := by
  unfold wait
  refine .bind .get fun s => ?_
  dsimp only
  split
  · refine .bind (preserves_deref _) fun t => ?_
    split_ifs
    · exact .bind (.pure true) fun _ => .ite (.pure none) (.bind (preserves_freeproc _) fun _ => .pure _)
    · exact .bind (preserves_onMem _) fun _ => .ite (.pure none) (.bind (preserves_freeproc _) fun _ => .pure _)
  · exact .ite (.pure none) (.throw _)

theorem preserves_sysCopyout (i : Fin nproc) (dstva : ℕ) (src : Bytes) (len : ℕ) :
    Preserves (Sys.TypedBut l) (sysCopyout i dstva src len) :=
  .bind .get fun _ => .bind (preserves_deref _) fun _ => preserves_onMem _

theorem preserves_kvmmap (va : ℕ) (pa : Frame) (sz : ℕ) (perm : Perm) :
    Preserves (Sys.TypedBut l) (kvmmap va pa sz perm) := by
  unfold kvmmap
  refine .bind .get fun s => .bind (preserves_onMem _) fun r => .ite (.throw _) ?_
  exact preserves_modify fun _ => rfl

theorem preserves_main (etext kend : ℕ) (initcode : Bytes) :
    Preserves (Sys.TypedBut l) (main etext kend initcode) := by
  unfold main
  refine .bind (preserves_onMem _) fun _ => .bind ?_ fun _ => .bind ?_ fun _ => ?_
  · unfold kvminit
    refine .bind (preserves_onMem _) fun pa => .bind (preserves_deref _) fun pa => ?_
    refine .bind (.modify fun s hs => hs.congr rfl) fun _ => ?_
    iterate 6 refine .bind (preserves_kvmmap _ _ _ _) fun _ => ?_
    exact preserves_kvmmap _ _ _ _
  · refine .forM (fun i => .bind (preserves_onMem _) fun pa => ?_) _
    cases pa with
    | none => exact .throw _
    | some pa => exact .bind (preserves_kvmmap _ _ _ _) fun _ => preserves_modify fun _ => rfl
  · unfold userinit uvminit
    refine .bind preserves_allocproc fun i => .bind (.modify fun s hs => hs.congr rfl) fun _ => ?_
    refine .bind (preserves_deref _) fun i => .bind .get fun s => .bind (preserves_deref _) fun t => ?_
    refine .bind ?_ fun t => preserves_setProc _ _
    refine .bind (preserves_onMem _) fun mem => .bind (preserves_deref _) fun mem => ?_
    exact .bind (preserves_onMem _) fun _ => .bind (preserves_onMem _) fun r => .pure _

end Untouched

section Files
variable {f : Fin nfile}

theorem preserves_filedup (f : Fin nfile) : Preserves (Sys.TypedBut []) (filedup f) := by
  intro s hs
  unfold filedup
  simp only [wp_bind, wp_get]
  split_ifs with hlt
  · exact (wp_throw _).mpr trivial
  rw [wp_setFile]
  intro g hg
  by_cases he : g = f
  · subst he
    simp only [update_self] at hg
    rcases hs g hg with hz | ⟨hmem, -⟩
    · omega
    · simp at hmem
  · simp only [update_of_ne he] at hg ⊢
    exact hs g hg

theorem wp_fileclose_typed (h : s.TypedBut (f :: l)) :
    Wp (fun _ => True) (fileclose f) s fun _ s' => s'.TypedBut l := by
  have hrest : ∀ {g}, g ≠ f → (s.file g).type = .none → (s.file g).ref = 0 ∨ g ∈ l ∧ (s.file g).ref = 1 := by
    intro g he hg
    rcases h g hg with hz | ⟨hmem, hone⟩
    · exact .inl hz
    · exact .inr ⟨(List.mem_cons.mp hmem).resolve_left he, hone⟩
  unfold fileclose
  simp only [wp_bind, wp_get]
  by_cases hlt : (s.file f).ref < 1
  · rw [if_pos hlt, wp_bind, wp_throw]
    trivial
  rw [if_neg hlt]
  split_ifs with hmore
  · rw [wp_setFile]
    intro g hg
    by_cases he : g = f
    · subst he
      simp only [update_self] at hg
      rcases h g hg with hz | ⟨-, hone⟩
      · omega
      · omega
    · simp only [update_of_ne he] at hg ⊢
      exact hrest he hg
  · rw [wp_bind, wp_setFile]
    have hclosed : { s with file := update s.file f ⟨0, .none⟩ }.TypedBut l := by
      intro g hg
      by_cases he : g = f
      · subst he
        left
        simp only [update_self]
      · simp only [update_of_ne he] at hg ⊢
        exact hrest he hg
    split
    · exact (wp_pure ()).mpr hclosed
    · unfold pipeclose
      simp only [wp_bind, wp_get, wp_set]
      exact Preserves.ite (preserves_onMem _) (.pure ()) _ (hclosed.congr rfl)
    · exact (wp_pure ()).mpr hclosed
    · exact (wp_pure ()).mpr hclosed

theorem Sys.TypedBut.mono {l' : List (Fin nfile)} (h : s.TypedBut l) (hl : ∀ f ∈ l, f ∈ l') : s.TypedBut l' := by
  intro f hf
  rcases h f hf with hz | ⟨hmem, hone⟩
  · exact .inl hz
  · exact .inr ⟨hl f hmem, hone⟩

theorem preserves_fileclose (f : Fin nfile) : Preserves (Sys.TypedBut []) (fileclose f) :=
  fun _ hs => wp_fileclose_typed (hs.mono (by simp))

theorem wp_filealloc_typed (h : s.TypedBut l) : Wp (fun _ => True) filealloc s fun r s' =>
    match r with
    | none => s'.TypedBut l
    | some f => s'.TypedBut (f :: l) := by
  unfold filealloc
  simp only [wp_bind, wp_get]
  split
  · exact (wp_pure none).mpr h
  · rw [wp_bind, wp_setFile, wp_pure]
    intro g hg
    rename_i f _
    by_cases he : g = f
    · subst he
      right
      simp only [update_self, List.mem_cons_self, and_self]
    · simp only [update_of_ne he] at hg ⊢
      rcases h g hg with hz | ⟨hmem, hone⟩
      · exact .inl hz
      · exact .inr ⟨List.mem_cons_of_mem _ hmem, hone⟩

theorem Sys.TypedBut.setType (h : s.TypedBut (f :: l)) {t : FdType} (ht : t ≠ .none) {r : ℕ} :
    { s with file := update s.file f ⟨r, t⟩ }.TypedBut l := by
  intro g hg
  by_cases he : g = f
  · subst he
    simp only [update_self] at hg
    exact absurd hg ht
  · simp only [update_of_ne he] at hg ⊢
    rcases h g hg with hz | ⟨hmem, hone⟩
    · exact .inl hz
    · exact .inr ⟨(List.mem_cons.mp hmem).resolve_left he, hone⟩

theorem preserves_pipealloc : Preserves (Sys.TypedBut []) pipealloc := by
  intro s hs
  unfold pipealloc
  rw [wp_bind]
  refine (wp_filealloc_typed hs).mono ?_
  rintro (_ | f₀) s₁ h₁
  · exact (wp_pure none).mpr h₁
  rw [wp_bind]
  refine (wp_filealloc_typed h₁).mono ?_
  rintro (_ | f₁) s₂ h₂
  · rw [wp_bind]
    exact (wp_fileclose_typed h₂).mono fun _ s₃ h₃ => (wp_pure none).mpr h₃
  have hswap : ∀ {s : Sys}, s.TypedBut [f₁, f₀] → s.TypedBut [f₀, f₁] := fun h => h.mono (by simp)
  unfold pipeinit
  simp only [wp_bind]
  refine (preserves_onMem _ s₂ h₂).mono ?_
  rintro (_ | pi) s₃ h₃
  · simp only [wp_bind, wp_pure]
    exact (wp_fileclose_typed (hswap h₃)).mono fun _ s₄ h₄ => wp_fileclose_typed h₄
  · simp only [wp_bind, wp_modify, wp_get, wp_setFile, wp_pure]
    have h₄ := hswap h₃
    have h₅ := h₄.setType (t := .pipe pi false) (by simp) (r := (s₃.file f₀).ref)
    exact (h₅.setType (t := .pipe pi true) (by simp) (r := (s₃.file f₁).ref)).congr rfl

theorem preserves_sysPipe (i : Fin nproc) (fdarray : ℕ) : Preserves (Sys.TypedBut []) (sysPipe i fdarray) := by
  have hclose : ∀ rf wf, Preserves (Sys.TypedBut []) (do fileclose rf; fileclose wf; return false : Kern Bool) :=
    fun rf wf => .bind (preserves_fileclose rf) fun _ => .bind (preserves_fileclose wf) fun _ => .pure false
  unfold sysPipe
  refine .bind preserves_pipealloc fun r => ?_
  cases r with
  | none => exact .pure false
  | some r =>
    refine .bind (preserves_fdalloc i r.1) fun fd₀ => ?_
    cases fd₀ with
    | none => exact hclose r.1 r.2
    | some fd₀ =>
      refine .bind (preserves_fdalloc i r.2) fun fd₁ => ?_
      cases fd₁ with
      | none => exact .bind (preserves_updProc i _) fun _ => hclose r.1 r.2
      | some fd₁ =>
        have hend : ∀ both : Bool, Preserves (Sys.TypedBut []) (if both then (pure true : Kern Bool) else do
            setOfile i fd₀ none
            setOfile i fd₁ none
            fileclose r.1
            fileclose r.2
            return false) := fun both =>
          .ite (.pure true) (.bind (preserves_updProc i _) fun _ => .bind (preserves_updProc i _) fun _ =>
            hclose r.1 r.2)
        refine .bind .get fun s => .bind (preserves_deref _) fun t => ?_
        refine .bind (preserves_onMem _) fun first => ?_
        dsimp only
        split_ifs
        · exact .bind (preserves_onMem _) fun both => hend both
        · exact .bind (.pure false) fun both => hend both

theorem preserves_sysOpen (i : Fin nproc) (found : Option Inode) :
    Preserves (Sys.TypedBut []) (sysOpen i found) := by
  intro s hs
  unfold sysOpen
  cases found with
  | none => exact (wp_pure none).mpr hs
  | some ip =>
    rw [wp_bind]
    refine (wp_filealloc_typed hs).mono ?_
    rintro (_ | f) s₁ h₁
    · exact (wp_pure none).mpr h₁
    rw [wp_bind]
    refine (preserves_fdalloc i f s₁ h₁).mono ?_
    rintro (_ | fd) s₂ h₂
    · rw [wp_bind]
      exact (wp_fileclose_typed h₂).mono fun _ s₃ h₃ => (wp_pure none).mpr h₃
    · simp only [wp_bind, wp_get, wp_setFile, wp_pure]
      exact h₂.setType (by split_ifs <;> simp)

theorem preserves_fork (i : Fin nproc) : Preserves (Sys.TypedBut []) (fork i) := by
  unfold fork
  refine .bind preserves_allocproc fun r => ?_
  cases r with
  | none => exact .pure none
  | some j =>
    refine .bind .get fun s => .bind (preserves_deref _) fun old => .bind (preserves_deref _) fun new => ?_
    refine .bind (preserves_onMem _) fun r => .ite ?_ ?_
    · exact .bind (preserves_setProc j _) fun _ => .bind (preserves_freeproc j) fun _ => .pure none
    · refine .bind (preserves_setProc j _) fun _ => .bind (.forM (fun fd => ?_) _) fun _ => ?_
      · refine .bind .get fun s => .elim (.pure ()) fun f => ?_
        exact .bind (preserves_filedup f) fun _ => preserves_updProc j _
      · exact .bind (preserves_updProc j _) fun _ => .pure _

theorem preserves_exit (i : Fin nproc) (status : ℕ) : Preserves (Sys.TypedBut []) (exit i status) := by
  unfold exit
  refine .bind .get fun s => ?_
  have hexit : Preserves (Sys.TypedBut []) (do
      (List.finRange nofile).forM (exitFile i)
      reparent i
      updProc i fun p => { p with xstate := status, state := .zombie } : Kern Unit) := by
    refine .bind (.forM (fun fd => ?_) _) fun _ => ?_
    · refine .bind .get fun s => .elim (.pure ()) fun f => ?_
      exact .bind (preserves_fileclose f) fun _ => preserves_updProc i _
    · exact .bind (.modify fun s hs => hs.congr rfl) fun _ => preserves_updProc i _
  exact .ite (.bind (.throw _) fun _ => hexit) hexit

theorem preserves_syscall (i : Fin nproc) (call : Call) : Preserves (Sys.TypedBut []) (syscall i call) := by
  cases call with
  | fork => exact .bind (preserves_fork i) fun _ => .pure ()
  | exec file args => exact .bind (preserves_sysExec i file args) fun _ => .pure ()
  | sbrk n => exact .bind (preserves_growproc i n) fun _ => .pure ()
  | exit status => exact preserves_exit i status
  | wait addr => exact .bind (preserves_wait i addr) fun _ => .pure ()
  | pipe fdarray => exact .bind (preserves_sysPipe i fdarray) fun _ => .pure ()
  | dup fd =>
    refine .bind (.bind .get fun s => ?_) fun _ => .pure ()
    split
    · exact .pure none
    · refine .bind (preserves_fdalloc i _) fun r => ?_
      cases r with
      | none => exact .pure none
      | some fd => exact .bind (preserves_filedup _) fun _ => .pure _
  | close fd =>
    refine .bind (.bind .get fun s => ?_) fun _ => .pure ()
    split
    · exact .pure false
    · exact .bind (preserves_updProc i _) fun _ => .bind (preserves_fileclose _) fun _ => .pure true
  | «open» found => exact .bind (preserves_sysOpen i found) fun _ => .pure ()
  | copyout dstva src len => exact .bind (preserves_sysCopyout i dstva src len) fun _ => .pure ()

theorem Sys.TypedBut.step (h : s.TypedBut []) {a : Action} (hs : Vm.step s a = .ok s') : s'.TypedBut [] := by
  unfold Vm.step at hs
  split_ifs at hs with hi
  cases hx : syscall a.proc a.call { s with mem := { s.mem with fails := a.fails } } with
  | error e => simp [hx, Except.map] at hs
  | ok r =>
    obtain rfl : r.2 = s' := by simpa [hx, Except.map] using hs
    have h' : { s with mem := { s.mem with fails := a.fails } }.TypedBut [] := h.congr rfl
    exact (preserves_syscall a.proc a.call).of_ok h' hx

end Files

theorem Sys.count_fds (s : Sys) (f : Fin nfile) : s.fds.count f =
    (Finset.univ.filter fun x : Fin nproc × Fin nofile => (s.proc x.1).ofile x.2 = some f).card := by
  have hcount : ∀ o : Option (Fin nfile), (refOf o).count f = if o = some f then 1 else 0 := by
    intro o
    cases o with
    | none => simp [refOf]
    | some g => simp [refOf, Multiset.count_singleton, eq_comm]
  unfold Sys.fds
  rw [Multiset.count_sum', Finset.card_filter]
  simp only [hcount]

/-- The table of open files between system calls. -/
structure Sys.Accounts (s : Sys) : Prop where
  ref : ∀ f, (s.file f).ref =
    (Finset.univ.filter fun x : Fin nproc × Fin nofile => (s.proc x.1).ofile x.2 = some f).card
  free : ∀ f, (s.file f).ref = 0 ↔ (s.file f).type = .none
  ends : ∀ pi ∈ s.pipes, ∀ w, (s.pipe pi).isOpen w = true ↔ ∃! f, (s.file f).type = .pipe pi w
  live : ∀ i fd f pi w, (s.proc i).ofile fd = some f → (s.file f).type = .pipe pi w →
    (s.pipe pi).isOpen w = true ∧ pi ∉ s.mem.free

theorem Inv.pipe_not_free (h : Inv pool 0 s) {pi : Page} (hpi : pi ∈ s.pipes) : pi ∉ s.mem.free := by
  intro hfree
  have hat : pi ∈ s.at .pipe := Finset.mem_val.mpr hpi
  obtain ⟨pl, -, huniq⟩ := h.exists_unique (h.mem_of_at hat)
  have h₁ := huniq .pipe hat
  have h₂ := huniq .free (Multiset.mem_coe.mpr hfree)
  rw [← h₂] at h₁
  simp at h₁

theorem Inv.accounts (h : Inv pool 0 s) (ht : s.TypedBut []) : s.Accounts where
  ref f := by rw [h.files.ref f, zero_add, s.count_fds]
  free f := by
    refine ⟨h.files.closed f, fun hf => ?_⟩
    rcases ht f hf with hz | ⟨hmem, -⟩
    · exact hz
    · simp at hmem
  ends pi hpi w := by
    obtain ⟨f, v, hf⟩ := Sys.mem_pipes.mp hpi
    constructor
    · intro hopen
      have hex : ∃ g, (s.file g).type = .pipe pi w := by
        cases Bool.eq_or_eq_not w v with
        | inl hv => exact ⟨f, hv ▸ hf⟩
        | inr hv =>
          subst hv
          exact h.files.other f pi v hf hopen
      obtain ⟨g, hg⟩ := hex
      exact ⟨g, hg, fun g' hg' => h.files.unique g' g pi w hg' hg⟩
    · rintro ⟨g, hg, -⟩
      exact h.files.isOpen g pi w hg
  live i fd f pi w _ hf := ⟨h.files.isOpen f pi w hf, h.pipe_not_free (Sys.mem_pipes.mpr ⟨f, w, hf⟩)⟩

/-- From the boot on, in every run: the table of open files is in order. The page of a pipe
that was open before a call is free, and once so, if and only if the call has closed both ends.
And a call ends in no panic but that of `exit` by init. -/
theorem files_accounted {etext kend : ℕ} (h : Layout etext kend) (data : Frame → Bytes)
    (pipe : Page → Pipe) (initcode : Bytes) :
    ∃ s₀, main etext kend initcode (bss data pipe) = .ok ((), s₀) ∧
      ∀ s, Run step (fun _ _ => True) s₀ s → s.Accounts ∧
        (∀ a s', step s a = .ok s' → ∀ pi ∈ s.pipes,
          s'.mem.free.count pi = if ∃ f w, (s'.file f).type = .pipe pi w then 0 else 1) ∧
        ∀ a p, step s a = .error (.panic p) → p = .initExiting := by
  obtain ⟨_, s₀, hmain, ⟨kernel, hinv⟩, -⟩ := (wp_main (E := fun _ => False) h data pipe initcode).returns
  have hcard := machinePool_card kend kernel
  have htyped : s₀.TypedBut [] :=
    (preserves_main etext kend initcode).of_ok (s := bss data pipe) (fun _ _ => .inl rfl) hmain
  refine ⟨s₀, hmain, fun s hrun => ?_⟩
  have hs := hinv.run_small hcard hrun
  have ht : s.TypedBut [] := hrun.invariant htyped fun _ _ _ hx _ hstep => hx.step hstep
  have hfits : ∀ a, sbrkFits s a := fun a _ _ => hs.sz_lt hcard a.proc
  refine ⟨hs.accounts ht, fun a s' hstep pi hpi => ?_, fun a p hstep => hs.step_panic (hfits a) hstep⟩
  obtain ⟨hafter, -, -⟩ := hs.step_after (hfits a) hstep
  split_ifs with hopen
  · exact List.count_eq_zero.mpr (hafter.inv.pipe_not_free (Sys.mem_pipes.mpr hopen))
  · have hfree := (hafter.frees pi hpi).resolve_left fun hmem => hopen (Sys.mem_pipes.mp hmem)
    have hnodup : s'.mem.free.Nodup := Multiset.coe_nodup.mp (hafter.inv.nodup_at .free)
    exact List.count_eq_one_of_mem hnodup hfree

theorem files_accounted_example : Layout 0x80008000 0x80027000 ∧
    ∃ s₀, main 0x80008000 0x80027000 (fun _ => 0) (bss (fun _ _ => 0) fun _ => ⟨false, false⟩) =
      .ok ((), s₀) ∧ ∀ s, Run step (fun _ _ => True) s₀ s → s.Accounts ∧
        (∀ a s', step s a = .ok s' → ∀ pi ∈ s.pipes,
          s'.mem.free.count pi = if ∃ f w, (s'.file f).type = .pipe pi w then 0 else 1) ∧
        ∀ a p, step s a = .error (.panic p) → p = .initExiting :=
  ⟨layout_example, files_accounted layout_example _ _ _⟩

end Xv6.Vm
