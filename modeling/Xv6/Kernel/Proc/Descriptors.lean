import Xv6.Kernel.Proc.Spaces

/-! The calls that open, copy and close file descriptors, with `fork` and `exit`, which do it
for a whole process. -/
namespace Xv6.Vm
open Lib Function Multiset

variable {E : Halt → Prop} {s s' s'' : Sys} {pool : Pool} {held : Multiset (Fin nfile)}
  {i j : Fin nproc}

theorem Sys.FilesOk.ref_pos {refs : Multiset (Fin nfile)} (h : s.FilesOk refs) {f : Fin nfile}
    (hf : f ∈ refs) : 0 < (s.file f).ref := by
  rw [h.ref f]
  exact Multiset.count_pos.mpr hf

theorem Sys.mem_fds {fd : Fin nofile} {f : Fin nfile} (h : (s.proc i).ofile fd = some f) :
    f ∈ s.fds := by
  rw [Sys.fds_setOfile_none h]
  exact mem_cons_self f _

theorem Sys.exists_of_mem_fds {f : Fin nfile} (h : f ∈ s.fds) :
    ∃ j fd, (s.proc j).ofile fd = some f := by
  unfold Sys.fds at h
  rw [Multiset.mem_sum] at h
  obtain ⟨⟨j, fd⟩, -, hmem⟩ := h
  refine ⟨j, fd, ?_⟩
  cases ho : (s.proc j).ofile fd with
  | none => simp [ho, refOf] at hmem
  | some g =>
    rw [ho, refOf, mem_singleton] at hmem
    rw [hmem]

/-- A pipe that was open is open, or its page is free. -/
def Sys.Frees (s s' : Sys) : Prop := ∀ pi ∈ s.pipes, pi ∈ s'.pipes ∨ pi ∈ s'.mem.free

theorem Sys.Frees.of_subset (h : s.pipes ⊆ s'.pipes) : s.Frees s' := fun _ hpi => .inl (h hpi)

theorem Sys.Frees.of_moves (h : Mem.Moves s.pipes.val s'.pipes.val s.mem s'.mem) : s.Frees s' := by
  intro pi hpi
  have hmem : pi ∈ (s.mem.free : Multiset Page) + s.pipes.val :=
    mem_add.mpr (.inr (Finset.mem_val.mpr hpi))
  rw [← h.pages, mem_add] at hmem
  exact hmem.symm

theorem Sys.FilesOk.mem_of_pipe {refs : Multiset (Fin nfile)} (h : s.FilesOk refs) {f : Fin nfile} {pi : Page}
    {w : Bool} (hf : (s.file f).type = .pipe pi w) : f ∈ refs := by
  have href : (s.file f).ref ≠ 0 := fun hz => by simp [h.closed f hz] at hf
  rwa [h.ref f, Multiset.count_ne_zero] at href

theorem Sys.FilesMove.pipes_subset {refs : Multiset (Fin nfile)} (h : s.FilesOk refs)
    (hm : s.FilesMove refs s') : s.pipes ⊆ s'.pipes := by
  intro pi hpi
  obtain ⟨f, w, hf⟩ := Sys.mem_pipes.mp hpi
  refine Sys.mem_pipes.mpr ⟨f, w, ?_⟩
  rw [hm.types f (h.mem_of_pipe hf), hf]

theorem Inv.pipes_subset (h : Inv pool 0 s) (hk : ∀ k, (s.proc k).state = .runnable → s.Keeps k s') :
    s.pipes ⊆ s'.pipes := by
  intro pi hpi
  obtain ⟨f, w, hf⟩ := Sys.mem_pipes.mp hpi
  have hfd := h.files.mem_of_pipe hf
  rw [zero_add] at hfd
  obtain ⟨k, fd, ho⟩ := Sys.exists_of_mem_fds hfd
  have hstate : (s.proc k).state = .runnable := by
    by_contra hne
    rw [(h.ok k).closed hne] at ho
    simp at ho
  refine Sys.mem_pipes.mpr ⟨f, w, ?_⟩
  rw [(hk k hstate).types fd f ho, hf]

/-- The descriptors of process `i` change and with them open files, nothing else. -/
structure Sys.Descriptors (i : Fin nproc) (s s' : Sys) : Prop where
  spaces : s.SameSpaces s'
  rest : ∀ j, j ≠ i → s'.proc j = s.proc j
  proc : s'.proc i = { s.proc i with ofile := (s'.proc i).ofile }
  types : ∀ j, j ≠ i → ∀ fd f, (s.proc j).ofile fd = some f → (s'.file f).type = (s.file f).type
  initproc : s'.initproc = s.initproc

theorem Sys.Descriptors.refl (i : Fin nproc) (s : Sys) : s.Descriptors i s :=
  ⟨⟨.refl _ _, fun _ => rfl, fun _ => rfl, fun _ => rfl, rfl, rfl⟩, fun _ _ => rfl, rfl,
    fun _ _ _ _ _ => rfl, rfl⟩

theorem Sys.Descriptors.trans (h : s.Descriptors i s') (h' : s'.Descriptors i s'') :
    s.Descriptors i s'' where
  spaces := h.spaces.trans h'.spaces
  rest j hj := (h'.rest j hj).trans (h.rest j hj)
  proc := by rw [h'.proc, h.proc]
  types j hj fd f hf :=
    (h'.types j hj fd f (by rw [h.rest j hj]; exact hf)).trans (h.types j hj fd f hf)
  initproc := h'.initproc.trans h.initproc

theorem Sys.Descriptors.keeps {k : Fin nproc} (h : s.Descriptors i s') (hk : k ≠ i) : s.Keeps k s' where
  proc := by rw [h.rest k hk]
  types := h.types k hk

theorem Sys.descriptors_setOfile (s : Sys) (i : Fin nproc) (fd : Fin nofile)
    (v : Option (Fin nfile)) : s.Descriptors i (s.setOfile i fd v) where
  spaces := s.setOfile_spaces i fd v
  rest j hj := update_of_ne hj _ _
  proc := by
    unfold Sys.setOfile Proc.setOfile
    simp
  types _ _ _ _ _ := rfl
  initproc := rfl

theorem Sys.FilesMove.descriptors {refs : Multiset (Fin nfile)} (i : Fin nproc)
    (h : s.FilesMove refs s') (hrefs : ∀ j, j ≠ i → ∀ fd f, (s.proc j).ofile fd = some f → f ∈ refs) :
    s.Descriptors i s' where
  spaces := h.same.spaces h.moves
  rest j _ := by rw [h.same.proc]
  proc := by rw [h.same.proc]
  types j hj fd f hf := h.types f (hrefs j hj fd f hf)
  initproc := by rw [h.same]

theorem Sys.mem_add_fds (s : Sys) (held : Multiset (Fin nfile)) {fd : Fin nofile} {f : Fin nfile}
    (h : (s.proc j).ofile fd = some f) : f ∈ held + s.fds :=
  mem_add.mpr (.inr (Sys.mem_fds h))

@[simp] theorem Sys.setOfile_ofile (s : Sys) (i : Fin nproc) (fd : Fin nofile)
    (v : Option (Fin nfile)) :
    ((s.setOfile i fd v).proc i).ofile = update (s.proc i).ofile fd v := by
  unfold Sys.setOfile Proc.setOfile
  simp

theorem Inv.descriptors {held' : Multiset (Fin nfile)} (h : Inv pool held s)
    (hi : (s.proc i).state = .runnable) (hd : s.Descriptors i s')
    (hf : s'.FilesOk (held' + s'.fds)) : Inv pool held' s' := by
  have hstate : ∀ j, (s'.proc j).state = (s.proc j).state := by
    intro j
    by_cases hj : j = i
    · rw [hj, hd.proc]
    · rw [hd.rest j hj]
  refine h.spaces hd.spaces hf (fun j => by rw [hstate]) fun j hj => ?_
  rw [hstate] at hj
  by_cases he : j = i
  · rw [he] at hj
    exact absurd hi hj
  · rw [hd.rest j he]
    exact (h.ok j).closed hj

section Fork

theorem wp_forkFile (h : s.FilesOk (held + s.fds)) {fd : Fin nofile}
    (hfd : (s.proc j).ofile fd = none) : Wp E (forkFile i j fd) s fun _ s' =>
      s'.FilesOk (held + s'.fds) ∧ s.Descriptors j s' ∧ s'.mem = s.mem ∧
      (s'.proc j).ofile = update (s.proc j).ofile fd ((s.proc i).ofile fd) := by
  unfold forkFile
  simp only [wp_bind, wp_get]
  cases ho : (s.proc i).ofile fd with
  | none =>
    refine (wp_pure ()).mpr ⟨h, .refl j s, rfl, ?_⟩
    rw [← hfd, update_eq_self]
  | some f =>
    simp only [Option.elim_some, wp_bind]
    refine wp_filedup h (h.ref_pos (s.mem_add_fds held ho)) fun s₁ hf₁ hmove hm => ?_
    have hproc := hmove.same.proc
    rw [wp_setOfile]
    refine ⟨?_, ?_, hm, by rw [Sys.setOfile_ofile, hproc]⟩
    · have hfds : (s₁.setOfile j fd (some f)).fds = f ::ₘ s.fds := by
        rw [Sys.fds_setOfile_some f (by rw [hproc, hfd]), Sys.fds_of_proc hproc]
      rw [hfds, add_cons]
      exact hf₁.congr rfl rfl
    · have hd := hmove.descriptors j fun _ _ _ _ => s.mem_add_fds held
      exact hd.trans (s₁.descriptors_setOfile j fd _)

theorem wp_forkFiles (l : List (Fin nofile)) (hl : l.Nodup)
    (h : s.FilesOk (held + s.fds)) (hfd : ∀ fd ∈ l, (s.proc j).ofile fd = none) :
    Wp E (l.forM (forkFile i j)) s fun _ s' =>
      s'.FilesOk (held + s'.fds) ∧ s.Descriptors j s' ∧ s'.mem = s.mem := by
  induction l generalizing s with
  | nil => exact (wp_forM_nil _ _).mpr ⟨h, .refl j s, rfl⟩
  | cons fd l ih =>
    obtain ⟨hnot, hl⟩ := List.nodup_cons.mp hl
    rw [wp_forM_cons]
    refine (wp_forkFile h (hfd fd (by simp))).mono ?_
    rintro _ s₁ ⟨hf₁, hd₁, hm₁, ho₁⟩
    have hrest : ∀ fd' ∈ l, (s₁.proc j).ofile fd' = none := by
      intro fd' hfd'
      rw [ho₁, update_of_ne (by rintro rfl; exact hnot hfd')]
      exact hfd fd' (by simp [hfd'])
    refine (ih hl hf₁ hrest).mono ?_
    rintro _ s₂ ⟨hf₂, hd₂, hm₂⟩
    exact ⟨hf₂, hd₁.trans hd₂, hm₂.trans hm₁⟩

/-- The child in slot `j` of a fork by `i`: the pages it has were free, and its memory is a
copy of the parent's. -/
structure Forked (i j : Fin nproc) (s s' : Sys) : Prop where
  unused : (s.proc j).state = .unused
  rest : ∀ k, k ≠ j → s'.proc k = s.proc k
  state : (s'.proc j).state = .runnable
  sz : (s'.proc j).sz = (s.proc i).sz
  moves : Mem.Moves 0 (s'.proc j).pages s.mem s'.mem
  copied : ∃ old new, (s.proc i).pagetable = some old ∧ (s'.proc j).pagetable = some new ∧
    Copied old new s'.mem (pgs (s.proc i).sz)

theorem Sys.two_le (s : Sys) (hne : i ≠ j) :
    (s.mem.free : Multiset Page) + (s.proc i).pages + (s.proc j).pages ≤ s.pages := by
  have hj : j ∈ Finset.univ.erase i := by simp [hne.symm]
  unfold Sys.pages
  rw [← Finset.add_sum_erase _ _ (Finset.mem_univ i), ← Finset.add_sum_erase _ _ hj]
  have hle := le_add_right
    ((s.mem.free : Multiset Page) + (s.proc i).pages + (s.proc j).pages)
    ((∑ k ∈ (Finset.univ.erase i).erase j, (s.proc k).pages) + s.pipes.val + s.kernelPages)
  convert hle using 1
  abel

/-- The child, which has its memory already, gets the descriptors and becomes runnable. -/
theorem wp_forkChild (h : Inv pool held s) (hj : (s.proc j).state = .unused) (hc : s.Changes j s')
    {t : Pagetable} (htf : (s'.proc j).trapframe.isSome = true) (hpt : (s'.proc j).pagetable = some t)
    (hs : Space (fun _ => True) t (pgs (s'.proc j).sz) tops) {Q : Unit → Sys → Prop}
    (hQ : ∀ s'', Inv pool held s'' → (∀ k, k ≠ j → s''.proc k = s.proc k ∧ s.Keeps k s'') →
      s''.proc j = { s'.proc j with state := .runnable, ofile := (s''.proc j).ofile } →
      s''.mem = s'.mem → s''.initproc = s'.initproc → Q () s'') :
    Wp E ((List.finRange nofile).forM (forkFile i j)) s' fun _ s₁ =>
      Wp E (updProc j fun np => { np with state := .runnable }) s₁ Q := by
  have hfiles : s'.FilesOk (held + s'.fds) := by
    rw [hc.fds]
    exact h.files.congr hc.file hc.pipe
  have hnone : ∀ fd, (s'.proc j).ofile fd = none := by
    intro fd
    rw [hc.ofile]
    exact (h.ok j).closed (by simp [hj]) fd
  refine (wp_forkFiles _ (List.nodup_finRange _) hfiles fun fd _ => hnone fd).mono ?_
  rintro _ s₁ ⟨hf₁, hd, hm⟩
  rw [wp_updProc]
  have hproc : update s₁.proc j { s₁.proc j with state := .runnable } j =
      { s'.proc j with state := .runnable, ofile := (s₁.proc j).ofile } := by
    rw [update_self, hd.proc]
  have hrest : ∀ k, k ≠ j →
      update s₁.proc j { s₁.proc j with state := .runnable } k = s.proc k := by
    intro k hk
    rw [update_of_ne hk, hd.rest k hk, hc.rest k hk]
  apply hQ
  · constructor
    · intro k
      by_cases hk : k = j
      · subst hk
        dsimp only
        rw [hproc]
        exact Proc.ok_space (by simp) htf hpt hs (by simp)
      · dsimp only
        rw [hrest k hk]
        exact h.ok k
    · have hfds : Sys.fds { s₁ with
          proc := update s₁.proc j { s₁.proc j with state := .runnable } } = s₁.fds := by
        have hofile : ∀ k, (update s₁.proc j { s₁.proc j with state := .runnable } k).ofile =
            (s₁.proc k).ofile := by
          intro k
          by_cases hk : k = j
          · rw [hk, update_self]
          · rw [update_of_ne hk]
        unfold Sys.fds
        simp only [hofile]
      rw [hfds]
      exact hf₁.congr rfl rfl
    · have hpages : Sys.pages { s₁ with
          proc := update s₁.proc j { s₁.proc j with state := .runnable } } = s₁.pages := by
        apply Sys.SameSpaces.pages
        refine ⟨.refl _ _, fun k => ?_, fun k => ?_, fun k => ?_, rfl, rfl⟩
        all_goals
          by_cases hk : k = j
          · simp [hk]
          · simp [hk]
      rw [hpages, hd.spaces.pages, hc.pages, h.pages]
    · have hkernel : s₁.kernelPages = s.kernelPages := hd.spaces.kernelPages.trans hc.kernelPages
      exact hkernel.trans h.kernel
  · intro k hk
    refine ⟨hrest k hk, (hc.keeps hk).trans ((hd.keeps hk).trans ⟨?_, fun _ _ _ => rfl⟩)⟩
    simp only [update_of_ne hk]
  · dsimp only
    rw [hproc]
  · exact hm
  · exact hd.initproc

/-- `fork` by a process in use makes a child, or fails and leaves every process in use and the
number of free pages as they were. -/
theorem wp_fork (h : Inv pool held s) (hi : (s.proc i).state ≠ .unused) :
    Wp E (fork i) s fun r s' => Inv pool held s' ∧ s'.initproc = s.initproc ∧
      (∀ k, (s.proc k).state ≠ .unused → s.Keeps k s') ∧
      (∀ pid, r = some pid → ∃ j, Forked i j s s' ∧ (s'.proc j).pid = pid) ∧
      (r = none → Mem.Moves 0 0 s.mem s'.mem ∧
        ∀ k, (s.proc k).state ≠ .unused → s'.proc k = s.proc k) := by
  have hfail : ∀ {j : Fin nproc} {s' : Sys}, (s.proc j).state = .unused → s.Changes j s' →
      (s'.proc j).Ok → (s'.proc j).state = .unused → Inv pool held s' ∧
      (∀ k, (s.proc k).state ≠ .unused → s.Keeps k s') ∧ Mem.Moves 0 0 s.mem s'.mem ∧
        ∀ k, (s.proc k).state ≠ .unused → s'.proc k = s.proc k := by
    intro j s' hj hc hok hj'
    have hm := hc.moves
    rw [(h.ok j).pages_unused hj, hok.pages_unused hj'] at hm
    have hne : ∀ k, (s.proc k).state ≠ .unused → k ≠ j := by
      rintro k hk rfl
      exact hk hj
    exact ⟨h.change hc hok, fun k hk => hc.keeps (hne k hk), hm, fun k hk => hc.rest k (hne k hk)⟩
  obtain ⟨old, -, ht, -, hold, -⟩ := h.exists_table hi
  unfold fork
  rw [wp_bind]
  apply wp_allocproc h
  · intro _
    exact (wp_pure none).mpr ⟨h, rfl, fun k _ => ⟨rfl, fun _ _ _ => rfl⟩, by simp,
      fun _ => ⟨.refl 0 _, fun _ _ => rfl⟩⟩
  · intro j s₁ hj hc hok hj' _ hinit
    obtain ⟨hinv, hkeeps, hm, hrest⟩ := hfail hj hc hok hj'
    exact (wp_pure none).mpr ⟨hinv, hinit, hkeeps, by simp, fun _ => ⟨hm, hrest⟩⟩
  · intro j pid pa t s₁ hj hc hproc hs _ hinit
    have hne : i ≠ j := by
      rintro rfl
      exact hi hj
    obtain ⟨htf, hpt, hsz⟩ := (h.ok j).unused hj
    have hclosed := (h.ok j).closed (by simp [hj])
    have hparent : s₁.proc i = s.proc i := hc.rest i hne
    have hpages : (s₁.proc j).pages = {pa} + holdings t := by
      rw [hproc]
      rfl
    have hb : s₁.mem.free.length + (holdings t).card < 2 ^ 26 := by
      have hlt := pool.small
      have hle := s₁.card_le j
      rw [hc.pages, h.pages, hpages, card_add] at hle
      omega
    have hnd : ((s₁.mem.free : Multiset Page) + holdings t + user old).Nodup := by
      have hnd := pool.nodup
      rw [← h.pages, ← hc.pages] at hnd
      refine nodup_of_le ?_ (nodup_of_le (s₁.two_le hne.symm) hnd)
      rw [hpages, hparent, Proc.pages, ht]
      refine add_le_add (add_le_add le_rfl (le_add_left _ _)) ?_
      exact (le_add_left (user old) (nodes old)).trans (le_add_left _ _)
    simp only [wp_bind, wp_get, hparent, ht, hproc, deref_some, wp_pure, wp_onMem]
    refine (hold.wp_uvmcopy hs hb).mono ?_
    rintro ⟨new, copied⟩ m ⟨hs', hm, hcopied⟩
    dsimp only at hs' hm hcopied
    have hmoves : ∀ p : Proc, p.trapframe = some pa → p.pagetable = some new →
        Mem.Moves (s₁.proc j).pages p.pages s₁.mem m := by
      intro p htf' hpt'
      have hm := hm.frame {pa}
      rw [add_comm, add_comm (holdings new)] at hm
      rw [hpages, Proc.pages, htf', hpt']
      exact hm
    cases copied with
    | false =>
      simp only [Bool.not_false, if_true, wp_bind, wp_setProc, wp_pure]
      have hc' := hc.trans (Sys.changes_set (i := j)
        (p := { s.proc j with pid, trapframe := some pa, pagetable := some new }) (hmoves _ rfl rfl)
        (by rw [hproc]))
      apply wp_freeproc
      · simp only [update_self, Option.some.injEq, hsz]
        rintro _ rfl
        exact hs'
      · intro m' hm'
        have hc'' := hc'.trans (Sys.changes_set (i := j)
          (p := { Proc.free with ofile := (s.proc j).ofile }) hm' (by simp))
        simp only [update_self, update_idem] at hc'' ⊢
        have hok := Proc.ok_free (p := { Proc.free with ofile := (s.proc j).ofile }) rfl rfl rfl rfl
          hclosed
        obtain ⟨hinv, hkeeps, hm₀, hrest⟩ := hfail hj hc'' (by simpa using hok) (by simp [Proc.free])
        exact ⟨hinv, hinit, hkeeps, by simp, fun _ => ⟨hm₀, hrest⟩⟩
    | true =>
      simp only [Bool.not_true, Bool.false_eq_true, if_false, wp_bind, wp_setProc]
      have hc' := hc.trans (Sys.changes_set (i := j)
        (p := { s.proc j with
          pid, trapframe := some pa, pagetable := some new, sz := (s.proc i).sz, parent := some i })
        (hmoves _ rfl rfl) (by rw [hproc]))
      refine wp_forkChild (t := new) h hj hc' (by simp) (by simp) (by simpa using hs') ?_
      intro s₂ hinv hrest hj₂ hm₂ hi₂
      simp only [update_self] at hj₂
      refine (wp_pure _).mpr ⟨hinv, hi₂.trans hinit, fun k hk => (hrest k ?_).2, ?_, by simp⟩
      · rintro rfl
        exact hk hj
      rintro _ ⟨rfl⟩
      refine ⟨j, ⟨hj, fun k hk => (hrest k hk).1, by rw [hj₂], by rw [hj₂], ?_, ?_⟩, by rw [hj₂]⟩
      · have hm' := hc'.moves
        simp only [(h.ok j).pages_unused hj, update_self] at hm'
        rw [hm₂, hj₂]
        exact hm'
      · refine ⟨old, new, ht, by rw [hj₂], ?_⟩
        rw [hm₂]
        exact hcopied hnd rfl

end Fork

section Exit

theorem wp_exitFile (h : s.FilesOk (held + s.fds)) (fd : Fin nofile) :
    Wp E (exitFile i fd) s fun _ s' => s'.FilesOk (held + s'.fds) ∧ s.Descriptors i s' ∧
      (s'.proc i).ofile = update (s.proc i).ofile fd none := by
  unfold exitFile
  simp only [wp_bind, wp_get]
  cases ho : (s.proc i).ofile fd with
  | none =>
    refine (wp_pure ()).mpr ⟨h, .refl i s, ?_⟩
    rw [← ho, update_eq_self]
  | some f =>
    rw [Sys.fds_setOfile_none ho, add_cons] at h
    simp only [Option.elim_some, wp_bind]
    refine wp_fileclose h fun s₁ hf₁ hmove => ?_
    have hproc := hmove.same.proc
    have hfds : (s₁.setOfile i fd none).fds = (s.setOfile i fd none).fds :=
      Sys.fds_of_proc (by rw [Sys.setOfile, Sys.setOfile, hproc])
    rw [wp_setOfile]
    refine ⟨?_, ?_, by rw [Sys.setOfile_ofile, hproc]⟩
    · rw [hfds]
      exact hf₁.congr rfl rfl
    · have hd := hmove.descriptors i fun j hj fd' f' hf' =>
        (s.setOfile i fd none).mem_add_fds held
          (show ((s.setOfile i fd none).proc j).ofile fd' = some f' by
            rw [(s.descriptors_setOfile i fd none).rest j hj]; exact hf')
      exact hd.trans (s₁.descriptors_setOfile i fd _)

theorem wp_exitFiles (l : List (Fin nofile)) (h : s.FilesOk (held + s.fds))
    (hfd : ∀ fd, fd ∉ l → (s.proc i).ofile fd = none) :
    Wp E (l.forM (exitFile i)) s fun _ s' => s'.FilesOk (held + s'.fds) ∧ s.Descriptors i s' ∧
      ∀ fd, (s'.proc i).ofile fd = none := by
  induction l generalizing s with
  | nil => exact (wp_forM_nil _ _).mpr ⟨h, .refl i s, fun fd => hfd fd (by simp)⟩
  | cons fd l ih =>
    rw [wp_forM_cons]
    refine (wp_exitFile h fd).mono ?_
    rintro _ s₁ ⟨hf₁, hd₁, ho₁⟩
    have hrest : ∀ fd', fd' ∉ l → (s₁.proc i).ofile fd' = none := by
      intro fd' hfd'
      rw [ho₁]
      by_cases he : fd' = fd
      · rw [he, update_self]
      · rw [update_of_ne he]
        exact hfd fd' (by simp [he, hfd'])
    refine (ih hf₁ hrest).mono ?_
    rintro _ s₂ ⟨hf₂, hd₂, hnone⟩
    exact ⟨hf₂, hd₁.trans hd₂, hnone⟩

theorem Inv.relabel (h : Inv pool held s) {proc : Fin nproc → Proc}
    (hsame : ∀ j, proc j = { s.proc j with
      state := (proc j).state, parent := (proc j).parent, xstate := (proc j).xstate })
    (hunused : ∀ j, (proc j).state = .unused ↔ (s.proc j).state = .unused)
    (hclosed : ∀ j, (proc j).state ≠ .runnable → ∀ fd, (proc j).ofile fd = none) :
    Inv pool held { s with proc } := by
  have hofile : ∀ j, (proc j).ofile = (s.proc j).ofile := fun j => by rw [hsame j]
  have hfds : Sys.fds { s with proc } = s.fds := by
    unfold Sys.fds
    simp only [hofile]
  refine h.spaces ⟨.refl _ _, fun j => ?_, fun j => ?_, fun j => ?_, rfl, rfl⟩ ?_ hunused hclosed
  · exact (congrArg Proc.trapframe (hsame j)).trans rfl
  · exact (congrArg Proc.pagetable (hsame j)).trans rfl
  · exact (congrArg Proc.sz (hsame j)).trans rfl
  · rw [hfds]
    exact h.files.congr rfl rfl

theorem Inv.reparent (h : Inv pool held s) (i : Fin nproc) :
    Inv pool held { s with proc := fun j =>
      if (s.proc j).parent = some i then { s.proc j with parent := s.initproc } else s.proc j } := by
  have hstate : ∀ j, (if (s.proc j).parent = some i then
      { s.proc j with parent := s.initproc } else s.proc j).state = (s.proc j).state := by
    intro j
    rw [apply_ite Proc.state, ite_self]
  have hofile : ∀ j, (if (s.proc j).parent = some i then
      { s.proc j with parent := s.initproc } else s.proc j).ofile = (s.proc j).ofile := by
    intro j
    rw [apply_ite Proc.ofile, ite_self]
  refine h.relabel (fun j => ?_) (fun j => by rw [hstate]) fun j hj => ?_
  · split_ifs <;> rfl
  · rw [hstate] at hj
    rw [hofile]
    exact (h.ok j).closed hj

theorem wp_exit (hE : E (.panic .initExiting)) (h : Inv pool held s)
    (hi : (s.proc i).state = .runnable) (status : ℕ) :
    Wp E (exit i status) s fun _ s' => Inv pool held s' ∧ s'.initproc = s.initproc ∧
      (∀ k, k ≠ i → s.Keeps k s') ∧ s.Frees s' := by
  unfold exit
  simp only [wp_bind, wp_get]
  split_ifs with hinit
  · exact (wp_throw _).mpr hE
  rw [wp_bind]
  refine (wp_exitFiles _ h.files fun fd hfd => absurd (List.mem_finRange fd) hfd).mono ?_
  rintro _ s₁ ⟨hf₁, hd, hnone⟩
  have h₁ := (h.descriptors hi hd hf₁).reparent i
  rw [wp_bind]
  unfold reparent
  rw [wp_modify, wp_updProc]
  have hofile : ∀ fd, ((if (s₁.proc i).parent = some i then
      { s₁.proc i with parent := s₁.initproc } else s₁.proc i).ofile fd) = none := by
    intro fd
    rw [apply_ite Proc.ofile, ite_self]
    exact hnone fd
  have hstate : (if (s₁.proc i).parent = some i then
      { s₁.proc i with parent := s₁.initproc } else s₁.proc i).state = .runnable := by
    rw [apply_ite Proc.state, ite_self, hd.proc]
    exact hi
  refine ⟨h₁.relabel (fun j => ?_) (fun j => ?_) (fun j hj => ?_), hd.initproc, fun k hk => ?_,
    Sys.Frees.of_moves hd.spaces.moves⟩
  rotate_left 3
  · refine (hd.keeps hk).trans ⟨?_, fun _ _ _ => rfl⟩
    simp only [update_of_ne hk]
    split_ifs <;> rfl
  all_goals
    by_cases he : j = i
  · subst he
    simp only [update_self]
  · simp only [update_of_ne he]
  · subst he
    simp only [update_self, hstate]
    simp
  · simp only [update_of_ne he]
  · subst he
    simp only [update_self]
    exact hofile
  · simp only [update_of_ne he] at hj ⊢
    exact (h₁.ok j).closed hj

end Exit

section Files
variable {f : Fin nfile} {fd : Fin nofile}

theorem argfd_some {p : Proc} {n : ℤ} (h : argfd p n = some (fd, f)) : p.ofile fd = some f := by
  unfold argfd at h
  split_ifs at h with hn
  obtain ⟨g, hg, he⟩ := Option.map_eq_some_iff.mp h
  obtain ⟨rfl, rfl⟩ := Prod.mk.inj he
  exact hg

theorem wp_fdalloc {Q : Option (Fin nofile) → Sys → Prop} (hnone : Q none s)
    (hsome : ∀ fd, (s.proc i).ofile fd = none → Q (some fd) (s.setOfile i fd (some f))) :
    Wp E (fdalloc i f) s Q := by
  unfold fdalloc
  simp only [wp_bind, wp_get]
  cases hfind : (List.finRange nofile).find? fun fd => decide ((s.proc i).ofile fd = none) with
  | none => exact (wp_pure none).mpr hnone
  | some fd =>
    simp only [wp_bind, wp_setOfile, wp_pure]
    exact hsome fd (by simpa using List.find?_some hfind)

theorem Inv.openFd (h : Inv pool (f ::ₘ held) s) (hi : (s.proc i).state = .runnable)
    (hfd : (s.proc i).ofile fd = none) : Inv pool held (s.setOfile i fd (some f)) := by
  refine h.descriptors hi (s.descriptors_setOfile i fd _) ?_
  rw [Sys.fds_setOfile_some f hfd, add_cons, ← cons_add]
  exact h.files.congr rfl rfl

theorem Inv.closeFd (h : Inv pool held s) (hi : (s.proc i).state = .runnable)
    (hfd : (s.proc i).ofile fd = some f) : Inv pool (f ::ₘ held) (s.setOfile i fd none) := by
  refine h.descriptors hi (s.descriptors_setOfile i fd _) ?_
  rw [cons_add, ← add_cons, ← Sys.fds_setOfile_none hfd]
  exact h.files.congr rfl rfl

theorem Inv.fileclose (h : Inv pool (f ::ₘ held) s) (hi : (s.proc i).state = .runnable)
    {Q : Unit → Sys → Prop}
    (hQ : ∀ s', Inv pool held s' → s.Descriptors i s' → Q () s') : Wp E (fileclose f) s Q := by
  have hfiles : s.FilesOk (f ::ₘ (held + s.fds)) := by
    rw [← cons_add]
    exact h.files
  refine wp_fileclose hfiles ?_
  intro s' hf hmove
  have hd := hmove.descriptors i fun _ _ _ _ => s.mem_add_fds held
  refine hQ s' (h.descriptors hi hd ?_) hd
  rwa [Sys.fds_of_proc hmove.same.proc]

theorem Sys.Descriptors.state (h : s.Descriptors i s') (hi : (s.proc i).state = .runnable) :
    (s'.proc i).state = .runnable := by
  rw [h.proc]
  exact hi

theorem wp_sysDup (h : Inv pool held s) (hi : (s.proc i).state = .runnable) (n : ℤ) :
    Wp E (sysDup i n) s fun _ s' => Inv pool held s' ∧ s.Descriptors i s' := by
  unfold sysDup
  simp only [wp_bind, wp_get]
  cases harg : argfd (s.proc i) n with
  | none => exact (wp_pure none).mpr ⟨h, .refl i s⟩
  | some r =>
    obtain ⟨fd, f⟩ := r
    simp only [wp_bind]
    refine wp_fdalloc ((wp_pure none).mpr ⟨h, .refl i s⟩) fun fd' hfd' => ?_
    have hmem := s.mem_add_fds held (argfd_some harg)
    have hfiles : (s.setOfile i fd' (some f)).FilesOk (held + s.fds) := h.files.congr rfl rfl
    have hd := s.descriptors_setOfile i fd' (some f)
    simp only [wp_bind, wp_pure]
    refine wp_filedup hfiles (hfiles.ref_pos hmem) fun s' hf hmove hm => ?_
    have hd' := hd.trans (hmove.descriptors i fun j hj fd f hf =>
      s.mem_add_fds held (by rw [← hd.rest j hj]; exact hf))
    refine ⟨h.descriptors hi hd' ?_, hd'⟩
    rw [Sys.fds_of_proc hmove.same.proc, Sys.fds_setOfile_some f hfd', add_cons]
    exact hf

theorem wp_sysClose (h : Inv pool held s) (hi : (s.proc i).state = .runnable) (n : ℤ) :
    Wp E (sysClose i n) s fun _ s' => Inv pool held s' ∧ s.Descriptors i s' := by
  unfold sysClose
  simp only [wp_bind, wp_get]
  cases harg : argfd (s.proc i) n with
  | none => exact (wp_pure false).mpr ⟨h, .refl i s⟩
  | some r =>
    obtain ⟨fd, f⟩ := r
    have hd := s.descriptors_setOfile i fd none
    simp only [wp_bind, wp_setOfile, wp_pure]
    refine (h.closeFd hi (argfd_some harg)).fileclose (hd.state hi) ?_
    intro s' hinv hd'
    exact ⟨hinv, hd.trans hd'⟩

variable {rf wf : Fin nfile} {fd₀ fd₁ : Fin nofile}

theorem wp_closeBoth (h : Inv pool (rf ::ₘ wf ::ₘ held) s) (hi : (s.proc i).state = .runnable) :
    Wp E (do fileclose rf; fileclose wf; return false : Kern Bool) s fun _ s' =>
      Inv pool held s' ∧ s.Descriptors i s' := by
  simp only [wp_bind, wp_pure]
  refine h.fileclose hi fun s₁ h₁ hd₁ => ?_
  refine h₁.fileclose (hd₁.state hi) fun s₂ h₂ hd₂ => ?_
  exact ⟨h₂, hd₁.trans hd₂⟩

/-- What a call by process `i` leaves: the invariant, and the other running processes. -/
structure After (pool : Pool) (i : Fin nproc) (s s' : Sys) : Prop where
  inv : Inv pool 0 s'
  initproc : s'.initproc = s.initproc
  others : ∀ k, k ≠ i → (s.proc k).state = .runnable → s.Keeps k s'
  frees : s.Frees s'

theorem Sys.Descriptors.after (h : s.Descriptors i s') (hinv : Inv pool 0 s') : After pool i s s' :=
  ⟨hinv, h.initproc, fun _ hk _ => h.keeps hk, .of_moves h.spaces.moves⟩

theorem Sys.Descriptors.trans_after (h : s.Descriptors i s') (hsub : s.pipes ⊆ s'.pipes)
    (h' : After pool i s' s'') : After pool i s s'' where
  inv := h'.inv
  initproc := h'.initproc.trans h.initproc
  others k hk hr := (h.keeps hk).trans (h'.others k hk (by rw [h.rest k hk]; exact hr))
  frees pi hpi := h'.frees pi (hsub hpi)

theorem wp_pipeCopyout (h : Inv pool 0 s) (hi : (s.proc i).state = .runnable)
    (hfd₀ : (s.proc i).ofile fd₀ = some rf) (hfd₁ : (s.proc i).ofile fd₁ = some wf) (hne : fd₁ ≠ fd₀)
    (fdarray : ℕ) : Wp E (pipeCopyout i fdarray rf wf fd₀ fd₁) s fun _ s' => After pool i s s' := by
  have hused : (s.proc i).state ≠ .unused := by simp [hi]
  obtain ⟨t, -, ht, -, -, -⟩ := h.exists_table hused
  have hend : ∀ m (both : Bool), Inv pool 0 { s with mem := m } →
      Wp E (if both then (pure true : Kern Bool) else do
        setOfile i fd₀ none
        setOfile i fd₁ none
        fileclose rf
        fileclose wf
        return false) { s with mem := m } fun _ s' => After pool i s s' := by
    intro m both hinv
    cases both with
    | true =>
      exact (wp_pure true).mpr ⟨hinv, rfl, fun k _ _ => ⟨rfl, fun _ _ _ => rfl⟩, fun _ hpi => .inl hpi⟩
    | false =>
      have hd₀ := Sys.descriptors_setOfile { s with mem := m } i fd₀ none
      have hd₁ := hd₀.trans (Sys.descriptors_setOfile _ i fd₁ none)
      have hwf : ((Sys.setOfile { s with mem := m } i fd₀ none).proc i).ofile fd₁ = some wf := by
        rw [Sys.setOfile_ofile, update_of_ne hne]
        exact hfd₁
      have h₁ := (hinv.closeFd hi hfd₀).closeFd (hd₀.state hi) hwf
      rw [cons_swap] at h₁
      simp only [Bool.false_eq_true, if_false]
      rw [wp_bind, wp_setOfile, wp_bind, wp_setOfile]
      refine (wp_closeBoth h₁ (hd₁.state hi)).mono ?_
      rintro _ s' ⟨hinv', hd'⟩
      have hd := hd₁.trans hd'
      have hfrees : Sys.Frees { s with mem := m } s' := .of_moves hd.spaces.moves
      refine ⟨hinv', hd.initproc, fun k hk _ => ?_, hfrees⟩
      obtain ⟨hproc, htypes⟩ := hd.keeps hk
      exact ⟨hproc, htypes⟩
  unfold pipeCopyout
  simp only [wp_bind, wp_get, ht, deref_some, wp_pure, wp_onMem]
  refine (h.copyout hused ht fdarray _ 4).mono ?_
  rintro first m ⟨-, hinv⟩
  cases first with
  | false =>
    rw [if_neg (by simp), wp_bind, wp_pure]
    exact hend m false hinv
  | true =>
    rw [if_pos rfl, wp_bind, wp_onMem]
    refine (hinv.copyout hused ht _ _ 4).mono ?_
    rintro both m' ⟨-, hinv'⟩
    exact hend m' both hinv'

theorem wp_sysPipe (h : Inv pool 0 s) (hi : (s.proc i).state = .runnable) (fdarray : ℕ) :
    Wp E (sysPipe i fdarray) s fun _ s' => After pool i s s' := by
  have hnd : ((s.mem.free : Multiset Page) + s.pipes.val).Nodup := by
    have hnd := pool.nodup
    rw [← h.pages] at hnd
    refine nodup_of_le ?_ hnd
    unfold Sys.pages
    rw [add_right_comm (s.mem.free : Multiset Page), add_assoc]
    exact le_add_right _ _
  unfold sysPipe
  rw [wp_bind]
  apply wp_pipealloc h.files hnd
  · intro s₁ hf hmove
    have hd := hmove.descriptors i fun _ _ _ _ => s.mem_add_fds 0
    refine (wp_pure false).mpr (hd.after (h.descriptors hi hd ?_))
    rwa [Sys.fds_of_proc hmove.same.proc]
  intro rf wf s₁ hf hmove
  have hd := hmove.descriptors i fun _ _ _ _ => s.mem_add_fds 0
  have h₁ : Inv pool (rf ::ₘ wf ::ₘ 0) s₁ := by
    refine h.descriptors hi hd ?_
    rw [Sys.fds_of_proc hmove.same.proc, cons_swap, cons_add, cons_add]
    exact hf
  have hi₁ := hd.state hi
  simp only [wp_bind]
  apply wp_fdalloc
  · refine (wp_closeBoth h₁ hi₁).mono ?_
    rintro _ s₂ ⟨h₂, hd₂⟩
    exact (hd.trans hd₂).after h₂
  intro fd₀ hfd₀
  have hd₂ := s₁.descriptors_setOfile i fd₀ (some rf)
  have h₂ := h₁.openFd hi₁ hfd₀
  have hi₂ := hd₂.state hi₁
  simp only [wp_bind]
  apply wp_fdalloc
  · rw [wp_bind, wp_setOfile]
    have hrf : ((s₁.setOfile i fd₀ (some rf)).proc i).ofile fd₀ = some rf := by
      rw [Sys.setOfile_ofile, update_self]
    have h₃ := h₂.closeFd hi₂ hrf
    have hd₃ := Sys.descriptors_setOfile (s₁.setOfile i fd₀ (some rf)) i fd₀ none
    refine (wp_closeBoth h₃ (hd₃.state hi₂)).mono ?_
    rintro _ s₃ ⟨h₃, hd₄⟩
    exact (((hd.trans hd₂).trans hd₃).trans hd₄).after h₃
  intro fd₁ hfd₁
  have hd₃ := Sys.descriptors_setOfile (s₁.setOfile i fd₀ (some rf)) i fd₁ (some wf)
  have hne : fd₁ ≠ fd₀ := by
    rintro rfl
    rw [Sys.setOfile_ofile, update_self] at hfd₁
    simp at hfd₁
  have hrf : (((s₁.setOfile i fd₀ (some rf)).setOfile i fd₁ (some wf)).proc i).ofile fd₀ = some rf := by
    rw [Sys.setOfile_ofile, update_of_ne hne.symm, Sys.setOfile_ofile, update_self]
  refine (wp_pipeCopyout (h₂.openFd hi₂ hfd₁) (hd₃.state hi₂) hrf ?_ hne fdarray).mono ?_
  · rw [Sys.setOfile_ofile, update_self]
  · intro _ s₃ hafter
    have hsub : s.pipes ⊆ s₁.pipes := hmove.pipes_subset h.files
    exact ((hd.trans hd₂).trans hd₃).trans_after hsub hafter

theorem wp_sysOpen (h : Inv pool 0 s) (hi : (s.proc i).state = .runnable) (found : Option Inode) :
    Wp E (sysOpen i found) s fun _ s' => Inv pool 0 s' ∧ s.Descriptors i s' := by
  unfold sysOpen
  cases found with
  | none => exact (wp_pure none).mpr ⟨h, .refl i s⟩
  | some ip =>
    simp only [wp_bind]
    refine wp_filealloc h.files ((wp_pure none).mpr ⟨h, .refl i s⟩) ?_
    intro f s₁ hf₁ ht hnot htype hm hsame
    have hmove : s.FilesMove (0 + s.fds) s₁ := .of_types htype hm hsame
    have hd := hmove.descriptors i fun _ _ _ _ => s.mem_add_fds 0
    have hi₁ := hd.state hi
    have h₁ : Inv pool (f ::ₘ 0) s₁ := by
      refine h.descriptors hi hd ?_
      rw [Sys.fds_of_proc hmove.same.proc, cons_add]
      exact hf₁
    simp only [wp_bind]
    apply wp_fdalloc
    · simp only [wp_bind, wp_pure]
      refine h₁.fileclose hi₁ fun s₂ h₂ hd₂ => ?_
      exact ⟨h₂, hd.trans hd₂⟩
    intro fd hfd
    have h₂ := h₁.openFd hi₁ hfd
    have hd₂ := hd.trans (s₁.descriptors_setOfile i fd (some f))
    have hold : ((s₁.setOfile i fd (some f)).file f).type.pipes = ∅ := by
      show (s₁.file f).type.pipes = ∅
      rw [htype, ht]
      rfl
    have hnew : (if ip.isDevice then FdType.device else FdType.inode).pipes = ∅ := by
      split_ifs <;> rfl
    have ho : ((s₁.setOfile i fd (some f)).proc i).ofile fd = some f := by
      rw [Sys.setOfile_ofile, update_self]
    have href : ((s₁.setOfile i fd (some f)).file f).ref ≠ 0 :=
      (h₂.files.ref_pos (Sys.mem_add_fds _ 0 ho)).ne'
    simp only [wp_bind, wp_get, wp_setFile, wp_pure]
    have hmove₂ : (s₁.setOfile i fd (some f)).FilesMove (0 + s.fds) ((s₁.setOfile i fd (some f)).setType f
        (if ip.isDevice then .device else .inode)) := Sys.setType_move hold hnew hnot
    have hd₃ := hd₂.trans (hmove₂.descriptors i fun j hj fd' f' hf' => s.mem_add_fds 0 (by
      rw [← hd₂.rest j hj]
      exact hf'))
    have hfiles := h₂.files.setType hold hnew fun hz => absurd hz href
    rw [← Sys.fds_of_proc hmove₂.same.proc] at hfiles
    exact ⟨h.descriptors hi hd₃ hfiles, hd₃⟩

end Files

end Xv6.Vm
