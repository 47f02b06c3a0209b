import Xv6.Kernel.Proc.Load
import Xv6.Kernel.Proc.Files

/-! Between system calls every process has an address space of its size, and every page is
in one place. What one process does changes its own pages and free ones. -/
namespace Xv6.Vm
open Lib Function

def Proc.pages (p : Proc) : Multiset Page :=
  p.trapframe.elim 0 (fun pa => {pa}) + p.pagetable.elim 0 holdings

/-- The pages of the kernel's page table and of the kernel stacks. -/
def Sys.kernelPages (s : Sys) : Multiset Page := nodes s.kpagetable + ∑ i, {s.kstack i}

/-- All pages: on the free list, of a process, of an open pipe, or the kernel's. -/
def Sys.pages (s : Sys) : Multiset Page :=
  s.mem.free + ∑ i, (s.proc i).pages + s.pipes.val + s.kernelPages

/-- A slot of the process table between system calls. -/
structure Proc.Ok (p : Proc) : Prop where
  space : ∀ t, p.pagetable = some t → Space (fun _ => True) t (pgs p.sz) tops
  unused : p.state = .unused → p.trapframe = none ∧ p.pagetable = none ∧ p.sz = 0
  used : p.state ≠ .unused → p.trapframe.isSome = true ∧ p.pagetable.isSome = true
  closed : p.state ≠ .runnable → ∀ fd, p.ofile fd = none

/-- The pages that `kinit` has freed, and those of them that the kernel keeps for itself. -/
structure Pool where
  all : Multiset Page
  kernel : Multiset Page
  nodup : all.Nodup
  small : all.card < 2 ^ 26

/-- The invariant while the kernel code has the references `held` in its variables; between
system calls it has none. -/
structure Inv (pool : Pool) (held : Multiset (Fin nfile)) (s : Sys) : Prop where
  ok : ∀ i, (s.proc i).Ok
  files : s.FilesOk (held + s.fds)
  pages : s.pages = pool.all
  kernel : s.kernelPages = pool.kernel

/-- The memory of process `i` changes, and nothing else of the system but free pages. -/
structure Sys.Changes (i : Fin nproc) (s s' : Sys) : Prop where
  moves : Mem.Moves (s.proc i).pages (s'.proc i).pages s.mem s'.mem
  rest : ∀ j, j ≠ i → s'.proc j = s.proc j
  ofile : (s'.proc i).ofile = (s.proc i).ofile
  file : s'.file = s.file
  pipe : s'.pipe = s.pipe
  kpagetable : s'.kpagetable = s.kpagetable
  kstack : s'.kstack = s.kstack

/-- Process `k` has the same memory and the same open files, and only its parent may differ. -/
structure Sys.Keeps (k : Fin nproc) (s s' : Sys) : Prop where
  proc : s'.proc k = { s.proc k with parent := (s'.proc k).parent }
  types : ∀ fd f, (s.proc k).ofile fd = some f → (s'.file f).type = (s.file f).type

/-- Open files change, and the address spaces stay. -/
structure Sys.SameSpaces (s s' : Sys) : Prop where
  moves : Mem.Moves s.pipes.val s'.pipes.val s.mem s'.mem
  trapframe : ∀ i, (s'.proc i).trapframe = (s.proc i).trapframe
  pagetable : ∀ i, (s'.proc i).pagetable = (s.proc i).pagetable
  sz : ∀ i, (s'.proc i).sz = (s.proc i).sz
  kpagetable : s'.kpagetable = s.kpagetable
  kstack : s'.kstack = s.kstack

variable {s s' s'' : Sys} {pool : Pool} {held held' : Multiset (Fin nfile)} {i : Fin nproc}

theorem Sys.Changes.trans (h : Sys.Changes i s s') (h' : Sys.Changes i s' s'') :
    Sys.Changes i s s'' where
  moves := h.moves.trans h'.moves
  rest j hj := (h'.rest j hj).trans (h.rest j hj)
  ofile := h'.ofile.trans h.ofile
  file := h'.file.trans h.file
  pipe := h'.pipe.trans h.pipe
  kpagetable := h'.kpagetable.trans h.kpagetable
  kstack := h'.kstack.trans h.kstack

theorem Sys.changes_set {m : Mem} {p : Proc} (hm : Mem.Moves (s.proc i).pages p.pages s.mem m)
    (ho : p.ofile = (s.proc i).ofile) :
    Sys.Changes i s { s with mem := m, proc := update s.proc i p } where
  moves := by simpa using hm
  rest j hj := update_of_ne hj _ _
  ofile := by simpa using ho
  file := rfl
  pipe := rfl
  kpagetable := rfl
  kstack := rfl

theorem Sys.Changes.fds (h : Sys.Changes i s s') : s'.fds = s.fds := by
  have hofile : ∀ j, (s'.proc j).ofile = (s.proc j).ofile := by
    intro j
    by_cases hj : j = i
    · rw [hj, h.ofile]
    · rw [h.rest j hj]
  unfold Sys.fds
  simp only [hofile]

theorem Sys.Keeps.trans {k : Fin nproc} (h : s.Keeps k s') (h' : s'.Keeps k s'') : s.Keeps k s'' where
  proc := by rw [h'.proc, h.proc]
  types fd f hf := (h'.types fd f (by rw [h.proc]; exact hf)).trans (h.types fd f hf)

theorem Sys.Changes.keeps {k : Fin nproc} (h : Sys.Changes i s s') (hk : k ≠ i) : s.Keeps k s' where
  proc := by rw [h.rest k hk]
  types fd f _ := by rw [h.file]

theorem Sys.Changes.kernelPages (h : Sys.Changes i s s') : s'.kernelPages = s.kernelPages := by
  unfold Sys.kernelPages
  rw [h.kpagetable, h.kstack]

theorem Sys.Changes.pages (h : Sys.Changes i s s') : s'.pages = s.pages := by
  have hproc : (fun j => (s'.proc j).pages) =
      update (fun j => (s.proc j).pages) i (s'.proc i).pages := by
    funext j
    by_cases hj : j = i
    · rw [hj, update_self]
    · rw [update_of_ne hj, h.rest j hj]
  have hsum := sum_update_add (fun j => (s.proc j).pages) i (s'.proc i).pages
  have hpipes : s'.pipes = s.pipes := Sys.pipes_congr fun f => by rw [h.file]
  have hfree : (s'.mem.free : Multiset Page) + ∑ j, (s'.proc j).pages =
      s.mem.free + ∑ j, (s.proc j).pages := by
    apply add_right_cancel (b := (s.proc i).pages)
    rw [hproc, add_assoc, hsum, add_left_comm, h.moves.pages]
    abel
  unfold Sys.pages
  rw [hfree, hpipes, h.kernelPages]

theorem Inv.change (h : Inv pool held s) (hc : Sys.Changes i s s') (hok : (s'.proc i).Ok) :
    Inv pool held s' where
  ok j := by
    by_cases hj : j = i
    · rw [hj]
      exact hok
    · rw [hc.rest j hj]
      exact h.ok j
  files := by
    rw [hc.fds]
    exact h.files.congr hc.file hc.pipe
  pages := hc.pages.trans h.pages
  kernel := hc.kernelPages.trans h.kernel

theorem Sys.card_le (s : Sys) (i : Fin nproc) :
    s.mem.free.length + (s.proc i).pages.card ≤ s.pages.card := by
  unfold Sys.pages
  rw [← Finset.add_sum_erase _ _ (Finset.mem_univ i)]
  simp only [Multiset.card_add, Multiset.coe_card]
  omega

theorem Inv.card_lt (h : Inv pool held s) (i : Fin nproc) :
    s.mem.free.length + (s.proc i).pages.card < 2 ^ 26 := by
  have hle := s.card_le i
  rw [h.pages] at hle
  exact lt_of_le_of_lt hle pool.small

theorem Inv.nodup_own (h : Inv pool held s) (i : Fin nproc) : ((s.mem.free : Multiset Page) + (s.proc i).pages).Nodup := by
  have hnd := pool.nodup
  rw [← h.pages] at hnd
  refine Multiset.nodup_of_le ?_ hnd
  unfold Sys.pages
  rw [← Finset.add_sum_erase _ _ (Finset.mem_univ i), add_assoc, add_assoc, add_assoc]
  exact add_le_add le_rfl (Multiset.le_add_right _ _)

theorem Sys.SameSpaces.trans (h : s.SameSpaces s') (h' : s'.SameSpaces s'') : s.SameSpaces s'' where
  moves := h.moves.trans h'.moves
  trapframe i := (h'.trapframe i).trans (h.trapframe i)
  pagetable i := (h'.pagetable i).trans (h.pagetable i)
  sz i := (h'.sz i).trans (h.sz i)
  kpagetable := h'.kpagetable.trans h.kpagetable
  kstack := h'.kstack.trans h.kstack

theorem Sys.SameSpaces.kernelPages (h : s.SameSpaces s') : s'.kernelPages = s.kernelPages := by
  unfold Sys.kernelPages
  rw [h.kpagetable, h.kstack]

theorem Sys.SameSpaces.pages (h : s.SameSpaces s') : s'.pages = s.pages := by
  have hproc : ∀ i, (s'.proc i).pages = (s.proc i).pages := by
    intro i
    unfold Proc.pages
    rw [h.trapframe, h.pagetable]
  unfold Sys.pages
  simp only [hproc]
  rw [h.kernelPages, add_right_comm (s'.mem.free : Multiset Page), h.moves.pages,
    add_right_comm (s.mem.free : Multiset Page)]

theorem Inv.spaces (h : Inv pool held s) (hs : s.SameSpaces s') (hf : s'.FilesOk (held' + s'.fds))
    (hunused : ∀ i, (s'.proc i).state = .unused ↔ (s.proc i).state = .unused)
    (hclosed : ∀ i, (s'.proc i).state ≠ .runnable → ∀ fd, (s'.proc i).ofile fd = none) :
    Inv pool held' s' where
  ok i := by
    constructor
    · rw [hs.pagetable, hs.sz]
      exact (h.ok i).space
    · rw [hs.trapframe, hs.pagetable, hs.sz, hunused]
      exact (h.ok i).unused
    · rw [hs.trapframe, hs.pagetable, ne_eq, hunused]
      exact (h.ok i).used
    · exact hclosed i
  files := hf
  pages := hs.pages.trans h.pages
  kernel := hs.kernelPages.trans h.kernel

theorem Sys.SameButFiles.spaces (h : s.SameButFiles s')
    (hm : Mem.Moves s.pipes.val s'.pipes.val s.mem s'.mem) : s.SameSpaces s' := by
  have hproc : s'.proc = s.proc := h.proc
  refine ⟨hm, ?_, ?_, ?_, ?_, ?_⟩
  · simp [hproc]
  · simp [hproc]
  · simp [hproc]
  · rw [h]
  · rw [h]

theorem Sys.setOfile_spaces (s : Sys) (i : Fin nproc) (fd : Fin nofile) (v : Option (Fin nfile)) :
    s.SameSpaces (s.setOfile i fd v) := by
  have hproc : ∀ j, ∃ o, (s.setOfile i fd v).proc j = { s.proc j with ofile := o } := by
    intro j
    unfold Sys.setOfile Proc.setOfile
    by_cases hj : j = i
    · subst hj
      exact ⟨_, update_self _ _ _⟩
    · exact ⟨(s.proc j).ofile, update_of_ne hj _ _⟩
  refine ⟨.refl _ _, fun j => ?_, fun j => ?_, fun j => ?_, rfl, rfl⟩
  all_goals
    obtain ⟨o, ho⟩ := hproc j
    rw [ho]

theorem Sys.fds_of_proc (h : s'.proc = s.proc) : s'.fds = s.fds := by
  unfold Sys.fds
  rw [h]

theorem Inv.exists_table (h : Inv pool held s) (hi : (s.proc i).state ≠ .unused) :
    ∃ t pa, (s.proc i).pagetable = some t ∧ (s.proc i).trapframe = some pa ∧
      Space (fun _ => True) t (pgs (s.proc i).sz) tops ∧ (s.proc i).pages = {pa} + holdings t := by
  obtain ⟨htf, hpt⟩ := (h.ok i).used hi
  obtain ⟨pa, hpa⟩ := Option.isSome_iff_exists.mp htf
  obtain ⟨t, ht⟩ := Option.isSome_iff_exists.mp hpt
  exact ⟨t, pa, ht, hpa, (h.ok i).space t ht, by rw [Proc.pages, ht, hpa]; rfl⟩

end Xv6.Vm
