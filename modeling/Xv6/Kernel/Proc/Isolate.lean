import Xv6.Kernel.Proc.Conserve

/-! `fork` copies the memory of a process, and what one process then does to its memory
another one does not see. -/
namespace Xv6.Vm
open Lib

variable {s s' : Sys} {pool : Pool} {i j : Fin nproc}

/-- The entry that translates an address of process `k`. -/
def Sys.pteOf (s : Sys) (k : Fin nproc) (va : ℕ) : Option Pte :=
  (s.proc k).pagetable.bind fun t => t.pte va

/-- The byte that process `k` can read at an address, if any. -/
def Sys.readByte (s : Sys) (k : Fin nproc) (va : ℕ) : Option UInt8 :=
  ((s.proc k).pagetable.bind fun t => walkaddr t (pgRoundDown va)).map fun f =>
    s.mem.data f (va % pgsize)

theorem pte_eq_look (t : Pagetable) (va : ℕ) : t.pte va = look t (va / pgsize) := by
  have hpx : ∀ k, px k va = px k (va / pgsize * pgsize) := by
    intro k
    unfold px
    simp only [Nat.mul_div_cancel (va / pgsize) (show 0 < pgsize by decide)]
  unfold look Node.pte
  rw [hpx 2, hpx 1, hpx 0]

theorem Inv.notMem_free (h : Inv pool 0 s) {pa : Page} (hpa : pa ∈ (s.proc i).pages) :
    pa ∉ (s.mem.free : Multiset Page) :=
  Multiset.disjoint_right.mp (Multiset.nodup_add.mp (h.nodup_own i)).2.2 hpa

theorem Inv.disjoint (h : Inv pool 0 s) (hne : i ≠ j) {pa : Page} (hpa : pa ∈ (s.proc j).pages) :
    pa ∉ (s.mem.free : Multiset Page) + (s.proc i).pages := by
  have hnd := pool.nodup
  rw [← h.pages] at hnd
  have hdisj := (Multiset.nodup_add.mp (Multiset.nodup_of_le (s.two_le hne) hnd)).2.2
  exact Multiset.disjoint_right.mp hdisj hpa

theorem Inv.user_mem_pages {t : Pagetable} {pa : Page} (ht : (s.proc i).pagetable = some t)
    (hpa : pa ∈ user t) : pa ∈ (s.proc i).pages := by
  rw [Proc.pages, ht, Option.elim_some, holdings, Multiset.mem_add, Multiset.mem_add]
  exact .inr (.inr hpa)

theorem Sys.Changes.readByte (hc : s.Changes i s') (h : Inv pool 0 s) (hne : j ≠ i) (va : ℕ) :
    s'.readByte j va = s.readByte j va := by
  unfold Sys.readByte
  rw [hc.rest j hne]
  cases ht : (s.proc j).pagetable with
  | none => rfl
  | some t =>
    rw [Option.bind_some]
    cases hw : walkaddr t (pgRoundDown va) with
    | none => rfl
    | some f =>
      obtain ⟨pa, hpa, rfl⟩ := ((h.ok j).space t ht).mem_user_of_walkaddr (v := va / pgsize) hw
      rw [Option.map_some, Option.map_some, hc.moves.data]
      intro pa' hpa' he
      obtain rfl := Frame.page.inj he
      exact h.disjoint hne.symm (Inv.user_mem_pages ht hpa) hpa'

theorem Forked.copy (hf : Forked i j s s') (h : Inv pool 0 s) (hne : j ≠ i) {va : ℕ}
    (hva : va < (s.proc i).sz) : ∃ e e', s'.pteOf i va = some e ∧ s'.pteOf j va = some e' ∧
      e'.perm = e.perm ∧ s'.mem.data e'.pa (va % pgsize) = s.mem.data e.pa (va % pgsize) := by
  obtain ⟨old, new, hold, hnew, hcopied⟩ := hf.copied
  have hv : va / pgsize < pgs (s.proc i).sz := by
    have := le_pgs_mul (s.proc i).sz
    unfold pgsize at *
    omega
  obtain ⟨pa, mem, perm, hl, hl', hdata⟩ := hcopied _ hv
  refine ⟨⟨.page pa, perm⟩, ⟨.page mem, perm⟩, ?_, ?_, rfl, ?_⟩
  · rw [Sys.pteOf, hf.rest i hne.symm, hold, Option.bind_some, pte_eq_look]
    exact hl
  · rw [Sys.pteOf, hnew, Option.bind_some, pte_eq_look]
    exact hl'
  · dsimp only
    have hle := ((h.ok i).space old hold).le
    have hpa := Inv.user_mem_pages hold (mem_user (by omega) hl)
    rw [hdata, hf.moves.data]
    rintro pa' hpa' he
    obtain rfl := Frame.page.inj he
    rw [add_zero] at hpa'
    exact h.notMem_free hpa hpa'

/-- `fork` returns. If it makes a child, the child has the same bytes with the same rights in
pages of its own, the parent is as before, and later changes to the memory of one are not seen by
the other; if not, the parent is as before and every page taken is free again. -/
theorem fork_copies_and_isolates {kend : ℕ} {kernel : Multiset Page}
    (h : Inv (machinePool kend kernel) 0 s) (hi : (s.proc i).state = .runnable) :
    ∃ r s', fork i s = .ok (r, s') ∧ s'.proc i = s.proc i ∧
      (∀ pa ∈ (s.proc i).pages, s'.mem.data (.page pa) = s.mem.data (.page pa)) ∧
      (r = none → (s'.mem.free : Multiset Page) = s.mem.free) ∧
      ∀ pid, r = some pid → ∃ j, j ≠ i ∧ (s'.proc j).pid = pid ∧ (s'.proc j).sz = (s.proc i).sz ∧
        (∀ va < (s.proc i).sz, ∃ e e', s'.pteOf i va = some e ∧ s'.pteOf j va = some e' ∧
          e'.perm = e.perm ∧ s'.mem.data e'.pa (va % pgsize) = s.mem.data e.pa (va % pgsize)) ∧
        (∀ t t', (s'.proc i).pagetable = some t → (s'.proc j).pagetable = some t' →
          Disjoint (user t) (user t')) ∧
        ∀ s₁, Run step (fun _ _ => True) s' s₁ → ∀ a s₂, a.call.ownMemory = true →
          step s₁ a = .ok s₂ → ∀ k, k ≠ a.proc → ∀ va, s₂.readByte k va = s₁.readByte k va := by
  have hused : (s.proc i).state ≠ .unused := by simp [hi]
  have hcard := machinePool_card kend kernel
  obtain ⟨r, s', hfork, hinv, -, hkeeps, hsome, hnone⟩ := (wp_fork (E := fun _ => False) h hused).returns
  have hdata : ∀ S, Mem.Moves 0 S s.mem s'.mem → ∀ pa ∈ (s.proc i).pages,
      s'.mem.data (.page pa) = s.mem.data (.page pa) := by
    intro S hm pa hpa
    refine hm.data _ fun pa' hpa' he => ?_
    obtain rfl := Frame.page.inj he
    rw [add_zero] at hpa'
    exact h.notMem_free hpa hpa'
  cases r with
  | none =>
    obtain ⟨hm, hrest⟩ := hnone rfl
    refine ⟨none, s', hfork, hrest i hused, hdata 0 hm, fun _ => ?_, by simp⟩
    have hpages := hm.pages
    rwa [add_zero, add_zero] at hpages
  | some pid =>
    obtain ⟨j, hf, hpid⟩ := hsome pid rfl
    have hne : j ≠ i := by
      rintro rfl
      exact hused hf.unused
    refine ⟨some pid, s', hfork, hf.rest i hne.symm, hdata _ hf.moves, by simp, ?_⟩
    rintro _ ⟨rfl⟩
    refine ⟨j, hne, hpid, hf.sz, fun va hva => hf.copy h hne hva, ?_, ?_⟩
    · intro t t' ht ht'
      rw [Multiset.disjoint_left]
      intro pa hpa hpa'
      refine hinv.disjoint hne.symm (Inv.user_mem_pages ht' hpa') ?_
      exact Multiset.mem_add.mpr (.inr (Inv.user_mem_pages ht hpa))
    · intro s₁ hrun a s₂ hown hs k hk va
      have hinv₁ := hinv.run_small hcard hrun
      have hc := (hinv₁.step_after (fun _ _ => hinv₁.sz_lt hcard a.proc) hs).2.2 hown
      exact hc.readByte hinv₁ hk va

/-- The first process after the boot can fork. -/
theorem fork_copies_and_isolates_boot : ∃ (kernel : Multiset Page) (s : Sys) (i : Fin nproc),
    Inv (machinePool 0x80027000 kernel) 0 s ∧ (s.proc i).state = .runnable ∧
    ∃ r s', fork i s = .ok (r, s') ∧ s'.proc i = s.proc i ∧
      (∀ pa ∈ (s.proc i).pages, s'.mem.data (.page pa) = s.mem.data (.page pa)) := by
  obtain ⟨_, s, -, ⟨kernel, hinv⟩, i, -, hi, -⟩ := (wp_main (E := fun _ => False) layout_example
    (fun _ _ => 0) (fun _ => ⟨false, false⟩) fun _ => 0).returns
  obtain ⟨r, s', hfork, hproc, hdata, -⟩ := fork_copies_and_isolates hinv hi
  exact ⟨kernel, s, i, hinv, hi, r, s', hfork, hproc, hdata⟩

end Xv6.Vm
