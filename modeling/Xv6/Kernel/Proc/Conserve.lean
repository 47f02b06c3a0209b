import Xv6.Kernel.Proc.Step

/-! Every page from `PGROUNDUP(end)` to `PHYSTOP` is in one place at every boundary of a
system call. -/
namespace Xv6.Vm
open Lib

/-- Where a page can be: on the free list, a page of a page table, the kernel's or that of a
process, a page of user memory, a trapframe, a kernel stack, or an open pipe. -/
inductive Place
  | free
  | table (owner : Option (Fin nproc))
  | user (owner : Fin nproc)
  | trapframe (owner : Fin nproc)
  | kstack (owner : Fin nproc)
  | pipe

def Sys.at (s : Sys) : Place → Multiset Page
  | .free => s.mem.free
  | .table none => nodes s.kpagetable
  | .table (some i) => (s.proc i).pagetable.elim 0 nodes
  | .user i => (s.proc i).pagetable.elim 0 Vm.user
  | .trapframe i => (s.proc i).trapframe.elim 0 fun pa => {pa}
  | .kstack i => {s.kstack i}
  | .pipe => s.pipes.val

/-- The places as a sum of types. -/
def Place.equiv : Place ≃
    ((Unit ⊕ Unit) ⊕ Option (Fin nproc)) ⊕ ((Fin nproc ⊕ Fin nproc) ⊕ Fin nproc) where
  toFun
    | .free => .inl (.inl (.inl ()))
    | .pipe => .inl (.inl (.inr ()))
    | .table o => .inl (.inr o)
    | .user i => .inr (.inl (.inl i))
    | .trapframe i => .inr (.inl (.inr i))
    | .kstack i => .inr (.inr i)
  invFun
    | .inl (.inl (.inl _)) => .free
    | .inl (.inl (.inr _)) => .pipe
    | .inl (.inr o) => .table o
    | .inr (.inl (.inl i)) => .user i
    | .inr (.inl (.inr i)) => .trapframe i
    | .inr (.inr i) => .kstack i
  left_inv pl := by cases pl <;> rfl
  right_inv x := by rcases x with ((_ | _) | _) | ((_ | _) | _) <;> rfl

instance : Fintype Place := Fintype.ofEquiv _ Place.equiv.symm

instance : DecidableEq Place := Place.equiv.decidableEq

variable {s s' : Sys} {pool : Pool} {i : Fin nproc}

theorem elim_holdings (o : Option Pagetable) :
    o.elim 0 holdings = o.elim 0 nodes + o.elim 0 Vm.user := by
  cases o with
  | none => rw [Option.elim_none, Option.elim_none, Option.elim_none, add_zero]
  | some t => rw [Option.elim_some, Option.elim_some, Option.elim_some, holdings]

theorem Sys.pages_eq_sum (s : Sys) : s.pages = ∑ pl, s.at pl := by
  have hproc : ∀ i, (s.proc i).pages =
      s.at (.trapframe i) + (s.at (.table (some i)) + s.at (.user i)) := by
    intro i
    unfold Proc.pages
    rw [elim_holdings]
    rfl
  have hfree : s.at (Place.equiv.symm (.inl (.inl (.inl ())))) = s.mem.free := rfl
  have hpipe : s.at (Place.equiv.symm (.inl (.inl (.inr ())))) = s.pipes.val := rfl
  have htable : ∀ o, s.at (Place.equiv.symm (.inl (.inr o))) = s.at (.table o) := fun _ => rfl
  have huser : ∀ i, s.at (Place.equiv.symm (.inr (.inl (.inl i)))) = s.at (.user i) := fun _ => rfl
  have htrap : ∀ i, s.at (Place.equiv.symm (.inr (.inl (.inr i)))) = s.at (.trapframe i) := fun _ => rfl
  have hkstack : ∀ i, s.at (Place.equiv.symm (.inr (.inr i))) = {s.kstack i} := fun _ => rfl
  have hkernel : s.at (.table none) = nodes s.kpagetable := rfl
  rw [← Place.equiv.symm.sum_comp s.at]
  simp only [Fintype.sum_sum_type, Fintype.sum_option, Finset.univ_unique, Finset.sum_singleton,
    PUnit.default_eq_unit, hfree, hpipe, htable, huser, htrap, hkstack, hkernel]
  unfold Sys.pages Sys.kernelPages
  simp only [hproc, Finset.sum_add_distrib]
  generalize (∑ i, s.at (.user i)) = us
  generalize (∑ i, s.at (.trapframe i)) = tfs
  generalize (∑ i, s.at (.table (some i))) = ts
  generalize (∑ i, ({s.kstack i} : Multiset Page)) = ks
  abel

theorem Inv.exists_unique (h : Inv pool 0 s) {pa : Page} (hpa : pa ∈ pool.all) :
    ∃! pl, pa ∈ s.at pl := by
  rw [← h.pages, s.pages_eq_sum, Multiset.mem_sum] at hpa
  obtain ⟨pl, -, hpl⟩ := hpa
  refine ⟨pl, hpl, fun pl' hpl' => ?_⟩
  by_contra hne
  have hnd := pool.nodup
  rw [← h.pages, s.pages_eq_sum, ← Finset.add_sum_erase _ _ (Finset.mem_univ pl),
    ← Finset.add_sum_erase _ _ (Finset.mem_erase.mpr ⟨hne, Finset.mem_univ pl'⟩)] at hnd
  have hdisj := (Multiset.nodup_add.mp hnd).2.2
  exact Multiset.disjoint_left.mp hdisj hpl (Multiset.mem_add.mpr (.inl hpl'))

theorem Inv.nodup_at (h : Inv pool 0 s) (pl : Place) : (s.at pl).Nodup := by
  have hnd := pool.nodup
  rw [← h.pages, s.pages_eq_sum, ← Finset.add_sum_erase _ _ (Finset.mem_univ pl)] at hnd
  exact (Multiset.nodup_add.mp hnd).1

theorem Inv.mem_of_at (h : Inv pool 0 s) {pl : Place} {pa : Page} (hpa : pa ∈ s.at pl) : pa ∈ pool.all := by
  rw [← h.pages, s.pages_eq_sum, Multiset.mem_sum]
  exact ⟨pl, Finset.mem_univ pl, hpa⟩

/-- All processes but init have been reaped. -/
def Sys.OnlyInit (s : Sys) : Prop :=
  ∃ i, s.initproc = some i ∧ (s.proc i).state = .runnable ∧ ∀ j, j ≠ i → (s.proc j).state = .unused

/-- Init itself does no more than create processes, wait for them and read. -/
def initIdle (s : Sys) (a : Action) : Prop := s.initproc = some a.proc → a.call.keepsCaller = true

theorem Inv.sz_lt (h : Inv pool 0 s) (hcard : pool.all.card < 2 ^ 20) (i : Fin nproc) :
    (s.proc i).sz < 2 ^ 32 := by
  by_cases hi : (s.proc i).state = .unused
  · rw [((h.ok i).unused hi).2.2]
    norm_num
  · obtain ⟨t, pa, ht, -, hs, hpages⟩ := h.exists_table hi
    have hle := s.card_le i
    have huser := hs.le_card_user
    rw [h.pages, hpages, holdings, Multiset.card_add, Multiset.card_add] at hle
    have hsz := le_pgs_mul (s.proc i).sz
    unfold pgsize at hsz
    omega

theorem Inv.run_small {ok : Sys → Action → Prop} {s₀ : Sys} (h : Inv pool 0 s₀)
    (hcard : pool.all.card < 2 ^ 20) (hrun : Run step ok s₀ s) : Inv pool 0 s :=
  hrun.invariant h fun _ a _ hinv _ hs => (hinv.step_after (fun _ _ => hinv.sz_lt hcard a.proc) hs).1.inv

section Reaped

theorem Inv.mem_pipes_init (h : Inv pool 0 s) (hunused : ∀ j, j ≠ i → (s.proc j).state = .unused)
    {pi : Page} : pi ∈ s.pipes ↔
      ∃ fd f w, (s.proc i).ofile fd = some f ∧ (s.file f).type = .pipe pi w := by
  rw [Sys.mem_pipes]
  constructor
  · rintro ⟨f, w, hf⟩
    have hfd := h.files.mem_of_pipe hf
    rw [zero_add] at hfd
    obtain ⟨j, fd, ho⟩ := Sys.exists_of_mem_fds hfd
    have hj : j = i := by
      by_contra hne
      rw [(h.ok j).closed (by simp [hunused j hne])] at ho
      simp at ho
    rw [hj] at ho
    exact ⟨fd, f, w, ho, hf⟩
  · rintro ⟨-, f, w, -, hf⟩
    exact ⟨f, w, hf⟩

theorem Inv.pages_init (h : Inv pool 0 s) (hunused : ∀ j, j ≠ i → (s.proc j).state = .unused) :
    s.mem.free.length + (s.proc i).pages.card + s.pipes.card + pool.kernel.card = pool.all.card := by
  have hsum : ∑ j, (s.proc j).pages = (s.proc i).pages :=
    Finset.sum_eq_single i (fun j _ hj => (h.ok j).pages_unused (hunused j hj)) (by simp)
  rw [← h.pages, ← h.kernel, Sys.pages, hsum]
  simp only [Multiset.card_add, Multiset.coe_card, Finset.card_val]

theorem Inv.run_keeps (h : Inv pool 0 s) (hcard : pool.all.card < 2 ^ 20) (hinit : s.initproc = some i)
    (hi : (s.proc i).state = .runnable) (hrun : Run step initIdle s s') :
    s'.initproc = some i ∧ s.Keeps i s' := by
  have hinv := hrun.invariant (I := fun x => Inv pool 0 x ∧ x.initproc = some i ∧ s.Keeps i x)
    ⟨h, hinit, rfl, fun _ _ _ => rfl⟩ (by
      rintro x a x' ⟨hx, hxi, hkeeps⟩ hidle hs
      obtain ⟨hafter, hcaller, -⟩ := hx.step_after (fun _ _ => hx.sz_lt hcard a.proc) hs
      refine ⟨hafter.inv, hafter.initproc.trans hxi, hkeeps.trans ?_⟩
      by_cases ha : a.proc = i
      · rw [← ha]
        exact hcaller (hidle (by rw [ha, hxi]))
      · exact hafter.others i (Ne.symm ha) (by rw [hkeeps.proc]; exact hi))
  exact hinv.2

theorem Inv.reaped (h : Inv pool 0 s) (hcard : pool.all.card < 2 ^ 20) (hs : s.OnlyInit)
    (hrun : Run step initIdle s s') (hs' : s'.OnlyInit) : s'.mem.free.length = s.mem.free.length := by
  obtain ⟨i, hinit, hi, hunused⟩ := hs
  obtain ⟨j, hinit', -, hunused'⟩ := hs'
  obtain ⟨hinit₂, hkeeps⟩ := h.run_keeps hcard hinit hi hrun
  have hinv' := h.run_small hcard hrun
  obtain rfl : j = i := Option.some.inj (hinit'.symm.trans hinit₂)
  have hpages : (s'.proc j).pages = (s.proc j).pages := by
    rw [hkeeps.proc]
    rfl
  have hofile : (s'.proc j).ofile = (s.proc j).ofile := by rw [hkeeps.proc]
  have hpipes : s'.pipes = s.pipes := by
    ext pi
    rw [hinv'.mem_pipes_init hunused', h.mem_pipes_init hunused, hofile]
    constructor
    · rintro ⟨fd, f, w, ho, hf⟩
      exact ⟨fd, f, w, ho, by rw [← hkeeps.types fd f ho]; exact hf⟩
    · rintro ⟨fd, f, w, ho, hf⟩
      exact ⟨fd, f, w, ho, by rw [hkeeps.types fd f ho]; exact hf⟩
  have hcount := h.pages_init hunused
  have hcount' := hinv'.pages_init hunused'
  rw [hpages, hpipes] at hcount'
  omega

end Reaped

theorem mem_poolPages {kend : ℕ} (hk : kend ≤ phystop) {pa : Page} :
    pa ∈ (poolPages kend : Multiset Page) ↔ pgRoundUp kend ≤ pa * pgsize ∧ pa * pgsize < phystop := by
  obtain ⟨b, hb, hround⟩ : ∃ b ≤ 557056, pgRoundUp kend = b * pgsize := by
    refine ⟨_, ?_, rfl⟩
    unfold phystop kernbase at hk
    unfold pgsize
    omega
  have hcount : (phystop - b * pgsize) / pgsize = 557056 - b := by
    rw [show phystop = 557056 * pgsize by decide, ← Nat.sub_mul, Nat.mul_div_cancel _ (by decide)]
  rw [Multiset.mem_coe, poolPages, List.mem_range'_1, hround, Nat.mul_div_cancel _ (by decide), hcount]
  have hsum : b + (557056 - b) = 557056 := Nat.add_sub_of_le hb
  rw [hsum, Nat.mul_le_mul_right_iff (by decide), show phystop = 557056 * pgsize by decide,
    Nat.mul_lt_mul_right (by decide)]

theorem machinePool_card (kend : ℕ) (kernel : Multiset Page) :
    (machinePool kend kernel).all.card < 2 ^ 20 := by
  show (poolPages kend : Multiset Page).card < 2 ^ 20
  rw [Multiset.coe_card, poolPages, List.length_range']
  unfold phystop kernbase pgsize
  omega

/-- From the boot on, in every run, each page is at one place, once; no other page is at any
place; and when all processes but init have been reaped as many pages are free as before
they were created. -/
theorem pages_conserved {etext kend : ℕ} (h : Layout etext kend) (data : Frame → Bytes)
    (pipe : Page → Pipe) (initcode : Bytes) :
    ∃ s₀, main etext kend initcode (bss data pipe) = .ok ((), s₀) ∧
      ∀ s, Run step (fun _ _ => True) s₀ s →
        (∀ pa, pgRoundUp kend ≤ pa * pgsize → pa * pgsize < phystop →
          ∃! pl, pa ∈ s.at pl) ∧
        (∀ pl, (s.at pl).Nodup ∧
          ∀ pa ∈ s.at pl, pgRoundUp kend ≤ pa * pgsize ∧ pa * pgsize < phystop) ∧
        (s.OnlyInit → ∀ s', Run step initIdle s s' → s'.OnlyInit →
          s'.mem.free.length = s.mem.free.length) := by
  have hk : kend ≤ phystop := by
    have := h.room
    omega
  obtain ⟨_, s₀, hmain, ⟨kernel, hinv⟩, -⟩ := (wp_main (E := fun _ => False) h data pipe initcode).returns
  have hcard := machinePool_card kend kernel
  refine ⟨s₀, hmain, fun s hrun => ?_⟩
  have hs := hinv.run_small hcard hrun
  refine ⟨fun pa hlow hhigh => hs.exists_unique ((mem_poolPages hk).mpr ⟨hlow, hhigh⟩), fun pl => ?_, ?_⟩
  · exact ⟨hs.nodup_at pl, fun pa hpa => (mem_poolPages hk).mp (hs.mem_of_at hpa)⟩
  · exact fun honly s' hrun' honly' => hs.reaped hcard honly hrun' honly'

theorem layout_example : Layout 0x80008000 0x80027000 := by
  refine ⟨?_, ?_, ?_, ?_⟩ <;> decide

theorem pages_conserved_example : Layout 0x80008000 0x80027000 ∧
    ∃ s₀, main 0x80008000 0x80027000 (fun _ => 0) (bss (fun _ _ => 0) fun _ => ⟨false, false⟩) =
      .ok ((), s₀) ∧ ∀ s, Run step (fun _ _ => True) s₀ s →
        (∀ pa, pgRoundUp 0x80027000 ≤ pa * pgsize → pa * pgsize < phystop → ∃! pl, pa ∈ s.at pl) ∧
        (∀ pl, (s.at pl).Nodup ∧
          ∀ pa ∈ s.at pl, pgRoundUp 0x80027000 ≤ pa * pgsize ∧ pa * pgsize < phystop) ∧
        (s.OnlyInit → ∀ s', Run step initIdle s s' → s'.OnlyInit →
          s'.mem.free.length = s.mem.free.length) :=
  ⟨layout_example, pages_conserved layout_example _ _ _⟩

end Xv6.Vm
