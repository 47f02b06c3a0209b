import Xv6.Kernel.Exec.Outcome
import Xv6.Kernel.Proc.Exact
import Xv6.Kernel.Proc.Isolate

/-! `exec` is all or nothing, whatever is in the file. -/
namespace Xv6.Exec
open Lib
open Fs (Superblock CStr Handle)
open Vm (Pagetable Page Frame Mem Pool holdings userMem)

/-- Nothing of process `i` has changed, and the pages that were free are free. -/
structure Unchanged (i : Fin nproc) (w w' : World) : Prop where
  proc : w'.sys.proc = w.sys.proc
  name : w'.name = w.name
  free : (w'.sys.mem.free : Multiset Page) = w.sys.mem.free
  used : ∀ f, (∀ pa ∈ w.sys.mem.free, f ≠ .page pa) → w'.sys.mem.data f = w.sys.mem.data f
  mem : ∀ t, (w.sys.proc i).pagetable = some t → userMem t w'.sys.mem = userMem t w.sys.mem
  trapframe : ∀ pa, (w.sys.proc i).trapframe = some pa → w'.sys.mem.data (.page pa) = w.sys.mem.data (.page pa)

/-- Process `i` has a new address space in place of the old one, of which every page has been given back. -/
structure Swapped (pool : Pool) (i : Fin nproc) (w w' : World) : Prop where
  inv : Vm.Inv pool 0 w'.sys
  exact : (w'.sys.proc i).MapsExactly
  tables : ∃ old new, (w.sys.proc i).pagetable = some old ∧ (w'.sys.proc i).pagetable = some new ∧
    (w'.sys.mem.free : Multiset Page) + holdings new = w.sys.mem.free + holdings old
  rest : ∀ k, k ≠ i → w'.sys.proc k = w.sys.proc k

section
variable {sb : Superblock} {H : Multiset Handle} {w w' : World} {i : Fin nproc} {path : CStr} {argv : List CStr}
  {cwd : Fin ninode} {jc : ℕ} {pool : Pool} {file : Vm.Exe} {t : Pagetable} {sz sp : ℕ}

theorem Failed.unchanged (h : Failed w w') (hI : Vm.Inv pool 0 w.sys) : Unchanged i w w' := by
  have hused : ∀ f, (∀ pa ∈ w.sys.mem.free, f ≠ .page pa) → w'.sys.mem.data f = w.sys.mem.data f := by
    intro f hf
    refine h.moves.data f fun pa hpa => hf pa ?_
    rwa [add_zero, Multiset.mem_coe] at hpa
  have hown : ∀ q ∈ (w.sys.proc i).pages, w'.sys.mem.data (.page q) = w.sys.mem.data (.page q) := by
    intro q hq
    refine hused _ fun pa hpa heq => ?_
    rw [Frame.page.inj heq] at hq
    exact Multiset.disjoint_left.mp (Multiset.nodup_add.mp (hI.nodup_own i)).2.2 (Multiset.mem_coe.mpr hpa) hq
  refine ⟨by rw [h.sys], h.name, ?_, hused, fun t ht => ?_, fun pa hpa => hown pa ?_⟩
  · have := h.moves.pages
    rwa [add_zero, add_zero] at this
  · exact ((hI.ok i).space t ht).userMem_congr fun q hq => hown q (Vm.Inv.user_mem_pages ht hq)
  · rw [Vm.Proc.pages, hpa]
    exact Multiset.mem_add.mpr (.inl (Multiset.mem_singleton_self pa))

theorem Replaced.swapped (h : Replaced i path argv file w t sz sp w') (hI : Vm.Inv pool 0 w.sys)
    (hi : (w.sys.proc i).state ≠ .unused) : Swapped pool i w w' := by
  obtain ⟨old, pa, ht, hpa, -, hpages⟩ := hI.exists_table hi
  have hproc : w'.sys.proc i = { w.sys.proc i with pagetable := some t, sz } := by
    rw [h.sys]
    exact Function.update_self _ _ _
  have hchange : w.sys.Changes i w'.sys := by
    have hm := h.moves
    rw [hproc] at hm
    rw [h.sys]
    exact Vm.Sys.changes_set hm rfl
  have hinv : Vm.Inv pool 0 w'.sys := by
    refine hI.change hchange ?_
    rw [hproc]
    exact Vm.Proc.ok_space hi ((hI.ok i).used hi).1 rfl h.space (hI.ok i).closed
  refine ⟨hinv, hinv.mapsExactly (by rwa [hproc]), ⟨old, t, ht, by rw [hproc], ?_⟩, hchange.rest⟩
  have hpages' : (w'.sys.proc i).pages = {pa} + holdings t := by
    rw [hproc, Vm.Proc.pages, hpa]
    rfl
  have hm := h.moves.pages
  rw [hpages, hpages', add_left_comm, add_left_comm (w.sys.mem.free : Multiset Page)] at hm
  exact add_left_cancel hm

end

/-- A disk with an executable `/a` of `size` bytes in one block. -/
def exeDisk (size : ℕ) (b : Bytes) : Fs.View where
  node j :=
    if j = Fs.rootino then
      { type := .dir, major := 0, minor := 0, nlink := 1, size := 48, addrs := fun k => if k = 0 then 4 else 0 }
    else if j = 2 then
      { type := .file, major := 0, minor := 0, nlink := 1, size := size, addrs := fun k => if k = 0 then 5 else 0 }
    else .zero
  bitmap b := decide (b < 6)
  data n := if n = 4 then Fs.direntBlock [(1, [46]), (1, [46, 46]), (2, [97])] else if n = 5 then b else fun _ => 0

/-- The first process before its first `exec`. -/
def initWorld (v : Fs.View) (sys : Vm.Sys) : World := { fs := (Fs.boot v).fs, sys, name := fun _ _ => 0, outstanding := 0 }

/-- A test of what `f` makes of the state that `x` returns. -/
def returns (x : Except Halt (Unit × Vm.Sys)) (f : Vm.Sys → Except Halt (ℤ × World)) (test : Vm.Sys → ℤ → World → Bool) : Bool :=
  match x with
  | .error _ => false
  | .ok (_, sys) =>
    match f sys with
    | .error _ => false
    | .ok (r, w) => test sys r w

theorem exists_of_returns {x : Except Halt (Unit × Vm.Sys)} {f : Vm.Sys → Except Halt (ℤ × World)}
    {test : Vm.Sys → ℤ → World → Bool} (h : returns x f test = true) :
    ∃ sys r w, x = .ok ((), sys) ∧ f sys = .ok (r, w) ∧ test sys r w = true := by
  unfold returns at h
  cases x with
  | error e => cases h
  | ok p =>
    obtain ⟨⟨⟩, sys⟩ := p
    dsimp only at h
    cases hf : f sys with
    | error e =>
      rw [hf] at h
      cases h
    | ok q =>
      rw [hf] at h
      exact ⟨sys, q.1, q.2, rfl, hf, h⟩

/-- The first process may run `exec`. -/
structure Ready (v : Fs.View) (sys : Vm.Sys) : Prop where
  calling : Fs.Calling Fs.smallSb false {(0, Fs.rootino)} 0 Fs.rootino (initWorld v sys).fs
  clear : Fs.Clear {(0, Fs.rootino)} ((initWorld v sys).fs.disk.file Fs.smallSb) Fs.rootino
  spare : Fs.Spare {(0, Fs.rootino)}
  inv : Vm.Inv Vm.bigPool 0 sys
  used : (sys.proc 0).state ≠ .unused

theorem ready_of_image {v : Fs.View} (h : Fs.Image Fs.smallSb v) (hl : v.Linked Fs.smallSb) (hd : v.Leads Fs.smallSb) {sys : Vm.Sys}
    (hsys : Vm.userinit (fun _ => 0) Vm.bigSys = .ok ((), sys)) (hused : (sys.proc 0).state ≠ .unused) : Ready v sys := by
  have hI := Fs.inv_boot h
  have hholders := Fs.holders_boot v
  have hinv : Vm.Inv Vm.bigPool 0 sys := ((Vm.wp_userinit (E := fun _ => False) Vm.fresh_bigSys fun _ => 0).of_ok hsys).1
  have hcall := @Fs.Inv.calling _ _ 0 0 hI rfl
  have hfiles : (Fs.boot v).files Fs.smallSb = v.file Fs.smallSb := rfl
  have hset := (Fs.tidy_boot hl).settled
  unfold Fs.Sys.ns at hset
  dsimp only at hset
  have hclear := @Fs.Inv.clear _ _ 0 0 hI rfl
    ⟨hset, hfiles ▸ hd.noDangling, hfiles ▸ fun hn => Fs.View.file_eq_none.mp hn h.root⟩
  rw [hholders] at hcall hclear
  refine ⟨hcall, hclear, ⟨1, 2, by decide, fun l hm => ?_, fun l hm => ?_⟩, hinv, hused⟩
  · exact absurd (Fs.eq_of_mem_root hm).1 (by decide)
  · exact absurd (Fs.eq_of_mem_root hm).1 (by decide)

/-- A program of three bytes at address 0. -/
def smallExe : Bytes :=
  (((((((Bytes.set (fun _ => 0) 0 4 Vm.elfMagic).set 32 8 64).set 56 2 1).set 64 4 Vm.elfProgLoad).set 72 8 120).set 96 8 3).set
    104 8 3).set 120 3 0x090807

theorem smallExe_ready {sys : Vm.Sys} (hsys : Vm.userinit (fun _ => 0) Vm.bigSys = .ok ((), sys))
    (hused : (sys.proc 0).state ≠ .unused) : Ready (exeDisk 123 smallExe) sys :=
  ready_of_image (Fs.View.Direct.image (by decide +kernel) (by decide +kernel) (by decide +kernel) (by decide +kernel))
    (by decide +kernel) (by decide +kernel) hsys hused

end Xv6.Exec
