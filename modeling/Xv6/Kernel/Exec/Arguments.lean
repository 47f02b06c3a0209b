import Xv6.Kernel.Exec.Image

/-! A program finds its arguments on its stack. -/
namespace Xv6.Exec
open Lib
open Fs (Superblock CStr Handle)
open Vm (Pagetable Page Mem Pool Str Space Apart holdings userMem userAccess pgs tops)

/-- No subtraction from `sp` wraps, neither in the loop over the strings, as far as it gets, nor for the
array of pointers. -/
def NoWrap (stackbase argc : ℕ) : List Str → ℕ → Prop
  | [], sp => (argc + 1) * 8 ≤ sp
  | arg :: argv, sp => arg.len + 1 ≤ sp ∧
    (stackbase ≤ Vm.push sp (arg.len + 1) → NoWrap stackbase argc argv (Vm.push sp (arg.len + 1)))

theorem noWrap_of_ready {t : Pagetable} {sz sp n : ℕ} {argv : List Str} (h : Vm.Ready t sz sp argv) (hn : 16 * n ≤ sz - sp) :
    NoWrap (sz - pgsize) (n + argv.length) argv sp := by
  have hroom := h.room
  have hlow := h.low
  have hpg : pgsize = 4096 := rfl
  induction argv generalizing sp n with
  | nil =>
    rw [NoWrap, List.length_nil]
    omega
  | cons arg argv ih =>
    obtain ⟨hpush, hle⟩ := h.push
    refine ⟨hle, fun hbase => ?_⟩
    rw [hpush] at hbase ⊢
    have hhigh := h.high
    have hpad := Vm.le_padded (arg.len + 1)
    have hmod := Vm.padded_mod (arg.len + 1)
    have := ih (h.next hbase) (n := n + 1) (by omega) hbase
    rwa [List.length_cons, show n + (argv.length + 1) = n + 1 + argv.length by omega]

/-- What `exec` does with the stack page: the strings and the array are stored there if they fit, and
nothing is stored below it. -/
structure Pushes (argv : List Str) (t : Pagetable) (sz : ℕ) (m : Mem) (r : Option (ℕ × ℕ)) (m' : Mem) : Prop where
  fails : r = none ↔ pgsize < Vm.stackSize argv
  below : ∀ a < sz - pgsize, userMem t m' a = userMem t m a
  noWrap : NoWrap (sz - pgsize) argv.length argv sz

theorem pushes_of_ready {rights : Vm.Perm → Prop} {t : Pagetable} {m : Mem} {n sz : ℕ} {top : Set ℕ} {argv : List Str}
    (hs : Space rights t n top) (h : Vm.Ready t sz sz argv) (hcount : argv.length < Vm.maxarg) :
    ∃ r m', Vm.pushStack t sz argv m = .ok (r, m') ∧ Pushes argv t sz m r m' := by
  obtain ⟨r, m', hx, -, hp⟩ := (Vm.wp_pushStack (E := fun _ => False) (m := m) hs sz argv).returns
  have hp := hp h
  have hwrap : NoWrap (sz - pgsize) (0 + argv.length) argv sz := noWrap_of_ready h (by omega)
  rw [Nat.zero_add] at hwrap
  refine ⟨r, m', hx, ⟨fun hr => ?_, fun hbig => ?_⟩, hp.below, hwrap⟩
  · rcases hp.fails hr with hbig | hmany
    · exact hbig
    · omega
  · by_contra hne
    obtain ⟨q, hq⟩ := Option.ne_none_iff_exists'.mp hne
    have := (hp.pushed q.1 q.2 hq).1
    omega

section
variable {sb : Superblock} {H : Multiset Handle} {w w' : World} {i : Fin nproc} {path : CStr} {argv : List CStr}
  {cwd : Fin ninode} {jc : ℕ} {pool : Pool}

theorem get_setRegs {d : Bytes} {sp entry : ℕ} (hsp : sp < 2 ^ 64) :
    (setRegs d sp entry).get offA1 8 = sp ∧ (setRegs d sp entry).get offSp 8 = sp := by
  have hlt : sp < 256 ^ 8 := by rwa [show (256 : ℕ) ^ 8 = 2 ^ 64 by norm_num]
  unfold setRegs
  constructor
  · rw [Bytes.get_set_of_disjoint (by decide), Bytes.get_set_of_disjoint (by decide), Bytes.get_set hlt]
  · rw [Bytes.get_set hlt]

/-- The program that process `i` has got from `exec` finds `argv`: `a1` and `sp` point to it. -/
structure Started (i : Fin nproc) (argv : List CStr) (w : World) : Prop where
  exists_table : ∃ t pa, (w.sys.proc i).pagetable = some t ∧ (w.sys.proc i).trapframe = some pa ∧
    (w.sys.mem.data (.page pa)).get offSp 8 = (w.sys.mem.data (.page pa)).get offA1 8 ∧
    Vm.Stacked (userMem t w.sys.mem) ((w.sys.proc i).sz - pgsize) (w.sys.proc i).sz
      ((w.sys.mem.data (.page pa)).get offA1 8) (argv.map str)

theorem Replaced.started {t : Pagetable} {sz sp : ℕ} {file : Vm.Exe} (h : Replaced i path argv file w t sz sp w')
    (hI : Vm.Inv pool 0 w.sys) (hi : (w.sys.proc i).state ≠ .unused) : Started i argv w' := by
  obtain ⟨⟨n, hsz, -⟩, hsmall, hfits, hsp, -, hmem⟩ := h.built
  obtain ⟨-, pa, -, hpa, -, -⟩ := hI.exists_table hi
  obtain ⟨d, hd⟩ := h.regs pa hpa
  unfold Vm.maxva at hsmall
  have hpg : pgsize = 4096 := rfl
  obtain ⟨ha1, hspr⟩ := @get_setRegs d sp file.elfhdr.entry (show sp < 2 ^ 64 by omega)
  refine ⟨t, pa, by rw [h.proc], by rw [h.proc]; exact hpa, by rw [hd, ha1, hspr], ?_⟩
  rw [hd, ha1, h.proc, hmem, hsp]
  exact Vm.stacked (by rw [hpg] at hsz; omega) (by omega) hfits (by rw [hpg] at hsz ⊢; omega)

/-- Arguments survive `exec`, or do not fit. -/
theorem arguments_survive (h : Fs.Calling sb false H cwd jc w.fs) (hI : Vm.Inv pool 0 w.sys)
    (hi : (w.sys.proc i).state ≠ .unused) (hcount : argv.length < Vm.maxarg) (hshort : ∀ arg ∈ argv, arg.bytes.length < pgsize) :
    (∀ r w', exec sb i cwd path argv w = .ok (r, w') →
      (r ≠ -1 → r = argv.length ∧ Started i argv w') ∧ (pgsize < Vm.stackSize (argv.map str) → r = -1)) ∧
    (Fs.Spare H → Fs.Clear H (w.fs.disk.file sb) jc → ∃ r w', exec sb i cwd path argv w = .ok (r, w')) ∧
    ∀ t sz m t' sz' m', Space userAccess t (pgs sz) tops → m.free.length + (holdings t).card < 2 ^ 26 → Apart t m →
      Vm.stackPages t sz m = .ok (some (t', sz'), m') →
      ∃ r m'', Vm.pushStack t' sz' (argv.map str) m' = .ok (r, m'') ∧ Pushes (argv.map str) t' sz' m' r m'' := by
  refine ⟨fun r w' hx => ⟨fun hr => ?_, fun hbig => ?_⟩, fun hspare hclear => ?_,
    fun t sz m t' sz' m' hs hb hap hpages => ?_⟩
  · obtain ⟨j, f, t, sz, sp, -, -, hr', hdone⟩ := replaced_of_exec h hI hi hx hr
    exact ⟨hr', hdone.started hI hi⟩
  · by_contra hr
    obtain ⟨j, f, t, sz, sp, -, -, -, hdone⟩ := replaced_of_exec h hI hi hx hr
    have := hdone.built.fits
    omega
  · obtain ⟨r, w', hx, -⟩ :=
      (wp_exec (E := fun _ => False) h (fun hn => hn hspare) (fun hn => hn hclear) hI hi).returns
    exact ⟨r, w', hx⟩
  · have hpost : Wp (fun _ => False) (Vm.stackPages t sz) m fun r m' => ∀ t' sz', r = some (t', sz') →
        Space (fun _ => True) t' (pgs sz') tops ∧ Vm.StackPages t m t' sz' m' := by
      refine Vm.wp_stackPages hs hb (fun _ _ _ _ heq => by cases heq) fun t₁ sz₁ m₁ hs₁ _ _ hp t₂ sz₂ heq => ?_
      obtain ⟨rfl, rfl⟩ := Prod.mk.inj (Option.some.inj heq)
      exact ⟨hs₁, hp hap⟩
    obtain ⟨hs', hp⟩ := hpost.of_ok hpages t' sz' rfl
    refine pushes_of_ready hs' (hp.ready fun arg harg => ?_) (by rwa [List.length_map])
    obtain ⟨s, hsmem, rfl⟩ := List.mem_map.mp harg
    exact hshort s hsmem

end

/-- The strings `sh` and `-c`. -/
def twoArgs : List CStr := [⟨[115, 104], by decide⟩, ⟨[45, 99], by decide⟩]

theorem arguments_survive_two : ∃ sys w, Vm.userinit (fun _ => 0) Vm.bigSys = .ok ((), sys) ∧
    exec Fs.smallSb 0 0 Fs.pathA twoArgs (initWorld (exeDisk 123 smallExe) sys) = .ok (2, w) ∧ Started 0 twoArgs w := by
  obtain ⟨sys, r, w, hsys, hx, ht⟩ := @exists_of_returns (Vm.userinit (fun _ => 0) Vm.bigSys)
    (fun sys => exec Fs.smallSb 0 0 Fs.pathA twoArgs (initWorld (exeDisk 123 smallExe) sys))
    (fun sys r _ => decide ((sys.proc 0).state ≠ .unused ∧ r = 2)) (by decide +kernel)
  obtain ⟨hused, rfl⟩ := of_decide_eq_true ht
  have hr := smallExe_ready hsys hused
  exact ⟨sys, w, hsys, hx, (((arguments_survive hr.calling hr.inv hr.used (by decide) (by decide)).1 2 w hx).1 (by decide)).2⟩

end Xv6.Exec
