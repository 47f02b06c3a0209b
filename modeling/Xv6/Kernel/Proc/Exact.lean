import Xv6.Kernel.Proc.Step

/-! In every run each live process's page table maps exactly its pages, as long as `sbrk`
meets no size of 2³² or more, which `exec` can make and `growproc` takes modulo 2³². -/
namespace Xv6.Vm
open Lib

/-- No process has more or less mapped than its size says, and no call panics but the exit
of init. -/
theorem address_spaces_exact {pool : Pool} {s₁ : Sys} (h : Fresh pool s₁) (initcode : Bytes) :
    ∃ s₀, userinit initcode s₁ = .ok ((), s₀) ∧ ∀ s, Run step sbrkFits s₀ s →
      (∀ i, (s.proc i).state ≠ .unused → (s.proc i).MapsExactly) ∧
      ∀ a p, sbrkFits s a → step s a = .error (.panic p) → p = .initExiting := by
  obtain ⟨_, s₀, hinit, hinv, -⟩ := (wp_userinit (E := fun _ => False) h initcode).returns
  refine ⟨s₀, hinit, fun s hrun => ?_⟩
  have hs := hinv.run hrun
  exact ⟨fun i hi => hs.mapsExactly hi, fun a p ha hp => hs.step_panic ha hp⟩

/-- A file with one segment, of 2³² bytes of zeros. -/
def bigExe : Exe where
  size := 128
  data := ((((Bytes.set (fun _ => 0) 0 4 elfMagic).set 32 8 64).set 56 2 1).set 64 4 elfProgLoad).set 104 8
    (2 ^ 32)

theorem bigExe_elfhdr : bigExe.elfhdr = ⟨elfMagic, 0, 64, 1⟩ := by decide

theorem bigExe_proghdr : bigExe.proghdr 64 = ⟨elfProgLoad, 0, 0, 0, 2 ^ 32⟩ := by decide

theorem copyoutLoop_done (t : Pagetable) (src : Bytes) (fuel dstva k : ℕ) :
    copyoutLoop t src fuel dstva k 0 = pure true := by
  cases fuel with
  | zero => rfl
  | succ fuel => simp [copyoutLoop]

theorem copyout_ok {t : Pagetable} {f : Frame} {dstva len : ℕ} (src : Bytes) {m : Mem} {E : Halt → Prop}
    (hw : walkaddr t (pgRoundDown dstva) = some f) (hlen : dstva - pgRoundDown dstva + len ≤ pgsize)
    {Q : Bool → Mem → Prop} (hQ : ∀ m', Q true m') : Wp E (copyout t dstva src len) m Q := by
  unfold copyout
  cases len with
  | zero =>
    rw [copyoutLoop_done, wp_pure]
    exact hQ m
  | succ n =>
    have hmin : min (pgsize - (dstva - pgRoundDown dstva)) (n + 1) = n + 1 := min_eq_right (by omega)
    unfold copyoutLoop
    rw [if_neg (Nat.succ_ne_zero n)]
    simp only [hw, wp_bind, wp_modify, hmin, Nat.sub_self, copyoutLoop_done, wp_pure]
    exact hQ _

section BigExe
variable {m : Mem} {E : Halt → Prop} {t : Pagetable}

theorem pgs_big : pgs (2 ^ 32) = 2 ^ 20 := by decide

theorem wp_loadLoop_bigExe {j : ℕ} (hs : Space userAccess t 0 tops) (hm : m.Enough (j + 3 * 2 ^ 20))
    (hb : m.free.length + (holdings t).card < 2 ^ 26) :
    Wp E (loadLoop bigExe 1 64 t 0) m fun r m' => r.2 = (2 ^ 32, true) ∧
      Space userAccess r.1 (2 ^ 20) tops ∧ Mem.Moves (holdings t) (holdings r.1) m m' ∧ m'.Enough j := by
  have hread : bigExe.readi 64 sizeofProghdr = sizeofProghdr := by decide
  have hover : (0 + 2 ^ 32) % 2 ^ 64 = 2 ^ 32 := by norm_num
  unfold loadLoop loadSegment
  rw [if_neg (not_not.mpr hread), bigExe_proghdr, if_neg (not_not.mpr rfl)]
  dsimp only
  rw [if_neg (by norm_num), hover, if_neg (by norm_num)]
  simp only [wp_bind]
  have hs : Space userAccess t (pgs 0) tops := hs
  refine (hs.wp_uvmalloc (2 ^ 32) rfl hb).mono ?_
  rintro ⟨t', sz⟩ m' ⟨hs', hmoves, -, henough, -⟩
  dsimp only at hs' hmoves henough ⊢
  rw [pgs_big] at henough
  obtain ⟨hsz, hm'⟩ := henough j hm
  rw [Nat.zero_max] at hsz
  subst hsz
  rw [if_neg (by norm_num), pgs_big] at hs'
  rw [if_neg (by norm_num), if_neg (by norm_num)]
  unfold loadseg
  rw [if_neg (by norm_num)]
  rw [show (0 % 2 ^ 32 + pgsize - 1) / pgsize = 0 by decide]
  simp only [wp_bind, loadsegLoop, wp_pure, loadLoop, Bool.not_true, Bool.false_eq_true, if_false]
  exact ⟨trivial, hs', hmoves, hm'⟩

theorem wp_pushStack_nil {f : Frame} (hw : walkaddr t ((2 ^ 20 + 1) * pgsize) = some f)
    {Q : Option (ℕ × ℕ) → Mem → Prop} (hQ : ∀ sp m', Q (some (0, sp)) m') :
    Wp E (pushStack t (2 ^ 32 + 2 * pgsize) []) m Q := by
  have hpush : push (2 ^ 32 + 2 * pgsize) ((0 + 1) * 8) = 2 ^ 32 + 2 * pgsize - 16 := by decide
  have hdown : pgRoundDown (2 ^ 32 + 2 * pgsize - 16) = (2 ^ 20 + 1) * pgsize := by decide
  unfold pushStack pushArgs
  simp only [wp_bind, wp_pure, List.length_nil, hpush]
  rw [if_neg (by decide), wp_bind]
  refine copyout_ok _ (by rwa [hdown]) (by decide) fun m' => ?_
  simp only [wp_pure, if_true]
  exact hQ _ m'

theorem wp_loadImage_bigExe (pa : Page) (hm : m.Enough (2 ^ 23)) (hb : m.free.length < 2 ^ 26) :
    Wp E (loadImage pa bigExe []) m fun r _ => ∃ t sp, r = some (t, 2 ^ 32 + 2 * pgsize, 0, sp) := by
  have hcard : ∀ {m' : Mem} {t : Pagetable}, Mem.Moves 0 (holdings t) m m' →
      m'.free.length + (holdings t).card < 2 ^ 26 := by
    intro m' t hc
    have := hc.card
    rw [Multiset.card_zero] at this
    omega
  have hround : pgRoundUp (2 ^ 32) = 2 ^ 32 := by decide
  have hpgs : pgs (2 ^ 32 + 2 * pgsize) = 2 ^ 20 + 2 := by decide
  have hmax : max (2 ^ 32) (2 ^ 32 + 2 * pgsize) = 2 ^ 32 + 2 * pgsize := by decide
  unfold loadImage buildStack stackPages
  rw [wp_bind]
  refine wp_procPagetable userAccess pa ?_ ?_
  · intro m' _ hno
    exact absurd (hm.mono (by norm_num)) (hno 0)
  intro t₀ m₀ hs₀ hc₀ henough₀
  have hm₀ : m₀.Enough (3 * (2 ^ 20 + 2) + 3 * 2 ^ 20) := henough₀ _ (hm.mono (by norm_num))
  simp only [bigExe_elfhdr, wp_bind]
  refine (wp_loadLoop_bigExe hs₀ hm₀ (hcard hc₀)).mono ?_
  rintro ⟨t₁, r⟩ m₁ ⟨hr, hs₁, hc₁, hm₁⟩
  obtain rfl := hr
  have hc₁ := hc₀.trans hc₁
  simp only [Bool.not_true, Bool.false_eq_true, if_false, wp_bind, hround]
  rw [← pgs_big] at hs₁
  refine (hs₁.wp_uvmalloc (2 ^ 32 + 2 * pgsize) rfl (hcard hc₁)).mono ?_
  rintro ⟨t₂, sz⟩ m₂ ⟨hs₂, -, -, henough₂, -⟩
  dsimp only at hs₂ henough₂ ⊢
  obtain ⟨hsz, -⟩ := henough₂ 0 (by rwa [hpgs, Nat.zero_add])
  rw [hmax] at hsz
  subst hsz
  rw [if_neg (by decide), hpgs] at hs₂
  rw [if_neg (by decide), show 2 ^ 32 + 2 * pgsize - 2 * pgsize = 2 ^ 20 * pgsize by decide, wp_bind]
  refine (hs₂.wp_uvmclear (by norm_num)).mono ?_
  rintro t₃ m₃ ⟨-, -, -, hlook, -⟩
  obtain ⟨pg, perm, hl, hu⟩ := hs₂.page (2 ^ 20 + 1) (by norm_num)
  rw [← hlook _ (by unfold vpns; norm_num) (by norm_num)] at hl
  rw [wp_pure]
  dsimp only
  rw [wp_bind]
  refine wp_pushStack_nil (walkaddr_of_look (by norm_num) hl hu) fun sp m₄ => ?_
  exact (wp_pure _).mpr ⟨t₃, sp, rfl⟩

theorem wp_sysExec_bigExe {s : Sys} {i : Fin nproc} {pool : Pool} (h : Inv pool 0 s)
    (hi : (s.proc i).state ≠ .unused) (hm : s.mem.Enough (2 ^ 23)) :
    Wp E (sysExec i (some bigExe) []) s fun _ s' => (s'.proc i).sz = 2 ^ 32 + 2 * pgsize ∧
      (s'.proc i).state = (s.proc i).state := by
  obtain ⟨t, pa, ht, hpa, hs, -⟩ := h.exists_table hi
  have hfree := h.card_lt i
  have hread : bigExe.readi 0 sizeofElfhdr = sizeofElfhdr := by decide
  unfold sysExec fetchArgs
  simp only [wp_bind, wp_onMem, wp_pure]
  rw [if_pos (by decide), Option.elim_some]
  unfold exec
  dsimp only
  rw [if_neg (not_not.mpr hread), if_neg (by rw [bigExe_elfhdr]; simp)]
  simp only [wp_bind, wp_get, ht, hpa, deref_some, wp_pure, wp_onMem]
  refine (wp_loadImage_bigExe pa hm (by omega)).mono ?_
  rintro _ m' ⟨t', sp, rfl⟩
  simp only [wp_bind, wp_pure, wp_setProc, wp_onMem]
  refine (wp_procFreepagetable hs).mono fun _ m'' _ => ?_
  rw [wp_forM_nil]
  simp

end BigExe

/-- A machine of 2²⁴ pages on which nothing runs yet. -/
def bigSys : Sys :=
  { bss (fun _ _ => 0) fun _ => ⟨false, false⟩ with
    mem := { free := List.range' 65 (2 ^ 24), fails := [], data := fun _ _ => 0 }
    kstack := fun i => i.val + 1 }

theorem bigSys_kernelPages : bigSys.kernelPages = List.range' 0 65 := by
  unfold Sys.kernelPages
  rw [sum_singleton]
  have hnodes : nodes bigSys.kpagetable = {0} := pages_empty _ 0
  have hstacks : (List.finRange nproc).map bigSys.kstack = List.range' 1 64 := by decide
  rw [hnodes, hstacks]
  rfl

def bigPool : Pool where
  all := List.range' 0 (65 + 2 ^ 24)
  kernel := List.range' 0 65
  nodup := Multiset.coe_nodup.mpr List.nodup_range'
  small := by simp

theorem fresh_bigSys : Fresh bigPool bigSys := by
  refine ⟨fun _ => rfl, fun _ => rfl, ?_, bigSys_kernelPages, rfl, ?_⟩
  · rw [bigSys_kernelPages, add_comm, Multiset.coe_add]
    have happend : List.range' 0 65 ++ List.range' (0 + 65) (2 ^ 24) = List.range' 0 (65 + 2 ^ 24) :=
      List.range'_append_1
    exact congrArg _ happend
  · show 7 ≤ (List.range' 65 (2 ^ 24)).length
    rw [List.length_range']
    norm_num

theorem address_spaces_exact_bigSys : Fresh bigPool bigSys ∧
    ∃ s₀, userinit (fun _ => 0) bigSys = .ok ((), s₀) ∧ ∀ s, Run step sbrkFits s₀ s →
      (∀ i, (s.proc i).state ≠ .unused → (s.proc i).MapsExactly) ∧
      ∀ a p, sbrkFits s a → step s a = .error (.panic p) → p = .initExiting :=
  ⟨fresh_bigSys, address_spaces_exact fresh_bigSys _⟩

theorem step_of_wp {s : Sys} {i : Fin nproc} {call : Call} {Q : Unit → Sys → Prop}
    (hi : (s.proc i).state = .runnable)
    (h : Wp (fun _ => False) (syscall i call) { s with mem := { s.mem with fails := [] } } Q) :
    ∃ s', step s ⟨i, call, []⟩ = .ok s' ∧ Q () s' := by
  obtain ⟨_, s', hx, hq⟩ := h.returns
  refine ⟨s', ?_, hq⟩
  unfold step
  rw [if_pos hi, hx]
  rfl

/-- After `exec` of a file of 2³² bytes, `sbrk(0)` makes the size small and unmaps nothing. -/
theorem sbrk_truncates_size : ∃ s₀ s, userinit (fun _ => 0) bigSys = .ok ((), s₀) ∧
    Run step (fun _ _ => True) s₀ s ∧
      ∃ i, (s.proc i).state ≠ .unused ∧ ¬ (s.proc i).MapsExactly := by
  obtain ⟨_, s₀, hinit, hinv, ⟨i, -, hi, -⟩, henough⟩ :=
    (wp_userinit (E := fun _ => False) fresh_bigSys fun _ => 0).returns
  have hroom : s₀.mem.Enough (2 ^ 23) := by
    refine henough _ ⟨rfl, ?_⟩
    show 2 ^ 23 + 7 ≤ (List.range' 65 (2 ^ 24)).length
    rw [List.length_range']
    norm_num
  have hexec : Wp (fun _ => False) (syscall i (.exec (some bigExe) []))
      { s₀ with mem := { s₀.mem with fails := [] } } fun _ s' =>
        (s'.proc i).sz = 2 ^ 32 + 2 * pgsize ∧ (s'.proc i).state = (s₀.proc i).state :=
    (wp_bind _ _).mpr ((wp_sysExec_bigExe (hinv.setFails []) (by simp [hi]) ⟨rfl, hroom.2⟩).mono
      fun r s' hr => (wp_pure _).mpr hr)
  obtain ⟨s₂, hs₂, hsz, hi₂⟩ := step_of_wp hi hexec
  have hinv₂ := (hinv.step_after (a := ⟨i, .exec (some bigExe) [], []⟩) (fun n hn => by simp at hn) hs₂).1.inv
  rw [hi] at hi₂
  obtain ⟨t, ht, hmap⟩ := hinv₂.mapsExactly (i := i) (by simp [hi₂])
  have hsbrk : Wp (fun _ => False) (syscall i (.sbrk 0))
      { s₂ with mem := { s₂.mem with fails := [] } } fun _ s' =>
        s'.proc i = { s₂.proc i with sz := 2 * pgsize } := by
    unfold syscall growproc
    simp only [wp_bind, wp_get, ht, deref_some, wp_pure, hsz, lt_self_iff_false, if_false, wp_setProc,
      Function.update_self]
    rfl
  obtain ⟨s₃, hs₃, hproc⟩ := step_of_wp hi₂ hsbrk
  refine ⟨s₀, s₃, hinit, ((Run.refl s₀).tail trivial hs₂).tail trivial hs₃, i, by simp [hproc, hi₂], ?_⟩
  rintro ⟨t', ht', hmap'⟩
  have hsame : t' = t := by simpa [hproc, ht] using ht'.symm
  subst hsame
  -- page 2 is below the size that `exec` has set, and not below the new one
  have hmapped : (look t' 2).isSome = true := (hmap 2 (by decide)).mpr (.inl (by rw [hsz]; decide))
  have hbelow := (hmap' 2 (by decide)).mp hmapped
  rw [hproc] at hbelow
  have hnot : ¬ (2 * pgsize < pgRoundUp (2 * pgsize) ∨ 2 * pgsize = trapframe ∨
      2 * pgsize = trampoline) := by decide
  exact hnot hbelow

end Xv6.Vm
