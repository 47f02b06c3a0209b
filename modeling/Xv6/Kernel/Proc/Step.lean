import Xv6.Kernel.Proc.Boot
import Xv6.Kernel.Proc.Descriptors
import Xv6.Lib.Run

/-! Every system call keeps the invariant, so it holds in every run. -/
namespace Xv6.Vm
open Lib

variable {E : Halt → Prop} {s s' : Sys} {pool : Pool} {i : Fin nproc}

/-- The calls that leave the memory and the descriptors of the caller as they are, but for
bytes. -/
def Call.keepsCaller : Call → Bool
  | .fork => true
  | .wait _ => true
  | .copyout _ _ _ => true
  | _ => false

/-- The calls that change the memory of the caller only. -/
def Call.ownMemory : Call → Bool
  | .sbrk _ => true
  | .exec _ _ => true
  | .copyout _ _ _ => true
  | _ => false

/-- `growproc` is not given a size that does not fit into a `uint`. -/
def sbrkFits (s : Sys) (a : Action) : Prop := ∀ n, a.call = .sbrk n → (s.proc a.proc).sz < 2 ^ 32

theorem Sys.Changes.after (h : s.Changes i s') (hinv : Inv pool 0 s') (hinit : s'.initproc = s.initproc) :
    After pool i s s' :=
  ⟨hinv, hinit, fun _ hk _ => h.keeps hk, .of_subset (Sys.pipes_congr fun f => by rw [h.file]).ge⟩

/-- What a system call does. -/
theorem wp_syscall (hblocked : E .blocked) (hexit : E (.panic .initExiting)) (h : Inv pool 0 s)
    (hi : (s.proc i).state = .runnable) (call : Call)
    (hsbrk : ∀ n, call = .sbrk n → (s.proc i).sz < 2 ^ 32) :
    Wp E (syscall i call) s fun _ s' => After pool i s s' ∧
      (call.keepsCaller = true → s.Keeps i s') ∧ (call.ownMemory = true → s.Changes i s') := by
  have hused : (s.proc i).state ≠ .unused := by simp [hi]
  cases call with
  | fork =>
    refine (wp_bind _ _).mpr ((wp_fork h hused).mono ?_)
    rintro r s' ⟨hinv, hinit, hkeeps, -⟩
    rw [wp_pure]
    have hrun : ∀ k, (s.proc k).state = .runnable → s.Keeps k s' := fun k hk => hkeeps k (by simp [hk])
    refine ⟨⟨hinv, hinit, fun k _ hk => hrun k hk, .of_subset (h.pipes_subset hrun)⟩, fun _ => hkeeps i hused, ?_⟩
    simp [Call.ownMemory]
  | exec file args =>
    refine (wp_bind _ _).mpr ((wp_sysExec h hused file args).mono ?_)
    rintro r s' ⟨hc, hinv, hinit⟩
    exact (wp_pure _).mpr ⟨hc.after hinv hinit, by simp [Call.keepsCaller], fun _ => hc⟩
  | sbrk n =>
    refine (wp_bind _ _).mpr ((wp_growproc h hused (hsbrk n rfl) n).mono ?_)
    rintro r s' ⟨hc, hinv, hinit⟩
    exact (wp_pure _).mpr ⟨hc.after hinv hinit, by simp [Call.keepsCaller], fun _ => hc⟩
  | exit status =>
    refine (wp_exit hexit h hi status).mono ?_
    rintro r s' ⟨hinv, hinit, hkeeps, hfrees⟩
    exact ⟨⟨hinv, hinit, fun k hk _ => hkeeps k hk, hfrees⟩, by simp [Call.keepsCaller],
      by simp [Call.ownMemory]⟩
  | wait addr =>
    refine (wp_bind _ _).mpr ((wp_wait hblocked h hused addr).mono ?_)
    rintro r s' ⟨hinv, hinit, hkeeps⟩
    rw [wp_pure]
    exact ⟨⟨hinv, hinit, fun k _ hk => hkeeps k hk, .of_subset (h.pipes_subset hkeeps)⟩, fun _ => hkeeps i hi,
      by simp [Call.ownMemory]⟩
  | pipe fdarray =>
    refine (wp_bind _ _).mpr ((wp_sysPipe h hi fdarray).mono ?_)
    rintro r s' hafter
    exact (wp_pure _).mpr ⟨hafter, by simp [Call.keepsCaller], by simp [Call.ownMemory]⟩
  | dup fd =>
    refine (wp_bind _ _).mpr ((wp_sysDup h hi fd).mono ?_)
    rintro r s' ⟨hinv, hd⟩
    exact (wp_pure _).mpr ⟨hd.after hinv, by simp [Call.keepsCaller], by simp [Call.ownMemory]⟩
  | close fd =>
    refine (wp_bind _ _).mpr ((wp_sysClose h hi fd).mono ?_)
    rintro r s' ⟨hinv, hd⟩
    exact (wp_pure _).mpr ⟨hd.after hinv, by simp [Call.keepsCaller], by simp [Call.ownMemory]⟩
  | «open» found =>
    refine (wp_bind _ _).mpr ((wp_sysOpen h hi found).mono ?_)
    rintro r s' ⟨hinv, hd⟩
    exact (wp_pure _).mpr ⟨hd.after hinv, by simp [Call.keepsCaller], by simp [Call.ownMemory]⟩
  | copyout dstva src len =>
    refine (wp_bind _ _).mpr ((wp_sysCopyout h hused dstva src len).mono ?_)
    rintro r s' ⟨hc, hinv, hsame⟩
    refine (wp_pure _).mpr ⟨hc.after hinv (by rw [hsame]), fun _ => ⟨?_, fun _ _ _ => ?_⟩, fun _ => hc⟩
    · rw [hsame]
    · rw [hsame]

theorem Inv.setFails (h : Inv pool 0 s) (fails : List Bool) :
    Inv pool 0 { s with mem := { s.mem with fails } } := by
  have hfds : Sys.fds { s with mem := { s.mem with fails } } = s.fds := Sys.fds_of_proc rfl
  refine h.spaces ⟨⟨rfl, fun _ _ => rfl⟩, fun _ => rfl, fun _ => rfl, fun _ => rfl, rfl, rfl⟩ ?_
    (fun _ => Iff.rfl) fun i => (h.ok i).closed
  rw [hfds]
  exact h.files.congr rfl rfl

theorem Inv.step_after (h : Inv pool 0 s) {a : Action} (ha : sbrkFits s a) (hs : step s a = .ok s') :
    After pool a.proc s s' ∧ (a.call.keepsCaller = true → s.Keeps a.proc s') ∧
      (a.call.ownMemory = true → s.Changes a.proc s') := by
  unfold Vm.step at hs
  split_ifs at hs with hi
  cases hx : syscall a.proc a.call { s with mem := { s.mem with fails := a.fails } } with
  | error e => simp [hx, Except.map] at hs
  | ok r =>
    obtain ⟨u, s₁⟩ := r
    obtain rfl : s₁ = s' := by simpa [hx, Except.map] using hs
    have hcall := (wp_syscall (E := fun _ => True) trivial trivial (h.setFails a.fails) hi a.call ha).of_ok hx
    obtain ⟨⟨hinv, hinit, hothers, hfrees⟩, hcaller, hown⟩ := hcall
    refine ⟨⟨hinv, hinit, fun k hk hr => ?_, hfrees⟩, fun hc => ?_, fun hc => ?_⟩
    · obtain ⟨hproc, htypes⟩ := hothers k hk hr
      exact ⟨hproc, htypes⟩
    · obtain ⟨hproc, htypes⟩ := hcaller hc
      exact ⟨hproc, htypes⟩
    · obtain ⟨hm, hrest, ho, hf, hp, ht, hst⟩ := hown hc
      exact ⟨⟨hm.pages, hm.data⟩, hrest, ho, hf, hp, ht, hst⟩

theorem Inv.step_panic (h : Inv pool 0 s) {a : Action} (ha : sbrkFits s a) {p : Panic}
    (hs : Vm.step s a = .error (.panic p)) : p = .initExiting := by
  unfold Vm.step at hs
  split_ifs at hs with hi
  swap
  · simp at hs
  cases hx : syscall a.proc a.call { s with mem := { s.mem with fails := a.fails } } with
  | ok r => simp [hx, Except.map] at hs
  | error e =>
    obtain rfl : e = .panic p := by simpa [hx, Except.map] using hs
    have hcall := wp_syscall (E := fun e => e = .blocked ∨ e = .panic .initExiting) (.inl rfl) (.inr rfl)
      (h.setFails a.fails) hi a.call ha
    rcases hcall.of_error hx with he | he
    · simp at he
    · simpa using he

theorem Inv.run {s₀ : Sys} (h : Inv pool 0 s₀) (hrun : Run Vm.step sbrkFits s₀ s) : Inv pool 0 s :=
  hrun.invariant h fun _ _ _ hinv ha hs => (hinv.step_after ha hs).1.inv

/-- The pages that a process's table maps are those below its size, the trapframe and the
trampoline. -/
def Proc.MapsExactly (p : Proc) : Prop :=
  ∃ t, p.pagetable = some t ∧ ∀ v < vpns, (look t v).isSome = true ↔
    v * pgsize < pgRoundUp p.sz ∨ v * pgsize = Vm.trapframe ∨ v * pgsize = trampoline

theorem Inv.mapsExactly (h : Inv pool 0 s) (hi : (s.proc i).state ≠ .unused) :
    (s.proc i).MapsExactly := by
  obtain ⟨t, -, ht, -, hs, -⟩ := h.exists_table hi
  have hpos : 0 < pgsize := by decide
  refine ⟨t, ht, fun v hv => ?_⟩
  rw [hs.mapped v hv, pgRoundUp_eq hs.le, trapframe_eq, trampoline_eq, Nat.mul_lt_mul_right hpos,
    Nat.mul_left_inj hpos.ne', Nat.mul_left_inj hpos.ne']
  rfl

end Xv6.Vm
