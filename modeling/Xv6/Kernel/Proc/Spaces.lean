import Xv6.Kernel.Proc.Invariant

/-! What the calls that change an address space do to it: they change the memory of one
process, whose slot is again in order. -/
namespace Xv6.Vm
open Lib Function

variable {E : Halt → Prop} {s : Sys} {pool : Pool} {held : Multiset (Fin nfile)} {i : Fin nproc}

theorem Proc.ok_free {p : Proc} (h : p.state = .unused) (htf : p.trapframe = none)
    (hpt : p.pagetable = none) (hsz : p.sz = 0) (ho : ∀ fd, p.ofile fd = none) : p.Ok where
  space t ht := by simp [hpt] at ht
  unused _ := ⟨htf, hpt, hsz⟩
  used hne := absurd h hne
  closed _ := ho

theorem Proc.Ok.pages_unused {p : Proc} (h : p.Ok) (hst : p.state = .unused) : p.pages = 0 := by
  obtain ⟨htf, hpt, -⟩ := h.unused hst
  rw [Proc.pages, htf, hpt]
  rfl

theorem Proc.ok_space {p : Proc} {t : Pagetable} (hst : p.state ≠ .unused)
    (htf : p.trapframe.isSome = true) (hpt : p.pagetable = some t)
    (hs : Space (fun _ => True) t (pgs p.sz) tops)
    (ho : p.state ≠ .runnable → ∀ fd, p.ofile fd = none) : p.Ok where
  space t' ht := by
    rw [hpt] at ht
    rwa [← Option.some.inj ht]
  unused h := absurd h hst
  used _ := ⟨htf, by simp [hpt]⟩
  closed := ho

theorem wp_freeproc (h : ∀ t, (s.proc i).pagetable = some t →
      Space (fun _ => True) t (pgs (s.proc i).sz) tops) {Q : Unit → Sys → Prop}
    (hQ : ∀ m, Mem.Moves (s.proc i).pages 0 s.mem m → Q () { s with
      mem := m
      proc := update s.proc i { Proc.free with ofile := (s.proc i).ofile } }) :
    Wp E (freeproc i) s Q := by
  have htable : ∀ s' : Sys, Mem.Moves (s.proc i).pages ((s.proc i).pagetable.elim 0 holdings) s.mem s'.mem →
      s' = { s with mem := s'.mem } →
      Wp E ((s.proc i).pagetable.elim (pure ()) fun t => onMem (procFreepagetable t (s.proc i).sz)) s'
        fun _ s'' => ∃ m, Mem.Moves (s.proc i).pages 0 s.mem m ∧ s'' = { s with mem := m } := by
    intro s' hm hs'
    cases hpt : (s.proc i).pagetable with
    | none =>
      rw [hpt] at hm
      exact (wp_pure ()).mpr ⟨s'.mem, hm, hs'⟩
    | some t =>
      rw [hpt] at hm
      refine (wp_onMem _ _).mpr ((wp_procFreepagetable (h t hpt)).mono ?_)
      intro _ m hm'
      exact ⟨m, hm.trans hm', by rw [hs']⟩
  unfold freeproc
  simp only [wp_bind, wp_get, wp_setProc]
  cases htf : (s.proc i).trapframe with
  | none =>
    refine (wp_pure ()).mpr ((htable s ?_ rfl).mono ?_)
    · unfold Proc.pages
      rw [htf]
      simpa using Mem.Moves.refl _ s.mem
    · rintro _ _ ⟨m, hm, rfl⟩
      exact hQ m hm
  | some pa =>
    refine (wp_onMem _ _).mpr (wp_kfree pa fun m _ _ hm => ?_)
    refine (htable { s with mem := m } ?_ rfl).mono ?_
    · have hm := hm.frame ((s.proc i).pagetable.elim 0 holdings)
      rw [zero_add] at hm
      unfold Proc.pages
      rw [htf]
      exact hm
    · rintro _ _ ⟨m, hm, rfl⟩
      exact hQ m hm

/-- `allocproc` fails and leaves an unused slot unused, or returns a slot with a trapframe and
an address space that is empty. -/
theorem wp_allocproc (h : Inv pool held s) {Q : Option (Fin nproc) → Sys → Prop}
    (hfull : (∀ i, (s.proc i).state ≠ .unused) → Q none s)
    (hnone : ∀ i s', (s.proc i).state = .unused → s.Changes i s' → (s'.proc i).Ok →
      (s'.proc i).state = .unused → (∀ k, ¬ s.mem.Enough (k + 4)) → s'.initproc = s.initproc →
      Q none s')
    (hsome : ∀ i pid pa t s', (s.proc i).state = .unused → s.Changes i s' →
      s'.proc i = { s.proc i with pid, trapframe := some pa, pagetable := some t } →
      Space (fun _ => True) t 0 tops → (∀ k, s.mem.Enough (k + 4) → s'.mem.Enough k) →
      s'.initproc = s.initproc → Q (some i) s') :
    Wp E allocproc s Q := by
  unfold allocproc
  simp only [wp_bind, wp_get]
  cases hfind : (List.finRange nproc).find? fun i => decide ((s.proc i).state = .unused) with
  | none =>
    refine (wp_pure none).mpr (hfull fun i => ?_)
    simpa using List.find?_eq_none.mp hfind i (List.mem_finRange i)
  | some i =>
    have hst : (s.proc i).state = .unused := by simpa using List.find?_some hfind
    obtain ⟨htf, hpt, hsz⟩ := (h.ok i).unused hst
    have hclosed := (h.ok i).closed (by simp [hst])
    have hpages := (h.ok i).pages_unused hst
    unfold allocpid
    simp only [wp_bind, wp_get, wp_set, wp_pure, wp_setProc, wp_onMem]
    apply wp_kalloc
    · intro m hm _ hno
      simp only [wp_bind, wp_setProc, wp_pure, update_idem]
      refine hnone i _ hst ?_ ?_ ?_ (fun k => hno (k + 3)) rfl
      · refine ⟨?_, fun j hj => update_of_ne hj _ _, by simp, rfl, rfl, rfl, rfl⟩
        rw [hpages]
        simpa [Proc.pages, hpt] using hm
      · simpa using Proc.ok_free (p := { s.proc i with pid := s.nextpid, trapframe := none }) hst rfl hpt
          hsz hclosed
      · simpa using hst
    · intro pa m hfree hm henough
      simp only [wp_bind, wp_setProc, wp_onMem, update_idem]
      apply wp_procPagetable (fun _ => True)
      · intro m' hm' hno
        simp only [wp_bind, wp_setProc, wp_pure, update_idem]
        apply wp_freeproc (by simp)
        simp only [update_self, update_idem]
        intro m'' hm''
        refine hnone i _ hst ?_ ?_ (by simp [Proc.free]) (fun k hk => hno k (henough _ hk)) rfl
        · have hm' := hm'.frame {pa}
          rw [zero_add] at hm'
          refine ⟨?_, fun j hj => update_of_ne hj _ _, by simp, rfl, rfl, rfl, rfl⟩
          rw [hpages]
          simpa [Proc.pages, Proc.free] using (hm.trans hm').trans hm''
        · simpa using Proc.ok_free (p := { Proc.free with ofile := (s.proc i).ofile }) rfl rfl rfl rfl
            hclosed
      · intro t m' hs hm' henough'
        simp only [wp_bind, wp_setProc, wp_pure, update_idem]
        refine hsome i s.nextpid pa t _ hst ?_ (by simp) hs
          (fun k hk => henough' k (henough (k + 3) hk)) rfl
        refine ⟨?_, fun j hj => update_of_ne hj _ _, by simp, rfl, rfl, rfl, rfl⟩
        rw [hpages]
        simpa [Proc.pages] using hm.trans (hm'.grow {pa})

theorem Inv.setSpace (h : Inv pool held s) (hi : (s.proc i).state ≠ .unused) {t t' : Pagetable}
    {sz : ℕ} {m : Mem} (ht : (s.proc i).pagetable = some t)
    (hs : Space (fun _ => True) t' (pgs sz) tops) (hm : Mem.Moves (holdings t) (holdings t') s.mem m) :
    s.Changes i { s with
      mem := m, proc := update s.proc i { s.proc i with pagetable := some t', sz } } ∧
    Inv pool held { s with
      mem := m, proc := update s.proc i { s.proc i with pagetable := some t', sz } } := by
  have hchange : s.Changes i { s with
      mem := m, proc := update s.proc i { s.proc i with pagetable := some t', sz } } := by
    apply Sys.changes_set
    · have hm := hm.frame ((s.proc i).trapframe.elim 0 fun pa => {pa})
      unfold Proc.pages
      rw [ht, add_comm, add_comm (Option.elim (s.proc i).trapframe 0 _)]
      exact hm
    · rfl
  refine ⟨hchange, h.change hchange ?_⟩
  simp only [update_self]
  exact Proc.ok_space hi ((h.ok i).used hi).1 rfl hs (h.ok i).closed

theorem wp_growproc (h : Inv pool held s) (hi : (s.proc i).state ≠ .unused)
    (hsz : (s.proc i).sz < 2 ^ 32) (n : ℤ) :
    Wp E (growproc i n) s fun _ s' => s.Changes i s' ∧ Inv pool held s' ∧
      s'.initproc = s.initproc := by
  obtain ⟨t, pa, ht, -, hs, hpages⟩ := h.exists_table hi
  have hb : s.mem.free.length + (holdings t).card < 2 ^ 26 := by
    have := h.card_lt i
    rw [hpages, Multiset.card_add] at this
    omega
  have hmod : (s.proc i).sz % 2 ^ 32 = (s.proc i).sz := Nat.mod_eq_of_lt hsz
  have hnew : (((s.proc i).sz + n) % 2 ^ 32).toNat < 2 ^ 32 := by omega
  unfold growproc
  simp only [wp_bind, wp_get, ht, deref_some, wp_pure, hmod]
  generalize (((s.proc i).sz + n) % 2 ^ 32).toNat = newsz at hnew
  split_ifs with hpos hneg
  · rw [wp_bind, wp_onMem]
    refine (hs.wp_uvmalloc _ trivial hb).mono ?_
    rintro ⟨t', sz⟩ m ⟨hs', hm, hr, -⟩
    have hlt : sz < 2 ^ 32 := by
      dsimp only at hr
      omega
    simp only [Nat.mod_eq_of_lt hlt]
    split_ifs with hz
    · simp only [wp_bind, wp_setProc, wp_pure]
      dsimp only at hs'
      rw [if_pos hz] at hs'
      obtain ⟨hc, hinv⟩ := h.setSpace hi ht hs' hm
      exact ⟨hc, hinv, trivial⟩
    · simp only [wp_bind, wp_setProc, wp_pure]
      dsimp only at hs'
      rw [if_neg hz] at hs'
      obtain ⟨hc, hinv⟩ := h.setSpace hi ht hs' hm
      exact ⟨hc, hinv, trivial⟩
  · rw [wp_bind, wp_onMem]
    refine (hs.wp_uvmdealloc).mono ?_
    rintro ⟨t', sz⟩ m ⟨hr, hs', hm, -⟩
    have hlt : sz < 2 ^ 32 := by
      dsimp only at hr
      omega
    simp only [wp_bind, wp_setProc, wp_pure, Nat.mod_eq_of_lt hlt]
    obtain ⟨hc, hinv⟩ := h.setSpace hi ht hs' hm
    exact ⟨hc, hinv, trivial⟩
  · simp only [wp_bind, wp_setProc, wp_pure]
    obtain ⟨hc, hinv⟩ := h.setSpace hi ht hs (.refl _ s.mem)
    exact ⟨hc, hinv, trivial⟩

theorem Inv.copyout (h : Inv pool held s) (hi : (s.proc i).state ≠ .unused) {t : Pagetable}
    (ht : (s.proc i).pagetable = some t) (dstva : ℕ) (src : Bytes) (len : ℕ) :
    Wp E (copyout t dstva src len) s.mem fun _ m => s.Changes i { s with mem := m } ∧
      Inv pool held { s with mem := m } := by
  have hs := (h.ok i).space t ht
  refine (hs.wp_copyout dstva src len).mono ?_
  rintro _ m ⟨-, hm⟩
  have hset := h.setSpace hi ht hs hm
  have hsame : update s.proc i { s.proc i with pagetable := some t, sz := (s.proc i).sz } =
      s.proc := by
    rw [← ht]
    exact update_eq_self i s.proc
  rw [hsame] at hset
  exact hset

theorem wp_sysCopyout (h : Inv pool held s) (hi : (s.proc i).state ≠ .unused) (dstva : ℕ)
    (src : Bytes) (len : ℕ) : Wp E (sysCopyout i dstva src len) s fun _ s' =>
      s.Changes i s' ∧ Inv pool held s' ∧ s' = { s with mem := s'.mem } := by
  obtain ⟨t, -, ht, -, -, -⟩ := h.exists_table hi
  unfold sysCopyout
  simp only [wp_bind, wp_get, ht, deref_some, wp_pure, wp_onMem]
  refine (h.copyout hi ht dstva src len).mono ?_
  rintro _ m ⟨hc, hinv⟩
  exact ⟨hc, hinv, trivial⟩

theorem wp_exec {t : Pagetable} {pa : Page} (ht : (s.proc i).pagetable = some t)
    (hpa : (s.proc i).trapframe = some pa) (hs : Space (fun _ => True) t (pgs (s.proc i).sz) tops)
    (hb : s.mem.free.length < 2 ^ 26) (file : Option Exe) (argv : List Str)
    {Q : Option ℕ → Sys → Prop}
    (hQ : ∀ argc t' sz m, Space (fun _ => True) t' (pgs sz) tops →
      Mem.Moves (holdings t) (holdings t') s.mem m → Q argc { s with
        mem := m, proc := update s.proc i { s.proc i with pagetable := some t', sz } }) :
    Wp E (exec i file argv) s Q := by
  have hsame : ∀ m, Mem.Moves 0 0 s.mem m → Q none { s with mem := m } := by
    intro m hm
    have hm := hm.grow (holdings t)
    rw [add_zero] at hm
    have hq := hQ none t (s.proc i).sz m hs hm
    rw [← ht] at hq
    rwa [update_eq_self i s.proc] at hq
  unfold exec
  cases file with
  | none => exact (wp_pure none).mpr (hsame s.mem (.refl 0 s.mem))
  | some ip =>
    dsimp only
    split_ifs with hread hmagic
    · exact (wp_pure none).mpr (hsame s.mem (.refl 0 s.mem))
    · exact (wp_pure none).mpr (hsame s.mem (.refl 0 s.mem))
    simp only [wp_bind, wp_get, ht, hpa, deref_some, wp_pure, wp_onMem]
    apply wp_loadImage pa ip argv hb
    · intro m hm
      exact (wp_pure none).mpr (hsame m hm)
    · intro t' sz argc sp m hs' hm
      simp only [wp_bind, wp_pure, wp_setProc, wp_onMem]
      refine (wp_procFreepagetable hs).mono fun _ m' hm' => ?_
      have hm := hm.grow (holdings t)
      rw [add_comm] at hm
      rw [← hpa]
      exact hQ (some argc) t' sz m' hs' (hm.trans (hm'.shrink (holdings t')))

theorem wp_fetchArgs {m : Mem} (args : List Arg) (pages : List Page) (argv : List Str) :
    Wp E (fetchArgs args pages argv) m fun r m' => Mem.Moves pages r.1 m m' := by
  have hcons : ∀ {m m' : Mem} {pa : Page} {pages : List Page}, Mem.Moves 0 {pa} m m' →
      Mem.Moves pages (pa :: pages : List Page) m m' := by
    intro m m' pa pages hm
    rw [← Multiset.cons_coe, ← Multiset.singleton_add, add_comm]
    exact hm.grow pages
  induction args generalizing m pages argv with
  | nil => exact (wp_pure _).mpr (.refl _ m)
  | cons arg args ih =>
    unfold fetchArgs
    split_ifs with hmax
    · exact (wp_pure _).mpr (.refl _ m)
    cases arg with
    | badAddr => exact (wp_pure _).mpr (.refl _ m)
    | badStr =>
      simp only [wp_bind]
      apply wp_kalloc
      · intro m' hm _ _
        have hm := hm.grow pages
        rw [add_zero] at hm
        exact (wp_pure _).mpr hm
      · intro pa m' _ hm _
        exact (wp_pure _).mpr (hcons hm)
    | str str =>
      simp only [wp_bind]
      apply wp_kalloc
      · intro m' hm _ _
        have hm := hm.grow pages
        rw [add_zero] at hm
        exact (wp_pure _).mpr hm
      · intro pa m' _ hm _
        simp only [wp_bind, wp_fill]
        refine (ih (pa :: pages) (argv ++ [str])).mono fun r m'' hm'' => ?_
        exact ((hcons hm).trans (Mem.moves_write (by simp) _)).trans hm''

theorem wp_kfreeAll (pages : List Page) (Q : Unit → Sys → Prop)
    (hQ : ∀ m, Mem.Moves pages 0 s.mem m → Q () { s with mem := m }) :
    Wp E (pages.forM fun pa => onMem (kfree (.page pa))) s Q := by
  induction pages generalizing s with
  | nil => exact (wp_forM_nil _ _).mpr (hQ s.mem (.refl 0 s.mem))
  | cons pa pages ih =>
    rw [wp_forM_cons, wp_onMem]
    refine wp_kfree pa fun m _ _ hm => ih fun m' hm' => hQ m' ?_
    rw [← Multiset.cons_coe, ← Multiset.singleton_add, add_comm]
    exact (hm.shrink pages).trans hm'

theorem wp_sysExec (h : Inv pool held s) (hi : (s.proc i).state ≠ .unused) (file : Option Exe)
    (args : List Arg) : Wp E (sysExec i file args) s fun _ s' => s.Changes i s' ∧ Inv pool held s' ∧
      s'.initproc = s.initproc := by
  obtain ⟨t, pa, ht, hpa, hs, -⟩ := h.exists_table hi
  have hfree := h.card_lt i
  unfold sysExec
  simp only [wp_bind, wp_onMem]
  refine (wp_fetchArgs args [] []).mono ?_
  rintro ⟨pages, argv⟩ m hm
  have hlen : m.free.length < 2 ^ 26 := by
    have := hm.card
    simp only [Multiset.coe_card, List.length_nil] at this
    omega
  -- the pages of the strings stay where they are while `exec` runs
  have hdone : ∀ t' sz m', Space (fun _ => True) t' (pgs sz) tops →
      Mem.Moves (holdings t) (holdings t') m m' → ∀ ret : Option ℕ,
      Wp E (pages.forM fun pa => onMem (kfree (.page pa))) { s with
        mem := m', proc := update s.proc i { s.proc i with pagetable := some t', sz } }
        fun _ s' => Wp E (pure ret : Kern (Option ℕ)) s' fun _ s' => s.Changes i s' ∧ Inv pool held s' ∧
          s'.initproc = s.initproc := by
    intro t' sz m' hs' hm' ret
    refine wp_kfreeAll pages _ fun m'' hm'' => (wp_pure ret).mpr ?_
    have hall : Mem.Moves (holdings t) (holdings t') s.mem m'' :=
      ((hm.grow (holdings t)).trans (hm'.frame pages)).trans (hm''.shrink (holdings t'))
    obtain ⟨hc, hinv⟩ := h.setSpace hi ht hs' hall
    exact ⟨hc, hinv, rfl⟩
  cases argv with
  | none =>
    rw [Option.elim_none, wp_pure]
    have hd := hdone t (s.proc i).sz m hs (.refl _ m) none
    rw [← ht] at hd
    rwa [update_eq_self i s.proc] at hd
  | some argv =>
    exact wp_exec (s := { s with mem := m }) ht hpa hs hlen file argv fun argc t' sz m' hs' hm' =>
      hdone t' sz m' hs' hm' argc

theorem wp_wait (hE : E .blocked) (h : Inv pool held s) (hi : (s.proc i).state ≠ .unused) (addr : ℕ) :
    Wp E (wait i addr) s fun _ s' => Inv pool held s' ∧ s'.initproc = s.initproc ∧
      ∀ k, (s.proc k).state = .runnable → s.Keeps k s' := by
  obtain ⟨t, -, ht, -, -, -⟩ := h.exists_table hi
  unfold wait
  simp only [wp_bind, wp_get]
  cases hfind : List.find? (fun j => decide ((s.proc j).state = .zombie))
      ((List.finRange nproc).filter fun j => (s.proc j).parent = some i) with
  | none =>
    dsimp only
    split_ifs with hnil
    · exact (wp_pure none).mpr ⟨h, rfl, fun k _ => ⟨rfl, fun _ _ _ => rfl⟩⟩
    · exact (wp_throw _).mpr hE
  | some j =>
    have hj : (s.proc j).state = .zombie := by simpa using List.find?_some hfind
    have hfree : ∀ m, Inv pool held { s with mem := m } → Wp E (freeproc j) { s with mem := m }
        fun _ s' => Inv pool held s' ∧ s'.initproc = s.initproc ∧
          ∀ k, (s.proc k).state = .runnable → s.Keeps k s' := by
      intro m hinv
      refine wp_freeproc (hinv.ok j).space fun m' hm' =>
        ⟨hinv.change (Sys.changes_set hm' rfl) ?_, rfl, fun k hk => ⟨?_, fun _ _ _ => rfl⟩⟩
      swap
      · have hne : k ≠ j := by
          rintro rfl
          simp [hj] at hk
        simp only [update_of_ne hne]
      have hclosed := (hinv.ok j).closed (by simp [hj])
      simpa using Proc.ok_free (p := { Proc.free with ofile := (s.proc j).ofile }) rfl rfl rfl rfl hclosed
    simp only [wp_bind, ht, deref_some, wp_pure]
    split_ifs with haddr
    · simp only [wp_pure, Bool.not_true, Bool.false_eq_true, if_false, wp_bind]
      exact hfree s.mem h
    · rw [wp_bind, wp_onMem]
      refine (h.copyout hi ht addr _ 4).mono ?_
      rintro copied m ⟨-, hinv⟩
      cases copied with
      | false => exact (wp_pure none).mpr ⟨hinv, rfl, fun k _ => ⟨rfl, fun _ _ _ => rfl⟩⟩
      | true =>
        simp only [Bool.not_true, Bool.false_eq_true, if_false, wp_bind, wp_pure]
        exact hfree m hinv

end Xv6.Vm
