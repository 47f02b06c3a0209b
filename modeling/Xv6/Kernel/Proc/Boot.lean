import Xv6.Kernel.Vm.Mappages
import Xv6.Kernel.Proc.Spaces

/-! What `main` does before the first process runs, as far as it takes pages: `kinit`,
`kvminit`, `procinit` and `userinit`. -/
namespace Xv6.Vm
open Lib Function

def uart0 : ℕ := 0x10000000
def virtio0 : ℕ := 0x10001000
def clint : ℕ := 0x2000000
def plic : ℕ := 0x0c000000

/-- `KSTACK(p)` -/
def kstack (i : ℕ) : ℕ := trampoline - (i + 1) * 2 * pgsize

/-- The page at a physical address. -/
def frameOf (pa : ℕ) : Frame := .page (pa / pgsize)

/-- The loop of `freerange` over `n` pages. -/
def freerangeLoop : ℕ → Page → K Unit
  | 0, _ => return
  | n + 1, p => do
    kfree (.page p)
    freerangeLoop n (p + 1)

def freerange (paStart paEnd : ℕ) : K Unit :=
  freerangeLoop ((paEnd - pgRoundUp paStart) / pgsize) (pgRoundUp paStart / pgsize)

/-- `kinit`, where the linker has put `end` at `kend`. -/
def kinit (kend : ℕ) : K Unit := freerange kend phystop

def kvmmap (va : ℕ) (pa : Frame) (sz : ℕ) (perm : Perm) : Kern Unit := do
  let s ← get
  let (t, mapped) ← onMem (mappages s.kpagetable va sz pa perm)
  if !mapped then throw (.panic .kvmmap)
  modify fun s => { s with kpagetable := t }

/-- The page for the kernel's page table is not checked. -/
def kvminit (etext : ℕ) : Kern Unit := do
  let pa ← deref (← onMem kalloc)
  modify fun s => { s with kpagetable := Node.empty _ pa }
  kvmmap uart0 (frameOf uart0) pgsize permRW
  kvmmap virtio0 (frameOf virtio0) pgsize permRW
  kvmmap clint (frameOf clint) 0x10000 permRW
  kvmmap plic (frameOf plic) 0x400000 permRW
  kvmmap kernbase (frameOf kernbase) (etext - kernbase) permRX
  kvmmap etext (frameOf etext) (phystop - etext) permRW
  kvmmap trampoline .trampoline pgsize permRX

/-- The turn of the loop of `procinit` for slot `i`. -/
def procinitSlot (i : Fin nproc) : Kern Unit := do
  match ← onMem kalloc with
  | none => throw (.panic .kalloc)
  | some pa =>
    kvmmap (kstack i) (.page pa) pgsize permRW
    modify fun s => { s with kstack := update s.kstack i pa }

def procinit : Kern Unit := (List.finRange nproc).forM procinitSlot

/-- `main` on the first CPU, with `etext` and `end` as the linker sets them. -/
def main (etext kend : ℕ) (initcode : Bytes) : Kern Unit := do
  onMem (kinit kend)
  kvminit etext
  procinit
  userinit initcode

/-- The memory when `main` starts: static variables are zero. -/
def bss (data : Frame → Bytes) (pipe : Page → Pipe) : Sys :=
  { mem := { free := [], fails := [], data }
    proc := fun _ => Proc.free
    file := fun _ => ⟨0, .none⟩
    pipe
    nextpid := 1
    initproc := none
    kpagetable := Node.empty _ 0
    kstack := fun _ => 0 }

/-- The pages from `PGROUNDUP(end)` to `PHYSTOP`. -/
def poolPages (kend : ℕ) : List Page :=
  List.range' (pgRoundUp kend / pgsize) ((phystop - pgRoundUp kend) / pgsize)

variable {E : Halt → Prop} {s : Sys} {m : Mem}

theorem wp_freerangeLoop (n : ℕ) (p : Page) (hf : m.fails = []) :
    Wp E (freerangeLoop n p) m fun _ m' => Mem.Moves (List.range' p n) 0 m m' ∧ m'.Enough n := by
  induction n generalizing p m with
  | zero => exact (wp_pure ()).mpr ⟨.refl _ m, hf, by omega⟩
  | succ n ih =>
    unfold freerangeLoop
    rw [wp_bind]
    refine wp_kfree p fun m₁ hfree hfails hm => ?_
    refine (ih (p + 1) (hfails.trans hf)).mono ?_
    rintro _ m' ⟨hm', henough⟩
    have hall := (hm.shrink (List.range' (p + 1) n : Multiset Page)).trans hm'
    rw [add_comm, Multiset.singleton_add, Multiset.cons_coe, ← List.range'_succ] at hall
    refine ⟨hall, henough.1, ?_⟩
    have hcard := hall.card
    simp only [Multiset.coe_card, List.length_range', Multiset.card_zero] at hcard
    omega

/-- What the kernel's page table maps is in `S`, and the table and `rest` are the pages taken. -/
structure Kvm (S : Set ℕ) (rest : Multiset Page) (k : ℕ) (m : Mem) (s : Sys) : Prop where
  moves : Mem.Moves 0 (nodes s.kpagetable + rest) m s.mem
  mapped : ∀ v < vpns, v ∉ S → look s.kpagetable v = none
  enough : s.mem.Enough k
  same : ∃ data pipe, s = { bss data pipe with
    mem := s.mem, kpagetable := s.kpagetable, kstack := s.kstack }

variable {S : Set ℕ} {rest : Multiset Page} {k v n : ℕ}

theorem Kvm.wp_kvmmap (h : Kvm S rest k m s) (v n : ℕ) (S' : Set ℕ) (k' : ℕ) {va sz : ℕ}
    (hva : va = v * pgsize) (hsz : sz = n * pgsize) (hn : 0 < n) (hv : v + n ≤ 2 ^ 26) (hk : k' + tableCost n ≤ k)
    (hS : ∀ w, v ≤ w → w < v + n → w ∉ S) (hS' : ∀ w, w ∈ S ∨ v ≤ w ∧ w < v + n → w ∈ S')
    (pa : Frame) (perm : Perm) {Q : Unit → Sys → Prop}
    (hQ : ∀ s', Kvm S' rest k' m s' → s'.kstack = s.kstack → Q () s') :
    Wp E (kvmmap va pa sz perm) s Q := by
  have hfree : ∀ w, v ≤ w → w < v + n → look s.kpagetable w = none := fun w hw hw' =>
    h.mapped w (by unfold vpns; omega) (hS w hw hw')
  subst hva hsz
  unfold kvmmap
  simp only [wp_bind, wp_get, wp_onMem]
  refine (wp_mappages_range hn hv pa perm hfree).mono ?_
  rintro ⟨t, mapped⟩ m' ⟨hm, hl, henough⟩
  dsimp only at hm hl henough
  obtain ⟨hdone, hk⟩ := henough k' (h.enough.mono hk)
  simp only [hdone, Bool.not_true, Bool.false_eq_true, if_false, wp_modify]
  refine hQ _ ⟨h.moves.trans (hm.frame rest), fun w hw hout => ?_, hk, ?_⟩ rfl
  · have hout := mt (hS' w) hout
    rw [not_or] at hout
    dsimp only
    rw [hl w hw (by omega)]
    exact h.mapped w hw hout.1
  · obtain ⟨data, pipe, hs⟩ := h.same
    exact ⟨data, pipe, by rw [hs]⟩

theorem Kvm.mono {S' : Set ℕ} (h : Kvm S rest k m s) (hS : ∀ v, v ∈ S → v ∈ S') : Kvm S' rest k m s :=
  ⟨h.moves, fun v hv hout => h.mapped v hv fun hin => hout (hS v hin), h.enough, h.same⟩

/-- Where the linker puts the end of the kernel's code and of the kernel, with room for what
the kernel itself takes. -/
structure Layout (etext kend : ℕ) : Prop where
  text : kernbase < etext
  aligned : etext % pgsize = 0
  le : etext ≤ kend
  room : kend + 513 * pgsize ≤ phystop

/-- The pages of `kvminit`: below `PHYSTOP`, and the trampoline. -/
def kvmPages : Set ℕ := {v | v < 2 ^ 20 ∨ v = 2 ^ 26 - 1}

theorem wp_kvminit {etext : ℕ} (htext : kernbase < etext) (haligned : etext % pgsize = 0)
    (hstop : etext < phystop) (data : Frame → Bytes) (pipe : Page → Pipe) (hm : m.Enough (k + 161))
    {Q : Unit → Sys → Prop} (hQ : ∀ s', Kvm kvmPages 0 k m s' → Q () s') :
    Wp E (kvminit etext) { bss data pipe with mem := m } Q := by
  obtain ⟨e, rfl⟩ : ∃ e, etext = e * pgsize := ⟨etext / pgsize, (Nat.div_mul_cancel
    (Nat.dvd_of_mod_eq_zero haligned)).symm⟩
  have hlow : 2 ^ 19 < e := by
    unfold kernbase pgsize at htext
    omega
  have hhigh : e < 2 ^ 19 + 2 ^ 15 := by
    unfold phystop kernbase pgsize at hstop
    omega
  unfold kvminit
  simp only [wp_bind, wp_onMem]
  apply wp_kalloc
  · intro m' _ _ hno
    exact absurd hm (hno (k + 160))
  intro pa m₁ _ hm₁ henough
  simp only [deref_some, wp_pure, wp_modify]
  have h₀ : Kvm ∅ 0 (k + 160) m { bss data pipe with mem := m₁, kpagetable := Node.empty _ pa } := by
    refine ⟨?_, fun v hv _ => rfl, henough _ hm, data, pipe, rfl⟩
    rw [add_zero, show nodes (Node.empty _ pa) = {pa} from pages_empty _ pa]
    exact hm₁
  have hcost : tableCost (e - 2 ^ 19) + tableCost (2 ^ 19 + 2 ^ 15 - e) ≤ 136 := by
    unfold tableCost
    omega
  have hone : tableCost 1 = 4 := rfl
  have hclint : tableCost 16 = 4 := rfl
  have hplic : tableCost 1024 = 8 := rfl
  refine h₀.wp_kvmmap 0x10000 1 {w | w = 0x10000} (k + 156) rfl rfl
    (by omega) (by omega) (by omega) (fun w _ _ => Set.notMem_empty w) ?_ _ _ fun s₁ h₁ _ => ?_
  · rintro w (hw | hw)
    · exact absurd hw (Set.notMem_empty w)
    · show w = _
      omega
  refine h₁.wp_kvmmap 0x10001 1 {w | w = 0x10000 ∨ w = 0x10001}
    (k + 152) rfl rfl (by omega) (by omega) (by omega) ?_ ?_ _ _ fun s₂ h₂ _ => ?_
  · intro w hw hw' (hin : w = _)
    omega
  · rintro w ((hw : w = _) | hw)
    · exact .inl hw
    · exact .inr (by omega)
  refine h₂.wp_kvmmap 0x2000 16 {w | w < 0x2010 ∨ w = 0x10000 ∨ w = 0x10001}
    (k + 148) rfl rfl (by omega) (by omega) (by omega) ?_ ?_ _ _ fun s₃ h₃ _ => ?_
  · intro w hw hw' (hin : w = _ ∨ w = _)
    omega
  · rintro w ((hw : w = _ ∨ w = _) | hw)
    · exact .inr hw
    · exact .inl hw.2
  refine h₃.wp_kvmmap 0xc000 1024 {w | w < 2 ^ 19}
    (k + 140) rfl rfl (by omega) (by omega) (by omega) ?_ ?_ _ _ fun s₄ h₄ _ => ?_
  · intro w hw hw' (hin : w < _ ∨ w = _ ∨ w = _)
    omega
  · rintro w ((hw : w < _ ∨ w = _ ∨ w = _) | hw)
    all_goals
      show w < 2 ^ 19
      omega
  refine h₄.wp_kvmmap (2 ^ 19) (e - 2 ^ 19) {w | w < e} (k + 4 + tableCost (2 ^ 19 + 2 ^ 15 - e))
    (by decide) ?_ (by omega) (by omega) (by omega) ?_ ?_ _ _ fun s₅ h₅ _ => ?_
  · unfold kernbase pgsize
    omega
  · intro w hw hw' (hin : w < _)
    omega
  · rintro w ((hw : w < _) | hw)
    all_goals
      show w < e
      omega
  refine h₅.wp_kvmmap e (2 ^ 19 + 2 ^ 15 - e) {w | w < 2 ^ 20} (k + 4) rfl ?_
    (by omega) (by omega) (by omega) ?_ ?_ _ _ fun s₆ h₆ _ => ?_
  · unfold phystop kernbase pgsize
    omega
  · intro w hw hw' (hin : w < _)
    omega
  · rintro w ((hw : w < _) | hw)
    all_goals
      show w < 2 ^ 20
      omega
  refine h₆.wp_kvmmap (2 ^ 26 - 1) 1 kvmPages k (by decide) rfl (by omega) (by omega) (by omega)
    ?_ ?_ _ _ fun s₇ h₇ _ => hQ s₇ h₇
  · intro w hw hw' (hin : w < _)
    omega
  · rintro w ((hw : w < _) | hw)
    · exact .inl hw
    · exact .inr (by omega)

/-- The page number of a kernel stack. -/
def kstackPage (i : Fin nproc) : ℕ := 2 ^ 26 - 1 - (i.val + 1) * 2

theorem kstack_eq (i : Fin nproc) : kstack i = kstackPage i * pgsize := by
  have hi := i.isLt
  unfold kstack kstackPage trampoline maxva pgsize
  unfold nproc at hi
  omega

/-- `procinit` takes a page for each kernel stack. -/
theorem Kvm.wp_procinit (l done : List (Fin nproc)) (hl : (done ++ l).Nodup)
    (h : Kvm (kvmPages ∪ {v | ∃ j ∈ done, v = kstackPage j}) (done.map s.kstack) (k + 5 * l.length) m s)
    {Q : Unit → Sys → Prop}
    (hQ : ∀ s' S, Kvm S ((done ++ l).map s'.kstack) k m s' → Q () s') :
    Wp E (l.forM procinitSlot) s Q := by
  induction l generalizing s done with
  | nil =>
    rw [wp_forM_nil]
    apply hQ s
    rwa [List.append_nil]
  | cons i l ih =>
    have hi : i ∉ done := fun hin => by
      have := (List.nodup_append.mp hl).2.2 i hin i (by simp)
      exact this rfl
    rw [wp_forM_cons]
    unfold procinitSlot
    rw [wp_bind, wp_onMem]
    rw [List.length_cons] at h
    apply wp_kalloc
    · intro m' _ _ hno
      exact absurd (h.enough.mono (by omega)) (hno (k + 5 * l.length + 4))
    intro pa m₁ _ hm₁ henough
    have hroom : m₁.Enough (k + 5 * l.length + 4) := henough _ (h.enough.mono (by omega))
    have h₁ : Kvm (kvmPages ∪ {v | ∃ j ∈ done, v = kstackPage j}) (done.map s.kstack + {pa})
        (k + 5 * l.length + 4) m { s with mem := m₁ } := by
      obtain ⟨data, pipe, hs⟩ := h.same
      refine ⟨?_, h.mapped, hroom, data, pipe, by rw [hs]⟩
      rw [← add_assoc]
      exact h.moves.trans (hm₁.grow _)
    simp only [wp_bind]
    have hlt := i.isLt
    unfold nproc at hlt
    refine h₁.wp_kvmmap (kstackPage i) 1 (kvmPages ∪ {v | ∃ j ∈ done ++ [i], v = kstackPage j})
      (k + 5 * l.length) (kstack_eq i) (by omega) (by omega) (by unfold kstackPage; omega)
      (by unfold tableCost; omega) ?_ ?_ _ _ ?_
    · rintro w hw hw' (hin | ⟨j, hj, hin⟩)
      · rcases hin with hin | hin
        all_goals
          unfold kstackPage at hw hw'
          omega
      · have hij : j = i := by
          have hj := j.isLt
          unfold nproc at hj
          unfold kstackPage at hw hw' hin
          exact Fin.ext (by omega)
        exact hi (hij ▸ hj)
    · rintro w ((hin | ⟨j, hj, hin⟩) | hw)
      · exact .inl hin
      · exact .inr ⟨j, by simp [hj], hin⟩
      · exact .inr ⟨i, by simp, by omega⟩
    · intro s₂ h₂ hst
      rw [wp_modify]
      have hmap : done.map s.kstack = done.map (update s₂.kstack i pa) := by
        apply List.map_congr_left
        intro j hj
        rw [update_of_ne (by rintro rfl; exact hi hj), hst]
      refine ih (done ++ [i]) (by simpa using hl) ?_ (by simpa using hQ)
      obtain ⟨data, pipe, hs⟩ := h₂.same
      refine ⟨?_, h₂.mapped, h₂.enough, data, pipe, by rw [hs]⟩
      dsimp only
      rw [List.map_append, ← Multiset.coe_add, List.map_singleton, update_self, ← hmap]
      exact h₂.moves

variable {pool : Pool}

/-- The state before `userinit`: no process, no open file, and room for init. -/
structure Fresh (pool : Pool) (s : Sys) : Prop where
  proc : ∀ i, s.proc i = Proc.free
  file : ∀ f, s.file f = ⟨0, .none⟩
  pages : (s.mem.free : Multiset Page) + s.kernelPages = pool.all
  kernel : s.kernelPages = pool.kernel
  room : s.mem.Enough 7

theorem Fresh.inv (h : Fresh pool s) : Inv pool 0 s := by
  have hfds : s.fds = 0 := by
    unfold Sys.fds
    refine Finset.sum_eq_zero fun x _ => ?_
    rw [h.proc]
    rfl
  have hpipes : s.pipes = ∅ := by
    ext pi
    simp [Sys.mem_pipes, h.file]
  have hpages : ∑ i, (s.proc i).pages = 0 := Finset.sum_eq_zero fun i _ => by rw [h.proc]; rfl
  refine ⟨fun i => ?_, ?_, ?_, h.kernel⟩
  · rw [h.proc]
    exact Proc.ok_free rfl rfl rfl rfl fun _ => rfl
  · rw [hfds]
    constructor <;> simp [h.file]
  · unfold Sys.pages
    rw [hpages, hpipes, Finset.empty_val, add_zero, add_zero]
    exact h.pages

/-- The first process has one page, and seven pages are enough for it. -/
theorem wp_userinit (h : Fresh pool s) (initcode : Bytes) : Wp E (userinit initcode) s fun _ s' =>
      Inv pool 0 s' ∧ (∃ i, s'.initproc = some i ∧ (s'.proc i).state = .runnable ∧
        (∀ j, j ≠ i → (s'.proc j).state = .unused) ∧ (s'.proc i).sz = pgsize) ∧
      ∀ k, s.mem.Enough (k + 7) → s'.mem.Enough k := by
  have hm := h.room
  have hunused : ∀ i, (s.proc i).state = .unused := fun i => by rw [h.proc]; rfl
  have h := h.inv
  unfold userinit
  rw [wp_bind]
  apply wp_allocproc h
  · intro hfull
    exact absurd (hunused ⟨0, by decide⟩) (hfull ⟨0, by decide⟩)
  · intro i s' _ _ _ _ hno _
    exact absurd hm (hno 3)
  intro i pid pa t s₁ hi hc hproc hs henough _
  have hm₁ : s₁.mem.Enough 3 := henough 3 hm
  have hclosed := (h.ok i).closed (by simp [hi])
  simp only [wp_bind, wp_modify, deref_some, wp_pure, wp_get, hproc]
  unfold uvminit
  simp only [wp_bind, wp_onMem]
  apply wp_kalloc
  · intro m' _ _ hno
    exact absurd hm₁ (hno 2)
  intro mem m₂ hfree hm₂ henough₂
  have hb : m₂.free.length + 1 + (holdings t).card < 2 ^ 26 := by
    have hle := s₁.card_le i
    have hlt := pool.small
    rw [hc.pages, h.pages, hproc, Proc.pages] at hle
    simp only [Option.elim_some, Multiset.card_add, hfree, List.length_cons] at hle
    omega
  have hlt := hs.lt_userPages m₂.free hb
  have hm₂' : Mem.Moves (holdings t) (holdings t + {mem}) s₁.mem (m₂.write (.page mem) initcode) :=
    (hm₂.grow _).trans (Mem.moves_write (by simp) _)
  rw [holdings_add] at hm₂'
  simp only [deref_some, wp_pure, wp_fill]
  have hmap := hs.wp_mappages (E := E) (m := m₂.write (.page mem) initcode) hlt mem
    permRWXU trivial
  rw [Nat.zero_mul] at hmap
  refine hmap.mono ?_
  rintro ⟨t', mapped⟩ m₃ ⟨hs', hnodes, huser, -, henough₃⟩
  obtain ⟨hdone, -⟩ := henough₃ 0 (henough₂ 2 hm₁)
  dsimp only at hs' hnodes huser hdone
  rw [hdone, if_pos rfl] at hs' huser
  rw [wp_setProc]
  have hall := hm₂'.trans (hnodes.frame (user t + {mem}))
  rw [← huser, ← holdings] at hall
  have hpages : Mem.Moves (s₁.proc i).pages ({pa} + holdings t') s₁.mem m₃ := by
    have hall := hall.frame {pa}
    rw [add_comm, add_comm (holdings t')] at hall
    rw [hproc]
    exact hall
  have hc' : s.Changes i { s₁ with
      mem := m₃
      initproc := some i
      proc := update s₁.proc i { s.proc i with
        pid, trapframe := some pa, pagetable := some t', sz := pgsize, state := .runnable } } := by
    refine hc.trans ⟨?_, fun j hj => update_of_ne hj _ _, ?_, rfl, rfl, rfl, rfl⟩
    · simpa [Proc.pages] using hpages
    · simp [hproc]
  refine ⟨h.change hc' ?_, ⟨i, rfl, by simp, fun j hj => ?_, by simp⟩, fun k hk => ?_⟩
  · simp only [update_self]
    refine Proc.ok_space (t := t') (by simp) rfl rfl ?_ (by simp)
    rwa [show pgs pgsize = 0 + 1 by decide]
  · simp only [update_of_ne hj, hc.rest j hj]
    exact hunused j
  · exact (henough₃ k (henough₂ (k + 2) (henough (k + 3) hk))).2

/-- The pool of the machine, of which the kernel has `kernel`. -/
def machinePool (kend : ℕ) (kernel : Multiset Page) : Pool where
  all := poolPages kend
  kernel
  nodup := Multiset.coe_nodup.mpr List.nodup_range'
  small := by
    rw [Multiset.coe_card, poolPages, List.length_range']
    unfold phystop kernbase pgsize
    omega

theorem Kvm.fresh {kend : ℕ} {m₀ : Mem} (h : Kvm S ((List.finRange nproc).map s.kstack) 7 m s)
    (hm : Mem.Moves (poolPages kend) 0 m₀ m) (hm₀ : m₀.free = []) :
    Fresh (machinePool kend s.kernelPages) s := by
  obtain ⟨data, pipe, hs⟩ := h.same
  refine ⟨fun i => by rw [hs]; rfl, fun f => by rw [hs]; rfl, ?_, rfl, h.enough⟩
  have hall := h.moves.pages
  have hinit := hm.pages
  rw [hm₀, Multiset.coe_nil, zero_add, add_zero] at hinit
  rw [add_zero, hinit, ← sum_singleton] at hall
  exact hall

theorem wp_main {etext kend : ℕ} (h : Layout etext kend) (data : Frame → Bytes) (pipe : Page → Pipe)
    (initcode : Bytes) : Wp E (main etext kend initcode) (bss data pipe) fun _ s =>
      (∃ kernel, Inv (machinePool kend kernel) 0 s) ∧ ∃ i, s.initproc = some i ∧ (s.proc i).state = .runnable ∧
        ∀ j, j ≠ i → (s.proc j).state = .unused := by
  have hroom : 512 ≤ (phystop - pgRoundUp kend) / pgsize := by
    have := h.room
    unfold phystop kernbase pgsize at this
    unfold phystop kernbase pgRoundUp pgsize
    omega
  unfold main kinit freerange
  simp only [wp_bind, wp_onMem]
  refine (wp_freerangeLoop _ _ rfl).mono ?_
  rintro _ m ⟨hm, henough⟩
  have hstop : etext < phystop := by
    have := h.room
    have := h.le
    unfold pgsize at *
    omega
  refine wp_kvminit (k := 327) h.text h.aligned hstop data pipe (henough.mono (by omega)) fun s₁ h₁ => ?_
  have h₁ : Kvm (kvmPages ∪ {v | ∃ j ∈ ([] : List (Fin nproc)), v = kstackPage j})
      (([] : List (Fin nproc)).map s₁.kstack) (7 + 5 * (List.finRange nproc).length) m s₁ := by
    rw [List.length_finRange]
    exact h₁.mono fun v hv => .inl hv
  unfold procinit
  refine h₁.wp_procinit _ [] (by simpa using List.nodup_finRange _) fun s₂ S h₂ => ?_
  rw [List.nil_append] at h₂
  refine (wp_userinit (h₂.fresh hm rfl) initcode).mono ?_
  rintro _ s₃ ⟨h₃, ⟨i, hinit, hrun, hrest, -⟩, -⟩
  exact ⟨⟨_, h₃⟩, i, hinit, hrun, hrest⟩

end Xv6.Vm
