import Xv6.Kernel.Exec.Refine

/-! `exec` gives a process a new image, or fails and leaves it as it was. -/
namespace Xv6.Exec
open Lib Function Multiset
open Fs (Superblock CStr Handle)
open Vm (Pagetable Page Frame Elfhdr Str Exe Mem Space Pool holdings user userMem userAccess pgs tops Apart)

/-- The references are those of `H`, no inode is locked, and the log has as many calls as before. -/
structure Restored (sb : Superblock) (H : Multiset Handle) (w w' : World) : Prop where
  ok : Fs.Ok sb false ∅ H w'.fs
  fewer : Fs.Fewer (w'.fs.disk.file sb) (w.fs.disk.file sb)
  same : Fs.Settled H (w.fs.disk.file sb) → w'.fs.disk = w.fs.disk
  outstanding : w'.outstanding = w.outstanding

/-- In the middle of `exec`: inode `j`, which is `file`, is locked in entry `ip`. -/
structure Reading (sb : Superblock) (H : Multiset Handle) (ip : Fin ninode) (j : ℕ) (file : Exe) (w w' : World) : Prop where
  ok : Fs.Ok sb true (insert ip ∅) ((ip, j) ::ₘ H) w'.fs
  fewer : Fs.Fewer (w'.fs.disk.file sb) (w.fs.disk.file sb)
  same : Fs.Settled H (w.fs.disk.file sb) → w'.fs.disk = w.fs.disk
  reads : Reads w'.fs ip file
  outstanding : w'.outstanding = w.outstanding + 1

/-- The process has its image, its name and its trapframe, and the free pages are those that were free. -/
structure Failed (w w' : World) : Prop where
  sys : w'.sys = { w.sys with mem := w'.sys.mem }
  name : w'.name = w.name
  moves : Mem.Moves 0 0 w.sys.mem w'.sys.mem

/-- The program headers of a file, as `exec` takes `phoff` through an `int`. -/
def headersOf (ip : Exe) : List Vm.Proghdr := ip.headers (ip.elfhdr.phoff % 2 ^ 32) ip.elfhdr.phnum

/-- The memory of a new image: the segments, and the stack above the guard page. -/
structure Built (ip : Exe) (argv : List Str) (t : Pagetable) (sz sp : ℕ) (m : Mem) : Prop where
  size : ∃ n, sz = (n + 2) * pgsize ∧ ∀ a < sz, a / pgsize ≠ n → Vm.Accessible t a
  small : sz ≤ Vm.maxva
  fits : Vm.stackSize argv ≤ pgsize
  sp : sp = sz - Vm.stackSize argv
  loaded : Vm.AllLoaded ip (ip.elfhdr.phoff % 2 ^ 32) ip.elfhdr.phnum (fun _ => 0) ((headersOf ip).foldl ip.overlay fun _ => 0)
  mem : userMem t m = Vm.withStack ((headersOf ip).foldl ip.overlay fun _ => 0) sz argv

/-- The registers that `exec` sets. -/
def setRegs (d : Bytes) (sp entry : ℕ) : Bytes := ((d.set offA1 8 sp).set offEpc 8 entry).set offSp 8 sp

/-- Process `i` has a new table and a new name. -/
def World.replace (w : World) (i : Fin nproc) (path : CStr) (t : Pagetable) (sz : ℕ) (m : Mem) : World :=
  { w with
    sys := { w.sys with mem := m, proc := update w.sys.proc i { w.sys.proc i with pagetable := some t, sz } }
    name := update w.name i (safestrcpy (w.name i) (sizeofName - 1) 0 (lastElem path.bytes path.bytes)) }

/-- Process `i` has the image of the file `ip`. -/
structure Replaced (i : Fin nproc) (path : CStr) (argv : List CStr) (ip : Exe) (w : World) (t : Pagetable) (sz sp : ℕ)
    (w' : World) : Prop where
  sys : w'.sys = (w.replace i path t sz w'.sys.mem).sys
  name : w'.name = (w.replace i path t sz w'.sys.mem).name
  space : Space (fun _ => True) t (pgs sz) tops
  moves : Mem.Moves (w.sys.proc i).pages (w'.sys.proc i).pages w.sys.mem w'.sys.mem
  built : Built ip (argv.map str) t sz sp w'.sys.mem
  regs : ∀ pa, (w.sys.proc i).trapframe = some pa → ∃ d, w'.sys.mem.data (.page pa) = setRegs d sp ip.elfhdr.entry

section
variable {sb : Superblock} {H : Multiset Handle} {ip : Fin ninode} {j : ℕ} {w w' : World} {E : Halt → Prop}
  {i : Fin nproc} {path : CStr} {argv : List CStr} {t : Pagetable} {sz sp : ℕ} {pa : Page} {file : Exe}

theorem reads_of_live {fs : Fs.State} (h : Fs.Ok sb true (insert ip ∅) ((ip, j) ::ₘ H) fs) (hlive : fs.disk.Live sb j) :
    Reads fs ip (exeOf (fs.disk.toNode j).content) := by
  have hdin : fs.din ip = fs.disk.node j := h.din (mem_cons_self _ _) (Finset.mem_insert_self ip ∅)
  refine ⟨?_, ?_, fun k hk => ?_⟩
  · rw [hdin]
    exact h.sound.noHole j hlive
  · rw [hdin]
    exact Fs.View.length_content _ j
  · rw [hdin] at hk ⊢
    show List.getD _ k 0 = _
    rw [List.getD_eq_getElem?_getD]
    exact congrArg (Option.getD · 0) (Fs.View.getElem?_content fs.disk j hk)

theorem Reading.setMem (h : Reading sb H ip j file w w') (m : Mem) : Reading sb H ip j file w (w'.setMem m) :=
  ⟨h.ok, h.fewer, h.same, ⟨h.reads.noHole, h.reads.size, h.reads.data⟩, h.outstanding⟩

theorem wp_leave (h : Reading sb H ip j file w w') {Q : PUnit → World → Prop}
    (hQ : ∀ w'', w''.sys = w'.sys → w''.name = w'.name → Restored sb H w w'' → Q ⟨⟩ w'') :
    Wp E (onFs (Fs.iunlockput sb ip)) w' fun _ w'' => Wp E endOp w'' Q := by
  rw [wp_onFs]
  refine Fs.wp_unlockput h.ok fun fs' hfile hst hok => ?_
  rw [wp_endOp]
  refine hQ _ rfl rfl ⟨hok.endOp, ?_, fun hset => ?_, ?_⟩
  · show Fs.Fewer (fs'.disk.file sb) _
    rw [hfile]
    exact Fs.fewer_settle.trans h.fewer
  · have hd := h.same hset
    exact (hst.same (by rwa [hd])).trans hd
  show w'.outstanding - 1 = w.outstanding
  rw [h.outstanding]
  omega

theorem wp_bad (h : Reading sb H ip j file w w') {image : Option (Pagetable × ℕ)}
    (hspace : ∀ t sz, image = some (t, sz) → Space userAccess t (pgs sz) tops)
    (hsys : w'.sys = { w.sys with mem := w'.sys.mem }) (hname : w'.name = w.name)
    (hm : Mem.Moves 0 (image.elim 0 fun r => holdings r.1) w.sys.mem w'.sys.mem) :
    Wp E (bad sb image ip) w' fun r w'' => r = -1 ∧ Restored sb H w w'' ∧ Failed w w'' := by
  have hfree : ∀ m, Mem.Moves 0 0 w.sys.mem m → Wp E (onFs (Fs.iunlockput sb ip)) (w'.setMem m) fun _ w'' =>
      Wp E endOp w'' fun _ w'' => Wp E (pure (-1)) w'' fun r w'' => r = -1 ∧ Restored sb H w w'' ∧ Failed w w'' := by
    intro m hm
    refine wp_leave (h.setMem m) fun w'' hs hn hr => ?_
    rw [wp_pure]
    refine ⟨rfl, hr, ?_, hn.trans hname, ?_⟩
    · rw [hs]
      unfold World.setMem
      dsimp only
      rw [hsys]
    · rw [hs]
      exact hm
  unfold bad
  cases image with
  | none =>
    simp only [wp_bind]
    exact hfree w'.sys.mem hm
  | some r =>
    dsimp only
    simp only [wp_bind, wp_onMem]
    rw [Option.elim_some] at hm
    exact (Vm.wp_procFreepagetable (hspace r.1 r.2 rfl)).mono fun _ m hm' => hfree m (hm.trans hm')

theorem write_write (m : Mem) (f : Frame) (b b' : Bytes) : (m.write f b).write f b' = m.write f b' := by
  unfold Mem.write
  rw [update_idem]

theorem wp_commit {old : Pagetable} {entry : ℕ} (ht : (w.sys.proc i).pagetable = some old)
    (hpa : (w.sys.proc i).trapframe = some pa) (hs : Space (fun _ => True) old (pgs (w.sys.proc i).sz) tops)
    {Q : PUnit → World → Prop}
    (hQ : ∀ m, Mem.Moves (holdings old) 0
      (w.sys.mem.write (.page pa) (setRegs (w.sys.mem.data (.page pa)) sp entry)) m → Q ⟨⟩ (w.replace i path t sz m)) :
    Wp E (commit i path t sz sp entry) w Q := by
  unfold commit setReg
  simp only [wp_bind, wp_get, wp_onSys, hpa, ht, Vm.deref_some, wp_pure, wp_onMem, wp_modify, Vm.wp_setProc, World.setMem,
    write_write, Vm.Mem.write_data, update_self]
  refine (Vm.wp_procFreepagetable hs).mono fun _ m hm => ?_
  have := hQ m hm
  unfold World.replace at this
  rwa [← hpa]

theorem apart_of_moves {old t' : Pagetable} {m m' : Mem} (hnd : ((m.free : Multiset Page) + ({pa} + holdings old)).Nodup)
    (hm : Mem.Moves 0 (holdings t') m m') :
    (∀ q ∈ holdings t', q ≠ pa ∧ q ∉ (m'.free : Multiset Page) + holdings old) ∧ pa ∉ (m'.free : Multiset Page) + holdings old := by
  have hpages := hm.pages
  rw [add_zero] at hpages
  rw [← hpages, nodup_add, nodup_add, nodup_add] at hnd
  obtain ⟨⟨-, -, hfree⟩, ⟨-, -, hown⟩, hall⟩ := hnd
  have hout : ∀ q ∈ holdings t', q ∉ ({pa} : Multiset Page) + holdings old := fun q hq =>
    disjoint_left.mp hall (mem_add.mpr (.inr hq))
  refine ⟨fun q hq => ⟨?_, fun hmem => ?_⟩, fun hmem => ?_⟩
  · rintro rfl
    exact hout q hq (mem_add.mpr (.inl (mem_singleton_self q)))
  · rcases mem_add.mp hmem with hmem | hmem
    · exact disjoint_left.mp hfree hmem hq
    · exact hout q hq (mem_add.mpr (.inr hmem))
  · rcases mem_add.mp hmem with hmem | hmem
    · exact disjoint_left.mp hall (mem_add.mpr (.inl hmem))
        (mem_add.mpr (.inl (mem_singleton_self pa)))
    · exact disjoint_left.mp hown (mem_singleton_self pa) hmem

/-- The file system is as it was, and the process has the image of the file, or has its own. -/
def Outcome (sb : Superblock) (H : Multiset Handle) (i : Fin nproc) (path : CStr) (argv : List CStr) (ip : Exe) (w : World)
    (r : ℤ) (w' : World) : Prop :=
  Restored sb H w w' ∧ (r = -1 ∧ Failed w w' ∨ r = argv.length ∧ ∃ t sz sp, Replaced i path argv ip w t sz sp w')

variable {pool : Pool} {held : Multiset (Fin nfile)}

theorem wp_finish (hI : Vm.Inv pool held w.sys) (hi : (w.sys.proc i).state ≠ .unused) (h : Reading sb H ip j file w w')
    (hsys : w'.sys = { w.sys with mem := w'.sys.mem }) (hname : w'.name = w.name)
    (hspace : Space userAccess t (pgs sz) tops) (hm : Mem.Moves 0 (holdings t) w.sys.mem w'.sys.mem)
    (hload : Vm.AllLoaded file (file.elfhdr.phoff % 2 ^ 32) file.elfhdr.phnum (fun _ => 0) (userMem t w'.sys.mem)) :
    Wp E (finish sb i path argv ip t sz file.elfhdr.entry) w' (Outcome sb H i path argv file w) := by
  obtain ⟨old, pa, ht, hpa, hs, hpages⟩ := hI.exists_table hi
  have hproc : w'.sys.proc = w.sys.proc := by rw [hsys]
  have hnd := hI.nodup_own i
  have hcard : w'.sys.mem.free.length + (holdings t).card < 2 ^ 26 := by
    have h₁ := hI.card_lt i
    have h₂ := hm.card
    rw [Multiset.card_zero] at h₂
    omega
  unfold finish
  simp only [wp_bind]
  refine wp_leave h fun w₂ hs₂ hn₂ hr₂ => ?_
  have hproc₂ : w₂.sys.proc i = w.sys.proc i := by rw [hs₂, hproc]
  rw [wp_onMem, hs₂]
  refine Vm.wp_buildStack hspace (argv.map str) hcard (fun m₂ hm₂ => ?_) fun t' sz' argc sp m₂ hs' hm₂ hbuilt => ?_
  · rw [wp_pure]
    refine ⟨⟨hr₂.ok, hr₂.fewer, hr₂.same, hr₂.outstanding⟩, .inl ⟨rfl, ?_, hn₂.trans hname, hm.trans hm₂⟩⟩
    unfold World.setMem
    dsimp only
    rw [hs₂, hsys]
  · have hm₂ := hm.trans hm₂
    rw [wp_bind]
    refine wp_commit (hproc₂ ▸ ht) (hproc₂ ▸ hpa) (by rw [show (w₂.setMem m₂).sys.proc i = _ from hproc₂]; exact hs)
      fun m₃ hm₃ => ?_
    rw [wp_pure]
    rw [hpages] at hnd
    obtain ⟨hnew, hown⟩ := apart_of_moves hnd hm₂
    have hdata : ∀ q, q ∉ (m₂.free : Multiset Page) + holdings old →
        m₃.data (.page q) = (m₂.write (.page pa) (setRegs (m₂.data (.page pa)) sp file.elfhdr.entry)).data (.page q) := by
      intro q hq
      refine hm₃.data _ fun pa' hpa' heq => hq ?_
      rw [Frame.page.inj heq]
      exact hpa'
    have hmem : userMem t' m₃ = userMem t' m₂ := by
      refine hs'.userMem_congr fun q hq => ?_
      obtain ⟨hne, hout⟩ := hnew q (mem_add.mpr (.inr hq))
      rw [hdata q hout]
      exact update_of_ne (fun heq => hne (Frame.page.inj heq)) _ _
    have hap : Apart t w'.sys.mem := hm.nodup (by
      rw [add_zero]
      exact (nodup_add.mp hnd).1)
    obtain ⟨hsize, hsmall, hfits, hargc, hsp, hstack⟩ := hbuilt hap
    rw [hload.mem] at hstack
    refine ⟨⟨hr₂.ok, hr₂.fewer, hr₂.same, hr₂.outstanding⟩, .inr ⟨by rw [hargc, List.length_map], t', sz', sp, ?_⟩⟩
    refine ⟨?_, ?_, hs', ?_, ⟨hsize, hsmall, hfits, hsp, ⟨hload.headers, hload.segments, rfl⟩, ?_⟩, fun pa' hpa' => ?_⟩
    · unfold World.replace World.setMem
      dsimp only
      rw [hs₂, hsys]
    · unfold World.replace World.setMem
      dsimp only
      rw [hn₂, hname]
    · -- the old table is freed when the new one has its pages
      have hpages' : (((w₂.setMem m₂).replace i path t' sz' m₃).sys.proc i).pages = {pa} + holdings t' := by
        unfold World.replace World.setMem
        dsimp only
        rw [update_self, Vm.Proc.pages, hproc₂, hpa]
        rfl
      have hgrow := hm₂.grow ({pa} + holdings old)
      have hwrite : Mem.Moves ({pa} + holdings old + holdings t') ({pa} + holdings old + holdings t') m₂
          (m₂.write (.page pa) (setRegs (m₂.data (.page pa)) sp file.elfhdr.entry)) := by
        refine Mem.moves_write ?_ _
        rw [add_assoc]
        exact mem_add.mpr (.inl (mem_singleton_self pa))
      have hshrink := hm₃.shrink ({pa} + holdings t')
      rw [add_right_comm] at hshrink
      rw [hpages, hpages']
      exact (hgrow.trans hwrite).trans hshrink
    · exact hmem.trans hstack
    · rw [hpa] at hpa'
      obtain rfl := Option.some.inj hpa'
      exact ⟨m₂.data (.page pa), (hdata pa hown).trans (update_self _ _ _)⟩

theorem decode_elf (ip : Exe) : Elfhdr.decode (Bytes.blit (fun _ => 0) 0 Vm.sizeofElfhdr fun k => ip.data (0 + k)) = ip.elfhdr := by
  have hget : ∀ o n, o + n ≤ Vm.sizeofElfhdr →
      Bytes.get (Bytes.blit (fun _ => 0) 0 Vm.sizeofElfhdr fun k => ip.data (0 + k)) o n = ip.data.get o n := by
    intro o n hle
    refine Bytes.get_congr fun k _ hk => ?_
    rw [Bytes.blit, if_pos (by omega), Nat.sub_zero, Nat.zero_add]
  unfold Exe.elfhdr Elfhdr.decode
  rw [hget 0 4 (by decide), hget 24 8 (by decide), hget 32 8 (by decide), hget 56 2 (by decide)]

theorem wp_execLocked (hI : Vm.Inv pool held w.sys) (hi : (w.sys.proc i).state ≠ .unused) (h : Reading sb H ip j file w w')
    (hsys : w'.sys = w.sys) (hname : w'.name = w.name) :
    Wp E (execLocked sb i path argv ip) w' (Outcome sb H i path argv file w) := by
  obtain ⟨fs, sys, name, outstanding⟩ := w'
  obtain rfl : sys = w.sys := hsys
  obtain rfl : name = w.name := hname
  obtain ⟨old, pa, -, hpa, -, -⟩ := hI.exists_table hi
  have hnd := (nodup_add.mp (hI.nodup_own i)).1
  have hfree : ∀ {m : Mem} {t : Pagetable}, Mem.Moves 0 (holdings t) w.sys.mem m →
      m.free.length + (holdings t).card < 2 ^ 26 ∧ Apart t m := by
    intro m t hm
    have h₁ := hI.card_lt i
    have h₂ := hm.card
    rw [Multiset.card_zero] at h₂
    exact ⟨by omega, hm.nodup (by rwa [add_zero])⟩
  have hbad : ∀ m (image : Option (Pagetable × ℕ)), (∀ t sz, image = some (t, sz) → Space userAccess t (pgs sz) tops) →
      Mem.Moves 0 (image.elim 0 fun r => holdings r.1) w.sys.mem m →
      Wp E (bad sb image ip) (World.setMem ⟨fs, w.sys, w.name, outstanding⟩ m) (Outcome sb H i path argv file w) := by
    intro m image himage hm
    exact (wp_bad (h.setMem m) himage rfl rfl hm).mono fun r w'' hr => ⟨hr.2.1, .inl ⟨hr.1, hr.2.2⟩⟩
  have hnone : Wp E (bad sb none ip) ⟨fs, w.sys, w.name, outstanding⟩ (Outcome sb H i path argv file w) :=
    hbad w.sys.mem none (fun _ _ heq => by cases heq) (.refl 0 _)
  unfold execLocked
  rw [wp_bind, wp_onFs, wp_readi h.reads (by norm_num) (by decide)]
  dsimp only
  by_cases hcount : file.readi 0 Vm.sizeofElfhdr ≠ Vm.sizeofElfhdr
  · rw [if_pos hcount]
    exact hnone
  rw [if_neg hcount, not_not.mp hcount, decode_elf]
  by_cases hmagic : file.elfhdr.magic ≠ Vm.elfMagic
  · rw [if_pos hmagic]
    exact hnone
  rw [if_neg hmagic]
  simp only [wp_bind, wp_get, wp_onSys, wp_onMem, hpa, Vm.deref_some, wp_pure]
  refine Vm.wp_procPagetable userAccess pa (fun m hm _ => ?_) fun t₀ m₀ hs₀ hm₀ _ => ?_
  · exact hbad m none (fun _ _ heq => by cases heq) hm
  obtain ⟨hcard, hap⟩ := hfree hm₀
  dsimp only
  rw [wp_bind, wp_loadLoop (h.setMem m₀).reads _ (Nat.mod_lt _ (by norm_num))]
  refine (Vm.wp_loadLoop file hs₀ hcard).mono ?_
  rintro ⟨t₁, sz, loaded⟩ m₁ ⟨⟨hs₁, hm₁⟩, hall⟩
  dsimp only at hs₁ hm₁ hall ⊢
  replace hm₁ := hm₀.trans hm₁
  rw [World.setMem_setMem]
  cases loaded with
  | false =>
    rw [Bool.not_false, if_pos rfl]
    refine hbad m₁ (some (t₁, sz)) (fun t sz' heq => ?_) (by rwa [Option.elim_some])
    obtain ⟨rfl, rfl⟩ := Prod.mk.inj (Option.some.inj heq)
    exact hs₁
  | true =>
    have hall := hall hap rfl
    rw [show userMem t₀ m₀ = _ from Vm.userMem_empty hs₀] at hall
    rw [Bool.not_true, if_neg Bool.false_ne_true]
    exact wp_finish hI hi (h.setMem m₁) rfl rfl hs₁ hm₁ hall

theorem wp_exec {cwd : Fin ninode} {jc : ℕ} (h : Fs.Calling sb false H cwd jc w.fs) (hE : ¬ Fs.Spare H → E (.panic .igetNoInodes))
    (hE' : ¬ Fs.Clear H (w.fs.disk.file sb) jc → E (.panic .ilockNoType)) (hI : Vm.Inv pool held w.sys)
    (hi : (w.sys.proc i).state ≠ .unused) :
    Wp E (exec sb i cwd path argv) w fun r w' =>
      (r = -1 ∧ Restored sb H w w' ∧ Failed w w') ∨
      ∃ j f, Fs.walk (w.fs.disk.file sb) (Fs.startOf jc path.bytes) (Fs.keys path.bytes) = some j ∧
        w.fs.disk.file sb j = some f ∧ Outcome sb H i path argv (exeOf f.content) w r w' := by
  unfold exec
  rw [wp_bind, wp_beginOp, wp_bind, wp_onFs]
  refine Fs.wp_namei h.beginOp path.noNul hE hE' fun r fs₁ hr => ?_
  rw [← Fs.resolve_eq_walk]
  cases ho : r.1 with
  | none =>
    obtain ⟨hok, -⟩ := hr.none ho
    dsimp only
    rw [wp_bind, wp_endOp, wp_pure]
    refine .inl ⟨rfl, ⟨hok.endOp, hr.fewer, hr.same, ?_⟩, rfl, rfl, .refl 0 _⟩
    show w.outstanding + 1 - 1 = w.outstanding
    omega
  | some ip =>
    dsimp only
    rw [wp_bind, wp_onFs]
    refine Fs.wp_ilock_found hr ho hE' fun j fs₂ hres hd₂ hlive _ hok₂ => ?_
    rw [← hd₂] at hlive
    have hfewer : Fs.Fewer (fs₂.disk.file sb) (w.fs.disk.file sb) := hd₂ ▸ hr.fewer
    have hread : Reading sb H ip j (exeOf (fs₂.disk.toNode j).content) w
        { w with fs := fs₂, outstanding := w.outstanding + 1 } :=
      ⟨hok₂, hfewer, fun hset => hd₂.trans (hr.same hset), reads_of_live hok₂ hlive, rfl⟩
    exact (wp_execLocked hI hi hread rfl rfl).mono fun r w' hr =>
      .inr ⟨j, fs₂.disk.toNode j, hres, hfewer j _ (Fs.View.file_of_live hlive), hr⟩

end

end Xv6.Exec
