import Xv6.Kernel.Fs.Descriptor

/-! The calls that take a path: what they leave when they fail, and which actions they are made of when
they succeed. -/
namespace Xv6.Fs
open Lib Function Multiset

section
variable {sb : Superblock} {short : ShortInt} {H : Multiset Handle} {fs fs' : State} {i ip cwd : Fin ninode} {j jc omode : ℕ}
  {E : Halt → Prop}

/-- What `sys_open` knows of the inode it has found or made. -/
structure Opened (sb : Superblock) (short : ShortInt) (H : Multiset Handle) (omode : ℕ) (fs : State)
    (r : Option (Fin ninode)) (fs' : State) : Prop where
  shift : Shift sb H fs fs'
  none : r = none → Ok sb true ∅ H fs' ∧ (Settled H (fs.disk.file sb) → fs'.disk = fs.disk)
  some : ∀ ip, r = some ip → ∃ j, Ok sb true (insert ip ∅) ((ip, j) ::ₘ H) fs' ∧
    (omode ≠ 0 → (fs'.disk.node j).type ≠ .dir) ∧
    (Settled H (fs.disk.file sb) → fs'.disk = fs.disk ∨ omode &&& oCreate ≠ 0 ∧ (fs'.disk.node j).type = .file ∧
      Action short ⟨H, fs.disk.file sb⟩ ⟨(ip, j) ::ₘ H, fs'.disk.file sb⟩)

theorem Made.node {type : FileType} {major minor : ℤ} (h : Made sb short H type major minor fs j fs')
    (hok : Ok sb true (insert ip ∅) ((ip, j) ::ₘ H) fs') : fs'.disk = fs.disk ∧ type = .file ∨
      (fs'.disk.node j).type = type ∧ (type ≠ .free → Action short ⟨H, fs.disk.file sb⟩ ⟨(ip, j) ::ₘ H, fs'.disk.file sb⟩) := by
  rcases h with hsame | ⟨d, g, name, c₀, c, hc, hF⟩
  · exact .inl hsame
  · have hjd : j ≠ d := fun hjd => by
      have := hc.fresh
      rw [hjd, hc.parent] at this
      cases this
    refine .inr ⟨?_, fun hty => ?_⟩
    · have hnode := hok.file (mem_cons_self _ _) (Finset.mem_insert_self _ _)
      rw [hF, settle_of_ne hjd, created, setContent_of_ne hjd] at hnode
      have hgrow : grow short (update (fs.disk.file sb) j (some (newNode short type major minor c₀))) d type j =
          some (newNode short type major minor c₀) := by
        unfold grow
        split_ifs
        · rw [relink_of_ne hjd, update_self]
        · rw [update_self]
      rw [hgrow] at hnode
      exact (congrArg Node.type (Option.some.inj hnode)).symm
    · rw [hF]
      exact .create ip hty hc

theorem wp_openInode {path : List UInt8} (h : Calling sb true H cwd jc fs) (hz : 0 ∉ path) (hE : ∀ e, Fault e → E e)
    (hE' : ¬ Clear H (fs.disk.file sb) jc → E (.panic .ilockNoType)) :
    Wp E (openInode sb short cwd path omode) fs (Opened sb short H omode fs) := by
  unfold openInode
  by_cases hc : omode &&& oCreate ≠ 0
  · rw [if_pos hc]
    refine (wp_create h hz (by decide) hE hE').mono fun r fs' hr => ⟨⟨hr.changes, hr.keeps⟩, hr.none, fun ip hip => ?_⟩
    obtain ⟨j, hok, hdir, hmade⟩ := hr.some ip hip
    refine ⟨j, hok, fun _ => hdir rfl, fun hset => ?_⟩
    rcases (hmade hset).node hok with hsame | ⟨hty, hact⟩
    · exact .inl hsame.1
    · exact .inr ⟨hc, hty, hact (by decide)⟩
  · rw [if_neg hc, wp_bind]
    refine wp_namei h hz (fun _ => hE _ (.inr ⟨_, by simp, rfl⟩)) hE' fun r s₁ hr => ?_
    cases ho : r.1 with
    | none =>
      dsimp only
      rw [wp_pure]
      exact ⟨⟨hr.changes, hr.keeps⟩, fun _ => ⟨(hr.none ho).1, hr.same⟩, fun ip hip => (Option.some_ne_none _ hip.symm).elim⟩
    | some ip =>
      dsimp only
      rw [wp_bind]
      refine wp_ilock_found hr ho hE' fun j s₂ _ hd₂ _ hk₂ hok₂ => ?_
      have hst₂ : Still sb H fs s₂ := hr.still.trans (.of_disk hd₂ hk₂)
      rw [wp_bind, wp_get, hok₂.din (mem_cons_self _ _) (Finset.mem_insert_self ip ∅)]
      by_cases hdir : (s₂.disk.node j).type = .dir ∧ omode ≠ 0
      · rw [if_pos hdir, wp_bind]
        refine wp_unlockput hok₂ fun s₃ _ hst₃ hok₃ => ?_
        rw [wp_pure]
        have hst := hst₂.trans hst₃
        exact ⟨⟨hst.changes, hst.keeps⟩, fun _ => ⟨hok₃, hst.same⟩, fun ip hip => (Option.some_ne_none _ hip.symm).elim⟩
      · rw [if_neg hdir, wp_pure]
        refine ⟨⟨hst₂.changes, hst₂.keeps⟩, fun hn => (Option.some_ne_none _ hn).elim, fun ip' hip' => ?_⟩
        obtain rfl := Option.some.inj hip'
        exact ⟨j, hok₂, fun h0 hd => hdir ⟨hd, h0⟩, fun hset => .inl (hst₂.same hset)⟩

theorem wp_makeNode {path : Option (List UInt8)} {type : FileType} {major minor : ℤ} (h : Calling sb false H cwd jc fs)
    (hz : ∀ p ∈ path, 0 ∉ p) (hty : type ≠ .free) (hfile : type ≠ .file) (hE : ∀ e, Fault e → E e)
    (hE' : ¬ Clear H (fs.disk.file sb) jc → E (.panic .ilockNoType)) :
    Wp E (makeNode sb short cwd path type major minor) fs fun r fs' => Done sb H fs fs' ∧
      (Settled H (fs.disk.file sb) → r = -1 ∧ fs'.disk = fs.disk ∨
        r = 0 ∧ Actions short ⟨H, fs.disk.file sb⟩ ⟨H, fs'.disk.file sb⟩) := by
  unfold makeNode
  rw [wp_bind, beginOp, wp_modify]
  cases path with
  | none =>
    dsimp only
    rw [wp_bind, endOp, wp_modify, wp_pure]
    exact ⟨⟨h.beginOp.ok.endOp, .refl, .refl H fs⟩, fun _ => .inl ⟨rfl, rfl⟩⟩
  | some path =>
    dsimp only
    rw [wp_bind]
    refine (wp_create h.beginOp (hz path rfl) hty hE hE').mono fun r s₁ hr => ?_
    have hc₁ : Changes sb H (fs.disk.file sb) (s₁.disk.file sb) := hr.changes
    have hk₁ : Keeps H fs s₁ := hr.keeps
    cases r with
    | none =>
      obtain ⟨hok₁, hsame⟩ := hr.none rfl
      dsimp only
      rw [wp_bind, endOp, wp_modify, wp_pure]
      exact ⟨⟨hok₁.endOp, hc₁, hk₁⟩, fun hset => .inl ⟨rfl, hsame hset⟩⟩
    | some ip =>
      obtain ⟨j, hok₁, -, hmade⟩ := hr.some ip rfl
      dsimp only
      rw [wp_bind]
      refine wp_unlockput hok₁ fun s₂ hf₂ hst₂ hok₂ => ?_
      rw [wp_bind, endOp, wp_modify, wp_pure]
      refine ⟨⟨hok₂.endOp, hc₁.trans hst₂.changes, hk₁.trans hst₂.keeps⟩, fun hset => .inr ⟨rfl, ?_⟩⟩
      show Actions short _ ⟨H, s₂.disk.file sb⟩
      rw [hf₂]
      rcases (hmade hset).node hok₁ with ⟨-, hf⟩ | ⟨-, hact⟩
      · exact absurd hf hfile
      · exact .tail (.single (hact hty)) .drop

theorem wp_execInode {path : List UInt8} {reads : List (ℕ × ℕ)} (h : Calling sb false H cwd jc fs) (hz : 0 ∉ path)
    (hE : ∀ e, Fault e → E e) (hE' : ¬ Clear H (fs.disk.file sb) jc → E (.panic .ilockNoType)) :
    Wp E (execInode sb cwd path reads) fs fun _ fs' => Done sb H fs fs' ∧
      (Settled H (fs.disk.file sb) → fs'.disk = fs.disk) := by
  unfold execInode
  rw [wp_bind, beginOp, wp_modify, wp_bind]
  refine wp_namei h.beginOp hz (fun _ => hE _ (.inr ⟨_, by simp, rfl⟩)) hE' fun r s₁ hr => ?_
  have hst₁ : Still sb H fs s₁ := ⟨hr.changes, hr.same, hr.keeps⟩
  cases ho : r.1 with
  | none =>
    dsimp only
    rw [wp_bind, endOp, wp_modify, wp_pure]
    exact ⟨hst₁.done (hr.none ho).1, hst₁.same⟩
  | some ip =>
    dsimp only
    rw [wp_bind]
    refine wp_ilock_found hr ho hE' fun j s₂ _ hd₂ hlive hk₂ hok₂ => ?_
    have hhole : (s₂.din ip).NoHole s₂.data := by
      rw [hok₂.din (mem_cons_self _ _) (Finset.mem_insert_self ip ∅)]
      exact hok₂.sound.noHole j (by rwa [hd₂])
    rw [wp_bind]
    refine Wp.mono (wp_forM_inv (I := fun s => s = s₂) (fun r s hs => ?_) rfl) fun _ s₃ hs₃ => ?_
    · subst hs
      rw [wp_bind]
      refine (wp_readi (Nat.mod_lt _ (by decide)) hhole).imp (fun _ he => he.elim) fun r s' hs' => ?_
      rw [wp_pure]
      exact hs'.1
    · subst hs₃
      rw [wp_bind]
      refine wp_unlockput hok₂ fun s₄ _ hst₄ hok₄ => ?_
      rw [wp_bind, endOp, wp_modify, wp_pure]
      have hst := (hst₁.trans (.of_disk hd₂ hk₂)).trans hst₄
      exact ⟨hst.done hok₄, hst.same⟩

end

section
variable {sb : Superblock} {short : ShortInt} {s s' : Sys} {fs fs' : State} {p : Fin nproc} {f : Fin nfile}
  {i ip cwd : Fin ninode} {j jc omode : ℕ} {E : Halt → Prop}

theorem wp_filealloc {Q : Option (Fin nfile) → Sys → Prop} (hnone : (∀ f, (s.file f).ref ≠ 0) → Q none s)
    (hsome : ∀ f, (s.file f).ref = 0 →
      Q (some f) { s with file := update s.file f { s.file f with ref := 1 } }) : Wp E filealloc s Q := by
  unfold filealloc
  rw [wp_bind, wp_get]
  cases hf : (List.finRange nfile).find? fun f => (s.file f).ref = 0 with
  | none =>
    dsimp only
    rw [wp_pure]
    refine hnone fun f h0 => ?_
    have := List.find?_eq_none.mp hf f (List.mem_finRange f)
    simp [h0] at this
  | some f =>
    dsimp only
    rw [wp_bind, wp_setFile, wp_pure]
    exact hsome f (by simpa using List.find?_some hf)

theorem wp_fileclose_new {Q : PUnit → Sys → Prop} {file : Fin nfile → File} (hr : (file f).ref = 0) (ht : (file f).type = .none)
    (hs : s.file = update file f { file f with ref := 1 }) (hQ : Q ⟨⟩ { s with file := file }) :
    Wp E (fileclose sb f) s Q := by
  have hf : s.file f = { file f with ref := 1 } := by rw [hs, update_self]
  have href : (s.file f).ref = 1 := by rw [hf]
  have htype : (s.file f).type = .none := by rw [hf]; exact ht
  unfold fileclose
  rw [wp_bind, wp_get]
  dsimp only
  rw [if_neg (by rw [href]; decide), if_neg (by rw [href]; decide), wp_bind, wp_setFile, if_neg (by simp [htype]), wp_pure]
  have hback : update s.file f { s.file f with ref := 0, type := .none } = file := by
    rw [hf, hs, update_idem]
    have hsame : ({ file f with ref := 0, type := .none } : File) = file f := by
      cases hff : file f
      simp [hff] at hr ht
      simp [hr, ht]
    exact hsame ▸ update_eq_self f file
  rw [hback]
  exact hQ

/-- In the middle of `sys_open`: the inode `j` is locked in entry `ip`. -/
structure Opening (sb : Superblock) (short : ShortInt) (s : Sys) (ip : Fin ninode) (j : ℕ) (fs : State) : Prop where
  shift : Shift sb s.holders s.fs fs
  ok : Ok sb true (insert ip ∅) ((ip, j) ::ₘ s.holders) fs
  acts : Tidy short (s.ns sb) → Actions short (s.ns sb) ⟨(ip, j) ::ₘ s.holders, fs.disk.file sb⟩

/-- The tables are as they were. -/
structure Failed (sb : Superblock) (short : ShortInt) (s s' : Sys) : Prop where
  moves : Moves sb short s s'
  file : s'.file = s.file
  proc : s'.proc = s.proc
  holders : s'.holders = s.holders

theorem wp_openBad (h : Inv sb s) (ho : Opening sb short s ip j fs) :
    Wp E (openBad sb ip) { s with fs := fs } fun r s' => r = -1 ∧ Failed sb short s s' ∧
      (Settled s.holders (fs.disk.file sb) → s'.fs.disk = fs.disk) := by
  unfold openBad
  rw [wp_bind, wp_onFs]
  refine wp_unlockput ho.ok fun fs₁ hf₁ hst hok₁ => ?_
  rw [wp_bind, wp_onFs, endOp, wp_modify, wp_pure]
  obtain ⟨hI, hH⟩ := @Inv.done sb s fs₁.endOp h
    ⟨hok₁.endOp, ho.shift.changes.trans hst.changes, ho.shift.keeps.trans hst.keeps⟩
  refine ⟨rfl, ⟨⟨hI, fun hset => ?_⟩, rfl, rfl, hH⟩, hst.same⟩
  have hF : Sys.files sb { s with fs := fs₁.endOp } = settle s.holders j (fs.disk.file sb) := hf₁
  unfold Sys.ns at *
  rw [hH, hF]
  exact (ho.acts hset).tail .drop

/-- There is an entry for another open file, and a descriptor for it. -/
def Room (s : Sys) (p : Fin nproc) : Prop := (∃ f, (s.file f).ref = 0) ∧ ∃ fd, (s.proc p).ofile fd = none

/-- What `sys_open` does. -/
structure OpenPost (sb : Superblock) (short : ShortInt) (p : Fin nproc) (omode : ℕ) (s : Sys) (r : ℤ) (s' : Sys) : Prop where
  moves : Moves sb short s s'
  failed : r = -1 → Failed sb short s s' ∧ (Settled s.holders (s.files sb) → omode &&& oCreate = 0 ∨ Room s p →
    s'.fs.disk = s.fs.disk)

/-- The end of `sys_open`: the open file is set up. -/
theorem wp_openDone {Q : ℤ → Sys → Prop} {fd : Fin nofile} {type : FileType} (h : Inv sb s) (ho : Opening sb short s ip j fs)
    (htype : type = (fs.disk.node j).type) (hdir : omode ≠ 0 → type ≠ .dir) (hr : (s.file f).ref = 0) {q : Proc}
    (hq : q.cwd = (s.proc p).cwd) {g : File} (hg : g.ref = 1) (hgt : g.type = if type = .device then .device else .inode)
    (hgi : g.ip = ip) (hgw : g.writable = true → omode ≠ 0)
    (hQ : ∀ s', Moves sb short s s' → Q fd.val s') :
    Wp E (do
      if omode &&& oTrunc ≠ 0 ∧ type = .file then onFs (itrunc sb ip)
      onFs (iunlock ip)
      onFs endOp
      return (fd.val : ℤ)) { s with fs := fs, proc := update s.proc p q, file := update s.file f g } Q := by
  have hself : (ip, j) ∈ (ip, j) ::ₘ s.holders := mem_cons_self _ _
  have hi : ip ∈ insert ip (∅ : Finset (Fin ninode)) := Finset.mem_insert_self ip ∅
  have hlive : fs.disk.Live sb j := ho.ok.live hself (ho.ok.valid hi)
  -- the references are one more
  have hent : ({ s with fs := fs, proc := update s.proc p q, file := update s.file f g } : Sys).entries =
      ip ::ₘ s.entries := by
    have h₁ := entries_setProc s p q
    have hqe : q.entry = (s.proc p).entry := by
      unfold Proc.entry
      rw [hq]
    rw [hqe] at h₁
    have h₂ := entries_update { s with proc := update s.proc p q } f g
    have hold : (s.file f).entry = 0 := if_neg (by simp [h.idle f hr])
    have hty : g.type = .inode ∨ g.type = .device := by
      rw [hgt]
      split_ifs
      · exact .inr rfl
      · exact .inl rfl
    have hnew : g.entry = {ip} := by rw [File.entry, if_pos hty, hgi]
    rw [add_right_cancel h₁, hnew] at h₂
    change _ + (s.file f).entry = _ at h₂
    rw [hold, add_zero, add_comm, singleton_add] at h₂
    exact h₂
  have hidle := @idle_setFile sb s f h g fun h0 => by rw [hg] at h0; cases h0
  -- what is left to do keeps the inode
  have hend : ∀ fs₁ : State, Shift sb s.holders s.fs fs₁ → Ok sb true (insert ip ∅) ((ip, j) ::ₘ s.holders) fs₁ →
      (fs₁.disk.node j).type = type →
      (Tidy short (s.ns sb) → Actions short (s.ns sb) ⟨(ip, j) ::ₘ s.holders, fs₁.disk.file sb⟩) →
      Wp E (do
        onFs (iunlock ip)
        onFs endOp
        return (fd.val : ℤ))
        { s with fs := fs₁, proc := update s.proc p q, file := update s.file f g } Q := by
    intro fs₁ hsh hok₁ hty hacts
    rw [wp_bind, wp_onFs]
    refine wp_iunlock_ok hok₁ hi fun fs₂ hd₂ hv₂ hk₂ hok₂ => ?_
    rw [wp_bind, wp_onFs, endOp, wp_modify, wp_pure]
    set s₂ : Sys := { s with
      fs := fs₂.endOp, proc := update s.proc p q, file := update s.file f g } with hs₂
    have hfiles : ∀ k, (s₂.file k).type = .inode → (s₂.file k).writable = true → s₂.file k = s.file k ∨
        (s₂.file k).ip = ip ∧ (s₂.fs.disk.node j).type ≠ .dir := by
      intro k _ hkw
      by_cases hkf : k = f
      · subst hkf
        have hfile : s₂.file k = g := update_self _ _ _
        rw [hfile] at hkw ⊢
        refine .inr ⟨hgi, ?_⟩
        show (fs₂.disk.node j).type ≠ .dir
        rw [hd₂, hty]
        exact hdir (hgw hkw)
      · exact .inl (update_of_ne hkf _ _)
    obtain ⟨hI, hH⟩ := @Inv.more sb s s₂ ip j h hent hok₂.unlock_only.endOp
      ⟨by show Changes sb _ _ (fs₂.disk.file sb); rw [hd₂]; exact hsh.changes,
        hsh.keeps.trans (hk₂.mono (subset_cons _ _))⟩ hv₂ hidle hfiles
    refine hQ _ ⟨hI, fun hset => ?_⟩
    have hF : s₂.files sb = fs₁.disk.file sb := by
      show fs₂.disk.file sb = _
      rw [hd₂]
    have := hacts hset
    unfold Sys.ns at this ⊢
    rw [hH, hF]
    exact this
  by_cases htr : omode &&& oTrunc ≠ 0 ∧ type = .file
  · rw [if_pos htr, wp_bind, wp_onFs]
    refine wp_itrunc_ok ho.ok hself hi fun fs₁ hk₁ hok₁ hf₁ => ?_
    have hnd : (fs.disk.node j).type ≠ .dir := by
      rw [← htype, htr.2]
      decide
    have hset : fs₁.disk.file sb = setContent (fs.disk.file sb) j [] := by rw [hf₁, ho.ok.setContent_eq hself hi]
    refine hend fs₁ (ho.shift.trans ⟨?_, hk₁.mono (subset_cons _ _)⟩) hok₁ ?_ fun hs => ?_
    · rw [hf₁]
      exact .single (.data (View.file_of_live hlive) hnd)
    · have hnode := hok₁.file hself hi
      rw [hf₁, update_self] at hnode
      exact (congrArg Node.type (Option.some.inj hnode)).symm.trans htype.symm
    · rw [hset]
      exact (ho.acts hs).tail (.write [] (View.file_of_live hlive) hnd)
  · rw [if_neg htr]
    exact hend fs ho.shift ho.ok htype.symm ho.acts

theorem wp_openFile (h : Inv sb s) (ho : Opening sb short s ip j fs) (hdir : omode ≠ 0 → (fs.disk.node j).type ≠ .dir)
    (hdisk : Settled s.holders (s.files sb) → fs.disk = s.fs.disk ∨ omode &&& oCreate ≠ 0) :
    Wp E (openFile sb p ip omode) { s with fs := fs } (OpenPost sb short p omode s) := by
  -- without a place for the open file
  have hbad : ¬ Room s p → Wp E (openBad sb ip) { s with fs := fs } (OpenPost sb short p omode s) := fun hroom => by
    refine (wp_openBad h ho).mono fun r s' ⟨_, hf, hsame⟩ => ⟨hf.moves, fun _ => ⟨hf, fun hset hcond => ?_⟩⟩
    rcases hcond with h0 | hr
    · rcases hdisk hset with heq | hne
      · rw [heq] at hsame
        exact hsame hset
      · exact absurd h0 hne
    · exact absurd hr hroom
  have hself : (ip, j) ∈ (ip, j) ::ₘ s.holders := mem_cons_self _ _
  have hi : ip ∈ insert ip (∅ : Finset (Fin ninode)) := Finset.mem_insert_self ip ∅
  unfold openFile
  rw [wp_bind]
  refine wp_filealloc (fun hfull => ?_) fun f hr => ?_
  · exact hbad fun hroom => by
      obtain ⟨f, hf⟩ := hroom.1
      exact hfull f hf
  dsimp only
  rw [wp_bind]
  refine wp_fdalloc (fun hfull => ?_) fun fd _ => ?_
  · dsimp only
    rw [wp_bind]
    refine wp_fileclose_new hr (h.idle f hr) rfl ?_
    exact hbad fun hroom => by
      obtain ⟨fd, hfd⟩ := hroom.2
      exact hfull fd hfd
  · dsimp only
    rw [wp_bind, wp_get]
    dsimp only
    rw [ho.ok.din hself hi, wp_bind, wp_setFile]
    dsimp only
    rw [update_self, update_idem]
    have hne : ((fd.val : ℤ)) ≠ -1 := by omega
    refine @wp_openDone sb short s fs p f ip j omode E _ fd (fs.disk.node j).type h ho rfl hdir hr
      { s.proc p with ofile := update (s.proc p).ofile fd (some f) } rfl
      { type := if (fs.disk.node j).type = .device then .device else .inode, ref := 1,
        off := if (fs.disk.node j).type = .device then (s.file f).off else 0, ip := ip,
        readable := omode &&& oWronly = 0, writable := omode &&& oWronly ≠ 0 ∨ omode &&& oRdwr ≠ 0 } rfl rfl rfl ?_
      fun s' hmv => ⟨hmv, fun hr => absurd hr hne⟩
    intro hw h0
    simp [h0] at hw

end

end Xv6.Fs
