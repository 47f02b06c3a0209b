import Xv6.Kernel.Fs.Links

/-! `create`: the file of a name, made if there is none. -/
namespace Xv6.Fs
open Lib SlotMap Function Multiset

/-- A file as `ialloc` and `create` set it up. -/
def newNode (short : ShortInt) (type : FileType) (major minor : ℤ) (c : List UInt8) : Node :=
  { type := type, major := short major, minor := short minor, nlink := 1, content := c }

/-- The `..` of a new directory is a link to its parent. -/
def grow (short : ShortInt) (F : Files) (d : ℕ) (type : FileType) : Files :=
  if type = .dir then relink short F d 1 else F

/-- The files with the new file `j`, named in `d`. -/
def created (short : ShortInt) (F : Files) (d j : ℕ) (type : FileType) (major minor : ℤ) (c₀ c : List UInt8) : Files :=
  setContent (grow short (update F j (some (newNode short type major minor c₀))) d type) d c

/-- The bytes of a new directory. -/
def Dots (f : Node) (j d : ℕ) (c₀ : List UInt8) : Prop :=
  ∃ c₁, Inserts f dot j c₁ ∧ Inserts { f with content := c₁ } dotdot d c₀

/-- A name that is not in the directory `d` gets the new file `j`. -/
structure Creates (short : ShortInt) (F : Files) (d : ℕ) (g : Node) (name : Bytes) (j : ℕ) (type : FileType)
    (major minor : ℤ) (c₀ c : List UInt8) : Prop where
  parent : F d = some g
  fresh : F j = none
  pos : 0 < j
  inserts : Inserts g name j c
  dots : if type = .dir then Dots (newNode short type major minor []) j d c₀ else c₀ = []

theorem Inserts.congr {g g' : Node} {name : Bytes} {inum : ℕ} {c : List UInt8} (h : Inserts g name inum c)
    (ht : g'.type = g.type) (hc : g'.content = g.content) : Inserts g' name inum c :=
  ⟨ht.trans h.dir, hc ▸ h.unbound, hc ▸ h.slots, h.aligned⟩

theorem setContent_setContent (F : Files) (j : ℕ) (c c' : List UInt8) :
    setContent (setContent F j c) j c' = setContent F j c' := by
  unfold setContent
  rw [update_self, update_idem, Option.map_map]
  rfl

theorem relink_update {short : ShortInt} {F : Files} {d j : ℕ} {n : ℤ} {o : Option Node} (h : j ≠ d) :
    relink short (update F j o) d n = update (relink short F d n) j o := by
  unfold relink
  rw [update_of_ne h.symm, update_comm h]

theorem keyOf_dot_ne : keyOf dot ≠ keyOf dotdot := by decide

theorem slots_nil : slots [] = [] := rfl

section
variable {sb : Superblock} {short : ShortInt} {L : Finset (Fin ninode)} {H : Multiset Handle} {s s' : State}
  {i ip dp cwd : Fin ninode} {j d jc : ℕ} {E : Halt → Prop} {type : FileType} {major minor : ℤ}

theorem wp_createDots {Q : PUnit → State → Prop} {f : Node} (h : Ok sb true L H s) (hip : (ip, j) ∈ H) (hiL : ip ∈ L)
    (hdp : (dp, d) ∈ H) (hdL : dp ∈ L) (hne : j ≠ d) (hf : s.disk.file sb j = some f) (ht : f.type = .dir)
    (hc : f.content = []) (hE : ∀ e, Fault e → E e)
    (hQ : ∀ s' c₀, Dots f j d c₀ → Keeps H s s' → Ok sb true L H s' →
      s'.disk.file sb = setContent (relink short (s.disk.file sb) d 1) j c₀ → Q ⟨⟩ s') :
    Wp E (createDots sb short dp ip) s Q := by
  unfold createDots
  rw [wp_bind]
  refine wp_addLinks h hdp hdL fun s₁ _ hk₁ hok₁ hf₁ => ?_
  have hfile₁ : s₁.disk.file sb j = some f := by rw [hf₁, relink_of_ne hne, hf]
  have hn₁ : s₁.disk.toNode j = f := (hok₁.node_eq hip hiL hfile₁).symm
  have hc₁ : s₁.disk.content j = [] := by rw [← hc, ← hn₁]; rfl
  have hty₁ : (s₁.disk.node j).type = .dir := by rw [← ht, ← hn₁]; rfl
  rw [wp_bind, wp_get, hok₁.inum _ _ hip, wp_bind]
  refine wp_dirlink_ok hok₁ hip hiL hty₁ (by rw [hc₁]; exact dvd_zero _) hE (fun s₂ hfind _ _ _ => ?_)
    fun s₂ c₁ hins hk₂ hok₂ hf₂ => ?_
  · -- there are no names yet
    rw [hc₁, slots_nil] at hfind
    exact absurd rfl hfind
  rw [if_neg (by decide)]
  rw [hn₁] at hins
  have hfile₂ : s₂.disk.file sb j = some { f with content := c₁ } := by rw [hf₂, setContent_self hfile₁]
  have hn₂ : s₂.disk.toNode j = { f with content := c₁ } := (hok₂.node_eq hip hiL hfile₂).symm
  have hc₂ : s₂.disk.content j = c₁ := congrArg Node.content hn₂
  have hty₂ : (s₂.disk.node j).type = .dir := (congrArg Node.type hn₂).trans ht
  rw [wp_bind, wp_get, hok₂.inum _ _ hdp, wp_bind]
  refine wp_dirlink_ok hok₂ hip hiL hty₂ (by rw [hc₂]; exact hins.aligned) hE (fun s₃ hfind _ _ _ => ?_)
    fun s₃ c₂ hins₂ hk₃ hok₃ hf₃ => ?_
  · -- the only name is `.`
    refine absurd ?_ hfind
    rw [hc₂, hins.slots, hc, slots_nil]
    unfold newEntry
    split_ifs
    · rfl
    · show (if keyOf dot = keyOf dotdot then some (0, j % 2 ^ 16) else none) = none
      exact if_neg keyOf_dot_ne
  rw [if_neg (by decide), wp_pure]
  rw [hn₂] at hins₂
  refine hQ s₃ c₂ ⟨c₁, hins, hins₂⟩ ((hk₁.trans hk₂).trans hk₃) hok₃ ?_
  rw [hf₃, hf₂, hf₁, setContent_setContent]

/-- What is known of the inode that `create` returns, locked. -/
def Made (sb : Superblock) (short : ShortInt) (H : Multiset Handle) (type : FileType) (major minor : ℤ) (s : State) (j : ℕ)
    (s' : State) : Prop :=
  s'.disk = s.disk ∧ type = .file ∨
  ∃ d g name c₀ c, Creates short (s.disk.file sb) d g name j type major minor c₀ c ∧
    s'.disk.file sb = settle H d (created short (s.disk.file sb) d j type major minor c₀ c)

/-- What `create` does. -/
structure CreatePost (sb : Superblock) (short : ShortInt) (H : Multiset Handle) (type : FileType) (major minor : ℤ)
    (s : State) (r : Option (Fin ninode)) (s' : State) : Prop where
  changes : Changes sb H (s.disk.file sb) (s'.disk.file sb)
  keeps : Keeps H s s'
  none : r = none → Ok sb true ∅ H s' ∧ (Settled H (s.disk.file sb) → s'.disk = s.disk)
  some : ∀ ip, r = some ip → ∃ j, Ok sb true (insert ip ∅) ((ip, j) ::ₘ H) s' ∧
    (type = .file → (s'.disk.node j).type ≠ .dir) ∧
    (Settled H (s.disk.file sb) → Made sb short H type major minor s j s')

theorem wp_createOld (h : Ok sb true (insert dp ∅) ((ip, j) ::ₘ (dp, d) ::ₘ H) s) (hj : j < sb.ninodes)
    (hE' : Settled H (s.disk.file sb) ∧ s.disk.file sb j ≠ none ∨ E (.panic .ilockNoType)) :
    Wp E (createOld sb dp ip type) s (CreatePost sb short H type major minor s) := by
  have hself : (ip, j) ∈ (ip, j) ::ₘ H := mem_cons_self _ _
  have hip : ip ∈ insert ip (∅ : Finset (Fin ninode)) := Finset.mem_insert_self ip ∅
  unfold createOld
  rw [wp_bind]
  rw [cons_swap] at h
  refine wp_unlockput h fun s₁ _ hst₁ hok₁ => ?_
  rw [wp_bind]
  refine wp_ilock_first hok₁ hj (fun hnone => ?_) fun s₂ hd₂ _ hk₂ hok₂ => ?_
  · rcases hE' with ⟨hset, hfile⟩ | hE'
    · rw [hst₁.mono.same hset] at hnone
      exact absurd hnone hfile
    · exact hE'
  have hst₂ : Still sb H s s₂ := hst₁.mono.trans (.of_disk hd₂ hk₂)
  rw [wp_bind, wp_get, hok₂.din hself hip]
  dsimp only
  by_cases hfit : type = .file ∧ ((s₂.disk.node j).type = .file ∨ (s₂.disk.node j).type = .device)
  · rw [if_pos hfit, wp_pure]
    refine ⟨hst₂.changes, hst₂.keeps, fun hn => (Option.some_ne_none _ hn).elim, fun ip' hip' => ?_⟩
    obtain rfl := Option.some.inj hip'
    refine ⟨j, hok₂, fun _ hdir => ?_, fun hset => .inl ⟨hst₂.same hset, hfit.1⟩⟩
    rcases hfit.2 with ht | ht <;> rw [ht] at hdir <;> cases hdir
  · rw [if_neg hfit, wp_bind]
    refine wp_unlockput hok₂ fun s₃ _ hst₃ hok₃ => ?_
    rw [wp_pure]
    have hst := hst₂.trans hst₃
    exact ⟨hst.changes, hst.keeps, fun _ => ⟨hok₃, hst.same⟩, fun ip' hip' => (Option.some_ne_none _ hip'.symm).elim⟩

theorem wp_createName {Q : Option (Fin ninode) → State → Prop} {name : Bytes} {g : Node}
    (h : Ok sb true (insert ip (insert dp ∅)) ((ip, j) ::ₘ (dp, d) ::ₘ H) s) (hne : ip ≠ dp) (hjd : j ≠ d)
    (hfmt : Formatted sb (s.disk.file sb)) (hg : s.disk.file sb d = some g) (ht : g.type = .dir)
    (hunbound : find (keyOf name) (slots g.content) = none) (hE : ∀ e, Fault e → E e)
    (hQ : ∀ s' c, Inserts g name j c → Changes sb H (s.disk.file sb) (s'.disk.file sb) → Keeps H s s' →
      Ok sb true (insert ip ∅) ((ip, j) ::ₘ H) s' →
      s'.disk.file sb = settle H d (setContent (s.disk.file sb) d c) → Q (some ip) s') :
    Wp E (do
      let r ← dirlink sb dp name ((← get).inode ip).inum
      if r < 0 then throw (.panic .createDirlink)
      iunlockput sb dp
      return some ip) s Q := by
  have hself : (ip, j) ∈ (ip, j) ::ₘ (dp, d) ::ₘ H := mem_cons_self _ _
  have hdp : (dp, d) ∈ (ip, j) ::ₘ (dp, d) ::ₘ H := mem_cons_of_mem (mem_cons_self _ _)
  have hiL : ip ∈ insert ip (insert dp (∅ : Finset (Fin ninode))) := Finset.mem_insert_self _ _
  have hdL : dp ∈ insert ip (insert dp (∅ : Finset (Fin ninode))) :=
    Finset.mem_insert_of_mem (Finset.mem_insert_self _ _)
  have hgd : g = s.disk.toNode d := h.node_eq hdp hdL hg
  have hj : j < sb.ninodes := (h.live hself (h.valid hiL)).1
  rw [wp_bind, wp_get, h.inum _ _ hself, wp_bind]
  refine wp_dirlink_ok h hdp hdL (by rw [hgd] at ht; exact ht) ?_ hE (fun s₁ hfind _ _ _ => ?_)
    fun s₁ c hins hk₁ hok₁ hf₁ => ?_
  · have := (hfmt.entries d g hg ht).aligned
    rwa [hgd] at this
  · rw [hgd] at hunbound
    exact absurd hunbound hfind
  rw [if_neg (by decide), wp_bind]
  rw [cons_swap] at hok₁
  refine wp_iunlockput hok₁ hdL fun s₂ hf₂ hst₂ hok₂ => ?_
  rw [wp_pure]
  rw [Finset.insert_comm, Finset.erase_insert (by simp [Ne.symm hne])] at hok₂
  rw [settle_cons hjd.symm, hf₁] at hf₂
  rw [← hgd] at hins
  refine hQ s₂ c hins ?_ ?_ hok₂ hf₂
  · rw [hf₂]
    exact (Changes.insert hfmt hg hins hj).trans Changes.settle
  · have hsub : H ⊆ (ip, j) ::ₘ (dp, d) ::ₘ H := fun p hp => mem_cons_of_mem (mem_cons_of_mem hp)
    exact (hk₁.mono hsub).trans hst₂.mono.keeps

theorem wp_createNew {name : Bytes} {g : Node} (h : Ok sb true (insert dp ∅) ((dp, d) ::ₘ H) s)
    (hfmt : Formatted sb (s.disk.file sb)) (hg : s.disk.file sb d = some g) (ht : g.type = .dir)
    (hunbound : find (keyOf name) (slots g.content) = none) (hty : type ≠ .free) (hE : ∀ e, Fault e → E e) :
    Wp E (createNew sb short dp name type major minor) s (CreatePost sb short H type major minor s) := by
  have hdp₀ : (dp, d) ∈ (dp, d) ::ₘ H := mem_cons_self _ _
  unfold createNew
  rw [wp_bind]
  refine wp_ialloc_ok h hty (hE _ (.inr ⟨_, by simp, rfl⟩)) (hE _ (.inr ⟨_, by simp, rfl⟩))
    fun ip j s₁ hpos hj hfresh hk₁ hok₁ hf₁ => ?_
  set Hd := (dp, d) ::ₘ H with hHd
  have hjd : j ≠ d := fun hjd => by
    rw [hjd, hg] at hfresh
    cases hfresh
  have hself : (ip, j) ∈ (ip, j) ::ₘ Hd := mem_cons_self _ _
  have hdp : (dp, d) ∈ (ip, j) ::ₘ Hd := mem_cons_of_mem hdp₀
  have hsub : H ⊆ Hd := subset_cons H _
  have hsub' : H ⊆ (ip, j) ::ₘ Hd := fun p hp => mem_cons_of_mem (hsub hp)
  have hne : ip ≠ dp := fun heq => hjd (hok₁.inum_unique (heq ▸ hself) hdp)
  have hiL : ip ∈ insert ip (insert dp (∅ : Finset (Fin ninode))) := Finset.mem_insert_self _ _
  have hdL : dp ∈ insert ip (insert dp (∅ : Finset (Fin ninode))) :=
    Finset.mem_insert_of_mem (Finset.mem_insert_self _ _)
  have hfile₁ : s₁.disk.file sb j = some { type := type, major := 0, minor := 0, nlink := 0, content := [] } := by
    rw [hf₁, update_self]
  rw [wp_bind]
  refine wp_ilock_ok hok₁ hself hj (fun hL => absurd hL (by simp [hne])) (fun hfree => ?_)
    fun s₂ _ hd₂ hlive hk₂ hok₂ => ?_
  · rw [View.file_eq_none.mpr fun hl => hl.2 hfree] at hfile₁
    cases hfile₁
  rw [wp_bind, wp_modify, wp_bind]
  refine wp_iupdate_ok hok₂ hself hiL rfl rfl rfl fun s₃ _ hk₃ hok₃ hf₃ => ?_
  -- the new file as it is now
  have hn₂ : s₂.disk.toNode j = { type := type, major := 0, minor := 0, nlink := 0, content := [] } := by
    rw [View.file_of_live hlive, ← hd₂] at hfile₁
    exact Option.some.inj hfile₁
  have hf₃' : s₃.disk.file sb = update (s.disk.file sb) j (some (newNode short type major minor [])) := by
    rw [hf₃, hn₂, hd₂, hf₁, update_idem]
    rfl
  have hc₃ : Changes sb H (s.disk.file sb) (s₃.disk.file sb) := by
    rw [hf₃']
    exact .single (.alloc hfresh rfl)
  have hk : Keeps H s s₃ := ((hk₁.mono hsub).trans (hk₂.mono hsub')).trans (hk₃.mono hsub')
  -- once the file is set up it gets its name
  have hname : ∀ (s₄ : State) (c₀ : List UInt8) (g' : Node),
      (if type = .dir then Dots (newNode short type major minor []) j d c₀ else c₀ = []) →
      s₄.disk.file sb = grow short (update (s.disk.file sb) j (some (newNode short type major minor c₀))) d type →
      s₄.disk.file sb d = some g' → g'.type = g.type → g'.content = g.content →
      Changes sb H (s.disk.file sb) (s₄.disk.file sb) → Keeps H s s₄ →
      Ok sb true (insert ip (insert dp ∅)) ((ip, j) ::ₘ Hd) s₄ →
      Wp E (do
        let r ← dirlink sb dp name ((← get).inode ip).inum
        if r < 0 then throw (.panic .createDirlink)
        iunlockput sb dp
        return some ip) s₄ (CreatePost sb short H type major minor s) := by
    intro s₄ c₀ g' hdots hf₄ hg' ht' hc' hc₄ hk₄ hok₄
    refine wp_createName hok₄ hne hjd (hc₄.formatted hfmt) hg' (ht'.trans ht) (by rwa [hc']) hE
      fun s₅ c hins hc₅ hk₅ hok₅ hf₅ => ?_
    refine ⟨hc₄.trans hc₅, hk₄.trans hk₅, fun hn => (Option.some_ne_none _ hn).elim, fun ip' hip' => ?_⟩
    obtain rfl := Option.some.inj hip'
    refine ⟨j, hok₅, fun hfile hdir => ?_, fun _ => .inr ⟨d, g, name, c₀, c, ⟨hg, hfresh, hpos, ?_, hdots⟩, ?_⟩⟩
    · -- a file is not a directory
      have hnode := hok₅.file (mem_cons_self _ _) (Finset.mem_insert_self _ _)
      rw [hf₅, settle_of_ne hjd, setContent_of_ne hjd, hf₄, grow, if_neg (by rw [hfile]; decide), update_self] at hnode
      have htype : type = (s₅.disk.node j).type := congrArg Node.type (Option.some.inj hnode)
      rw [hdir, hfile] at htype
      cases htype
    · exact hins.congr ht'.symm hc'.symm
    · rw [hf₅, hf₄]
      rfl
  by_cases hdir : type = .dir
  · rw [if_pos hdir, wp_bind]
    have hfile₃ : s₃.disk.file sb j = some (newNode short type major minor []) := by rw [hf₃', update_self]
    refine wp_createDots hok₃ hself hiL hdp hdL hjd hfile₃ hdir rfl hE fun s₄ c₀ hdots hk₄ hok₄ hf₄ => ?_
    have hgrow : s₄.disk.file sb =
        grow short (update (s.disk.file sb) j (some (newNode short type major minor c₀))) d type := by
      rw [hf₄, hf₃', grow, if_pos hdir, relink_update hjd, relink_update hjd, setContent, update_self,
        update_idem]
      rfl
    have hc₄ : Changes sb H (s₃.disk.file sb) (s₄.disk.file sb) := by
      obtain ⟨c₁, hins₁, hins₂⟩ := hdots
      have hrel : relink short (s₃.disk.file sb) d 1 j = some (newNode short type major minor []) := by
        rw [relink_of_ne hjd, hfile₃]
      have hlinks : Changes sb H (s₃.disk.file sb) (relink short (s₃.disk.file sb) d 1) := Changes.relink
      have hfmt₃ := hlinks.formatted (hc₃.formatted hfmt)
      have hstep := Changes.insert (H := H) hfmt₃ hrel hins₁ hj
      have hstep' := Changes.insert (H := H) (hstep.formatted hfmt₃) (setContent_self hrel) hins₂
        (h.live hdp₀ (h.valid (Finset.mem_insert_self _ _))).1
      rw [setContent_setContent] at hstep'
      rw [hf₄]
      exact (hlinks.trans hstep).trans hstep'
    refine hname s₄ c₀ { g with nlink := short (g.nlink + 1) } (by rwa [if_pos hdir]) hgrow ?_ rfl rfl (hc₃.trans hc₄)
      (hk.trans (hk₄.mono hsub')) hok₄
    rw [hgrow, grow, if_pos hdir, relink_self (by rw [update_of_ne hjd.symm, hg])]
  · rw [if_neg hdir]
    refine hname s₃ [] g (by rw [if_neg hdir]) ?_ ?_ rfl rfl hc₃ hk hok₃
    · rw [hf₃', grow, if_neg hdir]
    · rw [hf₃', update_of_ne hjd.symm, hg]

theorem wp_create {path : List UInt8} (h : Calling sb true H cwd jc s) (hz : 0 ∉ path) (hty : type ≠ .free)
    (hE : ∀ e, Fault e → E e) (hE' : ¬ Clear H (s.disk.file sb) jc → E (.panic .ilockNoType)) :
    Wp E (create sb short cwd path type major minor) s (CreatePost sb short H type major minor s) := by
  unfold create
  rw [wp_bind]
  refine (wp_nameiparent h hz (fun _ => hE _ (.inr ⟨_, by simp, rfl⟩)) hE').mono fun r s₁ hr => ?_
  -- what is done from a state in which the directory has been found
  have hlift : ∀ {r : Option (Fin ninode)} {s₂ s' : State}, Still sb H s s₂ →
      CreatePost sb short H type major minor s₂ r s' → CreatePost sb short H type major minor s r s' := by
    intro r s₂ s' hst hpost
    refine ⟨hst.changes.trans hpost.changes, hst.keeps.trans hpost.keeps, fun hn => ?_, fun ip hip => ?_⟩
    · obtain ⟨hok, hsame⟩ := hpost.none hn
      refine ⟨hok, fun hset => ?_⟩
      rw [hst.same hset] at hsame
      exact hsame hset
    · obtain ⟨j, hok, htype, hmade⟩ := hpost.some ip hip
      refine ⟨j, hok, htype, fun hset => ?_⟩
      unfold Made at hmade ⊢
      rw [hst.same hset] at hmade
      exact hmade hset
  obtain ⟨o, name⟩ := r
  cases o with
  | none =>
    dsimp only
    rw [wp_pure]
    exact ⟨hr.changes, hr.keeps, fun _ => ⟨(hr.none rfl).1, hr.same⟩, fun ip hip => (Option.some_ne_none _ hip.symm).elim⟩
  | some dp =>
    dsimp only
    rw [wp_bind]
    refine wp_ilock_parent hr h.formatted fun d g s₂ _ _ hd₂ hk₂ hdir => ?_
    have hst₂ : Still sb H s s₂ := hr.still.trans (.of_disk hd₂ hk₂)
    rw [wp_bind]
    refine wp_dirlookup hdir.ok (mem_cons_self _ _) (Finset.mem_insert_self dp ∅) hdir.type hdir.aligned
      (fun _ => hE _ (.inr ⟨_, by simp, rfl⟩)) (fun hfind => ?_) fun m j ip s₃ hfind hd₃ _ hk₃ hok₃ => ?_
    · dsimp only
      refine (wp_createNew hdir.ok hdir.formatted hdir.file hdir.dir ?_ hty hE).mono fun r s' hpost => hlift hst₂ hpost
      rw [hdir.node]
      exact hfind
    · dsimp only
      have hget : (slots g.content)[m]? = some (some (keyOf name, j)) := by
        rw [hdir.node]
        exact getElem?_of_find hfind
      have hst₃ : Still sb H s s₃ := hst₂.trans (.of_disk hd₃ (hk₃.mono (subset_cons H _)))
      refine (wp_createOld hok₃ ((hdir.formatted.entries d g hdir.file hdir.dir).small m _ j hget) ?_).mono
        fun r s' hpost => hlift hst₃ hpost
      by_cases hclear : Clear H (s.disk.file sb) jc
      · have hg := hdir.file
        rw [hst₂.same hclear.settled] at hg
        rw [hst₃.same hclear.settled]
        exact .inl ⟨hclear.settled, hclear.noDangling d g hg hdir.dir m _ j hget⟩
      · exact .inr (hE' hclear)

end

end Xv6.Fs
