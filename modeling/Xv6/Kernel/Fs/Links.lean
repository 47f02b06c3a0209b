import Xv6.Kernel.Fs.Namex
import Xv6.Kernel.Fs.Sysfile

/-! `sys_link`: a name more for a file, or nothing. -/
namespace Xv6.Fs
open Lib SlotMap Function Multiset

/-- The ways a call can fail to return whatever the files are. -/
def Fault (e : Halt) : Prop :=
  e = .blocked ∨ ∃ p ∈ [Panic.igetNoInodes, .ballocOutOfBlocks, .iallocNoInodes, .dirlink, .unlinkNlink], e = .panic p

/-- The link count of `j` changes by `n`. -/
def relink (short : ShortInt) (F : Files) (j : ℕ) (n : ℤ) : Files :=
  update F j ((F j).map fun f => { f with nlink := short (f.nlink + n) })

def setContent (F : Files) (j : ℕ) (c : List UInt8) : Files :=
  update F j ((F j).map fun f => { f with content := c })

def View.addLinks (short : ShortInt) (v : View) (j : ℕ) (n : ℤ) : View :=
  v.setNode j { v.node j with nlink := short ((v.node j).nlink + n) }

/-- The bytes `c` of the directory `g` after `dirlink` has put a new name in it. -/
structure Inserts (g : Node) (name : Bytes) (inum : ℕ) (c : List UInt8) : Prop where
  dir : g.type = .dir
  unbound : find (keyOf name) (slots g.content) = none
  slots : slots c = put (slots g.content) (free (slots g.content)) (newEntry name inum)
  aligned : direntSize ∣ c.length

section
variable {sb : Superblock} {short : ShortInt} {H : Multiset Handle} {F : Files} {j : ℕ} {n : ℤ}

theorem relink_self {f : Node} (h : F j = some f) : relink short F j n j = some { f with nlink := short (f.nlink + n) } := by
  rw [relink, update_self, h]
  rfl

theorem relink_of_ne {l : ℕ} (h : l ≠ j) : relink short F j n l = F l := update_of_ne h _ _

theorem setContent_self {f : Node} {c : List UInt8} (h : F j = some f) :
    setContent F j c j = some { f with content := c } := by
  rw [setContent, update_self, h]
  rfl

theorem setContent_of_ne {l : ℕ} {c : List UInt8} (h : l ≠ j) : setContent F j c l = F l := update_of_ne h _ _

theorem Changes.relink : Changes sb H F (relink short F j n) := by
  unfold Fs.relink
  cases hj : F j with
  | none => rw [Option.map_none, ← hj, update_eq_self]
  | some f => exact .single (.attr hj rfl rfl)

theorem Changes.insert (hf : Formatted sb F) {g : Node} (hj : F j = some g) {name : Bytes} {inum : ℕ} {c : List UInt8}
    (hc : Inserts g name inum c) (hinum : inum < sb.ninodes) : Changes sb H F (setContent F j c) := by
  unfold setContent
  rw [hj]
  refine .single (.entry hj ((hf.entries j g hj hc.dir).put (free_le _) hc.slots hc.aligned fun p hp => ?_))
  unfold newEntry at hp
  split_ifs at hp with h0
  rw [← Option.some.inj hp]
  exact (Nat.mod_le _ _).trans_lt hinum

theorem Settled.setContent (h : Settled H F) (c : List UInt8) : Settled H (setContent F j c) := by
  intro l f hl h0
  by_cases hlj : l = j
  · subst hlj
    rw [Fs.setContent, update_self] at hl
    obtain ⟨g, hg, rfl⟩ := Option.map_eq_some_iff.mp hl
    exact h l g hg h0
  · rw [setContent_of_ne hlj] at hl
    exact h l f hl h0

theorem Settled.relink {i : Fin ninode} (h : Settled H F) : Settled ((i, j) ::ₘ H) (relink short F j n) := by
  intro l f hl h0
  by_cases hlj : l = j
  · exact ⟨i, hlj ▸ mem_cons_self _ _⟩
  · rw [relink_of_ne hlj] at hl
    obtain ⟨k, hk⟩ := h l f hl h0
    exact ⟨k, mem_cons_of_mem hk⟩

theorem relink_ne_none {l : ℕ} (hl : F l ≠ none) : relink short F j n l ≠ none := by
  obtain ⟨f, hf⟩ := Option.ne_none_iff_exists'.mp hl
  by_cases hlj : l = j
  · subst hlj
    rw [relink_self hf]
    exact Option.some_ne_none _
  · rwa [relink_of_ne hlj]

theorem NoDangling.relink (h : NoDangling F) : NoDangling (relink short F j n) := by
  intro l f hl ht m k inum hslot
  by_cases hlj : l = j
  · subst hlj
    rw [Fs.relink, update_self] at hl
    obtain ⟨g, hg, rfl⟩ := Option.map_eq_some_iff.mp hl
    exact relink_ne_none (h l g hg ht m k inum hslot)
  · rw [relink_of_ne hlj] at hl
    exact relink_ne_none (h l f hl ht m k inum hslot)

theorem View.live_addLinks {v : View} {l : ℕ} : (v.addLinks short j n).Live sb l ↔ v.Live sb l := by
  unfold View.Live View.addLinks View.setNode
  by_cases hl : l = j
  · subst hl
    simp
  · simp [hl]

theorem View.addLinks_addLinks {v : View} {m : ℤ} (h : short (short ((v.node j).nlink + n) + m) = (v.node j).nlink) :
    (v.addLinks short j n).addLinks short j m = v := by
  unfold View.addLinks View.setNode
  simp [h]

end

section
variable {sb : Superblock} {short : ShortInt} {L : Finset (Fin ninode)} {H : Multiset Handle} {s s' : State}
  {i ip dp cwd : Fin ninode} {j jc : ℕ} {n : ℤ} {E : Halt → Prop}

theorem Ok.setContent_eq {t : Bool} (h : Ok sb t L H s) (hm : (i, j) ∈ H) (hi : i ∈ L) (c : List UInt8) :
    setContent (s.disk.file sb) j c = update (s.disk.file sb) j (some { s.disk.toNode j with content := c }) := by
  rw [setContent, h.file hm hi]
  rfl

theorem wp_addLinks {Q : PUnit → State → Prop} (h : Ok sb true L H s) (hm : (i, j) ∈ H) (hi : i ∈ L)
    (hQ : ∀ s', s'.disk = s.disk.addLinks short j n → Keeps H s s' → Ok sb true L H s' →
      s'.disk.file sb = relink short (s.disk.file sb) j n → Q ⟨⟩ s') : Wp E (addLinks sb short i n) s Q := by
  unfold addLinks
  rw [wp_bind, wp_modify]
  have hd := h.din hm hi
  refine wp_iupdate_ok h hm hi rfl rfl rfl fun s' hdisk hk hok hfile => hQ s' ?_ hk hok ?_
  · rw [hdisk, hd]
    rfl
  · rw [hfile, relink, h.file hm hi, hd]
    rfl

theorem wp_dirlink_ok {Q : ℤ → State → Prop} {name : Bytes} {inum : ℕ} (h : Ok sb true L H s) (hm : (i, j) ∈ H)
    (hi : i ∈ L) (ht : (s.disk.node j).type = .dir) (hc : direntSize ∣ (s.disk.content j).length)
    (hE : ∀ e, Fault e → E e)
    (hbound : ∀ s', find (keyOf name) (slots (s.disk.content j)) ≠ none → s'.disk = s.disk → Keeps H s s' →
      Ok sb true L H s' → Q (-1) s')
    (hnew : ∀ s' c, Inserts (s.disk.toNode j) name inum c → Keeps H s s' → Ok sb true L H s' →
      s'.disk.file sb = setContent (s.disk.file sb) j c → Q 0 s') : Wp E (dirlink sb i name inum) s Q := by
  refine wp_dirlink h hm hi ht hc (hE _ (.inr ⟨_, by simp, rfl⟩)) (hE _ (.inr ⟨_, by simp, rfl⟩))
    (fun _ _ => hE _ (.inr ⟨_, by simp, rfl⟩)) (fun m n s' hf hd hk hok => hbound s' (by simp [hf]) hd hk hok)
    fun s' c hf hk hok hslots hlen hfile => hnew s' c ⟨ht, hf, hslots, hlen⟩ hk hok ?_
  rw [hfile, h.setContent_eq hm hi]

/-- What every call keeps. -/
structure Done (sb : Superblock) (H : Multiset Handle) (s s' : State) : Prop where
  ok : Ok sb false ∅ H s'
  changes : Changes sb H (s.disk.file sb) (s'.disk.file sb)
  keeps : Keeps H s s'

theorem Still.done (h : Still sb H s s') (hok : Ok sb true ∅ H s') : Done sb H s s'.endOp :=
  ⟨hok.endOp, h.changes, h.keeps⟩

theorem Done.after {s'' : State} (h : Done sb H s' s'') (hst : Still sb H s s') : Done sb H s s'' :=
  ⟨h.ok, hst.changes.trans h.changes, hst.keeps.trans h.keeps⟩

theorem wp_linkBad (h : Ok sb true ∅ ((ip, j) ::ₘ H) s) (hl : s.disk.Live sb j) :
    Wp E (linkBad sb short ip) s fun r s' => r = -1 ∧ Done sb H s s' ∧
      (Settled H (relink short (s.disk.file sb) j (-1)) → s'.disk = s.disk.addLinks short j (-1)) := by
  unfold linkBad
  rw [wp_bind]
  refine wp_ilock_first h hl.1 (fun hnone => absurd hl (View.file_eq_none.mp hnone)) fun s₁ hd₁ _ hk₁ hok₁ => ?_
  rw [wp_bind]
  refine wp_addLinks hok₁ (mem_cons_self _ _) (Finset.mem_insert_self ip ∅) fun s₂ hd₂ hk₂ hok₂ hf₂ => ?_
  rw [wp_bind]
  refine wp_unlockput hok₂ fun s₃ _ hst₃ hok₃ => ?_
  rw [hd₁] at hd₂ hf₂
  rw [wp_bind, endOp, wp_modify, wp_pure]
  have hc₂ : Changes sb H (s.disk.file sb) (s₂.disk.file sb) := by
    rw [hf₂]
    exact Changes.relink
  refine ⟨rfl, ⟨hok₃.endOp, hc₂.trans hst₃.changes, ?_⟩, fun hset => ?_⟩
  · exact (hk₁.trans (hk₂.mono (subset_cons H _))).trans hst₃.keeps
  · rw [← hf₂] at hset
    exact (hst₃.same hset).trans hd₂

/-- The end of `sys_link`, from `nameiparent` on. -/
theorem wp_linkNew {new : List UInt8} (h : Calling sb true ((ip, j) ::ₘ H) cwd jc s) (hl : s.disk.Live sb j)
    (hv : (s.inode ip).valid = true) (hz : 0 ∉ new) (hE : ∀ e, Fault e → E e)
    (hE' : ¬ Clear ((ip, j) ::ₘ H) (s.disk.file sb) jc → E (.panic .ilockNoType)) :
    Wp E (linkNew sb short cwd ip new) s fun r s' => Done sb H s s' ∧
      (Settled ((ip, j) ::ₘ H) (s.disk.file sb) →
        r = -1 ∧ (Settled H (relink short (s.disk.file sb) j (-1)) → s'.disk = s.disk.addLinks short j (-1)) ∨
        r = 0 ∧ ∃ d g name c, s.disk.file sb d = some g ∧ Inserts g name j c ∧
          s'.disk.file sb = settle H j (setContent (s.disk.file sb) d c)) := by
  set H₁ := (ip, j) ::ₘ H with hH₁
  have hself : (ip, j) ∈ H₁ := mem_cons_self _ _
  -- the call when it fails; the file that is linked stays
  have hbad : ∀ s₁ : State, Ok sb true ∅ H₁ s₁ → Still sb H₁ s s₁ → Wp E (linkBad sb short ip) s₁ fun r s' =>
      Done sb H s s' ∧ (Settled H₁ (s.disk.file sb) → r = -1 ∧
        (Settled H (relink short (s.disk.file sb) j (-1)) → s'.disk = s.disk.addLinks short j (-1))) := by
    intro s₁ hok hst
    obtain ⟨g, hg, -⟩ := hst.changes.kept hself (View.file_of_live hl)
    have hl₁ : s₁.disk.Live sb j := by
      by_contra hn
      rw [View.file_eq_none.mpr hn] at hg
      cases hg
    refine (wp_linkBad hok hl₁).mono fun r s' ⟨hr, hdone, hsame⟩ => ⟨hdone.after hst.mono, fun hset => ⟨hr, ?_⟩⟩
    rwa [hst.same hset] at hsame
  unfold linkNew
  rw [wp_bind]
  refine (wp_nameiparent h hz (fun _ => hE _ (.inr ⟨_, by simp, rfl⟩)) hE').mono fun r s₁ hr => ?_
  obtain ⟨o, name⟩ := r
  cases o with
  | none => exact (hbad s₁ (hr.none rfl).1 hr.still).mono fun r s' hpost => ⟨hpost.1, fun hset => .inl (hpost.2 hset)⟩
  | some dp =>
    dsimp only
    rw [wp_bind]
    refine wp_ilock_parent hr h.formatted fun d g s₂ _ _ hd₂ hk₂ hdir => ?_
    have hst₂ : Still sb H₁ s s₂ := hr.still.trans (.of_disk hd₂ hk₂)
    have hinum : (s₂.inode ip).inum = j := hdir.ok.inum ip j (mem_cons_of_mem hself)
    rw [wp_bind, wp_get, hinum, wp_bind]
    refine wp_dirlink_ok hdir.ok (mem_cons_self _ _) (Finset.mem_insert_self dp ∅) hdir.type hdir.aligned hE
      (fun s₃ _ hd₃ hk₃ hok₃ => ?_) fun s₃ c hins hk₃ hok₃ hf₃ => ?_
    · -- the name is taken
      rw [if_pos (by decide), wp_bind]
      refine wp_unlockput hok₃ fun s₄ _ hst₄ hok₄ => ?_
      have hst₃ : Still sb H₁ s s₃ := hst₂.trans (.of_disk hd₃ (hk₃.mono (subset_cons H₁ _)))
      exact (hbad s₄ hok₄ (hst₃.trans hst₄)).mono fun r s' hpost => ⟨hpost.1, fun hset => .inl (hpost.2 hset)⟩
    · rw [if_neg (by decide), wp_bind]
      refine wp_unlockput hok₃ fun s₄ hf₄ hst₄ hok₄ => ?_
      have hkeeps₄ : Keeps H₁ s s₄ := (hst₂.keeps.trans (hk₃.mono (subset_cons H₁ _))).trans hst₄.keeps
      rw [wp_bind]
      refine wp_iput_read hok₄ (fun hL => absurd hL (Finset.notMem_empty ip)) (hkeeps₄ ip j hself hv)
        fun s₅ hf₅ hst₅ hok₅ => ?_
      rw [wp_bind, endOp, wp_modify, wp_pure]
      rw [← hdir.node] at hins
      rw [hf₃] at hf₄
      have hc₄ : Changes sb H₁ (s.disk.file sb) (s₄.disk.file sb) := by
        rw [hf₄]
        exact (hst₂.changes.trans (Changes.insert hdir.formatted hdir.file hins hl.1)).trans Changes.settle
      refine ⟨⟨hok₅.endOp, (hc₄.mono fun _ _ => mem_cons_of_mem).trans hst₅.changes,
        (hkeeps₄.mono (subset_cons H _)).trans hst₅.keeps⟩, fun hset => .inr ⟨rfl, d, g, name, c, ?_, hins, ?_⟩⟩
      · rw [← hst₂.same hset]
        exact hdir.file
      · show s₅.disk.file sb = _
        rw [hf₅, hf₄, hst₂.same hset, (hset.setContent c).settle_eq]

/-- A `short` gets back the value it had. -/
def Restores (short : ShortInt) (F : Files) : Prop := ∀ j f, F j = some f → short (short (f.nlink + 1) + -1) = f.nlink

theorem relink_relink {F : Files} {f : Node} (hj : F j = some f) (h : short (short (f.nlink + 1) + -1) = f.nlink) :
    relink short (relink short F j 1) j (-1) = F := by
  funext l
  by_cases hl : l = j
  · subst hl
    rw [relink_self (relink_self hj), hj]
    simp [h]
  · rw [relink_of_ne hl, relink_of_ne hl]

/-- What `sys_link` does when nothing but what is in use is there. -/
def LinkPost (sb : Superblock) (short : ShortInt) (H : Multiset Handle) (s : State) (r : ℤ) (s' : State) : Prop :=
  r = -1 ∧ (Restores short (s.disk.file sb) → s'.disk = s.disk) ∨
  r = 0 ∧ ∃ j f d g name c, s.disk.file sb j = some f ∧ f.type ≠ .dir ∧ s.disk.file sb d = some g ∧
    Inserts g name j c ∧ s'.disk.file sb = settle H j (setContent (relink short (s.disk.file sb) j 1) d c)

theorem wp_sysLink {old new : Option (List UInt8)} (h : Calling sb false H cwd jc s) (hold : ∀ p ∈ old, 0 ∉ p)
    (hnew : ∀ p ∈ new, 0 ∉ p) (hE : ∀ e, Fault e → E e)
    (hE' : ¬ Clear H (s.disk.file sb) jc → E (.panic .ilockNoType)) :
    Wp E (sysLink sb short cwd old new) s fun r s' => Done sb H s s' ∧
      (Settled H (s.disk.file sb) → LinkPost sb short H s r s') := by
  have hnothing : Done sb H s s ∧ (Settled H (s.disk.file sb) → LinkPost sb short H s (-1) s) :=
    ⟨⟨h.ok, .refl, .refl H s⟩, fun _ => .inl ⟨rfl, fun _ => rfl⟩⟩
  unfold sysLink
  cases old with
  | none =>
    rw [wp_pure]
    exact hnothing
  | some old =>
    cases new with
    | none =>
      rw [wp_pure]
      exact hnothing
    | some new =>
      dsimp only
      rw [wp_bind, beginOp, wp_modify, wp_bind]
      refine wp_namei h.beginOp (hold old rfl) (fun _ => hE _ (.inr ⟨_, by simp, rfl⟩)) hE' fun r s₁ hr => ?_
      -- the call begins with the files of `s`
      have hst₁ : Still sb H s s₁ := ⟨hr.changes, hr.same, hr.keeps⟩
      cases ho : r.1 with
      | none =>
        dsimp only
        rw [wp_bind, endOp, wp_modify, wp_pure]
        exact ⟨hst₁.done (hr.none ho).1, fun hset => .inl ⟨rfl, fun _ => hst₁.same hset⟩⟩
      | some ip =>
        dsimp only
        rw [wp_bind]
        refine wp_ilock_found hr ho hE' fun j s₂ _ hd₂ hlive hk₂ hok₂ => ?_
        have hself : (ip, j) ∈ (ip, j) ::ₘ H := mem_cons_self _ _
        have hi : ip ∈ insert ip (∅ : Finset (Fin ninode)) := Finset.mem_insert_self ip ∅
        have hst₂ : Still sb H s s₂ := hst₁.trans (.of_disk hd₂ hk₂)
        rw [← hd₂] at hlive
        rw [wp_bind, wp_get, hok₂.din hself hi]
        by_cases hdir : (s₂.disk.node j).type = .dir
        · rw [if_pos hdir, wp_bind]
          refine wp_unlockput hok₂ fun s₃ _ hst₃ hok₃ => ?_
          rw [wp_bind, endOp, wp_modify, wp_pure]
          have hst := hst₂.trans hst₃
          exact ⟨hst.done hok₃, fun hset => .inl ⟨rfl, fun _ => hst.same hset⟩⟩
        · rw [if_neg hdir, wp_bind]
          refine wp_addLinks hok₂ hself hi fun s₃ hd₃ hk₃ hok₃ hf₃ => ?_
          rw [wp_bind]
          refine wp_iunlock_ok hok₃ hi fun s₄ hd₄ hv₄ hk₄ hok₄ => ?_
          rw [← hd₄] at hd₃ hf₃
          have hk : Keeps H s s₄ := hst₂.keeps.trans ((hk₃.trans hk₄).mono (subset_cons H _))
          have hc₄ : Changes sb H (s.disk.file sb) (s₄.disk.file sb) := by
            rw [hf₃]
            exact hst₂.changes.trans Changes.relink
          have hcall : Calling sb true ((ip, j) ::ₘ H) cwd jc s₄ :=
            ⟨hok₄.unlock_only, hc₄.formatted h.formatted, mem_cons_of_mem h.cwd, h.small⟩
          have hl₄ : s₄.disk.Live sb j := by
            rw [hd₃]
            exact View.live_addLinks.mpr hlive
          refine (wp_linkNew hcall hl₄ hv₄ (hnew new rfl) hE fun hnot => hE' fun hclear => hnot ?_).mono
            fun r s' hr => ⟨⟨hr.1.ok, hc₄.trans hr.1.changes, hk.trans hr.1.keeps⟩, fun hset => ?_⟩
          · rw [hf₃, hst₂.same hclear.settled]
            exact ⟨hclear.settled.relink, hclear.noDangling.relink, relink_ne_none hclear.root, relink_ne_none hclear.cwd⟩
          · rw [hst₂.same hset] at hf₃ hd₃ hlive hdir
            have hfile : s.disk.file sb j = some (s.disk.toNode j) := View.file_of_live hlive
            have hpost := hr.2
            rw [hf₃] at hpost
            rcases hpost hset.relink with ⟨hr, hsame⟩ | ⟨hr, d, g, name, c, hg, hins, hf'⟩
            · refine .inl ⟨hr, fun hrest => ?_⟩
              have hback := hrest j _ hfile
              rw [relink_relink hfile hback, hd₃] at hsame
              rw [hsame hset]
              exact View.addLinks_addLinks hback
            · have hne : d ≠ j := fun hdj => by
                rw [hdj, relink_self hfile] at hg
                rw [← Option.some.inj hg] at hins
                exact hdir hins.dir
              rw [relink_of_ne hne] at hg
              exact .inr ⟨hr, j, _, d, g, name, c, hfile, hdir, hg, hins, hf'⟩

end

end Xv6.Fs
