import Mathlib.Logic.Relation
import Xv6.Kernel.Fs.Directory

/-! How the files may change while some of them are held. -/
namespace Xv6.Fs
open Lib SlotMap Function

/-- The files by inode number. -/
abbrev Files := ℕ → Option Node

/-- Whole entries, of inodes that there are. -/
structure Entries (sb : Superblock) (c : List UInt8) : Prop where
  aligned : direntSize ∣ c.length
  small : ∀ (n : ℕ) k inum, (slots c)[n]? = some (some (k, inum)) → inum < sb.ninodes

structure Formatted (sb : Superblock) (F : Files) : Prop where
  root : rootino < sb.ninodes
  entries : ∀ j f, F j = some f → f.type = .dir → Entries sb f.content

/-- A file without links is held. -/
def Settled (H : Multiset Handle) (F : Files) : Prop := ∀ j f, F j = some f → f.nlink = 0 → ∃ i, (i, j) ∈ H

/-- The entries of the directories name files. -/
def NoDangling (F : Files) : Prop :=
  ∀ j f, F j = some f → f.type = .dir → ∀ (n : ℕ) k inum, (slots f.content)[n]? = some (some (k, inum)) → F inum ≠ none

/-- The file `j` is freed if it has no links and nobody holds it. -/
def settle (H : Multiset Handle) (j : ℕ) (F : Files) : Files :=
  if (F j).any (fun f => f.nlink = 0) = true ∧ ∀ i, (i, j) ∉ H then update F j none else F

/-- One change, while `H` is held. -/
inductive Change (sb : Superblock) (H : Multiset Handle) (F : Files) : Files → Prop
  | attr {j : ℕ} {f f' : Node} : F j = some f → f'.type = f.type → f'.content = f.content →
      Change sb H F (update F j (some f'))
  | data {j : ℕ} {f : Node} {c : List UInt8} : F j = some f → f.type ≠ .dir →
      Change sb H F (update F j (some { f with content := c }))
  | entry {j : ℕ} {f : Node} {c : List UInt8} : F j = some f → Entries sb c →
      Change sb H F (update F j (some { f with content := c }))
  | reap {j : ℕ} : (∀ i, (i, j) ∉ H) → Change sb H F (update F j none)
  | alloc {j : ℕ} {f : Node} : F j = none → f.content = [] → Change sb H F (update F j (some f))

abbrev Changes (sb : Superblock) (H : Multiset Handle) : Files → Files → Prop := Relation.ReflTransGen (Change sb H)

section
variable {sb : Superblock} {H H' : Multiset Handle} {F F' : Files} {j : ℕ}

theorem Entries.nil : Entries sb [] := ⟨⟨0, rfl⟩, fun n k inum h => by simp [slots] at h⟩

theorem Entries.put {c c' : List UInt8} (h : Entries sb c) {n : ℕ} {o : Option (Key × ℕ)} (hn : n ≤ (slots c).length)
    (hc : slots c' = SlotMap.put (slots c) n o) (hlen : direntSize ∣ c'.length) (ho : ∀ p, o = some p → p.2 < sb.ninodes) :
    Entries sb c' := by
  refine ⟨hlen, fun m k inum hm => ?_⟩
  rw [hc, getElem?_put hn] at hm
  split_ifs at hm with hmn
  · exact ho _ (Option.some.inj hm)
  · exact h.small m k inum hm

theorem Change.formatted (h : Change sb H F F') (hf : Formatted sb F) : Formatted sb F' := by
  refine ⟨hf.root, fun l g hl hg => ?_⟩
  cases h with
  | @attr j f f' hj htype hcontent =>
    rw [update_apply] at hl
    split_ifs at hl with hlj
    · obtain rfl := Option.some.inj hl
      rw [hcontent]
      exact hf.entries j f hj (htype ▸ hg)
    · exact hf.entries l g hl hg
  | data hj hdir =>
    rw [update_apply] at hl
    split_ifs at hl with hlj
    · obtain rfl := Option.some.inj hl
      exact absurd hg hdir
    · exact hf.entries l g hl hg
  | entry hj hc =>
    rw [update_apply] at hl
    split_ifs at hl with hlj
    · obtain rfl := Option.some.inj hl
      exact hc
    · exact hf.entries l g hl hg
  | reap =>
    rw [update_apply] at hl
    split_ifs at hl with hlj
    exact hf.entries l g hl hg
  | alloc hj hc =>
    rw [update_apply] at hl
    split_ifs at hl with hlj
    · obtain rfl := Option.some.inj hl
      rw [hc]
      exact Entries.nil
    · exact hf.entries l g hl hg

theorem Changes.formatted (h : Changes sb H F F') (hf : Formatted sb F) : Formatted sb F' := by
  induction h with
  | refl => exact hf
  | tail _ hstep ih => exact hstep.formatted ih

theorem kept_update {l : ℕ} {f f' g : Node} (hl : F l = some f) (htype : f'.type = f.type) (hg : F j = some g) :
    ∃ g', update F l (some f') j = some g' ∧ g'.type = g.type := by
  by_cases hjl : j = l
  · subst hjl
    rw [hl] at hg
    obtain rfl := Option.some.inj hg
    exact ⟨f', update_self _ _ _, htype⟩
  · exact ⟨g, by rwa [update_of_ne hjl], rfl⟩

theorem Change.kept (h : Change sb H F F') {i : Fin ninode} (hm : (i, j) ∈ H) {g : Node} (hg : F j = some g) :
    ∃ g', F' j = some g' ∧ g'.type = g.type := by
  cases h with
  | attr hl htype _ => exact kept_update hl htype hg
  | data hl _ | entry hl _ => exact kept_update hl rfl hg
  | @reap l hl =>
    have hjl : j ≠ l := fun hjl => hl i (hjl ▸ hm)
    exact ⟨g, by rwa [update_of_ne hjl], rfl⟩
  | @alloc l f hl =>
    have hjl : j ≠ l := fun hjl => by
      rw [hjl, hl] at hg
      exact Option.some_ne_none _ hg.symm
    exact ⟨g, by rwa [update_of_ne hjl], rfl⟩

theorem Changes.kept (h : Changes sb H F F') {i : Fin ninode} (hm : (i, j) ∈ H) {g : Node} (hg : F j = some g) :
    ∃ g', F' j = some g' ∧ g'.type = g.type := by
  induction h with
  | refl => exact ⟨g, hg, rfl⟩
  | tail _ hstep ih =>
    obtain ⟨g₁, hg₁, htype⟩ := ih
    obtain ⟨g₂, hg₂, htype₂⟩ := hstep.kept hm hg₁
    exact ⟨g₂, hg₂, htype₂.trans htype⟩

theorem Change.mono (h : Change sb H F F') (hle : ∀ i j, (i, j) ∈ H' → (i, j) ∈ H) : Change sb H' F F' := by
  cases h with
  | attr hj htype hc => exact .attr hj htype hc
  | data hj hdir => exact .data hj hdir
  | entry hj hc => exact .entry hj hc
  | reap hno => exact .reap fun i hi => hno i (hle _ _ hi)
  | alloc hj hc => exact .alloc hj hc

theorem Changes.mono (h : Changes sb H F F') (hle : ∀ i j, (i, j) ∈ H' → (i, j) ∈ H) : Changes sb H' F F' := by
  induction h with
  | refl => exact .refl
  | tail _ hstep ih => exact ih.tail (hstep.mono hle)

theorem Changes.settle : Changes sb H F (settle H j F) := by
  unfold Fs.settle
  split_ifs with h
  · exact .single (.reap h.2)
  · exact .refl

/-- Files have gone, and nothing else has changed. -/
def Fewer (F' F : Files) : Prop := ∀ j f, F' j = some f → F j = some f

theorem Fewer.refl (F : Files) : Fewer F F := fun _ _ h => h

theorem Fewer.trans {F'' : Files} (h : Fewer F'' F') (h' : Fewer F' F) : Fewer F'' F := fun j f hf => h' j f (h j f hf)

theorem fewer_update_none : Fewer (update F j none) F := by
  intro l f hl
  rw [update_apply] at hl
  split_ifs at hl
  exact hl

theorem fewer_settle : Fewer (settle H j F) F := by
  unfold Fs.settle
  split_ifs
  · exact fewer_update_none
  · exact .refl F

theorem Settled.settle_eq (h : Settled H F) : settle H j F = F := by
  refine if_neg fun hc => ?_
  obtain ⟨f, hf, h0⟩ := Option.any_eq_true _ _ |>.mp hc.1
  obtain ⟨i, hi⟩ := h j f hf (by simpa using h0)
  exact hc.2 i hi

theorem settle_of_ne {l : ℕ} (h : l ≠ j) : settle H j F l = F l := by
  unfold settle
  split_ifs
  · exact update_of_ne h _ _
  · rfl

theorem settle_cons {i : Fin ninode} {l : ℕ} (h : l ≠ j) : settle ((i, j) ::ₘ H) l F = settle H l F := by
  have hmem : (∀ k, (k, l) ∉ (i, j) ::ₘ H) ↔ ∀ k, (k, l) ∉ H :=
    forall_congr' fun k => not_congr (by simp [h])
  unfold settle
  simp only [hmem]

theorem Settled.mono (h : Settled H F) (hle : ∀ i j, (i, j) ∈ H → (i, j) ∈ H') : Settled H' F := fun l f hl h0 => by
  obtain ⟨i, hi⟩ := h l f hl h0
  exact ⟨i, hle _ _ hi⟩

end

/-- A part of a call that changes none of the files in use, while `H` is held. -/
structure Still (sb : Superblock) (H : Multiset Handle) (s s' : State) : Prop where
  changes : Changes sb H (s.disk.file sb) (s'.disk.file sb)
  same : Settled H (s.disk.file sb) → s'.disk = s.disk
  keeps : Keeps H s s'

section
variable {sb : Superblock} {L : Finset (Fin ninode)} {H : Multiset Handle} {s s' : State} {i : Fin ninode} {j : ℕ}
  {E : Halt → Prop}

theorem Still.of_disk (hd : s'.disk = s.disk) (hk : Keeps H s s') : Still sb H s s' := ⟨by rw [hd], fun _ => hd, hk⟩

theorem Still.trans {s'' : State} (h : Still sb H s s') (h' : Still sb H s' s'') : Still sb H s s'' :=
  ⟨h.changes.trans h'.changes, fun hset => (h'.same (by rwa [h.same hset])).trans (h.same hset), h.keeps.trans h'.keeps⟩

theorem Still.mono (h : Still sb ((i, j) ::ₘ H) s s') : Still sb H s s' :=
  ⟨h.changes.mono fun _ _ => Multiset.mem_cons_of_mem,
    fun hset => h.same (hset.mono fun _ _ => Multiset.mem_cons_of_mem), h.keeps.mono (Multiset.subset_cons H _)⟩

theorem Ok.unlock_only {t : Bool} (h : Ok sb t ((insert i ∅ : Finset (Fin ninode)).erase i) H s) : Ok sb t ∅ H s := by
  simpa using h

/-- `ilock` while no inode is locked. -/
theorem wp_ilock_first {t : Bool} {Q : PUnit → State → Prop} (h : Ok sb t ∅ ((i, j) ::ₘ H) s) (hj : j < sb.ninodes)
    (hE : s.disk.file sb j = none → E (.panic .ilockNoType))
    (hQ : ∀ s', s'.disk = s.disk → s.disk.Live sb j → Keeps H s s' → Ok sb t (insert i ∅) ((i, j) ::ₘ H) s' → Q ⟨⟩ s') :
    Wp E (ilock i) s Q :=
  wp_ilock_ok h (Multiset.mem_cons_self _ _) hj (fun hL => absurd hL (Finset.notMem_empty i))
    (fun hfree => hE (View.file_eq_none.mpr fun hl => hl.2 hfree)) fun s' _ hd hl hk hok =>
    hQ s' hd hl (hk.mono (Multiset.subset_cons H _)) hok

theorem wp_iput_read {Q : PUnit → State → Prop} (h : Ok sb true L ((i, j) ::ₘ H) s)
    (hL : i ∈ L → (i, j) ∈ H) (hv : (s.inode i).valid = true)
    (hQ : ∀ s', s'.disk.file sb = settle H j (s.disk.file sb) → Still sb H s s' → Ok sb true L H s' → Q ⟨⟩ s') :
    Wp E (iput sb i) s Q := by
  have hlive := h.live (Multiset.mem_cons_self _ _) hv
  refine wp_iput h hL fun s' hcase hkeep hok => ?_
  unfold State.reapable at hcase
  have hany : (s.disk.file sb j).any (fun f => f.nlink = 0) = true ↔ (s.disk.node j).nlink = 0 := by
    rw [View.file_of_live hlive]
    simp [View.toNode]
  rcases hcase with ⟨⟨-, h0, hlast⟩, hr⟩ | ⟨hnot, hd⟩
  · have hfile : s'.disk.file sb = settle H j (s.disk.file sb) := by
      rw [hr.file]
      exact (if_pos ⟨hany.mpr h0, hlast⟩).symm
    refine hQ s' hfile ⟨hfile ▸ Changes.settle, fun hs => ?_, hkeep⟩ hok
    obtain ⟨k, hk⟩ := hs j _ (View.file_of_live hlive) h0
    exact absurd hk (hlast k)
  · refine hQ s' ?_ (.of_disk hd hkeep) hok
    rw [hd]
    exact (if_neg fun hc => hnot ⟨hv, hany.mp hc.1, hc.2⟩).symm

theorem wp_iunlockput {Q : PUnit → State → Prop} (h : Ok sb true L ((i, j) ::ₘ H) s) (hi : i ∈ L)
    (hQ : ∀ s', s'.disk.file sb = settle H j (s.disk.file sb) → Still sb H s s' → Ok sb true (L.erase i) H s' →
      Q ⟨⟩ s') : Wp E (iunlockput sb i) s Q := by
  unfold iunlockput
  rw [wp_bind]
  refine wp_iunlock_ok h hi fun s₁ hdisk hv hkeep hok => ?_
  refine wp_iput_read hok (fun hL => absurd hL (Finset.notMem_erase i L)) hv fun s₂ hfile hst hok₂ => ?_
  rw [hdisk] at hfile
  exact hQ s₂ hfile ((Still.of_disk hdisk (hkeep.mono (Multiset.subset_cons H _))).trans hst) hok₂

theorem wp_unlockput {Q : PUnit → State → Prop} (h : Ok sb true (insert i ∅) ((i, j) ::ₘ H) s)
    (hQ : ∀ s', s'.disk.file sb = settle H j (s.disk.file sb) → Still sb H s s' → Ok sb true ∅ H s' → Q ⟨⟩ s') :
    Wp E (iunlockput sb i) s Q :=
  wp_iunlockput h (Finset.mem_insert_self i ∅) fun s' hf hst hok => hQ s' hf hst hok.unlock_only

theorem wp_iput_any {Q : PUnit → State → Prop} (h : Ok sb true L ((i, j) ::ₘ H) s)
    (hL : i ∈ L → (i, j) ∈ H)
    (hQ : ∀ s', Still sb H s s' → Fewer (s'.disk.file sb) (s.disk.file sb) → Ok sb true L H s' → Q ⟨⟩ s') :
    Wp E (iput sb i) s Q := by
  refine wp_iput h hL fun s' hcase hkeep hok => ?_
  rcases hcase with ⟨⟨hv, h0, hlast⟩, hr⟩ | ⟨-, hd⟩
  · refine hQ s' ⟨?_, fun hs => ?_, hkeep⟩ ?_ hok
    · rw [hr.file]
      exact .single (.reap hlast)
    · obtain ⟨k, hk⟩ := hs j _ (View.file_of_live (h.live (Multiset.mem_cons_self _ _) hv)) h0
      exact absurd hk (hlast k)
    · rw [hr.file]
      exact fewer_update_none
  · refine hQ s' (.of_disk hd hkeep) ?_ hok
    rw [hd]
    exact .refl _

end

end Xv6.Fs
