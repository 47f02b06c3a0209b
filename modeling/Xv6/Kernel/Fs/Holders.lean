import Xv6.Kernel.Fs.Action
import Xv6.Lib.Count

/-! Between the system calls the references to inodes are those of the working directories and of the
open files. -/
namespace Xv6.Fs
open Lib Function Multiset

def Proc.entry (p : Proc) : Multiset (Fin ninode) :=
  match p.cwd with
  | none => 0
  | some i => {i}

def File.entry (f : File) : Multiset (Fin ninode) := if f.type = .inode ∨ f.type = .device then {f.ip} else 0

/-- The entries of the inode cache that are in use. -/
def Sys.entries (s : Sys) : Multiset (Fin ninode) := (∑ p, (s.proc p).entry) + ∑ f, (s.file f).entry

/-- References, each with the inode its entry is for. -/
def handles (fs : State) (M : Multiset (Fin ninode)) : Multiset Handle := M.map fun i => (i, (fs.inode i).inum)

def Sys.holders (s : Sys) : Multiset Handle := handles s.fs s.entries

def Sys.files (sb : Superblock) (s : Sys) : Files := s.fs.disk.file sb

def Sys.ns (sb : Superblock) (s : Sys) : Ns := ⟨s.holders, s.files sb⟩

/-- What holds between two system calls. -/
structure Inv (sb : Superblock) (s : Sys) : Prop where
  ok : Ok sb false ∅ s.holders s.fs
  formatted : Formatted sb (s.files sb)
  valid : ∀ i j, (i, j) ∈ s.holders → (s.fs.inode i).valid = true
  idle : ∀ f, (s.file f).ref = 0 → (s.file f).type = .none
  notDir : ∀ f, (s.file f).type = .inode → (s.file f).writable = true →
    (s.fs.disk.node (s.fs.inode (s.file f).ip).inum).type ≠ .dir

section
variable {sb : Superblock} {short : ShortInt} {t : Bool} {L : Finset (Fin ninode)} {H : Multiset Handle} {s s' : Sys}
  {fs fs' : State} {M : Multiset (Fin ninode)} {i : Fin ninode} {j : ℕ} {f : Fin nfile} {p : Fin nproc} {cwd : Fin ninode}

theorem mem_handles : (i, j) ∈ handles fs M ↔ i ∈ M ∧ (fs.inode i).inum = j := by
  unfold handles
  rw [Multiset.mem_map]
  constructor
  · rintro ⟨k, hk, heq⟩
    obtain ⟨rfl, rfl⟩ := Prod.mk.inj heq
    exact ⟨hk, rfl⟩
  · rintro ⟨hi, rfl⟩
    exact ⟨i, hi, rfl⟩

theorem handles_cons : handles fs (i ::ₘ M) = (i, (fs.inode i).inum) ::ₘ handles fs M := Multiset.map_cons _ _ _

theorem Ok.handles_eq (h : Ok sb t L H fs') (hsub : handles fs M ⊆ H) : handles fs' M = handles fs M := by
  refine Multiset.map_congr rfl fun i hi => ?_
  have hm : (i, (fs.inode i).inum) ∈ handles fs M := mem_handles.mpr ⟨hi, rfl⟩
  rw [h.inum _ _ (hsub hm)]

theorem mem_entries_of_cwd (h : (s.proc p).cwd = some cwd) : cwd ∈ s.entries := by
  refine mem_add.mpr (.inl (Multiset.mem_sum.mpr ⟨p, Finset.mem_univ p, ?_⟩))
  unfold Proc.entry
  rw [h]
  exact mem_singleton_self _

theorem mem_entries_of_file (h : (s.file f).type = .inode ∨ (s.file f).type = .device) : (s.file f).ip ∈ s.entries := by
  refine mem_add.mpr (.inr (Multiset.mem_sum.mpr ⟨f, Finset.mem_univ f, ?_⟩))
  unfold File.entry
  rw [if_pos h]
  exact mem_singleton_self _

theorem mem_holders (hi : i ∈ s.entries) : (i, (s.fs.inode i).inum) ∈ s.holders := mem_handles.mpr ⟨hi, rfl⟩

theorem Inv.live (h : Inv sb s) (hm : (i, j) ∈ s.holders) : s.fs.disk.Live sb j := h.ok.live hm (h.valid i j hm)

theorem Inv.calling (h : Inv sb s) (hcwd : (s.proc p).cwd = some cwd) :
    Calling sb false s.holders cwd (s.fs.inode cwd).inum s.fs := by
  have hm := mem_holders (mem_entries_of_cwd hcwd)
  exact ⟨h.ok, h.formatted, hm, (h.live hm).1⟩

theorem entries_update (s : Sys) (f : Fin nfile) (g : File) :
    ({ s with file := update s.file f g } : Sys).entries + (s.file f).entry = s.entries + g.entry := by
  have hsum := sum_update_add (fun k => (s.file k).entry) f g.entry
  have hfun : (fun k => (update s.file f g k).entry) = update (fun k => (s.file k).entry) f g.entry :=
    comp_update File.entry s.file f g
  unfold Sys.entries
  show (∑ p, (s.proc p).entry) + (∑ k, (update s.file f g k).entry) + _ = _
  rw [add_assoc, hfun, hsum, ← add_assoc]

theorem entries_setFile {g : File} (hg : g.entry = (s.file f).entry) :
    ({ s with file := update s.file f g } : Sys).entries = s.entries := by
  have h := entries_update s f g
  rw [hg] at h
  exact add_right_cancel h

theorem entries_setProc (s : Sys) (p : Fin nproc) (q : Proc) :
    ({ s with proc := update s.proc p q } : Sys).entries + (s.proc p).entry = s.entries + q.entry := by
  have hsum := sum_update_add (fun k => (s.proc k).entry) p q.entry
  have hfun : (fun k => (update s.proc p q k).entry) = update (fun k => (s.proc k).entry) p q.entry :=
    comp_update Proc.entry s.proc p q
  unfold Sys.entries
  show (∑ k, (update s.proc p q k).entry) + (∑ f, (s.file f).entry) + _ = _
  rw [add_right_comm, hfun, hsum, add_right_comm]

/-- A change that keeps `H`, which is held before and after. -/
structure Shift (sb : Superblock) (H : Multiset Handle) (fs fs' : State) : Prop where
  changes : Changes sb H (fs.disk.file sb) (fs'.disk.file sb)
  keeps : Keeps H fs fs'

theorem Shift.refl (sb : Superblock) (H : Multiset Handle) (fs : State) : Shift sb H fs fs := ⟨.refl, .refl H fs⟩

theorem Shift.trans {fs'' : State} (h : Shift sb H fs fs') (h' : Shift sb H fs' fs'') : Shift sb H fs fs'' :=
  ⟨h.changes.trans h'.changes, h.keeps.trans h'.keeps⟩

theorem Shift.notDir (h : Shift sb H fs fs') (hm : (i, j) ∈ H) (hlive : fs.disk.Live sb j)
    (hd : (fs.disk.node j).type ≠ .dir) : (fs'.disk.node j).type ≠ .dir := by
  obtain ⟨g, hg, htype⟩ := h.changes.kept hm (View.file_of_live hlive)
  have hlive' : fs'.disk.Live sb j := by
    by_contra hn
    rw [View.file_eq_none.mpr hn] at hg
    cases hg
  rw [View.file_of_live hlive'] at hg
  have heq : (fs'.disk.node j).type = (fs.disk.node j).type := by
    rw [← Option.some.inj hg] at htype
    exact htype
  rwa [heq]

theorem Inv.next {K : Multiset Handle} (h : Inv sb s) (hK : K ⊆ s.holders) (hK' : K ⊆ s'.holders)
    (hok : Ok sb false ∅ s'.holders s'.fs) (hs : Shift sb K s.fs s'.fs) (hvalid : ∀ i j, (i, j) ∈ s'.holders → (i, j) ∈ K ∨ (s'.fs.inode i).valid = true)
    (hidle : ∀ f, (s'.file f).ref = 0 → (s'.file f).type = .none)
    (hfile : ∀ f, (s'.file f).type = .inode → (s'.file f).writable = true →
      ((s.file f).type = .inode ∧ (s.file f).writable = true ∧ (s'.file f).ip = (s.file f).ip ∧
        ((s.file f).ip, (s.fs.inode (s.file f).ip).inum) ∈ K) ∨
      (s'.fs.disk.node (s'.fs.inode (s'.file f).ip).inum).type ≠ .dir) : Inv sb s' := by
  refine ⟨hok, hs.changes.formatted h.formatted, fun i j hm => ?_, hidle, fun f ht hw => ?_⟩
  · rcases hvalid i j hm with hk | hv
    · exact hs.keeps i j hk (h.valid i j (hK hk))
    · exact hv
  · rcases hfile f ht hw with ⟨ht₀, hw₀, hip, hk⟩ | hd
    · rw [hip, hok.inum _ _ (hK' hk)]
      exact hs.notDir hk (h.live (hK hk)) (h.notDir f ht₀ hw₀)
    · exact hd

theorem Inv.stay (h : Inv sb s) (hok : Ok sb false ∅ s.holders s'.fs) (hs : Shift sb s.holders s.fs s'.fs)
    (hent : s'.entries = s.entries) (hidle : ∀ f, (s'.file f).ref = 0 → (s'.file f).type = .none)
    (hfile : ∀ f, (s'.file f).type = .inode → (s'.file f).writable = true →
      (s.file f).type = .inode ∧ (s.file f).writable = true ∧ (s'.file f).ip = (s.file f).ip) :
    Inv sb s' ∧ s'.holders = s.holders := by
  have hH : s'.holders = s.holders := by
    unfold Sys.holders
    rw [hent]
    exact hok.handles_eq (Multiset.Subset.refl _)
  refine ⟨h.next (Multiset.Subset.refl _) (by rw [hH]; exact Multiset.Subset.refl _) (by rwa [hH]) hs
    (fun i j hm => .inl (by rwa [hH] at hm)) hidle fun f ht hw => ?_, hH⟩
  obtain ⟨ht₀, hw₀, hip⟩ := hfile f ht hw
  exact .inl ⟨ht₀, hw₀, hip, mem_holders (mem_entries_of_file (.inl ht₀))⟩

theorem Inv.done (h : Inv sb s) (hd : Done sb s.holders s.fs fs') :
    Inv sb { s with fs := fs' } ∧ ({ s with fs := fs' } : Sys).holders = s.holders :=
  @Inv.stay sb s { s with fs := fs' } h hd.ok ⟨hd.changes, hd.keeps⟩ rfl h.idle fun _ ht hw => ⟨ht, hw, rfl⟩

theorem Inv.less (h : Inv sb s) (hent : s.entries = i ::ₘ s'.entries)
    (hok : Ok sb false ∅ (handles s.fs s'.entries) s'.fs) (hs : Shift sb (handles s.fs s'.entries) s.fs s'.fs)
    (hidle : ∀ f, (s'.file f).ref = 0 → (s'.file f).type = .none)
    (hfile : ∀ f, (s'.file f).type = .inode → s'.file f = s.file f) :
    Inv sb s' ∧ s'.holders = handles s.fs s'.entries := by
  have hH : s'.holders = handles s.fs s'.entries := hok.handles_eq (Multiset.Subset.refl _)
  have hsub : handles s.fs s'.entries ⊆ s.holders := by
    unfold Sys.holders
    rw [hent, handles_cons]
    exact subset_cons _ _
  refine ⟨h.next hsub (by rw [hH]; exact Multiset.Subset.refl _) (by rwa [hH]) hs (fun i j hm => .inl (by rwa [hH] at hm))
    hidle fun f ht hw => ?_, hH⟩
  have heq := hfile f ht
  have hm := mem_entries_of_file (Or.inl ht : _ ∨ (s'.file f).type = .device)
  rw [heq] at ht hw hm ⊢
  exact .inl ⟨ht, hw, rfl, mem_handles.mpr ⟨hm, rfl⟩⟩

theorem Inv.more (h : Inv sb s) (hent : s'.entries = i ::ₘ s.entries) (hok : Ok sb false ∅ ((i, j) ::ₘ s.holders) s'.fs)
    (hs : Shift sb s.holders s.fs s'.fs) (hv : (s'.fs.inode i).valid = true)
    (hidle : ∀ f, (s'.file f).ref = 0 → (s'.file f).type = .none)
    (hfile : ∀ f, (s'.file f).type = .inode → (s'.file f).writable = true → s'.file f = s.file f ∨
      (s'.file f).ip = i ∧ (s'.fs.disk.node j).type ≠ .dir) :
    Inv sb s' ∧ s'.holders = (i, j) ::ₘ s.holders := by
  have hinum : (s'.fs.inode i).inum = j := hok.inum i j (mem_cons_self _ _)
  have hH : s'.holders = (i, j) ::ₘ s.holders := by
    unfold Sys.holders
    rw [hent, handles_cons, hinum]
    congr 1
    exact hok.handles_eq (subset_cons _ _)
  refine ⟨h.next (Multiset.Subset.refl _) (by rw [hH]; exact subset_cons _ _) (by rwa [hH]) hs
    (fun k l hm => ?_) hidle fun f ht hw => ?_, hH⟩
  · rw [hH] at hm
    rcases mem_cons.mp hm with heq | hm
    · exact .inr ((Prod.mk.inj heq).1 ▸ hv)
    · exact .inl hm
  · rcases hfile f ht hw with heq | ⟨hip, hd⟩
    · rw [heq] at ht hw ⊢
      exact .inl ⟨ht, hw, rfl, mem_holders (mem_entries_of_file (.inl ht))⟩
    · rw [hip, hinum]
      exact .inr hd

/-- A part of a call, from one quiet state to another. -/
structure Moves (sb : Superblock) (short : ShortInt) (s s' : Sys) : Prop where
  inv : Inv sb s'
  acts : Tidy short (s.ns sb) → Actions short (s.ns sb) (s'.ns sb)

theorem Moves.trans {s'' : Sys} (h : Moves sb short s s') (h' : Moves sb short s' s'') : Moves sb short s s'' :=
  ⟨h'.inv, fun ht => (h.acts ht).trans (h'.acts ((h.acts ht).tidy ht))⟩

theorem Moves.quiet (hI : Inv sb s') (hH : s'.holders = s.holders) (hF : s'.files sb = s.files sb) :
    Moves sb short s s' := by
  refine ⟨hI, fun _ => ?_⟩
  unfold Sys.ns
  rw [hH, hF]

theorem Moves.refl (h : Inv sb s) : Moves sb short s s := .quiet h rfl rfl

end

end Xv6.Fs
