import Xv6.Kernel.Fs.Syscall
import Xv6.Lib.Run

/-! The system from its boot on: what every sequence of system calls keeps. -/
namespace Xv6.Fs
open Lib

/-- A disk that the kernel can use: every block in use is in one file and no file lacks one, the
directories have whole entries of inodes that there are, and there is a root. -/
structure Image (sb : Superblock) (v : View) : Prop where
  sound : v.Sound sb
  formatted : Formatted sb (v.file sb)
  root : v.Live sb rootino

def bootInode (v : View) (i : Fin ninode) : Inode :=
  if i = 0 then { inum := rootino, ref := 1, locked := false, valid := true, din := v.node rootino }
  else { inum := 0, ref := 0, locked := false, valid := false, din := .zero }

/-- The first process, in the root directory that it has come to run `/init` from. -/
def boot (v : View) : Sys where
  fs := { dinode := v.node, bitmap := v.bitmap, data := v.data, trans := false, logged := [], inode := bootInode v }
  file _ := { type := .none, ref := 0, readable := false, writable := false, ip := 0, off := 0 }
  proc p := { cwd := if p = 0 then some 0 else none, ofile := fun _ => none }

section
variable {sb : Superblock} {short : ShortInt} {v : View} {s s' : Sys}

theorem entries_boot (v : View) : (boot v).entries = {0} := by
  have hproc : ∀ p : Fin nproc, ((boot v).proc p).entry = if p = 0 then {0} else 0 := by
    intro p
    unfold boot Proc.entry
    by_cases hp : p = 0
    · simp [hp]
    · simp [hp]
  have hfile : ∀ f : Fin nfile, ((boot v).file f).entry = 0 := fun _ => if_neg (by simp [boot])
  unfold Sys.entries
  simp only [hproc, hfile, Finset.sum_const_zero, add_zero]
  rw [Finset.sum_ite_eq' Finset.univ (0 : Fin nproc), if_pos (Finset.mem_univ _)]

theorem holders_boot (v : View) : (boot v).holders = {(0, rootino)} := by
  unfold Sys.holders handles
  rw [entries_boot]
  rfl

theorem bootInode_zero (v : View) :
    bootInode v 0 = { inum := rootino, ref := 1, locked := false, valid := true, din := v.node rootino } := by
  rw [bootInode, if_pos rfl]

theorem bootInode_of_ne {i : Fin ninode} (hi : i ≠ 0) :
    bootInode v i = { inum := 0, ref := 0, locked := false, valid := false, din := .zero } := by
  rw [bootInode, if_neg hi]

theorem eq_of_mem_root {i : Fin ninode} {j : ℕ} (hm : (i, j) ∈ ({(0, rootino)} : Multiset Handle)) :
    i = 0 ∧ j = rootino := Prod.mk.inj (Multiset.mem_singleton.mp hm)

theorem ok_boot (h : Image sb v) : Ok sb false ∅ {(0, rootino)} (boot v).fs where
  trans := rfl
  ref i := by
    rw [Multiset.map_singleton, Multiset.count_singleton]
    show (bootInode v i).ref = _
    by_cases hi : i = 0
    · rw [if_pos hi, hi, bootInode_zero]
      rfl
    · rw [if_neg hi, bootInode_of_ne hi]
      rfl
  inum i j hm := by
    obtain ⟨hi, hj⟩ := eq_of_mem_root hm
    show (bootInode v i).inum = j
    rw [hi, hj, bootInode_zero]
  unique i k j hi hk := (eq_of_mem_root hi).1.trans (eq_of_mem_root hk).1.symm
  saved i j hm _ := by
    obtain ⟨hi, hj⟩ := eq_of_mem_root hm
    refine ⟨?_, hj ▸ h.root⟩
    show v.node j = (bootInode v i).din
    rw [hi, hj, bootInode_zero]
  locked i := by
    show (bootInode v i).locked = true ↔ _
    by_cases hi : i = 0
    · rw [hi, bootInode_zero]
      simp
    · rw [bootInode_of_ne hi]
      simp
  held i hi := absurd hi (Finset.notMem_empty i)
  sound := h.sound

theorem inv_boot (h : Image sb v) : Inv sb (boot v) where
  ok := by
    rw [holders_boot]
    exact ok_boot h
  formatted := h.formatted
  valid := by
    rw [holders_boot]
    intro i j hm
    show (bootInode v i).valid = true
    rw [(eq_of_mem_root hm).1, bootInode_zero]
  idle _ _ := rfl
  notDir f ht := absurd ht (by simp [boot])

theorem moves_of_run {ok : Sys → Fin nproc × Syscall → Prop} (h : Inv sb s) (hr : Run (Syscall.step sb short) ok s s') :
    Moves sb short s s' :=
  Run.invariant (I := fun t => Moves sb short s t) hr (.refl h) fun _ _ _ hI _ hs => hI.trans (moves_of_step hI.inv hs)

theorem inv_of_run {ok : Sys → Fin nproc × Syscall → Prop} (h : Inv sb s) (hr : Run (Syscall.step sb short) ok s s') :
    Inv sb s' := (moves_of_run h hr).inv

theorem tidy_of_run {ok : Sys → Fin nproc × Syscall → Prop} (h : Inv sb s) (hr : Run (Syscall.step sb short) ok s s')
    (ht : Tidy short (s.ns sb)) : Tidy short (s'.ns sb) := ((moves_of_run h hr).acts ht).tidy ht

theorem step_eq_error {a : Fin nproc × Syscall} {e : Halt} (hs : Syscall.step sb short s a = .error e) :
    a.2.run sb short a.1 s = .error e := by
  unfold Syscall.step at hs
  cases hx : a.2.run sb short a.1 s with
  | ok r =>
    rw [hx] at hs
    cases hs
  | error e' =>
    rw [hx] at hs
    rw [Except.error.inj hs]

theorem fails_of_step {a : Fin nproc × Syscall} {e : Halt} (h : Inv sb s) (hs : Syscall.step sb short s a = .error e) :
    Fails sb s e := (wp_run h a.2).of_error (step_eq_error hs)

theorem Fails.mem {e : Halt} (h : Fails sb s e) : e = .blocked ∨ ∃ p ∈ [Panic.igetNoInodes, .ballocOutOfBlocks, .iallocNoInodes,
    .dirlink, .unlinkNlink, .filedup, .fileclose, .fileread, .filewrite, .ilockNoType], e = .panic p := by
  rcases h with ((hb | ⟨p, hp, rfl⟩) | ⟨p, hp, rfl⟩) | ⟨rfl, -⟩
  · exact .inl hb
  · exact .inr ⟨p, by simp only [List.mem_cons] at hp ⊢; tauto, rfl⟩
  · exact .inr ⟨p, by simp only [List.mem_cons] at hp ⊢; tauto, rfl⟩
  · exact .inr ⟨_, by simp, rfl⟩

/-- No other address than the one at `k` of `j` is `b`. -/
def View.Sole (sb : Superblock) (v : View) (j k b : ℕ) : Prop :=
  ∀ j' < sb.ninodes, (v.node j').type ≠ .free → ∀ k' < ndirect, b = (v.node j').addrs k' → j = j' ∧ k = k'

instance (sb : Superblock) (v : View) (j k b : ℕ) : Decidable (v.Sole sb j k b) :=
  inferInstanceAs (Decidable (∀ j' < sb.ninodes, _ → _))

/-- `j` has no indirect block, and its blocks are its own. -/
def View.Owner (sb : Superblock) (v : View) (j : ℕ) : Prop :=
  (v.node j).addrs ndirect = 0 ∧ ∀ k < ndirect, (v.node j).addrs k ≠ 0 →
    sb.nmeta ≤ (v.node j).addrs k ∧ (v.node j).addrs k < sb.size ∧ v.bitmap ((v.node j).addrs k) = true ∧
    v.Sole sb j k ((v.node j).addrs k)

instance (sb : Superblock) (v : View) (j : ℕ) : Decidable (v.Owner sb j) := inferInstanceAs (Decidable (_ ∧ ∀ k < ndirect, _ → _))

/-- The blocks in use are those of the files, which have no indirect blocks. -/
def View.Direct (sb : Superblock) (v : View) : Prop :=
  (∀ b < sb.nmeta, v.bitmap b = true) ∧ (∀ j < sb.ninodes, (v.node j).type ≠ .free → v.Owner sb j) ∧
  ∀ b < sb.size, sb.nmeta ≤ b → v.bitmap b = true →
    ∃ j < sb.ninodes, (v.node j).type ≠ .free ∧ ∃ k < ndirect, (v.node j).addrs k = b

instance (sb : Superblock) (v : View) : Decidable (v.Direct sb) := inferInstanceAs (Decidable (_ ∧ _ ∧ _))

theorem Dinode.slot_of_direct {d : Dinode} {data : ℕ → Bytes} {k : ℕ} (h0 : d.addrs ndirect = 0) (hk : k ≤ maxfile)
    (hne : d.slot data k ≠ 0) : k < ndirect ∧ d.slot data k = d.addrs k := by
  rcases Dinode.slot_cases hk with h | ⟨e, he, rfl⟩ | rfl
  · exact ⟨h, d.slot_direct data h⟩
  · exact absurd (Dinode.slot_entry_of_zero he h0) hne
  · exact absurd ((d.slot_ind data).trans h0) hne

theorem View.Direct.owned (h : v.Direct sb) : v.Owned sb := by
  obtain ⟨hmeta, hnode, -⟩ := h
  refine ⟨hmeta, fun j k hj hk hne => ?_, fun j k j' k' hj hj' hk hk' hne heq => ?_⟩
  · obtain ⟨h0, hused⟩ := hnode j hj.1 hj.2
    obtain ⟨hlt, hs⟩ := Dinode.slot_of_direct h0 hk hne
    have hs' : v.slot j k = (v.node j).addrs k := hs
    rw [hs'] at hne ⊢
    obtain ⟨hlo, hhi, hbit, -⟩ := hused k hlt hne
    exact ⟨hlo, hhi, hbit⟩
  · obtain ⟨h0, hused⟩ := hnode j hj.1 hj.2
    obtain ⟨hlt, hs⟩ := Dinode.slot_of_direct h0 hk hne
    obtain ⟨hlt', hs'⟩ := Dinode.slot_of_direct (hnode j' hj'.1 hj'.2).1 hk' (heq ▸ hne)
    have heq' : (v.node j).addrs k = (v.node j').addrs k' := hs.symm.trans (heq.trans hs')
    exact (hused k hlt (hs ▸ hne)).2.2.2 j' hj'.1 hj'.2 k' hlt' heq'

theorem View.Direct.exact (h : v.Direct sb) {b : ℕ} (hlo : sb.nmeta ≤ b) (hhi : b < sb.size) (hb : v.bitmap b = true) :
    ∃ j k, v.Live sb j ∧ k ≤ maxfile ∧ v.slot j k = b := by
  obtain ⟨j, hj, hty, k, hk, rfl⟩ := h.2.2 b hhi hlo hb
  exact ⟨j, k, ⟨hj, hty⟩, (lt_maxfile hk).le, (v.node j).slot_direct v.data hk⟩

/-- The files have their blocks. -/
def View.Whole (sb : Superblock) (v : View) : Prop :=
  ∀ j < sb.ninodes, (v.node j).type ≠ .free → (v.node j).size ≤ ndirect * bsize ∧
    ∀ bn < ndirect, bn * bsize < (v.node j).size → (v.node j).addrs bn ≠ 0

instance (sb : Superblock) (v : View) : Decidable (v.Whole sb) := inferInstanceAs (Decidable (∀ j < sb.ninodes, _ → _))

/-- The directories have whole entries of inodes that there are. -/
def View.Listed (sb : Superblock) (v : View) : Prop :=
  ∀ j < sb.ninodes, (v.node j).type = .dir → direntSize ∣ (v.node j).size ∧ ∀ o ∈ slots (v.content j), ∀ p ∈ o, p.2 < sb.ninodes

instance (sb : Superblock) (v : View) : Decidable (v.Listed sb) := inferInstanceAs (Decidable (∀ j < sb.ninodes, _ → _))

theorem View.Whole.noHole (h : v.Whole sb) {j : ℕ} (hj : v.Live sb j) : v.NoHole j := by
  obtain ⟨hsize, hblocks⟩ := h j hj.1 hj.2
  intro bn hbn
  have hlt : bn < ndirect := by
    have hb : bsize = 1024 := rfl
    rw [hb] at hbn hsize
    omega
  refine ⟨lt_maxfile hlt, ?_⟩
  rw [Dinode.slot_direct _ _ hlt]
  exact hblocks bn hlt hbn

theorem View.Direct.image (hd : v.Direct sb) (hw : v.Whole sb) (hl : v.Listed sb) (hroot : v.Live sb rootino) : Image sb v := by
  refine ⟨⟨hd.owned, fun b => hd.exact, fun j hj => hw.noHole hj⟩, ⟨hroot.1, fun j f hf hty => ?_⟩, hroot⟩
  have hlive : v.Live sb j := by
    by_contra hno
    rw [View.file_eq_none.mpr hno] at hf
    cases hf
  rw [View.file_of_live hlive] at hf
  obtain rfl := Option.some.inj hf
  obtain ⟨hsize, hsmall⟩ := hl j hlive.1 hty
  refine ⟨?_, fun n k inum hn => hsmall _ (List.mem_of_getElem? hn) (k, inum) rfl⟩
  show direntSize ∣ (v.content j).length
  rwa [View.content, List.length_map, List.length_range]

end

/-- A disk of 12 blocks and 6 inodes, with the data from block 4 on. -/
def smallSb : Superblock := { size := 12, ninodes := 6, inodestart := 2, bmapstart := 3, size_lt := by decide }

def direntBlock (l : List (UInt8 × List UInt8)) : Bytes := fun k =>
  (l.flatMap fun e => e.1 :: 0 :: (e.2 ++ List.replicate (14 - e.2.length) 0)).getD k 0

/-- The root has `size` bytes of a block with the entries `l`. -/
def smallDisk (size : ℕ) (l : List (UInt8 × List UInt8)) (other : ℕ → Dinode) : View where
  node j :=
    if j = rootino then
      { type := .dir, major := 0, minor := 0, nlink := 1, size := size, addrs := fun k => if k = 0 then 4 else 0 }
    else other j
  bitmap b := decide (b < 5)
  data b := if b = 4 then direntBlock l else fun _ => 0

/-- There is only a root. -/
def freshDisk : View := smallDisk 32 [(1, [46]), (1, [46, 46])] fun _ => .zero

theorem freshDisk_image : Image smallSb freshDisk :=
  View.Direct.image (by decide +kernel) (by decide +kernel) (by decide +kernel) (by decide +kernel)

/-- The path `/a`. -/
def pathA : CStr := ⟨[47, 97], by decide⟩

end Xv6.Fs
