import Xv6.Kernel.Fs.Boot

/-! The accounts of the file system at every system-call boundary: the blocks that are in use, the
references to the inodes, and the blocks that a file has. -/
namespace Xv6.Fs
open Lib

/-- The data blocks in use are those that one address is for. -/
structure Accounted (sb : Superblock) (v : View) : Prop where
  inUse : ∀ b, sb.nmeta ≤ b → b < sb.size →
    (v.bitmap b = true ↔ ∃! p : ℕ × ℕ, v.Live sb p.1 ∧ p.2 ≤ maxfile ∧ v.slot p.1 p.2 = b)
  unique : ∀ j k j' k', v.Live sb j → v.Live sb j' → k ≤ maxfile → k' ≤ maxfile → v.slot j k ≠ 0 →
    v.slot j k = v.slot j' k' → j = j' ∧ k = k'
  area : ∀ j k, v.Live sb j → k ≤ maxfile → v.slot j k ≠ 0 → sb.nmeta ≤ v.slot j k ∧ v.slot j k < sb.size

/-- The references to the inodes are those of the working directories and of the open files. -/
structure Balanced (s : Sys) : Prop where
  unique : ∀ i k, 0 < (s.fs.inode i).ref → 0 < (s.fs.inode k).ref → (s.fs.inode i).inum = (s.fs.inode k).inum → i = k
  ref : ∀ i, (s.fs.inode i).ref = (Finset.univ.filter fun p => (s.proc p).cwd = some i).card +
    (Finset.univ.filter fun f => 0 < (s.file f).ref ∧ ((s.file f).type = .inode ∨ (s.file f).type = .device) ∧
      (s.file f).ip = i).card
  unlocked : ∀ i, (s.fs.inode i).locked = false
  saved : ∀ i, 0 < (s.fs.inode i).ref → (s.fs.inode i).valid = true → s.fs.dinode (s.fs.inode i).inum = (s.fs.inode i).din

section
variable {sb : Superblock} {v : View} {s : Sys}

theorem nmeta_pos (sb : Superblock) : 0 < sb.nmeta := Nat.succ_pos _

theorem View.Owned.accounted (h : v.Owned sb)
    (hexact : ∀ b, sb.nmeta ≤ b → b < sb.size → v.bitmap b = true → ∃ j k, v.Live sb j ∧ k ≤ maxfile ∧ v.slot j k = b) :
    Accounted sb v := by
  refine ⟨fun b hlo hhi => ⟨fun hb => ?_, ?_⟩, h.inj, fun j k hj hk hne => ?_⟩
  · obtain ⟨j, k, hj, hk, hs⟩ := hexact b hlo hhi hb
    refine ⟨(j, k), ⟨hj, hk, hs⟩, ?_⟩
    rintro ⟨j', k'⟩ ⟨hj', hk', hs'⟩
    have hpos := nmeta_pos sb
    obtain ⟨rfl, rfl⟩ := h.inj j k j' k' hj hj' hk hk' (by omega) (hs.trans hs'.symm)
    rfl
  · rintro ⟨⟨j, k⟩, ⟨hj, hk, hs⟩, -⟩
    have hs' : v.slot j k = b := hs
    have hpos := nmeta_pos sb
    have hused := h.used j k hj hk (by omega)
    rw [hs'] at hused
    exact hused.2.2
  · obtain ⟨hlo, hhi, -⟩ := h.used j k hj hk hne
    exact ⟨hlo, hhi⟩

/-- `/d` is a directory of 16 bytes without a block. -/
def holeDisk : View := smallDisk 48 [(1, [46]), (1, [46, 46]), (2, [100])] fun j =>
  if j = 2 then { Dinode.zero with type := .dir, nlink := 1, size := 16 } else .zero

theorem count_proc (i : Fin ninode) (p : Proc) : p.entry.count i = if p.cwd = some i then 1 else 0 := by
  unfold Proc.entry
  cases hp : p.cwd with
  | none => simp
  | some k =>
    rw [Multiset.count_singleton]
    simp only [Option.some.injEq, eq_comm]

theorem count_file (i : Fin ninode) (f : File) :
    f.entry.count i = if (f.type = .inode ∨ f.type = .device) ∧ f.ip = i then 1 else 0 := by
  unfold File.entry
  by_cases hf : f.type = .inode ∨ f.type = .device
  · rw [if_pos hf, Multiset.count_singleton]
    exact if_congr (eq_comm.trans (iff_and_self.mpr fun _ => hf)) rfl rfl
  · rw [if_neg hf, if_neg fun h => hf h.1, Multiset.count_zero]

theorem map_handles (fs : State) (M : Multiset (Fin ninode)) : (handles fs M).map Prod.fst = M := by
  unfold handles
  rw [Multiset.map_map]
  exact Multiset.map_id' M

theorem Inv.balanced (h : Inv sb s) : Balanced s := by
  have hmem : ∀ i, 0 < (s.fs.inode i).ref → (i, (s.fs.inode i).inum) ∈ s.holders := by
    intro i hi
    obtain ⟨j, hj⟩ := h.ok.mem_iff.mp hi
    rwa [h.ok.inum i j hj]
  refine ⟨fun i k hi hk heq => ?_, fun i => ?_, fun i => ?_, fun i hi hv => ?_⟩
  · exact h.ok.unique i k _ (hmem i hi) (heq ▸ hmem k hk)
  · have hopen : ∀ f, (0 < (s.file f).ref ∧ ((s.file f).type = .inode ∨ (s.file f).type = .device) ∧ (s.file f).ip = i) ↔
        ((s.file f).type = .inode ∨ (s.file f).type = .device) ∧ (s.file f).ip = i := by
      refine fun f => ⟨And.right, fun hf => ⟨Nat.pos_of_ne_zero fun h0 => ?_, hf⟩⟩
      have hnone := h.idle f h0
      rcases hf.1 with ht | ht
      · rw [ht] at hnone
        cases hnone
      · rw [ht] at hnone
        cases hnone
    rw [h.ok.ref i, Sys.holders, map_handles, Sys.entries, Multiset.count_add, Multiset.count_sum', Multiset.count_sum']
    simp only [count_proc, count_file, hopen, Finset.card_filter]
    push_cast
    rfl
  · cases hl : (s.fs.inode i).locked with
    | false => rfl
    | true => exact absurd ((h.ok.locked i).mp hl) (Finset.notMem_empty i)
  · exact (h.ok.saved i _ (hmem i hi) hv).1

/-- No file has a hole, so that `readi` finds every block. -/
theorem no_holes (h : Image sb v) (hr : Run (Syscall.step sb short16) (fun _ _ => True) (boot v) s) :
    (∀ j, s.fs.disk.Live sb j → s.fs.disk.NoHole j) ∧
    (∀ i dst mem off n, 0 < (s.fs.inode i).ref → n < 2 ^ 32 → ∃ r, readi sb i dst mem off n s.fs = .ok (r, s.fs)) ∧
    ∀ a, ∀ p ∈ [Panic.logWriteOutsideTrans, .dirlookupRead, .dirlinkRead, .isdiremptyReadi],
      Syscall.step sb short16 s a ≠ .error (.panic p) := by
  have hI := inv_of_run (inv_boot h) hr
  refine ⟨hI.ok.sound.noHole, fun i dst mem off n hi hn => ?_, fun a p hp ha => ?_⟩
  · obtain ⟨j, hj⟩ := hI.ok.mem_iff.mp hi
    obtain ⟨hdin, hlive⟩ := hI.ok.saved i j hj (hI.valid i j hj)
    have hh : (s.fs.din i).NoHole s.fs.data := by
      rw [← hdin]
      exact hI.ok.sound.noHole j hlive
    obtain ⟨r, fs', hr, rfl, -⟩ := (wp_readi hn hh).returns
    exact ⟨r, hr⟩
  · rcases (fails_of_step hI ha).mem with he | ⟨q, hq, he⟩
    · cases he
    · obtain rfl := Halt.panic.inj he
      simp only [List.mem_cons, List.not_mem_nil, or_false] at hp hq
      rcases hp with rfl | rfl | rfl | rfl <;> simp at hq

theorem no_holes_file : ∃ s, Run (Syscall.step smallSb short16) (fun _ _ => True) (boot freshDisk) s ∧
    (s.fs.dinode 2).size = 3 ∧ s.fs.disk.NoHole 2 := by
  obtain ⟨s, hr, ht⟩ := exists_run_of_exec (Syscall.step smallSb short16) (fun _ _ => True) (boot freshDisk)
    [(0, .open (some pathA) (oCreate + oRdwr)), (0, .write 0 (fun _ => some fun _ => 7) 0 3 0)]
    (fun s => decide ((s.fs.dinode 2).size = 3 ∧ s.fs.disk.Live smallSb 2)) (by decide +kernel)
  obtain ⟨hsize, hlive⟩ := of_decide_eq_true ht
  exact ⟨s, hr, hsize, (no_holes freshDisk_image hr).1 2 hlive⟩

/-- The root has half an entry. -/
def halfDisk : View := smallDisk 8 [(1, [46]), (1, [46, 46])] fun _ => .zero

/-- A directory of half an entry has no hole, and cannot be read. -/
theorem half_entry_panics : (∀ j, halfDisk.Live smallSb j → halfDisk.NoHole j) ∧
    Syscall.step smallSb short16 (boot halfDisk) (0, .open (some pathA) 0) = .error (.panic .dirlookupRead) := by
  refine ⟨?_, map_unit_eq_error.mp (by decide +kernel)⟩
  have hw : halfDisk.Whole smallSb := by decide +kernel
  exact fun j hj => hw.noHole hj

end

end Xv6.Fs
