import Xv6.Kernel.Exec.Machine

/-! What `exec` reads through `readi` is the file: the loops over the headers and the pages refine those
on the bytes of the file. -/
namespace Xv6.Exec
open Lib
open Fs (Superblock CStr)
open Vm (Pagetable Page Frame Elfhdr Proghdr Str Exe)

def World.setMem (w : World) (m : Vm.Mem) : World := { w with sys := { w.sys with mem := m } }

@[simp] theorem World.setMem_setMem (w : World) (m m' : Vm.Mem) : (w.setMem m).setMem m' = w.setMem m' := rfl

section
variable {E : Halt → Prop} {w : World} {α : Type}

@[simp] theorem wp_onFs (x : Fs.FsM α) (Q : α → World → Prop) :
    Wp E (onFs x) w Q ↔ Wp E x w.fs fun a fs => Q a { w with fs } := by
  unfold Wp onFs
  cases x w.fs <;> rfl

@[simp] theorem wp_onSys (x : Vm.Kern α) (Q : α → World → Prop) :
    Wp E (onSys x) w Q ↔ Wp E x w.sys fun a sys => Q a { w with sys } := by
  unfold Wp onSys
  cases x w.sys <;> rfl

@[simp] theorem wp_onMem (x : Vm.K α) (Q : α → World → Prop) :
    Wp E (onMem x) w Q ↔ Wp E x w.sys.mem fun a m => Q a (w.setMem m) := by
  unfold onMem
  rw [wp_onSys, Vm.wp_onMem]
  rfl

theorem wp_beginOp (Q : PUnit → World → Prop) :
    Wp E beginOp w Q ↔ Q ⟨⟩ { w with fs := w.fs.beginOp, outstanding := w.outstanding + 1 } := by
  unfold beginOp Fs.beginOp
  rw [wp_bind, wp_modify, wp_onFs, wp_modify]

theorem wp_endOp (Q : PUnit → World → Prop) :
    Wp E endOp w Q ↔ Q ⟨⟩ { w with fs := w.fs.endOp, outstanding := w.outstanding - 1 } := by
  unfold endOp Fs.endOp
  rw [wp_bind, wp_modify, wp_onFs, wp_modify]

end

/-- A file with these bytes. -/
def exeOf (content : List UInt8) : Exe := { size := content.length, data := fun k => content.getD k 0 }

/-- What `readi` finds in the locked inode `ip` is `file`. -/
structure Reads (fs : Fs.State) (ip : Fin ninode) (file : Exe) : Prop where
  noHole : (fs.din ip).NoHole fs.data
  size : file.size = (fs.din ip).size
  data : ∀ k < (fs.din ip).size, file.data k = (fs.din ip).byte fs.data k

section
variable {sb : Superblock} {fs : Fs.State} {ip : Fin ninode} {off n : ℕ} {E : Halt → Prop} {w : World} {t : Pagetable}
  {file : Exe}

theorem Reads.readLen (h : Reads fs ip file) (hoff : off < 2 ^ 32) (hn : n < 2 ^ 32) :
    Fs.readLen (fs.din ip) off n = file.readi off n := by
  unfold Fs.readLen Exe.readi
  rw [h.size]
  split_ifs <;> omega

theorem readi_le (file : Exe) (off n : ℕ) : off + file.readi off n ≤ file.size ∨ file.readi off n = 0 := by
  unfold Exe.readi
  split_ifs <;> omega

theorem Reads.readi_eq (h : Reads fs ip file) (hoff : off < 2 ^ 32) (hn : n < 2 ^ 32) (mem : Bytes) :
    Fs.readi sb ip .kernel mem off n fs = .ok ((file.readi off n,
      mem.blit 0 (file.readi off n) fun k => file.data (off + k)), fs) := by
  obtain ⟨r, fs', hx, rfl, -, hr⟩ := (@Fs.wp_readi sb fs ip .kernel off n mem hn h.noHole).returns
  rw [hx, hr rfl, Nat.zero_add, h.readLen hoff hn]
  have hle := readi_le file off n
  have hsize := h.size
  refine congrArg (fun b => Except.ok ((file.readi off n, b), fs')) (Bytes.blit_congr (fun k hk => ?_) mem 0)
  exact (h.data (off + k) (by omega)).symm

theorem wp_readi (h : Reads fs ip file) (hoff : off < 2 ^ 32) (hn : n < 2 ^ 32) (mem : Bytes)
    (Q : ℕ × Bytes → Fs.State → Prop) : Wp E (Fs.readi sb ip .kernel mem off n) fs Q ↔
      Q (file.readi off n, mem.blit 0 (file.readi off n) fun k => file.data (off + k)) fs :=
  wp_of_eq_ok (h.readi_eq hoff hn mem)

theorem wp_readiPage (hh : Reads w.fs ip file) (hoff : off < 2 ^ 32) (hn : n < 2 ^ 32) (pa : Frame)
    (Q : ℕ → World → Prop) : Wp E (readiPage sb ip pa off n) w Q ↔
      Wp E (Vm.readiPage file pa off n) w.sys.mem fun a m => Q a (w.setMem m) := by
  unfold readiPage Vm.readiPage
  rw [wp_bind, wp_get, wp_bind, wp_onFs, wp_readi hh hoff hn, wp_bind, wp_onMem, wp_modify, wp_bind, wp_modify,
    wp_pure, wp_pure]

theorem wp_loadsegLoop (hh : Reads w.fs ip file) (va offset sz fuel i : ℕ) (Q : Bool → World → Prop) :
    Wp E (loadsegLoop sb t va ip offset sz fuel i) w Q ↔
      Wp E (Vm.loadsegLoop t va file offset sz fuel i) w.sys.mem fun a m => Q a (w.setMem m) := by
  induction fuel generalizing w i with
  | zero =>
    rw [loadsegLoop, Vm.loadsegLoop, wp_pure, wp_pure]
    rfl
  | succ fuel ih =>
    rw [loadsegLoop, Vm.loadsegLoop]
    cases Vm.walkaddr t (va + i) with
    | none =>
      dsimp only
      rw [wp_throw, wp_throw]
    | some pa =>
      have hn : (if sz - i < pgsize then sz - i else pgsize) < 2 ^ 32 := by
        unfold pgsize
        split_ifs <;> omega
      dsimp only
      generalize (if sz - i < pgsize then sz - i else pgsize) = n at hn
      rw [wp_bind, wp_bind, wp_readiPage hh (Nat.mod_lt _ (by norm_num)) hn]
      unfold Vm.readiPage
      simp only [wp_bind, wp_modify, wp_pure]
      split_ifs with hcount
      · rw [wp_pure, wp_pure]
      · generalize w.sys.mem.write pa _ = m
        exact @ih (w.setMem m) hh (i + pgsize)

theorem wp_loadseg (hh : Reads w.fs ip file) (va offset sz : ℕ) (Q : Bool → World → Prop) :
    Wp E (loadseg sb t va ip offset sz) w Q ↔
      Wp E (Vm.loadseg t va file offset sz) w.sys.mem fun a m => Q a (w.setMem m) := by
  unfold loadseg Vm.loadseg
  split_ifs with hva
  · rw [wp_bind, wp_bind, wp_throw, wp_throw]
  · exact wp_loadsegLoop hh va offset sz _ 0 Q

theorem wp_loadSegment (hh : Reads w.fs ip file) (ph : Proghdr) (sz : ℕ)
    (Q : Pagetable × ℕ × Bool → World → Prop) : Wp E (loadSegment sb ip ph t sz) w Q ↔
      Wp E (Vm.loadSegment file ph t sz) w.sys.mem fun a m => Q a (w.setMem m) := by
  unfold loadSegment Vm.loadSegment
  by_cases hfile : ph.memsz < ph.filesz
  · rw [if_pos hfile, if_pos hfile, wp_pure, wp_pure]
    rfl
  by_cases hover : (ph.vaddr + ph.memsz) % 2 ^ 64 < ph.vaddr
  · rw [if_neg hfile, if_neg hfile, if_pos hover, if_pos hover, wp_pure, wp_pure]
    rfl
  rw [if_neg hfile, if_neg hfile, if_neg hover, if_neg hover, wp_bind, wp_bind, wp_onMem]
  refine wp_congr fun r m => ?_
  dsimp only
  split_ifs with hz halign
  · rw [wp_pure, wp_pure]
  · rw [wp_pure, wp_pure]
  · rw [wp_bind, wp_bind, @wp_loadseg sb ip E (w.setMem m) r.1 file hh]
    refine wp_congr fun loaded m' => ?_
    rw [wp_pure, wp_pure]
    rfl

theorem decode_blit (ip : Exe) (off : ℕ) :
    Proghdr.decode (Bytes.blit (fun _ => 0) 0 Vm.sizeofProghdr fun k => ip.data (off + k)) = ip.proghdr off := by
  have hget : ∀ o n, o + n ≤ Vm.sizeofProghdr → Bytes.get (Bytes.blit (fun _ => 0) 0 Vm.sizeofProghdr fun k => ip.data (off + k)) o n =
      Bytes.get (fun k => ip.data (off + k)) o n := by
    intro o n hle
    refine Bytes.get_congr fun k _ hk => ?_
    rw [Bytes.blit, if_pos (by omega), Nat.sub_zero]
  unfold Exe.proghdr Proghdr.decode
  rw [hget 0 4 (by decide), hget 8 8 (by decide), hget 16 8 (by decide), hget 32 8 (by decide), hget 40 8 (by decide)]

theorem wp_loadLoop (hh : Reads w.fs ip file) (n : ℕ) {off : ℕ} (hoff : off < 2 ^ 32) (sz : ℕ)
    (Q : Pagetable × ℕ × Bool → World → Prop) : Wp E (loadLoop sb ip n off t sz) w Q ↔
      Wp E (Vm.loadLoop file n off t sz) w.sys.mem fun a m => Q a (w.setMem m) := by
  induction n generalizing w off t sz with
  | zero =>
    rw [loadLoop, Vm.loadLoop, wp_pure, wp_pure]
    rfl
  | succ n ih =>
    have hnext : (off + Vm.sizeofProghdr) % 2 ^ 32 < 2 ^ 32 := Nat.mod_lt _ (by norm_num)
    rw [loadLoop, Vm.loadLoop, wp_bind, wp_onFs, wp_readi hh hoff (by decide)]
    dsimp only
    by_cases hcount : file.readi off Vm.sizeofProghdr ≠ Vm.sizeofProghdr
    · rw [if_pos hcount, if_pos hcount, wp_pure, wp_pure]
      rfl
    · rw [if_neg hcount, if_neg hcount, not_not.mp hcount, decode_blit]
      split_ifs with htype
      · exact ih hh hnext sz
      · rw [wp_bind, wp_bind, wp_loadSegment hh]
        refine wp_congr ?_
        rintro ⟨t', sz', loaded⟩ m
        cases loaded with
        | false =>
          simp only [Bool.not_false, if_true, wp_pure]
        | true =>
          simp only [Bool.not_true, Bool.false_eq_true, if_false]
          exact ih (w := w.setMem m) hh hnext sz'

end

end Xv6.Exec
