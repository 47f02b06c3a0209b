import Xv6.Kernel.Exec.Failure

/-! The image that `exec` loads is the one that the file describes, as long as the offsets and sizes in
its headers fit the `uint` that they go through. -/
namespace Xv6.Exec
open Lib
open Fs (Superblock CStr Handle)
open Vm (Pagetable Proghdr Exe Pool Str)

/-- The segment of a header has a byte for address `a`. -/
def covers (a : ℕ) (ph : Proghdr) : Bool := decide (ph.type = Vm.elfProgLoad ∧ ph.vaddr ≤ a ∧ a < ph.vaddr + ph.filesz)

/-- The byte at `a` in the image of a file: that of the last segment there, or 0. -/
def imageByte (ip : Exe) (a : ℕ) : UInt8 :=
  match (ip.headers ip.elfhdr.phoff ip.elfhdr.phnum).reverse.find? (covers a) with
  | some ph => ip.data (ph.off + (a - ph.vaddr))
  | none => 0

/-- The fields that go through `int` and `uint` are small enough. -/
structure Narrow (ip : Exe) : Prop where
  phoff : ip.elfhdr.phoff < 2 ^ 32
  segments : ∀ ph ∈ ip.headers ip.elfhdr.phoff ip.elfhdr.phnum, ph.type = Vm.elfProgLoad →
    ph.off < 2 ^ 32 ∧ ph.filesz < 2 ^ 32

section
variable {ip : Exe}

theorem foldl_overlay {hs : List Proghdr}
    (hn : ∀ ph ∈ hs, ph.type = Vm.elfProgLoad → ph.off < 2 ^ 32 ∧ ph.filesz < 2 ^ 32) (f : Bytes) (a : ℕ) :
    hs.foldl ip.overlay f a =
      match hs.reverse.find? (covers a) with
      | some ph => ip.data (ph.off + (a - ph.vaddr))
      | none => f a := by
  induction hs using List.reverseRecOn with
  | nil => rfl
  | append_singleton hs ph ih =>
    rw [List.foldl_append, List.foldl_cons, List.foldl_nil, List.reverse_append, List.reverse_singleton, List.singleton_append,
      List.find?_cons]
    have ih := ih fun q hq => hn q (List.mem_append_left _ hq)
    unfold Exe.overlay
    by_cases hload : ph.type = Vm.elfProgLoad
    · obtain ⟨hoff, hsz⟩ := hn ph (by simp) hload
      rw [if_pos hload, Nat.mod_eq_of_lt hoff, Nat.mod_eq_of_lt hsz, Bytes.blit]
      by_cases hin : ph.vaddr ≤ a ∧ a < ph.vaddr + ph.filesz
      · rw [if_pos hin, show covers a ph = true from decide_eq_true ⟨hload, hin⟩]
      · rw [if_neg hin, show covers a ph = false from decide_eq_false fun hc => hin hc.2]
        exact ih
    · rw [if_neg hload, show covers a ph = false from decide_eq_false fun hc => hload hc.1]
      exact ih

theorem Narrow.headersOf (h : Narrow ip) : headersOf ip = ip.headers ip.elfhdr.phoff ip.elfhdr.phnum := by
  rw [Exec.headersOf, Nat.mod_eq_of_lt h.phoff]

theorem withStack_below {f : Bytes} {sz a : ℕ} {argv : List Str} (hfits : Vm.stackSize argv ≤ pgsize) (hsz : pgsize ≤ sz)
    (ha : a < sz - pgsize) : Vm.withStack f sz argv a = f a := by
  have hsize : Vm.stackSize argv = Vm.argsSize argv + Vm.padded ((argv.length + 1) * 8) := rfl
  rw [Vm.withStack, Bytes.blit, if_neg (by omega)]
  exact Vm.withArgs_frame (by omega) (by omega)

end

section
variable {sb : Superblock} {H : Multiset Handle} {w w' : World} {i : Fin nproc} {path : CStr} {argv : List CStr}
  {cwd : Fin ninode} {j jc : ℕ} {pool : Pool} {r : ℤ} {ip : Exe}

theorem replaced_of_exec (h : Fs.Calling sb false H cwd jc w.fs) (hI : Vm.Inv pool 0 w.sys)
    (hi : (w.sys.proc i).state ≠ .unused) (hx : exec sb i cwd path argv w = .ok (r, w')) (hr : r ≠ -1) :
    ∃ j f t sz sp, Fs.walk (w.fs.disk.file sb) (Fs.startOf jc path.bytes) (Fs.keys path.bytes) = some j ∧
      w.fs.disk.file sb j = some f ∧ r = argv.length ∧ Replaced i path argv (exeOf f.content) w t sz sp w' := by
  rcases (wp_exec (E := fun _ => True) h (fun _ => trivial) (fun _ => trivial) hI hi).of_ok hx with
    ⟨hm, -⟩ | ⟨j, f, hj, hf, -, ⟨hm, -⟩ | ⟨hr', t, sz, sp, hdone⟩⟩
  · exact absurd hm hr
  · exact absurd hm hr
  · exact ⟨j, f, t, sz, sp, hj, hf, hr', hdone⟩

theorem Replaced.proc {t : Pagetable} {sz sp : ℕ} {file : Exe} (h : Replaced i path argv file w t sz sp w') :
    w'.sys.proc i = { w.sys.proc i with pagetable := some t, sz } := by
  rw [h.sys]
  exact Function.update_self _ _ _

end

/-- The program of three bytes, with 2³² added to `phoff`. -/
def wideExe : Bytes := smallExe.set 32 8 (2 ^ 32 + 64)

end Xv6.Exec
