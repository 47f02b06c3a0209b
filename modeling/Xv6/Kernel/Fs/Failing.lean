import Xv6.Kernel.Fs.Boot

/-! A system call on a path that fails leaves everything as it was. -/
namespace Xv6.Fs
open Lib

/-- The calls that look up a path, but for `exec`. -/
def Syscall.onPath : Syscall → Bool
  | .open _ _ | .link _ _ | .unlink _ | .mkdir _ | .mknod _ _ _ | .chdir _ => true
  | _ => false

/-- An `open` that may create a file finds a place for it in the tables. -/
def Syscall.HasRoom (s : Sys) (p : Fin nproc) : Syscall → Prop
  | .open _ omode => omode &&& oCreate = 0 ∨ Room s p
  | _ => True

/-- Nothing that a process can see has changed. -/
structure Unchanged (s s' : Sys) : Prop where
  disk : s'.fs.disk = s.fs.disk
  file : s'.file = s.file
  proc : s'.proc = s.proc
  ref : ∀ i, (s'.fs.inode i).ref = (s.fs.inode i).ref

/-- The link counts are values of a `short`, and there are no files without links. -/
def View.Linked (sb : Superblock) (v : View) : Prop :=
  ∀ j, v.Live sb j → (v.node j).nlink ≠ 0 ∧ short16 (v.node j).nlink = (v.node j).nlink

section
variable {sb : Superblock} {short : ShortInt} {v : View} {s s' : Sys} {p : Fin nproc} {cwd : Fin ninode}

theorem tidy_boot (h : v.Linked sb) : Tidy short16 ((boot v).ns sb) := by
  have hnode : ∀ j f, v.file sb j = some f → f.nlink ≠ 0 ∧ short16 f.nlink = f.nlink := by
    intro j f hf
    by_cases hlive : v.Live sb j
    · rw [View.file_of_live hlive] at hf
      rw [← Option.some.inj hf]
      exact h j hlive
    · rw [View.file_eq_none.mpr hlive] at hf
      cases hf
  exact ⟨fun j f hf h0 => absurd h0 (hnode j f hf).1, fun j f hf => (hnode j f hf).2⟩

theorem Failed.unchanged (h : Failed sb short s s') (hI : Inv sb s) (hd : s'.fs.disk = s.fs.disk) : Unchanged s s' := by
  refine ⟨hd, h.file, h.proc, fun i => ?_⟩
  rw [h.moves.inv.ok.ref i, hI.ok.ref i, h.holders]

theorem unchanged_of_body (hI : Inv sb s) (ht : Tidy short (s.ns sb)) (hcwd : (s.proc p).cwd = some cwd) (c : Syscall)
    (hc : c.onPath = true) (hroom : c.HasRoom s p) :
    Wp (Fails sb s) (c.body sb short p cwd) s fun r s' => r = -1 → Unchanged s s' := by
  have hcall : ∀ r s', CallPost sb short s r s' → r = -1 → Unchanged s s' := fun r s' hr h1 =>
    (hr.failed h1).1.unchanged hI ((hr.failed h1).2 ht)
  cases c with
  | «open» path omode =>
    refine (wp_sysOpen hI hcwd (noNul path)).mono fun r s' hr h1 => ?_
    exact (hr.failed h1).1.unchanged hI ((hr.failed h1).2 ht.settled hroom)
  | link old new => exact (wp_link hI hcwd (noNul old) (noNul new)).mono hcall
  | unlink path => exact (wp_unlink hI hcwd (noNul path)).mono hcall
  | mkdir path | mknod path major minor => exact (wp_make hI hcwd (noNul path) (by decide) (by decide)).mono hcall
  | chdir path => exact (wp_sysChdir hI hcwd (noNul path)).mono hcall
  | _ => cases hc

instance (v : View) : Decidable (v.Linked smallSb) :=
  decidable_of_iff (∀ j < smallSb.ninodes, (v.node j).type ≠ .free →
    (v.node j).nlink ≠ 0 ∧ short16 (v.node j).nlink = (v.node j).nlink) ⟨fun h j hj => h j hj.1 hj.2, fun h j hj ht => h j ⟨hj, ht⟩⟩

/-- What a call returns. -/
def returned (x : Except Halt (ℤ × Sys)) (test : ℤ → Sys → Bool) : Bool :=
  match x with
  | .ok (r, s) => test r s
  | .error _ => false

theorem exists_of_returned {x : Except Halt (ℤ × Sys)} {test : ℤ → Sys → Bool} (h : returned x test = true) :
    ∃ r s, x = .ok (r, s) ∧ test r s = true := by
  cases x with
  | ok a => exact ⟨a.1, a.2, rfl, h⟩
  | error e => cases h

/-- The path `/b`. -/
def pathB : CStr := ⟨[47, 98], by decide⟩

end

end Xv6.Fs
