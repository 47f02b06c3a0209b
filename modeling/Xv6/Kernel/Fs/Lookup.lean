import Xv6.Kernel.Fs.Failing

/-! Path lookup is the component-wise walk over the directories. -/
namespace Xv6.Fs
open Lib SlotMap

/-- Follow a list of names from inode `j` on. -/
def walk (F : Files) : ℕ → List Key → Option ℕ
  | j, [] => some j
  | j, k :: ks => (F j).bind fun f =>
    if f.type = .dir then (find k (slots f.content)).bind fun p => walk F p.2 ks else none

/-- The directory of the last of a list of names. -/
def walkParent (F : Files) (j : ℕ) (ks : List Key) : Option ℕ :=
  if ks = [] then none else (walk F j ks.dropLast).filter fun l => (F l).any fun f => f.type = .dir

section
variable {F : Files} {j : ℕ} {k : Key} {ks : List Key} {f : Node}

theorem walk_of_dir (hj : F j = some f) (ht : f.type = .dir) :
    walk F j (k :: ks) = (find k (slots f.content)).bind fun p => walk F p.2 ks := by
  rw [walk, hj, Option.bind_some, if_pos ht]

theorem walk_of_not_dir (hj : F j = some f) (ht : f.type ≠ .dir) : walk F j (k :: ks) = none := by
  rw [walk, hj, Option.bind_some, if_neg ht]

theorem resolve_eq_walk : resolve F false j ks = walk F j ks := by
  induction ks generalizing j with
  | nil => rfl
  | cons k ks ih =>
    cases hj : F j with
    | none => rw [resolve, walk, hj, Option.bind_none]
    | some f =>
      by_cases ht : f.type = .dir
      · rw [resolve_of_dir hj ht (by simp), walk_of_dir hj ht]
        simp only [ih]
      · rw [resolve_of_not_dir hj ht, walk_of_not_dir hj ht]

theorem walkParent_single : walkParent F j [k] = if (F j).any fun f => f.type = .dir then some j else none := by
  rw [walkParent, if_neg (List.cons_ne_nil _ _)]
  show (some j).filter _ = _
  rw [Option.filter_some]

theorem walkParent_cons (hks : ks ≠ []) (hj : F j = some f) (ht : f.type = .dir) :
    walkParent F j (k :: ks) = (find k (slots f.content)).bind fun p => walkParent F p.2 ks := by
  rw [walkParent, if_neg (List.cons_ne_nil _ _), List.dropLast_cons_of_ne_nil hks, walk_of_dir hj ht]
  cases find k (slots f.content) with
  | none => rfl
  | some p => rw [Option.bind_some, Option.bind_some, walkParent, if_neg hks]

theorem walkParent_of_not_dir (hj : (F j).any (fun f => f.type = .dir) = false) : walkParent F j ks = none := by
  unfold walkParent
  split_ifs with h0
  · rfl
  · cases hd : ks.dropLast with
    | nil =>
      rw [walk, Option.filter_some, hj]
      rfl
    | cons k ks =>
      cases hf : F j with
      | none => rw [walk, hf, Option.bind_none, Option.filter_none]
      | some f =>
        rw [walk_of_not_dir hf (by simpa [hf] using hj), Option.filter_none]

theorem resolve_eq_walkParent : resolve F true j ks = walkParent F j ks := by
  induction ks generalizing j with
  | nil => rfl
  | cons k ks ih =>
    cases hj : F j with
    | none =>
      rw [walkParent_of_not_dir (by rw [hj]; rfl), resolve, hj]
    | some f =>
      by_cases ht : f.type = .dir
      · cases ks with
        | nil =>
          rw [resolve_last hj ht rfl, walkParent_single, hj, if_pos (by simpa using ht)]
        | cons k' ks =>
          rw [resolve_of_dir hj ht (by simp), walkParent_cons (List.cons_ne_nil _ _) hj ht]
          simp only [ih]
      · rw [resolve_of_not_dir hj ht, walkParent_of_not_dir (by simpa [hj] using ht)]

end

/-- A lookup finds the file `target`. The inode it returns has one more reference. -/
structure Finds (s s' : State) (r : Option (Fin ninode)) (target : Option ℕ) : Prop where
  inum : r.map (fun i => (s'.inode i).inum) = target
  ref : ∀ k, (s'.inode k).ref = (s.inode k).ref + if r = some k then 1 else 0
  unlocked : ∀ k, (s'.inode k).locked = false
  disk : s'.disk = s.disk

section
variable {sb : Superblock} {H : Multiset Handle} {s s' : State} {cwd : Fin ninode} {jc j : ℕ} {path : List UInt8}
  {parent : Bool} {ks : List Key} {r : Option (Fin ninode) × Bytes}

theorem Ok.unlocked {t : Bool} (h : Ok sb t ∅ H s) (k : Fin ninode) : (s.inode k).locked = false := by
  rw [Bool.eq_false_iff]
  exact fun hl => Finset.notMem_empty k ((h.locked k).mp hl)

theorem Resolved.finds (h : Ok sb true ∅ H s) (hset : Settled H (s.disk.file sb)) (hr : Resolved sb H parent j ks s r s') :
    Finds s s' r.1 (resolve (s.disk.file sb) parent j ks) := by
  cases hr1 : r.1 with
  | none =>
    obtain ⟨hok, hres⟩ := hr.none hr1
    refine ⟨(hres hset).symm, fun k => ?_, hok.unlocked, hr.same hset⟩
    rw [hok.ref, h.ref, if_neg (by simp), add_zero]
  | some i =>
    obtain ⟨j', hok, -, hres, -⟩ := hr.some i hr1
    refine ⟨?_, fun k => ?_, hok.unlocked, hr.same hset⟩
    · rw [hres, Option.map_some, hok.inum i j' (Multiset.mem_cons_self _ _)]
    · rw [hok.ref, h.ref, Multiset.map_cons]
      by_cases hk : k = i
      · rw [hk, Multiset.count_cons_self, if_pos rfl]
        rfl
      · rw [Multiset.count_cons_of_ne hk, if_neg (by simpa using Ne.symm hk), add_zero]

end

/-- The entries of the directories name inodes in use. -/
def View.Leads (sb : Superblock) (v : View) : Prop :=
  ∀ j < sb.ninodes, (v.node j).type = .dir → ∀ o ∈ slots (v.content j), ∀ p ∈ o, v.Live sb p.2

instance (sb : Superblock) (v : View) : Decidable (v.Leads sb) := inferInstanceAs (Decidable (∀ j < sb.ninodes, _ → _))

theorem View.Leads.noDangling {sb : Superblock} {v : View} (h : v.Leads sb) : NoDangling (v.file sb) := by
  intro j f hf hty n k inum hn hnone
  have hlive : v.Live sb j := by
    by_contra hno
    rw [View.file_eq_none.mpr hno] at hf
    cases hf
  rw [View.file_of_live hlive] at hf
  obtain rfl := Option.some.inj hf
  exact View.file_eq_none.mp hnone (h j hlive.1 hty _ (List.mem_of_getElem? hn) (k, inum) rfl)

/-- The path `/a//../a`. -/
def pathRound : CStr := ⟨[47, 97, 47, 47, 46, 46, 47, 97], by decide⟩

theorem eq_error_of_map {α β : Type*} {f : α → β} {x : Except Halt α} {e : Halt} (h : x.map f = .error e) : x = .error e := by
  cases x with
  | ok a => cases h
  | error e' => rw [Except.error.inj h]

/-- The paths `a`, `b`, `../b` and `../x`. -/
def nameA : CStr := ⟨[97], by decide⟩
def nameB : CStr := ⟨[98], by decide⟩
def pathUpB : CStr := ⟨[46, 46, 47, 98], by decide⟩
def pathUpX : CStr := ⟨[46, 46, 47, 120], by decide⟩

/-- In `/a/b`, the names `../b` and `/a` are removed. The first directory stays, as the process is in it,
and the inode of the second is freed. -/
def danglingParent : List (Fin nproc × Syscall) :=
  [(0, .mkdir (some nameA)), (0, .chdir (some nameA)), (0, .mkdir (some nameB)), (0, .chdir (some nameB)),
    (0, .unlink (some pathUpB)), (0, .unlink (some pathA))]

end Xv6.Fs
