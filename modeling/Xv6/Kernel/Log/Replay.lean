import Xv6.Kernel.Log.Machine

/-! What the log is for, in terms of the events of a run: the contents that have been
logged, the contents that have been committed, and the disk that a recovery leaves. -/
namespace Xv6
open Lib

abbrev Disk := ℕ → Block

/-- The blocks of the log on a disk laid out by `mkfs`: its header and its copies. -/
def InLog (n : ℕ) : Prop := 2 ≤ n ∧ n < 2 + logSize

instance (n : ℕ) : Decidable (InLog n) := inferInstanceAs (Decidable (_ ∧ _))

namespace Event

def apply (m : Disk) : Event → Disk
  | .logWrite _ n v => Function.update m n v
  | _ => m

def isCommit : Event → Bool
  | .commit => true
  | _ => false

end Event

/-- The flat array of blocks after the logged writes of a run. -/
def replay (m : Disk) (tr : List Event) : Disk := tr.foldl Event.apply m

/-- The events up to the last header write that committed a group. -/
def committed (tr : List Event) : List Event := (tr.reverse.dropWhile fun e => !e.isCommit).reverse

/-- Whether process `p` is inside an operation after these events. -/
def inOp (tr : List Event) (p : Pid) : Bool :=
  tr.foldl (fun b e => match e with
    | .beginOp q => if q = p then true else b
    | .endOp q => if q = p then false else b
    | _ => b) false

/-- Every operation that these events begin, they also end. -/
def Complete (tr : List Event) : Prop := ∀ p, inOp tr p = false

@[simp] theorem replay_nil (m : Disk) : replay m [] = m := rfl

@[simp] theorem replay_concat (m : Disk) (tr : List Event) (e : Event) :
    replay m (tr ++ [e]) = e.apply (replay m tr) := by
  simp [replay]

@[simp] theorem committed_nil : committed [] = [] := rfl

theorem committed_concat (tr : List Event) (e : Event) :
    committed (tr ++ [e]) = if e.isCommit then tr ++ [e] else committed tr := by
  unfold committed
  rw [List.reverse_append, List.reverse_singleton, List.singleton_append, List.dropWhile_cons]
  cases e.isCommit <;> simp

theorem committed_prefix (tr : List Event) : committed tr <+: tr := by
  unfold committed
  rw [← List.reverse_suffix, List.reverse_reverse]
  exact List.dropWhile_suffix _

@[simp] theorem inOp_nil (p : Pid) : inOp [] p = false := rfl

@[simp] theorem inOp_concat (tr : List Event) (e : Event) (p : Pid) :
    inOp (tr ++ [e]) p = match e with
      | .beginOp q => if q = p then true else inOp tr p
      | .endOp q => if q = p then false else inOp tr p
      | _ => inOp tr p := by
  simp [inOp]

/-- What a completed recovery makes of a disk: the copies in the log, at home. -/
def recovered (d : Disk) : Disk := fun n =>
  if n ∈ (d 2).header then d (2 + (d 2).header.idxOf n + 1) else d n

/-- The header names as many blocks as the log has copies of, each one once and none of
them in the log itself. -/
structure Recoverable (d : Disk) : Prop where
  room : (d 2).header.length < logSize
  nodup : (d 2).header.Nodup
  home : ∀ n ∈ (d 2).header, ¬ InLog n

theorem recovered_of_empty {d : Disk} (h : (d 2).header = []) : recovered d = d := by
  funext n
  simp [recovered, h]

theorem recovered_of_getElem {d : Disk} (hnd : (d 2).header.Nodup) {k : ℕ}
    (hk : k < (d 2).header.length) : recovered d ((d 2).header[k]) = d (2 + k + 1) := by
  rw [recovered, if_pos (List.getElem_mem hk), hnd.idxOf_getElem k hk]

theorem Recoverable.of_empty {d : Disk} (h : (d 2).header = []) : Recoverable d := by
  constructor <;> simp [h, logSize, maxOpBlocks]

namespace Block

theorem get_setEntries_lt (b : Block) (i : ℕ) (lh : List ℕ) {off : ℕ} (h : off + 4 ≤ 4 * (i + 1)) :
    (setEntries b i lh).get off 4 = b.get off 4 := by
  induction lh generalizing b i with
  | nil => rfl
  | cons n lh ih =>
    rw [setEntries, ih _ _ (by omega), Bytes.get_set_of_disjoint (by omega)]

theorem get_setEntries (b : Block) (i : ℕ) (lh : List ℕ) (hlt : ∀ n ∈ lh, n < 2 ^ 32) {k : ℕ}
    (hk : k < lh.length) : (setEntries b i lh).get (4 * (i + k + 1)) 4 = lh[k] := by
  induction lh generalizing b i k with
  | nil => simp at hk
  | cons n lh ih =>
    rw [setEntries]
    cases k with
    | zero =>
      rw [get_setEntries_lt _ _ _ (by omega), Nat.add_zero]
      exact Bytes.get_set (hlt n (by simp))
    | succ k =>
      have := ih (Bytes.set b (4 * (i + 1)) 4 n) (i + 1) (fun m hm => hlt m (by simp [hm]))
        (k := k) (by simpa using hk)
      rw [show i + (k + 1) + 1 = i + 1 + k + 1 by omega, this]
      simp

theorem header_setHeader (b : Block) {lh : List ℕ} (hlen : lh.length < 2 ^ 32)
    (hlt : ∀ n ∈ lh, n < 2 ^ 32) : (setHeader b lh).header = lh := by
  have hn : (setHeader b lh).get 0 4 = lh.length := by
    rw [setHeader, get_setEntries_lt _ _ _ (by omega)]
    exact Bytes.get_set hlen
  refine List.ext_getElem (by simp [header, hn]) fun k hk hk' => ?_
  simp only [header, List.getElem_map, List.getElem_range]
  have := get_setEntries (Bytes.set b 0 4 lh.length) 0 lh hlt hk'
  rwa [Nat.zero_add] at this

theorem header_lt (b : Block) : ∀ n ∈ b.header, n < 2 ^ 32 := by
  intro n hn
  obtain ⟨i, -, rfl⟩ := List.mem_map.mp hn
  exact Bytes.get_lt b _ 4

end Block
end Xv6
