import Xv6.Lib.Ring
import Xv6.Lib.Bytes
import Xv6.Kernel.Param
import Mathlib.Data.List.FinRange
import Mathlib.Tactic.Simps.Basic

/-! The buffer cache of `bio.c`: the critical sections of `bget`, `brelse`, `bpin` and
`bunpin` under `bcache.lock`. -/
namespace Xv6
open Lib

abbrev BufId := Fin nbuf
abbrev Pid := Fin nproc

/-- The `BSIZE` bytes of a disk block. -/
abbrev Block := Bytes

/-- `lock` is the sleep lock: the process that holds it, if any. `refcnt` is a `uint`. -/
structure Buf where
  valid : Bool
  dev : ℕ
  blockno : ℕ
  lock : Option Pid
  refcnt : ℕ
  data : Block

namespace Buf

/-- `b->refcnt++` -/
@[simps -fullyApplied] def incr (b : Buf) : Buf := { b with refcnt := (b.refcnt + 1) % 2 ^ 32 }

/-- `b->refcnt--` -/
@[simps -fullyApplied] def decr (b : Buf) : Buf :=
  { b with refcnt := if b.refcnt = 0 then 2 ^ 32 - 1 else b.refcnt - 1 }

/-- The buffer is bound to block `blockno` of the root device. -/
def Holds (b : Buf) (blockno : ℕ) : Prop := b.dev = rootDev ∧ b.blockno = blockno

instance (b : Buf) (n : ℕ) : Decidable (b.Holds n) :=
  inferInstanceAs (Decidable (_ ∧ _))

end Buf

structure Bcache where
  buf : BufId → Buf
  links : Links BufId

namespace Bcache

def update (c : Bcache) (i : BufId) (f : Buf → Buf) : Bcache :=
  { c with buf := Function.update c.buf i (f (c.buf i)) }

/-- Buffers in the order of the `next` pointers; `NBUF + 1` turns reach the head again. -/
def mru (c : Bcache) : List BufId := c.links.forward (nbuf + 1) (c.links.next none)

/-- Buffers in the order of the `prev` pointers. -/
def lru (c : Bcache) : List BufId := c.links.backward (nbuf + 1) (c.links.prev none)

/-- The statically zeroed buffers, linked one after the other behind the head. -/
def binit : Bcache where
  buf _ := { valid := false, dev := 0, blockno := 0, lock := none, refcnt := 0, data := fun _ => 0 }
  links := (List.finRange nbuf).foldl Links.pushFront Links.empty

/-- `bget` up to the release of `bcache.lock`; the caller still has to take `b->lock`. -/
def bget (c : Bcache) (blockno : ℕ) : Except Halt (BufId × Bcache) :=
  match c.mru.find? fun i => (c.buf i).Holds blockno with
  | some i => .ok (i, c.update i Buf.incr)
  | none =>
    match c.lru.find? fun i => (c.buf i).refcnt = 0 with
    | some i =>
      .ok (i, c.update i fun b => { b with dev := rootDev, blockno, valid := false, refcnt := 1 })
    | none => .error (.panic .bgetNoBuffers)

/-- The critical section of `brelse`, after `releasesleep`. -/
def put (c : Bcache) (i : BufId) : Bcache :=
  let c := c.update i Buf.decr
  if (c.buf i).refcnt = 0 then { c with links := (c.links.unlink i).pushFront i } else c

def bpin (c : Bcache) (i : BufId) : Bcache := c.update i Buf.incr

def bunpin (c : Bcache) (i : BufId) : Bcache := c.update i Buf.decr

@[simp] theorem update_self (c : Bcache) (i : BufId) (f : Buf → Buf) :
    (c.update i f).buf i = f (c.buf i) := by
  simp [update]

theorem update_ne (c : Bcache) {i j : BufId} (f : Buf → Buf) (h : j ≠ i) :
    (c.update i f).buf j = c.buf j := by
  simp [update, h]

@[simp] theorem update_links (c : Bcache) (i : BufId) (f : Buf → Buf) :
    (c.update i f).links = c.links := rfl

def Linked (c : Bcache) : Prop := ∃ l, c.links.Ring l ∧ ∀ i, i ∈ l

theorem Linked.length {c : Bcache} {l : List BufId} (h : c.links.Ring l) (hall : ∀ i, i ∈ l) :
    l.length = nbuf := by
  have hp : l.Perm (List.finRange nbuf) :=
    (List.perm_ext_iff_of_nodup h.nodup (List.nodup_finRange nbuf)).mpr fun i => by simp [hall]
  simpa using hp.length_eq

theorem Linked.mem_mru {c : Bcache} (h : c.Linked) (i : BufId) : i ∈ c.mru := by
  obtain ⟨l, hl, hall⟩ := h
  have := Linked.length hl hall
  rw [mru, hl.forward (by omega)]
  exact hall i

theorem Linked.mem_lru {c : Bcache} (h : c.Linked) (i : BufId) : i ∈ c.lru := by
  obtain ⟨l, hl, hall⟩ := h
  have := Linked.length hl hall
  rw [lru, hl.backward (by omega)]
  simpa using hall i

theorem linked_binit : binit.Linked := by
  have key : ∀ (todo l : List BufId) (L : Links BufId), L.Ring l → (todo ++ l).Nodup →
      ∃ l', (todo.foldl Links.pushFront L).Ring l' ∧ ∀ i, i ∈ todo ++ l → i ∈ l' := by
    intro todo
    induction todo with
    | nil => exact fun l L hl _ => ⟨l, hl, by simp⟩
    | cons b todo ih =>
      intro l L hl hnd
      have hb : b ∉ l := fun h => by simp [h] at hnd
      have hnd' : (todo ++ b :: l).Nodup := List.nodup_middle.mpr (by simpa using hnd)
      obtain ⟨l', hl', hmem⟩ := ih (b :: l) (L.pushFront b) (hl.pushFront hb) hnd'
      exact ⟨l', hl', fun i hi => hmem i (by simpa [or_left_comm] using hi)⟩
  obtain ⟨l, hl, hmem⟩ := key (List.finRange nbuf) [] Links.empty Links.ring_empty
    (by simpa using List.nodup_finRange nbuf)
  exact ⟨l, hl, fun i => hmem i (by simp)⟩

theorem Linked.put {c : Bcache} (h : c.Linked) (i : BufId) : (c.put i).Linked := by
  unfold Bcache.put
  dsimp only
  split_ifs with hz
  · obtain ⟨l, hl, hall⟩ := h
    obtain ⟨l₁, l₂, rfl⟩ := List.append_of_mem (hall i)
    have hnd := List.nodup_cons.mp (List.nodup_middle.mp hl.nodup)
    refine ⟨i :: (l₁ ++ l₂), hl.unlink.pushFront hnd.1, fun j => ?_⟩
    have := hall j
    simp only [List.mem_append, List.mem_cons] at this ⊢
    tauto
  · exact h

@[simp] theorem put_buf (c : Bcache) (i : BufId) : (c.put i).buf = (c.update i Buf.decr).buf := by
  unfold put
  dsimp only
  split_ifs <;> rfl

theorem bget_ok {c c' : Bcache} (hl : c.Linked) {n : ℕ} {i : BufId}
    (h : c.bget n = .ok (i, c')) :
    ((c.buf i).Holds n ∧ c' = c.update i Buf.incr) ∨
      ((∀ j, ¬ (c.buf j).Holds n) ∧ (c.buf i).refcnt = 0 ∧
        c' = c.update i fun b =>
          { b with dev := rootDev, blockno := n, valid := false, refcnt := 1 }) := by
  unfold bget at h
  cases hf : c.mru.find? fun i => (c.buf i).Holds n with
  | some j =>
    simp only [hf, Except.ok.injEq, Prod.mk.injEq] at h
    obtain ⟨rfl, rfl⟩ := h
    exact .inl ⟨by simpa using List.find?_some hf, rfl⟩
  | none =>
    have hno : ∀ j, ¬ (c.buf j).Holds n := fun j => by
      simpa using List.find?_eq_none.mp hf j (hl.mem_mru j)
    simp only [hf] at h
    cases hf' : c.lru.find? fun i => (c.buf i).refcnt = 0 with
    | none => simp [hf'] at h
    | some j =>
      simp only [hf', Except.ok.injEq, Prod.mk.injEq] at h
      obtain ⟨rfl, rfl⟩ := h
      exact .inr ⟨hno, by simpa using List.find?_some hf', rfl⟩

theorem bget_error {c : Bcache} (hl : c.Linked) {n : ℕ} (h : ∀ r, c.bget n ≠ .ok r) (i : BufId) :
    (c.buf i).refcnt ≠ 0 := by
  unfold bget at h
  cases hf : c.mru.find? fun i => (c.buf i).Holds n with
  | some j => exact absurd (by rw [hf]) (h (j, c.update j Buf.incr))
  | none =>
    cases hf' : c.lru.find? fun i => (c.buf i).refcnt = 0 with
    | some j => exact absurd (by rw [hf, hf']) (h (j, c.update j fun b =>
        { b with dev := rootDev, blockno := n, valid := false, refcnt := 1 }))
    | none => simpa using List.find?_eq_none.mp hf' i (hl.mem_lru i)

end Bcache
end Xv6
