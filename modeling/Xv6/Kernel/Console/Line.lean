import Xv6.Lib.Fifo
import Mathlib.Tactic

/-! The input buffer of `console.c`, and the editing of lines that it implements. -/
namespace Xv6.Console
open Lib

def inputBuf : ℕ := 128

instance : NeZero inputBuf := ⟨by decide⟩

def ctrlD : UInt8 := 4
def ctrlH : UInt8 := 8
def newline : UInt8 := 10
def carriageReturn : UInt8 := 13
def ctrlP : UInt8 := 16
def ctrlU : UInt8 := 21
def delete : UInt8 := 127

/-- What a user sees: the characters that can be read, with how many have been, and the line that
is being edited. -/
structure Line where
  committed : List UInt8
  taken : ℕ
  pending : List UInt8

/-- How much of the buffer is in use. -/
def Line.used (l : Line) : ℕ := l.committed.length - l.taken + l.pending.length

/-- `'\r'` is read as `'\n'`. -/
def input (c : UInt8) : UInt8 := if c = carriageReturn then newline else c

/-- A character is typed. It is dropped while the buffer is full, and the line is committed at its
end, at `^D`, and when it fills the buffer. -/
def Line.type (l : Line) (c : UInt8) : Line :=
  if c = ctrlP then l
  else if c = ctrlU then { l with pending := [] }
  else if c = ctrlH ∨ c = delete then { l with pending := l.pending.dropLast }
  else if c ≠ 0 ∧ l.used < inputBuf then
    if input c = newline ∨ input c = ctrlD ∨ l.used + 1 = inputBuf then
      { l with committed := l.committed ++ l.pending ++ [input c], pending := [] }
    else { l with pending := l.pending ++ [input c] }
  else l

/-- A character is typed, or one is taken out of the buffer. -/
inductive Event
  | typed (c : UInt8)
  | took
  deriving DecidableEq

def Line.step (l : Line) : Event → Line
  | .typed c => l.type c
  | .took => { l with taken := l.taken + 1 }

/-- The line after some events, the newest first. -/
def Line.replay : List Event → Line
  | [] => { committed := [], taken := 0, pending := [] }
  | e :: h => (Line.replay h).step e

/-- `cons`. -/
structure Cons where
  buf : Fin inputBuf → UInt8
  r : BitVec 32
  w : BitVec 32
  e : BitVec 32

namespace Cons

/-- `while (cons.e != cons.w && cons.buf[(cons.e - 1) % INPUT_BUF] != '\n') cons.e--`, which turns
at most `e - w` times. -/
def killLine (d : Cons) : ℕ → Cons
  | 0 => d
  | fuel + 1 =>
    if d.e ≠ d.w ∧ d.buf (cell inputBuf (d.e - 1)) ≠ newline then { d with e := d.e - 1 }.killLine fuel else d

/-- The `switch` of `consoleintr`. The flag says that `wakeup(&cons.r)` is called. -/
def consoleintr (d : Cons) (c : UInt8) : Cons × Bool :=
  if c = ctrlP then (d, false)
  else if c = ctrlU then (d.killLine (d.e - d.w).toNat, false)
  else if c = ctrlH ∨ c = delete then (if d.e ≠ d.w then { d with e := d.e - 1 } else d, false)
  else if c ≠ 0 ∧ (d.e - d.r).toNat < inputBuf then
    let d' := { d with buf := Function.update d.buf (cell inputBuf d.e) (input c), e := d.e + 1 }
    if input c = newline ∨ input c = ctrlD ∨ d'.e = d'.r + BitVec.ofNat 32 inputBuf then ({ d' with w := d'.e }, true)
    else (d', false)
  else (d, false)

/-- `cons.buf[cons.r % INPUT_BUF]` -/
def next (d : Cons) : UInt8 := d.buf (cell inputBuf d.r)

/-- The buffer holds what has been committed and not been taken, and then the line. -/
structure Holds (d : Cons) (l : Line) : Prop where
  order : (d.w - d.r).toNat ≤ (d.e - d.r).toNat
  room : (d.e - d.r).toNat ≤ inputBuf
  taken : l.taken ≤ l.committed.length
  committed : l.committed.drop l.taken = contents d.buf d.r d.w
  pending : l.pending = contents d.buf d.w d.e
  line : newline ∉ l.pending

variable {d : Cons} {l : Line}

theorem Holds.used (h : d.Holds l) : l.used = (d.e - d.r).toNat := by
  have h1 := congrArg List.length h.committed
  have h2 := congrArg List.length h.pending
  rw [List.length_drop, length_contents] at h1
  rw [length_contents] at h2
  unfold Line.used
  rw [h1, h2, toNat_sub_add h.order]

theorem Holds.take (h : d.Holds l) (hne : d.r ≠ d.w) : { d with r := d.r + 1 }.Holds (l.step .took) := by
  have hw := toNat_sub_succ hne
  have hpos := toNat_sub_pos hne
  have hre : d.r ≠ d.e := by
    intro he
    have hle := h.order
    rw [← he, sub_self] at hle
    exact absurd hle (not_le.mpr hpos)
  have he := toNat_sub_succ hre
  have hlen := congrArg List.length h.committed
  rw [List.length_drop, length_contents] at hlen
  have hord := h.order
  have hroom := h.room
  refine ⟨by dsimp only; omega, by dsimp only; omega, ?_, ?_, h.pending, h.line⟩
  · dsimp only [Line.step]
    omega
  · dsimp only [Line.step]
    rw [← List.tail_drop, h.committed, contents_pop hne, List.tail_cons]

theorem Holds.next (h : d.Holds l) (hne : d.r ≠ d.w) : l.committed[l.taken]? = some d.next := by
  rw [← List.head?_drop, h.committed, contents_pop hne]
  rfl

theorem Holds.erase (h : d.Holds l) (hne : d.e ≠ d.w) :
    { d with e := d.e - 1 }.Holds { l with pending := l.pending.dropLast } := by
  have hpos := toNat_sub_pos hne.symm
  have hsum := toNat_sub_add h.order
  have hre : d.r ≠ d.e := by
    intro he
    rw [← he, sub_self] at hsum
    change _ = 0 at hsum
    rw [← he] at hpos
    omega
  have hpred := toNat_pred_sub hre
  have hroom := h.room
  refine ⟨by dsimp only; omega, by dsimp only; omega, h.taken, h.committed, ?_, fun hmem => ?_⟩
  · rw [contents_dropLast hne.symm, h.pending]
  · exact h.line (List.dropLast_subset _ hmem)

theorem Holds.killLine (n : ℕ) (hn : (d.e - d.w).toNat = n) (h : d.Holds l) :
    (d.killLine n).Holds { l with pending := [] } := by
  induction n generalizing d l with
  | zero =>
    have hnil : l.pending = [] := by
      rw [h.pending, ← List.length_eq_zero_iff, length_contents, hn]
    unfold Cons.killLine
    rw [← hnil]
    exact h
  | succ n ih =>
    have hne : d.e ≠ d.w := by
      intro he
      rw [he, sub_self] at hn
      cases hn
    have hlast : d.buf (cell inputBuf (d.e - 1)) ≠ newline := by
      intro he
      have hmem : d.buf (cell inputBuf (d.e - 1)) ∈ l.pending :=
        List.mem_of_getLast? (by rw [h.pending]; exact getLast_contents hne.symm)
      exact h.line (he ▸ hmem)
    unfold Cons.killLine
    rw [if_pos ⟨hne, hlast⟩]
    have hpred := toNat_pred_sub hne.symm
    exact ih (l := { l with pending := l.pending.dropLast }) (by dsimp only; omega) (h.erase hne)

theorem Holds.push (h : d.Holds l) (hlt : (d.e - d.r).toNat < inputBuf) (c : UInt8) (hc : c ≠ newline) :
    { d with buf := Function.update d.buf (cell inputBuf d.e) c, e := d.e + 1 }.Holds
      { l with pending := l.pending ++ [c] } := by
  have hw : inputBuf < 2 ^ 32 := by decide
  have hsum := toNat_sub_add h.order
  have hord := h.order
  have hsucc : (d.e + 1 - d.r).toNat = (d.e - d.r).toNat + 1 := toNat_succ_sub (by omega)
  refine ⟨by dsimp only; omega, by dsimp only; omega, h.taken, ?_, ?_, ?_⟩
  · dsimp only
    rw [contents_update (by decide) h.order hlt]
    exact h.committed
  · dsimp only
    rw [contents_push (by decide) hw (by omega), h.pending]
  · simpa [hc.symm] using h.line

theorem Holds.commit (h : d.Holds l) (hlt : (d.e - d.r).toNat < inputBuf) (c : UInt8) :
    { d with buf := Function.update d.buf (cell inputBuf d.e) c, e := d.e + 1, w := d.e + 1 }.Holds
      { l with committed := l.committed ++ l.pending ++ [c], pending := [] } := by
  have hw : inputBuf < 2 ^ 32 := by decide
  have hsucc : (d.e + 1 - d.r).toNat = (d.e - d.r).toNat + 1 := toNat_succ_sub (by omega)
  refine ⟨le_rfl, by dsimp only; omega, ?_, ?_, contents_self.symm, List.not_mem_nil⟩
  · have := h.taken
    simp only [List.length_append]
    omega
  · dsimp only
    rw [List.append_assoc, List.drop_append_of_le_length h.taken, h.committed, contents_push (by decide) hw hlt,
      ← List.append_assoc, h.pending, contents_append h.order]

theorem full_iff (hlt : (d.e - d.r).toNat < inputBuf) :
    d.e + 1 = d.r + BitVec.ofNat 32 inputBuf ↔ (d.e - d.r).toNat + 1 = inputBuf := by
  have hw : inputBuf < 2 ^ 32 := by decide
  have hsucc : (d.e + 1 - d.r).toNat = (d.e - d.r).toNat + 1 := toNat_succ_sub (by omega)
  rw [← hsucc]
  constructor
  · intro he
    rw [he, add_sub_cancel_left]
    rfl
  · intro he
    rw [← he, add_toNat_sub]

theorem Holds.consoleintr (h : d.Holds l) (c : UInt8) : (d.consoleintr c).1.Holds (l.type c) := by
  unfold Cons.consoleintr Line.type
  rw [h.used]
  by_cases hp : c = ctrlP
  · rw [if_pos hp, if_pos hp]
    exact h
  rw [if_neg hp, if_neg hp]
  by_cases hu : c = ctrlU
  · rw [if_pos hu, if_pos hu]
    exact h.killLine _ rfl
  rw [if_neg hu, if_neg hu]
  by_cases hh : c = ctrlH ∨ c = delete
  · rw [if_pos hh, if_pos hh]
    by_cases he : d.e = d.w
    · have hnil : l.pending = [] := by
        rw [h.pending, he]
        exact contents_self
      rw [if_neg (not_not.mpr he), hnil, List.dropLast_nil, ← hnil]
      exact h
    · rw [if_pos he]
      exact h.erase he
  rw [if_neg hh, if_neg hh]
  by_cases hroom : c ≠ 0 ∧ (d.e - d.r).toNat < inputBuf
  · rw [if_pos hroom, if_pos hroom]
    dsimp only
    simp only [full_iff hroom.2]
    split_ifs with hend
    · exact h.commit hroom.2 _
    · exact h.push hroom.2 _ fun he => hend (.inl he)
  · rw [if_neg hroom, if_neg hroom]
    exact h

end Cons
end Xv6.Console
