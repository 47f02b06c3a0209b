import Xv6.Kernel.Console.Machine
import Mathlib.Tactic

/-! What `consoleread` returns is what has been typed and edited. -/
namespace Xv6.Console
open Lib Sched

/-- What a reader gets for a character. -/
def mark (c : UInt8) : Option UInt8 := if c = ctrlD then none else some c

/-- The buffer is that of the line, and readers have got what was taken. -/
structure Data.Edits (d : Data) : Prop where
  holds : d.cons.Holds (Line.replay d.history)
  returned : d.returned = ((Line.replay d.history).committed.take (Line.replay d.history).taken).map mark

theorem Data.edits_init (n : BitVec 32) : (Data.init n).Edits := by
  refine ⟨⟨by simp [Data.init], by simp [Data.init], le_rfl, ?_, ?_, List.not_mem_nil⟩, rfl⟩
  · exact contents_self.symm
  · exact contents_self.symm

theorem Line.type_taken (l : Line) (c : UInt8) : (l.type c).taken = l.taken := by
  unfold Line.type
  split_ifs <;> rfl

theorem Line.committed_prefix_type (l : Line) (c : UInt8) : l.committed <+: (l.type c).committed := by
  unfold Line.type
  split_ifs
  · exact List.prefix_rfl
  · exact List.prefix_rfl
  · exact List.prefix_rfl
  · rw [List.append_assoc]
    exact List.prefix_append _ _
  · exact List.prefix_rfl
  · exact List.prefix_rfl

theorem Cons.killLine_r (d : Cons) (n : ℕ) : (d.killLine n).r = d.r := by
  induction n generalizing d with
  | zero => rfl
  | succ n ih =>
    unfold Cons.killLine
    split_ifs
    · exact ih _
    · rfl

theorem Cons.consoleintr_r (d : Cons) (c : UInt8) : (d.consoleintr c).1.r = d.r := by
  unfold Cons.consoleintr
  dsimp only
  split_ifs <;> first | rfl | exact d.killLine_r _

namespace Data
variable {d : Data}

theorem Edits.take (h : d.Edits) (hne : d.cons.r ≠ d.cons.w) : d.take.Edits := by
  refine ⟨h.holds.take hne, ?_⟩
  have hget := h.holds.next hne
  simp only [Data.take, Line.replay, Line.step]
  rw [h.returned, List.take_add_one, hget, List.map_append]
  rfl

theorem Edits.typed (h : d.Edits) (c : UInt8) :
    { d with cons := (d.cons.consoleintr c).1, history := .typed c :: d.history }.Edits := by
  refine ⟨h.holds.consoleintr c, ?_⟩
  obtain ⟨rest, hrest⟩ := Line.committed_prefix_type (Line.replay d.history) c
  simp only [Line.replay, Line.step]
  rw [h.returned, Line.type_taken, ← hrest, List.take_append_of_le_length h.holds.taken]

theorem Edits.run (h : d.Edits) {l : Place} {f : Data → Bool → ℕ → Data × Label Place} (hc : code l = .run f)
    (b : Bool) (n : ℕ) : (f d b n).1.Edits := by
  cases l <;> simp only [code, reduceCtorEq, Instr.run.injEq] at hc <;> subst hc
  case writeFor => exact h
  case putTest =>
    dsimp only
    split_ifs
    · exact h
    · exact ⟨h.holds, h.returned⟩
  case start =>
    dsimp only
    split_ifs
    · exact h
    · exact ⟨h.holds, h.returned⟩
  case readWhile target n =>
    dsimp only
    split_ifs with hn hrw hk hd hlt hnl
    · exact h
    · exact h
    · exact h
    · exact h
    · exact h.take hrw
    · exact h.take hrw
    · exact h.take hrw
  case intr => exact h
  case intrChar c => exact h.typed c

theorem Edits.keeps (h : d.Edits) {l : Place} {f : Data → Bool → ℕ → Data × Label Place} (hc : code l = .run f)
    (b : Bool) (n : ℕ) :
    contents d.cons.buf (f d b n).1.cons.r d.cons.w <+:
      contents (f d b n).1.cons.buf (f d b n).1.cons.r (f d b n).1.cons.w := by
  have hnew := h.run hc b n
  cases l <;> simp only [code, reduceCtorEq, Instr.run.injEq] at hc <;> subst hc
  case writeFor => exact List.prefix_rfl
  case putTest =>
    dsimp only
    split_ifs <;> exact List.prefix_rfl
  case start =>
    dsimp only
    split_ifs <;> exact List.prefix_rfl
  case readWhile target n =>
    dsimp only
    split_ifs <;> exact List.prefix_rfl
  case intr => exact List.prefix_rfl
  case intrChar c =>
    have hcom := hnew.holds.committed
    simp only [Line.replay, Line.step, Line.type_taken] at hcom
    dsimp only
    rw [← hcom, d.cons.consoleintr_r c, ← h.holds.committed]
    exact (Line.committed_prefix_type _ c).drop _

end Data

variable {C : Type} [DecidableEq C] {n : BitVec 32} {s : Sched.State (Label Place) Data Chan Lock C}

theorem edits (h : Reachable calls.kernel (Data.init n) .user s) : s.data.Edits := by
  obtain ⟨-, -, a, hreach, hsim⟩ := refines balanced rfl h.heeds
  rw [← hsim.data]
  exact Calls.data_induct hreach (Data.edits_init n) (fun l f d b n hc _ hd => hd.run hc b n) fun _ _ hd => hd

end Xv6.Console
