import Xv6.Kernel.Console.Machine
import Xv6.Kernel.Pipe.Stream
import Xv6.Kernel.Sched.Sum
import Mathlib.Tactic

/-! `kill` against the loops that sleep until something happens or the process is killed: those of
`piperead`, `pipewrite`, `consoleread`, `sys_sleep` and `wait`. -/
namespace Xv6
open Lib Sched

namespace Clock

/-- Places in `sys_sleep` and `clockintr`, with the local variables. -/
inductive Place
  | sleep (n : BitVec 32)
  | sleepStart (n : BitVec 32)
  /-- `while (ticks - ticks0 < n)`, and the test of `killed` -/
  | sleepWhile (ticks0 n : BitVec 32)
  | sleepSleep (ticks0 n : BitVec 32)
  | sleepDone
  | intr
  | intrTick
  | intrWake
  | intrDone
  | iret

/-- The data is `ticks`. The comparison is one of `uint`s. -/
def code : Place → Instr (Label Place) (BitVec 32) Unit Unit
  | .sleep n => .acquire () (.sys (.sleepStart n))
  | .sleepStart n => .run fun ticks _ _ => (ticks, .sys (.sleepWhile ticks n))
  | .sleepWhile ticks0 n => .run fun ticks killed _ => (ticks, .sys
      (if ticks - ticks0 < n then if killed then .sleepDone else .sleepSleep ticks0 n else .sleepDone))
  | .sleepSleep ticks0 n => .sleep () () (.sys (.sleepWhile ticks0 n))
  | .sleepDone => .release () .user
  | .intr => .acquire () (.sys .intrTick)
  | .intrTick => .run fun ticks _ _ => (ticks + 1, .sys .intrWake)
  | .intrWake => .wakeup () (.sys .intrDone)
  | .intrDone => .release () (.sys .iret)
  | .iret => .iret

def calls : Calls Place (BitVec 32) Unit Unit where
  call n := .sleep (BitVec.ofNat 32 n)
  code := code
  handler
    | .intr => true
    | _ => false
  dma ticks _ := ticks

/-- After the test of `killed`. -/
def Tested : Place → Prop
  | .sleepSleep .. => True
  | _ => False

instance : DecidablePred Tested := fun l => by
  cases l <;> unfold Tested <;> infer_instance

theorem tests : calls.Tests Tested fun _ => True := by
  intro l
  cases l with
  | sleepWhile ticks0 n =>
    intro ticks m
    simp only [if_true]
    split_ifs <;> exact id
  | sleepStart n | intrTick => exact fun _ _ => id
  | sleepSleep ticks0 n => exact ⟨fun _ => trivial, id⟩
  | iret => trivial
  | _ => exact fun h => h

end Clock

namespace Pipe

def Tested : Place → Prop
  | .writeWake .. | .writeSleep .. | .readSleep .. => True
  | _ => False

instance : DecidablePred Tested := fun l => by
  cases l <;> unfold Tested <;> infer_instance

theorem tests : calls.Tests Tested fun _ => True := by
  intro l
  cases l with
  | writeFor i n put | readFor i n =>
    intro d m
    dsimp only
    split_ifs <;> exact id
  | writeFull i n put =>
    intro d m
    simp only [or_true, if_true]
    split_ifs <;> exact id
  | writeCopy i n put => rintro d (_ | m) <;> exact id
  | readEmpty n =>
    intro d m
    simp only [if_true]
    split_ifs <;> exact id
  | writeSleep i n | readSleep n => exact ⟨fun _ => trivial, id⟩
  | closeSet writable => exact fun _ _ => id
  | writeWake i n => exact fun _ => trivial
  | _ => exact id

end Pipe

namespace Console

def Tested : Place → Prop
  | .readSleep .. => True
  | _ => False

instance : DecidablePred Tested := fun l => by
  cases l <;> unfold Tested <;> infer_instance

theorem tests : calls.Tests Tested (· = .consR) := by
  intro l
  cases l with
  | writeFor i n =>
    intro d m
    dsimp only
    split_ifs
    · cases m <;> exact id
    · exact id
  | putTest i n c | start who | intrChar c =>
    intro d m
    dsimp only
    split_ifs <;> exact id
  | putSleep i n c => exact ⟨fun h => (by cases h), id⟩
  | startDone who => cases who <;> exact id
  | readWhile target n =>
    intro d m
    simp only [if_true]
    split_ifs <;> exact id
  | readSleep target n => exact ⟨fun _ => trivial, id⟩
  | intr =>
    intro d m
    cases m <;> exact id
  | iret => trivial
  | _ => exact id

end Console

namespace Interruptible

/-- Processes that use a pipe and the console, and call `sys_sleep`. -/
def calls : Calls ((Pipe.Place ⊕ Console.Place) ⊕ Clock.Place) ((Pipe × Console.Data) × BitVec 32)
    ((Pipe.Chan ⊕ Console.Chan) ⊕ Unit) ((Unit ⊕ Console.Lock) ⊕ Unit) :=
  (Pipe.calls.sum Console.calls).sum Clock.calls

def Tested : (Pipe.Place ⊕ Console.Place) ⊕ Clock.Place → Prop :=
  Sum.elim (Sum.elim Pipe.Tested Console.Tested) Clock.Tested

/-- What these loops sleep on: `&pi->nread`, `&pi->nwrite`, `&cons.r` or `&ticks`. -/
def Loop : (Pipe.Chan ⊕ Console.Chan) ⊕ Unit → Prop :=
  Sum.elim (Sum.elim (fun _ => True) (· = .consR)) fun _ => True

instance : DecidablePred Tested
  | .inl (.inl l) => inferInstanceAs (Decidable (Pipe.Tested l))
  | .inl (.inr l) => inferInstanceAs (Decidable (Console.Tested l))
  | .inr l => inferInstanceAs (Decidable (Clock.Tested l))

instance : DecidablePred Loop
  | .inl (.inl _) => inferInstanceAs (Decidable True)
  | .inl (.inr chan) => inferInstanceAs (Decidable (chan = .consR))
  | .inr _ => inferInstanceAs (Decidable True)

theorem tests : calls.Tests Tested Loop := (Pipe.tests.sum Console.tests).sum Clock.tests

variable {C : Type} [DecidableEq C]

/-- If no `kill` comes between the test of `killed` and the `acquire` in `sleep`, no process that
has been killed sleeps in one of the loops, or in `wait`. -/
theorem no_killed_sleeper {data : (Pipe × Console.Data) × BitVec 32} {s : Sched.State _ _ _ _ C}
    (h : Run (Sched.step calls.kernel) (Spares (Label.In Tested) Loop) (Sched.boot data .user) s) (p : Slot) (chan : Sched.Chan _)
    (hch : (s.proc p).chan = some chan) (hloop : chan.Loop Loop) :
    ¬ ((s.proc p).state = .sleeping ∧ (s.proc p).killed = true) := by
  rintro ⟨hst, hk⟩
  simp [killed_awake tests.kernel id h hst hch hloop] at hk

/-- The variables at the start. -/
def init : (Pipe × Console.Data) × BitVec 32 := ((Pipe.pipealloc (fun _ => 0) 0, Console.Data.init 0), 0)

/-- Init has killed its child, which slept in `piperead` and wakes up. -/
theorem no_killed_sleeper_wakes : ∃ s : Sched.State _ _ _ _ Bool,
    Run (Sched.step calls.kernel) (Spares (Label.In Tested) Loop) (Sched.boot init .user) s ∧
    (s.proc 1).chan = some (.other (.inl (.inl .nread))) ∧ (s.proc 1).killed = true ∧ (s.proc 1).state ≠ .sleeping := by
  obtain ⟨s, hrun, htest⟩ := exists_run_of_exec (Sched.step calls.kernel) (Spares (Label.In Tested) Loop)
    (Sched.boot init .user : Sched.State _ _ _ _ Bool)
    (List.replicate 5 (false, .go 0) ++ List.replicate 3 (false, .go 2) ++ List.replicate 12 (true, .go 87) ++
      List.replicate 4 (false, .go 10))
    (fun s => decide ((s.proc 1).chan = some (.other (.inl (.inl .nread))) ∧ (s.proc 1).killed = true))
    (by decide +kernel)
  obtain ⟨hch, hk⟩ := of_decide_eq_true htest
  exact ⟨s, hrun, hch, hk, fun hst => no_killed_sleeper hrun 1 _ hch trivial ⟨hst, hk⟩⟩

/-- A thread is in user mode. -/
def atUser {ι κ Λ : Type} : Sched.Pc (Sched.Label ι) κ Λ → Bool
  | .code .user => true
  | _ => false

/-- The child of init has found the pipe empty and `killed` to be 0. Then init kills it, and `kill`
returns. The child goes to sleep in `piperead`. -/
theorem killed_sleeper : ∃ s : Sched.State _ _ _ _ Bool, Reachable calls.kernel init .user s ∧
    (∀ lk, s.lock lk = none) ∧ (∀ p, (s.proc p).lock = none) ∧ (s.proc 0).pc = .code .user ∧
    (s.proc 1).state = .sleeping ∧ (s.proc 1).chan = some (.other (.inl (.inl .nread))) ∧
    (s.proc 1).killed = true := by
  obtain ⟨s, hrun, htest⟩ := exists_run_of_exec (Sched.step calls.kernel) (fun _ _ => True)
    (Sched.boot init .user : Sched.State _ _ _ _ Bool)
    (List.replicate 5 (false, .go 0) ++ List.replicate 3 (false, .go 2) ++ List.replicate 7 (true, .go 87) ++
      List.replicate 4 (false, .go 10) ++ List.replicate 5 (true, .go 87))
    (fun s => atUser (s.proc 0).pc &&
      decide ((∀ lk, s.lock lk = none) ∧ (∀ p, (s.proc p).lock = none) ∧ (s.proc 1).state = .sleeping ∧
        (s.proc 1).chan = some (.other (.inl (.inl .nread))) ∧ (s.proc 1).killed = true))
    (by decide +kernel)
  obtain ⟨hpc, htest⟩ := Bool.and_eq_true_iff.mp htest
  obtain ⟨hlk, hlock, hrest⟩ := of_decide_eq_true htest
  refine ⟨s, hrun, hlk, hlock, ?_, hrest⟩
  unfold atUser at hpc
  split at hpc
  · assumption
  · cases hpc

end Interruptible
end Xv6
