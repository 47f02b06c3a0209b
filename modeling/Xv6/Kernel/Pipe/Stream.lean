import Xv6.Kernel.Sched.Calls
import Xv6.Lib.Fifo
import Mathlib.Tactic

/-! `pipe.c`: `pipewrite`, `piperead` and `pipeclose` by any number of processes on one pipe, and
the stream of bytes that goes through it. -/
namespace Xv6
open Lib Sched

def pipesize : ℕ := 512

instance : NeZero pipesize := ⟨by decide⟩

abbrev Uint := BitVec 32

/-- `struct pipe`, with the bytes that have been put into the ring and those that have been taken
out of it since `pipealloc`. -/
structure Pipe where
  data : Fin pipesize → UInt8
  nread : Uint
  nwrite : Uint
  readopen : Bool
  writeopen : Bool
  put : List UInt8
  taken : List UInt8

namespace Pipe

/-- `pipealloc`. The counters begin at 0, which nothing depends on. -/
def pipealloc (data : Fin pipesize → UInt8) (n : Uint) : Pipe where
  data := data
  nread := n
  nwrite := n
  readopen := true
  writeopen := true
  put := []
  taken := []

/-- `pi->nwrite == pi->nread + PIPESIZE` -/
def Full (d : Pipe) : Prop := d.nwrite = d.nread + BitVec.ofNat 32 pipesize

instance (d : Pipe) : Decidable d.Full := inferInstanceAs (Decidable (_ = _))

/-- `pi->data[pi->nwrite++ % PIPESIZE] = ch` -/
def push (d : Pipe) (ch : UInt8) : Pipe :=
  { d with data := Function.update d.data (cell pipesize d.nwrite) ch, nwrite := d.nwrite + 1, put := d.put ++ [ch] }

/-- `ch = pi->data[pi->nread++ % PIPESIZE]` -/
def pop (d : Pipe) : Pipe :=
  { d with nread := d.nread + 1, taken := d.taken ++ [d.data (cell pipesize d.nread)] }

inductive Chan
  | nread
  | nwrite
  deriving DecidableEq

/-- Places in the calls, with the local variables. In `pipewrite`, `put` says whether bytes have
been put into the ring since the last `wakeup`. -/
inductive Place
  | write (n : ℤ)
  /-- `i < n` -/
  | writeFor (i : ℕ) (n : ℤ) (put : Bool)
  /-- `while (pi->nwrite == pi->nread + PIPESIZE)`, and the test of `readopen` and `killed` -/
  | writeFull (i : ℕ) (n : ℤ) (put : Bool)
  | writeFail
  | writeWake (i : ℕ) (n : ℤ)
  | writeSleep (i : ℕ) (n : ℤ)
  /-- `copyin` -/
  | writeCopy (i : ℕ) (n : ℤ) (put : Bool)
  | writeEnd
  | read (n : ℤ)
  /-- `while (pi->nread == pi->nwrite && pi->writeopen)`, and the test of `killed` -/
  | readEmpty (n : ℤ)
  | readSleep (n : ℤ)
  /-- the body of the second loop -/
  | readFor (i : ℕ) (n : ℤ)
  | readEnd
  | close (writable : Bool)
  | closeSet (writable : Bool)
  | closeWake (writable : Bool)
  | release

/-- The calls with their lengths. -/
def call (m : ℕ) : Place :=
  let n : ℤ := if m / 3 % 2 = 0 then m / 6 else -(m / 6)
  match m % 3 with
  | 0 => .write n
  | 1 => .read n
  | _ => .close (m / 3 % 2 = 0)

/-- The number of a step says whether `copyin` or `copyout` fails, and which byte `copyin` reads.
`pipeclose` frees the page when both ends are closed, after which no call comes. -/
def code : Place → Instr (Label Place) Pipe Chan Unit
  | .write n => .acquire () (.sys (.writeFor 0 n false))
  | .writeFor i n put => .run fun d _ _ => (d, .sys (if i < n then .writeFull i n put else .writeEnd))
  | .writeFull i n put => .run fun d killed _ => (d, .sys
      (if d.Full then if d.readopen = false ∨ killed then .writeFail else .writeWake i n else .writeCopy i n put))
  | .writeFail => .release () .user
  | .writeWake i n => .wakeup .nread (.sys (.writeSleep i n))
  | .writeSleep i n => .sleep .nwrite () (.sys (.writeFull i n false))
  | .writeCopy i n _ => .run fun d _ m =>
      match m with
      | 0 => (d, .sys .writeEnd)
      | m + 1 => (d.push (UInt8.ofNat m), .sys (.writeFor (i + 1) n true))
  | .writeEnd => .wakeup .nread (.sys .release)
  | .read n => .acquire () (.sys (.readEmpty n))
  | .readEmpty n => .run fun d killed _ => (d, .sys
      (if d.nread = d.nwrite ∧ d.writeopen then if killed then .release else .readSleep n else .readFor 0 n))
  | .readSleep n => .sleep .nread () (.sys (.readEmpty n))
  | .readFor i n => .run fun d _ m =>
      if i < n ∧ d.nread ≠ d.nwrite then (d.pop, .sys (if m = 0 then .readEnd else .readFor (i + 1) n))
      else (d, .sys .readEnd)
  | .readEnd => .wakeup .nwrite (.sys .release)
  | .close writable => .acquire () (.sys (.closeSet writable))
  | .closeSet writable => .run fun d _ _ =>
      (if writable then { d with writeopen := false } else { d with readopen := false }, .sys (.closeWake writable))
  | .closeWake writable => .wakeup (if writable then .nread else .nwrite) (.sys .release)
  | .release => .release () .user

def calls : Calls Place Pipe Chan Unit where
  call := call
  code := code
  handler _ := false
  dma d _ := d

def locks : Place → List Unit
  | .write _ | .read _ | .close _ => []
  | _ => [()]

theorem balanced : calls.kernel.Balanced (Label.locks locks) := by
  refine Calls.balanced (fun l => ?_) (fun n => ?_) (fun l => ?_) fun l hl => ?_
  · cases l <;> simp [locks]
  · simp only [calls, call]
    split <;> rfl
  · cases l with
    | writeFor i n put | writeFull i n put | readEmpty n | readFor i n =>
      intro d b m
      dsimp only
      split_ifs <;> rfl
    | writeCopy i n put =>
      rintro d b (_ | m) <;> rfl
    | closeSet writable => exact fun d b m => rfl
    | writeSleep i n | readSleep n => exact ⟨rfl, rfl⟩
    | _ => rfl
  · cases hl

/-- The ring holds what has been put in and not taken out, and no more than it has room for. -/
structure Streams (d : Pipe) : Prop where
  room : (d.nwrite - d.nread).toNat ≤ pipesize
  stored : d.put = d.taken ++ contents d.data d.nread d.nwrite

theorem lt_pipesize {d : Pipe} (h : d.Streams) (hf : ¬ d.Full) : (d.nwrite - d.nread).toNat < pipesize := by
  refine lt_of_le_of_ne h.room fun he => hf ?_
  unfold Full
  rw [← he, add_toNat_sub]

theorem Streams.push {d : Pipe} (h : d.Streams) (hf : ¬ d.Full) (ch : UInt8) : (d.push ch).Streams := by
  have hlt := lt_pipesize h hf
  have hw : pipesize < 2 ^ 32 := by decide
  refine ⟨?_, ?_⟩
  · simp only [Pipe.push]
    rw [toNat_succ_sub (by omega)]
    exact hlt
  · simp only [Pipe.push]
    rw [contents_push (by decide) hw hlt, h.stored, List.append_assoc]

theorem Streams.pop {d : Pipe} (h : d.Streams) (hne : d.nread ≠ d.nwrite) : d.pop.Streams := by
  refine ⟨?_, ?_⟩
  · have hle := h.room
    rw [← toNat_sub_succ hne] at hle
    exact (Nat.le_succ _).trans hle
  · simp only [Pipe.pop]
    rw [h.stored, contents_pop hne, List.append_assoc, List.singleton_append]

/-- `pipewrite` has found room, or none; `piperead` has found nothing to read. -/
def Known : Place → Pipe → Prop
  | .writeCopy .., d => d.Streams ∧ ¬ d.Full
  | .writeWake .., d | .writeSleep .., d => d.Streams ∧ d.Full ∧ d.readopen = true
  | .readSleep _, d => d.Streams ∧ d.nread = d.nwrite ∧ d.writeopen = true
  | _, d => d.Streams

section
variable {C : Type} {allow : Label Place → Pipe → Bool → ℕ → Prop}

theorem outline : Outline calls.kernel (Label.locks locks) allow (fun _ : Sched.Client (Label Place) Pipe Chan Unit C => True)
    () (Label.Asserts Known) Streams := by
  refine Calls.outline (fun {a t l} _ _ => ?_) fun _ _ => .refl _
  have hin : () ∈ ([()] : List Unit) := List.mem_singleton_self ()
  cases l with
  | writeFor i n put =>
    refine fun b m _ => ⟨fun _ hA => ?_, fun hno => absurd hin hno⟩
    dsimp only
    split_ifs <;> exact hA
  | writeFull i n put =>
    refine fun b m _ => ⟨fun _ hA => ?_, fun hno => absurd hin hno⟩
    dsimp only
    split_ifs with hf hr
    · exact hA
    · rw [not_or] at hr
      exact ⟨hA, hf, by simpa using hr.1⟩
    · exact ⟨hA, hf⟩
  | writeCopy i n put =>
    refine fun b m _ => ⟨fun _ hA => ?_, fun hno => absurd hin hno⟩
    cases m with
    | zero => exact hA.1
    | succ m => exact hA.1.push hA.2 _
  | readEmpty n =>
    refine fun b m _ => ⟨fun _ hA => ?_, fun hno => absurd hin hno⟩
    dsimp only
    split_ifs with he hk
    · exact hA
    · exact ⟨hA, he⟩
    · exact hA
  | readFor i n =>
    refine fun b m _ => ⟨fun _ hA => ?_, fun hno => absurd hin hno⟩
    dsimp only
    split_ifs with hi
    · exact hA.pop hi.2
    · exact hA.pop hi.2
    · exact hA
  | closeSet writable =>
    refine fun b m _ => ⟨fun _ hA => ?_, fun hno => absurd hin hno⟩
    cases writable <;> exact ⟨hA.room, hA.stored⟩
  | writeSleep i n | readSleep n => exact ⟨fun _ => ⟨And.left, fun _ => id⟩, fun hne => absurd rfl hne⟩
  | writeFail | release | write n | read n | close writable => exact ⟨fun _ => id, fun hne => absurd rfl hne⟩
  | writeWake i n | writeEnd | readEnd | closeWake writable => exact fun _ => id

variable [DecidableEq C]

theorem outlined {a : Sched.Client (Label Place) Pipe Chan Unit C} {data : Fin pipesize → UInt8} {n : Uint}
    (h : a.Reaches calls.kernel allow (pipealloc data n) .user) : a.Outlined () (Label.Asserts Known) Streams := by
  have h0 : (pipealloc data n).Streams := ⟨by simp [pipealloc], by simp [pipealloc, contents, window]⟩
  exact .of_reaches outline balanced rfl h0 (fun _ _ => trivial) h

theorem streams {a : Sched.Client (Label Place) Pipe Chan Unit C} {data : Fin pipesize → UInt8} {n : Uint}
    (h : a.Reaches calls.kernel allow (pipealloc data n) .user) : a.data.Streams := by
  refine (outlined h).always (.of_reaches balanced rfl h) fun l d hl hA => ?_
  cases l with
  | sys l =>
    cases l with
    | writeCopy i n put | writeWake i n | writeSleep i n | readSleep n => exact hA.1
    | _ => exact hA
  | _ => cases hl

end

variable {C : Type} [DecidableEq C] {data : Fin pipesize → UInt8} {n : Uint} {s : Sched.State (Label Place) Pipe Chan Unit C}

/-- A pipe is a lossless stream of bytes, in the order in which they were put in. -/
theorem fifo (h : Reachable calls.kernel (pipealloc data n) .user s) :
    s.data.taken <+: s.data.put ∧
    s.data.put.drop s.data.taken.length = contents s.data.data s.data.nread s.data.nwrite ∧
    (s.data.nwrite - s.data.nread).toNat ≤ pipesize := by
  obtain ⟨-, -, a, hreach, hsim⟩ := refines balanced rfl h.heeds
  have hs := streams hreach
  rw [hsim.data] at hs
  rw [hs.stored]
  exact ⟨List.prefix_append _ _, List.drop_left, hs.room⟩

/-- Init writes two bytes and reads one, and both counters wrap. -/
theorem fifo_wraps : ∃ s : Sched.State (Label Place) Pipe Chan Unit Bool,
    Reachable calls.kernel (pipealloc (fun _ => 0) 0xffffffff) .user s ∧ s.data.put = [7, 7] ∧ s.data.taken = [7] ∧
    s.data.nread = 0 ∧ contents s.data.data s.data.nread s.data.nwrite = [7] := by
  obtain ⟨s, hrun, htest⟩ := exists_run_of_exec (Sched.step calls.kernel) (fun _ _ => True)
    (Sched.boot (pipealloc (fun _ => 0) 0xffffffff) .user : Sched.State (Label Place) Pipe Chan Unit Bool)
    (List.replicate 3 (false, .go 39) ++ List.replicate 8 (false, .go 8) ++ List.replicate 71 (false, .go 24))
    (fun s => decide (s.data.put = [7, 7] ∧ s.data.taken = [7] ∧ s.data.nread = 0)) (by decide +kernel)
  obtain ⟨hput, htaken, hread⟩ := of_decide_eq_true htest
  refine ⟨s, hrun, hput, htaken, hread, ?_⟩
  rw [← (fifo hrun).2.1, hput, htaken]
  rfl

end Xv6.Pipe
