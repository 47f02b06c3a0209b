import Xv6.Kernel.Pipe.Stream
import Mathlib.Tactic

/-! Who sleeps on a pipe, and why. -/
namespace Xv6.Pipe
open Lib Sched

/-- What a sleeper waits for. -/
def Waits : Chan → Pipe → Prop
  | .nread, d => d.nread = d.nwrite ∧ d.writeopen = true
  | .nwrite, d => d.Full ∧ d.readopen = true

/-- Who has changed that, and has not called `wakeup` yet. -/
def Owes : Chan → Place → Prop
  | .nread, .writeFor _ _ put | .nread, .writeFull _ _ put | .nread, .writeCopy _ _ put => put = true
  | .nread, .writeWake .. | .nread, .writeEnd | .nread, .closeWake true => True
  | .nwrite, .readFor i _ => i ≠ 0
  | .nwrite, .readEnd | .nwrite, .closeWake false => True
  | _, _ => False

/-- `pipewrite` does not give up at a full pipe when it has put bytes into it since its last
`wakeup`. -/
def Tells : Label Place → Pipe → Bool → ℕ → Prop
  | .sys (.writeFull _ _ true), d, killed, _ => d.Full → d.readopen = true ∧ killed = false
  | _, _, _, _ => True

instance (l : Label Place) (d : Pipe) (killed : Bool) (n : ℕ) : Decidable (Tells l d killed n) := by
  unfold Tells
  split <;> infer_instance

/-- What is known at the labels with the lock. -/
def Informed {C : Type} (a : Sched.Client (Label Place) Pipe Chan Unit C) : Prop :=
  ∀ t l, a.task t = some (.code (.sys l)) → () ∈ locks l → Known l a.data

variable {C : Type}

theorem monitor (ch : Chan) : Monitor calls.kernel (Label.locks locks) Tells (Informed (C := C)) () ch (Waits ch)
    (Label.In (Owes ch)) := by
  refine Calls.monitor (fun {a t l} hI ht => ?_) fun _ _ hW => hW
  have hin : () ∈ ([()] : List Unit) := List.mem_singleton_self ()
  have hknown := hI t l ht
  cases l with
  | writeFor i n put | readEmpty n =>
    refine fun b m _ => ⟨fun _ => ?_, fun hno => absurd hin hno⟩
    cases ch <;> dsimp only <;> split_ifs <;> simp [Label.In, Owes]
  | writeFull i n put =>
    refine fun b m hal => ⟨fun _ => ?_, fun hno => absurd hin hno⟩
    cases ch with
    | nwrite => dsimp only; split_ifs <;> simp [Label.In, Owes]
    | nread =>
      dsimp only
      split_ifs with hf hr
      · intro _
        cases put with
        | false => simp [Label.In, Owes]
        | true =>
          obtain ⟨h1, h2⟩ := hal hf
          simp [h1, h2] at hr
      · simp [Label.In, Owes]
      · simp [Label.In, Owes]
  | writeCopy i n put =>
    refine fun b m _ => ⟨fun _ => ?_, fun hno => absurd hin hno⟩
    cases m with
    | zero => cases ch <;> simp [Label.In, Owes]
    | succ m =>
      cases ch with
      | nread => simp [Label.In, Owes]
      | nwrite => exact fun _ => ⟨id, fun hW => absurd hW.1 (hknown hin).2⟩
  | readFor i n =>
    refine fun b m _ => ⟨fun _ => ?_, fun hno => absurd hin hno⟩
    cases ch with
    | nwrite => dsimp only; split_ifs <;> simp [Label.In, Owes]
    | nread =>
      dsimp only
      split_ifs with hi
      · exact fun _ => ⟨id, fun hW => absurd hW.1 hi.2⟩
      · exact fun _ => ⟨id, fun hW => absurd hW.1 hi.2⟩
      · exact fun _ => ⟨id, id⟩
  | closeSet writable =>
    refine fun b m _ => ⟨fun _ => ?_, fun hno => absurd hin hno⟩
    cases ch <;> cases writable <;> first | exact fun hno => absurd trivial hno | exact fun _ => ⟨id, id⟩
  | writeSleep i n | readSleep n =>
    refine ⟨?_, fun _ => by cases ch <;> exact id⟩
    rintro rfl
    exact ⟨rfl, (hknown hin).2⟩
  | writeFail | release => exact ⟨fun _ => by cases ch <;> exact id, fun hne => absurd rfl hne⟩
  | write n | read n | close writable => exact fun hne => absurd rfl hne
  | writeWake i n | writeEnd | readEnd => cases ch <;> simp [code, calls, Instr.Minds, Label.In, Owes]
  | closeWake writable => cases ch <;> cases writable <;> simp [code, calls, Instr.Minds, Label.In, Owes]

variable [DecidableEq C] {data : Fin pipesize → UInt8} {n : Uint} {s : Sched.State (Label Place) Pipe Chan Unit C}

theorem informed {a : Sched.Client (Label Place) Pipe Chan Unit C} (h : a.Reaches calls.kernel Tells (pipealloc data n) .user) :
    Informed a :=
  fun _ _ ht hl => (outlined h).at_label (.of_reaches balanced rfl h) ht hl

/-- As long as writers tell readers before they give up, nobody sleeps on a pipe without a
reason. -/
theorem no_stranded_sleeper (h : Run (Sched.step calls.kernel) (Heeds Tells) (Sched.boot (pipealloc data n) .user) s)
    (hfree : s.lock () = none) (p : Slot) (hst : (s.proc p).state = .sleeping) :
    ((s.proc p).chan = some (.other .nread) → s.data.nread = s.data.nwrite ∧ s.data.writeopen = true) ∧
    ((s.proc p).chan = some (.other .nwrite) → s.data.Full ∧ s.data.readopen = true) :=
  ⟨fun hch => (monitor .nread).sleeping balanced rfl (fun _ ha => informed ha) h hfree hst hch,
    fun hch => (monitor .nwrite).sleeping balanced rfl (fun _ ha => informed ha) h hfree hst hch⟩

/-- Init sleeps in `piperead`. -/
theorem no_stranded_sleeper_reader : ∃ s : Sched.State (Label Place) Pipe Chan Unit Bool,
    Run (Sched.step calls.kernel) (Heeds Tells) (Sched.boot (pipealloc (fun _ => 0) 0) .user) s ∧ s.lock () = none ∧
    (s.proc 0).state = .sleeping ∧ (s.proc 0).chan = some (.other .nread) ∧ s.data.nread = s.data.nwrite ∧
    s.data.writeopen = true := by
  obtain ⟨s, hrun, htest⟩ := exists_run_of_exec (Sched.step calls.kernel) (Heeds Tells)
    (Sched.boot (pipealloc (fun _ => 0) 0) .user : Sched.State (Label Place) Pipe Chan Unit Bool) (List.replicate 11 (false, .go 24))
    (fun s => decide (s.lock () = none ∧ (s.proc 0).state = .sleeping ∧ (s.proc 0).chan = some (.other .nread)))
    (by decide +kernel)
  obtain ⟨hfree, hst, hch⟩ := of_decide_eq_true htest
  exact ⟨s, hrun, hfree, hst, hch, (no_stranded_sleeper hrun hfree 0 hst).1 hch⟩

/-- Init sleeps in `piperead`, and its child writes 513 bytes. The other child kills it meanwhile:
`pipewrite` fills the ring, finds it full, and gives up without a `wakeup`. -/
theorem stranded_reader : ∃ s : Sched.State (Label Place) Pipe Chan Unit Bool,
    Reachable calls.kernel (pipealloc (fun _ => 0) 0) .user s ∧ s.lock () = none ∧ (s.proc 0).state = .sleeping ∧
    (s.proc 0).chan = some (.other .nread) ∧ s.data.Full := by
  obtain ⟨s, hrun, htest⟩ := exists_run_of_exec (Sched.step calls.kernel) (fun _ _ => True)
    (Sched.boot (pipealloc (fun _ => 0) 0) .user : Sched.State (Label Place) Pipe Chan Unit Bool)
    (List.replicate 4 (false, .go 0) ++ List.replicate 4 (false, .go 2) ++ List.replicate 2 (false, .go 0) ++
      List.replicate 5 (false, .go 2) ++ List.replicate 10 (false, .go 24) ++ List.replicate 2 (false, .go 9237) ++
      List.replicate 8 (true, .go 10) ++ List.replicate 1540 (false, .go 1))
    (fun s => decide (s.lock () = none ∧ (s.proc 0).state = .sleeping ∧ (s.proc 0).chan = some (.other .nread) ∧
      s.data.Full)) (by decide +kernel)
  exact ⟨s, hrun, of_decide_eq_true htest⟩

end Xv6.Pipe
