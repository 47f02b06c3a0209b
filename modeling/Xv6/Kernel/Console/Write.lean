import Xv6.Kernel.Console.Machine
import Xv6.Kernel.Sched.OneLock
import Mathlib.Tactic

/-! `consolewrite` holds `cons.lock` while `uartputc` may sleep. -/
namespace Xv6.Console
open Lib Sched

/-- `uartputc` finds room in the transmit buffer. -/
def Room : Label Place → Data → Bool → ℕ → Prop
  | .sys (.putTest ..), d, _, _ => ¬ d.Full
  | _, _, _, _ => True

instance (l : Label Place) (d : Data) (killed : Bool) (n : ℕ) : Decidable (Room l d killed n) := by
  unfold Room
  split <;> infer_instance

/-- Then it does not call `sleep`. -/
def Awake : Place → Data → Prop
  | .putSleep .., _ => False
  | _, _ => True

variable {C : Type}

theorem awake_outline : Outline calls.kernel (Label.locks locks) Room
    (fun _ : Sched.Client (Label Place) Data Chan Lock C => True) .uartTx (Label.Asserts Awake) fun _ => True := by
  refine Calls.outline (fun {a t l} _ _ => ?_) fun _ _ => .refl _
  have hstable : ∀ {d d' : Data}, Stable (Label.locks locks) .uartTx (Label.Asserts Awake) (fun _ => True) d d' := by
    refine fun {d d'} => ⟨id, fun l _ hA => ?_⟩
    cases l with
    | sys l => cases l <;> exact hA
    | _ => trivial
  cases l with
  | writeFor i n | readWhile target n | intrChar c =>
    refine fun b m _ => ⟨fun hmem => ?_, fun _ => hstable⟩
    simp [Label.locks, locks] at hmem
  | putTest i n c =>
    refine fun b m hal => ⟨fun _ _ => ?_, fun _ => hstable⟩
    dsimp only
    rw [if_neg hal]
    trivial
  | start who =>
    refine fun b m _ => ⟨fun _ _ => ?_, fun _ => hstable⟩
    dsimp only
    split_ifs <;> trivial
  | intr => exact fun b m _ => ⟨fun hmem => absurd hmem List.not_mem_nil, fun _ => hstable⟩
  | putSleep i n c => exact ⟨fun _ => ⟨fun _ => trivial, fun _ _ => trivial⟩, fun hne => absurd rfl hne⟩
  | readSleep target n => exact ⟨fun he => (by cases he), fun _ _ _ => trivial⟩
  | startWake who | intrWake => exact fun _ _ => trivial
  | write n | writeDone | put i n c | read n | readDone | intrAcquire c | intrDone | intrStart =>
    exact ⟨fun _ _ => trivial, fun _ _ _ => trivial⟩
  | startDone who =>
    refine ⟨fun _ _ => trivial, fun hne => absurd rfl hne⟩
  | iret => trivial

variable [DecidableEq C] {n : BitVec 32} {s : Sched.State (Label Place) Data Chan Lock C}

theorem sleeps {a : Sched.Client (Label Place) Data Chan Lock C} (h : a.Reaches calls.kernel Room (Data.init n) .user) :
    a.Sleeps calls.kernel (Label.locks locks) := by
  intro t l chan lk next ht hc
  cases l with
  | sys l =>
    cases l with
    | putSleep i n c =>
      exact ((Sched.Client.Outlined.of_reaches awake_outline balanced rfl trivial (fun _ _ => trivial) h).at_label
        (.of_reaches balanced rfl h) ht (by simp [Label.locks, locks])).elim
    | readSleep target n => rfl
    | _ => cases hc
  | _ => cases hc

end Xv6.Console
