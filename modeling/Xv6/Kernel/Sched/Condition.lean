import Xv6.Kernel.Sched.Calls
import Mathlib.Tactic

/-! `sleep` and `wakeup` with a condition that a lock protects. -/
namespace Xv6.Sched.Condition
open Lib

/-- Places in the code that waits for the condition, and in that which makes it true: a system
call, or an interrupt handler. -/
inductive Place
  | waiter
  /-- `while (!cond)` -/
  | test
  | doze
  /-- the code after the loop, which may make the condition false -/
  | body
  | done
  | waker (intr : Bool)
  /-- `cond := true` -/
  | assign (intr : Bool)
  | wake (intr : Bool)
  | give (intr : Bool)
  | iret

def calls : Calls Place Bool Unit Unit where
  call n := if n = 0 then .waiter else .waker false
  code
    | .waiter => .acquire () (.sys .test)
    | .test => .run fun cond _ _ => (cond, .sys (if cond then .body else .doze))
    | .doze => .sleep () () (.sys .test)
    | .body => .run fun cond _ n => (cond && decide (n % 2 = 0), .sys (if n / 2 = 0 then .done else .body))
    | .done => .release () .user
    | .waker intr => .acquire () (.sys (.assign intr))
    | .assign intr => .run fun _ _ _ => (true, .sys (.wake intr))
    | .wake intr => .wakeup () (.sys (.give intr))
    | .give intr => .release () (if intr then .sys .iret else .user)
    | .iret => .iret
  handler
    | .waker true => true
    | _ => false
  dma cond _ := cond

def locks : Place → List Unit
  | .waiter | .waker _ | .iret => []
  | _ => [()]

theorem balanced : calls.kernel.Balanced (Label.locks locks) := by
  refine Calls.balanced (fun l => ?_) (fun n => ?_) (fun l => ?_) fun l hl => ?_
  · cases l <;> simp [locks]
  · unfold calls
    dsimp only
    split_ifs <;> rfl
  · cases l with
    | test | body =>
      intro cond b n
      dsimp only
      split_ifs <;> rfl
    | give intr => cases intr <;> rfl
    | doze => exact ⟨rfl, rfl⟩
    | assign intr => exact fun _ _ _ => rfl
    | _ => rfl
  · cases l with
    | waker intr => rfl
    | _ => simp [calls] at hl

/-- A thread owes a `wakeup` from the assignment on. -/
def Owes : Place → Prop
  | .wake _ => True
  | _ => False

/-- At the call of `sleep` the condition is false. -/
def Known : Place → Bool → Prop
  | .doze, cond => cond = false
  | _, _ => True

section
variable {C : Type}

theorem outline : Outline calls.kernel (Label.locks locks) (fun _ _ _ _ => True)
    (fun _ : Client (Label Place) Bool Unit Unit C => True) () (Label.Asserts Known) fun _ => True := by
  refine Calls.outline (fun {a t l} _ _ => ?_) fun _ _ => .refl _
  cases l with
  | test =>
    refine fun b n _ => ⟨fun _ _ => ?_, fun hno => absurd (List.mem_singleton_self ()) hno⟩
    cases hd : a.data <;> simp [Label.Asserts, Known]
  | body =>
    refine fun b n _ => ⟨fun _ _ => ?_, fun hno => absurd (List.mem_singleton_self ()) hno⟩
    dsimp only
    split_ifs <;> trivial
  | assign intr => exact fun b n _ => ⟨fun _ _ => trivial, fun hno => absurd (List.mem_singleton_self ()) hno⟩
  | doze => exact ⟨fun _ => ⟨fun _ => trivial, fun _ _ => trivial⟩, fun _ _ _ => trivial⟩
  | give intr | done | waiter | waker intr => exact ⟨fun _ _ => trivial, fun hne => absurd rfl hne⟩
  | wake intr => exact fun _ _ => trivial
  | iret => trivial

theorem monitor : Monitor calls.kernel (Label.locks locks) (fun _ _ _ _ => True)
    (fun a : Client (Label Place) Bool Unit Unit C => ∀ t, a.task t = some (.code (.sys .doze)) → a.data = false) () ()
    (fun cond => cond = false) (Label.In Owes) := by
  refine Calls.monitor (fun {a t l} hI ht => ?_) fun _ _ hW => hW
  cases l with
  | test =>
    refine fun b n _ => ⟨fun _ _ => ⟨id, id⟩, fun _ => id⟩
  | body =>
    refine fun b n _ => ⟨fun _ _ => ⟨id, fun hW => ?_⟩, fun _ hW => ?_⟩ <;> simp [show a.data = false from hW]
  | assign intr => exact fun b n _ => ⟨fun _ hno => absurd trivial hno, fun hno => absurd (List.mem_singleton_self ()) hno⟩
  | doze => exact ⟨fun _ => ⟨rfl, hI t ht⟩, fun _ => id⟩
  | give intr | done => exact ⟨fun _ => id, fun hne => absurd rfl hne⟩
  | waiter | waker intr | wake intr => exact fun hne => absurd rfl hne
  | iret => trivial

end

variable {C : Type} [DecidableEq C] {cond : Bool} {s : State (Label Place) Bool Unit Unit C}

/-- No wakeup is lost: while the lock is free and the condition holds nobody sleeps. -/
theorem no_lost_wakeup (h : Reachable calls.kernel cond .user s) :
    ¬ (s.lock () = none ∧ s.data = true ∧ ∃ p, (s.proc p).state = .sleeping ∧ (s.proc p).chan = some (.other ())) := by
  rintro ⟨hfree, hcond, p, hst, hch⟩
  have hfalse : s.data = false := by
    refine monitor.sleeping balanced rfl (fun a ha t ht => ?_) h.heeds hfree hst hch
    exact (Client.Outlined.of_reaches outline balanced rfl trivial (fun _ _ => trivial) ha).at_label
      (.of_reaches balanced rfl ha) ht (List.mem_singleton_self ())
  simp [hcond] at hfalse

/-- Init goes to sleep, and an interrupt makes the condition true. -/
theorem no_lost_wakeup_interrupt : ∃ s : State (Label Place) Bool Unit Unit Bool,
    Reachable calls.kernel false .user s ∧ s.lock () = none ∧ s.data = true ∧
    ¬ ∃ p, (s.proc p).state = .sleeping ∧ (s.proc p).chan = some (.other ()) := by
  obtain ⟨s, hrun, htest⟩ := exists_run_of_exec (step calls.kernel) (fun _ _ => True)
    (boot false .user : State (Label Place) Bool Unit Unit Bool)
    (List.replicate 11 (false, .go 3) ++ (true, .device (.sys (.waker true))) :: List.replicate 69 (true, .go 0))
    (fun s => decide (s.lock () = none ∧ s.data = true)) (by decide +kernel)
  obtain ⟨hfree, hcond⟩ := of_decide_eq_true htest
  exact ⟨s, hrun, hfree, hcond, fun hp => no_lost_wakeup hrun ⟨hfree, hcond, hp⟩⟩

end Xv6.Sched.Condition
