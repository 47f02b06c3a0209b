import Xv6.Kernel.Sched.Phase

/-! Sleep locks, made of a spin lock, `sleep` and `wakeup`. -/
namespace Xv6.Sched.Sleeplock
open Lib Function

/-- Places in `acquiresleep` and `releasesleep`, and between them. -/
inductive Place
  | acquire | test | doze | got | inside | clear | wake | done

/-- The data is `lk->locked`: only `holdingsleep` reads `lk->pid`. -/
def calls : Calls Place Bool Unit Unit where
  call _ := .acquire
  code
    | .acquire => .acquire () (.sys .test)
    -- `while (lk->locked)`, and `lk->locked = 1` once it is not
    | .test => .run fun locked _ _ => (true, .sys (if locked then .doze else .got))
    | .doze => .sleep () () (.sys .test)
    | .got => .release () (.sys .inside)
    | .inside => .acquire () (.sys .clear)
    | .clear => .run fun _ _ _ => (false, .sys .wake)
    | .wake => .wakeup () (.sys .done)
    | .done => .release () .user
  handler _ := false
  dma locked _ := locked

def locks : Place → List Unit
  | .acquire | .inside => []
  | _ => [()]

theorem balanced : calls.kernel.Balanced (Label.locks locks) := by
  refine Calls.balanced (fun l => ?_) (fun n => rfl) (fun l => ?_) fun l hl => by cases hl
  · cases l <;> simp [locks]
  · cases l with
    | test => exact fun locked _ _ => by cases locked <;> rfl
    | doze => exact ⟨rfl, rfl⟩
    | clear => exact fun _ _ _ => rfl
    | _ => rfl

/-- `lk->locked` has been found clear, and has not been cleared since. -/
def Place.holds : Place → Bool
  | .got | .inside | .clear => true
  | _ => false

theorem phased : calls.kernel.Phased (Label.phase Place.holds false) false := by
  refine Calls.phased (fun l => ?_) fun l hl => by cases hl
  cases l <;> first | rfl | trivial

/-- Nobody but the holder has the lock, and `lk->locked` says whether there is a holder. -/
def Held {ι : Type} (holds : ι → Bool) (locked : Bool) : Prop :=
  ∃ holder : Option ι, (∀ t, holds t = true ↔ holder = some t) ∧ locked = holder.isSome

theorem Held.set {ι : Type} [DecidableEq ι] {holds : ι → Bool} {t : ι} (h : ∀ u ≠ t, holds u ≠ true) (b : Bool) :
    Held (update holds t b) b := by
  refine ⟨if b then some t else none, fun u => ?_, by cases b <;> rfl⟩
  by_cases hut : u = t
  · cases b <;> simp [hut]
  · cases b <;> simp [hut, Ne.symm hut, h u hut]

variable {C : Type} [DecidableEq C]

theorem Held.step {allow : Label Place → Bool → Bool → ℕ → Prop} {π π' : Slot ⊕ C → Bool} {d d' : Bool}
    (h : Held π d) (hs : PhaseStep calls.kernel allow (Label.phase Place.holds false) π d π' d') : Held π' d' := by
  rcases Calls.phaseStep_cases (fun _ => rfl) hs with ⟨rfl, rfl⟩ | ⟨t, l, f, b, n, hc, -, ht, rfl, rfl⟩ | ⟨n, rfl, rfl⟩
  · exact h
  · obtain ⟨holder, hh, rfl⟩ := h
    cases l <;> simp only [calls, reduceCtorEq, Instr.run.injEq] at hc <;> subst hc
    case test =>
      cases holder with
      | some u =>
        have hstay : Held (update π t Place.test.holds) true := by
          rw [← ht, update_eq_self]
          exact ⟨some u, hh, rfl⟩
        exact hstay
      | none => exact .set (fun u _ hu => by cases (hh u).mp hu) true
    case clear =>
      obtain rfl := (hh t).mp ht
      exact .set (fun u hut hu => hut (Option.some.inj ((hh u).mp hu)).symm) false
  · exact h

/-- One thread at a time is between `acquiresleep` and `releasesleep`, and `lk->locked` is set
exactly while one is. -/
theorem sleeplock_excludes {s : State (Label Place) Bool Unit Unit C} (h : Reachable calls.kernel false .user s) :
    Held (s.phases (Label.phase Place.holds false) false) s.data := by
  obtain ⟨-, -, a, hreach, hsim⟩ := refines balanced rfl h.heeds
  rw [← hsim.phases, ← hsim.data]
  exact hreach.phase_induct phased rfl ⟨none, by simp, rfl⟩ fun _ _ _ _ => Held.step

/-- Init has the lock. -/
theorem sleeplock_excludes_init : ∃ s : State (Label Place) Bool Unit Unit Bool, Reachable calls.kernel false .user s ∧
    s.data = true ∧ Held (s.phases (Label.phase Place.holds false) false) true := by
  obtain ⟨s, hrun, hs⟩ := exists_run_of_exec (step calls.kernel) (fun _ _ => True)
    (boot false .user : State (Label Place) Bool Unit Unit Bool) (List.replicate 6 (false, .go 3)) (fun s => s.data)
    (by decide +kernel)
  exact ⟨s, hrun, hs, hs ▸ sleeplock_excludes hrun⟩

end Xv6.Sched.Sleeplock
