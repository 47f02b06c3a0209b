import Mathlib.Tactic.SplitIfs

/-! A loop that sleeps until a condition is met or the sleeper is told to give up. -/
namespace Xv6.Lib

/-- How the loop ends: it goes on with a state, it has been told to give up, or it is asleep. After a
loop that goes on, the wakeups that it has not seen are left. -/
inductive Woken (σ : Type*)
  | go (s : σ) (stop : Bool) (wakes : List (σ × Bool))
  | stopped (s : σ)
  | asleep

/-- `while (busy) { if (stop) return; sleep }`. What the sleeper finds each time it wakes up is given. -/
def sleepWhile {σ : Type*} (busy : σ → Prop) [DecidablePred busy] (s : σ) (stop : Bool) : List (σ × Bool) → Woken σ
  | [] => if busy s then if stop then .stopped s else .asleep else .go s stop []
  | w :: wakes =>
    if busy s then if stop then .stopped s else sleepWhile busy w.1 w.2 wakes else .go s stop (w :: wakes)

section
variable {σ : Type*} {busy : σ → Prop} [DecidablePred busy] {s t : σ} {stop stop' : Bool} {wakes rest : List (σ × Bool)}

theorem mem_of_go (h : sleepWhile busy s stop wakes = .go t stop' rest) : t ∈ s :: wakes.map Prod.fst := by
  induction wakes generalizing s stop with
  | nil =>
    rw [sleepWhile] at h
    split_ifs at h
    cases h
    exact List.mem_cons_self
  | cons w wakes ih =>
    rw [sleepWhile] at h
    split_ifs at h
    · exact List.mem_cons_of_mem _ (ih h)
    · cases h
      exact List.mem_cons_self

theorem mem_of_stopped (h : sleepWhile busy s stop wakes = .stopped t) : t ∈ s :: wakes.map Prod.fst := by
  induction wakes generalizing s stop with
  | nil =>
    rw [sleepWhile] at h
    split_ifs at h
    cases h
    exact List.mem_cons_self
  | cons w wakes ih =>
    rw [sleepWhile] at h
    split_ifs at h
    · cases h
      exact List.mem_cons_self
    · exact List.mem_cons_of_mem _ (ih h)

end

end Xv6.Lib
