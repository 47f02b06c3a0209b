import Mathlib.Data.Nat.Notation
import Mathlib.Logic.Relation
import Mathlib.Tactic.SplitIfs

/-! Labelled machines: the states a run can reach when every step it takes is
admissible, the induction rule for invariants, and concrete runs as lists of
labels. -/
namespace Xv6.Lib

variable {σ α ε : Type*}

/-- `s'` is reached from `s` by steps that are admissible where they are taken. -/
def Run (step : σ → α → Except ε σ) (ok : σ → α → Prop) : σ → σ → Prop :=
  Relation.ReflTransGen fun s s' => ∃ a, ok s a ∧ step s a = .ok s'

namespace Run

variable {step : σ → α → Except ε σ} {ok : σ → α → Prop} {s t u : σ}

theorem refl (s : σ) : Run step ok s s := Relation.ReflTransGen.refl

theorem tail {a : α} (h : Run step ok s t) (ha : ok t a) (hs : step t a = .ok u) :
    Run step ok s u :=
  Relation.ReflTransGen.tail h ⟨a, ha, hs⟩

theorem trans (h : Run step ok s t) (h' : Run step ok t u) : Run step ok s u :=
  Relation.ReflTransGen.trans h h'

theorem mono {ok' : σ → α → Prop} (hok : ∀ s a, ok s a → ok' s a) (h : Run step ok s t) :
    Run step ok' s t := by
  refine Relation.ReflTransGen.mono ?_ s t h
  rintro x y ⟨a, ha, hs⟩
  exact ⟨a, hok x a ha, hs⟩

theorem invariant {I : σ → Prop} (h : Run step ok s t) (h0 : I s)
    (hstep : ∀ s a s', I s → ok s a → step s a = .ok s' → I s') : I t := by
  induction h with
  | refl => exact h0
  | tail _ hst ih =>
    obtain ⟨a, ha, hs⟩ := hst
    exact hstep _ a _ ih ha hs

theorem reaches {P goal : σ → Prop} (rank : σ → ℕ)
    (h : ∀ s, P s → ¬ goal s → ∃ a s', ok s a ∧ step s a = .ok s' ∧ P s' ∧ rank s' < rank s)
    (s : σ) (hs : P s) : ∃ t, Run step ok s t ∧ P t ∧ goal t := by
  induction hr : rank s using Nat.strongRecOn generalizing s with
  | ind n ih =>
    by_cases hg : goal s
    · exact ⟨s, refl s, hs, hg⟩
    · obtain ⟨a, s', hok, hst, hP, hlt⟩ := h s hs hg
      obtain ⟨t, hrun, ht⟩ := ih (rank s') (hr ▸ hlt) s' hP rfl
      exact ⟨t, ((refl s).tail hok hst).trans hrun, ht⟩

end Run

/-- Follow a list of labels, checking at each one that the step is admissible. -/
def exec (step : σ → α → Except ε σ) (ok : σ → α → Prop) [∀ s a, Decidable (ok s a)] :
    σ → List α → Option σ
  | s, [] => some s
  | s, a :: as =>
    if ok s a then
      match step s a with
      | .ok s' => exec step ok s' as
      | .error _ => none
    else none

theorem run_of_exec {step : σ → α → Except ε σ} {ok : σ → α → Prop}
    [∀ s a, Decidable (ok s a)] (as : List α) {s t : σ} (h : exec step ok s as = some t) :
    Run step ok s t := by
  induction as generalizing s with
  | nil =>
    have : s = t := Option.some.inj h
    subst t
    exact Run.refl s
  | cons a as ih =>
    unfold exec at h
    split_ifs at h with ha
    cases hs : step s a with
    | error e => simp [hs] at h
    | ok s' =>
      rw [hs] at h
      exact ((Run.refl s).tail ha hs).trans (ih h)

theorem map_unit_eq_error {β : Type*} {r : Except ε β} {e : ε} :
    (r.map fun _ => ()) = .error e ↔ r = .error e := by
  cases r <;> simp [Except.map]

theorem exists_run_of_exec (step : σ → α → Except ε σ) (ok : σ → α → Prop)
    [∀ s a, Decidable (ok s a)] (s : σ) (as : List α) (test : σ → Bool)
    (h : (exec step ok s as).any test = true) : ∃ t, Run step ok s t ∧ test t = true := by
  obtain ⟨t, ht, hp⟩ := (Option.any_eq_true _ _).mp h
  exact ⟨t, run_of_exec as ht, hp⟩

end Xv6.Lib
