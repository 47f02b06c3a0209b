import Xv6.Lib.Wp

/-! One function follows another: whenever the first returns, so does the second, and the
results are related. -/
namespace Xv6.Lib

variable {σ τ ε ε' α β γ δ : Type}

/-- `x` started in `s` fails with an error that `E` admits, or returns; then `y` started in
`t` returns too, as `R` says. -/
def Refines (E : ε → Prop) (x : StateT σ (Except ε) α) (s : σ) (y : StateT τ (Except ε') β) (t : τ)
    (R : α → σ → β → τ → Prop) : Prop :=
  Wp E x s fun a s' => ∃ b t', y t = .ok (b, t') ∧ R a s' b t'

variable {E : ε → Prop} {x : StateT σ (Except ε) α} {y : StateT τ (Except ε') β} {s : σ} {t : τ}

theorem Refines.mono {R R' : α → σ → β → τ → Prop} (h : Refines E x s y t R)
    (hR : ∀ a s' b t', R a s' b t' → R' a s' b t') : Refines E x s y t R' := by
  refine Wp.mono h ?_
  rintro a s' ⟨b, t', hy, hr⟩
  exact ⟨b, t', hy, hR a s' b t' hr⟩

theorem Refines.and_wp {R : α → σ → β → τ → Prop} {E' : ε' → Prop} {Q : β → τ → Prop}
    (h : Refines E x s y t R) (hy : Wp E' y t Q) :
    Refines E x s y t fun a s' b t' => R a s' b t' ∧ Q b t' := by
  refine Wp.mono h ?_
  rintro a s' ⟨b, t', heq, hr⟩
  exact ⟨b, t', heq, hr, hy.of_ok heq⟩

theorem refines_pure {R : α → σ → β → τ → Prop} {a : α} {b : β} (h : R a s b t) :
    Refines E (pure a) s (pure b : StateT τ (Except ε') β) t R := by
  rw [Refines, wp_pure]
  exact ⟨b, t, rfl, h⟩

theorem refines_throw {R : α → σ → β → τ → Prop} {e : ε} (h : E e) :
    Refines E (throw e) s y t R := by
  rwa [Refines, wp_throw]

theorem refines_bind {f : α → StateT σ (Except ε) γ} {g : β → StateT τ (Except ε') δ}
    {R : α → σ → β → τ → Prop} {R' : γ → σ → δ → τ → Prop} (h : Refines E x s y t R)
    (hf : ∀ a s' b t', R a s' b t' → Refines E (f a) s' (g b) t' R') :
    Refines E (x >>= f) s (y >>= g) t R' := by
  rw [Refines, wp_bind]
  refine Wp.mono h ?_
  rintro a s' ⟨b, t', hy, hr⟩
  refine Wp.mono (hf a s' b t' hr) ?_
  rintro c s'' ⟨d, t'', hg, hr'⟩
  refine ⟨d, t'', ?_, hr'⟩
  show StateT.bind y g t = _
  rw [StateT.bind, hy]
  exact hg

theorem refines_left {f : α → StateT σ (Except ε) γ} {z : StateT τ (Except ε') δ}
    {R : γ → σ → δ → τ → Prop} (h : Wp E x s fun a s' => Refines E (f a) s' z t R) :
    Refines E (x >>= f) s z t R := by
  rw [Refines, wp_bind]
  exact h

theorem refines_right {g : β → StateT τ (Except ε') δ} {R : α → σ → δ → τ → Prop} {b : β} {t' : τ}
    (hy : y t = .ok (b, t')) (h : Refines E x s (g b) t' R) : Refines E x s (y >>= g) t R := by
  refine Wp.mono h ?_
  rintro a s' ⟨d, t'', hg, hr⟩
  refine ⟨d, t'', ?_, hr⟩
  show StateT.bind y g t = _
  rw [StateT.bind, hy]
  exact hg

end Xv6.Lib
