import Mathlib.Tactic.Common

/-! Functions that read and change a state and can fail: what holds of every result, and
which errors are admitted. -/
namespace Xv6.Lib

variable {σ τ ε α β : Type}

/-- `x` started in `s` returns as `Q` says or fails with an error that `E` admits. -/
@[irreducible] def Wp (E : ε → Prop) (x : StateT σ (Except ε) α) (s : σ) (Q : α → σ → Prop) : Prop :=
  match x s with
  | .ok (a, s') => Q a s'
  | .error e => E e

variable {E : ε → Prop} {s : σ} {x : StateT σ (Except ε) α} {Q Q' : α → σ → Prop}

theorem wp_of_eq_ok {a : α} {s' : σ} (hx : x s = .ok (a, s')) : Wp E x s Q ↔ Q a s' := by
  unfold Wp
  rw [hx]

theorem wp_of_eq_error {e : ε} (hx : x s = .error e) : Wp E x s Q ↔ E e := by
  unfold Wp
  rw [hx]

theorem Wp.of_ok {a : α} {s' : σ} (h : Wp E x s Q) (hx : x s = .ok (a, s')) : Q a s' :=
  (wp_of_eq_ok hx).mp h

theorem Wp.of_error {e : ε} (h : Wp E x s Q) (hx : x s = .error e) : E e :=
  (wp_of_eq_error hx).mp h

theorem Wp.imp {E' : ε → Prop} (h : Wp E x s Q) (hE : ∀ e, E e → E' e) (hQ : ∀ a s', Q a s' → Q' a s') :
    Wp E' x s Q' := by
  cases hx : x s with
  | ok r => exact (wp_of_eq_ok hx).mpr (hQ _ _ (h.of_ok hx))
  | error e => exact (wp_of_eq_error hx).mpr (hE e (h.of_error hx))

theorem Wp.mono (h : Wp E x s Q) (hQ : ∀ a s', Q a s' → Q' a s') : Wp E x s Q' :=
  h.imp (fun _ he => he) hQ

theorem wp_congr (h : ∀ a s', Q a s' ↔ Q' a s') : Wp E x s Q ↔ Wp E x s Q' :=
  ⟨fun hx => hx.mono fun a s' => (h a s').mp, fun hx => hx.mono fun a s' => (h a s').mpr⟩

theorem Wp.and (h : Wp E x s Q) (h' : Wp E x s Q') : Wp E x s fun a s' => Q a s' ∧ Q' a s' := by
  cases hx : x s with
  | ok r => exact (wp_of_eq_ok hx).mpr ⟨h.of_ok hx, h'.of_ok hx⟩
  | error e => exact (wp_of_eq_error hx).mpr (h.of_error hx)

theorem Wp.returns (h : Wp (fun _ => False) x s Q) : ∃ a s', x s = .ok (a, s') ∧ Q a s' := by
  cases hx : x s with
  | ok r => exact ⟨r.1, r.2, rfl, h.of_ok hx⟩
  | error e => exact (h.of_error hx).elim

@[simp] theorem wp_pure (a : α) : Wp E (pure a) s Q ↔ Q a s := wp_of_eq_ok rfl

@[simp] theorem wp_throw (e : ε) : Wp E (throw e : StateT σ (Except ε) α) s Q ↔ E e :=
  wp_of_eq_error rfl

@[simp] theorem wp_bind (f : α → StateT σ (Except ε) β) (R : β → σ → Prop) :
    Wp E (x >>= f) s R ↔ Wp E x s fun a s' => Wp E (f a) s' R := by
  show Wp E (StateT.bind x f) s R ↔ _
  unfold Wp StateT.bind
  cases x s <;> rfl

@[simp] theorem wp_get (R : σ → σ → Prop) :
    Wp E (get : StateT σ (Except ε) σ) s R ↔ R s s := wp_of_eq_ok rfl

@[simp] theorem wp_set (s' : σ) (R : PUnit → σ → Prop) :
    Wp E (set s' : StateT σ (Except ε) PUnit) s R ↔ R ⟨⟩ s' := wp_of_eq_ok rfl

@[simp] theorem wp_modify (f : σ → σ) (R : PUnit → σ → Prop) :
    Wp E (modify f : StateT σ (Except ε) PUnit) s R ↔ R ⟨⟩ (f s) := wp_of_eq_ok rfl

@[simp] theorem wp_forM_nil (f : β → StateT σ (Except ε) PUnit) (R : PUnit → σ → Prop) :
    Wp E (List.forM [] f) s R ↔ R ⟨⟩ s := wp_of_eq_ok rfl

@[simp] theorem wp_forM_cons (f : β → StateT σ (Except ε) PUnit) (b : β) (l : List β)
    (R : PUnit → σ → Prop) :
    Wp E (List.forM (b :: l) f) s R ↔ Wp E (f b) s fun _ s' => Wp E (l.forM f) s' R :=
  wp_bind (fun _ => l.forM f) R

theorem wp_forM_inv {f : β → StateT σ (Except ε) PUnit} {I : σ → Prop} {l : List β}
    (hstep : ∀ b s, I s → Wp E (f b) s fun _ s' => I s') (h : I s) : Wp E (l.forM f) s fun _ s' => I s' := by
  induction l generalizing s with
  | nil => exact (wp_forM_nil f _).mpr h
  | cons b l ih => exact (wp_forM_cons f b l _).mpr ((hstep b s h).mono fun _ _ hs => ih hs)

theorem wp_forM_range {f : ℕ → StateT σ (Except ε) PUnit} {I : ℕ → σ → Prop} {n : ℕ}
    (hstep : ∀ k < n, ∀ s, I k s → Wp E (f k) s fun _ s' => I (k + 1) s') (h : I 0 s) :
    Wp E ((List.range n).forM f) s fun _ s' => I n s' := by
  have aux : ∀ m a s, a + m = n → I a s → Wp E ((List.range' a m).forM f) s fun _ s' => I n s' := by
    intro m
    induction m with
    | zero =>
      intro a s ha hs
      obtain rfl : a = n := ha
      exact (wp_forM_nil f _).mpr hs
    | succ m ih =>
      intro a s ha hs
      rw [List.range'_succ, wp_forM_cons]
      exact (hstep a (by omega) s hs).mono fun _ s' hs' => ih (a + 1) s' (by omega) hs'
  rw [List.range_eq_range']
  exact aux n 0 s (by omega) h

/-- Where `x` is started with `I` and returns, `I` holds. -/
def Preserves (I : σ → Prop) (x : StateT σ (Except ε) α) : Prop :=
  ∀ s, I s → Wp (fun _ => True) x s fun _ s' => I s'

namespace Preserves
variable {I : σ → Prop}

theorem of_ok (h : Preserves I x) (hs : I s) {a : α} {s' : σ} (hx : x s = .ok (a, s')) : I s' :=
  (h s hs).of_ok hx

theorem pure (a : α) : Preserves I (pure a : StateT σ (Except ε) α) := fun _ hs => (wp_pure a).mpr hs

theorem throw (e : ε) : Preserves I (throw e : StateT σ (Except ε) α) := fun _ _ => (wp_throw e).mpr trivial

theorem get : Preserves I (get : StateT σ (Except ε) σ) := fun _ hs => (wp_get _).mpr hs

theorem modify {f : σ → σ} (h : ∀ s, I s → I (f s)) :
    Preserves I (modify f : StateT σ (Except ε) PUnit) := fun s hs => (wp_modify f _).mpr (h s hs)

theorem bind (h : Preserves I x) {f : α → StateT σ (Except ε) β} (hf : ∀ a, Preserves I (f a)) :
    Preserves I (x >>= f) :=
  fun s hs => (wp_bind f _).mpr ((h s hs).mono fun a s' hs' => hf a s' hs')

theorem ite {c : Prop} [Decidable c] {y : StateT σ (Except ε) α} (hx : Preserves I x) (hy : Preserves I y) :
    Preserves I (if c then x else y) := by
  split_ifs
  · exact hx
  · exact hy

theorem elim {o : Option β} {f : β → StateT σ (Except ε) α} (hx : Preserves I x) (hf : ∀ b, Preserves I (f b)) :
    Preserves I (o.elim x f) := by
  cases o with
  | none => exact hx
  | some b => exact hf b

theorem forM {f : β → StateT σ (Except ε) PUnit} (h : ∀ b, Preserves I (f b)) (l : List β) :
    Preserves I (l.forM f) := by
  induction l with
  | nil => exact fun s hs => (wp_forM_nil f _).mpr hs
  | cons b l ih => exact fun s hs => (wp_forM_cons f b l _).mpr ((h b s hs).mono fun _ s' hs' => ih s' hs')

end Preserves

end Xv6.Lib
