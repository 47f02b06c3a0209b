import Xv6.Kernel.Sched.Killed
import Mathlib.Tactic

/-! Two groups of calls side by side, each with its own data, channels and locks. -/
namespace Xv6.Sched

variable {ι ι' D D' E κ κ' Λ Λ' : Type}

def Label.map (f : ι → ι') : Label ι → Label ι'
  | .user => .user
  | .fork => .fork
  | .wait => .wait
  | .exit status => .exit status
  | .kill pid => .kill pid
  | .sys l => .sys (f l)

instance {P : ι → Prop} [DecidablePred P] : DecidablePred (Label.In P)
  | .sys l => inferInstanceAs (Decidable (P l))
  | .user | .fork | .wait | .exit _ | .kill _ => inferInstanceAs (Decidable False)

/-- A step on a part of the data. -/
def Instr.map (f : ι → ι') (g : κ → κ') (h : Λ → Λ') (get : E → D) (set : E → D → E) :
    Instr ι D κ Λ → Instr ι' E κ' Λ'
  | .acquire lk next => .acquire (h lk) (f next)
  | .release lk next => .release (h lk) (f next)
  | .run r => .run fun e killed n => (set e (r (get e) killed n).1, f (r (get e) killed n).2)
  | .sleep chan lk next => .sleep (g chan) (h lk) (f next)
  | .wakeup chan next => .wakeup (g chan) (f next)
  | .kill pid next => .kill pid fun r => f (next r)
  | .fork child next => .fork (f child) fun r => f (next r)
  | .exit status => .exit status
  | .wait addr next => .wait addr fun r => f (next r)
  | .iret => .iret

def Calls.sum (S : Calls ι D κ Λ) (T : Calls ι' D' κ' Λ') : Calls (ι ⊕ ι') (D × D') (κ ⊕ κ') (Λ ⊕ Λ') where
  call n := if n % 2 = 0 then .inl (S.call (n / 2)) else .inr (T.call (n / 2))
  code
    | .inl l => (S.code l).map (Label.map .inl) .inl .inl Prod.fst fun d x => (x, d.2)
    | .inr l => (T.code l).map (Label.map .inr) .inr .inr Prod.snd fun d x => (d.1, x)
  handler := Sum.elim S.handler T.handler
  dma d n := if n % 2 = 0 then (S.dma d.1 (n / 2), d.2) else (d.1, T.dma d.2 (n / 2))

/-- Calls that test `killed` before they sleep. -/
def Calls.Tests (S : Calls ι D κ Λ) (win : ι → Prop) (loop : κ → Prop) : Prop :=
  ∀ l, (S.code l).Tests (Label.In win) loop (.sys l)

theorem Calls.Tests.kernel {S : Calls ι D κ Λ} {win : ι → Prop} {loop : κ → Prop} (h : S.Tests win loop) (l : Label ι) :
    (S.kernel.code l).Tests (Label.In win) loop l := by
  cases l with
  | user => exact fun _ _ h => h
  | fork => exact ⟨id, fun _ => id⟩
  | wait | kill pid => exact fun _ => id
  | exit status => trivial
  | sys l => exact h l

theorem Label.in_map {f : ι → ι'} {win : ι → Prop} {win' : ι' → Prop} (h : ∀ l, win' (f l) ↔ win l) (l : Label ι) :
    (l.map f).In win' ↔ l.In win := by
  cases l <;> first | exact Iff.rfl | exact h _

theorem Instr.Tests.map {i : Instr (Label ι) D κ Λ} {win : ι → Prop} {win' : ι' → Prop} {loop : κ → Prop} {loop' : κ' → Prop}
    {f : ι → ι'} {g : κ → κ'} {h : Λ → Λ'} (get : E → D) (set : E → D → E) (hwin : ∀ l, win' (f l) ↔ win l)
    (hloop : ∀ c, loop' (g c) ↔ loop c) {l : Label ι} (hi : i.Tests (Label.In win) loop l) :
    (i.map (Label.map f) g h get set).Tests (Label.In win') loop' (l.map f) := by
  have hin := Label.in_map hwin
  cases i <;> simp only [Instr.Tests, Instr.map, hin, hloop] at hi ⊢
  case run r => exact fun d n => hi (get d) n
  all_goals exact hi

theorem Calls.Tests.sum {S : Calls ι D κ Λ} {T : Calls ι' D' κ' Λ'} {win : ι → Prop} {win' : ι' → Prop} {loop : κ → Prop}
    {loop' : κ' → Prop} (h : S.Tests win loop) (h' : T.Tests win' loop') :
    (S.sum T).Tests (Sum.elim win win') (Sum.elim loop loop') := by
  rintro (l | l)
  · have hw : ∀ l, Sum.elim win win' (.inl l) ↔ win l := fun _ => Iff.rfl
    have hc : ∀ c, Sum.elim loop loop' (.inl c) ↔ loop c := fun _ => Iff.rfl
    exact (h l).map Prod.fst (fun d x => (x, d.2)) hw hc
  · have hw : ∀ l, Sum.elim win win' (.inr l) ↔ win' l := fun _ => Iff.rfl
    have hc : ∀ c, Sum.elim loop loop' (.inr c) ↔ loop' c := fun _ => Iff.rfl
    exact (h' l).map Prod.snd (fun d x => (d.1, x)) hw hc

end Xv6.Sched
