import Xv6.Kernel.Sched.Monitor
import Xv6.Kernel.Sched.Outline
import Mathlib.Tactic

/-! Processes that make system calls, one after the other: those of `proc.c`, and some others that
are studied. -/
namespace Xv6.Sched
open Lib

variable {ι D κ Λ C : Type}

/-- A process is in user mode, makes a call of `proc.c`, or is somewhere in another call. -/
inductive Label (ι : Type)
  | user
  | fork
  | wait
  | exit (status : ℤ)
  | kill (pid : ℤ)
  | sys (l : ι)

/-- The calls: where they begin, their code, the interrupt handlers and the devices. -/
structure Calls (ι D κ Λ : Type) where
  call : ℕ → ι
  code : ι → Instr (Label ι) D κ Λ
  handler : ι → Bool
  dma : D → ℕ → D

/-- What a process does next, by a number. -/
def Calls.next (S : Calls ι D κ Λ) : ℕ → Label ι
  | 0 => .fork
  | 1 => .wait
  | 2 => .exit 0
  | n + 3 =>
    match n % 3 with
    | 0 => .sys (S.call (n / 3))
    | 1 => .kill (n / 3)
    | _ => .kill (-(n / 3))

/-- `usertrap` lets a process exit that has been killed. -/
def Calls.kernel (S : Calls ι D κ Λ) : Kernel (Label ι) D κ Λ where
  code
    | .user => .run fun d killed n => (d, if killed then .exit (-1) else S.next n)
    | .fork => .fork .user fun _ => .user
    | .wait => .wait 0 fun _ => .user
    | .exit status => .exit status
    | .kill pid => .kill pid fun _ => .user
    | .sys l => S.code l
  handler
    | .sys l => S.handler l
    | _ => false
  dma := S.dma

/-- A process has locks in the calls only. -/
def Label.locks (L : ι → List Λ) : Label ι → List Λ
  | .sys l => L l
  | _ => []

/-- What is said of the labels of the calls. -/
def Label.In (P : ι → Prop) : Label ι → Prop
  | .sys l => P l
  | _ => False

def Label.Asserts (A : ι → D → Prop) : Label ι → D → Prop
  | .sys l, d => A l d
  | _, _ => True

variable {S : Calls ι D κ Λ} {L : ι → List Λ}

theorem Calls.next_cases (S : Calls ι D κ Λ) (n : ℕ) : (∀ l, S.next n ≠ .sys l) ∨ ∃ m, S.next n = .sys (S.call m) := by
  unfold Calls.next
  split <;> try simp
  split <;> simp

theorem Calls.locks_next (h : ∀ n, L (S.call n) = []) (n : ℕ) : (S.next n).locks L = [] := by
  rcases S.next_cases n with hn | ⟨m, hm⟩
  · cases hl : S.next n with
    | sys l => exact absurd hl (hn l)
    | _ => rfl
  · rw [hm]
    exact h m

theorem Calls.balanced (hn : ∀ l, (L l).Nodup) (hcall : ∀ n, L (S.call n) = [])
    (h : ∀ l, (S.code l).Keeps (Label.locks L) (.sys l)) (hh : ∀ l, S.handler l = true → L l = []) :
    S.kernel.Balanced (Label.locks L) := by
  refine Kernel.balanced (fun l => ?_) (fun l => ?_) fun l hl => ?_
  · cases l with
    | sys l => exact hn l
    | _ => exact List.nodup_nil
  · cases l with
    | user =>
      intro d killed n
      dsimp only
      split_ifs
      · rfl
      · exact Calls.locks_next hcall n
    | fork => exact ⟨rfl, fun _ => rfl, rfl⟩
    | wait | kill pid => exact ⟨rfl, fun _ => rfl⟩
    | exit status => rfl
    | sys l => exact h l
  · cases l with
    | sys l => exact hh l hl
    | _ => rfl

theorem Calls.monitor {allow : Label ι → D → Bool → ℕ → Prop} {I : Client (Label ι) D κ Λ C → Prop} {lk : Λ} {ch : κ}
    {W : D → Prop} {owes : ι → Prop}
    (hcode : ∀ {a : Client (Label ι) D κ Λ C} {t l}, I a → a.task t = some (.code (.sys l)) →
      (S.code l).Minds (Label.locks L) allow lk ch W (Label.In owes) (.sys l) a.data)
    (hdma : ∀ {a : Client (Label ι) D κ Λ C} n, I a → W a.data → W (S.dma a.data n)) :
    Monitor S.kernel (Label.locks L) allow I lk ch W (Label.In owes) := by
  refine ⟨fun {a t l} hI ht => ?_, hdma⟩
  cases l with
  | sys l => exact hcode hI ht
  | user => exact fun b n _ => ⟨fun hmem => absurd hmem (List.not_mem_nil), fun _ hW => hW⟩
  | _ => trivial

theorem Calls.outline {allow : Label ι → D → Bool → ℕ → Prop} {I : Client (Label ι) D κ Λ C → Prop} {lk : Λ}
    {A : ι → D → Prop} {J : D → Prop}
    (hcode : ∀ {a : Client (Label ι) D κ Λ C} {t l}, I a → a.task t = some (.code (.sys l)) →
      (S.code l).Proves (Label.locks L) allow lk (Label.Asserts A) J (.sys l) a.data)
    (hdma : ∀ {a : Client (Label ι) D κ Λ C} n, I a → Stable (Label.locks L) lk (Label.Asserts A) J a.data (S.dma a.data n)) :
    Outline S.kernel (Label.locks L) allow I lk (Label.Asserts A) J := by
  refine ⟨fun {a t l} hI ht => ?_, hdma⟩
  cases l with
  | sys l => exact hcode hI ht
  | user => exact fun b n _ => ⟨fun hmem => absurd hmem (List.not_mem_nil), fun _ => .refl _⟩
  | _ => trivial

section Data
variable [DecidableEq Λ] [DecidableEq C] {allow : Label ι → D → Bool → ℕ → Prop} {a : Client (Label ι) D κ Λ C} {data : D}

theorem Calls.data_induct {G : D → Prop} (h : a.Reaches S.kernel allow data .user) (h0 : G data)
    (hrun : ∀ l f d b n, S.code l = .run f → allow (.sys l) d b n → G d → G (f d b n).1)
    (hdma : ∀ d n, G d → G (S.dma d n)) : G a.data := by
  induction h with
  | refl => exact h0
  | tail _ hs ih =>
    cases hs with
    | @run t l f b n ht hc hal =>
      cases l with
      | sys l => exact hrun l f _ b n hc hal ih
      | user =>
        obtain rfl := Instr.run.inj hc
        exact ih
      | _ => cases hc
    | dma => exact hdma _ _ ih
    | _ => exact ih

end Data

theorem Pc.heeds_always (d : D) (b : Bool) (n : ℕ) (k : Pc ι κ Λ) : k.Heeds (fun _ _ _ _ => True) d b n := by
  cases k <;> trivial

theorem Heeds.always (s : State ι D κ Λ C) (act : C × Act ι) : Heeds (fun _ _ _ _ => True) s act := by
  unfold Heeds
  split
  · exact Pc.heeds_always _ _ _ _
  · exact Pc.heeds_always _ _ _ _
  · trivial

section Runs
variable [DecidableEq κ] [DecidableEq Λ] [DecidableEq C] [Fintype Λ] {K : Kernel ι D κ Λ} {data : D} {start : ι}
  {s : State ι D κ Λ C}

theorem step_data {s' : State ι D κ Λ C} {act : C × Act ι} (h : step K s act = .ok s') :
    s'.data = s.data ∨ (∃ l f b n, K.code l = .run f ∧ s'.data = (f s.data b n).1) ∨ ∃ n, s'.data = K.dma s.data n := by
  obtain ⟨c, a⟩ := act
  cases step_cases h with
  | thread _ _ hs =>
    generalize (s.proc _).pc = k at hs
    cases hs with
    | run hc => exact .inr (.inl ⟨_, _, _, _, hc, rfl⟩)
    | _ => exact .inl rfl
  | handler _ hs =>
    cases hs with
    | run hc => exact .inr (.inl ⟨_, _, _, _, hc, rfl⟩)
    | _ => exact .inl rfl
  | dma => exact .inr (.inr ⟨_, rfl⟩)
  | _ => exact .inl rfl

theorem Reachable.heeds (h : Reachable K data start s) :
    Run (step K) (Heeds fun _ _ _ _ => True) (boot data start) s :=
  h.mono fun s a _ => Heeds.always s a

end Runs
end Xv6.Sched
