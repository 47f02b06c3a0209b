import Xv6.Kernel.Sched.Machine
import Mathlib.Logic.Relation
import Mathlib.Tactic

/-! What the code on top of `proc.c` sees of it: threads that share data and spinlocks, `sleep` and
`wakeup`, and no scheduler. -/
namespace Xv6.Sched

/-- Where a thread is: at a label; in `sleep` before `lk` is released, after that, and when it has
been woken up; in `wakeup`, which has looked at the first `i` processes; or in another function,
with the labels that this may return to. -/
inductive Point (ι κ Λ : Type)
  | code (l : ι)
  | sleep (chan : κ) (lk : Λ) (next : ι)
  | wait (chan : κ) (lk : Λ) (next : ι)
  | wake (lk : Λ) (next : ι)
  | wakeup (chan : κ) (i : ℕ) (next : ι)
  | call (ret : ι → Prop)

/-- The threads are those of the processes, and the interrupt handlers of the CPUs. -/
structure Client (ι D κ Λ C : Type) where
  task : Slot ⊕ C → Option (Point ι κ Λ)
  lock : Λ → Option (Slot ⊕ C)
  data : D

/-- The function that an instruction calls. -/
def Instr.point {ι D κ Λ : Type} : Instr ι D κ Λ → Option (Point ι κ Λ)
  | .sleep chan lk next => some (.sleep chan lk next)
  | .wakeup chan next => some (.wakeup chan 0 next)
  | .kill _ next => some (.call fun l => ∃ r, l = next r)
  | .fork _ next => some (.call fun l => ∃ r, l = next r)
  | .wait _ next => some (.call fun l => ∃ r, l = next r)
  | _ => none

/-- `fork` starts a child there. -/
def Kernel.Forks {ι D κ Λ : Type} (K : Kernel ι D κ Λ) (child : ι) : Prop :=
  ∃ l next, K.code l = .fork child next

section Step
variable {ι D κ Λ C : Type} [DecidableEq Λ] [DecidableEq C]

def Client.set (a : Client ι D κ Λ C) (t : Slot ⊕ C) (pt : Option (Point ι κ Λ)) : Client ι D κ Λ C :=
  { a with task := Function.update a.task t pt }

def Client.setLock (a : Client ι D κ Λ C) (lk : Λ) (t : Option (Slot ⊕ C)) : Client ι D κ Λ C :=
  { a with lock := Function.update a.lock lk t }

section Fields
variable (a : Client ι D κ Λ C) (t u : Slot ⊕ C) (pt : Option (Point ι κ Λ)) (lk lk' : Λ)
  (h : Option (Slot ⊕ C))

omit [DecidableEq Λ] in
@[simp] theorem Client.set_task : (a.set t pt).task u = if u = t then pt else a.task u :=
  Function.update_apply a.task t pt u

omit [DecidableEq Λ] in
@[simp] theorem Client.set_lock : (a.set t pt).lock = a.lock := rfl

omit [DecidableEq Λ] in
@[simp] theorem Client.set_data : (a.set t pt).data = a.data := rfl

omit [DecidableEq C] in
@[simp] theorem Client.setLock_lock : (a.setLock lk h).lock lk' = if lk' = lk then h else a.lock lk' :=
  Function.update_apply a.lock lk h lk'

omit [DecidableEq C] in
@[simp] theorem Client.setLock_task : (a.setLock lk h).task = a.task := rfl

omit [DecidableEq C] in
@[simp] theorem Client.setLock_data : (a.setLock lk h).data = a.data := rfl

end Fields

/-- The steps. A stretch of code with a number is taken where `allow` permits it. -/
inductive ClientStep (K : Kernel ι D κ Λ) (allow : ι → D → Bool → ℕ → Prop) (a : Client ι D κ Λ C) :
    Client ι D κ Λ C → Prop
  | acquire {t l lk next} : a.task t = some (.code l) → K.code l = .acquire lk next → a.lock lk = none →
    ClientStep K allow a ((a.set t (some (.code next))).setLock lk (some t))
  | release {t l lk next} : a.task t = some (.code l) → K.code l = .release lk next → a.lock lk = some t →
    ClientStep K allow a ((a.set t (some (.code next))).setLock lk none)
  | run {t l f b n} : a.task t = some (.code l) → K.code l = .run f → allow l a.data b n →
    ClientStep K allow a { a.set t (some (.code (f a.data b n).2)) with data := (f a.data b n).1 }
  | enter {t l pt} : a.task t = some (.code l) → (K.code l).point = some pt →
    ClientStep K allow a (a.set t (some pt))
  | exit {t l status} : a.task t = some (.code l) → K.code l = .exit status → ClientStep K allow a (a.set t none)
  | iret {c l} : a.task (.inr c) = some (.code l) → K.code l = .iret → ClientStep K allow a (a.set (.inr c) none)
  | sleep {t chan lk next} : a.task t = some (.sleep chan lk next) → a.lock lk = some t →
    ClientStep K allow a ((a.set t (some (.wait chan lk next))).setLock lk none)
  | woken {t chan lk next} : a.task t = some (.wait chan lk next) →
    ClientStep K allow a (a.set t (some (.wake lk next)))
  | wake {t lk next} : a.task t = some (.wake lk next) → a.lock lk = none →
    ClientStep K allow a ((a.set t (some (.code next))).setLock lk (some t))
  | scan {t chan next} {q : Slot} : a.task t = some (.wakeup chan q next) →
    (∀ lk next', a.task (.inl q) ≠ some (.wait chan lk next')) →
    ClientStep K allow a (a.set t (some (.wakeup chan (q + 1) next)))
  | scanned {t chan i next} : a.task t = some (.wakeup chan i next) → nproc ≤ i →
    ClientStep K allow a (a.set t (some (.code next)))
  | ret {t ret l} : a.task t = some (.call ret) → ret l → ClientStep K allow a (a.set t (some (.code l)))
  | spawn {q : Slot} {child} : a.task (.inl q) = none → K.Forks child →
    ClientStep K allow a (a.set (.inl q) (some (.code child)))
  | handler {c l} : a.task (.inr c) = none → K.handler l = true →
    ClientStep K allow a (a.set (.inr c) (some (.code l)))
  | dma {n} : ClientStep K allow a { a with data := K.dma a.data n }

/-- One process, which starts at a label. -/
def Client.boot (data : D) (start : ι) : Client ι D κ Λ C where
  task t := if t = .inl initproc then some (.code start) else none
  lock _ := none
  data := data

/-- The states that the threads reach. -/
def Client.Reaches (K : Kernel ι D κ Λ) (allow : ι → D → Bool → ℕ → Prop) (data : D) (start : ι)
    (a : Client ι D κ Λ C) : Prop :=
  Relation.ReflTransGen (ClientStep K allow) (Client.boot data start) a

end Step

section Locks
variable {ι D κ Λ C : Type} {K : Kernel ι D κ Λ} {L : ι → List Λ}

/-- `L` says which locks a thread holds at each label, the last that it has taken first. -/
structure Kernel.Balanced (K : Kernel ι D κ Λ) (L : ι → List Λ) : Prop where
  nodup : ∀ l, (L l).Nodup
  acquire : ∀ {l lk next}, K.code l = .acquire lk next → L next = lk :: L l
  release : ∀ {l lk next}, K.code l = .release lk next → L l = lk :: L next
  run : ∀ {l f}, K.code l = .run f → ∀ d b n, L (f d b n).2 = L l
  sleep : ∀ {l chan lk next}, K.code l = .sleep chan lk next → L next = L l ∧ (L l).head? = some lk
  wakeup : ∀ {l chan next}, K.code l = .wakeup chan next → L next = L l
  kill : ∀ {l pid next}, K.code l = .kill pid next → L l = [] ∧ ∀ r, L (next r) = []
  fork : ∀ {l child next}, K.code l = .fork child next → L l = [] ∧ (∀ r, L (next r) = []) ∧ L child = []
  wait : ∀ {l addr next}, K.code l = .wait addr next → L l = [] ∧ ∀ r, L (next r) = []
  exit : ∀ {l status}, K.code l = .exit status → L l = []
  iret : ∀ {l}, K.code l = .iret → L l = []
  handler : ∀ {l}, K.handler l = true → L l = []

/-- The locks before and after an instruction. -/
def Instr.Keeps (L : ι → List Λ) (l : ι) : Instr ι D κ Λ → Prop
  | .acquire lk next => L next = lk :: L l
  | .release lk next => L l = lk :: L next
  | .run f => ∀ d b n, L (f d b n).2 = L l
  | .sleep _ lk next => L next = L l ∧ (L l).head? = some lk
  | .wakeup _ next => L next = L l
  | .kill _ next => L l = [] ∧ ∀ r, L (next r) = []
  | .fork child next => L l = [] ∧ (∀ r, L (next r) = []) ∧ L child = []
  | .wait _ next => L l = [] ∧ ∀ r, L (next r) = []
  | .exit _ | .iret => L l = []

theorem Kernel.balanced (hn : ∀ l, (L l).Nodup) (h : ∀ l, (K.code l).Keeps L l) (hh : ∀ l, K.handler l = true → L l = []) :
    K.Balanced L := by
  have hkeep : ∀ {l i}, K.code l = i → i.Keeps L l := fun hc => hc ▸ h _
  exact ⟨hn, hkeep, hkeep, hkeep, hkeep, hkeep, hkeep, hkeep, hkeep, hkeep, hkeep, hh _⟩

/-- The locks that a thread holds. -/
def Point.locks (L : ι → List Λ) : Option (Point ι κ Λ) → List Λ
  | none => []
  | some (.code l) | some (.sleep _ _ l) | some (.wakeup _ _ l) => L l
  | some (.wait _ _ l) | some (.wake _ l) => (L l).tail
  | some (.call _) => []

/-- What is fixed when a function is called. -/
def Point.Fits (K : Kernel ι D κ Λ) (L : ι → List Λ) : Option (Point ι κ Λ) → Prop
  | some (.sleep chan lk next) | some (.wait chan lk next) => ∃ l, K.code l = .sleep chan lk next
  | some (.wake lk next) => ∃ l chan, K.code l = .sleep chan lk next
  | some (.wakeup chan _ next) => ∃ l, K.code l = .wakeup chan next
  | some (.call ret) => ∀ l, ret l → L l = []
  | _ => True

/-- A lock is held by the thread whose place says so. -/
structure Client.Owns (K : Kernel ι D κ Λ) (L : ι → List Λ) (a : Client ι D κ Λ C) : Prop where
  lock : ∀ lk t, a.lock lk = some t ↔ lk ∈ Point.locks L (a.task t)
  fits : ∀ t, Point.Fits K L (a.task t)

variable {a a' : Client ι D κ Λ C} {t u : Slot ⊕ C} {lk : Λ}

theorem Client.Owns.unique (h : a.Owns K L) (ht : lk ∈ Point.locks L (a.task t))
    (hu : lk ∈ Point.locks L (a.task u)) : t = u :=
  Option.some.inj (((h.lock lk t).mpr ht).symm.trans ((h.lock lk u).mpr hu))

theorem Kernel.Balanced.sleep_locks (hK : K.Balanced L) {l next : ι} {chan : κ} (h : K.code l = .sleep chan lk next) :
    L next = lk :: (L next).tail := by
  obtain ⟨he, hh⟩ := hK.sleep h
  rw [← he] at hh
  obtain ⟨rest, hr⟩ := List.head?_eq_some_iff.mp hh
  rw [hr, List.tail_cons]

namespace Client.Owns
variable [DecidableEq C]

theorem move (h : a.Owns K L) {pt : Option (Point ι κ Λ)} (hl : Point.locks L pt = Point.locks L (a.task t))
    (hf : Point.Fits K L pt) : (a.set t pt).Owns K L := by
  refine ⟨fun lk u => ?_, fun u => ?_⟩
  · rw [Client.set_lock, h.lock, Client.set_task]
    split_ifs with hu
    · rw [hl, hu]
    · rfl
  · rw [Client.set_task]
    split_ifs
    · exact hf
    · exact h.fits u

variable [DecidableEq Λ]

theorem take (h : a.Owns K L) {pt : Option (Point ι κ Λ)} (hfree : a.lock lk = none)
    (hl : Point.locks L pt = lk :: Point.locks L (a.task t)) (hf : Point.Fits K L pt) :
    ((a.set t pt).setLock lk (some t)).Owns K L := by
  have hno : ∀ u, lk ∉ Point.locks L (a.task u) := fun u hu => by
    simp [(h.lock lk u).mpr hu] at hfree
  refine ⟨fun lk' u => ?_, fun u => ?_⟩
  · rw [Client.setLock_lock, Client.setLock_task, Client.set_task]
    by_cases hk : lk' = lk <;> by_cases hu : u = t
    · simp [hk, hu, hl]
    · simpa [hk, hu, hno] using fun he => hu he.symm
    · simpa [hk, hu, hl] using h.lock lk' t
    · simpa [hk, hu] using h.lock lk' u
  · rw [Client.setLock_task, Client.set_task]
    split_ifs
    · exact hf
    · exact h.fits u

theorem give (h : a.Owns K L) {pt : Option (Point ι κ Λ)}
    (hl : Point.locks L (a.task t) = lk :: Point.locks L pt) (hn : (Point.locks L (a.task t)).Nodup)
    (hf : Point.Fits K L pt) : ((a.set t pt).setLock lk none).Owns K L := by
  have ht : a.lock lk = some t := (h.lock lk t).mpr (by simp [hl])
  have hno : lk ∉ Point.locks L pt := by
    rw [hl] at hn
    exact (List.nodup_cons.mp hn).1
  refine ⟨fun lk' u => ?_, fun u => ?_⟩
  · rw [Client.setLock_lock, Client.setLock_task, Client.set_task]
    by_cases hk : lk' = lk <;> by_cases hu : u = t
    · simpa [hk, hu] using hno
    · have : lk ∉ Point.locks L (a.task u) := fun hm => hu (h.unique hm (by simp [hl]))
      simpa [hk, hu] using this
    · have := h.lock lk' t
      simpa [hk, hu, hl] using this
    · simpa [hk, hu] using h.lock lk' u
  · rw [Client.setLock_task, Client.set_task]
    split_ifs
    · exact hf
    · exact h.fits u

theorem step (hK : K.Balanced L) {allow : ι → D → Bool → ℕ → Prop} (h : a.Owns K L)
    (hs : ClientStep K allow a a') : a'.Owns K L := by
  cases hs with
  | acquire ht hc hlk =>
    exact h.take hlk (by simp [ht, Point.locks, hK.acquire hc]) trivial
  | release ht hc =>
    exact h.give (by simp [ht, Point.locks, hK.release hc]) (by simpa [ht, Point.locks] using hK.nodup _) trivial
  | @run t l f b n ht hc =>
    have hm : (a.set t (some (.code (f a.data b n).2))).Owns K L :=
      h.move (by simpa [ht, Point.locks] using hK.run hc a.data b n) trivial
    exact ⟨hm.lock, hm.fits⟩
  | @enter t l pt ht hp =>
    cases hc : K.code l with
    | sleep chan lk next =>
      rw [hc] at hp
      cases hp
      exact h.move (by simp [ht, Point.locks, (hK.sleep hc).1]) ⟨l, hc⟩
    | wakeup chan next =>
      rw [hc] at hp
      cases hp
      exact h.move (by simp [ht, Point.locks, hK.wakeup hc]) ⟨l, hc⟩
    | kill pid next =>
      rw [hc] at hp
      cases hp
      refine h.move (by simp [ht, Point.locks, (hK.kill hc).1]) ?_
      rintro _ ⟨r, rfl⟩
      exact (hK.kill hc).2 r
    | fork child next =>
      rw [hc] at hp
      cases hp
      refine h.move (by simp [ht, Point.locks, (hK.fork hc).1]) ?_
      rintro _ ⟨r, rfl⟩
      exact (hK.fork hc).2.1 r
    | wait addr next =>
      rw [hc] at hp
      cases hp
      refine h.move (by simp [ht, Point.locks, (hK.wait hc).1]) ?_
      rintro _ ⟨r, rfl⟩
      exact (hK.wait hc).2 r
    | _ =>
      rw [hc] at hp
      cases hp
  | exit ht hc => exact h.move (by simp [ht, Point.locks, hK.exit hc]) trivial
  | iret ht hc => exact h.move (by simp [ht, Point.locks, hK.iret hc]) trivial
  | @sleep t chan lk next ht =>
    obtain ⟨l, hc⟩ : ∃ l, K.code l = .sleep chan lk next := by simpa [ht, Point.Fits] using h.fits t
    exact h.give (by simpa [ht, Point.locks] using hK.sleep_locks hc) (by simpa [ht, Point.locks] using hK.nodup _)
      ⟨l, hc⟩
  | @woken t chan lk next ht =>
    obtain ⟨l, hc⟩ : ∃ l, K.code l = .sleep chan lk next := by simpa [ht, Point.Fits] using h.fits t
    exact h.move (by simp [ht, Point.locks]) ⟨l, chan, hc⟩
  | @wake t lk next ht hlk =>
    obtain ⟨l, chan, hc⟩ : ∃ l chan, K.code l = .sleep chan lk next := by simpa [ht, Point.Fits] using h.fits t
    exact h.take hlk (by simpa [ht, Point.locks] using hK.sleep_locks hc) trivial
  | @scan t chan next q ht =>
    exact h.move (by simp [ht, Point.locks]) (by simpa [ht, Point.Fits] using h.fits t)
  | scanned ht => exact h.move (by simp [ht, Point.locks]) trivial
  | @ret t ret l ht hr =>
    have hf : ∀ l, ret l → L l = [] := by simpa [ht, Point.Fits] using h.fits t
    exact h.move (by simp [ht, Point.locks, hf l hr]) trivial
  | spawn ht hf =>
    obtain ⟨l, next, hc⟩ := hf
    exact h.move (by simp [ht, Point.locks, (hK.fork hc).2.2]) trivial
  | handler ht hl => exact h.move (by simp [ht, Point.locks, hK.handler hl]) trivial
  | dma => exact ⟨h.lock, h.fits⟩

theorem of_reaches (hK : K.Balanced L) {allow : ι → D → Bool → ℕ → Prop} {data : D} {start : ι} (hs : L start = [])
    (h : a.Reaches K allow data start) : a.Owns K L := by
  induction h with
  | refl =>
    refine ⟨fun lk t => ?_, fun t => ?_⟩
    · by_cases ht : t = .inl initproc <;> simp [Client.boot, ht, Point.locks, hs]
    · by_cases ht : t = .inl initproc <;> simp [Client.boot, ht, Point.Fits]
  | tail _ hst ih => exact ih.step hK hst

end Client.Owns
end Locks
end Xv6.Sched
