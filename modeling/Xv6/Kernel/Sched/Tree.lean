import Xv6.Kernel.Sched.Machine

/-! What `fork`, `exit` and `wait` are for: the life of a process, from the `fork` that has made it
to the `wait` that frees it. -/
namespace Xv6.Sched

/-- A process that has been made and not yet freed: who forked it, whether it has been given to
init, its pid, the status that it has passed to `exit`, and whether it is a zombie. -/
structure Life where
  forker : Slot
  orphan : Bool
  pid : ℤ
  status : Option ℤ
  zombie : Bool
  deriving DecidableEq

/-- The forker, or init once the forker has given the process away. -/
def Life.parent (life : Life) : Slot := if life.orphan then initproc else life.forker

def Tree : Type := Slot → Option Life

def Tree.set (t : Tree) (p : Slot) (life : Option Life) : Tree := Function.update t p life

@[simp] theorem Tree.set_self (t : Tree) (p : Slot) (life : Option Life) : t.set p life p = life :=
  Function.update_self (β := fun _ => Option Life) p life t

theorem Tree.set_of_ne (t : Tree) {p q : Slot} (h : q ≠ p) (life : Option Life) : t.set p life q = t q :=
  Function.update_of_ne (β := fun _ => Option Life) h life t

def Tree.boot : Tree :=
  Tree.set (fun _ => none) initproc
    (some { forker := initproc, orphan := false, pid := 1, status := none, zombie := false })

/-- A process with no other process below it. -/
def Tree.Childless (t : Tree) (p : Slot) : Prop :=
  ∀ q ≠ initproc, (t q).all (fun life => life.parent ≠ p) = true

instance (t : Tree) (p : Slot) : Decidable (t.Childless p) :=
  inferInstanceAs (Decidable (∀ q, q ≠ initproc → (t q).all (fun life => life.parent ≠ p) = true))

/-- What may happen to a process, and what comes of it. -/
def Tree.step (t : Tree) : Event → Option Tree
  | .forked p np pid =>
    -- a free slot, and a forker that has not called `exit`
    if t np = none ∧ (t p).any (fun life => life.status = none) = true then
      some (t.set np (some { forker := p, orphan := false, pid, status := none, zombie := false }))
    else none
  | .discarded _ np => if t np = none then some t else none
  | .exiting p status => do
    let life ← t p
    if p ≠ initproc ∧ life.status = none then some (t.set p (some { life with status := some status }))
    else none
  | .abandoned p child => do
    let life ← t p
    let below ← t child
    if life.status ≠ none ∧ life.zombie = false ∧ child ≠ initproc ∧ below.parent = p then
      some (t.set child (some { below with orphan := true }))
    else none
  | .exited p => do
    let life ← t p
    if life.status ≠ none ∧ life.zombie = false ∧ t.Childless p then
      some (t.set p (some { life with zombie := true }))
    else none
  | .reaped p np pid status => do
    let life ← t np
    -- a zombie, freed by its parent, which is told its pid and its status
    if life.zombie = true ∧ np ≠ initproc ∧ life.parent = p ∧ life.pid = pid ∧
        (status = none ∨ status = life.status) then
      some (t.set np none)
    else none

/-- The processes after a list of events, the newest first. -/
def Tree.replay : List Event → Option Tree
  | [] => some Tree.boot
  | e :: es => (Tree.replay es).bind fun t => t.step e

end Xv6.Sched
