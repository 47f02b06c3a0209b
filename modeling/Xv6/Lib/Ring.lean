import Mathlib.Data.List.Chain
import Mathlib.Data.List.Nodup
import Mathlib.Data.Option.Basic
import Mathlib.Logic.Function.Basic
import Mathlib.Tactic.Common

/-! Circular doubly linked lists through a sentinel. A node is `some a`, the sentinel
is `none`; the two pointers of every node are stored in one pair of functions, so that
a pointer assignment is a function update. -/
namespace Xv6.Lib
open Function

variable {α : Type*}

structure Links (α : Type*) where
  next : Option α → Option α
  prev : Option α → Option α

namespace Links

/-- Both pointers of the sentinel lead back to it. -/
def empty : Links α where
  next _ := none
  prev _ := none

section Operations
variable [DecidableEq α]

/-- `x->next = y` -/
def setNext (L : Links α) (x y : Option α) : Links α := { L with next := update L.next x y }

/-- `x->prev = y` -/
def setPrev (L : Links α) (x y : Option α) : Links α := { L with prev := update L.prev x y }

/-- `b->next->prev = b->prev; b->prev->next = b->next` -/
def unlink (L : Links α) (b : α) : Links α :=
  let L := L.setPrev (L.next (some b)) (L.prev (some b))
  L.setNext (L.prev (some b)) (L.next (some b))

/-- `b->next = head.next; b->prev = &head; head.next->prev = b; head.next = b` -/
def pushFront (L : Links α) (b : α) : Links α :=
  let L := L.setNext (some b) (L.next none)
  let L := L.setPrev (some b) none
  let L := L.setPrev (L.next none) (some b)
  L.setNext none (some b)

end Operations

/-- The nodes met by following `next` from `x` until the sentinel, at most `fuel` of them. -/
def forward (L : Links α) : ℕ → Option α → List α
  | 0, _ => []
  | _ + 1, none => []
  | fuel + 1, some a => a :: L.forward fuel (L.next (some a))

def backward (L : Links α) : ℕ → Option α → List α
  | 0, _ => []
  | _ + 1, none => []
  | fuel + 1, some a => a :: L.backward fuel (L.prev (some a))

/-- `y` follows `x` and `x` precedes `y`. -/
def Adjacent (L : Links α) (x y : Option α) : Prop := L.next x = y ∧ L.prev y = x

/-- The sentinel, the nodes of `l` in order and the sentinel again are linked both ways. -/
structure Ring (L : Links α) (l : List α) : Prop where
  chain : (none :: (l.map some ++ [none])).IsChain L.Adjacent
  nodup : l.Nodup

theorem ring_empty : (empty : Links α).Ring [] :=
  ⟨by simp [Adjacent, empty], List.nodup_nil⟩

theorem forward_of_chain {L : Links α} {l : List α} {x : Option α} {fuel : ℕ}
    (h : (x :: (l.map some ++ [none])).IsChain L.Adjacent) (hf : l.length < fuel) :
    L.forward fuel (L.next x) = l := by
  induction l generalizing x fuel with
  | nil =>
    obtain ⟨n, rfl⟩ : ∃ n, fuel = n + 1 := ⟨fuel - 1, by simp at hf; omega⟩
    have hx : L.Adjacent x none := by simpa using h
    rw [hx.1]
    rfl
  | cons a l ih =>
    obtain ⟨n, rfl⟩ : ∃ n, fuel = n + 1 := ⟨fuel - 1, by simp at hf; omega⟩
    simp only [List.map_cons, List.cons_append, List.isChain_cons_cons] at h
    rw [h.1.1, forward, ih h.2 (by simpa using hf)]

theorem Ring.forward {L : Links α} {l : List α} (h : L.Ring l) {fuel : ℕ} (hf : l.length < fuel) :
    L.forward fuel (L.next none) = l :=
  forward_of_chain h.chain hf

theorem Ring.reverse {L : Links α} {l : List α} (h : L.Ring l) :
    Ring ⟨L.prev, L.next⟩ l.reverse := by
  refine ⟨?_, List.nodup_reverse.mpr h.nodup⟩
  have hr : none :: (l.reverse.map some ++ [none]) = (none :: (l.map some ++ [none])).reverse := by
    simp
  rw [hr, List.isChain_reverse]
  exact h.chain.imp fun a b hab => ⟨hab.2, hab.1⟩

theorem backward_eq_forward (L : Links α) (fuel : ℕ) (x : Option α) :
    L.backward fuel x = Links.forward ⟨L.prev, L.next⟩ fuel x := by
  induction fuel generalizing x with
  | zero => rfl
  | succ n ih =>
    cases x with
    | none => rfl
    | some a => rw [backward, Links.forward, ih]

theorem Ring.backward {L : Links α} {l : List α} (h : L.Ring l) {fuel : ℕ} (hf : l.length < fuel) :
    L.backward fuel (L.prev none) = l.reverse := by
  rw [backward_eq_forward]
  exact h.reverse.forward (by simpa using hf)

section Operations
variable [DecidableEq α] {L : Links α} {l l₁ l₂ : List α} {b : α}

theorem unlink_eq {u v : Option α} (hu : L.Adjacent u (some b)) (hv : L.Adjacent (some b) v)
    (hvb : v ≠ some b) : L.unlink b = (L.setPrev v u).setNext u v := by
  simp [unlink, setPrev, setNext, hu.2, hv.1, update_of_ne hvb.symm]

theorem Adjacent.unlink {x y u v : Option α} (h : L.Adjacent x y) (hu : L.Adjacent u (some b))
    (hv : L.Adjacent (some b) v) (hvb : v ≠ some b) (hx : x ≠ some b) (hy : y ≠ some b) :
    (L.unlink b).Adjacent x y := by
  have hxu : x ≠ u := fun e => hy (by rw [← h.1, e, hu.1])
  have hyv : y ≠ v := fun e => hx (by rw [← h.2, e, hv.2])
  rw [unlink_eq hu hv hvb]
  simpa [Adjacent, setPrev, setNext, hxu, hyv] using h

theorem Ring.unlink (h : L.Ring (l₁ ++ b :: l₂)) : (L.unlink b).Ring (l₁ ++ l₂) := by
  have hb : b ∉ l₁ ∧ b ∉ l₂ := by
    have := (List.nodup_middle.mp h.nodup)
    simpa using (List.nodup_cons.mp this).1
  refine ⟨?_, (List.nodup_cons.mp (List.nodup_middle.mp h.nodup)).2⟩
  obtain ⟨v, r, hr⟩ : ∃ v r, l₂.map some ++ [none] = v :: r := by cases l₂ <;> simp
  have hc : ((none :: l₁.map some) ++ some b :: (l₂.map some ++ [none])).IsChain L.Adjacent := by
    simpa using h.chain
  obtain ⟨hleft, hright, hjoin⟩ := List.isChain_append.mp hc
  rw [hr, List.isChain_cons_cons] at hright
  obtain ⟨hbv, hright⟩ := hright
  have hnb : ∀ y ∈ v :: r, y ≠ some b := by
    intro y hy e
    rw [← hr, e] at hy
    simp [hb.2] at hy
  have hna : ∀ y ∈ none :: l₁.map some, y ≠ some b := by
    intro y hy e
    rw [e] at hy
    simp [hb.1] at hy
  have hu : ∀ u ∈ (none :: l₁.map some).getLast?, L.Adjacent u (some b) :=
    fun u hu => hjoin u hu (some b) (by simp)
  obtain ⟨u, hlast⟩ : ∃ u, (none :: l₁.map some).getLast? = some u := ⟨_, List.getLast?_cons⟩
  have hub := hu u hlast
  have hvb := hnb v (by simp)
  have hall : ((none :: l₁.map some) ++ v :: r).IsChain (L.unlink b).Adjacent := by
    refine List.isChain_append.mpr ⟨?_, ?_, ?_⟩
    · exact hleft.imp_of_mem_imp fun x y hx hy hxy =>
        hxy.unlink hub hbv hvb (hna x hx) (hna y hy)
    · exact hright.imp_of_mem_imp fun x y hx hy hxy =>
        hxy.unlink hub hbv hvb (hnb x hx) (hnb y hy)
    · intro x hx y hy
      obtain rfl : u = x := Option.some.inj (hlast.symm.trans hx)
      obtain rfl : v = y := by simpa using hy
      rw [unlink_eq hub hbv hvb]
      simp [Adjacent, setPrev, setNext]
  simpa [hr] using hall

theorem Ring.pushFront (h : L.Ring l) (hb : b ∉ l) : (L.pushFront b).Ring (b :: l) := by
  refine ⟨?_, List.nodup_cons.mpr ⟨hb, h.nodup⟩⟩
  obtain ⟨v, r, hr⟩ : ∃ v r, l.map some ++ [none] = v :: r := by cases l <;> simp
  have hnodup : (v :: r).Nodup := by
    rw [← hr, List.nodup_append]
    exact ⟨h.nodup.map (Option.some_injective α), by simp, by simp⟩
  have hnb : ∀ y ∈ v :: r, y ≠ some b := by
    intro y hy e
    rw [← hr, e] at hy
    simp [hb] at hy
  have hc := h.chain
  rw [hr, List.isChain_cons_cons] at hc
  obtain ⟨⟨hnext, -⟩, hc⟩ := hc
  have hvb := hnb v (by simp)
  have heq : L.pushFront b = { next := update (update L.next (some b) v) none (some b)
                               prev := update (update L.prev (some b) none) v (some b) } := by
    simp [Links.pushFront, setNext, setPrev, hnext]
  have hall : (none :: some b :: v :: r).IsChain (L.pushFront b).Adjacent := by
    rw [heq]
    refine List.isChain_cons_cons.mpr ⟨?_, List.isChain_cons_cons.mpr ⟨?_, ?_⟩⟩
    · simp [Adjacent, hvb.symm]
    · simp [Adjacent]
    · refine hc.imp_of_mem_tail_imp fun x y hx hy hxy => ?_
      have hyv : y ≠ v := fun e => (List.nodup_cons.mp hnodup).1 (e ▸ hy)
      have hx0 : x ≠ none := fun e => hyv (by rw [← hxy.1, e, hnext])
      have hyb := hnb y (List.mem_of_mem_tail hy)
      simpa [Adjacent, hx0, hyv, hyb, hnb x hx] using hxy
  simpa [hr] using hall

end Operations

end Links
end Xv6.Lib
