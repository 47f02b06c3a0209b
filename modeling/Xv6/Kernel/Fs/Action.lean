import Xv6.Kernel.Fs.Create
import Xv6.Kernel.Fs.Unlink

/-! What the system calls do to the files, as seen from outside: a call is a sequence of actions. -/
namespace Xv6.Fs
open Lib SlotMap Function

/-- The files, and the references that are held. -/
structure Ns where
  held : Multiset Handle
  files : Files

inductive Action (short : ShortInt) : Ns → Ns → Prop
  | hold {H : Multiset Handle} {F : Files} {j : ℕ} {f : Node} (i : Fin ninode) : F j = some f →
      Action short ⟨H, F⟩ ⟨(i, j) ::ₘ H, F⟩
  | drop {H : Multiset Handle} {F : Files} {i : Fin ninode} {j : ℕ} :
      Action short ⟨(i, j) ::ₘ H, F⟩ ⟨H, settle H j F⟩
  | write {H : Multiset Handle} {F : Files} {j : ℕ} {f : Node} (c : List UInt8) : F j = some f → f.type ≠ .dir →
      Action short ⟨H, F⟩ ⟨H, setContent F j c⟩
  | link {H : Multiset Handle} {F : Files} {j d : ℕ} {f g : Node} {name : Bytes} {c : List UInt8} : F j = some f →
      f.type ≠ .dir → F d = some g → Inserts g name j c →
      Action short ⟨H, F⟩ ⟨H, settle H j (setContent (relink short F j 1) d c)⟩
  | unlink {H : Multiset Handle} {F : Files} {d m j : ℕ} {g f : Node} {k : Key} {c : List UInt8} :
      Unlinkable F d g m k j f c → Action short ⟨H, F⟩ ⟨H, unlinked short H F d c j f⟩
  | create {H : Multiset Handle} {F : Files} {d j : ℕ} {g : Node} {name : Bytes} {type : FileType} {major minor : ℤ}
      {c₀ c : List UInt8} (i : Fin ninode) : type ≠ .free → Creates short F d g name j type major minor c₀ c →
      Action short ⟨H, F⟩ ⟨(i, j) ::ₘ H, settle H d (created short F d j type major minor c₀ c)⟩

abbrev Actions (short : ShortInt) : Ns → Ns → Prop := Relation.ReflTransGen (Action short)

section
variable {short : ShortInt} {H : Multiset Handle} {F : Files} {S : Set ℕ} {j d : ℕ}

/-- The files without links that are not in `S` are held. -/
def SettledBut (S : Set ℕ) (H : Multiset Handle) (F : Files) : Prop :=
  ∀ j f, j ∉ S → F j = some f → f.nlink = 0 → ∃ i, (i, j) ∈ H

theorem settledBut_empty : SettledBut ∅ H F ↔ Settled H F :=
  ⟨fun h l f hl h0 => h l f (Set.notMem_empty l) hl h0, fun h l f _ hl h0 => h l f hl h0⟩

theorem SettledBut.update (h : SettledBut S H F) (o : Option Node) : SettledBut (insert j S) H (update F j o) := by
  intro l f hl hf h0
  rw [Set.mem_insert_iff, not_or] at hl
  rw [update_of_ne hl.1] at hf
  exact h l f hl.2 hf h0

theorem SettledBut.settle (h : SettledBut (insert j S) H F) : SettledBut S H (settle H j F) := by
  intro l f hl hf h0
  by_cases hlj : l = j
  · subst hlj
    unfold Fs.settle at hf
    split_ifs at hf with hc
    · rw [update_self] at hf
      cases hf
    · by_contra hno
      exact hc ⟨by simp [hf, h0], fun i hi => hno ⟨i, hi⟩⟩
  · rw [settle_of_ne hlj] at hf
    refine h l f ?_ hf h0
    rw [Set.mem_insert_iff, not_or]
    exact ⟨hlj, hl⟩

theorem SettledBut.mono {S' : Set ℕ} (h : SettledBut S H F) (hS : S ⊆ S') : SettledBut S' H F :=
  fun l f hl hf h0 => h l f (fun hlS => hl (hS hlS)) hf h0

theorem Settled.but (h : Settled H F) (S : Set ℕ) : SettledBut S H F := fun l f _ hf h0 => h l f hf h0

theorem SettledBut.setContent (h : SettledBut S H F) (c : List UInt8) : SettledBut S H (setContent F j c) := by
  intro l f hl hf h0
  by_cases hlj : l = j
  · subst hlj
    rw [Fs.setContent, update_self] at hf
    obtain ⟨g, hg, rfl⟩ := Option.map_eq_some_iff.mp hf
    exact h l g hl hg h0
  · rw [setContent_of_ne hlj] at hf
    exact h l f hl hf h0

theorem Action.settled {n n' : Ns} (h : Action short n n') (hs : Settled n.held n.files) : Settled n'.held n'.files := by
  cases h with
  | hold i hj => exact hs.mono fun _ _ hm => Multiset.mem_cons_of_mem hm
  | @drop H F i j =>
    refine settledBut_empty.mp (SettledBut.settle fun l f hl hf h0 => ?_)
    obtain ⟨k, hk⟩ := hs l f hf h0
    rcases Multiset.mem_cons.mp hk with heq | hk
    · exact absurd (.inl (Prod.mk.inj heq).2) hl
    · exact ⟨k, hk⟩
  | write c hj ht => exact hs.setContent c
  | link hj ht hg hc => exact settledBut_empty.mp (((hs.but ∅).update _).setContent _).settle
  | @unlink H F d m j g f k c hu =>
    refine settledBut_empty.mp (SettledBut.settle (SettledBut.update (SettledBut.settle ?_) _))
    unfold shrink
    split_ifs
    · exact ((hs.but ∅).setContent c).update _
    · exact ((hs.but ∅).setContent c).mono (Set.subset_insert _ _)
  | @create H F d j g name type major minor c₀ c i hty hc =>
    have hjd : j ≠ d := fun hjd => by
      have := hc.fresh
      rw [hjd, hc.parent] at this
      cases this
    refine Settled.mono (settledBut_empty.mp (SettledBut.settle (SettledBut.setContent ?_ c)))
      fun _ _ hm => Multiset.mem_cons_of_mem hm
    -- the new file has a link
    have hnew : SettledBut ∅ H (update F j (some (newNode short type major minor c₀))) := by
      intro l f _ hf h0
      by_cases hlj : l = j
      · rw [hlj, update_self] at hf
        rw [← Option.some.inj hf] at h0
        exact absurd h0 one_ne_zero
      · rw [update_of_ne hlj] at hf
        exact hs l f hf h0
    unfold grow
    split_ifs
    · exact hnew.update _
    · exact hnew.mono (Set.subset_insert _ _)

theorem Actions.settled {n n' : Ns} (h : Actions short n n') (hs : Settled n.held n.files) : Settled n'.held n'.files := by
  induction h with
  | refl => exact hs
  | tail _ hstep ih => exact hstep.settled ih

/-- The link counts are values of a `short`. -/
def InRange (short : ShortInt) (F : Files) : Prop := ∀ j f, F j = some f → short f.nlink = f.nlink

theorem InRange.restores (h : InRange short F) : Restores short F := fun j f hj => by
  rw [short.add, add_neg_cancel_right]
  exact h j f hj

theorem InRange.update (h : InRange short F) {o : Option Node} (ho : ∀ f, o = some f → short f.nlink = f.nlink) :
    InRange short (update F j o) := by
  intro l f hl
  by_cases hlj : l = j
  · rw [hlj, update_self] at hl
    exact ho f hl
  · rw [update_of_ne hlj] at hl
    exact h l f hl

theorem InRange.settle (h : InRange short F) : InRange short (settle H j F) := by
  unfold Fs.settle
  split_ifs
  · exact h.update fun f hf => absurd hf (Option.some_ne_none f).symm
  · exact h

theorem InRange.relink (h : InRange short F) (n : ℤ) : InRange short (relink short F j n) := by
  refine h.update fun f hf => ?_
  obtain ⟨g, -, rfl⟩ := Option.map_eq_some_iff.mp hf
  have := short.add (g.nlink + n) 0
  rwa [add_zero, add_zero] at this

theorem InRange.setContent (h : InRange short F) (c : List UInt8) : InRange short (setContent F j c) := by
  refine h.update fun f hf => ?_
  obtain ⟨g, hg, rfl⟩ := Option.map_eq_some_iff.mp hf
  exact h j g hg

theorem Action.inRange {n n' : Ns} (h : Action short n n') (hs : InRange short n.files) :
    InRange short n'.files := by
  cases h with
  | hold i hj => exact hs
  | drop => exact hs.settle
  | write c hj ht => exact hs.setContent c
  | link hj ht hg hc => exact ((hs.relink 1).setContent _).settle
  | unlink hu =>
    refine (InRange.relink (InRange.settle ?_) (-1)).settle
    unfold shrink
    split_ifs
    · exact (hs.setContent _).relink (-1)
    · exact hs.setContent _
  | @create H F d j g name type major minor c₀ c i hty hc =>
    refine (InRange.setContent ?_ _).settle
    have hnew : InRange short (update F j (some (newNode short type major minor c₀))) := by
      refine InRange.update hs fun f hf => ?_
      rw [← Option.some.inj hf]
      exact short.one
    unfold grow
    split_ifs
    · exact hnew.relink 1
    · exact hnew

theorem Actions.inRange {n n' : Ns} (h : Actions short n n') (hs : InRange short n.files) :
    InRange short n'.files := by
  induction h with
  | refl => exact hs
  | tail _ hstep ih => exact hstep.inRange ih

/-- The files as the calls keep them. -/
structure Tidy (short : ShortInt) (n : Ns) : Prop where
  settled : Settled n.held n.files
  inRange : InRange short n.files

theorem Actions.tidy {n n' : Ns} (h : Actions short n n') (ht : Tidy short n) : Tidy short n' :=
  ⟨h.settled ht.settled, h.inRange ht.inRange⟩

end

end Xv6.Fs
