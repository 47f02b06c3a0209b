import Xv6.Kernel.Sched.Client
import Mathlib.Tactic

/-! Proof outlines: what the thread that has a lock knows of the data at each of its labels, and
what everybody knows while the lock is free. -/
namespace Xv6.Sched

variable {ι D κ Λ C : Type} {K : Kernel ι D κ Λ} {L : ι → List Λ} {allow : ι → D → Bool → ℕ → Prop}
  {I : Client ι D κ Λ C → Prop} {lk : Λ} {A : ι → D → Prop} {J : D → Prop} {a a' : Client ι D κ Λ C} {t : Slot ⊕ C}

/-- A change of the data by a thread that does not have the lock. -/
def Stable (L : ι → List Λ) (lk : Λ) (A : ι → D → Prop) (J : D → Prop) (d d' : D) : Prop :=
  (J d → J d') ∧ ∀ l, lk ∈ L l → A l d → A l d'

theorem Stable.refl (d : D) : Stable L lk A J d d := ⟨id, fun _ _ => id⟩

/-- With the lock, an instruction at `l` leads from `A l` to the assertion at the next label.
Without it, what others know stays true. -/
def Instr.Proves (L : ι → List Λ) (allow : ι → D → Bool → ℕ → Prop) (lk : Λ) (A : ι → D → Prop) (J : D → Prop) (l : ι)
    (d : D) : Instr ι D κ Λ → Prop
  | .run f => ∀ b n, allow l d b n →
      (lk ∈ L l → A l d → A (f d b n).2 (f d b n).1) ∧ (lk ∉ L l → Stable L lk A J d (f d b n).1)
  | .acquire lk' next => (lk' = lk → J d → A next d) ∧ (lk' ≠ lk → lk ∈ L l → A l d → A next d)
  | .release lk' next => (lk' = lk → A l d → J d) ∧ (lk' ≠ lk → lk ∈ L l → A l d → A next d)
  | .sleep _ lk' next => (lk' = lk → (A l d → J d) ∧ ∀ d, J d → A next d) ∧ (lk' ≠ lk → lk ∈ L l → A l d → A next d)
  | .wakeup _ next => lk ∈ L l → A l d → A next d
  | _ => True

structure Outline (K : Kernel ι D κ Λ) (L : ι → List Λ) (allow : ι → D → Bool → ℕ → Prop)
    (I : Client ι D κ Λ C → Prop) (lk : Λ) (A : ι → D → Prop) (J : D → Prop) : Prop where
  code : ∀ {a : Client ι D κ Λ C} {t l}, I a → a.task t = some (.code l) → (K.code l).Proves L allow lk A J l a.data
  dma : ∀ {a : Client ι D κ Λ C} n, I a → Stable L lk A J a.data (K.dma a.data n)

/-- What the thread with the lock knows, wherever it is. -/
def Point.Asserts [DecidableEq Λ] (lk : Λ) (A : ι → D → Prop) (J : D → Prop) (d : D) : Option (Point ι κ Λ) → Prop
  | some (.code l) | some (.wakeup _ _ l) => A l d
  | some (.sleep _ lk' next) => if lk' = lk then J d else A next d
  | some (.wait _ _ next) | some (.wake _ next) => A next d
  | _ => True

variable [DecidableEq Λ]

structure Client.Outlined (lk : Λ) (A : ι → D → Prop) (J : D → Prop) (a : Client ι D κ Λ C) : Prop where
  free : a.lock lk = none → J a.data
  held : ∀ t, a.lock lk = some t → Point.Asserts lk A J a.data (a.task t)
  /-- `sleep` returns with the lock, to a label that asks for no more than `J` -/
  back : ∀ t l, a.task t = some (.wake lk l) ∨ (∃ chan, a.task t = some (.wait chan lk l)) ∨
    (∃ chan, a.task t = some (.sleep chan lk l)) → ∀ d, J d → A l d

theorem Point.Asserts.stable {d d' : D} (hs : Stable L lk A J d d') {pt : Option (Point ι κ Λ)}
    (hl : lk ∈ Point.locks L pt) (h : Point.Asserts lk A J d pt) : Point.Asserts lk A J d' pt := by
  match pt, hl, h with
  | some (.code l), hl, h | some (.wakeup _ _ l), hl, h => exact hs.2 l hl h
  | some (.sleep _ lk' next), hl, h =>
    by_cases hk : lk' = lk
    · simpa [Point.Asserts, hk] using hs.1 (by simpa [Point.Asserts, hk] using h)
    · simpa [Point.Asserts, hk] using hs.2 next hl (by simpa [Point.Asserts, hk] using h)
  | some (.wait _ _ next), hl, h | some (.wake _ next), hl, h => exact hs.2 next (List.mem_of_mem_tail hl) h

namespace Client.Outlined

variable [DecidableEq C]

theorem move (h : a.Outlined lk A J) {pt : Option (Point ι κ Λ)} (hdata : a'.data = a.data)
    (htask : a'.task = (a.set t pt).task) (hother : ∀ u, u ≠ t → (a'.lock lk = some u ↔ a.lock lk = some u))
    (hself : a'.lock lk = some t → Point.Asserts lk A J a.data pt) (hfree : a'.lock lk = none → J a.data)
    (hback : ∀ l, pt = some (.wake lk l) ∨ (∃ chan, pt = some (.wait chan lk l)) ∨
      (∃ chan, pt = some (.sleep chan lk l)) → ∀ d, J d → A l d) : a'.Outlined lk A J := by
  refine ⟨fun hl => ?_, fun u hu => ?_, fun u l hu => ?_⟩
  · rw [hdata]
    exact hfree hl
  · rw [hdata, htask, Client.set_task]
    split_ifs with hut
    · subst hut
      exact hself hu
    · exact h.held u ((hother u hut).mp hu)
  · rw [htask, Client.set_task] at hu
    split_ifs at hu with hut
    · exact hback l hu
    · exact h.back u l hu

theorem step (hO : Outline K L allow I lk A J) (hI : I a) (ho : a.Owns K L)
    (h : a.Outlined lk A J) (hs : ClientStep K allow a a') : a'.Outlined lk A J := by
  have hp : ∀ {t l i}, a.task t = some (.code l) → K.code l = i → i.Proves L allow lk A J l a.data := by
    intro t l i ht hc
    rw [← hc]
    exact hO.code hI ht
  have hheld : ∀ {t l}, a.task t = some (.code l) → a.lock lk = some t → lk ∈ L l ∧ A l a.data := by
    intro t l ht hl
    have h1 := (ho.lock lk t).mp hl
    have h2 := h.held t hl
    rw [ht] at h1 h2
    exact ⟨h1, h2⟩
  cases hs with
  | @acquire t l lk' next ht hc hfree =>
    by_cases hk : lk' = lk
    · subst hk
      refine h.move (t := t) rfl rfl (fun u hu => ?_) (fun _ => (hp ht hc).1 rfl (h.free hfree)) (by simp) (by simp)
      simpa [hfree] using hu.symm
    · have hl : ((a.set t (some (.code next))).setLock lk' (some t)).lock lk = a.lock lk := by simp [Ne.symm hk]
      refine h.move (t := t) rfl rfl (fun u _ => by rw [hl]) (fun hlk => ?_) (fun hf => h.free (hl ▸ hf)) (by simp)
      obtain ⟨hmem, hA⟩ := hheld ht (hl ▸ hlk)
      exact (hp ht hc).2 hk hmem hA
  | @release t l lk' next ht hc hlk =>
    by_cases hk : lk' = lk
    · subst hk
      refine h.move (t := t) rfl rfl (fun u hu => ?_) (by simp) (fun _ => (hp ht hc).1 rfl (hheld ht hlk).2) (by simp)
      simpa [hlk] using hu.symm
    · have hl : ((a.set t (some (.code next))).setLock lk' none).lock lk = a.lock lk := by simp [Ne.symm hk]
      refine h.move (t := t) rfl rfl (fun u _ => by rw [hl]) (fun hlk => ?_) (fun hf => h.free (hl ▸ hf)) (by simp)
      obtain ⟨hmem, hA⟩ := hheld ht (hl ▸ hlk)
      exact (hp ht hc).2 hk hmem hA
  | @run t l f b n ht hc hal =>
    obtain ⟨hin, hout⟩ := hp ht hc b n hal
    have htask : ∀ u, (a.set t (some (.code (f a.data b n).2))).task u =
        if u = t then some (.code (f a.data b n).2) else a.task u := fun u => by simp
    have hlock : a.lock lk = some t ↔ lk ∈ L l := by rw [ho.lock, ht, Point.locks]
    refine ⟨fun hl => ?_, fun u hu => ?_, fun u l' hu => ?_⟩
    · have hl : a.lock lk = none := hl
      exact (hout fun hmem => by simp [hlock.mpr hmem] at hl).1 (h.free hl)
    · have hu : a.lock lk = some u := hu
      dsimp only
      rw [htask]
      split_ifs with hut
      · subst hut
        obtain ⟨hmem, hA⟩ := hheld ht hu
        exact hin hmem hA
      · refine Point.Asserts.stable (hout fun hmem => hut ?_) ((ho.lock lk u).mp hu) (h.held u hu)
        exact Option.some.inj (hu.symm.trans (hlock.mpr hmem))
    · dsimp only at hu
      rw [htask] at hu
      split_ifs at hu with hut
      · simp at hu
      · exact h.back u l' hu
  | @enter t l pt ht hpt =>
    refine h.move (t := t) rfl rfl (fun u _ => Iff.rfl) (fun hl => ?_) h.free fun l' he => ?_
    · obtain ⟨hmem, hA⟩ := hheld ht hl
      cases hc : K.code l <;> rw [hc] at hpt <;> cases hpt
      case sleep.refl chan lk' next =>
        by_cases hk : lk' = lk
        · simpa [Point.Asserts, hk] using ((hp ht hc).1 hk).1 hA
        · simpa [Point.Asserts, hk] using (hp ht hc).2 hk hmem hA
      case wakeup.refl chan next => exact hp ht hc hmem hA
      all_goals trivial
    · have hc : ∃ chan, K.code l = .sleep chan lk l' := by
        rcases he with he | ⟨chan, he⟩ | ⟨chan, he⟩ <;> obtain rfl := Option.some.inj he <;>
        cases hc : K.code l <;> rw [hc] at hpt <;> cases hpt
        exact ⟨chan, rfl⟩
      obtain ⟨chan, hc⟩ := hc
      exact ((hp ht hc).1 rfl).2
  | exit ht hc | iret ht hc => exact h.move rfl rfl (fun u _ => Iff.rfl) (fun _ => trivial) h.free (by simp)
  | @sleep t chan lk' next ht hlk =>
    by_cases hk : lk' = lk
    · subst hk
      have hJ : J a.data := by simpa [ht, Point.Asserts] using h.held t hlk
      refine h.move (t := t) rfl rfl (fun u hu => ?_) (by simp) (fun _ => hJ) fun l he => ?_
      · simpa [hlk] using hu.symm
      · obtain rfl : next = l := by simpa using he
        exact h.back t next (.inr (.inr ⟨chan, ht⟩))
    · have hl : ((a.set t (some (.wait chan lk' next))).setLock lk' none).lock lk = a.lock lk := by simp [Ne.symm hk]
      refine h.move (t := t) rfl rfl (fun u _ => by rw [hl]) (fun hlk => ?_) (fun hf => h.free (hl ▸ hf)) (by simp [hk])
      simpa [ht, Point.Asserts, hk] using h.held t (hl ▸ hlk)
  | @woken t chan lk' next ht =>
    refine h.move (t := t) rfl rfl (fun u _ => Iff.rfl) (fun hl => ?_) h.free fun l he => ?_
    · simpa [ht, Point.Asserts] using h.held t hl
    · obtain ⟨rfl, rfl⟩ : lk' = lk ∧ next = l := by simpa using he
      exact h.back t next (.inr (.inl ⟨chan, ht⟩))
  | @wake t lk' next ht hfree =>
    by_cases hk : lk' = lk
    · subst hk
      refine h.move (t := t) rfl rfl (fun u hu => ?_) (fun _ => h.back t next (.inl ht) _ (h.free hfree)) (by simp) (by simp)
      simpa [hfree] using hu.symm
    · have hl : ((a.set t (some (.code next))).setLock lk' (some t)).lock lk = a.lock lk := by simp [Ne.symm hk]
      refine h.move (t := t) rfl rfl (fun u _ => by rw [hl]) (fun hlk => ?_) (fun hf => h.free (hl ▸ hf)) (by simp)
      simpa [ht, Point.Asserts] using h.held t (hl ▸ hlk)
  | @scan t chan next q ht | @scanned t chan i next ht =>
    refine h.move rfl rfl (fun u _ => Iff.rfl) (fun hl => ?_) h.free (by simp)
    simpa [ht, Point.Asserts] using h.held t hl
  | @ret t ret l ht hr =>
    refine h.move (t := t) rfl rfl (fun u _ => Iff.rfl) (fun hl => ?_) h.free (by simp)
    simpa [ht, Point.locks] using (ho.lock lk t).mp hl
  | @spawn q child ht =>
    refine h.move (t := .inl q) rfl rfl (fun u _ => Iff.rfl) (fun hl => ?_) h.free (by simp)
    simpa [ht, Point.locks] using (ho.lock lk _).mp hl
  | @handler c l ht =>
    refine h.move (t := .inr c) rfl rfl (fun u _ => Iff.rfl) (fun hl => ?_) h.free (by simp)
    simpa [ht, Point.locks] using (ho.lock lk _).mp hl
  | @dma n =>
    have hst := hO.dma n hI
    exact ⟨fun hl => hst.1 (h.free hl), fun u hu => (h.held u hu).stable hst ((ho.lock lk u).mp hu), h.back⟩

theorem of_reaches (hO : Outline K L allow I lk A J) (hK : K.Balanced L) {data : D} {start : ι} (hs : L start = [])
    (h0 : J data) (hI : ∀ a, a.Reaches K allow data start → I a) (h : a.Reaches K allow data start) :
    a.Outlined lk A J := by
  induction h with
  | refl =>
    refine ⟨fun _ => h0, fun t ht => by simp [Client.boot] at ht, fun t l ht => ?_⟩
    simp only [Client.boot] at ht
    split_ifs at ht <;> simp at ht
  | tail hr hst ih => exact ih.step hO (hI _ hr) (.of_reaches hK hs hr) hst

omit [DecidableEq C] in
theorem at_label (h : a.Outlined lk A J) (ho : a.Owns K L) {l : ι} (ht : a.task t = some (.code l)) (hl : lk ∈ L l) :
    A l a.data := by
  have := h.held t ((ho.lock lk t).mpr (by rw [ht]; exact hl))
  rwa [ht] at this

omit [DecidableEq C] in
theorem always (h : a.Outlined lk A J) (ho : a.Owns K L) (hA : ∀ l d, lk ∈ L l → A l d → J d) : J a.data := by
  cases hl : a.lock lk with
  | none => exact h.free hl
  | some t =>
    have hmem := (ho.lock lk t).mp hl
    have has := h.held t hl
    revert hmem has
    match a.task t with
    | some (.code l) | some (.wakeup _ _ l) => exact fun hmem has => hA l _ hmem has
    | some (.sleep _ lk' l) =>
      intro hmem has
      by_cases hk : lk' = lk
      · simpa [Point.Asserts, hk] using has
      · exact hA l _ hmem (by simpa [Point.Asserts, hk] using has)
    | some (.wait _ _ l) | some (.wake _ l) => exact fun hmem has => hA l _ (List.mem_of_mem_tail hmem) has
    | some (.call _) | none => exact fun hmem => absurd hmem List.not_mem_nil

end Client.Outlined
end Xv6.Sched
