import Xv6.Kernel.Sched.Refines
import Mathlib.Tactic

/-! A lock, a channel and what the sleepers on the channel wait for. Whoever changes that, with
the lock, owes a `wakeup` until it has given the lock back. -/
namespace Xv6.Sched
open Lib

variable {ι D κ Λ C : Type} [DecidableEq Λ] [DecidableEq C] {K : Kernel ι D κ Λ} {L : ι → List Λ}
  {allow : ι → D → Bool → ℕ → Prop} {I : Client ι D κ Λ C → Prop} {lk : Λ} {ch : κ} {W : D → Prop}
  {owes : ι → Prop} {a a' : Client ι D κ Λ C} {t : Slot ⊕ C} {q : Slot}

omit [DecidableEq Λ] [DecidableEq C]

/-- While `W` holds a process may sleep on `ch`. At the labels in `owes` a thread that has `lk` is
on its way to a `wakeup`. -/
def Instr.Minds (L : ι → List Λ) (allow : ι → D → Bool → ℕ → Prop) (lk : Λ) (ch : κ) (W : D → Prop) (owes : ι → Prop)
    (l : ι) (d : D) : Instr ι D κ Λ → Prop
  | .run f => ∀ b n, allow l d b n →
      (lk ∈ L l → ¬ owes (f d b n).2 → ¬ owes l ∧ (W d → W (f d b n).1)) ∧ (lk ∉ L l → W d → W (f d b n).1)
  | .acquire lk' next => lk' ≠ lk → lk ∈ L l → owes l → owes next
  | .release lk' next => (lk' = lk → ¬ owes l) ∧ (lk' ≠ lk → lk ∈ L l → owes l → owes next)
  | .sleep chan lk' _ => (chan = ch → lk' = lk ∧ W d) ∧ (lk ∈ L l → ¬ owes l)
  | .wakeup chan next => chan ≠ ch → lk ∈ L l → owes l → owes next
  | _ => True

/-- All the code does, where `I` is what is known of the states that are reached. -/
structure Monitor (K : Kernel ι D κ Λ) (L : ι → List Λ) (allow : ι → D → Bool → ℕ → Prop)
    (I : Client ι D κ Λ C → Prop) (lk : Λ) (ch : κ) (W : D → Prop) (owes : ι → Prop) : Prop where
  code : ∀ {a : Client ι D κ Λ C} {t l}, I a → a.task t = some (.code l) →
    (K.code l).Minds L allow lk ch W owes l a.data
  dma : ∀ {a : Client ι D κ Λ C} n, I a → W a.data → W (K.dma a.data n)

/-- A thread at this point has yet to wake `q` up. -/
def Point.Owes (ch : κ) (owes : ι → Prop) (q : Slot) : Option (Point ι κ Λ) → Prop
  | some (.code l) => owes l
  | some (.wakeup chan i next) => chan = ch ∧ i ≤ q ∨ owes next
  | _ => False

/-- Who sleeps on `ch` has a reason, or will be woken up by the thread that has the lock. -/
structure Client.Attends (lk : Λ) (ch : κ) (W : D → Prop) (owes : ι → Prop) (a : Client ι D κ Λ C) : Prop where
  sleeps : ∀ t lk' next, a.task t = some (.sleep ch lk' next) → lk' = lk ∧ W a.data
  waits : ∀ q lk' next, a.task (.inl q) = some (.wait ch lk' next) →
    W a.data ∨ ∃ u, a.lock lk = some u ∧ Point.Owes ch owes q (a.task u)

namespace Client.Attends

theorem of_free (h : a.Attends lk ch W owes) (hfree : a.lock lk = none) {lk' : Λ} {next : ι}
    (hw : a.task (.inl q) = some (.wait ch lk' next)) : W a.data := by
  rcases h.waits q lk' next hw with hw | ⟨u, hu, -⟩
  · exact hw
  · simp [hfree] at hu

theorem of_paid (h : a.Attends lk ch W owes) (hlk : a.lock lk = some t) (ht : ¬ Point.Owes ch owes q (a.task t)) {lk' : Λ}
    {next : ι} (hw : a.task (.inl q) = some (.wait ch lk' next)) : W a.data := by
  rcases h.waits q lk' next hw with hw | ⟨u, hu, ho⟩
  · exact hw
  · obtain rfl := Option.some.inj (hlk.symm.trans hu)
    exact absurd ho ht

variable [DecidableEq C]

theorem move (h : a.Attends lk ch W owes) {pt : Option (Point ι κ Λ)} (hdata : a'.data = a.data)
    (htask : a'.task = (a.set t pt).task) (hlock : ∀ u, u ≠ t → a.lock lk = some u → a'.lock lk = some u)
    (hself : ∀ q, a.lock lk = some t → Point.Owes ch owes q (a.task t) →
      (∃ lk' next, a.task (.inl q) = some (.wait ch lk' next)) → W a.data ∨ a'.lock lk = some t ∧ Point.Owes ch owes q pt)
    (hsleep : ∀ lk' next, pt = some (.sleep ch lk' next) → lk' = lk ∧ W a.data)
    (hwait : ∀ lk' next, pt = some (.wait ch lk' next) → W a.data) : a'.Attends lk ch W owes := by
  refine ⟨fun u lk' next hu => ?_, fun q lk' next hq => ?_⟩
  · rw [htask, Client.set_task] at hu
    rw [hdata]
    split_ifs at hu with hut
    · exact hsleep lk' next hu
    · exact h.sleeps u lk' next hu
  · rw [htask, Client.set_task] at hq
    rw [hdata]
    split_ifs at hq with hqt
    · exact .inl (hwait lk' next hq)
    · rcases h.waits q lk' next hq with hw | ⟨u, hu, ho⟩
      · exact .inl hw
      · by_cases hut : u = t
        · subst hut
          refine (hself q hu ho ⟨lk', next, hq⟩).imp id fun ⟨hl, ho'⟩ => ⟨u, hl, ?_⟩
          rwa [htask, Client.set_task, if_pos rfl]
        · refine .inr ⟨u, hlock u hut hu, ?_⟩
          rwa [htask, Client.set_task, if_neg hut]

variable [DecidableEq Λ]

theorem run (hM : Monitor K L allow I lk ch W owes) (hK : K.Balanced L) (hI : I a) (ho : a.Owns K L)
    (h : a.Attends lk ch W owes) {l : ι} {f : D → Bool → ℕ → D × ι} {b : Bool} {n : ℕ}
    (ht : a.task t = some (.code l)) (hc : K.code l = .run f) (hal : allow l a.data b n) :
    Client.Attends lk ch W owes { a.set t (some (.code (f a.data b n).2)) with data := (f a.data b n).1 } := by
  have hmind := hM.code hI ht
  rw [hc] at hmind
  obtain ⟨hin, hout⟩ := hmind b n hal
  have htlock : a.lock lk = some t ↔ lk ∈ L l := by rw [ho.lock, ht, Point.locks]
  have htask : ∀ u, (a.set t (some (.code (f a.data b n).2))).task u =
      if u = t then some (.code (f a.data b n).2) else a.task u := fun u => by simp
  refine ⟨fun u lk' next hu => ?_, fun q lk' next hq => ?_⟩
  · dsimp only at hu ⊢
    rw [htask] at hu
    split_ifs at hu with hut
    · simp at hu
    · obtain ⟨rfl, hw⟩ := h.sleeps u lk' next hu
      refine ⟨rfl, hout (fun hmem => hut ?_) hw⟩
      -- the thread in `sleep` has the lock
      obtain ⟨l0, hl0⟩ : ∃ l0, K.code l0 = .sleep ch lk' next := by simpa [hu, Point.Fits] using ho.fits u
      have hul : a.lock lk' = some u := by
        rw [ho.lock, hu, Point.locks, hK.sleep_locks hl0]
        simp
      exact Option.some.inj (hul.symm.trans (htlock.mpr hmem))
  · dsimp only at hq ⊢
    rw [htask] at hq
    split_ifs at hq with hqt
    · simp at hq
    · by_cases hmem : lk ∈ L l
      · by_cases hnew : owes (f a.data b n).2
        · refine .inr ⟨t, htlock.mpr hmem, ?_⟩
          rwa [htask, if_pos rfl]
        · obtain ⟨hold, hW⟩ := hin hmem hnew
          exact .inl (hW (h.of_paid (htlock.mpr hmem) (by rw [ht]; exact hold) hq))
      · rcases h.waits q lk' next hq with hw | ⟨u, hu, hou⟩
        · exact .inl (hout hmem hw)
        · have hut : u ≠ t := by
            rintro rfl
            exact hmem (htlock.mp hu)
          refine .inr ⟨u, hu, ?_⟩
          rwa [htask, if_neg hut]

theorem step (hM : Monitor K L allow I lk ch W owes) (hK : K.Balanced L) (hI : I a) (ho : a.Owns K L)
    (h : a.Attends lk ch W owes) (hs : ClientStep K allow a a') : a'.Attends lk ch W owes := by
  have hheld : ∀ {t l}, a.task t = some (.code l) → a.lock lk = some t → lk ∈ L l := by
    intro t l ht hl
    have := (ho.lock lk t).mp hl
    rwa [ht, Point.locks] at this
  have hmind : ∀ {t l i}, a.task t = some (.code l) → K.code l = i → i.Minds L allow lk ch W owes l a.data := by
    intro t l i ht hc
    rw [← hc]
    exact hM.code hI ht
  cases hs with
  | @acquire t l lk' next ht hc hfree =>
    refine h.move (t := t) rfl rfl (fun u _ hu => ?_) (fun q hl hq _ => .inr ?_) (by simp) (by simp)
    · have hne : lk ≠ lk' := by
        rintro rfl
        simp [hu] at hfree
      simpa [hne] using hu
    · have hne : lk' ≠ lk := by
        rintro rfl
        simp [hl] at hfree
      rw [ht] at hq
      exact ⟨by simpa [hne.symm] using hl, hmind ht hc hne (hheld ht hl) hq⟩
  | @release t l lk' next ht hc hlk =>
    refine h.move (t := t) rfl rfl (fun u hut hu => ?_) (fun q hl hq _ => .inr ?_) (by simp) (by simp)
    · have hne : lk ≠ lk' := by
        rintro rfl
        exact hut (Option.some.inj (hu.symm.trans hlk))
      simpa [hne] using hu
    · rw [ht] at hq
      have hne : lk' ≠ lk := by
        rintro rfl
        exact (hmind ht hc).1 rfl hq
      exact ⟨by simpa [hne.symm] using hl, (hmind ht hc).2 hne (hheld ht hl) hq⟩
  | run ht hc hal => exact h.run hM hK hI ho ht hc hal
  | @enter t l pt ht hp =>
    refine h.move (t := t) rfl rfl (fun u _ hu => hu) (fun q hl hq _ => .inr ⟨hl, ?_⟩) (fun lk' next he => ?_)
      fun lk' next he => ?_
    · rw [ht] at hq
      have hmem := hheld ht hl
      cases hc : K.code l <;> rw [hc] at hp <;> cases hp
      case sleep.refl chan lk' next => exact absurd hq ((hmind ht hc).2 hmem)
      case wakeup.refl chan next =>
        by_cases hch : chan = ch
        · exact .inl ⟨hch, Nat.zero_le _⟩
        · exact .inr (hmind ht hc hch hmem hq)
      case kill.refl => simp [(hK.kill hc).1] at hmem
      case fork.refl => simp [(hK.fork hc).1] at hmem
      case wait.refl => simp [(hK.wait hc).1] at hmem
    · obtain rfl := Option.some.inj he
      have hc : K.code l = .sleep ch lk' next := by
        cases hc : K.code l <;> rw [hc] at hp <;> cases hp
        rfl
      exact (hmind ht hc).1 rfl
    · obtain rfl := Option.some.inj he
      cases hc : K.code l <;> rw [hc] at hp <;> cases hp
  | exit ht hc =>
    refine h.move rfl rfl (fun u _ hu => hu) (fun q hl _ _ => ?_) (by simp) (by simp)
    simpa [hK.exit hc] using hheld ht hl
  | iret ht hc =>
    refine h.move rfl rfl (fun u _ hu => hu) (fun q hl _ _ => ?_) (by simp) (by simp)
    simpa [hK.iret hc] using hheld ht hl
  | @sleep t chan lk' next ht hlk =>
    refine h.move (t := t) rfl rfl (fun u hut hu => ?_) (fun q _ hq _ => ?_) (by simp) fun lk'' next' he => ?_
    · have hne : lk ≠ lk' := by
        rintro rfl
        exact hut (Option.some.inj (hu.symm.trans hlk))
      simpa [hne] using hu
    · simp [ht, Point.Owes] at hq
    · cases he
      exact (h.sleeps t lk' next ht).2
  | woken ht | ret ht | spawn ht | handler ht =>
    exact h.move rfl rfl (fun u _ hu => hu) (fun q _ hq _ => by simp [ht, Point.Owes] at hq) (by simp) (by simp)
  | @wake t lk' next ht hfree =>
    refine h.move (t := t) rfl rfl (fun u _ hu => ?_) (fun q _ hq _ => by simp [ht, Point.Owes] at hq) (by simp) (by simp)
    have hne : lk ≠ lk' := by
      rintro rfl
      simp [hu] at hfree
    simpa [hne] using hu
  | @scan t chan next r ht hno =>
    refine h.move rfl rfl (fun u _ hu => hu) (fun q hl hq hw => .inr ⟨hl, ?_⟩) (by simp) (by simp)
    rw [ht] at hq
    rcases hq with ⟨rfl, hle⟩ | hq
    · -- the process that is looked at does not wait
      have hne : r ≠ q := by
        rintro rfl
        obtain ⟨lk', next', hw⟩ := hw
        exact hno lk' next' hw
      have hval : r.val ≠ q.val := fun he => hne (Fin.ext he)
      exact .inl ⟨rfl, by omega⟩
    · exact .inr hq
  | @scanned t chan i next ht hn =>
    refine h.move rfl rfl (fun u _ hu => hu) (fun q hl hq _ => .inr ⟨hl, ?_⟩) (by simp) (by simp)
    rw [ht] at hq
    rcases hq with ⟨-, hle⟩ | hq
    · have := q.isLt
      omega
    · exact hq
  | @dma n =>
    exact ⟨fun u lk' next hu => ⟨(h.sleeps u lk' next hu).1, hM.dma n hI (h.sleeps u lk' next hu).2⟩,
      fun q lk' next hq => (h.waits q lk' next hq).imp (hM.dma n hI) id⟩

theorem of_reaches (hM : Monitor K L allow I lk ch W owes) (hK : K.Balanced L) {data : D} {start : ι}
    (hs : L start = []) (hI : ∀ a, a.Reaches K allow data start → I a) (h : a.Reaches K allow data start) :
    a.Attends lk ch W owes := by
  induction h with
  | refl =>
    refine ⟨fun t lk' next ht => ?_, fun q lk' next hq => ?_⟩
    · simp only [Client.boot] at ht
      split_ifs at ht
      simp at ht
    · simp only [Client.boot] at hq
      split_ifs at hq
      simp at hq
  | tail hr hst ih => exact ih.step hM hK (hI _ hr) (.of_reaches hK hs hr) hst

end Client.Attends

theorem Sound.waiting {s : State ι D κ Λ C} (h : Sound K s) (hst : (s.proc q).state = .sleeping)
    (hch : (s.proc q).chan = some (.other ch)) : ∃ lk' next, (s.proc q).point = some (.wait ch lk' next) := by
  obtain ⟨lk', next, hpc | hpc⟩ := h.doze q ch hst hch <;>
  exact ⟨lk', next, by simp [Proc.point, hst, hch, hpc, Pc.point]⟩

theorem Monitor.sleeping [DecidableEq Λ] [DecidableEq C] [Fintype Λ] [DecidableEq κ]
    (hM : Monitor K L allow I lk ch W owes) (hK : K.Balanced L) {data : D} {start : ι} (hs : L start = [])
    (hI : ∀ a, a.Reaches K allow data start → I a) {s : State ι D κ Λ C}
    (h : Run (step K) (Heeds allow) (boot data start) s) (hfree : s.lock lk = none)
    (hst : (s.proc q).state = .sleeping) (hch : (s.proc q).chan = some (.other ch)) : W s.data := by
  obtain ⟨-, hso, a, hreach, hsim⟩ := refines hK hs h
  obtain ⟨lk', next, hw⟩ := hso.waiting hst hch
  rw [← hsim.data]
  exact (Client.Attends.of_reaches hM hK hs hI hreach).of_free (hsim.free lk hfree) ((hsim.proc q).trans hw)

end Xv6.Sched
