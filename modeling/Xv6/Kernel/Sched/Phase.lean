import Xv6.Kernel.Sched.Calls
import Mathlib.Tactic

/-! Where in its calls a thread is, as far as it matters: a phase, which only stretches of code
change. -/
namespace Xv6.Sched
open Lib Function

variable {ι D κ Λ C φ : Type} {K : Kernel ι D κ Λ} {allow : ι → D → Bool → ℕ → Prop} {ph : ι → φ} {idle : φ}
  {a a' : Client ι D κ Λ C}

/-- The phase of a thread that is somewhere. -/
def Point.phase (ph : ι → φ) (idle : φ) : Option (Point ι κ Λ) → φ
  | some (.code l) | some (.sleep _ _ l) | some (.wait _ _ l) | some (.wake _ l) | some (.wakeup _ _ l) => ph l
  | _ => idle

/-- An instruction that is not a stretch of code keeps the phase, and calls of `proc.c` are made
while the thread is idle. -/
def Instr.Steady (ph : ι → φ) (idle : φ) (l : ι) : Instr ι D κ Λ → Prop
  | .acquire _ next | .release _ next | .wakeup _ next | .sleep _ _ next => ph next = ph l
  | .run _ => True
  | .kill _ next => ph l = idle ∧ ∀ r, ph (next r) = idle
  | .fork child next => ph l = idle ∧ (∀ r, ph (next r) = idle) ∧ ph child = idle
  | .wait _ next => ph l = idle ∧ ∀ r, ph (next r) = idle
  | .exit _ | .iret => ph l = idle

structure Kernel.Phased (K : Kernel ι D κ Λ) (ph : ι → φ) (idle : φ) : Prop where
  code : ∀ l, (K.code l).Steady ph idle l
  handler : ∀ l, K.handler l = true → ph l = idle

/-- The functions of `proc.c` return where the thread is idle. -/
def Client.Returns (ph : ι → φ) (idle : φ) (a : Client ι D κ Λ C) : Prop :=
  ∀ t ret l, a.task t = some (.call ret) → ret l → ph l = idle

def Client.phase (ph : ι → φ) (idle : φ) (a : Client ι D κ Λ C) (t : Slot ⊕ C) : φ := Point.phase ph idle (a.task t)

def State.phase (ph : ι → φ) (idle : φ) (s : State ι D κ Λ C) (p : Slot) : φ := Point.phase ph idle (s.proc p).point

theorem Sim.phase {s : State ι D κ Λ C} (h : Sim s a) (p : Slot) : a.phase ph idle (.inl p) = s.phase ph idle p := by
  unfold Client.phase State.phase
  rw [h.proc]

/-- The phases of all threads. -/
def State.phases (ph : ι → φ) (idle : φ) (s : State ι D κ Λ C) : Slot ⊕ C → φ
  | .inl p => s.phase ph idle p
  | .inr c => Point.phase ph idle ((s.cpu c).handler.bind (Pc.point .running none))

theorem Sim.phases {s : State ι D κ Λ C} (h : Sim s a) : a.phase ph idle = s.phases ph idle := by
  funext t
  cases t with
  | inl p => exact h.phase p
  | inr c =>
    unfold Client.phase
    rw [h.handler]
    rfl

variable [DecidableEq C]

theorem Client.phase_set (t u : Slot ⊕ C) (pt : Option (Point ι κ Λ)) :
    (a.set t pt).phase ph idle u = if u = t then Point.phase ph idle pt else a.phase ph idle u := by
  unfold Client.phase
  rw [Client.set_task]
  split_ifs <;> rfl

/-- What a step does to the phases and the data. -/
inductive PhaseStep (K : Kernel ι D κ Λ) (allow : ι → D → Bool → ℕ → Prop) (ph : ι → φ) (π : Slot ⊕ C → φ) (d : D) :
    (Slot ⊕ C → φ) → D → Prop
  | quiet : PhaseStep K allow ph π d π d
  | run {t l f b n} : K.code l = .run f → allow l d b n → π t = ph l →
    PhaseStep K allow ph π d (update π t (ph (f d b n).2)) (f d b n).1
  | dma {n} : PhaseStep K allow ph π d π (K.dma d n)

variable [DecidableEq Λ]

/-- What a step is: no stretch of code, one that a thread runs, or one of a device. -/
theorem ClientStep.phase_cases (hK : K.Phased ph idle) (hr : a.Returns ph idle) (hs : ClientStep K allow a a') :
    a'.Returns ph idle ∧ ((a'.phase ph idle = a.phase ph idle ∧ a'.data = a.data) ∨
      (∃ t l f b n, a.task t = some (.code l) ∧ K.code l = .run f ∧ allow l a.data b n ∧
        a'.phase ph idle = update (a.phase ph idle) t (ph (f a.data b n).2) ∧ a'.data = (f a.data b n).1) ∨
      (∃ n, a'.phase ph idle = a.phase ph idle ∧ a'.data = K.dma a.data n)) := by
  have hcode : ∀ {l i}, K.code l = i → i.Steady ph idle l := fun hc => hc ▸ hK.code _
  -- a thread moves on in the same phase
  have hmove : ∀ {t pt} {b : Client ι D κ Λ C} {P : Prop}, b.task = (a.set t pt).task → b.data = a.data →
      Point.phase ph idle pt = Point.phase ph idle (a.task t) → (∀ ret l, pt = some (.call ret) → ret l → ph l = idle) →
      b.Returns ph idle ∧ ((b.phase ph idle = a.phase ph idle ∧ b.data = a.data) ∨ P) := by
    intro t pt b P htask hdata hph hret
    refine ⟨fun u ret l hu => ?_, .inl ⟨funext fun u => ?_, hdata⟩⟩
    · rw [htask, Client.set_task] at hu
      split_ifs at hu
      · exact hret ret l hu
      · exact hr u ret l hu
    · have : b.phase ph idle u = (a.set t pt).phase ph idle u := by unfold Client.phase; rw [htask]
      rw [this, Client.phase_set]
      split_ifs with hu
      · rw [hph, hu]
        rfl
      · rfl
  cases hs with
  | acquire ht hc | release ht hc => exact hmove rfl rfl (by rw [ht]; exact hcode hc) (by simp)
  | @run t l f b n ht hc hal =>
    refine ⟨fun u ret l' hu => ?_, .inr (.inl ⟨t, l, f, b, n, ht, hc, hal, funext fun u => ?_, rfl⟩)⟩
    · dsimp only at hu
      rw [Client.set_task] at hu
      split_ifs at hu
      · simp at hu
      · exact hr u ret l' hu
    · rw [update_apply]
      exact Client.phase_set t u _
  | @enter t l pt ht hp =>
    cases hc : K.code l <;> rw [hc] at hp <;> cases hp
    case sleep.refl => exact hmove rfl rfl (by rw [ht]; exact hcode hc) (by simp)
    case wakeup.refl => exact hmove rfl rfl (by rw [ht]; exact hcode hc) (by simp)
    case kill.refl =>
      refine hmove rfl rfl (by rw [ht]; exact (hcode hc).1.symm) ?_
      rintro ret l' he hret
      obtain rfl := Point.call.inj (Option.some.inj he)
      obtain ⟨r, rfl⟩ := hret
      exact (hcode hc).2 r
    case fork.refl =>
      refine hmove rfl rfl (by rw [ht]; exact (hcode hc).1.symm) ?_
      rintro ret l' he hret
      obtain rfl := Point.call.inj (Option.some.inj he)
      obtain ⟨r, rfl⟩ := hret
      exact (hcode hc).2.1 r
    case wait.refl =>
      refine hmove rfl rfl (by rw [ht]; exact (hcode hc).1.symm) ?_
      rintro ret l' he hret
      obtain rfl := Point.call.inj (Option.some.inj he)
      obtain ⟨r, rfl⟩ := hret
      exact (hcode hc).2 r
  | exit ht hc | iret ht hc => exact hmove rfl rfl (by rw [ht]; exact (hcode hc).symm) (by simp)
  | sleep ht | woken ht | wake ht | scan ht | scanned ht => exact hmove rfl rfl (by rw [ht]; rfl) (by simp)
  | @ret t ret l ht hret => exact hmove rfl rfl (by rw [ht]; exact hr t ret l ht hret) (by simp)
  | spawn ht hf =>
    obtain ⟨l, next, hc⟩ := hf
    exact hmove rfl rfl (by rw [ht]; exact (hcode hc).2.2) (by simp)
  | handler ht hl => exact hmove rfl rfl (by rw [ht]; exact hK.handler _ hl) (by simp)
  | @dma n => exact ⟨hr, .inr (.inr ⟨n, rfl, rfl⟩)⟩

omit [DecidableEq C] [DecidableEq Λ] in
theorem Client.phase_of_code {t : Slot ⊕ C} {l : ι} (h : a.task t = some (.code l)) : a.phase ph idle t = ph l := by
  unfold Client.phase
  rw [h]
  rfl

theorem ClientStep.phase (hK : K.Phased ph idle) (hr : a.Returns ph idle) (hs : ClientStep K allow a a') :
    PhaseStep K allow ph (a.phase ph idle) a.data (a'.phase ph idle) a'.data ∧ a'.Returns ph idle := by
  obtain ⟨hr', ⟨hph, hd⟩ | ⟨t, l, f, b, n, ht, hc, hal, hph, hd⟩ | ⟨n, hph, hd⟩⟩ := hs.phase_cases hK hr
  · exact ⟨by rw [hph, hd]; exact .quiet, hr'⟩
  · exact ⟨by rw [hph, hd]; exact .run hc hal (Client.phase_of_code ht), hr'⟩
  · exact ⟨by rw [hph, hd]; exact .dma, hr'⟩

omit [DecidableEq Λ] in
theorem Client.phase_boot {data : D} {start : ι} (hs : ph start = idle) :
    (Client.boot data start : Client ι D κ Λ C).phase ph idle = fun _ => idle := by
  funext t
  simp only [Client.phase, Client.boot]
  split_ifs
  · exact hs
  · rfl

omit [DecidableEq Λ] in
theorem Client.returns_boot {data : D} {start : ι} : (Client.boot data start : Client ι D κ Λ C).Returns ph idle := by
  intro t ret l ht
  simp only [Client.boot] at ht
  split_ifs at ht
  simp at ht

theorem Client.Reaches.phase_induct {data : D} {start : ι} {J : (Slot ⊕ C → φ) → D → Prop}
    (h : a.Reaches K allow data start) (hK : K.Phased ph idle) (hs : ph start = idle) (h0 : J (fun _ => idle) data)
    (hstep : ∀ π d π' d', J π d → PhaseStep K allow ph π d π' d' → J π' d') : J (a.phase ph idle) a.data := by
  have : J (a.phase ph idle) a.data ∧ a.Returns ph idle := by
    induction h with
    | refl => exact ⟨by rwa [Client.phase_boot hs], Client.returns_boot⟩
    | tail _ hst ih =>
      obtain ⟨hj, hr⟩ := ih
      obtain ⟨hp, hr'⟩ := hst.phase hK hr
      exact ⟨hstep _ _ _ _ hj hp, hr'⟩
  exact this.1

section Locked
variable {L : ι → List Λ} {busy : φ → Λ → Prop}

/-- In a phase that is `busy` with a lock a thread has it, also where it goes to sleep. -/
structure Kernel.Guarded (K : Kernel ι D κ Λ) (L : ι → List Λ) (ph : ι → φ) (idle : φ) (busy : φ → Λ → Prop) : Prop where
  idle : ∀ lk, ¬ busy idle lk
  code : ∀ l lk, busy (ph l) lk → lk ∈ L l
  sleep : ∀ {l chan lk next}, K.code l = .sleep chan lk next → ¬ busy (ph next) lk

omit [DecidableEq C] [DecidableEq Λ] in
theorem Client.Owns.locks_of_busy (hK : K.Balanced L) (hG : K.Guarded L ph idle busy) (ho : a.Owns K L) {lk : Λ}
    {u : Slot ⊕ C} (hb : busy (a.phase ph idle u) lk) : lk ∈ Point.locks L (a.task u) := by
  have hfit := ho.fits u
  revert hb hfit
  unfold Client.phase
  -- a thread in `sleep` has given up the lock that it is not busy with
  have hslept : ∀ {l l' chan lk'}, K.code l' = .sleep chan lk' l → busy (ph l) lk → lk ∈ (L l).tail := by
    intro l l' chan lk' hc hb
    have hmem := hG.code l lk hb
    rw [hK.sleep_locks hc, List.mem_cons] at hmem
    rcases hmem with rfl | hmem
    · exact absurd hb (hG.sleep hc)
    · exact hmem
  match a.task u with
  | some (.code l) | some (.sleep _ _ l) | some (.wakeup _ _ l) => exact fun hb _ => hG.code l lk hb
  | some (.wait chan lk' l) => exact fun hb ⟨l', hc⟩ => hslept hc hb
  | some (.wake lk' l) => exact fun hb ⟨l', chan, hc⟩ => hslept hc hb
  | some (.call _) | none => exact fun hb => absurd hb (hG.idle lk)

/-- What a step does to the phases and the data, where a thread that runs has locks. -/
inductive LockedStep (K : Kernel ι D κ Λ) (allow : ι → D → Bool → ℕ → Prop) (L : ι → List Λ) (ph : ι → φ)
    (busy : φ → Λ → Prop) (π : Slot ⊕ C → φ) (d : D) : (Slot ⊕ C → φ) → D → Prop
  | quiet : LockedStep K allow L ph busy π d π d
  | run {t l f b n} : K.code l = .run f → allow l d b n → π t = ph l →
    (∀ lk ∈ L l, ∀ u ≠ t, ¬ busy (π u) lk) →
    LockedStep K allow L ph busy π d (update π t (ph (f d b n).2)) (f d b n).1
  | dma {n} : LockedStep K allow L ph busy π d π (K.dma d n)

theorem Client.Reaches.locked_induct {data : D} {start : ι} {J : (Slot ⊕ C → φ) → D → Prop}
    (h : a.Reaches K allow data start) (hK : K.Phased ph idle) (hB : K.Balanced L) (hG : K.Guarded L ph idle busy)
    (hs : ph start = idle) (hl : L start = []) (h0 : J (fun _ => idle) data)
    (hstep : ∀ π d π' d', J π d → LockedStep K allow L ph busy π d π' d' → J π' d') : J (a.phase ph idle) a.data := by
  have : J (a.phase ph idle) a.data ∧ a.Returns ph idle := by
    induction h with
    | refl => exact ⟨by rwa [Client.phase_boot hs], Client.returns_boot⟩
    | @tail a a' hreach hst ih =>
      obtain ⟨hj, hr⟩ := ih
      obtain ⟨hr', ⟨hph, hd⟩ | ⟨t, l, f, b, n, ht, hc, hal, hph, hd⟩ | ⟨n, hph, hd⟩⟩ := hst.phase_cases hK hr
      · exact ⟨by rwa [hph, hd], hr'⟩
      · refine ⟨hph ▸ hd ▸ hstep _ _ _ _ hj (.run hc hal (Client.phase_of_code ht) fun lk hlk u hu => ?_), hr'⟩
        have ho := Client.Owns.of_reaches hB hl hreach
        exact fun hb => hu (ho.unique (ho.locks_of_busy hB hG hb) (by rw [ht]; exact hlk))
      · exact ⟨hph ▸ hd ▸ hstep _ _ _ _ hj .dma, hr'⟩
  exact this.1

end Locked

section Calls
variable {S : Calls ι D κ Λ}

/-- In user mode a process is idle. -/
def Label.phase (ph : ι → φ) (idle : φ) : Label ι → φ
  | .sys l => ph l
  | _ => idle

omit [DecidableEq C] [DecidableEq Λ] in
theorem Calls.phased (hcode : ∀ l, (S.code l).Steady (Label.phase ph idle) idle (.sys l))
    (hh : ∀ l, S.handler l = true → ph l = idle) : S.kernel.Phased (Label.phase ph idle) idle := by
  refine ⟨fun l => ?_, fun l hl => ?_⟩
  · cases l with
    | user => trivial
    | fork => exact ⟨rfl, fun _ => rfl, rfl⟩
    | wait | kill pid => exact ⟨rfl, fun _ => rfl⟩
    | exit status => rfl
    | sys l => exact hcode l
  · cases l with
    | sys l => exact hh l hl
    | _ => rfl

omit [DecidableEq C] [DecidableEq Λ] in
theorem Calls.phase_next (hcall : ∀ n, ph (S.call n) = idle) (b : Bool) (n : ℕ) :
    Label.phase ph idle (if b then .exit (-1) else S.next n) = idle := by
  split_ifs
  · rfl
  · rcases S.next_cases n with hn | ⟨m, hm⟩
    · cases hl : S.next n with
      | sys l => exact absurd hl (hn l)
      | _ => rfl
    · rw [hm]
      exact hcall m

omit [DecidableEq Λ] in
theorem Calls.phaseStep_cases {allow : Label ι → D → Bool → ℕ → Prop} {π π' : Slot ⊕ C → φ} {d d' : D}
    (hcall : ∀ n, ph (S.call n) = idle) (h : PhaseStep S.kernel allow (Label.phase ph idle) π d π' d') :
    (π' = π ∧ d' = d) ∨ (∃ t l f b n, S.code l = .run f ∧ allow (.sys l) d b n ∧ π t = ph l ∧
      π' = update π t (Label.phase ph idle (f d b n).2) ∧ d' = (f d b n).1) ∨
    (∃ n, π' = π ∧ d' = S.dma d n) := by
  cases h with
  | quiet => exact .inl ⟨rfl, rfl⟩
  | @run t l f b n hc hal ht =>
    cases l with
    | sys l => exact .inr (.inl ⟨t, l, f, b, n, hc, hal, ht, rfl, rfl⟩)
    | user =>
      obtain rfl := Instr.run.inj hc
      refine .inl ⟨?_, rfl⟩
      rw [Calls.phase_next hcall, ← show π t = idle from ht, update_eq_self]
    | _ => cases hc
  | @dma n => exact .inr (.inr ⟨n, rfl, rfl⟩)

omit [DecidableEq C] [DecidableEq Λ] in
theorem Calls.guarded {L : ι → List Λ} {busy : φ → Λ → Prop} (hidle : ∀ lk, ¬ busy idle lk)
    (hcode : ∀ l lk, busy (ph l) lk → lk ∈ L l)
    (hsleep : ∀ l chan lk next, S.code l = .sleep chan lk next → ¬ busy (Label.phase ph idle next) lk) :
    S.kernel.Guarded (Label.locks L) (Label.phase ph idle) idle busy := by
  refine ⟨hidle, fun l lk hb => ?_, fun {l chan lk next} hc => ?_⟩
  · cases l with
    | sys l => exact hcode l lk hb
    | _ => exact absurd hb (hidle lk)
  · cases l with
    | sys l => exact hsleep l chan lk next hc
    | _ => cases hc

omit [DecidableEq Λ] in
theorem Calls.lockedStep_cases {allow : Label ι → D → Bool → ℕ → Prop} {π π' : Slot ⊕ C → φ} {d d' : D} {L : ι → List Λ}
    {busy : φ → Λ → Prop} (hcall : ∀ n, ph (S.call n) = idle)
    (h : LockedStep S.kernel allow (Label.locks L) (Label.phase ph idle) busy π d π' d') :
    (π' = π ∧ d' = d) ∨ (∃ t l f b n, S.code l = .run f ∧ allow (.sys l) d b n ∧ π t = ph l ∧
      (∀ lk ∈ L l, ∀ u ≠ t, ¬ busy (π u) lk) ∧
      π' = update π t (Label.phase ph idle (f d b n).2) ∧ d' = (f d b n).1) ∨
    (∃ n, π' = π ∧ d' = S.dma d n) := by
  cases h with
  | quiet => exact .inl ⟨rfl, rfl⟩
  | @run t l f b n hc hal ht hex =>
    cases l with
    | sys l => exact .inr (.inl ⟨t, l, f, b, n, hc, hal, ht, hex, rfl, rfl⟩)
    | user =>
      obtain rfl := Instr.run.inj hc
      refine .inl ⟨?_, rfl⟩
      rw [Calls.phase_next hcall, ← show π t = idle from ht, update_eq_self]
    | _ => cases hc
  | @dma n => exact .inr (.inr ⟨n, rfl, rfl⟩)

end Calls
end Xv6.Sched
