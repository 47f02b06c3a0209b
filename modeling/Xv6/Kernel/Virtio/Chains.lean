import Xv6.Kernel.Sched.Phase
import Xv6.Kernel.Virtio.Machine
import Xv6.Lib.Owned
import Mathlib.Tactic

/-! Who has which descriptors, and how they are chained. -/
namespace Xv6.Virtio
open Lib Sched Function

/-- Where in a call of `virtio_disk_rw` a process is, or that a CPU is in the loop of
`virtio_disk_intr`, with what it has. -/
inductive Phase
  | idle
  | hold (b : ℕ)
  | undo (b : ℕ) (idx : List (Fin num))
  | format (b : ℕ) (idx : Idx)
  | avail (b : ℕ) (idx : Idx)
  | notify (b : ℕ) (idx : Idx)
  | wait (b : ℕ) (idx : Idx) (r : ℕ)
  | free (b : ℕ) (i : ℕ) (rest : List (Fin num)) (r : ℕ)
  | freed (b : ℕ) (i : Fin num) (rest : List (Fin num)) (r : ℕ)
  | done (b : ℕ) (r : ℕ)
  | mid
  | panic

def phase : Place → Phase
  | .rw b _ | .alloc b _ | .allocSleep b _ => .hold b
  | .undo b _ idx | .undoWake b _ idx => .undo b idx
  | .format b _ idx => .format b idx
  | .avail b idx => .avail b idx
  | .notify b idx => .notify b idx
  | .wait b idx r | .waitSleep b idx r => .wait b idx r
  | .free b i rest r => .free b i rest r
  | .freeWake b i rest r | .freeNext b i rest r => .freed b i rest r
  | .done b r | .unlock b r => .done b r
  | .intrWake _ | .intrNext => .mid
  | .panic _ => .panic
  | .lock .. | .intr | .intrWhile | .intrDone | .iret => .idle

theorem phased : calls.kernel.Phased (Label.phase phase .idle) .idle := by
  refine Calls.phased (fun l => ?_) fun l hl => ?_
  · cases l with
    | undo b write idx => cases idx <;> trivial
    | _ => first | rfl | trivial
  · cases l <;> first | rfl | cases hl

namespace Phase

/-- The descriptors that a thread has. -/
def owned : Phase → List (Fin num)
  | .undo _ idx => idx
  | .format _ idx | .avail _ idx | .notify _ idx | .wait _ idx _ => idx.toList
  | .free _ _ rest _ | .freed _ _ rest _ => rest
  | _ => []

/-- The buffer that it has locked. -/
def buf : Phase → Option ℕ
  | .hold b | .undo b _ | .format b _ | .avail b _ | .notify b _ | .wait b _ _ | .free b .. | .freed b .. | .done b _ => some b
  | _ => none

/-- The phases in `disk.vdisk_lock`. -/
def Busy : Phase → Unit → Prop
  | .undo .., _ | .format .., _ | .avail .., _ | .notify .., _ | .free .., _ | .freed .., _ | .mid, _ | .panic, _ => True
  | _, _ => False

end Phase

theorem guarded : calls.kernel.Guarded (Label.locks locks) (Label.phase phase .idle) .idle Phase.Busy := by
  refine Calls.guarded (fun _ => id) (fun l lk hb => ?_) fun l chan lk next hc => ?_
  · cases l <;> first | exact List.mem_singleton_self () | exact hb.elim
  · cases l with
    | undo b write idx => cases idx <;> cases hc
    | allocSleep b write | waitSleep b idx r =>
      cases hc
      exact id
    | _ => cases hc

/-- The descriptors of a chain, or the end of one. -/
def Linked (desc : Fin num → Desc) : List (Fin num) → Prop
  | [] => True
  | [i] => (desc i).flags &&& descFNext = 0
  | i :: j :: rest => (desc i).flags &&& descFNext ≠ 0 ∧ (desc i).next = enc 16 j ∧ Linked desc (j :: rest)

theorem Linked.congr {desc desc' : Fin num → Desc} {l : List (Fin num)} (h : Linked desc l)
    (he : ∀ i ∈ l, (desc' i).flags = (desc i).flags ∧ (desc' i).next = (desc i).next) : Linked desc' l := by
  induction l with
  | nil => trivial
  | cons i l ih =>
    obtain ⟨hf, hn⟩ := he i (List.mem_cons_self ..)
    cases l with
    | nil => simpa [Linked, hf] using h
    | cons j rest =>
      obtain ⟨h1, h2, h3⟩ := h
      exact ⟨by rwa [hf], by rwa [hn], ih h3 fun k hk => he k (List.mem_cons_of_mem _ hk)⟩

/-- What a thread can rely on. -/
def Phase.Formed (d : Disk) : Phase → Prop
  | .avail b idx => Linked d.desc idx.toList ∧ (d.info idx.i0).b = some b ∧ d.disk b = true
  | .notify b idx => Linked d.desc idx.toList ∧ (d.info idx.i0).b = some b ∧ d.disk b = true ∧
      d.avail (cell num d.availIdx) = enc 16 idx.i0
  | .wait b idx r => Linked d.desc idx.toList ∧ (d.info idx.i0).b = some b ∧ d.request idx.i0 = r ∧ r < d.issued ∧
      (d.disk b = true ↔ r ∉ d.processed)
  | .free _ i rest r => (rest.head?.map fun j => j.val) = some i ∧ Linked d.desc rest ∧ r ∈ d.processed
  | .freed _ i rest r => Linked d.desc (i :: rest) ∧ r ∈ d.processed
  | .done _ r => r ∈ d.processed
  | .panic => False
  | _ => True

/-- The descriptors whose links it follows. -/
def Phase.follows : Phase → List (Fin num)
  | .freed _ i rest _ => i :: rest
  | x => x.owned

theorem Phase.Formed.frame {d d' : Disk} {x : Phase} (h : x.Formed d)
    (hdesc : ∀ i ∈ x.follows, (d'.desc i).flags = (d.desc i).flags ∧ (d'.desc i).next = (d.desc i).next)
    (hinfo : ∀ i ∈ x.owned, (d'.info i).b = (d.info i).b) (hreq : ∀ i ∈ x.owned, d'.request i = d.request i)
    (hdisk : ∀ b, x.buf = some b → d'.disk b = d.disk b) (hproc : d.processed ⊆ d'.processed)
    (hnew : ∀ b idx r, x = .wait b idx r → r ∈ d'.processed → r ∈ d.processed) (hissued : d.issued ≤ d'.issued)
    (hring : ∀ b idx, x = .notify b idx → d'.avail (cell num d'.availIdx) = d.avail (cell num d.availIdx)) :
    x.Formed d' := by
  have hhead : ∀ idx : Idx, idx.i0 ∈ idx.toList := fun idx => List.mem_cons_self ..
  cases x with
  | avail b idx =>
    obtain ⟨hl, hi, hd⟩ := h
    exact ⟨hl.congr hdesc, (hinfo _ (hhead idx)).trans hi, (hdisk b rfl).trans hd⟩
  | notify b idx =>
    obtain ⟨hl, hi, hd, hr⟩ := h
    exact ⟨hl.congr hdesc, (hinfo _ (hhead idx)).trans hi, (hdisk b rfl).trans hd, (hring b idx rfl).trans hr⟩
  | wait b idx r =>
    obtain ⟨hl, hi, hr, hlt, hd⟩ := h
    refine ⟨hl.congr hdesc, (hinfo _ (hhead idx)).trans hi, (hreq _ (hhead idx)).trans hr, by omega, ?_⟩
    rw [hdisk b rfl, hd]
    exact not_congr ⟨fun h => hproc h, hnew b idx r rfl⟩
  | free b i rest r =>
    obtain ⟨hi, hl, hr⟩ := h
    exact ⟨hi, hl.congr hdesc, hproc hr⟩
  | freed b i rest r => exact ⟨h.1.congr hdesc, hproc h.2⟩
  | done b r => exact hproc h
  | panic => exact h
  | idle | hold | undo | format | mid => trivial

theorem Phase.Formed.of_eq {d d' : Disk} {x : Phase} (h : x.Formed d) (hdesc : d'.desc = d.desc) (hinfo : d'.info = d.info)
    (hdisk : d'.disk = d.disk) (hrings : d'.toRings = d.toRings) : x.Formed d' := by
  refine h.frame ?_ ?_ ?_ ?_ ?_ ?_ ?_ ?_ <;> simp [hdesc, hinfo, hdisk, hrings]

namespace Disk

theorem allocDesc_eq_some {d d' : Disk} {i : Fin num} (h : d.allocDesc = some (i, d')) :
    d.free i = true ∧ d' = { d with free := update d.free i false } := by
  obtain ⟨j, hj, he⟩ := Option.map_eq_some_iff.mp h
  obtain ⟨rfl, rfl⟩ := Prod.mk.inj he
  exact ⟨List.find?_some hj, rfl⟩

theorem allocDescs_spec (d : Disk) (n : ℕ) : (d.allocDescs n).1.Nodup ∧ (∀ i ∈ (d.allocDescs n).1, d.free i = true) ∧
    (d.allocDescs n).2 = { d with free := fun i => d.free i && decide (i ∉ (d.allocDescs n).1) } := by
  induction n generalizing d with
  | zero => simp [allocDescs]
  | succ n ih =>
    unfold allocDescs
    cases ha : d.allocDesc with
    | none => simp
    | some r =>
      obtain ⟨i, d'⟩ := r
      obtain ⟨hi, rfl⟩ := allocDesc_eq_some ha
      obtain ⟨hnd, hfree, hd⟩ := ih { d with free := update d.free i false }
      have hne : ∀ j ∈ (allocDescs { d with free := update d.free i false } n).1, j ≠ i ∧ d.free j = true := by
        intro j hj
        have := hfree j hj
        simp only [update_apply] at this
        split_ifs at this with hji
        exact ⟨hji, this⟩
      refine ⟨List.nodup_cons.mpr ⟨fun hm => (hne i hm).1 rfl, hnd⟩, ?_, ?_⟩
      · rintro j (_ | ⟨_, hj⟩)
        · exact hi
        · exact (hne j hj).2
      · dsimp only
        rw [hd]
        simp only [Disk.mk.injEq, true_and, and_true]
        funext j
        rw [update_apply]
        split_ifs with hji
        · simp [hji]
        · simp [hji]

theorem writeStatus_eq (d : Disk) (head : BitVec 16) : ∃ info, d.writeStatus head = { d with info } ∧
    (∀ i, (info i).b = (d.info i).b) ∧ ∀ i, (d.info i).status = 0 → (info i).status = 0 := by
  unfold writeStatus
  split
  · exact ⟨d.info, rfl, fun _ => rfl, fun _ h => h⟩
  · split
    · refine ⟨_, rfl, fun i => ?_, fun i hi => ?_⟩ <;> rw [update_apply] <;> split_ifs with hij
      · rw [hij]
      · rfl
      · rfl
      · exact hi
    · exact ⟨d.info, rfl, fun _ => rfl, fun _ h => h⟩

end Disk

/-- Descriptors and buffers have one owner each. -/
structure Chained {τ : Type} (π : τ → Phase) (d : Disk) : Prop where
  owned : Owned (fun t => (π t).owned) d.free
  bufs : ∀ t u b, (π t).buf = some b → (π u).buf = some b → t = u
  locked : ∀ t b, (π t).buf = some b → d.locked b = true
  formed : ∀ t, (π t).Formed d
  status : ∀ i, (d.info i).status = 0

namespace Chained
variable {τ : Type} [DecidableEq τ] {π : τ → Phase} {d d' : Disk} {t u : τ} {x : Phase} {b : ℕ} {idx : Idx}

theorem owned_update : (fun u => (update π t x u).owned) = update (fun u => (π u).owned) t x.owned := by
  funext u
  simp only [update_apply]
  split_ifs <;> rfl

theorem move (h : Chained π d) (howned : Owned (update (fun u => (π u).owned) t x.owned) d'.free)
    (hbuf : ∀ b, x.buf = some b → (π t).buf = some b) (hlocked : d'.locked = d.locked) (hx : x.Formed d')
    (hother : ∀ u ≠ t, (π u).Formed d') (hstatus : ∀ i, (d'.info i).status = 0) : Chained (update π t x) d' := by
  have hsub : ∀ u b, (update π t x u).buf = some b → (π u).buf = some b := by
    intro u b hu
    rw [update_apply] at hu
    split_ifs at hu with hut
    · subst hut
      exact hbuf b hu
    · exact hu
  refine ⟨by rwa [owned_update], fun u v b hu hv => h.bufs u v b (hsub u b hu) (hsub v b hv), fun u b hu => ?_, fun u => ?_,
    hstatus⟩
  · rw [hlocked]
    exact h.locked u b (hsub u b hu)
  · rw [update_apply]
    split_ifs with hut
    · exact hx
    · exact hother u hut

theorem stay (h : Chained π d) (howned : x.owned = (π t).owned) (hbuf : ∀ b, x.buf = some b → (π t).buf = some b)
    (hfree : d'.free = d.free) (hlocked : d'.locked = d.locked) (hx : x.Formed d') (hother : ∀ u ≠ t, (π u).Formed d')
    (hstatus : ∀ i, (d'.info i).status = 0) : Chained (update π t x) d' := by
  refine h.move ?_ hbuf hlocked hx hother hstatus
  rw [hfree, howned]
  simpa using h.owned

omit [DecidableEq τ] in
theorem not_mem_of_ne (h : Chained π d) (hu : u ≠ t) {i : Fin num} (hi : i ∈ (π t).owned) : i ∉ (π u).owned :=
  fun hm => hu (h.owned.unique u t i hm hi)

theorem follows_of_not_busy (hb : ¬ x.Busy ()) : x.follows = x.owned := by
  cases x <;> first | rfl | exact absurd trivial hb

theorem lock (h : Chained π d) (ht : π t = .idle) (hfree : d.locked b = false) :
    Chained (update π t (.hold b)) { d with locked := update d.locked b true } := by
  have hno : ∀ u b', (π u).buf = some b' → b' ≠ b := by
    rintro u b' hu rfl
    simp [h.locked u b' hu] at hfree
  refine ⟨?_, fun u v b' hu hv => ?_, fun u b' hu => ?_, fun u => ?_, h.status⟩
  · rw [owned_update]
    have : Phase.owned (.hold b) = (π t).owned := by rw [ht]; rfl
    rw [this]
    simpa using h.owned
  · rw [update_apply] at hu hv
    split_ifs at hu hv with h1 h2 h2
    · rw [h1, h2]
    · exact absurd (Option.some.inj hu).symm (hno v b' hv)
    · exact absurd (Option.some.inj hv).symm (hno u b' hu)
    · exact h.bufs u v b' hu hv
  · rw [update_apply] at hu
    split_ifs at hu
    · obtain rfl := Option.some.inj hu
      simp
    · simpa [hno u b' hu] using h.locked u b' hu
  · rw [update_apply]
    split_ifs
    · trivial
    · exact (h.formed u).of_eq rfl rfl rfl rfl

theorem unlock (h : Chained π d) {r : ℕ} (ht : π t = .done b r) :
    Chained (update π t .idle) { d with locked := update d.locked b false } := by
  have hsub : ∀ u b', (update π t .idle u).buf = some b' → (π u).buf = some b' ∧ u ≠ t := by
    intro u b' hu
    rw [update_apply] at hu
    split_ifs at hu with hut
    · cases hu
    · exact ⟨hu, hut⟩
  refine ⟨?_, fun u v b' hu hv => h.bufs u v b' (hsub u b' hu).1 (hsub v b' hv).1, fun u b' hu => ?_, fun u => ?_, h.status⟩
  · rw [owned_update]
    have : Phase.owned .idle = (π t).owned := by rw [ht]; rfl
    rw [this]
    simpa using h.owned
  · obtain ⟨hb, hut⟩ := hsub u b' hu
    have hne : b' ≠ b := by
      rintro rfl
      exact hut (h.bufs u t b' hb (by rw [ht]; rfl))
    simpa [hne] using h.locked u b' hb
  · rw [update_apply]
    split_ifs
    · trivial
    · exact (h.formed u).of_eq rfl rfl rfl rfl

theorem alloc (h : Chained π d) (ht : π t = .hold b) (hbuf : x.buf = some b) (howned : x.owned = (d.allocDescs 3).1)
    (hx : ∀ d, x.Formed d) : Chained (update π t x) (d.allocDescs 3).2 := by
  obtain ⟨hnd, hfree, hd⟩ := d.allocDescs_spec 3
  rw [hd]
  refine h.move ?_ (fun b' hb => ?_) rfl (hx _) (fun u _ => (h.formed u).of_eq rfl rfl rfl rfl) h.status
  · rw [howned]
    exact h.owned.take (by rw [ht]; rfl) hnd hfree
  · rw [ht, ← hb, hbuf]
    rfl

omit [DecidableEq τ] in
theorem freeDesc_ok (h : Chained π d) {i : Fin num} (hi : i ∈ (π t).owned) :
    d.freeDesc i = .ok (i, { d with
      desc := update d.desc i { d.desc i with addr := .null }, free := update d.free i true }) := by
  unfold Disk.freeDesc
  simp [h.owned.not_free hi]

theorem give (h : Chained π d) {i : Fin num} {rest : List (Fin num)} (ht : (π t).owned = i :: rest)
    (howned : x.owned = rest) (hbuf : ∀ b, x.buf = some b → (π t).buf = some b)
    (hx : ∀ desc, (∀ j, (desc j).flags = (d.desc j).flags ∧ (desc j).next = (d.desc j).next) →
      x.Formed { d with desc, free := update d.free i true }) :
    Chained (update π t x) { d with
      desc := update d.desc i { d.desc i with addr := .null }, free := update d.free i true } := by
  have hlinks : ∀ j, (update d.desc i { d.desc i with addr := .null } j).flags = (d.desc j).flags ∧
      (update d.desc i { d.desc i with addr := .null } j).next = (d.desc j).next := by
    intro j
    rw [update_apply]
    split_ifs with hj
    · subst hj
      exact ⟨rfl, rfl⟩
    · exact ⟨rfl, rfl⟩
  refine h.move ?_ hbuf rfl (hx _ hlinks) (fun u _ => ?_) h.status
  · rw [howned]
    exact h.owned.give ht
  · exact (h.formed u).frame (fun j _ => hlinks j) (fun _ _ => rfl) (fun _ _ => rfl) (fun _ _ => rfl) (fun _ h => h)
      (fun _ _ _ _ h => h) le_rfl fun _ _ _ => rfl

theorem linked_format (hnd : idx.toList.Nodup) (write : Bool) : Linked (d.format b write idx).desc idx.toList := by
  obtain ⟨i0, i1, i2⟩ := idx
  simp only [Idx.toList, List.nodup_cons, List.mem_cons, List.not_mem_nil, or_false, not_or, not_false_eq_true,
    List.nodup_nil, and_true] at hnd
  obtain ⟨⟨h01, h02⟩, h12⟩ := hnd
  simp only [Disk.format, Idx.toList, Linked, update_self, update_of_ne h01, update_of_ne h02,
    update_of_ne h12]
  cases write <;> decide

theorem format (h : Chained π d) (ht : π t = .format b idx) (hex : ∀ u ≠ t, ¬ (π u).Busy ()) (write : Bool) :
    Chained (update π t (.avail b idx)) (d.format b write idx) := by
  have hown : (π t).owned = idx.toList := by rw [ht]; rfl
  have hbuf : (π t).buf = some b := by rw [ht]; rfl
  have hnd : idx.toList.Nodup := hown ▸ h.owned.nodup t
  refine h.stay (by rw [ht]; rfl) (fun b' hb => by rw [ht]; exact hb) rfl rfl ?_ (fun u hu => ?_) fun i => ?_
  · refine ⟨linked_format hnd write, ?_, ?_⟩ <;> simp [Disk.format]
  · have hne : ∀ j ∈ (π u).owned, ∀ i ∈ idx.toList, j ≠ i := fun j hj i hi he =>
      h.not_mem_of_ne hu (hown ▸ hi) (he ▸ hj)
    refine (h.formed u).frame (fun j hj => ?_) (fun j hj => ?_) (fun _ _ => rfl) (fun b' hb => ?_) (fun _ h => h)
      (fun _ _ _ _ h => h) le_rfl fun _ _ _ => rfl
    · rw [follows_of_not_busy (hex u hu)] at hj
      simp only [Disk.format]
      rw [update_of_ne (hne j hj _ (by simp [Idx.toList])), update_of_ne (hne j hj _ (by simp [Idx.toList])),
        update_of_ne (hne j hj _ (by simp [Idx.toList]))]
      exact ⟨rfl, rfl⟩
    · simp only [Disk.format]
      rw [update_of_ne (hne j hj _ (by simp [Idx.toList]))]
    · have hb' : b' ≠ b := by
        rintro rfl
        exact hu (h.bufs u t b' hb hbuf)
      simp [Disk.format, hb']
  · simp only [Disk.format, update_apply]
    split_ifs
    · rfl
    · exact h.status i

theorem avail (h : Chained π d) (ht : π t = .avail b idx) (hex : ∀ u ≠ t, ¬ (π u).Busy ()) :
    Chained (update π t (.notify b idx))
      { d with avail := update d.avail (cell num d.availIdx) (enc 16 idx.i0) } := by
  have hf := h.formed t
  rw [ht] at hf
  obtain ⟨hl, hi, hd⟩ := hf
  refine h.stay (by rw [ht]; rfl) (fun b' hb => by rw [ht]; exact hb) rfl rfl ⟨hl, hi, hd, by simp⟩ (fun u hu => ?_) h.status
  refine (h.formed u).frame (fun _ _ => ⟨rfl, rfl⟩) (fun _ _ => rfl) (fun _ _ => rfl) (fun _ _ => rfl) (fun _ h => h)
    (fun _ _ _ _ h => h) le_rfl fun b' idx' he => ?_
  have := hex u hu
  rw [he] at this
  exact absurd trivial this

theorem notify (h : Chained π d) (ht : π t = .notify b idx) (hex : ∀ u ≠ t, ¬ (π u).Busy ())
    (hfresh : d.issued ∉ d.processed) :
    Chained (update π t (.wait b idx d.issued)) (d.notify idx.i0) := by
  have hf := h.formed t
  have hown : (π t).owned = idx.toList := by rw [ht]; rfl
  rw [ht] at hf
  obtain ⟨hl, hi, hd, -⟩ := hf
  refine h.stay (by rw [ht]; rfl) (fun b' hb => by rw [ht]; exact hb) rfl rfl ?_ (fun u hu => ?_) h.status
  · exact ⟨hl, hi, by simp [Disk.notify], Nat.lt_succ_self _, fun _ => hfresh, fun _ => hd⟩
  · refine (h.formed u).frame (fun _ _ => ⟨rfl, rfl⟩) (fun _ _ => rfl) (fun j hj => ?_) (fun _ _ => rfl) (fun _ h => h)
      (fun _ _ _ _ h => h) (Nat.le_succ _) fun b' idx' he => ?_
    · have hne : j ≠ idx.i0 := by
        rintro rfl
        exact h.not_mem_of_ne hu (hown ▸ List.mem_cons_self ..) hj
      simp [Disk.notify, hne]
    · have := hex u hu
      rw [he] at this
      exact absurd trivial this

theorem finish (h : Chained π d) {r : ℕ} (ht : π t = .wait b idx r) (hd : d.disk b = false) :
    Chained (update π t (.free b idx.i0 idx.toList r))
      { d with info := update d.info idx.i0 { d.info idx.i0 with b := none } } := by
  have hf := h.formed t
  have hown : (π t).owned = idx.toList := by rw [ht]; rfl
  rw [ht] at hf
  obtain ⟨hl, -, -, -, hiff⟩ := hf
  have hr : r ∈ d.processed := by
    by_contra hr
    simp [hiff.mpr hr] at hd
  refine h.stay (by rw [ht]; rfl) (fun b' hb => by rw [ht]; exact hb) rfl rfl ⟨rfl, hl, hr⟩ (fun u hu => ?_) fun i => ?_
  · refine (h.formed u).frame (fun _ _ => ⟨rfl, rfl⟩) (fun j hj => ?_) (fun _ _ => rfl) (fun _ _ => rfl) (fun _ h => h)
      (fun _ _ _ _ h => h) le_rfl fun _ _ _ => rfl
    have hne : j ≠ idx.i0 := by
      rintro rfl
      exact h.not_mem_of_ne hu (hown ▸ List.mem_cons_self ..) hj
    simp [hne]
  · simp only [update_apply]
    split_ifs with hi
    · exact h.status _
    · exact h.status i

theorem complete (h : Chained π d) {r : ℕ} (hu : π u = .wait b idx r)
    (hapart : ∀ v b' idx', π v = .wait b' idx' r → v = u) :
    Chained π { d with disk := update d.disk b false, processed := d.processed ++ [r] } := by
  have hbuf : (π u).buf = some b := by rw [hu]; rfl
  refine ⟨h.owned, h.bufs, h.locked, fun v => ?_, h.status⟩
  by_cases hv : v = u
  · subst hv
    have hf := h.formed v
    rw [hu] at hf ⊢
    obtain ⟨hl, hi, hq, hlt, -⟩ := hf
    exact ⟨hl, hi, hq, hlt, by simp⟩
  · refine (h.formed v).frame (fun _ _ => ⟨rfl, rfl⟩) (fun _ _ => rfl) (fun _ _ => rfl) (fun b' hb => ?_)
      (fun _ h => List.mem_append_left _ h) (fun b' idx' r' he hmem => ?_) le_rfl fun _ _ _ => rfl
    · have hb' : b' ≠ b := by
        rintro rfl
        exact hv (h.bufs v u b' hb hbuf)
      simp [hb']
    · rcases List.mem_append.mp hmem with hmem | hmem
      · exact hmem
      · obtain rfl := List.mem_singleton.mp hmem
        exact absurd (hapart v b' idx' he) hv

omit [DecidableEq τ] in
theorem rings (h : Chained π d) {q : Rings} {info : Fin num → Info} (hreq : q.request = d.request)
    (hproc : q.processed = d.processed) (hissued : q.issued = d.issued) (havail : q.avail = d.avail)
    (hidx : q.availIdx = d.availIdx) (hinfo : ∀ i, (info i).b = (d.info i).b) (hstatus : ∀ i, (info i).status = 0) :
    Chained π { d with toRings := q, info } := by
  refine ⟨h.owned, h.bufs, h.locked, fun u => ?_, hstatus⟩
  refine (h.formed u).frame (fun _ _ => ⟨rfl, rfl⟩) (fun i _ => hinfo i) ?_ (fun _ _ => rfl) ?_ ?_ ?_ ?_ <;>
  simp [hreq, hproc, hissued, havail, hidx]

omit [DecidableEq τ] in
theorem device (h : Chained π d) (n : ℕ) : Chained π (d.device n) := by
  unfold Disk.device
  split
  · refine h.rings ?_ ?_ ?_ ?_ ?_ (fun _ => rfl) h.status <;> unfold Rings.take <;> split_ifs <;> rfl
  · split
    · obtain ⟨info, hd, hinfo, hstatus⟩ := d.writeStatus_eq (by assumption : BitVec 16)
      rw [hd]
      exact h.rings rfl rfl rfl rfl rfl hinfo fun i => hstatus i (h.status i)
    · exact h
  · refine h.rings ?_ ?_ ?_ ?_ ?_ (fun _ => rfl) h.status <;> unfold Rings.publish <;> split <;> rfl

end Chained
end Xv6.Virtio
