import Xv6.Kernel.Virtio.Chains
import Xv6.Kernel.Virtio.Queue
import Mathlib.Tactic

/-! The driver and the device together. -/
namespace Xv6.Virtio
open Lib Sched Function

variable {τ : Type} {π : τ → Phase} {d : Disk} {q : Rings} {fl fl' : Flight} {t u : τ} {x : Phase} {b : ℕ} {idx : Idx}
  {r : ℕ}

/-- The requests on their way are those that processes wait for. -/
structure Tracks (π : τ → Phase) (q : Rings) (fl : Flight) : Prop where
  flies : ∀ h, h ∈ fl.heads ↔ ∃ t b idx r, π t = .wait b idx r ∧ idx.i0 = h ∧ r ∉ q.processed
  apart : ∀ t u r b idx b' idx', π t = .wait b idx r → π u = .wait b' idx' r → t = u
  mid : ∀ t, π t = .mid → cell num (q.usedIdx + 1) = cell num fl.looked
  still : (∀ t, π t ≠ .mid) → cell num q.usedIdx = cell num fl.looked

/-- A phase that has nothing to do with the rings. -/
def Phase.Plain : Phase → Prop
  | .wait .. | .mid => False
  | _ => True

theorem Phase.Plain.ne_wait (h : x.Plain) (b : ℕ) (idx : Idx) (r : ℕ) : x ≠ .wait b idx r := by
  rintro rfl
  exact h

theorem Phase.Plain.ne_mid (h : x.Plain) : x ≠ .mid := by
  rintro rfl
  exact h

theorem cell_succ {w w' : ℕ} {x : BitVec w} {y : BitVec w'} (hw : num ∣ 2 ^ w) (hw' : num ∣ 2 ^ w') (h : cell num x = cell num y) :
    cell num (x + 1) = cell num (y + 1) := by
  have hx := cell_add hw x 1
  have hy := cell_add hw' y 1
  have hmod : x.toNat % num = y.toNat % num := congrArg Fin.val h
  refine hx.trans (Eq.trans ?_ hy.symm)
  apply Fin.ext
  simp only [Fin.val_ofNat]
  rw [Nat.add_mod, hmod, ← Nat.add_mod]

theorem cell_umod (x : BitVec 16) : cell num (x % 8) = cell num x := by
  apply Fin.ext
  simp only [cell, Fin.val_ofNat, BitVec.toNat_umod]
  exact Nat.mod_mod _ _

namespace Tracks

theorem perm (h : Tracks π q fl) {q' : Rings} (hp : fl'.heads.Perm fl.heads) (hl : fl'.looked = fl.looked)
    (hproc : q'.processed = q.processed) (hidx : q'.usedIdx = q.usedIdx) : Tracks π q' fl' := by
  refine ⟨fun x => ?_, h.apart, ?_, ?_⟩
  · rw [hp.mem_iff, hproc]
    exact h.flies x
  · rw [hl, hidx]
    exact h.mid
  · rw [hl, hidx]
    exact h.still

variable [DecidableEq τ]

theorem move (h : Tracks π q fl) (ht : (π t).Plain) (hx : x.Plain) : Tracks (update π t x) q fl := by
  have hwait : ∀ u b idx r, update π t x u = .wait b idx r ↔ π u = .wait b idx r := by
    intro u b idx r
    rw [update_apply]
    split_ifs with hu
    · subst hu
      exact iff_of_false (hx.ne_wait b idx r) (ht.ne_wait b idx r)
    · rfl
  have hmid : ∀ u, update π t x u = .mid ↔ π u = .mid := by
    intro u
    rw [update_apply]
    split_ifs with hu
    · subst hu
      exact iff_of_false hx.ne_mid ht.ne_mid
    · rfl
  refine ⟨fun y => ?_, fun u v r b idx b' idx' hu hv => ?_, fun u hu => h.mid u ((hmid u).mp hu), fun hno => ?_⟩
  · rw [h.flies]
    simp only [hwait]
  · exact h.apart u v r b idx b' idx' ((hwait u b idx r).mp hu) ((hwait v b' idx' r).mp hv)
  · exact h.still fun u hu => hno u ((hmid u).mpr hu)

end Tracks

/-- What holds all the time. -/
structure Sound (π : τ → Phase) (d : Disk) (fl : Flight) : Prop where
  chained : Chained π d
  queue : Queue d.toRings fl
  tracks : Tracks π d.toRings fl

namespace Sound

theorem short (h : Sound π d fl) : fl.heads.length ≤ 2 := by
  choose f hf using fun x hx => (h.tracks.flies x).mp hx
  have hnd : (fl.heads.attach.map fun x => f x.1 x.2).Nodup := by
    refine List.Nodup.map ?_ (List.nodup_attach.mpr h.queue.nodup)
    rintro ⟨x, hx⟩ ⟨y, hy⟩ he
    obtain ⟨b, idx, r, hw, rfl, -⟩ := hf x hx
    obtain ⟨b', idx', r', hw', rfl, -⟩ := hf y hy
    have heq := hw.symm.trans ((congrArg π he).trans hw')
    simp only [Phase.wait.injEq] at heq
    exact Subtype.ext (congrArg Idx.i0 heq.2.1)
  have hle := h.chained.owned.length_le (k := 3) hnd fun t ht => by
    obtain ⟨⟨x, hx⟩, -, rfl⟩ := List.mem_map.mp ht
    obtain ⟨b, idx, r, hw, -⟩ := hf x hx
    simp only [hw]
    rfl
  rw [List.length_map, List.length_attach, Fintype.card_fin] at hle
  have : num = 8 := rfl
  omega

theorem short' (h : Sound π d fl) : fl.heads.length < num := lt_of_le_of_lt h.short (by decide)

theorem device (h : Sound π d fl) (n : ℕ) : ∃ fl', Sound π (d.device n) fl' := by
  have hc := h.chained.device n
  unfold Disk.device at hc ⊢
  split at hc
  · obtain ⟨fl', hq, hp, hl⟩ := h.queue.take
    refine ⟨fl', hc, hq, h.tracks.perm hp hl ?_ ?_⟩ <;> dsimp only <;> unfold Rings.take <;> split_ifs <;> rfl
  · split at hc
    · rename_i hs hk
      obtain ⟨fl', hq, hp, hl⟩ := h.queue.store h.short' hs hk
      exact ⟨fl', hc, hq, h.tracks.perm hp hl rfl rfl⟩
    · exact ⟨fl, h⟩
  · obtain ⟨fl', hq, hp, hl⟩ := h.queue.publish h.short'
    refine ⟨fl', hc, hq, h.tracks.perm hp hl ?_ ?_⟩ <;> dsimp only <;> unfold Rings.publish <;> split <;> rfl

variable [DecidableEq τ]

theorem notify (h : Sound π d fl) (ht : π t = .notify b idx) (hex : ∀ u ≠ t, ¬ (π u).Busy ()) :
    ∃ fl', Sound (update π t (.wait b idx d.issued)) (d.notify idx.i0) fl' := by
  have hf := h.chained.formed t
  have hown : (π t).owned = idx.toList := by rw [ht]; rfl
  rw [ht] at hf
  have hi : idx.i0 ∉ fl.heads := by
    intro hm
    obtain ⟨u, b', idx', r', hu, he, -⟩ := (h.tracks.flies _).mp hm
    have hut : u ≠ t := by
      rintro rfl
      rw [ht] at hu
      cases hu
    refine h.chained.not_mem_of_ne hut (i := idx.i0) ?_ ?_
    · rw [hown]
      exact List.mem_cons_self ..
    · rw [hu, ← he]
      exact List.mem_cons_self ..
  have hnew := h.queue.issued_not_mem
  have hlow : ∀ u b' idx' r', π u = .wait b' idx' r' → r' < d.issued := by
    intro u b' idx' r' hu
    have := h.chained.formed u
    rw [hu] at this
    exact this.2.2.2.1
  refine ⟨{ fl with waiting := fl.waiting ++ [idx.i0] }, h.chained.notify ht hex hnew, h.queue.notify h.short' hi hf.2.2.2, ?_⟩
  have hother : ∀ u y, u ≠ t → (update π t (.wait b idx d.issued) u = y ↔ π u = y) := fun u y hu => by
    rw [update_of_ne hu]
  refine ⟨fun x => ?_, fun u v r' b1 i1 b2 i2 hu hv => ?_, fun u hu => ?_, fun hno => ?_⟩
  · have hmem : x ∈ ({ fl with waiting := fl.waiting ++ [idx.i0] } : Flight).heads ↔ x = idx.i0 ∨ x ∈ fl.heads := by
      simp only [Flight.heads, Flight.open, List.mem_append, List.mem_singleton]
      tauto
    rw [hmem, h.tracks.flies]
    constructor
    · rintro (rfl | ⟨u, b', idx', r', hu, he, hr⟩)
      · exact ⟨t, b, idx, d.issued, by simp, rfl, hnew⟩
      · refine ⟨u, b', idx', r', (hother u _ ?_).mpr hu, he, hr⟩
        rintro rfl
        rw [ht] at hu
        cases hu
    · rintro ⟨u, b', idx', r', hu, he, hr⟩
      by_cases hut : u = t
      · subst hut
        rw [update_self] at hu
        cases hu
        exact .inl he.symm
      · exact .inr ⟨u, b', idx', r', (hother u _ hut).mp hu, he, hr⟩
  · by_cases hut : u = t <;> by_cases hvt : v = t
    · rw [hut, hvt]
    · rw [hut, update_self] at hu
      cases hu
      exact absurd (hlow v _ _ _ ((hother v _ hvt).mp hv)) (lt_irrefl _)
    · rw [hvt, update_self] at hv
      cases hv
      exact absurd (hlow u _ _ _ ((hother u _ hut).mp hu)) (lt_irrefl _)
    · exact h.tracks.apart u v r' b1 i1 b2 i2 ((hother u _ hut).mp hu) ((hother v _ hvt).mp hv)
  · have hut : u ≠ t := by
      rintro rfl
      simp at hu
    exact h.tracks.mid u ((hother u _ hut).mp hu)
  · refine h.tracks.still fun u hu => ?_
    by_cases hut : u = t
    · rw [hut, ht] at hu
      cases hu
    · exact hno u ((hother u _ hut).mpr hu)

theorem finish (h : Sound π d fl) (ht : π t = .wait b idx r) (hd : d.disk b = false) :
    Sound (update π t (.free b idx.i0 idx.toList r))
      { d with info := update d.info idx.i0 { d.info idx.i0 with b := none } } fl := by
  have hf := h.chained.formed t
  rw [ht] at hf
  have hr : r ∈ d.processed := by
    by_contra hr
    simp [hf.2.2.2.2.mpr hr] at hd
  have hother : ∀ u y, u ≠ t → (update π t (.free b idx.i0 idx.toList r) u = y ↔ π u = y) := fun u y hu => by
    rw [update_of_ne hu]
  have hne : ∀ {u b' idx' r'}, update π t (.free b idx.i0 idx.toList r) u = .wait b' idx' r' → u ≠ t := by
    rintro u b' idx' r' hu rfl
    simp at hu
  refine ⟨h.chained.finish ht hd, h.queue, fun x => ?_, fun u v r' b1 i1 b2 i2 hu hv => ?_, fun u hu => ?_, fun hno => ?_⟩
  · rw [h.tracks.flies]
    constructor
    · rintro ⟨u, b', idx', r', hu, he, hr'⟩
      refine ⟨u, b', idx', r', (hother u _ ?_).mpr hu, he, hr'⟩
      rintro rfl
      rw [ht] at hu
      cases hu
      exact hr' hr
    · rintro ⟨u, b', idx', r', hu, he, hr'⟩
      exact ⟨u, b', idx', r', (hother u _ (hne hu)).mp hu, he, hr'⟩
  · exact h.tracks.apart u v r' b1 i1 b2 i2 ((hother u _ (hne hu)).mp hu) ((hother v _ (hne hv)).mp hv)
  · have hut : u ≠ t := by
      rintro rfl
      simp at hu
    exact h.tracks.mid u ((hother u _ hut).mp hu)
  · refine h.tracks.still fun u hu => ?_
    by_cases hut : u = t
    · rw [hut, ht] at hu
      cases hu
    · exact hno u ((hother u _ hut).mpr hu)

omit [DecidableEq τ] in
theorem complete_eq (h : Sound π d fl) (hstill : ∀ u, π u ≠ .mid) (hne : cell num d.usedIdx ≠ cell num d.usedId) :
    ∃ u b idx r rest, π u = .wait b idx r ∧ fl.fresh = idx.i0 :: rest ∧ d.request idx.i0 = r ∧
      d.complete = .ok (b, { d with disk := update d.disk b false, processed := d.processed ++ [r] }) := by
  have hlook := h.tracks.still hstill
  rw [hlook, ne_eq, h.queue.cell_eq_iff h.short'] at hne
  obtain ⟨x, rest, hf⟩ := List.exists_cons_of_ne_nil hne
  obtain ⟨u, b, idx, r, hu, rfl, hr⟩ := (h.tracks.flies x).mp (by simp [Flight.heads, hf])
  have hform := h.chained.formed u
  rw [hu] at hform
  obtain ⟨-, hinfo, hreq, -⟩ := hform
  have hcell : (⟨d.usedIdx.toNat, h.queue.small⟩ : Fin num) = cell num fl.looked := by
    rw [← hlook]
    exact Fin.ext (Nat.mod_eq_of_lt h.queue.small).symm
  have hid : d.elems ⟨d.usedIdx.toNat, h.queue.small⟩ = enc 32 idx.i0 := by
    rw [hcell]
    exact (h.queue.elems_looked hf).2.1
  have hidx : (enc 32 idx.i0).toNat = idx.i0 := toNat_enc (by decide) _
  refine ⟨u, b, idx, r, rest, hu, hf, hreq, ?_⟩
  unfold Disk.complete
  simp only [h.queue.small, dif_pos, hid, hidx, idx.i0.isLt, Fin.eta, h.chained.status, ne_eq, not_true_eq_false, if_false,
    hinfo, hreq]

theorem complete (h : Sound π d fl) (ht : π t = .idle) (hstill : ∀ u, π u ≠ .mid)
    (hne : cell num d.usedIdx ≠ cell num d.usedId) :
    ∃ b d' fl', d.complete = .ok (b, d') ∧ Sound (update π t .mid) d' fl' := by
  obtain ⟨u, b, idx, r, rest, hu, hf, hreq, hc⟩ := h.complete_eq hstill hne
  have hut : u ≠ t := by
    rintro rfl
    rw [ht] at hu
    cases hu
  have hch := h.chained.complete hu fun v b' idx' hv => h.tracks.apart v u r b' idx' b idx hv hu
  have hq := h.queue.complete hf
  rw [hreq] at hq
  refine ⟨b, _, { fl with fresh := rest, looked := fl.looked + 1 }, hc, ?_, hq, ?_⟩
  · exact hch.stay (by rw [ht]; rfl) (fun _ hb => by cases hb) rfl rfl trivial (fun v _ => hch.formed v) hch.status
  · have hother : ∀ v y, y ≠ .mid → y ≠ .idle → (update π t .mid v = y ↔ π v = y) := by
      intro v y hm hi
      rw [update_apply]
      split_ifs with hv
      · rw [hv, ht]
        exact iff_of_false (Ne.symm hm) (Ne.symm hi)
      · rfl
    refine ⟨fun x => ?_, fun v w r' b1 i1 b2 i2 hv hw => ?_, fun v _ => ?_, fun hno => absurd (update_self ..) (hno t)⟩
    · rw [h.queue.mem_pop hf, h.tracks.flies]
      constructor
      · rintro ⟨⟨v, b', idx', r', hv, he, hr'⟩, hx⟩
        refine ⟨v, b', idx', r', (hother v _ (by simp) (by simp)).mpr hv, he, ?_⟩
        simp only [List.mem_append, List.mem_singleton, not_or]
        refine ⟨hr', ?_⟩
        rintro rfl
        obtain rfl := h.tracks.apart v u r' b' idx' b idx hv hu
        rw [hu] at hv
        cases hv
        exact hx he.symm
      · rintro ⟨v, b', idx', r', hv, he, hr'⟩
        simp only [List.mem_append, List.mem_singleton, not_or] at hr'
        have hv := (hother v _ (by simp) (by simp)).mp hv
        refine ⟨⟨v, b', idx', r', hv, he, hr'.1⟩, ?_⟩
        rintro rfl
        have hform := h.chained.formed v
        rw [hv] at hform
        exact hr'.2 (hform.2.2.1.symm.trans (by rw [he, hreq]))
    · exact h.tracks.apart v w r' b1 i1 b2 i2 ((hother v _ (by simp) (by simp)).mp hv) ((hother w _ (by simp) (by simp)).mp hw)
    · exact cell_succ (by decide) (by decide) (h.tracks.still hstill)

theorem next (h : Sound π d fl) (ht : π t = .mid) (hex : ∀ u ≠ t, ¬ (π u).Busy ()) :
    Sound (update π t .idle) { d with usedIdx := (d.usedIdx + 1) % 8 } fl := by
  have hother : ∀ v y, y ≠ .mid → y ≠ .idle → (update π t .idle v = y ↔ π v = y) := by
    intro v y hm hi
    rw [update_apply]
    split_ifs with hv
    · rw [hv, ht]
      exact iff_of_false (Ne.symm hi) (Ne.symm hm)
    · rfl
  have hformed : ∀ v, (π v).Formed { d with usedIdx := (d.usedIdx + 1) % 8 } := fun v =>
    (h.chained.formed v).frame (fun _ _ => ⟨rfl, rfl⟩) (fun _ _ => rfl) (fun _ _ => rfl) (fun _ _ => rfl) (fun _ h => h)
      (fun _ _ _ _ h => h) le_rfl fun _ _ _ => rfl
  refine ⟨?_, h.queue.next, fun x => ?_, fun v w r' b1 i1 b2 i2 hv hw => ?_, fun v hv => ?_, fun _ => ?_⟩
  · exact h.chained.stay (by rw [ht]; rfl) (fun _ hb => by cases hb) rfl rfl trivial (fun v _ => hformed v) h.chained.status
  · rw [h.tracks.flies]
    simp only [hother _ (Phase.wait _ _ _) (by simp) (by simp)]
  · exact h.tracks.apart v w r' b1 i1 b2 i2 ((hother v _ (by simp) (by simp)).mp hv) ((hother w _ (by simp) (by simp)).mp hw)
  · rw [update_apply] at hv
    split_ifs at hv with hvt
    have := hex v hvt
    rw [hv] at this
    exact absurd trivial this
  · rw [cell_umod]
    exact h.tracks.mid t ht

theorem move {d' : Disk} (h : Sound π d fl) (hc : Chained (update π t x) d') (ht : (π t).Plain) (hx : x.Plain)
    (hrings : d'.toRings = d.toRings) : Sound (update π t x) d' fl :=
  ⟨hc, hrings ▸ h.queue, hrings ▸ h.tracks.move ht hx⟩

/-- Every stretch of code. -/
theorem run (h : Sound π d fl) {l : Place} {f : Disk → Bool → ℕ → Disk × Label Place} (hc : code l = .run f)
    (ht : π t = phase l) (hex : ∀ lk ∈ locks l, ∀ u ≠ t, ¬ (π u).Busy lk) (k : Bool) (n : ℕ) :
    ∃ fl', Sound (update π t (Label.phase phase .idle (f d k n).2)) (f d k n).1 fl' := by
  have hstay : ∀ {y}, y = phase l → ∃ fl', Sound (update π t y) d fl' := by
    rintro y rfl
    rw [← ht, update_eq_self]
    exact ⟨fl, h⟩
  have hplain : (phase l).Plain → (π t).Plain := fun hl => by rwa [ht]
  cases l with
  | lock b write =>
    obtain rfl := Instr.run.inj hc
    dsimp only
    split_ifs with hl
    · exact hstay rfl
    · exact ⟨fl, h.move (h.chained.lock ht (by simpa using hl)) (hplain trivial) trivial rfl⟩
  | alloc b write =>
    obtain rfl := Instr.run.inj hc
    have hd := (d.allocDescs_spec 3).2.2
    dsimp only
    split
    · rename_i i0 i1 i2 d' ha
      have hc := h.chained.alloc (x := .format b ⟨i0, i1, i2⟩) ht rfl (by rw [ha]; rfl) fun _ => trivial
      rw [ha] at hc hd
      exact ⟨fl, h.move hc (hplain trivial) trivial (by rw [show d' = _ from hd])⟩
    · rename_i idx d' _ ha
      have hc := h.chained.alloc (x := .undo b idx) ht rfl (by rw [ha]; rfl) fun _ => trivial
      rw [ha] at hc hd
      exact ⟨fl, h.move hc (hplain trivial) trivial (by rw [show d' = _ from hd])⟩
  | undo b write idx =>
    cases idx with
    | nil =>
      obtain rfl := Instr.run.inj hc
      refine ⟨fl, h.move (h.chained.stay ?_ (fun b' hb => ?_) rfl rfl trivial (fun u _ => h.chained.formed u) h.chained.status)
        (hplain trivial) trivial rfl⟩
      · rw [ht]
        rfl
      · rw [ht]
        exact hb
    | cons i idx =>
      obtain rfl := Instr.run.inj hc
      have hown : (π t).owned = i :: idx := by rw [ht]; rfl
      dsimp only
      rw [h.chained.freeDesc_ok (t := t) (i := i) (by simp [hown])]
      exact ⟨fl, h.move (h.chained.give hown rfl (fun b' hb => by rw [ht]; exact hb) fun _ _ => trivial) (hplain trivial)
        trivial rfl⟩
  | format b write idx =>
    obtain rfl := Instr.run.inj hc
    exact ⟨fl, h.move (h.chained.format ht (hex () (List.mem_singleton_self ())) write) (hplain trivial) trivial rfl⟩
  | avail b idx =>
    obtain rfl := Instr.run.inj hc
    have hc := h.chained.avail ht (hex () (List.mem_singleton_self ()))
    have htr := h.tracks.move (x := .notify b idx) (hplain trivial) trivial
    exact ⟨fl, hc, h.queue.write h.short' _, htr.perm (.refl _) rfl rfl rfl⟩
  | notify b idx =>
    obtain rfl := Instr.run.inj hc
    exact h.notify ht (hex () (List.mem_singleton_self ()))
  | wait b idx r =>
    obtain rfl := Instr.run.inj hc
    dsimp only
    split_ifs with hd
    · exact hstay rfl
    · exact ⟨fl, h.finish ht (by simpa using hd)⟩
  | free b i rest r =>
    obtain rfl := Instr.run.inj hc
    have hf := h.chained.formed t
    rw [ht] at hf
    obtain ⟨hi, hl, hr⟩ := hf
    obtain ⟨j, rest, rfl⟩ : ∃ j rest', rest = j :: rest' := by
      cases rest with
      | nil => cases hi
      | cons j rest => exact ⟨j, rest, rfl⟩
    obtain rfl : j.val = i := Option.some.inj hi
    have hown : (π t).owned = j :: rest := by rw [ht]; rfl
    dsimp only
    rw [h.chained.freeDesc_ok (t := t) (i := j) (by simp [hown])]
    refine ⟨fl, h.move (h.chained.give hown rfl (fun b' hb => by rw [ht]; exact hb) fun desc hdesc => ?_) (hplain trivial)
      trivial rfl⟩
    exact ⟨hl.congr fun k _ => hdesc k, hr⟩
  | freeNext b i rest r =>
    obtain rfl := Instr.run.inj hc
    have hf := h.chained.formed t
    rw [ht] at hf
    obtain ⟨hl, hr⟩ := hf
    have hgo : ∀ {y : Phase}, y.owned = rest → (∀ b', y.buf = some b' → b = b') → y.Formed d → y.Plain →
        ∃ fl', Sound (update π t y) d fl' := by
      intro y ho hb hy hp
      refine ⟨fl, h.move (h.chained.stay (by rw [ho, ht]; rfl) (fun b' hb' => ?_) rfl rfl hy
        (fun u _ => h.chained.formed u) h.chained.status) (hplain trivial) hp rfl⟩
      rw [ht, ← hb b' hb']
      rfl
    dsimp only
    cases rest with
    | nil =>
      rw [if_neg (by simpa [Linked] using hl)]
      exact hgo rfl (fun _ => Option.some.inj) hr trivial
    | cons j rest =>
      obtain ⟨h1, h2, h3⟩ := hl
      rw [if_pos h1, h2, toNat_enc (by decide)]
      exact hgo rfl (fun _ => Option.some.inj) ⟨rfl, h3, hr⟩ trivial
  | unlock b r =>
    obtain rfl := Instr.run.inj hc
    exact ⟨fl, h.move (h.chained.unlock ht) (hplain trivial) trivial rfl⟩
  | intrWhile =>
    obtain rfl := Instr.run.inj hc
    dsimp only
    split_ifs with hne
    · have hstill : ∀ u, π u ≠ .mid := by
        intro u hu
        by_cases hut : u = t
        · rw [hut, ht] at hu
          cases hu
        · have := hex () (List.mem_singleton_self ()) u hut
          rw [hu] at this
          exact this trivial
      obtain ⟨b, d', fl', hc, hs⟩ := h.complete ht hstill hne
      rw [hc]
      exact ⟨fl', hs⟩
    · exact hstay rfl
  | intrNext =>
    obtain rfl := Instr.run.inj hc
    exact ⟨fl, h.next ht (hex () (List.mem_singleton_self ()))⟩
  | panic why =>
    have hf := h.chained.formed t
    rw [ht] at hf
    exact hf.elim
  | rw | undoWake | allocSleep | waitSleep | freeWake | done | intr | intrWake | intrDone | iret => cases hc

end Sound

theorem Sound.init (blockno : ℕ → ℕ) (n : BitVec 16) :
    Sound (fun _ : τ => .idle) (Disk.init blockno n) ⟨[], [], none, [], n⟩ := by
  refine ⟨⟨⟨fun i => ?_, fun _ _ _ h => ?_, fun _ => List.nodup_nil⟩, fun _ _ _ h => ?_, fun _ _ h => ?_, fun _ => trivial,
    fun _ => rfl⟩, ?_, fun x => ?_, fun _ _ _ _ _ _ _ h => ?_, fun _ h => ?_, fun _ => ?_⟩
  · simp [Disk.init, Phase.owned]
  · cases h
  · cases h
  · cases h
  · exact {
      nodup := List.nodup_nil
      apart := fun _ h => by cases h
      low := fun _ h => by cases h
      ring := contents_self
      pending := rfl
      storing := rfl
      stored := fun _ h => by cases h
      used := contents_self
      done := rfl
      once := List.nodup_nil
      new := fun _ h => by cases h
      below := fun _ h => by cases h
      small := by
        simp only [Disk.init, BitVec.toNat_umod]
        exact Nat.mod_lt _ (by decide) }
  · simp [Flight.heads, Flight.open]
  · cases h
  · cases h
  · exact cell_umod n

variable {C : Type} [DecidableEq C] {allow : Label Place → Disk → Bool → ℕ → Prop} {blockno : ℕ → ℕ} {n : BitVec 16}

theorem sound {a : Sched.Client (Label Place) Disk Chan Unit C} (h : a.Reaches calls.kernel allow (Disk.init blockno n) .user) :
    ∃ fl, Sound (a.phase (Label.phase phase .idle) .idle) a.data fl := by
  refine h.locked_induct (J := fun π d => ∃ fl, Sound π d fl) phased balanced guarded rfl rfl ⟨_, .init blockno n⟩ ?_
  rintro π d π' d' ⟨fl, hj⟩ hs
  rcases Calls.lockedStep_cases (fun _ => rfl) hs with
    ⟨rfl, rfl⟩ | ⟨t, l, f, b, n, hc, -, ht, hex, rfl, rfl⟩ | ⟨n, rfl, rfl⟩
  · exact ⟨fl, hj⟩
  · exact hj.run hc ht hex b n
  · exact hj.device n

/-- Where the threads are. -/
def phases (s : Sched.State (Label Place) Disk Chan Unit C) : Slot ⊕ C → Phase := s.phases (Label.phase phase .idle) .idle

theorem Sound.intr (h : Sound π d fl) (hstill : ∀ u, π u ≠ .mid) :
    (cell num d.usedIdx ≠ cell num d.usedId ↔ d.processed ≠ d.completed) ∧
    (d.processed ≠ d.completed → ∃ t b idx r rest, π t = .wait b idx r ∧ d.completed = d.processed ++ r :: rest ∧
      d.complete = .ok (b, { d with disk := update d.disk b false, processed := d.processed ++ [r] })) := by
  have hiff : cell num d.usedIdx ≠ cell num d.usedId ↔ d.processed ≠ d.completed := by
    rw [h.tracks.still hstill, ne_eq, h.queue.cell_eq_iff h.short', h.queue.done]
    simp
  refine ⟨hiff, fun hne => ?_⟩
  obtain ⟨u, b, idx, r, rest, hu, hf, hreq, hc⟩ := h.complete_eq hstill (hiff.mpr hne)
  refine ⟨u, b, idx, r, rest.map d.request, hu, ?_, hc⟩
  rw [h.queue.done, hf, List.map_cons, hreq]

/-- In every run of the kernel with the device: while `disk.vdisk_lock` is free, each descriptor is
free or in the chain of exactly one request; completions are processed once each, in their order,
and the test of `virtio_disk_intr` misses none; a call of `virtio_disk_rw` goes on to return when its
own request is complete; and there is no panic. -/
theorem driver {s : Sched.State (Label Place) Disk Chan Unit C} (h : Reachable calls.kernel (Disk.init blockno n) .user s) :
    (s.lock () = none → ∀ i, if s.data.free i then ∀ t, i ∉ (phases s t).owned else
      ∃! t, ∃ b idx r, phases s t = .wait b idx r ∧ i ∈ idx.toList ∧ idx.toList.Nodup ∧ Linked s.data.desc idx.toList) ∧
    (s.data.processed <+: s.data.completed ∧ s.data.completed.Nodup) ∧
    (∀ c, (s.cpu c).handler = some (.code (.sys .intrWhile)) →
      (cell num s.data.usedIdx ≠ cell num s.data.usedId ↔ s.data.processed ≠ s.data.completed) ∧
      (s.data.processed ≠ s.data.completed → ∃ t b idx r rest, phases s t = .wait b idx r ∧
        s.data.completed = s.data.processed ++ r :: rest ∧ s.data.complete =
          .ok (b, { s.data with disk := update s.data.disk b false, processed := s.data.processed ++ [r] }))) ∧
    (∀ t b r, phases s t = .done b r ∨ (∃ i rest, phases s t = .free b i rest r) → r ∈ s.data.completed) ∧
    ∀ t, phases s t ≠ .panic := by
  obtain ⟨-, -, a, hreach, hsim⟩ := refines balanced rfl h.heeds
  obtain ⟨fl, hs⟩ := sound hreach
  have ho := Sched.Client.Owns.of_reaches balanced rfl hreach
  have hbusy : ∀ u, (phases s u).Busy () → a.lock () = some u := fun u hb =>
    (ho.lock () u).mpr (ho.locks_of_busy balanced guarded (by rwa [hsim.phases]))
  rw [hsim.phases, hsim.data] at hs
  have hdone : ∀ {r}, r ∈ s.data.processed → r ∈ s.data.completed := fun hr => by
    rw [hs.queue.done]
    exact List.mem_append_left _ hr
  refine ⟨fun hfree i => ?_, ⟨?_, hs.queue.once⟩, fun c hc => hs.intr fun u hu => ?_, fun t b r ht => hdone ?_, fun t ht => ?_⟩
  · have hidle : ∀ u, ¬ (phases s u).Busy () := fun u hb => by
      have := hbusy u hb
      simp [hsim.free () hfree] at this
    split_ifs with hi
    · intro t ht
      simp [hs.chained.owned.not_free ht] at hi
    · obtain ⟨t, ht⟩ := (hs.chained.owned.taken i).mp (by simpa using hi)
      have hwait : ∃ b idx r, phases s t = .wait b idx r := by
        have hn := hidle t
        change i ∈ (phases s t).owned at ht
        cases hp : phases s t <;> rw [hp] at ht hn <;>
          first | exact ⟨_, _, _, rfl⟩ | exact absurd trivial hn | cases ht
      obtain ⟨b, idx, r, hw⟩ := hwait
      have hf := hs.chained.formed t
      have hn := hs.chained.owned.nodup t
      change (phases s t).Formed s.data at hf
      change (phases s t).owned.Nodup at hn
      rw [hw] at hf hn
      refine ⟨t, ⟨b, idx, r, hw, ?_, hn, hf.1⟩, ?_⟩
      · change i ∈ (phases s t).owned at ht
        rwa [hw] at ht
      · rintro u ⟨b', idx', r', hu, hi', -⟩
        refine hs.chained.owned.unique u t i ?_ ht
        change i ∈ (phases s u).owned
        rwa [hu]
  · rw [hs.queue.done]
    exact List.prefix_append _ _
  · have hu' : a.lock () = some u := hbusy u (by rw [show phases s u = .mid from hu]; trivial)
    have hcl : a.lock () = some (.inr c) := (ho.lock () _).mpr (by
      rw [hsim.handler, hc]
      exact List.mem_singleton_self ())
    obtain rfl := Option.some.inj (hu'.symm.trans hcl)
    simp [Sched.State.phases, hc, Sched.Pc.point, Point.phase, Label.phase, phase] at hu
  · have hf := hs.chained.formed t
    change (phases s t).Formed s.data at hf
    rcases ht with ht | ⟨i, rest, ht⟩ <;> rw [ht] at hf
    · exact hf
    · exact hf.2.2
  · have hf := hs.chained.formed t
    change (phases s t).Formed s.data at hf
    rwa [ht] at hf

/-- The handler is at the loop of `virtio_disk_intr`. -/
def atIntrWhile : Option (Sched.Pc (Label Place) Chan Unit) → Bool
  | some (.code (.sys .intrWhile)) => true
  | _ => false

/-- The counters have wrapped. A request is complete, and `virtio_disk_intr` looks for it. -/
theorem driver_wraps : ∃ s : Sched.State (Label Place) Disk Chan Unit Unit,
    Reachable calls.kernel (Disk.init id (-1)) .user s ∧ (s.cpu ()).handler = some (.code (.sys .intrWhile)) ∧
    s.data.usedId = 0 ∧ s.data.completed = [0] ∧ s.data.processed = [] ∧
    cell num s.data.usedIdx ≠ cell num s.data.usedId := by
  obtain ⟨s, hrun, htest⟩ := exists_run_of_exec (Sched.step calls.kernel) (fun _ _ => True)
    (Sched.boot (Disk.init id (-1)) .user : Sched.State (Label Place) Disk Chan Unit Unit)
    (List.replicate 16 ((), .go 3) ++ [((), .dma 0), ((), .dma 1), ((), .dma 2), ((), .device (.sys .intr)), ((), .go 0)])
    (fun s => atIntrWhile (s.cpu ()).handler &&
      decide (s.data.usedId = 0 ∧ s.data.completed = [0] ∧ s.data.processed = [])) (by decide +kernel)
  obtain ⟨hh, htest⟩ := Bool.and_eq_true_iff.mp htest
  obtain ⟨hid, hc, hp⟩ := of_decide_eq_true htest
  have hh : (s.cpu ()).handler = some (.code (.sys .intrWhile)) := by
    unfold atIntrWhile at hh
    split at hh
    · assumption
    · cases hh
  exact ⟨s, hrun, hh, hid, hc, hp, ((driver hrun).2.2.1 () hh).1.mpr (by simp [hc, hp])⟩

end Xv6.Virtio
