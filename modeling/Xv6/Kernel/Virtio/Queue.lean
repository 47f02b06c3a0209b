import Xv6.Kernel.Virtio.Machine
import Mathlib.Tactic

/-! The way of a request: from `avail` to the device, from there to `used`, and back to the driver. -/
namespace Xv6.Virtio
open Lib Sched Function

/-- The requests on their way, by the descriptors they begin with: in `avail`, with the device, the
one that it stores, and those in `used` that `virtio_disk_intr` has not dealt with. `looked` is how
far it has looked, but not modulo `NUM`. -/
structure Flight where
  waiting : List (Fin num)
  pending : List (Fin num)
  storing : Option (Fin num)
  fresh : List (Fin num)
  looked : BitVec 16

/-- Those that are not in `used`. -/
def Flight.open (fl : Flight) : List (Fin num) := fl.waiting ++ fl.pending ++ fl.storing.toList

def Flight.heads (fl : Flight) : List (Fin num) := fl.open ++ fl.fresh

theorem toNat_enc {w : ℕ} (hw : num ≤ 2 ^ w) (i : Fin num) : (enc w i).toNat = i := by
  rw [enc, BitVec.toNat_ofNat]
  exact Nat.mod_eq_of_lt (by omega)

theorem dec_enc (i : Fin num) : dec (enc 16 i) = some i := by
  unfold dec
  simp [toNat_enc (show num ≤ 2 ^ 16 by decide)]

theorem setWidth_enc (i : Fin num) : (enc 16 i).setWidth 32 = enc 32 i := by
  apply BitVec.eq_of_toNat_eq
  have h16 := toNat_enc (show num ≤ 2 ^ 16 by decide) i
  have h32 := toNat_enc (show num ≤ 2 ^ 32 by decide) i
  rw [BitVec.toNat_setWidth, h16, h32]
  have := i.isLt
  exact Nat.mod_eq_of_lt (by simp only [num] at this; omega)

/-- The rings hold these requests, and no request is complete twice. -/
structure Queue (q : Rings) (fl : Flight) : Prop where
  nodup : fl.heads.Nodup
  apart : ∀ h ∈ fl.heads, ∀ h' ∈ fl.heads, q.request h = q.request h' → h = h'
  low : ∀ h ∈ fl.heads, q.request h < q.issued
  ring : contents q.avail q.seen q.availIdx = fl.waiting.map (enc 16)
  pending : q.pending = fl.pending.map (enc 16)
  storing : q.storing = fl.storing.map (enc 16)
  stored : ∀ h ∈ fl.storing, q.elems (cell num q.usedId) = enc 32 h
  used : contents q.elems fl.looked q.usedId = fl.fresh.map (enc 32)
  done : q.completed = q.processed ++ fl.fresh.map q.request
  once : q.completed.Nodup
  new : ∀ h ∈ fl.open, q.request h ∉ q.completed
  below : ∀ r ∈ q.completed, r < q.issued
  small : q.usedIdx.toNat < num

namespace Queue
variable {q : Rings} {fl fl' : Flight} {h : Fin num}

theorem num_dvd : num ∣ 2 ^ 16 := by decide

theorem length_fresh (hq : Queue q fl) : (q.usedId - fl.looked).toNat = fl.fresh.length := by
  rw [← List.length_map (enc 32), ← hq.used, length_contents]

theorem length_waiting (hq : Queue q fl) : (q.availIdx - q.seen).toNat = fl.waiting.length := by
  rw [← List.length_map (enc 16), ← hq.ring, length_contents]

theorem cell_eq_iff (hq : Queue q fl) (hshort : fl.heads.length < num) :
    cell num fl.looked = cell num q.usedId ↔ fl.fresh = [] := by
  have hlen := hq.length_fresh
  have hle : fl.fresh.length < num := by
    have : fl.fresh.length ≤ fl.heads.length := by simp [Flight.heads]
    omega
  constructor
  · intro he
    by_contra hne
    refine cell_ne num_dvd fl.looked (m := 0) (n := fl.fresh.length) (by decide) hle ?_ ?_
    · exact fun h0 => hne (List.length_eq_zero_iff.mp h0.symm)
    · rw [← hlen, add_toNat_sub]
      simpa using he
  · intro he
    rw [he, List.length_nil] at hlen
    have := add_toNat_sub fl.looked q.usedId
    rw [hlen] at this
    rw [← this]
    simp

theorem take (hq : Queue q fl) : ∃ fl', Queue q.take fl' ∧ fl'.heads.Perm fl.heads ∧ fl'.looked = fl.looked := by
  unfold Rings.take
  split_ifs with he
  · exact ⟨fl, hq, .refl _, rfl⟩
  · have hring := hq.ring
    rw [contents_pop he] at hring
    obtain ⟨waiting, pending, storing, fresh, looked⟩ := fl
    cases waiting with
    | nil => cases hring
    | cons h waiting =>
      obtain ⟨hh, hw⟩ := List.cons.inj hring
      have hperm : (⟨waiting, pending ++ [h], storing, fresh, looked⟩ : Flight).heads.Perm
          (⟨h :: waiting, pending, storing, fresh, looked⟩ : Flight).heads := by
        simp only [Flight.heads, Flight.open, List.append_assoc, List.cons_append, List.nil_append]
        rw [← List.append_assoc, ← List.append_assoc waiting pending]
        exact List.perm_middle
      have hopen : ∀ x, x ∈ (⟨waiting, pending ++ [h], storing, fresh, looked⟩ : Flight).open ↔
          x ∈ (⟨h :: waiting, pending, storing, fresh, looked⟩ : Flight).open := by
        intro x
        simp only [Flight.open, List.mem_append, List.mem_cons, List.not_mem_nil, or_false]
        tauto
      refine ⟨⟨waiting, pending ++ [h], storing, fresh, looked⟩, ?_, hperm, rfl⟩
      exact { hq with
        nodup := hperm.nodup_iff.mpr hq.nodup
        apart := fun x hx y hy => hq.apart x (hperm.mem_iff.mp hx) y (hperm.mem_iff.mp hy)
        low := fun x hx => hq.low x (hperm.mem_iff.mp hx)
        ring := hw
        pending := by
          rw [hh, hq.pending]
          simp
        new := fun x hx => hq.new x ((hopen x).mp hx) }

theorem store (hq : Queue q fl) (hshort : fl.heads.length < num) {k : ℕ} {head : BitVec 16} (hnone : q.storing = none)
    (hk : q.pending[k]? = some head) :
    ∃ fl', Queue (q.store k head) fl' ∧ fl'.heads.Perm fl.heads ∧ fl'.looked = fl.looked := by
  have hlen := hq.length_fresh
  obtain ⟨waiting, pending, storing, fresh, looked⟩ := fl
  obtain rfl : storing = none := Option.map_eq_none_iff.mp (hq.storing.symm.trans hnone)
  rw [hq.pending, List.getElem?_map, Option.map_eq_some_iff] at hk
  obtain ⟨h, hk, rfl⟩ := hk
  have hpk : (h :: pending.eraseIdx k).Perm pending := by
    obtain ⟨hlt, rfl⟩ := List.getElem?_eq_some_iff.mp hk
    exact List.getElem_cons_eraseIdx_perm hlt
  have hopen : (⟨waiting, pending.eraseIdx k, some h, fresh, looked⟩ : Flight).open.Perm
      (⟨waiting, pending, none, fresh, looked⟩ : Flight).open := by
    simp only [Flight.open, Option.toList, List.append_nil, List.append_assoc]
    exact (List.perm_append_comm.trans hpk).append_left _
  have hperm := hopen.append_right fresh
  have hfresh : fresh.length < num := by
    simp only [Flight.heads, List.length_append] at hshort
    omega
  refine ⟨⟨waiting, pending.eraseIdx k, some h, fresh, looked⟩, ?_, hperm, rfl⟩
  exact { hq with
    nodup := hperm.nodup_iff.mpr hq.nodup
    apart := fun x hx y hy => hq.apart x (hperm.mem_iff.mp hx) y (hperm.mem_iff.mp hy)
    low := fun x hx => hq.low x (hperm.mem_iff.mp hx)
    pending := by simp only [Rings.store, hq.pending, List.eraseIdx_map]
    storing := rfl
    stored := by
      intro x hx
      obtain rfl : h = x := Option.some.inj hx
      simp [Rings.store, setWidth_enc]
    used := by
      simp only [Rings.store]
      rw [contents_update num_dvd le_rfl (by simpa [hlen] using hfresh)]
      exact hq.used
    new := fun x hx => hq.new x (hopen.mem_iff.mp hx) }

theorem publish (hq : Queue q fl) (hshort : fl.heads.length < num) :
    ∃ fl', Queue q.publish fl' ∧ fl'.heads.Perm fl.heads ∧ fl'.looked = fl.looked := by
  have hlen := hq.length_fresh
  unfold Rings.publish
  split
  · exact ⟨fl, hq, .refl _, rfl⟩
  · rename_i head hs
    obtain ⟨waiting, pending, storing, fresh, looked⟩ := fl
    obtain ⟨h, rfl, rfl⟩ := Option.map_eq_some_iff.mp (hq.storing.symm.trans hs)
    have hperm : (⟨waiting, pending, none, fresh ++ [h], looked⟩ : Flight).heads.Perm
        (⟨waiting, pending, some h, fresh, looked⟩ : Flight).heads := by
      simp only [Flight.heads, Flight.open, Option.toList, List.append_nil, List.append_assoc]
      exact (List.perm_append_comm.append_left _).append_left _
    have hh : h ∈ (⟨waiting, pending, some h, fresh, looked⟩ : Flight).open := by simp [Flight.open]
    have hnh : ∀ x ∈ waiting ++ pending, x ≠ h := by
      rintro x hx rfl
      have := hq.nodup
      simp only [Flight.heads, Flight.open, Option.toList] at this
      exact (List.nodup_append.mp (List.nodup_append.mp this).1).2.2 x hx x (List.mem_singleton_self x) rfl
    have hfresh : fresh.length < num := by
      simp only [Flight.heads, List.length_append] at hshort
      omega
    refine ⟨⟨waiting, pending, none, fresh ++ [h], looked⟩, ?_, hperm, rfl⟩
    exact { hq with
      nodup := hperm.nodup_iff.mpr hq.nodup
      apart := fun x hx y hy => hq.apart x (hperm.mem_iff.mp hx) y (hperm.mem_iff.mp hy)
      low := fun x hx => hq.low x (hperm.mem_iff.mp hx)
      storing := rfl
      stored := by simp
      used := by
        dsimp only
        rw [contents_succ num_dvd (by decide) (by simpa [hlen] using hfresh), hq.used, hq.stored h rfl]
        simp
      done := by
        dsimp only
        rw [dec_enc, hq.done]
        simp
      once := by
        dsimp only
        rw [dec_enc]
        refine List.nodup_append.mpr ⟨hq.once, List.nodup_singleton _, ?_⟩
        rintro x hx _ (_ | ⟨_, ⟨⟩⟩) rfl
        exact hq.new h hh hx
      new := by
        intro x hx
        dsimp only
        rw [dec_enc]
        have hx' : x ∈ waiting ++ pending := by simpa [Flight.open] using hx
        have hxo : x ∈ (⟨waiting, pending, some h, fresh, looked⟩ : Flight).open := List.mem_append_left _ hx'
        simp only [Option.map_some, Option.toList, List.mem_append, List.mem_singleton, not_or]
        refine ⟨hq.new x hxo, fun he => hnh x hx' ?_⟩
        exact hq.apart x (List.mem_append_left _ hxo) h (List.mem_append_left _ hh) he
      below := by
        intro r hr
        dsimp only at hr
        rw [dec_enc] at hr
        rcases List.mem_append.mp hr with hr | hr
        · exact hq.below r hr
        · obtain rfl := List.mem_singleton.mp hr
          exact hq.low h (List.mem_append_left _ hh) }

theorem write (hq : Queue q fl) (hshort : fl.heads.length < num) (x : BitVec 16) :
    Queue { q with avail := update q.avail (cell num q.availIdx) x } fl := by
  refine { hq with ring := ?_ }
  dsimp only
  rw [contents_update num_dvd le_rfl]
  · exact hq.ring
  · have : fl.waiting.length ≤ fl.heads.length := by simp [Flight.heads, Flight.open]
    rw [hq.length_waiting]
    omega

theorem issued_not_mem (hq : Queue q fl) : q.issued ∉ q.processed := fun hm =>
  lt_irrefl _ (hq.below _ (by rw [hq.done]; exact List.mem_append_left _ hm))

theorem notify (hq : Queue q fl) (hshort : fl.heads.length < num) {i : Fin num} (hi : i ∉ fl.heads)
    (hw : q.avail (cell num q.availIdx) = enc 16 i) :
    Queue { q with availIdx := q.availIdx + 1, issued := q.issued + 1, request := update q.request i q.issued }
      { fl with waiting := fl.waiting ++ [i] } := by
  have hperm : ({ fl with waiting := fl.waiting ++ [i] } : Flight).heads.Perm (i :: fl.heads) := by
    simp only [Flight.heads, Flight.open, List.append_assoc]
    exact List.perm_middle
  have hopen : ∀ x, x ∈ ({ fl with waiting := fl.waiting ++ [i] } : Flight).open ↔ x = i ∨ x ∈ fl.open := by
    intro x
    simp only [Flight.open, List.mem_append, List.mem_singleton]
    tauto
  have hsame : ∀ x ∈ fl.heads, update q.request i q.issued x = q.request x := by
    intro x hx
    refine update_of_ne ?_ _ _
    rintro rfl
    exact hi hx
  have hmem : ∀ x ∈ ({ fl with waiting := fl.waiting ++ [i] } : Flight).heads, x = i ∨ x ∈ fl.heads := fun x hx =>
    List.mem_cons.mp (hperm.mem_iff.mp hx)
  refine { hq with
    nodup := hperm.nodup_iff.mpr (List.nodup_cons.mpr ⟨hi, hq.nodup⟩)
    apart := fun x hx y hy he => ?_
    low := fun x hx => ?_
    ring := ?_
    done := ?_
    new := fun x hx => ?_
    below := fun r hr => Nat.lt_succ_of_lt (hq.below r hr) }
  · dsimp only at he
    rcases hmem x hx with hx | hx <;> rcases hmem y hy with hy | hy
    · rw [hx, hy]
    · rw [hx, update_self, hsame y hy] at he
      exact absurd (hq.low y hy) (by omega)
    · rw [hy, update_self, hsame x hx] at he
      exact absurd (hq.low x hx) (by omega)
    · rw [hsame x hx, hsame y hy] at he
      exact hq.apart x hx y hy he
  · dsimp only
    rcases hmem x hx with rfl | hx
    · simp
    · rw [hsame x hx]
      exact Nat.lt_succ_of_lt (hq.low x hx)
  · have hlen : fl.waiting.length ≤ fl.heads.length := by simp [Flight.heads, Flight.open]
    dsimp only
    rw [contents_succ num_dvd (by decide) (by rw [hq.length_waiting]; omega), hq.ring, hw]
    simp
  · dsimp only
    rw [hq.done]
    refine congrArg _ (List.map_congr_left fun x hx => (hsame x ?_).symm)
    exact List.mem_append_right _ hx
  · dsimp only
    rcases (hopen x).mp hx with rfl | hx
    · rw [update_self]
      exact fun hm => lt_irrefl _ (hq.below _ hm)
    · rw [hsame x (List.mem_append_left _ hx)]
      exact hq.new x hx

theorem elems_looked (hq : Queue q fl) {rest : List (Fin num)} (hf : fl.fresh = h :: rest) :
    fl.looked ≠ q.usedId ∧ q.elems (cell num fl.looked) = enc 32 h ∧
      contents q.elems (fl.looked + 1) q.usedId = rest.map (enc 32) := by
  have hused := hq.used
  have hne : fl.looked ≠ q.usedId := by
    intro he
    rw [he, contents_self, hf] at hused
    cases hused
  rw [contents_pop hne, hf, List.map_cons] at hused
  exact ⟨hne, List.cons.inj hused⟩

theorem mem_pop (hq : Queue q fl) {rest : List (Fin num)} (hf : fl.fresh = h :: rest) (looked : BitVec 16) (x : Fin num) :
    x ∈ ({ fl with fresh := rest, looked } : Flight).heads ↔ x ∈ fl.heads ∧ x ≠ h := by
  have hperm : fl.heads.Perm (h :: ({ fl with fresh := rest, looked } : Flight).heads) := by
    simp only [Flight.heads, hf]
    exact List.perm_middle
  have hnd := List.nodup_cons.mp (hperm.nodup_iff.mp hq.nodup)
  rw [hperm.mem_iff, List.mem_cons]
  constructor
  · intro hx
    refine ⟨.inr hx, ?_⟩
    rintro rfl
    exact hnd.1 hx
  · rintro ⟨rfl | hx, hne⟩
    · exact absurd rfl hne
    · exact hx

theorem complete (hq : Queue q fl) {rest : List (Fin num)} (hf : fl.fresh = h :: rest) :
    Queue { q with processed := q.processed ++ [q.request h] } { fl with fresh := rest, looked := fl.looked + 1 } := by
  have hsub : ({ fl with fresh := rest, looked := fl.looked + 1 } : Flight).heads.Sublist fl.heads := by
    simp only [Flight.heads, hf]
    exact (List.sublist_cons_self h rest).append_left _
  refine { hq with
    nodup := hq.nodup.sublist hsub
    apart := fun x hx y hy => hq.apart x (hsub.mem hx) y (hsub.mem hy)
    low := fun x hx => hq.low x (hsub.mem hx)
    used := (hq.elems_looked hf).2.2
    done := ?_ }
  dsimp only
  rw [hq.done, hf]
  simp

theorem next (hq : Queue q fl) : Queue { q with usedIdx := (q.usedIdx + 1) % 8 } fl := by
  refine { hq with small := ?_ }
  rw [BitVec.toNat_umod]
  exact Nat.mod_lt _ (by decide)

end Queue
end Xv6.Virtio
