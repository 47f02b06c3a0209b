import Xv6.Kernel.Proc.Exact
import Xv6.Kernel.Proc.Isolate

/-! What `growproc` does to the memory of a process, and what it reports. -/
namespace Xv6.Vm
open Lib

/-- The byte that is mapped at an address of process `k`, if any. -/
def Sys.byte (s : Sys) (k : Fin nproc) (va : ℕ) : Option UInt8 :=
  (s.pteOf k va).map fun e => s.mem.data e.pa (va % pgsize)

/-- The size of process `i` has changed by `n`, and its memory with it. -/
structure Grown (i : Fin nproc) (n : ℤ) (s s' : Sys) : Prop where
  size : ((s'.proc i).sz : ℤ) = (s.proc i).sz + n
  exact : (s'.proc i).MapsExactly
  fresh : ∀ a, pgRoundUp (s.proc i).sz ≤ a → a < pgRoundUp (s'.proc i).sz → s'.byte i a = some 0
  kept : ∀ a, a < (s.proc i).sz → a < (s'.proc i).sz → s'.byte i a = s.byte i a

/-- Process `i` has the memory it had. -/
structure Ungrown (i : Fin nproc) (s s' : Sys) : Prop where
  size : (s'.proc i).sz = (s.proc i).sz
  entries : ∀ a < maxva, s'.pteOf i a = s.pteOf i a
  kept : ∀ a < trapframe, s'.byte i a = s.byte i a

section
variable {s : Sys} {pool : Pool} {i : Fin nproc} {E : Halt → Prop} {t t' : Pagetable} {m m' : Mem} {k n : ℕ}

theorem Inv.apart (h : Inv pool 0 s) (ht : (s.proc i).pagetable = some t) : Apart t s.mem := by
  refine Multiset.nodup_of_le (add_le_add le_rfl ?_) (h.nodup_own i)
  rw [Proc.pages, ht]
  exact Multiset.le_add_left _ _

theorem div_lt_pgs {a sz : ℕ} (h : a < sz) : a / pgsize < pgs sz := by
  have := le_pgs_mul sz
  unfold pgsize at *
  omega

theorem Same.byte (h : Same k t m t' m') {a : ℕ} (ha : a / pgsize < k) :
    (t'.pte a).map (fun e => m'.data e.pa (a % pgsize)) = (t.pte a).map fun e => m.data e.pa (a % pgsize) := by
  rw [pte_eq_look, pte_eq_look, h.entry_of_lt ha]
  cases he : look t (a / pgsize) with
  | none => rfl
  | some e => rw [Option.map_some, Option.map_some, h.data _ ha e he]

theorem Zeroed.byte (h : Zeroed k n t m) {a : ℕ} (hk : k ≤ a / pgsize) (hn : a / pgsize < n) :
    (t.pte a).map (fun e => m.data e.pa (a % pgsize)) = some 0 := by
  obtain ⟨pa, hl, hd⟩ := h _ hk hn
  rw [pte_eq_look, hl, Option.map_some, hd]

/-- Process `i` gets the table `t` and the size `sz`. -/
def Sys.setSpace (s : Sys) (i : Fin nproc) (t : Pagetable) (sz : ℕ) (m : Mem) : Sys :=
  { s with
    mem := m
    proc := Function.update s.proc i { s.proc i with pagetable := some t, sz } }

theorem pteOf_setSpace (t' : Pagetable) (sz : ℕ) (m : Mem) (a : ℕ) : (s.setSpace i t' sz m).pteOf i a = t'.pte a := by
  simp [Sys.pteOf, Sys.setSpace]

theorem byte_setSpace (t' : Pagetable) (sz : ℕ) (m : Mem) (a : ℕ) :
    (s.setSpace i t' sz m).byte i a = (t'.pte a).map fun e => m.data e.pa (a % pgsize) := by
  rw [Sys.byte, pteOf_setSpace]
  rfl

theorem sz_setSpace (t' : Pagetable) (sz : ℕ) (m : Mem) : ((s.setSpace i t' sz m).proc i).sz = sz := by
  simp [Sys.setSpace]

theorem byte_of_table (ht : (s.proc i).pagetable = some t) (a : ℕ) :
    s.byte i a = (t.pte a).map fun e => s.mem.data e.pa (a % pgsize) := by
  rw [Sys.byte, Sys.pteOf, ht]
  rfl

theorem grown_setSpace (h : Inv pool 0 s) (hi : (s.proc i).state ≠ .unused) (ht : (s.proc i).pagetable = some t)
    (hs' : Space (fun _ => True) t' (pgs k) tops) (hm : Mem.Moves (holdings t) (holdings t') s.mem m) {n : ℤ}
    (hk : (k : ℤ) = (s.proc i).sz + n) (hsame : Same (pgs (min (s.proc i).sz k)) t s.mem t' m)
    (hzero : Zeroed (pgs (s.proc i).sz) (pgs k) t' m) : Grown i n s (s.setSpace i t' k m) where
  size := by rw [sz_setSpace, hk]
  exact := (h.setSpace hi ht hs' hm).2.mapsExactly (by simpa using hi)
  fresh a hlo hhi := by
    rw [sz_setSpace, pgRoundUp_eq hs'.le] at hhi
    rw [pgRoundUp_eq ((h.ok i).space t ht).le] at hlo
    rw [byte_setSpace]
    refine hzero.byte ?_ ?_
    · unfold pgsize at *
      omega
    · unfold pgsize at *
      omega
  kept a hlo hhi := by
    rw [sz_setSpace] at hhi
    rw [byte_setSpace, byte_of_table ht]
    exact hsame.byte (div_lt_pgs (lt_min hlo hhi))

theorem ungrown_setSpace (h : Inv pool 0 s) (ht : (s.proc i).pagetable = some t)
    (hs' : Space (fun _ => True) t' (pgs (s.proc i).sz) tops) (hsame : Same (pgs (s.proc i).sz) t s.mem t' m) :
    Ungrown i s (s.setSpace i t' (s.proc i).sz m) := by
  have hs := (h.ok i).space t ht
  have hentry : ∀ v < vpns, look t' v = look t v := by
    intro v hv
    by_cases hin : v < pgs (s.proc i).sz ∨ userPages ≤ v
    · exact hsame.entry v hv hin
    · rw [hs.look_none hv (by omega) (hs.notMem_top (by omega)), hs'.look_none hv (by omega) (hs.notMem_top (by omega))]
  have hpte : ∀ a < maxva, t'.pte a = t.pte a := by
    intro a ha
    rw [pte_eq_look, pte_eq_look]
    refine hentry _ ?_
    unfold vpns
    unfold maxva at ha
    unfold pgsize
    omega
  refine ⟨sz_setSpace _ _ _, fun a ha => ?_, fun a ha => ?_⟩
  · rw [pteOf_setSpace, hpte a ha, Sys.pteOf, ht]
    rfl
  · rw [byte_setSpace, byte_of_table ht]
    by_cases hin : a / pgsize < pgs (s.proc i).sz
    · exact hsame.byte hin
    · have hup : a / pgsize < userPages := by
        rw [trapframe_eq] at ha
        unfold pgsize at *
        omega
      rw [pte_eq_look, pte_eq_look, hs.look_none (lt_vpns hup) (by omega) (hs.notMem_top hup),
        hs'.look_none (lt_vpns hup) (by omega) (hs.notMem_top hup)]
      rfl

theorem exists_booted : ∃ s₀ i, userinit (fun _ => 0) bigSys = .ok ((), s₀) ∧ Inv bigPool 0 s₀ ∧
    (s₀.proc i).state ≠ .unused ∧ (s₀.proc i).sz = pgsize ∧ s₀.mem.Enough 6 := by
  obtain ⟨_, s₀, hinit, hinv, ⟨i, -, hi, -, hsz⟩, henough⟩ :=
    (wp_userinit (E := fun _ => False) fresh_bigSys fun _ => 0).returns
  refine ⟨s₀, i, hinit, hinv, by simp [hi], hsz, henough _ ⟨rfl, ?_⟩⟩
  show 6 + 7 ≤ (List.range' 65 (2 ^ 24)).length
  rw [List.length_range']
  norm_num

end

end Xv6.Vm
