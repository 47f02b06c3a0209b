import Xv6.Kernel.Vm.Pagetable

/-! `copyout`, `copyin` and `copyinstr` of `vm.c` over a page table: page by page they do what a loop
over the bytes does. -/
namespace Xv6.Vm
open Lib Function

/-- `walkaddr` with its call of `walk`. -/
def walkaddrWalk (t : Pagetable) (va : ℕ) : K (Option Frame) := do
  if maxva ≤ va then return none
  let (t, found) ← walk t va false
  if !found then return none
  match t.pte va with
  | none => return none
  | some pte => return if pte.perm.u then some pte.pa else none

/-- The loop of `copyin`; the bytes are what is stored at `dst + d` by then. -/
def copyinLoop (t : Pagetable) (m : Mem) : ℕ → Bytes → ℕ → ℕ → ℕ → Bool × Bytes
  | 0, dst, _, _, len => (decide (len = 0), dst)
  | fuel + 1, dst, d, srcva, len =>
    if len = 0 then (true, dst)
    else
      let va0 := pgRoundDown srcva
      match walkaddr t va0 with
      | none => (false, dst)
      | some pa0 =>
        let n := min (pgsize - (srcva - va0)) len
        copyinLoop t m fuel (dst.blit d n fun k => m.data pa0 (srcva - va0 + k)) (d + n)
          ((va0 + pgsize) % 2 ^ 64) (len - n)

def copyin (t : Pagetable) (m : Mem) (dst : Bytes) (srcva len : ℕ) : Bool × Bytes :=
  copyinLoop t m len dst 0 srcva len

/-- The inner loop of `copyinstr` over `n` bytes at `p`: `got_null`, and the bytes at `dst`, where `d` is
how far `dst` has come. -/
def copyinstrPage (page : Bytes) : ℕ → ℕ → ℕ → Bytes → Bool × Bytes
  | 0, _, _, dst => (false, dst)
  | n + 1, p, d, dst =>
    if page p = 0 then (true, update dst d 0)
    else copyinstrPage page n (p + 1) (d + 1) (update dst d (page p))

/-- The outer loop. A turn without a NUL takes `n` from `max`. -/
def copyinstrLoop (t : Pagetable) (m : Mem) : ℕ → Bytes → ℕ → ℕ → ℕ → Bool × Bytes
  | 0, dst, _, _, _ => (false, dst)
  | fuel + 1, dst, d, srcva, max =>
    if max = 0 then (false, dst)
    else
      let va0 := pgRoundDown srcva
      match walkaddr t va0 with
      | none => (false, dst)
      | some pa0 =>
        let n := min (pgsize - (srcva - va0)) max
        let (gotNull, dst) := copyinstrPage (m.data pa0) n (srcva - va0) d dst
        if gotNull then (true, dst)
        else copyinstrLoop t m fuel dst (d + n) ((va0 + pgsize) % 2 ^ 64) (max - n)

def copyinstr (t : Pagetable) (m : Mem) (dst : Bytes) (srcva max : ℕ) : Bool × Bytes :=
  copyinstrLoop t m max dst 0 srcva max

/-- The address is below `MAXVA`, on a page that is mapped with `PTE_V` and `PTE_U`. -/
def Accessible (t : Pagetable) (va : ℕ) : Prop := va < maxva ∧ ∃ e, t.pte va = some e ∧ e.perm.u = true

/-- What user code finds at an address. -/
def byteAt (t : Pagetable) (m : Mem) (va : ℕ) : Option UInt8 :=
  (walkaddr t (pgRoundDown va)).map fun pa => m.data pa (va % pgsize)

/-- User code stores a byte. -/
def Mem.store (t : Pagetable) (m : Mem) (va : ℕ) (b : UInt8) : Mem :=
  match walkaddr t (pgRoundDown va) with
  | none => m
  | some pa => m.write pa (update (m.data pa) (va % pgsize) b)

/-- The bytes `src[0 .. n)` are stored one by one. -/
def Mem.storeBytes (t : Pagetable) (m : Mem) (va : ℕ) (src : Bytes) : ℕ → Mem
  | 0 => m
  | n + 1 => (m.storeBytes t va src n).store t (va + n) (src n)

section
variable {t : Pagetable} {m : Mem}

theorem pte_pgRoundDown (t : Pagetable) (va : ℕ) : t.pte (pgRoundDown va) = t.pte va := by
  have hpx : ∀ k, px k (pgRoundDown va) = px k va := by
    intro k
    unfold px pgRoundDown
    simp only [Nat.mul_div_cancel (va / pgsize) (show 0 < pgsize by decide)]
  unfold Node.pte
  rw [hpx 2, hpx 1, hpx 0]

theorem pgRoundDown_lt_maxva {va : ℕ} : pgRoundDown va < maxva ↔ va < maxva := by
  unfold pgRoundDown maxva pgsize
  omega

theorem lt_maxva_of_walkaddr {va : ℕ} {pa : Frame} (h : walkaddr t va = some pa) : va < maxva := by
  unfold walkaddr at h
  split_ifs at h with hmax
  omega

theorem next_page_mod {va : ℕ} {pa : Frame} (h : walkaddr t va = some pa) : (va + pgsize) % 2 ^ 64 = va + pgsize := by
  have := lt_maxva_of_walkaddr h
  unfold maxva at this
  unfold pgsize
  omega

theorem isSome_byteAt (va : ℕ) : (byteAt t m va).isSome = true ↔ Accessible t va := by
  unfold byteAt Accessible walkaddr
  rw [pte_pgRoundDown, Option.isSome_map]
  by_cases hmax : maxva ≤ pgRoundDown va
  · have : ¬ va < maxva := by
      rw [← pgRoundDown_lt_maxva]
      omega
    simp [hmax, this]
  · have : va < maxva := by
      rw [← pgRoundDown_lt_maxva]
      omega
    rw [if_neg hmax]
    cases hp : t.pte va with
    | none => simp
    | some e => cases hu : e.perm.u <;> simp [this, hu]

theorem Node.set_of_entry {α : Type} {n : Node α} {i : Fin 512} {e : Option α} (h : n.entry i = e) : n.set i e = n := by
  unfold Node.set
  rw [← h, update_eq_self]

theorem walkaddrWalk_eq (t : Pagetable) (va : ℕ) : walkaddrWalk t va = pure (walkaddr t va) := by
  funext m
  unfold walkaddrWalk walkaddr walk Node.child
  by_cases hmax : maxva ≤ va
  · simp [hmax]
  · rw [if_neg hmax, if_neg hmax, if_neg hmax]
    cases h₂ : t.entry (px 2 va) with
    | none => simp [Node.pte, h₂]
    | some t₁ =>
      cases h₁ : t₁.entry (px 1 va) with
      | none => simp [Node.pte, h₂, h₁]
      | some t₀ =>
        simp only [h₁, Bool.not_true, Bool.false_eq_true, if_false, pure_bind, Node.set_of_entry h₁, Node.set_of_entry h₂]
        cases t.pte va with
        | none | some pte => rfl

theorem byteAt_page {va k : ℕ} {pa : Frame} (h : walkaddr t (pgRoundDown va) = some pa) (hk : k < pgsize - va % pgsize) :
    byteAt t m (va + k) = some (m.data pa (va % pgsize + k)) := by
  obtain ⟨hround, hmod⟩ := page_add hk
  unfold byteAt
  rw [hround, h, hmod]
  rfl

theorem accessible_page {va k : ℕ} {pa : Frame} (h : walkaddr t (pgRoundDown va) = some pa)
    (hk : k < pgsize - va % pgsize) : Accessible t (va + k) := by
  rw [← isSome_byteAt (m := ⟨[], [], fun _ _ => 0⟩), byteAt_page h hk]
  rfl

theorem not_accessible {va : ℕ} (h : walkaddr t (pgRoundDown va) = none) : ¬ Accessible t va := by
  rw [← isSome_byteAt (m := ⟨[], [], fun _ _ => 0⟩)]
  unfold byteAt
  rw [h]
  simp

theorem Mem.storeBytes_add (t : Pagetable) (m : Mem) (va : ℕ) (src : Bytes) (n k : ℕ) :
    m.storeBytes t va src (n + k) = (m.storeBytes t va src n).storeBytes t (va + n) (fun j => src (n + j)) k := by
  induction k with
  | zero => rfl
  | succ k ih =>
    rw [← Nat.add_assoc, storeBytes, ih, storeBytes, Nat.add_assoc]

theorem Mem.write_self (m : Mem) (f : Frame) : m.write f (m.data f) = m := by
  unfold Mem.write
  rw [update_eq_self]

theorem update_blit (b : Bytes) (off n : ℕ) (src : Bytes) :
    update (b.blit off n src) (off + n) (src n) = b.blit off (n + 1) src := by
  funext k
  unfold Bytes.blit
  by_cases hk : k = off + n
  · rw [hk, update_self, if_pos (by omega), Nat.add_sub_cancel_left]
  · rw [update_of_ne hk]
    by_cases hin : off ≤ k ∧ k < off + n
    · rw [if_pos hin, if_pos (by omega)]
    · rw [if_neg hin, if_neg (by omega)]

theorem Mem.storeBytes_page {va n : ℕ} {pa : Frame} (h : walkaddr t (pgRoundDown va) = some pa)
    (hn : n ≤ pgsize - va % pgsize) (m : Mem) (src : Bytes) :
    m.storeBytes t va src n = m.write pa ((m.data pa).blit (va % pgsize) n src) := by
  induction n with
  | zero => rw [Bytes.blit_zero, m.write_self, storeBytes]
  | succ n ih =>
    obtain ⟨hround, hmod⟩ := page_add (show n < pgsize - va % pgsize by omega)
    rw [storeBytes, ih (by omega), store, hround, h, hmod]
    simp only [Mem.write, update_self, update_idem]
    rw [update_blit]

/-- The first `n` of `len` bytes are accessible, and the next one is not. -/
structure Reach (t : Pagetable) (va len n : ℕ) : Prop where
  le : n ≤ len
  accessible : ∀ i < n, Accessible t (va + i)
  stop : n < len → ¬ Accessible t (va + n)

theorem Reach.nil (t : Pagetable) (va : ℕ) : Reach t va 0 0 := ⟨le_rfl, fun _ h => absurd h (Nat.not_lt_zero _), fun h => absurd h (lt_irrefl 0)⟩

theorem Reach.stuck {va len : ℕ} (h : walkaddr t (pgRoundDown va) = none) : Reach t va len 0 :=
  ⟨Nat.zero_le _, fun _ h => absurd h (Nat.not_lt_zero _), fun _ => not_accessible h⟩

theorem Reach.page {va len r : ℕ} {pa : Frame} (h : walkaddr t (pgRoundDown va) = some pa)
    (hr : Reach t (pgRoundDown va + pgsize) (len - min (pgsize - va % pgsize) len) r) :
    Reach t va len (min (pgsize - va % pgsize) len + r) := by
  obtain ⟨hle, hacc, hstop⟩ := hr
  rw [pgRoundDown_add_pgsize] at hacc hstop
  set p := pgsize - va % pgsize with hp
  refine ⟨by omega, fun i hi => ?_, fun hlt => ?_⟩
  · by_cases hin : i < min p len
    · exact accessible_page h (by omega)
    · rw [show va + i = va + p + (i - min p len) by omega]
      exact hacc _ (by omega)
  · rw [show va + (min p len + r) = va + p + r by omega]
    exact hstop (by omega)

theorem Reach.rest {va len r : ℕ} (hr : Reach t (pgRoundDown va + pgsize) (len - min (pgsize - va % pgsize) len) r) :
    r = 0 ∨ va + min (pgsize - va % pgsize) len = pgRoundDown va + pgsize := by
  have hle := hr.le
  rw [pgRoundDown_add_pgsize]
  omega

theorem decide_rest {n len r : ℕ} (h : n ≤ len) : decide (r = len - n) = decide (n + r = len) := by
  rw [decide_eq_decide]
  omega

theorem copyoutLoop_spec {fuel len : ℕ} (hfuel : len ≤ fuel) (va k : ℕ) (src : Bytes) (m : Mem) :
    ∃ n, Reach t va len n ∧
      copyoutLoop t src fuel va k len m = .ok (decide (n = len), m.storeBytes t va (fun i => src (k + i)) n) := by
  induction fuel generalizing va k len m with
  | zero =>
    obtain rfl : len = 0 := by omega
    exact ⟨0, .nil t va, rfl⟩
  | succ fuel ih =>
    rw [copyoutLoop]
    by_cases h0 : len = 0
    · subst h0
      exact ⟨0, .nil t va, rfl⟩
    · rw [if_neg h0]
      dsimp only
      cases hw : walkaddr t (pgRoundDown va) with
      | none =>
        refine ⟨0, .stuck hw, ?_⟩
        rw [decide_eq_false (Ne.symm h0)]
        rfl
      | some pa =>
        dsimp only
        rw [next_page_mod hw, sub_pgRoundDown]
        have hmod : va % pgsize < pgsize := Nat.mod_lt _ (by decide)
        set n := min (pgsize - va % pgsize) len with hn
        obtain ⟨r, hr, heq⟩ := @ih (len - n) (by omega) (pgRoundDown va + pgsize) (k + n)
          (m.write pa ((m.data pa).blit (va % pgsize) n fun j => src (k + j)))
        refine ⟨n + r, hr.page hw, ?_⟩
        show copyoutLoop t src fuel (pgRoundDown va + pgsize) (k + n) (len - n) _ = _
        rw [heq, decide_rest (min_le_right _ _), Mem.storeBytes_add, Mem.storeBytes_page hw (min_le_left _ _)]
        rcases hr.rest with rfl | hva
        · rfl
        · rw [hva]
          simp only [Nat.add_assoc]
          rfl

theorem copyinLoop_spec {fuel len : ℕ} (hfuel : len ≤ fuel) (dst : Bytes) (d va : ℕ) :
    ∃ n, Reach t va len n ∧
      copyinLoop t m fuel dst d va len = (decide (n = len), dst.blit d n fun i => (byteAt t m (va + i)).getD 0) := by
  induction fuel generalizing dst d va len with
  | zero =>
    obtain rfl : len = 0 := by omega
    exact ⟨0, .nil t va, by rw [copyinLoop, Bytes.blit_zero]⟩
  | succ fuel ih =>
    rw [copyinLoop]
    by_cases h0 : len = 0
    · subst h0
      exact ⟨0, .nil t va, by rw [if_pos rfl, Bytes.blit_zero]; rfl⟩
    · rw [if_neg h0]
      dsimp only
      cases hw : walkaddr t (pgRoundDown va) with
      | none =>
        refine ⟨0, .stuck hw, ?_⟩
        rw [decide_eq_false (Ne.symm h0), Bytes.blit_zero]
      | some pa =>
        dsimp only
        rw [next_page_mod hw, sub_pgRoundDown]
        have hmod : va % pgsize < pgsize := Nat.mod_lt _ (by decide)
        set n := min (pgsize - va % pgsize) len with hn
        obtain ⟨r, hr, heq⟩ := @ih (len - n) (by omega)
          (dst.blit d n fun k => m.data pa (va % pgsize + k)) (d + n) (pgRoundDown va + pgsize)
        refine ⟨n + r, hr.page hw, ?_⟩
        rw [heq, decide_rest (min_le_right _ _)]
        congr 1
        refine Bytes.blit_blit (fun k hk => ?_) (fun k hk => ?_) dst d
        · rw [byteAt_page hw (by omega)]
          rfl
        · rcases hr.rest with rfl | hva
          · exact absurd hk (Nat.not_lt_zero k)
          · rw [← hva, Nat.add_assoc]

/-- The string that `copyinstr` has fetched: `k` bytes before a NUL, which `got` says is there. -/
structure Fetched (t : Pagetable) (m : Mem) (va max k : ℕ) (got : Bool) : Prop where
  le : k ≤ max
  bytes : ∀ i < k, ∃ b, byteAt t m (va + i) = some b ∧ b ≠ 0
  found : got = true → k < max ∧ byteAt t m (va + k) = some 0
  stop : got = false → k = max ∨ ¬ Accessible t (va + k)

theorem update_eq_blit (b : Bytes) (d : ℕ) (c : UInt8) : update b d c = b.blit d 1 fun _ => c := by
  funext k
  unfold Bytes.blit
  by_cases hk : k = d
  · rw [hk, update_self, if_pos (by omega)]
  · rw [update_of_ne hk, if_neg (by omega)]

theorem copyinstrPage_spec (page : Bytes) (n p d : ℕ) (dst : Bytes) :
    ∃ k got, k ≤ n ∧ (∀ i < k, page (p + i) ≠ 0) ∧ (got = true → k < n ∧ page (p + k) = 0) ∧ (got = false → k = n) ∧
      copyinstrPage page n p d dst = (got, dst.blit d (k + got.toNat) fun i => page (p + i)) := by
  induction n generalizing p d dst with
  | zero => exact ⟨0, false, le_rfl, by omega, by simp, fun _ => rfl, by
      rw [copyinstrPage, Bool.toNat_false, Nat.add_zero, Bytes.blit_zero]⟩
  | succ n ih =>
    rw [copyinstrPage]
    by_cases h0 : page p = 0
    · refine ⟨0, true, Nat.zero_le _, by omega, fun _ => ⟨Nat.succ_pos n, h0⟩, by simp, ?_⟩
      rw [if_pos h0, update_eq_blit]
      rw [Bool.toNat_true, Nat.zero_add, Bytes.blit_congr (fun i hi => ?_) dst d]
      rw [show i = 0 by omega, Nat.add_zero, h0]
    · rw [if_neg h0]
      obtain ⟨k, got, hk, hne, hfound, hall, heq⟩ := ih (p + 1) (d + 1) (update dst d (page p))
      refine ⟨k + 1, got, by omega, fun i hi => ?_, fun hg => ?_, fun hg => by rw [hall hg], ?_⟩
      · cases i with
        | zero => exact h0
        | succ i =>
          have := hne i (by omega)
          rwa [Nat.add_assoc, Nat.add_comm 1 i] at this
      · obtain ⟨hlt, hz⟩ := hfound hg
        rw [Nat.add_assoc, Nat.add_comm 1 k] at hz
        exact ⟨by omega, hz⟩
      · rw [heq, update_eq_blit, Nat.add_right_comm, Nat.add_comm (k + got.toNat) 1]
        congr 1
        refine Bytes.blit_blit (fun i hi => ?_) (fun i _ => ?_) dst d
        · rw [show i = 0 by omega, Nat.add_zero]
        · rw [Nat.add_assoc]

/-- `copyinstr` fetches the bytes up to the first NUL, or up to the first byte that is not there. -/
theorem copyinstrLoop_spec {fuel max : ℕ} (hfuel : max ≤ fuel) (dst : Bytes) (d va : ℕ) :
    ∃ k got, Fetched t m va max k got ∧ copyinstrLoop t m fuel dst d va max =
      (got, dst.blit d (k + got.toNat) fun i => (byteAt t m (va + i)).getD 0) := by
  have hnil : ∀ {va : ℕ}, Fetched t m va 0 0 false := ⟨le_rfl, by omega, by simp, fun _ => .inl rfl⟩
  have hnone : ∀ (dst : Bytes) (d : ℕ) (src : Bytes), dst.blit d (0 + false.toNat) src = dst := fun dst d src => by
    rw [Bool.toNat_false, Nat.add_zero, Bytes.blit_zero]
  induction fuel generalizing dst d va max with
  | zero =>
    obtain rfl : max = 0 := by omega
    exact ⟨0, false, hnil, by rw [copyinstrLoop, hnone]⟩
  | succ fuel ih =>
    rw [copyinstrLoop]
    by_cases h0 : max = 0
    · subst h0
      exact ⟨0, false, hnil, by rw [if_pos rfl, hnone]⟩
    · rw [if_neg h0]
      dsimp only
      cases hw : walkaddr t (pgRoundDown va) with
      | none =>
        exact ⟨0, false, ⟨Nat.zero_le _, by omega, by simp, fun _ => .inr (not_accessible hw)⟩, by rw [hnone]⟩
      | some pa =>
        dsimp only
        rw [next_page_mod hw, sub_pgRoundDown]
        have hmod : va % pgsize < pgsize := Nat.mod_lt _ (by decide)
        set n := min (pgsize - va % pgsize) max with hn
        obtain ⟨k, got, hk, hne, hfound, hall, heq⟩ := copyinstrPage_spec (m.data pa) n (va % pgsize) d dst
        have hpage : ∀ i < n, byteAt t m (va + i) = some (m.data pa (va % pgsize + i)) := fun i hi =>
          byteAt_page hw (by omega)
        rw [heq]
        dsimp only
        cases got with
        | true =>
          obtain ⟨hlt, hz⟩ := hfound rfl
          refine ⟨k, true, ⟨by omega, fun i hi => ⟨_, hpage i (by omega), hne i hi⟩, fun _ => ⟨by omega, ?_⟩, by simp⟩, ?_⟩
          · rw [hpage k hlt, hz]
          · have hsame : dst.blit d (k + 1) (fun i => m.data pa (va % pgsize + i)) =
                dst.blit d (k + 1) fun i => (byteAt t m (va + i)).getD 0 :=
              Bytes.blit_congr (fun i hi => by rw [hpage i (by omega)]; rfl) dst d
            rw [if_pos rfl, Bool.toNat_true, hsame]
        | false =>
          have hkn := hall rfl
          rw [if_neg Bool.false_ne_true, Bool.toNat_false, Nat.add_zero, ← hkn]
          rw [← hkn] at hpage
          obtain ⟨k', got', hf, heq'⟩ := @ih (max - k) (by omega)
            (dst.blit d k fun i => m.data pa (va % pgsize + i)) (d + k) (pgRoundDown va + pgsize)
          have hle := hf.le
          -- if the page is not the last one, the next byte is at the start of the next page
          have hva : max - k ≠ 0 → va + k = pgRoundDown va + pgsize := fun h => by
            rw [pgRoundDown_add_pgsize]
            omega
          refine ⟨k + k', got', ⟨by omega, fun i hi => ?_, fun hg => ?_, fun hg => ?_⟩, ?_⟩
          · by_cases hik : i < k
            · exact ⟨_, hpage i hik, hne i hik⟩
            · obtain ⟨b, hb, hb0⟩ := hf.bytes (i - k) (by omega)
              rw [← hva (by omega), show va + k + (i - k) = va + i by omega] at hb
              exact ⟨b, hb, hb0⟩
          · obtain ⟨hlt, hz⟩ := hf.found hg
            rw [← hva (by omega), Nat.add_assoc] at hz
            exact ⟨by omega, hz⟩
          · rcases hf.stop hg with h | h
            · exact .inl (by omega)
            · by_cases hlast : max - k = 0
              · exact .inl (by omega)
              · rw [← hva hlast, Nat.add_assoc] at h
                exact .inr h
          · show copyinstrLoop t m fuel _ (d + k) (pgRoundDown va + pgsize) (max - k) = _
            rw [heq', Nat.add_assoc]
            congr 1
            refine Bytes.blit_blit (fun i hi => ?_) (fun i hi => ?_) dst d
            · rw [hpage i hi]
              rfl
            · by_cases hlast : max - k = 0
              · have hgot : got' = false := by
                  cases hg : got' with
                  | false => rfl
                  | true =>
                    have := (hf.found hg).1
                    omega
                rw [hgot, Bool.toNat_false] at hi
                omega
              · rw [← hva hlast, Nat.add_assoc]

theorem Reach.not_lt {va len n n' : ℕ} (h : Reach t va len n) (h' : Reach t va len n') : ¬ n < n' := fun hlt =>
  h.stop (lt_of_lt_of_le hlt h'.le) (h'.accessible n hlt)

theorem Reach.unique {va len n n' : ℕ} (h : Reach t va len n) (h' : Reach t va len n') : n = n' := by
  have := h.not_lt h'
  have := h'.not_lt h
  omega

theorem Reach.eq_len_iff {va len n : ℕ} (h : Reach t va len n) : n = len ↔ ∀ i < len, Accessible t (va + i) := by
  constructor
  · rintro rfl
    exact h.accessible
  · intro hall
    by_contra hne
    have hlt := lt_of_le_of_ne h.le hne
    exact h.stop hlt (hall n hlt)

namespace Fetched
variable {va max k k' : ℕ} {got got' : Bool}

theorem accessible (h : Fetched t m va max k got) {i : ℕ} (hi : i < k) : Accessible t (va + i) := by
  obtain ⟨b, hb, -⟩ := h.bytes i hi
  rw [← isSome_byteAt (m := m), hb]
  rfl

theorem not_lt (h : Fetched t m va max k got) (h' : Fetched t m va max k' got') : ¬ k < k' := by
  intro hlt
  obtain ⟨b, hb, hb0⟩ := h'.bytes k hlt
  have hle := h'.le
  cases got with
  | true =>
    rw [(h.found rfl).2] at hb
    exact hb0 (Option.some.inj hb).symm
  | false =>
    rcases h.stop rfl with hk | hk
    · omega
    · exact hk (h'.accessible hlt)

theorem got_of_nul (h : Fetched t m va max k got) (hk : k < max) (h0 : byteAt t m (va + k) = some 0) : got = true := by
  cases got with
  | true => rfl
  | false =>
    rcases h.stop rfl with hs | hs
    · omega
    · rw [← isSome_byteAt (m := m), h0] at hs
      exact absurd rfl hs

theorem unique (h : Fetched t m va max k got) (h' : Fetched t m va max k' got') : k = k' ∧ got = got' := by
  have h₁ := h.not_lt h'
  have h₂ := h'.not_lt h
  obtain rfl : k = k' := by omega
  refine ⟨rfl, ?_⟩
  rw [Bool.eq_iff_iff]
  exact ⟨fun hg => h'.got_of_nul (h.found hg).1 (h.found hg).2, fun hg => h.got_of_nul (h'.found hg).1 (h'.found hg).2⟩

theorem got_iff (h : Fetched t m va max k got) : got = true ↔
    ∃ i < max, byteAt t m (va + i) = some 0 ∧ ∀ j < i, Accessible t (va + j) := by
  constructor
  · intro hg
    obtain ⟨hlt, h0⟩ := h.found hg
    exact ⟨k, hlt, h0, fun j hj => h.accessible hj⟩
  · rintro ⟨i, hi, h0, hacc⟩
    have hki : ¬ i < k := fun hlt => by
      obtain ⟨b, hb, hb0⟩ := h.bytes i hlt
      rw [h0] at hb
      exact hb0 (Option.some.inj hb).symm
    by_cases heq : k = i
    · subst heq
      exact h.got_of_nul hi h0
    · cases got with
      | true => rfl
      | false =>
        rcases h.stop rfl with hs | hs
        · omega
        · exact absurd (hacc k (by omega)) hs

end Fetched

/-- Page by page `copyout`, `copyin` and `copyinstr` do what a loop over the bytes does, with as many
turns as there are bytes at most, and `walk` does not panic. -/
theorem page_copies (t : Pagetable) (m : Mem) (va : ℕ) :
    (∀ a, walkaddrWalk t a m = .ok (walkaddr t a, m)) ∧
    (∀ len src, ∃ n, Reach t va len n ∧ (n = len ↔ ∀ i < len, Accessible t (va + i)) ∧
      ∀ fuel ≥ len, copyoutLoop t src fuel va 0 len m = .ok (decide (n = len), m.storeBytes t va src n)) ∧
    (∀ len dst, ∃ n, Reach t va len n ∧ (n = len ↔ ∀ i < len, Accessible t (va + i)) ∧
      ∀ fuel ≥ len, copyinLoop t m fuel dst 0 va len =
        (decide (n = len), dst.blit 0 n fun i => (byteAt t m (va + i)).getD 0)) ∧
    ∀ max dst, ∃ k got, Fetched t m va max k got ∧
      (got = true ↔ ∃ i < max, byteAt t m (va + i) = some 0 ∧ ∀ j < i, Accessible t (va + j)) ∧
      ∀ fuel ≥ max, copyinstrLoop t m fuel dst 0 va max =
        (got, dst.blit 0 (k + got.toNat) fun i => (byteAt t m (va + i)).getD 0) := by
  refine ⟨fun a => by rw [walkaddrWalk_eq]; rfl, fun len src => ?_, fun len dst => ?_, fun max dst => ?_⟩
  · obtain ⟨n, hn, -⟩ := copyoutLoop_spec (t := t) (le_refl len) va 0 src m
    refine ⟨n, hn, hn.eq_len_iff, fun fuel hfuel => ?_⟩
    obtain ⟨n', hn', heq⟩ := copyoutLoop_spec (t := t) hfuel va 0 src m
    rw [heq, hn'.unique hn]
    simp only [Nat.zero_add]
  · obtain ⟨n, hn, -⟩ := copyinLoop_spec (t := t) (m := m) (le_refl len) dst 0 va
    refine ⟨n, hn, hn.eq_len_iff, fun fuel hfuel => ?_⟩
    obtain ⟨n', hn', heq⟩ := copyinLoop_spec (t := t) (m := m) hfuel dst 0 va
    rw [heq, hn'.unique hn]
  · obtain ⟨k, got, hk, -⟩ := copyinstrLoop_spec (t := t) (m := m) (le_refl max) dst 0 va
    refine ⟨k, got, hk, hk.got_iff, fun fuel hfuel => ?_⟩
    obtain ⟨k', got', hk', heq⟩ := copyinstrLoop_spec (t := t) (m := m) hfuel dst 0 va
    obtain ⟨rfl, rfl⟩ := hk'.unique hk
    rw [heq]

end

end Xv6.Vm
