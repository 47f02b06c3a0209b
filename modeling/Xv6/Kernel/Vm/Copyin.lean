import Xv6.Lib.Bytes

/-! `copyin` and `copyout`, over what `walkaddr` finds for the page of an address. -/
namespace Xv6
open Lib

def pgsize : ℕ := 4096

def pgRoundDown (a : ℕ) : ℕ := a / pgsize * pgsize

/-- The loop of `copyin`: the flag is whether it returns 0, the bytes are what is stored
at `dst + d` by then. Every turn copies a byte, so `fuel` need not exceed `len`. -/
def copyinLoop (walkaddr : ℕ → Option Bytes) : ℕ → Bytes → ℕ → ℕ → ℕ → Bool × Bytes
  | 0, dst, _, _, len => (decide (len = 0), dst)
  | fuel + 1, dst, d, srcva, len =>
    if len = 0 then (true, dst)
    else
      let va0 := pgRoundDown srcva
      match walkaddr va0 with
      | none => (false, dst)
      | some page =>
        let n := min (pgsize - (srcva - va0)) len
        copyinLoop walkaddr fuel (dst.blit d n fun k => page (srcva - va0 + k)) (d + n)
          (va0 + pgsize) (len - n)

def copyin (walkaddr : ℕ → Option Bytes) (dst : Bytes) (d srcva len : ℕ) : Bool × Bytes :=
  copyinLoop walkaddr len dst d srcva len

/-- What a process finds at an address. -/
def userByte (walkaddr : ℕ → Option Bytes) (va : ℕ) : Option UInt8 :=
  (walkaddr (pgRoundDown va)).map fun page => page (va % pgsize)

section
variable {walkaddr : ℕ → Option Bytes}

theorem sub_pgRoundDown (a : ℕ) : a - pgRoundDown a = a % pgsize := by
  have := Nat.div_add_mod' a pgsize
  unfold pgRoundDown
  omega

theorem page_add {a k : ℕ} (hk : k < pgsize - a % pgsize) :
    pgRoundDown (a + k) = pgRoundDown a ∧ (a + k) % pgsize = a % pgsize + k := by
  have hdiv : (a + k) / pgsize = a / pgsize := by
    have := Nat.div_add_mod' a pgsize
    refine Nat.div_eq_of_lt_le (by omega) ?_
    rw [Nat.succ_mul]
    omega
  constructor
  · unfold pgRoundDown
    rw [hdiv]
  · have h₁ := Nat.div_add_mod' a pgsize
    have h₂ := Nat.div_add_mod' (a + k) pgsize
    rw [hdiv] at h₂
    omega

theorem userByte_of_page {page : Bytes} {a k : ℕ} (h : walkaddr (pgRoundDown a) = some page)
    (hk : k < pgsize - a % pgsize) : userByte walkaddr (a + k) = some (page (a % pgsize + k)) := by
  obtain ⟨hround, hmod⟩ := page_add hk
  unfold userByte
  rw [hround, h, hmod]
  rfl

theorem pgRoundDown_add_pgsize (a : ℕ) : pgRoundDown a + pgsize = a + (pgsize - a % pgsize) := by
  have h₁ := sub_pgRoundDown a
  have h₂ : a % pgsize < pgsize := Nat.mod_lt _ (by decide)
  have h₃ : pgRoundDown a ≤ a := Nat.div_mul_le_self a pgsize
  omega

/-- `copyin` succeeds where every byte of the source can be found, and then copies them; nothing
else is written. -/
theorem copyinLoop_spec {fuel len : ℕ} (hfuel : len ≤ fuel) (dst : Bytes) (d srcva : ℕ) :
    (∀ x, x < d ∨ d + len ≤ x → (copyinLoop walkaddr fuel dst d srcva len).2 x = dst x) ∧
    ((copyinLoop walkaddr fuel dst d srcva len).1 = true ↔ ∀ k < len, (userByte walkaddr (srcva + k)).isSome) ∧
    ((copyinLoop walkaddr fuel dst d srcva len).1 = true → ∀ k < len,
      userByte walkaddr (srcva + k) = some ((copyinLoop walkaddr fuel dst d srcva len).2 (d + k))) := by
  induction fuel generalizing dst d srcva len with
  | zero =>
    obtain rfl : len = 0 := by omega
    simp [copyinLoop]
  | succ fuel ih =>
    rw [copyinLoop]
    by_cases h0 : len = 0
    · subst h0
      simp
    · rw [if_neg h0]
      dsimp only
      cases hw : walkaddr (pgRoundDown srcva) with
      | none =>
        have hnone : userByte walkaddr srcva = none := by
          unfold userByte
          rw [hw]
          rfl
        refine ⟨fun _ _ => rfl, ⟨fun hf => by simp at hf, fun hall => ?_⟩, fun hf => by simp at hf⟩
        have := hall 0 (by omega)
        rw [Nat.add_zero, hnone] at this
        simp at this
      | some page =>
        dsimp only
        rw [sub_pgRoundDown, pgRoundDown_add_pgsize]
        have hmod : srcva % pgsize < pgsize := Nat.mod_lt _ (by decide)
        set p := pgsize - srcva % pgsize with hp
        set n := min p len with hn
        set dst' := dst.blit d n fun k => page (srcva % pgsize + k) with hdst'
        have hpage : ∀ k < n, userByte walkaddr (srcva + k) = some (page (srcva % pgsize + k)) :=
          fun k hk => userByte_of_page hw (by omega)
        -- the bytes of this page, then those of the pages after it
        obtain ⟨hframe, hok, hcopy⟩ := @ih (len - n) (by omega) dst' (d + n) (srcva + p)
        have hnp : 0 < len - n → n = p := by omega
        have hrest : ∀ k, n ≤ k → k < len → srcva + k = srcva + p + (k - n) := fun k hk hk' => by
          have := hnp (by omega)
          omega
        refine ⟨fun x hx => ?_, ⟨fun h k hk => ?_, fun hall => ?_⟩, fun h k hk => ?_⟩
        · rw [hframe x (by omega), hdst', Bytes.blit, if_neg (by omega)]
        · by_cases hkn : k < n
          · rw [hpage k hkn]
            rfl
          · rw [hrest k (by omega) hk]
            exact hok.mp h (k - n) (by omega)
        · refine hok.mpr fun k hk => ?_
          have := hall (n + k) (by omega)
          rwa [hrest (n + k) (by omega) (by omega), Nat.add_sub_cancel_left] at this
        · by_cases hkn : k < n
          · rw [hframe (d + k) (by omega), hpage k hkn, hdst', Bytes.blit, if_pos (by omega)]
            rw [Nat.add_sub_cancel_left]
          · rw [hrest k (by omega) hk, hcopy h (k - n) (by omega), show d + n + (k - n) = d + k by omega]

end

/-- The loop of `copyout` into the memory of a process, of which `mapped` says where `walkaddr`
finds a page. -/
def copyoutLoop (mapped : ℕ → Bool) (src : Bytes) : ℕ → Bytes → ℕ → ℕ → ℕ → Bool × Bytes
  | 0, mem, _, _, len => (decide (len = 0), mem)
  | fuel + 1, mem, k, dstva, len =>
    if len = 0 then (true, mem)
    else
      let va0 := pgRoundDown dstva
      if mapped va0 then
        let n := min (pgsize - (dstva - va0)) len
        copyoutLoop mapped src fuel (mem.blit dstva n fun j => src (k + j)) (k + n) (va0 + pgsize) (len - n)
      else (false, mem)

def copyout (mapped : ℕ → Bool) (mem : Bytes) (dstva : ℕ) (src : Bytes) (len : ℕ) : Bool × Bytes :=
  copyoutLoop mapped src len mem 0 dstva len

section
variable {mapped : ℕ → Bool} {src mem : Bytes}

theorem copyoutLoop_spec {fuel len : ℕ} (mapped : ℕ → Bool) (src : Bytes) (hfuel : len ≤ fuel) (mem : Bytes) (k dstva : ℕ) :
    (∀ x, x < dstva ∨ dstva + len ≤ x → (copyoutLoop mapped src fuel mem k dstva len).2 x = mem x) ∧
    ((copyoutLoop mapped src fuel mem k dstva len).1 = true ↔ ∀ j < len, mapped (pgRoundDown (dstva + j)) = true) ∧
    ((copyoutLoop mapped src fuel mem k dstva len).1 = true →
      (copyoutLoop mapped src fuel mem k dstva len).2 = mem.blit dstva len fun j => src (k + j)) := by
  induction fuel generalizing mem k dstva len with
  | zero =>
    obtain rfl : len = 0 := by omega
    simp [copyoutLoop, Bytes.blit_zero]
  | succ fuel ih =>
    rw [copyoutLoop]
    by_cases h0 : len = 0
    · subst h0
      simp [Bytes.blit_zero]
    · rw [if_neg h0]
      dsimp only
      by_cases hw : mapped (pgRoundDown dstva) = true
      · rw [if_pos hw, sub_pgRoundDown, pgRoundDown_add_pgsize]
        have hmod : dstva % pgsize < pgsize := Nat.mod_lt _ (by decide)
        set p := pgsize - dstva % pgsize with hp
        set n := min p len with hn
        obtain ⟨hframe, hok, hcopy⟩ := @ih (len - n) (by omega) (mem.blit dstva n fun j => src (k + j)) (k + n) (dstva + p)
        have hpage : ∀ j < n, mapped (pgRoundDown (dstva + j)) = true := by
          intro j hj
          rwa [(page_add (by omega)).1]
        have hrest : ∀ j, n ≤ j → j < len → dstva + j = dstva + p + (j - n) := by
          intro j hj hj'
          omega
        refine ⟨fun x hx => ?_, ⟨fun h j hj => ?_, fun hall => hok.mpr fun j hj => ?_⟩, fun h => ?_⟩
        · rw [hframe x (by omega), Bytes.blit, if_neg (by omega)]
        · by_cases hjn : j < n
          · exact hpage j hjn
          · rw [hrest j (by omega) hj]
            exact hok.mp h (j - n) (by omega)
        · have := hall (n + j) (by omega)
          rwa [hrest (n + j) (by omega) (by omega), Nat.add_sub_cancel_left] at this
        · rw [hcopy h]
          by_cases hlast : len = n
          · rw [hlast, Nat.sub_self, Bytes.blit_zero]
          · rw [show p = n by omega, Bytes.blit_blit (fun _ _ => rfl) fun j _ => by rw [Nat.add_assoc],
              Nat.add_sub_cancel' (by omega)]
      · rw [if_neg hw]
        refine ⟨fun _ _ => rfl, ⟨fun hf => by simp at hf, fun hall => absurd (hall 0 (by omega)) hw⟩, fun hf => by simp at hf⟩

theorem copyout_one (va : ℕ) (ch : UInt8) : copyout mapped mem va (fun _ => ch) 1 =
    (mapped (pgRoundDown va), if mapped (pgRoundDown va) then mem.blit va 1 fun _ => ch else mem) := by
  obtain ⟨-, hok, hcopy⟩ := copyoutLoop_spec mapped (fun _ => ch) (le_refl 1) mem 0 va
  by_cases hm : mapped (pgRoundDown va) = true
  · have htrue := hok.mpr fun j hj => by rwa [Nat.lt_one_iff.mp hj]
    rw [if_pos hm, hm]
    exact Prod.ext htrue (hcopy htrue)
  · unfold copyout copyoutLoop
    simp [hm]

end

/-- Of the `n` bytes that a process has asked for at `addr`, the first `r` of `src` have been
delivered. More may have been stored after them only where something is not mapped. -/
structure Received (mapped : ℕ → Bool) (addr n : ℕ) (src mem : Bytes) (r : ℕ) (mem' : Bytes) : Prop where
  le : r ≤ n
  bytes : ∀ k < r, mem' (addr + k) = src k
  frame : ∀ x, x < addr ∨ addr + n ≤ x → mem' x = mem x
  exact : (∀ k < n, mapped (pgRoundDown (addr + k)) = true) → mem' = mem.blit addr r src

theorem received_blit {n r : ℕ} (mapped : ℕ → Bool) (addr : ℕ) (src mem : Bytes) (h : r ≤ n) :
    Received mapped addr n src mem r (mem.blit addr r src) where
  le := h
  bytes k hk := by rw [Bytes.blit, if_pos (by omega), Nat.add_sub_cancel_left]
  frame x hx := by rw [Bytes.blit, if_neg (by omega)]
  exact _ := rfl

theorem received_zero {mapped : ℕ → Bool} {addr n : ℕ} {src mem : Bytes} : Received mapped addr n src mem 0 mem := by
  have := received_blit mapped addr src mem (Nat.zero_le n)
  rwa [Bytes.blit_zero] at this

theorem Received.mono {mapped : ℕ → Bool} {addr n n' r : ℕ} {src mem mem' : Bytes} (h : Received mapped addr n src mem r mem')
    (hn : n ≤ n') : Received mapped addr n' src mem r mem' where
  le := h.le.trans hn
  bytes := h.bytes
  frame x hx := h.frame x (by omega)
  exact hm := h.exact fun k hk => hm k (by omega)

theorem Received.append {mapped : ℕ → Bool} {addr m n r : ℕ} {piece mem mem' : Bytes} (src : Bytes) (hpiece : ∀ k < m, piece k = src k)
    (h : Received mapped (addr + m) n (fun k => src (m + k)) (mem.blit addr m piece) r mem') :
    Received mapped addr (m + n) src mem (m + r) mem' where
  le := Nat.add_le_add_left h.le m
  bytes k hk := by
    by_cases hkm : k < m
    · rw [h.frame _ (.inl (by omega)), Bytes.blit, if_pos (by omega), Nat.add_sub_cancel_left, hpiece k hkm]
    · have := h.bytes (k - m) (by omega)
      rwa [show addr + m + (k - m) = addr + k by omega, show m + (k - m) = k by omega] at this
  frame x hx := by rw [h.frame x (by omega), Bytes.blit, if_neg (by omega)]
  exact hm := by
    rw [h.exact fun k hk => ?_, Bytes.blit_blit hpiece fun _ _ => rfl]
    rw [Nat.add_assoc]
    exact hm (m + k) (by omega)

end Xv6
