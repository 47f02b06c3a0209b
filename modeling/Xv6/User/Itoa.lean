import Mathlib.Data.List.GetD
import Xv6.User.Ulib

/-! `itoa` and `atoi`: the decimal text of an `int`. -/
namespace Xv6.User
open Lib Function

theorem tdiv_ten (a : ℤ) : a.tdiv 10 = if 0 ≤ a then a / 10 else -(-a / 10) := by
  split_ifs with h
  · exact Int.tdiv_eq_ediv_of_nonneg h
  · rw [← Int.tdiv_eq_ediv_of_nonneg (by omega), Int.neg_tdiv, neg_neg]

theorem toInt_div_ten (n : Int32) : (n / 10).toInt = n.toInt.tdiv 10 := by
  have hlo := n.le_toInt
  have hhi := n.toInt_lt
  have hdiv := tdiv_ten n.toInt
  split_ifs at hdiv
  all_goals rw [Int32.toInt_div, show (10 : Int32).toInt = 10 from rfl, Int.bmod_eq_of_le (by omega) (by omega)]

/-- `do { s[i++] = n % 10 + '0'; n /= 10; } while (n > 0)` -/
def itoaDigits (n : Int32) (s : Bytes) (i : ℕ) : Bytes × ℕ :=
  let s := update s i (n % 10 + 48).toInt8.toUInt8
  if 0 < n / 10 then itoaDigits (n / 10) s (i + 1) else (s, i + 1)
termination_by n.toInt.toNat
decreasing_by
  rename_i h
  rw [Int32.lt_iff_toInt_lt, toInt_div_ten, tdiv_ten] at h
  change 0 < _ at h
  rw [toInt_div_ten, tdiv_ten]
  split_ifs at h ⊢
  all_goals omega

/-- `j` bytes of `s[0 .. i)`, from either end, are swapped. -/
def itoaSwap (s : Bytes) (i : ℕ) : ℕ → Bytes
  | 0 => s
  | j + 1 =>
    let s := itoaSwap s i j
    update (update s j (s (i - j - 1))) (i - j - 1) (s j)

def itoa (n : Int32) (s : Bytes) : Bytes :=
  let (s, i) := itoaDigits (if n < 0 then -n else n) s 0
  let (s, i) := if n < 0 then (update s i 45, i + 1) else (s, i)
  itoaSwap (update s i 0) i (i / 2)

def atoiFrom (n : Int32) : List UInt8 → Int32
  | [] => n
  | c :: s => if 48 ≤ c ∧ c ≤ 57 then atoiFrom (n * 10 + c.toUInt32.toInt32 - 48) s else n

/-- `atoi` of a C string. -/
def atoi (s : List UInt8) : Int32 := atoiFrom 0 s

/-- The decimal text of a number. -/
def decimal (n : ℤ) : List UInt8 := (toString n).toList.map fun c => UInt8.ofNat c.toNat

/-- The string `l`, and a NUL behind it. -/
structure Stored (a : Bytes) (l : List UInt8) : Prop where
  bytes : ∀ k < l.length, a k = l.getD k 0
  nul : a l.length = 0

theorem digit_eq {d : ℕ} (h : d < 10) : UInt8.ofNat (Nat.digitChar d).toNat = UInt8.ofNat (48 + d) := by
  interval_cases d <;> rfl

theorem decimal_natCast (m : ℕ) :
    decimal m = (if m < 10 then [] else decimal (m / 10 : ℕ)) ++ [UInt8.ofNat (48 + m % 10)] := by
  have hdigits : ∀ k : ℕ, decimal k = (Nat.toDigits 10 k).map fun c => UInt8.ofNat c.toNat := fun k => by
    unfold decimal
    rw [show toString (k : ℤ) = String.ofList (Nat.toDigits 10 k) from rfl, String.toList_ofList]
  rw [hdigits, Nat.toDigits_eq_if (by decide)]
  split_ifs with hm
  · rw [List.map_singleton, digit_eq hm, Nat.mod_eq_of_lt hm]
    rfl
  · rw [List.map_append, List.map_singleton, digit_eq (Nat.mod_lt m (by decide)), hdigits]

theorem decimal_neg {m : ℕ} (h : 0 < m) : decimal (-m) = 45 :: decimal m := by
  obtain ⟨k, rfl⟩ := Nat.exists_eq_succ_of_ne_zero h.ne'
  unfold decimal
  rw [show toString (-((k + 1 : ℕ) : ℤ)) = "-" ++ toString ((k + 1 : ℕ) : ℤ) from rfl, String.toList_append, List.map_append]
  rfl

theorem digit_of_mod {n : Int32} {m : ℕ} (hn : n.toInt = m) : (n % 10 + 48).toInt8.toUInt8 = UInt8.ofNat (48 + m % 10) := by
  have hmod : n % 10 = Int32.ofNat (m % 10) := by
    rw [← Int32.toInt_inj, Int32.toInt_mod, hn, Int32.toInt_ofNat_of_lt (by omega)]
    exact Int.tmod_eq_emod_of_nonneg (Int.natCast_nonneg m)
  rw [hmod]
  have hlt : m % 10 < 10 := Nat.mod_lt m (by decide)
  generalize m % 10 = d at hlt
  interval_cases d <;> rfl

theorem update_eq_blit (s : Bytes) (i : ℕ) (c : UInt8) : update s i c = s.blit i 1 fun _ => c := by
  funext k
  unfold Bytes.blit
  by_cases hk : k = i
  · rw [hk, update_self, if_pos (by omega)]
  · rw [update_of_ne hk, if_neg (by omega)]

theorem itoaDigits_eq {n : Int32} {m : ℕ} (hn : n.toInt = m) (s : Bytes) (i : ℕ) :
    itoaDigits n s i = (s.blit i (decimal m).length fun k => (decimal m).reverse.getD k 0, i + (decimal m).length) := by
  induction m using Nat.strong_induction_on generalizing n s i with
  | h m ih =>
    have hdiv : (n / 10).toInt = (m / 10 : ℕ) := by
      rw [toInt_div_ten, hn, tdiv_ten, if_pos (Int.natCast_nonneg m)]
      rfl
    have hmore : 0 < n / 10 ↔ ¬ m < 10 := by
      rw [Int32.lt_iff_toInt_lt, hdiv]
      show (0 : ℤ) < _ ↔ _
      omega
    rw [itoaDigits, digit_of_mod hn, update_eq_blit, decimal_natCast m]
    by_cases hm : m < 10
    · rw [if_neg fun h => hmore.mp h hm, if_pos hm]
      have hone : (s.blit i 1 fun _ => UInt8.ofNat (48 + m % 10)) =
          s.blit i 1 fun k => [UInt8.ofNat (48 + m % 10)].getD k 0 :=
        Bytes.blit_congr (fun k hk => by rw [Nat.lt_one_iff.mp hk]; rfl) s i
      exact Prod.ext hone rfl
    · rw [if_pos (hmore.mpr hm), if_neg hm, ih (m / 10) (by omega) hdiv, List.length_append, List.length_singleton,
        List.reverse_append, List.reverse_singleton]
      refine Prod.ext ?_ (by dsimp only; omega)
      dsimp only
      rw [Nat.add_comm (decimal _).length 1]
      refine Bytes.blit_blit (fun k hk => ?_) (fun k hk => ?_) s i
      · rw [Nat.lt_one_iff.mp hk]
        rfl
      · rw [Nat.add_comm 1 k]
        rfl

theorem itoaSwap_apply (s : Bytes) {i j : ℕ} (h : 2 * j ≤ i) (k : ℕ) :
    itoaSwap s i j k = if k < j ∨ i - j ≤ k ∧ k < i then s (i - 1 - k) else s k := by
  induction j generalizing k with
  | zero => rw [if_neg (by omega)]; rfl
  | succ j ih =>
    have hj := ih (by omega) j
    have hi := ih (by omega) (i - j - 1)
    rw [if_neg (by omega)] at hj hi
    unfold itoaSwap
    dsimp only
    rw [hi, hj]
    by_cases hk : k = i - j - 1
    · rw [hk, update_self, if_pos (by omega)]
      congr 1
      omega
    · rw [update_of_ne hk]
      by_cases hkj : k = j
      · rw [hkj, update_self, if_pos (by omega)]
        congr 1
        omega
      · rw [update_of_ne hkj, ih (by omega) k]
        refine if_congr ?_ rfl rfl
        omega

theorem stored_itoaSwap (s : Bytes) (l : List UInt8) :
    Stored (itoaSwap (update (s.blit 0 l.length fun k => l.reverse.getD k 0) l.length 0) l.length (l.length / 2)) l := by
  refine ⟨fun k hk => ?_, ?_⟩
  · have hrev : ∀ m < l.length, update (s.blit 0 l.length fun k => l.reverse.getD k 0) l.length 0 m =
        l.getD (l.length - 1 - m) 0 := fun m hm => by
      rw [update_of_ne hm.ne, Bytes.blit, if_pos (by omega), Nat.sub_zero, List.getD_eq_getElem?_getD,
        List.getD_eq_getElem?_getD, List.getElem?_reverse hm]
    rw [itoaSwap_apply _ (by omega)]
    split_ifs with hend
    · rw [hrev _ (by omega)]
      congr 1
      omega
    · rw [hrev k hk]
      congr 1
      omega
  · rw [itoaSwap_apply _ (by omega), if_neg (by omega), update_self]

theorem atoiFrom_append {n : Int32} {l : List UInt8} {c : UInt8} (hl : ∀ d ∈ l, 48 ≤ d ∧ d ≤ 57) (hc : 48 ≤ c ∧ c ≤ 57) :
    atoiFrom n (l ++ [c]) = atoiFrom n l * 10 + c.toUInt32.toInt32 - 48 := by
  induction l generalizing n with
  | nil =>
    show (if 48 ≤ c ∧ c ≤ 57 then _ else _) = _
    rw [if_pos hc]
    rfl
  | cons d l ih =>
    rw [List.cons_append, atoiFrom, if_pos (hl d (List.mem_cons_self ..)), atoiFrom,
      if_pos (hl d (List.mem_cons_self ..))]
    exact ih fun e he => hl e (List.mem_cons_of_mem d he)

theorem decimal_digits (m : ℕ) : ∀ c ∈ decimal m, 48 ≤ c ∧ c ≤ 57 := by
  induction m using Nat.strong_induction_on with
  | h m ih =>
    have hlast : 48 ≤ UInt8.ofNat (48 + m % 10) ∧ UInt8.ofNat (48 + m % 10) ≤ 57 := by
      have hlt : m % 10 < 10 := Nat.mod_lt m (by decide)
      generalize m % 10 = d at hlt
      interval_cases d <;> decide
    intro c hc
    rw [decimal_natCast, List.mem_append, List.mem_singleton] at hc
    rcases hc with hc | rfl
    · split_ifs at hc with hm
      · cases hc
      · exact ih (m / 10) (by omega) c hc
    · exact hlast

theorem atoi_decimal (m : ℕ) : atoi (decimal m) = Int32.ofNat m := by
  induction m using Nat.strong_induction_on with
  | h m ih =>
    have hc := decimal_digits m (UInt8.ofNat (48 + m % 10)) (by rw [decimal_natCast]; simp)
    have hval : (UInt8.ofNat (48 + m % 10)).toUInt32.toInt32 = Int32.ofNat (m % 10) + 48 := by
      have hlt : m % 10 < 10 := Nat.mod_lt m (by decide)
      generalize m % 10 = d at hlt
      interval_cases d <;> rfl
    rw [decimal_natCast]
    unfold atoi
    rw [atoiFrom_append _ hc, hval]
    · have hsum : Int32.ofNat (m / 10) * 10 + (Int32.ofNat (m % 10) + 48) - 48 = Int32.ofNat m := by
        rw [← Int32.add_assoc, Int32.add_sub_cancel, show (10 : Int32) = Int32.ofNat 10 from rfl, ← Int32.ofNat_mul,
          ← Int32.ofNat_add, Nat.div_add_mod']
      split_ifs with hm
      · rw [Nat.div_eq_of_lt hm] at hsum
        exact hsum
      · have hih := ih (m / 10) (by omega)
        unfold atoi at hih
        rw [hih, hsum]
    · split_ifs
      · exact fun d hd => absurd hd (List.not_mem_nil)
      · exact decimal_digits (m / 10)

theorem strn_of_stored {a : Bytes} {l : List UInt8} {n : ℕ} (h : Stored a l) (h0 : 0 ∉ l) (hn : l.length < n) : strn a n = l := by
  have hfrom : ∀ k n, k ≤ l.length → l.length < k + n → strnFrom a k n = l.drop k := by
    intro k n hk hn
    induction n generalizing k with
    | zero => exact absurd hn (by omega)
    | succ n ih =>
      unfold strnFrom
      rcases Nat.lt_or_eq_of_le hk with hlt | rfl
      · have hget : a k = l[k] := by
          rw [h.bytes k hlt, List.getD_eq_getElem _ _ hlt]
        rw [hget, if_neg fun h0' : l[k] = 0 => h0 (h0' ▸ List.getElem_mem hlt), ih (k + 1) hlt (by omega),
          List.drop_eq_getElem_cons hlt]
      · rw [h.nul, if_pos rfl, List.drop_length]
  exact hfrom 0 n (Nat.zero_le _) (by omega)

theorem stored_itoa {n : Int32} (hn : n ≠ Int32.minValue) (s : Bytes) : Stored (itoa n s) (decimal n.toInt) := by
  unfold itoa
  by_cases hneg : n < 0
  · have hlt : n.toInt < 0 := Int32.lt_iff_toInt_lt.mp hneg
    obtain ⟨m, hm⟩ := Int.eq_ofNat_of_zero_le (show 0 ≤ -n.toInt by omega)
    have hback : (-n).toInt = m := by
      have hmin : n.toInt ≠ -2 ^ 31 := fun h => hn (Int32.toInt_inj.mp h)
      have hlo := n.le_toInt
      rw [Int32.toInt_neg, Int.bmod_eq_of_le (by omega) (by omega), hm]
    have htext : decimal n.toInt = 45 :: decimal m := by
      rw [show n.toInt = -(m : ℤ) by omega]
      exact decimal_neg (by omega)
    have hsign : update (s.blit 0 (decimal m).length fun k => (decimal m).reverse.getD k 0) (decimal m).length 45 =
        s.blit 0 (45 :: decimal m).length fun k => (45 :: decimal m).reverse.getD k 0 := by
      rw [update_eq_blit, List.length_cons, List.reverse_cons]
      have hjoin := @Bytes.blit_blit (fun k => (decimal m).reverse.getD k 0) (fun _ => 45)
        (fun k => ((decimal m).reverse ++ [45]).getD k 0) (decimal m).length 1
        (fun k hk => (List.getD_append _ _ _ _ (by rwa [List.length_reverse])).symm) (fun k hk => ?_) s 0
      · rw [Nat.zero_add] at hjoin
        exact hjoin
      · rw [Nat.lt_one_iff.mp hk, Nat.add_zero, List.getD_append_right _ _ _ _ (by rw [List.length_reverse]),
          List.length_reverse, Nat.sub_self]
        rfl
    rw [if_pos hneg, itoaDigits_eq hback, htext]
    dsimp only
    rw [if_pos hneg, Nat.zero_add]
    dsimp only
    rw [hsign]
    exact stored_itoaSwap s (45 :: decimal m)
  · have hnn : 0 ≤ n.toInt := Int.not_lt.mp fun h => hneg (Int32.lt_iff_toInt_lt.mpr h)
    obtain ⟨m, hm⟩ := Int.eq_ofNat_of_zero_le hnn
    rw [if_neg hneg, itoaDigits_eq hm, hm]
    dsimp only
    rw [if_neg hneg, Nat.zero_add]
    exact stored_itoaSwap s (decimal m)

theorem length_decimal_le {m k : ℕ} (hk : 0 < k) (h : m < 10 ^ k) : (decimal m).length ≤ k := by
  induction k generalizing m with
  | zero => exact absurd hk (Nat.lt_irrefl 0)
  | succ k ih =>
    rw [decimal_natCast, List.length_append, List.length_singleton]
    split_ifs with hm
    · rw [List.length_nil]
      omega
    · have hk' : 0 < k := Nat.pos_of_ne_zero fun h0 => by
        subst h0
        rw [Nat.zero_add, pow_one] at h
        exact hm h
      have := @ih (m / 10) hk' (by rw [pow_succ] at h; omega)
      omega

/-- `itoa` stores the decimal text of every `int` but the least, and `atoi` reads back what is not negative. -/
theorem itoa_decimal (n : Int32) (s : Bytes) : (n ≠ Int32.minValue → Stored (itoa n s) (decimal n.toInt)) ∧
    (0 ≤ n → atoi (strn (itoa n s) 12) = n) := by
  refine ⟨fun hn => stored_itoa hn s, fun hnn => ?_⟩
  have hge : 0 ≤ n.toInt := Int32.le_iff_toInt_le.mp hnn
  have hlt := n.toInt_lt
  have hmin : n ≠ Int32.minValue := fun h => by
    subst h
    exact absurd hnn (by decide)
  obtain ⟨m, hm⟩ := Int.eq_ofNat_of_zero_le hge
  have hst := stored_itoa hmin s
  rw [hm] at hst
  have h0 : (0 : UInt8) ∉ decimal m := fun h => absurd (decimal_digits m 0 h).1 (by decide)
  have hlen : (decimal m).length ≤ 10 := length_decimal_le (by decide) (by omega)
  rw [strn_of_stored hst h0 (by omega), atoi_decimal]
  rw [← Int32.toInt_inj, Int32.toInt_ofNat_of_lt (by omega), hm]

theorem itoa_decimal_neg : Stored (itoa (-40) fun _ => 0) [45, 52, 48] ∧ atoi (strn (itoa 40 fun _ => 0) 12) = 40 :=
  ⟨(itoa_decimal (-40) fun _ => 0).1 (by decide), (itoa_decimal 40 fun _ => 0).2 (by decide)⟩

/-- The least `int` is its own negation: one digit is taken of it, and that is not a digit. -/
theorem itoa_least : strn (itoa Int32.minValue fun _ => 0) 12 = [45, 40] ∧ decimal Int32.minValue.toInt = [45, 50, 49, 52, 55,
    52, 56, 51, 54, 52, 56] := by
  have hdigits : itoaDigits Int32.minValue (fun _ => 0) 0 = (update (fun _ => 0) 0 40, 1) := by
    rw [itoaDigits, if_neg (by decide)]
    rfl
  refine ⟨?_, by decide +kernel⟩
  unfold itoa
  rw [if_pos (by decide), show -Int32.minValue = Int32.minValue from rfl, hdigits]
  decide +kernel

end Xv6.User
