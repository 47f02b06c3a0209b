import Mathlib.Data.Nat.Notation
import Mathlib.Tactic

/-! The matcher of `grep`, and the language of its patterns. Strings are without their NUL. -/
namespace Xv6.User

mutual
/-- Search for `re` at the beginning of `text`. -/
def matchhere (re text : List UInt8) : Bool :=
  match re with
  | [] => true
  | c :: re =>
    if re.head? = some 42 then matchstar c re.tail text
    else if c = 36 ∧ re = [] then text = []
    else match text with
      | [] => false
      | t :: text => if c = 46 ∨ c = t then matchhere re text else false
termination_by (re.length, text.length, 0)

/-- Search for `c*re` at the beginning of `text`. -/
def matchstar (c : UInt8) (re text : List UInt8) : Bool :=
  if matchhere re text then true
  else match text with
    | [] => false
    | t :: text => if t = c ∨ c = 46 then matchstar c re text else false
termination_by (re.length, text.length, 1)
end

/-- The loop of `match`, which looks at the empty string too. -/
def matchFrom (re : List UInt8) : List UInt8 → Bool
  | [] => matchhere re []
  | t :: text => if matchhere re (t :: text) then true else matchFrom re text

def «match» (re text : List UInt8) : Bool :=
  if re.head? = some 94 then matchhere re.tail text else matchFrom re text

/-- What a pattern is made of. -/
inductive Item
  | star (x : UInt8)
  | eol
  | any
  | char (c : UInt8)

/-- The pattern, read from left to right. -/
def items : List UInt8 → List Item
  | [] => []
  | [c] => [if c = 36 then .eol else if c = 46 then .any else .char c]
  | c :: x :: re => if x = 42 then .star c :: items re else (if c = 46 then .any else .char c) :: items (x :: re)

/-- The items match the string `s` when `rest` is behind it in the text. -/
def Matches : List Item → List UInt8 → List UInt8 → Prop
  | [], s, _ => s = []
  | .star x :: l, s, rest => ∃ u v, s = u ++ v ∧ (∀ t ∈ u, x = 46 ∨ x = t) ∧ Matches l v rest
  | .eol :: l, s, rest => s = [] ∧ rest = [] ∧ Matches l s rest
  | .any :: l, s, rest => ∃ t v, s = t :: v ∧ Matches l v rest
  | .char c :: l, s, rest => ∃ v, s = c :: v ∧ Matches l v rest

/-- The items match at the beginning of the text. -/
def Here (l : List Item) (text : List UInt8) : Prop := ∃ s rest, text = s ++ rest ∧ Matches l s rest

/-- The pattern without the `^` that anchors it. -/
def unanchored (re : List UInt8) : List UInt8 := if re.head? = some 94 then re.tail else re

section
variable {c x : UInt8} {l : List Item} {re text : List UInt8}

theorem matchhere_cons : matchhere (c :: re) text =
    if re.head? = some 42 then matchstar c re.tail text
    else if c = 36 ∧ re = [] then decide (text = [])
    else match text with
      | [] => false
      | t :: text => if c = 46 ∨ c = t then matchhere re text else false := by
  rw [matchhere.eq_def]

theorem here_nil : Here [] text := ⟨[], text, rfl, rfl⟩

theorem here_eol : Here [.eol] text ↔ text = [] := by
  constructor
  · rintro ⟨s, rest, rfl, rfl, rfl, -⟩
    rfl
  · rintro rfl
    exact ⟨[], [], rfl, rfl, rfl, rfl⟩

theorem here_star : Here (.star x :: l) text ↔ ∃ u v, text = u ++ v ∧ (∀ t ∈ u, x = 46 ∨ x = t) ∧ Here l v := by
  constructor
  · rintro ⟨s, rest, rfl, u, v, rfl, hu, hv⟩
    exact ⟨u, v ++ rest, List.append_assoc u v rest, hu, v, rest, rfl, hv⟩
  · rintro ⟨u, v, rfl, hu, s, rest, rfl, hs⟩
    exact ⟨u ++ s, rest, (List.append_assoc u s rest).symm, u, s, rfl, hu, hs⟩

theorem here_any : Here (.any :: l) text ↔ ∃ t v, text = t :: v ∧ Here l v := by
  constructor
  · rintro ⟨s, rest, rfl, t, v, rfl, hv⟩
    exact ⟨t, v ++ rest, rfl, v, rest, rfl, hv⟩
  · rintro ⟨t, v, rfl, s, rest, rfl, hs⟩
    exact ⟨t :: s, rest, rfl, t, s, rfl, hs⟩

theorem here_char : Here (.char c :: l) text ↔ ∃ v, text = c :: v ∧ Here l v := by
  constructor
  · rintro ⟨s, rest, rfl, v, rfl, hv⟩
    exact ⟨v ++ rest, rfl, v, rest, rfl, hv⟩
  · rintro ⟨v, rfl, s, rest, rfl, hs⟩
    exact ⟨c :: s, rest, rfl, s, rfl, hs⟩

theorem here_one : Here ((if c = 46 then .any else .char c) :: l) text ↔
    ∃ t v, text = t :: v ∧ (c = 46 ∨ c = t) ∧ Here l v := by
  split_ifs with hc
  · rw [here_any]
    constructor
    · rintro ⟨t, v, rfl, hv⟩
      exact ⟨t, v, rfl, .inl hc, hv⟩
    · rintro ⟨t, v, rfl, -, hv⟩
      exact ⟨t, v, rfl, hv⟩
  · rw [here_char]
    constructor
    · rintro ⟨v, rfl, hv⟩
      exact ⟨c, v, rfl, .inr rfl, hv⟩
    · rintro ⟨t, v, rfl, hct, hv⟩
      rw [← hct.resolve_left hc]
      exact ⟨v, rfl, hv⟩

theorem matchstar_iff (hre : ∀ text, matchhere re text = true ↔ Here (items re) text) :
    matchstar c re text = true ↔ ∃ u v, text = u ++ v ∧ (∀ t ∈ u, c = 46 ∨ c = t) ∧ Here (items re) v := by
  induction text with
  | nil =>
    rw [matchstar]
    constructor
    · intro h
      split_ifs at h with hh
      exact ⟨[], [], rfl, fun t ht => absurd ht List.not_mem_nil, (hre []).mp hh⟩
    · rintro ⟨u, v, huv, -, hv⟩
      obtain ⟨rfl, rfl⟩ := List.nil_eq_append_iff.mp huv
      rw [if_pos ((hre []).mpr hv)]
  | cons t text ih =>
    rw [matchstar]
    by_cases hh : matchhere re (t :: text) = true
    · rw [if_pos hh]
      exact iff_of_true rfl ⟨[], t :: text, rfl, fun t ht => absurd ht List.not_mem_nil, (hre _).mp hh⟩
    rw [if_neg hh]
    have hnot : ¬ Here (items re) (t :: text) := fun h => hh ((hre _).mpr h)
    constructor
    · intro h
      split_ifs at h with ht
      obtain ⟨u, v, rfl, hu, hv⟩ := ih.mp h
      refine ⟨t :: u, v, rfl, fun d hd => ?_, hv⟩
      rcases List.mem_cons.mp hd with rfl | hd
      · exact ht.symm.imp_right Eq.symm
      · exact hu d hd
    · rintro ⟨u, v, huv, hu, hv⟩
      cases u with
      | nil =>
        rw [List.nil_append] at huv
        exact absurd (huv ▸ hv) hnot
      | cons d u =>
        obtain ⟨rfl, rfl⟩ := List.cons.inj huv
        rw [if_pos ((hu t (List.mem_cons_self ..)).symm.imp_left Eq.symm)]
        exact ih.mpr ⟨u, v, rfl, fun d hd => hu d (List.mem_cons_of_mem t hd), hv⟩

theorem matchhere_iff (re text : List UInt8) : matchhere re text = true ↔ Here (items re) text := by
  induction hn : re.length using Nat.strong_induction_on generalizing re text with
  | h n ih =>
    subst hn
    match re with
    | [] =>
      rw [matchhere]
      exact iff_of_true rfl here_nil
    | [c] =>
      have hnil : ∀ v, Here (items []) v := fun v => here_nil
      rw [matchhere_cons, if_neg (by simp)]
      unfold items
      by_cases hc : c = 36
      · rw [if_pos ⟨hc, rfl⟩, if_pos hc, here_eol, decide_eq_true_iff]
      · rw [if_neg fun h => hc h.1, if_neg hc, here_one]
        cases text with
        | nil => simp
        | cons t text =>
          dsimp only
          rw [matchhere]
          constructor
          · intro h
            split_ifs at h with hct
            exact ⟨t, text, rfl, hct, hnil text⟩
          · rintro ⟨d, v, heq, hct, -⟩
            obtain ⟨rfl, rfl⟩ := List.cons.inj heq
            rw [if_pos hct]
    | c :: x :: re =>
      rw [matchhere_cons, items, List.head?_cons, List.tail_cons]
      by_cases hx : x = 42
      · rw [if_pos (by rw [hx]), if_pos hx, here_star]
        exact matchstar_iff fun text => ih re.length (by simp) re text rfl
      · rw [if_neg fun h => hx (Option.some.inj h), if_neg hx, if_neg fun h => List.cons_ne_nil x re h.2, here_one]
        cases text with
        | nil => simp
        | cons t text =>
          dsimp only
          constructor
          · intro h
            split_ifs at h with hct
            exact ⟨t, text, rfl, hct, (ih _ (by simp) (x :: re) text rfl).mp h⟩
          · rintro ⟨d, v, heq, hct, hv⟩
            obtain ⟨rfl, rfl⟩ := List.cons.inj heq
            rw [if_pos hct]
            exact (ih _ (by simp) (x :: re) text rfl).mpr hv

theorem matchFrom_iff (re text : List UInt8) :
    matchFrom re text = true ↔ ∃ skipped v, text = skipped ++ v ∧ Here (items re) v := by
  induction text with
  | nil =>
    rw [matchFrom, matchhere_iff]
    constructor
    · exact fun h => ⟨[], [], rfl, h⟩
    · rintro ⟨skipped, v, heq, hv⟩
      obtain ⟨-, rfl⟩ := List.nil_eq_append_iff.mp heq
      exact hv
  | cons t text ih =>
    rw [matchFrom]
    constructor
    · intro h
      split_ifs at h with hh
      · exact ⟨[], t :: text, rfl, (matchhere_iff re _).mp hh⟩
      · obtain ⟨skipped, v, rfl, hv⟩ := ih.mp h
        exact ⟨t :: skipped, v, rfl, hv⟩
    · rintro ⟨skipped, v, heq, hv⟩
      split_ifs with hh
      · rfl
      cases skipped with
      | nil =>
        rw [List.nil_append] at heq
        exact absurd ((matchhere_iff re _).mpr (heq ▸ hv)) hh
      | cons d skipped =>
        obtain ⟨rfl, rfl⟩ := List.cons.inj heq
        exact ih.mpr ⟨skipped, v, rfl, hv⟩

end

/-- `match` finds a substring that the items of the pattern match, at the beginning of the text if the
pattern is anchored there. -/
theorem match_iff_substring (re text : List UInt8) : «match» re text = true ↔
    ∃ skipped s rest, text = skipped ++ s ++ rest ∧ (re.head? = some 94 → skipped = []) ∧
      Matches (items (unanchored re)) s rest := by
  unfold «match» unanchored
  split_ifs with hanchor
  · rw [matchhere_iff]
    constructor
    · rintro ⟨s, rest, rfl, hs⟩
      exact ⟨[], s, rest, rfl, fun _ => rfl, hs⟩
    · rintro ⟨skipped, s, rest, rfl, hskip, hs⟩
      obtain rfl := hskip hanchor
      exact ⟨s, rest, rfl, hs⟩
  · rw [matchFrom_iff]
    constructor
    · rintro ⟨skipped, v, rfl, s, rest, rfl, hs⟩
      exact ⟨skipped, s, rest, (List.append_assoc ..).symm, fun h => absurd h hanchor, hs⟩
    · rintro ⟨skipped, s, rest, rfl, -, hs⟩
      exact ⟨skipped, s ++ rest, List.append_assoc .., s, rest, rfl, hs⟩

end Xv6.User
