import Mathlib.Data.List.TakeWhile
import Xv6.Kernel.Fs.Directory

/-! Path names: `skipelem` takes the components of a path one by one. -/
namespace Xv6.Fs
open Lib SlotMap

/-- What stands between the slashes of a path. -/
def components (path : List UInt8) : List (List UInt8) := (path.splitOn slash).filter (· ≠ [])

theorem components_slash (path : List UInt8) : components (slash :: path) = components path := by
  have h : (slash :: path).splitOn slash = [] :: path.splitOn slash :=
    List.splitOnP_append_cons_of_forall_mem (fun _ h => absurd h List.not_mem_nil) slash (by simp) path
  rw [components, h, List.filter_cons_of_neg (by simp)]
  rfl

theorem components_dropWhile (path : List UInt8) : components (path.dropWhile (· = slash)) = components path := by
  induction path with
  | nil => rfl
  | cons a path ih =>
    by_cases ha : a = slash
    · rw [List.dropWhile_cons_of_pos (by simpa using ha), ih, ha, components_slash]
    · rw [List.dropWhile_cons_of_neg (by simpa using ha)]

theorem components_append {s rest : List UInt8} (hs : s ≠ []) (hns : slash ∉ s)
    (hrest : ∀ a ∈ rest.head?, a = slash) : components (s ++ rest) = s :: components rest := by
  have hne : ∀ x ∈ s, (x == slash) = false := fun x hx => by
    rw [beq_eq_false_iff_ne]
    rintro rfl
    exact hns hx
  cases rest with
  | nil =>
    have h : (s ++ []).splitOn slash = [s] := by
      rw [List.append_nil]
      exact List.splitOnP_eq_singleton hne
    rw [components, h, List.filter_cons_of_pos (by simpa using hs)]
    rfl
  | cons a rest =>
    obtain rfl : a = slash := hrest a rfl
    have h : (s ++ slash :: rest).splitOn slash = s :: rest.splitOn slash :=
      List.splitOnP_append_cons_of_forall_mem hne slash (by simp) rest
    rw [components, h, List.filter_cons_of_pos (by simpa using hs), components_slash]
    rfl

theorem strn_of_list {l : List UInt8} {b : Bytes} {n : ℕ} (hz : 0 ∉ l) (hb : ∀ k < n, k < l.length → b k = l.getD k 0)
    (hend : l.length < n → b l.length = 0) : strn b n = l.take n := by
  have aux : ∀ m k, k + m = n → k ≤ l.length → strnFrom b k m = (l.drop k).take m := by
    intro m
    induction m with
    | zero =>
      intro k _ _
      rw [List.take_zero]
      rfl
    | succ m ih =>
      intro k hk hle
      unfold strnFrom
      by_cases hlt : k < l.length
      · have hbk : b k = l[k] := by
          rw [hb k (by omega) hlt, List.getD_eq_getElem?_getD, List.getElem?_eq_getElem hlt]
          rfl
        have hne : b k ≠ 0 := by
          rw [hbk]
          exact fun h0 => hz (h0 ▸ List.getElem_mem hlt)
        rw [if_neg hne, ih (k + 1) (by omega) hlt, List.drop_eq_getElem_cons hlt, List.take_succ_cons, hbk]
      · obtain rfl : k = l.length := by omega
        rw [if_pos (hend (by omega)), List.drop_length, List.take_nil]
  exact aux n 0 (by omega) (Nat.zero_le _)

theorem skipelem_eq_none {path : List UInt8} {name : Bytes} (h : skipelem path name = none) : components path = [] := by
  unfold skipelem at h
  dsimp only at h
  split_ifs at h with h0
  rw [← components_dropWhile, h0]
  rfl

theorem keyOf_copyElem {s : List UInt8} (hz : 0 ∉ s) (name : Bytes) : keyOf (copyElem s name) = s.take dirsiz := by
  refine strn_of_list hz (fun k hk hlt => ?_) fun hlt => ?_
  · unfold copyElem
    split_ifs with h
    · rw [Bytes.blit, if_pos (by omega), Nat.sub_zero]
    · rw [Function.update_of_ne (by omega), Bytes.blit, if_pos (by omega), Nat.sub_zero]
  · rw [copyElem, if_neg (by omega), Function.update_self]

theorem head?_dropWhile {p : UInt8 → Bool} {l : List UInt8} {a : UInt8} (h : a ∈ (l.dropWhile p).head?) : p a = false := by
  have := List.head?_dropWhile_not p l
  rw [Option.mem_def.mp h] at this
  exact this

/-- `skipelem` takes the first component. -/
theorem skipelem_eq_some {path rest : List UInt8} {name name' : Bytes} (hz : 0 ∉ path)
    (h : skipelem path name = some (rest, name')) :
    ∃ e, components path = e :: components rest ∧ keyOf name' = e.take dirsiz ∧ rest.length < path.length ∧
      0 ∉ rest ∧ (components rest = [] → rest = []) := by
  unfold skipelem at h
  dsimp only at h
  split_ifs at h with h0
  obtain ⟨rfl, rfl⟩ := Prod.mk.inj (Option.some.inj h)
  set p := path.dropWhile (· = slash) with hp
  set s := p.takeWhile (· ≠ slash) with hs
  set r := p.dropWhile (· ≠ slash) with hr
  have hsr : s ++ r = p := List.takeWhile_append_dropWhile
  have hsub : ∀ a ∈ p, a ∈ path := fun a ha => (List.dropWhile_suffix _).subset ha
  have hsuff : r.dropWhile (· = slash) <:+ r := List.dropWhile_suffix _
  have hns : slash ∉ s := fun hm => by simpa using List.mem_takeWhile_imp hm
  have hne : s ≠ [] := by
    intro hnil
    cases hcase : p with
    | nil => exact h0 hcase
    | cons a l =>
      -- `p` does not start with a slash
      have ha : decide (a = slash) = false := head?_dropWhile (l := path) (by rw [← hp, hcase]; rfl)
      rw [hs, hcase, List.takeWhile_cons_of_pos (by simpa using ha)] at hnil
      exact List.cons_ne_nil _ _ hnil
  have hhead : ∀ a ∈ r.head?, a = slash := fun a ha => by
    simpa using head?_dropWhile (l := p) ha
  refine ⟨s, ?_, ?_, ?_, ?_, fun hnil => ?_⟩
  · rw [components_dropWhile, ← components_append hne hns hhead, hsr, hp, components_dropWhile]
  · refine keyOf_copyElem (fun h0 => hz (hsub 0 ?_)) name
    rw [← hsr]
    exact List.mem_append_left r h0
  · have hlen : p.length ≤ path.length := (List.dropWhile_suffix _).length_le
    have hlen' := hsuff.length_le
    have hpos := List.length_pos_iff.mpr hne
    rw [← hsr, List.length_append] at hlen
    omega
  · intro h0
    refine hz (hsub 0 ?_)
    rw [← hsr]
    exact List.mem_append_right s (hsuff.subset h0)
  · -- what is left starts with a component if it is not empty
    by_contra hrest
    cases hcase : r.dropWhile (· = slash) with
    | nil => exact hrest hcase
    | cons a l =>
      have ha : decide (a = slash) = false := head?_dropWhile (l := r) (by rw [hcase]; rfl)
      have hsplit : (a :: l).takeWhile (· ≠ slash) ++ (a :: l).dropWhile (· ≠ slash) = a :: l :=
        List.takeWhile_append_dropWhile
      rw [hcase, ← hsplit, components_append] at hnil
      · exact List.cons_ne_nil _ _ hnil
      · rw [List.takeWhile_cons_of_pos (by simpa using ha)]
        exact List.cons_ne_nil _ _
      · exact fun hm => by simpa using List.mem_takeWhile_imp hm
      · exact fun b hb => by simpa using head?_dropWhile (l := a :: l) hb

/-- The components of a path as keys. -/
def keys (path : List UInt8) : List Key := (components path).map (List.take dirsiz)

end Xv6.Fs
