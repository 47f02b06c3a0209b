import Mathlib.Data.List.TakeWhile
import Xv6.User.Match
import Xv6.User.Ulib

/-! `grep`: what it prints is a function of its input, however the input arrives. -/
namespace Xv6.User
open Function

/-- The size of `buf`. -/
def bufSize : ℕ := 1024

/-- The `n` bytes that `write` gets from `p`. -/
def bytesAt (mem : Mem) (p : BitVec 64) (n : ℕ) : List UInt8 := (List.range n).map fun k : ℕ => mem (p + (k : BitVec 64))

/-- The inner loop of `grep`: the lines from `p` on, of which there are at most `n`. -/
def grepLines (pattern : List UInt8) : ℕ → Mem → BitVec 64 → Mem × BitVec 64 × List UInt8
  | 0, mem, p => (mem, p, [])
  | n + 1, mem, p =>
    match strchr mem 10 bufSize p with
    | none => (mem, p, [])
    | some q =>
      let mem := update mem q 0
      let (mem, out) :=
        if «match» pattern (cstring mem bufSize p) then
          let mem := update mem q 10
          (mem, bytesAt mem p (q + 1 - p).toNat)
        else (mem, [])
      let (mem, p, rest) := grepLines pattern n mem (q + 1)
      (mem, p, out ++ rest)

/-- `grep` with `m` bytes in `buf`, when the calls of `read` return the pieces one by one; there is no
such run if a piece is longer than what was asked for. -/
def grep (pattern : List UInt8) (buf : BitVec 64) : List (List UInt8) → Mem → ℕ → Option (List UInt8)
  | [], _, _ => some []
  | piece :: pieces, mem, m =>
    if bufSize - m - 1 = 0 then some []
    else if bufSize - m - 1 < piece.length then none
    else
      let mem := store mem (buf + (m : BitVec 64)) piece
      let m := m + piece.length
      let mem := update mem (buf + (m : BitVec 64)) 0
      let (mem, p, out) := grepLines pattern bufSize mem buf
      let (mem, m) :=
        if 0 < m then
          let m := m - (p - buf).toNat
          (memmove mem buf p (BitVec.ofNat 32 m), m)
        else (mem, m)
      (grep pattern buf pieces mem m).map (out ++ ·)

def inLine (c : UInt8) : Bool := c ≠ 0 ∧ c ≠ 10

/-- The first line of the input and what is behind it, if there is a newline in the input, no NUL before
it, and room for the line in `buf`. -/
def nextLine (input : List UInt8) : Option (List UInt8 × List UInt8) :=
  match input.dropWhile inLine with
  | c :: rest => if c = 10 ∧ (input.takeWhile inLine).length < bufSize - 1 then some (input.takeWhile inLine, rest) else none
  | [] => none

theorem inLine_iff {c : UInt8} : inLine c = true ↔ c ≠ 0 ∧ c ≠ 10 := decide_eq_true_iff

theorem mem_takeWhile_inLine {input : List UInt8} : ∀ c ∈ input.takeWhile inLine, c ≠ 0 ∧ c ≠ 10 :=
  fun _ hc => inLine_iff.mp (List.mem_takeWhile_imp hc)

theorem nextLine_eq_some {input line rest : List UInt8} : nextLine input = some (line, rest) ↔
    input = line ++ 10 :: rest ∧ (∀ c ∈ line, c ≠ 0 ∧ c ≠ 10) ∧ line.length < bufSize - 1 := by
  unfold nextLine
  have hsplit := List.takeWhile_append_dropWhile (p := inLine) (l := input)
  constructor
  · intro h
    cases hd : input.dropWhile inLine with
    | nil =>
      rw [hd] at h
      cases h
    | cons c tail =>
      rw [hd] at h hsplit
      dsimp only at h
      split_ifs at h with hc
      obtain ⟨rfl, rfl⟩ := Prod.mk.inj (Option.some.inj h)
      rw [hc.1] at hsplit
      exact ⟨hsplit.symm, mem_takeWhile_inLine, hc.2⟩
  · rintro ⟨rfl, hline, hlen⟩
    have hpos : ∀ c ∈ line, inLine c = true := fun c hc => inLine_iff.mpr (hline c hc)
    rw [List.takeWhile_append_of_pos hpos, List.dropWhile_append_of_pos hpos, List.takeWhile_cons_of_neg (by decide),
      List.dropWhile_cons_of_neg (by decide), List.append_nil]
    exact if_pos ⟨rfl, hlen⟩

/-- What `grep` prints. -/
def printed (pattern input : List UInt8) : List UInt8 :=
  match h : nextLine input with
  | none => []
  | some (line, rest) => (if «match» pattern line then line ++ [10] else []) ++ printed pattern rest
termination_by input.length
decreasing_by
  obtain ⟨rfl, -, -⟩ := nextLine_eq_some.mp h
  rw [List.length_append, List.length_cons]
  omega

section
variable {pattern input line rest l more : List UInt8} {mem : Mem} {p buf : BitVec 64} {n m : ℕ}

theorem printed_of_line (h : nextLine input = some (line, rest)) :
    printed pattern input = (if «match» pattern line then line ++ [10] else []) ++ printed pattern rest := by
  rw [printed]
  split
  · next hn => rw [h] at hn; cases hn
  · next hs =>
    rw [h] at hs
    obtain ⟨rfl, rfl⟩ := Prod.mk.inj (Option.some.inj hs)
    rfl

theorem printed_of_none (h : nextLine input = none) : printed pattern input = [] := by
  rw [printed]
  split
  · rfl
  · next hs => rw [h] at hs; cases hs

theorem nextLine_append (h : nextLine l = some (line, rest)) (more : List UInt8) :
    nextLine (l ++ more) = some (line, rest ++ more) := by
  obtain ⟨rfl, hline, hlen⟩ := nextLine_eq_some.mp h
  exact nextLine_eq_some.mpr ⟨by rw [List.append_assoc, List.cons_append], hline, hlen⟩

theorem nextLine_full (h : nextLine l = none) (hlen : l.length = bufSize - 1) (more : List UInt8) :
    nextLine (l ++ more) = none := by
  by_contra hsome
  obtain ⟨⟨line, rest⟩, hs⟩ := Option.ne_none_iff_exists'.mp hsome
  obtain ⟨heq, hline, hlt⟩ := nextLine_eq_some.mp hs
  -- the newline is in `buf`
  have hl : l = line ++ 10 :: rest.take (l.length - line.length - 1) := by
    have htake := congrArg (List.take l.length) heq
    rw [List.take_left, List.take_append, List.take_of_length_le (by omega)] at htake
    rw [show l.length - line.length = l.length - line.length - 1 + 1 by omega, List.take_succ_cons] at htake
    exact htake
  have := nextLine_eq_some.mpr ⟨hl, hline, hlt⟩
  rw [h] at this
  cases this

theorem exists_nul_of_none (h : nextLine l = none) (hlen : l.length < bufSize) :
    ∃ line tail, l ++ [0] = line ++ 0 :: tail ∧ (∀ c ∈ line, c ≠ 0 ∧ c ≠ 10) ∧ line.length < bufSize := by
  have hsplit := List.takeWhile_append_dropWhile (p := inLine) (l := l)
  have hgood := @mem_takeWhile_inLine l
  set line := l.takeWhile inLine with hline
  cases hd : l.dropWhile inLine with
  | nil =>
    rw [hd, List.append_nil] at hsplit
    exact ⟨line, [], by rw [hsplit], hgood, by rw [hsplit]; exact hlen⟩
  | cons d tail =>
    rw [hd] at hsplit
    have hlt : line.length < l.length := by
      rw [← hsplit, List.length_append, List.length_cons]
      omega
    have hbad := List.head_dropWhile_not inLine (l := l) (by rw [hd]; exact List.cons_ne_nil d tail)
    simp only [hd, List.head_cons] at hbad
    have h0 : d = 0 := by
      by_contra h0
      have h10 : d = 10 := by
        by_contra h10
        rw [inLine_iff.mpr ⟨h0, h10⟩] at hbad
        cases hbad
      have := nextLine_eq_some.mpr ⟨(h10 ▸ hsplit).symm, hgood, by omega⟩
      rw [h] at this
      cases this
    refine ⟨line, tail ++ [0], ?_, hgood, by omega⟩
    rw [← hsplit, h0, List.append_assoc, List.cons_append]

theorem bytesAt_eq (h : Holds mem p l) : bytesAt mem p l.length = l := by
  rw [holds_iff] at h
  refine List.ext_getElem (by rw [bytesAt, List.length_map, List.length_range]) fun k hk hk' => ?_
  rw [← h k hk']
  simp [bytesAt]

/-- The inner loop prints the lines that are whole, and stops at the rest. -/
theorem grepLines_eq (hmem : Holds mem p (l ++ [0])) (hlen : l.length < bufSize) (hn : l.length < n) :
    ∃ consumed rest mem' out, l = consumed ++ rest ∧
      grepLines pattern n mem p = (mem', p + (consumed.length : BitVec 64), out) ∧
      Holds mem' (p + (consumed.length : BitVec 64)) (rest ++ [0]) ∧ nextLine rest = none ∧
      ∀ more, printed pattern (l ++ more) = out ++ printed pattern (rest ++ more) := by
  induction n generalizing l mem p with
  | zero => exact absurd hn (Nat.not_lt_zero _)
  | succ n ih =>
    rw [grepLines]
    cases hline : nextLine l with
    | none =>
      obtain ⟨line, tail, heq, hgood, hlt⟩ := exists_nul_of_none hline hlen
      have hstr : Holds mem p (line ++ [0]) := by
        rw [heq, ← List.singleton_append, ← List.append_assoc, holds_append] at hmem
        exact hmem.1
      rw [strchr_eq_none hstr hgood hlt]
      refine ⟨[], l, mem, [], rfl, ?_, ?_, hline, fun more => rfl⟩
      · rw [List.length_nil, Nat.cast_zero, add_zero]
      · rwa [List.length_nil, Nat.cast_zero, add_zero]
    | some x =>
      obtain ⟨line, rest⟩ := x
      obtain ⟨rfl, hgood, hlt⟩ := nextLine_eq_some.mp hline
      have hsize : bufSize = 1024 := rfl
      rw [List.length_append, List.length_cons] at hlen hn
      set q := p + (line.length : BitVec 64) with hq
      rw [List.append_assoc, holds_append, ← hq, List.cons_append, Holds] at hmem
      obtain ⟨hbefore, hnewline, hafter⟩ := hmem
      have hline' : Holds mem p (line ++ [10]) := holds_append.mpr ⟨hbefore, hnewline, trivial⟩
      have hfound : strchr mem 10 bufSize p = some q := strchr_eq_some hline' hgood (by decide) (by omega)
      have htext : cstring (update mem q 0) bufSize p = line := by
        refine cstring_eq (holds_append.mpr ⟨hbefore.update (by omega) le_rfl, ?_⟩) (fun h0 => (hgood 0 h0).1 rfl) (by omega)
        exact ⟨update_self q 0 mem, trivial⟩
      have hcount : (q + 1 - p).toNat = (line ++ [10]).length := by
        rw [hq, List.length_append, List.length_singleton]
        rw [show p + (line.length : BitVec 64) + 1 - p = ((line.length + 1 : ℕ) : BitVec 64) by push_cast; ring,
          BitVec.natCast_eq_ofNat, BitVec.toNat_ofNat, Nat.mod_eq_of_lt (by omega)]
      have hback : update (update mem q 0) q 10 = mem := by
        rw [update_idem, ← hnewline, update_eq_self]
      rw [hfound]
      dsimp only
      rw [htext, hback, hcount, bytesAt_eq hline']
      -- the rest of the bytes is behind the newline, whether that is there or not
      obtain ⟨mem₁, out, hstep, hhold, hout⟩ : ∃ mem₁ out, (if «match» pattern line = true then (mem, line ++ [10])
          else (update mem q 0, [])) = (mem₁, out) ∧ Holds mem₁ (q + 1) (rest ++ [0]) ∧
          out = if «match» pattern line = true then line ++ [10] else [] := by
        split_ifs
        · exact ⟨_, _, rfl, hafter, rfl⟩
        · exact ⟨_, _, rfl, hafter.update_before (by rw [List.length_append, List.length_singleton]; omega), rfl⟩
      obtain ⟨consumed, rest', mem', out', rfl, hrec, hhold', hnone, hprint⟩ := ih hhold (by omega) (by omega)
      have hend : q + 1 + (consumed.length : BitVec 64) = p + ((line ++ 10 :: consumed).length : BitVec 64) := by
        rw [hq, List.length_append, List.length_cons]
        push_cast
        ring
      rw [hend] at hrec hhold'
      rw [hstep]
      dsimp only
      rw [hrec]
      refine ⟨line ++ 10 :: consumed, rest', mem', out ++ out', by simp, rfl, hhold', hnone, fun more => ?_⟩
      rw [printed_of_line (nextLine_append hline more), hprint more, hout, List.append_assoc]

theorem holds_memmove {k : ℕ} (hbuf : buf.toNat + bufSize ≤ 2 ^ 64) (h : Holds mem (buf + (k : BitVec 64)) l)
    (hk : k + l.length < bufSize) : Holds (memmove mem buf (buf + (k : BitVec 64)) (BitVec.ofNat 32 l.length)) buf l := by
  have hsize : bufSize = 1024 := rfl
  have hlen : (BitVec.ofNat 32 l.length).toInt.toNat = l.length := by
    rw [BitVec.toInt_ofNat', Int.bmod_eq_of_le (by omega) (by omega), Int.toNat_natCast]
  have hsrc : (buf + (k : BitVec 64)).toNat = buf.toNat + k := toNat_add_natCast (by omega)
  have hmoved := @moved_memmove mem buf (buf + (k : BitVec 64)) (BitVec.ofNat 32 l.length) (by rw [hlen, hsrc]; omega)
    (by rw [hlen]; omega)
  rw [hlen] at hmoved
  rw [holds_iff] at h ⊢
  intro i hi
  rw [hmoved.copied i hi, h i hi]

theorem grep_eq_printed {pieces : List (List UInt8)} {out : List UInt8} (hbuf : buf.toNat + bufSize ≤ 2 ^ 64)
    (hmem : Holds mem buf l) (hm : l.length = m) (hlen : l.length < bufSize) (hnone : nextLine l = none)
    (h : grep pattern buf pieces mem m = some out) (hne : ∀ piece ∈ pieces, piece ≠ []) :
    out = printed pattern (l ++ pieces.flatten) := by
  induction pieces generalizing l mem m out with
  | nil =>
    rw [grep] at h
    rw [List.flatten_nil, List.append_nil, printed_of_none hnone]
    exact (Option.some.inj h).symm
  | cons piece pieces ih =>
    have hsize : bufSize = 1024 := rfl
    rw [grep] at h
    rw [List.flatten_cons]
    split_ifs at h with hfull hlong
    · rw [printed_of_none (nextLine_full hnone (by omega) _)]
      exact (Option.some.inj h).symm
    subst hm
    -- the bytes of `buf` after the call of `read`
    set bytes := l ++ piece with hbytes
    have hcount : l.length + piece.length = bytes.length := (List.length_append ..).symm
    dsimp only at h
    rw [hcount] at h
    set mem₁ := update (store mem (buf + (l.length : BitVec 64)) piece) (buf + (bytes.length : BitVec 64)) 0 with hmem₁
    have hread : Holds mem₁ buf (bytes ++ [0]) := by
      refine holds_append.mpr ⟨Holds.update ?_ (by omega) le_rfl, update_self .., trivial⟩
      exact holds_append.mpr ⟨hmem.store (by omega), holds_store (by omega)⟩
    obtain ⟨consumed, rest, mem₂, out₁, hsplit, hlines, hrest, hno, hprint⟩ :=
      @grepLines_eq pattern bytes mem₁ buf bufSize hread (by omega) (by omega)
    rw [hlines] at h
    dsimp only at h
    have hpos : 0 < bytes.length := by
      have := List.length_pos_of_ne_nil (hne piece (List.mem_cons_self ..))
      omega
    have hlen' : bytes.length = consumed.length + rest.length := by rw [hsplit, List.length_append]
    have hused : (buf + (consumed.length : BitVec 64) - buf).toNat = consumed.length := by
      rw [add_sub_cancel_left, BitVec.natCast_eq_ofNat, BitVec.toNat_ofNat, Nat.mod_eq_of_lt (by omega)]
    rw [if_pos hpos, hused, show bytes.length - consumed.length = rest.length by omega] at h
    obtain ⟨out₂, hrec, rfl⟩ := Option.map_eq_some_iff.mp h
    have hmoved := holds_memmove hbuf (holds_append.mp hrest).1 (by omega)
    rw [ih hmoved rfl (by omega) hno hrec fun x hx => hne x (List.mem_cons_of_mem piece hx), ← List.append_assoc, ← hbytes,
      hprint]

theorem grep_eq {pieces : List (List UInt8)} {out : List UInt8} (hbuf : buf.toNat + bufSize ≤ 2 ^ 64)
    (h : grep pattern buf pieces mem 0 = some out) (hne : ∀ piece ∈ pieces, piece ≠ []) :
    out = printed pattern pieces.flatten :=
  grep_eq_printed (l := []) hbuf trivial rfl (by decide) rfl h hne

theorem grep_cons_isSome {piece : List UInt8} {pieces : List (List UInt8)} (hlen : bufSize - m - 1 = 0 ∨ piece.length ≤ bufSize - m - 1)
    (hrest : ∀ mem' m', m' ≤ m + piece.length → (grep pattern buf pieces mem' m').isSome = true) :
    (grep pattern buf (piece :: pieces) mem m).isSome = true := by
  rw [grep]
  split_ifs with hfull hlong
  · rfl
  · rcases hlen with h0 | hle
    · exact absurd h0 hfull
    · exact absurd hlong (Nat.not_lt.mpr hle)
  dsimp only
  rw [Option.isSome_map]
  split_ifs
  · exact hrest _ _ (Nat.sub_le ..)
  · exact hrest _ _ le_rfl

theorem grep_isSome_of_short {pieces : List (List UInt8)} (h : m + pieces.flatten.length < bufSize) :
    (grep pattern buf pieces mem m).isSome = true := by
  induction pieces generalizing mem m with
  | nil => rfl
  | cons piece pieces ih =>
    rw [List.flatten_cons, List.length_append] at h
    exact grep_cons_isSome (.inr (by omega)) fun mem' m' hm' => ih (by omega)

theorem grep_isSome_of_bytes (input : List UInt8) : (grep pattern buf (input.map ([·])) mem m).isSome = true := by
  induction input generalizing mem m with
  | nil => rfl
  | cons c input ih =>
    refine grep_cons_isSome ?_ fun mem' m' _ => ih
    rw [List.length_singleton]
    omega

end

/-- What `grep` prints does not depend on how the calls of `read` split the input. -/
theorem grep_independent {pattern : List UInt8} {buf : BitVec 64} (hbuf : buf.toNat + bufSize ≤ 2 ^ 64) {mem mem' : Mem}
    {ps qs : List (List UInt8)} (hps : ∀ p ∈ ps, p ≠ []) (hqs : ∀ q ∈ qs, q ≠ []) (hsame : ps.flatten = qs.flatten)
    {out out' : List UInt8} (hp : grep pattern buf ps mem 0 = some out) (hq : grep pattern buf qs mem' 0 = some out') :
    out = out' := by
  rw [grep_eq hbuf hp hps, grep_eq hbuf hq hqs, hsame]

/-- Two lines in one piece, and the same bytes in three. -/
theorem grep_independent_pieces : ∃ out out',
    grep [97] 4096 [[97, 10, 98, 10]] (fun _ => 0) 0 = some out ∧
    grep [97] 4096 [[97], [10, 98], [10]] (fun _ => 0) 0 = some out' ∧ out = out' := by
  obtain ⟨out, hout⟩ := Option.isSome_iff_exists.mp (@grep_isSome_of_short [97] (fun _ => 0) 4096 0 [[97, 10, 98, 10]] (by decide))
  obtain ⟨out', hout'⟩ := Option.isSome_iff_exists.mp
    (@grep_isSome_of_short [97] (fun _ => 0) 4096 0 [[97], [10, 98], [10]] (by decide))
  have hsame : [[97, 10, 98, 10]].flatten = [[97], [10, 98], [(10 : UInt8)]].flatten := rfl
  exact ⟨out, out', hout, hout', grep_independent (by decide) (by decide) (by decide) hsame hout hout'⟩

/-- The text of lines that end with a newline. -/
def textOf (lines : List (List UInt8)) : List UInt8 := lines.flatMap (· ++ [10])

theorem printed_textOf {pattern : List UInt8} {lines : List (List UInt8)}
    (hgood : ∀ line ∈ lines, (∀ c ∈ line, c ≠ 0 ∧ c ≠ 10) ∧ line.length < bufSize - 1) :
    printed pattern (textOf lines) = textOf (lines.filter («match» pattern)) := by
  induction lines with
  | nil => exact printed_of_none rfl
  | cons line lines ih =>
    obtain ⟨hline, hlen⟩ := hgood line (List.mem_cons_self ..)
    have hnext : nextLine (textOf (line :: lines)) = some (line, textOf lines) := by
      refine nextLine_eq_some.mpr ⟨?_, hline, hlen⟩
      unfold textOf
      rw [List.flatMap_cons, List.append_assoc, List.singleton_append]
    rw [printed_of_line hnext, ih fun l hl => hgood l (List.mem_cons_of_mem line hl), List.filter_cons]
    split_ifs
    · rfl
    · rfl

theorem match_nil (text : List UInt8) : «match» [] text = true := by
  rw [match_iff_substring]
  exact ⟨[], [], text, rfl, fun _ => rfl, rfl⟩

theorem nextLine_of_no_newline {l : List UInt8} (h : 10 ∉ l) : nextLine l = none := by
  by_contra hsome
  obtain ⟨⟨line, rest⟩, hs⟩ := Option.ne_none_iff_exists'.mp hsome
  obtain ⟨rfl, -⟩ := nextLine_eq_some.mp hs
  exact h (by simp)

theorem flatten_bytes (input : List UInt8) : (input.map ([·])).flatten = input := by
  induction input with
  | nil => rfl
  | cons c input ih => rw [List.map_cons, List.flatten_cons, ih, List.singleton_append]

end Xv6.User
