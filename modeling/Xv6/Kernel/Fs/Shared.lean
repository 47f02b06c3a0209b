import Xv6.Kernel.Fs.Filewrite
import Xv6.Lib.Run
import Mathlib.Algebra.BigOperators.Fin

/-! Several processes that write to one open file: their pieces follow each other in the file, in an
order that keeps each process's own. -/
namespace Xv6.Fs
open Lib Function

/-- The pieces that `filewrite` writes of a buffer. -/
def pieces (l : List UInt8) : List (List UInt8) :=
  if l = [] then [] else l.take maxChunk :: pieces (l.drop maxChunk)
termination_by l.length
decreasing_by
  have : 0 < l.length := List.length_pos_iff.mpr (by assumption)
  have : 0 < maxChunk := by decide
  rw [List.length_drop]
  omega

theorem pieces_nil : pieces [] = [] := by
  rw [pieces, if_pos rfl]

theorem pieces_of_ne_nil {l : List UInt8} (h : l ≠ []) : pieces l = l.take maxChunk :: pieces (l.drop maxChunk) := by
  rw [pieces, if_neg h]

theorem flatten_pieces (l : List UInt8) : (pieces l).flatten = l := by
  by_cases h : l = []
  · rw [h, pieces_nil]
    rfl
  · rw [pieces_of_ne_nil h, List.flatten_cons, flatten_pieces (l.drop maxChunk), List.take_append_drop]
termination_by l.length
decreasing_by
  have : 0 < l.length := List.length_pos_iff.mpr h
  have : 0 < maxChunk := by decide
  rw [List.length_drop]
  omega

/-- A call of `filewrite` with a buffer that can be read. -/
structure Call where
  page : ℕ → Option Bytes
  addr : ℕ
  bytes : List UInt8
  readable : ∀ l < bytes.length, (Src.user page addr).byte l = bytes[l]?

/-- The calls a process has still to make, the one it is in first, with the `i` of that one; and what
the others returned. -/
structure Writer where
  calls : List Call
  i : ℕ
  results : List ℤ

structure Shared (ι : Type) where
  sys : Sys
  writer : ι → Writer

section
variable {ι : Type} [DecidableEq ι]

def Shared.setWriter (s : Shared ι) (w : ι) (x : Writer) : Shared ι :=
  { s with writer := update s.writer w x }

/-- The call of `w` returns. -/
def Writer.return (x : Writer) (c : Call) : Writer :=
  { calls := x.calls.tail, i := 0, results := x.results ++ [writeResult x.i c.bytes.length] }

/-- One transaction of process `w`, or the return from its call. -/
def Shared.step (sb : Superblock) (f : Fin nfile) (s : Shared ι) (w : ι) : Except Halt (Shared ι) :=
  let x := s.writer w
  match x.calls with
  | [] => .error .blocked
  | c :: _ =>
    if x.i < c.bytes.length then
      match writeTurn sb f c.page c.addr c.bytes.length x.i s.sys with
      | .error e => .error e
      | .ok (none, sys) => .ok ({ s with sys := sys }.setWriter w (x.return c))
      | .ok (some i, sys) => .ok ({ s with sys := sys }.setWriter w { x with i := i })
    else .ok (s.setWriter w (x.return c))

/-- The pieces that a process has still to write. -/
def Writer.left (x : Writer) : List (List UInt8) :=
  match x.calls with
  | [] => []
  | c :: cs => pieces (c.bytes.drop x.i) ++ cs.flatMap fun c => pieces c.bytes

/-- The pieces of `w` in the history `h`. -/
def ownPieces (h : List (ι × List UInt8)) (w : ι) : List (List UInt8) :=
  (h.filter fun x => x.1 = w).map Prod.snd

theorem ownPieces_append_self (h : List (ι × List UInt8)) (w : ι) (l : List UInt8) :
    ownPieces (h ++ [(w, l)]) w = ownPieces h w ++ [l] := by
  simp [ownPieces]

theorem ownPieces_append_of_ne (h : List (ι × List UInt8)) {w v : ι} (hne : w ≠ v) (l : List UInt8) :
    ownPieces (h ++ [(w, l)]) v = ownPieces h v := by
  simp [ownPieces, hne]

variable {x : Writer} {c : Call} {cs : List Call}

theorem Writer.left_of_lt (hc : x.calls = c :: cs) (hi : x.i < c.bytes.length) :
    x.left = (c.bytes.drop x.i).take maxChunk ::
      { x with i := x.i + min (c.bytes.length - x.i) maxChunk }.left := by
  have hne : c.bytes.drop x.i ≠ [] := by
    rw [← List.length_pos_iff, List.length_drop]
    omega
  have hdrop : (c.bytes.drop x.i).drop maxChunk = c.bytes.drop (x.i + min (c.bytes.length - x.i) maxChunk) := by
    rw [List.drop_drop]
    by_cases h : c.bytes.length - x.i ≤ maxChunk
    · rw [List.drop_eq_nil_of_le (by omega), List.drop_eq_nil_of_le (by omega)]
    · rw [min_eq_right (by omega)]
  unfold Writer.left
  simp only [hc]
  rw [pieces_of_ne_nil hne, hdrop]
  rfl

theorem Writer.left_return (hc : x.calls = c :: cs) (hi : c.bytes.length ≤ x.i) : (x.return c).left = x.left := by
  unfold Writer.left Writer.return
  simp only [hc, List.tail_cons, List.drop_eq_nil_of_le hi, pieces_nil, List.nil_append]
  cases cs with
  | nil | cons c' cs => rfl

/-- The bytes that a process has still to write. -/
def Writer.rest (x : Writer) : ℕ := x.left.flatten.length

/-- `h` is the order in which the pieces have gone to the file since `s₀`. -/
structure Interleaved [Fintype ι] (sb : Superblock) (f : Fin nfile) (s₀ s : Shared ι)
    (h : List (ι × List UInt8)) : Prop where
  ready : Ready sb s.sys.fs (s.sys.file f).ip
  off : (s.sys.file f).off = (s₀.sys.file f).off + (h.flatMap Prod.snd).length
  bytes : s.sys.bytes f = overwrite (s₀.sys.bytes f) (s₀.sys.file f).off (h.flatMap Prod.snd)
  short : ∀ p ∈ h, p.2.length ≤ maxChunk
  own : ∀ w, ownPieces h w ++ (s.writer w).left = (s₀.writer w).left
  results : ∀ w, (s.writer w).results ++ (s.writer w).calls.map (fun c => (c.bytes.length : ℤ)) =
    (s₀.writer w).calls.map fun c => (c.bytes.length : ℤ)
  le : ∀ w c cs, (s.writer w).calls = c :: cs → (s.writer w).i ≤ c.bytes.length
  room : (s.sys.file f).off + ∑ w, (s.writer w).rest ≤ maxfile * bsize

/-- The bytes of a call from `i` on, as `writeTurn` takes them. -/
def Call.get (c : Call) : Bytes := fun l => c.bytes.getD l 0

theorem Call.byte (c : Call) (l : ℕ) (hl : l < c.bytes.length) : (Src.user c.page c.addr).byte l = some (c.get l) := by
  rw [c.readable l hl, Call.get, List.getD_eq_getElem?_getD, List.getElem?_eq_getElem hl]
  rfl

theorem Call.piece (c : Call) {i : ℕ} (hi : i < c.bytes.length) :
    (List.range' i (min (c.bytes.length - i) maxChunk)).map c.get = (c.bytes.drop i).take maxChunk := by
  refine List.ext_getElem? fun k => ?_
  by_cases hk : k < min (c.bytes.length - i) maxChunk
  · rw [List.getElem?_map, List.getElem?_range' hk, List.getElem?_take_of_lt (by omega), List.getElem?_drop, Nat.one_mul]
    simp only [Option.map_some, Call.get]
    rw [List.getD_eq_getElem?_getD, List.getElem?_eq_getElem (by omega)]
    rfl
  · rw [List.getElem?_eq_none (by simp; omega), List.getElem?_eq_none (by simp; omega)]

variable [Fintype ι] {sb : Superblock} {f : Fin nfile} {s₀ s s' : Shared ι} {h : List (ι × List UInt8)} {w : ι}

theorem Interleaved.off_le (hs : Interleaved sb f s₀ s h) (h₀ : (s₀.sys.file f).off ≤ (s₀.sys.bytes f).length) :
    (s.sys.file f).off ≤ (s.sys.bytes f).length ∧ (s.sys.file f).off < 2 ^ 32 := by
  have hroom := hs.room
  have hmaxfile : maxfile * bsize = 274432 := rfl
  rw [hs.bytes, length_overwrite h₀, hs.off]
  rw [hs.off] at hroom
  omega

theorem sum_rest_setWriter (s : Shared ι) (w : ι) (x : Writer) :
    ∑ v, ((s.setWriter w x).writer v).rest + (s.writer w).rest = ∑ v, (s.writer v).rest + x.rest := by
  have h : ∀ g : ι → Writer, ∑ v, (g v).rest = (g w).rest + ∑ v ∈ Finset.univ.erase w, (g v).rest := fun g =>
    (Finset.add_sum_erase _ _ (Finset.mem_univ w)).symm
  have hrest : ∑ v ∈ Finset.univ.erase w, ((s.setWriter w x).writer v).rest =
      ∑ v ∈ Finset.univ.erase w, (s.writer v).rest := by
    refine Finset.sum_congr rfl fun v hv => ?_
    show (update s.writer w x v).rest = _
    rw [update_of_ne (Finset.ne_of_mem_erase hv)]
  have hw : ((s.setWriter w x).writer w).rest = x.rest := by
    show (update s.writer w x w).rest = _
    rw [update_self]
  rw [h, h s.writer, hrest, hw]
  omega

theorem Interleaved.return (hs : Interleaved sb f s₀ s h) (hc : (s.writer w).calls = c :: cs)
    (hi : c.bytes.length ≤ (s.writer w).i) : Interleaved sb f s₀ (s.setWriter w ((s.writer w).return c)) h := by
  have hi' : (s.writer w).i = c.bytes.length := le_antisymm (hs.le w c cs hc) hi
  have hleft := Writer.left_return hc hi
  refine ⟨hs.ready, hs.off, hs.bytes, hs.short, fun v => ?_, fun v => ?_, fun v c' cs' hv => ?_, ?_⟩
  · show ownPieces h v ++ (update s.writer w _ v).left = _
    by_cases hv : v = w
    · subst hv
      rw [update_self, hleft]
      exact hs.own v
    · rw [update_of_ne hv]
      exact hs.own v
  · show (update s.writer w _ v).results ++ (update s.writer w _ v).calls.map _ = _
    by_cases hv : v = w
    · subst hv
      rw [update_self, ← hs.results v, hc]
      simp [Writer.return, hc, writeResult, hi']
    · rw [update_of_ne hv]
      exact hs.results v
  · change (update s.writer w _ v).calls = _ at hv
    show (update s.writer w _ v).i ≤ _
    by_cases hvw : v = w
    · subst hvw
      rw [update_self]
      exact Nat.zero_le _
    · rw [update_of_ne hvw] at hv ⊢
      exact hs.le v c' cs' hv
  · have hsum := sum_rest_setWriter s w ((s.writer w).return c)
    have hrest : ((s.writer w).return c).rest = (s.writer w).rest := by rw [Writer.rest, Writer.rest, hleft]
    have hroom := hs.room
    show (s.sys.file f).off + _ ≤ _
    omega

/-- A piece goes to the file. -/
theorem Interleaved.turn {sys : Sys} (hs : Interleaved sb f s₀ s h)
    (h₀ : (s₀.sys.file f).off ≤ (s₀.sys.bytes f).length) (hc : (s.writer w).calls = c :: cs)
    (hi : (s.writer w).i < c.bytes.length)
    (hst : Stored sb f c.get (s.writer w).i ((s.writer w).i + min (c.bytes.length - (s.writer w).i) maxChunk)
      s.sys sys) :
    Interleaved sb f s₀
      ({ s with sys := sys }.setWriter w
        { s.writer w with i := (s.writer w).i + min (c.bytes.length - (s.writer w).i) maxChunk })
      (h ++ [(w, (c.bytes.drop (s.writer w).i).take maxChunk)]) := by
  have hleft := Writer.left_of_lt hc hi
  have hoff := hst.off
  have hbytes := hst.bytes
  rw [Nat.add_sub_cancel_left] at hoff hbytes
  rw [c.piece hi] at hbytes
  set x := s.writer w with hx
  set n1 := min (c.bytes.length - x.i) maxChunk with hn1
  set l := (c.bytes.drop x.i).take maxChunk with hl
  have hlen : l.length = n1 := by
    rw [hl, List.length_take, List.length_drop, min_comm]
  refine ⟨?_, ?_, ?_, fun p hp => ?_, fun v => ?_, fun v => ?_, fun v c' cs' hv => ?_, ?_⟩
  · show Ready sb sys.fs (sys.file f).ip
    rw [hst.ip]
    exact hst.ready
  · show (sys.file f).off = _
    rw [hoff, hs.off, List.flatMap_append, List.length_append]
    simp [hlen, Nat.add_assoc]
  · show sys.bytes f = _
    rw [hbytes, hs.bytes, hs.off, overwrite_overwrite h₀, List.flatMap_append]
    simp
  · rcases List.mem_append.mp hp with hp | hp
    · exact hs.short p hp
    · rw [List.mem_singleton.mp hp, hlen]
      exact min_le_right _ _
  · show _ ++ (update s.writer w _ v).left = _
    by_cases hv : v = w
    · subst hv
      rw [update_self, ownPieces_append_self, List.append_assoc, List.singleton_append, ← hleft]
      exact hs.own v
    · rw [update_of_ne hv, ownPieces_append_of_ne _ (Ne.symm hv)]
      exact hs.own v
  · show (update s.writer w _ v).results ++ (update s.writer w _ v).calls.map _ = _
    by_cases hv : v = w
    · subst hv
      rw [update_self]
      exact hs.results v
    · rw [update_of_ne hv]
      exact hs.results v
  · change (update s.writer w _ v).calls = _ at hv
    show (update s.writer w _ v).i ≤ _
    by_cases hvw : v = w
    · subst hvw
      rw [update_self] at hv ⊢
      obtain ⟨rfl, rfl⟩ := List.cons.inj (hc.symm.trans hv)
      show x.i + n1 ≤ _
      omega
    · rw [update_of_ne hvw] at hv ⊢
      exact hs.le v c' cs' hv
  · have hsum := sum_rest_setWriter ({ s with sys := sys } : Shared ι) w { x with i := x.i + n1 }
    have hrest : x.rest = n1 + { x with i := x.i + n1 }.rest := by
      rw [Writer.rest, hleft, List.flatten_cons, List.length_append, hlen]
      rfl
    have hroom := hs.room
    change _ + x.rest = ∑ v, (s.writer v).rest + _ at hsum
    show (sys.file f).off + ∑ v, (({ s with sys := sys } : Shared ι).setWriter w { x with i := x.i + n1 } |>.writer v).rest
      ≤ _
    omega

theorem Interleaved.step (hs : Interleaved sb f s₀ s h) (h₀ : (s₀.sys.file f).off ≤ (s₀.sys.bytes f).length) (w : ι) :
    match s.step sb f w with
    | .ok s' => ∃ h', Interleaved sb f s₀ s' h'
    | .error e => (s.writer w).calls = [] ∨ e = .panic .ballocOutOfBlocks := by
  cases hc : (s.writer w).calls with
  | nil =>
    unfold Shared.step
    simp [hc]
  | cons c cs =>
    by_cases hi : (s.writer w).i < c.bytes.length
    · have hroom : (s.sys.file f).off + min (c.bytes.length - (s.writer w).i) maxChunk ≤ maxfile * bsize := by
        have hrest : min (c.bytes.length - (s.writer w).i) maxChunk ≤ (s.writer w).rest := by
          rw [Writer.rest, Writer.left_of_lt hc hi, List.flatten_cons, List.length_append, List.length_take,
            List.length_drop, min_comm]
          exact Nat.le_add_right _ _
        have hsum : (s.writer w).rest ≤ ∑ v, (s.writer v).rest :=
          Finset.single_le_sum (f := fun v => (s.writer v).rest) (fun _ _ => Nat.zero_le _) (Finset.mem_univ w)
        have := hs.room
        omega
      obtain ⟨hle, hlt⟩ := hs.off_le h₀
      have hturn := wp_writeTurn hs.ready hlt hi c.byte
      unfold Shared.step
      simp only [hc, if_pos hi]
      cases hr : writeTurn sb f c.page c.addr c.bytes.length (s.writer w).i s.sys with
      | error e => exact .inr (hturn.of_error hr)
      | ok r =>
        obtain ⟨r, sys⟩ := r
        -- the offset is inside the file and the piece fits, so `writei` accepts the request
        rcases hturn.of_ok hr with ⟨-, hrefused, -⟩ | ⟨rfl, hst⟩
        · omega
        · have hnext := hs.turn h₀ hc hi hst
          simp only [hc] at hnext
          exact ⟨_, hnext⟩
    · unfold Shared.step
      simp only [hc, if_neg hi]
      exact ⟨h, hs.return hc (Nat.le_of_not_lt hi)⟩

theorem Interleaved.start (hready : Ready sb s.sys.fs (s.sys.file f).ip) (hidle : ∀ w, (s.writer w).i = 0)
    (hresults : ∀ w, (s.writer w).results = [])
    (hroom : (s.sys.file f).off + ∑ w, (s.writer w).rest ≤ maxfile * bsize) : Interleaved sb f s s [] := by
  refine ⟨hready, rfl, ?_, fun _ hp => absurd hp List.not_mem_nil, fun _ => rfl, fun w => ?_, fun w c cs _ => ?_, hroom⟩
  · exact (overwrite_nil _ _).symm
  · rw [hresults w]
    rfl
  · rw [hidle w]
    exact Nat.zero_le _

theorem Writer.left_start (hi : x.i = 0) : x.left = x.calls.flatMap fun c => pieces c.bytes := by
  unfold Writer.left
  cases x.calls with
  | nil => rfl
  | cons c cs =>
    dsimp only
    rw [hi, List.drop_zero, List.flatMap_cons]

theorem Writer.rest_start (hi : x.i = 0) : x.rest = (x.calls.map fun c => c.bytes.length).sum := by
  rw [Writer.rest, Writer.left_start hi]
  induction x.calls with
  | nil => rfl
  | cons c cs ih =>
    rw [List.flatMap_cons, List.flatten_append, List.length_append, flatten_pieces, ih, List.map_cons, List.sum_cons]

/-- Processes write through one open file, each with its own list of calls. In whatever order their
transactions come, the file holds from the first offset on a sequence of pieces in which those of one
process stand in its order, each once; the offset is behind the last one; a call that is over has
returned its length; and a process that has a call to make can go on unless the disk is full. -/
theorem shared_writes_interleave {s₀ s : Shared ι} (hready : Ready sb s₀.sys.fs (s₀.sys.file f).ip)
    (hoff : (s₀.sys.file f).off ≤ (s₀.sys.bytes f).length)
    (hroom : (s₀.sys.file f).off + ∑ w, ((s₀.writer w).calls.map fun c => c.bytes.length).sum ≤ maxfile * bsize)
    (hidle : ∀ w, (s₀.writer w).i = 0) (hresults : ∀ w, (s₀.writer w).results = [])
    (hrun : Run (Shared.step sb f) (fun _ _ => True) s₀ s) :
    (∃ h : List (ι × List UInt8),
      s.sys.bytes f = overwrite (s₀.sys.bytes f) (s₀.sys.file f).off (h.flatMap Prod.snd) ∧
      (s.sys.file f).off = (s₀.sys.file f).off + (h.flatMap Prod.snd).length ∧
      (∀ p ∈ h, p.2.length ≤ 3 * bsize) ∧
      (∀ w, ownPieces h w <+: (s₀.writer w).calls.flatMap fun c => pieces c.bytes) ∧
      (∀ w, (s.writer w).calls = [] → ownPieces h w = (s₀.writer w).calls.flatMap fun c => pieces c.bytes)) ∧
    (∀ w, (s.writer w).results ++ (s.writer w).calls.map (fun c => (c.bytes.length : ℤ)) =
      (s₀.writer w).calls.map fun c => (c.bytes.length : ℤ)) ∧
    ∀ w e, s.step sb f w = .error e → (s.writer w).calls = [] ∨ e = .panic .ballocOutOfBlocks := by
  have hstart : Interleaved sb f s₀ s₀ [] := by
    refine .start hready hidle hresults ?_
    rwa [Finset.sum_congr rfl fun w _ => Writer.rest_start (hidle w)]
  obtain ⟨h, hs⟩ : ∃ h, Interleaved sb f s₀ s h := by
    refine hrun.invariant (I := fun s => ∃ h, Interleaved sb f s₀ s h) ⟨[], hstart⟩ ?_
    rintro t w t' ⟨h, ht⟩ - hst
    have := ht.step hoff w
    rwa [hst] at this
  have hown : ∀ w, ownPieces h w ++ (s.writer w).left = (s₀.writer w).calls.flatMap fun c => pieces c.bytes :=
    fun w => (hs.own w).trans (Writer.left_start (hidle w))
  refine ⟨⟨h, hs.bytes, hs.off, hs.short, fun w => ⟨_, hown w⟩, fun w hw => ?_⟩, hs.results, fun w e he => ?_⟩
  · have hleft : (s.writer w).left = [] := by
      unfold Writer.left
      rw [hw]
    rw [← hown w, hleft, List.append_nil]
  · have := hs.step hoff w
    rwa [he] at this

end

/-- One process appends three sevens, another one two nines. -/
def soleShared : Shared (Fin 2) where
  sys := soleSys 3 3
  writer := ![{ calls := [⟨fun _ => some fun _ => 7, 0, [7, 7, 7], by decide⟩], i := 0, results := [] },
    { calls := [⟨fun _ => some fun _ => 9, 0, [9, 9], by decide⟩], i := 0, results := [] }]

theorem shared_writes_interleave_sole : ∃ s : Shared (Fin 2),
    Run (Shared.step soleSb 0) (fun _ _ => True) soleShared s ∧
      ∃ h : List (Fin 2 × List UInt8), s.sys.bytes 0 = overwrite ((soleSys 3 3).bytes 0) 3 (h.flatMap Prod.snd) := by
  obtain ⟨s, -, hs⟩ : ∃ s, exec (Shared.step soleSb 0) (fun _ _ => True) soleShared [1, 0, 0, 1] = some s ∧
      Run (Shared.step soleSb 0) (fun _ _ => True) soleShared s := by
    have h : (exec (Shared.step soleSb 0) (fun _ _ => True) soleShared [1, 0, 0, 1]).isSome = true := by decide +kernel
    obtain ⟨s, hs⟩ := Option.isSome_iff_exists.mp h
    exact ⟨s, hs, run_of_exec _ hs⟩
  refine ⟨s, hs, ?_⟩
  obtain ⟨⟨h, hbytes, -⟩, -⟩ := shared_writes_interleave (soleSys_ready (by decide)) (by decide +kernel)
    (by decide +kernel) (by decide) (by decide) hs
  exact ⟨h, hbytes⟩

end Xv6.Fs
