import Xv6.Kernel.Console.Line
import Xv6.Kernel.Vm.Pagetable
import Xv6.Lib.Await

/-! `consoleread` with the memory that it copies to. -/
namespace Xv6.Console
open Lib
open Vm (maxva walks lt_maxva_of_walks)

/-- What a call leaves: its value, `cons`, the memory, and the bytes that it has copied out. -/
structure Answer where
  value : ℤ
  cons : Cons
  mem : Bytes
  copied : List UInt8

/-- The loop of `consoleread` with `n` bytes to go. It has not ended while it is asleep. -/
def consolereadLoop (mapped : ℕ → Bool) (target : ℤ) : ℕ → ℕ → Cons → Bool → List (Cons × Bool) → Bytes → List UInt8 → Option Answer
  | 0, _, d, _, _, mem, copied => some ⟨target, d, mem, copied⟩
  | n + 1, dst, d, killed, wakes, mem, copied =>
    match sleepWhile (fun d : Cons => d.r = d.w) d killed wakes with
    | .asleep => none
    | .stopped d => some ⟨-1, d, mem, copied⟩
    | .go d killed wakes =>
      let c := d.next
      let d := { d with r := d.r + 1 }
      if c = ctrlD then
        some ⟨target - (n + 1), if n + 1 < target then { d with r := d.r - 1 } else d, mem, copied⟩
      else
        let (ok, mem) := copyout (walks mapped) mem dst (fun _ => c) 1
        if !ok then some ⟨target - (n + 1), d, mem, copied⟩
        else if c = newline then some ⟨target - n, d, mem, copied ++ [c]⟩
        else consolereadLoop mapped target n ((dst + 1) % 2 ^ 64) d killed wakes mem (copied ++ [c])

/-- `consoleread(1, dst, n)`. The loop makes no turn for an `n` that is not positive. -/
def consoleread (mapped : ℕ → Bool) (dst : ℕ) (n : ℤ) (d : Cons) (killed : Bool) (wakes : List (Cons × Bool)) (mem : Bytes) :
    Option Answer :=
  if 0 < n then consolereadLoop mapped n n.toNat dst d killed wakes mem [] else some ⟨n - n, d, mem, []⟩

section
variable {mapped : ℕ → Bool} {target : ℤ} {n dst : ℕ} {d : Cons} {killed : Bool} {wakes : List (Cons × Bool)} {mem : Bytes}
  {copied : List UInt8} {a : Answer}

/-- The bytes that have been copied out are those that are in the memory, and are counted unless
the process has been killed. -/
structure Copies (target : ℤ) (n dst : ℕ) (mem : Bytes) (copied : List UInt8) (a : Answer) (new : List UInt8) : Prop where
  copied : a.copied = copied ++ new
  le : new.length ≤ n
  mem : a.mem = mem.blit dst new.length fun k => new.getD k 0
  value : a.value = -1 ∨ a.value = target - n + new.length

theorem copies_nil (d : Cons) (hv : target' = -1 ∨ target' = target - n) :
    Copies target n dst mem copied ⟨target', d, mem, copied⟩ [] where
  copied := (List.append_nil _).symm
  le := Nat.zero_le _
  mem := (Bytes.blit_zero _ _ _).symm
  value := by simpa using hv

theorem Copies.cons {c : UInt8} {new : List UInt8}
    (h : Copies target n (dst + 1) (mem.blit dst 1 fun _ => c) (copied ++ [c]) a new) :
    Copies target (n + 1) dst mem copied a (c :: new) where
  copied := by rw [h.copied, List.append_assoc, List.singleton_append]
  le := Nat.succ_le_succ h.le
  mem := by
    rw [h.mem, List.length_cons, Nat.add_comm new.length 1]
    refine Bytes.blit_blit (fun k hk => ?_) (fun k _ => ?_) mem dst
    · rw [Nat.lt_one_iff.mp hk]
      rfl
    · rw [Nat.add_comm 1 k]
      rfl
  value := by
    rcases h.value with hv | hv
    · exact .inl hv
    · right
      rw [hv, List.length_cons]
      push_cast
      ring

theorem consolereadLoop_spec (hdst : dst < 2 ^ 64) (h : consolereadLoop mapped target n dst d killed wakes mem copied = some a) :
    ∃ new, Copies target n dst mem copied a new := by
  induction n generalizing dst d killed wakes mem copied with
  | zero =>
    obtain rfl := Option.some.inj h
    exact ⟨[], copies_nil d (.inr (by simp))⟩
  | succ n ih =>
    rw [consolereadLoop] at h
    split at h
    · cases h
    · obtain rfl := Option.some.inj h
      exact ⟨[], copies_nil _ (.inl rfl)⟩
    next d killed wakes hgo =>
    dsimp only at h
    by_cases hD : d.next = ctrlD
    · rw [if_pos hD] at h
      obtain rfl := Option.some.inj h
      exact ⟨[], copies_nil _ (.inr (by push_cast; rfl))⟩
    rw [if_neg hD, copyout_one] at h
    dsimp only at h
    by_cases hm : walks mapped (pgRoundDown dst) = true
    · have hlt := lt_maxva_of_walks hm
      unfold maxva at hlt
      rw [hm] at h
      simp only [Bool.not_true, if_true] at h
      rw [if_neg Bool.false_ne_true] at h
      split_ifs at h with hnl
      · obtain rfl := Option.some.inj h
        exact ⟨[d.next], (copies_nil _ (.inr rfl)).cons⟩
      · rw [Nat.mod_eq_of_lt (by omega)] at h
        obtain ⟨new, hnew⟩ := ih (by omega) h
        exact ⟨d.next :: new, hnew.cons⟩
    · rw [Bool.not_eq_true] at hm
      rw [hm] at h
      simp only [Bool.not_false, if_true, if_neg Bool.false_ne_true] at h
      obtain rfl := Option.some.inj h
      exact ⟨[], copies_nil _ (.inr (by push_cast; rfl))⟩

theorem consoleread_spec {n : ℤ} (hdst : dst < 2 ^ 64) (h : consoleread mapped dst n d killed wakes mem = some a) :
    (a.value = -1 ∨ a.value = a.copied.length) ∧ a.copied.length ≤ n.toNat ∧
      a.mem = mem.blit dst a.copied.length fun k => a.copied.getD k 0 := by
  unfold consoleread at h
  split_ifs at h with hn
  · obtain ⟨new, hnew⟩ := consolereadLoop_spec hdst h
    have hcopied := hnew.copied
    rw [List.nil_append] at hcopied
    rw [hcopied]
    refine ⟨hnew.value.imp_right fun hv => ?_, hnew.le, hnew.mem⟩
    omega
  · obtain rfl := Option.some.inj h
    exact ⟨.inr (by simp), Nat.zero_le _, (Bytes.blit_zero _ _ _).symm⟩

end

end Xv6.Console
