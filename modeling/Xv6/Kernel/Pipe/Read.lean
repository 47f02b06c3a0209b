import Xv6.Kernel.Pipe.Stream
import Xv6.Kernel.Vm.Pagetable
import Xv6.Lib.Await
import Xv6.Lib.Run

/-! `piperead` with the memory that it copies to, and what readers get of the bytes that have been
put into a pipe. -/
namespace Xv6.Pipe
open Lib
open Vm (maxva walks lt_maxva_of_walks)

/-- The second loop of `piperead`, with as many turns left as `i` is below `n`. -/
def pipereadLoop (mapped : ℕ → Bool) (addr : ℕ) : ℕ → ℕ → Pipe → Bytes → ℕ × Pipe × Bytes
  | 0, i, d, mem => (i, d, mem)
  | k + 1, i, d, mem =>
    if d.nread = d.nwrite then (i, d, mem)
    else
      let ch := d.data (cell pipesize d.nread)
      let (ok, mem) := copyout (walks mapped) mem ((addr + i) % 2 ^ 64) (fun _ => ch) 1
      if ok then pipereadLoop mapped addr k (i + 1) d.pop mem else (i, d.pop, mem)

/-- What `piperead` returns, with the pipe and the memory then. It has not returned while it is asleep. -/
def piperead (mapped : ℕ → Bool) (addr : ℕ) (n : ℤ) (d : Pipe) (killed : Bool) (wakes : List (Pipe × Bool)) (mem : Bytes) :
    Option (ℤ × Pipe × Bytes) :=
  match sleepWhile (fun d : Pipe => d.nread = d.nwrite ∧ d.writeopen = true) d killed wakes with
  | .asleep => none
  | .stopped d => some (-1, d, mem)
  | .go d _ _ =>
    let (i, d, mem) := pipereadLoop mapped addr n.toNat 0 d mem
    some (i, d, mem)

section
variable {mapped : ℕ → Bool} {addr i k : ℕ} {d : Pipe} {mem : Bytes}

/-- How many bytes are in the ring. -/
def length (d : Pipe) : ℕ := (d.nwrite - d.nread).toNat

/-- `j` bytes are taken out. -/
def pops (d : Pipe) (j : ℕ) : Pipe :=
  { d with nread := d.nread + BitVec.ofNat 32 j, taken := d.taken ++ window d.data d.nread j }

theorem pops_zero (d : Pipe) : d.pops 0 = d := by simp [pops, window]

theorem pops_pop (d : Pipe) (j : ℕ) : d.pop.pops j = d.pops (j + 1) := by
  unfold pops pop
  rw [window_succ_first, List.append_assoc, BitVec.ofNat_add, add_comm (BitVec.ofNat 32 j), ← add_assoc]
  rfl

theorem length_pop (h : d.nread ≠ d.nwrite) : d.pop.length + 1 = d.length := toNat_sub_succ h

theorem pipereadLoop_spec (ha : addr + i < 2 ^ 64) : ∃ j ≤ min k d.length,
    pipereadLoop mapped addr k i d mem =
      (i + j, d.pops (if j < min k d.length then j + 1 else j),
        mem.blit (addr + i) j fun q => d.data (cell pipesize (d.nread + BitVec.ofNat 32 q))) ∧
    (j < min k d.length → ¬ walks mapped (pgRoundDown (addr + i + j)) = true) := by
  induction k generalizing i d mem with
  | zero =>
    refine ⟨0, Nat.zero_le _, ?_, by omega⟩
    rw [pipereadLoop, Nat.zero_min, if_neg (by omega), pops_zero, Bytes.blit_zero]
    rfl
  | succ k ih =>
    rw [pipereadLoop]
    by_cases he : d.nread = d.nwrite
    · have hlen : d.length = 0 := by simp [length, he]
      rw [if_pos he, hlen, Nat.min_zero]
      refine ⟨0, le_rfl, ?_, by omega⟩
      rw [if_neg (by omega), pops_zero, Bytes.blit_zero]
      rfl
    · rw [if_neg he, Nat.mod_eq_of_lt ha]
      dsimp only
      rw [copyout_one]
      dsimp only
      have hlen := length_pop he
      by_cases hm : walks mapped (pgRoundDown (addr + i)) = true
      · rw [if_pos hm, if_pos hm]
        have hlt := lt_maxva_of_walks hm
        unfold maxva at hlt
        obtain ⟨j, hj, heq, hbad⟩ := @ih (i + 1) d.pop (mem.blit (addr + i) 1 fun _ => d.data (cell pipesize d.nread)) (by omega)
        refine ⟨j + 1, by omega, ?_, fun hlt => ?_⟩
        · rw [heq, pops_pop, show i + 1 + j = i + (j + 1) by omega]
          refine congrArg (Prod.mk _) (congrArg₂ Prod.mk (congrArg _ ?_) ?_)
          · split_ifs <;> omega
          · rw [← Nat.add_assoc, Nat.add_comm j 1]
            refine Bytes.blit_blit (fun q hq => ?_) (fun q _ => ?_) mem (addr + i)
            · rw [Nat.lt_one_iff.mp hq]
              simp
            · simp only [pop]
              rw [BitVec.ofNat_add, ← add_assoc]
              rfl
        · have := hbad (by omega)
          rwa [show addr + (i + 1) + j = addr + i + (j + 1) by omega] at this
      · rw [if_neg hm, if_neg hm]
        refine ⟨0, Nat.zero_le _, ?_, fun _ => hm⟩
        rw [if_pos (by omega), Bytes.blit_zero, ← pops_pop, pops_zero]
        rfl

theorem Streams.pops (h : d.Streams) {j : ℕ} (hj : j ≤ d.length) : (d.pops j).Streams := by
  induction j generalizing d with
  | zero => rwa [pops_zero]
  | succ j ih =>
    have hne : d.nread ≠ d.nwrite := by
      intro he
      rw [length, he, sub_self] at hj
      exact absurd hj (by simp)
    have hlen := length_pop hne
    rw [← pops_pop]
    exact ih (h.pop hne) (by omega)

end

/-- A pipe, with the bytes that its readers have been given. -/
structure Flow where
  pipe : Pipe
  delivered : List UInt8

/-- A turn of `pipewrite` that puts a byte into the ring, a `piperead` from where it does not sleep
any more, or `pipeclose`. -/
inductive Act
  | put (ch : UInt8)
  | read (mapped : ℕ → Bool) (addr : Fin (2 ^ 64)) (n : ℤ) (killed : Bool) (mem : Bytes)
  | close (writable : Bool)

/-- What a call that has returned `r` has delivered. -/
def received (addr : ℕ) (r : ℤ) (mem : Bytes) : List UInt8 := (List.range r.toNat).map fun k => mem (addr + k)

def Flow.step (f : Flow) : Act → Except Unit Flow
  | .put ch => if f.pipe.Full then .error () else .ok { f with pipe := f.pipe.push ch }
  | .read mapped addr n killed mem =>
    match piperead mapped addr n f.pipe killed [] mem with
    | none => .error ()
    | some (r, d, mem) => .ok { pipe := d, delivered := f.delivered ++ received addr r mem }
  | .close true => .ok { f with pipe := { f.pipe with writeopen := false } }
  | .close false => .ok { f with pipe := { f.pipe with readopen := false } }

/-- Every byte that a read can deliver has a place. -/
def Mapped (f : Flow) : Act → Prop
  | .read mapped addr n _ _ => ∀ k < f.pipe.length, (k : ℤ) < n → walks mapped (pgRoundDown (addr + k)) = true
  | _ => True

instance (f : Flow) : DecidablePred (Mapped f)
  | .read _ _ _ _ _ => inferInstanceAs (Decidable (∀ _ < _, _))
  | .put _ => inferInstanceAs (Decidable True)
  | .close _ => inferInstanceAs (Decidable True)

section
variable {mapped : ℕ → Bool} {addr : Fin (2 ^ 64)} {n : ℤ} {killed : Bool} {f : Flow} {d d' : Pipe} {mem mem' : Bytes} {r : ℤ}

theorem received_blit (a j : ℕ) (mem src : Bytes) : received a j (mem.blit a j src) = (List.range j).map src := by
  unfold received
  rw [Int.toNat_natCast]
  refine List.map_congr_left fun k hk => ?_
  rw [Bytes.blit, if_pos (by have := List.mem_range.mp hk; omega), Nat.add_sub_cancel_left]

theorem piperead_spec {addr : ℕ} {wakes : List (Pipe × Bool)} (haddr : addr < 2 ^ 64) (h : piperead mapped addr n d killed wakes mem = some (r, d', mem')) :
    (r = -1 ∧ mem' = mem ∧ d' ∈ d :: wakes.map Prod.fst) ∨
    ∃ go ∈ d :: wakes.map Prod.fst, ∃ j ≤ min n.toNat go.length, r = j ∧
      d' = go.pops (if j < min n.toNat go.length then j + 1 else j) ∧
      mem' = mem.blit addr j (fun q => go.data (cell pipesize (go.nread + BitVec.ofNat 32 q))) ∧
      (j < min n.toNat go.length → ¬ walks mapped (pgRoundDown (addr + j)) = true) := by
  unfold piperead at h
  split at h
  · cases h
  · next d₁ hw =>
    obtain ⟨rfl, rfl, rfl⟩ := by simpa using h
    exact .inl ⟨rfl, rfl, mem_of_stopped hw⟩
  · next go k ws hw =>
    obtain ⟨j, hj, heq, hbad⟩ := @pipereadLoop_spec mapped addr 0 n.toNat go mem haddr
    rw [heq] at h
    simp only [Option.some.injEq, Prod.mk.injEq, Nat.zero_add, Nat.add_zero] at h hbad
    obtain ⟨rfl, rfl, rfl⟩ := h
    exact .inr ⟨go, mem_of_go hw, j, hj, rfl, rfl, rfl, hbad⟩

theorem piperead_of_mapped (hm : Mapped f (.read mapped addr n killed mem))
    (h : piperead mapped addr n f.pipe killed [] mem = some (r, d', mem')) :
    r.toNat ≤ f.pipe.length ∧ d' = f.pipe.pops r.toNat ∧ received addr r mem' = window f.pipe.data f.pipe.nread r.toNat := by
  obtain ⟨rfl, rfl, hd⟩ | ⟨go, hgo, j, hj, rfl, rfl, rfl, hbad⟩ := piperead_spec addr.isLt h
  · obtain rfl := List.mem_singleton.mp hd
    exact ⟨Nat.zero_le _, (pops_zero _).symm, rfl⟩
  · obtain rfl := List.mem_singleton.mp hgo
    rw [Int.toNat_natCast]
    refine ⟨by omega, ?_, received_blit _ _ _ _⟩
    rw [if_neg fun hlt => hbad hlt (hm j (by omega) (by omega))]

theorem Flow.inv_step {a : Act} {f' : Flow} (h : f.pipe.Streams ∧ f.delivered = f.pipe.taken) (ha : Mapped f a)
    (hs : f.step a = .ok f') : f'.pipe.Streams ∧ f'.delivered = f'.pipe.taken := by
  cases a with
  | put ch =>
    rw [Flow.step] at hs
    split_ifs at hs with hf
    cases hs
    exact ⟨h.1.push hf ch, h.2⟩
  | read mapped addr n killed mem =>
    rw [Flow.step] at hs
    split at hs
    · cases hs
    · next r d mem' hr =>
      cases hs
      obtain ⟨hle, rfl, hrec⟩ := piperead_of_mapped ha hr
      refine ⟨h.1.pops hle, ?_⟩
      rw [hrec, h.2]
      rfl
  | close writable =>
    cases writable <;> cases hs <;> exact ⟨⟨h.1.room, h.1.stored⟩, h.2⟩

/-- While no read faults, what is delivered is a prefix of what has been put in, and a read takes
out of the ring as many bytes as it returns. -/
theorem reads_lose_nothing {data : Fin pipesize → UInt8} {c : Uint}
    (h : Run Flow.step Mapped { pipe := pipealloc data c, delivered := [] } f) :
    f.delivered <+: f.pipe.put ∧
    f.pipe.put = f.delivered ++ contents f.pipe.data f.pipe.nread f.pipe.nwrite ∧
    ∀ mapped addr n killed mem r d mem', Mapped f (.read mapped addr n killed mem) →
      piperead mapped addr n f.pipe killed [] mem = some (r, d, mem') →
      d.nread = f.pipe.nread + BitVec.ofNat 32 r.toNat ∧ d.taken = f.pipe.taken ++ received addr r mem' := by
  have h0 : (pipealloc data c).Streams := ⟨by simp [pipealloc], by simp [pipealloc, contents, window]⟩
  obtain ⟨hs, hd⟩ := h.invariant (I := fun f => f.pipe.Streams ∧ f.delivered = f.pipe.taken) ⟨h0, rfl⟩
    fun _ _ _ hi ha hst => Flow.inv_step hi ha hst
  refine ⟨?_, ?_, fun mapped addr n killed mem r d mem' hm hr => ?_⟩
  · rw [hd, hs.stored]
    exact List.prefix_append _ _
  · rw [hd, hs.stored]
  · obtain ⟨-, rfl, hrec⟩ := piperead_of_mapped hm hr
    rw [hrec]
    exact ⟨rfl, rfl⟩

theorem reads_lose_nothing_two : ∃ f, Run Flow.step Mapped { pipe := pipealloc (fun _ => 0) 0, delivered := [] } f ∧
    f.delivered = [7] ∧ f.delivered <+: f.pipe.put := by
  obtain ⟨f, hr, ht⟩ := exists_run_of_exec Flow.step Mapped { pipe := pipealloc (fun _ => 0) 0, delivered := [] }
    [.put 7, .put 8, .read (fun a => a = 4096) 8191 1 false fun _ => 0] (fun f => f.delivered = [7]) (by decide +kernel)
  exact ⟨f, hr, of_decide_eq_true ht, (reads_lose_nothing hr).1⟩

/-- A read to an address that is not mapped returns 0 and takes a byte out, which no reader gets. -/
theorem faulting_read_loses : ∃ f f', Run Flow.step (fun _ _ => True) { pipe := pipealloc (fun _ => 0) 0, delivered := [] } f ∧
    (∃ d mem, piperead (fun _ => false) 0 1 f.pipe false [] (fun _ => 0) = some (0, d, mem) ∧ d.nread = f.pipe.nread + 1) ∧
    Run Flow.step (fun _ _ => True) f f' ∧ ¬ f'.delivered <+: f'.pipe.put := by
  let f : Flow := { pipe := ((pipealloc (fun _ => 0) 0).push 7).push 8, delivered := [] }
  have hf : Run Flow.step (fun _ _ => True) { pipe := pipealloc (fun _ => 0) 0, delivered := [] } f :=
    run_of_exec [.put 7, .put 8] rfl
  obtain ⟨f', hr, ht⟩ := exists_run_of_exec Flow.step (fun _ _ => True) f
    [.read (fun _ => false) 0 1 false fun _ => 0, .read (fun _ => true) 0 1 false fun _ => 0]
    (fun f => ¬ f.delivered <+: f.pipe.put) (by decide +kernel)
  exact ⟨f, f', hf, ⟨f.pipe.pop, fun _ => 0, rfl, rfl⟩, hr, of_decide_eq_true ht⟩

end

end Xv6.Pipe
