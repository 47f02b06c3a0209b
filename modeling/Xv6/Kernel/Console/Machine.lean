import Xv6.Kernel.Console.Line
import Xv6.Kernel.Sched.Calls
import Mathlib.Tactic

/-! `consoleread`, `consolewrite` and `uartputc` by any number of processes, and `uartintr` on any
CPU. -/
namespace Xv6.Console
open Lib Sched

/-- `UART_TX_BUF_SIZE` -/
def uartTxBufSize : ℕ := 32

instance : NeZero uartTxBufSize := ⟨by decide⟩

inductive Lock
  | cons
  | uartTx
  deriving DecidableEq

instance : Fintype Lock := ⟨{.cons, .uartTx}, fun lk => by cases lk <;> simp⟩

/-- `&cons.r` and `&uart_tx_r` -/
inductive Chan
  | consR
  | uartTxR
  deriving DecidableEq

/-- The variables of `console.c` and `uart.c`, with what has been typed and taken so far, and what
`consoleread` has returned: bytes, and ends of file. -/
structure Data where
  cons : Cons
  uartTxBuf : Fin uartTxBufSize → UInt8
  uartTxW : Fin uartTxBufSize
  uartTxR : Fin uartTxBufSize
  history : List Event
  returned : List (Option UInt8)

/-- The buffers are empty, and the counters are 0, which nothing depends on. -/
def Data.init (n : BitVec 32) : Data where
  cons := { buf := fun _ => 0, r := n, w := n, e := n }
  uartTxBuf _ := 0
  uartTxW := 0
  uartTxR := 0
  history := []
  returned := []

/-- `(uart_tx_w + 1) % UART_TX_BUF_SIZE == uart_tx_r` -/
def Data.Full (d : Data) : Prop := d.uartTxW + 1 = d.uartTxR

instance (d : Data) : Decidable d.Full := inferInstanceAs (Decidable (_ = _))

/-- `uart_tx_buf[uart_tx_w] = c` -/
def Data.putc (d : Data) (c : UInt8) : Data :=
  { d with uartTxBuf := Function.update d.uartTxBuf d.uartTxW c, uartTxW := d.uartTxW + 1 }

/-- A character is taken out of `cons.buf`. What a reader gets for `^D` is an end of file. -/
def Data.take (d : Data) : Data :=
  { d with
    cons := { d.cons with r := d.cons.r + 1 }
    history := .took :: d.history
    returned := d.returned ++ [if d.cons.next = ctrlD then none else some d.cons.next] }

/-- Places in the calls and in the handler, with the local variables. `who` is the place in
`consolewrite` from which `uartstart` is called. -/
inductive Place
  | write (n : ℤ)
  | writeFor (i : ℕ) (n : ℤ)
  | writeDone
  | put (i : ℕ) (n : ℤ) (c : UInt8)
  | putTest (i : ℕ) (n : ℤ) (c : UInt8)
  | putSleep (i : ℕ) (n : ℤ) (c : UInt8)
  | start (who : Option (ℕ × ℤ))
  | startWake (who : Option (ℕ × ℤ))
  | startDone (who : Option (ℕ × ℤ))
  | read (n : ℤ)
  /-- `while (n > 0)` and `while (cons.r == cons.w)` -/
  | readWhile (target n : ℤ)
  | readSleep (target n : ℤ)
  | readDone
  /-- the loop of `uartintr` -/
  | intr
  | intrAcquire (c : UInt8)
  | intrChar (c : UInt8)
  | intrWake
  | intrDone
  | intrStart
  | iret

def call (m : ℕ) : Place :=
  let n : ℤ := if m / 2 % 2 = 0 then m / 4 else -(m / 4)
  if m % 2 = 0 then .write n else .read n

/-- The number of a step is what `copyin` or the UART gives: nothing, or a byte; or whether the
UART is idle. Destinations of `consoleread` are valid. -/
def code : Place → Instr (Label Place) Data Chan Lock
  | .write n => .acquire .cons (.sys (.writeFor 0 n))
  | .writeFor i n => .run fun d _ m => (d, .sys
      (if i < n then match m with | 0 => .writeDone | c + 1 => .put i n (UInt8.ofNat c) else .writeDone))
  | .writeDone => .release .cons .user
  | .put i n c => .acquire .uartTx (.sys (.putTest i n c))
  | .putTest i n c => .run fun d _ _ =>
      if d.Full then (d, .sys (.putSleep i n c)) else (d.putc c, .sys (.start (some (i, n))))
  | .putSleep i n c => .sleep .uartTxR .uartTx (.sys (.putTest i n c))
  | .start who => .run fun d _ idle =>
      if d.uartTxW = d.uartTxR ∨ idle = 0 then (d, .sys (.startDone who))
      else ({ d with uartTxR := d.uartTxR + 1 }, .sys (.startWake who))
  | .startWake who => .wakeup .uartTxR (.sys (.start who))
  | .startDone who => .release .uartTx (.sys (match who with | some (i, n) => .writeFor (i + 1) n | none => .iret))
  | .read n => .acquire .cons (.sys (.readWhile n n))
  | .readWhile target n => .run fun d killed _ =>
      if n ≤ 0 then (d, .sys .readDone)
      else if d.cons.r = d.cons.w then (d, .sys (if killed then .readDone else .readSleep target n))
      else if d.cons.next = ctrlD then (if n < target then d else d.take, .sys .readDone)
      else (d.take, .sys (if d.cons.next = newline then .readDone else .readWhile target (n - 1)))
  | .readSleep target n => .sleep .consR .cons (.sys (.readWhile target n))
  | .readDone => .release .cons .user
  | .intr => .run fun d _ m => (d, .sys (match m with | 0 => .intrStart | c + 1 => .intrAcquire (UInt8.ofNat c)))
  | .intrAcquire c => .acquire .cons (.sys (.intrChar c))
  | .intrChar c => .run fun d _ _ =>
      ({ d with cons := (d.cons.consoleintr c).1, history := .typed c :: d.history },
        .sys (if (d.cons.consoleintr c).2 then .intrWake else .intrDone))
  | .intrWake => .wakeup .consR (.sys .intrDone)
  | .intrDone => .release .cons (.sys .intr)
  | .intrStart => .acquire .uartTx (.sys (.start none))
  | .iret => .iret

def calls : Calls Place Data Chan Lock where
  call := call
  code := code
  handler
    | .intr => true
    | _ => false
  dma d _ := d

def locks : Place → List Lock
  | .write _ | .read _ | .intr | .intrAcquire _ | .intrStart | .iret => []
  | .putTest .. | .putSleep .. | .start (some _) | .startWake (some _) | .startDone (some _) => [.uartTx, .cons]
  | .start none | .startWake none | .startDone none => [.uartTx]
  | _ => [.cons]

theorem balanced : calls.kernel.Balanced (Label.locks locks) := by
  refine Calls.balanced (fun l => ?_) (fun n => ?_) (fun l => ?_) fun l hl => ?_
  · unfold locks
    split <;> simp
  · simp only [calls, call]
    split_ifs <;> rfl
  · cases l with
    | writeFor i n =>
      intro d b m
      dsimp only
      split_ifs
      · split <;> rfl
      · rfl
    | putTest i n c | readWhile target n | intrChar c =>
      intro d b m
      dsimp only
      split_ifs <;> rfl
    | start who =>
      intro d b m
      dsimp only
      cases who <;> split_ifs <;> rfl
    | startWake who | startDone who => cases who <;> rfl
    | intr => rintro d b (_ | m) <;> rfl
    | putSleep i n c | readSleep target n => exact ⟨rfl, rfl⟩
    | _ => rfl
  · cases l with
    | intr => rfl
    | _ => simp [calls] at hl

end Xv6.Console
