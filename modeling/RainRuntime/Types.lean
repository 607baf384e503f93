import Mathlib.Data.Fintype.Basic
import Mathlib.Logic.Function.Basic
import Mathlib.Tactic.Ring

/-!
# Vocabulary shared by the runtime's components

Time points and durations are integers, in nanoseconds. Coroutine handles and the
addresses of `WaitState` and `Result` cells are numbers; a nullable pointer is an
`Option`. The cells themselves live in a `Heap`, because the reactor, the timer
wheel and the cancellation callbacks all reach them through pointers.
-/

namespace RainRuntime

abbrev TimerId := ℕ
abbrev Handle := ℕ
abbrev StatePtr := ℕ

inductive WaitState where
  | pending
  | ready
  | timedOut
  | cancelled
  deriving DecidableEq, Repr

/-- The `errno` values the runtime tells apart; every other one is kept as its number. -/
inductive Errno where
  | noent
  | badf
  | intr
  | other (n : ℕ)
  deriving DecidableEq, Repr

inductive ErrorCode where
  | operationCanceled
  | timedOut
  | badFileDescriptor
  | deviceOrResourceBusy
  | brokenPipe
  | resourceUnavailableTryAgain
  | operationNotPermitted
  | ioError
  | invalidArgument
  | system (e : Errno)
  deriving DecidableEq, Repr

/-- An error's text: the one written at the call site, the same with the bytes of an argument
after it, or the system category's for an `errno`. -/
inductive Message where
  | text (s : String)
  | naming (s : String) (bytes : List UInt8)
  | system (e : Errno)
  deriving DecidableEq, Repr

structure SystemError where
  code : ErrorCode
  message : Message
  deriving DecidableEq, Repr

def SystemError.fromErrno (e : Errno) : SystemError := ⟨.system e, .system e⟩

def makeCancelledError : SystemError := ⟨.operationCanceled, .text "task cancelled"⟩

abbrev Result (α : Type*) := Except SystemError α

/-- The value of an `i64` after arithmetic. -/
def wrap64 (x : ℤ) : ℤ := x.bmod (2 ^ 64)

theorem wrap64_of_lt {x : ℤ} (h₀ : 0 ≤ x) (h : x < 2 ^ 63) : wrap64 x = x :=
  Int.bmod_eq_of_le (by omega) (by omega)

theorem wrap64_lt (x : ℤ) : wrap64 x < 2 ^ 63 := by
  have := @Int.bmod_lt x (2 ^ 64) (by decide)
  rw [wrap64]
  omega

theorem wrap64_of_ge {x : ℤ} (h : 2 ^ 63 ≤ x) (hlt : x < 2 ^ 64) : wrap64 x = x - 2 ^ 64 := by
  rw [wrap64, Int.bmod_def]
  split <;> omega

theorem wrap64_wrap_sub {x y : ℤ} : wrap64 (wrap64 x - y) = wrap64 (x - y) :=
  Int.bmod_sub_bmod

structure Heap where
  state : StatePtr → WaitState
  result : StatePtr → Result ℕ
  done : Handle → Bool

namespace Heap

def setState (m : Heap) (p : StatePtr) (s : WaitState) : Heap :=
  { m with state := Function.update m.state p s }

def setResult (m : Heap) (p : StatePtr) (r : Result ℕ) : Heap :=
  { m with result := Function.update m.result p r }

@[simp] theorem setState_state_self (m : Heap) (p : StatePtr) (s : WaitState) :
    (m.setState p s).state p = s := by simp [setState]

@[simp] theorem setState_done (m : Heap) (p : StatePtr) (s : WaitState) :
    (m.setState p s).done = m.done := rfl

@[simp] theorem setState_result (m : Heap) (p : StatePtr) (s : WaitState) :
    (m.setState p s).result = m.result := rfl

@[simp] theorem setResult_state (m : Heap) (p : StatePtr) (r : Result ℕ) :
    (m.setResult p r).state = m.state := rfl

@[simp] theorem setResult_done (m : Heap) (p : StatePtr) (r : Result ℕ) :
    (m.setResult p r).done = m.done := rfl

@[simp] theorem setResult_result_self (m : Heap) (p : StatePtr) (r : Result ℕ) :
    (m.setResult p r).result p = r := by simp [setResult]

end Heap
end RainRuntime
