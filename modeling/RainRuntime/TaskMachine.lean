import RainRuntime.CoroutineBody
import RainRuntime.Transition
import RainRuntime.Types

/-!
# Tasks and their frames

A task is a coroutine that starts suspended. Awaiting it stores the awaiting coroutine in
`continuation_` and transfers control to the task; at its end `FinalAwaiter` transfers
control to the continuation, if there is one. A task that was spawned on a loop is a root:
its continuation is empty, or the coroutine that awaits its `JoinHandle`.

Frames are numbered. For each field of a frame and its promise there is one map over the
numbers; a number that is not in use stands for a finished frame. `current` is the
coroutine that runs on the loop's thread.

Two things have no meaning in the source language: to resume a coroutine that is not
suspended where its resumer thinks it is, and to unwrap a result that holds an error or is
not there. The machine stops at them with a fault.
-/

namespace RainRuntime
open Coroutine (Input)

abbrev TaskBody (L V : Type*) := Coroutine.Body L V SystemError

/-- Where a frame is suspended, or what it does next if it is running. -/
inductive Point (L V : Type*) where
  | ready (code : TaskBody L V)
  | awaiting (child : ℕ) (next : V → TaskBody L V)
  | leaf (next : V → TaskBody L V)
  | joining (task : ℕ) (next : Result V → TaskBody L V)
  | done

inductive TaskFault where
  | badResume
  | badUnwrap
  | noPromise
  deriving DecidableEq

/-- `step`, `leaf` and `joined` carry the root of the frame they happen in. `finish f c` is the
end of `f`, which transfers control to `c`. -/
inductive TaskEvent (L V : Type*) where
  | step (root : ℕ) (l : L)
  | leaf (root : ℕ) (v : V)
  | joined (root task : ℕ) (r : Result V)
  | suspend (f : ℕ)
  | resume (f : ℕ)
  | awaits (f child : ℕ)
  | joins (f task : ℕ)
  | finish (f : ℕ) (next : Option ℕ)

structure TaskMachine (L V : Type*) where
  size : ℕ
  point : ℕ → Point L V
  continuation : ℕ → Option ℕ
  result : ℕ → Result V
  root : ℕ → ℕ
  body : ℕ → Option (TaskBody L V)
  current : Option ℕ
  fault : Option TaskFault
  log : List (TaskEvent L V)

inductive TaskOp (L V : Type*) where
  | spawn (body : TaskBody L V)
  | start (root : ℕ)
  | run
  | resume (f : ℕ) (v : V)

namespace TaskMachine
variable {L V : Type*}

def unhandled : SystemError := ⟨.operationNotPermitted, .text "unhandled exception"⟩

def initial : TaskMachine L V where
  size := 0
  point := fun _ => .done
  continuation := fun _ => none
  result := fun _ => .error makeCancelledError
  root := fun _ => 0
  body := fun _ => none
  current := none
  fault := none
  log := []

def setPoint (s : TaskMachine L V) (f : ℕ) (p : Point L V) : TaskMachine L V :=
  { s with point := Function.update s.point f p }

def record (s : TaskMachine L V) (events : List (TaskEvent L V)) : TaskMachine L V :=
  { s with log := s.log ++ events }

def allocate (s : TaskMachine L V) (code : TaskBody L V) (continuation : Option ℕ)
    (root : ℕ) : TaskMachine L V :=
  { s with
    size := s.size + 1
    point := Function.update s.point s.size (.ready code)
    continuation := Function.update s.continuation s.size continuation
    result := Function.update s.result s.size (.error makeCancelledError)
    root := Function.update s.root s.size root
    log := s.log ++ [.suspend s.size] }

/-- Control goes on in `c`, which awaited `f`: `Task::await_resume` unwraps the result,
`JoinHandle::await_resume` returns it as it is. -/
def transfer (s : TaskMachine L V) (f c : ℕ) (r : Result V) : TaskMachine L V :=
  match s.point c with
  | .awaiting child next =>
    if child = f then
      match r with
      | .ok v => { (s.setPoint c (.ready (next v))).record [.resume c] with current := some c }
      | .error _ => { s with fault := some .badUnwrap }
    else { s with fault := some .badResume }
  | .joining task next =>
    if task = f then
      { (s.setPoint c (.ready (next r))).record [.resume c, .joined (s.root c) f r] with
        current := some c }
    else { s with fault := some .badResume }
  | _ => { s with fault := some .badResume }

def ended (s : TaskMachine L V) (f : ℕ) (r : Result V) : TaskMachine L V :=
  { (s.setPoint f .done).record [.finish f (s.continuation f)] with
    result := Function.update s.result f r
    current := none }

def finish (s : TaskMachine L V) (f : ℕ) (r : Result V) : TaskMachine L V :=
  match s.continuation f with
  | none => s.ended f r
  | some c => (s.ended f r).transfer f c r

def runBody (s : TaskMachine L V) (f : ℕ) : TaskBody L V → Option (TaskMachine L V)
  | .act l next => some ((s.setPoint f (.ready next)).record [.step (s.root f) l])
  | .ret v => some (s.finish f (.ok v))
  | .throw => some (s.finish f (.error unhandled))
  | .await child next =>
    some { ((s.allocate child (some f) (s.root f)).setPoint f (.awaiting s.size next)).record
        [.awaits f s.size, .suspend f, .resume s.size] with
      current := some s.size }
  | .awaitEmpty _ => some { s with fault := some .noPromise }
  | .leaf next =>
    some { (s.setPoint f (.leaf next)).record [.suspend f] with current := none }
  | .join task next =>
    if (s.body task).isNone then none else
    match s.point task with
    | .done => some ((s.setPoint f (.ready (next (s.result task)))).record
        [.joined (s.root f) task (s.result task)])
    | _ => some { (s.setPoint f (.joining task next)).record [.joins f task, .suspend f] with
        continuation := Function.update s.continuation task (some f)
        current := none }

def step (s : TaskMachine L V) (op : TaskOp L V) : Option (TaskMachine L V) :=
  if s.fault ≠ none then none else
  match op with
  | .spawn body => some { s.allocate body none s.size with
      body := Function.update s.body s.size (some body) }
  | .start root =>
    match s.current, s.point root with
    | none, .ready _ => some { s.record [.resume root] with current := some root }
    | _, _ => none
  | .run =>
    match s.current with
    | none => none
    | some f =>
      match s.point f with
      | .ready code => s.runBody f code
      | _ => none
  | .resume f v =>
    match s.current, s.point f with
    | none, .leaf next =>
      some { (s.setPoint f (.ready (next v))).record [.resume f, .leaf (s.root f) v] with
        current := some f }
    | _, _ => none

/-! ## What the log says about one root and about one frame -/

def stepOf (r : ℕ) : TaskEvent L V → Option L
  | .step root l => if root = r then some l else none
  | .leaf _ _ | .joined _ _ _ | .suspend _ | .resume _ | .awaits _ _ | .joins _ _ | .finish _ _ =>
    none

def inputOf (r : ℕ) : TaskEvent L V → Option (Input V SystemError)
  | .leaf root v => if root = r then some (.leaf v) else none
  | .joined root task res => if root = r then some (.join task res) else none
  | .step _ _ | .suspend _ | .resume _ | .awaits _ _ | .joins _ _ | .finish _ _ => none

def turnOf (f : ℕ) : TaskEvent L V → Option Bool
  | .suspend g => if g = f then some false else none
  | .resume g => if g = f then some true else none
  | .step _ _ | .leaf _ _ | .joined _ _ _ | .awaits _ _ | .joins _ _ | .finish _ _ => none

def steps (s : TaskMachine L V) (r : ℕ) : List L := s.log.filterMap (stepOf r)

def inputs (s : TaskMachine L V) (r : ℕ) : List (Input V SystemError) :=
  s.log.filterMap (inputOf r)

def turns (s : TaskMachine L V) (f : ℕ) : List Bool := s.log.filterMap (turnOf f)

end TaskMachine
end RainRuntime
