import RainRuntime.ReactorFrames
import RainRuntime.ThreadPool

/-!
# Blocking work from a coroutine

`spawn_blocking` creates an eventfd, registers a read wait for it and hands the work to the
pool. The worker stores the function's result and writes to the eventfd; the reactor then
enqueues the coroutine, whose `await_resume` consumes the notification, gives up the slot
and returns what was stored. When the registration or the pool refuses, the coroutine does
not suspend.

Many calls are under way at once, each in its own coroutine, with an eventfd and a
`BlockingState` of its own. Around them other tasks use the same pool and other coroutines
the same reactor. The eventfd's reads and writes succeed. An fd is closed only when nobody
waits for it, and the kernel reports an eventfd only when its counter is not zero.
-/

namespace RainRuntime

inductive BlockingJob where
  | blocking (b : ℕ)
  | other (n : ℕ)
  deriving DecidableEq

inductive WorkPhase where
  | idle
  | stored
  | notified
  deriving DecidableEq

/-- Where the coroutine of a call is. `rejected` and `continued` belong to a call that does not
suspend, `resumed` and `continued` have returned. -/
inductive BlockingPhase (V : Type*) where
  | created
  | registered
  | suspended
  | rejected (e : SystemError)
  | resumed (r : Result V)
  | continued (e : SystemError) (r : Result V)

namespace BlockingPhase
variable {V : Type*}

def isAccepted : BlockingPhase V → Bool
  | .suspended | .resumed _ => true
  | _ => false

def rejection : BlockingPhase V → Option SystemError
  | .rejected e | .continued e _ => some e
  | _ => none

def hasReturned : BlockingPhase V → Bool
  | .resumed _ | .continued _ _ => true
  | _ => false

end BlockingPhase

/-- `fn` is what the function does: it returns a value, or it throws (`none`). `result` and
`counter` are the `BlockingState`'s result and its eventfd's counter. -/
structure BlockingCall (V : Type*) where
  fd : ℤ
  fn : Option V
  result : Result V
  counter : ℕ
  work : WorkPhase
  phase : BlockingPhase V
  closed : Bool

namespace BlockingCall
variable {V : Type*}

def notCompleted : SystemError := ⟨.operationCanceled, .text "blocking task not completed"⟩

def threw : SystemError := ⟨.operationNotPermitted, .text "exception in spawn_blocking task"⟩

def create (fd : ℤ) (fn : Option V) : BlockingCall V :=
  ⟨fd, fn, .error notCompleted, 0, .idle, .created, false⟩

def outcome (c : BlockingCall V) : Result V :=
  match c.fn with
  | some v => .ok v
  | none => .error threw

def entry (b : ℕ) : PendingEntry := ⟨some b, some b, none, .ready⟩

end BlockingCall

/-- `eventfd` says which call an open eventfd belongs to; `drained` are the handles the loop has
taken from the reactor, and `ran` the calls whose function was run. A call and its coroutine
have the same number. -/
structure Bridge (V : Type*) where
  io : IoState
  pool : ThreadPool BlockingJob
  call : ℕ → Option (BlockingCall V)
  eventfd : ℤ → Option ℕ
  drained : List Handle
  ran : List ℕ

inductive BridgeOp (V : Type*) where
  | create (b : ℕ) (fd : ℤ) (fn : Option V)
  | register (b : ℕ)
  | spawn (b : ℕ)
  | store (w : ℕ)
  | notify (w : ℕ)
  | resume (b : ℕ)
  | close (b : ℕ)
  | poll (report : PollReport)
  | drain
  | pool (op : PoolOp BlockingJob)
  | registerRead (fd : ℤ) (p : PendingEntry)
  | registerWrite (fd : ℤ) (p : PendingEntry)
  | deregister (fd : ℤ)
  | deregisterDir (fd : ℤ) (dir : IoEvent)
  | remove (fd : ℤ)
  | openFd (fd : ℤ)
  | closeFd (fd : ℤ)

namespace Bridge
variable {V : Type*}

def start (k : Kernel) (m : Heap) (size capacity : ℕ) : Bridge V where
  io := .fresh k m
  pool := .create size capacity
  call := fun _ => none
  eventfd := fun _ => none
  drained := []
  ran := []

def setCall (s : Bridge V) (b : ℕ) (c : BlockingCall V) : Bridge V :=
  { s with call := Function.update s.call b (some c) }

def unreferenced (s : Bridge V) (h : Handle) : Bool :=
  (s.io.reactor.slots.all fun e =>
    (e.read.all fun p => decide (p.handle ≠ some h)) &&
      (e.write.all fun p => decide (p.handle ≠ some h))) &&
    decide (h ∉ s.io.reactor.ready) && decide (h ∉ s.drained)

def setOpen (io : IoState) (fd : ℤ) : IoState :=
  { io with kernel := { io.kernel with isOpen := Function.update io.kernel.isOpen fd true } }

def closeIn (io : IoState) (fd : ℤ) : IoState :=
  { io with kernel := { io.kernel with
      isOpen := Function.update io.kernel.isOpen fd false
      table := Function.update io.kernel.table fd none } }

def register (s : Bridge V) (b : ℕ) (c : BlockingCall V) : Bridge V :=
  let r := s.io.registerRead c.fd (BlockingCall.entry b)
  match r.1 with
  | .ok _ => { s.setCall b { c with phase := .registered } with io := r.2 }
  | .error e => { s.setCall b { c with result := .error e, phase := .rejected e } with io := r.2 }

def spawn (s : Bridge V) (b : ℕ) (c : BlockingCall V) : Option (Bridge V) :=
  (s.pool.step (.spawn (.blocking b))).map fun pool =>
    match s.pool.spawnResult (.blocking b) with
    | .ok _ => { s.setCall b { c with phase := .suspended } with pool := pool }
    | .error e => { s.setCall b { c with result := .error e, phase := .rejected e } with
        pool := pool
        io := s.io.deregister c.fd }

def awaitResume (s : Bridge V) (b : ℕ) (c : BlockingCall V)
    (phase : Result V → BlockingPhase V) : Bridge V :=
  { s.setCall b { c with counter := 0, phase := phase c.result } with io := s.io.deregister c.fd }

def working (s : Bridge V) (w : ℕ) : Option ℕ :=
  match s.pool.worker w with
  | .running x =>
    match x.value with
    | .spawned (.blocking b) => some b
    | _ => none
  | _ => none

/-- Work of a call is handed over by `spawn` alone; it ends without an exception, after the
eventfd was written. -/
def poolAllows (s : Bridge V) : PoolOp BlockingJob → Bool
  | .spawn (.blocking _) | .submit (.blocking _) => false
  | .finish w threw =>
    match s.working w with
    | some b => ((s.call b).any fun c => decide (c.work = .notified)) && !threw
    | none => true
  | _ => true

/-- The kernel reports an eventfd only when it can be read. -/
def reportAllows (s : Bridge V) : PollReport → Bool
  | .failed _ => true
  | .reported events => events.all fun ev =>
      (s.eventfd ev.1).all fun b => (s.call b).any fun c => decide (0 < c.counter)

def foreign (s : Bridge V) (fd : ℤ) (p : PendingEntry) : Bool :=
  (s.eventfd fd).isNone && p.handle.all fun h => (s.call h).isNone

def workGone (s : Bridge V) (b : ℕ) (c : BlockingCall V) : Bool :=
  c.phase.rejection.isSome ||
    s.pool.finished.any fun p => match p.2.value with
      | .spawned (.blocking b') => decide (b' = b)
      | _ => false

def step (s : Bridge V) : BridgeOp V → Option (Bridge V)
  | .create b fd fn =>
    if 0 ≤ fd ∧ s.io.kernel.isOpen fd = false ∧ (s.eventfd fd).isNone ∧ (s.call b).isNone ∧
        s.unreferenced b then
      some { s.setCall b (.create fd fn) with
        io := setOpen s.io fd
        eventfd := Function.update s.eventfd fd (some b) }
    else none
  | .register b =>
    (s.call b).bind fun c => match c.phase with
      | .created => some (s.register b c)
      | _ => none
  | .spawn b =>
    (s.call b).bind fun c => match c.phase with
      | .registered => s.spawn b c
      | _ => none
  | .store w =>
    (s.working w).bind fun b => (s.call b).bind fun c => match c.work with
      | .idle => some { s.setCall b { c with result := c.outcome, work := .stored } with
          ran := s.ran ++ [b] }
      | _ => none
  | .notify w =>
    (s.working w).bind fun b => (s.call b).bind fun c => match c.work with
      | .stored => some (s.setCall b { c with counter := c.counter + 1, work := .notified })
      | _ => none
  | .resume b =>
    (s.call b).bind fun c => match c.phase with
      | .suspended => if b ∈ s.drained then some (s.awaitResume b c .resumed) else none
      | .rejected e => some (s.awaitResume b c (.continued e))
      | _ => none
  | .close b =>
    (s.call b).bind fun c =>
      if c.closed = false ∧ c.phase.hasReturned ∧ s.workGone b c then
        some { s.setCall b { c with closed := true } with
          io := closeIn s.io c.fd
          eventfd := Function.update s.eventfd c.fd none }
      else none
  | .poll report =>
    if s.reportAllows report then some { s with io := (s.io.poll report).2 } else none
  | .drain => some { s with
      io := { s.io with reactor := s.io.reactor.drainReady.2 }
      drained := s.drained ++ s.io.reactor.drainReady.1 }
  | .pool op =>
    if s.poolAllows op then (s.pool.step op).map fun pool => { s with pool := pool } else none
  | .registerRead fd p =>
    if s.foreign fd p then some { s with io := (s.io.registerRead fd p).2 } else none
  | .registerWrite fd p =>
    if s.foreign fd p then some { s with io := (s.io.registerWrite fd p).2 } else none
  | .deregister fd =>
    if (s.eventfd fd).isNone then some { s with io := s.io.deregister fd } else none
  | .deregisterDir fd dir =>
    if (s.eventfd fd).isNone then some { s with io := s.io.deregisterDir fd dir } else none
  | .remove fd =>
    if (s.eventfd fd).isNone then some { s with io := (s.io.remove fd).2 } else none
  | .openFd fd =>
    if (s.eventfd fd).isNone then some { s with io := setOpen s.io fd } else none
  | .closeFd fd =>
    if (s.eventfd fd).isNone ∧ (fd < 0 ∨ (s.io.reactor.slotAt fd.toNat).isIdle) then
      some { s with io := closeIn s.io fd }
    else none

end Bridge
end RainRuntime
