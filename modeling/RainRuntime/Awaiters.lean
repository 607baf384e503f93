import RainRuntime.IoReactor
import RainRuntime.TimerWheel

/-!
# Waiting coroutines

The awaiters of the runtime and the data their contenders share. A coroutine that
suspends in an awaiter is resumed by whoever moves the awaiter's wait state out of
`pending` first: the reactor, the timer wheel or a stop callback. `World` holds one
loop's reactor, wheel and ready queue; `WorldOp` is everything that can happen to
them, in any order. The loop's own thread takes its steps in some of these orders,
and a stop callback may come from any thread.

`movers`, `cancelledOn` and `outcome` record who moved a wait state, on whose thread a
callback ran and what an await came back with. No step reads them.
-/

namespace RainRuntime

abbrev LoopId := ℕ

def ownerLoop : LoopId := 0

inductive WaitKind where
  | connect
  | readReady
  | writeReady
  | accept
  | timedReady (d : Direction) (timeout : ℤ)
  | sleep (delay : ℤ)
  deriving DecidableEq

namespace WaitKind

def direction : WaitKind → Option Direction
  | .connect => some .write
  | .readReady => some .read
  | .writeReady => some .write
  | .accept => some .read
  | .timedReady d _ => some d
  | .sleep _ => none

def timerCompletion : WaitKind → Option WaitState
  | .timedReady _ _ => some .timedOut
  | .sleep _ => some .ready
  | _ => none

/-- The value of `readiness_` before anything was reported; sleepers have none. -/
def notCompleted : WaitKind → Option SystemError
  | .connect => some ⟨.operationCanceled, .text "connect not completed"⟩
  | .readReady => some ⟨.operationCanceled, .text "read readiness not completed"⟩
  | .writeReady => some ⟨.operationCanceled, .text "write readiness not completed"⟩
  | .accept => some ⟨.operationCanceled, .text "accept not completed"⟩
  | .timedReady _ _ => some ⟨.operationCanceled, .text "timed readiness not completed"⟩
  | .sleep _ => none

def cancelledError : WaitKind → SystemError
  | .accept => ⟨.operationCanceled, .text "accept cancelled (graceful shutdown)"⟩
  | .sleep _ => ⟨.operationCanceled, .text "sleep cancelled"⟩
  | _ => ⟨.operationCanceled, .text "io operation cancelled"⟩

def timeoutError : Direction → SystemError
  | .read => ⟨.timedOut, .text "read timeout"⟩
  | .write => ⟨.timedOut, .text "write timeout"⟩

/-- The tail of `await_resume` once the fd is ready. `sys` is what `getsockopt(SO_ERROR)`
or `accept4` gives there. -/
def whenReady (kind : WaitKind) (sys : Except Errno ℕ) : Result ℕ :=
  match kind, sys with
  | .connect, .error e => .error (SystemError.fromErrno e)
  | .connect, .ok 0 => .ok 0
  | .connect, .ok err => .error ⟨.system (.other err), .text "connect failed"⟩
  | .accept, .error e => .error (SystemError.fromErrno e)
  | .accept, .ok conn => .ok conn
  | _, _ => .ok 0

end WaitKind

/-- An awaiter object: `cell` is the address of its `state_` and `readiness_`, `token` the
stop source of the token injected into it, `callback` whether `cancel_cb_` still waits. -/
structure Awaiter where
  kind : WaitKind
  fd : ℤ
  cell : StatePtr
  token : Option ℕ
  timerId : TimerId
  callback : Bool

inductive Phase where
  | idle
  | queued
  | running (on : LoopId)
  | waiting (a : Awaiter)
  | finished

inductive Contender where
  | readiness
  | timer
  | cancellation
  deriving DecidableEq

def WaitKind.movesTo (kind : WaitKind) : Contender → Option WaitState
  | .readiness => kind.direction.map fun _ => .ready
  | .timer => kind.timerCompletion
  | .cancellation => some .cancelled

structure World where
  kernel : Kernel
  reactor : EpollReactor
  timer : TimerState
  ready : List Handle
  foreign : List (LoopId × Handle)
  phase : Handle → Phase
  /-- The coroutine whose suspended awaiter lives at an address. -/
  cells : StatePtr → Option Handle
  /-- For a stopped source, the loop of the thread that stopped it. -/
  stopped : ℕ → Option (Option LoopId)
  movers : Handle → List Contender
  cancelledOn : Handle → Option (Option LoopId)
  outcome : Handle → Option (Result ℕ)

namespace World

def heap (s : World) : Heap := s.timer.heap

def io (s : World) : IoState := ⟨s.kernel, s.reactor, s.timer.heap⟩

def withIo (s : World) (i : IoState) : World :=
  { s with kernel := i.kernel, reactor := i.reactor, timer := { s.timer with heap := i.heap } }

def withHeap (s : World) (m : Heap) : World := { s with timer := { s.timer with heap := m } }

def setPhase (s : World) (h : Handle) (p : Phase) : World :=
  { s with phase := Function.update s.phase h p }

/-- `g_event_loop->notify(h)`, on a thread whose `g_event_loop` is `tls`. -/
def notify (s : World) (tls : Option LoopId) (h : Handle) : World :=
  match tls with
  | none => s
  | some l =>
    if l = ownerLoop then { s with ready := s.ready ++ [h] }
    else { s with foreign := s.foreign ++ [(l, h)] }

def deregisterWait (s : World) (a : Awaiter) : World :=
  match a.kind.direction with
  | some d => s.withIo (s.io.deregisterDir a.fd d.flag)
  | none => s

def cancelTimer (s : World) (a : Awaiter) : World :=
  match a.kind.timerCompletion with
  | some _ => { s with timer := s.timer.cancel a.timerId }
  | none => s

def withdraw (s : World) (a : Awaiter) : World := (s.cancelTimer a).deregisterWait a

def signal (s : World) (h : Handle) (a : Awaiter) (tls : Option LoopId) : World :=
  match a.kind with
  | .sleep _ => { s with timer := { s.timer with wheel := s.timer.wheel.wake h } }
  | _ => s.notify tls h

def mark (s : World) (h : Handle) (tls : Option LoopId) : World :=
  { s with
    movers := Function.update s.movers h (.cancellation :: s.movers h)
    cancelledOn := Function.update s.cancelledOn h (some tls) }

/-- The stop callback of an awaiter, run on a thread whose `g_event_loop` is `tls`. -/
def cancelWait (s : World) (h : Handle) (a : Awaiter) (tls : Option LoopId) : World :=
  if s.heap.state a.cell ≠ .pending then s else
  (((s.withHeap (s.heap.setState a.cell .cancelled)).withdraw a).signal h a tls).mark h tls

def suspend (s : World) (h : Handle) (a : Awaiter) : World :=
  { s with
    phase := Function.update s.phase h (.waiting a)
    cells := Function.update s.cells a.cell (some h) }

/-- The end of a successful `await_suspend`, `cancel_cb_.emplace`: a token that is stopped
already runs the callback at once. -/
def installCallback (s : World) (h : Handle) (a : Awaiter) (tls : Option LoopId) : World :=
  match a.token with
  | none => s.suspend h a
  | some src =>
    match s.stopped src with
    | none => s.suspend h { a with callback := true }
    | some _ => (s.suspend h a).cancelWait h a tls

def registerWait (s : World) (h : Handle) (a : Awaiter) (d : Direction) : Result Unit × World :=
  let p : PendingEntry := ⟨some h, some a.cell, some a.cell, .ready⟩
  let r := match d with
    | .read => s.io.registerRead a.fd p
    | .write => s.io.registerWrite a.fd p
  (r.1, s.withIo r.2)

def scheduleWait (s : World) (h : Handle) (a : Awaiter) (delay : ℤ) (completion : WaitState) :
    Awaiter × World :=
  ({ a with timerId := s.timer.wheel.nextId },
    { s with
      timer := s.timer.scheduleAt (s.timer.wheel.currentTime + delay) (some h) (some a.cell)
        completion })

def suspendIo (s : World) (h : Handle) (a : Awaiter) (d : Direction) (tls : Option LoopId)
    (cleanup : World → World) : Option Awaiter × World :=
  match s.registerWait h a d with
  | (.error e, s) =>
    let s := cleanup s
    (some a, s.withHeap (s.heap.setResult a.cell (.error e)))
  | (.ok (), s) => (none, s.installCallback h a tls)

/-- `await_suspend`, which comes back with the awaiter if the coroutine does not stay
suspended. -/
def awaitSuspend (s : World) (h : Handle) (a : Awaiter) (tls : Option LoopId) :
    Option Awaiter × World :=
  match a.kind with
  | .connect => s.suspendIo h a .write tls id
  | .readReady => s.suspendIo h a .read tls id
  | .writeReady => s.suspendIo h a .write tls id
  | .accept => s.suspendIo h a .read tls id
  | .timedReady d timeout =>
    if timeout ≤ 0 then (some a, s.withHeap (s.heap.setState a.cell .timedOut))
    else
      let r := s.scheduleWait h a timeout .timedOut
      r.2.suspendIo h r.1 d tls fun s => s.cancelTimer r.1
  | .sleep delay =>
    -- `await_ready`: a delay that is not positive does not suspend
    if delay ≤ 0 then (some a, s)
    else
      let r := s.scheduleWait h a delay .ready
      (none, r.2.installCallback h r.1 tls)

/-- `await_resume`, whose first act is `cancel_cb_.reset()`: the awaiter is gone afterwards
and its callback can no longer run. -/
def awaitResume (s : World) (a : Awaiter) (sys : Except Errno ℕ) : Result ℕ × World :=
  match a.kind with
  | .sleep _ =>
    if s.heap.state a.cell = .cancelled then (.error a.kind.cancelledError, s) else (.ok 0, s)
  | .timedReady d _ =>
    if s.heap.state a.cell = .cancelled then (.error a.kind.cancelledError, s.cancelTimer a)
    else if s.heap.state a.cell = .timedOut then
      (.error (WaitKind.timeoutError d), s.deregisterWait a)
    else
      match s.heap.result a.cell with
      | .error e => (.error e, s.cancelTimer a)
      | .ok _ => (a.kind.whenReady sys, s.cancelTimer a)
  | _ =>
    if s.heap.state a.cell = .cancelled then (.error a.kind.cancelledError, s) else
    match s.heap.result a.cell with
    | .error e => (.error e, s)
    | .ok _ => (a.kind.whenReady sys, s)

def complete (s : World) (h : Handle) (a : Awaiter) (on : LoopId) (sys : Except Errno ℕ) : World :=
  let r := s.awaitResume a sys
  { r.2 with
    phase := Function.update r.2.phase h (.running on)
    cells := Function.update r.2.cells a.cell none
    outcome := Function.update r.2.outcome h (some r.1) }

def initCells (s : World) (kind : WaitKind) (cell : StatePtr) : World :=
  let m := s.heap.setState cell .pending
  match kind.notCompleted with
  | some e => s.withHeap (m.setResult cell (.error e))
  | none => s.withHeap m

def await (s : World) (h : Handle) (on : LoopId) (kind : WaitKind) (fd : ℤ) (cell : StatePtr)
    (token : Option ℕ) (sys : Except Errno ℕ) : World :=
  let s := s.initCells kind cell
  let s := { s with
    movers := Function.update s.movers h []
    cancelledOn := Function.update s.cancelledOn h none }
  match s.awaitSuspend h ⟨kind, fd, cell, token, 0, false⟩ (some on) with
  | (none, s) => s
  | (some a, s) => s.complete h a on sys

def record (s t : World) (c : Contender) : World :=
  { t with
    movers := fun h =>
      match s.phase h with
      | .waiting a =>
        if t.heap.state a.cell = s.heap.state a.cell then t.movers h else c :: t.movers h
      | _ => t.movers h }

def resume (s : World) (h : Handle) (on : LoopId) (sys : Except Errno ℕ) : World :=
  if s.heap.done h then s else
  match s.phase h with
  | .waiting a => s.complete h a on sys
  | _ => s.setPhase h (.running on)

end World

/-- `wake` stands for spawning and for the other primitives' notifications, `park` for a
suspension in one of those primitives. -/
inductive WorldOp where
  | wake (h : Handle)
  | park (h : Handle)
  | finish (h : Handle)
  | await (h : Handle) (kind : WaitKind) (fd : ℤ) (cell : StatePtr) (token : Option ℕ)
      (sys : Except Errno ℕ)
  | poll (report : PollReport)
  | tick
  | advanceTo (target : ℤ)
  | drainReactor
  | drainTimer
  | resume (sys : Except Errno ℕ)
  | resumeForeign (sys : Except Errno ℕ)
  | requestStop (src : ℕ) (tls : Option LoopId)
  | callback (h : Handle)
  | deregister (fd : ℤ)
  | remove (fd : ℤ)
  | kernel (k : Kernel)

namespace World

def step (s : World) : WorldOp → Option World
  | .wake h =>
    match s.phase h with
    | .idle => some { s.setPhase h .queued with ready := s.ready ++ [h] }
    | _ => none
  | .park h =>
    match s.phase h with
    | .running _ => some (s.setPhase h .idle)
    | _ => none
  | .finish h =>
    match s.phase h with
    | .running _ =>
      some ((s.setPhase h .finished).withHeap
        { s.heap with done := Function.update s.heap.done h true })
    | _ => none
  | .await h kind fd cell token sys =>
    match s.phase h with
    | .running on =>
      if s.cells cell = none then some (s.await h on kind fd cell token sys) else none
    | _ => none
  | .poll report => some (s.record (s.withIo (s.io.poll report).2) .readiness)
  | .tick => some (s.record { s with timer := s.timer.tick } .timer)
  | .advanceTo target => some (s.record { s with timer := s.timer.advanceTo target } .timer)
  | .drainReactor =>
    some { s with ready := s.ready ++ s.reactor.ready, reactor := s.reactor.drainReady.2 }
  | .drainTimer =>
    some { s with
      ready := s.ready ++ s.timer.wheel.ready
      timer := { s.timer with wheel := s.timer.wheel.drainReady.2 } }
  | .resume sys =>
    match s.ready with
    | [] => none
    | h :: rest => some (({ s with ready := rest } : World).resume h ownerLoop sys)
  | .resumeForeign sys =>
    match s.foreign with
    | [] => none
    | (l, h) :: rest => some (({ s with foreign := rest } : World).resume h l sys)
  | .requestStop src tls =>
    match s.stopped src with
    | none => some { s with stopped := Function.update s.stopped src (some tls) }
    | some _ => none
  | .callback h =>
    match s.phase h with
    | .waiting a =>
      match a.token with
      | none => none
      | some src =>
        match s.stopped src with
        | none => none
        | some tls =>
          if a.callback then
            some ((s.cancelWait h a tls).setPhase h (.waiting { a with callback := false }))
          else none
    | _ => none
  | .deregister fd => some (s.withIo (s.io.deregister fd))
  | .remove fd => some (s.withIo (s.io.remove fd).2)
  | .kernel k => some { s with kernel := k }

def fresh (now : ℤ) (m : Heap) (k : Kernel) : World where
  kernel := k
  reactor := ⟨[], []⟩
  timer := TimerState.fresh now m
  ready := []
  foreign := []
  phase _ := .idle
  cells _ := none
  stopped _ := none
  movers _ := []
  cancelledOn _ := none
  outcome _ := none

section Steps
variable {s t : World} {h : Handle}

theorem step_wake : step s (.wake h) = some t ↔
    s.phase h = .idle ∧ { s.setPhase h .queued with ready := s.ready ++ [h] } = t := by
  simp only [step]
  cases s.phase h <;> simp

theorem step_park : step s (.park h) = some t ↔
    ∃ on, s.phase h = .running on ∧ s.setPhase h .idle = t := by
  simp only [step]
  cases s.phase h <;> simp

theorem step_finish : step s (.finish h) = some t ↔ ∃ on, s.phase h = .running on ∧
    (s.setPhase h .finished).withHeap
      { s.heap with done := Function.update s.heap.done h true } = t := by
  simp only [step]
  cases s.phase h <;> simp

theorem step_await {kind : WaitKind} {fd : ℤ} {cell : StatePtr} {token : Option ℕ}
    {sys : Except Errno ℕ} : step s (.await h kind fd cell token sys) = some t ↔
    ∃ on, s.phase h = .running on ∧ s.cells cell = none ∧
      s.await h on kind fd cell token sys = t := by
  simp only [step]
  cases s.phase h <;> simp

theorem step_resume {sys : Except Errno ℕ} : step s (.resume sys) = some t ↔
    ∃ h rest, s.ready = h :: rest ∧
      ({ s with ready := rest } : World).resume h ownerLoop sys = t := by
  simp only [step]
  cases s.ready <;> simp

theorem step_resumeForeign {sys : Except Errno ℕ} : step s (.resumeForeign sys) = some t ↔
    ∃ entry rest, s.foreign = entry :: rest ∧
      ({ s with foreign := rest } : World).resume entry.2 entry.1 sys = t := by
  simp only [step]
  cases s.foreign <;> simp

theorem step_requestStop {src : ℕ} {tls : Option LoopId} :
    step s (.requestStop src tls) = some t ↔ s.stopped src = none ∧
      { s with stopped := Function.update s.stopped src (some tls) } = t := by
  simp only [step]
  cases s.stopped src <;> simp

theorem step_callback : step s (.callback h) = some t ↔ ∃ a src tls, s.phase h = .waiting a ∧
    a.token = some src ∧ s.stopped src = some tls ∧ a.callback = true ∧
    (s.cancelWait h a tls).setPhase h (.waiting { a with callback := false }) = t := by
  simp only [step]
  constructor
  · intro hstep
    split at hstep
    case h_2 => cases hstep
    case h_1 a hw =>
      split at hstep
      case h_1 => cases hstep
      case h_2 src htok =>
        split at hstep
        case h_1 => cases hstep
        case h_2 tls hst =>
          split_ifs at hstep with hcb
          exact ⟨a, src, tls, hw, htok, hst, hcb, Option.some.inj hstep⟩
  · rintro ⟨a, src, tls, hw, htok, hst, hcb, rfl⟩
    simp only [hw, htok, hst, hcb, if_true]

end Steps

def Reaches (now : ℤ) (m : Heap) (k : Kernel) (ops : List WorldOp) (s : World) : Prop :=
  Transition.run step (fresh now m k) ops = some s

end World
end RainRuntime
