import RainRuntime.Awaiters

/-!
# The event loop

`EventLoop::run` as a thread of its own among others. The loop moves from one place of
`run()` to the next (`Pc`); while it resumes coroutines these take steps of the `World`,
and at any moment other threads submit tasks, ask for a stop or let time pass. A `submit`
is two steps: the push under the mutex and the write to the eventfd. `drain_cross_core`
holds the mutex and is one.

`resume_scratch_` and `ready_queue_` are one list, `world.ready`, of which the first
`batch` handles are the scratch: `run()` swaps the two vectors only when the scratch has
been used up. The fields from `halfway` on record what happened; no step of the loop
reads them.
-/

namespace RainRuntime

/-- The eventfd of a loop, watched edge-triggered: `edge` is an edge that no poll has
reported yet. -/
structure EventFd where
  counter : ℕ
  edge : Bool

namespace EventFd

def kMaxCounter : ℕ := 2 ^ 64 - 2

/-- A write of 1, which fails with `EAGAIN` when the counter is full. -/
def write (f : EventFd) : Bool × EventFd :=
  if f.counter < kMaxCounter then (true, ⟨f.counter + 1, true⟩) else (false, f)

def read (f : EventFd) : EventFd := { f with counter := 0 }

def signalled (f : EventFd) : Bool := f.edge && decide (0 < f.counter)

end EventFd

inductive Pc where
  | outside (result : Option (Result Unit))
  | head
  | resuming
  | cleanup
  | exitCheck
  | exitDrain
  | exitRecheck
  | leaving
  | beforePoll
  | polling (timeout : ℤ)
  | drainReactor
  | advanceTimer
  | drainTimer
  | drainCrossCore

structure EventLoop where
  world : World
  batch : ℕ
  pc : Pc
  ownedTasks : List Handle
  crossCoreQueue : List Handle
  wakeup : EventFd
  stopRequested : Bool
  clock : ℤ
  /-- Tasks whose submitter has pushed and not yet written. -/
  halfway : List Handle
  pushed : List Handle
  enteredOwned : List Handle
  enteredReady : List Handle
  completed : List Handle
  /-- Tasks whose `submit` returned `Ok`. -/
  accepted : List Handle

inductive LoopOp where
  | run
  | next
  | resume (sys : Except Errno ℕ)
  | poll (report : PollReport) (wakeup : Bool)
  | spawn (h : Handle)
  | world (op : WorldOp)
  | push (h : Handle)
  | write (h : Handle)
  | requestStop
  | ring
  | elapse (ns : ℕ)

def World.enqueue (w : World) (h : Handle) : World :=
  { w.setPhase h .queued with ready := w.ready ++ [h] }

namespace EventLoop

def kDefaultPollTimeout : ℤ := kTickDuration * 10

def pollTimeout (s : EventLoop) : ℤ :=
  match s.world.timer.wheel.nextDeadline with
  | none => kDefaultPollTimeout
  | some next =>
    if next - s.clock ≤ 0 then 0
    else if next - s.clock < kDefaultPollTimeout then next - s.clock
    else kDefaultPollTimeout

def cleanupCompleted (s : EventLoop) : EventLoop :=
  { s with
    ownedTasks := s.ownedTasks.filter fun h => !s.world.heap.done h
    completed := s.completed ++ s.ownedTasks.filter fun h => s.world.heap.done h }

def takeOver (s : EventLoop) (h : Handle) : EventLoop :=
  { s with
    world := s.world.enqueue h
    ownedTasks := s.ownedTasks ++ [h]
    enteredReady := s.enteredReady ++ [h]
    enteredOwned := s.enteredOwned ++ [h] }

def drainCrossCore (s : EventLoop) : EventLoop :=
  let s := s.crossCoreQueue.foldl takeOver s
  { s with crossCoreQueue := [], wakeup := s.wakeup.read }

def isFresh (s : EventLoop) (h : Handle) : Bool :=
  (match s.world.phase h with
    | .idle => true
    | _ => false) &&
  !s.crossCoreQueue.contains h && !s.ownedTasks.contains h && !s.completed.contains h

def isResuming (s : EventLoop) : Bool :=
  match s.pc with
  | .resuming => true
  | _ => false

def runs (s : EventLoop) (h : Handle) : Bool :=
  match s.world.phase h with
  | .running on => s.isResuming || on != ownerLoop
  | _ => false

/-- The steps that are not the loop's own. Coroutines of this loop run while it is
`resuming`; one that was woken on another loop runs there, and stop callbacks run on any
thread. -/
def allows (s : EventLoop) : WorldOp → Bool
  | .wake h => s.isResuming && !s.crossCoreQueue.contains h
  | .park h => s.runs h
  | .finish h => s.runs h
  | .await h _ _ _ _ _ => s.runs h
  | .requestStop _ _ => true
  | .callback _ => true
  | .resumeForeign _ => true
  | .deregister _ => true
  | .remove _ => true
  | .kernel _ => true
  | _ => false

def withWorld (s : EventLoop) (op : WorldOp) (pc : Pc) : Option EventLoop :=
  (s.world.step op).map fun w => { s with world := w, pc := pc }

def next (s : EventLoop) : Option EventLoop :=
  match s.pc with
  | .head =>
    if s.stopRequested then some { s with pc := .leaving }
    else some { s with batch := s.world.ready.length, pc := .resuming }
  | .resuming => if s.batch = 0 then some { s with pc := .cleanup } else none
  | .cleanup => some { s.cleanupCompleted with pc := .exitCheck }
  | .exitCheck => some { s with pc := if s.ownedTasks = [] then .exitDrain else .beforePoll }
  | .exitDrain => some { s.drainCrossCore with pc := .exitRecheck }
  | .exitRecheck => some { s with pc := if s.ownedTasks = [] then .leaving else .beforePoll }
  | .leaving => some { s with pc := .outside (some (.ok ())) }
  | .beforePoll => some { s with pc := .polling s.pollTimeout }
  | .drainReactor => s.withWorld .drainReactor .advanceTimer
  | .advanceTimer => s.withWorld (.advanceTo s.clock) .drainTimer
  | .drainTimer => s.withWorld .drainTimer .drainCrossCore
  | .drainCrossCore => some { s.drainCrossCore with pc := .head }
  | .outside _ => none
  | .polling _ => none

/-- `poll` comes back with `report`; `wakeup` is whether the eventfd was among the events. -/
def poll (s : EventLoop) (report : PollReport) (wakeup : Bool) : Option EventLoop :=
  match s.pc with
  | .polling _ =>
    match (s.world.io.poll report).1, report with
    | .error e, _ => s.withWorld (.poll report) (.outside (some (.error e)))
    | .ok _, .failed _ => s.withWorld (.poll report) .drainReactor
    | .ok _, .reported _ =>
      if wakeup && !s.wakeup.signalled then none
      else ({ s with wakeup := { s.wakeup with edge := s.wakeup.edge && !wakeup } } :
        EventLoop).withWorld (.poll report) .drainReactor
  | _ => none

def step (s : EventLoop) : LoopOp → Option EventLoop
  | .run =>
    match s.pc with
    | .outside _ => some { s with pc := .head }
    | _ => none
  | .next => s.next
  | .resume sys =>
    match s.pc, s.batch with
    | .resuming, n + 1 =>
      (s.world.step (.resume sys)).map fun w => { s with world := w, batch := n }
    | _, _ => none
  | .poll report wakeup => s.poll report wakeup
  | .spawn h =>
    match s.pc with
    | .outside _ | .resuming =>
      if s.isFresh h then
        some { s with world := s.world.enqueue h, ownedTasks := s.ownedTasks ++ [h] }
      else none
    | _ => none
  | .world op => if s.allows op then s.withWorld op s.pc else none
  | .push h =>
    if s.isFresh h then
      some { s with
        crossCoreQueue := s.crossCoreQueue ++ [h]
        halfway := s.halfway ++ [h]
        pushed := s.pushed ++ [h] }
    else none
  | .write h =>
    if s.halfway.contains h then
      some { s with
        wakeup := s.wakeup.write.2
        halfway := s.halfway.erase h
        accepted := if s.wakeup.write.1 then s.accepted ++ [h] else s.accepted }
    else none
  | .requestStop => some { s with stopRequested := true }
  | .ring => some { s with wakeup := s.wakeup.write.2 }
  | .elapse ns => some { s with clock := s.clock + ns }

def create (now : ℤ) (m : Heap) (k : Kernel) : EventLoop where
  world := World.fresh now m k
  batch := 0
  pc := .outside none
  ownedTasks := []
  crossCoreQueue := []
  wakeup := ⟨0, false⟩
  stopRequested := false
  clock := now
  halfway := []
  pushed := []
  enteredOwned := []
  enteredReady := []
  completed := []
  accepted := []

def Reaches (now : ℤ) (m : Heap) (k : Kernel) (ops : List LoopOp) (s : EventLoop) : Prop :=
  Transition.run step (create now m k) ops = some s

end EventLoop
end RainRuntime
