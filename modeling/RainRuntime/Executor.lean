import RainRuntime.BlockOn

/-!
# The executor

`Executor` runs one event loop on each of `n` threads. Four kinds of threads take turns: the
owner of the executor, who calls its methods, the workers, the watchdog of `graceful_stop` and
whoever else steps a loop. Each access to shared data is a step of its own; `request_stop` on a
loop is two, the flag and the write to the eventfd. `run()` may be called again after it failed,
but not once it has started a thread: a second thread would then run the same loop.

A `block_on` within a coroutine or a hook of a core leaves the `g_metrics` of its thread null
(`nested`), and `diag::count` does nothing from then on.

The fields from `setups` on record what happened; no step reads them.
-/

namespace RainRuntime

inductive FaultPolicy where
  | failFast
  | logOnly
  deriving DecidableEq

inductive WorkerPc where
  | unborn
  | installing
  | initializing
  | entering
  | running
  | counting (e : SystemError)
  | emitting (e : SystemError)
  | recording (e : SystemError)
  | stopping (k : ℕ)
  | ringing (k : ℕ)
  | tearingDown
  | uninstalling
  | ended

inductive WatchdogPc where
  | absent
  | born (deadline : ℤ)
  | reading (limit : ℤ)
  | looking (limit : ℤ)
  | sleeping (limit wake : ℤ)
  | stopping (k : ℕ)
  | ringing (k : ℕ)
  | ended

inductive ExecutorCall where
  | run
  | stop
  | requestGracefulStop
  | gracefulStop (deadline : ℤ)
  | join
  | stopAndJoin
  deriving DecidableEq

def ExecutorCall.reports : ExecutorCall → Bool
  | .join | .gracefulStop _ => true
  | .run | .stop | .requestGracefulStop | .stopAndJoin => false

inductive AfterJoin where
  | join
  | stopAndJoin
  | abort (e : SystemError)
  | graceful (deadline : ℤ)

inductive AfterStop where
  | stop
  | join (next : AfterJoin)

inductive OwnerPc where
  | idle
  | sigpipe
  | setup (i : ℕ)
  | start (i : ℕ)
  | stop (i : ℕ) (next : AfterStop)
  | ring (i : ℕ) (next : AfterStop)
  | graceful (i : ℕ) (deadline : Option ℤ)
  | gracefulRing (i : ℕ) (deadline : Option ℤ)
  | watch (deadline : ℤ)
  | join (i : ℕ) (next : AfterJoin)
  | front (next : AfterJoin)
  | setDrained (deadline : ℤ) (r : Result Unit)
  | joinWatchdog (deadline : ℤ) (r : Result Unit)
  | returning (call : ExecutorCall) (r : Result Unit)

inductive Asker where
  | owner
  | worker
  | watchdog
  | other
  deriving DecidableEq

inductive Hook where
  | threadInit
  | teardown
  deriving DecidableEq

/-- How a `run()` ended: it returned, or the construction of a thread threw. -/
inductive RunEnd where
  | returned (r : Result Unit)
  | threw

structure Executor (n : ℕ) where
  loops : Fin n → EventLoop
  policy : FaultPolicy
  /-- The hooks that are set. -/
  hooked : Hook → Bool
  worker : Fin n → WorkerPc
  faults : List SystemError
  /-- The cores whose counters are in the `MetricsRegistry`. -/
  registry : List (Fin n)
  /-- The cores whose thread has its counters in `g_metrics`. -/
  gMetrics : Fin n → Bool
  loopRunErrors : Fin n → ℕ
  owner : OwnerPc
  drained : Bool
  watchdog : WatchdogPc
  clock : ℤ
  /-- A thread has been started. -/
  launched : Bool
  /-- The setups of the last `run()`. -/
  setups : List (Fin n × Result Unit)
  lastRun : Option RunEnd
  nested : List (Fin n)
  hooks : List (Hook × Fin n)
  emitted : List (Fin n × SystemError)
  askers : Fin n → List Asker
  calledAt : ℤ
  returned : List (ExecutorCall × Result Unit)

/-- `outcome` is what `sigaction`, the setup or the construction of a thread gives where the owner
calls one. -/
inductive ExecutorOp (n : ℕ) where
  | call (c : ExecutorCall)
  | owner (outcome : Result Unit)
  | worker (i : Fin n)
  | nested (i : Fin n)
  | watchdog
  | loop (i : Fin n) (op : LoopOp)
  | elapse (ns : ℕ)

namespace Executor
variable {n : ℕ}

def gracefulSource : ℕ := 0

def kWatchdogPause : ℤ := 5000000

def verdict : List SystemError → Result Unit
  | [] => .ok ()
  | e :: _ => .error e

def setLoop (s : Executor n) (i : Fin n) (l : EventLoop) : Executor n :=
  { s with loops := Function.update s.loops i l }

def setWorker (s : Executor n) (i : Fin n) (pc : WorkerPc) : Executor n :=
  { s with worker := Function.update s.worker i pc }

def askToStop (s : Executor n) (i : Fin n) (a : Asker) : Executor n :=
  { s.setLoop i { s.loops i with stopRequested := true } with
    askers := Function.update s.askers i (s.askers i ++ [a]) }

def ringLoop (s : Executor n) (i : Fin n) : Executor n :=
  s.setLoop i { s.loops i with wakeup := (s.loops i).wakeup.write.2 }

/-- The stop of the graceful source of the loop `i`, on a thread without a loop. A source that
is stopped already stays as it is. -/
def stopGraceful (s : Executor n) (i : Fin n) : Executor n :=
  match (s.loops i).world.step (.requestStop gracefulSource none) with
  | some w => s.setLoop i { s.loops i with world := w }
  | none => s

def goTo (s : Executor n) (pc : OwnerPc) : Executor n := { s with owner := pc }

def entry : ExecutorCall → OwnerPc
  | .run => .sigpipe
  | .stop => .stop 0 .stop
  | .requestGracefulStop => .graceful 0 none
  | .gracefulStop d => .graceful 0 (some d)
  | .join => .join 0 .join
  | .stopAndJoin => .stop 0 (.join .stopAndJoin)

def callStep (s : Executor n) (c : ExecutorCall) : Option (Executor n) :=
  match s.owner with
  | .idle =>
    match c with
    | .run =>
      if s.launched then none
      else some { s with owner := entry .run, calledAt := s.clock, setups := [], lastRun := none }
    | c => some { s with owner := entry c, calledAt := s.clock }
  | _ => none

/-- A thread that `join()` does not wait for: it was never started, or it is over. -/
def isSettled (s : Executor n) (i : Fin n) : Bool :=
  match s.worker i with
  | .unborn | .ended => true
  | _ => false

def afterFront (s : Executor n) : AfterJoin → OwnerPc
  | .join => .returning .join (verdict s.faults)
  | .stopAndJoin => .returning .stopAndJoin (.ok ())
  | .abort e => .returning .run (.error e)
  | .graceful d => .setDrained d (verdict s.faults)

def ownerStep (s : Executor n) (outcome : Result Unit) : Option (Executor n) :=
  match s.owner with
  | .idle => none
  | .sigpipe =>
    match outcome with
    | .ok () => some (s.goTo (.setup 0))
    | .error e => some (s.goTo (.returning .run (.error e)))
  | .setup i =>
    if h : i < n then
      let s := { s with setups := s.setups ++ [((⟨i, h⟩ : Fin n), outcome)] }
      match outcome with
      | .ok () => some (s.goTo (.setup (i + 1)))
      | .error e => some (s.goTo (.stop 0 (.join (.abort e))))
    else some (s.goTo (.start 0))
  | .start i =>
    if h : i < n then
      match outcome with
      | .ok () =>
        some { (s.setWorker ⟨i, h⟩ .installing).goTo (.start (i + 1)) with launched := true }
      | .error _ => some { s with owner := .idle, lastRun := some .threw }
    else some (s.goTo (.returning .run (.ok ())))
  | .stop i next =>
    if h : i < n then some ((s.askToStop ⟨i, h⟩ .owner).goTo (.ring i next))
    else
      match next with
      | .stop => some (s.goTo (.returning .stop (.ok ())))
      | .join next => some (s.goTo (.join 0 next))
  | .ring i next =>
    if h : i < n then some ((s.ringLoop ⟨i, h⟩).goTo (.stop (i + 1) next)) else none
  | .graceful i deadline =>
    if h : i < n then some ((s.stopGraceful ⟨i, h⟩).goTo (.gracefulRing i deadline))
    else
      match deadline with
      | none => some (s.goTo (.returning .requestGracefulStop (.ok ())))
      | some d => some (s.goTo (.watch d))
  | .gracefulRing i deadline =>
    if h : i < n then some ((s.ringLoop ⟨i, h⟩).goTo (.graceful (i + 1) deadline)) else none
  | .watch d =>
    match outcome with
    | .ok () =>
      some { s with drained := false, watchdog := .born d, owner := .join 0 (.graceful d) }
    | .error _ => some (s.goTo .idle)
  | .join i next =>
    if h : i < n then
      if s.isSettled ⟨i, h⟩ then some (s.goTo (.join (i + 1) next)) else none
    else some (s.goTo (.front next))
  | .front next => some (s.goTo (s.afterFront next))
  | .setDrained d r => some { s with drained := true, owner := .joinWatchdog d r }
  | .joinWatchdog d r =>
    match s.watchdog with
    | .ended => some { s with watchdog := .absent, owner := .returning (.gracefulStop d) r }
    | _ => none
  | .returning c r =>
    some { s with
      owner := .idle
      returned := s.returned ++ [(c, r)]
      lastRun := if c = .run then some (.returned r) else s.lastRun }

def callHook (s : Executor n) (h : Hook) (i : Fin n) : Executor n :=
  { s with hooks := s.hooks ++ if s.hooked h then [(h, i)] else [] }

/-- `diag::count` of `loop_run_errors`, on the thread of a core. -/
def countError (s : Executor n) (i : Fin n) : Executor n :=
  let errors := if s.gMetrics i then s.loopRunErrors i + 1 else s.loopRunErrors i
  { s with loopRunErrors := Function.update s.loopRunErrors i errors }

def workerStep (s : Executor n) (i : Fin n) : Option (Executor n) :=
  match s.worker i with
  | .unborn => none
  | .installing =>
    some { s.setWorker i .initializing with
      gMetrics := Function.update s.gMetrics i true
      registry := s.registry ++ [i] }
  | .initializing => some ((s.callHook .threadInit i).setWorker i .entering)
  | .entering => ((s.loops i).step .run).map fun l => (s.setLoop i l).setWorker i .running
  | .running =>
    match (s.loops i).pc with
    | .outside (some (.ok ())) => some (s.setWorker i .tearingDown)
    | .outside (some (.error e)) => some (s.setWorker i (.counting e))
    | _ => none
  | .counting e => some ((s.countError i).setWorker i (.emitting e))
  | .emitting e => some { s.setWorker i (.recording e) with emitted := s.emitted ++ [(i, e)] }
  | .recording e =>
    let pc := match s.policy with
      | .failFast => .stopping 0
      | .logOnly => .tearingDown
    some { s.setWorker i pc with faults := s.faults ++ [e] }
  | .stopping k =>
    if h : k < n then some ((s.askToStop ⟨k, h⟩ .worker).setWorker i (.ringing k))
    else some (s.setWorker i .tearingDown)
  | .ringing k =>
    if h : k < n then some ((s.ringLoop ⟨k, h⟩).setWorker i (.stopping (k + 1))) else none
  | .tearingDown => some ((s.callHook .teardown i).setWorker i .uninstalling)
  | .uninstalling =>
    some { s.setWorker i .ended with
      registry := s.registry.filter fun j => j ≠ i
      gMetrics := Function.update s.gMetrics i false }
  | .ended => none

/-- The thread of the core is in `thread_init_` or in a coroutine. -/
def callsOut (s : Executor n) (i : Fin n) : Bool :=
  match s.worker i with
  | .initializing => s.hooked .threadInit
  | .running => (s.loops i).isResuming
  | _ => false

/-- A `block_on` in such a call comes back. -/
def nestedStep (s : Executor n) (i : Fin n) : Option (Executor n) :=
  if s.callsOut i then
    some { s with gMetrics := Function.update s.gMetrics i false, nested := s.nested ++ [i] }
  else none

def watchdogStep (s : Executor n) : Option (Executor n) :=
  match s.watchdog with
  | .absent => none
  | .born d => some { s with watchdog := .reading (wrap64 (s.clock + d)) }
  | .reading limit =>
    some { s with watchdog := if s.clock < limit then .looking limit else .stopping 0 }
  | .looking limit =>
    some { s with
      watchdog := if s.drained then .ended else .sleeping limit (s.clock + kWatchdogPause) }
  | .sleeping limit wake =>
    if s.clock < wake then none else some { s with watchdog := .reading limit }
  | .stopping k =>
    if h : k < n then some { s.askToStop ⟨k, h⟩ .watchdog with watchdog := .ringing k }
    else some { s with watchdog := .ended }
  | .ringing k =>
    if h : k < n then some { s.ringLoop ⟨k, h⟩ with watchdog := .stopping (k + 1) } else none
  | .ended => none

/-- A loop is run by its worker only and shares the clock. Tasks are spawned on it by its own
coroutines, and before it runs. -/
def allows (s : Executor n) (i : Fin n) : LoopOp → Bool
  | .run | .elapse _ => false
  | .spawn _ =>
    match (s.loops i).pc with
    | .outside (some _) => false
    | _ => true
  | _ => true

def askersAfter (s : Executor n) (i : Fin n) : LoopOp → Fin n → List Asker
  | .requestStop => Function.update s.askers i (s.askers i ++ [.other])
  | _ => s.askers

def loopStep (s : Executor n) (i : Fin n) (op : LoopOp) : Option (Executor n) :=
  if s.allows i op then
    ((s.loops i).step op).map fun l => { s.setLoop i l with askers := s.askersAfter i op }
  else none

def step (s : Executor n) : ExecutorOp n → Option (Executor n)
  | .call c => s.callStep c
  | .owner outcome => s.ownerStep outcome
  | .worker i => s.workerStep i
  | .nested i => s.nestedStep i
  | .watchdog => s.watchdogStep
  | .loop i op => s.loopStep i op
  | .elapse ns =>
    some { s with
      clock := s.clock + ns
      loops := fun i => { s.loops i with clock := (s.loops i).clock + ns } }

def create (now : ℤ) (policy : FaultPolicy) (hooked : Hook → Bool) (m : Fin n → Heap)
    (k : Fin n → Kernel) : Executor n where
  loops i := .create now (m i) (k i)
  policy := policy
  hooked := hooked
  worker _ := .unborn
  faults := []
  registry := []
  gMetrics _ := false
  loopRunErrors _ := 0
  owner := .idle
  drained := false
  watchdog := .absent
  clock := now
  launched := false
  setups := []
  lastRun := none
  nested := []
  hooks := []
  emitted := []
  askers _ := []
  calledAt := now
  returned := []

def Reaches (now : ℤ) (policy : FaultPolicy) (hooked : Hook → Bool) (m : Fin n → Heap)
    (k : Fin n → Kernel) (ops : List (ExecutorOp n)) (s : Executor n) : Prop :=
  Transition.run step (create now policy hooked m k) ops = some s

end Executor
end RainRuntime
