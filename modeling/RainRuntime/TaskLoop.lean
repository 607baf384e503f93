import RainRuntime.StopTokens
import RainRuntime.TaskPrograms

/-!
# Tasks on their loop, with their tokens

A spawned task and the tasks it awaits, one below the other, form a strand. The innermost
frame of a strand runs, or is suspended, or is queued; the others await the frame inside
them. The coroutines of the world are the strands: a handle stands for the innermost frame,
which is the one whose handle the reactor, the wheel and the queues hold.

Every `co_await` goes through `await_transform`, which gives the token of the frame to what
is awaited, if that has a `set_cancellation`. Tasks and the awaiters of the world have it;
`WhenAllAwaiter`, `WhenAnyAwaiter` and `TimeoutAwaiter` do not.

`spawner` and `root` record who spawned a strand, and with what expression and token the
strands began that were spawned from outside.
-/

namespace RainRuntime

inductive Callers : TaskType → Type where
  | bottom {τ : TaskType} : Callers τ
  | cons {σ τ : TaskType} (token : Option ℕ) (next : σ.Value → Program τ) (rest : Callers τ) :
      Callers σ

/-- Where the innermost frame is: in its body, in an awaiter, or at a shared state. -/
inductive Place (τ : TaskType) where
  | body (p : Program τ)
  | leaf (next : Result ℕ → Program τ)
  | parked (state : ℕ) (next : Shared → Program τ)

/-- `token` is the `cancel_token_` of the innermost frame. -/
structure Strand where
  type : TaskType
  token : Option ℕ
  place : Place type
  callers : Callers type
  spawner : Option Handle

structure Root where
  type : TaskType
  expr : TaskExpr type
  token : Option ℕ

/-- Strands, shared states and stop sources are numbered in the order they are made; the
first `outer` sources belong to the surroundings. -/
structure TaskLoop where
  world : World
  outer : ℕ
  sources : ℕ
  states : ℕ
  shared : ℕ → Shared
  strands : ℕ
  strand : Handle → Option Strand
  root : Handle → Option Root

/-- `order` says whose stop callbacks run first, if the step stops a source. -/
inductive TaskLoopOp where
  | spawn (r : Root)
  | resume (sys : Except Errno ℕ)
  | run (h : Handle) (sys : Except Errno ℕ) (clock : ℤ) (order : List Handle)
  | stop (src : ℕ) (order : List Handle)
  | loop (op : WorldOp)

/-- The token a task runs with that had `own` and is awaited in a frame with `token`. -/
def awaitTransform (token own : Option ℕ) : Option ℕ :=
  match token with
  | some src => some src
  | none => own

namespace World

def isWaiting (s : World) (h : Handle) : Bool :=
  match s.phase h with
  | .waiting _ => true
  | _ => false

def isRunning (s : World) (h : Handle) : Bool :=
  match s.phase h with
  | .running _ => true
  | _ => false

def around : WorldOp → Bool
  | .poll _ => true
  | .tick => true
  | .advanceTo _ => true
  | .drainReactor => true
  | .drainTimer => true
  | .deregister _ => true
  | .remove _ => true
  | .kernel _ => true
  | _ => false

end World

namespace TaskLoop

def setStrand (s : TaskLoop) (h : Handle) (st : Strand) : TaskLoop :=
  { s with strand := Function.update s.strand h (some st) }

def launch (s : TaskLoop) (st : Strand) : Option TaskLoop :=
  (s.world.step (.wake s.strands)).map fun w =>
    { s with
      world := w
      strands := s.strands + 1
      strand := Function.update s.strand s.strands (some st) }

def everyone (s : TaskLoop) (order : List Handle) : List Handle := order ++ List.range s.strands

def applyUpdate (s : TaskLoop) (state : ℕ) (u : Update) (order : List Handle) : Option TaskLoop :=
  let w := u.stops.foldl (World.stopSource (s.everyone order)) s.world
  let w := match u.notifies, u.state.waiter with
    | true, some waiter => w.step (.wake waiter)
    | _, _ => some w
  w.map fun w => { s with world := w, shared := Function.update s.shared state u.state }

def runBody (s : TaskLoop) (h : Handle) (sys : Except Errno ℕ) (clock : ℤ) (order : List Handle)
    {τ : TaskType} (token : Option ℕ) (callers : Callers τ) (spawner : Option Handle) :
    Program τ → Option TaskLoop
  | .ret v =>
    match callers with
    | .bottom => (s.world.step (.finish h)).map fun w => { s with world := w }
    | .cons token next rest => some (s.setStrand h ⟨_, token, .body (next v), rest, spawner⟩)
  | .now next => some (s.setStrand h ⟨τ, token, .body (next clock), callers, spawner⟩)
  | .wait kind fd next =>
    (s.world.step (.await h kind fd h token sys)).bind fun w =>
      if w.isWaiting h then
        some (({ s with world := w } : TaskLoop).setStrand h
          ⟨τ, token, .leaf next, callers, spawner⟩)
      else
        (w.outcome h).map fun r => ({ s with world := w } : TaskLoop).setStrand h
          ⟨τ, token, .body (next r), callers, spawner⟩
  | .await task own next =>
    some (s.setStrand h
      ⟨_, awaitTransform token own, .body task, .cons token next callers, spawner⟩)
  | .makeSource next =>
    some (({ s with sources := s.sources + 1 } : TaskLoop).setStrand h
      ⟨τ, token, .body (next s.sources), callers, spawner⟩)
  | .makeState init next =>
    some (({ s with
      states := s.states + 1
      shared := Function.update s.shared s.states init } : TaskLoop).setStrand h
        ⟨τ, token, .body (next s.states), callers, spawner⟩)
  | .spawn task own next =>
    (s.launch ⟨.unit, own, .body task, .bottom, some h⟩).map fun t =>
      t.setStrand h ⟨τ, token, .body next, callers, spawner⟩
  | .update state f next =>
    (s.applyUpdate state (f (s.shared state)) order).map fun t =>
      t.setStrand h ⟨τ, token, .body next, callers, spawner⟩
  | .awaitState state ready next =>
    if ready (s.shared state) then
      some (s.setStrand h ⟨τ, token, .body (next (s.shared state)), callers, spawner⟩)
    else
      (s.world.step (.park h)).map fun w => ({ s with
        world := w
        shared := Function.update s.shared state
          { s.shared state with waiter := some h } } : TaskLoop).setStrand h
            ⟨τ, token, .parked state next, callers, spawner⟩

def resumed (s : TaskLoop) (h : Handle) : Strand → Option TaskLoop
  | ⟨_, _, .body _, _, _⟩ => some s
  | ⟨τ, token, .leaf next, callers, spawner⟩ =>
    (s.world.outcome h).map fun r =>
      s.setStrand h ⟨τ, token, .body (next r), callers, spawner⟩
  | ⟨τ, token, .parked state next, callers, spawner⟩ =>
    some (s.setStrand h ⟨τ, token, .body (next (s.shared state)), callers, spawner⟩)

def step (s : TaskLoop) : TaskLoopOp → Option TaskLoop
  | .spawn r =>
    if r.token.all fun src => src < s.outer then
      (s.launch ⟨r.type, r.token, .body r.expr.program, .bottom, none⟩).map fun t =>
        { t with root := Function.update t.root s.strands (some r) }
    else none
  | .resume sys =>
    match s.world.ready with
    | [] => none
    | h :: _ =>
      (s.world.step (.resume sys)).bind fun w =>
        (s.strand h).bind fun st => ({ s with world := w } : TaskLoop).resumed h st
  | .run h sys clock order =>
    if s.world.isRunning h then
      match s.strand h with
      | some ⟨_, token, .body p, callers, spawner⟩ =>
        s.runBody h sys clock order token callers spawner p
      | _ => none
    else none
  | .stop src order =>
    if src < s.outer then
      some { s with world := s.world.stopSource (s.everyone order) src }
    else none
  | .loop op =>
    if World.around op then (s.world.step op).map fun w => { s with world := w } else none

def create (outer : ℕ) (now : ℤ) (m : Heap) (k : Kernel) : TaskLoop where
  world := World.fresh now m k
  outer := outer
  sources := outer
  states := 0
  shared := fun _ => Shared.timeout
  strands := 0
  strand := fun _ => none
  root := fun _ => none

def Reaches (outer : ℕ) (now : ℤ) (m : Heap) (k : Kernel) (ops : List TaskLoopOp)
    (s : TaskLoop) : Prop :=
  Transition.run step (create outer now m k) ops = some s

inductive Descends (s : TaskLoop) (r : Handle) : Handle → Prop where
  | self : Descends s r r
  | child {p h : Handle} {st : Strand} (hp : Descends s r p) (hst : s.strand h = some st)
      (hspawner : st.spawner = some p) : Descends s r h

end TaskLoop
end RainRuntime
