import RainRuntime.Combinators
import RainRuntime.LoopWorld

/-!
# Join handles

A `JoinHandle` points to the promise of a task that its loop owns. `cleanup_completed`
destroys the frames of finished tasks in every iteration, whether or not a handle to them
is left, so a handle is good until the first clean-up after the end of its task.

The model is the loop with the promises of the tasks that were started by
`spawn_with_handle`. A coroutine that is suspended at a handle is in none of the world's
own waits: for the world it runs, and `joining` says that it does not act. The end of a
task transfers control to its waiter at once, in the same resumption. A use of a handle
whose frame is gone has no meaning; the model stops there with `fault`.

`finishedNow`, `awaited`, `produced` and `returned` record what happened.
-/

namespace RainRuntime

structure JoinLoop (α : Type*) where
  loop : EventLoop
  handles : List Handle
  result : Handle → Result α
  continuation : Handle → Option Handle
  stopRequested : Handle → Bool
  joining : Handle → Bool
  fault : Bool
  /-- Tasks that have finished since the last `cleanup_completed`. -/
  finishedNow : List Handle
  awaited : List Handle
  produced : Handle → Option (Result α)
  /-- Who got what from which task. -/
  returned : List (Handle × Handle × Result α)

inductive JoinOp (α : Type*) where
  | loop (op : LoopOp)
  | spawnWithHandle (h : Handle)
  | finish (h : Handle) (r : Result α)
  | done (h : Handle)
  | requestStop (h : Handle)
  | await (w h : Handle)

namespace JoinLoop
variable {α : Type*} [Movable α]

/-- The steps of the loop and its tasks that go on as before: a suspended waiter does not act,
and a task with a handle ends by `finish`. -/
def allows (s : JoinLoop α) : LoopOp → Bool
  | .world (.park h) => !s.joining h
  | .world (.await h _ _ _ _ _) => !s.joining h
  | .world (.finish h) => !s.joining h && !s.handles.contains h
  | _ => true

def cleans (s : EventLoop) : LoopOp → Bool
  | .next =>
    match s.pc with
    | .cleanup => true
    | _ => false
  | _ => false

def take (s : JoinLoop α) (w h : Handle) : JoinLoop α :=
  { s with
    result := Function.update s.result h (s.result h).movedFrom
    returned := s.returned ++ [(w, h, s.result h)] }

def transfer (s : JoinLoop α) (h : Handle) : JoinLoop α :=
  match s.continuation h with
  | none => s
  | some w => ({ s with joining := Function.update s.joining w false } : JoinLoop α).take w h

def use (s : JoinLoop α) (h : Handle) (t : JoinLoop α) : Option (JoinLoop α) :=
  if s.handles.contains h then
    some (if s.loop.ownedTasks.contains h then t else { s with fault := true })
  else none

def awaitHandle (s : JoinLoop α) (w h : Handle) : JoinLoop α :=
  let s := { s with awaited := s.awaited ++ [h] }
  if s.loop.world.heap.done h then s.take w h
  else { s with
    continuation := Function.update s.continuation h (some w)
    joining := Function.update s.joining w true }

def step (s : JoinLoop α) (op : JoinOp α) : Option (JoinLoop α) :=
  if s.fault then none else
  match op with
  | .loop op =>
    if s.allows op then
      (s.loop.step op).map fun l => { s with
        loop := l
        finishedNow := if cleans s.loop op then [] else s.finishedNow }
    else none
  | .spawnWithHandle h =>
    -- a new coroutine, suspended at its start
    if s.loop.world.heap.done h then none else
    (s.loop.step (.spawn h)).map fun l => { s with
      loop := l
      handles := s.handles ++ [h]
      result := Function.update s.result h (.error makeCancelledError)
      continuation := Function.update s.continuation h none
      stopRequested := Function.update s.stopRequested h false }
  | .finish h r =>
    if s.handles.contains h && !s.joining h then
      (s.loop.step (.world (.finish h))).map fun l => ({ s with
        loop := l
        result := Function.update s.result h r
        produced := Function.update s.produced h (some r)
        finishedNow := s.finishedNow ++ [h] } : JoinLoop α).transfer h
    else none
  | .done h => s.use h s
  | .requestStop h => s.use h { s with stopRequested := Function.update s.stopRequested h true }
  | .await w h =>
    if s.loop.runs w && !s.joining w then s.use h (s.awaitHandle w h) else none

def create (now : ℤ) (m : Heap) (k : Kernel) : JoinLoop α where
  loop := EventLoop.create now m k
  handles := []
  result := fun _ => .error makeCancelledError
  continuation := fun _ => none
  stopRequested := fun _ => false
  joining := fun _ => false
  fault := false
  finishedNow := []
  awaited := []
  produced := fun _ => none
  returned := []

def Reaches (now : ℤ) (m : Heap) (k : Kernel) (ops : List (JoinOp α)) (s : JoinLoop α) : Prop :=
  Transition.run step (create now m k) ops = some s

/-- The handle is used before the first clean-up after the end of its task, and it is awaited
once. -/
def InTime (s : JoinLoop α) : JoinOp α → Prop
  | .done h => s.loop.world.heap.done h = false ∨ h ∈ s.finishedNow
  | .requestStop h => s.loop.world.heap.done h = false ∨ h ∈ s.finishedNow
  | .await _ h => (s.loop.world.heap.done h = false ∨ h ∈ s.finishedNow) ∧ h ∉ s.awaited
  | _ => True

end JoinLoop

/-! ## What a step of the loop does to the tasks it owns -/

namespace World
variable {s t : World} {op : WorldOp} {h : Handle}

def Active (s : World) (h : Handle) : Prop :=
  (∃ on, s.phase h = .running on) ∨ ∃ a, s.phase h = .waiting a

theorem Active.of_phase (hs : s.Active h) (hp : t.phase h = s.phase h) : t.Active h := by
  rw [Active, hp]
  exact hs

theorem active_update {p : Phase} {k : Handle} (hs : s.Active h)
    (hp : (∃ on, p = .running on) ∨ ∃ a, p = .waiting a)
    (ht : t.phase = Function.update s.phase k p) : t.Active h := by
  rw [Active, ht]
  by_cases hk : h = k
  · rw [hk, Function.update_self]
    exact hp
  · rw [Function.update_of_ne hk]
    exact hs

theorem active_rule (h : Handle) (tls : Option LoopId) :
    Rule (fun s t => s.Active h → t.Active h) tls where
  refl _ hs := hs
  trans h₁ h₂ hs := h₂ (h₁ hs)
  io _ _ hs := hs
  cancel _ _ hs := hs
  schedule _ _ _ _ _ hs := hs
  signal s k a hs := by
    refine hs.of_phase ?_
    rw [signal]
    cases a.kind with
    | sleep delay => rfl
    | _ =>
      rw [notify.eq_def]
      cases tls with
      | none => rfl
      | some l =>
        dsimp only
        split_ifs <;> rfl
  mark _ _ hs := hs
  suspend _ _ a hs := active_update hs (Or.inr ⟨a, rfl⟩) rfl
  go _ _ on _ _ _ hs := active_update hs (Or.inl ⟨on, rfl⟩) rfl
  unmark _ _ hs := hs
  run _ _ on _ hs := active_update hs (Or.inl ⟨on, rfl⟩) rfl

theorem resume_active (hd : s.heap.done h = false) (on : LoopId) (sys : Except Errno ℕ) :
    (s.resume h on sys).Active h := by
  rw [resume, if_neg (by rw [hd]; decide)]
  left
  refine ⟨on, ?_⟩
  cases s.phase h with
  | waiting a => exact Function.update_self ..
  | _ => exact Function.update_self ..

theorem step_done_eq (hs : Inv s) (hstep : step s op = some t) (hop : op ≠ .finish h) :
    t.heap.done h = s.heap.done h := by
  have ht := (step_spec hs hstep).inv
  by_cases hd : s.heap.done h = true
  · rw [hd]
    exact step_done hs hstep hd
  have hd' : s.heap.done h = false := Bool.eq_false_iff.mpr hd
  have hactive : t.Active h → t.heap.done h = s.heap.done h := by
    intro ha
    rw [hd']
    exact ht.owned.done h ha
  by_cases hactor : s.actor op = some h
  swap
  · exact ((step_spec hs hstep).frame h hactor).2
  cases op with
  | wake k =>
    obtain ⟨-, rfl⟩ := step_wake.mp hstep
    rfl
  | park k =>
    obtain ⟨on, -, rfl⟩ := step_park.mp hstep
    rfl
  | finish k => exact absurd (congrArg WorldOp.finish (Option.some.inj hactor)) hop
  | await k kind fd cell token sys =>
    obtain ⟨on, hrun, -, rfl⟩ := step_await.mp hstep
    rw [Option.some.inj hactor] at hrun
    exact hactive ((active_rule h (some on)).await s k kind fd cell token sys (Or.inl ⟨on, hrun⟩))
  | resume sys =>
    obtain ⟨k, rest, hready, rfl⟩ := step_resume.mp hstep
    rw [actor, hready] at hactor
    cases hactor
    exact hactive (resume_active (s := { s with ready := rest }) hd' ownerLoop sys)
  | resumeForeign sys =>
    obtain ⟨entry, rest, hforeign, rfl⟩ := step_resumeForeign.mp hstep
    rw [actor, hforeign] at hactor
    cases hactor
    exact hactive (resume_active (s := { s with foreign := rest }) hd' entry.1 sys)
  | callback k =>
    obtain ⟨a, src, tls, hw, -, -, -, rfl⟩ := step_callback.mp hstep
    obtain rfl : k = h := Option.some.inj hactor
    exact hactive (Or.inr ⟨_, Function.update_self ..⟩)
  | _ => cases hactor

end World
end RainRuntime
