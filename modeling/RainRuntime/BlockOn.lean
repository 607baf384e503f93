import RainRuntime.JoinRuns
import RainRuntime.TaskMachine

/-!
# `block_on`

`block_on` spawns the task on a loop of its own, then the task `capture_into` with the handle,
and runs the loop. The observer is queued right behind the task, so it runs in the first batch:
either the task has ended by then and its frame is still there, because nothing is reaped before
the batch is over, or the observer becomes the continuation of the task and gets the result at
its final suspension.
-/

namespace RainRuntime

inductive TaskEnd (α : Type*) where
  | returns (v : α)
  | throws

namespace TaskEnd
variable {α : Type*}

def stored : TaskEnd α → Result α
  | .returns v => .ok v
  | .throws => .error TaskMachine.unhandled

/-- The task's own result as a `T`: `ofError` is `T(Err(e))` if `T` is a `Result`. -/
def result (ofError : Option (SystemError → α)) : TaskEnd α → Option α
  | .returns v => some v
  | .throws => ofError.map fun f => f TaskMachine.unhandled

end TaskEnd

/-- What `block_on` returns with this slot after `run()`; `none` is a call of `std::abort`. -/
def blockOnResult {α : Type*} (ofError : Option (SystemError → α)) (slot : Option (Result α)) :
    Option α :=
  match slot.getD (.error makeCancelledError) with
  | .ok v => some v
  | .error e => ofError.map fun f => f e

theorem blockOnResult_stored {α : Type*} (ofError : Option (SystemError → α)) (e : TaskEnd α) :
    blockOnResult ofError (some e.stored) = e.result ofError := by
  cases e <;> rfl

/-- `ended` and `captures` record how the task ended, and what was stored in the slot, each time
with whether the frame of the task was there. -/
structure BlockOn (α : Type*) where
  join : JoinLoop α
  slot : Option (Result α)
  ended : Option (TaskEnd α)
  captures : List (Result α × Bool)

inductive BlockOp (α : Type*) where
  | join (op : JoinOp α)
  | finish (h : Handle) (e : TaskEnd α)

def BlockOp.joinOp {α : Type*} : BlockOp α → JoinOp α
  | .join op => op
  | .finish h e => .finish h e.stored

def World.runsHere (s : World) (h : Handle) : Bool :=
  match s.phase h with
  | .running on => on == ownerLoop
  | _ => false

namespace BlockOn
variable {α : Type*}

def idle (s : BlockOn α) : Bool :=
  s.join.loop.ownedTasks.all fun h => !s.join.loop.world.runsHere h || s.join.joining h

/-- The thread calls `run()` once and spawns nothing after it. The coroutine `capture` awaits the
handle of `task`, stores what it gets and ends; nobody else has the handle. -/
def permits (task capture : Handle) (s : BlockOn α) : BlockOp α → Bool
  | .finish _ _ => true
  | .join op =>
    match op with
    | .loop .run => false
    | .loop .next => !s.join.loop.isResuming || s.idle
    | .loop (.resume _) => s.idle
    | .loop (.spawn _) => s.join.loop.isResuming
    | .loop (.world (.park h)) => h != capture
    | .loop (.world (.await h _ _ _ _ _)) => h != capture
    | .loop (.world (.finish h)) => h != capture || s.slot.isSome
    | .loop _ => true
    | .spawnWithHandle _ => s.join.loop.isResuming
    | .finish _ _ => false
    | .done h => h != task
    | .requestStop h => h != task
    | .await w h => if w = capture then h == task && !s.join.awaited.contains task else h != task

def store (task capture : Handle) (s : BlockOn α) (t : JoinLoop α) : BlockOn α :=
  match (t.returned.drop s.join.returned.length).find? fun x => x.1 == capture with
  | some x => { s with
      join := t
      slot := some x.2.2
      captures := s.captures ++ [(x.2.2, t.loop.ownedTasks.contains task)] }
  | none => { s with join := t }

def recordEnd (task : Handle) (s : BlockOn α) : BlockOp α → BlockOn α
  | .finish h e => if h = task then { s with ended := some e } else s
  | .join _ => s

def step [Movable α] (task capture : Handle) (s : BlockOn α) (op : BlockOp α) :
    Option (BlockOn α) :=
  if s.permits task capture op then
    (s.join.step op.joinOp).map fun t => (s.store task capture t).recordEnd task op
  else none

/-- `block_on` up to its call of `run()`, on a loop created at `now`; `capture` is a new
coroutine. -/
def start [Movable α] (now : ℤ) (m : Heap) (k : Kernel) (task capture : Handle) :
    Option (BlockOn α) :=
  if m.done capture then none else
  (Transition.run JoinLoop.step (JoinLoop.create now m k)
    [.spawnWithHandle task, .loop (.spawn capture), .loop .run]).map fun j => ⟨j, none, none, []⟩

end BlockOn

/-! ## The first turn of a spawned task -/

namespace World
variable {s t : World} {op : WorldOp} {h : Handle} {on : LoopId}

theorem QueueOk.not_mem_of_running (hq : s.QueueOk h) (hrun : s.phase h = .running on) :
    h ∉ s.ready ∧ h ∉ s.foreign.map Prod.snd := by
  simp only [QueueOk, hrun, enqueued, lines] at hq
  constructor
  · intro hmem
    have hpos := List.count_pos_iff.mpr hmem
    omega
  · intro hmem
    have hpos := List.count_pos_iff.mpr hmem
    omega

def actsIn (h : Handle) : WorldOp → Bool
  | .park k => k == h
  | .finish k => k == h
  | .await k _ _ _ _ _ => k == h
  | _ => false

theorem step_running (hs : Inv s) (hstep : step s op = some t) (hrun : s.phase h = .running on)
    (hop : actsIn h op = false) : t.phase h = .running on := by
  have hq := (hs.owned.queue h).not_mem_of_running hrun
  refine ((step_spec hs hstep).frame h ?_).1.trans hrun
  intro hactor
  cases op with
  | wake k =>
    obtain ⟨hidle, -⟩ := step_wake.mp hstep
    rw [Option.some.inj hactor, hrun] at hidle
    cases hidle
  | park k => simp [actsIn, Option.some.inj hactor] at hop
  | finish k => simp [actsIn, Option.some.inj hactor] at hop
  | await k kind fd cell token sys => simp [actsIn, Option.some.inj hactor] at hop
  | resume sys => exact hq.1 (List.mem_of_head? hactor)
  | resumeForeign sys =>
    obtain ⟨entry, hentry, heq⟩ := Option.map_eq_some_iff.mp hactor
    exact hq.2 (List.mem_map.mpr ⟨entry, List.mem_of_head? hentry, heq⟩)
  | callback k =>
    obtain ⟨a, src, tls, hw, -⟩ := step_callback.mp hstep
    rw [Option.some.inj hactor, hrun] at hw
    cases hw
  | _ => cases hactor

theorem resume_runs (hd : s.heap.done h = false) (on : LoopId) (sys : Except Errno ℕ) :
    (s.resume h on sys).phase h = .running on := by
  rw [resume, if_neg (by rw [hd]; decide)]
  cases s.phase h with
  | waiting a => exact Function.update_self ..
  | _ => exact Function.update_self ..

end World

namespace EventLoop
variable {s t : EventLoop} {op : LoopOp} {c : Handle}

theorem step_spawn_eq {k : Handle} (h : EventLoop.step s (.spawn k) = some t) :
    s.isFresh k = true ∧
      t = { s with world := s.world.enqueue k, ownedTasks := s.ownedTasks ++ [k] } := by
  cases step_move h with
  | spawn _ hfresh => exact ⟨hfresh, rfl⟩

/-- A task spawned before `run()` is called is in the first batch, unless the loop is stopped
before it gets there. -/
def FirstTurn (s : EventLoop) (c : Handle) : Prop :=
  match s.pc with
  | .head => c ∈ s.world.ready
  | .resuming => c ∈ s.world.ready.take s.batch ∨ s.world.phase c = .running ownerLoop
  | .leaving | .outside _ => s.stopRequested = true
  | _ => False

theorem FirstTurn.of_grows (hf : s.FirstTurn c) (hpc : t.pc = s.pc) (hbatch : t.batch = s.batch)
    (hstop : s.stopRequested = true → t.stopRequested = true) (hgrows : s.world.Grows t.world)
    (hrun : s.world.phase c = .running ownerLoop → t.world.phase c = .running ownerLoop) :
    t.FirstTurn c := by
  unfold FirstTurn at hf ⊢
  rw [hpc]
  cases hs : s.pc with
  | head =>
    rw [hs] at hf
    exact hgrows.subset hf
  | resuming =>
    rw [hs] at hf
    dsimp only at hf ⊢
    rw [hbatch]
    exact hf.imp (fun hmem => (hgrows.take s.batch).subset hmem) hrun
  | leaving | outside =>
    rw [hs] at hf
    exact hstop hf
  | _ =>
    rw [hs] at hf
    exact hf

theorem FirstTurn.resume (hf : s.FirstTurn c) (hi : World.Inv s.world)
    (hd : s.world.heap.done c = false) {n : ℕ} {sys : Except Errno ℕ} {w : World}
    (hpc : s.pc = .resuming) (hbatch : s.batch = n + 1)
    (hw : s.world.step (.resume sys) = some w) :
    ({ s with world := w, batch := n } : EventLoop).FirstTurn c := by
  unfold FirstTurn at hf ⊢
  simp only [hpc] at hf ⊢
  rcases hf with hmem | hrun
  · obtain ⟨k, rest, hready, hrest, -⟩ := World.resume_grows hw
    rw [hready, hbatch, List.take_succ_cons, List.mem_cons] at hmem
    rcases hmem with rfl | hmem
    · obtain ⟨k', rest', hready', rfl⟩ := World.step_resume.mp hw
      obtain ⟨rfl, rfl⟩ := List.cons.inj (hready.symm.trans hready')
      exact Or.inr (World.resume_runs (s := { s.world with ready := rest }) hd ownerLoop sys)
    · exact Or.inl ((hrest.take n).subset hmem)
  · exact Or.inr (World.step_running hi hw hrun rfl)

theorem FirstTurn.step (hf : s.FirstTurn c) (hi : World.Inv s.world)
    (hd : s.world.heap.done c = false) (hrun : op ≠ .run)
    (hnext : op = .next → s.isResuming = true → s.world.phase c ≠ .running ownerLoop)
    (hacts : ∀ op', op = .world op' → World.actsIn c op' = false)
    (h : EventLoop.step s op = some t) : t.FirstTurn c := by
  cases step_move h with
  | run => exact absurd rfl hrun
  | stop _ hstop => exact hstop
  | snapshot hpc =>
    rw [FirstTurn, hpc] at hf
    exact Or.inl (by rw [List.take_length]; exact hf)
  | batchDone hpc hbatch =>
    rw [FirstTurn, hpc, hbatch] at hf
    rcases hf with hmem | hrunning
    · cases hmem
    · exact absurd hrunning (hnext rfl (by rw [isResuming, hpc]))
  | leave hpc =>
    rw [FirstTurn, hpc] at hf
    exact hf
  | resume hpc hbatch hw => exact hf.resume hi hd hpc hbatch hw
  | @spawn h' _ hfresh =>
    refine hf.of_grows rfl rfl id (List.prefix_append _ [h']) fun hrunning => ?_
    refine (World.enqueue_phase_of_ne ?_).trans hrunning
    rintro rfl
    rw [(idle_of_isFresh hfresh).1] at hrunning
    cases hrunning
  | world hop hw =>
    refine hf.of_grows rfl rfl id (World.step_grows hw ?_) fun hrunning =>
      World.step_running hi hw hrunning (hacts _ rfl)
    rintro sys rfl
    cases hop
  | requestStop => exact hf.of_grows rfl rfl (fun _ => rfl) (World.Grows.of_eq rfl) id
  | push | write | ring | elapse => exact hf
  | goOn hpc =>
    rw [FirstTurn] at hf
    rcases hpc with hpc | hpc <;> rw [hpc] at hf <;> exact hf.elim
  | _ hpc =>
    rw [FirstTurn, hpc] at hf
    exact hf.elim

/-! ## A loop that nobody stops leaves when it owns nothing -/

def LeavesEmpty (s : EventLoop) : Prop :=
  match s.pc with
  | .leaving | .outside (some (.ok _)) => s.stopRequested = false → s.ownedTasks = []
  | _ => True

theorem LeavesEmpty.step (hs : s.LeavesEmpty) (hspawn : ∀ k, op = .spawn k → s.isResuming = true)
    (h : EventLoop.step s op = some t) : t.LeavesEmpty := by
  cases step_move h with
  | stop _ hstop => exact fun hnot => absurd (hstop.symm.trans hnot) (by decide)
  | exitRecheck _ howned => exact fun _ => howned
  | leave hpc =>
    rw [LeavesEmpty, hpc] at hs
    exact hs
  | spawn hpc =>
    rcases hpc with ⟨r, hpc⟩ | hpc
    · have hres := hspawn _ rfl
      rw [isResuming, hpc] at hres
      cases hres
    · simp only [LeavesEmpty, hpc]
  | requestStop =>
    rw [LeavesEmpty]
    split
    · exact fun hnot => nomatch hnot
    · exact fun hnot => nomatch hnot
    · trivial
  | resume | world | push | write | ring | elapse => exact hs
  | _ => trivial

theorem step_done_eq {k : Handle} (hi : World.Inv s.world) (h : EventLoop.step s op = some t)
    (hop : op ≠ .world (.finish k)) : t.world.heap.done k = s.world.heap.done k := by
  cases step_change h with
  | cleanup _ _ _ hworld => rw [hworld]
  | world op' _ hstep hfinish _ _ =>
    exact World.step_done_eq hi hstep fun he => hop (hfinish k he)
  | grow _ _ _ _ _ hdone => rw [hdone]

theorem step_place {k : Handle} (h : EventLoop.step s op = some t)
    (hk : k ∈ s.ownedTasks ∨ k ∈ s.completed) : k ∈ t.ownedTasks ∨ k ∈ t.completed := by
  cases step_change h with
  | cleanup _ howned hcompleted _ =>
    rw [howned, hcompleted]
    rcases hk with hin | hin
    · by_cases hd : s.world.heap.done k = true
      · exact Or.inr (List.mem_append_right _ (List.mem_filter.mpr ⟨hin, hd⟩))
      · exact Or.inl (List.mem_filter.mpr ⟨hin, by simpa using hd⟩)
    · exact Or.inr (List.mem_append_left _ hin)
  | world _ _ _ _ howned hcompleted =>
    rw [howned, hcompleted]
    exact hk
  | grow _ _ _ howned hcompleted _ =>
    rw [howned, hcompleted]
    exact hk.imp_left fun hin => List.mem_append_left _ hin

theorem ne_of_spawn {k h' : Handle} (hk : k ∈ s.ownedTasks ∨ k ∈ s.completed)
    (h : EventLoop.step s (.spawn h') = some t) : k ≠ h' := by
  have hfresh := (step_spawn_eq h).1
  simp only [isFresh, Bool.and_eq_true, Bool.not_eq_true', List.contains_eq_mem,
    decide_eq_false_iff_not] at hfresh
  rintro rfl
  exact hk.elim hfresh.1.2 hfresh.2

end EventLoop

/-! ## Where the observer is -/

namespace BlockOn
variable {α : Type*} {now : ℤ} {m : Heap} {k : Kernel} {task capture : Handle}
  {s t : BlockOn α} {op : BlockOp α}

/-- Before its `co_await`, suspended at the handle, and after the assignment. -/
inductive Stage (task capture : Handle) (s : BlockOn α) : Prop where
  | fresh (turn : s.join.loop.FirstTurn capture) (owned : task ∈ s.join.loop.ownedTasks)
      (awaited : task ∉ s.join.awaited) (cont : s.join.continuation task = none)
      (free : s.join.joining capture = false)
      (running : s.join.loop.world.heap.done capture = false) (slot : s.slot = none)
      (captures : s.captures = [])
      (result : s.join.loop.world.heap.done task = true →
        ∃ e, s.ended = some e ∧ s.join.result task = e.stored)
  | joined (awaited : task ∈ s.join.awaited) (cont : s.join.continuation task = some capture)
      (running : s.join.loop.world.heap.done capture = false)
      (undone : s.join.loop.world.heap.done task = false) (slot : s.slot = none)
      (captures : s.captures = [])
  | captured (e : TaskEnd α) (awaited : task ∈ s.join.awaited) (ended : s.ended = some e)
      (done : s.join.loop.world.heap.done task = true) (slot : s.slot = some e.stored)
      (captures : s.captures = [(e.stored, true)])

structure Untouched (task capture : Handle) (s t : BlockOn α) : Prop where
  awaited : task ∈ t.join.awaited ↔ task ∈ s.join.awaited
  continuation : t.join.continuation task = s.join.continuation task
  joining : t.join.joining capture = s.join.joining capture
  result : t.join.result task = s.join.result task
  slot : t.slot = s.slot
  captures : t.captures = s.captures
  ended : t.ended = s.ended
  task_done : t.join.loop.world.heap.done task = s.join.loop.world.heap.done task
  capture_done : s.slot = none →
    t.join.loop.world.heap.done capture = s.join.loop.world.heap.done capture
  turn : s.slot = none → s.join.joining capture = false →
    s.join.loop.world.heap.done capture = false → s.join.loop.FirstTurn capture →
    t.join.loop.FirstTurn capture ∧
      (task ∈ s.join.loop.ownedTasks → task ∈ t.join.loop.ownedTasks)

theorem Stage.untouched (hs : Stage task capture s) (hu : Untouched task capture s t) :
    Stage task capture t := by
  cases hs with
  | fresh turn owned awaited cont free running slot captures result =>
    obtain ⟨hturn, howned⟩ := hu.turn slot free running turn
    refine .fresh hturn (howned owned) (fun hmem => awaited (hu.awaited.mp hmem))
      (hu.continuation.trans cont) (hu.joining.trans free) ((hu.capture_done slot).trans running)
      (hu.slot.trans slot) (hu.captures.trans captures) ?_
    rw [hu.task_done, hu.ended, hu.result]
    exact result
  | joined awaited cont running undone slot captures =>
    exact .joined (hu.awaited.mpr awaited) (hu.continuation.trans cont)
      ((hu.capture_done slot).trans running) (hu.task_done.trans undone) (hu.slot.trans slot)
      (hu.captures.trans captures)
  | captured e awaited ended done slot captures =>
    exact .captured e (hu.awaited.mpr awaited) (hu.ended.trans ended) (hu.task_done.trans done)
      (hu.slot.trans slot) (hu.captures.trans captures)

structure Inv (now : ℤ) (m : Heap) (k : Kernel) (task capture : Handle) (s : BlockOn α) :
    Prop where
  held : JoinLoop.Held now m k s.join
  handle : task ∈ s.join.handles
  noHandle : capture ∉ s.join.handles
  place : capture ∈ s.join.loop.ownedTasks ∨ capture ∈ s.join.loop.completed
  solo : ∀ h, s.join.continuation h = some capture → h = task
  leaves : s.join.loop.LeavesEmpty
  stage : Stage task capture s

/-! ## Steps -/

section Store
variable {j : JoinLoop α}

theorem store_of_eq (h : j.returned = s.join.returned) :
    s.store task capture j = { s with join := j } := by
  rw [store, h, List.drop_length]
  rfl

theorem store_of_other {w h : Handle} {r : Result α} (hne : w ≠ capture)
    (hret : j.returned = s.join.returned ++ [(w, h, r)]) :
    s.store task capture j = { s with join := j } := by
  have hfind : (j.returned.drop s.join.returned.length).find? (fun x => x.1 == capture) = none := by
    rw [hret, List.drop_left]
    simp [hne]
  rw [store, hfind]

theorem store_of_capture {h : Handle} {r : Result α}
    (hret : j.returned = s.join.returned ++ [(capture, h, r)]) :
    s.store task capture j = { s with
      join := j
      slot := some r
      captures := s.captures ++ [(r, j.loop.ownedTasks.contains task)] } := by
  have hfind : (j.returned.drop s.join.returned.length).find? (fun x => x.1 == capture) =
      some (capture, h, r) := by
    rw [hret, List.drop_left]
    simp
  rw [store, hfind]

end Store

section Steps
variable {l : EventLoop} {op' : LoopOp} {j : JoinLoop α}

theorem Inv.not_idle (hs : Inv now m k task capture s)
    (hrun : s.join.loop.world.phase capture = .running ownerLoop)
    (hfree : s.join.joining capture = false) : s.idle = false := by
  obtain ⟨ops, hr⟩ := hs.held.reaches
  have howned : capture ∈ s.join.loop.ownedTasks := by
    refine hs.place.resolve_right fun hcompleted => ?_
    have hdone := hr.driven.done capture hcompleted
    rw [hr.driven.inv.owned.done capture (Or.inl ⟨ownerLoop, hrun⟩)] at hdone
    cases hdone
  rw [idle, List.all_eq_false]
  refine ⟨capture, howned, ?_⟩
  simp [World.runsHere, hrun, hfree]

theorem Inv.firstTurn (hs : Inv now m k task capture s) (hl : s.join.loop.step op' = some l)
    (hrun : op' ≠ .run) (hnext : op' = .next → s.join.loop.isResuming = true → s.idle = true)
    (hacts : ∀ w, op' = .world w → World.actsIn capture w = false)
    (hfree : s.join.joining capture = false)
    (hopen : s.join.loop.world.heap.done capture = false)
    (hturn : s.join.loop.FirstTurn capture) : l.FirstTurn capture := by
  refine hturn.step hs.held.inv hopen hrun (fun he hres hrunning => ?_) hacts hl
  rw [hs.not_idle hrunning hfree] at hnext
  cases hnext he hres

theorem Inv.keeps_task (hs : Inv now m k task capture s) (hl : s.join.loop.step op' = some l)
    (hfinish : ∀ h ∈ s.join.handles, op' ≠ .world (.finish h))
    (hturn : s.join.loop.FirstTurn capture) (howned : task ∈ s.join.loop.ownedTasks) :
    task ∈ l.ownedTasks := by
  have hcleans : JoinLoop.cleans s.join.loop op' = false := by
    rw [JoinLoop.cleans.eq_def]
    split
    · cases hpc : s.join.loop.pc with
      | cleanup =>
        rw [EventLoop.FirstTurn, hpc] at hturn
        exact hturn.elim
      | _ => rfl
    · rfl
  obtain ⟨hdone, -, howns⟩ := hs.held.loop hl hfinish
  rw [howns task hs.handle, hdone task hs.handle, hcleans]
  exact (hs.held.owns task hs.handle).mp howned

theorem permits_loop (h : s.permits task capture (.join (.loop op')) = true) :
    op' ≠ .run ∧ (op' = .next → s.join.loop.isResuming = true → s.idle = true) ∧
    (∀ w, op' = .world w → s.slot = none → World.actsIn capture w = false) ∧
    ∀ h, op' = .spawn h → s.join.loop.isResuming = true := by
  refine ⟨?_, ?_, ?_, ?_⟩
  · rintro rfl
    cases h
  · rintro rfl hres
    simpa [permits, hres] using h
  · rintro w rfl hslot
    cases w with
    | park h' => simpa [permits, World.actsIn] using h
    | finish h' => simpa [permits, World.actsIn, hslot] using h
    | await h' kind fd cell token sys => simpa [permits, World.actsIn] using h
    | _ => rfl
  · rintro h' rfl
    exact h

theorem Inv.loop (hs : Inv now m k task capture s) {fin : List Handle}
    (hperm : s.permits task capture (.join (.loop op')) = true) (hallow : s.join.allows op' = true)
    (hl : s.join.loop.step op' = some l)
    (hheld : JoinLoop.Held now m k { s.join with loop := l, finishedNow := fin }) :
    Inv now m k task capture { s with join := { s.join with loop := l, finishedNow := fin } } := by
  obtain ⟨hrun, hnext, hacts, hspawn⟩ := permits_loop hperm
  have hfinish := JoinLoop.allows_finish hallow
  refine ⟨hheld, hs.handle, hs.noHandle, EventLoop.step_place hl hs.place, hs.solo,
    hs.leaves.step hspawn hl, hs.stage.untouched ?_⟩
  refine ⟨Iff.rfl, rfl, rfl, rfl, rfl, rfl, rfl, (hs.held.loop hl hfinish).1 task hs.handle, ?_, ?_⟩
  · intro hslot
    refine EventLoop.step_done_eq hs.held.inv hl ?_
    rintro rfl
    have hact := hacts _ rfl hslot
    simp [World.actsIn] at hact
  · intro hslot hfree hopen hturn
    exact ⟨hs.firstTurn hl hrun hnext (fun w hw => hacts w hw hslot) hfree hopen hturn,
      hs.keeps_task hl hfinish hturn⟩

theorem Inv.spawn (hs : Inv now m k task capture s) {h : Handle} {b : Handle → Bool}
    (hperm : s.join.loop.isResuming = true) (hl : s.join.loop.step (.spawn h) = some l)
    (hheld : JoinLoop.Held now m k ({ s.join with
      loop := l
      handles := s.join.handles ++ [h]
      result := Function.update s.join.result h (.error makeCancelledError)
      continuation := Function.update s.join.continuation h none
      stopRequested := b } : JoinLoop α)) :
    Inv now m k task capture { s with join := { s.join with
      loop := l
      handles := s.join.handles ++ [h]
      result := Function.update s.join.result h (.error makeCancelledError)
      continuation := Function.update s.join.continuation h none
      stopRequested := b } } := by
  obtain ⟨hnew, hdone, -⟩ := hs.held.spawn hl
  have htask : task ≠ h := fun he => hnew (he ▸ hs.handle)
  have hcapture : capture ≠ h := EventLoop.ne_of_spawn hs.place hl
  refine ⟨hheld, List.mem_append_left _ hs.handle, ?_, EventLoop.step_place hl hs.place, ?_,
    hs.leaves.step (fun _ _ => hperm) hl, hs.stage.untouched ?_⟩
  · intro hmem
    rcases List.mem_append.mp hmem with hmem | hmem
    · exact hs.noHandle hmem
    · exact hcapture (List.mem_singleton.mp hmem)
  · intro h' hc
    dsimp only at hc
    by_cases hh : h' = h
    · rw [hh, Function.update_self] at hc
      cases hc
    · rw [Function.update_of_ne hh] at hc
      exact hs.solo h' hc
  · refine ⟨Iff.rfl, Function.update_of_ne htask _ _, rfl, Function.update_of_ne htask _ _, rfl,
      rfl, rfl, by rw [hdone], fun _ => by rw [hdone], ?_⟩
    intro _ hfree hopen hturn
    exact ⟨hs.firstTurn hl nofun nofun nofun hfree hopen hturn,
      hs.keeps_task hl (fun _ _ => nofun) hturn⟩

theorem Inv.of_eq (hs : Inv now m k task capture s) (hheld : JoinLoop.Held now m k j)
    (hloop : j.loop = s.join.loop) (hhandles : j.handles = s.join.handles)
    (hsolo : ∀ h, j.continuation h = some capture → h = task)
    (hu : Untouched task capture s { s with join := j }) :
    Inv now m k task capture { s with join := j } := by
  refine ⟨hheld, ?_, ?_, ?_, hsolo, ?_, hs.stage.untouched hu⟩
  · rw [hhandles]
    exact hs.handle
  · rw [hhandles]
    exact hs.noHandle
  · rw [hloop]
    exact hs.place
  · rw [hloop]
    exact hs.leaves

theorem untouched_of_loop (hloop : j.loop = s.join.loop)
    (hawaited : task ∈ j.awaited ↔ task ∈ s.join.awaited)
    (hcont : j.continuation task = s.join.continuation task)
    (hjoining : j.joining capture = s.join.joining capture)
    (hresult : j.result task = s.join.result task) :
    Untouched task capture s { s with join := j } := by
  refine ⟨hawaited, hcont, hjoining, hresult, rfl, rfl, rfl, ?_, fun _ => ?_, fun _ _ _ hturn => ?_⟩
  · rw [hloop]
  · rw [hloop]
  · rw [hloop]
    exact ⟨hturn, id⟩

section Finish
variable [Movable α] {h : Handle} {e : TaskEnd α}

def atEnd (s : JoinLoop α) (l : EventLoop) (h : Handle) (r : Result α) : JoinLoop α :=
  { s with
    loop := l
    result := Function.update s.result h r
    produced := Function.update s.produced h (some r)
    finishedNow := s.finishedNow ++ [h] }

theorem atEnd_transfer (l : EventLoop) (r : Result α) :
    (s.join.continuation h = none ∧ (atEnd s.join l h r).transfer h = atEnd s.join l h r) ∨
    ∃ w, s.join.continuation h = some w ∧ (atEnd s.join l h r).transfer h =
      { atEnd s.join l h r with
        joining := Function.update s.join.joining w false
        result := Function.update (Function.update s.join.result h r) h (Result.movedFrom r)
        returned := s.join.returned ++ [(w, h, r)] } := by
  cases hc : s.join.continuation h with
  | none => exact Or.inl ⟨rfl, by simp [JoinLoop.transfer, atEnd, hc]⟩
  | some w => exact Or.inr ⟨w, rfl, by simp [JoinLoop.transfer, atEnd, hc, JoinLoop.take]⟩

omit [Movable α] in
theorem Inv.atEnd_stage (hs : Inv now m k task capture s) (hmem : h ∈ s.join.handles)
    (hl : s.join.loop.step (.world (.finish h)) = some l) :
    (s.join.joining capture = false → s.join.loop.world.heap.done capture = false →
      s.join.loop.FirstTurn capture → l.FirstTurn capture) ∧
    l.world.heap.done capture = s.join.loop.world.heap.done capture := by
  have hne : capture ≠ h := fun he => hs.noHandle (he ▸ hmem)
  obtain ⟨-, hdone, -, -⟩ := hs.held.finish hl
  refine ⟨hs.firstTurn hl nofun nofun ?_, ?_⟩
  · rintro w hw
    cases hw
    exact beq_false_of_ne hne.symm
  · rw [hdone, Function.update_of_ne hne]

theorem Inv.finish_task (hs : Inv now m k task capture s)
    (hl : s.join.loop.step (.world (.finish task)) = some l)
    (hheld : JoinLoop.Held now m k ((atEnd s.join l task e.stored).transfer task)) :
    Inv now m k task capture
      { s.store task capture ((atEnd s.join l task e.stored).transfer task) with
        ended := some e } := by
  obtain ⟨hundone, hdone, howned, -⟩ := hs.held.finish hl
  obtain ⟨hturn, hopen⟩ := hs.atEnd_stage hs.handle hl
  have hplace := EventLoop.step_place hl hs.place
  have hleaves := hs.leaves.step (fun _ he => by cases he) hl
  have htask : l.world.heap.done task = true := by rw [hdone, Function.update_self]
  rcases hs.stage with ⟨turn, owned, awaited, cont, free, running, slot, captures, -⟩ |
    ⟨awaited, cont, running, undone, slot, captures⟩ | ⟨e', -, -, done, -, -⟩
  · rcases atEnd_transfer (s := s) (h := task) l e.stored with ⟨-, heq⟩ | ⟨w, hw, -⟩
    swap
    · rw [cont] at hw
      cases hw
    rw [heq] at hheld ⊢
    rw [store_of_eq (s := s) (j := atEnd s.join l task e.stored) rfl]
    refine ⟨hheld, hs.handle, hs.noHandle, hplace, hs.solo, hleaves, ?_⟩
    exact .fresh (hturn free running turn) (by rw [← howned] at owned; exact owned) awaited cont
      free (hopen.trans running) slot captures fun _ => ⟨e, rfl, Function.update_self ..⟩
  · have htransfer := atEnd_transfer (s := s) (h := task) l e.stored
    rw [cont] at htransfer
    rcases htransfer with ⟨hc, -⟩ | ⟨w, hw, heq⟩
    · cases hc
    · obtain rfl := Option.some.inj hw
      rw [store_of_capture (s := s) (h := task) (r := e.stored) (by rw [heq])]
      rw [heq] at hheld ⊢
      refine ⟨hheld, hs.handle, hs.noHandle, hplace, hs.solo, hleaves, ?_⟩
      refine .captured e awaited rfl htask rfl ?_
      have hthere : task ∈ l.ownedTasks := by
        rw [howned]
        exact (hs.held.owns task hs.handle).mpr (Or.inl undone)
      simp [captures, atEnd, hthere]
  · rw [hundone] at done
    cases done

theorem Inv.finish_other (hs : Inv now m k task capture s) (hmem : h ∈ s.join.handles)
    (hne : h ≠ task) (hl : s.join.loop.step (.world (.finish h)) = some l)
    (hheld : JoinLoop.Held now m k ((atEnd s.join l h e.stored).transfer h)) :
    Inv now m k task capture (s.store task capture ((atEnd s.join l h e.stored).transfer h)) := by
  obtain ⟨-, hdone, howned, -⟩ := hs.held.finish hl
  obtain ⟨hturn, hopen⟩ := hs.atEnd_stage hmem hl
  have hplace := EventLoop.step_place hl hs.place
  have hleaves := hs.leaves.step (fun _ he => by cases he) hl
  have htask : l.world.heap.done task = s.join.loop.world.heap.done task := by
    rw [hdone, Function.update_of_ne hne.symm]
  have hgo : ∀ hfree hopen turn, l.FirstTurn capture ∧
      (task ∈ s.join.loop.ownedTasks → task ∈ l.ownedTasks) := fun hfree hopen turn =>
    ⟨hturn hfree hopen turn, fun hin => by rw [howned]; exact hin⟩
  rcases atEnd_transfer (s := s) (h := h) l e.stored with ⟨-, heq⟩ | ⟨w, hw, heq⟩
  · rw [heq] at hheld ⊢
    rw [store_of_eq (s := s) (j := atEnd s.join l h e.stored) rfl]
    refine ⟨hheld, hs.handle, hs.noHandle, hplace, hs.solo, hleaves, hs.stage.untouched ?_⟩
    exact ⟨Iff.rfl, rfl, rfl, Function.update_of_ne hne.symm _ _, rfl, rfl, rfl, htask,
      fun _ => hopen, fun _ => hgo⟩
  · have hwait : w ≠ capture := fun he => hne (hs.solo h (he ▸ hw))
    rw [store_of_other (s := s) (h := h) (r := e.stored) hwait (by rw [heq])]
    rw [heq] at hheld ⊢
    refine ⟨hheld, hs.handle, hs.noHandle, hplace, hs.solo, hleaves, hs.stage.untouched ?_⟩
    refine ⟨Iff.rfl, rfl, Function.update_of_ne hwait.symm _ _, ?_, rfl, rfl, rfl, htask,
      fun _ => hopen, fun _ => hgo⟩
    exact (Function.update_of_ne hne.symm _ _).trans (Function.update_of_ne hne.symm _ _)

end Finish

section Await
variable [Movable α] {w h : Handle}

theorem awaitHandle_cases (s : BlockOn α) (w h : Handle) :
    (s.join.loop.world.heap.done h = true ∧ s.join.awaitHandle w h = { s.join with
      awaited := s.join.awaited ++ [h]
      result := Function.update s.join.result h (s.join.result h).movedFrom
      returned := s.join.returned ++ [(w, h, s.join.result h)] }) ∨
    (s.join.loop.world.heap.done h = false ∧ s.join.awaitHandle w h = { s.join with
      awaited := s.join.awaited ++ [h]
      continuation := Function.update s.join.continuation h (some w)
      joining := Function.update s.join.joining w true }) := by
  cases hd : s.join.loop.world.heap.done h with
  | true => exact Or.inl ⟨rfl, by simp [JoinLoop.awaitHandle, JoinLoop.take, hd]⟩
  | false => exact Or.inr ⟨rfl, by simp [JoinLoop.awaitHandle, hd]⟩

theorem Inv.await_task (hs : Inv now m k task capture s) (hna : task ∉ s.join.awaited)
    (hheld : JoinLoop.Held now m k (s.join.awaitHandle capture task)) :
    Inv now m k task capture (s.store task capture (s.join.awaitHandle capture task)) := by
  have hmem : task ∈ s.join.awaited ++ [task] :=
    List.mem_append_right _ (List.mem_singleton.mpr rfl)
  rcases hs.stage with ⟨turn, owned, -, cont, free, running, slot, captures, result⟩ |
    ⟨awaited, -, -, -, -, -⟩ | ⟨e, awaited, -, -, -, -⟩
  · rcases awaitHandle_cases s capture task with ⟨hd, heq⟩ | ⟨hd, heq⟩
    · rw [store_of_capture (s := s) (h := task) (r := s.join.result task) (by rw [heq])]
      rw [heq] at hheld ⊢
      obtain ⟨e, hended, hresult⟩ := result hd
      refine ⟨hheld, hs.handle, hs.noHandle, hs.place, hs.solo, hs.leaves, ?_⟩
      exact .captured e hmem hended hd (congrArg some hresult) (by simp [captures, hresult, owned])
    · rw [store_of_eq (s := s) (by rw [heq])]
      rw [heq] at hheld ⊢
      refine ⟨hheld, hs.handle, hs.noHandle, hs.place, fun h hc => ?_, hs.leaves, ?_⟩
      · by_contra hh
        dsimp only at hc
        rw [Function.update_of_ne hh] at hc
        exact hh (hs.solo h hc)
      · exact .joined hmem (Function.update_self ..) running hd slot captures
  · exact absurd awaited hna
  · exact absurd awaited hna

theorem Inv.await_other (hs : Inv now m k task capture s) (hw : w ≠ capture) (hh : h ≠ task)
    (hheld : JoinLoop.Held now m k (s.join.awaitHandle w h)) :
    Inv now m k task capture (s.store task capture (s.join.awaitHandle w h)) := by
  have hmem : task ∈ s.join.awaited ++ [h] ↔ task ∈ s.join.awaited := by
    rw [List.mem_append, List.mem_singleton, or_iff_left hh.symm]
  rcases awaitHandle_cases s w h with ⟨-, heq⟩ | ⟨-, heq⟩
  · rw [store_of_other (s := s) (h := h) (r := s.join.result h) hw (by rw [heq])]
    rw [heq] at hheld ⊢
    exact hs.of_eq hheld rfl rfl hs.solo
      (untouched_of_loop rfl hmem rfl rfl (Function.update_of_ne hh.symm _ _))
  · rw [store_of_eq (s := s) (by rw [heq])]
    rw [heq] at hheld ⊢
    refine hs.of_eq hheld rfl rfl (fun h' hc => ?_) (untouched_of_loop rfl hmem
      (Function.update_of_ne hh.symm _ _) (Function.update_of_ne hw.symm _ _) rfl)
    dsimp only at hc
    by_cases hh' : h' = h
    · rw [hh', Function.update_self, Option.some.injEq] at hc
      exact absurd hc hw
    · rw [Function.update_of_ne hh'] at hc
      exact hs.solo h' hc

omit [Movable α] in
theorem Inv.misuse (hs : Inv now m k task capture s)
    (hheld : JoinLoop.Held now m k { s.join with fault := true }) :
    Inv now m k task capture (s.store task capture { s.join with fault := true }) := by
  rw [store_of_eq (s := s) (by rfl)]
  exact hs.of_eq hheld rfl rfl hs.solo (untouched_of_loop rfl Iff.rfl rfl rfl rfl)

theorem Inv.step (hs : Inv now m k task capture s) (hstep : s.step task capture op = some t) :
    Inv now m k task capture t := by
  rw [BlockOn.step] at hstep
  split_ifs at hstep with hperm
  obtain ⟨j, hj, rfl⟩ := Option.map_eq_some_iff.mp hstep
  have hheld := hs.held.step hj
  cases op with
  | finish h e =>
    cases JoinLoop.step_effect hj with
    | finish h' r l hop hmem hl heq =>
      obtain ⟨rfl, rfl⟩ := JoinOp.finish.inj hop
      rw [heq] at hheld ⊢
      by_cases hh : h = task
      · subst hh
        rw [recordEnd, if_pos rfl]
        exact hs.finish_task hl hheld
      · rw [recordEnd, if_neg hh]
        exact hs.finish_other hmem hh hl hheld
    | query h' b hop => rcases hop with hop | hop <;> cases hop
    | loop _ _ hop => cases hop
    | spawn _ _ hop => cases hop
    | await _ _ hop => cases hop
  | join op =>
    rw [recordEnd]
    cases JoinLoop.step_effect hj with
    | loop op' l hop hallow hl heq =>
      obtain rfl : op = .loop op' := hop
      rw [heq] at hheld ⊢
      rw [store_of_eq (s := s) (by rfl)]
      exact hs.loop hperm hallow hl hheld
    | spawn h l hop hd hl heq =>
      obtain rfl : op = .spawnWithHandle h := hop
      rw [heq] at hheld ⊢
      rw [store_of_eq (s := s) (by rfl)]
      exact hs.spawn hperm hl hheld
    | finish h r l hop =>
      obtain rfl : op = .finish h r := hop
      cases hperm
    | query h b hop hu =>
      obtain ⟨-, ⟨-, rfl⟩ | ⟨-, rfl⟩⟩ := JoinLoop.use_eq_some hu
      · rw [store_of_eq (s := s) (by rfl)]
        exact hs.of_eq hheld rfl rfl hs.solo (untouched_of_loop rfl Iff.rfl rfl rfl rfl)
      · exact hs.misuse hheld
    | await w h hop hw hu =>
      obtain rfl : op = .await w h := hop
      obtain ⟨-, ⟨-, rfl⟩ | ⟨-, rfl⟩⟩ := JoinLoop.use_eq_some hu
      · by_cases hwc : w = capture
        · subst hwc
          simp only [permits, if_pos, Bool.and_eq_true, beq_iff_eq, Bool.not_eq_true',
            List.contains_eq_mem, decide_eq_false_iff_not] at hperm
          obtain ⟨rfl, hna⟩ := hperm
          exact hs.await_task hna hheld
        · simp only [permits, if_neg hwc, bne_iff_ne] at hperm
          exact hs.await_other hwc hperm hheld
      · exact hs.misuse hheld

theorem step_loop_eq {j j' : JoinLoop α} {op' : LoopOp} (h : j.step (.loop op') = some j') :
    ∃ l, j.loop.step op' = some l ∧ j' = { j with
      loop := l
      finishedNow := if JoinLoop.cleans j.loop op' then [] else j.finishedNow } := by
  cases JoinLoop.step_effect h with
  | loop _ l hop _ hl heq =>
    cases hop
    exact ⟨l, hl, heq⟩
  | spawn _ _ hop => cases hop
  | finish _ _ _ hop => cases hop
  | query _ _ hop => rcases hop with hop | hop <;> cases hop
  | await _ _ hop => cases hop

theorem step_spawnWithHandle_eq {j j' : JoinLoop α} (h' : j.step (.spawnWithHandle h) = some j') :
    ∃ l, j.loop.step (.spawn h) = some l ∧ j.loop.world.heap.done h = false ∧ j' = { j with
      loop := l
      handles := j.handles ++ [h]
      result := Function.update j.result h (.error makeCancelledError)
      continuation := Function.update j.continuation h none
      stopRequested := Function.update j.stopRequested h false } := by
  cases JoinLoop.step_effect h' with
  | spawn _ l hop hd hl heq =>
    cases hop
    exact ⟨l, hl, hd, heq⟩
  | loop _ _ hop => cases hop
  | finish _ _ _ hop => cases hop
  | query _ _ hop => rcases hop with hop | hop <;> cases hop
  | await _ _ hop => cases hop

theorem start_inv (hstart : start now m k task capture = some s) :
    Inv now m k task capture s := by
  rw [start] at hstart
  split_ifs at hstart with hopen
  obtain ⟨j, hj, rfl⟩ := Option.map_eq_some_iff.mp hstart
  obtain ⟨j₁, h₁, hj⟩ := Transition.run_cons_eq_some.mp hj
  obtain ⟨j₂, h₂, hj⟩ := Transition.run_cons_eq_some.mp hj
  obtain ⟨j₃, h₃, hj⟩ := Transition.run_cons_eq_some.mp hj
  rw [Transition.run_nil, Option.some.injEq] at hj
  subst hj
  have hheld := ((JoinLoop.held_create.step h₁).step h₂).step h₃
  obtain ⟨l₁, hl₁, hd, rfl⟩ := step_spawnWithHandle_eq h₁
  obtain ⟨l₂, hl₂, rfl⟩ := step_loop_eq h₂
  obtain ⟨l₃, hl₃, rfl⟩ := step_loop_eq h₃
  obtain ⟨-, rfl⟩ := EventLoop.step_spawn_eq hl₁
  have hmem : task ∈ [] ++ [task] := List.mem_singleton.mpr rfl
  have hne : task ≠ capture := EventLoop.ne_of_spawn (Or.inl hmem) hl₂
  obtain ⟨-, rfl⟩ := EventLoop.step_spawn_eq hl₂
  obtain rfl := (Option.some.inj hl₃).symm
  refine ⟨hheld, hmem, ?_, Or.inl ?_, ?_, trivial, ?_⟩
  · intro hin
    exact hne (List.mem_singleton.mp hin).symm
  · exact List.mem_append_right _ (List.mem_singleton.mpr rfl)
  · intro h' hc
    dsimp only [JoinLoop.create] at hc
    by_cases hh : h' = task
    · exact hh
    · rw [Function.update_of_ne hh] at hc
      cases hc
  · refine .fresh ?_ (List.mem_append_left _ hmem) List.not_mem_nil (Function.update_self ..) rfl
      (Bool.eq_false_iff.mpr hopen) rfl rfl fun hdone => ?_
    · exact List.mem_append_right _ (List.mem_singleton.mpr rfl)
    · exact absurd (hd.symm.trans hdone) Bool.false_ne_true

end Await
end Steps

/-- If `run()` comes back because the loop owns no task any more, the result of the task was stored
in the slot once, while the frame of the task was there, and `block_on` returns it. -/
theorem block_on_returns_own_result [Movable α] {s₀ : BlockOn α}
    (hstart : start now m k task capture = some s₀) {ops : List (BlockOp α)}
    (hrun : Transition.run (step task capture) s₀ ops = some s)
    (hpc : s.join.loop.pc = .outside (some (.ok ()))) (hstop : s.join.loop.stopRequested = false) :
    ∃ e, s.ended = some e ∧ s.captures = [(e.stored, true)] ∧
      ∀ ofError, blockOnResult ofError s.slot = e.result ofError := by
  have hs : Inv now m k task capture s :=
    Transition.invariant (Inv now m k task capture) (fun hstep hu => hu.step hstep)
      (start_inv hstart) hrun
  have hempty : s.join.loop.ownedTasks = [] := by
    have hleaves := hs.leaves
    rw [EventLoop.LeavesEmpty, hpc] at hleaves
    exact hleaves hstop
  have hdone : s.join.loop.world.heap.done capture = true := by
    obtain ⟨ops', hr⟩ := hs.held.reaches
    refine hr.driven.done capture (hs.place.resolve_left ?_)
    rw [hempty]
    exact List.not_mem_nil
  rcases hs.stage with ⟨-, -, -, -, -, running, -, -, -⟩ | ⟨-, -, running, -, -, -⟩ |
    ⟨e, -, ended, -, slot, captures⟩
  · rw [running] at hdone
    cases hdone
  · rw [running] at hdone
    cases hdone
  · refine ⟨e, ended, captures, fun ofError => ?_⟩
    rw [slot, blockOnResult_stored]

instance [Movable α] : Movable (Result α) := ⟨Result.movedFrom⟩

def throwsAfterRead : List (BlockOp (Result ℕ)) :=
  [.join (.loop .next), .join (.loop (.resume (.ok 0))),
    .join (.loop (.world (.await 7 .readReady 3 10 none (.ok 0)))),
    .join (.loop (.resume (.ok 0))), .join (.await 8 7)] ++
  List.replicate 4 (.join (.loop .next)) ++
  [.join (.loop (.poll (.reported [(3, epollIn)]) false))] ++
  List.replicate 5 (.join (.loop .next)) ++
  [.join (.loop (.resume (.ok 0))), .finish 7 .throws, .join (.loop (.world (.finish 8)))] ++
  List.replicate 6 (.join (.loop .next))

theorem block_on_returns_exception : ∃ s₀ s : BlockOn (Result ℕ),
    start 0 World.blankHeap World.blankKernel 7 8 = some s₀ ∧
    Transition.run (step 7 8) s₀ throwsAfterRead = some s ∧
    s.join.loop.pc = .outside (some (.ok ())) ∧
    blockOnResult (some Except.error) s.slot = some (.error TaskMachine.unhandled) := by
  obtain ⟨s₀, s, hstart, hrun, hpc, hstop, hended⟩ : ∃ s₀ s : BlockOn (Result ℕ),
      start 0 World.blankHeap World.blankKernel 7 8 = some s₀ ∧
      Transition.run (step 7 8) s₀ throwsAfterRead = some s ∧
      s.join.loop.pc = .outside (some (.ok ())) ∧ s.join.loop.stopRequested = false ∧
      s.ended = some .throws := ⟨_, _, rfl, rfl, rfl, rfl, rfl⟩
  obtain ⟨e, he, -, hresult⟩ := block_on_returns_own_result hstart hrun hpc hstop
  obtain rfl := Option.some.inj (hended.symm.trans he)
  exact ⟨s₀, s, hstart, hrun, hpc, hresult (some Except.error)⟩

end BlockOn
end RainRuntime
