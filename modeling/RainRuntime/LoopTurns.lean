import RainRuntime.ExecutorSteps

/-!
# Turns of the loop

`run()` takes the ready queue as it stands at the head of a turn and resumes its handles from
the front; what is queued meanwhile waits for the next turn. A loop that has been asked to stop
comes back to the head, and out of `run()`, within a number of steps that is known beforehand.
-/

namespace RainRuntime

def LoopOp.own : LoopOp → Bool
  | .next | .resume _ | .poll _ _ => true
  | _ => false

def LoopOp.polls : LoopOp → Bool
  | .poll _ _ => true
  | _ => false

/-- The steps from a place of `run()` to its end, once a stop has been requested. -/
def Pc.stepsLeft (batch : ℕ) : Pc → ℕ
  | .outside _ => 0
  | .leaving => 1
  | .head => 2
  | .drainCrossCore => 3
  | .drainTimer => 4
  | .advanceTimer => 5
  | .drainReactor => 6
  | .polling _ => 7
  | .beforePoll => 8
  | .exitRecheck => 9
  | .exitDrain => 10
  | .exitCheck => 11
  | .cleanup => 12
  | .resuming => 13 + batch

namespace EventLoop
variable {s t : EventLoop} {op : LoopOp} {ops : List LoopOp}

def stepsLeft (s : EventLoop) : ℕ := s.pc.stepsLeft s.batch

/-- What a step adds at the end of `ready_queue_`. -/
def enteredBy (s : EventLoop) : LoopOp → List Handle
  | .next =>
    match s.pc with
    | .drainReactor => s.world.entering .drainReactor
    | .drainTimer => s.world.entering .drainTimer
    | .exitDrain | .drainCrossCore => s.crossCoreQueue
    | _ => []
  | .spawn h => [h]
  | .world op => s.world.entering op
  | _ => []

/-- What a step takes from the front of `ready_queue_`, with what `done()` says of it. -/
def takenBy (s : EventLoop) : LoopOp → List (Handle × Bool)
  | .resume _ => (s.world.ready.take 1).map fun h => (h, s.world.heap.done h)
  | _ => []

/-- `run()` resumes the handles it takes, except those that are done. -/
def resumedBy (s : EventLoop) : LoopOp → List Handle
  | .resume _ => (s.world.ready.take 1).filter fun h => !s.world.heap.done h
  | _ => []

def entered (s : EventLoop) (ops : List LoopOp) : List Handle :=
  Transition.outputs EventLoop.step enteredBy s ops

def taken (s : EventLoop) (ops : List LoopOp) : List (Handle × Bool) :=
  Transition.outputs EventLoop.step takenBy s ops

def resumed (s : EventLoop) (ops : List LoopOp) : List Handle :=
  Transition.outputs EventLoop.step resumedBy s ops

/-- The queue keeps its order under every step; only a resumption takes from it, at the front. -/
theorem step_queue (h : EventLoop.step s op = some t) :
    s.world.ready ++ s.enteredBy op = (s.takenBy op).map Prod.fst ++ t.world.ready := by
  cases step_move h with
  | drainReactor hpc hw | advanceTimer hpc hw | drainTimer hpc hw =>
    rw [enteredBy, hpc]
    exact (World.step_ready hw (by simp)).symm
  | exitDrain hpc | drainCrossCore hpc =>
    rw [enteredBy, hpc, drainCrossCore_eq]
    exact (World.foldl_enqueue_ready _ _).symm
  | resume _ _ hw =>
    obtain ⟨k, rest, hready, rfl⟩ := World.step_resume.mp hw
    rw [takenBy, World.resume_ready, hready]
    exact List.append_nil _
  | pollFailed _ hw | polled _ hw => exact (World.step_ready hw (by simp)).symm
  | spawn => rfl
  | world hallows hw =>
    refine (World.step_ready hw ?_).symm
    rintro sys rfl
    cases hallows
  | goOn hpc =>
    rcases hpc with hpc | hpc <;> rw [enteredBy, hpc] <;> exact List.append_nil _
  | run | push | write | requestStop | ring | elapse => exact List.append_nil _
  | _ hpc =>
    rw [enteredBy, hpc]
    exact List.append_nil _

theorem resumedBy_eq (s : EventLoop) (op : LoopOp) :
    s.resumedBy op = (s.takenBy op).filterMap fun e => if e.2 then none else some e.1 := by
  cases op with
  | resume sys =>
    rw [resumedBy, takenBy, List.filterMap_map]
    induction s.world.ready.take 1 with
    | nil => rfl
    | cons h l ih => cases hd : s.world.heap.done h <;> simp [hd, ih]
  | _ => rfl

theorem resumed_eq (s : EventLoop) (ops : List LoopOp) :
    s.resumed ops = (s.taken ops).filterMap fun e => if e.2 then none else some e.1 := by
  rw [resumed, taken, ← Transition.outputs_filterMap]
  exact congrArg (Transition.outputs EventLoop.step · s ops) (funext₂ resumedBy_eq)

theorem outputs_taken (s : EventLoop) (ops : List LoopOp) :
    Transition.outputs EventLoop.step (fun u op => (u.takenBy op).map Prod.fst) s ops =
      (s.taken ops).map Prod.fst := by
  simp only [← List.filterMap_eq_map, taken]
  exact Transition.outputs_filterMap _ _ _ s ops

theorem resumedBy_running (h : EventLoop.step s op = some t) {k : Handle}
    (hk : k ∈ s.resumedBy op) : t.world.phase k = .running ownerLoop := by
  cases step_move h with
  | @resume _ sys _ _ _ hw =>
    obtain ⟨j, rest, hready, rfl⟩ := World.step_resume.mp hw
    obtain ⟨hmem, hdone⟩ := List.mem_filter.mp hk
    obtain rfl : k = j := by simpa [hready] using hmem
    have hactive : ({ s.world with ready := rest } : World).heap.done k = false := by
      rw [Bool.not_eq_true'] at hdone
      exact hdone
    exact World.resume_phase hactive ownerLoop sys
  | _ => cases hk

/-- `ready_queue_` is first in, first out: what a run takes and what it leaves queued is what
was queued at its start and then what entered, in this order. It resumes what it takes, and
that runs, except for the coroutines that are done. -/
theorem resumes_in_queue_order (h : Transition.run EventLoop.step s ops = some t) :
    s.world.ready ++ s.entered ops = (s.taken ops).map Prod.fst ++ t.world.ready ∧
    s.resumed ops = (s.taken ops).filterMap (fun e => if e.2 then none else some e.1) ∧
    ∀ op u, EventLoop.step t op = some u → ∀ k ∈ t.resumedBy op,
      u.world.phase k = .running ownerLoop := by
  refine ⟨?_, resumed_eq s ops, fun op u hu k hk => resumedBy_running hu hk⟩
  rw [← outputs_taken]
  exact Transition.outputs_fifo (fun u : EventLoop => u.world.ready) step_queue h

/-- Handle 9 is done before it is spawned. -/
def nineDone : Heap := { World.blankHeap with done := fun h => h == 9 }

def spawnAndSubmit : List LoopOp :=
  [.next, .resume (.ok 0), .spawn 8, .push 5, .write 5, .world (.park 7), .resume (.ok 0),
    .next, .next, .next, .next, .poll (.reported []) true, .next, .next, .next, .next]

theorem resumes_in_queue_order_of_spawns : ∃ s t : EventLoop,
    Reaches 0 nineDone World.blankKernel [.spawn 7, .spawn 9, .run] s ∧
    Transition.run EventLoop.step s spawnAndSubmit = some t ∧
    s.world.ready = [7, 9] ∧ s.entered spawnAndSubmit = [8, 5] ∧
    s.taken spawnAndSubmit = [(7, false), (9, true)] ∧ s.resumed spawnAndSubmit = [7] ∧
    t.world.ready = [8, 5] := by
  obtain ⟨s, t, hs, ht, hready, hentered, htaken⟩ : ∃ s t : EventLoop,
      Reaches 0 nineDone World.blankKernel [.spawn 7, .spawn 9, .run] s ∧
      Transition.run EventLoop.step s spawnAndSubmit = some t ∧ s.world.ready = [7, 9] ∧
      s.entered spawnAndSubmit = [8, 5] ∧ s.taken spawnAndSubmit = [(7, false), (9, true)] :=
    ⟨_, _, rfl, rfl, rfl, rfl, rfl⟩
  obtain ⟨hqueue, hresumed, -⟩ := resumes_in_queue_order ht
  rw [htaken] at hqueue hresumed
  rw [hready, hentered] at hqueue
  exact ⟨s, t, hs, ht, hready, hentered, htaken, hresumed, (List.append_cancel_left hqueue).symm⟩

theorem step_batch (hpc : s.pc = .resuming) (hop : op ≠ .next)
    (h : EventLoop.step s op = some t) :
    t.pc = .resuming ∧ (s.takenBy op).length + t.batch = s.batch := by
  cases step_move h with
  | resume _ hbatch hw =>
    obtain ⟨k, rest, hready, -, -⟩ := World.resume_grows hw
    refine ⟨hpc, ?_⟩
    rw [takenBy, hready, hbatch]
    simp [Nat.add_comm]
  | run hout | pollFailed hout | polled hout => exact absurd (hpc.symm.trans hout) (by simp)
  | spawn | world | push | write | requestStop | ring | elapse =>
    exact ⟨hpc, Nat.zero_add _⟩
  | _ => exact absurd rfl hop

theorem run_batch (hpc : s.pc = .resuming) (hops : ∀ op ∈ ops, op ≠ .next)
    (h : Transition.run EventLoop.step s ops = some t) :
    t.pc = .resuming ∧ (s.taken ops).length + t.batch = s.batch := by
  induction ops generalizing s with
  | nil =>
    rw [Transition.run_nil, Option.some.injEq] at h
    subst h
    exact ⟨hpc, Nat.zero_add _⟩
  | cons op ops ih =>
    obtain ⟨u, hu, hrest⟩ := Transition.run_cons_eq_some.mp h
    obtain ⟨hop, hops⟩ := List.forall_mem_cons.mp hops
    obtain ⟨hpcu, hfirst⟩ := step_batch hpc hop hu
    obtain ⟨hpct, hlater⟩ := ih hpcu hops hrest
    refine ⟨hpct, ?_⟩
    rw [taken, Transition.outputs_cons ops hu, List.length_append]
    rw [taken] at hlater
    omega

/-- A turn takes the handles that were queued when it began, each once and in their order,
whatever the coroutines and the other threads do meanwhile, and resumes those that are not
done; what is queued meanwhile is left to the next turn. -/
theorem turn_resumes_snapshot (hpc : s.pc = .head) (hstop : s.stopRequested = false)
    (hops : ∀ op ∈ ops, op ≠ .next)
    (h : Transition.run EventLoop.step s (.next :: (ops ++ [.next])) = some t) :
    t.pc = .cleanup ∧ (s.taken (.next :: (ops ++ [.next]))).map Prod.fst = s.world.ready ∧
    s.resumed (.next :: (ops ++ [.next])) = (s.taken (.next :: (ops ++ [.next]))).filterMap
      (fun e => if e.2 then none else some e.1) ∧
    t.world.ready = s.entered (.next :: (ops ++ [.next])) := by
  obtain ⟨u, hu, hrest⟩ := Transition.run_cons_eq_some.mp h
  obtain ⟨v, hv, hlast⟩ := Transition.run_concat_eq_some.mp hrest
  have hturn : u = { s with batch := s.world.ready.length, pc := .resuming } := by
    rw [EventLoop.step, EventLoop.next, hpc] at hu
    simpa [hstop] using hu.symm
  have hupc : u.pc = .resuming := by rw [hturn]
  obtain ⟨hvpc, hlen⟩ := run_batch hupc hops hv
  have hend : v.batch = 0 ∧ t = { v with pc := .cleanup } := by
    rw [EventLoop.step, EventLoop.next, hvpc] at hlast
    simpa [eq_comm] using hlast
  have hall : s.taken (.next :: (ops ++ [.next])) = u.taken ops := by
    rw [taken, Transition.outputs_cons _ hu, Transition.outputs_append _ hv,
      Transition.outputs_cons _ hlast]
    simp [takenBy, taken, Transition.outputs]
  have hbatch : u.batch = s.world.ready.length := by rw [hturn]
  rw [hend.1, Nat.add_zero, hbatch, ← hall, ← List.length_map Prod.fst] at hlen
  obtain ⟨hfifo, hresumed, -⟩ := resumes_in_queue_order h
  obtain ⟨hsnapshot, hleft⟩ := List.append_inj hfifo hlen.symm
  exact ⟨by rw [hend.2], hsnapshot.symm, hresumed, hleft.symm⟩

def spawnInTurn : List LoopOp :=
  [.resume (.ok 0), .spawn 8, .world (.park 7), .resume (.ok 0), .world (.park 9)]

theorem turn_resumes_snapshot_of_two : ∃ s t : EventLoop,
    Reaches 0 World.blankHeap World.blankKernel [.spawn 7, .spawn 9, .run] s ∧
    Transition.run EventLoop.step s (.next :: (spawnInTurn ++ [.next])) = some t ∧
    t.pc = .cleanup ∧ s.resumed (.next :: (spawnInTurn ++ [.next])) = s.world.ready ∧
    s.world.ready = [7, 9] ∧ t.world.ready = [8] := by
  obtain ⟨s, t, hs, ht, hpc, hstop, hready, htaken, hentered⟩ : ∃ s t : EventLoop,
      Reaches 0 World.blankHeap World.blankKernel [.spawn 7, .spawn 9, .run] s ∧
      Transition.run EventLoop.step s (.next :: (spawnInTurn ++ [.next])) = some t ∧
      s.pc = .head ∧ s.stopRequested = false ∧ s.world.ready = [7, 9] ∧
      s.taken (.next :: (spawnInTurn ++ [.next])) = [(7, false), (9, false)] ∧
      s.entered (.next :: (spawnInTurn ++ [.next])) = [8] :=
    ⟨_, _, rfl, rfl, rfl, rfl, rfl, rfl, rfl⟩
  obtain ⟨hend, -, hresumed, hleft⟩ := turn_resumes_snapshot hpc hstop (by simp [spawnInTurn]) ht
  rw [htaken] at hresumed
  exact ⟨s, t, hs, ht, hend, hresumed.trans hready.symm, hready, hleft.trans hentered⟩

structure TurnInv (s : EventLoop) : Prop where
  batch : s.pc = .resuming → s.batch ≤ s.world.ready.length
  timeout : ∀ τ, s.pc = .polling τ → 0 ≤ τ ∧ τ ≤ kDefaultPollTimeout

theorem pollTimeout_range (s : EventLoop) :
    0 ≤ s.pollTimeout ∧ s.pollTimeout ≤ kDefaultPollTimeout := by
  have hdefault : 0 ≤ kDefaultPollTimeout := by decide
  unfold pollTimeout
  cases s.world.timer.wheel.nextDeadline with
  | none => exact ⟨hdefault, le_refl _⟩
  | some next =>
    dsimp only
    split_ifs <;> omega

theorem TurnInv.of_pc (hb : t.pc ≠ .resuming) (hp : ∀ τ, t.pc ≠ .polling τ) : TurnInv t :=
  ⟨fun h => absurd h hb, fun τ h => absurd h (hp τ)⟩

theorem TurnInv.of_stays (hs : TurnInv s) (hpc : t.pc = s.pc) (hbatch : t.batch = s.batch)
    (hgrows : s.world.Grows t.world) : TurnInv t := by
  refine ⟨fun h => ?_, fun τ h => hs.timeout τ (hpc.symm.trans h)⟩
  rw [hbatch]
  exact (hs.batch (hpc.symm.trans h)).trans hgrows.length_le

theorem TurnInv.step (hs : TurnInv s) (h : EventLoop.step s op = some t) : TurnInv t := by
  have hgrows : s.takenBy op = [] → s.world.Grows t.world := by
    intro hnone
    have hqueue := step_queue h
    rw [hnone] at hqueue
    exact ⟨_, hqueue⟩
  cases step_move h with
  | snapshot => exact ⟨fun _ => le_refl _, by simp⟩
  | beforePoll =>
    refine ⟨by simp, fun τ hτ => ?_⟩
    cases hτ
    exact pollTimeout_range s
  | resume hpc hbatch hw =>
    obtain ⟨k, rest, hready, hrest, -⟩ := World.resume_grows hw
    refine ⟨fun _ => ?_, hs.timeout⟩
    have hlen := hs.batch hpc
    rw [hbatch, hready, List.length_cons, Nat.succ_le_succ_iff] at hlen
    exact hlen.trans hrest.length_le
  | spawn | world | push | write | requestStop | ring | elapse =>
    exact hs.of_stays rfl rfl (hgrows rfl)
  | _ => exact .of_pc (by simp) (by simp)

theorem Reaches.turnInv {now : ℤ} {m : Heap} {k : Kernel} (hr : Reaches now m k ops s) :
    TurnInv s :=
  Transition.invariant TurnInv (fun h hs => hs.step h)
    (.of_pc (by simp [create]) (by simp [create])) hr

/-- Once a stop is requested, each step of the loop's thread brings it nearer to the end of
`run()`, and no other step takes it away again. -/
theorem step_lowers (hstop : s.stopRequested = true) (hop : op ≠ .run)
    (h : EventLoop.step s op = some t) : op.own.toNat + t.stepsLeft ≤ s.stepsLeft := by
  cases step_move h with
  | run => exact absurd rfl hop
  | snapshot _ hgo => exact absurd (hgo.symm.trans hstop) (by decide)
  | goOn hpc => rcases hpc with hpc | hpc <;> simp [stepsLeft, Pc.stepsLeft, hpc, LoopOp.own]
  | batchDone hpc hbatch | resume hpc hbatch =>
    simp only [stepsLeft, Pc.stepsLeft, hpc, hbatch, LoopOp.own, Bool.toNat_true]
    omega
  | spawn | world | push | write | requestStop | ring | elapse => exact (Nat.zero_add _).le
  | _ hpc => simp [stepsLeft, Pc.stepsLeft, hpc, LoopOp.own]

def pollsLeft (s : EventLoop) : ℕ := (decide (7 ≤ s.stepsLeft)).toNat

theorem step_pollsLeft (hstop : s.stopRequested = true) (hop : op ≠ .run)
    (h : EventLoop.step s op = some t) : op.polls.toNat + t.pollsLeft ≤ s.pollsLeft := by
  have hlower := step_lowers hstop hop h
  cases op with
  | poll report wakeup =>
    obtain ⟨timeout, w, hpc, -⟩ := poll_eq_some h
    have hseven : s.stepsLeft = 7 := by rw [stepsLeft, hpc]; rfl
    have hless : ¬ 7 ≤ t.stepsLeft := by
      simp only [LoopOp.own, Bool.toNat_true] at hlower
      omega
    simp [pollsLeft, hseven, hless, LoopOp.polls]
  | _ =>
    simp only [LoopOp.polls, pollsLeft, Bool.toNat_false, Nat.zero_add]
    by_cases hmore : 7 ≤ t.stepsLeft
    · rw [decide_eq_true hmore, decide_eq_true (by omega)]
    · rw [decide_eq_false hmore]
      exact Nat.zero_le _

/-- The loop's thread is never stuck inside `run()`. -/
theorem own_step (hs : TurnInv s) (hin : ∀ r, s.pc ≠ .outside r) :
    ∃ op t, op.own = true ∧ EventLoop.step s op = some t := by
  cases hpc : s.pc with
  | outside r => exact absurd hpc (hin r)
  | polling τ =>
    refine ⟨.poll (.failed .intr) false, ?_⟩
    simp only [EventLoop.step, EventLoop.poll, hpc]
    exact ⟨_, rfl, rfl⟩
  | resuming =>
    cases hbatch : s.batch with
    | zero =>
      refine ⟨.next, ?_⟩
      simp only [EventLoop.step, EventLoop.next, hpc, hbatch]
      exact ⟨_, rfl, rfl⟩
    | succ n =>
      obtain ⟨h, rest, hready⟩ := List.exists_cons_of_ne_nil
        (List.ne_nil_of_length_pos (by have := hs.batch hpc; omega) : s.world.ready ≠ [])
      obtain ⟨w, hw⟩ : ∃ w, s.world.step (.resume (.ok 0)) = some w :=
        ⟨_, World.step_resume.mpr ⟨h, rest, hready, rfl⟩⟩
      refine ⟨.resume (.ok 0), ?_⟩
      simp only [EventLoop.step, hpc, hbatch, hw]
      exact ⟨_, rfl, rfl⟩
  | head | exitCheck | exitRecheck =>
    refine ⟨.next, ?_⟩
    simp only [EventLoop.step, EventLoop.next, hpc]
    split_ifs <;> exact ⟨_, rfl, rfl⟩
  | _ =>
    refine ⟨.next, ?_⟩
    simp only [EventLoop.step, EventLoop.next, hpc]
    exact ⟨_, rfl, rfl⟩

theorem TurnInv.stepsLeft_le (hs : TurnInv s) : s.stepsLeft ≤ 13 + s.world.ready.length := by
  unfold stepsLeft
  cases hpc : s.pc with
  | resuming => exact Nat.add_le_add_left (hs.batch hpc) 13
  | _ => simp only [Pc.stepsLeft]; omega

/-- A loop that has been asked to stop returns from `run()`, provided that the coroutines it
resumes suspend: whatever the other threads and the kernel do, its thread has a step to take until
it is out, and it takes thirteen at most besides the resumptions of the handles queued at the
moment. It polls once at most, for ten ticks at most. -/
theorem stopped_loop_returns {now : ℤ} {m : Heap} {k : Kernel} {before : List LoopOp}
    (hs : Reaches now m k before s) (hstop : s.stopRequested = true)
    (hops : ∀ op ∈ ops, op ≠ .run) (h : Transition.run EventLoop.step s ops = some t) :
    ops.countP LoopOp.own ≤ 13 + s.world.ready.length ∧ ops.countP LoopOp.polls ≤ 1 ∧
      (∀ τ, t.pc = .polling τ → 0 ≤ τ ∧ τ ≤ kDefaultPollTimeout) ∧
      ((∃ r, t.pc = .outside r) ∨ ∃ op u, op.own = true ∧ EventLoop.step t op = some u) := by
  have hstops : ∀ {u : EventLoop} {op : LoopOp} {v : EventLoop}, u.step op = some v →
      u.stopRequested = true → v.stopRequested = true := by
    intro u op v hv hu
    by_cases hop : op = .requestStop
    · subst hop
      cases hv
      rfl
    · rw [step_stopRequested hop hv, hu]
  have hsteps := Transition.countP_add_le (fun u : EventLoop => u.stopRequested = true)
    (fun op => op ≠ .run) LoopOp.own stepsLeft hstops
    (fun hv hu hop => step_lowers hu hop hv) hstop hops h
  have hpolls := Transition.countP_add_le (fun u : EventLoop => u.stopRequested = true)
    (fun op => op ≠ .run) LoopOp.polls pollsLeft hstops
    (fun hv hu hop => step_pollsLeft hu hop hv) hstop hops h
  have hlong := hs.turnInv.stepsLeft_le
  have honce : s.pollsLeft ≤ 1 := Bool.toNat_le _
  have ht : TurnInv t := Transition.invariant TurnInv (fun h hs => hs.step h) hs.turnInv h
  refine ⟨by omega, by omega, ht.timeout, ?_⟩
  by_cases hout : ∃ r, t.pc = .outside r
  · exact Or.inl hout
  · exact Or.inr (own_step ht fun r hr => hout ⟨r, hr⟩)

def stopInTurn : List LoopOp :=
  [.resume (.ok 0), .world (.park 9), .next, .next, .next, .next, .poll (.reported []) false, .next,
    .next, .next, .next, .next, .next]

theorem stopped_loop_returns_after_poll : ∃ s t,
    Reaches 0 World.blankHeap World.blankKernel
      [.spawn 7, .spawn 9, .run, .next, .resume (.ok 0), .requestStop, .world (.park 7)] s ∧
    Transition.run EventLoop.step s stopInTurn = some t ∧ t.pc = .outside (some (.ok ())) ∧
    stopInTurn.countP LoopOp.own ≤ 13 + s.world.ready.length ∧
    stopInTurn.countP LoopOp.polls = 1 := by
  obtain ⟨s, t, hs, ht, hpc, hstop⟩ : ∃ s t,
      Reaches 0 World.blankHeap World.blankKernel
        [.spawn 7, .spawn 9, .run, .next, .resume (.ok 0), .requestStop, .world (.park 7)] s ∧
      Transition.run EventLoop.step s stopInTurn = some t ∧ t.pc = .outside (some (.ok ())) ∧
      s.stopRequested = true := ⟨_, _, rfl, rfl, rfl, rfl⟩
  obtain ⟨hown, -⟩ := stopped_loop_returns hs hstop (by simp [stopInTurn]) ht
  exact ⟨s, t, hs, ht, hpc, hown, rfl⟩

end EventLoop
end RainRuntime
