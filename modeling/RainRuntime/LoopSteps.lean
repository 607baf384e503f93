import RainRuntime.EventLoop

/-!
# What one step of the loop does

Most steps of a loop leave its tasks where they are; the others move tasks on in one of
five ways. `Effect` lists the cases once, and the invariants of the loop follow from it.
-/

namespace RainRuntime

theorem World.foldl_enqueue_ready (l : List Handle) (w : World) :
    (l.foldl enqueue w).ready = w.ready ++ l := by
  induction l generalizing w with
  | nil => simp
  | cons h l ih =>
    rw [List.foldl_cons, ih]
    simp [enqueue]

namespace EventLoop

theorem withWorld_eq_some {s t : EventLoop} {op : WorldOp} {pc : Pc} :
    s.withWorld op pc = some t ↔
      ∃ w, s.world.step op = some w ∧ { s with world := w, pc := pc } = t := by
  simp only [withWorld, Option.map_eq_some_iff]

theorem foldl_takeOver (l : List Handle) (s : EventLoop) :
    l.foldl takeOver s = { s with
      world := l.foldl World.enqueue s.world
      ownedTasks := s.ownedTasks ++ l
      enteredReady := s.enteredReady ++ l
      enteredOwned := s.enteredOwned ++ l } := by
  induction l generalizing s with
  | nil => simp
  | cons h l ih =>
    rw [List.foldl_cons, ih]
    simp [takeOver]

theorem drainCrossCore_eq (s : EventLoop) : s.drainCrossCore = { s with
    world := s.crossCoreQueue.foldl World.enqueue s.world
    ownedTasks := s.ownedTasks ++ s.crossCoreQueue
    crossCoreQueue := []
    wakeup := s.wakeup.read
    enteredReady := s.enteredReady ++ s.crossCoreQueue
    enteredOwned := s.enteredOwned ++ s.crossCoreQueue } := by
  rw [drainCrossCore, foldl_takeOver]

theorem poll_eq_some {s t : EventLoop} {report : PollReport} {wakeup : Bool}
    (h : s.poll report wakeup = some t) : ∃ timeout w, s.pc = .polling timeout ∧
      s.world.step (.poll report) = some w ∧
      ((∃ e, t = { s with world := w, pc := .outside (some (.error e)) }) ∨
        ∃ seen, (seen = true → s.wakeup.signalled = true) ∧ t = { s with
          world := w
          pc := .drainReactor
          wakeup := { s.wakeup with edge := s.wakeup.edge && !seen } }) := by
  unfold poll at h
  split at h
  case h_2 => cases h
  case h_1 timeout hpc =>
    split at h
    case h_1 e _ =>
      obtain ⟨w, hw, rfl⟩ := withWorld_eq_some.mp h
      exact ⟨timeout, w, hpc, hw, Or.inl ⟨e, rfl⟩⟩
    case h_2 =>
      obtain ⟨w, hw, rfl⟩ := withWorld_eq_some.mp h
      exact ⟨timeout, w, hpc, hw, Or.inr ⟨false, by simp, by simp⟩⟩
    case h_3 =>
      split_ifs at h with hseen
      obtain ⟨w, hw, rfl⟩ := withWorld_eq_some.mp h
      refine ⟨timeout, w, hpc, hw, Or.inr ⟨wakeup, fun hwake => ?_, rfl⟩⟩
      simpa [hwake] using hseen

structure Keeps (s t : EventLoop) : Prop where
  queue : t.crossCoreQueue = s.crossCoreQueue
  owned : t.ownedTasks = s.ownedTasks
  completed : t.completed = s.completed
  pushed : t.pushed = s.pushed
  ready : t.enteredReady = s.enteredReady
  taken : t.enteredOwned = s.enteredOwned
  halfway : t.halfway = s.halfway
  accepted : t.accepted = s.accepted
  clock : s.clock ≤ t.clock

/-- The steps of the world that happen in a loop: only `run()` advances the wheel, to what
the clock reads, and a task that waits in the cross-core queue is not woken. -/
def drives (s : EventLoop) : WorldOp → Prop
  | .tick => False
  | .advanceTo target => target = s.clock
  | .wake h => h ∉ s.crossCoreQueue
  | _ => True

inductive Effect (s t : EventLoop) : Prop where
  | quiet (world : t.world = s.world) (keeps : Keeps s t)
  | world (op : WorldOp) (drives : s.drives op) (step : s.world.step op = some t.world)
      (keeps : Keeps s t)
  | cleanup (pc : Pc) (eq : t = { s.cleanupCompleted with pc := pc })
  | drain (pc : Pc) (eq : t = { s.drainCrossCore with pc := pc })
  | spawn (h : Handle) (fresh : s.isFresh h = true)
      (eq : t = { s with world := s.world.enqueue h, ownedTasks := s.ownedTasks ++ [h] })
  | push (h : Handle) (fresh : s.isFresh h = true) (eq : t = { s with
      crossCoreQueue := s.crossCoreQueue ++ [h]
      halfway := s.halfway ++ [h]
      pushed := s.pushed ++ [h] })
  | write (h : Handle) (mem : h ∈ s.halfway) (eq : t = { s with
      wakeup := s.wakeup.write.2
      halfway := s.halfway.erase h
      accepted := if s.wakeup.write.1 then s.accepted ++ [h] else s.accepted })

/-- The steps of a loop, each with the place in `run()` at which it is taken. -/
inductive Move (s : EventLoop) : LoopOp → EventLoop → Prop where
  | run {r : Option (Result Unit)} (pc : s.pc = .outside r) : Move s .run { s with pc := .head }
  | stop (pc : s.pc = .head) (stop : s.stopRequested = true) :
      Move s .next { s with pc := .leaving }
  | snapshot (pc : s.pc = .head) (go : s.stopRequested = false) :
      Move s .next { s with batch := s.world.ready.length, pc := .resuming }
  | batchDone (pc : s.pc = .resuming) (batch : s.batch = 0) :
      Move s .next { s with pc := .cleanup }
  | cleanup (pc : s.pc = .cleanup) : Move s .next { s.cleanupCompleted with pc := .exitCheck }
  | exitCheck (pc : s.pc = .exitCheck) (owned : s.ownedTasks = []) :
      Move s .next { s with pc := .exitDrain }
  | exitDrain (pc : s.pc = .exitDrain) :
      Move s .next { s.drainCrossCore with pc := .exitRecheck }
  | exitRecheck (pc : s.pc = .exitRecheck) (owned : s.ownedTasks = []) :
      Move s .next { s with pc := .leaving }
  | goOn (pc : s.pc = .exitCheck ∨ s.pc = .exitRecheck) (owned : s.ownedTasks ≠ []) :
      Move s .next { s with pc := .beforePoll }
  | leave (pc : s.pc = .leaving) : Move s .next { s with pc := .outside (some (.ok ())) }
  | beforePoll (pc : s.pc = .beforePoll) : Move s .next { s with pc := .polling s.pollTimeout }
  | drainReactor {w : World} (pc : s.pc = .drainReactor)
      (step : s.world.step .drainReactor = some w) :
      Move s .next { s with world := w, pc := .advanceTimer }
  | advanceTimer {w : World} (pc : s.pc = .advanceTimer)
      (step : s.world.step (.advanceTo s.clock) = some w) :
      Move s .next { s with world := w, pc := .drainTimer }
  | drainTimer {w : World} (pc : s.pc = .drainTimer) (step : s.world.step .drainTimer = some w) :
      Move s .next { s with world := w, pc := .drainCrossCore }
  | drainCrossCore (pc : s.pc = .drainCrossCore) :
      Move s .next { s.drainCrossCore with pc := .head }
  | resume {n : ℕ} {sys : Except Errno ℕ} {w : World} (pc : s.pc = .resuming)
      (batch : s.batch = n + 1) (step : s.world.step (.resume sys) = some w) :
      Move s (.resume sys) { s with world := w, batch := n }
  | pollFailed {timeout : ℤ} {report : PollReport} {wakeup : Bool} {w : World} {e : SystemError}
      (pc : s.pc = .polling timeout) (step : s.world.step (.poll report) = some w) :
      Move s (.poll report wakeup) { s with world := w, pc := .outside (some (.error e)) }
  | polled {timeout : ℤ} {report : PollReport} {wakeup seen : Bool} {w : World}
      (pc : s.pc = .polling timeout) (step : s.world.step (.poll report) = some w)
      (rung : seen = true → s.wakeup.signalled = true) :
      Move s (.poll report wakeup) { s with
        world := w
        pc := .drainReactor
        wakeup := { s.wakeup with edge := s.wakeup.edge && !seen } }
  | spawn {h : Handle} (pc : (∃ r, s.pc = .outside r) ∨ s.pc = .resuming)
      (fresh : s.isFresh h = true) : Move s (.spawn h)
        { s with world := s.world.enqueue h, ownedTasks := s.ownedTasks ++ [h] }
  | world {op : WorldOp} {w : World} (allows : s.allows op = true)
      (step : s.world.step op = some w) : Move s (.world op) { s with world := w }
  | push {h : Handle} (fresh : s.isFresh h = true) : Move s (.push h) { s with
      crossCoreQueue := s.crossCoreQueue ++ [h]
      halfway := s.halfway ++ [h]
      pushed := s.pushed ++ [h] }
  | write {h : Handle} (mem : h ∈ s.halfway) : Move s (.write h) { s with
      wakeup := s.wakeup.write.2
      halfway := s.halfway.erase h
      accepted := if s.wakeup.write.1 then s.accepted ++ [h] else s.accepted }
  | requestStop : Move s .requestStop { s with stopRequested := true }
  | ring : Move s .ring { s with wakeup := s.wakeup.write.2 }
  | elapse {ns : ℕ} : Move s (.elapse ns) { s with clock := s.clock + ns }

section Effect
variable {s t : EventLoop} {op : LoopOp}

theorem next_move (h : s.next = some t) : Move s .next t := by
  unfold next at h
  cases hpc : s.pc with
  | head =>
    simp only [hpc] at h
    split_ifs at h with hstop <;> cases h
    · exact .stop hpc hstop
    · exact .snapshot hpc (Bool.not_eq_true _ ▸ hstop)
  | resuming =>
    simp only [hpc] at h
    split_ifs at h with hbatch
    cases h
    exact .batchDone hpc hbatch
  | exitCheck | exitRecheck =>
    simp only [hpc, Option.some.injEq] at h
    subst h
    split_ifs with howned
    · first | exact .exitCheck hpc howned | exact .exitRecheck hpc howned
    · exact .goOn (by simp [hpc]) howned
  | drainReactor | advanceTimer | drainTimer =>
    simp only [hpc] at h
    obtain ⟨w, hw, rfl⟩ := withWorld_eq_some.mp h
    first | exact .drainReactor hpc hw | exact .advanceTimer hpc hw | exact .drainTimer hpc hw
  | outside r => simp [hpc] at h
  | polling timeout => simp [hpc] at h
  | _ =>
    simp only [hpc, Option.some.injEq] at h
    subst h
    constructor
    exact hpc

theorem step_move (h : step s op = some t) : Move s op t := by
  cases op with
  | next => exact next_move h
  | poll report wakeup =>
    obtain ⟨timeout, w, hpc, hw, ⟨e, rfl⟩ | ⟨seen, hseen, rfl⟩⟩ := poll_eq_some h
    · exact .pollFailed hpc hw
    · exact .polled hpc hw hseen
  | run =>
    simp only [step] at h
    split at h <;> cases h
    exact .run ‹_›
  | resume sys =>
    simp only [step] at h
    split at h
    · obtain ⟨w, hw, rfl⟩ := Option.map_eq_some_iff.mp h
      exact .resume ‹_› ‹_› hw
    · cases h
  | spawn h' =>
    simp only [step] at h
    split at h
    case h_3 => cases h
    all_goals
      split_ifs at h with hfresh
      cases h
      exact .spawn (by simp [*]) hfresh
  | world op =>
    simp only [step] at h
    split_ifs at h with hop
    obtain ⟨w, hw, rfl⟩ := withWorld_eq_some.mp h
    exact .world hop hw
  | push h' =>
    simp only [step] at h
    split_ifs at h with hfresh
    cases h
    exact .push hfresh
  | write h' =>
    rw [step, Option.ite_none_right_eq_some] at h
    obtain ⟨hmem, heq⟩ := h
    obtain rfl := Option.some.inj heq
    exact .write (by simpa using hmem)
  | requestStop | ring | elapse ns =>
    rw [step, Option.some.injEq] at h
    subst h
    constructor

theorem keeps_of_eq {w : World} {b : ℕ} {pc : Pc} {f : EventFd} {stop : Bool} {c : ℤ}
    (hc : s.clock ≤ c) : Keeps s { s with
      world := w, batch := b, pc := pc, wakeup := f, stopRequested := stop, clock := c } :=
  ⟨rfl, rfl, rfl, rfl, rfl, rfl, rfl, rfl, hc⟩

theorem drives_of_allows {op : WorldOp} (h : s.allows op = true) : s.drives op := by
  cases op <;> simp [allows, drives] at h ⊢
  exact h.2

theorem step_effect (h : step s op = some t) : Effect s t := by
  cases step_move h with
  | cleanup => exact .cleanup _ rfl
  | exitDrain | drainCrossCore => exact .drain _ rfl
  | drainReactor _ hw | drainTimer _ hw | resume _ _ hw | pollFailed _ hw | polled _ hw =>
    refine .world _ ?_ hw (keeps_of_eq (Int.le_refl _))
    trivial
  | advanceTimer _ hw =>
    refine .world _ ?_ hw (keeps_of_eq (Int.le_refl _))
    rfl
  | spawn _ hfresh => exact .spawn _ hfresh rfl
  | world hop hw => exact .world _ (drives_of_allows hop) hw (keeps_of_eq (Int.le_refl _))
  | push hfresh => exact .push _ hfresh rfl
  | write hmem => exact .write _ hmem rfl
  | elapse => exact .quiet rfl (keeps_of_eq (by omega))
  | _ => exact .quiet rfl (keeps_of_eq (Int.le_refl _))

end Effect
end EventLoop
end RainRuntime
