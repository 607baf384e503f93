import RainRuntime.Doorbell
import RainRuntime.LoopSteps
import RainRuntime.WaitOutcome

/-!
# Tasks from other cores

The hand-off of submitted tasks to a loop. The cross-core queue and its eventfd are a queue
with a doorbell, whose consumer is `run()`: awake from the return of `poll` to the drain
at the end of the iteration. What is particular to `run()` is its exit: it drains once
more when it owns no task, looks again and leaves, and nothing holds the lock in between.
-/

namespace RainRuntime
namespace EventLoop

def awake : Pc → Bool
  | .drainReactor => true
  | .advanceTimer => true
  | .drainTimer => true
  | .drainCrossCore => true
  | _ => false

def bell (s : EventLoop) : Doorbell Handle where
  queue := s.crossCoreQueue
  halfway := s.halfway
  counter := s.wakeup.counter
  edge := s.wakeup.edge
  awake := awake s.pc
  pushed := s.pushed
  taken := s.enteredOwned

section Bell
variable {s t : EventLoop}

theorem bell_still (h : bell t = bell s) :
    ∃ ds, Transition.run (Doorbell.step EventFd.kMaxCounter) (bell s) ds = some (bell t) :=
  ⟨[], congrArg some h.symm⟩

theorem bell_op {d : DoorbellOp Handle}
    (h : (bell s).step EventFd.kMaxCounter d = some (bell t)) :
    ∃ ds, Transition.run (Doorbell.step EventFd.kMaxCounter) (bell s) ds = some (bell t) :=
  ⟨[d], Transition.run_cons_eq_some.mpr ⟨_, h, rfl⟩⟩

theorem bell_drain {pc : Pc} (hpc : awake pc = false) :
    (bell s).step EventFd.kMaxCounter .drain = some (bell { s.drainCrossCore with pc := pc }) := by
  simp only [Doorbell.step, drainCrossCore_eq, bell, EventFd.read, hpc]

theorem chime_write (f : EventFd) (d : Doorbell Handle) (hc : d.counter = f.counter)
    (he : d.edge = f.edge) : d.chime EventFd.kMaxCounter =
      { d with counter := f.write.2.counter, edge := f.write.2.edge } := by
  unfold Doorbell.chime EventFd.write
  rw [hc]
  split_ifs
  · rfl
  · cases d
    cases hc
    cases he
    rfl

/-- The hand-off of a loop runs like a queue with a doorbell. -/
theorem step_bell {op : LoopOp} (h : step s op = some t) :
    ∃ ds, Transition.run (Doorbell.step EventFd.kMaxCounter) (bell s) ds = some (bell t) := by
  cases step_move h with
  | exitDrain | drainCrossCore => exact bell_op (bell_drain rfl)
  | @polled _ _ _ seen => exact bell_op (d := .wake seen) rfl
  | @push h' => exact bell_op (d := .push h') rfl
  | @write h' hmem =>
    refine bell_op (d := .write h') ?_
    rw [Doorbell.step, if_pos (by simpa [bell] using hmem), chime_write s.wakeup _ rfl rfl]
    rfl
  | ring =>
    refine bell_op (d := .ring) ?_
    rw [Doorbell.step, chime_write s.wakeup _ rfl rfl]
    rfl
  | resume | spawn | world | requestStop | elapse => exact bell_still rfl
  | goOn hpc _ => rcases hpc with hpc | hpc <;> exact bell_still (by simp [bell, hpc, awake])
  | _ hpc => exact bell_still (by simp [bell, hpc, awake, cleanupCompleted])

theorem Reaches.bell_sound {now : ℤ} {m : Heap} {k : Kernel} {ops : List LoopOp}
    (h : Reaches now m k ops s) : (bell s).Sound := by
  obtain ⟨ds, hds⟩ := Transition.simulation bell (fun hstep => step_bell hstep) h
  exact Doorbell.sound_of_run (by decide) hds

end Bell

def places (s : EventLoop) (h : Handle) : ℕ :=
  s.crossCoreQueue.count h + s.ownedTasks.count h + s.completed.count h

structure Tracked (s : EventLoop) : Prop where
  places_le : ∀ h, s.places h ≤ 1
  places_pushed : ∀ h ∈ s.pushed, s.places h = 1
  nodup : s.pushed.Nodup
  ready : s.enteredReady = s.enteredOwned
  halfway : ∀ h ∈ s.halfway, h ∈ s.pushed
  accepted : ∀ h ∈ s.accepted, h ∈ s.pushed

section Tracked
variable {s t : EventLoop}

theorem Tracked.of_places (hs : Tracked s) (hplaces : ∀ h, t.places h = s.places h)
    (hp : t.pushed = s.pushed) (hr : t.enteredReady = t.enteredOwned)
    (hh : t.halfway = s.halfway) (ha : t.accepted = s.accepted) : Tracked t := by
  constructor
  case places_le => exact fun h => (hplaces h).symm ▸ hs.places_le h
  case places_pushed =>
    rw [hp]
    exact fun h hmem => (hplaces h).trans (hs.places_pushed h hmem)
  case nodup => exact hp ▸ hs.nodup
  case ready => exact hr
  case halfway => rw [hh, hp]; exact hs.halfway
  case accepted => rw [ha, hp]; exact hs.accepted

theorem places_cleanup (s : EventLoop) (h : Handle) : s.cleanupCompleted.places h = s.places h := by
  have hsplit := (List.filter_append_perm (fun h => s.world.heap.done h) s.ownedTasks).count_eq h
  rw [List.count_append] at hsplit
  simp only [places, cleanupCompleted, List.count_append]
  omega

theorem places_drain (s : EventLoop) (h : Handle) : s.drainCrossCore.places h = s.places h := by
  rw [drainCrossCore_eq]
  simp only [places, List.count_append, List.count_nil]
  omega

theorem places_of_isFresh {h : Handle} (hf : s.isFresh h = true) : s.places h = 0 := by
  simp only [isFresh, Bool.and_eq_true, Bool.not_eq_true', List.contains_eq_mem,
    decide_eq_false_iff_not] at hf
  obtain ⟨⟨⟨-, hq⟩, ho⟩, hc⟩ := hf
  simp only [places, List.count_eq_zero.mpr hq, List.count_eq_zero.mpr ho,
    List.count_eq_zero.mpr hc]

theorem Tracked.spawn (hs : Tracked s) {h : Handle} (hf : s.isFresh h = true) :
    Tracked { s with world := s.world.enqueue h, ownedTasks := s.ownedTasks ++ [h] } := by
  have hz := places_of_isFresh hf
  have hplaces : ∀ k, places { s with
      world := s.world.enqueue h
      ownedTasks := s.ownedTasks ++ [h] } k = s.places k + [h].count k := by
    intro k
    simp only [places, List.count_append]
    omega
  refine ⟨fun k => ?_, fun k hk => ?_, hs.nodup, hs.ready, hs.halfway, hs.accepted⟩
  · rw [hplaces]
    by_cases hkh : k = h
    · subst hkh
      simp [hz]
    · simp [Ne.symm hkh, hs.places_le k]
  · have hone := hs.places_pushed k hk
    have hkh : k ≠ h := by
      rintro rfl
      omega
    rw [hplaces, hone, List.count_eq_zero.mpr (by simp [hkh])]

theorem Tracked.push (hs : Tracked s) {h : Handle} (hf : s.isFresh h = true) :
    Tracked { s with
      crossCoreQueue := s.crossCoreQueue ++ [h]
      halfway := s.halfway ++ [h]
      pushed := s.pushed ++ [h] } := by
  have hz := places_of_isFresh hf
  have hnew : h ∉ s.pushed := by
    intro hmem
    have hone := hs.places_pushed h hmem
    omega
  have hplaces : ∀ k, places { s with
      crossCoreQueue := s.crossCoreQueue ++ [h]
      halfway := s.halfway ++ [h]
      pushed := s.pushed ++ [h] } k = s.places k + [h].count k := by
    intro k
    simp only [places, List.count_append]
    omega
  constructor
  case places_le =>
    intro k
    rw [hplaces]
    by_cases hkh : k = h
    · subst hkh
      simp [hz]
    · simp [Ne.symm hkh, hs.places_le k]
  case places_pushed =>
    intro k hk
    rw [hplaces]
    rcases List.mem_append.mp hk with hk | hk
    · have hkh : k ≠ h := fun heq => hnew (heq ▸ hk)
      rw [hs.places_pushed k hk, List.count_eq_zero.mpr (by simp [hkh])]
    · rw [List.mem_singleton.mp hk, hz]
      simp
  case nodup =>
    exact List.Nodup.append hs.nodup (List.nodup_singleton h) (by simpa using hnew)
  case ready => exact hs.ready
  case halfway =>
    intro k hk
    rcases List.mem_append.mp hk with hk | hk
    · exact List.mem_append_left _ (hs.halfway k hk)
    · exact List.mem_append_right _ hk
  case accepted => exact fun k hk => List.mem_append_left _ (hs.accepted k hk)

theorem Tracked.write (hs : Tracked s) {h : Handle} (hmem : h ∈ s.halfway) :
    Tracked { s with
      wakeup := s.wakeup.write.2
      halfway := s.halfway.erase h
      accepted := if s.wakeup.write.1 then s.accepted ++ [h] else s.accepted } := by
  refine ⟨hs.places_le, hs.places_pushed, hs.nodup, hs.ready,
    fun k hk => hs.halfway k (List.mem_of_mem_erase hk), fun k hk => ?_⟩
  dsimp only at hk
  split_ifs at hk
  · rcases List.mem_append.mp hk with hk | hk
    · exact hs.accepted k hk
    · exact List.mem_singleton.mp hk ▸ hs.halfway h hmem
  · exact hs.accepted k hk

theorem Tracked.cleanup (hs : Tracked s) {pc : Pc} :
    Tracked { s.cleanupCompleted with pc := pc } :=
  hs.of_places (places_cleanup s) rfl hs.ready rfl rfl

theorem Tracked.drain (hs : Tracked s) {pc : Pc} : Tracked { s.drainCrossCore with pc := pc } := by
  refine hs.of_places (places_drain s) ?_ ?_ ?_ ?_ <;> rw [drainCrossCore_eq]
  exact congrArg (· ++ s.crossCoreQueue) hs.ready

theorem Tracked.keeps (hs : Tracked s) (h : Keeps s t) : Tracked t := by
  refine hs.of_places (fun k => ?_) h.pushed ?_ h.halfway h.accepted
  · rw [places, places, h.queue, h.owned, h.completed]
  · rw [h.ready, h.taken, hs.ready]

theorem Tracked.step (hs : Tracked s) {op : LoopOp} (h : EventLoop.step s op = some t) :
    Tracked t := by
  cases step_effect h with
  | quiet _ hk => exact hs.keeps hk
  | world _ _ _ hk => exact hs.keeps hk
  | cleanup pc heq => exact heq ▸ hs.cleanup
  | drain pc heq => exact heq ▸ hs.drain
  | spawn h' hf heq => exact heq ▸ hs.spawn hf
  | push h' hf heq => exact heq ▸ hs.push hf
  | write h' hmem heq => exact heq ▸ hs.write hmem

theorem create_tracked {now : ℤ} {m : Heap} {k : Kernel} : Tracked (create now m k) := by
  constructor <;> simp [create, places]

theorem Reaches.tracked {now : ℤ} {m : Heap} {k : Kernel} {ops : List LoopOp}
    (h : Reaches now m k ops s) : Tracked s :=
  Transition.invariant Tracked (fun hstep hs => hs.step hstep) create_tracked h

end Tracked

def atPoll : Pc → Bool
  | .beforePoll => true
  | .polling _ => true
  | _ => false

/-- What a step does with the tasks in `cross_core_queue_`: it leaves them there, with what it
pushes behind them, or it moves them all to the ends of `owned_tasks_` and `ready_queue_`. -/
inductive HandOff (s t : EventLoop) : Prop where
  | stay (later : List Handle) (queue : t.crossCoreQueue = s.crossCoreQueue ++ later)
      (pushed : t.pushed = s.pushed ++ later) (owned : t.enteredOwned = s.enteredOwned)
      (ready : t.enteredReady = s.enteredReady)
  | drain (queue : t.crossCoreQueue = []) (pushed : t.pushed = s.pushed)
      (owned : t.ownedTasks = s.ownedTasks ++ s.crossCoreQueue)
      (ready : t.world.ready = s.world.ready ++ s.crossCoreQueue)
      (enteredOwned : t.enteredOwned = s.enteredOwned ++ s.crossCoreQueue)
      (enteredReady : t.enteredReady = s.enteredReady ++ s.crossCoreQueue)

theorem HandOff.of_eq {s t : EventLoop} (hq : t.crossCoreQueue = s.crossCoreQueue)
    (hp : t.pushed = s.pushed) (ho : t.enteredOwned = s.enteredOwned)
    (hr : t.enteredReady = s.enteredReady) : HandOff s t :=
  .stay [] (hq.trans (List.append_nil _).symm) (hp.trans (List.append_nil _).symm) ho hr

theorem handOff_drain (s : EventLoop) (pc : Pc) :
    HandOff s { s.drainCrossCore with pc := pc } := by
  rw [drainCrossCore_eq]
  exact .drain rfl rfl rfl (World.foldl_enqueue_ready _ _) rfl rfl

theorem step_handOff {s t : EventLoop} {op : LoopOp} (h : EventLoop.step s op = some t) :
    HandOff s t := by
  cases step_effect h with
  | quiet _ hk => exact .of_eq hk.queue hk.pushed hk.taken hk.ready
  | world _ _ _ hk => exact .of_eq hk.queue hk.pushed hk.taken hk.ready
  | cleanup pc heq => exact heq ▸ .of_eq rfl rfl rfl rfl
  | drain pc heq => exact heq ▸ handOff_drain s pc
  | spawn h' _ heq => exact heq ▸ .of_eq rfl rfl rfl rfl
  | push h' _ heq => exact heq ▸ .stay [h'] rfl rfl rfl rfl
  | write h' _ heq => exact heq ▸ .of_eq rfl rfl rfl rfl

/-- Whatever the interleaving, a submitted task is in one place, tasks are taken over once
each and in the order of their pushes, and the loop does not sleep on a queued one. -/
theorem handoff_exactly_once {now : ℤ} {m : Heap} {k : Kernel} {ops : List LoopOp}
    {s : EventLoop} (h : Reaches now m k ops s) :
    (∀ h ∈ s.pushed,
      s.crossCoreQueue.count h + s.ownedTasks.count h + s.completed.count h = 1) ∧
    s.pushed.Nodup ∧ s.pushed = s.enteredOwned ++ s.crossCoreQueue ∧
    s.enteredReady = s.enteredOwned ∧
    (∀ op t, EventLoop.step s op = some t → HandOff s t) ∧
    (atPoll s.pc = true → s.crossCoreQueue ≠ [] → s.halfway = [] →
      0 < s.wakeup.counter ∧ s.wakeup.edge = true ∧ s.wakeup.signalled = true) := by
  have htracked := h.tracked
  have hsound := h.bell_sound
  refine ⟨htracked.places_pushed, htracked.nodup, hsound.order, htracked.ready,
    fun op t hstep => step_handOff hstep, ?_⟩
  intro hpoll hqueued hwritten
  have hcounter : 0 < s.wakeup.counter := hsound.rung hqueued hwritten
  have hasleep : awake s.pc = false := by
    cases hpc : s.pc <;> simp [hpc, atPoll, awake] at hpoll ⊢
  have hedge : s.wakeup.edge = true := hsound.unseen hasleep hcounter
  refine ⟨hcounter, hedge, ?_⟩
  rw [EventFd.signalled, hedge, decide_eq_true hcounter]
  rfl

def twoSubmits : List LoopOp :=
  [.spawn 0, .run, .next, .resume (.ok 0), .spawn 5, .world (.park 0), .next, .next, .next,
    .push 7, .push 8, .write 8, .write 7, .next]

def untilDrain : List LoopOp :=
  [.poll (.reported []) true, .next, .next, .next]

theorem handoff_exactly_once_on_two_submits : ∃ s u t : EventLoop,
    Reaches 0 World.blankHeap World.blankKernel twoSubmits s ∧ s.crossCoreQueue = [7, 8] ∧
    s.ownedTasks = [0, 5] ∧ s.wakeup.signalled = true ∧
    Reaches 0 World.blankHeap World.blankKernel (twoSubmits ++ untilDrain) u ∧
    EventLoop.step u .next = some t ∧ u.world.ready = [5] ∧
    t.ownedTasks = [0, 5, 7, 8] ∧ t.world.ready = [5, 7, 8] ∧ t.enteredOwned = [7, 8] := by
  obtain ⟨s, hr, hpoll, hq, ho, hw⟩ : ∃ s,
      Reaches 0 World.blankHeap World.blankKernel twoSubmits s ∧ atPoll s.pc = true ∧
      s.crossCoreQueue = [7, 8] ∧ s.ownedTasks = [0, 5] ∧ s.halfway = [] :=
    ⟨_, rfl, rfl, rfl, rfl, rfl⟩
  obtain ⟨u, t, hu, hstep, huq, huo, hur, hue, htq⟩ : ∃ u t : EventLoop,
      Reaches 0 World.blankHeap World.blankKernel (twoSubmits ++ untilDrain) u ∧
      EventLoop.step u .next = some t ∧ u.crossCoreQueue = [7, 8] ∧ u.ownedTasks = [0, 5] ∧
      u.world.ready = [5] ∧ u.enteredOwned = [] ∧ t.crossCoreQueue = [] :=
    ⟨_, _, rfl, rfl, rfl, rfl, rfl, rfl, rfl⟩
  have hawake := (handoff_exactly_once hr).2.2.2.2.2 hpoll (by simp [hq]) hw
  refine ⟨s, u, t, hr, hq, ho, hawake.2.2, hu, hstep, hur, ?_⟩
  cases (handoff_exactly_once hu).2.2.2.2.1 .next t hstep with
  | stay later hqueue => simp [huq, htq] at hqueue
  | drain _ _ howned hready hentered _ =>
    rw [howned, hready, hentered, huq, huo, hur, hue]
    exact ⟨rfl, rfl, rfl⟩

end EventLoop
end RainRuntime
