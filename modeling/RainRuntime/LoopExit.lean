import RainRuntime.LoopWorld

/-!
# Leaving `run()`

A loop that owns no task drains the cross-core queue once more, looks again and returns.
A task that is pushed before this drain is taken over and keeps the loop going. One that is
pushed after it stays in the queue of a loop that no longer runs, although its `submit`
returns `Ok`: nothing looks at the queue between the drain and the return.
-/

namespace RainRuntime
namespace EventLoop

/-- The last drain is over, it brought no task, and `run()` is about to return. -/
def exiting (s : EventLoop) : Bool :=
  match s.pc with
  | .exitRecheck => s.ownedTasks.isEmpty
  | .leaving => true
  | _ => false

/-- No task is pushed while the loop is `exiting`. -/
def PushesInTime (s : EventLoop) : LoopOp → Prop
  | .push _ => s.exiting = false
  | _ => True

def RunsDry (s : EventLoop) : Prop :=
  s.exiting = true → s.stopRequested = false → s.ownedTasks = [] ∧ s.crossCoreQueue = []

section RunsDry
variable {s t : EventLoop}

theorem RunsDry.of_not_exiting (h : t.exiting = false) : RunsDry t := by
  intro hex
  rw [h] at hex
  cases hex

theorem RunsDry.keeps (hs : RunsDry s) (hpc : t.pc = s.pc)
    (hstop : t.stopRequested = false → s.stopRequested = false) (hk : Keeps s t) : RunsDry t := by
  intro hex hnot
  have hex' : s.exiting = true := by
    rw [← hex, exiting, exiting, hpc, hk.owned]
  rw [hk.owned, hk.queue]
  exact hs hex' (hstop hnot)

theorem RunsDry.step (hs : RunsDry s) {op : LoopOp} (hop : s.PushesInTime op)
    (h : EventLoop.step s op = some t) : RunsDry t := by
  cases step_move h with
  -- the loop leaves because it was told to
  | stop _ hstop => exact fun _ hnot => absurd (hstop.symm.trans hnot) (by decide)
  | exitDrain =>
    intro hex _
    rw [drainCrossCore_eq] at hex ⊢
    exact ⟨List.isEmpty_iff.mp hex, rfl⟩
  | exitRecheck hpc howned => exact fun _ => hs (by rw [exiting, hpc, howned]; rfl)
  | spawn hpc =>
    apply RunsDry.of_not_exiting
    rcases hpc with ⟨r, hpc⟩ | hpc <;> rw [exiting, hpc]
  | resume | world => exact hs.keeps rfl id (keeps_of_eq (Int.le_refl _))
  | push => exact RunsDry.of_not_exiting hop
  | requestStop => exact fun _ hnot => nomatch hnot
  | write | ring | elapse => exact hs
  | _ => exact RunsDry.of_not_exiting rfl

end RunsDry

/-- When no task is pushed between the last drain and the return, `run()` returns, unless
it was stopped, with every accepted task taken over, run to its end and reaped. -/
theorem run_returns_dry {now : ℤ} {m : Heap} {k : Kernel} {ops : List LoopOp}
    {s t : EventLoop} (h : Reaches now m k ops s)
    (hops : Transition.Guarded step PushesInTime (create now m k) ops) (hpc : s.pc = .leaving)
    (hstop : s.stopRequested = false) (hstep : step s .next = some t) :
    t.pc = .outside (some (.ok ())) ∧ t.crossCoreQueue = [] ∧
    ∀ h ∈ t.accepted, h ∈ t.enteredReady ∧ h ∈ t.completed ∧ t.world.heap.done h = true := by
  have hdry : RunsDry s :=
    Transition.invariant_of_guarded PushesInTime RunsDry (fun hop hstep hs => hs.step hop hstep)
      (RunsDry.of_not_exiting rfl) hops h
  obtain ⟨howned, hqueue⟩ := hdry (by rw [exiting, hpc]) hstop
  simp only [step, next, hpc, Option.some.injEq] at hstep
  subst hstep
  refine ⟨rfl, hqueue, fun h' hmem => ?_⟩
  have htracked := h.tracked
  have hpushed : h' ∈ s.pushed := htracked.accepted h' hmem
  have horder : s.pushed = s.enteredOwned ++ s.crossCoreQueue := h.bell_sound.order
  have hcompleted : h' ∈ s.completed := by
    have hone := htracked.places_pushed h' hpushed
    rw [places, hqueue, howned] at hone
    exact List.count_pos_iff.mp (by simp at hone; omega)
  refine ⟨?_, hcompleted, h.driven.done h' hcompleted⟩
  rw [horder, hqueue, List.append_nil, ← htracked.ready] at hpushed
  exact hpushed

def submitThenRun : List LoopOp :=
  [.push 7, .write 7, .run, .next, .next, .next, .next, .next, .next, .next,
    .poll (.reported []) false, .next, .next, .next, .next, .next, .resume (.ok 0),
    .world (.finish 7), .next, .next, .next, .next, .next]

theorem run_returns_dry_after_submit : ∃ s t,
    Reaches 0 World.blankHeap World.blankKernel submitThenRun s ∧ step s .next = some t ∧
    t.accepted = [7] ∧ t.crossCoreQueue = [] ∧ t.world.heap.done 7 = true := by
  obtain ⟨s, t, hr, hpc, hstop, hstep, hacc⟩ : ∃ s t,
      Reaches 0 World.blankHeap World.blankKernel submitThenRun s ∧ s.pc = .leaving ∧
      s.stopRequested = false ∧ step s .next = some t ∧ t.accepted = [7] :=
    ⟨_, _, rfl, rfl, rfl, rfl, rfl⟩
  have hops : Transition.Guarded step PushesInTime (create 0 World.blankHeap World.blankKernel)
      submitThenRun :=
    ⟨rfl, fun _ _ => Transition.guarded_of_forall (by simp [PushesInTime])⟩
  have hdry := run_returns_dry hr hops hpc hstop hstep
  exact ⟨s, t, hr, hstep, hacc, hdry.2.1, (hdry.2.2 7 (by simp [hacc])).2.2⟩

def submitLate : List LoopOp :=
  [.run, .next, .next, .next, .next, .next, .next, .push 7, .write 7]

theorem late_submit_is_dropped : ∃ s t,
    Reaches 0 World.blankHeap World.blankKernel submitLate s ∧ s.stopRequested = false ∧
    s.accepted = [7] ∧ step s .next = some t ∧ t.pc = .outside (some (.ok ())) ∧
    t.crossCoreQueue = [7] ∧ t.enteredReady = [] :=
  ⟨_, _, rfl, rfl, rfl, rfl, rfl, rfl, rfl⟩

end EventLoop
end RainRuntime
