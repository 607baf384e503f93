import RainRuntime.LoopWorld

/-!
# Timer waits and the clock

A delay is measured from the wheel's own time, which moves only when `run()` advances it:
while a batch of coroutines runs, and before the first iteration, the clock goes on and the
wheel stands. A coroutine that starts to wait then has its deadline set too early by as
much as the wheel lags, and the next advance makes up for the whole lag at once.
-/

namespace RainRuntime

def WaitKind.timerDelay : WaitKind → Option ℤ
  | .timedReady _ timeout => some timeout
  | .sleep delay => some delay
  | _ => none

namespace World
section Await
variable {s : World} {h : Handle} {a b : Awaiter} {tls : Option LoopId} {on : LoopId}

theorem installCallback_timerId (hw : (s.installCallback h a tls).phase h = .waiting b) :
    b.timerId = a.timerId := by
  unfold installCallback at hw
  cases ht : a.token with
  | none =>
    simp only [ht, suspend, Function.update_self, Phase.waiting.injEq] at hw
    rw [← hw]
  | some src =>
    simp only [ht] at hw
    cases hst : s.stopped src with
    | none =>
      simp only [hst, suspend, Function.update_self, Phase.waiting.injEq] at hw
      rw [← hw]
    | some _ =>
      simp only [hst, cancelWait_phase, suspend, Function.update_self, Phase.waiting.injEq] at hw
      rw [← hw]

theorem suspendIo_timerId {d : Direction} {cleanup : World → World} {sys : Except Errno ℕ}
    (hw : (finishAwait (s.suspendIo h a d tls cleanup) h on sys).phase h = .waiting b) :
    b.timerId = a.timerId := by
  unfold suspendIo at hw
  cases hr : s.registerWait h a d with
  | mk res u =>
    rw [hr] at hw
    cases res with
    | ok x => exact installCallback_timerId hw
    | error e =>
      dsimp only [finishAwait] at hw
      rw [complete_phase] at hw
      cases hw

theorem scheduleWait_scheduled (s : World) (h : Handle) (a : Awaiter) (delay : ℤ)
    (c : WaitState) : ∃ e : TimerEntry,
      .scheduled e s.timer.wheel.currentTime ∈ (s.scheduleWait h a delay c).2.timer.trace ∧
      e.id = (s.scheduleWait h a delay c).1.timerId ∧
      e.deadline = s.timer.wheel.currentTime + delay := by
  rw [scheduleWait_snd, scheduleWait_fst]
  exact ⟨_, List.mem_cons_self .., rfl, rfl⟩

theorem awaitSuspend_scheduled {d : ℤ} (hkind : a.kind.timerDelay = some d) (hd : 0 < d)
    {sys : Except Errno ℕ}
    (hw : (finishAwait (s.awaitSuspend h a (some on)) h on sys).phase h = .waiting b) :
    ∃ e : TimerEntry, .scheduled e s.timer.wheel.currentTime ∈
        (finishAwait (s.awaitSuspend h a (some on)) h on sys).timer.trace ∧
      e.id = b.timerId ∧ e.deadline = s.timer.wheel.currentTime + d := by
  have hrule := timerSteps_rule (some on)
  unfold awaitSuspend at hw ⊢
  cases hk : a.kind with
  | timedReady dir timeout =>
    rw [hk, WaitKind.timerDelay, Option.some.injEq] at hkind
    subst hkind
    simp only [hk, if_neg (Int.not_le.mpr hd)] at hw ⊢
    obtain ⟨e, he, hid, hdeadline⟩ := scheduleWait_scheduled s h a timeout .timedOut
    generalize s.scheduleWait h a timeout .timedOut = r at he hid hw ⊢
    have hsteps := hrule.suspendIo r.2 h r.1 dir (fun u => hrule.cancelTimer u r.1) sys
    exact ⟨e, hsteps.mem_trace he, hid.trans (suspendIo_timerId hw).symm, hdeadline⟩
  | sleep delay =>
    rw [hk, WaitKind.timerDelay, Option.some.injEq] at hkind
    subst hkind
    simp only [hk, if_neg (Int.not_le.mpr hd)] at hw ⊢
    obtain ⟨e, he, hid, hdeadline⟩ := scheduleWait_scheduled s h a delay .ready
    generalize s.scheduleWait h a delay .ready = r at he hid hw ⊢
    have hsteps := hrule.installCallback r.2 h r.1
    exact ⟨e, hsteps.mem_trace he, hid.trans (installCallback_timerId hw).symm, hdeadline⟩
  | _ => simp [hk, WaitKind.timerDelay] at hkind

theorem begin_currentTime (s : World) (h : Handle) (kind : WaitKind) (cell : StatePtr) :
    (s.begin h kind cell).timer.wheel.currentTime = s.timer.wheel.currentTime := by
  obtain ⟨m, heq, -⟩ := initCells_eq s kind cell
  unfold World.begin
  rw [heq]
  rfl

theorem await_scheduled {kind : WaitKind} {fd : ℤ} {cell : StatePtr} {token : Option ℕ}
    {sys : Except Errno ℕ} {d : ℤ} (hkind : kind.timerDelay = some d) (hd : 0 < d)
    (hw : (s.await h on kind fd cell token sys).phase h = .waiting b) :
    ∃ e : TimerEntry, .scheduled e s.timer.wheel.currentTime ∈
        (s.await h on kind fd cell token sys).timer.trace ∧
      e.id = b.timerId ∧ e.deadline = s.timer.wheel.currentTime + d := by
  rw [await_eq] at hw ⊢
  rw [← begin_currentTime s h kind cell]
  exact awaitSuspend_scheduled hkind hd hw

end Await
end World

namespace EventLoop

section Clock
variable {s t : EventLoop} {op : LoopOp}

theorem drain_timer (s : EventLoop) : s.drainCrossCore.world.timer = s.world.timer := by
  rw [drainCrossCore_eq]
  exact World.foldl_enqueue_timer s.crossCoreQueue s.world

/-- The wheel moves when `run()` advances it to the clock, and stands otherwise. -/
theorem step_wheel (h : step s op = some t) : World.TimerSteps s.world t.world ∨
    t.world.timer = s.world.timer.advanceTo s.clock := by
  cases step_effect h with
  | quiet hw _ => exact Or.inl (hw ▸ World.TimerSteps.of_eq rfl)
  | world op hop hw _ =>
    cases hm : World.moves op with
    | none => exact Or.inl (World.step_timerSteps hm hw)
    | some top =>
      have htop := World.step_moves hm hw
      cases op <;> simp only [World.moves, Option.some.injEq, reduceCtorEq] at hm
      case tick => exact hop.elim
      case advanceTo target =>
        subst hm
        have htarget : target = s.clock := hop
        rw [TimerState.step, Option.some.injEq, htarget] at htop
        exact Or.inr htop.symm
  | cleanup pc heq => exact Or.inl (heq ▸ World.TimerSteps.of_eq rfl)
  | drain pc heq => exact Or.inl (heq ▸ World.TimerSteps.of_eq (drain_timer s))
  | spawn h' _ heq => exact Or.inl (heq ▸ World.TimerSteps.of_eq rfl)
  | push h' _ heq => exact Or.inl (heq ▸ World.TimerSteps.of_eq rfl)
  | write h' _ heq => exact Or.inl (heq ▸ World.TimerSteps.of_eq rfl)

theorem step_timer (h : step s op = some t) :
    ∃ tops, Transition.run TimerState.step s.world.timer tops = some t.world.timer := by
  rcases step_wheel h with ⟨tops, -, hrun⟩ | hadv
  · exact ⟨tops, hrun⟩
  · exact ⟨[.advanceTo s.clock], congrArg some hadv.symm⟩

theorem step_clock (h : step s op = some t) : s.clock ≤ t.clock := by
  cases step_effect h with
  | quiet _ hk => exact hk.clock
  | world _ _ _ hk => exact hk.clock
  | drain pc heq =>
    rw [heq, drainCrossCore_eq]
  | cleanup pc heq => exact Int.le_of_eq (congrArg clock heq).symm
  | spawn h' _ heq => exact Int.le_of_eq (congrArg clock heq).symm
  | push h' _ heq => exact Int.le_of_eq (congrArg clock heq).symm
  | write h' _ heq => exact Int.le_of_eq (congrArg clock heq).symm

def InStep (s : EventLoop) : Prop := s.world.timer.wheel.currentTime < s.clock + kTickDuration

theorem InStep.step (hs : InStep s) (h : EventLoop.step s op = some t) : InStep t := by
  have hclock := step_clock h
  unfold InStep at hs ⊢
  rcases step_wheel h with hquiet | hadv
  · rw [hquiet.currentTime]
    omega
  · rw [hadv]
    rcases TimerState.advanceTo_currentTime_lt s.world.timer s.clock with hlt | heq
    · omega
    · rw [heq]
      omega

end Clock

section Runs
variable {now : ℤ} {m : Heap} {k : Kernel} {ops ops' : List LoopOp} {s u : EventLoop}

theorem Reaches.inStep (h : Reaches now m k ops s) : InStep s := by
  refine Transition.invariant InStep (fun hstep hs => hs.step hstep) ?_ h
  show now < now + kTickDuration
  simp only [kTickDuration, kMillisecond]
  omega

theorem Reaches.timer (h : Reaches now m k ops s) :
    ∃ tops, TimerState.Reaches now m tops s.world.timer :=
  Transition.simulation (fun s : EventLoop => s.world.timer) (fun hstep => step_timer hstep) h

theorem run_clock (h : Transition.run step s ops = some u) : s.clock ≤ u.clock :=
  Transition.invariant (fun v => s.clock ≤ v.clock)
    (fun hstep hv => Int.le_trans hv (step_clock hstep)) (Int.le_refl _) h

theorem run_mem_trace (h : Transition.run step s ops = some u) {ev : TimerEvent}
    (hev : ev ∈ s.world.timer.trace) : ev ∈ u.world.timer.trace := by
  obtain ⟨tops, hrun⟩ :=
    Transition.simulation (fun s : EventLoop => s.world.timer) (fun hstep => step_timer hstep) h
  exact Transition.invariant (fun v : TimerState => ev ∈ v.trace)
    (fun hstep hv => TimerState.mem_step_trace hstep hv) hev hrun

/-- A timer that has fired is one whose tick has begun by the clock. -/
theorem Reaches.fired_before_clock (h : Reaches now m k ops u)
    (hb : Bounded u.world.timer.wheel.slotmap) {e : TimerEntry} {c τ : ℤ}
    (hs : .scheduled e c ∈ u.world.timer.trace) (hc : c ≤ e.deadline)
    (hf : .fired e.id τ ∈ u.world.timer.trace) :
    now + fireTick now e c * kTickDuration < u.clock + kTickDuration := by
  obtain ⟨tops, htimer⟩ := h.timer
  have hp : (e.id, τ) ∈ u.world.timer.processed := List.mem_filterMap.mpr ⟨_, hf, rfl⟩
  rw [← htimer.processed_time hb hs hc hp]
  exact Int.lt_of_le_of_lt (htimer.pastOnly e.id τ hp) h.inStep

end Runs

/-- A delay `d` that starts now runs out in time: it is no longer than a tick, or the wheel
lags behind the clock by no more than the tick that rounding leaves, and the deadline is
none of those that the wheel itself misses. -/
def Punctual (s : EventLoop) (d : ℤ) : Prop :=
  (d ≤ kTickDuration ∨
    s.clock - s.world.timer.wheel.currentTime + d % kTickDuration ≤ kTickDuration + 1) ∧
  ¬(16384 * kTickDuration ≤ d ∧
    deadlineTick s.world.timer.wheel.startTime (s.world.timer.wheel.currentTime + d) % 16384 = 256)

/-- A coroutine that starts a timer wait of `d` while the wheel keeps up with the clock is
not woken by its timer until `d` less a tick has gone by. -/
theorem timer_wait_respects_clock {now : ℤ} {m : Heap} {k : Kernel} {ops ops' : List LoopOp}
    {s s' u : EventLoop} {h : Handle} {kind : WaitKind} {fd : ℤ} {cell : StatePtr}
    {token : Option ℕ} {sys : Except Errno ℕ} {a : Awaiter} {d τ : ℤ} (hr : Reaches now m k ops s)
    (hstep : step s (.world (.await h kind fd cell token sys)) = some s')
    (hkind : kind.timerDelay = some d) (hd : 0 < d) (hw : s'.world.phase h = .waiting a)
    (hpunctual : s.Punctual d) (hrun : Transition.run step s' ops' = some u)
    (hb : Bounded u.world.timer.wheel.slotmap)
    (hfired : .fired a.timerId τ ∈ u.world.timer.trace) :
    s.clock + d - kTickDuration ≤ u.clock := by
  have hreach : Reaches now m k (ops ++ .world (.await h kind fd cell token sys) :: ops') u :=
    Transition.run_append_eq_some.mpr ⟨s, hr, Transition.run_cons_eq_some.mpr ⟨s', hstep, hrun⟩⟩
  obtain ⟨tops, htimer⟩ := hr.timer
  obtain ⟨n, hn⟩ := htimer.currentTime_eq
  obtain ⟨hlag, hboundary⟩ := hpunctual
  rw [htimer.startTime] at hboundary
  -- the await has put its timer into the log
  obtain ⟨e, he, hid, hdeadline⟩ : ∃ e : TimerEntry,
      .scheduled e s.world.timer.wheel.currentTime ∈ s'.world.timer.trace ∧ e.id = a.timerId ∧
      e.deadline = s.world.timer.wheel.currentTime + d := by
    simp only [step] at hstep
    split_ifs at hstep
    obtain ⟨w, hawait, rfl⟩ := withWorld_eq_some.mp hstep
    obtain ⟨on, -, -, rfl⟩ := World.step_await.mp hawait
    exact World.await_scheduled hkind hd hw
  have hnot : ¬Boundary now e s.world.timer.wheel.currentTime := by
    rintro ⟨hfar, hmod⟩
    refine hboundary ⟨?_, hdeadline ▸ hmod⟩
    unfold Far at hfar
    omega
  have hlt := hreach.fired_before_clock hb (run_mem_trace hrun he) (by omega) (hid ▸ hfired)
  have hmono : s.clock ≤ u.clock := Int.le_trans (step_clock hstep) (run_clock hrun)
  rw [fireTick_of_not_boundary hnot, hdeadline, hn] at hlt
  rw [hn] at hlag
  simp only [deadlineTick, kTickDuration, kMillisecond] at hlt hlag ⊢
  omega

def busyFor (ns : ℕ) : List LoopOp := [.spawn 0, .run, .next, .resume (.ok 0), .elapse ns]

def pollFor (ns : ℕ) : List LoopOp :=
  [.next, .next, .next, .next, .elapse ns, .poll (.reported []) false, .next, .next]

theorem timer_wait_respects_clock_half_a_tick_behind : ∃ s s' u a,
    Reaches 0 World.blankHeap World.blankKernel (busyFor 500000) s ∧
    s.clock - s.world.timer.wheel.currentTime = 500000 ∧
    step s (.world (.await 0 (.sleep 2200000) 0 0 none (.ok 0))) = some s' ∧
    s'.world.phase 0 = .waiting a ∧ Transition.run step s' (pollFor 2000000) = some u ∧
    .fired a.timerId 3000000 ∈ u.world.timer.trace ∧
    s.clock + 2200000 - kTickDuration ≤ u.clock := by
  obtain ⟨s, s', u, a, hr, hlag, hstep, hw, hrun, hpunctual, hb, hfired⟩ : ∃ s s' u a,
      Reaches 0 World.blankHeap World.blankKernel (busyFor 500000) s ∧
      s.clock - s.world.timer.wheel.currentTime = 500000 ∧
      step s (.world (.await 0 (.sleep 2200000) 0 0 none (.ok 0))) = some s' ∧
      s'.world.phase 0 = .waiting a ∧ Transition.run step s' (pollFor 2000000) = some u ∧
      s.Punctual 2200000 ∧ Bounded u.world.timer.wheel.slotmap ∧
      .fired a.timerId 3000000 ∈ u.world.timer.trace :=
    ⟨_, _, _, _, rfl, rfl, rfl, rfl, rfl, ⟨Or.inr (by decide), by decide⟩, by decide, by decide⟩
  exact ⟨s, s', u, a, hr, hlag, hstep, hw, hrun, hfired,
    timer_wait_respects_clock hr hstep rfl (by decide) hw hpunctual hrun hb hfired⟩

/-- A coroutine computes for 3 ms and then sleeps for 2 ms: the advance at the end of the
iteration wakes it at once. -/
theorem lagging_wheel_wakes_early : ∃ s s' u a,
    Reaches 0 World.blankHeap World.blankKernel (busyFor 3000000) s ∧
    step s (.world (.await 0 (.sleep 2000000) 0 0 none (.ok 0))) = some s' ∧
    s'.world.phase 0 = .waiting a ∧ Transition.run step s' (pollFor 0) = some u ∧
    Bounded u.world.timer.wheel.slotmap ∧ .fired a.timerId 3000000 ∈ u.world.timer.trace ∧
    u.clock = s.clock ∧ u.clock < s.clock + 2000000 - kTickDuration :=
  ⟨_, _, _, _, rfl, rfl, rfl, rfl, by decide, by decide, by decide, by decide⟩

end EventLoop
end RainRuntime
