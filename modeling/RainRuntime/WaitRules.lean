import RainRuntime.TimerClock
import RainRuntime.WaitRuns

/-!
# Relations across an await

A relation between worlds that every elementary update respects, and that is reflexive and
transitive, holds across whole awaits, resumptions and stop callbacks (`Rule`). One such
relation says that the ready queue only grows at its end (`Grows`), another that the wheel has
only taken steps of its own.
-/

namespace RainRuntime
namespace World

/-- `R` holds across the updates made on a thread whose `g_event_loop` is `tls`. -/
structure Rule (R : World → World → Prop) (tls : Option LoopId) : Prop where
  refl : ∀ s, R s s
  trans : ∀ {s t u}, R s t → R t u → R s u
  io : ∀ s i, R s (s.withIo i)
  cancel : ∀ s id, R s { s with timer := s.timer.cancel id }
  schedule : ∀ s d h p c, R s { s with timer := s.timer.scheduleAt d h p c }
  signal : ∀ s h a, R s (s.signal h a tls)
  mark : ∀ s h, R s (s.mark h tls)
  suspend : ∀ s h a, R s (s.suspend h a)
  go : ∀ (s : World) h on q o, tls = some on → R s { s with
    phase := Function.update s.phase h (.running on)
    cells := Function.update s.cells q none
    outcome := o }
  unmark : ∀ s h, R s { s with
    movers := Function.update s.movers h []
    cancelledOn := Function.update s.cancelledOn h none }
  run : ∀ s h on, tls = some on → R s (s.setPhase h (.running on))

section Rule
variable {R : World → World → Prop} {tls : Option LoopId} {on : LoopId}

theorem Rule.withHeap (hR : Rule R tls) (s : World) (m : Heap) : R s (s.withHeap m) :=
  hR.io s ⟨s.kernel, s.reactor, m⟩

theorem Rule.cancelTimer (hR : Rule R tls) (s : World) (a : Awaiter) : R s (s.cancelTimer a) := by
  unfold World.cancelTimer
  cases a.kind.timerCompletion with
  | none => exact hR.refl s
  | some _ => exact hR.cancel s a.timerId

theorem Rule.deregisterWait (hR : Rule R tls) (s : World) (a : Awaiter) :
    R s (s.deregisterWait a) := by
  unfold World.deregisterWait
  cases a.kind.direction with
  | none => exact hR.refl s
  | some _ => exact hR.io s _

theorem Rule.cancelWait (hR : Rule R tls) (s : World) (h : Handle) (a : Awaiter) :
    R s (s.cancelWait h a tls) := by
  unfold World.cancelWait
  split_ifs
  · exact hR.refl s
  · have hstate := hR.withHeap s (s.heap.setState a.cell .cancelled)
    have hwithdraw := hR.trans (hR.cancelTimer _ a)
      (hR.deregisterWait ((s.withHeap (s.heap.setState a.cell .cancelled)).cancelTimer a) a)
    exact hR.trans (hR.trans (hR.trans hstate hwithdraw) (hR.signal _ h a)) (hR.mark _ h)

theorem Rule.installCallback (hR : Rule R tls) (s : World) (h : Handle) (a : Awaiter) :
    R s (s.installCallback h a tls) := by
  unfold World.installCallback
  cases a.token with
  | none => exact hR.suspend s h a
  | some src =>
    dsimp only
    cases s.stopped src with
    | none => exact hR.suspend s h _
    | some _ => exact hR.trans (hR.suspend s h a) (hR.cancelWait _ h a)

theorem Rule.awaitResume (hR : Rule R tls) (s : World) (a : Awaiter) (sys : Except Errno ℕ) :
    R s (s.awaitResume a sys).2 := by
  rcases awaitResume_snd s a sys with h | h | h <;> rw [h]
  · exact hR.refl s
  · exact hR.cancelTimer s a
  · exact hR.deregisterWait s a

theorem Rule.complete (hR : Rule R (some on)) (s : World) (h : Handle) (a : Awaiter)
    (sys : Except Errno ℕ) :
    R s (s.complete h a on sys) :=
  hR.trans (hR.awaitResume s a sys) (hR.go _ h on a.cell _ rfl)

theorem Rule.suspendIo (hR : Rule R (some on)) (s : World) (h : Handle) (a : Awaiter)
    (d : Direction)
    {cleanup : World → World} (hclean : ∀ u, R u (cleanup u)) (sys : Except Errno ℕ) :
    R s (finishAwait (s.suspendIo h a d (some on) cleanup) h on sys) := by
  have hreg : R s (s.registerWait h a d).2 := by cases d <;> exact hR.io s _
  unfold World.suspendIo
  cases hr : s.registerWait h a d with
  | mk res u =>
    rw [hr] at hreg
    cases res with
    | ok x => exact hR.trans hreg (hR.installCallback u h a)
    | error e =>
      exact hR.trans (hR.trans (hR.trans hreg (hclean u)) (hR.withHeap _ _))
        (hR.complete _ h a sys)

theorem Rule.awaitSuspend (hR : Rule R (some on)) (s : World) (h : Handle) (a : Awaiter)
    (sys : Except Errno ℕ) :
    R s (finishAwait (s.awaitSuspend h a (some on)) h on sys) := by
  have hio : ∀ d, R s (finishAwait (s.suspendIo h a d (some on) id) h on sys) := fun d =>
    hR.suspendIo s h a d (fun u => hR.refl u) sys
  have hschedule : ∀ delay c, R s (s.scheduleWait h a delay c).2 := by
    intro delay c
    rw [scheduleWait_snd]
    exact hR.schedule s _ _ _ _
  unfold World.awaitSuspend
  cases a.kind with
  | connect => exact hio .write
  | readReady => exact hio .read
  | writeReady => exact hio .write
  | accept => exact hio .read
  | timedReady d timeout =>
    dsimp only
    split_ifs
    · exact hR.trans (hR.withHeap s _) (hR.complete _ h a sys)
    · have hsched := hschedule timeout .timedOut
      generalize s.scheduleWait h a timeout .timedOut = r at hsched ⊢
      exact hR.trans hsched (hR.suspendIo r.2 h r.1 d (fun u => hR.cancelTimer u r.1) sys)
  | sleep delay =>
    dsimp only
    split_ifs
    · exact hR.complete s h a sys
    · have hsched := hschedule delay .ready
      generalize s.scheduleWait h a delay .ready = r at hsched ⊢
      exact hR.trans hsched (hR.installCallback r.2 h r.1)

theorem Rule.await (hR : Rule R (some on)) (s : World) (h : Handle) (kind : WaitKind) (fd : ℤ)
    (cell : StatePtr)
    (token : Option ℕ) (sys : Except Errno ℕ) : R s (s.await h on kind fd cell token sys) := by
  obtain ⟨m, heq, -⟩ := initCells_eq s kind cell
  have hbegin : R s (s.begin h kind cell) := by
    unfold World.begin
    rw [heq]
    exact hR.trans (hR.withHeap s m) (hR.unmark _ h)
  rw [await_eq]
  exact hR.trans hbegin (hR.awaitSuspend _ h _ sys)

theorem Rule.resume (hR : Rule R (some on)) (s : World) (h : Handle) (sys : Except Errno ℕ) :
    R s (s.resume h on sys) := by
  unfold World.resume
  split_ifs
  · exact hR.refl s
  · cases s.phase h with
    | waiting a => exact hR.complete s h a sys
    | _ => exact hR.run s h on rfl

end Rule

def Grows (s t : World) : Prop := s.ready <+: t.ready

theorem Grows.of_eq {s t : World} (h : t.ready = s.ready) : Grows s t := by
  rw [Grows, h]

theorem signal_grows (s : World) (h : Handle) (a : Awaiter) (tls : Option LoopId) :
    Grows s (s.signal h a tls) := by
  unfold signal notify
  cases a.kind with
  | sleep => exact Grows.of_eq rfl
  | _ =>
    cases tls with
    | none => exact Grows.of_eq rfl
    | some l =>
      dsimp only
      split_ifs
      · exact List.prefix_append s.ready [h]
      · exact Grows.of_eq rfl

theorem grows_rule (tls : Option LoopId) : Rule Grows tls where
  refl _ := Grows.of_eq rfl
  trans h h' := List.IsPrefix.trans h h'
  io _ _ := Grows.of_eq rfl
  cancel _ _ := Grows.of_eq rfl
  schedule _ _ _ _ _ := Grows.of_eq rfl
  signal s h a := signal_grows s h a tls
  mark _ _ := Grows.of_eq rfl
  suspend _ _ _ := Grows.of_eq rfl
  go _ _ _ _ _ _ := Grows.of_eq rfl
  unmark _ _ := Grows.of_eq rfl
  run _ _ _ _ := Grows.of_eq rfl

/-! ## What enters the ready queue -/

/-- The handle that a stop callback passes to `notify` of this loop. -/
def notified (h : Handle) (a : Awaiter) (tls : Option LoopId) : List Handle :=
  if a.kind.direction.isSome ∧ tls = some ownerLoop then [h] else []

def cancelEnters (s : World) (h : Handle) (a : Awaiter) (tls : Option LoopId) : List Handle :=
  if s.heap.state a.cell = .pending then notified h a tls else []

/-- A wait whose token is stopped already runs its callback within `await_suspend`. -/
def awaitEnters (s : World) (h : Handle) (a : Awaiter) (on : LoopId) : List Handle :=
  if (a.token.bind s.stopped).isSome ∧ (s.awaitSuspend h a (some on)).1.isNone then
    notified h a (some on)
  else []

def entering (s : World) : WorldOp → List Handle
  | .wake h => [h]
  | .drainReactor => s.reactor.ready
  | .drainTimer => s.timer.wheel.ready
  | .await h kind fd cell token _ =>
    match s.phase h with
    | .running on => (s.begin h kind cell).awaitEnters h ⟨kind, fd, cell, token, 0, false⟩ on
    | _ => []
  | .callback h =>
    match s.phase h with
    | .waiting a =>
      match a.token.bind s.stopped with
      | some tls => s.cancelEnters h a tls
      | none => []
    | _ => []
  | _ => []

section Entering
variable {s t : World} {h : Handle} {a : Awaiter} {on : LoopId} {sys : Except Errno ℕ}

theorem signal_ready (s : World) (h : Handle) (a : Awaiter) (tls : Option LoopId) :
    (s.signal h a tls).ready = s.ready ++ notified h a tls := by
  unfold signal notify notified
  cases a.kind with
  | sleep => simp [WaitKind.direction]
  | _ =>
    cases tls with
    | none => simp
    | some l =>
      by_cases hl : l = ownerLoop
      · simp [hl, WaitKind.direction]
      · simp [hl]

theorem cancelTimer_ready (s : World) (a : Awaiter) : (s.cancelTimer a).ready = s.ready := by
  unfold cancelTimer
  cases a.kind.timerCompletion <;> rfl

theorem deregisterWait_ready (s : World) (a : Awaiter) :
    (s.deregisterWait a).ready = s.ready := by
  unfold deregisterWait
  cases a.kind.direction <;> rfl

theorem cancelWait_ready (s : World) (h : Handle) (a : Awaiter) (tls : Option LoopId) :
    (s.cancelWait h a tls).ready = s.ready ++ s.cancelEnters h a tls := by
  by_cases hp : s.heap.state a.cell = .pending
  · rw [cancelWait_of_pending hp, cancelEnters, if_pos hp, mark, signal_ready, withdraw,
      deregisterWait_ready, cancelTimer_ready, withHeap]
  · rw [cancelWait_of_moved hp, cancelEnters, if_neg hp, List.append_nil]

theorem complete_ready (s : World) (h : Handle) (a : Awaiter) (on : LoopId)
    (sys : Except Errno ℕ) : (s.complete h a on sys).ready = s.ready := by
  rw [complete]
  rcases awaitResume_snd s a sys with heq | heq | heq <;> rw [heq]
  · exact cancelTimer_ready s a
  · exact deregisterWait_ready s a

theorem resume_ready (s : World) (h : Handle) (on : LoopId) (sys : Except Errno ℕ) :
    (s.resume h on sys).ready = s.ready := by
  unfold resume
  split_ifs
  · rfl
  · cases s.phase h with
    | waiting a => exact complete_ready s h a on sys
    | _ => rfl

theorem resume_phase (hd : s.heap.done h = false) (on : LoopId) (sys : Except Errno ℕ) :
    (s.resume h on sys).phase h = .running on := by
  unfold resume
  rw [if_neg (by simp [hd])]
  cases s.phase h with
  | waiting a => exact complete_phase s h a on sys
  | _ => exact Function.update_self _ _ _

theorem installCallback_ready (hp : s.heap.state a.cell = .pending) (h : Handle)
    (tls : Option LoopId) : (s.installCallback h a tls).ready =
      s.ready ++ if (a.token.bind s.stopped).isSome then notified h a tls else [] := by
  unfold installCallback
  split
  case h_1 htok => simp [htok, suspend]
  case h_2 src htok =>
    split
    case h_1 hst => simp [htok, hst, suspend]
    case h_2 hst =>
      have hpend : (s.suspend h a).heap.state a.cell = .pending := hp
      rw [cancelWait_ready, cancelEnters, if_pos hpend, if_pos (by simp [htok, hst])]
      rfl

theorem registerWait_frame (s : World) (h : Handle) (a : Awaiter) (d : Direction) :
    (s.registerWait h a d).2.ready = s.ready ∧ (s.registerWait h a d).2.heap = s.heap ∧
      (s.registerWait h a d).2.stopped = s.stopped := by
  obtain ⟨negative, busy, heq⟩ := registerWait_eq s h a d
  rw [heq]
  exact ⟨rfl, (IoState.register_spec d negative busy s.io a.fd _).1, rfl⟩

theorem suspendIo_ready (hp : s.heap.state a.cell = .pending) (d : Direction)
    {cleanup : World → World} (hclean : ∀ u, (cleanup u).ready = u.ready) :
    (finishAwait (s.suspendIo h a d (some on) cleanup) h on sys).ready =
      s.ready ++ if (a.token.bind s.stopped).isSome ∧
        (s.suspendIo h a d (some on) cleanup).1.isNone then notified h a (some on) else [] := by
  obtain ⟨hready, hheap, hstopped⟩ := registerWait_frame s h a d
  unfold suspendIo
  cases hr : s.registerWait h a d with
  | mk res u =>
    rw [hr] at hready hheap hstopped
    cases res with
    | ok x =>
      have hu : u.heap.state a.cell = .pending := by rw [hheap]; exact hp
      have hinstall := installCallback_ready hu h (some on)
      rw [hready, hstopped] at hinstall
      simpa [finishAwait] using hinstall
    | error e =>
      have hcomplete := complete_ready ((cleanup u).withHeap
        ((cleanup u).heap.setResult a.cell (.error e))) h a on sys
      simpa [finishAwait] using (hcomplete.trans (hclean u)).trans hready

theorem scheduleWait_ready (hp : s.heap.state a.cell = .pending) (h : Handle) (delay : ℤ)
    (c : WaitState) :
    ((s.scheduleWait h a delay c).2.heap.state (s.scheduleWait h a delay c).1.cell = .pending ∧
      (s.scheduleWait h a delay c).2.ready = s.ready) ∧
    (s.scheduleWait h a delay c).1.token.bind (s.scheduleWait h a delay c).2.stopped =
        a.token.bind s.stopped ∧
      ∀ tls, notified h (s.scheduleWait h a delay c).1 tls = notified h a tls := by
  obtain ⟨hkind, hcell, -⟩ := scheduleWait_frame s h a delay c
  rw [hcell, scheduleWait_token, scheduleWait_snd]
  refine ⟨⟨hp, rfl⟩, rfl, fun tls => ?_⟩
  unfold notified
  rw [hkind]

theorem awaitSuspend_ready (hp : s.heap.state a.cell = .pending) (h : Handle) (on : LoopId)
    (sys : Except Errno ℕ) :
    (finishAwait (s.awaitSuspend h a (some on)) h on sys).ready =
      s.ready ++ s.awaitEnters h a on := by
  unfold awaitEnters awaitSuspend
  cases a.kind with
  | connect => exact suspendIo_ready hp .write fun _ => rfl
  | readReady => exact suspendIo_ready hp .read fun _ => rfl
  | writeReady => exact suspendIo_ready hp .write fun _ => rfl
  | accept => exact suspendIo_ready hp .read fun _ => rfl
  | timedReady d timeout =>
    by_cases htimeout : timeout ≤ 0
    · simp only [htimeout, if_true]
      simpa [finishAwait, withHeap] using complete_ready (s.withHeap _) h a on sys
    · simp only [htimeout, if_false]
      obtain ⟨⟨hpend, hready⟩, htoken, hnotified⟩ := scheduleWait_ready hp h timeout .timedOut
      generalize s.scheduleWait h a timeout .timedOut = r at hpend hready htoken hnotified ⊢
      rw [← hready, ← htoken, ← hnotified]
      exact suspendIo_ready hpend d fun u => cancelTimer_ready u r.1
  | sleep delay =>
    by_cases hdelay : delay ≤ 0
    · simp only [hdelay, if_true]
      simpa [finishAwait] using complete_ready s h a on sys
    · simp only [hdelay, if_false]
      obtain ⟨⟨hpend, hready⟩, htoken, hnotified⟩ := scheduleWait_ready hp h delay .ready
      generalize s.scheduleWait h a delay .ready = r at hpend hready htoken hnotified ⊢
      rw [← hready, ← htoken, ← hnotified]
      simpa [finishAwait] using installCallback_ready hpend h (some on)

theorem await_ready (s : World) (h : Handle) (on : LoopId) (kind : WaitKind) (fd : ℤ)
    (cell : StatePtr) (token : Option ℕ) (sys : Except Errno ℕ) :
    (s.await h on kind fd cell token sys).ready = s.ready ++
      (s.begin h kind cell).awaitEnters h ⟨kind, fd, cell, token, 0, false⟩ on := by
  obtain ⟨m, heq, -, hpend⟩ := initCells_eq s kind cell
  have hbegin : (s.begin h kind cell).heap.state cell = .pending ∧
      (s.begin h kind cell).ready = s.ready := by
    unfold World.begin
    rw [heq]
    exact ⟨hpend, rfl⟩
  rw [await_eq, awaitSuspend_ready hbegin.1, hbegin.2]

/-- Every step but a resumption leaves the queue as it is, with what it enters behind it. -/
theorem step_ready {op : WorldOp} (hstep : step s op = some t) (hop : ∀ sys, op ≠ .resume sys) :
    t.ready = s.ready ++ s.entering op := by
  cases op with
  | wake h =>
    obtain ⟨-, rfl⟩ := step_wake.mp hstep
    rfl
  | park h =>
    obtain ⟨on, -, rfl⟩ := step_park.mp hstep
    exact (List.append_nil _).symm
  | finish h =>
    obtain ⟨on, -, rfl⟩ := step_finish.mp hstep
    exact (List.append_nil _).symm
  | await h kind fd cell token sys =>
    obtain ⟨on, hr, -, rfl⟩ := step_await.mp hstep
    rw [await_ready, entering, hr]
  | resume sys => exact absurd rfl (hop sys)
  | resumeForeign sys =>
    obtain ⟨entry, rest, -, rfl⟩ := step_resumeForeign.mp hstep
    rw [resume_ready]
    exact (List.append_nil _).symm
  | requestStop src tls =>
    obtain ⟨-, rfl⟩ := step_requestStop.mp hstep
    exact (List.append_nil _).symm
  | callback h =>
    obtain ⟨a, src, tls, hw, htok, hst, -, rfl⟩ := step_callback.mp hstep
    have henters : s.entering (.callback h) = s.cancelEnters h a tls := by
      simp [entering, hw, htok, hst]
    rw [henters]
    exact cancelWait_ready s h a tls
  | drainReactor | drainTimer =>
    rw [step, Option.some.injEq] at hstep
    subst hstep
    rfl
  | _ =>
    rw [step, Option.some.injEq] at hstep
    subst hstep
    exact (List.append_nil _).symm

end Entering

theorem step_grows {s t : World} {op : WorldOp} (hstep : step s op = some t)
    (hop : ∀ sys, op ≠ .resume sys) : Grows s t :=
  ⟨s.entering op, (step_ready hstep hop).symm⟩

theorem resume_grows {s t : World} {sys : Except Errno ℕ} (hstep : step s (.resume sys) = some t) :
    ∃ h rest, s.ready = h :: rest ∧ rest <+: t.ready ∧ s.actor (.resume sys) = some h := by
  obtain ⟨h, rest, hr, rfl⟩ := step_resume.mp hstep
  refine ⟨h, rest, hr, by rw [resume_ready], ?_⟩
  rw [actor, hr]
  rfl

def TimerSteps (s t : World) : Prop :=
  ∃ ops, (∀ op ∈ ops, TimerOp.quiet op = true) ∧
    Transition.run TimerState.step s.timer ops = some t.timer

theorem TimerSteps.of_op {s t : World} (op : TimerOp) (hq : op.quiet = true)
    (h : s.timer.step op = some t.timer) : TimerSteps s t :=
  ⟨[op], by simpa using hq, Transition.run_cons_eq_some.mpr ⟨_, h, rfl⟩⟩

theorem TimerSteps.of_eq {s t : World} (h : t.timer = s.timer) : TimerSteps s t :=
  ⟨[], by simp, congrArg some h.symm⟩

theorem TimerSteps.trans {s t u : World} (h₁ : TimerSteps s t) (h₂ : TimerSteps t u) :
    TimerSteps s u := by
  obtain ⟨ops, hq, hops⟩ := h₁
  obtain ⟨ops', hq', hops'⟩ := h₂
  refine ⟨ops ++ ops', fun op hop => ?_, Transition.run_append_eq_some.mpr ⟨_, hops, hops'⟩⟩
  rcases List.mem_append.mp hop with hop | hop
  · exact hq op hop
  · exact hq' op hop

theorem signal_timerSteps (s : World) (h : Handle) (a : Awaiter) (tls : Option LoopId) :
    TimerSteps s (s.signal h a tls) := by
  have hnotify : TimerSteps s (s.notify tls h) := by
    refine TimerSteps.of_eq ?_
    unfold notify
    cases tls with
    | none => rfl
    | some l => dsimp only; split_ifs <;> rfl
  unfold signal
  cases a.kind with
  | sleep => exact TimerSteps.of_op (.wake h) rfl rfl
  | _ => exact hnotify

theorem timerSteps_rule (tls : Option LoopId) : Rule TimerSteps tls where
  refl _ := TimerSteps.of_eq rfl
  trans := TimerSteps.trans
  io _ i := TimerSteps.of_op (.heap i.heap) rfl rfl
  cancel _ id := TimerSteps.of_op (.cancel id) rfl rfl
  schedule _ d h p c := TimerSteps.of_op (.scheduleAt d h p c) rfl rfl
  signal s h a := signal_timerSteps s h a tls
  mark _ _ := TimerSteps.of_eq rfl
  suspend _ _ _ := TimerSteps.of_eq rfl
  go _ _ _ _ _ _ := TimerSteps.of_eq rfl
  unmark _ _ := TimerSteps.of_eq rfl
  run _ _ _ _ := TimerSteps.of_eq rfl

def moves : WorldOp → Option TimerOp
  | .tick => some .tick
  | .advanceTo target => some (.advanceTo target)
  | _ => none

theorem step_timerSteps {s t : World} {op : WorldOp} (hmoves : moves op = none)
    (hstep : step s op = some t) : TimerSteps s t := by
  cases op with
  | wake h =>
    obtain ⟨-, rfl⟩ := step_wake.mp hstep
    exact TimerSteps.of_eq rfl
  | park h =>
    obtain ⟨on, -, rfl⟩ := step_park.mp hstep
    exact TimerSteps.of_eq rfl
  | finish h =>
    obtain ⟨on, -, rfl⟩ := step_finish.mp hstep
    exact TimerSteps.of_op (.heap _) rfl rfl
  | await h kind fd cell token sys =>
    obtain ⟨on, -, -, rfl⟩ := step_await.mp hstep
    exact (timerSteps_rule _).await s h kind fd cell token sys
  | poll report =>
    rw [step, Option.some.injEq] at hstep
    subst hstep
    exact TimerSteps.of_op (.heap _) rfl rfl
  | tick => cases hmoves
  | advanceTo target => cases hmoves
  | drainTimer =>
    rw [step, Option.some.injEq] at hstep
    subst hstep
    exact TimerSteps.of_op .drainReady rfl rfl
  | resume sys =>
    obtain ⟨h, rest, -, rfl⟩ := step_resume.mp hstep
    exact (timerSteps_rule _).resume { s with ready := rest } h sys
  | resumeForeign sys =>
    obtain ⟨entry, rest, -, rfl⟩ := step_resumeForeign.mp hstep
    exact (timerSteps_rule _).resume { s with foreign := rest } entry.2 sys
  | requestStop src tls =>
    obtain ⟨-, rfl⟩ := step_requestStop.mp hstep
    exact TimerSteps.of_eq rfl
  | callback h =>
    obtain ⟨a, src, tls, -, -, -, -, rfl⟩ := step_callback.mp hstep
    exact (timerSteps_rule tls).cancelWait s h a
  | deregister fd =>
    rw [step, Option.some.injEq] at hstep
    subst hstep
    exact TimerSteps.of_op (.heap _) rfl rfl
  | remove fd =>
    rw [step, Option.some.injEq] at hstep
    subst hstep
    exact TimerSteps.of_op (.heap _) rfl rfl
  | _ =>
    rw [step, Option.some.injEq] at hstep
    subst hstep
    exact TimerSteps.of_eq rfl

theorem step_moves {s t : World} {op : WorldOp} {top : TimerOp} (hmoves : moves op = some top)
    (hstep : step s op = some t) : s.timer.step top = some t.timer := by
  cases op <;> simp only [moves, Option.some.injEq, reduceCtorEq] at hmoves
  all_goals
    subst hmoves
    rw [step, Option.some.injEq] at hstep
    subst hstep
    rfl

theorem TimerSteps.currentTime {s t : World} (h : TimerSteps s t) :
    t.timer.wheel.currentTime = s.timer.wheel.currentTime := by
  obtain ⟨tops, hq, hrun⟩ := h
  exact Transition.invariant_of_guarded (fun _ op => op.quiet = true)
    (fun u => u.wheel.currentTime = s.timer.wheel.currentTime)
    (fun hq hstep hu => (TimerState.step_currentTime hq hstep).trans hu) rfl
    (Transition.guarded_of_forall fun op hop _ => hq op hop) hrun

theorem TimerSteps.mem_trace {s t : World} (h : TimerSteps s t) {ev : TimerEvent}
    (hev : ev ∈ s.timer.trace) : ev ∈ t.timer.trace := by
  obtain ⟨tops, -, hrun⟩ := h
  exact Transition.invariant (fun u : TimerState => ev ∈ u.trace)
    (fun hstep hu => TimerState.mem_step_trace hstep hu) hev hrun

end World
end RainRuntime
