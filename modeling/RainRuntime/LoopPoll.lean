import RainRuntime.LoopWorld

/-!
# Polling with work at hand

`run()` takes its batch, resumes it, cleans up and calls `poll`. The timeout of the call
comes from the timer wheel alone. So a handle that is put into `ready_queue_` or into the
wheel's `ready_` after the batch was taken waits for the poll to return: that is what
happens to a task spawned by a coroutine that is being resumed, to a coroutine notified or
cancelled by one, and to a task that the drain before the exit brings in. If nothing is put
there in between, both lists are empty when `poll` is called.
-/

namespace RainRuntime
namespace World

structure SameLists (s t : World) : Prop where
  ready : t.ready = s.ready
  wheel : t.timer.wheel.ready = s.timer.wheel.ready
  stopped : t.stopped = s.stopped

section SameLists
variable {s t u : World} {h : Handle} {a : Awaiter}

theorem SameLists.refl (s : World) : SameLists s s := ⟨rfl, rfl, rfl⟩

theorem SameLists.trans (h₁ : SameLists s t) (h₂ : SameLists t u) : SameLists s u :=
  ⟨h₂.ready.trans h₁.ready, h₂.wheel.trans h₁.wheel, h₂.stopped.trans h₁.stopped⟩

theorem sameLists_withIo (s : World) (i : IoState) : SameLists s (s.withIo i) := ⟨rfl, rfl, rfl⟩

theorem sameLists_withHeap (s : World) (m : Heap) : SameLists s (s.withHeap m) := ⟨rfl, rfl, rfl⟩

theorem sameLists_cancelTimer (s : World) (a : Awaiter) : SameLists s (s.cancelTimer a) := by
  rw [cancelTimer]
  cases a.kind.timerCompletion with
  | none => exact SameLists.refl s
  | some c => exact ⟨rfl, (timer_cancel_spec s.timer a.timerId).2.1, rfl⟩

theorem sameLists_deregisterWait (s : World) (a : Awaiter) : SameLists s (s.deregisterWait a) := by
  rw [deregisterWait]
  cases a.kind.direction with
  | none => exact SameLists.refl s
  | some d => exact sameLists_withIo s _

theorem sameLists_scheduleWait (s : World) (h : Handle) (a : Awaiter) (delay : ℤ) (c : WaitState) :
    SameLists s (s.scheduleWait h a delay c).2 := by
  have hready : (s.timer.scheduleAt (s.timer.wheel.currentTime + delay) (some h) (some a.cell)
      c).wheel.ready = s.timer.wheel.ready := (HierarchicalTimerWheel.frame_place _ _ _).ready
  rw [scheduleWait_snd]
  exact ⟨rfl, hready, rfl⟩

theorem sameLists_complete (s : World) (h : Handle) (a : Awaiter) (on : LoopId)
    (sys : Except Errno ℕ) : SameLists s (s.complete h a on sys) := by
  have hresume : SameLists s (s.awaitResume a sys).2 := by
    rcases awaitResume_snd s a sys with heq | heq | heq <;> rw [heq]
    · exact SameLists.refl s
    · exact sameLists_cancelTimer s a
    · exact sameLists_deregisterWait s a
  exact hresume.trans ⟨rfl, rfl, rfl⟩

theorem sameLists_resume (s : World) (h : Handle) (on : LoopId) (sys : Except Errno ℕ) :
    SameLists s (s.resume h on sys) := by
  rw [resume]
  split_ifs
  · exact SameLists.refl s
  · cases s.phase h with
    | waiting a => exact sameLists_complete s h a on sys
    | _ => exact ⟨rfl, rfl, rfl⟩

theorem sameLists_installCallback (htoken : ∀ src, a.token = some src → s.stopped src = none)
    (h : Handle) (tls : Option LoopId) : SameLists s (s.installCallback h a tls) := by
  rw [installCallback]
  cases htok : a.token with
  | none => exact ⟨rfl, rfl, rfl⟩
  | some src =>
    dsimp only
    rw [htoken src htok]
    exact ⟨rfl, rfl, rfl⟩

theorem sameLists_suspendIo (htoken : ∀ src, a.token = some src → s.stopped src = none)
    (h : Handle) (d : Direction) (on : LoopId) {cleanup : World → World}
    (hclean : ∀ u, SameLists u (cleanup u)) (sys : Except Errno ℕ) :
    SameLists s (finishAwait (s.suspendIo h a d (some on) cleanup) h on sys) := by
  have hreg : SameLists s (s.registerWait h a d).2 := by
    cases d <;> exact sameLists_withIo s _
  rw [suspendIo]
  generalize s.registerWait h a d = r at hreg
  obtain ⟨res, u⟩ := r
  cases res with
  | ok x =>
    refine hreg.trans (sameLists_installCallback ?_ h (some on))
    rw [hreg.stopped]
    exact htoken
  | error e =>
    exact ((hreg.trans (hclean u)).trans (sameLists_withHeap _ _)).trans
      (sameLists_complete _ h a on sys)

theorem sameLists_awaitSuspend (htoken : ∀ src, a.token = some src → s.stopped src = none)
    (h : Handle) (on : LoopId) (sys : Except Errno ℕ) :
    SameLists s (finishAwait (s.awaitSuspend h a (some on)) h on sys) := by
  have hio : ∀ d, SameLists s (finishAwait (s.suspendIo h a d (some on) id) h on sys) :=
    fun d => sameLists_suspendIo htoken h d on SameLists.refl sys
  rw [awaitSuspend]
  cases a.kind with
  | connect => exact hio .write
  | readReady => exact hio .read
  | writeReady => exact hio .write
  | accept => exact hio .read
  | timedReady d timeout =>
    dsimp only
    split_ifs
    · exact (sameLists_withHeap s _).trans (sameLists_complete _ h a on sys)
    · have hsched := sameLists_scheduleWait s h a timeout .timedOut
      have htok := scheduleWait_token s h a timeout .timedOut
      generalize s.scheduleWait h a timeout .timedOut = r at hsched htok ⊢
      refine hsched.trans (sameLists_suspendIo ?_ h d on (fun u => sameLists_cancelTimer u r.1) sys)
      rw [htok, hsched.stopped]
      exact htoken
  | sleep delay =>
    dsimp only
    split_ifs
    · exact sameLists_complete s h a on sys
    · have hsched := sameLists_scheduleWait s h a delay .ready
      have htok := scheduleWait_token s h a delay .ready
      generalize s.scheduleWait h a delay .ready = r at hsched htok ⊢
      refine hsched.trans (sameLists_installCallback ?_ h (some on))
      rw [htok, hsched.stopped]
      exact htoken

theorem sameLists_await (h : Handle) (on : LoopId) (kind : WaitKind) (fd : ℤ) (cell : StatePtr)
    {token : Option ℕ} (htoken : ∀ src, token = some src → s.stopped src = none)
    (sys : Except Errno ℕ) : SameLists s (s.await h on kind fd cell token sys) := by
  obtain ⟨m, heq, -⟩ := initCells_eq s kind cell
  have hbegin : SameLists s (s.begin h kind cell) := by
    rw [begin, heq]
    exact ⟨rfl, rfl, rfl⟩
  rw [await_eq]
  refine hbegin.trans (sameLists_awaitSuspend ?_ h on sys)
  rw [hbegin.stopped]
  exact htoken

theorem cancelWait_lists (h : Handle) (tls : Option LoopId)
    (hkind : s.heap.state a.cell = .pending → ∀ delay, a.kind ≠ .sleep delay) :
    (s.cancelWait h a tls).timer.wheel.ready = s.timer.wheel.ready ∧
      (tls ≠ some ownerLoop ∨ s.heap.state a.cell ≠ .pending →
        (s.cancelWait h a tls).ready = s.ready) := by
  rw [cancelWait]
  split_ifs with hstate
  · exact ⟨rfl, fun _ => rfl⟩
  · have hkind' := hkind (not_not.mp hstate)
    have hwithdraw : SameLists s
        ((s.withHeap (s.heap.setState a.cell .cancelled)).withdraw a) :=
      ((sameLists_withHeap s _).trans (sameLists_cancelTimer _ a)).trans
        (sameLists_deregisterWait _ a)
    generalize (s.withHeap (s.heap.setState a.cell .cancelled)).withdraw a = v at hwithdraw
    have hsignal : v.signal h a tls = v.notify tls h := by
      rw [signal]
      cases hk : a.kind with
      | sleep delay => exact absurd hk (hkind' delay)
      | _ => rfl
    have hnotify : (v.notify tls h).timer = v.timer ∧
        (tls ≠ some ownerLoop → (v.notify tls h).ready = v.ready) := by
      rw [notify.eq_def]
      cases tls with
      | none => exact ⟨rfl, fun _ => rfl⟩
      | some l =>
        dsimp only
        by_cases hl : l = ownerLoop
        · rw [if_pos hl]
          exact ⟨rfl, fun hne => absurd (congrArg some hl) hne⟩
        · rw [if_neg hl]
          exact ⟨rfl, fun _ => rfl⟩
    rw [hsignal]
    refine ⟨?_, ?_⟩
    · exact (congrArg (fun timer : TimerState => timer.wheel.ready) hnotify.1).trans hwithdraw.wheel
    · intro htls
      exact (hnotify.2 (htls.resolve_right hstate)).trans hwithdraw.ready

end SameLists
end World

namespace EventLoop

def collected : Pc → Bool
  | .resuming => true
  | .cleanup => true
  | .exitCheck => true
  | .exitDrain => true
  | .exitRecheck => true
  | .beforePoll => true
  | _ => false

/-- The step makes no coroutine ready behind the back of `poll`: no coroutine that is being
resumed spawns or notifies, none awaits with a token that is stopped already, no stop callback
ends a sleep, or another wait of this loop while it is `collected`, and the drain before the exit
finds nothing. -/
def Calm (s : EventLoop) : LoopOp → Prop
  | .spawn _ => s.isResuming = false
  | .world (.wake _) => s.isResuming = false
  | .world (.await _ _ _ _ token _) => ∀ src, token = some src → s.world.stopped src = none
  | .world (.callback h) => ∀ a src, s.world.phase h = .waiting a → a.token = some src →
      s.world.heap.state a.cell = .pending → (∀ delay, a.kind ≠ .sleep delay) ∧
        (collected s.pc = true → s.world.stopped src ≠ some (some ownerLoop))
  | .next => s.pc = .exitDrain → s.crossCoreQueue = []
  | _ => True

/-- What is left to resume at each place of `run()`. Behind the batch nothing waits. -/
def Settled (s : EventLoop) : Prop :=
  match s.pc with
  | .resuming => s.world.ready.length = s.batch ∧ s.world.timer.wheel.ready = []
  | .cleanup | .exitCheck | .exitDrain | .exitRecheck | .beforePoll =>
    s.world.ready = [] ∧ s.world.timer.wheel.ready = []
  | .outside _ | .head | .leaving | .polling _ | .drainCrossCore =>
    s.world.timer.wheel.ready = []
  | .drainReactor | .advanceTimer | .drainTimer => True

section Settled
variable {s t : EventLoop}

theorem Settled.of_lists (hs : Settled s) (hpc : t.pc = s.pc) (hbatch : t.batch = s.batch)
    (hready : t.world.ready = s.world.ready ∨ collected s.pc = false)
    (hwheel : t.world.timer.wheel.ready = s.world.timer.wheel.ready) : Settled t := by
  rw [Settled, hpc, hbatch, hwheel]
  rw [Settled] at hs
  cases h : s.pc with
  | resuming | cleanup | exitCheck | exitDrain | exitRecheck | beforePoll =>
    rw [h] at hs hready
    rw [hready.resolve_right (by decide)]
    exact hs
  | outside | head | leaving | polling | drainCrossCore =>
    rw [h] at hs
    exact hs
  | drainReactor | advanceTimer | drainTimer => trivial

theorem world_calm {op : WorldOp} {w : World} (hcalm : s.Calm (.world op))
    (hallow : s.allows op = true) (h : s.world.step op = some w) :
    (w.ready = s.world.ready ∨ collected s.pc = false) ∧
      w.timer.wheel.ready = s.world.timer.wheel.ready := by
  have hsame : World.SameLists s.world w →
      (w.ready = s.world.ready ∨ collected s.pc = false) ∧
        w.timer.wheel.ready = s.world.timer.wheel.ready :=
    fun hl => ⟨Or.inl hl.ready, hl.wheel⟩
  cases op with
  | wake h' =>
    rw [allows, Bool.and_eq_true] at hallow
    exact absurd (hallow.1.symm.trans hcalm) (by decide)
  | park h' =>
    obtain ⟨on, -, rfl⟩ := World.step_park.mp h
    exact ⟨Or.inl rfl, rfl⟩
  | finish h' =>
    obtain ⟨on, -, rfl⟩ := World.step_finish.mp h
    exact ⟨Or.inl rfl, rfl⟩
  | await h' kind fd cell token sys =>
    obtain ⟨on, -, -, rfl⟩ := World.step_await.mp h
    exact hsame (World.sameLists_await h' on kind fd cell hcalm sys)
  | requestStop src tls =>
    obtain ⟨-, rfl⟩ := World.step_requestStop.mp h
    exact ⟨Or.inl rfl, rfl⟩
  | callback h' =>
    obtain ⟨a, src, tls, hw, htok, hst, -, rfl⟩ := World.step_callback.mp h
    have hkind : s.world.heap.state a.cell = .pending → ∀ delay, a.kind ≠ .sleep delay :=
      fun hp => (hcalm a src hw htok hp).1
    have hlists := World.cancelWait_lists h' tls hkind
    refine ⟨?_, hlists.1⟩
    by_cases hp : s.world.heap.state a.cell = .pending
    · by_cases hcol : collected s.pc = true
      · refine Or.inl (hlists.2 (Or.inl ?_))
        rintro rfl
        exact (hcalm a src hw htok hp).2 hcol hst
      · exact Or.inr (Bool.eq_false_iff.mpr hcol)
    · exact Or.inl (hlists.2 (Or.inr hp))
  | resumeForeign sys =>
    obtain ⟨entry, rest, -, rfl⟩ := World.step_resumeForeign.mp h
    have hres := World.sameLists_resume { s.world with foreign := rest } entry.2 entry.1 sys
    exact ⟨Or.inl hres.ready, hres.wheel⟩
  | deregister fd =>
    rw [World.step, Option.some.injEq] at h
    subst h
    exact hsame (World.sameLists_withIo s.world _)
  | remove fd =>
    rw [World.step, Option.some.injEq] at h
    subst h
    exact hsame (World.sameLists_withIo s.world _)
  | kernel k =>
    rw [World.step, Option.some.injEq] at h
    subst h
    exact ⟨Or.inl rfl, rfl⟩
  | poll | tick | advanceTo | drainReactor | drainTimer | resume => cases hallow

theorem Settled.step (hs : Settled s) {op : LoopOp} (hcalm : s.Calm op)
    (h : EventLoop.step s op = some t) : Settled t := by
  cases step_move h with
  | snapshot hpc =>
    rw [Settled, hpc] at hs
    exact ⟨rfl, hs⟩
  | batchDone hpc hbatch =>
    rw [Settled, hpc, hbatch] at hs
    exact ⟨List.eq_nil_of_length_eq_zero hs.1, hs.2⟩
  | exitDrain hpc =>
    rw [Settled, hpc] at hs
    rw [drainCrossCore_eq, hcalm hpc]
    exact hs
  | exitRecheck hpc | beforePoll hpc =>
    rw [Settled, hpc] at hs
    exact hs.2
  | goOn hpc =>
    rw [Settled] at hs
    rcases hpc with hpc | hpc <;> rw [hpc] at hs <;> exact hs
  | drainReactor | advanceTimer | polled => trivial
  | drainTimer _ hw =>
    rw [World.step, Option.some.injEq] at hw
    subst hw
    exact rfl
  | drainCrossCore hpc =>
    rw [Settled, hpc] at hs
    rw [drainCrossCore_eq]
    have htimer := World.foldl_enqueue_timer s.crossCoreQueue s.world
    exact (congrArg (fun timer : TimerState => timer.wheel.ready) htimer).trans hs
  | @resume _ sys _ hpc hbatch hw =>
    obtain ⟨h', rest, hready, rfl⟩ := World.step_resume.mp hw
    have hres := World.sameLists_resume { s.world with ready := rest } h' ownerLoop sys
    rw [Settled, hpc, hready, hbatch] at hs
    rw [Settled, hpc]
    refine ⟨?_, hres.wheel.trans hs.2⟩
    rw [hres.ready]
    exact Nat.succ.inj hs.1
  | pollFailed hpc hw =>
    rw [World.step, Option.some.injEq] at hw
    subst hw
    rw [Settled, hpc] at hs
    exact hs
  | spawn hpc =>
    rcases hpc with ⟨r, hpc⟩ | hpc
    · rw [Settled, hpc] at hs ⊢
      exact hs
    · rw [Calm, isResuming, hpc] at hcalm
      cases hcalm
  | world hallow hw =>
    obtain ⟨hready, hwheel⟩ := world_calm hcalm hallow hw
    exact hs.of_lists rfl rfl hready hwheel
  | push | write | requestStop | ring | elapse => exact hs
  | _ hpc =>
    rw [Settled, hpc] at hs
    exact hs

end Settled

/-- In every run whose steps are `Calm`, both lists are empty when `poll` is called, whatever its
timeout. -/
theorem poll_has_nothing_ready {now : ℤ} {m : Heap} {k : Kernel} {ops : List LoopOp}
    {s : EventLoop} (hr : Reaches now m k ops s)
    (hops : Transition.Guarded step Calm (create now m k) ops) (hpc : s.pc = .beforePoll) :
    s.world.ready = [] ∧ s.world.timer.wheel.ready = [] := by
  have hcreate : Settled (create now m k) := rfl
  have hs : Settled s :=
    Transition.invariant_of_guarded Calm Settled (fun hcalm hstep hs => hs.step hcalm hstep)
      hcreate hops hr
  rw [Settled, hpc] at hs
  exact hs

def spawnThenPoll : List LoopOp :=
  [.spawn 7, .run, .next, .resume (.ok 0), .world (.park 7), .next, .next, .next]

theorem poll_has_nothing_ready_after_spawn : ∃ s,
    Reaches 0 World.blankHeap World.blankKernel spawnThenPoll s ∧ s.pc = .beforePoll ∧
    0 < s.pollTimeout ∧ s.world.ready = [] ∧ s.world.timer.wheel.ready = [] := by
  have hops : Transition.Guarded step Calm (create 0 World.blankHeap World.blankKernel)
      spawnThenPoll := by
    refine ⟨rfl, fun t ht => ?_⟩
    cases ht
    refine ⟨trivial, fun t ht => ?_⟩
    cases ht
    refine ⟨fun h => (by cases h), fun t ht => ?_⟩
    cases ht
    refine ⟨trivial, fun t ht => ?_⟩
    cases ht
    refine ⟨trivial, fun t ht => ?_⟩
    cases ht
    refine ⟨fun h => (by cases h), fun t ht => ?_⟩
    cases ht
    refine ⟨fun h => (by cases h), fun t ht => ?_⟩
    cases ht
    exact ⟨fun h => (by cases h), fun _ _ => trivial⟩
  obtain ⟨s, hr, hpc, htimeout⟩ : ∃ s,
      Reaches 0 World.blankHeap World.blankKernel spawnThenPoll s ∧ s.pc = .beforePoll ∧
      0 < s.pollTimeout := ⟨_, rfl, rfl, by decide⟩
  exact ⟨s, hr, hpc, htimeout, poll_has_nothing_ready hr hops hpc⟩

def spawnWhileResumed : List LoopOp :=
  [.spawn 7, .run, .next, .resume (.ok 0), .spawn 8, .world (.park 7), .next, .next, .next]

theorem poll_blocks_on_spawned_task : ∃ s t,
    Reaches 0 World.blankHeap World.blankKernel spawnWhileResumed s ∧ step s .next = some t ∧
    t.pc = .polling kDefaultPollTimeout ∧ 0 < kDefaultPollTimeout ∧ t.world.ready = [8] :=
  ⟨_, _, rfl, rfl, rfl, by decide, rfl⟩

end EventLoop
end RainRuntime
