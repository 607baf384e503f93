import RainRuntime.WaitOutcome
import RainRuntime.WaitRules

/-!
# Where a stop callback wakes its coroutine

A stop callback runs on the thread that asked for the stop and queues the handle at the
loop it finds in that thread's `g_event_loop`. If every stop comes from the loop's own
thread, nothing ever leaves the loop (`Home`), and a cancelled coroutine is in its queue
exactly once. From any other thread the state moves and the registrations go, but the
handle is not in the loop's queue.
-/

namespace RainRuntime
namespace World

/-- What a step of the loop's own thread can do to the traces of other loops. -/
structure Home (s t : World) : Prop where
  foreign : t.foreign = s.foreign
  running : ∀ h on, t.phase h = .running on → s.phase h = .running on ∨ on = ownerLoop
  stopped : t.stopped = s.stopped
  cancelledOn : ∀ h tls, t.cancelledOn h = some tls →
    s.cancelledOn h = some tls ∨ tls = some ownerLoop

theorem Home.refl (s : World) : Home s s :=
  ⟨rfl, fun _ _ h => Or.inl h, rfl, fun _ _ h => Or.inl h⟩

theorem Home.trans {s t u : World} (h₁ : Home s t) (h₂ : Home t u) : Home s u where
  foreign := h₂.foreign.trans h₁.foreign
  running h on hr := (h₂.running h on hr).elim (h₁.running h on) Or.inr
  stopped := h₂.stopped.trans h₁.stopped
  cancelledOn h tls hc := (h₂.cancelledOn h tls hc).elim (h₁.cancelledOn h tls) Or.inr

theorem Home.of_eq {s t : World} (hf : t.foreign = s.foreign) (hp : t.phase = s.phase)
    (hst : t.stopped = s.stopped) (hc : t.cancelledOn = s.cancelledOn) : Home s t :=
  ⟨hf, fun _ _ h => Or.inl (hp ▸ h), hst, fun _ _ h => Or.inl (hc ▸ h)⟩

theorem Home.of_update {s t : World} {h : Handle} {p : Phase} (hf : t.foreign = s.foreign)
    (hp : t.phase = Function.update s.phase h p) (hrun : ∀ on, p = .running on → on = ownerLoop)
    (hst : t.stopped = s.stopped) (hc : t.cancelledOn = s.cancelledOn) : Home s t := by
  refine ⟨hf, fun k on hk => ?_, hst, fun _ _ h => Or.inl (hc ▸ h)⟩
  rw [hp] at hk
  by_cases hkh : k = h
  · subst hkh
    rw [Function.update_self] at hk
    exact Or.inr (hrun on hk)
  · rw [Function.update_of_ne hkh] at hk
    exact Or.inl hk

theorem signal_home (s : World) (h : Handle) (a : Awaiter) :
    Home s (s.signal h a (some ownerLoop)) := by
  unfold signal
  cases a.kind <;> exact Home.of_eq rfl rfl rfl rfl

theorem mark_home (s : World) (h : Handle) : Home s (s.mark h (some ownerLoop)) := by
  refine ⟨rfl, fun _ _ hr => Or.inl hr, rfl, fun k tls hk => ?_⟩
  by_cases hkh : k = h
  · subst hkh
    simp only [mark, Function.update_self, Option.some.injEq] at hk
    exact Or.inr hk.symm
  · simp only [mark, Function.update_of_ne hkh] at hk
    exact Or.inl hk

theorem unmark_home (s : World) (h : Handle) : Home s { s with
    movers := Function.update s.movers h []
    cancelledOn := Function.update s.cancelledOn h none } := by
  refine ⟨rfl, fun _ _ hr => Or.inl hr, rfl, fun k tls hk => Or.inl ?_⟩
  by_cases hkh : k = h
  · subst hkh
    simp only [Function.update_self, reduceCtorEq] at hk
  · simp only [Function.update_of_ne hkh] at hk
    exact hk

theorem home_rule : Rule Home (some ownerLoop) where
  refl := Home.refl
  trans := Home.trans
  io _ _ := Home.of_eq rfl rfl rfl rfl
  cancel _ _ := Home.of_eq rfl rfl rfl rfl
  schedule _ _ _ _ _ := Home.of_eq rfl rfl rfl rfl
  signal := signal_home
  mark := mark_home
  suspend _ _ a := Home.of_update (p := .waiting a) rfl rfl (by simp) rfl rfl
  go _ _ on _ _ hon := by
    obtain rfl := Option.some.inj hon
    exact Home.of_update (p := .running ownerLoop) rfl rfl (by simp) rfl rfl
  unmark := unmark_home
  run _ _ on hon := by
    obtain rfl := Option.some.inj hon
    exact Home.of_update (p := .running ownerLoop) rfl rfl (by simp) rfl rfl

structure Local (s : World) : Prop where
  foreign : s.foreign = []
  running : ∀ h on, s.phase h = .running on → on = ownerLoop
  stopped : ∀ src tls, s.stopped src = some tls → tls = some ownerLoop
  cancelledOn : ∀ h tls, s.cancelledOn h = some tls → tls = some ownerLoop

theorem Home.local {s t : World} (hh : Home s t) (hs : Local s) : Local t where
  foreign := hh.foreign.trans hs.foreign
  running h on hr := (hh.running h on hr).elim (hs.running h on) id
  stopped := by
    rw [hh.stopped]
    exact hs.stopped
  cancelledOn h tls hc := (hh.cancelledOn h tls hc).elim (hs.cancelledOn h tls) id

def LocalStop : WorldOp → Prop
  | .requestStop _ tls => tls = some ownerLoop
  | _ => True

theorem step_local {s t : World} {op : WorldOp} (hop : LocalStop op) (hstep : step s op = some t)
    (hs : Local s) : Local t := by
  cases op with
  | wake h =>
    obtain ⟨-, rfl⟩ := step_wake.mp hstep
    refine Home.local (s := s) ?_ hs
    exact Home.of_update (h := h) (p := .queued) rfl rfl (by simp) rfl rfl
  | park h =>
    obtain ⟨on, -, rfl⟩ := step_park.mp hstep
    refine Home.local (s := s) ?_ hs
    exact Home.of_update (h := h) (p := .idle) rfl rfl (by simp) rfl rfl
  | finish h =>
    obtain ⟨on, -, rfl⟩ := step_finish.mp hstep
    refine Home.local (s := s) ?_ hs
    exact Home.of_update (h := h) (p := .finished) rfl rfl (by simp) rfl rfl
  | await h kind fd cell token sys =>
    obtain ⟨on, hph, -, rfl⟩ := step_await.mp hstep
    obtain rfl := hs.running h on hph
    exact (home_rule.await s h kind fd cell token sys).local hs
  | resume sys =>
    obtain ⟨h, rest, -, rfl⟩ := step_resume.mp hstep
    have hpop : Home s { s with ready := rest } := Home.of_eq rfl rfl rfl rfl
    exact (hpop.trans (home_rule.resume _ h sys)).local hs
  | resumeForeign sys =>
    obtain ⟨entry, rest, hr, -⟩ := step_resumeForeign.mp hstep
    rw [hs.foreign] at hr
    cases hr
  | requestStop src tls =>
    obtain ⟨-, rfl⟩ := step_requestStop.mp hstep
    refine ⟨hs.foreign, hs.running, fun src' tls' h => ?_, hs.cancelledOn⟩
    by_cases hsrc : src' = src
    · subst hsrc
      simp only [Function.update_self, Option.some.injEq] at h
      exact h ▸ hop
    · simp only [Function.update_of_ne hsrc] at h
      exact hs.stopped src' tls' h
  | callback h =>
    obtain ⟨a, src, tls, hw, -, hst, -, rfl⟩ := step_callback.mp hstep
    obtain rfl := hs.stopped src tls hst
    have hset : Home (s.cancelWait h a (some ownerLoop)) ((s.cancelWait h a
        (some ownerLoop)).setPhase h (.waiting { a with callback := false })) :=
      Home.of_update (p := .waiting { a with callback := false }) rfl rfl (by simp) rfl rfl
    exact ((home_rule.cancelWait s h a).trans hset).local hs
  | _ =>
    rw [step, Option.some.injEq] at hstep
    subst hstep
    refine Home.local (s := s) ?_ hs
    exact Home.of_eq rfl rfl rfl rfl

theorem Reaches.local {now : ℤ} {m : Heap} {k : Kernel} {ops : List WorldOp} {s : World}
    (hr : Reaches now m k ops s) (hops : ∀ op ∈ ops, LocalStop op) : Local s := by
  have hfresh : Local (fresh now m k) := ⟨rfl, by simp [fresh], by simp [fresh], by simp [fresh]⟩
  induction ops using List.reverseRecOn generalizing s with
  | nil =>
    rw [Reaches, Transition.run_nil, Option.some.injEq] at hr
    exact hr ▸ hfresh
  | append_singleton ops op ih =>
    obtain ⟨t, ht, hstep⟩ := Transition.run_concat_eq_some.mp hr
    have hlocal := ih ht fun o ho => hops o (List.mem_append_left _ ho)
    exact step_local (hops op (by simp)) hstep hlocal

theorem Inv.cancelled_lines {s : World} (hs : Inv s) {h : Handle} {a : Awaiter}
    (hw : s.phase h = .waiting a) (hdir : a.kind.direction.isSome)
    (hc : s.heap.state a.cell = .cancelled) :
    ∃ tls, s.cancelledOn h = some tls ∧ (s.lines h = (0, 0, 1, 0) ↔ tls = some ownerLoop) := by
  obtain ⟨tls, hon, hreactor, hwheel, hready⟩ := hs.cancels h a hw hdir hc
  refine ⟨tls, hon, ?_⟩
  have hq := hs.owned.queue h
  simp only [QueueOk, hw, enqueued] at hq
  by_cases htls : tls = some ownerLoop
  · rw [if_pos htls] at hready
    refine iff_of_true ?_ htls
    ext <;> simp only <;> omega
  · rw [if_neg htls] at hready
    refine iff_of_false (fun hl => ?_) htls
    rw [hl] at hready
    cases hready

/-- A stop cancels every pending wait on a descriptor. The coroutine is put into the ready queue,
once, exactly if the stop came from a thread on which its own loop runs. -/
theorem cancelled_wait_queued_iff {now : ℤ} {m : Heap} {k : Kernel} {ops : List WorldOp}
    {s : World} (hr : Reaches now m k ops s) :
    (∀ h a src tls, s.phase h = .waiting a → a.kind.direction.isSome → a.token = some src →
      s.stopped src = some tls → a.callback = true → s.heap.state a.cell = .pending →
      ∃ s', step s (.callback h) = some s' ∧ s'.heap.state a.cell = .cancelled ∧
        s.lines h = (0, 0, 0, 0) ∧ (s'.lines h = (0, 0, 1, 0) ↔ tls = some ownerLoop)) ∧
    (∀ h a, s.phase h = .waiting a → a.kind.direction.isSome →
      s.heap.state a.cell = .cancelled →
      (s.lines h = (0, 0, 1, 0) ↔ s.cancelledOn h = some (some ownerLoop))) ∧
    ((∀ op ∈ ops, LocalStop op) → ∀ h a, s.phase h = .waiting a → a.kind.direction.isSome →
      s.heap.state a.cell = .cancelled → s.lines h = (0, 0, 1, 0)) := by
  have hs := hr.inv
  refine ⟨fun h a src tls hw hdir htok hst hcb hp => ?_, fun h a hw hdir hc => ?_,
    fun hops h a hw hdir hc => ?_⟩
  · have hmove := cancelWait_move hs.owned hw hp tls
    obtain ⟨-, hcan⟩ := cancelWait_ghosts h tls hp
    have hw' : (s.cancelWait h a tls).phase h = .waiting a := by rw [hmove.phase, hw]
    obtain ⟨tls', hon, hiff⟩ := (hs.cancelWait hw tls).cancelled_lines hw' hdir hmove.state_self
    rw [hcan, Function.update_self, Option.some.injEq] at hon
    subst hon
    exact ⟨_, step_callback.mpr ⟨a, src, tls, hw, htok, hst, hcb, rfl⟩, hmove.state_self,
      lines_eq_zero (hs.owned.enqueued_eq_zero hw hp), hiff⟩
  · obtain ⟨tls, hon, hiff⟩ := hs.cancelled_lines hw hdir hc
    rw [hiff, hon, Option.some.injEq]
  · obtain ⟨tls, hon, hiff⟩ := hs.cancelled_lines hw hdir hc
    exact hiff.mpr ((hr.local hops).cancelledOn h tls hon)

def stoppedAccept (tls : Option LoopId) : List WorldOp :=
  [.wake 0, .resume (.ok 0), .await 0 .accept 3 0 (some 0) (.ok 0), .requestStop 0 tls,
    .callback 0]

/-- From a thread without a loop the wait is cancelled and taken out of the reactor, and the
coroutine is queued nowhere. -/
theorem stop_without_loop_loses_wakeup : ∃ s,
    Reaches 0 blankHeap blankKernel (stoppedAccept none) s ∧
    s.phase 0 = .waiting ⟨.accept, 3, 0, some 0, 0, false⟩ ∧ s.heap.state 0 = .cancelled ∧
    (s.reactor.slotAt 3).get .read = none ∧ s.lines 0 = (0, 0, 0, 0) :=
  ⟨_, rfl, rfl, rfl, rfl, rfl⟩

theorem cancelled_wait_queued_iff_on_own_thread : ∃ s,
    Reaches 0 blankHeap blankKernel (stoppedAccept (some ownerLoop)) s ∧
    s.phase 0 = .waiting ⟨.accept, 3, 0, some 0, 0, false⟩ ∧ s.heap.state 0 = .cancelled ∧
    s.lines 0 = (0, 0, 1, 0) := by
  obtain ⟨s, hr, hw, hc⟩ : ∃ s, Reaches 0 blankHeap blankKernel (stoppedAccept (some ownerLoop)) s ∧
      s.phase 0 = .waiting ⟨.accept, 3, 0, some 0, 0, false⟩ ∧ s.heap.state 0 = .cancelled :=
    ⟨_, rfl, rfl, rfl⟩
  have hlocal : ∀ op ∈ stoppedAccept (some ownerLoop), LocalStop op := by
    simp [stoppedAccept, LocalStop]
  exact ⟨s, hr, hw, hc, (cancelled_wait_queued_iff hr).2.2 hlocal 0 _ hw rfl hc⟩

end World
end RainRuntime
