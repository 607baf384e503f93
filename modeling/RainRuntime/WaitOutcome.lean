import RainRuntime.WaitRuns

/-!
# One completion for each wait

What the invariant of the waiting coroutines comes to. A suspended coroutine is queued
once, after the one contender that moved its state; it is resumed with the outcome of
that contender, and nothing in the reactor or the wheel points to its awaiter any more.
The wheel is where the limits of the packed ids show: an index beyond `2 ^ 24` leads
`cancel` to another timer.
-/

namespace RainRuntime
namespace World
open HierarchicalTimerWheel

def outcomeOf (kind : WaitKind) (c : Contender) (sys : Except Errno ℕ) : Result ℕ :=
  match c, kind with
  | .cancellation, _ => .error kind.cancelledError
  | .timer, .timedReady d _ => .error (WaitKind.timeoutError d)
  | .timer, _ => .ok 0
  | .readiness, _ => kind.whenReady sys

def SlotPoints (s : World) (q : StatePtr) : Prop :=
  ∃ i d e, (s.reactor.slotAt i).get d = some e ∧ (e.state = some q ∨ e.result = some q)

def TimerPoints (s : World) (q : StatePtr) : Prop :=
  ∃ i g e, s.timer.wheel.slotmap.get? i g = some e ∧ e.state = some q

section Outcome
variable {s t u : World} {h : Handle} {a : Awaiter} {on : LoopId}

theorem awaitResume_outcome (hs : Inv s) (hw : s.phase h = .waiting a) (hp : Popped s u h)
    {c : Contender} (hc : a.kind.movesTo c = some (s.heap.state a.cell)) (sys : Except Errno ℕ) :
    (u.awaitResume a sys).1 = outcomeOf a.kind c sys := by
  have hheap := hp.heap
  have hresult := hs.owned.result h a hw
  unfold awaitResume
  rw [hheap]
  cases c with
  | cancellation =>
    rw [WaitKind.movesTo, Option.some.injEq] at hc
    cases hk : a.kind <;> simp only [← hc, if_true, outcomeOf]
  | timer =>
    cases hk : a.kind <;> simp only [hk, WaitKind.movesTo, WaitKind.timerCompletion,
      Option.some.injEq, reduceCtorEq] at hc <;>
      simp only [← hc, reduceCtorEq, if_true, if_false, outcomeOf]
  | readiness =>
    have hdir : a.kind.direction.isSome := by
      cases hd : a.kind.direction with
      | none => simp [WaitKind.movesTo, hd] at hc
      | some d => rfl
    have hready : s.heap.state a.cell = .ready := by
      obtain ⟨d, hd⟩ := Option.isSome_iff_exists.mp hdir
      simp only [WaitKind.movesTo, hd, Option.map_some, Option.some.injEq] at hc
      exact hc.symm
    have hok := hresult hdir hready
    cases hk : a.kind <;> simp only [hk, WaitKind.direction, Option.isSome_none,
      Bool.false_eq_true] at hdir <;>
      simp only [hready, hok, reduceCtorEq, if_false, outcomeOf]

theorem entryAt_of_bounded (hb : Bounded s.timer.wheel.slotmap) {i g : ℕ} {e : TimerEntry}
    (he : s.timer.wheel.slotmap.get? i g = some e) : s.entryAt (encodeId i g) = some e := by
  have hi : i < 2 ^ 24 := lt_of_lt_of_le (Slotmap.lt_length_of_get? he) hb.1
  have hg : g < 2 ^ 40 := Slotmap.generation_of_get? he ▸ hb.generation_lt i
  rw [entryAt_eq (encodeId_lt i g), lookup, idIndex_encodeId hi hg, idGen_encodeId hi hg]
  exact he

/-- Nothing points to the awaiter that was left. -/
theorem Leave.unpointed {p : Phase} (hl : Leave s t h p) (hs : Owned s)
    (hw : s.phase h = .waiting a) :
    ¬SlotPoints t a.cell ∧ (Bounded t.timer.wheel.slotmap → ¬TimerPoints t a.cell) := by
  have ht := hl.owned hs
  -- whoever owns the entry still waits, so it is another coroutine in another cell
  have hother : ∀ k b, t.phase k = .waiting b → b.cell ≠ a.cell := by
    intro k b hb hcell
    obtain ⟨hk, hb⟩ := hl.waiting hb
    exact hk (hs.unique hb hw hcell).1
  constructor
  · rintro ⟨i, d, e, he, hpoints⟩
    obtain ⟨k, b, hb, rfl, -⟩ := ht.slot i d e he
    apply hother k b hb
    rcases hpoints with hq | hq <;> exact Option.some.inj hq
  · rintro hbound ⟨i, g, e, he, hq⟩
    obtain ⟨k, b, hb, -, hcell, -⟩ := ht.entry _ e (entryAt_of_bounded hbound he)
    exact hother k b hb (Option.some.inj (hcell.symm.trans hq))

end Outcome

/-- A suspended wait is completed at most once, by one of its sources. The coroutine is queued at
most once and resumed with that source's outcome, and then neither the reactor nor the wheel
points to its awaiter. -/
theorem suspended_wait_completes_once {now : ℤ} {m : Heap} {k : Kernel} {ops : List WorldOp}
    {s : World} (hr : Reaches now m k ops s) :
    (∀ h a, s.phase h = .waiting a → s.enqueued h ≤ 1 ∧ (s.movers h).length ≤ 1 ∧
      (s.movers h = [] ↔ s.heap.state a.cell = .pending) ∧
      (0 < s.enqueued h → s.heap.state a.cell ≠ .pending)) ∧
    ∀ op s', step s op = some s' → ∀ h a, s.phase h = .waiting a →
      (∃ b, s'.phase h = .waiting b ∧ b.kind = a.kind ∧ b.cell = a.cell ∧
        s.enqueued h ≤ s'.enqueued h ∧
        (s.heap.state a.cell ≠ .pending → s'.heap.state a.cell = s.heap.state a.cell)) ∨
      ∃ on c sys, (op = .resume sys ∨ op = .resumeForeign sys) ∧ s'.phase h = .running on ∧
        s.movers h = [c] ∧ s'.outcome h = some (outcomeOf a.kind c sys) ∧
        ¬SlotPoints s' a.cell ∧ (Bounded s'.timer.wheel.slotmap → ¬TimerPoints s' a.cell) := by
  have hs := hr.inv
  constructor
  · intro h a hw
    have hq := hs.owned.queue h
    simp only [QueueOk, hw] at hq
    refine ⟨hq.1, ?_, ?_, fun hpos hpend => ?_⟩
    · rcases hs.movers h a hw with ⟨hnil, -⟩ | ⟨c, hc, -⟩
      · simp [hnil]
      · simp [hc]
    · rcases hs.movers h a hw with ⟨hnil, hpend⟩ | ⟨c, hc, hmoves⟩
      · simp [hnil, hpend]
      · simp [hc, movesTo_ne_pending hmoves]
    · have hz := hq.2 hpend
      omega
  · intro op s' hstep h a hw
    rcases (step_spec hs hstep).waits h a hw with hkept | ⟨u, on, sys, hop, hp, rfl⟩
    · obtain ⟨b, hb, hkind, hcell⟩ := hkept.waiting
      exact Or.inl ⟨b, hb, hkind, hcell, hkept.queued, hkept.moved⟩
    · right
      obtain ⟨-, -, c, hc, hmoves⟩ := hp.moved hs hw
      have hleave : Leave s (u.complete h a on sys) h (.running on) := hp.leave hs hw sys
      obtain ⟨hslot, htimer⟩ := hleave.unpointed hs.owned hw
      refine ⟨on, c, sys, hop, ?_, hc, ?_, hslot, htimer⟩
      · rw [hleave.phase, Function.update_self]
      · rw [← awaitResume_outcome hs hw hp hmoves sys]
        exact Function.update_self _ _ _

def blankHeap : Heap := ⟨fun _ => .pending, fun _ => .ok 0, fun _ => false⟩

def blankKernel : Kernel := ⟨fun _ => true, fun _ => none, fun _ => none⟩

def readThenPolled : List WorldOp :=
  [.wake 0, .resume (.ok 0), .await 0 (.timedReady .read 5000000) 3 0 none (.ok 0),
    .poll (.reported [(3, epollIn)]), .drainReactor]

theorem suspended_wait_completes_once_on_read : ∃ s s',
    Reaches 0 blankHeap blankKernel readThenPolled s ∧ s.enqueued 0 = 1 ∧
    step s (.resume (.ok 0)) = some s' ∧ ¬SlotPoints s' 0 ∧ ¬TimerPoints s' 0 := by
  obtain ⟨s, s', hr, hw, hq, hstep, hrun, hb⟩ : ∃ s s',
      Reaches 0 blankHeap blankKernel readThenPolled s ∧
      s.phase 0 = .waiting ⟨.timedReady .read 5000000, 3, 0, none, encodeId 0 1, false⟩ ∧
      s.enqueued 0 = 1 ∧ step s (.resume (.ok 0)) = some s' ∧ s'.phase 0 = .running ownerLoop ∧
      Bounded s'.timer.wheel.slotmap :=
    ⟨_, _, rfl, rfl, rfl, rfl, rfl, by decide⟩
  rcases (suspended_wait_completes_once hr).2 _ s' hstep 0 _ hw with
    ⟨b, hb', -⟩ | ⟨on, c, sys, -, -, -, -, hslot, htimer⟩
  · rw [hrun] at hb'
    cases hb'
  · exact ⟨s, s', hr, hq, hstep, hslot, htimer hb⟩

section Crowd
variable {s : World} {n : ℕ}

theorem installCallback_of_unstopped {w : World} (hst : ∀ src, w.stopped src = none) (h : Handle)
    {a : Awaiter} (ha : a.callback = false) (tls : Option LoopId) :
    w.installCallback h a tls = w.suspend h { a with callback := a.token.isSome } := by
  cases a with
  | mk kind fd cell token timerId callback =>
    cases ha
    cases token with
    | none => rfl
    | some src => simp only [installCallback, hst src, Option.isSome_some]

theorem await_sleep (s : World) (h : Handle) (on : LoopId) {delay : ℤ} (hpos : 0 < delay) (fd : ℤ)
    (cell : StatePtr) (token : Option ℕ) (sys : Except Errno ℕ)
    (hst : ∀ src, s.stopped src = none) :
    (s.await h on (.sleep delay) fd cell token sys).phase = Function.update s.phase h
      (.waiting ⟨.sleep delay, fd, cell, token, s.timer.wheel.nextId, token.isSome⟩) ∧
    (s.await h on (.sleep delay) fd cell token sys).cells = Function.update s.cells cell (some h) ∧
    (s.await h on (.sleep delay) fd cell token sys).timer =
      ({ s.timer with heap := s.heap.setState cell .pending } : TimerState).scheduleAt
        (s.timer.wheel.currentTime + delay) (some h) (some cell) .ready ∧
    (s.await h on (.sleep delay) fd cell token sys).ready = s.ready ∧
    (s.await h on (.sleep delay) fd cell token sys).stopped = s.stopped := by
  rw [await_eq]
  unfold awaitSuspend
  dsimp only
  rw [if_neg (by omega), scheduleWait_fst, scheduleWait_snd]
  generalize hid : (s.begin h (.sleep delay) cell).timer.wheel.nextId = id
  have hid' : s.timer.wheel.nextId = id := hid
  rw [hid']
  have hinst := installCallback_of_unstopped (w := { s.begin h (.sleep delay) cell with
    timer := (s.begin h (.sleep delay) cell).timer.scheduleAt
      ((s.begin h (.sleep delay) cell).timer.wheel.currentTime + delay) (some h) (some cell)
      .ready }) hst h (a := ⟨.sleep delay, fd, cell, token, id, false⟩) rfl (some on)
  simp only [finishAwait, hinst]
  exact ⟨rfl, rfl, rfl, rfl, rfl⟩

structure Crowd (s : World) (n : ℕ) : Prop where
  length : s.timer.wheel.slotmap.slots.length = n
  noFree : s.timer.wheel.slotmap.freeIndices = []
  unfired : s.timer.wheel.ready = []
  ready : s.ready = []
  idle : ∀ h, n ≤ h → s.phase h = .idle
  cells : ∀ q, n ≤ q → s.cells q = none
  alive : ∀ h, s.heap.done h = false
  unstopped : ∀ src, s.stopped src = none

def toBed (h : Handle) (token : Option ℕ) : List WorldOp :=
  [.wake h, .resume (.ok 0), .await h (.sleep 1) 0 h token (.ok 0)]

theorem nextIndex_of_noFree {m : Slotmap TimerEntry} (hm : m.freeIndices = []) :
    m.nextIndex = m.slots.length ∧ m.nextGeneration = 1 := by
  have hindex : m.nextIndex = m.slots.length := by simp [Slotmap.nextIndex, hm]
  refine ⟨hindex, ?_⟩
  rw [Slotmap.nextGeneration, Slotmap.generation, hindex, List.getElem?_eq_none (le_refl _)]

theorem resume_of_queued {h : Handle} (hd : s.heap.done h = false) (hq : s.phase h = .queued)
    (on : LoopId) (sys : Except Errno ℕ) : s.resume h on sys = s.setPhase h (.running on) := by
  unfold World.resume
  rw [if_neg (by simp [hd]), hq]

theorem start {h : Handle} (hi : s.phase h = .idle) (hr : s.ready = [])
    (hd : s.heap.done h = false) :
    ∃ t, Transition.run step s [.wake h, .resume (.ok 0)] = some t ∧ t.timer = s.timer ∧
      t.cells = s.cells ∧ t.phase = Function.update s.phase h (.running ownerLoop) ∧ t.ready = [] ∧
      t.stopped = s.stopped := by
  set q : World := { s.setPhase h .queued with ready := [h] } with hq
  have hwake : step s (.wake h) = some q := by
    simp only [step, hi, hq, hr, List.nil_append]
  have hresume : step q (.resume (.ok 0)) =
      some (({ q with ready := [] } : World).setPhase h (.running ownerLoop)) := by
    have hr : q.ready = h :: [] := rfl
    refine step_resume.mpr ⟨h, [], hr, ?_⟩
    rw [resume_of_queued (s := { q with ready := [] }) hd (Function.update_self _ _ _)]
  refine ⟨({ q with ready := [] } : World).setPhase h (.running ownerLoop), ?_, rfl, rfl, ?_, rfl,
    rfl⟩
  · rw [Transition.run_cons_eq_some]
    refine ⟨q, hwake, ?_⟩
    rw [Transition.run_cons_eq_some]
    exact ⟨_, hresume, rfl⟩
  · exact Function.update_idem _ _ _

theorem Crowd.toBed (hc : Crowd s n) (token : Option ℕ) :
    ∃ t, Transition.run step s (toBed n token) = some t ∧ Crowd t (n + 1) ∧
      t.phase n = .waiting ⟨.sleep 1, 0, n, token, encodeId n 1, token.isSome⟩ ∧
      t.heap.state n = .pending ∧
      ∃ e, t.timer.wheel.slotmap.get? n 1 = some e ∧ e.state = some n := by
  obtain ⟨hindex, hgen⟩ := nextIndex_of_noFree hc.noFree
  obtain ⟨w, hrun, htimer, hcells, hphase, hready, hstopped⟩ :=
    start (hc.idle n (le_refl n)) hc.ready (hc.alive n)
  have hawait : step w (.await n (.sleep 1) 0 n token (.ok 0)) =
      some (w.await n ownerLoop (.sleep 1) 0 n token (.ok 0)) := by
    simp only [step, hphase, Function.update_self, hcells, hc.cells n (le_refl n), if_true]
  obtain ⟨hphase', hcells', htimer', hready', hstopped'⟩ :=
    await_sleep w n ownerLoop (by omega : (0 : ℤ) < 1) 0 n token (.ok 0) (hstopped ▸ hc.unstopped)
  have hid : w.timer.wheel.nextId = encodeId n 1 := by
    rw [htimer, nextId, hindex, hgen, hc.length]
  generalize w.await n ownerLoop (.sleep 1) 0 n token (.ok 0) = t at *
  have hmap : t.timer.wheel.slotmap = s.timer.wheel.slotmap.insert
      fun i g => ⟨encodeId i g, s.timer.wheel.currentTime + 1, some n, some n, .ready⟩ := by
    rw [htimer', TimerState.scheduleAt_slotmap, htimer]
    rfl
  have hother : ∀ h, h ≠ n → t.phase h = s.phase h := by
    intro h hh
    rw [hphase', hphase, Function.update_of_ne hh, Function.update_of_ne hh]
  refine ⟨t, ?_, ?_, ?_, ?_, ?_⟩
  · exact Transition.run_concat_eq_some.mpr ⟨w, hrun, hawait⟩
  · constructor
    case length =>
      rw [hmap]
      simp [Slotmap.insert, Slotmap.store, hindex, hc.length]
    case noFree =>
      rw [hmap]
      exact congrArg List.tail hc.noFree
    case unfired =>
      rw [htimer', htimer]
      exact ((frame_place _ _ _).ready).trans hc.unfired
    case ready => rw [hready', hready]
    case idle =>
      intro h hh
      rw [hother h (by omega), hc.idle h (by omega)]
    case cells =>
      intro q hq
      rw [hcells', Function.update_of_ne (Nat.ne_of_gt hq), hcells, hc.cells q (Nat.le_of_lt hq)]
    case alive =>
      intro h
      have hh : t.heap = w.heap.setState n .pending := by rw [heap, htimer']; rfl
      rw [hh, heap, htimer]
      exact hc.alive h
    case unstopped =>
      rw [hstopped', hstopped]
      exact hc.unstopped
  · rw [hphase', Function.update_self, hid]
  · have hh : t.heap = w.heap.setState n .pending := by rw [heap, htimer']; rfl
    rw [hh]
    exact Heap.setState_state_self _ _ _
  · refine ⟨⟨encodeId n 1, s.timer.wheel.currentTime + 1, some n, some n, .ready⟩, ?_, rfl⟩
    rw [hmap, Slotmap.get?_insert, hindex, hgen, hc.length, if_pos ⟨rfl, rfl⟩]

def bedtime (n : ℕ) : List WorldOp := (List.range n).flatMap fun h => toBed h none

theorem crowd_bedtime (now : ℤ) (k : Kernel) (n : ℕ) :
    ∃ s, Reaches now blankHeap k (bedtime n) s ∧ Crowd s n := by
  induction n with
  | zero =>
    refine ⟨_, rfl, rfl, rfl, rfl, rfl, ?_, ?_, ?_, ?_⟩ <;> intros <;> rfl
  | succ n ih =>
    obtain ⟨s, hs, hc⟩ := ih
    obtain ⟨t, hrun, ht, -⟩ := hc.toBed none
    refine ⟨t, ?_, ht⟩
    rw [Reaches, bedtime, List.range_succ, List.flatMap_append, Transition.run_append_eq_some]
    exact ⟨s, hs, by simpa using hrun⟩

theorem cancelWait_sleep {h : Handle} {a : Awaiter} {delay : ℤ} (hk : a.kind = .sleep delay)
    (hp : s.heap.state a.cell = .pending) (tls : Option LoopId) :
    (s.cancelWait h a tls).timer.wheel.slotmap = (s.timer.wheel.release a.timerId).slotmap ∧
    (s.cancelWait h a tls).timer.wheel.ready = s.timer.wheel.ready ++ [h] ∧
    (s.cancelWait h a tls).ready = s.ready ∧ (s.cancelWait h a tls).heap.done = s.heap.done := by
  obtain ⟨hheap, hready, -, hmap⟩ := timer_cancel_spec
    { s.timer with heap := s.heap.setState a.cell .cancelled } a.timerId
  rw [cancelWait_of_pending hp]
  simp only [withdraw, cancelTimer, deregisterWait, signal, mark, hk, WaitKind.direction,
    WaitKind.timerCompletion, withHeap]
  refine ⟨hmap, ?_, trivial, ?_⟩
  · exact congrArg (· ++ [h]) hready
  · have hdone := congrArg Heap.done hheap
    exact hdone

theorem awaitResume_sleep {a : Awaiter} {delay : ℤ} (hk : a.kind = .sleep delay)
    (sys : Except Errno ℕ) : (s.awaitResume a sys).2 = s := by
  unfold awaitResume
  rw [hk]
  dsimp only
  split_ifs <;> rfl

/-- With `2 ^ 24` timers in use the next sleeper gets an id that leads to the first one. Its
stop callback ends that timer, and its own keeps a pointer to the awaiter that is gone. -/
theorem timer_points_to_left_awaiter : ∃ (ops : List WorldOp) (s s' : World) (h : Handle)
    (a : Awaiter) (on : LoopId),
    Reaches 0 blankHeap blankKernel ops s ∧ s.phase h = .waiting a ∧
      step s (.resume (.ok 0)) = some s' ∧ s'.phase h = .running on ∧
    TimerPoints s' a.cell := by
  obtain ⟨s, hs, hc⟩ := crowd_bedtime 0 blankKernel (2 ^ 24)
  obtain ⟨t, hrun, ht, hw, hp, e, he, hcell⟩ := hc.toBed (some 0)
  have hwrong : idIndex (encodeId (2 ^ 24) 1) ≠ 2 ^ 24 := by decide
  generalize (2 ^ 24 : ℕ) = n at *
  set a : Awaiter := ⟨.sleep 1, 0, n, some 0, encodeId n 1, true⟩ with ha
  set t₁ : World := { t with stopped := Function.update t.stopped 0 (some (some ownerLoop)) }
    with ht₁
  have hstop : step t (.requestStop 0 (some ownerLoop)) = some t₁ := by
    simp only [step, ht.unstopped 0, ht₁]
  have hstopped : t₁.stopped 0 = some (some ownerLoop) := by
    simp only [ht₁, Function.update_self]
  obtain ⟨hmap, hfired, hready, hdone⟩ := cancelWait_sleep (s := t₁) (h := n) (a := a) rfl hp
    (some ownerLoop)
  set t₂ := (t₁.cancelWait n a (some ownerLoop)).setPhase n (.waiting { a with callback := false })
    with ht₂
  have hcallback : step t₁ (.callback n) = some t₂ :=
    step_callback.mpr ⟨a, 0, some ownerLoop, hw, rfl, hstopped, rfl, rfl⟩
  set t₃ : World := { t₂ with
    ready := t₂.ready ++ t₂.timer.wheel.ready
    timer := { t₂.timer with wheel := t₂.timer.wheel.drainReady.2 } } with ht₃
  have hqueue : t₃.ready = n :: [] := by
    have h₁ : t₂.ready = [] := hready.trans ht.ready
    have h₂ : t₂.timer.wheel.ready = [n] := hfired.trans (by rw [ht₁, ht.unfired]; rfl)
    rw [ht₃, h₁, h₂]
    rfl
  have hwait : t₃.phase n = .waiting { a with callback := false } := Function.update_self _ _ _
  have halive : t₃.heap.done n = false := (congrFun hdone n).trans (ht.alive n)
  set u : World := { t₃ with ready := [] } with hu
  have hcomplete : u.resume n ownerLoop (.ok 0) =
      u.complete n { a with callback := false } ownerLoop (.ok 0) := by
    unfold World.resume
    rw [if_neg (by rw [show u.heap.done n = false from halive]; simp),
      show u.phase n = .waiting { a with callback := false } from hwait]
  refine ⟨bedtime n ++ toBed n (some 0) ++ [.requestStop 0 (some ownerLoop), .callback n,
    .drainTimer], t₃, u.complete n { a with callback := false } ownerLoop (.ok 0), n,
    { a with callback := false }, ownerLoop, ?_, hwait, ?_, Function.update_self _ _ _, ?_⟩
  · refine Transition.run_append_eq_some.mpr
      ⟨t, Transition.run_append_eq_some.mpr ⟨s, hs, hrun⟩, ?_⟩
    simp only [Transition.run_cons_eq_some]
    exact ⟨t₁, hstop, t₂, hcallback, t₃, rfl, rfl⟩
  · exact step_resume.mpr ⟨n, [], hqueue, hcomplete⟩
  · refine ⟨n, 1, e, ?_, hcell⟩
    have hsame : (u.complete n { a with callback := false } ownerLoop (.ok 0)).timer.wheel.slotmap =
        (t₁.cancelWait n a (some ownerLoop)).timer.wheel.slotmap := by
      have hres := congrArg (fun v : World => v.timer.wheel.slotmap) (awaitResume_sleep (s := u)
        (a := { a with callback := false }) rfl (.ok 0))
      exact hres
    rw [hsame, hmap, release, Slotmap.get?_erase, if_neg (fun hne => hwrong hne.1.symm)]
    exact he

end Crowd
end World
end RainRuntime
