import RainRuntime.WaitSteps

/-!
# Every step of the world

An await, whether it suspends or not, a resumption, a stop callback and the loop's drains
keep the invariant of `WaitSteps`; with the batches of polls and ticks it then holds in
every state that a run reaches.
-/

namespace RainRuntime
namespace World
open HierarchicalTimerWheel

section Running
variable {s : World} {h : Handle} {on : LoopId}

theorem not_waiting (hr : s.phase h = .running on) (b : Awaiter) : s.phase h ≠ .waiting b := by
  rw [hr]
  simp

theorem Owned.slot_handle_ne (hs : Owned s) (hn : ∀ b, s.phase h ≠ .waiting b) {i : ℕ}
    {d : Direction} {e : PendingEntry} (he : (s.reactor.slotAt i).get d = some e) :
    e.handle ≠ some h := by
  obtain ⟨k, b, hb, rfl, -⟩ := hs.slot i d e he
  intro hk
  exact hn b (Option.some.inj hk ▸ hb)

theorem Owned.entry_handle_ne (hs : Owned s) (hn : ∀ b, s.phase h ≠ .waiting b) {id : TimerId}
    {e : TimerEntry} (he : s.entryAt id = some e) : e.handle ≠ some h := by
  obtain ⟨k, b, hb, hhandle, -⟩ := hs.entry id e he
  intro hk
  rw [hhandle, Option.some.injEq] at hk
  exact hn b (hk ▸ hb)

theorem Owned.enqueued_of_running (hs : Owned s) (hr : s.phase h = .running on) :
    s.enqueued h = 0 := by
  have hq := hs.queue h
  simp only [QueueOk, hr] at hq
  exact hq

theorem queueOk_of_running (hr : s.phase h = .running on) (hz : s.enqueued h = 0) :
    s.QueueOk h := by
  simp only [QueueOk, hr]
  exact hz

structure AgreeOff (q : StatePtr) (m m' : Heap) : Prop where
  state : ∀ p, p ≠ q → m'.state p = m.state p
  result : ∀ p, p ≠ q → m'.result p = m.result p
  done : m'.done = m.done

theorem AgreeOff.refl (q : StatePtr) (m : Heap) : AgreeOff q m m :=
  ⟨fun _ _ => rfl, fun _ _ => rfl, rfl⟩

theorem AgreeOff.setState {q : StatePtr} {m m' : Heap} (hm : AgreeOff q m m') (x : WaitState) :
    AgreeOff q m (m'.setState q x) :=
  ⟨fun p hp => (Function.update_of_ne hp _ _).trans (hm.state p hp), hm.result, hm.done⟩

theorem AgreeOff.setResult {q : StatePtr} {m m' : Heap} (hm : AgreeOff q m m') (r : Result ℕ) :
    AgreeOff q m (m'.setResult q r) :=
  ⟨hm.state, fun p hp => (Function.update_of_ne hp _ _).trans (hm.result p hp), hm.done⟩

end Running

theorem awaitResume_snd (s : World) (a : Awaiter) (sys : Except Errno ℕ) :
    (s.awaitResume a sys).2 = s ∨ (s.awaitResume a sys).2 = s.cancelTimer a ∨
      (s.awaitResume a sys).2 = s.deregisterWait a := by
  unfold awaitResume
  cases a.kind with
  | sleep => dsimp only; split_ifs <;> exact Or.inl rfl
  | timedReady d timeout =>
    dsimp only
    split_ifs
    · exact Or.inr (Or.inl rfl)
    · exact Or.inr (Or.inr rfl)
    · cases s.heap.result a.cell <;> exact Or.inr (Or.inl rfl)
  | _ =>
    dsimp only
    split_ifs
    · exact Or.inl rfl
    · cases s.heap.result a.cell <;> exact Or.inl rfl

theorem awaitResume_still (s : World) (a : Awaiter) (sys : Except Errno ℕ) :
    Still s (s.awaitResume a sys).2 ∧ (s.awaitResume a sys).2.movers = s.movers ∧
      (s.awaitResume a sys).2.cancelledOn = s.cancelledOn := by
  rcases awaitResume_snd s a sys with h | h | h <;> rw [h]
  · exact ⟨Still.refl s, rfl, rfl⟩
  · exact ⟨cancelTimer_still s a, cancelTimer_ghosts s a⟩
  · exact ⟨deregisterWait_still s a, deregisterWait_ghosts s a⟩

theorem Leave.complete_free {s v : World} {h : Handle} {on : LoopId} {a : Awaiter} {m : Heap}
    (hs : Owned s) (hr : s.phase h = .running on) (hfree : s.cells a.cell = none)
    (hv : Still s v) (hm : AgreeOff a.cell v.heap m) (hmov : v.movers = s.movers)
    (hcan : v.cancelledOn = s.cancelledOn) (sys : Except Errno ℕ) :
    Leave s ((v.withHeap m).complete h a on sys) h (.running on) := by
  obtain ⟨hres, hresm, hresc⟩ := awaitResume_still (v.withHeap m) a sys
  set u := ((v.withHeap m).awaitResume a sys).2
  have hne : ∀ k b, s.phase k = .waiting b → b.cell ≠ a.cell := fun k b hb =>
    hs.cell_ne hfree hb
  have hlines : ∀ k, ((v.withHeap m).complete h a on sys).lines k = s.lines k := fun k =>
    (hres.lines k).trans (hv.lines k)
  constructor
  case phase =>
    have hp : u.phase = s.phase := hres.phase.trans hv.phase
    exact congrArg (fun f => Function.update f h (.running on)) hp
  case cells =>
    intro k b _ hb
    have hc : u.cells = s.cells := hres.cells.trans hv.cells
    exact (Function.update_of_ne (hne k b hb) _ _).trans (congrFun hc _)
  case state =>
    intro k b _ hb
    have hx : u.heap.state b.cell = m.state b.cell := congrFun hres.state _
    exact hx.trans ((hm.state _ (hne k b hb)).trans (congrFun hv.state _))
  case result =>
    intro k b _ hb
    have hx : u.heap.result b.cell = m.result b.cell := congrFun hres.result _
    exact hx.trans ((hm.result _ (hne k b hb)).trans (congrFun hv.result _))
  case settled => simp
  case done => exact fun k _ => congrFun (hres.done.trans (hm.done.trans hv.done)) k
  case active =>
    intro _
    have hd : u.heap.done h = s.heap.done h :=
      congrFun (hres.done.trans (hm.done.trans hv.done)) h
    exact hd.trans (hs.done h (Or.inl ⟨on, hr⟩))
  case slots =>
    intro i d e he
    have he' := hv.slots i d e (hres.slots i d e he)
    exact ⟨he', hs.slot_handle_ne (not_waiting hr) he'⟩
  case entries =>
    intro id e he
    have he' := hv.entries id e (hres.entries id e he)
    exact ⟨he', hs.entry_handle_ne (not_waiting hr) he'⟩
  case ids =>
    intro hids
    exact hres.ids (hv.ids hids)
  case lines =>
    intro k _
    exact hlines k
  case queue =>
    apply queueOk_of_running (Function.update_self _ _ _)
    rw [enqueued_congr (hlines h)]
    exact hs.enqueued_of_running hr
  case movers =>
    intro k _
    exact congrFun (hresm.trans hmov) k
  case cancelledOn =>
    intro k _
    exact congrFun (hresc.trans hcan) k

section Await
variable {s : World} {h : Handle} {on : LoopId} {a : Awaiter}

/-- The state in which `await_suspend` starts: the coroutine runs, the awaiter's cells are
its own and still as they were made. -/
structure Begun (s : World) (h : Handle) (on : LoopId) (a : Awaiter) : Prop where
  inv : Inv s
  running : s.phase h = .running on
  free : s.cells a.cell = none
  pending : s.heap.state a.cell = .pending
  unmoved : s.movers h = []

theorem Begun.installCallback {t : World} (hb : Begun s h on a) (hadd : Added s t h a)
    (hm : t.movers = s.movers) (hc : t.cancelledOn = s.cancelledOn) (tls : Option LoopId) :
    Inv (t.installCallback h a tls) ∧ Others s (t.installCallback h a tls) h := by
  have hr : Ready s h a := ⟨⟨on, hb.running⟩, hb.free⟩
  have hsusp := hb.inv.suspend hadd hr hb.pending hb.unmoved hm hc
  have hself : (t.suspend h a).phase h = .waiting a := Function.update_self _ _ _
  unfold World.installCallback
  cases a.token with
  | none => exact ⟨hsusp, hadd.others_suspend a⟩
  | some src =>
    dsimp only
    cases t.stopped src with
    | none =>
      have hadd' : Added s t h { a with token := some src, callback := true } :=
        ⟨hadd.phase, hadd.cells, hadd.heap, hadd.slots, hadd.entries, hadd.ids, hadd.lines⟩
      exact ⟨hb.inv.suspend hadd' ⟨hr.running, hr.free⟩ hb.pending hb.unmoved hm hc,
        hadd.others_suspend _⟩
    | some _ =>
      exact ⟨hsusp.cancelWait hself tls,
        (hadd.others_suspend a).trans (cancelWait_others hsusp.owned hself tls)⟩

theorem registerWait_ghosts (s : World) (h : Handle) (a : Awaiter) (d : Direction) :
    (s.registerWait h a d).2.movers = s.movers ∧
      (s.registerWait h a d).2.cancelledOn = s.cancelledOn := by
  cases d <;> exact ⟨rfl, rfl⟩

theorem complete_phase (s : World) (h : Handle) (a : Awaiter) (on : LoopId)
    (sys : Except Errno ℕ) : (s.complete h a on sys).phase h = .running on :=
  Function.update_self _ _ _

def finishAwait (r : Option Awaiter × World) (h : Handle) (on : LoopId) (sys : Except Errno ℕ) :
    World :=
  match r with
  | (none, s) => s
  | (some a, s) => s.complete h a on sys

theorem Begun.suspendIo {t : World} (hb : Begun s h on a) (hadd : Added s t h a) {d : Direction}
    (hd : a.kind.direction = some d) (hm : t.movers = s.movers)
    (hc : t.cancelledOn = s.cancelledOn) {cleanup : World → World}
    (hclean : ∀ u, Still t u → u.movers = t.movers → u.cancelledOn = t.cancelledOn →
      Still s (cleanup u) ∧ (cleanup u).movers = s.movers ∧
        (cleanup u).cancelledOn = s.cancelledOn)
    (tls : Option LoopId) (sys : Except Errno ℕ) :
    Inv (finishAwait (t.suspendIo h a d tls cleanup) h on sys) ∧
      Others s (finishAwait (t.suspendIo h a d tls cleanup) h on sys) h := by
  obtain ⟨hrm, hrc⟩ := registerWait_ghosts t h a d
  unfold World.suspendIo
  cases hreg : t.registerWait h a d with
  | mk res u =>
    have hu : u = (t.registerWait h a d).2 := by rw [hreg]
    rw [← hu] at hrm hrc
    cases res with
    | ok x =>
      have haddu : Added s u h a := hu ▸ hadd.trans (registerWait_added hd)
      exact hb.installCallback haddu (hrm.trans hm) (hrc.trans hc) tls
    | error e =>
      have hstill : Still t u := hu ▸ registerWait_still (e := e) (by rw [hreg])
      obtain ⟨hv, hvm, hvc⟩ := hclean u hstill hrm hrc
      have hleave := Leave.complete_free hb.inv.owned hb.running hb.free hv
        ((AgreeOff.refl _ _).setResult (.error e)) hvm hvc sys
      exact ⟨hleave.inv hb.inv, hleave.others⟩

theorem scheduleWait_cleanup {s u : World} {delay : ℤ} {c : WaitState}
    (hc : a.kind.timerCompletion = some c) (hu : Still (s.scheduleWait h a delay c).2 u) :
    Still s (u.cancelTimer (s.scheduleWait h a delay c).1) := by
  have hadd : Added s (s.scheduleWait h a delay c).2 h (s.scheduleWait h a delay c).1 :=
    scheduleWait_added hc
  have hstill := hu.trans (cancelTimer_still u (s.scheduleWait h a delay c).1)
  have hsome : (s.scheduleWait h a delay c).1.kind.timerCompletion.isSome := by
    rw [scheduleWait_fst, hc]
    rfl
  constructor
  case phase => exact hstill.phase
  case cells => exact hstill.cells
  case state => exact hstill.state
  case result => exact hstill.result
  case done => exact hstill.done
  case slots => exact hstill.slots
  case entries =>
    intro id e he
    rcases hadd.entries id e (hstill.entries id e he) with hold | ⟨-, -, hid, -⟩
    · exact hold
    · exact absurd hid.symm (cancelTimer_entryAt hsome he)
  case ids =>
    intro hids
    exact hstill.ids (hadd.ids hids)
  case lines =>
    intro k
    exact (hstill.lines k).trans (hadd.lines k)

def begin (s : World) (h : Handle) (kind : WaitKind) (cell : StatePtr) : World :=
  let s := s.initCells kind cell
  { s with
    movers := Function.update s.movers h []
    cancelledOn := Function.update s.cancelledOn h none }

theorem initCells_eq (s : World) (kind : WaitKind) (cell : StatePtr) :
    ∃ m, s.initCells kind cell = s.withHeap m ∧ AgreeOff cell s.heap m ∧
      m.state cell = .pending := by
  have hm : AgreeOff cell s.heap (s.heap.setState cell .pending) := (AgreeOff.refl _ _).setState _
  unfold initCells
  cases kind.notCompleted with
  | none => exact ⟨_, rfl, hm, by simp⟩
  | some e => exact ⟨_, rfl, hm.setResult _, by simp⟩

theorem begun {s : World} {h : Handle} {on : LoopId} (hs : Inv s) (hr : s.phase h = .running on)
    (kind : WaitKind) {cell : StatePtr} (hfree : s.cells cell = none) (fd : ℤ) (token : Option ℕ) :
    Begun (s.begin h kind cell) h on ⟨kind, fd, cell, token, 0, false⟩ ∧
      Others s (s.begin h kind cell) h := by
  obtain ⟨m, heq, hm, hpend⟩ := initCells_eq s kind cell
  have hne : ∀ k b, s.phase k = .waiting b → b.cell ≠ cell := fun k b hb =>
    hs.owned.cell_ne (a := ⟨kind, fd, cell, token, 0, false⟩) hfree hb
  have hleave : Leave s (s.begin h kind cell) h (.running on) := by
    unfold World.begin
    rw [heq]
    constructor
    case phase =>
      rw [← hr, Function.update_eq_self]
      rfl
    case cells => exact fun _ _ _ _ => rfl
    case state => exact fun k b _ hb => hm.state _ (hne k b hb)
    case result => exact fun k b _ hb => hm.result _ (hne k b hb)
    case settled => simp
    case done => exact fun k _ => congrFun hm.done k
    case active => exact fun _ => (congrFun hm.done h).trans (hs.owned.done h (Or.inl ⟨on, hr⟩))
    case slots => exact fun i d e he => ⟨he, hs.owned.slot_handle_ne (not_waiting hr) he⟩
    case entries => exact fun id e he => ⟨he, hs.owned.entry_handle_ne (not_waiting hr) he⟩
    case ids => exact fun hids => hids
    case lines => exact fun _ _ => rfl
    case queue => exact queueOk_of_running hr (hs.owned.enqueued_of_running hr)
    case movers => exact fun k hk => Function.update_of_ne hk _ _
    case cancelledOn => exact fun k hk => Function.update_of_ne hk _ _
  refine ⟨?_, hleave.others⟩
  constructor
  case inv => exact hleave.inv hs
  case running => rw [hleave.phase, Function.update_self]
  case free =>
    unfold World.begin
    rw [heq]
    exact hfree
  case pending =>
    unfold World.begin
    rw [heq]
    exact hpend
  case unmoved => exact Function.update_self _ _ _

theorem await_eq (s : World) (h : Handle) (on : LoopId) (kind : WaitKind) (fd : ℤ)
    (cell : StatePtr) (token : Option ℕ) (sys : Except Errno ℕ) :
    s.await h on kind fd cell token sys =
      finishAwait ((s.begin h kind cell).awaitSuspend h ⟨kind, fd, cell, token, 0, false⟩ (some on))
        h on sys := rfl

theorem timerId_frame (a : Awaiter) (id : TimerId) :
    ({ a with timerId := id } : Awaiter).kind = a.kind ∧
      ({ a with timerId := id } : Awaiter).cell = a.cell := ⟨rfl, rfl⟩

theorem timer_frame (s : World) (t : TimerState) :
    ({ s with timer := t } : World).movers = s.movers ∧
      ({ s with timer := t } : World).cancelledOn = s.cancelledOn := ⟨rfl, rfl⟩

theorem scheduleWait_frame (s : World) (h : Handle) (a : Awaiter) (delay : ℤ) (c : WaitState) :
    (s.scheduleWait h a delay c).1.kind = a.kind ∧ (s.scheduleWait h a delay c).1.cell = a.cell ∧
    (s.scheduleWait h a delay c).2.movers = s.movers ∧
    (s.scheduleWait h a delay c).2.cancelledOn = s.cancelledOn := by
  -- through the two lemmas above: comparing the ids of two awaiters would compute them
  rw [scheduleWait_fst, scheduleWait_snd]
  exact ⟨(timerId_frame a _).1, (timerId_frame a _).2, (timer_frame s _).1, (timer_frame s _).2⟩

theorem scheduleWait_token (s : World) (h : Handle) (a : Awaiter) (delay : ℤ) (c : WaitState) :
    (s.scheduleWait h a delay c).1.token = a.token := by
  rw [scheduleWait_fst]

theorem Begun.of_cell_eq (hb : Begun s h on a) {b : Awaiter} (hc : b.cell = a.cell) :
    Begun s h on b :=
  ⟨hb.inv, hb.running, hc ▸ hb.free, hc ▸ hb.pending, hb.unmoved⟩

theorem Begun.await (hb : Begun s h on a) (tls : Option LoopId) (sys : Except Errno ℕ) :
    Inv (finishAwait (s.awaitSuspend h a tls) h on sys) ∧
      Others s (finishAwait (s.awaitSuspend h a tls) h on sys) h := by
  have hio : ∀ d, a.kind.direction = some d →
      Inv (finishAwait (s.suspendIo h a d tls id) h on sys) ∧
        Others s (finishAwait (s.suspendIo h a d tls id) h on sys) h := fun d hd =>
    hb.suspendIo (Added.refl s h a) hd rfl rfl (fun u hu hm hc => ⟨hu, hm, hc⟩) tls sys
  have hback : ∀ m, AgreeOff a.cell s.heap m → Inv ((s.withHeap m).complete h a on sys) ∧
      Others s ((s.withHeap m).complete h a on sys) h := by
    intro m hm
    have hleave := Leave.complete_free hb.inv.owned hb.running hb.free (Still.refl s) hm rfl rfl sys
    exact ⟨hleave.inv hb.inv, hleave.others⟩
  unfold awaitSuspend
  cases hk : a.kind with
  | connect => exact hio .write (by rw [hk]; rfl)
  | readReady => exact hio .read (by rw [hk]; rfl)
  | writeReady => exact hio .write (by rw [hk]; rfl)
  | accept => exact hio .read (by rw [hk]; rfl)
  | timedReady d timeout =>
    dsimp only
    split_ifs with hle
    · exact hback _ ((AgreeOff.refl _ _).setState _)
    · have hcomp : a.kind.timerCompletion = some .timedOut := by rw [hk]; rfl
      have hadd : Added s (s.scheduleWait h a timeout .timedOut).2 h
        (s.scheduleWait h a timeout .timedOut).1 := scheduleWait_added hcomp
      have hclean : ∀ u, Still (s.scheduleWait h a timeout .timedOut).2 u →
        Still s (u.cancelTimer (s.scheduleWait h a timeout .timedOut).1) := fun u hu =>
        scheduleWait_cleanup hcomp hu
      obtain ⟨hkind, hcell, hm, hc⟩ := scheduleWait_frame s h a timeout .timedOut
      generalize s.scheduleWait h a timeout .timedOut = r at hadd hclean hkind hcell hm hc ⊢
      have hdir : r.1.kind.direction = some d := by rw [hkind, hk]; rfl
      refine (hb.of_cell_eq hcell).suspendIo hadd hdir hm hc (fun u hu hum huc => ?_) tls sys
      obtain ⟨hm', hc'⟩ := cancelTimer_ghosts u r.1
      exact ⟨hclean u hu, hm'.trans (hum.trans hm), hc'.trans (huc.trans hc)⟩
  | sleep delay =>
    dsimp only
    split_ifs with hle
    · exact hback s.heap (AgreeOff.refl _ _)
    · have hcomp : a.kind.timerCompletion = some .ready := by rw [hk]; rfl
      have hadd : Added s (s.scheduleWait h a delay .ready).2 h
        (s.scheduleWait h a delay .ready).1 := scheduleWait_added hcomp
      obtain ⟨-, hcell, hm, hc⟩ := scheduleWait_frame s h a delay .ready
      generalize s.scheduleWait h a delay .ready = r at hadd hcell hm hc ⊢
      exact (hb.of_cell_eq hcell).installCallback hadd hm hc tls

end Await

section Resume
variable {s u : World} {h : Handle} {on : LoopId} {a : Awaiter}

structure Popped (s u : World) (h : Handle) : Prop where
  phase : u.phase = s.phase
  cells : u.cells = s.cells
  reactor : u.reactor = s.reactor
  timer : u.timer = s.timer
  movers : u.movers = s.movers
  cancelledOn : u.cancelledOn = s.cancelledOn
  lines : ∀ k, k ≠ h → u.lines k = s.lines k
  enqueued : u.enqueued h + 1 = s.enqueued h

theorem popped_ready {rest : List Handle} (hr : s.ready = h :: rest) :
    Popped s { s with ready := rest } h := by
  refine ⟨rfl, rfl, rfl, rfl, rfl, rfl, fun k hk => ?_, ?_⟩
  · simp [World.lines, hr, Ne.symm hk]
  · simp only [World.enqueued, World.lines, hr, List.count_cons_self]
    omega

theorem popped_foreign {l : LoopId} {rest : List (LoopId × Handle)}
    (hr : s.foreign = (l, h) :: rest) : Popped s { s with foreign := rest } h := by
  refine ⟨rfl, rfl, rfl, rfl, rfl, rfl, fun k hk => ?_, ?_⟩
  · simp [World.lines, hr, Ne.symm hk]
  · simp only [World.enqueued, World.lines, hr, List.map_cons, List.count_cons_self]
    omega

theorem Popped.heap (hp : Popped s u h) : u.heap = s.heap := by
  rw [World.heap, World.heap, hp.timer]

theorem Popped.entryAt (hp : Popped s u h) (id : TimerId) : u.entryAt id = s.entryAt id := by
  rw [World.entryAt, World.entryAt, hp.timer]

/-- A suspended coroutine that is queued was moved by one contender, and this was the only
place it was queued at. -/
theorem Popped.moved (hp : Popped s u h) (hs : Inv s) (hw : s.phase h = .waiting a) :
    u.enqueued h = 0 ∧ s.heap.state a.cell ≠ .pending ∧
      ∃ c, s.movers h = [c] ∧ a.kind.movesTo c = some (s.heap.state a.cell) := by
  have hq := hs.owned.queue h
  have henq := hp.enqueued
  simp only [QueueOk, hw] at hq
  have hne : s.heap.state a.cell ≠ .pending := by
    intro hpend
    have hz := hq.2 hpend
    omega
  refine ⟨by omega, hne, ?_⟩
  rcases hs.movers h a hw with ⟨-, hpend⟩ | hmoved
  · exact absurd hpend hne
  · exact hmoved

theorem timedReady_of_timedOut {kind : WaitKind} {c : Contender}
    (hc : kind.movesTo c = some .timedOut) : ∃ d timeout, kind = .timedReady d timeout := by
  cases kind with
  | timedReady d timeout => exact ⟨d, timeout, rfl⟩
  | _ => cases c <;> simp [WaitKind.movesTo, WaitKind.direction, WaitKind.timerCompletion] at hc

theorem timedReady_of_both {kind : WaitKind} {x : WaitState} (hd : kind.direction.isSome)
    (hc : kind.timerCompletion = some x) : ∃ d timeout, kind = .timedReady d timeout := by
  cases kind with
  | timedReady d timeout => exact ⟨d, timeout, rfl⟩
  | _ => simp [WaitKind.direction, WaitKind.timerCompletion] at hd hc

theorem awaitResume_timedOut {d : Direction} {timeout : ℤ} (hk : a.kind = .timedReady d timeout)
    (hx : s.heap.state a.cell = .timedOut) (sys : Except Errno ℕ) :
    s.awaitResume a sys = (.error (WaitKind.timeoutError d), s.deregisterWait a) := by
  unfold awaitResume
  rw [hk]
  simp only [hx, reduceCtorEq, if_true, if_false]

theorem awaitResume_ready {d : Direction} {timeout : ℤ} (hk : a.kind = .timedReady d timeout)
    (hx : s.heap.state a.cell = .ready) (sys : Except Errno ℕ) :
    (s.awaitResume a sys).2 = s.cancelTimer a := by
  unfold awaitResume
  rw [hk]
  simp only [hx, reduceCtorEq, if_false]
  cases s.heap.result a.cell <;> rfl

theorem Popped.slot_ne (hp : Popped s u h) (hs : Inv s) (hw : s.phase h = .waiting a)
    {sys : Except Errno ℕ} {i : ℕ} {d : Direction} {e : PendingEntry}
    (he : ((u.awaitResume a sys).2.reactor.slotAt i).get d = some e) : e.handle ≠ some h := by
  intro hh
  obtain ⟨-, hne, c, -, hc⟩ := hp.moved hs hw
  have he' := (awaitResume_still u a sys).1.slots i d e he
  rw [hp.reactor] at he'
  obtain ⟨k, b, hb, rfl, hdir, hfd, hstate⟩ := hs.owned.slot i d e he'
  rw [Option.some.inj hh, hw, Phase.waiting.injEq] at hb
  subst hb
  have hout : s.heap.state a.cell = .timedOut := hstate.resolve_left hne
  rw [hout] at hc
  obtain ⟨d', timeout, hk⟩ := timedReady_of_timedOut hc
  rw [awaitResume_timedOut hk (hp.heap ▸ hout)] at he
  exact deregisterWait_slot he ⟨hfd.symm, hdir⟩

theorem Popped.entry_ne (hp : Popped s u h) (hs : Inv s) (hw : s.phase h = .waiting a)
    {sys : Except Errno ℕ} {id : TimerId} {e : TimerEntry}
    (he : (u.awaitResume a sys).2.entryAt id = some e) : e.handle ≠ some h := by
  intro hh
  obtain ⟨-, hne, -⟩ := hp.moved hs hw
  have he' := (awaitResume_still u a sys).1.entries id e he
  rw [hp.entryAt] at he'
  obtain ⟨k, b, hb, hhandle, -, hid, hcomp, hstate⟩ := hs.owned.entry id e he'
  rw [hhandle, Option.some.injEq] at hh
  rw [hh, hw, Phase.waiting.injEq] at hb
  subst hb
  obtain ⟨hdir, hready⟩ := hstate.resolve_left hne
  obtain ⟨d, timeout, hk⟩ := timedReady_of_both hdir hcomp
  rw [awaitResume_ready hk (hp.heap ▸ hready)] at he
  exact cancelTimer_entryAt (by rw [hcomp]; rfl) he hid.symm

theorem Popped.leave (hp : Popped s u h) (hs : Inv s) (hw : s.phase h = .waiting a)
    (sys : Except Errno ℕ) : Leave s (u.complete h a on sys) h (.running on) := by
  obtain ⟨hstill, hmov, hcan⟩ := awaitResume_still u a sys
  obtain ⟨hz, -⟩ := hp.moved hs hw
  have hheap := hp.heap
  constructor
  case phase =>
    have hph : (u.awaitResume a sys).2.phase = s.phase := hstill.phase.trans hp.phase
    exact congrArg (fun f => Function.update f h (.running on)) hph
  case cells =>
    intro k b hk hb
    have hne : b.cell ≠ a.cell := fun hc => hk (hs.owned.unique hb hw hc).1
    have hc : (u.awaitResume a sys).2.cells = s.cells := hstill.cells.trans hp.cells
    exact (Function.update_of_ne hne _ _).trans (congrFun hc _)
  case state => exact fun k b _ _ => congrFun (hstill.state.trans (by rw [hheap])) _
  case result => exact fun k b _ _ => congrFun (hstill.result.trans (by rw [hheap])) _
  case settled => simp
  case done => exact fun k _ => congrFun (hstill.done.trans (by rw [hheap])) k
  case active =>
    intro _
    have hd : (u.awaitResume a sys).2.heap.done = s.heap.done :=
      hstill.done.trans (by rw [hheap])
    exact (congrFun hd h).trans (hs.owned.done h (Or.inr ⟨a, hw⟩))
  case slots =>
    intro i d e he
    have he' := hstill.slots i d e he
    rw [hp.reactor] at he'
    exact ⟨he', hp.slot_ne hs hw he⟩
  case entries =>
    intro id e he
    have he' := hstill.entries id e he
    rw [hp.entryAt] at he'
    exact ⟨he', hp.entry_ne hs hw he⟩
  case ids =>
    intro hids
    refine hstill.ids fun id hid => hids id ?_
    rw [← hp.timer]
    exact hid
  case lines => exact fun k hk => (hstill.lines k).trans (hp.lines k hk)
  case queue =>
    exact queueOk_of_running (Function.update_self _ _ _)
      ((enqueued_congr (hstill.lines h)).trans hz)
  case movers => exact fun k _ => congrFun (hmov.trans hp.movers) k
  case cancelledOn => exact fun k _ => congrFun (hcan.trans hp.cancelledOn) k

end Resume

section Steps
variable {s t : World} {h : Handle} {p : Phase}

theorem Leave.of_settled (hs : Owned s) (hn : ∀ b, s.phase h ≠ .waiting b)
    (hp : ∀ b, p ≠ .waiting b) (hphase : t.phase = Function.update s.phase h p)
    (hcells : t.cells = s.cells) (hstate : t.heap.state = s.heap.state)
    (hresult : t.heap.result = s.heap.result) (hdone : ∀ k, k ≠ h → t.heap.done k = s.heap.done k)
    (hactive : (∃ on, p = .running on) → t.heap.done h = false) (hreactor : t.reactor = s.reactor)
    (hwheel : t.timer.wheel = s.timer.wheel) (hlines : ∀ k, k ≠ h → t.lines k = s.lines k)
    (hqueue : t.QueueOk h) (hm : t.movers = s.movers) (hc : t.cancelledOn = s.cancelledOn) :
    Leave s t h p := by
  have hentry : ∀ id, t.entryAt id = s.entryAt id := fun id => by
    rw [World.entryAt, World.entryAt, hwheel]
  constructor
  case settled => exact hp
  case phase => exact hphase
  case cells => exact fun _ _ _ _ => congrFun hcells _
  case state => exact fun _ _ _ _ => congrFun hstate _
  case result => exact fun _ _ _ _ => congrFun hresult _
  case done => exact hdone
  case active => exact hactive
  case slots =>
    intro i d e he
    rw [hreactor] at he
    exact ⟨he, hs.slot_handle_ne hn he⟩
  case entries =>
    intro id e he
    rw [hentry] at he
    exact ⟨he, hs.entry_handle_ne hn he⟩
  case ids =>
    intro hids id hid
    rw [hwheel] at hid
    exact hids id hid
  case lines => exact hlines
  case queue => exact hqueue
  case movers => exact fun k _ => congrFun hm k
  case cancelledOn => exact fun k _ => congrFun hc k

theorem Leave.wake (hs : Owned s) (hi : s.phase h = .idle) :
    Leave s { s.setPhase h .queued with ready := s.ready ++ [h] } h .queued := by
  have hq := hs.queue h
  simp only [QueueOk, hi] at hq
  refine Leave.of_settled hs (by rw [hi]; simp) (by simp) rfl rfl rfl rfl (fun _ _ => rfl)
    (by simp) rfl rfl (fun k hk => ?_) ?_ rfl rfl
  · simp [World.lines, setPhase, Ne.symm hk]
  · simp only [QueueOk, setPhase, Function.update_self, enqueued, World.lines, List.count_append,
      List.count_singleton_self] at hq ⊢
    omega

theorem Leave.park {on : LoopId} (hs : Owned s) (hr : s.phase h = .running on) :
    Leave s (s.setPhase h .idle) h .idle := by
  have hz := hs.enqueued_of_running hr
  refine Leave.of_settled hs (not_waiting hr) (by simp) rfl rfl rfl rfl (fun _ _ => rfl)
    (by simp) rfl rfl (fun _ _ => rfl) ?_ rfl rfl
  simp only [QueueOk, setPhase, Function.update_self]
  exact hz

theorem Leave.finish {on : LoopId} (hs : Owned s) (hr : s.phase h = .running on) :
    Leave s ((s.setPhase h .finished).withHeap
      { s.heap with done := Function.update s.heap.done h true }) h .finished := by
  have hz := hs.enqueued_of_running hr
  refine Leave.of_settled hs (not_waiting hr) (by simp) rfl rfl rfl rfl
    (fun k hk => Function.update_of_ne hk _ _) (by simp) rfl rfl (fun _ _ => rfl) ?_ rfl rfl
  simp only [QueueOk, withHeap, setPhase, Function.update_self]
  exact hz

theorem Popped.resume {u : World} (hp : Popped s u h) (hs : Inv s) (on : LoopId)
    (sys : Except Errno ℕ) : ∃ p, Leave s (u.resume h on sys) h p := by
  have hq := hs.owned.queue h
  have henq := hp.enqueued
  have hheap := hp.heap
  -- an idle, running or finished coroutine is in no queue
  have hqueued : (∀ b, s.phase h ≠ .waiting b) → s.phase h = .queued ∧ u.enqueued h = 0 := by
    intro hn
    cases hph : s.phase h with
    | queued =>
      simp only [QueueOk, hph] at hq
      exact ⟨rfl, by omega⟩
    | waiting b => exact absurd hph (hn b)
    | _ => simp only [QueueOk, hph] at hq; omega
  have hstep : ∀ p, (∀ b, s.phase h ≠ .waiting b) → (∀ b, p ≠ .waiting b) →
      ((∃ on, p = .running on) → u.heap.done h = false) → (u.setPhase h p).QueueOk h →
      Leave s (u.setPhase h p) h p := by
    intro p hn hset hact hqueue
    refine Leave.of_settled hs.owned hn hset ?_ hp.cells (congrArg Heap.state hheap)
      (congrArg Heap.result hheap) (fun k _ => congrFun (congrArg Heap.done hheap) k) hact
      hp.reactor (congrArg TimerState.wheel hp.timer) hp.lines hqueue hp.movers hp.cancelledOn
    rw [setPhase, hp.phase]
  unfold World.resume
  by_cases hd : u.heap.done h = true
  · rw [if_pos hd]
    have hn : ∀ b, s.phase h ≠ .waiting b := by
      intro b hb
      rw [hheap, hs.owned.done h (Or.inr ⟨b, hb⟩)] at hd
      cases hd
    obtain ⟨hph, hz⟩ := hqueued hn
    have hsame : u.setPhase h .queued = u := by
      rw [← hph, ← hp.phase, setPhase, Function.update_eq_self]
    have hskip := hstep .queued hn (by simp) (by simp)
    rw [hsame] at hskip
    refine ⟨.queued, hskip ?_⟩
    simp only [QueueOk, hp.phase, hph]
    omega
  · rw [if_neg hd]
    have hrunning : (∀ b, s.phase h ≠ .waiting b) →
        Leave s (u.setPhase h (.running on)) h (.running on) := by
      intro hn
      refine hstep (.running on) hn (by simp) (fun _ => by simpa using hd) ?_
      exact queueOk_of_running (Function.update_self _ _ _) (hqueued hn).2
    cases hph : s.phase h with
    | waiting a =>
      rw [hp.phase, hph]
      exact ⟨.running on, hp.leave hs hph sys⟩
    | _ =>
      rw [hp.phase, hph]
      exact ⟨.running on, hrunning (by rw [hph]; simp)⟩

theorem Popped.resume_waiting {u : World} (hp : Popped s u h) (hs : Inv s) {a : Awaiter}
    (hw : s.phase h = .waiting a) (on : LoopId) (sys : Except Errno ℕ) :
    u.resume h on sys = u.complete h a on sys := by
  have hd : u.heap.done h = false := by
    rw [hp.heap]
    exact hs.owned.done h (Or.inr ⟨a, hw⟩)
  unfold World.resume
  rw [if_neg (by rw [hd]; simp), hp.phase, hw]

structure Drained (s t : World) : Prop where
  phase : t.phase = s.phase
  cells : t.cells = s.cells
  heap : t.heap = s.heap
  slots : t.reactor.slots = s.reactor.slots
  entries : ∀ id, t.entryAt id = s.entryAt id
  ids : s.NarrowIds → t.NarrowIds
  enqueued : ∀ k, t.enqueued k = s.enqueued k
  lines : ∀ k, (s.lines k).1 = 0 → (s.lines k).2.1 = 0 → t.lines k = s.lines k
  movers : t.movers = s.movers
  cancelledOn : t.cancelledOn = s.cancelledOn

theorem Drained.owned (hd : Drained s t) (hs : Owned s) : Owned t := by
  constructor
  case cell =>
    rw [hd.phase, hd.cells]
    exact hs.cell
  case slot =>
    intro i d e he
    rw [EpollReactor.slotAt, hd.slots] at he
    rw [hd.phase, hd.heap]
    exact hs.slot i d e he
  case entry =>
    intro id e he
    rw [hd.entries] at he
    rw [hd.phase, hd.heap]
    exact hs.entry id e he
  case ids => exact hd.ids hs.ids
  case queue =>
    intro k
    have hk := hs.queue k
    simp only [QueueOk, hd.phase, hd.enqueued, hd.heap] at hk ⊢
    exact hk
  case result =>
    rw [hd.phase, hd.heap]
    exact hs.result
  case done =>
    rw [hd.phase, hd.heap]
    exact hs.done

theorem Drained.inv (hd : Drained s t) (hs : Inv s) : Inv t := by
  constructor
  case owned => exact hd.owned hs.owned
  case movers =>
    rw [hd.phase, hd.movers, hd.heap]
    exact hs.movers
  case cancels =>
    intro k b hb hdir hstate
    rw [hd.phase] at hb
    rw [hd.heap] at hstate
    obtain ⟨tls, hon, hreactor, hwheel, hready⟩ := hs.cancels k b hb hdir hstate
    rw [hd.cancelledOn, hd.lines k hreactor hwheel]
    exact ⟨tls, hon, hreactor, hwheel, hready⟩

theorem drainReactor_drained (s : World) : Drained s
    { s with ready := s.ready ++ s.reactor.ready, reactor := s.reactor.drainReady.2 } := by
  refine ⟨rfl, rfl, rfl, rfl, fun _ => rfl, fun h => h, fun k => ?_, fun k hr _ => ?_, rfl, rfl⟩
  · simp only [enqueued, World.lines, EpollReactor.drainReady, List.count_append, List.count_nil]
    omega
  · simp only [World.lines] at hr
    simp only [World.lines, EpollReactor.drainReady, List.count_append, List.count_nil, hr,
      Nat.add_zero]

theorem drainTimer_drained (s : World) : Drained s
    { s with
      ready := s.ready ++ s.timer.wheel.ready
      timer := { s.timer with wheel := s.timer.wheel.drainReady.2 } } := by
  refine ⟨rfl, rfl, rfl, rfl, fun _ => rfl, fun h => h, fun k => ?_, fun k _ hw => ?_, rfl, rfl⟩
  · simp only [enqueued, World.lines, HierarchicalTimerWheel.drainReady, List.count_append,
      List.count_nil]
    omega
  · simp only [World.lines] at hw
    simp only [World.lines, HierarchicalTimerWheel.drainReady, List.count_append, List.count_nil,
      hw, Nat.add_zero]

theorem Inv.clearCallback (hs : Inv s) {a : Awaiter} (hw : s.phase h = .waiting a) :
    Inv (s.setPhase h (.waiting { a with callback := false })) := by
  set t := s.setPhase h (.waiting { a with callback := false }) with ht
  have hself : t.phase h = .waiting { a with callback := false } := Function.update_self _ _ _
  have hother : ∀ k, k ≠ h → t.phase k = s.phase k := fun k hk => Function.update_of_ne hk _ _
  have hback : ∀ k b, t.phase k = .waiting b → ∃ b', s.phase k = .waiting b' ∧ b.kind = b'.kind ∧
      b.cell = b'.cell := by
    intro k b hb
    by_cases hk : k = h
    · subst hk
      rw [hself, Phase.waiting.injEq] at hb
      subst hb
      exact ⟨a, hw, rfl, rfl⟩
    · rw [hother k hk] at hb
      exact ⟨b, hb, rfl, rfl⟩
  have hforth : ∀ k b, s.phase k = .waiting b → ∃ b', t.phase k = .waiting b' ∧
      b'.kind = b.kind ∧ b'.fd = b.fd ∧ b'.cell = b.cell ∧ b'.timerId = b.timerId := by
    intro k b hb
    by_cases hk : k = h
    · subst hk
      rw [hw, Phase.waiting.injEq] at hb
      subst hb
      exact ⟨_, hself, rfl, rfl, rfl, rfl⟩
    · exact ⟨b, (hother k hk).trans hb, rfl, rfl, rfl, rfl⟩
  constructor
  case owned =>
    constructor
    case cell =>
      intro k b hb
      obtain ⟨b', hb', -, hcell⟩ := hback k b hb
      rw [hcell]
      exact hs.owned.cell k b' hb'
    case slot =>
      intro i d e he
      obtain ⟨k, b, hb, rfl, hdir, hfd, hstate⟩ := hs.owned.slot i d e he
      obtain ⟨b', hb', hkind, hfd', hcell, -⟩ := hforth k b hb
      refine ⟨k, b', hb', ?_, hkind ▸ hdir, hfd'.trans hfd, ?_⟩
      · rw [hcell]
      · rw [hcell]
        exact hstate
    case entry =>
      intro id e he
      obtain ⟨k, b, hb, hhandle, hstate, hid, hcomp, hheap⟩ := hs.owned.entry id e he
      obtain ⟨b', hb', hkind, -, hcell, hid'⟩ := hforth k b hb
      refine ⟨k, b', hb', hhandle, ?_, hid'.trans hid, hkind ▸ hcomp, ?_⟩
      · rw [hcell]
        exact hstate
      · rw [hcell, hkind]
        exact hheap
    case ids => exact hs.owned.ids
    case queue =>
      intro k
      have hq := hs.owned.queue k
      by_cases hk : k = h
      · subst hk
        simp only [QueueOk, hw] at hq
        simp only [QueueOk, hself]
        exact hq
      · simp only [QueueOk, hother k hk] at hq ⊢
        exact hq
    case result =>
      intro k b hb
      obtain ⟨b', hb', hkind, hcell⟩ := hback k b hb
      rw [hkind, hcell]
      exact hs.owned.result k b' hb'
    case done =>
      intro k hk
      refine hs.owned.done k ?_
      rcases hk with ⟨on, hrun⟩ | ⟨b, hb⟩
      · have hne : k ≠ h := by
          rintro rfl
          rw [hself] at hrun
          cases hrun
        exact Or.inl ⟨on, hother k hne ▸ hrun⟩
      · obtain ⟨b', hb', -⟩ := hback k b hb
        exact Or.inr ⟨b', hb'⟩
  case movers =>
    intro k b hb
    obtain ⟨b', hb', hkind, hcell⟩ := hback k b hb
    rw [hkind, hcell]
    exact hs.movers k b' hb'
  case cancels =>
    intro k b hb
    obtain ⟨b', hb', hkind, hcell⟩ := hback k b hb
    rw [hkind, hcell]
    exact hs.cancels k b' hb'

structure Kept (s t : World) (h : Handle) (a : Awaiter) : Prop where
  waiting : ∃ b, t.phase h = .waiting b ∧ b.kind = a.kind ∧ b.cell = a.cell
  queued : s.enqueued h ≤ t.enqueued h
  moved : s.heap.state a.cell ≠ .pending → t.heap.state a.cell = s.heap.state a.cell

theorem Others.kept {k : Handle} {a : Awaiter} (ho : Others s t k) (hk : h ≠ k)
    (hw : s.phase h = .waiting a) : Kept s t h a where
  waiting := ⟨a, (ho.phase h hk).trans hw, rfl, rfl⟩
  queued := (enqueued_congr (ho.lines h hk)).ge
  moved _ := ho.state h a hk hw

theorem Leave.kept {k : Handle} {a : Awaiter} (hl : Leave s t k p)
    (hn : ∀ b, s.phase k ≠ .waiting b) (hw : s.phase h = .waiting a) : Kept s t h a := by
  refine hl.others.kept ?_ hw
  rintro rfl
  exact hn a hw

theorem Still.kept {a : Awaiter} (hst : Still s t) (hw : s.phase h = .waiting a) :
    Kept s t h a where
  waiting := ⟨a, (congrFun hst.phase h).trans hw, rfl, rfl⟩
  queued := (enqueued_congr (hst.lines h)).ge
  moved _ := congrFun hst.state _

theorem Batch.kept {c : Contender} {a : Awaiter} (hb : Batch c s t) (hs : Owned s)
    (hw : s.phase h = .waiting a) : Kept s (s.record t c) h a := by
  obtain ⟨hphase, heffect⟩ := hb.effect hs
  have hlines : (s.record t c).lines h = t.lines h := rfl
  refine ⟨⟨a, (congrFun hphase h).trans hw, rfl, rfl⟩, ?_, fun hne => ?_⟩
  · rcases heffect h a hw with ⟨-, hl⟩ | ⟨hpend, -⟩
    · exact (enqueued_congr (hlines.trans hl)).ge
    · rw [hs.enqueued_eq_zero hw hpend]
      exact Nat.zero_le _
  · rcases heffect h a hw with ⟨hsame, -⟩ | ⟨hpend, -⟩
    · exact hsame
    · exact absurd hpend hne

theorem Drained.kept {a : Awaiter} (hd : Drained s t) (hw : s.phase h = .waiting a) :
    Kept s t h a where
  waiting := ⟨a, (congrFun hd.phase h).trans hw, rfl, rfl⟩
  queued := (hd.enqueued h).ge
  moved _ := by rw [hd.heap]

theorem Inv.callback (hs : Inv s) {a : Awaiter} (hw : s.phase h = .waiting a)
    (tls : Option LoopId) {t : World}
    (ht : (s.cancelWait h a tls).setPhase h (.waiting { a with callback := false }) = t) :
    Inv t ∧ Others s t h ∧ Kept s t h a := by
  subst ht
  have hothers := cancelWait_others hs.owned hw tls
  have hphase : (s.cancelWait h a tls).phase h = .waiting a := by
    rw [cancelWait_phase, hw]
  have hset : Others (s.cancelWait h a tls)
      ((s.cancelWait h a tls).setPhase h (.waiting { a with callback := false })) h :=
    ⟨fun _ hj => Function.update_of_ne hj _ _, fun _ _ _ _ => rfl, fun _ _ => rfl, fun _ _ => rfl⟩
  refine ⟨(hs.cancelWait hw tls).clearCallback hphase, hothers.trans hset,
    ⟨_, Function.update_self _ _ _, rfl, rfl⟩, ?_, fun hne => ?_⟩
  · by_cases hp : s.heap.state a.cell = .pending
    · rw [hs.owned.enqueued_eq_zero hw hp]
      exact Nat.zero_le _
    · rw [cancelWait_of_moved hp]
      exact le_refl _
  · rw [cancelWait_of_moved hne]
    rfl

theorem clearSlot_still (s : World) (k : Kernel) (fd : ℤ) :
    Still s (s.withIo ⟨k, s.reactor.clearSlot fd, s.heap⟩) := by
  refine Still.of_io rfl (IoState.clearSlot_ready _ fd) fun j d e he => ?_
  rw [EpollReactor.slotAt_clearSlot] at he
  split_ifs at he
  · rw [FdEntry.get_idle] at he
    cases he
  · exact he

theorem remove_still (s : World) (fd : ℤ) : Still s (s.withIo (s.io.remove fd).2) := by
  unfold IoState.remove
  split_ifs with hneg
  · exact Still.refl s
  cases s.io.kernel.epollCtl .del fd 0 with
  | ok k => exact clearSlot_still s k fd
  | error e =>
    dsimp only
    split_ifs
    · exact Still.refl s
    · exact clearSlot_still s s.kernel fd

def actor (s : World) : WorldOp → Option Handle
  | .wake h => some h
  | .park h => some h
  | .finish h => some h
  | .await h _ _ _ _ _ => some h
  | .resume _ => s.ready.head?
  | .resumeForeign _ => s.foreign.head?.map Prod.snd
  | .callback h => some h
  | _ => none

/-- What any step does. A suspended coroutine stays suspended, or it is taken off its queue
and leaves its awaiter; only the step's own coroutine changes its phase. -/
structure StepSpec (s : World) (op : WorldOp) (t : World) : Prop where
  inv : Inv t
  waits : ∀ h a, s.phase h = .waiting a → Kept s t h a ∨
    ∃ u on sys, (op = .resume sys ∨ op = .resumeForeign sys) ∧ Popped s u h ∧
      t = u.complete h a on sys
  frame : ∀ k, s.actor op ≠ some k → t.phase k = s.phase k ∧ t.heap.done k = s.heap.done k

section StepSpec
variable {op : WorldOp}

theorem Still.stepSpec (hst : Still s t) (hs : Inv s) (hm : t.movers = s.movers)
    (hc : t.cancelledOn = s.cancelledOn) : StepSpec s op t where
  inv := hs.of_still hst hm hc
  waits _ _ hw := Or.inl (hst.kept hw)
  frame k _ := ⟨congrFun hst.phase k, congrFun hst.done k⟩

theorem Others.frame (ho : Others s t h) (hact : s.actor op = some h) (k : Handle)
    (hk : s.actor op ≠ some k) : t.phase k = s.phase k ∧ t.heap.done k = s.heap.done k := by
  have hne : k ≠ h := by
    rintro rfl
    exact hk hact
  exact ⟨ho.phase k hne, ho.done k hne⟩

theorem Leave.stepSpec (hl : Leave s t h p) (hs : Inv s) (hn : ∀ b, s.phase h ≠ .waiting b)
    (hact : s.actor op = some h) : StepSpec s op t where
  inv := hl.inv hs
  waits _ _ hw := Or.inl (hl.kept hn hw)
  frame := hl.others.frame hact

theorem Batch.done {c : Contender} (hb : Batch c s t) : t.heap.done = s.heap.done := by
  induction hb with
  | still h => exact h.done
  | move hm _ => exact hm.done
  | trans _ _ ih ih' => exact ih'.trans ih

theorem Batch.stepSpec {c : Contender} (hc : c ≠ .cancellation) (hb : Batch c s t) (hs : Inv s)
    (hm : t.movers = s.movers) (hon : t.cancelledOn = s.cancelledOn) :
    StepSpec s op (s.record t c) where
  inv := hs.record hc hb hm hon
  waits _ _ hw := Or.inl (hb.kept hs.owned hw)
  frame k _ := ⟨congrFun (hb.effect hs.owned).1 k, congrFun hb.done k⟩

theorem Drained.stepSpec (hd : Drained s t) (hs : Inv s) : StepSpec s op t where
  inv := hd.inv hs
  waits _ _ hw := Or.inl (hd.kept hw)
  frame k _ := ⟨congrFun hd.phase k, by rw [hd.heap]⟩

theorem Popped.stepSpec {u : World} (hp : Popped s u h) (hs : Inv s) (on : LoopId)
    {sys : Except Errno ℕ} (hop : op = .resume sys ∨ op = .resumeForeign sys)
    (hact : s.actor op = some h) : StepSpec s op (u.resume h on sys) := by
  obtain ⟨p, hl⟩ := hp.resume hs on sys
  refine ⟨hl.inv hs, fun k b hb => ?_, hl.others.frame hact⟩
  by_cases hk : k = h
  · subst hk
    exact Or.inr ⟨u, on, sys, hop, hp, hp.resume_waiting hs hb on sys⟩
  · exact Or.inl (hl.others.kept hk hb)

theorem step_spec (hs : Inv s) (hstep : step s op = some t) : StepSpec s op t := by
  cases op with
  | wake h =>
    obtain ⟨hph, rfl⟩ := step_wake.mp hstep
    exact (Leave.wake hs.owned hph).stepSpec hs (by rw [hph]; simp) rfl
  | park h =>
    obtain ⟨on, hph, rfl⟩ := step_park.mp hstep
    exact (Leave.park hs.owned hph).stepSpec hs (not_waiting hph) rfl
  | finish h =>
    obtain ⟨on, hph, rfl⟩ := step_finish.mp hstep
    exact (Leave.finish hs.owned hph).stepSpec hs (not_waiting hph) rfl
  | await h kind fd cell token sys =>
    obtain ⟨on, hph, hfree, hawait⟩ := step_await.mp hstep
    rw [await_eq] at hawait
    obtain ⟨hb, hbegin⟩ := begun hs hph kind hfree fd token
    obtain ⟨hinv, hothers⟩ := hb.await (some on) sys
    rw [hawait] at hinv hothers
    refine ⟨hinv, fun k b hk => Or.inl ((hbegin.trans hothers).kept ?_ hk),
      (hbegin.trans hothers).frame rfl⟩
    rintro rfl
    exact not_waiting hph b hk
  | poll report =>
    rw [step, Option.some.injEq] at hstep
    subst hstep
    exact (poll_batch hs.owned report).stepSpec (by simp) hs rfl rfl
  | tick =>
    rw [step, Option.some.injEq] at hstep
    subst hstep
    exact (tick_batch hs.owned).stepSpec (by simp) hs rfl rfl
  | advanceTo target =>
    rw [step, Option.some.injEq] at hstep
    subst hstep
    exact (advanceTo_batch hs.owned target).stepSpec (by simp) hs rfl rfl
  | drainReactor =>
    rw [step, Option.some.injEq] at hstep
    subst hstep
    exact (drainReactor_drained s).stepSpec hs
  | drainTimer =>
    rw [step, Option.some.injEq] at hstep
    subst hstep
    exact (drainTimer_drained s).stepSpec hs
  | resume sys =>
    obtain ⟨h, rest, hr, rfl⟩ := step_resume.mp hstep
    exact (popped_ready hr).stepSpec hs ownerLoop (Or.inl rfl) (by simp [actor, hr])
  | resumeForeign sys =>
    obtain ⟨entry, rest, hr, rfl⟩ := step_resumeForeign.mp hstep
    exact (popped_foreign hr).stepSpec hs entry.1 (Or.inr rfl) (by simp [actor, hr])
  | requestStop src tls =>
    obtain ⟨-, rfl⟩ := step_requestStop.mp hstep
    have hstill : Still s { s with stopped := Function.update s.stopped src (some tls) } :=
      ⟨rfl, rfl, rfl, rfl, rfl, fun _ _ _ h => h, fun _ _ h => h, fun h => h, fun _ => rfl⟩
    exact hstill.stepSpec hs rfl rfl
  | callback h =>
    obtain ⟨a, src, tls, hw, -, -, -, ht⟩ := step_callback.mp hstep
    obtain ⟨hinv, hothers, hkept⟩ := hs.callback hw tls ht
    refine ⟨hinv, fun k b hb => Or.inl ?_, hothers.frame rfl⟩
    by_cases hk : k = h
    · subst hk
      rw [hw, Phase.waiting.injEq] at hb
      exact hb ▸ hkept
    · exact hothers.kept hk hb
  | deregister fd =>
    rw [step, Option.some.injEq] at hstep
    subst hstep
    exact (clearSlot_still s s.kernel fd).stepSpec hs rfl rfl
  | remove fd =>
    rw [step, Option.some.injEq] at hstep
    subst hstep
    exact (remove_still s fd).stepSpec hs rfl rfl
  | kernel k =>
    rw [step, Option.some.injEq] at hstep
    subst hstep
    have hstill : Still s { s with kernel := k } :=
      ⟨rfl, rfl, rfl, rfl, rfl, fun _ _ _ h => h, fun _ _ h => h, fun h => h, fun _ => rfl⟩
    exact hstill.stepSpec hs rfl rfl

end StepSpec

end Steps

theorem fresh_inv (now : ℤ) (m : Heap) (k : Kernel) : Inv (fresh now m k) := by
  have hwaiting : ∀ h a, (fresh now m k).phase h ≠ .waiting a := by simp [fresh]
  constructor
  case owned =>
    constructor
    case cell => exact fun h a hw => absurd hw (hwaiting h a)
    case slot =>
      intro i d e he
      simp [fresh, EpollReactor.slotAt, FdEntry.get_idle] at he
    case entry =>
      intro id e he
      obtain ⟨-, hl⟩ := entryAt_some he
      rw [lookup, show (fresh now m k).timer.wheel.slotmap = Slotmap.empty from rfl,
        Slotmap.get?_empty] at hl
      cases hl
    case ids =>
      rintro id ⟨j, r, hmem⟩
      by_cases hj : j = 0 <;>
        simp [fresh, TimerState.fresh, create, bucket, Level.ofSize, hj] at hmem
    case queue => exact fun h => rfl
    case result => exact fun h a hw => absurd hw (hwaiting h a)
    case done =>
      rintro h (⟨on, hr⟩ | ⟨a, ha⟩)
      · cases hr
      · cases ha
  case movers => exact fun h a hw => absurd hw (hwaiting h a)
  case cancels => exact fun h a hw => absurd hw (hwaiting h a)

theorem Reaches.inv {now : ℤ} {m : Heap} {k : Kernel} {ops : List WorldOp} {s : World}
    (h : Reaches now m k ops s) : Inv s :=
  Transition.invariant Inv (fun hstep hs => (step_spec hs hstep).inv) (fresh_inv now m k) h

end World
end RainRuntime
