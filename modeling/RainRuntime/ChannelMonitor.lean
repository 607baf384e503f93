import RainRuntime.Channel
import RainRuntime.CondVar

/-!
# The channel with its condition variables

The critical sections of `Channel` are the same as before; what is added is how a thread
comes to enter one. A call whose predicate does not hold joins `not_empty_` or `not_full_`
and gives the mutex back. A send that puts a value and a receive that takes one notify one
thread of the other side, and `close` notifies everybody, all of it under the mutex. The
frame of a waiting thread keeps what its call needs once it is woken.

A run of the monitor is a run of the channel (`Monitor.history_run`), so the facts about
its log hold here too.
-/

namespace RainRuntime

inductive WaitingCall (V : Type*) where
  | send (v : V)
  | recv
  | recvTimeout

namespace WaitingCall
variable {V : Type*}

def op (expired : Bool) : WaitingCall V → ChannelOp V
  | .send v => .send v
  | .recv => .recv
  | .recvTimeout => .recvTimeout expired

def ready (c : Channel (Item V)) (expired : Bool) : WaitingCall V → Bool
  | .send _ => c.sendReady
  | .recv => c.notEmpty
  | .recvTimeout => c.notEmpty || expired

end WaitingCall

structure Monitor (V : Type*) where
  history : ChannelRun V
  notEmpty : CondVar ℕ
  notFull : CondVar ℕ
  frame : ℕ → Option (WaitingCall V)

/-- `w` is the waiter that a `notify_one` of the step moves. `stirSender` and `stirReceiver`
are the spurious wake-ups and timeouts; a timed receiver that runs again may find its
deadline passed. -/
inductive MonitorOp (V : Type*) where
  | send (thread : ℕ) (v : V) (w : Option ℕ)
  | trySend (thread : ℕ) (v : V) (w : Option ℕ)
  | recv (thread : ℕ) (w : Option ℕ)
  | tryRecv (thread : ℕ) (w : Option ℕ)
  | recvTimeout (thread : ℕ) (w : Option ℕ)
  | close (thread : ℕ)
  | stirSender (thread : ℕ)
  | stirReceiver (thread : ℕ)
  | wakeSender (thread : ℕ) (w : Option ℕ)
  | wakeReceiver (thread : ℕ) (expired : Bool) (w : Option ℕ)

namespace Monitor
variable {V : Type*}

def start (capacity : ℕ) : Monitor V := ⟨.start capacity, .idle, .idle, fun _ => none⟩

def chan (s : Monitor V) : Channel (Item V) := s.history.chan

def signal (s : Monitor V) (w : Option ℕ) : ChannelEvent V → Option (Monitor V)
  | .send _ (.ok _) | .trySend _ (.ok _) =>
    (s.notEmpty.notifyOne w).map fun cv => { s with notEmpty := cv }
  | .recv (some _) | .tryRecv (some _) | .recvTimeout (some _) =>
    (s.notFull.notifyOne w).map fun cv => { s with notFull := cv }
  | .close => some { s with notEmpty := s.notEmpty.notifyAll, notFull := s.notFull.notifyAll }
  | _ => some s

def enter (s : Monitor V) (op : ChannelOp V) (w : Option ℕ) : Option (Monitor V) :=
  (s.chan.exec s.history.log.length op).bind fun r =>
    signal { s with history := ⟨r.2, s.history.log ++ [r.1]⟩ } w r.1

def sleep (s : Monitor V) (thread : ℕ) (call : WaitingCall V) : Monitor V :=
  match call with
  | .send _ => { s with
      notFull := s.notFull.wait thread
      frame := Function.update s.frame thread (some call) }
  | .recv | .recvTimeout => { s with
      notEmpty := s.notEmpty.wait thread
      frame := Function.update s.frame thread (some call) }

/-- `thread` holds the mutex at the head of the wait of its call: it goes on, or it joins the
wait set. -/
def attempt (s : Monitor V) (thread : ℕ) (expired : Bool) (w : Option ℕ)
    (call : WaitingCall V) : Option (Monitor V) :=
  if call.ready s.chan expired then
    enter { s with frame := Function.update s.frame thread none } (call.op expired) w
  else some (s.sleep thread call)

def step (s : Monitor V) : MonitorOp V → Option (Monitor V)
  | .send t v w => if (s.frame t).isNone then s.attempt t false w (.send v) else none
  | .trySend t v w => if (s.frame t).isNone then s.enter (.trySend v) w else none
  | .recv t w => if (s.frame t).isNone then s.attempt t false w .recv else none
  | .tryRecv t w => if (s.frame t).isNone then s.enter .tryRecv w else none
  | .recvTimeout t w => if (s.frame t).isNone then s.attempt t false w .recvTimeout else none
  | .close t => if (s.frame t).isNone then s.enter .close none else none
  | .stirSender t => (s.notFull.stir t).map fun cv => { s with notFull := cv }
  | .stirReceiver t => (s.notEmpty.stir t).map fun cv => { s with notEmpty := cv }
  | .wakeSender t w =>
    (s.notFull.leave t).bind fun cv =>
      match s.frame t with
      | some (.send v) => attempt { s with notFull := cv } t false w (.send v)
      | _ => none
  | .wakeReceiver t expired w =>
    (s.notEmpty.leave t).bind fun cv =>
      match s.frame t with
      | some .recv => attempt { s with notEmpty := cv } t false w .recv
      | some .recvTimeout => attempt { s with notEmpty := cv } t expired w .recvTimeout
      | _ => none

/-! ## The monitor refines the channel -/

theorem signal_history {s t : Monitor V} {w : Option ℕ} {e : ChannelEvent V}
    (h : s.signal w e = some t) : t.history = s.history := by
  unfold signal at h
  split at h
  case h_6 | h_7 =>
    cases h
    rfl
  all_goals
    obtain ⟨cv, -, rfl⟩ := Option.map_eq_some_iff.mp h
    rfl

theorem enter_history {s t : Monitor V} {op : ChannelOp V} {w : Option ℕ}
    (h : s.enter op w = some t) : s.history.step op = some t.history := by
  obtain ⟨r, hexec, hsignal⟩ := Option.bind_eq_some_iff.mp h
  rw [signal_history hsignal, ChannelRun.step]
  exact Option.map_eq_some_iff.mpr ⟨r, hexec, rfl⟩

def Linear (h h' : ChannelRun V) : Prop := h' = h ∨ ∃ op, h.step op = some h'

theorem attempt_linear {s t : Monitor V} {thread : ℕ} {expired : Bool} {w : Option ℕ}
    {call : WaitingCall V} (h : s.attempt thread expired w call = some t) :
    Linear s.history t.history := by
  simp only [attempt] at h
  split_ifs at h
  · have hcall := enter_history h
    exact Or.inr ⟨_, hcall⟩
  · cases h
    cases call <;> exact Or.inl rfl

theorem step_linear {s t : Monitor V} {op : MonitorOp V} (h : s.step op = some t) :
    Linear s.history t.history := by
  cases op with
  | send thread v w =>
    simp only [step] at h
    split_ifs at h
    exact attempt_linear h
  | trySend thread v w =>
    simp only [step] at h
    split_ifs at h
    exact Or.inr ⟨_, enter_history h⟩
  | recv thread w =>
    simp only [step] at h
    split_ifs at h
    exact attempt_linear h
  | tryRecv thread w =>
    simp only [step] at h
    split_ifs at h
    exact Or.inr ⟨_, enter_history h⟩
  | recvTimeout thread w =>
    simp only [step] at h
    split_ifs at h
    exact attempt_linear h
  | close thread =>
    simp only [step] at h
    split_ifs at h
    exact Or.inr ⟨_, enter_history h⟩
  | stirSender thread =>
    obtain ⟨cv, -, rfl⟩ := Option.map_eq_some_iff.mp h
    exact Or.inl rfl
  | stirReceiver thread =>
    obtain ⟨cv, -, rfl⟩ := Option.map_eq_some_iff.mp h
    exact Or.inl rfl
  | wakeSender thread w =>
    obtain ⟨cv, -, hcall⟩ := Option.bind_eq_some_iff.mp h
    split at hcall
    · have hlinear := attempt_linear hcall
      exact hlinear
    · cases hcall
  | wakeReceiver thread expired w =>
    obtain ⟨cv, -, hcall⟩ := Option.bind_eq_some_iff.mp h
    split at hcall
    · have hlinear := attempt_linear hcall
      exact hlinear
    · have hlinear := attempt_linear hcall
      exact hlinear
    · cases hcall

theorem history_run {capacity : ℕ} {s : Monitor V} {ops : List (MonitorOp V)}
    (hr : Transition.run step (start capacity) ops = some s) :
    ∃ calls, Transition.run ChannelRun.step (.start capacity) calls = some s.history := by
  refine Transition.simulation history ?_ hr
  intro t op u hstep
  rcases step_linear hstep with hsame | ⟨call, hcall⟩
  · exact ⟨[], by rw [hsame]; rfl⟩
  · exact ⟨[call], Transition.run_cons_eq_some.mpr ⟨_, hcall, rfl⟩⟩

/-! ## No wake-up is lost -/

/-- Receivers wait only on an open channel, and every queued value has a receiver that was
notified for it; the same for senders and free places. -/
structure Fed (c : Channel (Item V)) (notEmpty notFull : CondVar ℕ) : Prop where
  receivers : notEmpty.Covered (c.closed = false) c.queue.length
  senders : notFull.Covered (c.closed = false ∧ 0 < c.capacity) (c.capacity - c.queue.length)

section Sections
variable {c : Channel (Item V)} {receivers senders : CondVar ℕ} {cv : CondVar ℕ} {w : Option ℕ}

theorem fed_push (x : Item V) (hreceivers : receivers.Covered (c.closed = false) c.queue.length)
    (hsenders : senders.Covered (c.closed = false ∧ 0 < c.capacity)
      (c.capacity - c.queue.length - 1))
    (hcv : receivers.notifyOne w = some cv) : Fed (c.push x) cv senders := by
  constructor
  · simpa [Channel.push] using hreceivers.notifyOne hcv
  · refine hsenders.mono ?_
    simp only [Channel.push, List.length_append, List.length_singleton]
    omega

theorem fed_refused (hreason : c.closed = true ∨ c.capacity ≤ c.queue.length)
    (hreceivers : receivers.Covered (c.closed = false) c.queue.length)
    (hsenders : senders.Covered (c.closed = false ∧ 0 < c.capacity)
      (c.capacity - c.queue.length - 1)) : Fed c receivers senders := by
  refine ⟨hreceivers, ?_⟩
  rcases hreason with hclosed | hfull
  · refine hsenders.of_not fun hok => ?_
    rw [hclosed] at hok
    cases hok.1
  · exact hsenders.mono (by omega)

theorem fed_pop {x : Item V} {rest : List (Item V)} (hqueue : c.queue = x :: rest)
    (hreceivers : receivers.Covered (c.closed = false) (c.queue.length - 1))
    (hsenders : senders.Covered (c.closed = false ∧ 0 < c.capacity)
      (c.capacity - c.queue.length))
    (hcv : senders.notifyOne w = some cv) : Fed { c with queue := rest } receivers cv := by
  rw [hqueue, List.length_cons] at hreceivers hsenders
  refine ⟨hreceivers, (hsenders.notifyOne hcv).mono ?_⟩
  simp only
  omega

theorem fed_missed (hqueue : c.queue = [])
    (hreceivers : receivers.Covered (c.closed = false) (c.queue.length - 1))
    (hsenders : senders.Covered (c.closed = false ∧ 0 < c.capacity)
      (c.capacity - c.queue.length)) : Fed c receivers senders := by
  refine ⟨hreceivers.mono ?_, hsenders⟩
  rw [hqueue]
  exact Nat.zero_le _

end Sections

theorem signal_of_accepted {s : Monitor V} {w : Option ℕ} {e : ChannelEvent V} {x : Item V}
    (h : e.accepted = some x) :
    s.signal w e = (s.notEmpty.notifyOne w).map fun cv => { s with notEmpty := cv } := by
  unfold ChannelEvent.accepted at h
  split at h
  · rfl
  · rfl
  · cases h

theorem signal_of_received {s : Monitor V} {w : Option ℕ} {e : ChannelEvent V} {x : Item V}
    (h : e.received = some x) :
    s.signal w e = (s.notFull.notifyOne w).map fun cv => { s with notFull := cv } := by
  unfold ChannelEvent.received at h
  split at h
  · cases h; rfl
  · cases h; rfl
  · cases h; rfl
  · cases h

theorem signal_of_neither {s : Monitor V} {w : Option ℕ} {e : ChannelEvent V}
    (haccepted : e.accepted = none) (hreceived : e.received = none) (hclose : e ≠ .close) :
    s.signal w e = some s := by
  unfold signal
  split
  · cases haccepted
  · cases haccepted
  · cases hreceived
  · cases hreceived
  · cases hreceived
  · exact absurd rfl hclose
  · rfl

/-- A send may start with one notified sender less than the rule asks for: its own. -/
theorem fed_of_put {s t : Monitor V} {op : ChannelOp V} {w : Option ℕ} (hputs : op.puts = true)
    (hreceivers : s.notEmpty.Covered (s.chan.closed = false) s.chan.queue.length)
    (hsenders : s.notFull.Covered (s.chan.closed = false ∧ 0 < s.chan.capacity)
      (s.chan.capacity - s.chan.queue.length - 1))
    (h : s.enter op w = some t) : Fed t.chan t.notEmpty t.notFull := by
  obtain ⟨⟨e, c⟩, hexec, hsignal⟩ := Option.bind_eq_some_iff.mp h
  cases Channel.exec_effect hexec with
  | pushed x _ _ haccepted _ _ _ _ =>
    rw [signal_of_accepted haccepted] at hsignal
    obtain ⟨cv, hcv, rfl⟩ := Option.map_eq_some_iff.mp hsignal
    exact fed_push x hreceivers hsenders hcv
  | refused x _ _ haccepted hrejected hreceived hreason =>
    rw [signal_of_neither haccepted hreceived (by rintro rfl; cases hrejected)] at hsignal
    obtain rfl := Option.some.inj hsignal
    exact fed_refused hreason hreceivers hsenders
  | popped _ _ htakes _ _ _ _ => cases op <;> cases hputs <;> cases htakes
  | missed htakes _ _ _ _ _ _ => cases op <;> cases hputs <;> cases htakes
  | closed hclose =>
    subst hclose
    cases hputs

/-- A receive may start with one notified receiver less than the rule asks for: its own. -/
theorem fed_of_take {s t : Monitor V} {op : ChannelOp V} {w : Option ℕ} (htakes : op.takes = true)
    (hreceivers : s.notEmpty.Covered (s.chan.closed = false) (s.chan.queue.length - 1))
    (hsenders : s.notFull.Covered (s.chan.closed = false ∧ 0 < s.chan.capacity)
      (s.chan.capacity - s.chan.queue.length))
    (h : s.enter op w = some t) : Fed t.chan t.notEmpty t.notFull := by
  obtain ⟨⟨e, c⟩, hexec, hsignal⟩ := Option.bind_eq_some_iff.mp h
  cases Channel.exec_effect hexec with
  | pushed _ hputs _ _ _ _ _ _ => cases op <;> cases hputs <;> cases htakes
  | refused _ hputs _ _ _ _ _ => cases op <;> cases hputs <;> cases htakes
  | popped x rest _ hqueue _ _ hreceived =>
    rw [signal_of_received hreceived] at hsignal
    obtain ⟨cv, hcv, rfl⟩ := Option.map_eq_some_iff.mp hsignal
    exact fed_pop hqueue hreceivers hsenders hcv
  | missed _ hqueue haccepted _ hreceived _ hclose =>
    rw [signal_of_neither haccepted hreceived hclose] at hsignal
    obtain rfl := Option.some.inj hsignal
    exact fed_missed hqueue hreceivers hsenders
  | closed hclose =>
    subst hclose
    cases htakes

theorem fed_of_close {s t : Monitor V} (h : s.enter .close none = some t) :
    Fed t.chan t.notEmpty t.notFull := by
  simp only [enter, Channel.exec, signal, Option.bind_some, Option.some.injEq] at h
  subst h
  exact ⟨CondVar.covered_notifyAll, CondVar.covered_notifyAll⟩

theorem fed_of_attempt_send {s t : Monitor V} {thread : ℕ} {v : V} {w : Option ℕ}
    (hreceivers : s.notEmpty.Covered (s.chan.closed = false) s.chan.queue.length)
    (hsenders : s.notFull.Covered (s.chan.closed = false ∧ 0 < s.chan.capacity)
      (s.chan.capacity - s.chan.queue.length - 1))
    (h : s.attempt thread false w (.send v) = some t) : Fed t.chan t.notEmpty t.notFull := by
  simp only [attempt] at h
  split_ifs at h with hready
  · refine fed_of_put ?_ ?_ ?_ h
    · rfl
    · exact hreceivers
    · exact hsenders
  · -- the predicate is false: the channel is open and has a bound, which is reached
    have hfull : (s.chan.closed = false ∧ 0 < s.chan.capacity) ∧
        s.chan.capacity ≤ s.chan.queue.length := by
      simp only [WaitingCall.ready, Channel.sendReady, Channel.notFull, Bool.or_eq_true,
        decide_eq_true_eq, not_or, Bool.not_eq_true, not_lt] at hready
      exact ⟨⟨hready.2.2, Nat.pos_of_ne_zero hready.1⟩, hready.2.1⟩
    cases h
    refine ⟨hreceivers, (CondVar.covered_wait hfull.1 thread).mono ?_⟩
    exact Nat.le_of_eq (Nat.sub_eq_zero_of_le hfull.2)

theorem fed_of_attempt_take {s t : Monitor V} {thread : ℕ} {expired : Bool} {w : Option ℕ}
    {call : WaitingCall V} (htakes : (call.op expired).takes = true)
    (hreceivers : s.notEmpty.Covered (s.chan.closed = false) (s.chan.queue.length - 1))
    (hsenders : s.notFull.Covered (s.chan.closed = false ∧ 0 < s.chan.capacity)
      (s.chan.capacity - s.chan.queue.length))
    (h : s.attempt thread expired w call = some t) : Fed t.chan t.notEmpty t.notFull := by
  simp only [attempt] at h
  split_ifs at h with hready
  · refine fed_of_take htakes ?_ ?_ h
    · exact hreceivers
    · exact hsenders
  · have hempty : s.chan.closed = false ∧ s.chan.queue = [] := by
      have hnot : s.chan.notEmpty = false := by
        cases call with
        | send v => cases htakes
        | recv => simpa [WaitingCall.ready] using hready
        | recvTimeout =>
          simp only [WaitingCall.ready, Bool.or_eq_true, not_or, Bool.not_eq_true] at hready
          exact hready.1
      simpa [Channel.notEmpty, and_comm] using hnot
    have hzero : s.chan.queue.length ≤ 0 := by rw [hempty.2]; exact Nat.le_refl 0
    cases h
    cases call with
    | send v => cases htakes
    | recv => exact ⟨(CondVar.covered_wait hempty.1 thread).mono hzero, hsenders⟩
    | recvTimeout => exact ⟨(CondVar.covered_wait hempty.1 thread).mono hzero, hsenders⟩

theorem fed_step {s t : Monitor V} {op : MonitorOp V} (h : s.step op = some t)
    (hs : Fed s.chan s.notEmpty s.notFull) : Fed t.chan t.notEmpty t.notFull := by
  have hreceivers := hs.receivers
  have hsenders := hs.senders
  cases op with
  | send thread v w =>
    simp only [step] at h
    split_ifs at h
    exact fed_of_attempt_send hreceivers (hsenders.mono (Nat.sub_le _ _)) h
  | trySend thread v w =>
    simp only [step] at h
    split_ifs at h
    exact fed_of_put rfl hreceivers (hsenders.mono (Nat.sub_le _ _)) h
  | recv thread w =>
    simp only [step] at h
    split_ifs at h
    exact fed_of_attempt_take rfl (hreceivers.mono (Nat.sub_le _ _)) hsenders h
  | tryRecv thread w =>
    simp only [step] at h
    split_ifs at h
    exact fed_of_take rfl (hreceivers.mono (Nat.sub_le _ _)) hsenders h
  | recvTimeout thread w =>
    simp only [step] at h
    split_ifs at h
    exact fed_of_attempt_take rfl (hreceivers.mono (Nat.sub_le _ _)) hsenders h
  | close thread =>
    simp only [step] at h
    split_ifs at h
    exact fed_of_close h
  | stirSender thread =>
    obtain ⟨cv, hcv, rfl⟩ := Option.map_eq_some_iff.mp h
    exact ⟨hreceivers, hsenders.stir hcv⟩
  | stirReceiver thread =>
    obtain ⟨cv, hcv, rfl⟩ := Option.map_eq_some_iff.mp h
    exact ⟨hreceivers.stir hcv, hsenders⟩
  | wakeSender thread w =>
    obtain ⟨cv, hcv, hcall⟩ := Option.bind_eq_some_iff.mp h
    have hless := hsenders.leave hcv
    split at hcall
    · refine fed_of_attempt_send ?_ ?_ hcall
      · exact hreceivers
      · exact hless
    · cases hcall
  | wakeReceiver thread expired w =>
    obtain ⟨cv, hcv, hcall⟩ := Option.bind_eq_some_iff.mp h
    have hless := hreceivers.leave hcv
    split at hcall
    · refine fed_of_attempt_take rfl ?_ ?_ hcall
      · exact hless
      · exact hsenders
    · refine fed_of_attempt_take rfl ?_ ?_ hcall
      · exact hless
      · exact hsenders
    · cases hcall

/-- Nobody inside a call can run: whoever is not done with its call is in a wait set. -/
def AllAsleep (s : Monitor V) : Prop :=
  s.notEmpty.notified = [] ∧ s.notEmpty.stirred = [] ∧
    s.notFull.notified = [] ∧ s.notFull.stirred = []

/-- A waiting thread always has somebody on the way who takes what it waits for, so that a
channel whose threads all sleep has nothing to offer to any of them. -/
theorem channel_wakeups_not_lost (capacity : ℕ) {s : Monitor V} {ops : List (MonitorOp V)}
    (hr : Transition.run step (start capacity) ops = some s) :
    (s.notEmpty.waiting ≠ [] →
        s.chan.closed = false ∧ s.chan.queue.length ≤ s.notEmpty.notified.length) ∧
      (s.notFull.waiting ≠ [] →
        s.chan.closed = false ∧ 0 < s.chan.capacity ∧
          s.chan.capacity - s.chan.queue.length ≤ s.notFull.notified.length) ∧
      (s.AllAsleep →
        (s.notEmpty.waiting ≠ [] → s.chan.notEmpty = false) ∧
          (s.notFull.waiting ≠ [] → s.chan.notFull = false)) := by
  have hfed : Fed s.chan s.notEmpty s.notFull :=
    Transition.invariant (fun s : Monitor V => Fed s.chan s.notEmpty s.notFull) fed_step
      ⟨CondVar.covered_idle, CondVar.covered_idle⟩ hr
  refine ⟨hfed.receivers, ?_, ?_⟩
  · intro hwaiting
    obtain ⟨⟨hopen, hpos⟩, hcover⟩ := hfed.senders hwaiting
    exact ⟨hopen, hpos, hcover⟩
  · rintro ⟨hreceivers, -, hsenders, -⟩
    constructor
    · intro hwaiting
      obtain ⟨hopen, hcover⟩ := hfed.receivers hwaiting
      rw [hreceivers, List.length_nil, Nat.le_zero, List.length_eq_zero_iff] at hcover
      simp [Channel.notEmpty, hopen, hcover]
    · intro hwaiting
      obtain ⟨⟨hopen, -⟩, hcover⟩ := hfed.senders hwaiting
      rw [hsenders, List.length_nil] at hcover
      have hfull : s.chan.capacity ≤ s.chan.queue.length := by omega
      simp [Channel.notFull, hopen, hfull]

/-- Thread 1 waits, thread 2 sends and notifies it, thread 3 takes the value before it runs,
and thread 1 goes back to sleep. -/
theorem channel_wakeups_not_lost_on_barging :
    ∃ s : Monitor ℕ, Transition.run step (start 1)
        [.recv 1 none, .send 2 10 (some 1), .tryRecv 3 none, .wakeReceiver 1 false none] = some s ∧
      s.AllAsleep ∧ s.notEmpty.waiting = [1] ∧ s.chan.notEmpty = false := by
  obtain ⟨s, hrun, hasleep, hwaiting⟩ : ∃ s : Monitor ℕ, Transition.run step (start 1)
        [.recv 1 none, .send 2 10 (some 1), .tryRecv 3 none, .wakeReceiver 1 false none] = some s ∧
      s.AllAsleep ∧ s.notEmpty.waiting = [1] := ⟨_, rfl, ⟨rfl, rfl, rfl, rfl⟩, rfl⟩
  refine ⟨s, hrun, hasleep, hwaiting, ?_⟩
  exact ((channel_wakeups_not_lost 1 hrun).2.2 hasleep).1 (by rw [hwaiting]; simp)

end Monitor
end RainRuntime
