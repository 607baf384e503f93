import RainRuntime.Transition
import RainRuntime.Types

/-!
# The bounded channel

`Channel` is a queue behind one mutex. Every operation is one critical section, so a
run of the channel, whatever threads take part, is a sequence of these sections; a
blocking operation takes its turn once the predicate of its wait holds. The log keeps
what each call returned. A sent value is kept together with the number of its call, so
that two sends of equal values stay apart.

A capacity of zero means that the channel has no bound.
-/

namespace RainRuntime

structure Channel (T : Type*) where
  queue : List T
  capacity : ℕ
  closed : Bool

namespace Channel
variable {T : Type*}

def make (capacity : ℕ) : Channel T := ⟨[], capacity, false⟩

def closedError : SystemError := ⟨.brokenPipe, .text "send on closed channel"⟩

def fullError : SystemError := ⟨.resourceUnavailableTryAgain, .text "send on full channel"⟩

def notFull (c : Channel T) : Bool := decide (c.queue.length < c.capacity) || c.closed

def notEmpty (c : Channel T) : Bool := !c.queue.isEmpty || c.closed

def sendReady (c : Channel T) : Bool := decide (c.capacity = 0) || c.notFull

def push (c : Channel T) (v : T) : Channel T := { c with queue := c.queue ++ [v] }

def send (c : Channel T) (v : T) : Result Unit × Channel T :=
  if c.closed then (.error closedError, c) else (.ok (), c.push v)

def trySend (c : Channel T) (v : T) : Result Unit × Channel T :=
  if c.closed then (.error closedError, c)
  else if 0 < c.capacity ∧ c.capacity ≤ c.queue.length then (.error fullError, c)
  else (.ok (), c.push v)

def tryRecv (c : Channel T) : Option T × Channel T :=
  match c.queue with
  | [] => (none, c)
  | v :: rest => (some v, { c with queue := rest })

def recv (c : Channel T) : Option T × Channel T := c.tryRecv

def recvTimeout (c : Channel T) : Option T × Channel T :=
  if c.notEmpty then c.tryRecv else (none, c)

def close (c : Channel T) : Channel T := { c with closed := true }

end Channel

/-- A sent value with the number of the call that sent it. -/
structure Item (V : Type*) where
  call : ℕ
  value : V

inductive ChannelOp (V : Type*) where
  | send (v : V)
  | trySend (v : V)
  | recv
  | tryRecv
  | recvTimeout (expired : Bool)
  | close

namespace ChannelOp
variable {V : Type*}

def puts : ChannelOp V → Bool
  | .send _ | .trySend _ => true
  | _ => false

def value : ChannelOp V → Option V
  | .send v | .trySend v => some v
  | _ => none

def takes : ChannelOp V → Bool
  | .recv | .tryRecv | .recvTimeout _ => true
  | _ => false

end ChannelOp

inductive ChannelEvent (V : Type*) where
  | send (x : Item V) (r : Result Unit)
  | trySend (x : Item V) (r : Result Unit)
  | recv (r : Option (Item V))
  | tryRecv (r : Option (Item V))
  | recvTimeout (r : Option (Item V))
  | close

namespace ChannelEvent
variable {V : Type*}

def accepted : ChannelEvent V → Option (Item V)
  | .send x (.ok _) | .trySend x (.ok _) => some x
  | _ => none

def rejected : ChannelEvent V → Option (Item V)
  | .send x (.error _) | .trySend x (.error _) => some x
  | _ => none

def received : ChannelEvent V → Option (Item V)
  | .recv r | .tryRecv r | .recvTimeout r => r
  | _ => none

end ChannelEvent

namespace Channel
variable {V : Type*}

def exec (c : Channel (Item V)) (n : ℕ) :
    ChannelOp V → Option (ChannelEvent V × Channel (Item V))
  | .send v =>
    if c.sendReady then some (.send ⟨n, v⟩ (c.send ⟨n, v⟩).1, (c.send ⟨n, v⟩).2) else none
  | .trySend v => some (.trySend ⟨n, v⟩ (c.trySend ⟨n, v⟩).1, (c.trySend ⟨n, v⟩).2)
  | .recv => if c.notEmpty then some (.recv c.recv.1, c.recv.2) else none
  | .tryRecv => some (.tryRecv c.tryRecv.1, c.tryRecv.2)
  | .recvTimeout expired =>
    if c.notEmpty || expired then some (.recvTimeout c.recvTimeout.1, c.recvTimeout.2) else none
  | .close => some (.close, c.close)

/-- What a critical section can do to the channel: a send puts its own item at the end or is
refused, a receive takes the first item or finds nothing, and a close closes. -/
inductive Effect (c : Channel (Item V)) (n : ℕ) (op : ChannelOp V) :
    ChannelEvent V → Channel (Item V) → Prop
  | pushed {e : ChannelEvent V} (x : Item V) (puts : op.puts = true) (call : x.call = n)
      (accepted : e.accepted = some x) (rejected : e.rejected = none)
      (received : e.received = none) (isOpen : c.closed = false)
      (room : c.capacity = 0 ∨ c.queue.length < c.capacity) : Effect c n op e (c.push x)
  | refused {e : ChannelEvent V} (x : Item V) (puts : op.puts = true) (call : x.call = n)
      (accepted : e.accepted = none) (rejected : e.rejected = some x)
      (received : e.received = none)
      (reason : c.closed = true ∨ c.capacity ≤ c.queue.length) : Effect c n op e c
  | popped {e : ChannelEvent V} (x : Item V) (rest : List (Item V)) (takes : op.takes = true)
      (queue : c.queue = x :: rest) (accepted : e.accepted = none) (rejected : e.rejected = none)
      (received : e.received = some x) : Effect c n op e { c with queue := rest }
  | missed {e : ChannelEvent V} (takes : op.takes = true) (queue : c.queue = [])
      (accepted : e.accepted = none) (rejected : e.rejected = none) (received : e.received = none)
      (drained : e = .recv none → c.closed = true) (notClose : e ≠ .close) : Effect c n op e c
  | closed (isClose : op = .close) : Effect c n op .close c.close

theorem tryRecv_cases (c : Channel (Item V)) :
    (c.queue = [] ∧ c.tryRecv = (none, c)) ∨
      ∃ x rest, c.queue = x :: rest ∧ c.tryRecv = (some x, { c with queue := rest }) := by
  cases hq : c.queue with
  | nil => exact Or.inl ⟨rfl, by simp [tryRecv, hq]⟩
  | cons x rest => exact Or.inr ⟨x, rest, rfl, by simp [tryRecv, hq]⟩

theorem exec_effect {c c' : Channel (Item V)} {n : ℕ} {op : ChannelOp V} {e : ChannelEvent V}
    (h : c.exec n op = some (e, c')) : Effect c n op e c' := by
  cases op with
  | send v =>
    simp only [exec] at h
    split_ifs at h with hready
    obtain ⟨rfl, rfl⟩ := Prod.mk.inj (Option.some.inj h)
    by_cases hc : c.closed = true
    · simp only [send, hc, if_true]
      exact .refused ⟨n, v⟩ rfl rfl rfl rfl rfl (Or.inl hc)
    · rw [Bool.not_eq_true] at hc
      simp only [send, hc, Bool.false_eq_true, if_false]
      refine .pushed ⟨n, v⟩ rfl rfl rfl rfl rfl hc ?_
      simpa [sendReady, notFull, hc] using hready
  | trySend v =>
    obtain ⟨rfl, rfl⟩ := Prod.mk.inj (Option.some.inj h)
    by_cases hc : c.closed = true
    · simp only [trySend, hc, if_true]
      exact .refused ⟨n, v⟩ rfl rfl rfl rfl rfl (Or.inl hc)
    · rw [Bool.not_eq_true] at hc
      by_cases hfull : 0 < c.capacity ∧ c.capacity ≤ c.queue.length
      · simp only [trySend, hc, Bool.false_eq_true, if_false, hfull, and_self, if_true]
        exact .refused ⟨n, v⟩ rfl rfl rfl rfl rfl (Or.inr hfull.2)
      · simp only [trySend, hc, Bool.false_eq_true, if_false, hfull]
        exact .pushed ⟨n, v⟩ rfl rfl rfl rfl rfl hc (by omega)
  | recv =>
    simp only [exec] at h
    split_ifs at h with hready
    obtain ⟨rfl, rfl⟩ := Prod.mk.inj (Option.some.inj h)
    rcases c.tryRecv_cases with ⟨hq, hr⟩ | ⟨x, rest, hq, hr⟩
    · simp only [recv, hr]
      have hclosed : c.closed = true := by simpa [notEmpty, hq] using hready
      exact .missed rfl hq rfl rfl rfl (fun _ => hclosed) nofun
    · simp only [recv, hr]
      exact .popped x rest rfl hq rfl rfl rfl
  | tryRecv =>
    obtain ⟨rfl, rfl⟩ := Prod.mk.inj (Option.some.inj h)
    rcases c.tryRecv_cases with ⟨hq, hr⟩ | ⟨x, rest, hq, hr⟩
    · simp only [hr]
      exact .missed rfl hq rfl rfl rfl nofun nofun
    · simp only [hr]
      exact .popped x rest rfl hq rfl rfl rfl
  | recvTimeout expired =>
    simp only [exec] at h
    split_ifs at h
    obtain ⟨rfl, rfl⟩ := Prod.mk.inj (Option.some.inj h)
    rcases c.tryRecv_cases with ⟨hq, hr⟩ | ⟨x, rest, hq, hr⟩
    · have hnone : c.recvTimeout = (none, c) := by simp [recvTimeout, hr]
      simp only [hnone]
      exact .missed rfl hq rfl rfl rfl nofun nofun
    · have hsome : c.recvTimeout = (some x, { c with queue := rest }) := by
        simp [recvTimeout, notEmpty, hq, hr]
      simp only [hsome]
      exact .popped x rest rfl hq rfl rfl rfl
  | close =>
    obtain ⟨rfl, rfl⟩ := Prod.mk.inj (Option.some.inj h)
    exact .closed rfl

theorem exec_accepted {c c' : Channel (Item V)} {n : ℕ} {op : ChannelOp V} {e : ChannelEvent V}
    (h : c.exec n op = some (e, c')) {x : Item V} (hx : e.accepted = some x) :
    op.value = some x.value := by
  cases op with
  | send v =>
    simp only [exec] at h
    split_ifs at h
    obtain ⟨rfl, -⟩ := Prod.mk.inj (Option.some.inj h)
    cases hr : (c.send ⟨n, v⟩).1 with
    | ok _ =>
      rw [hr] at hx
      cases hx
      rfl
    | error _ =>
      rw [hr] at hx
      cases hx
  | trySend v =>
    obtain ⟨rfl, -⟩ := Prod.mk.inj (Option.some.inj h)
    cases hr : (c.trySend ⟨n, v⟩).1 with
    | ok _ =>
      rw [hr] at hx
      cases hx
      rfl
    | error _ =>
      rw [hr] at hx
      cases hx
  | recv =>
    simp only [exec] at h
    split_ifs at h
    obtain ⟨rfl, -⟩ := Prod.mk.inj (Option.some.inj h)
    cases hx
  | tryRecv =>
    obtain ⟨rfl, -⟩ := Prod.mk.inj (Option.some.inj h)
    cases hx
  | recvTimeout expired =>
    simp only [exec] at h
    split_ifs at h
    obtain ⟨rfl, -⟩ := Prod.mk.inj (Option.some.inj h)
    cases hx
  | close =>
    obtain ⟨rfl, -⟩ := Prod.mk.inj (Option.some.inj h)
    cases hx

end Channel

structure ChannelRun (V : Type*) where
  chan : Channel (Item V)
  log : List (ChannelEvent V)

namespace ChannelRun
variable {V : Type*}

def start (capacity : ℕ) : ChannelRun V := ⟨.make capacity, []⟩

def step (s : ChannelRun V) (op : ChannelOp V) : Option (ChannelRun V) :=
  (s.chan.exec s.log.length op).map fun r => ⟨r.2, s.log ++ [r.1]⟩

def accepted (log : List (ChannelEvent V)) : List (Item V) := log.filterMap ChannelEvent.accepted

def rejected (log : List (ChannelEvent V)) : List (Item V) := log.filterMap ChannelEvent.rejected

def received (log : List (ChannelEvent V)) : List (Item V) := log.filterMap ChannelEvent.received

theorem step_effect {s t : ChannelRun V} {op : ChannelOp V} (h : s.step op = some t) :
    ∃ e, t.log = s.log ++ [e] ∧ s.chan.Effect s.log.length op e t.chan := by
  rw [step, Option.map_eq_some_iff] at h
  obtain ⟨⟨e, c⟩, he, rfl⟩ := h
  exact ⟨e, rfl, Channel.exec_effect he⟩

theorem step_recv {s t : ChannelRun V} (h : s.step .recv = some t) :
    s.chan.notEmpty = true ∧ t = ⟨s.chan.recv.2, s.log ++ [.recv s.chan.recv.1]⟩ := by
  simp only [step, Channel.exec] at h
  by_cases hready : s.chan.notEmpty = true
  · rw [if_pos hready] at h
    exact ⟨hready, (Option.some.inj h).symm⟩
  · rw [if_neg hready] at h
    cases h

theorem step_drained {s t : ChannelRun V} {op : ChannelOp V} (h : s.step op = some t)
    (hs : s.chan.closed = true ∧ s.chan.queue = []) :
    t.chan.closed = true ∧ t.chan.queue = [] := by
  obtain ⟨e, -, heff⟩ := step_effect h
  obtain ⟨c, log⟩ := t
  cases heff with
  | pushed x _ _ _ _ _ hopen _ =>
    rw [hs.1] at hopen
    cases hopen
  | refused _ _ _ _ _ _ _ => exact hs
  | popped x rest _ hqueue _ _ _ =>
    rw [hs.2] at hqueue
    cases hqueue
  | missed _ _ _ _ _ _ _ => exact hs
  | closed _ => exact ⟨rfl, hs.2⟩

structure Inv (capacity : ℕ) (s : ChannelRun V) : Prop where
  capacity_eq : s.chan.capacity = capacity
  fifo : received s.log ++ s.chan.queue = accepted s.log
  bounded : 0 < capacity → s.chan.queue.length ≤ capacity
  closed_iff : s.chan.closed = true ↔ ChannelEvent.close ∈ s.log
  afterClose : ∀ pre post e, s.log = pre ++ e :: post → .close ∈ pre → e.accepted = none
  atEnd : ∀ pre post e, s.log = pre ++ e :: post → e = .recv none →
    .close ∈ pre ∧ received pre = accepted pre
  numbers : ∀ x, x ∈ accepted s.log ∨ x ∈ rejected s.log → x.call < s.log.length
  apart : ∀ x ∈ rejected s.log, ∀ y ∈ accepted s.log, x.call ≠ y.call
  distinct : ((accepted s.log).map Item.call).Nodup

theorem inv_start (capacity : ℕ) : Inv capacity (start capacity : ChannelRun V) where
  capacity_eq := rfl
  fifo := rfl
  bounded := fun _ => Nat.zero_le _
  closed_iff := by simp [start, Channel.make]
  afterClose := by simp [start]
  atEnd := by simp [start]
  numbers := by simp [start, accepted, rejected]
  apart := by simp [start, rejected]
  distinct := by simp [start, accepted]

@[simp] theorem accepted_concat (log : List (ChannelEvent V)) (e : ChannelEvent V) :
    accepted (log ++ [e]) = accepted log ++ e.accepted.toList := by
  cases h : e.accepted <;> simp [accepted, h]

@[simp] theorem rejected_concat (log : List (ChannelEvent V)) (e : ChannelEvent V) :
    rejected (log ++ [e]) = rejected log ++ e.rejected.toList := by
  cases h : e.rejected <;> simp [rejected, h]

@[simp] theorem received_concat (log : List (ChannelEvent V)) (e : ChannelEvent V) :
    received (log ++ [e]) = received log ++ e.received.toList := by
  cases h : e.received <;> simp [received, h]

section Step
variable {capacity : ℕ} {s : ChannelRun V} {op : ChannelOp V} {e : ChannelEvent V}
  {c : Channel (Item V)}

theorem Inv.step_chan (hs : Inv capacity s) (he : s.chan.Effect s.log.length op e c) :
    c.capacity = capacity ∧ received (s.log ++ [e]) ++ c.queue = accepted (s.log ++ [e]) ∧
      (0 < capacity → c.queue.length ≤ capacity) ∧
      (c.closed = true ↔ ChannelEvent.close ∈ s.log ++ [e]) := by
  have hcap := hs.capacity_eq
  have hfifo := hs.fifo
  have hbound := hs.bounded
  have hclosed := hs.closed_iff
  cases he with
  | pushed x _ _ haccepted _ hreceived _ hroom =>
    have hne : e ≠ .close := by rintro rfl; cases haccepted
    refine ⟨hcap, ?_, ?_, ?_⟩
    · simp [haccepted, hreceived, Channel.push, ← hfifo]
    · intro hpos
      simp only [Channel.push, List.length_append, List.length_singleton]
      omega
    · simp [Channel.push, hclosed, hne.symm]
  | refused x _ _ haccepted hrejected hreceived _ =>
    have hne : e ≠ .close := by rintro rfl; cases hrejected
    refine ⟨hcap, ?_, hbound, ?_⟩
    · simpa [haccepted, hreceived] using hfifo
    · simp [hclosed, hne.symm]
  | popped x rest _ hqueue haccepted _ hreceived =>
    have hne : e ≠ .close := by rintro rfl; cases hreceived
    rw [hqueue] at hfifo hbound
    refine ⟨hcap, ?_, ?_, ?_⟩
    · simp [haccepted, hreceived, ← hfifo]
    · intro hpos
      exact Nat.le_of_succ_le (hbound hpos)
    · simp [hclosed, hne.symm]
  | missed _ _ haccepted _ hreceived _ hne =>
    refine ⟨hcap, ?_, hbound, ?_⟩
    · simpa [haccepted, hreceived] using hfifo
    · simp [hclosed, hne.symm]
  | closed _ =>
    refine ⟨hcap, ?_, hbound, ?_⟩
    · simpa [ChannelEvent.received, ChannelEvent.accepted, Channel.close] using hfifo
    · simp [Channel.close]

theorem Inv.step_calls (hs : Inv capacity s) (he : s.chan.Effect s.log.length op e c) :
    (∀ x, x ∈ accepted (s.log ++ [e]) ∨ x ∈ rejected (s.log ++ [e]) →
        x.call < s.log.length + 1) ∧
      (∀ x ∈ rejected (s.log ++ [e]), ∀ y ∈ accepted (s.log ++ [e]), x.call ≠ y.call) ∧
      ((accepted (s.log ++ [e])).map Item.call).Nodup := by
  have hnumbers := hs.numbers
  have hrejected : ∀ x, e.rejected = some x → x.call = s.log.length ∧ e.accepted = none := by
    intro x hx
    cases he with
    | pushed _ _ _ _ hnone _ _ _ => rw [hnone] at hx; cases hx
    | refused y _ hcall haccepted hy _ _ => rw [hy] at hx; cases hx; exact ⟨hcall, haccepted⟩
    | popped _ _ _ _ _ hnone _ => rw [hnone] at hx; cases hx
    | missed _ _ _ hnone _ _ _ => rw [hnone] at hx; cases hx
    | closed _ => cases hx
  have haccepted : ∀ x, e.accepted = some x → x.call = s.log.length := by
    intro x hx
    cases he with
    | pushed y _ hcall hy _ _ _ _ => rw [hy] at hx; cases hx; exact hcall
    | refused _ _ _ hnone _ _ _ => rw [hnone] at hx; cases hx
    | popped _ _ _ _ hnone _ _ => rw [hnone] at hx; cases hx
    | missed _ _ hnone _ _ _ _ => rw [hnone] at hx; cases hx
    | closed _ => cases hx
  simp only [accepted_concat, rejected_concat, List.mem_append, Option.mem_toList]
  refine ⟨?_, ?_, ?_⟩
  · rintro x ((hx | hx) | (hx | hx))
    · exact Nat.lt_succ_of_lt (hnumbers x (Or.inl hx))
    · exact (haccepted x hx).symm ▸ Nat.lt_succ_self _
    · exact Nat.lt_succ_of_lt (hnumbers x (Or.inr hx))
    · exact (hrejected x hx).1.symm ▸ Nat.lt_succ_self _
  · rintro x (hx | hx) y (hy | hy) heq
    · exact hs.apart x hx y hy heq
    · have hlt := hnumbers x (Or.inr hx)
      have hlast := haccepted y hy
      omega
    · have hlt := hnumbers y (Or.inl hy)
      have hlast := (hrejected x hx).1
      omega
    · rw [(hrejected x hx).2] at hy
      cases hy
  · rw [List.map_append]
    refine List.nodup_append.mpr ⟨hs.distinct, ?_, ?_⟩
    · cases e.accepted <;> simp
    · rintro n hn m hm rfl
      obtain ⟨x, hx, rfl⟩ := List.mem_map.mp hn
      obtain ⟨y, hy, hyx⟩ := List.mem_map.mp hm
      have hlt := hnumbers x (Or.inl hx)
      have hlast := haccepted y (Option.mem_toList.mp hy)
      omega

theorem Inv.step_cuts (hs : Inv capacity s) (he : s.chan.Effect s.log.length op e c) :
    (.close ∈ s.log → e.accepted = none) ∧
      (e = .recv none → .close ∈ s.log ∧ received s.log = accepted s.log) := by
  constructor
  · intro hclose
    cases he with
    | pushed x _ _ _ _ _ hopen _ =>
      have hclosed := hs.closed_iff.mpr hclose
      rw [hopen] at hclosed
      cases hclosed
    | refused _ _ _ haccepted _ _ _ => exact haccepted
    | popped _ _ _ _ haccepted _ _ => exact haccepted
    | missed _ _ haccepted _ _ _ _ => exact haccepted
    | closed _ => rfl
  · rintro rfl
    cases he with
    | pushed x _ _ haccepted _ _ _ _ => cases haccepted
    | refused x _ _ _ hrejected _ _ => cases hrejected
    | popped x rest _ _ _ _ hreceived => cases hreceived
    | missed _ hempty _ _ _ hdrained _ =>
      have hfifo := hs.fifo
      rw [hempty, List.append_nil] at hfifo
      exact ⟨hs.closed_iff.mp (hdrained rfl), hfifo⟩

end Step

theorem Inv.step {capacity : ℕ} {s t : ChannelRun V} {op : ChannelOp V}
    (h : s.step op = some t) (hs : Inv capacity s) : Inv capacity t := by
  obtain ⟨e, hlog, he⟩ := step_effect h
  obtain ⟨hcap, hfifo, hbound, hclosed⟩ := hs.step_chan he
  obtain ⟨hnumbers, hapart, hdistinct⟩ := hs.step_calls he
  obtain ⟨hlate, hend⟩ := hs.step_cuts he
  obtain ⟨c, log⟩ := t
  obtain rfl : log = s.log ++ [e] := hlog
  refine ⟨hcap, hfifo, hbound, hclosed, ?_, ?_, ?_, hapart, hdistinct⟩
  · intro pre post a hcut
    exact Transition.forall_cut_concat (P := fun pre a => .close ∈ pre → a.accepted = none)
      hs.afterClose hlate hcut
  · intro pre post a hcut
    exact Transition.forall_cut_concat
      (P := fun pre a => a = .recv none → .close ∈ pre ∧ received pre = accepted pre)
      hs.atEnd hend hcut
  · simpa using hnumbers

theorem inv_of_run {capacity : ℕ} {s : ChannelRun V} {ops : List (ChannelOp V)}
    (hr : Transition.run step (start capacity) ops = some s) : Inv capacity s :=
  Transition.invariant (Inv capacity) (fun h hs => hs.step h) (inv_start capacity) hr

theorem step_accepted {s t : ChannelRun V} {op : ChannelOp V} (h : s.step op = some t) :
    accepted t.log = accepted s.log ∨
      ∃ x, op.value = some x.value ∧ accepted t.log = accepted s.log ++ [x] := by
  rw [step, Option.map_eq_some_iff] at h
  obtain ⟨⟨e, c⟩, he, rfl⟩ := h
  simp only [accepted_concat]
  cases hx : e.accepted with
  | none => exact Or.inl (List.append_nil _)
  | some x => exact Or.inr ⟨x, Channel.exec_accepted he hx, rfl⟩

theorem Inv.received_nodup {capacity : ℕ} {s : ChannelRun V} (hs : Inv capacity s) :
    ((received s.log).map Item.call).Nodup := by
  have hdistinct := hs.distinct
  rw [← hs.fifo, List.map_append] at hdistinct
  exact (List.nodup_append.mp hdistinct).1

/-- The channel is a bounded queue that is drained after its close: receives take the accepted
values in order, the bound holds, and an end is reported only once everything was received. -/
theorem channel_fifo_drains_on_close (capacity : ℕ) {s : ChannelRun V} {ops : List (ChannelOp V)}
    (hr : Transition.run step (start capacity) ops = some s) :
    received s.log ++ s.chan.queue = accepted s.log ∧
      (0 < capacity → s.chan.queue.length ≤ capacity) ∧
      (∀ pre post e, s.log = pre ++ e :: post → .close ∈ pre → e.accepted = none) ∧
      (∀ x ∈ rejected s.log, x ∉ received s.log) ∧
      (∀ pre post, s.log = pre ++ .recv none :: post →
        .close ∈ pre ∧ received pre = accepted pre) := by
  have hs := inv_of_run hr
  refine ⟨hs.fifo, hs.bounded, hs.afterClose, ?_, ?_⟩
  · intro x hrejected hreceived
    have haccepted : x ∈ accepted s.log := hs.fifo ▸ List.mem_append_left _ hreceived
    exact hs.apart x hrejected x haccepted rfl
  · intro pre post hcut
    exact hs.atEnd pre post _ hcut rfl

/-- Two values pass a channel of one place; the third is refused, and so is a late one. -/
theorem channel_fifo_drains_on_close_on_one_place :
    ∃ s : ChannelRun ℕ, Transition.run step (start 1)
        [.trySend 10, .trySend 30, .recv, .send 20, .close, .trySend 40, .recv, .recv] = some s ∧
      received s.log = [⟨0, 10⟩, ⟨3, 20⟩] ∧ rejected s.log = [⟨1, 30⟩, ⟨5, 40⟩] ∧
      received s.log ++ s.chan.queue = accepted s.log ∧
      (∀ x ∈ rejected s.log, x ∉ received s.log) := by
  obtain ⟨s, hrun, hreceived, hrejected⟩ : ∃ s : ChannelRun ℕ, Transition.run step (start 1)
        [.trySend 10, .trySend 30, .recv, .send 20, .close, .trySend 40, .recv, .recv] = some s ∧
      received s.log = [⟨0, 10⟩, ⟨3, 20⟩] ∧ rejected s.log = [⟨1, 30⟩, ⟨5, 40⟩] :=
    ⟨_, rfl, rfl, rfl⟩
  have hall := channel_fifo_drains_on_close 1 hrun
  exact ⟨s, hrun, hreceived, hrejected, hall.1, hall.2.2.2.1⟩

end ChannelRun
end RainRuntime
