import RainRuntime.TimerExpired

/-!
# The wheel as a calendar

What a timer wheel is for, without slots, levels and cascades: a calendar holds at most one
appointment for an id, for a tick still to come, and each tick keeps those made for it. Every run
of the wheel is a run of the calendar in which a timer's appointment is fixed when it is
scheduled.
-/

namespace RainRuntime

structure Calendar (ι : Type*) where
  now : ℕ
  due : ι → Option ℕ
  kept : Set (ι × ℕ)

inductive CalendarOp (ι : Type*) where
  | add (i : ι) (n : ℕ)
  | remove (i : ι)
  | tick

namespace Calendar
variable {ι : Type*} [DecidableEq ι]

def empty : Calendar ι := ⟨0, fun _ => none, ∅⟩

def cancel (c : Calendar ι) (i : ι) : Calendar ι := { c with due := Function.update c.due i none }

def tick (c : Calendar ι) : Calendar ι where
  now := c.now + 1
  due i := if c.due i = some (c.now + 1) then none else c.due i
  kept := c.kept ∪ {p | p.2 = c.now + 1 ∧ c.due p.1 = some (c.now + 1)}

/-- Nobody has two appointments, and none is made for a tick that is over. -/
def step (c : Calendar ι) : CalendarOp ι → Option (Calendar ι)
  | .add i n =>
    if c.due i = none ∧ c.now < n then some { c with due := Function.update c.due i (some n) }
    else none
  | .remove i => some (c.cancel i)
  | .tick => some c.tick

theorem run_ticks (c : Calendar ι) (k : ℕ) :
    Transition.run step c (List.replicate k .tick) = some (tick^[k] c) := by
  induction k generalizing c with
  | zero => rfl
  | succ k ih =>
    rw [List.replicate_succ, Function.iterate_succ_apply]
    exact Transition.run_cons_eq_some.mpr ⟨c.tick, rfl, ih c.tick⟩

end Calendar

def lateSlot (start : ℤ) (e : TimerEntry) : ℕ := (toMillis (e.deadline - start)).toNat % 256

def nextTurn (n s : ℕ) : ℕ := n + 1 + (s + 256 - n % 256) % 256

theorem lt_nextTurn (n s : ℕ) : n < nextTurn n s := by
  unfold nextTurn
  omega

theorem nextTurn_eq_succ_iff {n₀ n s : ℕ} (hs : s < 256) (h₀ : n₀ ≤ n) (hn : n < nextTurn n₀ s) :
    nextTurn n₀ s = n + 1 ↔ s = n % 256 := by
  unfold nextTurn at hn ⊢
  omega

/-- The tick that processes a timer scheduled at `now`, be its deadline past or to come. -/
def dueTick (start : ℤ) (e : TimerEntry) (now : ℤ) : ℕ :=
  if now ≤ e.deadline then fireTick start e now
  else nextTurn ((now - start) / kTickDuration).toNat (lateSlot start e)

theorem dueTick_of_le {start now : ℤ} {e : TimerEntry} (h : now ≤ e.deadline) :
    dueTick start e now = fireTick start e now := if_pos h

theorem dueTick_of_lt {start now : ℤ} {e : TimerEntry} (h : e.deadline < now) :
    dueTick start e now = nextTurn ((now - start) / kTickDuration).toNat (lateSlot start e) :=
  if_neg (Int.not_le.mpr h)

namespace TimerState
open HierarchicalTimerWheel

def appointments (t : TimerState) : TimerOp → List (CalendarOp TimerId)
  | .schedule delay h p c =>
    [.add t.wheel.nextId (dueTick t.wheel.startTime
      ⟨t.wheel.nextId, t.wheel.currentTime + delay, h, p, c⟩ t.wheel.currentTime)]
  | .scheduleAt deadline h p c =>
    [.add t.wheel.nextId (dueTick t.wheel.startTime ⟨t.wheel.nextId, deadline, h, p, c⟩
      t.wheel.currentTime)]
  | .cancel id => [.remove id]
  | .tick => [.tick]
  | .advanceTo target => List.replicate (t.ticksUntil target) .tick
  | .wake _ | .drainReady | .heap _ => []

/-- A live timer that was late when it was scheduled stands in its slot of level 0, and that slot
has not had its turn since. -/
structure Late (t : TimerState) (n : ℕ) (e : TimerEntry) (now : ℤ) : Prop where
  waits : Waits t e.id (lateSlot t.wheel.startTime e)
  since : ((now - t.wheel.startTime) / kTickDuration).toNat ≤ n
  before : n < nextTurn ((now - t.wheel.startTime) / kTickDuration).toNat
    (lateSlot t.wheel.startTime e)

structure Represents (t : TimerState) (c : Calendar TimerId) : Prop where
  firing : FiringInv t c.now
  live : ∀ id, c.due id = none ↔ t.wheel.lookup id = none
  due : ∀ e now, .scheduled e now ∈ t.trace → (t.wheel.lookup e.id).isSome →
    c.due e.id = some (dueTick t.wheel.startTime e now)
  late : ∀ e now, .scheduled e now ∈ t.trace → e.deadline < now →
    (t.wheel.lookup e.id).isSome → Late t c.now e now
  kept : ∀ id τ, (id, τ) ∈ t.processed ↔
    ∃ n, (id, n) ∈ c.kept ∧ τ = t.wheel.startTime + n * kTickDuration

section Steps
variable {t u : TimerState} {c : Calendar TimerId} {e : TimerEntry} {now : ℤ} {n : ℕ}

theorem lateSlot_lt (start : ℤ) (e : TimerEntry) : lateSlot start e < 256 :=
  Nat.mod_lt _ (by decide)

theorem scheduled_created (hs : .scheduled e now ∈ t.trace) :
    e.id ∈ t.trace.filterMap TimerEvent.created :=
  List.mem_filterMap.mpr ⟨_, hs, rfl⟩

/-- A tick scans the timers that are due then, and no other live one. -/
theorem Represents.mem_scanned_iff (hr : Represents t c) (hs : .scheduled e now ∈ t.trace)
    (hl : (t.wheel.lookup e.id).isSome) :
    e.id ∈ t.scanned ↔ c.due e.id = some (c.now + 1) := by
  rw [hr.due e now hs hl, Option.some.injEq]
  rcases le_or_gt now e.deadline with hd | hd
  · rw [dueTick_of_le hd]
    constructor
    · intro hscan
      have hp : (e.id, t.wheel.currentTime + kTickDuration) ∈ t.tick.processed :=
        (mem_processed_tick t _ _).mpr (Or.inr ⟨rfl, hscan, hl⟩)
      have htime := hr.firing.tick_due hs hd hp
      rw [hr.firing.aligned.time] at htime
      simp only [kTickDuration, kMillisecond] at htime
      omega
    · intro hfire
      by_contra hnot
      have hstart := tick_startTime t
      have hgone := hr.firing.tick.lookup_eq_none ((mem_tick_trace rfl).mpr hs) hd
        (by rw [hstart, hfire])
      rw [lookup_tick, if_neg hnot] at hgone
      rw [hgone] at hl
      cases hl
  · have hlate := hr.late e now hs hd hl
    rw [dueTick_of_lt hd, hlate.waits.mem_scanned hr.firing]
    exact (nextTurn_eq_succ_iff (lateSlot_lt _ _) hlate.since hlate.before).symm

theorem scheduled_of_live (hf : FiringInv t n) {id : TimerId} (hl : (t.wheel.lookup id).isSome) :
    ∃ e now, .scheduled e now ∈ t.trace ∧ e.id = id := by
  obtain ⟨e, he⟩ := Option.isSome_iff_exists.mp hl
  obtain ⟨hid, now, hs⟩ := hf.ids.entry id e he
  exact ⟨e, now, hs, hid⟩

theorem Waits.tick {id : TimerId} {s : ℕ} (hw : Waits t id s) (hf : FiringInv t n)
    (hs : s ≠ n % 256) : Waits t.tick id s := by
  have hnot : id ∉ t.scanned := fun hscan => hs ((hw.mem_scanned hf).mp hscan)
  refine ⟨fun j r => ?_, ?_, ?_⟩
  · rw [bucket_tick, scanned_slot hf.aligned]
    split_ifs with hcur hloc hloc
    · exact absurd (hloc.2.symm.trans hcur.2) hs
    · rfl
    · rw [hw.cascaded hf, if_pos hloc]
    · rw [hw.cascaded hf, if_neg hloc]
  · rw [lookup_tick, if_neg hnot]
    exact hw.live
  · obtain ⟨ev, hev, hid⟩ := List.mem_filterMap.mp hw.created
    exact List.mem_filterMap.mpr ⟨ev, mem_tick_trace_of_mem hev, hid⟩

theorem Late.tick (hl : Late t n e now) (hf : FiringInv t n) (hnot : e.id ∉ t.scanned) :
    Late t.tick (n + 1) e now := by
  have hs : lateSlot t.wheel.startTime e ≠ n % 256 :=
    fun heq => hnot ((hl.waits.mem_scanned hf).mpr heq)
  have hstart := tick_startTime t
  refine ⟨?_, ?_, ?_⟩
  · rw [hstart]
    exact hl.waits.tick hf hs
  · rw [hstart]
    exact Nat.le_succ_of_le hl.since
  · rw [hstart]
    have hturn := (nextTurn_eq_succ_iff (lateSlot_lt _ _) hl.since hl.before).not.mpr hs
    have hbefore := hl.before
    omega

theorem Represents.due_tick (hr : Represents t c) (id : TimerId) (hl : (t.wheel.lookup id).isSome) :
    c.due id = some (c.now + 1) ↔ id ∈ t.scanned := by
  obtain ⟨e, now, hs, rfl⟩ := scheduled_of_live hr.firing hl
  exact (hr.mem_scanned_iff hs hl).symm

theorem Represents.tick (hr : Represents t c) : Represents t.tick c.tick where
  firing := hr.firing.tick
  live id := by
    rw [lookup_tick]
    change (if c.due id = some (c.now + 1) then none else c.due id) = none ↔ _
    cases hl : t.wheel.lookup id with
    | none => simp [(hr.live id).mpr hl]
    | some e =>
      have hdue := hr.due_tick id (by rw [hl]; rfl)
      have hlive := (hr.live id).not.mpr (by simp [hl])
      by_cases hscan : id ∈ t.scanned
      · simp only [if_pos (hdue.mpr hscan), if_pos hscan]
      · rw [if_neg (hdue.not.mpr hscan), if_neg hscan]
        simp [hlive]
  due e now hs hl := by
    rw [mem_tick_trace rfl] at hs
    rw [lookup_tick] at hl
    split_ifs at hl with hscan
    · cases hl
    rw [tick_startTime, ← hr.due e now hs hl]
    exact if_neg ((hr.mem_scanned_iff hs hl).not.mp hscan)
  late e now hs hd hl := by
    rw [mem_tick_trace rfl] at hs
    rw [lookup_tick] at hl
    split_ifs at hl with hscan
    · cases hl
    exact (hr.late e now hs hd hl).tick hr.firing hscan
  kept id τ := by
    have htime : t.wheel.currentTime + kTickDuration =
        t.wheel.startTime + (c.now + 1 : ℕ) * kTickDuration := by
      rw [hr.firing.aligned.time]
      push_cast
      ring
    rw [mem_processed_tick, tick_startTime, hr.kept]
    constructor
    · rintro (⟨n, hn, hτ⟩ | ⟨hτ, hscan, hl⟩)
      · exact ⟨n, Or.inl hn, hτ⟩
      · exact ⟨c.now + 1, Or.inr ⟨rfl, (hr.due_tick id hl).mpr hscan⟩, hτ.trans htime⟩
    · rintro ⟨n, hn | ⟨hnow, hdue⟩, hτ⟩
      · exact Or.inl ⟨n, hn, hτ⟩
      · dsimp only at hnow hdue
        have hl : (t.wheel.lookup id).isSome := by
          rw [Option.isSome_iff_ne_none, ne_eq, ← hr.live id, hdue]
          simp
        rw [hnow, ← htime] at hτ
        exact Or.inr ⟨hτ, (hr.due_tick id hl).mp hdue, hl⟩

theorem Represents.ticks (hr : Represents t c) (k : ℕ) :
    Represents (TimerState.tick^[k] t) (Calendar.tick^[k] c) := by
  induction k with
  | zero => exact hr
  | succ k ih =>
    rw [Function.iterate_succ_apply', Function.iterate_succ_apply']
    exact ih.tick

end Steps

section Schedule
variable {t : TimerState} {c : Calendar TimerId} {d : ℤ} {h : Option Handle}
  {p : Option StatePtr} {w : WaitState}

theorem FiringInv.lookup_nextId_eq_none {n : ℕ} (hf : FiringInv t n)
    (hb : Bounded (t.scheduleAt d h p w).wheel.slotmap) :
    t.wheel.lookup t.wheel.nextId = none := by
  by_contra hne
  have hlive := (hf.ids.live t.wheel.nextId).mp (Option.isSome_iff_ne_none.mpr hne)
  exact hf.nextId_fresh hb hlive.1

theorem FiringInv.ticks_now {n : ℕ} (hf : FiringInv t n) :
    ((t.wheel.currentTime - t.wheel.startTime) / kTickDuration).toNat = n := hf.ticks_eq

theorem late_scheduleAt {n : ℕ} (hf : FiringInv t n)
    (hb : Bounded (t.scheduleAt d h p w).wheel.slotmap) (hd : d < t.wheel.currentTime) :
    Late (t.scheduleAt d h p w) n ⟨t.wheel.nextId, d, h, p, w⟩ t.wheel.currentTime := by
  have hstart : (t.scheduleAt d h p w).wheel.startTime = t.wheel.startTime := rfl
  have hloc := located_nextId hf hb
  rw [route_of_past hd] at hloc
  refine ⟨⟨hloc, lookup_nextId hb, List.mem_cons_self⟩, ?_, ?_⟩
  · rw [hstart, hf.ticks_now]
  · rw [hstart, hf.ticks_now]
    exact lt_nextTurn _ _

theorem lt_dueTick {n : ℕ} (hf : FiringInv t n)
    (hb : Bounded (t.scheduleAt d h p w).wheel.slotmap) :
    n < dueTick t.wheel.startTime ⟨t.wheel.nextId, d, h, p, w⟩ t.wheel.currentTime := by
  rcases le_or_gt t.wheel.currentTime d with hd | hd
  · rw [dueTick_of_le hd]
    by_contra hle
    have hgone : (t.scheduleAt d h p w).wheel.lookup t.wheel.nextId = none :=
      (hf.scheduleAt hb).lookup_eq_none List.mem_cons_self hd (Nat.not_lt.mp hle)
    have hl := lookup_nextId hb
    rw [hgone] at hl
    cases hl
  · rw [dueTick_of_lt hd, hf.ticks_now]
    exact lt_nextTurn _ _

theorem Represents.scheduleAt (hr : Represents t c)
    (hb : Bounded (t.scheduleAt d h p w).wheel.slotmap) :
    ∃ c', c.step (.add t.wheel.nextId
        (dueTick t.wheel.startTime ⟨t.wheel.nextId, d, h, p, w⟩ t.wheel.currentTime)) = some c' ∧
      Represents (t.scheduleAt d h p w) c' := by
  have hfree := (hr.live _).mpr (hr.firing.lookup_nextId_eq_none hb)
  have hold : ∀ {e now}, .scheduled e now ∈ t.trace → e.id ≠ t.wheel.nextId :=
    fun hs heq => hr.firing.nextId_fresh hb (heq ▸ scheduled_created hs)
  refine ⟨_, if_pos ⟨hfree, lt_dueTick hr.firing hb⟩, hr.firing.scheduleAt hb, ?_, ?_, ?_, hr.kept⟩
  · intro id
    by_cases hid : id = t.wheel.nextId
    · subst hid
      have hl := lookup_nextId hb
      simp [Option.isSome_iff_ne_none.mp hl]
    · rw [lookup_scheduleAt hb hid]
      dsimp only
      rw [Function.update_of_ne hid]
      exact hr.live id
  · intro e now hs hl
    rcases List.mem_cons.mp hs with heq | hs
    · obtain ⟨rfl, rfl⟩ := TimerEvent.scheduled.inj heq
      exact Function.update_self ..
    · rw [lookup_scheduleAt hb (hold hs)] at hl
      exact (Function.update_of_ne (hold hs) ..).trans (hr.due e now hs hl)
  · intro e now hs hd hl
    rcases List.mem_cons.mp hs with heq | hs
    · obtain ⟨rfl, rfl⟩ := TimerEvent.scheduled.inj heq
      exact late_scheduleAt hr.firing hb hd
    · rw [lookup_scheduleAt hb (hold hs)] at hl
      have hlate := hr.late e now hs hd hl
      exact ⟨hlate.waits.scheduleAt hr.firing hb, hlate.since, hlate.before⟩

end Schedule

theorem Represents.cancel {t : TimerState} {c : Calendar TimerId} (hr : Represents t c)
    (id : TimerId) : Represents (t.cancel id) (c.cancel id) := by
  cases hl : t.wheel.lookup id with
  | none =>
    have hsame : c.cancel id = c := by
      rw [Calendar.cancel, ← (hr.live id).mpr hl, Function.update_eq_self]
    rw [cancel_of_stale hl, hsame]
    exact hr
  | some e₀ =>
    have hfiring := hr.firing.cancel id
    have hwaits : ∀ {j s}, Waits t j s → id ≠ j → Waits (t.cancel id) j s :=
      fun hw hne => hw.cancel hne
    rw [cancel_of_live hl] at hfiring hwaits ⊢
    refine ⟨hfiring, ?_, ?_, ?_, hr.kept⟩
    · intro j
      rw [lookup_release]
      by_cases hj : j = id
      · subst hj
        simp [Calendar.cancel]
      · rw [if_neg hj, Calendar.cancel]
        dsimp only
        rw [Function.update_of_ne hj]
        exact hr.live j
    · intro e now hs hsome
      rw [lookup_release] at hsome
      split_ifs at hsome with hj
      · cases hsome
      · exact (Function.update_of_ne hj ..).trans
          (hr.due e now (List.mem_of_ne_of_mem (by simp) hs) hsome)
    · intro e now hs hd hsome
      rw [lookup_release] at hsome
      split_ifs at hsome with hj
      · cases hsome
      · have hlate := hr.late e now (List.mem_of_ne_of_mem (by simp) hs) hd hsome
        exact ⟨hwaits hlate.waits (Ne.symm hj), hlate.since, hlate.before⟩

theorem Represents.step {t u : TimerState} {op : TimerOp} {c : Calendar TimerId}
    (hr : Represents t c) (hstep : t.step op = some u) (hb : Bounded u.wheel.slotmap) :
    ∃ c', Transition.run Calendar.step c (t.appointments op) = some c' ∧ Represents u c' := by
  have hquiet := fun hq : op.quiet = true => hr.firing.quiet_step hq hstep hb
  cases op <;> simp only [TimerState.step, Option.some.injEq] at hstep <;> subst hstep
  case schedule =>
    obtain ⟨c', hadd, hr'⟩ := hr.scheduleAt hb
    exact ⟨c', Transition.run_cons_eq_some.mpr ⟨c', hadd, rfl⟩, hr'⟩
  case scheduleAt =>
    obtain ⟨c', hadd, hr'⟩ := hr.scheduleAt hb
    exact ⟨c', Transition.run_cons_eq_some.mpr ⟨c', hadd, rfl⟩, hr'⟩
  case cancel id => exact ⟨c.cancel id, rfl, hr.cancel id⟩
  case tick => exact ⟨c.tick, rfl, hr.tick⟩
  case advanceTo target => exact ⟨_, Calendar.run_ticks c _, hr.ticks _⟩
  all_goals
    refine ⟨c, rfl, hquiet rfl, hr.live, hr.due, fun e now hs hd hl => ?_, hr.kept⟩
    have hlate := hr.late e now hs hd hl
    exact ⟨⟨hlate.waits.located, hlate.waits.live, hlate.waits.created⟩, hlate.since, hlate.before⟩

theorem fresh_represents (start : ℤ) (m : Heap) : Represents (fresh start m) Calendar.empty where
  firing := fresh_firingInv start m
  live id := by simp [Calendar.empty, fresh, create, lookup]
  due e now hs := by simp [fresh] at hs
  late e now hs := by simp [fresh] at hs
  kept id τ := by simp [fresh, processed, Calendar.empty]

/-- In every run the wheel does what a calendar does that was told the same: the timers it holds
are the appointments still to come, and each tick processes exactly those made for it. -/
theorem wheel_refines_calendar {start : ℤ} {m : Heap} {ops : List TimerOp} {t : TimerState}
    (h : Reaches start m ops t) (hb : Bounded t.wheel.slotmap) :
    ∃ c, Transition.run Calendar.step Calendar.empty
        (Transition.outputs step appointments (fresh start m) ops) = some c ∧
      t.wheel.currentTime = start + c.now * kTickDuration ∧
      (∀ id, (c.due id).isSome ↔ (t.wheel.lookup id).isSome) ∧
      ∀ id τ, (id, τ) ∈ t.processed ↔ ∃ n, (id, n) ∈ c.kept ∧ τ = start + n * kTickDuration := by
  obtain ⟨c, hc, hr⟩ := Transition.simulation_while (fun u => Bounded u.wheel.slotmap) Represents
    (fun hs hu => hu.of_grows (step_grows hs)) (fun hs hu hr => hr.step hs hu)
    (fresh_represents start m) h hb
  have hstart := h.startTime
  refine ⟨c, hc, ?_, fun id => ?_, fun id τ => ?_⟩
  · rw [← hstart]
    exact hr.firing.aligned.time
  · rw [Option.isSome_iff_ne_none, Option.isSome_iff_ne_none]
    exact (hr.live id).not
  · rw [← hstart]
    exact hr.kept id τ

def threeTimers : List TimerOp :=
  [.tick, .schedule 1500000 (some 0) none .timedOut, .schedule 5000000 (some 1) none .timedOut,
    .scheduleAt 0 (some 2) none .timedOut, .cancel (encodeId 1 1), .tick, .tick]

theorem wheel_refines_calendar_on_three_timers :
    ∃ t c, Reaches 0 ⟨fun _ => .pending, fun _ => .ok 0, fun _ => false⟩ threeTimers t ∧
      Transition.run Calendar.step Calendar.empty
        [.tick, .add (encodeId 0 1) 3, .add (encodeId 1 1) 7, .add (encodeId 2 1) 257,
          .remove (encodeId 1 1), .tick, .tick] = some c ∧
      (encodeId 0 1, 3) ∈ c.kept ∧ (c.due (encodeId 2 1)).isSome ∧ c.due (encodeId 1 1) = none := by
  obtain ⟨t, hr, hb, hp, hlate, hgone⟩ : ∃ t,
      Reaches 0 ⟨fun _ => .pending, fun _ => .ok 0, fun _ => false⟩ threeTimers t ∧
      Bounded t.wheel.slotmap ∧ (encodeId 0 1, 3000000) ∈ t.processed ∧
      (t.wheel.lookup (encodeId 2 1)).isSome ∧ t.wheel.lookup (encodeId 1 1) = none :=
    ⟨_, rfl, by decide +kernel, by decide +kernel, by decide +kernel, by decide +kernel⟩
  obtain ⟨c, hc, -, hlive, hkept⟩ := wheel_refines_calendar hr hb
  obtain ⟨n, hn, hτ⟩ := (hkept _ _).mp hp
  have hthree : n = 3 := by
    simp only [kTickDuration, kMillisecond] at hτ
    omega
  subst hthree
  refine ⟨t, c, hr, hc, hn, (hlive _).mpr hlate, ?_⟩
  rw [← Option.not_isSome_iff_eq_none, hlive, hgone]
  simp

end TimerState
end RainRuntime
