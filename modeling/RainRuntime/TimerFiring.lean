import RainRuntime.TimerCascade

/-!
# When a timer is processed

A tick empties one slot of level 0 and processes the live ids in it, whatever their
deadlines. `FiringInv` follows every live id through the slots of the wheel, and so
gives the tick at which it is processed. For nearly every deadline this is the first
tick at or after it. The exception is `Boundary`: a delay of at least `2 ^ 14` ticks
to a deadline 256 ticks after a multiple of `2 ^ 14`. The cascade that takes such a
timer from level 2 files it into the slot level 0 is about to empty, 255 ticks early.
-/

namespace RainRuntime

namespace TimerEvent

def processedAt : TimerEvent → Option (TimerId × ℤ)
  | .fired id τ => some (id, τ)
  | .released id τ => some (id, τ)
  | _ => none

def requested : TimerEvent → Bool
  | .scheduled _ _ => true
  | .cancelled _ => true
  | _ => false

theorem processed_of_processedAt {ev : TimerEvent} {id : TimerId} {τ : ℤ}
    (h : ev.processedAt = some (id, τ)) : ev.processed = some id := by
  cases ev <;> simp_all [processedAt, processed]

end TimerEvent

namespace TimerState

def processed (t : TimerState) : List (TimerId × ℤ) := t.trace.filterMap TimerEvent.processedAt

theorem visitEvents_processedAt (t : TimerState) (id : TimerId) (e : TimerEntry) :
    (t.visitEvents id e).filterMap TimerEvent.processedAt = [(id, t.wheel.currentTime)] := by
  unfold visitEvents
  cases e.state with
  | none => rfl
  | some p => dsimp only; split_ifs <;> rfl

theorem visitEvents_requested (t : TimerState) (id : TimerId) (e : TimerEntry) :
    (t.visitEvents id e).filter TimerEvent.requested = [] := by
  unfold visitEvents
  cases e.state with
  | none => rfl
  | some p => dsimp only; split_ifs <;> rfl

theorem visit_requested (t : TimerState) (id : TimerId) :
    (t.visit id).trace.filter TimerEvent.requested = t.trace.filter TimerEvent.requested := by
  cases hl : t.wheel.lookup id with
  | none => rw [visit_of_stale hl]
  | some e => rw [visit_trace hl, List.filter_append, visitEvents_requested, List.nil_append]

theorem tick_requested (t : TimerState) :
    t.tick.trace.filter TimerEvent.requested = t.trace.filter TimerEvent.requested :=
  tick_rule (fun u => u.trace.filter TimerEvent.requested = t.trace.filter TimerEvent.requested)
    (fun u id hu => (visit_requested u id).trans hu) (fun _ _ _ hu => hu) rfl

theorem mem_trace_of_requested {t u : TimerState} {ev : TimerEvent} (hev : ev.requested = true)
    (h : u.trace.filter TimerEvent.requested = t.trace.filter TimerEvent.requested) :
    ev ∈ u.trace ↔ ev ∈ t.trace := by
  have hmem : ∀ l : List TimerEvent, ev ∈ l ↔ ev ∈ l.filter TimerEvent.requested := by
    intro l
    rw [List.mem_filter, hev]
    simp
  rw [hmem u.trace, hmem t.trace, h]

structure SameSlots (w w' : HierarchicalTimerWheel) : Prop where
  levels : w'.levels = w.levels
  startTime : w'.startTime = w.startTime
  currentTime : w'.currentTime = w.currentTime

theorem fire_sameSlots (t : TimerState) (id : TimerId) (e : TimerEntry) :
    SameSlots t.wheel (t.fire id e).wheel := by
  unfold fire
  cases e.handle with
  | none => exact ⟨rfl, rfl, rfl⟩
  | some h => dsimp only; split_ifs <;> exact ⟨rfl, rfl, rfl⟩

theorem visit_sameSlots (t : TimerState) (id : TimerId) :
    SameSlots t.wheel (t.visit id).wheel := by
  cases hl : t.wheel.lookup id with
  | none => rw [visit_of_stale hl]; exact ⟨rfl, rfl, rfl⟩
  | some e =>
    simp only [visit, hl]
    cases e.state with
    | none => exact fire_sameSlots t id e
    | some p =>
      dsimp only
      split_ifs
      · exact ⟨rfl, rfl, rfl⟩
      · exact fire_sameSlots _ id e

theorem lookup_visit (t : TimerState) (id j : TimerId) :
    (t.visit id).wheel.lookup j = if j = id then none else t.wheel.lookup j := by
  cases hl : t.wheel.lookup id with
  | none =>
    rw [visit_of_stale hl]
    split_ifs with h
    · rw [h, hl]
    · rfl
  | some e =>
    rw [HierarchicalTimerWheel.lookup, visit_slotmap hl]
    exact HierarchicalTimerWheel.lookup_release t.wheel id j

theorem mem_processed_visit (t : TimerState) (id j : TimerId) (τ : ℤ) :
    (j, τ) ∈ (t.visit id).processed ↔ (j, τ) ∈ t.processed ∨
      (τ = t.wheel.currentTime ∧ j = id ∧ (t.wheel.lookup j).isSome) := by
  cases hl : t.wheel.lookup id with
  | none =>
    rw [visit_of_stale hl]
    constructor
    · exact Or.inl
    · rintro (h | ⟨-, rfl, hsome⟩)
      · exact h
      · simp [hl] at hsome
  | some e =>
    simp only [processed, visit_trace hl, List.filterMap_append, visitEvents_processedAt,
      List.singleton_append, List.mem_cons, Prod.mk.injEq]
    constructor
    · rintro (⟨rfl, rfl⟩ | h)
      · exact Or.inr ⟨rfl, rfl, by simp [hl]⟩
      · exact Or.inl h
    · rintro (h | ⟨rfl, rfl, -⟩)
      · exact Or.inr h
      · exact Or.inl ⟨rfl, rfl⟩

section Scan
variable (ids : List TimerId)

theorem scan_sameSlots (t : TimerState) : SameSlots t.wheel (ids.foldl visit t).wheel := by
  induction ids generalizing t with
  | nil => exact ⟨rfl, rfl, rfl⟩
  | cons id ids ih =>
    have hv := visit_sameSlots t id
    have hr := ih (t.visit id)
    exact ⟨hr.levels.trans hv.levels, hr.startTime.trans hv.startTime,
      hr.currentTime.trans hv.currentTime⟩

theorem lookup_scan (t : TimerState) (j : TimerId) :
    (ids.foldl visit t).wheel.lookup j = if j ∈ ids then none else t.wheel.lookup j := by
  induction ids generalizing t with
  | nil => rfl
  | cons id ids ih =>
    rw [List.foldl_cons, ih, lookup_visit]
    by_cases hj : j = id
    · simp [hj]
    · simp [hj]

theorem mem_processed_scan (t : TimerState) (j : TimerId) (τ : ℤ) :
    (j, τ) ∈ (ids.foldl visit t).processed ↔ (j, τ) ∈ t.processed ∨
      (τ = t.wheel.currentTime ∧ j ∈ ids ∧ (t.wheel.lookup j).isSome) := by
  induction ids generalizing t with
  | nil => simp
  | cons id ids ih =>
    rw [List.foldl_cons, ih, mem_processed_visit, lookup_visit, (visit_sameSlots t id).currentTime]
    by_cases hj : j = id
    · subst hj
      simp
    · simp [hj]

end Scan
end TimerState

/-- The deadlines the wheel misses, by 255 ticks. -/
def Boundary (start : ℤ) (e : TimerEntry) (now : ℤ) : Prop :=
  Far e now ∧ deadlineTick start e.deadline % 16384 = 256

instance (start : ℤ) (e : TimerEntry) (now : ℤ) : Decidable (Boundary start e now) :=
  inferInstanceAs (Decidable (_ ∧ _))

/-- The number of the tick that processes a timer scheduled at `now`. -/
def fireTick (start : ℤ) (e : TimerEntry) (now : ℤ) : ℕ :=
  if Boundary start e now then deadlineTick start e.deadline - 255
  else deadlineTick start e.deadline + 1

theorem fireTick_of_boundary {start : ℤ} {e : TimerEntry} {now : ℤ} (h : Boundary start e now) :
    fireTick start e now = deadlineTick start e.deadline - 255 := if_pos h

theorem fireTick_of_not_boundary {start : ℤ} {e : TimerEntry} {now : ℤ}
    (h : ¬Boundary start e now) :
    fireTick start e now = deadlineTick start e.deadline + 1 := if_neg h

theorem fireTick_of_due {n : ℕ} {start : ℤ} {e : TimerEntry} {now : ℤ}
    (h : Mid n 0 0 (n % 256) (deadlineTick start e.deadline) (Far e now)) :
    fireTick start e now = n + 1 := by
  rcases h.due with ⟨hd, hb⟩ | ⟨hd, hn, hfar⟩
  · rw [fireTick_of_not_boundary hb, hd]
  · have hb : Boundary start e now := ⟨hfar, by omega⟩
    rw [fireTick_of_boundary hb]
    omega

theorem lt_fireTick_of_filed {n : ℕ} {k : Fin 4} {s : ℕ} {start : ℤ} {e : TimerEntry} {now : ℤ}
    (h : Filed n k s (deadlineTick start e.deadline) (Far e now)) : n < fireTick start e now := by
  obtain ⟨⟨-, hle, -⟩, -, hlevel⟩ := h
  have hn := le_of_pointer_le hle
  by_cases hb : Boundary start e now
  · rw [fireTick_of_boundary hb]
    have hmod := hb.2
    have hk := hlevel hb.1 hb.2
    rcases level_cases k with rfl | rfl | rfl | rfl
    · exact absurd hk (by decide)
    · exact absurd hk (by decide)
    · rw [levelUnit_two] at hn
      omega
    · rw [levelUnit_three] at hn
      omega
  · rw [fireTick_of_not_boundary hb]
    have := Nat.div_mul_le_self (deadlineTick start e.deadline) (levelUnit k)
    omega

theorem IdInv.entry_eq {m : Slotmap TimerEntry} {tr : List TimerEvent} (h : IdInv m tr)
    {e e' : TimerEntry} {now : ℤ} (hs : .scheduled e now ∈ tr)
    (hl : m.get? (idIndex e.id) (idGen e.id) = some e') : e' = e := by
  obtain ⟨hid, now', hs'⟩ := h.entry e.id e' hl
  have hev := Transition.eq_of_nodup_filterMap h.created_nodup hs' hs (congrArg some hid) rfl
  exact (TimerEvent.scheduled.inj hev).1

namespace TimerState
open HierarchicalTimerWheel

structure FiringInv (t : TimerState) (n : ℕ) : Prop where
  ids : IdInv t.wheel.slotmap t.trace
  aligned : t.wheel.Aligned n
  since : ∀ e now, .scheduled e now ∈ t.trace → t.wheel.startTime ≤ now
  held : Held t.wheel t.trace (Filed n)
  present : ∀ id, t.wheel.Present id →
    id ∈ t.trace.filterMap TimerEvent.created ∧ ∀ τ, (id, τ) ∉ t.processed
  due : ∀ e now τ, .scheduled e now ∈ t.trace → now ≤ e.deadline → (e.id, τ) ∈ t.processed →
    τ = t.wheel.startTime + fireTick t.wheel.startTime e now * kTickDuration

theorem ended_of_mem_processed {t : TimerState} {id : TimerId} {τ : ℤ}
    (h : (id, τ) ∈ t.processed) : id ∈ t.trace.filterMap TimerEvent.ended := by
  obtain ⟨ev, hev, hat⟩ := List.mem_filterMap.mp h
  exact List.mem_filterMap.mpr
    ⟨ev, hev, TimerEvent.ended_of_processed (TimerEvent.processed_of_processedAt hat)⟩

theorem FiringInv.created_of_processed {t : TimerState} {n : ℕ} (h : FiringInv t n) {id : TimerId}
    {τ : ℤ} (hp : (id, τ) ∈ t.processed) : id ∈ t.trace.filterMap TimerEvent.created :=
  h.ids.created_of_ended id (ended_of_mem_processed hp)

theorem beginTick_staged {w : HierarchicalTimerWheel} {n : ℕ} (h : w.Aligned n) :
    (TimerState.beginTick w).Staged n 3 := by
  refine ⟨?_, h.count, fun k => ?_⟩
  · simp only [TimerState.beginTick, h.time]
    push_cast
    ring
  · have hk : stagePointer n 3 k = pointer k n := if_neg (by omega)
    rw [hk]
    exact h.slot k

theorem FiringInv.beginTick {t : TimerState} {n : ℕ} (h : FiringInv t n) :
    StageInv (beginTick t.wheel) t.trace n 3 where
  staged := beginTick_staged h.aligned
  since := h.since
  entry e now hs e' hl := h.ids.entry_eq hs hl
  held := by
    intro e now hs hl
    obtain ⟨k, s, hloc, hfiled⟩ := h.held e now hs hl
    exact ⟨k, s, hloc, fun hd => (hfiled hd).mid⟩

def cascaded (t : TimerState) : HierarchicalTimerWheel :=
  cascadeIfDue (TimerState.beginTick t.wheel)

def scanned (t : TimerState) : List TimerId :=
  t.cascaded.bucket 0 (t.cascaded.levels 0).currentSlot

def opened (t : TimerState) : TimerState :=
  { t with wheel := t.cascaded.setBucket 0 (t.cascaded.levels 0).currentSlot [] }

theorem tick_eq (t : TimerState) :
    t.tick = { t.scanned.foldl visit t.opened with
      wheel := (t.scanned.foldl visit t.opened).wheel.advanceSlot 0 } := rfl

theorem lookup_cascaded (t : TimerState) (id : TimerId) :
    t.cascaded.lookup id = t.wheel.lookup id := by
  rw [lookup, cascaded, cascadeIfDue_slotmap]
  rfl

theorem lookup_opened (t : TimerState) (id : TimerId) :
    t.opened.wheel.lookup id = t.wheel.lookup id := lookup_cascaded t id

theorem opened_currentTime (t : TimerState) :
    t.opened.wheel.currentTime = t.wheel.currentTime + kTickDuration :=
  cascadeIfDue_currentTime (TimerState.beginTick t.wheel)

theorem present_cascaded {t : TimerState} {id : TimerId} (h : t.cascaded.Present id) :
    t.wheel.Present id :=
  cascadeIfDue_rule (P := fun w => w.Present id → t.wheel.Present id)
    (fun _ _ hv hr => hv hr.of_redistribute) (w := TimerState.beginTick t.wheel)
    (fun hw => hw) h

theorem tick_startTime (t : TimerState) : t.tick.wheel.startTime = t.wheel.startTime :=
  (scan_sameSlots t.scanned t.opened).startTime.trans
    (cascadeIfDue_startTime (TimerState.beginTick t.wheel))

theorem mem_tick_trace {t : TimerState} {ev : TimerEvent} (h : ev.requested = true) :
    ev ∈ t.tick.trace ↔ ev ∈ t.trace := mem_trace_of_requested h (tick_requested t)

theorem bucket_tick (t : TimerState) (k : Fin 4) (s : ℕ) :
    t.tick.wheel.bucket k s =
      if k = 0 ∧ s = (t.cascaded.levels 0).currentSlot then [] else t.cascaded.bucket k s := by
  have hlevels := (scan_sameSlots t.scanned t.opened).levels
  rw [tick_eq, bucket_advanceSlot, ← bucket_setBucket, bucket, hlevels]
  rfl

theorem lookup_tick (t : TimerState) (id : TimerId) :
    t.tick.wheel.lookup id = if id ∈ t.scanned then none else t.wheel.lookup id := by
  have hscan := lookup_scan t.scanned t.opened id
  rw [lookup_opened] at hscan
  exact hscan

theorem mem_processed_tick (t : TimerState) (id : TimerId) (τ : ℤ) :
    (id, τ) ∈ t.tick.processed ↔ (id, τ) ∈ t.processed ∨
      (τ = t.wheel.currentTime + kTickDuration ∧ id ∈ t.scanned ∧
        (t.wheel.lookup id).isSome) := by
  rw [← opened_currentTime, ← lookup_opened]
  exact mem_processed_scan t.scanned t.opened id τ

theorem currentSlot_tick (t : TimerState) (k : Fin 4) :
    (t.tick.wheel.levels k).currentSlot = ((t.cascaded.advanceSlot 0).levels k).currentSlot := by
  have hframe := t.cascaded.frame_setBucket 0 (t.cascaded.levels 0).currentSlot []
  have hlevels : (t.scanned.foldl visit t.opened).wheel.levels =
      (t.cascaded.setBucket 0 (t.cascaded.levels 0).currentSlot []).levels :=
    (scan_sameSlots t.scanned t.opened).levels
  rw [tick_eq, currentSlot_advanceSlot, currentSlot_advanceSlot, hlevels, hframe.currentSlot,
    hframe.currentSlot, hframe.slotCount]

theorem slotCount_tick (t : TimerState) (k : Fin 4) :
    (t.tick.wheel.levels k).slotCount = (t.cascaded.levels k).slotCount := by
  have hframe := t.cascaded.frame_setBucket 0 (t.cascaded.levels 0).currentSlot []
  have hlevels := (scan_sameSlots t.scanned t.opened).levels
  rw [tick_eq, slotCount_advanceSlot, hlevels]
  exact hframe.slotCount k

theorem tick_currentTime (t : TimerState) :
    t.tick.wheel.currentTime = t.wheel.currentTime + kTickDuration :=
  (scan_sameSlots t.scanned t.opened).currentTime.trans (opened_currentTime t)

section Tick
variable {t : TimerState} {n : ℕ}

theorem FiringInv.cascaded (h : FiringInv t n) : StageInv t.cascaded t.trace n 0 :=
  h.beginTick.cascadeIfDue

theorem scanned_slot (h : t.wheel.Aligned n) : (t.cascaded.levels 0).currentSlot = n % 256 := by
  rw [cascaded, (beginTick_staged h).cascadeIfDue.slot]
  simp [stagePointer, pointer]

theorem tick_aligned (h : t.wheel.Aligned n) : t.tick.wheel.Aligned (n + 1) where
  time := by
    rw [tick_currentTime, tick_startTime, h.time]
    push_cast
    ring
  count k := by
    rw [slotCount_tick]
    exact (beginTick_staged h).cascadeIfDue.count k
  slot k := by
    have hstaged : t.cascaded.Staged n 0 := (beginTick_staged h).cascadeIfDue
    rw [currentSlot_tick, currentSlot_advanceSlot]
    split_ifs with hk
    · subst hk
      have h1 : pointer 0 (n + 1) = n + 1 := by simp [pointer]
      rw [scanned_slot h, hstaged.count, h1]
      exact Nat.mod_add_mod n 256 1
    · have hp : stagePointer n 0 k = pointer k (n + 1) :=
        if_pos (Nat.pos_of_ne_zero fun h0 => hk (Fin.ext h0))
      rw [hstaged.slot, hp]

/-- A live timer that the scan does not meet is filed for the next tick. -/
theorem FiringInv.tick_held (h : FiringInv t n) :
    Held t.tick.wheel t.tick.trace (Filed (n + 1)) := by
  intro e now hs hl
  rw [mem_tick_trace rfl] at hs
  rw [lookup_tick] at hl
  split_ifs at hl with hscan
  · simp at hl
  obtain ⟨k, s, hloc, hmid⟩ := h.cascaded.held e now hs (by rwa [lookup_cascaded])
  have hne : ¬(k = 0 ∧ s = (t.cascaded.levels 0).currentSlot) := by
    rintro ⟨rfl, rfl⟩
    exact hscan ((hloc.mem_iff _ _).mpr ⟨rfl, rfl⟩)
  refine ⟨k, s, ?_, fun hd => ?_⟩
  · intro j r
    rw [bucket_tick]
    split_ifs with hcur hloc' hloc'
    · exact absurd ⟨hloc'.1.symm.trans hcur.1, hloc'.2.symm.trans hcur.2⟩ hne
    · rfl
    · rw [hloc, if_pos hloc']
    · rw [hloc, if_neg hloc']
  · have hstart : t.cascaded.startTime = t.tick.wheel.startTime := by
      rw [tick_startTime]
      exact cascadeIfDue_startTime (TimerState.beginTick t.wheel)
    rw [scanned_slot h.aligned] at hne
    rw [← hstart]
    exact (hmid hd).filed hne

theorem FiringInv.tick_present (h : FiringInv t n) {id : TimerId} (hp : t.tick.wheel.Present id) :
    id ∈ t.tick.trace.filterMap TimerEvent.created ∧ ∀ τ, (id, τ) ∉ t.tick.processed := by
  obtain ⟨k, s, hmem⟩ := hp
  rw [bucket_tick] at hmem
  split_ifs at hmem with hcur
  · simp at hmem
  obtain ⟨hcreated, hnot⟩ := h.present id (present_cascaded ⟨k, s, hmem⟩)
  obtain ⟨ev, hev, hid⟩ := List.mem_filterMap.mp hcreated
  have hreq : ev.requested = true := by
    cases ev <;> simp_all [TimerEvent.created, TimerEvent.requested]
  refine ⟨List.mem_filterMap.mpr ⟨ev, (mem_tick_trace hreq).mpr hev, hid⟩, fun τ hτ => ?_⟩
  rcases (mem_processed_tick t id τ).mp hτ with hold | ⟨-, hscan, hlive⟩
  · exact hnot τ hold
  · -- a live id is in one slot only, and the scanned one is empty by now
    cases ev with
    | scheduled e now =>
      cases hid
      obtain ⟨j, r, hloc, -⟩ := h.cascaded.held e now hev (by rwa [lookup_cascaded])
      have h1 := (hloc.mem_iff _ _).mp hscan
      have h2 := (hloc.mem_iff _ _).mp hmem
      exact hcur ⟨h2.1.trans h1.1.symm, h2.2.trans h1.2.symm⟩
    | _ => cases hid

theorem FiringInv.tick_due (h : FiringInv t n) {e : TimerEntry} {now τ : ℤ}
    (hs : .scheduled e now ∈ t.trace) (hd : now ≤ e.deadline) (hp : (e.id, τ) ∈ t.tick.processed) :
    τ = t.wheel.startTime + fireTick t.wheel.startTime e now * kTickDuration := by
  rcases (mem_processed_tick t e.id τ).mp hp with hold | ⟨hτ, hscan, hlive⟩
  · exact h.due e now τ hs hd hold
  · obtain ⟨k, s, hloc, hmid⟩ := h.cascaded.held e now hs (by rwa [lookup_cascaded])
    obtain ⟨rfl, rfl⟩ := (hloc.mem_iff _ _).mp hscan
    have hstart : t.cascaded.startTime = t.wheel.startTime :=
      cascadeIfDue_startTime (TimerState.beginTick t.wheel)
    rw [scanned_slot h.aligned, hstart] at hmid
    rw [fireTick_of_due (hmid hd), hτ, h.aligned.time]
    push_cast
    ring

theorem FiringInv.tick (h : FiringInv t n) : FiringInv t.tick (n + 1) where
  ids := tick_idInv t h.ids
  aligned := tick_aligned h.aligned
  since e now hs := by
    rw [tick_startTime]
    exact h.since e now ((mem_tick_trace rfl).mp hs)
  held := h.tick_held
  present id hp := h.tick_present hp
  due e now τ hs hd hp := by
    rw [tick_startTime]
    exact h.tick_due ((mem_tick_trace rfl).mp hs) hd hp

end Tick

theorem far_iff {start now : ℤ} {n : ℕ} {e : TimerEntry} (ht : now = start + n * kTickDuration) :
    Far e now ↔ 16384 ≤ deadlineTick start e.deadline - n := by
  simp only [Far, deadlineTick, ht, kTickDuration, kMillisecond]
  omega

theorem le_deadlineTick {start now : ℤ} {n : ℕ} {e : TimerEntry}
    (ht : now = start + n * kTickDuration) (hd : now ≤ e.deadline) :
    n ≤ deadlineTick start e.deadline := by
  simp only [ht, kTickDuration, kMillisecond] at hd
  simp only [deadlineTick, kMillisecond]
  omega

section Schedule
variable {t : TimerState} {d : ℤ} {h : Option Handle} {p : Option StatePtr} {c : WaitState}

theorem bucket_scheduleAt (k : Fin 4) (s : ℕ) :
    (t.scheduleAt d h p c).wheel.bucket k s = t.wheel.bucket k s ++
      if k = (t.wheel.route d).1 ∧ s = (t.wheel.route d).2 then [t.wheel.nextId] else [] :=
  bucket_push (t.wheel.allocate d h p c) (t.wheel.route d).1 (t.wheel.route d).2 t.wheel.nextId k s

theorem lookup_scheduleAt (hb : Bounded (t.scheduleAt d h p c).wheel.slotmap) {id : TimerId}
    (hid : id ≠ t.wheel.nextId) : (t.scheduleAt d h p c).wheel.lookup id = t.wheel.lookup id := by
  rw [scheduleAt_slotmap] at hb
  rw [lookup, scheduleAt_slotmap]
  refine (Slotmap.get?_insert _ _ _ _).trans (if_neg ?_)
  rintro ⟨hi, hg⟩
  apply hid
  apply id_ext
  · rw [hi, nextId, idIndex_encodeId hb.nextIndex_lt hb.nextGeneration_lt]
  · rw [hg, nextId, idGen_encodeId hb.nextIndex_lt hb.nextGeneration_lt]

theorem FiringInv.nextId_fresh {n : ℕ} (hf : FiringInv t n)
    (hb : Bounded (t.scheduleAt d h p c).wheel.slotmap) :
    t.wheel.nextId ∉ t.trace.filterMap TimerEvent.created := by
  rw [scheduleAt_slotmap] at hb
  exact hf.ids.nextId_fresh hb.nextIndex_lt hb.nextGeneration_lt

theorem located_scheduleAt {id : TimerId} {k : Fin 4} {s : ℕ} (hl : t.wheel.Located id k s)
    (hne : id ≠ t.wheel.nextId) :
    (t.scheduleAt d h p c).wheel.Located id k s := by
  intro j r
  rw [bucket_scheduleAt, List.count_append, hl]
  split_ifs <;> simp [Ne.symm hne]

theorem located_nextId {n : ℕ} (hf : FiringInv t n)
    (hb : Bounded (t.scheduleAt d h p c).wheel.slotmap) :
    (t.scheduleAt d h p c).wheel.Located t.wheel.nextId (t.wheel.route d).1
      (t.wheel.route d).2 := by
  intro j r
  have hzero : (t.wheel.bucket j r).count t.wheel.nextId = 0 :=
    List.count_eq_zero.mpr fun hmem => hf.nextId_fresh hb (hf.present _ ⟨j, r, hmem⟩).1
  rw [bucket_scheduleAt, List.count_append, hzero]
  split_ifs <;> simp

theorem lookup_nextId (hb : Bounded (t.scheduleAt d h p c).wheel.slotmap) :
    ((t.scheduleAt d h p c).wheel.lookup t.wheel.nextId).isSome := by
  rw [scheduleAt_slotmap] at hb
  have hi : idIndex t.wheel.nextId = t.wheel.slotmap.nextIndex := by
    rw [nextId, idIndex_encodeId hb.nextIndex_lt hb.nextGeneration_lt]
  have hg : idGen t.wheel.nextId = t.wheel.slotmap.nextGeneration := by
    rw [nextId, idGen_encodeId hb.nextIndex_lt hb.nextGeneration_lt]
  rw [lookup, scheduleAt_slotmap, hi, hg, allocate, Slotmap.get?_insert, if_pos ⟨rfl, rfl⟩]
  rfl

theorem FiringInv.scheduleAt_held {n : ℕ} (hf : FiringInv t n)
    (hb : Bounded (t.scheduleAt d h p c).wheel.slotmap) :
    Held (t.scheduleAt d h p c).wheel (t.scheduleAt d h p c).trace (Filed n) := by
  have hfresh := hf.nextId_fresh hb
  intro e now hs hl
  rcases List.mem_cons.mp hs with heq | hs
  · obtain ⟨rfl, rfl⟩ := TimerEvent.scheduled.inj heq
    refine ⟨(t.wheel.route d).1, (t.wheel.route d).2, located_nextId hf hb, fun hd => ?_⟩
    have htime := hf.aligned.time
    have hn := le_deadlineTick htime hd
    have hstart : t.wheel.startTime ≤ d := by
      simp only [htime, kTickDuration, kMillisecond] at hd
      omega
    rw [route_eq htime hstart, propext (far_iff htime)]
    exact filed_route hn
  · have hne : e.id ≠ t.wheel.nextId := by
      intro heq
      exact hfresh (heq ▸ List.mem_filterMap.mpr ⟨_, hs, rfl⟩)
    rw [lookup_scheduleAt hb hne] at hl
    obtain ⟨k, s, hloc, hfiled⟩ := hf.held e now hs hl
    exact ⟨k, s, located_scheduleAt hloc hne, hfiled⟩

theorem scheduleAt_aligned {n : ℕ} (ha : t.wheel.Aligned n) :
    (t.scheduleAt d h p c).wheel.Aligned n := by
  have hframe := (t.wheel.allocate d h p c).frame_place t.wheel.nextId d
  exact ⟨ha.time, fun k => (hframe.slotCount k).trans (ha.count k),
    fun k => (hframe.currentSlot k).trans (ha.slot k)⟩

theorem FiringInv.scheduleAt {n : ℕ} (hf : FiringInv t n)
    (hb : Bounded (t.scheduleAt d h p c).wheel.slotmap) :
    FiringInv (t.scheduleAt d h p c) n where
  ids := scheduleAt_idInv hb hf.ids
  aligned := scheduleAt_aligned hf.aligned
  since e now hs := by
    rcases List.mem_cons.mp hs with heq | hs
    · obtain ⟨rfl, rfl⟩ := TimerEvent.scheduled.inj heq
      have htime := hf.aligned.time
      simp only [htime, kTickDuration, kMillisecond]
      show t.wheel.startTime ≤ _
      omega
    · exact hf.since e now hs
  held := hf.scheduleAt_held hb
  present id hp := by
    obtain ⟨k, s, hmem⟩ := hp
    rw [bucket_scheduleAt, List.mem_append] at hmem
    rcases hmem with hmem | hmem
    · obtain ⟨hc, hnot⟩ := hf.present id ⟨k, s, hmem⟩
      exact ⟨List.mem_cons_of_mem _ hc, hnot⟩
    · split_ifs at hmem
      · rw [List.mem_singleton.mp hmem]
        exact ⟨List.mem_cons_self, fun τ hτ => hf.nextId_fresh hb (hf.created_of_processed hτ)⟩
      · simp at hmem
  due e now τ hs hd hp := by
    rcases List.mem_cons.mp hs with heq | hs
    · obtain ⟨rfl, rfl⟩ := TimerEvent.scheduled.inj heq
      exact absurd (hf.created_of_processed (hp : (_, τ) ∈ t.processed)) (hf.nextId_fresh hb)
    · exact hf.due e now τ hs hd hp

end Schedule

theorem cancel_aligned {t : TimerState} {n : ℕ} (h : t.wheel.Aligned n) (id : TimerId) :
    (t.cancel id).wheel.Aligned n := by
  cases hl : t.wheel.lookup id with
  | none =>
    rw [cancel_of_stale hl]
    exact h
  | some e =>
    rw [cancel_of_live hl]
    exact ⟨h.time, h.count, h.slot⟩

theorem FiringInv.cancel {t : TimerState} {n : ℕ} (h : FiringInv t n) (id : TimerId) :
    FiringInv (t.cancel id) n := by
  cases hl : t.wheel.lookup id with
  | none =>
    rw [cancel_of_stale hl]
    exact h
  | some e =>
    have hids := cancel_idInv t id h.ids
    have haligned := cancel_aligned h.aligned id
    rw [cancel_of_live hl] at hids haligned ⊢
    refine ⟨hids, haligned, ?_, ?_, ?_, ?_⟩
    · intro e' now hs
      exact h.since e' now (List.mem_of_ne_of_mem (by simp) hs)
    · intro e' now hs hsome
      rw [lookup_release] at hsome
      split_ifs at hsome
      · simp at hsome
      · exact h.held e' now (List.mem_of_ne_of_mem (by simp) hs) hsome
    · exact h.present
    · intro e' now τ hs
      exact h.due e' now τ (List.mem_of_ne_of_mem (by simp) hs)

theorem fresh_aligned (now : ℤ) (m : Heap) : (fresh now m).wheel.Aligned 0 := by
  refine ⟨by simp [fresh, create], fun k => ?_, fun k => ?_⟩
  · rcases level_cases k with rfl | rfl | rfl | rfl <;> rfl
  · rcases level_cases k with rfl | rfl | rfl | rfl <;> rfl

theorem fresh_firingInv (now : ℤ) (m : Heap) : FiringInv (fresh now m) 0 where
  ids := IdInv.empty
  aligned := fresh_aligned now m
  since e now' hs := by simp [fresh] at hs
  held := by
    intro e now' hs
    simp [fresh] at hs
  present id hp := by
    obtain ⟨k, s, hs⟩ := hp
    rcases level_cases k with rfl | rfl | rfl | rfl <;>
      simp [fresh, create, bucket, Level.ofSize] at hs
  due e now' τ hs := by simp [fresh] at hs

theorem step_firingInv {t u : TimerState} {op : TimerOp} (hstep : t.step op = some u)
    (hb : Bounded u.wheel.slotmap) (h : ∃ n, FiringInv t n) : ∃ n, FiringInv u n := by
  obtain ⟨n, hn⟩ := h
  cases op <;> simp only [step, Option.some.injEq] at hstep <;> subst hstep
  case schedule => exact ⟨n, hn.scheduleAt hb⟩
  case scheduleAt => exact ⟨n, hn.scheduleAt hb⟩
  case cancel id => exact ⟨n, hn.cancel id⟩
  case tick => exact ⟨n + 1, hn.tick⟩
  case advanceTo target =>
    refine advanceTo_rule (fun u => ∃ n, FiringInv u n) (fun u hu => ?_) target ⟨n, hn⟩
    obtain ⟨k, hk⟩ := hu
    exact ⟨k + 1, hk.tick⟩
  case wake => exact ⟨n, ⟨hn.ids, ⟨hn.aligned.1, hn.aligned.2, hn.aligned.3⟩, hn.since, hn.held,
    hn.present, hn.due⟩⟩
  case drainReady => exact ⟨n, ⟨hn.ids, ⟨hn.aligned.1, hn.aligned.2, hn.aligned.3⟩, hn.since,
    hn.held, hn.present, hn.due⟩⟩
  case heap => exact ⟨n, ⟨hn.ids, hn.aligned, hn.since, hn.held, hn.present, hn.due⟩⟩

theorem step_startTime {t u : TimerState} {op : TimerOp} (hstep : t.step op = some u) :
    u.wheel.startTime = t.wheel.startTime := by
  cases op <;> simp only [step, Option.some.injEq] at hstep <;> subst hstep
  case schedule => rfl
  case scheduleAt => rfl
  case cancel id =>
    cases hl : t.wheel.lookup id with
    | none => rw [cancel_of_stale hl]
    | some e =>
      rw [cancel_of_live hl]
      rfl
  case tick => exact tick_startTime t
  case advanceTo target =>
    exact advanceTo_rule (fun u => u.wheel.startTime = t.wheel.startTime)
      (fun u hu => (tick_startTime u).trans hu) target rfl
  case wake => rfl
  case drainReady => rfl
  case heap => rfl

theorem Reaches.startTime {start : ℤ} {m : Heap} {ops : List TimerOp} {t : TimerState}
    (h : Reaches start m ops t) : t.wheel.startTime = start :=
  Transition.invariant (fun u => u.wheel.startTime = start)
    (fun hs hu => (step_startTime hs).trans hu) rfl h

theorem Reaches.firingInv {start : ℤ} {m : Heap} {ops : List TimerOp} {t : TimerState}
    (h : Reaches start m ops t) (hb : Bounded t.wheel.slotmap) : ∃ n, FiringInv t n :=
  Transition.invariant_while (fun u => Bounded u.wheel.slotmap) (fun u => ∃ n, FiringInv u n)
    (fun hs hu => hu.of_grows (step_grows hs)) (fun hs _ hu hi => step_firingInv hs hu hi)
    (fun _ => ⟨0, fresh_firingInv start m⟩) h hb

def ticks (t : TimerState) : ℕ :=
  ((t.wheel.currentTime - t.wheel.startTime) / kTickDuration).toNat

theorem FiringInv.ticks_eq {t : TimerState} {n : ℕ} (h : FiringInv t n) : t.ticks = n := by
  have ht := h.aligned.time
  simp only [ticks, ht, kTickDuration, kMillisecond]
  omega

section Runs
variable {start : ℤ} {m : Heap} {ops : List TimerOp} {t : TimerState} {e : TimerEntry} {now : ℤ}

theorem Reaches.processed_time (h : Reaches start m ops t) (hb : Bounded t.wheel.slotmap)
    (hs : .scheduled e now ∈ t.trace) (hd : now ≤ e.deadline) {τ : ℤ}
    (hp : (e.id, τ) ∈ t.processed) : τ = start + fireTick start e now * kTickDuration := by
  obtain ⟨n, hn⟩ := h.firingInv hb
  rw [← h.startTime]
  exact hn.due e now τ hs hd hp

theorem FiringInv.lookup_eq_none {n : ℕ} (h : FiringInv t n) (hs : .scheduled e now ∈ t.trace)
    (hd : now ≤ e.deadline) (hn : fireTick t.wheel.startTime e now ≤ n) :
    t.wheel.lookup e.id = none := by
  by_contra hne
  obtain ⟨k, s, -, hfiled⟩ := h.held e now hs (Option.isSome_iff_ne_none.mpr hne)
  have hlt := lt_fireTick_of_filed (hfiled hd)
  omega

theorem FiringInv.processed_of_ended {n : ℕ} (h : FiringInv t n) (hs : .scheduled e now ∈ t.trace)
    (hl : t.wheel.lookup e.id = none) (hc : .cancelled e.id ∉ t.trace) :
    ∃ τ, (e.id, τ) ∈ t.processed := by
  have hended : e.id ∈ t.trace.filterMap TimerEvent.ended := by
    by_contra hnot
    have hlive := (h.ids.live e.id).mpr ⟨List.mem_filterMap.mpr ⟨_, hs, rfl⟩, hnot⟩
    rw [← lookup, hl] at hlive
    simp at hlive
  obtain ⟨ev, hev, hid⟩ := List.mem_filterMap.mp hended
  cases ev with
  | scheduled => cases hid
  | stateRead => cases hid
  | cancelled id =>
    cases hid
    exact absurd hev hc
  | fired id τ =>
    cases hid
    exact ⟨τ, List.mem_filterMap.mpr ⟨_, hev, rfl⟩⟩
  | released id τ =>
    cases hid
    exact ⟨τ, List.mem_filterMap.mpr ⟨_, hev, rfl⟩⟩

theorem Reaches.processed_of_fireTick_le (h : Reaches start m ops t)
    (hb : Bounded t.wheel.slotmap) (hs : .scheduled e now ∈ t.trace) (hd : now ≤ e.deadline)
    (hc : .cancelled e.id ∉ t.trace) (hn : fireTick start e now ≤ t.ticks) :
    ∃ τ, (e.id, τ) ∈ t.processed := by
  obtain ⟨n, hf⟩ := h.firingInv hb
  rw [hf.ticks_eq, ← h.startTime] at hn
  exact hf.processed_of_ended hs (hf.lookup_eq_none hs hd hn) hc

theorem deadline_le_iff {n : ℕ} (hstart : start ≤ e.deadline)
    (hn : n = fireTick start e now) :
    e.deadline ≤ start + n * kTickDuration ↔ ¬Boundary start e now := by
  have hdt : (deadlineTick start e.deadline : ℤ) = (e.deadline - start) / 1000000 := by
    simp only [deadlineTick, kMillisecond]
    omega
  by_cases hb : Boundary start e now
  · have hmod := hb.2
    rw [fireTick_of_boundary hb] at hn
    simp only [hb, not_true, iff_false, kTickDuration, kMillisecond]
    omega
  · rw [fireTick_of_not_boundary hb] at hn
    simp only [hb, not_false_eq_true, iff_true, kTickDuration, kMillisecond]
    omega

/-- A timer scheduled for a time not yet past is fired at or after its deadline, unless the
deadline is one of those the cascade from level 2 mistakes for due. -/
theorem timer_not_early_iff (h : Reaches start m ops t) (hb : Bounded t.wheel.slotmap)
    (hs : .scheduled e now ∈ t.trace) (hd : now ≤ e.deadline) {τ : ℤ}
    (hf : .fired e.id τ ∈ t.trace) : e.deadline ≤ τ ↔ ¬Boundary start e now := by
  have hp : (e.id, τ) ∈ t.processed := List.mem_filterMap.mpr ⟨_, hf, rfl⟩
  obtain ⟨n, hn⟩ := h.firingInv hb
  have hsince := hn.since e now hs
  rw [h.startTime] at hsince
  rw [h.processed_time hb hs hd hp]
  exact deadline_le_iff (hsince.trans hd) rfl

end Runs

theorem Reaches.fired_of_stateless {start : ℤ} {m : Heap} {ops : List TimerOp} {t : TimerState}
    {e : TimerEntry} {now τ : ℤ} (h : Reaches start m ops t) (hb : Bounded t.wheel.slotmap)
    (hs : .scheduled e now ∈ t.trace) (he : e.state = none) (hp : (e.id, τ) ∈ t.processed) :
    .fired e.id τ ∈ t.trace := by
  have hi := h.idInv hb
  obtain ⟨ev, hev, hat⟩ := List.mem_filterMap.mp hp
  cases ev with
  | fired id τ' =>
    cases hat
    exact hev
  | released id τ' =>
    cases hat
    obtain ⟨p, hread⟩ := hi.released _ _ hev
    obtain ⟨-, e', now', hs', hid, hstate⟩ := hi.read _ p hread
    have heq := Transition.eq_of_nodup_filterMap hi.created_nodup hs' hs (congrArg some hid) rfl
    rw [(TimerEvent.scheduled.inj heq).1, he] at hstate
    cases hstate
  | _ => cases hat

theorem visit_bounded (t : TimerState) (id : TimerId) (h : Bounded t.wheel.slotmap) :
    Bounded (t.visit id).wheel.slotmap := by
  cases hl : t.wheel.lookup id with
  | none =>
    rw [visit_of_stale hl]
    exact h
  | some e =>
    rw [visit_slotmap hl]
    exact h.erase (idIndex id) (idGen id)

theorem tick_bounded (t : TimerState) (h : Bounded t.wheel.slotmap) :
    Bounded t.tick.wheel.slotmap :=
  tick_rule (fun u => Bounded u.wheel.slotmap) visit_bounded
    (fun u w hw hu => by rw [← hw] at hu; exact hu) h

theorem advanceTo_bounded (t : TimerState) (target : ℤ) (h : Bounded t.wheel.slotmap) :
    Bounded (t.advanceTo target).wheel.slotmap :=
  advanceTo_rule (fun u => Bounded u.wheel.slotmap) tick_bounded target h

theorem advanceTo_currentTime (t : TimerState) (target : ℤ) :
    (t.advanceTo target).wheel.currentTime =
      t.wheel.currentTime + t.ticksUntil target * kTickDuration := by
  unfold advanceTo
  induction t.ticksUntil target with
  | zero => simp
  | succ n ih =>
    rw [Function.iterate_succ_apply', tick_currentTime, ih]
    push_cast
    ring

theorem mem_advanceTo_trace {t : TimerState} {ev : TimerEvent} (h : ev.requested = true)
    (target : ℤ) : ev ∈ (t.advanceTo target).trace ↔ ev ∈ t.trace :=
  advanceTo_rule (fun u => ev ∈ u.trace ↔ ev ∈ t.trace)
    (fun _ hu => (mem_tick_trace h).trans hu) target Iff.rfl

theorem le_advanceTo_currentTime (t : TimerState) (target : ℤ) :
    target ≤ (t.advanceTo target).wheel.currentTime := by
  rw [advanceTo_currentTime]
  simp only [ticksUntil, kTickDuration, kMillisecond]
  omega

theorem Reaches.fired_by_advanceTo {start : ℤ} {m : Heap} {ops : List TimerOp} {t : TimerState}
    {e : TimerEntry} {now : ℤ} (h : Reaches start m ops t) (hb : Bounded t.wheel.slotmap)
    (target : ℤ) (hs : .scheduled e now ∈ t.trace) (hd : now ≤ e.deadline) (he : e.state = none)
    (hc : .cancelled e.id ∉ t.trace)
    (htarget : start + fireTick start e now * kTickDuration ≤ target) :
    Reaches start m (ops ++ [.advanceTo target]) (t.advanceTo target) ∧
      Bounded (t.advanceTo target).wheel.slotmap ∧
      .scheduled e now ∈ (t.advanceTo target).trace ∧
      .fired e.id (start + fireTick start e now * kTickDuration) ∈ (t.advanceTo target).trace := by
  have hr : Reaches start m (ops ++ [.advanceTo target]) (t.advanceTo target) :=
    Transition.run_concat_eq_some.mpr ⟨t, h, rfl⟩
  have hb' := advanceTo_bounded t target hb
  have hs' := (mem_advanceTo_trace rfl target).mpr hs
  have hc' := fun hx => hc ((mem_advanceTo_trace rfl target).mp hx)
  have hticks : fireTick start e now ≤ (t.advanceTo target).ticks := by
    have hle := le_advanceTo_currentTime t target
    rw [ticks, hr.startTime]
    simp only [kTickDuration, kMillisecond] at htarget ⊢
    omega
  obtain ⟨τ, hp⟩ := hr.processed_of_fireTick_le hb' hs' hd hc' hticks
  have hτ := hr.processed_time hb' hs' hd hp
  subst hτ
  exact ⟨hr, hb', hs', hr.fired_of_stateless hb' hs' he hp⟩

/-- A fresh wheel, one timer due after 16640 ms, and the clock advanced to 16385 ms. -/
theorem timer_fires_early :
    ∃ t e, Reaches 0 ⟨fun _ => .pending, fun _ => .ok 0, fun _ => false⟩
        [.scheduleAt 16640000000 (some 0) none .timedOut,
          .advanceTo 16385000000] t ∧
      Bounded t.wheel.slotmap ∧ .scheduled e 0 ∈ t.trace ∧ e.deadline = 16640000000 ∧
      .fired e.id 16385000000 ∈ t.trace := by
  obtain ⟨t, hr, hb, hs, hc⟩ : ∃ t,
      Reaches 0 ⟨fun _ => .pending, fun _ => .ok 0, fun _ => false⟩
        [.scheduleAt 16640000000 (some 0) none .timedOut] t ∧
      Bounded t.wheel.slotmap ∧
      .scheduled ⟨encodeId 0 1, 16640000000, some 0, none, .timedOut⟩ 0 ∈ t.trace ∧
      .cancelled (encodeId 0 1) ∉ t.trace := ⟨_, rfl, by decide, by decide, by decide⟩
  have hfire : fireTick 0 ⟨encodeId 0 1, 16640000000, some 0, none, .timedOut⟩ 0 = 16385 := by
    decide
  obtain ⟨hr', hb', hs', hf⟩ :=
    hr.fired_by_advanceTo hb 16385000000 hs (by decide) rfl hc (by rw [hfire]; decide)
  rw [hfire] at hf
  exact ⟨_, _, hr', hb', hs', rfl, hf⟩

/-- A timer for 300 ms starts on level 1 and is fired after a cascade. -/
theorem timer_not_early_iff_after_cascade :
    ∃ t, Reaches 0 ⟨fun _ => .pending, fun _ => .ok 0, fun _ => false⟩
        [.schedule 300000000 (some 0) none .timedOut, .advanceTo 301000000] t ∧
      .fired (encodeId 0 1) 301000000 ∈ t.trace ∧
      ((300000000 : ℤ) ≤ 301000000 ↔
        ¬Boundary 0 ⟨encodeId 0 1, 300000000, some 0, none, .timedOut⟩ 0) := by
  obtain ⟨t, hr, hb, hs, hc⟩ : ∃ t,
      Reaches 0 ⟨fun _ => .pending, fun _ => .ok 0, fun _ => false⟩
        [.schedule 300000000 (some 0) none .timedOut] t ∧
      Bounded t.wheel.slotmap ∧
      .scheduled ⟨encodeId 0 1, 300000000, some 0, none, .timedOut⟩ 0 ∈ t.trace ∧
      .cancelled (encodeId 0 1) ∉ t.trace := ⟨_, rfl, by decide, by decide, by decide⟩
  have hfire : fireTick 0 ⟨encodeId 0 1, 300000000, some 0, none, .timedOut⟩ 0 = 301 := by
    decide
  obtain ⟨hr', hb', hs', hf⟩ :=
    hr.fired_by_advanceTo hb 301000000 hs (by decide) rfl hc (by rw [hfire]; decide)
  rw [hfire] at hf
  exact ⟨_, hr', hf, timer_not_early_iff hr' hb' hs' (by decide) hf⟩

end TimerState
end RainRuntime
