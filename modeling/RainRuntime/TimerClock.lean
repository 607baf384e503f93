import RainRuntime.TimerFiring

/-!
# The wheel's own time

The wheel moves in whole ticks from the time it was made, and only a tick or an
`advance_to` moves it. Everything it has processed was processed at or before its current
time.
-/

namespace RainRuntime

def TimerOp.quiet : TimerOp → Bool
  | .tick => false
  | .advanceTo _ => false
  | _ => true

namespace TimerState
variable {t u : TimerState} {op : TimerOp} {ev : TimerEvent}

theorem cancel_wheel_currentTime (t : TimerState) (id : TimerId) :
    (t.cancel id).wheel.currentTime = t.wheel.currentTime := by
  cases hl : t.wheel.lookup id with
  | none => rw [cancel_of_stale hl]
  | some e =>
    rw [cancel_of_live hl]
    rfl

theorem step_currentTime (hq : op.quiet = true) (h : t.step op = some u) :
    u.wheel.currentTime = t.wheel.currentTime := by
  cases op <;> simp only [step, Option.some.injEq] at h <;> subst h
  case cancel id => exact cancel_wheel_currentTime t id
  case tick => cases hq
  case advanceTo => cases hq
  all_goals rfl

theorem mem_tick_trace_of_mem (h : ev ∈ t.trace) : ev ∈ t.tick.trace := by
  refine tick_rule (fun v => ev ∈ v.trace) (fun v id hv => ?_) (fun _ _ _ hv => hv) h
  cases hl : v.wheel.lookup id with
  | none =>
    rw [visit_of_stale hl]
    exact hv
  | some e =>
    rw [visit_trace hl]
    exact List.mem_append_right _ hv

theorem mem_step_trace (h : t.step op = some u) (hev : ev ∈ t.trace) : ev ∈ u.trace := by
  cases op <;> simp only [step, Option.some.injEq] at h <;> subst h
  case schedule => exact List.mem_cons_of_mem _ hev
  case scheduleAt => exact List.mem_cons_of_mem _ hev
  case cancel id =>
    cases hl : t.wheel.lookup id with
    | none =>
      rw [cancel_of_stale hl]
      exact hev
    | some e =>
      rw [cancel_of_live hl]
      exact List.mem_cons_of_mem _ hev
  case tick => exact mem_tick_trace_of_mem hev
  case advanceTo target =>
    exact advanceTo_rule (fun v => ev ∈ v.trace) (fun _ hv => mem_tick_trace_of_mem hv) target hev
  all_goals exact hev

def PastOnly (t : TimerState) : Prop := ∀ id τ, (id, τ) ∈ t.processed → τ ≤ t.wheel.currentTime

theorem PastOnly.tick (h : PastOnly t) : PastOnly t.tick := by
  intro id τ hp
  rw [tick_currentTime]
  rcases (mem_processed_tick t id τ).mp hp with hp | ⟨hτ, -⟩
  · have hle := h id τ hp
    simp only [kTickDuration, kMillisecond]
    omega
  · exact Int.le_of_eq hτ

theorem PastOnly.step (h : PastOnly t) (hstep : t.step op = some u) : PastOnly u := by
  cases op <;> simp only [TimerState.step, Option.some.injEq] at hstep <;> subst hstep
  case cancel id =>
    cases hl : t.wheel.lookup id with
    | none =>
      rw [cancel_of_stale hl]
      exact h
    | some e =>
      rw [cancel_of_live hl]
      exact h
  case tick => exact h.tick
  case advanceTo target => exact advanceTo_rule PastOnly (fun _ hv => hv.tick) target h
  all_goals exact h

theorem Reaches.pastOnly {start : ℤ} {m : Heap} {ops : List TimerOp} (h : Reaches start m ops t) :
    PastOnly t :=
  Transition.invariant PastOnly (fun hstep hs => hs.step hstep) (fun id τ hp => by cases hp) h

theorem Reaches.currentTime_eq {start : ℤ} {m : Heap} {ops : List TimerOp}
    (h : Reaches start m ops t) : ∃ n : ℕ, t.wheel.currentTime = start + n * kTickDuration := by
  refine Transition.invariant
    (fun v : TimerState => ∃ n : ℕ, v.wheel.currentTime = start + n * kTickDuration) ?_
    ⟨0, by simp [fresh, HierarchicalTimerWheel.create]⟩ h
  intro v op w hstep hn
  have htick : ∀ v : TimerState, (∃ n : ℕ, v.wheel.currentTime = start + n * kTickDuration) →
      ∃ n : ℕ, v.tick.wheel.currentTime = start + n * kTickDuration := by
    rintro v ⟨n, hn⟩
    refine ⟨n + 1, ?_⟩
    rw [tick_currentTime, hn]
    push_cast
    ring
  by_cases hq : op.quiet = true
  · rw [step_currentTime hq hstep]
    exact hn
  · cases op <;> simp only [TimerOp.quiet, not_true, Bool.false_eq_true, not_false_eq_true] at hq
    case tick =>
      rw [step, Option.some.injEq] at hstep
      exact hstep ▸ htick v hn
    case advanceTo target =>
      rw [step, Option.some.injEq] at hstep
      exact hstep ▸ advanceTo_rule _ htick target hn

/-- `advance_to` goes past its target by less than a tick. -/
theorem advanceTo_currentTime_lt (t : TimerState) (target : ℤ) :
    (t.advanceTo target).wheel.currentTime < target + kTickDuration ∨
      (t.advanceTo target).wheel.currentTime = t.wheel.currentTime := by
  rw [advanceTo_currentTime]
  simp only [ticksUntil, kTickDuration, kMillisecond]
  omega

end TimerState
end RainRuntime
