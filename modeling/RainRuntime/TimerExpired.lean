import RainRuntime.TimerVisits

/-!
# Timers scheduled in the past

For a deadline that has passed `place` sets the distance to zero, so the timer goes to
level 0; the slot there is still taken from the deadline itself. The tick that follows
empties the slot under the wheel's own tick count, and the two slots are the same only
when the deadline lies a multiple of 256 ticks back.
-/

namespace RainRuntime
namespace HierarchicalTimerWheel

theorem toMillis_nonpos {d : ℤ} (h : d ≤ 0) : toMillis d ≤ 0 := by
  have hpos := Int.tdiv_nonneg (a := -d) (b := kMillisecond) (by omega) (by decide)
  rw [Int.neg_tdiv] at hpos
  rw [toMillis]
  omega

theorem route_of_past {w : HierarchicalTimerWheel} {d : ℤ} (h : d < w.currentTime) :
    w.route d = (0, (toMillis (d - w.startTime)).toNat % 256) := by
  have hdiff : (toMillis (d - w.currentTime)).toNat = 0 :=
    Int.toNat_eq_zero.mpr (toMillis_nonpos (by omega))
  have hslot : (toMillis (d - w.startTime)).toNat &&& (kLevel0Size - 1) =
      (toMillis (d - w.startTime)).toNat % 256 := Nat.and_two_pow_sub_one_eq_mod _ 8
  rw [route, hdiff, hslot]
  exact if_pos (by decide)

end HierarchicalTimerWheel

namespace TimerState
open HierarchicalTimerWheel

structure Waits (t : TimerState) (id : TimerId) (s : ℕ) : Prop where
  located : t.wheel.Located id 0 s
  live : (t.wheel.lookup id).isSome
  created : id ∈ t.trace.filterMap TimerEvent.created

section Waiting
variable {t u : TimerState} {op : TimerOp} {n s : ℕ} {id : TimerId} {d : ℤ} {h : Option Handle}
  {p : Option StatePtr} {c : WaitState}

theorem Waits.scheduleAt (hw : Waits t id s) (hf : FiringInv t n)
    (hb : Bounded (t.scheduleAt d h p c).wheel.slotmap) : Waits (t.scheduleAt d h p c) id s := by
  have hne : id ≠ t.wheel.nextId := fun heq => hf.nextId_fresh hb (heq ▸ hw.created)
  refine ⟨located_scheduleAt hw.located hne, ?_, List.mem_cons_of_mem _ hw.created⟩
  rw [lookup_scheduleAt hb hne]
  exact hw.live

theorem Waits.cancel (hw : Waits t id s) {j : TimerId} (hj : j ≠ id) : Waits (t.cancel j) id s := by
  cases hl : t.wheel.lookup j with
  | none =>
    rw [cancel_of_stale hl]
    exact hw
  | some e =>
    rw [cancel_of_live hl]
    refine ⟨hw.located, ?_, hw.created⟩
    rw [lookup_release, if_neg (Ne.symm hj)]
    exact hw.live

theorem Waits.step (hw : Waits t id s) (hf : FiringInv t n) (hq : op.quiet = true)
    (hc : op ≠ .cancel id) (hstep : t.step op = some u) (hb : Bounded u.wheel.slotmap) :
    Waits u id s := by
  cases op <;> simp only [TimerState.step, Option.some.injEq] at hstep <;> subst hstep
  case schedule => exact hw.scheduleAt hf hb
  case scheduleAt => exact hw.scheduleAt hf hb
  case cancel j => exact hw.cancel fun hj => hc (congrArg TimerOp.cancel hj)
  case tick => cases hq
  case advanceTo => cases hq
  case wake => exact ⟨hw.located, hw.live, hw.created⟩
  case drainReady => exact ⟨hw.located, hw.live, hw.created⟩
  case heap => exact ⟨hw.located, hw.live, hw.created⟩

theorem FiringInv.quiet_step (hf : FiringInv t n) (hq : op.quiet = true)
    (hstep : t.step op = some u) (hb : Bounded u.wheel.slotmap) : FiringInv u n := by
  obtain ⟨k, hk⟩ := step_firingInv hstep hb ⟨n, hf⟩
  have htime := step_currentTime hq hstep
  have hstart := step_startTime hstep
  have hticks : u.ticks = t.ticks := by rw [ticks, ticks, htime, hstart]
  rw [hk.ticks_eq, hf.ticks_eq] at hticks
  exact hticks ▸ hk

theorem Waits.cascaded (hw : Waits t id s) (hf : FiringInv t n) : t.cascaded.Located id 0 s := by
  obtain ⟨e, he⟩ := Option.isSome_iff_exists.mp hw.live
  obtain ⟨y, hy, hshift⟩ := Located.cascadeIfDue (w := TimerState.beginTick t.wheel)
    (x := (0, s)) hf.beginTick.staged hw.located he
  rcases hshift with heq | ⟨h0, -⟩
  · rw [heq] at hy
    exact hy
  · exact absurd rfl h0

theorem Waits.mem_scanned (hw : Waits t id s) (hf : FiringInv t n) :
    id ∈ t.scanned ↔ s = n % 256 := by
  rw [scanned, ← scanned_slot hf.aligned]
  exact (((hw.cascaded hf).mem_iff _ _).trans (and_iff_right rfl)).trans eq_comm

end Waiting

/-- Scheduled for a time already past, and then anything but a tick or its cancellation. -/
structure Expired (start : ℤ) (m : Heap) (ops : List TimerOp) (t : TimerState) (d : ℤ)
    (h : Option Handle) (p : Option StatePtr) (c : WaitState) (rest : List TimerOp)
    (u : TimerState) : Prop where
  reaches : Reaches start m ops t
  past : d < t.wheel.currentTime
  quiet : ∀ op ∈ rest, op.quiet = true ∧ op ≠ .cancel t.wheel.nextId
  run : Transition.run step (t.scheduleAt d h p c) rest = some u
  bounded : Bounded u.wheel.slotmap

namespace Expired
variable {start : ℤ} {m : Heap} {ops rest : List TimerOp} {t u : TimerState} {d : ℤ}
  {h : Option Handle} {p : Option StatePtr} {c : WaitState}

theorem waits (hx : Expired start m ops t d h p c rest u) :
    FiringInv u t.ticks ∧ Waits u t.wheel.nextId ((toMillis (d - start)).toNat % 256) := by
  have hkey : Bounded u.wheel.slotmap →
      FiringInv u t.ticks ∧ Waits u t.wheel.nextId (t.wheel.route d).2 := by
    refine Transition.invariant_of_guarded
      (fun _ op => op.quiet = true ∧ op ≠ .cancel t.wheel.nextId)
      (fun v => Bounded v.wheel.slotmap →
        FiringInv v t.ticks ∧ Waits v t.wheel.nextId (t.wheel.route d).2)
      ?_ ?_ (Transition.guarded_of_forall fun op hop _ => hx.quiet op hop) hx.run
    · intro v op w hg hs hv hb
      obtain ⟨hf, hw⟩ := hv (hb.of_grows (step_grows hs))
      exact ⟨hf.quiet_step hg.1 hs hb, hw.step hf hg.1 hg.2 hs hb⟩
    · intro hb
      obtain ⟨n, hf⟩ := hx.reaches.firingInv (hb.of_grows (t.wheel.slotmap.grows_insert _))
      rw [hf.ticks_eq]
      refine ⟨hf.scheduleAt hb, ?_, lookup_nextId hb, List.mem_cons_self⟩
      have hloc := located_nextId hf hb
      rw [route_of_past hx.past] at hloc ⊢
      exact hloc
  obtain ⟨hf, hw⟩ := hkey hx.bounded
  rw [route_of_past hx.past, hx.reaches.startTime] at hw
  exact ⟨hf, hw⟩

end Expired
end TimerState
end RainRuntime
