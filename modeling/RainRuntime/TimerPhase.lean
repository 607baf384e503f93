import Mathlib.Algebra.Order.Floor.Div
import Mathlib.GroupTheory.GroupAction.Ring
import RainRuntime.TimerClock

/-!
# The phase of the wheel

What a tick empties, in order: the current slots of the levels that cascade, and then the
current slot of level 0. The logged tick is `tick` with a note of every slot it takes out of
the wheel. Neither the slots nor the cascades depend on what has been scheduled.
-/

namespace RainRuntime
namespace HierarchicalTimerWheel

def cascadeLogged : ℕ → HierarchicalTimerWheel → List (Fin 4 × ℕ) × HierarchicalTimerWheel
  | 0, w => ([], w)
  | n + 1, w =>
    let level : Fin 4 := ⟨3 - n, levelLeft_lt n⟩
    let r := if (w.levels level).currentSlot = 0 then cascadeLogged n w else ([], w)
    (r.1 ++ [(level, (r.2.levels level).currentSlot)], r.2.redistribute level)

theorem cascadeLogged_snd (n : ℕ) (w : HierarchicalTimerWheel) :
    (cascadeLogged n w).2 = cascadeLast n w := by
  induction n generalizing w with
  | zero => rfl
  | succ n ih =>
    simp only [cascadeLogged, cascadeLast]
    split_ifs
    · rw [ih]
    · rfl

def dueSlots (n : ℕ) : List (Fin 4 × ℕ) :=
  (([3, 2, 1] : List (Fin 4)).filter fun k => n % levelUnit k = 0).map fun k =>
    (k, n / levelUnit k % levelSize k)

theorem pointer_of_due {k : Fin 4} {n : ℕ} (h : n % levelUnit k = 0) :
    pointer k n = n / levelUnit k := by
  rcases level_cases k with rfl | rfl | rfl | rfl <;>
    simp only [pointer, levelUnit_zero, levelUnit_one, levelUnit_two, levelUnit_three] at h ⊢ <;>
    omega

theorem mem_dueSlots {n : ℕ} {k : Fin 4} (hk : k ≠ 0) {s : ℕ} :
    (k, s) ∈ dueSlots n ↔ n % levelUnit k = 0 ∧ s = n / levelUnit k % levelSize k := by
  have hmem : k ∈ ([3, 2, 1] : List (Fin 4)) := by
    revert k
    decide
  simp only [dueSlots, List.mem_map, List.mem_filter, decide_eq_true_eq, Prod.mk.injEq]
  constructor
  · rintro ⟨j, ⟨-, hj⟩, rfl, rfl⟩
    exact ⟨hj, rfl⟩
  · rintro ⟨hn, rfl⟩
    exact ⟨k, ⟨hmem, hn⟩, rfl, rfl⟩

theorem dueSlots_level_ne {n : ℕ} {x : Fin 4 × ℕ} (h : x ∈ dueSlots n) : x.1 ≠ 0 := by
  simp only [dueSlots, List.mem_map, List.mem_filter] at h
  obtain ⟨j, ⟨hj, -⟩, rfl⟩ := h
  have hne : ∀ j ∈ ([3, 2, 1] : List (Fin 4)), j ≠ 0 := by decide
  exact hne j hj

theorem dueSlots_pairwise (n : ℕ) : (dueSlots n).Pairwise fun a b => b.1 < a.1 := by
  have hdown : ([3, 2, 1] : List (Fin 4)).Pairwise fun a b => b < a := by decide
  exact (hdown.filter _).map _ fun _ _ h => h

end HierarchicalTimerWheel

namespace TimerState
open HierarchicalTimerWheel

def cascadeIfDueLogged (w : HierarchicalTimerWheel) :
    List (Fin 4 × ℕ) × HierarchicalTimerWheel :=
  if (w.levels 0).currentSlot = 0 then cascadeLogged (kNumLevels - 1) w else ([], w)

theorem cascadeIfDueLogged_snd (w : HierarchicalTimerWheel) :
    (cascadeIfDueLogged w).2 = cascadeIfDue w := by
  rw [cascadeIfDueLogged, cascadeIfDue]
  split_ifs
  · exact cascadeLogged_snd _ w
  · rfl

def tickLogged (t : TimerState) : List (Fin 4 × ℕ) × TimerState :=
  let r := cascadeIfDueLogged (beginTick t.wheel)
  let cur := (r.2.levels 0).currentSlot
  let u := (r.2.bucket 0 cur).foldl visit { t with wheel := r.2.setBucket 0 cur [] }
  (r.1 ++ [(0, cur)], { u with wheel := u.wheel.advanceSlot 0 })

theorem tickLogged_snd (t : TimerState) : t.tickLogged.2 = t.tick := by
  rw [tickLogged, cascadeIfDueLogged_snd]
  rfl

theorem slot_of_due {w : HierarchicalTimerWheel} {n : ℕ} (h : w.Staged n 3) {k : Fin 4}
    (hk : n % levelUnit k = 0) : (w.levels k).currentSlot = n / levelUnit k % levelSize k := by
  have hstage : stagePointer n 3 k = pointer k n := if_neg (by omega)
  rw [h.slot, hstage, pointer_of_due hk]

theorem slot_eq_zero_iff {w : HierarchicalTimerWheel} {n : ℕ} (h : w.Staged n 3) {k l : Fin 4}
    (hl : l.val = k.val + 1) (hk : n % levelUnit k = 0) :
    (w.levels k).currentSlot = 0 ↔ n % levelUnit l = 0 := by
  rw [slot_of_due h hk]
  rcases level_cases k with rfl | rfl | rfl | rfl
  · obtain rfl : l = 1 := Fin.ext hl
    simp
  · obtain rfl : l = 2 := Fin.ext hl
    simp at hk ⊢
    omega
  · obtain rfl : l = 3 := Fin.ext hl
    simp at hk ⊢
    omega
  · omega

theorem due_of_due {n : ℕ} {k l : Fin 4} (hkl : k ≤ l) (h : n % levelUnit l = 0) :
    n % levelUnit k = 0 := by
  rcases level_cases k with rfl | rfl | rfl | rfl <;>
    rcases level_cases l with rfl | rfl | rfl | rfl <;>
    simp at hkl h ⊢ <;> omega

theorem cascadeIfDueLogged_fst {w : HierarchicalTimerWheel} {n : ℕ} (h : w.Staged n 3) :
    (cascadeIfDueLogged w).1 = dueSlots n := by
  have hkept : ∀ {v : HierarchicalTimerWheel} {j k : Fin 4}, k ≠ j →
      ((v.redistribute j).levels k).currentSlot = (v.levels k).currentSlot :=
    fun hne => (redistribute_currentSlot ..).trans (if_neg hne)
  have hlast : cascadeLogged 1 w = ([(3, (w.levels 3).currentSlot)], w.redistribute 3) := by
    simp only [cascadeLogged, ite_self]
    rfl
  have htwo : ∀ r, (if (w.levels 2).currentSlot = 0 then cascadeLogged 1 w else ([], w)) = r →
      cascadeLogged 2 w = (r.1 ++ [(2, (r.2.levels 2).currentSlot)], r.2.redistribute 2) := by
    rintro r rfl
    rfl
  have hthree : ∀ r, (if (w.levels 1).currentSlot = 0 then cascadeLogged 2 w else ([], w)) = r →
      (cascadeLogged (kNumLevels - 1) w).1 = r.1 ++ [(1, (r.2.levels 1).currentSlot)] := by
    rintro r rfl
    rfl
  have h0 := slot_eq_zero_iff h (k := 0) (l := 1) rfl (Nat.mod_one n)
  by_cases c1 : n % levelUnit 1 = 0
  · have h1 := slot_eq_zero_iff h (k := 1) (l := 2) rfl c1
    have s1 := slot_of_due h c1
    by_cases c2 : n % levelUnit 2 = 0
    · have h2 := slot_eq_zero_iff h (k := 2) (l := 3) rfl c2
      have s2 := slot_of_due h c2
      by_cases c3 : n % levelUnit 3 = 0
      · have s3 := slot_of_due h c3
        rw [cascadeIfDueLogged, if_pos (h0.mpr c1),
          hthree _ ((if_pos (h1.mpr c2)).trans (htwo _ ((if_pos (h2.mpr c3)).trans hlast)))]
        simp only [hkept (by decide : (1 : Fin 4) ≠ 2), hkept (by decide : (1 : Fin 4) ≠ 3),
          hkept (by decide : (2 : Fin 4) ≠ 3), s1, s2, s3, dueSlots, List.filter, c1, c2, c3]
        rfl
      · rw [cascadeIfDueLogged, if_pos (h0.mpr c1),
          hthree _ ((if_pos (h1.mpr c2)).trans (htwo _ (if_neg (mt h2.mp c3))))]
        simp only [hkept (by decide : (1 : Fin 4) ≠ 2), s1, s2, dueSlots, List.filter, c1, c2, c3]
        rfl
    · have c3 : n % levelUnit 3 ≠ 0 := fun c3 => c2 (due_of_due (by decide) c3)
      rw [cascadeIfDueLogged, if_pos (h0.mpr c1), hthree _ (if_neg (mt h1.mp c2))]
      simp only [s1, dueSlots, List.filter, c1, c2, c3]
      rfl
  · have c2 : n % levelUnit 2 ≠ 0 := fun c2 => c1 (due_of_due (by decide) c2)
    have c3 : n % levelUnit 3 ≠ 0 := fun c3 => c1 (due_of_due (by decide) c3)
    rw [cascadeIfDueLogged, if_neg (mt h0.mp c1)]
    simp only [dueSlots, List.filter, c1, c2, c3]
    rfl

theorem tickLogged_fst {t : TimerState} {n : ℕ} (h : t.wheel.Aligned n) :
    t.tickLogged.1 = dueSlots n ++ [(0, n % 256)] := by
  have hcur : (((cascadeIfDueLogged (beginTick t.wheel)).2).levels 0).currentSlot = n % 256 := by
    rw [cascadeIfDueLogged_snd]
    exact scanned_slot h
  rw [tickLogged]
  dsimp only
  rw [hcur, cascadeIfDueLogged_fst (beginTick_staged h)]

theorem step_aligned {t u : TimerState} {op : TimerOp} {n : ℕ} (hq : op.quiet = true)
    (hstep : t.step op = some u) (h : t.wheel.Aligned n) : u.wheel.Aligned n := by
  cases op <;> simp only [step, Option.some.injEq] at hstep <;> subst hstep
  case schedule => exact scheduleAt_aligned h
  case scheduleAt => exact scheduleAt_aligned h
  case cancel id => exact cancel_aligned h id
  case tick => cases hq
  case advanceTo => cases hq
  case wake => exact ⟨h.time, h.count, h.slot⟩
  case drainReady => exact ⟨h.time, h.count, h.slot⟩
  case heap => exact h

end TimerState

structure LoggedWheel where
  timer : TimerState
  ticks : List (List (Fin 4 × ℕ))

namespace LoggedWheel
open HierarchicalTimerWheel
variable {s s' : LoggedWheel}

def tick (s : LoggedWheel) : LoggedWheel :=
  ⟨s.timer.tickLogged.2, s.ticks ++ [s.timer.tickLogged.1]⟩

def step (s : LoggedWheel) : TimerOp → Option LoggedWheel
  | .tick => some s.tick
  | .advanceTo target => some (tick^[s.timer.ticksUntil target] s)
  | op => (s.timer.step op).map fun t => ⟨t, s.ticks⟩

def fresh (now : ℤ) (m : Heap) : LoggedWheel := ⟨.fresh now m, []⟩

/-- After each tick the wheel stands where the number of ticks puts it, and each tick has emptied
the slots that were due. -/
structure InPhase (s : LoggedWheel) : Prop where
  aligned : s.timer.wheel.Aligned s.ticks.length
  emptied : ∀ n log, s.ticks[n]? = some log → log = dueSlots n ++ [(0, n % 256)]

theorem InPhase.tick (h : s.InPhase) : s.tick.InPhase where
  aligned := by
    rw [LoggedWheel.tick, TimerState.tickLogged_snd, List.length_append]
    exact TimerState.tick_aligned h.aligned
  emptied n log hlog := by
    rw [LoggedWheel.tick, List.getElem?_append] at hlog
    split_ifs at hlog with hn
    · exact h.emptied n log hlog
    · obtain ⟨hlt, rfl⟩ := List.getElem?_eq_some_iff.mp hlog
      have hzero : n - s.ticks.length = 0 := by simpa using hlt
      obtain rfl : n = s.ticks.length := by omega
      simpa using TimerState.tickLogged_fst h.aligned

theorem step_of_quiet {op : TimerOp} (hq : op.quiet = true) :
    s.step op = (s.timer.step op).map fun t => ⟨t, s.ticks⟩ := by
  cases op with
  | tick => cases hq
  | advanceTo target => cases hq
  | _ => rfl

theorem InPhase.step (h : s.InPhase) {op : TimerOp} (hstep : s.step op = some s') :
    s'.InPhase := by
  by_cases hq : op.quiet = true
  · rw [step_of_quiet hq, Option.map_eq_some_iff] at hstep
    obtain ⟨t, ht, rfl⟩ := hstep
    exact ⟨TimerState.step_aligned hq ht h.aligned, h.emptied⟩
  · cases op with
    | tick =>
      rw [← Option.some.inj hstep]
      exact h.tick
    | advanceTo target =>
      rw [← Option.some.inj hstep]
      generalize s.timer.ticksUntil target = n
      induction n with
      | zero => exact h
      | succ n ih =>
        rw [Function.iterate_succ_apply']
        exact ih.tick
    | _ => exact absurd rfl hq

theorem fresh_inPhase (start : ℤ) (m : Heap) : (fresh start m).InPhase :=
  ⟨TimerState.fresh_aligned start m, by simp [fresh]⟩

theorem iterate_tick_timer (s : LoggedWheel) (n : ℕ) :
    (tick^[n] s).timer = TimerState.tick^[n] s.timer := by
  induction n with
  | zero => rfl
  | succ n ih =>
    rw [Function.iterate_succ_apply', Function.iterate_succ_apply', ← ih]
    exact TimerState.tickLogged_snd _

theorem step_timer {op : TimerOp} (hstep : s.step op = some s') :
    s.timer.step op = some s'.timer := by
  by_cases hq : op.quiet = true
  · rw [step_of_quiet hq, Option.map_eq_some_iff] at hstep
    obtain ⟨t, ht, rfl⟩ := hstep
    exact ht
  · cases op with
    | tick =>
      rw [← Option.some.inj hstep]
      exact congrArg some (TimerState.tickLogged_snd s.timer).symm
    | advanceTo target =>
      rw [← Option.some.inj hstep, iterate_tick_timer]
      rfl
    | _ => exact absurd rfl hq

theorem levelUnit_eq {k : Fin 4} (hk : k ≠ 0) : levelUnit k = 2 ^ (8 + 6 * (k.val - 1)) := by
  revert k
  decide

theorem levelSize_eq {k : Fin 4} (hk : k ≠ 0) : levelSize k = 64 := by
  revert k
  decide

section Runs
variable {start : ℤ} {m : Heap} {ops : List TimerOp}

theorem run_reaches (h : Transition.run step (fresh start m) ops = some s) :
    TimerState.Reaches start m ops s.timer :=
  Transition.run_map timer step_timer h

theorem run_inPhase (h : Transition.run step (fresh start m) ops = some s) : s.InPhase :=
  Transition.invariant InPhase (fun hstep hs => hs.step hstep) (fresh_inPhase start m) h

/-- Where the wheel stands after any run, and what each tick has emptied: the last slot is that of
level 0, the levels go down, and level `k` cascades its slot `q % 64` in the tick with the number
`2 ^ (8 + 6 * (k - 1)) * q + 1`. -/
theorem wheel_in_phase (h : Transition.run step (fresh start m) ops = some s) :
    TimerState.Reaches start m ops s.timer ∧
    s.timer.wheel.currentTime = start + s.ticks.length * kMillisecond ∧
    (s.timer.wheel.levels 0).currentSlot = s.ticks.length % 256 ∧
    (∀ k : Fin 4, k ≠ 0 → (s.timer.wheel.levels k).currentSlot =
      s.ticks.length ⌈/⌉ 2 ^ (8 + 6 * (k.val - 1)) % 64) ∧
    ∀ n log, s.ticks[n]? = some log →
      log.getLast? = some ((0 : Fin 4), n % 256) ∧ log.Pairwise (fun a b => b.1 < a.1) ∧
      ∀ k slot, k ≠ 0 → ((k, slot) ∈ log ↔
        ∃ q, n + 1 = 2 ^ (8 + 6 * (k.val - 1)) * q + 1 ∧ q % 64 = slot) := by
  have hphase := run_inPhase h
  have hreach := run_reaches h
  refine ⟨hreach, ?_, ?_, fun k hk => ?_, fun n log hlog => ?_⟩
  · rw [hphase.aligned.time, hreach.startTime]
    rfl
  · rw [hphase.aligned.slot]
    simp [pointer]
  · rw [hphase.aligned.slot, pointer, levelUnit_eq hk, levelSize_eq hk, Nat.ceilDiv_eq_add_pred_div]
  · rw [hphase.emptied n log hlog]
    refine ⟨List.getLast?_concat .., ?_, fun k slot hk => ?_⟩
    · rw [List.pairwise_append]
      refine ⟨dueSlots_pairwise n, List.pairwise_singleton .., fun a ha b hb => ?_⟩
      rw [List.mem_singleton.mp hb]
      exact Fin.pos_of_ne_zero (dueSlots_level_ne ha)
    · have hzero : (k, slot) ∉ [((0 : Fin 4), n % 256)] := fun hmem =>
        hk (congrArg Prod.fst (List.mem_singleton.mp hmem))
      rw [List.mem_append, or_iff_left hzero, mem_dueSlots hk, levelUnit_eq hk, levelSize_eq hk]
      have hpos : 0 < 2 ^ (8 + 6 * (k.val - 1)) := Nat.two_pow_pos _
      constructor
      · rintro ⟨hdue, rfl⟩
        exact ⟨_, congrArg (· + 1) (Nat.mul_div_cancel' (Nat.dvd_of_mod_eq_zero hdue)).symm, rfl⟩
      · rintro ⟨q, hq, rfl⟩
        obtain rfl : n = 2 ^ (8 + 6 * (k.val - 1)) * q := Nat.succ.inj hq
        exact ⟨Nat.mul_mod_right _ q, by rw [Nat.mul_div_cancel_left q hpos]⟩

/-- The first tick cascades the slot 0 of every level, the second one nothing. -/
theorem wheel_in_phase_on_two_ticks :
    ∃ s, Transition.run step (fresh 0 ⟨fun _ => .pending, fun _ => .ok 0, fun _ => false⟩)
        [.tick, .schedule 300000000 (some 0) none .ready, .tick] = some s ∧
      s.ticks.length = 2 ∧ s.timer.wheel.currentTime = 2 * kMillisecond ∧
      (s.timer.wheel.levels 1).currentSlot = 1 ∧ ∃ first second, s.ticks = [first, second] ∧
      (1, 0) ∈ first ∧ (3, 0) ∈ first ∧ ∀ slot, (1, slot) ∉ second := by
  obtain ⟨s, hrun, first, second, hticks⟩ :
      ∃ s, Transition.run step (fresh 0 ⟨fun _ => .pending, fun _ => .ok 0, fun _ => false⟩)
        [.tick, .schedule 300000000 (some 0) none .ready, .tick] = some s ∧
        ∃ first second, s.ticks = [first, second] := by
    simp only [Transition.run_cons_eq_some]
    refine ⟨_, ⟨_, rfl, _, rfl, _, rfl, rfl⟩, ?_⟩
    simp only [tick, fresh, List.nil_append, List.singleton_append, List.cons.injEq]
    simp
  obtain ⟨-, htime, -, hslot, hlog⟩ := wheel_in_phase hrun
  rw [hticks] at htime hslot hlog
  obtain ⟨-, -, hfirst⟩ := hlog 0 first rfl
  obtain ⟨-, -, hsecond⟩ := hlog 1 second rfl
  refine ⟨s, hrun, by rw [hticks]; rfl, htime.trans (by simp), ?_,
    first, second, hticks, (hfirst 1 0 (by decide)).mpr ⟨0, by simp, rfl⟩,
    (hfirst 3 0 (by decide)).mpr ⟨0, by simp, rfl⟩, fun slot hmem => ?_⟩
  · rw [hslot 1 (by decide), Nat.ceilDiv_eq_add_pred_div]
    simp
  · obtain ⟨q, hq, -⟩ := (hsecond 1 slot (by decide)).mp hmem
    change 1 + 1 = 256 * q + 1 at hq
    omega

end Runs
end LoggedWheel
end RainRuntime
