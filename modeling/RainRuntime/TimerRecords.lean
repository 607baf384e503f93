import Mathlib.Algebra.BigOperators.Fin
import RainRuntime.NextDeadline

/-!
# The slotmap and the slots

The table of entries, the stack of free indices, the count of active timers and the slots of
the four levels tell the same story: the ids of the active entries, each once.
-/

namespace RainRuntime
namespace HierarchicalTimerWheel
variable {w : HierarchicalTimerWheel}

def occurrences (w : HierarchicalTimerWheel) (id : TimerId) : ℕ :=
  ∑ k : Fin 4, ∑ s ∈ Finset.range (w.levels k).slotCount, (w.bucket k s).count id

theorem route_lt (w : HierarchicalTimerWheel) (d : ℤ) :
    (w.route d).2 < levelSize (w.route d).1 := by
  have h255 : ∀ x : ℕ, x &&& (kLevel0Size - 1) < 256 :=
    fun x => Nat.lt_succ_of_le Nat.and_le_right
  have h63 : ∀ x : ℕ, x &&& (kLevelNSize - 1) < 64 :=
    fun x => Nat.lt_succ_of_le Nat.and_le_right
  unfold route
  dsimp only
  split_ifs
  · exact h255 _
  · exact h63 _
  · exact h63 _
  · exact h63 _

def InSlots (w : HierarchicalTimerWheel) : Prop :=
  ∀ id k s, id ∈ w.bucket k s → s < levelSize k

theorem InSlots.redistribute (h : w.InSlots) (j : Fin 4) : (w.redistribute j).InSlots := by
  intro id k s hid
  rw [bucket_redistribute, List.mem_append] at hid
  rcases hid with hid | hid
  · split_ifs at hid
    · cases hid
    · exact h id k s hid
  · obtain ⟨-, hdest⟩ := List.mem_filter.mp hid
    obtain ⟨e, -, he⟩ := Option.map_eq_some_iff.mp (of_decide_eq_true hdest)
    have hlt := w.route_lt e.deadline
    rwa [he] at hlt

theorem Located.occurrences {id : TimerId} {k : Fin 4} {s : ℕ} (h : w.Located id k s)
    (hs : s < (w.levels k).slotCount) : w.occurrences id = 1 := by
  rw [HierarchicalTimerWheel.occurrences, Finset.sum_eq_single k]
  · rw [Finset.sum_eq_single s]
    · rw [h, if_pos ⟨rfl, rfl⟩]
    · intro r _ hr
      rw [h, if_neg fun he => hr he.2]
    · intro hr
      exact absurd (Finset.mem_range.mpr hs) hr
  · intro j _ hj
    refine Finset.sum_eq_zero fun r _ => ?_
    rw [h, if_neg fun he => hj he.1]
  · intro hk
    exact absurd (Finset.mem_univ k) hk

end HierarchicalTimerWheel

namespace TimerState
open HierarchicalTimerWheel
variable {t u : TimerState} {n : ℕ}

theorem tick_inSlots (h : t.wheel.InSlots) : t.tick.wheel.InSlots := by
  have hcascaded : t.cascaded.InSlots :=
    cascadeIfDue_rule (P := InSlots) (fun _ k hv => hv.redistribute k) h
  intro id k s hid
  rw [bucket_tick] at hid
  split_ifs at hid
  · cases hid
  · exact hcascaded id k s hid

theorem scheduleAt_inSlots (ht : t.wheel.InSlots) (d : ℤ) (h : Option Handle) (p : Option StatePtr)
    (c : WaitState) : (t.scheduleAt d h p c).wheel.InSlots := by
  intro id k s hid
  rw [bucket_scheduleAt, List.mem_append] at hid
  rcases hid with hid | hid
  · exact ht id k s hid
  · split_ifs at hid with hroute
    · rw [hroute.1, hroute.2]
      exact t.wheel.route_lt d
    · cases hid

theorem step_inSlots {op : TimerOp} (ht : t.wheel.InSlots) (hstep : t.step op = some u) :
    u.wheel.InSlots := by
  cases op <;> simp only [step, Option.some.injEq] at hstep <;> subst hstep
  case schedule => exact scheduleAt_inSlots ht _ _ _ _
  case scheduleAt => exact scheduleAt_inSlots ht _ _ _ _
  case cancel id =>
    cases hl : t.wheel.lookup id with
    | none =>
      rw [cancel_of_stale hl]
      exact ht
    | some e =>
      rw [cancel_of_live hl]
      exact ht
  case tick => exact tick_inSlots ht
  case advanceTo target =>
    exact advanceTo_rule (fun v => v.wheel.InSlots) (fun _ hv => tick_inSlots hv) target ht
  all_goals exact ht

section Runs
variable {start : ℤ} {m : Heap} {ops : List TimerOp}

theorem Reaches.inSlots (h : Reaches start m ops t) : t.wheel.InSlots := by
  refine Transition.invariant (fun v : TimerState => v.wheel.InSlots)
    (fun hstep hs => step_inSlots hs hstep) ?_ h
  intro id k s hid
  rcases level_cases k with rfl | rfl | rfl | rfl <;> cases hid

theorem lookup_of_active (hb : Bounded t.wheel.slotmap) {i : ℕ} {s : Slot TimerEntry}
    (hs : t.wheel.slotmap.slots[i]? = some s) (ha : s.active = true) :
    t.wheel.lookup (encodeId i s.generation) = some s.entry := by
  have hi : i < 2 ^ 24 := (List.getElem?_eq_some_iff.mp hs).1.trans_le hb.1
  have hg : s.generation < 2 ^ 40 := hb.2 s (List.mem_of_getElem? hs)
  rw [lookup, idIndex_encodeId hi hg, idGen_encodeId hi hg]
  exact Slotmap.get?_eq_some.mpr ⟨s, hs, ha, rfl, rfl⟩

theorem FiringInv.located (hf : FiringInv t n) {id : TimerId} {e : TimerEntry}
    (he : t.wheel.lookup id = some e) : ∃ k s, t.wheel.Located id k s := by
  obtain ⟨rfl, now, hs⟩ := hf.ids.entry id e he
  obtain ⟨k, s, hloc, -⟩ := hf.held e now hs (Option.isSome_iff_exists.mpr ⟨e, he⟩)
  exact ⟨k, s, hloc⟩

theorem exists_ahead (k : Fin 4) (c : ℕ) {s : ℕ} (hs : s < levelSize k) :
    ∃ i < levelSize k, (c + i) % levelSize k = s := by
  refine ⟨(s + levelSize k - c % levelSize k) % levelSize k, ?_, ?_⟩ <;>
    rcases level_cases k with rfl | rfl | rfl | rfl <;>
    simp only [levelSize_zero, levelSize_one, levelSize_two, levelSize_three] at hs ⊢ <;> omega

theorem FiringInv.inPlace (hf : FiringInv t n) (hin : t.wheel.InSlots) {id : TimerId}
    {e : TimerEntry} (he : t.wheel.lookup id = some e) : ∃ k i, t.wheel.InPlace k i e := by
  obtain ⟨k, s, hloc⟩ := hf.located he
  have hmem := (hloc.mem_iff k s).mpr ⟨rfl, rfl⟩
  obtain ⟨i, hi, hslot⟩ := exists_ahead k (t.wheel.levels k).currentSlot (hin id k s hmem)
  refine ⟨k, i, ?_, id, ?_, he⟩
  · rw [hf.aligned.count]
    exact hi
  · rw [ahead, hf.aligned.count, hslot]
    exact hmem

/-- The free stack lists the inactive indices, each once; the counter counts the active slots;
an active slot's entry carries the id of its own index and generation, and that id is in one
place of the wheel; and `next_deadline` has no answer exactly if no timer is live. -/
theorem timer_records_agree (h : Reaches start m ops t) (hb : Bounded t.wheel.slotmap) :
    t.wheel.slotmap.freeIndices.Nodup ∧
    (∀ i, i ∈ t.wheel.slotmap.freeIndices ↔
      ∃ s, t.wheel.slotmap.slots[i]? = some s ∧ s.active = false) ∧
    t.wheel.slotmap.activeCount = t.wheel.slotmap.slots.countP Slot.active ∧
    (∀ i s, t.wheel.slotmap.slots[i]? = some s → s.active = true →
      s.entry.id = encodeId i s.generation ∧ t.wheel.occurrences s.entry.id = 1) ∧
    (t.wheel.nextDeadline = none ↔ ∀ s ∈ t.wheel.slotmap.slots, s.active = false) := by
  obtain ⟨n, hf⟩ := h.firingInv hb
  have hin := h.inSlots
  refine ⟨t.wheel.slotmap.freeIndices_nodup, t.wheel.slotmap.mem_freeIndices,
    t.wheel.slotmap.activeCount_eq, fun i s hs ha => ?_, ?_⟩
  · have hl := lookup_of_active hb hs ha
    have hid := (hf.ids.entry _ _ hl).1
    refine ⟨hid, ?_⟩
    obtain ⟨k, r, hloc⟩ := hf.located hl
    rw [hid]
    refine hloc.occurrences ?_
    rw [hf.aligned.count]
    exact hin _ k r ((hloc.mem_iff k r).mpr ⟨rfl, rfl⟩)
  · constructor
    · intro hnone s hs
      by_contra ha
      obtain ⟨i, hi⟩ := List.mem_iff_getElem?.mp hs
      obtain ⟨k, j, hplace⟩ := hf.inPlace hin (lookup_of_active hb hi (by simpa using ha))
      exact nextDeadline_none hnone k j _ hplace
    · intro hall
      refine if_pos ?_
      rw [t.wheel.slotmap.activeCount_eq, List.countP_eq_zero]
      intro s hs
      simp [hall s hs]

/-- One timer is cancelled and its index taken again; one fires. -/
theorem timer_records_agree_on_reuse :
    ∃ t, Reaches 0 ⟨fun _ => .pending, fun _ => .ok 0, fun _ => false⟩
        [.scheduleAt 1500000 (some 0) (some 0) .timedOut, .schedule 0 (some 1) (some 1) .ready,
          .cancel (encodeId 0 1), .schedule 9000000 (some 2) (some 2) .ready, .tick] t ∧
      Bounded t.wheel.slotmap ∧ t.wheel.slotmap.freeIndices = [1] ∧
      t.wheel.occurrences (encodeId 0 2) = 1 ∧ t.wheel.nextDeadline ≠ none := by
  obtain ⟨t, hr, hb, hfree, s, hs, ha, hgen⟩ : ∃ t,
      Reaches 0 ⟨fun _ => .pending, fun _ => .ok 0, fun _ => false⟩
        [.scheduleAt 1500000 (some 0) (some 0) .timedOut, .schedule 0 (some 1) (some 1) .ready,
          .cancel (encodeId 0 1), .schedule 9000000 (some 2) (some 2) .ready, .tick] t ∧
      Bounded t.wheel.slotmap ∧ t.wheel.slotmap.freeIndices = [1] ∧
      ∃ s, t.wheel.slotmap.slots[0]? = some s ∧ s.active = true ∧ s.generation = 2 :=
    ⟨_, rfl, by decide, by decide, _, rfl, rfl, rfl⟩
  obtain ⟨-, -, -, hactive, hnone⟩ := timer_records_agree hr hb
  obtain ⟨hid, hone⟩ := hactive 0 s hs ha
  rw [hid, hgen] at hone
  refine ⟨t, hr, hb, hfree, hone, fun h => ?_⟩
  rw [hnone.mp h s (List.mem_of_getElem? hs)] at ha
  cases ha

end Runs
end TimerState
end RainRuntime
