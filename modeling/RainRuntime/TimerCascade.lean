import RainRuntime.TimerIds
import RainRuntime.TimerWindow

/-!
# One tick's cascades

`cascade` recurses upwards while the current slots read zero. After `n` ticks this
means: the levels whose unit divides `n` are redistributed, the coarsest first. So a
tick is a chain of stages, and each stage moves the windows of `TimerWindow` by one
level. An id of a live timer is in exactly one slot throughout; ids that are in no
slot are not put into one.
-/

namespace RainRuntime
namespace HierarchicalTimerWheel

/-- Inside the tick that follows `n` others, with the levels above `j` done. -/
structure Staged (w : HierarchicalTimerWheel) (n j : ℕ) : Prop where
  time : w.currentTime = w.startTime + (n + 1 : ℕ) * kTickDuration
  count : ∀ k, (w.levels k).slotCount = levelSize k
  slot : ∀ k, (w.levels k).currentSlot = stagePointer n j k % levelSize k

/-- Between two operations, after `n` ticks. -/
structure Aligned (w : HierarchicalTimerWheel) (n : ℕ) : Prop where
  time : w.currentTime = w.startTime + n * kTickDuration
  count : ∀ k, (w.levels k).slotCount = levelSize k
  slot : ∀ k, (w.levels k).currentSlot = pointer k n % levelSize k

def Located (w : HierarchicalTimerWheel) (id : TimerId) (k : Fin 4) (s : ℕ) : Prop :=
  ∀ j t, (w.bucket j t).count id = if j = k ∧ t = s then 1 else 0

def Present (w : HierarchicalTimerWheel) (id : TimerId) : Prop := ∃ k s, id ∈ w.bucket k s

theorem Located.mem_iff {w : HierarchicalTimerWheel} {id : TimerId} {k : Fin 4} {s : ℕ}
    (h : w.Located id k s) (j : Fin 4) (t : ℕ) : id ∈ w.bucket j t ↔ j = k ∧ t = s := by
  rw [← List.count_pos_iff, h j t]
  split_ifs with he
  · simp [he]
  · simp [he]

theorem present_of_bucket {w w' : HierarchicalTimerWheel} {id : TimerId} (h : w'.Present id)
    (hb : ∀ j t, w'.bucket j t = w.bucket j t) : w.Present id := by
  obtain ⟨k, s, hs⟩ := h
  exact ⟨k, s, hb k s ▸ hs⟩

theorem count_filter_destination (w : HierarchicalTimerWheel) (l : List TimerId) (id : TimerId)
    (x : Fin 4 × ℕ) :
    (l.filter fun i => w.destination i = some x).count id =
      if w.destination id = some x then l.count id else 0 := by
  split_ifs with h
  · exact List.count_filter (by simpa using h)
  · exact List.count_eq_zero.mpr fun hmem => h (by simpa using (List.mem_filter.mp hmem).2)

theorem Located.redistribute_of_ne {w : HierarchicalTimerWheel} {id : TimerId} {k : Fin 4} {s : ℕ}
    (h : w.Located id k s) {j : Fin 4} (hne : ¬(k = j ∧ s = (w.levels j).currentSlot)) :
    (w.redistribute j).Located id k s := by
  intro i t
  have hzero : (w.bucket j (w.levels j).currentSlot).count id = 0 := by
    rw [h, if_neg fun he => hne ⟨he.1.symm, he.2.symm⟩]
  rw [bucket_redistribute, List.count_append, count_filter_destination, hzero, ite_self,
    Nat.add_zero]
  by_cases hcur : i = j ∧ t = (w.levels j).currentSlot
  · obtain ⟨rfl, rfl⟩ := hcur
    rw [if_pos ⟨rfl, rfl⟩, List.count_nil, if_neg fun he => hne ⟨he.1.symm, he.2.symm⟩]
  · rw [if_neg hcur]
    exact h i t

theorem Located.redistribute_of_eq {w : HierarchicalTimerWheel} {id : TimerId} {j : Fin 4}
    (h : w.Located id j (w.levels j).currentSlot) {e : TimerEntry} (hl : w.lookup id = some e) :
    (w.redistribute j).Located id (w.route e.deadline).1 (w.route e.deadline).2 := by
  intro i t
  have hone : (w.bucket j (w.levels j).currentSlot).count id = 1 := by
    rw [h, if_pos ⟨rfl, rfl⟩]
  have hd : w.destination id = some (i, t) ↔
      i = (w.route e.deadline).1 ∧ t = (w.route e.deadline).2 := by
    rw [destination, hl, Option.map_some, Option.some.injEq, Prod.ext_iff]
    exact ⟨fun h => ⟨h.1.symm, h.2.symm⟩, fun h => ⟨h.1.symm, h.2.symm⟩⟩
  rw [bucket_redistribute, List.count_append, count_filter_destination, hone]
  have hrest : (if i = j ∧ t = (w.levels j).currentSlot then [] else w.bucket i t).count
      id = 0 := by
    split_ifs with hcur
    · exact List.count_nil
    · rw [h, if_neg hcur]
  rw [hrest, Nat.zero_add]
  simp only [hd]

theorem Present.of_redistribute {w : HierarchicalTimerWheel} {id : TimerId} {j : Fin 4}
    (h : (w.redistribute j).Present id) : w.Present id := by
  obtain ⟨k, s, hs⟩ := h
  rw [bucket_redistribute, List.mem_append] at hs
  rcases hs with hs | hs
  · split_ifs at hs with hcur
    · simp at hs
    · exact ⟨k, s, hs⟩
  · exact ⟨j, _, (List.mem_filter.mp hs).1⟩

theorem Staged.redistribute {w : HierarchicalTimerWheel} {n : ℕ} {j : Fin 4} (hj : j ≠ 0)
    (hn : n % levelUnit j = 0) (h : w.Staged n j) : (w.redistribute j).Staged n (j.val - 1) where
  time := by
    rw [redistribute_currentTime, redistribute_startTime]
    exact h.time
  count k := by
    rw [redistribute_slotCount]
    exact h.count k
  slot k := by
    rw [redistribute_currentSlot]
    split_ifs with hk
    · subst hk
      rw [h.slot, h.count, stagePointer_self, stagePointer_pred_self hj, pointer_succ hn,
        Nat.mod_add_mod]
    · rw [h.slot, stagePointer_pred hj hk]

theorem Staged.skip {w : HierarchicalTimerWheel} {n : ℕ} {j : Fin 4} (hj : j ≠ 0)
    (hn : n % levelUnit j ≠ 0) (h : w.Staged n j) : w.Staged n (j.val - 1) where
  time := h.time
  count := h.count
  slot k := by
    rw [h.slot]
    by_cases hk : k = j
    · subst hk
      rw [stagePointer_self, stagePointer_pred_self hj, pointer_succ_of_ne hn]
    · rw [stagePointer_pred hj hk]

def cascadeStage (n : ℕ) (j : Fin 4) (w : HierarchicalTimerWheel) : HierarchicalTimerWheel :=
  if n % levelUnit j = 0 then w.redistribute j else w

theorem cascadeStage_of_due {w : HierarchicalTimerWheel} {n : ℕ} {j : Fin 4}
    (hn : n % levelUnit j = 0) : w.cascadeStage n j = w.redistribute j := if_pos hn

theorem cascadeStage_of_not_due {w : HierarchicalTimerWheel} {n : ℕ} {j : Fin 4}
    (hn : n % levelUnit j ≠ 0) : w.cascadeStage n j = w := if_neg hn

theorem Staged.cascadeStage {w : HierarchicalTimerWheel} {n : ℕ} {j : Fin 4} (hj : j ≠ 0)
    (h : w.Staged n j) : (w.cascadeStage n j).Staged n (j.val - 1) := by
  by_cases hn : n % levelUnit j = 0
  · rw [cascadeStage_of_due hn]
    exact h.redistribute hj hn
  · rw [cascadeStage_of_not_due hn]
    exact h.skip hj hn

/-- The recursion of `cascade` as a chain of stages. -/
theorem cascadeIfDue_eq {w : HierarchicalTimerWheel} {n : ℕ} (h : w.Staged n 3) :
    TimerState.cascadeIfDue w = ((w.cascadeStage n 3).cascadeStage n 2).cascadeStage n 1 := by
  have h0 : (w.levels 0).currentSlot = n % 256 := by
    have := h.slot 0
    simpa [stagePointer, pointer] using this
  have h1 : (w.levels 1).currentSlot = (n + 255) / 256 % 64 := h.slot 1
  have h2 : (w.levels 2).currentSlot = (n + 16383) / 16384 % 64 := h.slot 2
  have hlast : ∀ v : HierarchicalTimerWheel, cascadeLast 1 v = v.redistribute 3 := by
    intro v
    simp only [cascadeLast, ite_self]
    rfl
  have htwo : cascadeLast 2 w =
      (if (w.levels 2).currentSlot = 0 then w.redistribute 3 else w).redistribute 2 := by
    rw [← hlast]
    rfl
  have hthree : w.cascade 1 =
      (if (w.levels 1).currentSlot = 0 then cascadeLast 2 w else w).redistribute 1 := rfl
  rw [TimerState.cascadeIfDue, hthree, htwo]
  by_cases c1 : n % levelUnit 1 = 0
  · rw [if_pos (h0.trans c1), cascadeStage_of_due c1]
    rw [levelUnit_one] at c1
    by_cases c2 : n % levelUnit 2 = 0
    · rw [cascadeStage_of_due c2]
      rw [levelUnit_two] at c2
      rw [if_pos (show (w.levels 1).currentSlot = 0 by omega)]
      by_cases c3 : n % levelUnit 3 = 0
      · rw [cascadeStage_of_due c3]
        rw [levelUnit_three] at c3
        rw [if_pos (show (w.levels 2).currentSlot = 0 by omega)]
      · rw [cascadeStage_of_not_due c3]
        rw [levelUnit_three] at c3
        rw [if_neg (show (w.levels 2).currentSlot ≠ 0 by omega)]
    · rw [cascadeStage_of_not_due c2]
      rw [levelUnit_two] at c2
      rw [if_neg (show (w.levels 1).currentSlot ≠ 0 by omega),
        cascadeStage_of_not_due (show n % levelUnit 3 ≠ 0 by rw [levelUnit_three]; omega)]
  · rw [cascadeStage_of_not_due c1]
    rw [levelUnit_one] at c1
    rw [if_neg (show (w.levels 0).currentSlot ≠ 0 by omega),
      cascadeStage_of_not_due (show n % levelUnit 2 ≠ 0 by rw [levelUnit_two]; omega),
      cascadeStage_of_not_due (show n % levelUnit 3 ≠ 0 by rw [levelUnit_three]; omega)]

theorem Staged.cascadeIfDue {w : HierarchicalTimerWheel} {n : ℕ} (h : w.Staged n 3) :
    (TimerState.cascadeIfDue w).Staged n 0 := by
  rw [cascadeIfDue_eq h]
  have h3 : (w.cascadeStage n 3).Staged n 2 := Staged.cascadeStage (j := 3) (by decide) h
  have h2 : ((w.cascadeStage n 3).cascadeStage n 2).Staged n 1 :=
    Staged.cascadeStage (j := 2) (by decide) h3
  exact Staged.cascadeStage (j := 1) (by decide) h2

theorem cascadeStage_lookup (w : HierarchicalTimerWheel) (n : ℕ) (j : Fin 4) (id : TimerId) :
    (w.cascadeStage n j).lookup id = w.lookup id := by
  unfold cascadeStage
  split_ifs
  · rw [lookup, redistribute_slotmap]
    rfl
  · rfl

theorem cascadeStage_route (w : HierarchicalTimerWheel) (n : ℕ) (j : Fin 4) (d : ℤ) :
    (w.cascadeStage n j).route d = w.route d := by
  unfold cascadeStage
  split_ifs
  · rw [route, redistribute_startTime, redistribute_currentTime]
    rfl
  · rfl

/-- From one place of the wheel to another in the tick that follows `n` others: an id that
stands in the current slot of a due level goes to `dest`, and every other one stays. -/
def Shift (n : ℕ) (dest x y : Fin 4 × ℕ) : Prop :=
  y = x ∨ (x.1 ≠ 0 ∧ n % levelUnit x.1 = 0 ∧ x.2 = pointer x.1 n % levelSize x.1 ∧ y = dest)

theorem Shift.trans {n : ℕ} {dest x y z : Fin 4 × ℕ} (h : Shift n dest x y)
    (h' : Shift n dest y z) : Shift n dest x z := by
  rcases h with rfl | ⟨hx, hn, hs, rfl⟩
  · exact h'
  · refine Or.inr ⟨hx, hn, hs, ?_⟩
    rcases h' with h' | ⟨-, -, -, h'⟩
    · exact h'
    · exact h'

theorem Located.cascadeStage {w : HierarchicalTimerWheel} {n : ℕ} {j : Fin 4} (hj : j ≠ 0)
    (hw : w.Staged n j) {id : TimerId} {x : Fin 4 × ℕ} (h : w.Located id x.1 x.2)
    {e : TimerEntry} (hl : w.lookup id = some e) :
    ∃ y, (w.cascadeStage n j).Located id y.1 y.2 ∧ Shift n (w.route e.deadline) x y := by
  by_cases hn : n % levelUnit j = 0
  · rw [cascadeStage_of_due hn]
    by_cases hcur : x.1 = j ∧ x.2 = (w.levels j).currentSlot
    · obtain ⟨rfl, hs⟩ := hcur
      rw [hs] at h
      refine ⟨w.route e.deadline, h.redistribute_of_eq hl, Or.inr ⟨hj, hn, ?_, rfl⟩⟩
      rw [hs, hw.slot, stagePointer_self]
    · exact ⟨x, h.redistribute_of_ne hcur, Or.inl rfl⟩
  · rw [cascadeStage_of_not_due hn]
    exact ⟨x, h, Or.inl rfl⟩

/-- Where a live id stands after the cascades of one tick. -/
theorem Located.cascadeIfDue {w : HierarchicalTimerWheel} {n : ℕ} (hw : w.Staged n 3)
    {id : TimerId} {x : Fin 4 × ℕ} (h : w.Located id x.1 x.2) {e : TimerEntry}
    (hl : w.lookup id = some e) :
    ∃ y, (TimerState.cascadeIfDue w).Located id y.1 y.2 ∧ Shift n (w.route e.deadline) x y := by
  rw [cascadeIfDue_eq hw]
  have hw3 : (w.cascadeStage n 3).Staged n 2 := Staged.cascadeStage (j := 3) (by decide) hw
  have hw2 : ((w.cascadeStage n 3).cascadeStage n 2).Staged n 1 :=
    Staged.cascadeStage (j := 2) (by decide) hw3
  obtain ⟨y, hy, hxy⟩ := h.cascadeStage (j := 3) (by decide) hw hl
  obtain ⟨z, hz, hyz⟩ := hy.cascadeStage (j := 2) (e := e) (by decide) hw3
    (by rw [cascadeStage_lookup, hl])
  obtain ⟨r, hr, hzr⟩ := hz.cascadeStage (j := 1) (e := e) (by decide) hw2
    (by rw [cascadeStage_lookup, cascadeStage_lookup, hl])
  rw [cascadeStage_route] at hyz
  rw [cascadeStage_route, cascadeStage_route] at hzr
  exact ⟨r, hr, (hxy.trans hyz).trans hzr⟩

end HierarchicalTimerWheel

open HierarchicalTimerWheel

def Far (e : TimerEntry) (now : ℤ) : Prop := 16384 * kTickDuration ≤ e.deadline - now

instance (e : TimerEntry) (now : ℤ) : Decidable (Far e now) := inferInstanceAs (Decidable (_ ≤ _))

/-- Live timers are in one slot each, and it is one that `P` allows if they were scheduled
for a time not yet past. -/
def Held (w : HierarchicalTimerWheel) (tr : List TimerEvent)
    (P : Fin 4 → ℕ → ℕ → Prop → Prop) : Prop :=
  ∀ e now, .scheduled e now ∈ tr → (w.lookup e.id).isSome → ∃ k s, w.Located e.id k s ∧
    (now ≤ e.deadline → P k s (deadlineTick w.startTime e.deadline) (Far e now))

section Stages
variable {w : HierarchicalTimerWheel} {tr : List TimerEvent} {n : ℕ}

theorem Held.imp {P Q : Fin 4 → ℕ → ℕ → Prop → Prop} (h : Held w tr P)
    (hPQ : ∀ k s d far, P k s d far → Q k s d far) : Held w tr Q := by
  intro e now he hl
  obtain ⟨k, s, hloc, hP⟩ := h e now he hl
  exact ⟨k, s, hloc, fun hd => hPQ k s _ _ (hP hd)⟩

structure StageInv (w : HierarchicalTimerWheel) (tr : List TimerEvent) (n j : ℕ) : Prop where
  staged : w.Staged n j
  since : ∀ e now, .scheduled e now ∈ tr → w.startTime ≤ now
  entry : ∀ e now, .scheduled e now ∈ tr → ∀ e', w.lookup e.id = some e' → e' = e
  held : Held w tr (Mid n j)

/-- Redistributing level `j` moves every live timer into a window of the next stage. -/
theorem StageInv.held_redistribute {j : Fin 4} (hj : j ≠ 0) (hn : n % levelUnit j = 0)
    (h : StageInv w tr n j) : Held (w.redistribute j) tr (Mid n (j.val - 1)) := by
  intro e now he hl
  have hslot : (w.levels j).currentSlot = pointer j n % levelSize j := by
    rw [h.staged.slot, stagePointer_self]
  rw [lookup, redistribute_slotmap] at hl
  obtain ⟨k, s, hloc, hmid⟩ := h.held e now he hl
  rw [redistribute_startTime]
  by_cases hcur : k = j ∧ s = (w.levels j).currentSlot
  · obtain ⟨rfl, rfl⟩ := hcur
    obtain ⟨e', he'⟩ := Option.isSome_iff_exists.mp hl
    have hee := h.entry e now he e' he'
    subst hee
    refine ⟨_, _, hloc.redistribute_of_eq he', fun hd => ?_⟩
    have hstart : w.startTime ≤ e'.deadline := (h.since e' now he).trans hd
    rw [hslot] at hmid
    rw [route_eq h.staged.time hstart]
    exact (hmid hd).moved hj hn
  · refine ⟨k, s, hloc.redistribute_of_ne hcur, fun hd => (hmid hd).kept hj hn ?_⟩
    rwa [← hslot]

theorem StageInv.cascadeStage {j : Fin 4} (hj : j ≠ 0) (h : StageInv w tr n j) :
    StageInv (w.cascadeStage n j) tr n (j.val - 1) := by
  have hstaged := h.staged.cascadeStage hj
  by_cases hn : n % levelUnit j = 0
  · rw [cascadeStage_of_due hn] at hstaged ⊢
    refine ⟨hstaged, ?_, ?_, h.held_redistribute hj hn⟩
    · rw [redistribute_startTime]
      exact h.since
    · simp only [lookup, redistribute_slotmap]
      exact h.entry
  · rw [cascadeStage_of_not_due hn] at hstaged ⊢
    exact ⟨hstaged, h.since, h.entry, h.held.imp fun k s d far => Mid.skip hj hn⟩

theorem StageInv.cascadeIfDue (h : StageInv w tr n 3) :
    StageInv (TimerState.cascadeIfDue w) tr n 0 := by
  rw [cascadeIfDue_eq h.staged]
  have h3 : StageInv (w.cascadeStage n 3) tr n 2 := StageInv.cascadeStage (j := 3) (by decide) h
  have h2 : StageInv ((w.cascadeStage n 3).cascadeStage n 2) tr n 1 :=
    StageInv.cascadeStage (j := 2) (by decide) h3
  exact StageInv.cascadeStage (j := 1) (by decide) h2

end Stages
end RainRuntime
