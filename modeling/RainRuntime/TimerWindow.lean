import Mathlib.Data.Fin.VecNotation
import Mathlib.Data.Fintype.Basic
import Mathlib.Tactic.FinCases
import Mathlib.Tactic.Ring
import RainRuntime.TimerWheel

/-!
# Where a deadline may be filed

Level `k` counts time in units of 1, `2 ^ 8`, `2 ^ 14` and `2 ^ 20` ticks and has 256
or 64 slots. After `n` ticks the next slot it empties is number `pointer k n`. A
deadline that falls in tick `d` waits on level `k` under number `d / unit`, and it is
found in time when that number lies in the level's window: not before the pointer and,
except on the last level, less than one turn after it.

Inside a tick the clock already shows `n + 1` while the slots still stand at `n`. The
windows `Mid` of those intermediate stages are wider by one case, `slack`: a deadline
exactly one turn ahead is filed into the slot that is about to be emptied. On level 1
the cascade files it there a second time, behind the pointer. On level 0 it is taken
for due, and this is the only way a deadline can be missed.
-/

namespace RainRuntime

def levelUnit : Fin 4 → ℕ := ![1, 256, 16384, 1048576]
def levelSize : Fin 4 → ℕ := ![256, 64, 64, 64]

@[simp] theorem levelUnit_zero : levelUnit 0 = 1 := rfl
@[simp] theorem levelUnit_one : levelUnit 1 = 256 := rfl
@[simp] theorem levelUnit_two : levelUnit 2 = 16384 := rfl
@[simp] theorem levelUnit_three : levelUnit 3 = 1048576 := rfl
@[simp] theorem levelSize_zero : levelSize 0 = 256 := rfl
@[simp] theorem levelSize_one : levelSize 1 = 64 := rfl
@[simp] theorem levelSize_two : levelSize 2 = 64 := rfl
@[simp] theorem levelSize_three : levelSize 3 = 64 := rfl

theorem level_cases (k : Fin 4) : k = 0 ∨ k = 1 ∨ k = 2 ∨ k = 3 := by
  revert k
  decide

def pointer (k : Fin 4) (n : ℕ) : ℕ := (n + levelUnit k - 1) / levelUnit k

def slotOf (k : Fin 4) (d : ℕ) : ℕ := d / levelUnit k % levelSize k

/-- The millisecond tick a deadline falls in. -/
def deadlineTick (start deadline : ℤ) : ℕ := ((deadline - start) / kMillisecond).toNat

def routeLevel (diff : ℕ) : Fin 4 :=
  if diff < 256 then 0 else if diff < 16384 then 1 else if diff < 1048576 then 2 else 3

theorem deadlineTick_eq {start deadline : ℤ} (h : start ≤ deadline) :
    (toMillis (deadline - start)).toNat = deadlineTick start deadline := by
  rw [toMillis, Int.tdiv_eq_ediv_of_nonneg (by omega), deadlineTick]

theorem diff_eq {start deadline : ℤ} (n : ℕ) (h : start ≤ deadline) :
    (toMillis (deadline - (start + n * kTickDuration))).toNat =
      deadlineTick start deadline - n := by
  simp only [toMillis, deadlineTick, kTickDuration, kMillisecond]
  by_cases hn : 0 ≤ deadline - (start + n * 1000000)
  · rw [Int.tdiv_eq_ediv_of_nonneg hn]
    omega
  · have hneg : (deadline - (start + n * 1000000)).tdiv 1000000 ≤ 0 := by
      rw [← Int.neg_neg (deadline - (start + n * 1000000)), Int.neg_tdiv]
      have hpos := Int.tdiv_nonneg (b := 1000000) (show 0 ≤ -(deadline - (start + n * 1000000)) by
        omega) (by omega)
      omega
    omega

theorem route_eq {w : HierarchicalTimerWheel} {n : ℕ} {deadline : ℤ}
    (ht : w.currentTime = w.startTime + n * kTickDuration) (hd : w.startTime ≤ deadline) :
    w.route deadline =
      (routeLevel (deadlineTick w.startTime deadline - n),
        slotOf (routeLevel (deadlineTick w.startTime deadline - n))
          (deadlineTick w.startTime deadline)) := by
  have h255 : ∀ x : ℕ, x &&& (kLevel0Size - 1) = x % 256 :=
    fun x => Nat.and_two_pow_sub_one_eq_mod x 8
  have h63 : ∀ x : ℕ, x &&& (kLevelNSize - 1) = x % 64 :=
    fun x => Nat.and_two_pow_sub_one_eq_mod x 6
  have h1 : kLevel1Threshold = 256 := rfl
  have h2 : kLevel2Threshold = 16384 := rfl
  have h3 : kLevel3Threshold = 1048576 := rfl
  simp only [HierarchicalTimerWheel.route, ht, diff_eq n hd, deadlineTick_eq hd, routeLevel,
    h1, h2, h3, h255, h63, kLevel0Bits, kLevelNBits, Nat.shiftRight_eq_div_pow]
  split_ifs <;> simp [slotOf, levelUnit, levelSize]

def Window (n : ℕ) (k : Fin 4) (s d : ℕ) : Prop :=
  s = slotOf k d ∧ pointer k n ≤ d / levelUnit k ∧
    (k = 3 ∨ d / levelUnit k < pointer k n + levelSize k)

/-- A timer whose first slot was on level 2 or 3 (`far`) stays there until it is less than a
level-2 slot away, and if it then is one turn of level 0 away it was there to the end. -/
def Filed (n : ℕ) (k : Fin 4) (s d : ℕ) (far : Prop) : Prop :=
  Window n k s d ∧ (2 ≤ k → far) ∧ (far → d % 16384 = 256 → 2 ≤ k)

def slack (n : ℕ) (k : Fin 4) (d : ℕ) : Prop :=
  (k = 0 ∧ n % 16384 = 0 ∧ d = n + 256) ∨ (k = 1 ∧ n % 1048576 = 0 ∧ d = n + 16384)

/-- Inside the tick that follows `n` others, once the levels above `j` have been cascaded. -/
def stagePointer (n j : ℕ) (k : Fin 4) : ℕ :=
  if j < k.val then pointer k (n + 1) else pointer k n

def Mid (n j : ℕ) (k : Fin 4) (s d : ℕ) (far : Prop) : Prop :=
  s = slotOf k d ∧ stagePointer n j k ≤ d / levelUnit k ∧
    (k = 3 ∨ d / levelUnit k < stagePointer n j k + levelSize k ∨ slack n k d) ∧
    (2 ≤ k ∨ (k = 0 ∧ d = n + 256) → far) ∧
    (far → d % 16384 = 256 → 2 ≤ k ∨ (k = 0 ∧ d = n + 256))

theorem pointer_succ {k : Fin 4} {n : ℕ} (h : n % levelUnit k = 0) :
    pointer k (n + 1) = pointer k n + 1 := by
  rcases level_cases k with rfl | rfl | rfl | rfl <;>
    simp only [pointer, levelUnit_zero, levelUnit_one, levelUnit_two, levelUnit_three] at h ⊢ <;>
    omega

theorem pointer_succ_of_ne {k : Fin 4} {n : ℕ} (h : n % levelUnit k ≠ 0) :
    pointer k (n + 1) = pointer k n := by
  rcases level_cases k with rfl | rfl | rfl | rfl <;>
    simp only [pointer, levelUnit_zero, levelUnit_one, levelUnit_two, levelUnit_three] at h ⊢ <;>
    omega

theorem le_of_pointer_le {k : Fin 4} {n d : ℕ} (h : pointer k n ≤ d / levelUnit k) :
    n ≤ d / levelUnit k * levelUnit k := by
  rcases level_cases k with rfl | rfl | rfl | rfl <;>
    simp only [pointer, levelUnit_zero, levelUnit_one, levelUnit_two, levelUnit_three] at h ⊢ <;>
    omega

theorem filed_route {n d : ℕ} (h : n ≤ d) :
    Filed n (routeLevel (d - n)) (slotOf (routeLevel (d - n)) d) d (16384 ≤ d - n) := by
  have hw : Window n (routeLevel (d - n)) (slotOf (routeLevel (d - n)) d) d := by
    refine ⟨rfl, ?_⟩
    unfold routeLevel
    split_ifs <;>
      simp only [pointer, levelUnit_zero, levelUnit_one, levelUnit_two, levelUnit_three,
        levelSize_zero, levelSize_one, levelSize_two, levelSize_three, true_or, and_true] <;>
      omega
  refine ⟨hw, ?_, ?_⟩ <;> unfold routeLevel
  · split_ifs <;> simp <;> omega
  · split_ifs <;> simp <;> omega

theorem Filed.mid {n : ℕ} {k : Fin 4} {s d : ℕ} {far : Prop} (h : Filed n k s d far) :
    Mid n 3 k s d far := by
  obtain ⟨⟨hs, hle, hlt⟩, hfar, hlevel⟩ := h
  have hj : stagePointer n 3 k = pointer k n := if_neg (by omega)
  refine ⟨hs, hj ▸ hle, ?_, ?_, fun hf hd => Or.inl (hlevel hf hd)⟩
  · rw [hj]
    exact hlt.imp_right Or.inl
  · rintro (h2 | ⟨rfl, hd⟩)
    · exact hfar h2
    · simp only [pointer, levelUnit_zero, levelSize_zero, Fin.isValue, Fin.reduceEq,
        false_or] at hlt
      omega

theorem stagePointer_pred {n : ℕ} {j k : Fin 4} (hj : j ≠ 0) (h : k ≠ j) :
    stagePointer n (j.val - 1) k = stagePointer n j k := by
  have hj' : j.val ≠ 0 := fun h0 => hj (Fin.ext h0)
  have hk : k.val ≠ j.val := fun hv => h (Fin.ext hv)
  unfold stagePointer
  split_ifs <;> first | rfl | omega

theorem stagePointer_self (n : ℕ) (j : Fin 4) : stagePointer n j j = pointer j n :=
  if_neg (lt_irrefl _)

theorem stagePointer_pred_self {n : ℕ} {j : Fin 4} (hj : j ≠ 0) :
    stagePointer n (j.val - 1) j = pointer j (n + 1) := by
  have hj' : j.val ≠ 0 := fun h0 => hj (Fin.ext h0)
  exact if_pos (by omega)

theorem Mid.kept {n : ℕ} {j k : Fin 4} {s d : ℕ} {far : Prop} (hj : j ≠ 0)
    (hn : n % levelUnit j = 0) (h : Mid n j k s d far)
    (hne : ¬(k = j ∧ s = pointer j n % levelSize j)) : Mid n (j.val - 1) k s d far := by
  obtain ⟨hs, hle, hlt, hfar, hlevel⟩ := h
  by_cases hk : k = j
  · subst hk
    have hne' : s ≠ pointer k n % levelSize k := fun e => hne ⟨rfl, e⟩
    rw [stagePointer_self] at hle hlt
    have hpos : pointer k n ≠ d / levelUnit k := by
      intro e
      rw [e] at hne'
      exact hne' hs
    refine ⟨hs, ?_, ?_, hfar, hlevel⟩
    · rw [stagePointer_pred_self hj, pointer_succ hn]
      omega
    · rw [stagePointer_pred_self hj, pointer_succ hn]
      rcases hlt with h3 | hlt | hslack
      · exact Or.inl h3
      · exact Or.inr (Or.inl (by omega))
      · exact Or.inr (Or.inr hslack)
  · rw [← stagePointer_pred hj hk] at hle hlt
    exact ⟨hs, hle, hlt, hfar, hlevel⟩

theorem Mid.moved_cases {n : ℕ} {j : Fin 4} {d : ℕ} {far : Prop} (hj : j ≠ 0)
    (hn : n % levelUnit j = 0) (h : Mid n j j (pointer j n % levelSize j) d far) :
    (n ≤ d ∧ d < n + levelUnit j) ∨ (j = 1 ∧ n % 1048576 = 0 ∧ d = n + 16384) ∨
      (j = 3 ∧ n + 67108864 ≤ d) := by
  obtain ⟨hs, hle, hlt, -, -⟩ := h
  rw [stagePointer_self] at hle hlt
  rcases level_cases j with rfl | rfl | rfl | rfl
  · exact absurd rfl hj
  all_goals
    simp only [slotOf, pointer, slack, levelUnit_one, levelUnit_two, levelUnit_three, levelSize_one,
      levelSize_two, levelSize_three, Fin.isValue, Fin.reduceEq, false_and, false_or, true_and,
      true_or, or_false] at hs hle hlt hn ⊢
    omega

theorem stagePointer_of_lt {n : ℕ} {j k : Fin 4} (h : k < j) :
    stagePointer n (j.val - 1) k = pointer k n := by
  have hlt : k.val < j.val := h
  exact if_neg (by omega)

theorem routeLevel_lt {x : ℕ} {j : Fin 4} (hj : j ≠ 0) (h : x < levelUnit j) :
    routeLevel x < j := by
  rcases level_cases j with rfl | rfl | rfl | rfl
  · exact absurd rfl hj
  all_goals
    simp only [levelUnit_one, levelUnit_two, levelUnit_three] at h
    unfold routeLevel
    split_ifs <;> decide

/-- Deadlines within the slot just taken go to a lower level; `hfar` and `hlevel` are what is
known of an id that comes from level `j`. -/
theorem mid_lower {n d : ℕ} {j : Fin 4} {far : Prop} (hj : j ≠ 0) (hn : n % levelUnit j = 0)
    (hle : n ≤ d) (hlt : d < n + levelUnit j) (hfar : 2 ≤ j → far)
    (hlevel : far → d % 16384 = 256 → 2 ≤ j) :
    Mid n (j.val - 1) (routeLevel (d - (n + 1))) (slotOf (routeLevel (d - (n + 1))) d) d far := by
  have hlow : routeLevel (d - (n + 1)) < j :=
    routeLevel_lt hj (by have := Nat.pos_of_ne_zero (show levelUnit j ≠ 0 by omega); omega)
  refine ⟨rfl, ?_⟩
  rw [stagePointer_of_lt hlow]
  clear hlow
  rcases level_cases j with rfl | rfl | rfl | rfl
  · exact absurd rfl hj
  · simp only [levelUnit_one, Fin.isValue, Fin.reduceLE, imp_false] at hn hlt hlevel
    have hr : routeLevel (d - (n + 1)) = 0 := if_pos (by omega)
    simp only [hr, pointer, slack, levelUnit_zero, levelSize_zero, Fin.isValue, Fin.reduceEq,
      Fin.reduceLE, false_and, false_or, true_and, or_false]
    refine ⟨by omega, by omega, fun e => ?_, fun hf hm => absurd hm (hlevel hf)⟩
    omega
  all_goals
    simp only [levelUnit_two, levelUnit_three, Fin.isValue, Fin.reduceLE,
      forall_const] at hn hlt hfar
    unfold routeLevel
    split_ifs <;>
      simp only [pointer, slack, levelUnit_zero, levelUnit_one, levelUnit_two, levelSize_zero,
        levelSize_one, levelSize_two, Fin.isValue, Fin.reduceEq,
        Fin.reduceLE, false_and, false_or, true_and, true_or, or_false, hfar, implies_true,
        and_true] <;>
      omega

/-- An id taken out of level `j` by its cascade lands in the windows of the next stage. -/
theorem Mid.moved {n : ℕ} {j : Fin 4} {d : ℕ} {far : Prop} (hj : j ≠ 0)
    (hn : n % levelUnit j = 0) (h : Mid n j j (pointer j n % levelSize j) d far) :
    Mid n (j.val - 1) (routeLevel (d - (n + 1))) (slotOf (routeLevel (d - (n + 1))) d) d far := by
  have hcases := h.moved_cases hj hn
  obtain ⟨-, -, -, hfar, hlevel⟩ := h
  rcases hcases with ⟨hle, hlt⟩ | ⟨rfl, hz, rfl⟩ | ⟨rfl, hd⟩
  · refine mid_lower hj hn hle hlt (fun h2 => hfar (Or.inl h2)) (fun hf hd => ?_)
    exact (hlevel hf hd).resolve_right fun h0 => hj h0.1
  · have hr : routeLevel (n + 16384 - (n + 1)) = 1 := by
      unfold routeLevel
      rw [if_neg (by omega), if_pos (by omega)]
    rw [hr]
    refine ⟨rfl, ?_, Or.inr (Or.inl ?_), by simp, fun _ hm => by omega⟩ <;>
    · rw [show (1 : Fin 4).val - 1 = 0 from rfl, stagePointer, if_pos (by decide)]
      simp only [pointer, levelUnit_one, levelSize_one]
      omega
  · have hr : routeLevel (d - (n + 1)) = 3 := by
      unfold routeLevel
      rw [if_neg (by omega), if_neg (by omega), if_neg (by omega)]
    rw [hr]
    refine ⟨rfl, ?_, Or.inl rfl, hfar, fun _ _ => Or.inl (by decide)⟩
    rw [show (3 : Fin 4).val - 1 = 2 from rfl, stagePointer, if_pos (by decide)]
    simp only [pointer, levelUnit_three]
    omega

theorem Mid.skip {n : ℕ} {j k : Fin 4} {s d : ℕ} {far : Prop} (hj : j ≠ 0)
    (hn : n % levelUnit j ≠ 0) (h : Mid n j k s d far) : Mid n (j.val - 1) k s d far := by
  have hp : stagePointer n (j.val - 1) k = stagePointer n j k := by
    by_cases hk : k = j
    · subst hk
      rw [stagePointer_pred_self hj, stagePointer_self, pointer_succ_of_ne hn]
    · exact stagePointer_pred hj hk
  simpa only [Mid, hp] using h

theorem Mid.due {n d : ℕ} {far : Prop} (h : Mid n 0 0 (n % 256) d far) :
    (d = n ∧ ¬(far ∧ d % 16384 = 256)) ∨ (d = n + 256 ∧ n % 16384 = 0 ∧ far) := by
  obtain ⟨hs, hle, hlt, hfar, hlevel⟩ := h
  simp only [stagePointer, slotOf, pointer, slack, levelUnit_zero, levelSize_zero, Fin.isValue,
    Fin.reduceEq, Fin.reduceLE, Fin.val_zero, lt_self_iff_false, ↓reduceIte, false_and, false_or,
    true_and, or_false] at hs hle hlt hfar hlevel
  by_cases hd : d = n + 256
  · refine Or.inr ⟨hd, ?_, hfar hd⟩
    omega
  · refine Or.inl ⟨by omega, fun hb => hd (hlevel hb.1 hb.2)⟩

/-- Ids that survive the tick are filed for the next one. -/
theorem Mid.filed {n : ℕ} {k : Fin 4} {s d : ℕ} {far : Prop} (h : Mid n 0 k s d far)
    (hne : ¬(k = 0 ∧ s = n % 256)) : Filed (n + 1) k s d far := by
  obtain ⟨hs, hle, hlt, hfar, hlevel⟩ := h
  by_cases hk : k = 0
  · subst hk
    simp only [stagePointer, slotOf, pointer, slack, levelUnit_zero, levelSize_zero, Fin.isValue,
      Fin.reduceEq, Fin.reduceLE, Fin.val_zero, lt_self_iff_false, ↓reduceIte, false_and, false_or,
      true_and, or_false] at hs hle hlt hfar hlevel hne
    have hd : d ≠ n + 256 := by omega
    refine ⟨⟨hs, ?_, Or.inr ?_⟩, by simp, fun hf hm => absurd (hlevel hf hm) hd⟩ <;>
    · simp only [pointer, levelUnit_zero, levelSize_zero]
      omega
  · have hp : stagePointer n 0 k = pointer k (n + 1) :=
      if_pos (Nat.pos_of_ne_zero fun h0 => hk (Fin.ext h0))
    rw [hp] at hle hlt
    refine ⟨⟨hs, hle, ?_⟩, fun h2 => hfar (Or.inl h2), fun hf hm => ?_⟩
    · rcases hlt with h3 | hlt | hslack
      · exact Or.inl h3
      · exact Or.inr hlt
      · rcases hslack with ⟨rfl, -⟩ | ⟨rfl, hz, hd⟩
        · exact absurd rfl hk
        · right
          simp only [pointer, levelUnit_one, levelSize_one]
          omega
    · exact (hlevel hf hm).resolve_right fun h0 => hk h0.1

end RainRuntime
