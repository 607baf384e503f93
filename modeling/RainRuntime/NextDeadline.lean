import Mathlib.Order.WellFounded
import RainRuntime.TimerExpired
import RainRuntime.EventLoop

/-!
# The deadline the loop waits for

`next_deadline` goes through the levels from the finest one up, each from its current slot
on, and answers with the first slot that holds a live timer. On levels 0 to 2 a slot that
comes later in this order holds later deadlines, so on one of them the scan finds the
earliest timer of the level. A timer does not change levels as its deadline comes nearer,
only when its slot is cascaded: a timer scheduled later, for a time further away, can stand
on a lower level, and then the scan stops there.
-/

namespace RainRuntime

theorem findSome?_first {α β : Type*} [LinearOrder α] {l : List α} {f : α → Option β} {x : β}
    (hl : l.Pairwise (· < ·)) (h : l.findSome? f = some x) :
    ∃ a ∈ l, f a = some x ∧ ∀ b ∈ l, b < a → f b = none := by
  induction l with
  | nil => simp at h
  | cons a l ih =>
    obtain ⟨hlt, hl⟩ := List.pairwise_cons.mp hl
    rw [List.findSome?_cons] at h
    cases ha : f a with
    | some y =>
      rw [ha] at h
      refine ⟨a, List.mem_cons_self, ha.trans h, fun b hb hba => ?_⟩
      rcases List.mem_cons.mp hb with rfl | hb
      · exact absurd hba (lt_irrefl b)
      · exact absurd hba (hlt b hb).asymm
    | none =>
      rw [ha] at h
      obtain ⟨c, hc, hx, hfirst⟩ := ih hl h
      refine ⟨c, List.mem_cons_of_mem _ hc, hx, fun b hb hbc => ?_⟩
      rcases List.mem_cons.mp hb with rfl | hb
      · exact ha
      · exact hfirst b hb hbc

namespace HierarchicalTimerWheel
variable {w : HierarchicalTimerWheel} {ids : List TimerId} {d : ℤ} {k : Fin 4}

/-- What the scan reads off one slot: the first live timer on level 0, the earliest one on
the others. -/
def slotDeadline (w : HierarchicalTimerWheel) (k : Fin 4) (ids : List TimerId) : Option ℤ :=
  if k = 0 then ids.findSome? fun id => (w.lookup id).map TimerEntry.deadline else w.earliest ids

def ahead (w : HierarchicalTimerWheel) (k : Fin 4) (i : ℕ) : List TimerId :=
  w.bucket k (((w.levels k).currentSlot + i) % (w.levels k).slotCount)

def levelDeadline (w : HierarchicalTimerWheel) (k : Fin 4) : Option ℤ :=
  (List.range (w.levels k).slotCount).findSome? fun i => w.slotDeadline k (w.ahead k i)

theorem mem_levels (k : Fin 4) : k ∈ ([0, 1, 2, 3] : List (Fin 4)) := by
  revert k
  decide

theorem nextDeadline_eq (h : w.slotmap.activeCount ≠ 0) :
    w.nextDeadline = ([0, 1, 2, 3] : List (Fin 4)).findSome? w.levelDeadline := by
  have hor : w.nextDeadline =
      (w.levelDeadline 0).or (([1, 2, 3] : List (Fin 4)).findSome? w.levelDeadline) := by
    rw [nextDeadline, if_neg h]
    rfl
  cases h0 : w.levelDeadline 0 with
  | none => simp [hor, h0]
  | some d => simp [hor, h0]

theorem earliest_concat (id : TimerId) :
    w.earliest (ids ++ [id]) = match w.lookup id, w.earliest ids with
      | none, acc => acc
      | some e, none => some e.deadline
      | some e, some d => if e.deadline < d then some e.deadline else some d := by
  rw [earliest, List.foldl_append]
  rfl

theorem earliest_none (h : w.earliest ids = none) {id : TimerId} (hid : id ∈ ids) :
    w.lookup id = none := by
  induction ids using List.reverseRecOn with
  | nil => simp at hid
  | append_singleton ids j ih =>
    rw [earliest_concat] at h
    cases hl : w.lookup j with
    | none =>
      rw [hl] at h
      rcases List.mem_append.mp hid with hid | hid
      · exact ih h hid
      · rw [List.mem_singleton.mp hid, hl]
    | some e =>
      rw [hl] at h
      cases hd : w.earliest ids with
      | none => simp [hd] at h
      | some d =>
        rw [hd] at h
        dsimp only at h
        split_ifs at h

theorem earliest_some (h : w.earliest ids = some d) :
    (∃ id ∈ ids, ∃ e, w.lookup id = some e ∧ e.deadline = d) ∧
      ∀ id ∈ ids, ∀ e, w.lookup id = some e → d ≤ e.deadline := by
  induction ids using List.reverseRecOn generalizing d with
  | nil => simp [earliest] at h
  | append_singleton ids j ih =>
    rw [earliest_concat] at h
    cases hl : w.lookup j with
    | none =>
      rw [hl] at h
      obtain ⟨⟨id, hid, e, he, hd⟩, hmin⟩ := ih h
      refine ⟨⟨id, List.mem_append_left _ hid, e, he, hd⟩, fun i hi e' he' => ?_⟩
      rcases List.mem_append.mp hi with hi | hi
      · exact hmin i hi e' he'
      · rw [List.mem_singleton.mp hi, hl] at he'
        cases he'
    | some e =>
      rw [hl] at h
      cases hacc : w.earliest ids with
      | none =>
        rw [hacc] at h
        cases h
        refine ⟨⟨j, by simp, e, hl, rfl⟩, fun i hi e' he' => ?_⟩
        rcases List.mem_append.mp hi with hi | hi
        · rw [earliest_none hacc hi] at he'
          cases he'
        · rw [List.mem_singleton.mp hi, hl] at he'
          cases he'
          exact le_rfl
      | some b =>
        rw [hacc] at h
        dsimp only at h
        obtain ⟨⟨id, hid, e₁, he₁, hb⟩, hmin⟩ := ih hacc
        have hlast : ∀ e', w.lookup j = some e' → d ≤ e'.deadline := by
          intro e' he'
          rw [hl] at he'
          cases he'
          split_ifs at h with hlt <;> cases h
          · exact le_rfl
          · exact not_lt.mp hlt
        have hle : d ≤ b := by
          split_ifs at h with hlt <;> cases h
          · exact hlt.le
          · exact le_rfl
        refine ⟨?_, fun i hi e' he' => ?_⟩
        · split_ifs at h with hlt <;> cases h
          · exact ⟨j, by simp, e, hl, rfl⟩
          · exact ⟨id, List.mem_append_left _ hid, e₁, he₁, hb⟩
        · rcases List.mem_append.mp hi with hi | hi
          · exact hle.trans (hmin i hi e' he')
          · rw [List.mem_singleton.mp hi] at he'
            exact hlast e' he'

theorem slotDeadline_none (h : w.slotDeadline k ids = none) {id : TimerId} (hid : id ∈ ids) :
    w.lookup id = none := by
  unfold slotDeadline at h
  split_ifs at h
  · have hnone := List.findSome?_eq_none_iff.mp h id hid
    exact Option.map_eq_none_iff.mp hnone
  · exact earliest_none h hid

theorem slotDeadline_some (h : w.slotDeadline k ids = some d) :
    ∃ id ∈ ids, ∃ e, w.lookup id = some e ∧ e.deadline = d := by
  unfold slotDeadline at h
  split_ifs at h
  · obtain ⟨id, hid, hd⟩ := List.exists_of_findSome?_eq_some h
    obtain ⟨e, he, hed⟩ := Option.map_eq_some_iff.mp hd
    exact ⟨id, hid, e, he, hed⟩
  · exact (earliest_some h).1

theorem slotDeadline_le (h : w.slotDeadline k ids = some d) (hk : k ≠ 0) {id : TimerId}
    (hid : id ∈ ids) {e : TimerEntry} (he : w.lookup id = some e) : d ≤ e.deadline := by
  rw [slotDeadline, if_neg hk] at h
  exact (earliest_some h).2 id hid e he

/-- The entry of a live id in the `i`-th slot ahead on level `k`. -/
def InPlace (w : HierarchicalTimerWheel) (k : Fin 4) (i : ℕ) (e : TimerEntry) : Prop :=
  i < (w.levels k).slotCount ∧ ∃ id ∈ w.ahead k i, w.lookup id = some e

theorem activeCount_ne_zero {id : TimerId} {e : TimerEntry} (h : w.lookup id = some e) :
    w.slotmap.activeCount ≠ 0 := by
  obtain ⟨s, hs, ha, -, -⟩ := Slotmap.get?_eq_some.mp h
  rw [w.slotmap.activeCount_eq]
  exact Nat.ne_of_gt (List.countP_pos_iff.mpr ⟨s, List.mem_of_getElem? hs, ha⟩)

theorem levelDeadline_none (h : w.levelDeadline k = none) (i : ℕ) (e : TimerEntry) :
    ¬w.InPlace k i e := by
  rintro ⟨hi, id, hid, he⟩
  have hnone := List.findSome?_eq_none_iff.mp h i (List.mem_range.mpr hi)
  rw [slotDeadline_none hnone hid] at he
  cases he

theorem levelDeadline_some (h : w.levelDeadline k = some d) :
    ∃ i e, w.InPlace k i e ∧ e.deadline = d ∧ (∀ j e', w.InPlace k j e' → i ≤ j) ∧
      (k ≠ 0 → ∀ e', w.InPlace k i e' → d ≤ e'.deadline) := by
  obtain ⟨i, hi, hd, hfirst⟩ := findSome?_first List.pairwise_lt_range h
  obtain ⟨id, hid, e, he, hed⟩ := slotDeadline_some hd
  refine ⟨i, e, ⟨List.mem_range.mp hi, id, hid, he⟩, hed, ?_, ?_⟩
  · rintro j e' ⟨hj, id', hid', he'⟩
    by_contra hlt
    have hnone := hfirst j (List.mem_range.mpr hj) (not_le.mp hlt)
    rw [slotDeadline_none hnone hid'] at he'
    cases he'
  · rintro hk e' ⟨-, id', hid', he'⟩
    exact slotDeadline_le hd hk hid' he'

/-- The scan stops at the first place that holds a live timer. -/
theorem nextDeadline_some (h : w.nextDeadline = some d) :
    ∃ k i e, w.InPlace k i e ∧ e.deadline = d ∧
      (∀ l j e', w.InPlace l j e' → k < l ∨ (l = k ∧ i ≤ j)) ∧
      (k ≠ 0 → ∀ e', w.InPlace k i e' → d ≤ e'.deadline) := by
  have hact : w.slotmap.activeCount ≠ 0 := by
    intro h0
    rw [nextDeadline, if_pos h0] at h
    cases h
  rw [nextDeadline_eq hact] at h
  obtain ⟨k, hk, hd, hfirst⟩ := findSome?_first (by decide) h
  obtain ⟨i, e, hin, hed, hle, hmin⟩ := levelDeadline_some hd
  refine ⟨k, i, e, hin, hed, fun l j e' hin' => ?_, hmin⟩
  rcases lt_trichotomy l k with hlt | rfl | hgt
  · exact absurd hin' (levelDeadline_none (hfirst l (mem_levels l) hlt) j e')
  · exact Or.inr ⟨rfl, hle j e' hin'⟩
  · exact Or.inl hgt

theorem nextDeadline_none (h : w.nextDeadline = none) (k : Fin 4) (i : ℕ) (e : TimerEntry) :
    ¬w.InPlace k i e := by
  intro hin
  obtain ⟨-, id, -, he⟩ := id hin
  rw [nextDeadline_eq (activeCount_ne_zero he)] at h
  exact levelDeadline_none (List.findSome?_eq_none_iff.mp h k (mem_levels k)) i e hin

end HierarchicalTimerWheel

namespace TimerState
open HierarchicalTimerWheel
variable {t : TimerState} {n : ℕ} {e e' : TimerEntry} {k l : Fin 4}

def Live (t : TimerState) (e : TimerEntry) : Prop := t.wheel.lookup e.id = some e

instance (t : TimerState) (e : TimerEntry) : Decidable (t.Live e) :=
  inferInstanceAs (Decidable (_ = _))

def OnLevel (t : TimerState) (e : TimerEntry) (k : Fin 4) : Prop :=
  ∃ s, e.id ∈ t.wheel.bucket k s

def due (t : TimerState) (e : TimerEntry) : ℕ := deadlineTick t.wheel.startTime e.deadline

def NotPast (t : TimerState) : Prop := ∀ e now, .scheduled e now ∈ t.trace → now ≤ e.deadline

def turn (n : ℕ) (k : Fin 4) (d : ℕ) : ℕ := (d / levelUnit k - pointer k n) % levelSize k

theorem slot_ahead {n i d : ℕ} {k : Fin 4} (hi : i < levelSize k)
    (hle : pointer k n ≤ d / levelUnit k) :
    (pointer k n % levelSize k + i) % levelSize k = slotOf k d ↔ i = turn n k d := by
  unfold slotOf turn
  generalize pointer k n = p at hle ⊢
  generalize d / levelUnit k = q at hle ⊢
  rcases level_cases k with rfl | rfl | rfl | rfl <;>
    simp only [levelSize_zero, levelSize_one, levelSize_two, levelSize_three] at hi ⊢ <;> omega

theorem turn_lt (n : ℕ) (k : Fin 4) (d : ℕ) : turn n k d < levelSize k := by
  refine Nat.mod_lt _ ?_
  rcases level_cases k with rfl | rfl | rfl | rfl <;> decide

theorem Live.scheduled (hf : FiringInv t n) (h : t.Live e) : ∃ now, .scheduled e now ∈ t.trace :=
  (hf.ids.entry e.id e h).2

theorem FiringInv.filed (hf : FiringInv t n) (hp : NotPast t) (h : t.Live e) :
    ∃ k s, t.wheel.Located e.id k s ∧ Window n k s (t.due e) := by
  obtain ⟨now, hs⟩ := h.scheduled hf
  obtain ⟨k, s, hloc, hfiled⟩ := hf.held e now hs (Option.isSome_iff_exists.mpr ⟨e, h⟩)
  exact ⟨k, s, hloc, (hfiled (hp e now hs)).1⟩

theorem FiringInv.window (hf : FiringInv t n) (hp : NotPast t) (h : t.Live e)
    (hk : t.OnLevel e k) : Window n k (slotOf k (t.due e)) (t.due e) := by
  obtain ⟨l, s, hloc, hw⟩ := hf.filed hp h
  obtain ⟨r, hr⟩ := hk
  obtain ⟨rfl, rfl⟩ := (hloc.mem_iff k r).mp hr
  exact ⟨rfl, hw.2⟩

theorem FiringInv.exists_onLevel (hf : FiringInv t n) (hp : NotPast t) (h : t.Live e) :
    ∃ k, t.OnLevel e k := by
  obtain ⟨k, s, hloc, -⟩ := hf.filed hp h
  exact ⟨k, s, (hloc.mem_iff k s).mpr ⟨rfl, rfl⟩⟩

theorem FiringInv.inPlace_iff (hf : FiringInv t n) (hp : NotPast t) {i : ℕ} :
    t.wheel.InPlace k i e ↔ t.Live e ∧ t.OnLevel e k ∧ i = turn n k (t.due e) := by
  constructor
  · rintro ⟨hi, id, hid, he⟩
    have hee : e.id = id := (hf.ids.entry id e he).1
    subst hee
    obtain ⟨l, s, hloc, hw⟩ := hf.filed hp he
    have hmem := (hloc.mem_iff _ _).mp hid
    obtain ⟨rfl, hs⟩ := hmem
    refine ⟨he, ⟨_, hid⟩, ?_⟩
    rw [hf.aligned.slot, hf.aligned.count] at hs
    rw [hf.aligned.count] at hi
    exact (slot_ahead hi hw.2.1).mp (hs.trans hw.1)
  · rintro ⟨he, ⟨r, hr⟩, rfl⟩
    obtain ⟨l, s, hloc, hw⟩ := hf.filed hp he
    obtain ⟨rfl, rfl⟩ := (hloc.mem_iff k r).mp hr
    have hslot := (slot_ahead (turn_lt n k (t.due e)) hw.2.1).mpr rfl
    refine ⟨?_, e.id, ?_, he⟩
    · rw [hf.aligned.count]
      exact turn_lt n k (t.due e)
    · rw [ahead, hf.aligned.slot, hf.aligned.count, hslot, ← hw.1]
      exact hr

def Earliest (t : TimerState) (e : TimerEntry) : Prop :=
  t.Live e ∧ ∀ f, t.Live f → t.due e ≤ t.due f

def NextIsEarliest (t : TimerState) : Prop :=
  ∃ e, t.wheel.nextDeadline = some e.deadline ∧ t.Earliest e

/-- A timer of the least tick stands on the lowest level that holds a live timer. On level 3,
where delays beyond `kMaxDelay` go round more than once, it must also come first there. -/
def EarliestFirst (t : TimerState) : Prop :=
  ∃ e k, t.Earliest e ∧ t.OnLevel e k ∧ ∀ f l, t.Live f → t.OnLevel f l →
    k ≤ l ∧ (k = 3 → l = 3 → turn t.ticks 3 (t.due e) ≤ turn t.ticks 3 (t.due f))

theorem due_le_of_deadline_le (h : e.deadline ≤ e'.deadline) : t.due e ≤ t.due e' := by
  simp only [due, deadlineTick, kMillisecond]
  omega

/-- On levels 0 to 2 an earlier slot ahead holds an earlier deadline. -/
theorem div_le_of_turn_le {n d d' s s' : ℕ} (hk : k ≠ 3) (h : Window n k s d)
    (h' : Window n k s' d')
    (hle : turn n k d ≤ turn n k d') : d / levelUnit k ≤ d' / levelUnit k := by
  obtain ⟨-, hp, hlt⟩ := h
  obtain ⟨-, hp', hlt'⟩ := h'
  have h1 := hlt.resolve_left hk
  have h2 := hlt'.resolve_left hk
  have ht : ∀ q, pointer k n ≤ q → q < pointer k n + levelSize k →
      (q - pointer k n) % levelSize k = q - pointer k n :=
    fun q hq hq' => Nat.mod_eq_of_lt (by omega)
  rw [turn, turn, ht _ hp h1, ht _ hp' h2] at hle
  omega

theorem turn_le_of_div_le {n d d' : ℕ} (hp : pointer k n ≤ d / levelUnit k)
    (hlt : d' / levelUnit k < pointer k n + levelSize k)
    (hle : d / levelUnit k ≤ d' / levelUnit k) : turn n k d ≤ turn n k d' := by
  unfold turn
  rw [Nat.mod_eq_of_lt (by omega), Nat.mod_eq_of_lt (by omega)]
  omega

/-- What the scan answers with is as early as anything in the place where it stops. -/
theorem FiringInv.due_le_of_first (hf : FiringInv t n) (hp : NotPast t) (he : t.Live e)
    (hek : t.OnLevel e k) (he' : t.Live e') (hk' : t.OnLevel e' k)
    (hle : turn n k (t.due e) ≤ turn n k (t.due e'))
    (h3 : k = 3 → turn n k (t.due e') ≤ turn n k (t.due e))
    (hmin : k ≠ 0 → ∀ f, t.wheel.InPlace k (turn n k (t.due e)) f → e.deadline ≤ f.deadline) :
    t.due e ≤ t.due e' := by
  have hw := hf.window hp he hek
  have hw' := hf.window hp he' hk'
  have hsame : turn n k (t.due e') = turn n k (t.due e) → k ≠ 0 → t.due e ≤ t.due e' := by
    intro heq hk0
    have hin : t.wheel.InPlace k (turn n k (t.due e)) e' :=
      (hf.inPlace_iff hp).mpr ⟨he', hk', heq.symm⟩
    exact due_le_of_deadline_le (hmin hk0 e' hin)
  by_cases hk : k = 3
  · exact hsame (le_antisymm (h3 hk) hle) (by rw [hk]; decide)
  · have hdiv := div_le_of_turn_le hk hw hw' hle
    rcases Nat.lt_or_eq_of_le hdiv with hlt | heq
    · exact (Nat.lt_of_div_lt_div hlt).le
    · by_cases hk0 : k = 0
      · subst hk0
        simp only [levelUnit_zero, Nat.div_one] at heq
        exact heq.le
      · refine hsame ?_ hk0
        rw [turn, turn, heq]

theorem FiringInv.nextIsEarliest_iff (hf : FiringInv t n) (hp : NotPast t) (hl : ∃ e, t.Live e) :
    NextIsEarliest t ↔ EarliestFirst t := by
  obtain ⟨a, ha⟩ := hl
  obtain ⟨j, hj⟩ := hf.exists_onLevel hp ha
  have hin : t.wheel.InPlace j _ a := (hf.inPlace_iff hp).mpr ⟨ha, hj, rfl⟩
  obtain ⟨d, hd⟩ : ∃ d, t.wheel.nextDeadline = some d := by
    cases hd : t.wheel.nextDeadline with
    | none => exact absurd hin (nextDeadline_none hd j _ a)
    | some d => exact ⟨d, rfl⟩
  obtain ⟨k, i, r, hr, hrd, hfirst, hmin⟩ := nextDeadline_some hd
  obtain ⟨hlive, hlevel, rfl⟩ := (hf.inPlace_iff hp).mp hr
  rw [← hrd] at hd hmin
  constructor
  · rintro ⟨e, hed, -, hleast⟩
    rw [hd, Option.some.injEq] at hed
    have hdue : t.due r ≤ t.due e := due_le_of_deadline_le hed.le
    refine ⟨r, k, ⟨hlive, fun f hlf => hdue.trans (hleast f hlf)⟩, hlevel, fun f l hlf hfl => ?_⟩
    have hplace := hfirst l _ f ((hf.inPlace_iff hp).mpr ⟨hlf, hfl, rfl⟩)
    rcases hplace with hlt | ⟨rfl, hle⟩
    · refine ⟨hlt.le, fun hk3 hl3 => ?_⟩
      rw [hk3, hl3] at hlt
      exact absurd hlt (lt_irrefl _)
    · refine ⟨le_rfl, fun hk3 _ => ?_⟩
      rw [hk3] at hle
      rw [hf.ticks_eq]
      exact hle
  · rintro ⟨e, l, ⟨hle, hleast⟩, hel, hcond⟩
    refine ⟨r, hd, hlive, fun f hlf => ?_⟩
    refine le_trans ?_ (hleast f hlf)
    obtain ⟨hlk, hturn⟩ := hcond r k hlive hlevel
    have hplace := hfirst l _ e ((hf.inPlace_iff hp).mpr ⟨hle, hel, rfl⟩)
    rcases hplace with hlt | ⟨rfl, hre⟩
    · exact absurd hlt (not_lt.mpr hlk)
    · refine hf.due_le_of_first hp hlive hlevel hle hel hre (fun hk3 => ?_) hmin
      have := hturn hk3 hk3
      rw [hf.ticks_eq] at this
      rw [hk3]
      exact this

def levelSpan (k : Fin 4) : ℕ := levelUnit k * levelSize k

theorem levelSpan_le_levelUnit (h : k < l) : levelSpan k ≤ levelUnit l := by
  revert k l
  decide

theorem le_of_routeLevel {x : ℕ} (h : k < routeLevel x) : levelSpan k ≤ x := by
  unfold routeLevel at h
  split_ifs at h with h0 h1 h2 <;> rcases level_cases k with rfl | rfl | rfl | rfl <;>
    simp [levelSpan] at h ⊢ <;> omega

theorem lt_of_routeLevel {x : ℕ} (h : x < 67108864) : x < levelSpan (routeLevel x) := by
  unfold routeLevel
  split_ifs <;> simp [levelSpan] <;> omega

structure Sorted (t : TimerState) (n : ℕ) : Prop where
  near : ∀ e k, t.Live e → t.OnLevel e k → t.due e < n + levelSpan k
  sorted : ∀ e e' k l, t.Live e → t.Live e' → t.OnLevel e k → t.OnLevel e' l → k < l →
    t.due e ≤ t.due e'

theorem div_lt_of_near {n d : ℕ} (h : d < n + levelSpan 3) :
    d / levelUnit 3 < pointer 3 n + levelSize 3 := by
  simp only [levelSpan, pointer, levelUnit_three, levelSize_three] at *
  omega

theorem exists_least {α : Type*} {P : α → Prop} (m : α → ℕ) (h : ∃ a, P a) :
    ∃ a, P a ∧ ∀ b, P b → m a ≤ m b := by
  obtain ⟨a, ha, hmin⟩ := WellFounded.has_min (measure m).wf {a | P a} h
  exact ⟨a, ha, fun b hb => not_lt.mp (hmin b hb)⟩

theorem Sorted.earliestFirst (hs : Sorted t n) (hf : FiringInv t n) (hp : NotPast t)
    (hl : ∃ e, t.Live e) : EarliestFirst t := by
  obtain ⟨a, ha⟩ := hl
  obtain ⟨j, hj⟩ := hf.exists_onLevel hp ha
  -- the lowest level that holds a live timer, and the earliest timer there
  obtain ⟨k, ⟨b, hb, hbk⟩, hlow⟩ :=
    exists_least (P := fun k => ∃ e, t.Live e ∧ t.OnLevel e k) Fin.val ⟨j, a, ha, hj⟩
  obtain ⟨e, ⟨he, hek⟩, hleast⟩ :=
    exists_least (P := fun e => t.Live e ∧ t.OnLevel e k) t.due ⟨b, hb, hbk⟩
  have hle : ∀ f l, t.Live f → t.OnLevel f l → t.due e ≤ t.due f := by
    intro f l hlf hfl
    have hkl : k ≤ l := hlow l ⟨f, hlf, hfl⟩
    rcases lt_or_eq_of_le hkl with hlt | rfl
    · exact hs.sorted e f k l he hlf hek hfl hlt
    · exact hleast f ⟨hlf, hfl⟩
  refine ⟨e, k, ⟨he, fun f hlf => ?_⟩, hek, fun f l hlf hfl => ⟨hlow l ⟨f, hlf, hfl⟩, ?_⟩⟩
  · obtain ⟨l, hfl⟩ := hf.exists_onLevel hp hlf
    exact hle f l hlf hfl
  · rintro rfl rfl
    rw [hf.ticks_eq]
    exact turn_le_of_div_le (hf.window hp he hek).2.1 (div_lt_of_near (hs.near f 3 hlf hfl))
      (Nat.div_le_div_right (hle f 3 hlf hfl))

/-- A timer that a tick leaves alive: it has stayed on its level, or it was due for a cascade
there and was routed anew. -/
theorem FiringInv.tick_level (hf : FiringInv t n) (hp : NotPast t) (h : t.tick.Live e)
    (hk : t.tick.OnLevel e k) :
    t.Live e ∧ ∃ l, t.OnLevel e l ∧ (k = l ∨ (n % levelUnit l = 0 ∧
      t.due e / levelUnit l % levelSize l = pointer l n % levelSize l ∧
      k = routeLevel (t.due e - (n + 1)))) := by
  have hlive : t.Live e := by
    rw [Live, lookup_tick] at h
    split_ifs at h
    exact h
  obtain ⟨l, s, hloc, hw⟩ := hf.filed hp hlive
  refine ⟨hlive, l, ⟨s, (hloc.mem_iff l s).mpr ⟨rfl, rfl⟩⟩, ?_⟩
  obtain ⟨y, hy, hshift⟩ := Located.cascadeIfDue (w := TimerState.beginTick t.wheel) (x := (l, s))
    (e := e) hf.beginTick.staged hloc hlive
  obtain ⟨r, hr⟩ := hk
  rw [bucket_tick] at hr
  split_ifs at hr
  · simp at hr
  have hky := ((hy.mem_iff k r).mp hr).1
  rcases hshift with rfl | ⟨-, hn, hslot, hdest⟩
  · exact Or.inl hky
  · refine Or.inr ⟨hn, hw.1.symm.trans hslot, ?_⟩
    obtain ⟨now, hs⟩ := hlive.scheduled hf
    have hstart : t.wheel.startTime ≤ e.deadline := (hf.since e now hs).trans (hp e now hs)
    rw [hky, hdest, route_eq (w := TimerState.beginTick t.wheel) hf.beginTick.staged.time hstart]
    rfl

theorem NotPast.tick (hp : NotPast t) : NotPast t.tick :=
  fun e now hs => hp e now ((mem_tick_trace rfl).mp hs)

theorem due_tick (t : TimerState) (e : TimerEntry) : t.tick.due e = t.due e := by
  rw [due, due, tick_startTime]

theorem le_of_cascaded {d : ℕ} (hn : n % levelUnit k = 0)
    (h : pointer k (n + 1) ≤ d / levelUnit k) : n + levelUnit k ≤ d := by
  rcases level_cases k with rfl | rfl | rfl | rfl <;>
    simp only [pointer, levelUnit_zero, levelUnit_one, levelUnit_two, levelUnit_three] at hn h ⊢ <;>
    omega

theorem levelUnit_dvd (h : l ≤ k) : levelUnit l ∣ levelUnit k := by
  revert k l
  decide

theorem levelUnit_le (k : Fin 4) : levelUnit k ≤ 1048576 := by
  revert k
  decide

theorem levelSpan_pos (k : Fin 4) : 0 < levelSpan k := by
  revert k
  decide

theorem lt_of_current {d : ℕ} (hn : n % levelUnit k = 0) (hp : pointer k n ≤ d / levelUnit k)
    (hnear : d < n + levelSpan k)
    (hs : d / levelUnit k % levelSize k = pointer k n % levelSize k) : d < n + levelUnit k := by
  rcases level_cases k with rfl | rfl | rfl | rfl <;>
    simp only [pointer, levelSpan, levelUnit_zero, levelUnit_one, levelUnit_two, levelUnit_three,
      levelSize_zero, levelSize_one, levelSize_two, levelSize_three] at hn hp hnear hs ⊢ <;>
    omega

theorem Sorted.tick (hs : Sorted t n) (hf : FiringInv t n) (hp : NotPast t) :
    Sorted t.tick (n + 1) := by
  have hnear : ∀ e k, t.tick.Live e → t.tick.OnLevel e k → t.due e < n + 1 + levelSpan k := by
    intro e k he hk
    obtain ⟨hlive, l, hl, hkl⟩ := hf.tick_level hp he hk
    have hlt := hs.near e l hlive hl
    rcases hkl with rfl | ⟨hn, hslot, rfl⟩
    · omega
    · have hcur := lt_of_current hn (hf.window hp hlive hl).2.1 hlt hslot
      have hunit := levelUnit_le l
      have hroute := lt_of_routeLevel (x := t.due e - (n + 1)) (by omega)
      omega
  refine ⟨fun e k he hk => ?_, fun e e' k l he he' hk hl hkl => ?_⟩
  · rw [due_tick]
    exact hnear e k he hk
  · rw [due_tick, due_tick]
    have hlt := hnear e k he hk
    obtain ⟨hlive', b, hb, hlb⟩ := hf.tick_level hp he' hl
    rcases hlb with rfl | ⟨-, -, rfl⟩
    · obtain ⟨hlive, a, ha, hka⟩ := hf.tick_level hp he hk
      by_cases hab : a < l
      · exact hs.sorted e e' a l hlive hlive' ha hb hab
      · rcases hka with rfl | ⟨hn, -, -⟩
        · exact absurd hkl hab
        · -- the later one stands on a level that was cascaded too
          have hdue : n % levelUnit l = 0 := by
            have hdvd := (levelUnit_dvd (not_lt.mp hab)).trans (Nat.dvd_of_mod_eq_zero hn)
            exact Nat.mod_eq_zero_of_dvd hdvd
          have hw := (hf.tick.window hp.tick he' hl).2.1
          rw [due_tick] at hw
          have hle := le_of_cascaded hdue hw
          have hspan := levelSpan_le_levelUnit hkl
          omega
    · have hspan := le_of_routeLevel hkl
      have hpos := levelSpan_pos k
      omega

def kMaxDelay : ℤ := kTickDuration * (kLevel0Size * kLevelNSize * kLevelNSize * kLevelNSize : ℕ)

theorem kMaxDelay_eq : kMaxDelay = 67108864000000 := by decide

/-- A deadline that `next_deadline` can deal with: not past, within the delays the wheel
represents, and not filed below a live timer that is due earlier. -/
structure Timely (t : TimerState) (d : ℤ) : Prop where
  notPast : t.wheel.currentTime ≤ d
  near : d - t.wheel.currentTime < kMaxDelay
  above : ∀ e k, t.Live e → t.OnLevel e k → (t.wheel.route d).1 < k →
    deadlineTick t.wheel.startTime d ≤ t.due e

def InOrder (t : TimerState) : TimerOp → Prop
  | .schedule delay _ _ _ => Timely t (t.wheel.currentTime + delay)
  | .scheduleAt d _ _ _ => Timely t d
  | _ => True

section Schedule
variable {d : ℤ} {h : Option Handle} {p : Option StatePtr} {c : WaitState}

theorem NotPast.scheduleAt (hp : NotPast t) (hd : t.wheel.currentTime ≤ d) :
    NotPast (t.scheduleAt d h p c) := by
  intro e now hs
  rcases List.mem_cons.mp hs with heq | hs
  · obtain ⟨rfl, rfl⟩ := TimerEvent.scheduled.inj heq
    exact hd
  · exact hp e now hs

theorem FiringInv.scheduleAt_level (hf : FiringInv t n)
    (hb : Bounded (t.scheduleAt d h p c).wheel.slotmap) (he : (t.scheduleAt d h p c).Live e)
    (hk : (t.scheduleAt d h p c).OnLevel e k) :
    (t.Live e ∧ t.OnLevel e k) ∨ (e.deadline = d ∧ k = (t.wheel.route d).1) := by
  obtain ⟨s, hs⟩ := hk
  by_cases hid : e.id = t.wheel.nextId
  · right
    rw [hid] at hs
    refine ⟨?_, (((located_nextId hf hb).mem_iff k s).mp hs).1⟩
    have hnew : TimerEvent.scheduled ⟨t.wheel.nextId, d, h, p, c⟩ t.wheel.currentTime ∈
        (t.scheduleAt d h p c).trace := List.mem_cons_self
    rw [Live, hid] at he
    have heq := (scheduleAt_idInv hb hf.ids).entry_eq hnew he
    rw [heq]
  · left
    have hlive : t.Live e := (lookup_scheduleAt hb hid).symm.trans he
    refine ⟨hlive, s, ?_⟩
    rw [bucket_scheduleAt, List.mem_append] at hs
    rcases hs with hs | hs
    · exact hs
    · split_ifs at hs
      · exact absurd (List.mem_singleton.mp hs) hid
      · simp at hs

theorem Sorted.scheduleAt (hs : Sorted t n) (hf : FiringInv t n) (hd : Timely t d)
    (hb : Bounded (t.scheduleAt d h p c).wheel.slotmap) : Sorted (t.scheduleAt d h p c) n := by
  have htime := hf.aligned.time
  have hstart : t.wheel.startTime ≤ d := by
    have := hd.notPast
    simp only [htime, kTickDuration, kMillisecond] at this
    omega
  have hroute : (t.wheel.route d).1 = routeLevel (deadlineTick t.wheel.startTime d - n) := by
    rw [route_eq htime hstart]
  have hnear : deadlineTick t.wheel.startTime d - n < 67108864 := by
    have := hd.near
    rw [htime, kMaxDelay_eq] at this
    simp only [kTickDuration, kMillisecond] at this
    simp only [deadlineTick, kMillisecond]
    omega
  refine ⟨fun e k he hk => ?_, fun e e' k l he he' hk hl hkl => ?_⟩
  · rcases hf.scheduleAt_level hb he hk with ⟨hlive, hlevel⟩ | ⟨hed, rfl⟩
    · exact hs.near e k hlive hlevel
    · have hlt := lt_of_routeLevel hnear
      rw [hroute]
      change deadlineTick t.wheel.startTime e.deadline < _
      rw [hed]
      omega
  · change deadlineTick t.wheel.startTime e.deadline ≤ deadlineTick t.wheel.startTime e'.deadline
    rcases hf.scheduleAt_level hb he hk with ⟨hlive, hlevel⟩ | ⟨hed, rfl⟩ <;>
      rcases hf.scheduleAt_level hb he' hl with ⟨hlive', hlevel'⟩ | ⟨hed', rfl⟩
    · exact hs.sorted e e' k l hlive hlive' hlevel hlevel' hkl
    · rw [hroute] at hkl
      have hlt := hs.near e k hlive hlevel
      have hspan := le_of_routeLevel hkl
      have hpos := levelSpan_pos k
      rw [due] at hlt
      rw [hed']
      omega
    · rw [hed]
      exact hd.above e' l hlive' hlevel' hkl
    · exact absurd hkl (lt_irrefl _)

end Schedule

theorem Sorted.of_live {u : TimerState} (hs : Sorted t n)
    (hstart : u.wheel.startTime = t.wheel.startTime) (hlive : ∀ e, u.Live e → t.Live e)
    (hlevel : ∀ e k, u.OnLevel e k → t.OnLevel e k) : Sorted u n := by
  have hdue : ∀ e, u.due e = t.due e := fun e => by rw [due, due, hstart]
  refine ⟨fun e k he hk => ?_, fun e e' k l he he' hk hl hkl => ?_⟩
  · rw [hdue]
    exact hs.near e k (hlive e he) (hlevel e k hk)
  · rw [hdue, hdue]
    exact hs.sorted e e' k l (hlive e he) (hlive e' he') (hlevel e k hk) (hlevel e' l hl) hkl

structure OrderInv (t : TimerState) : Prop where
  notPast : NotPast t
  sorted : ∃ n, FiringInv t n ∧ Sorted t n

theorem OrderInv.tick (h : OrderInv t) : OrderInv t.tick := by
  obtain ⟨hp, n, hf, hs⟩ := h
  exact ⟨hp.tick, n + 1, hf.tick, hs.tick hf hp⟩

theorem OrderInv.scheduleAt {d : ℤ} {h : Option Handle} {p : Option StatePtr} {c : WaitState}
    (ho : OrderInv t) (hd : Timely t d) (hb : Bounded (t.scheduleAt d h p c).wheel.slotmap) :
    OrderInv (t.scheduleAt d h p c) := by
  obtain ⟨hp, n, hf, hs⟩ := ho
  exact ⟨hp.scheduleAt hd.notPast, n, hf.scheduleAt hb, hs.scheduleAt hf hd hb⟩

theorem OrderInv.cancel (ho : OrderInv t) (id : TimerId) : OrderInv (t.cancel id) := by
  obtain ⟨hp, n, hf, hs⟩ := ho
  have hf' := hf.cancel id
  cases hl : t.wheel.lookup id with
  | none =>
    rw [cancel_of_stale hl]
    exact ⟨hp, n, hf, hs⟩
  | some e =>
    rw [cancel_of_live hl] at hf' ⊢
    refine ⟨fun e' now hs' => hp e' now (List.mem_of_ne_of_mem (by simp) hs'), n, hf',
      hs.of_live rfl (fun f hlf => ?_) fun f k hfk => hfk⟩
    rw [Live, lookup_release] at hlf
    split_ifs at hlf
    exact hlf

theorem OrderInv.step {u : TimerState} {op : TimerOp} (ho : OrderInv t) (hg : InOrder t op)
    (hstep : t.step op = some u) (hb : Bounded u.wheel.slotmap) : OrderInv u := by
  obtain ⟨hp, n, hf, hs⟩ := id ho
  have hquiet := fun hq : op.quiet = true => hf.quiet_step hq hstep hb
  cases op <;> simp only [TimerState.step, Option.some.injEq] at hstep <;> subst hstep
  case schedule => exact ho.scheduleAt hg hb
  case scheduleAt => exact ho.scheduleAt hg hb
  case cancel id => exact ho.cancel id
  case tick => exact ho.tick
  case advanceTo target => exact advanceTo_rule OrderInv (fun _ hv => hv.tick) target ho
  case wake => exact ⟨hp, n, hquiet rfl, hs.near, hs.sorted⟩
  case drainReady => exact ⟨hp, n, hquiet rfl, hs.near, hs.sorted⟩
  case heap => exact ⟨hp, n, hquiet rfl, hs.near, hs.sorted⟩

theorem fresh_orderInv (start : ℤ) (m : Heap) : OrderInv (fresh start m) where
  notPast e now hs := by simp [fresh] at hs
  sorted := by
    have hnone : ∀ e, ¬(fresh start m).Live e := by
      intro e he
      rw [Live, lookup, fresh, create, Slotmap.get?_empty] at he
      cases he
    exact ⟨0, fresh_firingInv start m, fun e k he => absurd he (hnone e),
      fun e e' k l he => absurd he (hnone e)⟩

section Runs
variable {start : ℤ} {m : Heap} {ops : List TimerOp}

theorem Reaches.orderInv (h : Reaches start m ops t) (hb : Bounded t.wheel.slotmap)
    (hg : Transition.Guarded step InOrder (fresh start m) ops) : OrderInv t := by
  have hinv : Bounded t.wheel.slotmap → OrderInv t :=
    Transition.invariant_of_guarded InOrder (fun u => Bounded u.wheel.slotmap → OrderInv u)
      (fun hop hs hu hb' => (hu (hb'.of_grows (step_grows hs))).step hop hs hb')
      (fun _ => fresh_orderInv start m) hg h
  exact hinv hb

/-- The loop does not sleep past the millisecond of a live timer. -/
theorem NextIsEarliest.pollTimeout (h : NextIsEarliest t) {s : EventLoop}
    (hs : s.world.timer = t) (he : t.Live e) (hstart : t.wheel.startTime ≤ e.deadline) :
    s.pollTimeout = 0 ∨ s.clock + s.pollTimeout < e.deadline + kTickDuration := by
  obtain ⟨r, hr, -, hmin⟩ := h
  have hdue := hmin e he
  have hlt : r.deadline < e.deadline + kTickDuration := by
    simp only [due, deadlineTick, kMillisecond] at hdue
    simp only [kTickDuration, kMillisecond]
    omega
  rw [EventLoop.pollTimeout, hs, hr]
  dsimp only
  split_ifs
  · exact Or.inl rfl
  · right
    omega
  · right
    omega

/-- With deadlines not past when they are scheduled, `next_deadline` answers with a live timer
of the least tick exactly when such a timer is first in the order of the scan. It is in every
run that does not file a timer below a live one due earlier, nor beyond `kMaxDelay`; and the
loop's poll ends in time for every timer. -/
theorem next_deadline_earliest_iff (h : Reaches start m ops t) (hb : Bounded t.wheel.slotmap)
    (hl : ∃ e, t.Live e) :
    (NotPast t → (NextIsEarliest t ↔ EarliestFirst t)) ∧
    (Transition.Guarded step InOrder (fresh start m) ops → NextIsEarliest t ∧
      ∀ s : EventLoop, s.world.timer = t → ∀ e, t.Live e →
        s.pollTimeout = 0 ∨ s.clock + s.pollTimeout < e.deadline + kTickDuration) := by
  obtain ⟨n, hf⟩ := h.firingInv hb
  refine ⟨fun hp => hf.nextIsEarliest_iff hp hl, fun hg => ?_⟩
  obtain ⟨hp, n', hf', hs⟩ := h.orderInv hb hg
  have hnext : NextIsEarliest t := (hf'.nextIsEarliest_iff hp hl).mpr (hs.earliestFirst hf' hp hl)
  refine ⟨hnext, fun s hst e he => hnext.pollTimeout hst he ?_⟩
  obtain ⟨now, hsch⟩ := he.scheduled hf
  exact (hf.since e now hsch).trans (hp e now hsch)

/-- A timer for 256 ms goes to level 1; two ticks later one for 255 ms more goes to level 0
and is due a millisecond after it. -/
theorem next_deadline_misses_earlier :
    ∃ t, Reaches 0 ⟨fun _ => .pending, fun _ => .ok 0, fun _ => false⟩
        [.schedule 256000000 (some 0) none .timedOut, .tick, .tick,
          .schedule 255000000 (some 1) none .timedOut] t ∧
      Bounded t.wheel.slotmap ∧ NotPast t ∧ t.wheel.nextDeadline = some 257000000 ∧
      t.Live ⟨encodeId 0 1, 256000000, some 0, none, .timedOut⟩ ∧ ¬NextIsEarliest t := by
  obtain ⟨t, hr, hb, hp, hd, hl⟩ : ∃ t,
      Reaches 0 ⟨fun _ => .pending, fun _ => .ok 0, fun _ => false⟩
        [.schedule 256000000 (some 0) none .timedOut, .tick, .tick,
          .schedule 255000000 (some 1) none .timedOut] t ∧
      Bounded t.wheel.slotmap ∧ t.trace = [
        .scheduled ⟨encodeId 1 1, 257000000, some 1, none, .timedOut⟩ 2000000,
        .scheduled ⟨encodeId 0 1, 256000000, some 0, none, .timedOut⟩ 0] ∧
      t.wheel.nextDeadline = some 257000000 ∧
      t.Live ⟨encodeId 0 1, 256000000, some 0, none, .timedOut⟩ :=
    ⟨_, rfl, by decide, by decide, by decide, by decide⟩
  refine ⟨t, hr, hb, ?_, hd, hl, ?_⟩
  · intro e now hs
    rw [hp, List.mem_cons, List.mem_singleton] at hs
    rcases hs with hs | hs <;> obtain ⟨rfl, rfl⟩ := TimerEvent.scheduled.inj hs <;> decide
  · rintro ⟨e, he, -, hmin⟩
    rw [hd, Option.some.injEq] at he
    have hle := hmin _ hl
    rw [due, due, ← he, hr.startTime] at hle
    exact absurd hle (by decide)

/-- A timer for 300 ms on level 1, and one tick later a timer for 1.5 ms on level 0. -/
theorem next_deadline_earliest_iff_on_two_levels :
    ∃ t, Reaches 0 allPending [.schedule 300000000 (some 0) (some 0) .timedOut, .tick,
        .schedule 1500000 (some 1) (some 1) .timedOut] t ∧
      t.OnLevel ⟨encodeId 0 1, 300000000, some 0, some 0, .timedOut⟩ 1 ∧
      t.OnLevel ⟨encodeId 1 1, 2500000, some 1, some 1, .timedOut⟩ 0 ∧
      t.Live ⟨encodeId 0 1, 300000000, some 0, some 0, .timedOut⟩ ∧
      t.wheel.nextDeadline = some 2500000 ∧ NextIsEarliest t ∧
      (NextIsEarliest t ↔ EarliestFirst t) := by
  obtain ⟨r, hr, hbr, htrace⟩ : ∃ r,
      Reaches 0 allPending [.schedule 300000000 (some 0) (some 0) .timedOut, .tick] r ∧
      Bounded r.wheel.slotmap ∧
      r.trace = [.scheduled ⟨encodeId 0 1, 300000000, some 0, some 0, .timedOut⟩ 0] :=
    ⟨_, rfl, by decide +kernel, by decide +kernel⟩
  obtain ⟨n, hf⟩ := hr.firingInv hbr
  have hnone : ∀ e, ¬(fresh 0 allPending).Live e := fun e he => by cases he
  have hguard : Transition.Guarded step InOrder (fresh 0 allPending)
      [.schedule 300000000 (some 0) (some 0) .timedOut, .tick,
        .schedule 1500000 (some 1) (some 1) .timedOut] := by
    refine ⟨⟨by decide, by decide, fun e k he => absurd he (hnone e)⟩, fun s hs => ?_⟩
    refine ⟨trivial, fun r' hr' => ⟨?_, fun _ _ => trivial⟩⟩
    obtain rfl : r' = r := Option.some.inj
      ((Transition.run_cons_eq_some.mpr ⟨s, hs, Transition.run_cons_eq_some.mpr
        ⟨r', hr', rfl⟩⟩).symm.trans hr)
    have htime : r'.wheel.currentTime = 1000000 := by
      cases hs
      cases hr'
      exact tick_currentTime _
    refine ⟨by omega, by rw [kMaxDelay_eq]; omega, fun e k he _ _ => ?_⟩
    -- the timer on level 1 is the only one there is, and it is due later
    obtain ⟨now, hsch⟩ := he.scheduled hf
    rw [htrace, List.mem_singleton] at hsch
    obtain ⟨rfl, -⟩ := TimerEvent.scheduled.inj hsch
    rw [due, hr.startTime, htime]
    decide
  obtain ⟨t, ht, hb, hp, hhigh, hlow, hl, hnext⟩ : ∃ t,
      Reaches 0 allPending [.schedule 300000000 (some 0) (some 0) .timedOut, .tick,
        .schedule 1500000 (some 1) (some 1) .timedOut] t ∧ Bounded t.wheel.slotmap ∧
      t.trace = [.scheduled ⟨encodeId 1 1, 2500000, some 1, some 1, .timedOut⟩ 1000000,
        .scheduled ⟨encodeId 0 1, 300000000, some 0, some 0, .timedOut⟩ 0] ∧
      encodeId 0 1 ∈ t.wheel.bucket 1 1 ∧ encodeId 1 1 ∈ t.wheel.bucket 0 2 ∧
      t.Live ⟨encodeId 0 1, 300000000, some 0, some 0, .timedOut⟩ ∧
      t.wheel.nextDeadline = some 2500000 :=
    ⟨_, rfl, by decide +kernel, by decide +kernel, by decide +kernel, by decide +kernel,
      by decide +kernel, by decide +kernel⟩
  have hpast : NotPast t := by
    intro e now hs
    rw [hp, List.mem_cons, List.mem_singleton] at hs
    rcases hs with hs | hs <;> obtain ⟨rfl, rfl⟩ := TimerEvent.scheduled.inj hs <;> decide
  obtain ⟨hiff, hrun⟩ := next_deadline_earliest_iff ht hb ⟨_, hl⟩
  exact ⟨t, ht, ⟨1, hhigh⟩, ⟨2, hlow⟩, hl, hnext, (hrun hguard).1, hiff hpast⟩

end Runs
end TimerState
end RainRuntime
