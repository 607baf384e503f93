import Mathlib.Logic.Function.Iterate
import RainRuntime.Types
import RainRuntime.Slotmap
import RainRuntime.Transition

/-!
# The hierarchical timer wheel

Four levels of slots hold timer ids; the entries themselves sit in a slotmap that
an id indexes directly. `place` routes an id by the distance of its deadline and
files it under the absolute tick bits of the deadline, `cascade` moves the ids of
a coarse slot down, and `processCurrentSlot` empties one slot of level 0 per tick
without looking at the deadlines in it.

`TimerState` adds to the wheel the heap its entries point into and a trace of what
happened to each id, newest first. The trace is only ever appended to: no operation
reads it.
-/

namespace RainRuntime

structure TimerEntry where
  id : TimerId
  deadline : ℤ
  handle : Option Handle
  state : Option StatePtr
  completion : WaitState
  deriving DecidableEq

instance neZero_four : NeZero 4 := ⟨by decide⟩

structure Level where
  slotCount : ℕ
  slots : ℕ → List TimerId
  currentSlot : ℕ

def Level.ofSize (n : ℕ) : Level := ⟨n, fun _ => [], 0⟩

def kLevel0Bits : ℕ := 8
def kLevel0Size : ℕ := 1 <<< kLevel0Bits
def kLevelNBits : ℕ := 6
def kLevelNSize : ℕ := 1 <<< kLevelNBits
def kNumLevels : ℕ := 4

def kMillisecond : ℤ := 1000000
def kTickDuration : ℤ := kMillisecond

def kLevel1Threshold : ℕ := kLevel0Size
def kLevel2Threshold : ℕ := kLevel0Size * kLevelNSize
def kLevel3Threshold : ℕ := kLevel0Size * kLevelNSize * kLevelNSize

def kIndexBits : ℕ := 24
def kIndexMask : ℕ := (1 <<< kIndexBits) - 1

/-- The index is a `u32` and the shift a 64-bit one: generations from `2 ^ 40` on lose their
upper bits. -/
def encodeId (index gen : ℕ) : TimerId := (gen <<< kIndexBits) % 2 ^ 64 ||| index % 2 ^ 32
def idIndex (id : TimerId) : ℕ := id &&& kIndexMask
def idGen (id : TimerId) : ℕ := id >>> kIndexBits

/-- `duration_cast<milliseconds>`, which truncates towards zero. -/
def toMillis (d : ℤ) : ℤ := d.tdiv kMillisecond

structure HierarchicalTimerWheel where
  levels : Fin 4 → Level
  startTime : ℤ
  currentTime : ℤ
  slotmap : Slotmap TimerEntry
  ready : List Handle

namespace HierarchicalTimerWheel

def create (now : ℤ) : HierarchicalTimerWheel where
  levels k := if k = 0 then Level.ofSize kLevel0Size else Level.ofSize kLevelNSize
  startTime := now
  currentTime := now
  slotmap := Slotmap.empty
  ready := []

def bucket (w : HierarchicalTimerWheel) (k : Fin 4) (s : ℕ) : List TimerId :=
  (w.levels k).slots s

def setBucket (w : HierarchicalTimerWheel) (k : Fin 4) (s : ℕ)
    (ids : List TimerId) : HierarchicalTimerWheel :=
  { w with
    levels := Function.update w.levels k
      { w.levels k with slots := Function.update (w.levels k).slots s ids } }

def push (w : HierarchicalTimerWheel) (k : Fin 4) (s : ℕ) (id : TimerId) :
    HierarchicalTimerWheel :=
  w.setBucket k s (w.bucket k s ++ [id])

def advanceSlot (w : HierarchicalTimerWheel) (k : Fin 4) : HierarchicalTimerWheel :=
  { w with
    levels := Function.update w.levels k
      { w.levels k with
        currentSlot := ((w.levels k).currentSlot + 1) % (w.levels k).slotCount } }

def route (w : HierarchicalTimerWheel) (deadline : ℤ) : Fin 4 × ℕ :=
  let diff := (toMillis (deadline - w.currentTime)).toNat
  let dticks := (toMillis (deadline - w.startTime)).toNat
  if diff < kLevel1Threshold then
    (0, dticks &&& (kLevel0Size - 1))
  else if diff < kLevel2Threshold then
    (1, (dticks >>> kLevel0Bits) &&& (kLevelNSize - 1))
  else if diff < kLevel3Threshold then
    (2, (dticks >>> (kLevel0Bits + kLevelNBits)) &&& (kLevelNSize - 1))
  else
    (3, (dticks >>> (kLevel0Bits + 2 * kLevelNBits)) &&& (kLevelNSize - 1))

def place (w : HierarchicalTimerWheel) (id : TimerId) (deadline : ℤ) :
    HierarchicalTimerWheel :=
  w.push (w.route deadline).1 (w.route deadline).2 id

def lookup (w : HierarchicalTimerWheel) (id : TimerId) : Option TimerEntry :=
  w.slotmap.get? (idIndex id) (idGen id)

def release (w : HierarchicalTimerWheel) (id : TimerId) : HierarchicalTimerWheel :=
  { w with slotmap := w.slotmap.erase (idIndex id) (idGen id) }

def nextId (w : HierarchicalTimerWheel) : TimerId :=
  encodeId w.slotmap.nextIndex w.slotmap.nextGeneration

/-- The slotmap half of `schedule_at`: the entry is stored before its id is placed. -/
def allocate (w : HierarchicalTimerWheel) (deadline : ℤ) (handle : Option Handle)
    (state : Option StatePtr) (completion : WaitState) : HierarchicalTimerWheel :=
  { w with
    slotmap := w.slotmap.insert fun i g => ⟨encodeId i g, deadline, handle, state, completion⟩ }

def scheduleAt (w : HierarchicalTimerWheel) (deadline : ℤ) (handle : Option Handle)
    (state : Option StatePtr) (completion : WaitState) : TimerId × HierarchicalTimerWheel :=
  (w.nextId, (w.allocate deadline handle state completion).place w.nextId deadline)

def schedule (w : HierarchicalTimerWheel) (delay : ℤ) (handle : Option Handle)
    (state : Option StatePtr) (completion : WaitState) : TimerId × HierarchicalTimerWheel :=
  w.scheduleAt (w.currentTime + delay) handle state completion

def cancel (w : HierarchicalTimerWheel) (id : TimerId) : Bool × HierarchicalTimerWheel :=
  match w.lookup id with
  | none => (false, w)
  | some _ => (true, w.release id)

def wake (w : HierarchicalTimerWheel) (h : Handle) : HierarchicalTimerWheel :=
  { w with ready := w.ready ++ [h] }

def drainReady (w : HierarchicalTimerWheel) : List Handle × HierarchicalTimerWheel :=
  (w.ready, { w with ready := [] })

def replace (w : HierarchicalTimerWheel) (id : TimerId) : HierarchicalTimerWheel :=
  match w.lookup id with
  | none => w
  | some e => w.place id e.deadline

/-- The body of `cascade` at one level: the current slot is emptied before its ids are
placed again, so an id may come back to the very slot it was taken from. -/
def redistribute (w : HierarchicalTimerWheel) (k : Fin 4) : HierarchicalTimerWheel :=
  let cur := (w.levels k).currentSlot
  ((w.bucket k cur).foldl replace (w.setBucket k cur [])).advanceSlot k

theorem levelLeft_lt (n : ℕ) : 3 - n < 4 :=
  Nat.lt_succ_of_le (Nat.sub_le 3 n)

/-- `cascade` by the number of levels left: with `n + 1` left it works on level `3 - n`. -/
def cascadeLast : ℕ → HierarchicalTimerWheel → HierarchicalTimerWheel
  | 0, w => w
  | n + 1, w =>
    let level : Fin 4 := ⟨3 - n, levelLeft_lt n⟩
    (if (w.levels level).currentSlot = 0 then cascadeLast n w else w).redistribute level

def cascade (w : HierarchicalTimerWheel) (level : ℕ) : HierarchicalTimerWheel :=
  cascadeLast (kNumLevels - level) w

def earliest (w : HierarchicalTimerWheel) (ids : List TimerId) : Option ℤ :=
  ids.foldl (fun acc id =>
    match w.lookup id, acc with
    | none, acc => acc
    | some e, none => some e.deadline
    | some e, some d => if e.deadline < d then some e.deadline else some d) none

def nextDeadline (w : HierarchicalTimerWheel) : Option ℤ :=
  if w.slotmap.activeCount = 0 then none else
  let scan (k : Fin 4) (f : List TimerId → Option ℤ) : Option ℤ :=
    let l := w.levels k
    (List.range l.slotCount).findSome? fun i => f (l.slots ((l.currentSlot + i) % l.slotCount))
  (scan 0 fun ids => ids.findSome? fun id => (w.lookup id).map TimerEntry.deadline).or
    (([1, 2, 3] : List (Fin 4)).findSome? fun k => scan k w.earliest)

theorem bucket_setBucket (w : HierarchicalTimerWheel) (k : Fin 4) (s : ℕ)
    (ids : List TimerId) (j : Fin 4) (t : ℕ) :
    (w.setBucket k s ids).bucket j t = if j = k ∧ t = s then ids else w.bucket j t := by
  by_cases hj : j = k
  · subst hj
    by_cases ht : t = s
    · subst ht; simp [setBucket, bucket]
    · simp [setBucket, bucket, ht]
  · simp [setBucket, bucket, hj]

theorem bucket_push (w : HierarchicalTimerWheel) (k : Fin 4) (s : ℕ) (id : TimerId)
    (j : Fin 4) (t : ℕ) :
    (w.push k s id).bucket j t = w.bucket j t ++ if j = k ∧ t = s then [id] else [] := by
  rw [push, bucket_setBucket]
  split_ifs with h
  · rw [h.1, h.2]
  · simp

@[simp] theorem bucket_advanceSlot (w : HierarchicalTimerWheel) (k j : Fin 4) (t : ℕ) :
    (w.advanceSlot k).bucket j t = w.bucket j t := by
  by_cases hj : j = k
  · subst hj; simp [advanceSlot, bucket]
  · simp [advanceSlot, bucket, hj]

structure Frame (w w' : HierarchicalTimerWheel) : Prop where
  startTime : w'.startTime = w.startTime
  currentTime : w'.currentTime = w.currentTime
  slotmap : w'.slotmap = w.slotmap
  ready : w'.ready = w.ready
  currentSlot : ∀ k, (w'.levels k).currentSlot = (w.levels k).currentSlot
  slotCount : ∀ k, (w'.levels k).slotCount = (w.levels k).slotCount

namespace Frame
variable {w w' w'' : HierarchicalTimerWheel}

theorem refl (w : HierarchicalTimerWheel) : Frame w w :=
  ⟨rfl, rfl, rfl, rfl, fun _ => rfl, fun _ => rfl⟩

theorem trans (h : Frame w w') (h' : Frame w' w'') : Frame w w'' where
  startTime := h'.startTime.trans h.startTime
  currentTime := h'.currentTime.trans h.currentTime
  slotmap := h'.slotmap.trans h.slotmap
  ready := h'.ready.trans h.ready
  currentSlot k := (h'.currentSlot k).trans (h.currentSlot k)
  slotCount k := (h'.slotCount k).trans (h.slotCount k)

theorem lookup (h : Frame w w') (id : TimerId) : w'.lookup id = w.lookup id := by
  rw [HierarchicalTimerWheel.lookup, HierarchicalTimerWheel.lookup, h.slotmap]

theorem route (h : Frame w w') (d : ℤ) : w'.route d = w.route d := by
  rw [HierarchicalTimerWheel.route, HierarchicalTimerWheel.route, h.startTime, h.currentTime]

end Frame

theorem frame_setBucket (w : HierarchicalTimerWheel) (k : Fin 4) (s : ℕ)
    (ids : List TimerId) : Frame w (w.setBucket k s ids) := by
  refine ⟨rfl, rfl, rfl, rfl, fun j => ?_, fun j => ?_⟩ <;>
  · by_cases hj : j = k
    · subst hj; simp [setBucket]
    · simp [setBucket, hj]

theorem frame_place (w : HierarchicalTimerWheel) (id : TimerId) (d : ℤ) :
    Frame w (w.place id d) :=
  frame_setBucket _ _ _ _

theorem frame_replace (w : HierarchicalTimerWheel) (id : TimerId) : Frame w (w.replace id) := by
  unfold replace
  cases w.lookup id with
  | none => exact Frame.refl w
  | some e => exact frame_place w id e.deadline

theorem frame_foldl_replace (ids : List TimerId) (w : HierarchicalTimerWheel) :
    Frame w (ids.foldl replace w) := by
  induction ids generalizing w with
  | nil => exact Frame.refl w
  | cons id ids ih => exact (frame_replace w id).trans (ih _)

def destination (w : HierarchicalTimerWheel) (id : TimerId) : Option (Fin 4 × ℕ) :=
  (w.lookup id).map fun e => w.route e.deadline

theorem bucket_replace (w : HierarchicalTimerWheel) (id : TimerId) (j : Fin 4) (t : ℕ) :
    (w.replace id).bucket j t =
      w.bucket j t ++ if w.destination id = some (j, t) then [id] else [] := by
  unfold replace destination
  cases w.lookup id with
  | none => simp
  | some e =>
    simp only [place, bucket_push, Option.map_some, Option.some.injEq]
    congr 1
    by_cases h : w.route e.deadline = (j, t)
    · simp [h]
    · rw [if_neg h, if_neg]
      rintro ⟨rfl, rfl⟩
      exact h rfl

theorem bucket_foldl_replace (ids : List TimerId) (w : HierarchicalTimerWheel)
    (j : Fin 4) (t : ℕ) :
    (ids.foldl replace w).bucket j t =
      w.bucket j t ++ ids.filter fun id => w.destination id = some (j, t) := by
  induction ids generalizing w with
  | nil => simp
  | cons id ids ih =>
    have hd : (w.replace id).destination = w.destination := by
      funext i
      have hf := frame_replace w id
      simp only [destination, hf.lookup, hf.route]
    rw [List.foldl_cons, ih, hd, bucket_replace, List.append_assoc]
    by_cases h : w.destination id = some (j, t)
    · simp [h]
    · simp [h]

theorem currentSlot_advanceSlot (w : HierarchicalTimerWheel) (k j : Fin 4) :
    ((w.advanceSlot k).levels j).currentSlot =
      if j = k then ((w.levels k).currentSlot + 1) % (w.levels k).slotCount
      else (w.levels j).currentSlot := by
  by_cases hj : j = k
  · subst hj; simp [advanceSlot]
  · simp [advanceSlot, hj]

@[simp] theorem slotCount_advanceSlot (w : HierarchicalTimerWheel) (k j : Fin 4) :
    ((w.advanceSlot k).levels j).slotCount = (w.levels j).slotCount := by
  by_cases hj : j = k
  · subst hj; simp [advanceSlot]
  · simp [advanceSlot, hj]

theorem frame_redistribute_body (w : HierarchicalTimerWheel) (k : Fin 4) :
    Frame w ((w.bucket k (w.levels k).currentSlot).foldl replace
      (w.setBucket k (w.levels k).currentSlot [])) :=
  (frame_setBucket _ _ _ _).trans (frame_foldl_replace _ _)

theorem redistribute_startTime (w : HierarchicalTimerWheel) (k : Fin 4) :
    (w.redistribute k).startTime = w.startTime := (w.frame_redistribute_body k).startTime

theorem redistribute_currentTime (w : HierarchicalTimerWheel) (k : Fin 4) :
    (w.redistribute k).currentTime = w.currentTime := (w.frame_redistribute_body k).currentTime

theorem redistribute_slotmap (w : HierarchicalTimerWheel) (k : Fin 4) :
    (w.redistribute k).slotmap = w.slotmap := (w.frame_redistribute_body k).slotmap

theorem redistribute_ready (w : HierarchicalTimerWheel) (k : Fin 4) :
    (w.redistribute k).ready = w.ready := (w.frame_redistribute_body k).ready

theorem redistribute_slotCount (w : HierarchicalTimerWheel) (k j : Fin 4) :
    ((w.redistribute k).levels j).slotCount = (w.levels j).slotCount := by
  rw [redistribute, slotCount_advanceSlot]
  exact (w.frame_redistribute_body k).slotCount j

theorem redistribute_currentSlot (w : HierarchicalTimerWheel) (k j : Fin 4) :
    ((w.redistribute k).levels j).currentSlot =
      if j = k then ((w.levels k).currentSlot + 1) % (w.levels k).slotCount
      else (w.levels j).currentSlot := by
  have hf := w.frame_redistribute_body k
  rw [redistribute, currentSlot_advanceSlot, hf.currentSlot, hf.currentSlot, hf.slotCount]

theorem bucket_redistribute (w : HierarchicalTimerWheel) (k j : Fin 4) (t : ℕ) :
    (w.redistribute k).bucket j t =
      (if j = k ∧ t = (w.levels k).currentSlot then [] else w.bucket j t) ++
        (w.bucket k (w.levels k).currentSlot).filter
          fun id => w.destination id = some (j, t) := by
  have hd : (w.setBucket k (w.levels k).currentSlot []).destination = w.destination := by
    funext i
    have hf := w.frame_setBucket k (w.levels k).currentSlot []
    simp only [destination, hf.lookup, hf.route]
  rw [redistribute, bucket_advanceSlot, bucket_foldl_replace, bucket_setBucket, hd]

theorem cascadeLast_rule {P : HierarchicalTimerWheel → Prop}
    (hstep : ∀ v k, P v → P (v.redistribute k)) (n : ℕ) {w : HierarchicalTimerWheel} (h : P w) :
    P (cascadeLast n w) := by
  induction n generalizing w with
  | zero => exact h
  | succ n ih =>
    simp only [cascadeLast]
    apply hstep
    split_ifs
    · exact ih h
    · exact h

end HierarchicalTimerWheel

inductive TimerEvent where
  | scheduled (e : TimerEntry) (now : ℤ)
  | cancelled (id : TimerId)
  | stateRead (id : TimerId) (p : StatePtr)
  | fired (id : TimerId) (time : ℤ)
  | released (id : TimerId) (time : ℤ)
  deriving DecidableEq

structure TimerState where
  wheel : HierarchicalTimerWheel
  heap : Heap
  trace : List TimerEvent

namespace TimerState

/-- The tail of `process_current_slot`'s loop body, once the entry's state is `completion`. -/
def fire (t : TimerState) (id : TimerId) (e : TimerEntry) : TimerState :=
  let w := match e.handle with
    | some h => if t.heap.done h then t.wheel else t.wheel.wake h
    | none => t.wheel
  { t with wheel := w.release id, trace := .fired id t.wheel.currentTime :: t.trace }

def visit (t : TimerState) (id : TimerId) : TimerState :=
  match t.wheel.lookup id with
  | none => t
  | some e =>
    match e.state with
    | none => t.fire id e
    | some p =>
      if t.heap.state p ≠ .pending then
        { t with
          wheel := t.wheel.release id
          trace := .released id t.wheel.currentTime :: .stateRead id p :: t.trace }
      else
        fire { t with heap := t.heap.setState p e.completion, trace := .stateRead id p :: t.trace }
          id e

def beginTick (w : HierarchicalTimerWheel) : HierarchicalTimerWheel :=
  { w with currentTime := w.currentTime + kTickDuration }

def cascadeIfDue (w : HierarchicalTimerWheel) : HierarchicalTimerWheel :=
  if (w.levels 0).currentSlot = 0 then w.cascade 1 else w

def processCurrentSlot (t : TimerState) : TimerState :=
  let w := cascadeIfDue t.wheel
  let cur := (w.levels 0).currentSlot
  let u := (w.bucket 0 cur).foldl visit { t with wheel := w.setBucket 0 cur [] }
  { u with wheel := u.wheel.advanceSlot 0 }

def tick (t : TimerState) : TimerState :=
  processCurrentSlot { t with wheel := beginTick t.wheel }

def ticksUntil (t : TimerState) (target : ℤ) : ℕ :=
  ((target - t.wheel.currentTime + kTickDuration - 1) / kTickDuration).toNat

def advanceTo (t : TimerState) (target : ℤ) : TimerState :=
  tick^[t.ticksUntil target] t

theorem cascadeIfDue_rule {P : HierarchicalTimerWheel → Prop}
    (hstep : ∀ v k, P v → P (v.redistribute k)) {w : HierarchicalTimerWheel} (h : P w) :
    P (cascadeIfDue w) := by
  unfold cascadeIfDue
  split_ifs
  · exact HierarchicalTimerWheel.cascadeLast_rule hstep _ h
  · exact h

theorem cascadeIfDue_slotmap (w : HierarchicalTimerWheel) :
    (cascadeIfDue w).slotmap = w.slotmap :=
  cascadeIfDue_rule (fun v k hv => (v.redistribute_slotmap k).trans hv) rfl

theorem cascadeIfDue_startTime (w : HierarchicalTimerWheel) :
    (cascadeIfDue w).startTime = w.startTime :=
  cascadeIfDue_rule (fun v k hv => (v.redistribute_startTime k).trans hv) rfl

theorem cascadeIfDue_currentTime (w : HierarchicalTimerWheel) :
    (cascadeIfDue w).currentTime = w.currentTime :=
  cascadeIfDue_rule (fun v k hv => (v.redistribute_currentTime k).trans hv) rfl

/-- The rule for facts about the entries: a tick can only break what a visit can break. -/
theorem tick_rule (P : TimerState → Prop) (hvisit : ∀ t id, P t → P (t.visit id))
    (hwheel : ∀ (t : TimerState) (w : HierarchicalTimerWheel), w.slotmap = t.wheel.slotmap →
      P t → P { t with wheel := w })
    {t : TimerState} (h : P t) : P t.tick := by
  have hfold : ∀ (ids : List TimerId) (u : TimerState), P u → P (ids.foldl visit u) := by
    intro ids
    induction ids with
    | nil => intro u hu; exact hu
    | cons id ids ih => intro u hu; exact ih _ (hvisit u id hu)
  refine hwheel _ _ rfl (hfold _ _ ?_)
  exact hwheel t _ (cascadeIfDue_slotmap (beginTick t.wheel)) h

theorem advanceTo_rule (P : TimerState → Prop) (htick : ∀ t, P t → P t.tick) {t : TimerState}
    (target : ℤ) (h : P t) : P (t.advanceTo target) := by
  unfold advanceTo
  induction t.ticksUntil target with
  | zero => exact h
  | succ n ih =>
    rw [Function.iterate_succ_apply']
    exact htick _ ih

def scheduleAt (t : TimerState) (deadline : ℤ) (handle : Option Handle)
    (state : Option StatePtr) (completion : WaitState) : TimerState :=
  let r := t.wheel.scheduleAt deadline handle state completion
  { t with
    wheel := r.2
    trace := .scheduled ⟨r.1, deadline, handle, state, completion⟩ t.wheel.currentTime :: t.trace }

def cancel (t : TimerState) (id : TimerId) : TimerState :=
  let r := t.wheel.cancel id
  { t with wheel := r.2, trace := if r.1 then .cancelled id :: t.trace else t.trace }

end TimerState

/-- What the rest of the program does to the wheel. `heap` stands for everything that
happens to wait states and coroutines outside of it. -/
inductive TimerOp where
  | schedule (delay : ℤ) (handle : Option Handle) (state : Option StatePtr)
      (completion : WaitState)
  | scheduleAt (deadline : ℤ) (handle : Option Handle) (state : Option StatePtr)
      (completion : WaitState)
  | cancel (id : TimerId)
  | tick
  | advanceTo (target : ℤ)
  | wake (h : Handle)
  | drainReady
  | heap (m : Heap)

namespace TimerState

def step (t : TimerState) : TimerOp → Option TimerState
  | .schedule delay h p c => some (t.scheduleAt (t.wheel.currentTime + delay) h p c)
  | .scheduleAt deadline h p c => some (t.scheduleAt deadline h p c)
  | .cancel id => some (t.cancel id)
  | .tick => some t.tick
  | .advanceTo target => some (t.advanceTo target)
  | .wake h => some { t with wheel := t.wheel.wake h }
  | .drainReady => some { t with wheel := t.wheel.drainReady.2 }
  | .heap m => some { t with heap := m }

def fresh (now : ℤ) (m : Heap) : TimerState := ⟨.create now, m, []⟩

def Reaches (now : ℤ) (m : Heap) (ops : List TimerOp) (t : TimerState) : Prop :=
  Transition.run step (fresh now m) ops = some t

end TimerState
end RainRuntime
