import RainRuntime.TimedIo
import RainRuntime.TimerClock

/-!
# Deadlines in 64 bits

Elsewhere the wheel computes with unbounded time points. Here `schedule` and `place` are taken with
the signed 64-bit counts of the code, whose sums and differences wrap. They do what the unbounded
ones do as long as base time plus delay fits.
-/

namespace RainRuntime

namespace HierarchicalTimerWheel
variable {w : HierarchicalTimerWheel} {d : ℤ}

def routeTicks (diff dticks : ℕ) : Fin 4 × ℕ :=
  if diff < kLevel1Threshold then
    (0, dticks &&& (kLevel0Size - 1))
  else if diff < kLevel2Threshold then
    (1, (dticks >>> kLevel0Bits) &&& (kLevelNSize - 1))
  else if diff < kLevel3Threshold then
    (2, (dticks >>> (kLevel0Bits + kLevelNBits)) &&& (kLevelNSize - 1))
  else
    (3, (dticks >>> (kLevel0Bits + 2 * kLevelNBits)) &&& (kLevelNSize - 1))

theorem route_routeTicks (w : HierarchicalTimerWheel) (deadline : ℤ) :
    w.route deadline = routeTicks (toMillis (deadline - w.currentTime)).toNat
      (toMillis (deadline - w.startTime)).toNat := rfl

def dticks64 (w : HierarchicalTimerWheel) (deadline : ℤ) : ℕ :=
  (toMillis (wrap64 (deadline - w.startTime))).toNat

def diff64 (w : HierarchicalTimerWheel) (deadline : ℤ) : ℕ :=
  (toMillis (wrap64 (deadline - w.currentTime))).toNat

def place64 (w : HierarchicalTimerWheel) (id : TimerId) (deadline : ℤ) : HierarchicalTimerWheel :=
  let r := routeTicks (w.diff64 deadline) (w.dticks64 deadline)
  w.push r.1 r.2 id

def deadline64 (w : HierarchicalTimerWheel) (delay : ℤ) : ℤ := wrap64 (w.currentTime + delay)

def schedule64 (w : HierarchicalTimerWheel) (delay : ℤ) (handle : Option Handle)
    (state : Option StatePtr) (completion : WaitState) : TimerId × HierarchicalTimerWheel :=
  (w.nextId, (w.allocate (w.deadline64 delay) handle state completion).place64 w.nextId
    (w.deadline64 delay))

/-- The times of a wheel that was created at a clock reading and has only moved on. -/
structure InRange (w : HierarchicalTimerWheel) : Prop where
  start : 0 ≤ w.startTime
  current : w.startTime ≤ w.currentTime
  fits : w.currentTime < 2 ^ 63

theorem inRange_of_reaches {t : TimerState} {start : ℤ} {m : Heap} {ops : List TimerOp}
    (h : TimerState.Reaches start m ops t) (hstart : 0 ≤ start)
    (hfits : t.wheel.currentTime < 2 ^ 63) : t.wheel.InRange := by
  obtain ⟨n, hn⟩ := h.currentTime_eq
  refine ⟨h.startTime.symm ▸ hstart, ?_, hfits⟩
  rw [h.startTime, hn, kTickDuration, kMillisecond]
  omega

theorem schedule64_eq (hw : w.InRange) (hd : 0 < d) (hfits : w.currentTime + d < 2 ^ 63)
    (h : Option Handle) (p : Option StatePtr) (c : WaitState) :
    w.schedule64 d h p c = w.schedule d h p c := by
  have hstart := hw.start
  have hcurrent := hw.current
  have hdeadline : w.deadline64 d = w.currentTime + d := wrap64_of_lt (by omega) hfits
  rw [schedule64, schedule, scheduleAt, hdeadline, place64, place, route_routeTicks]
  dsimp only [diff64, dticks64, allocate]
  rw [wrap64_of_lt (by omega) (by omega), wrap64_of_lt (by omega) (by omega)]

theorem deadline64_eq_of_schedule64 {h : Option Handle} {p : Option StatePtr} {c : WaitState}
    (heq : w.schedule64 d h p c = w.schedule d h p c) : w.deadline64 d = w.currentTime + d := by
  have hslots : (w.schedule64 d h p c).2.slotmap.slots[w.slotmap.nextIndex]? =
      (w.schedule d h p c).2.slotmap.slots[w.slotmap.nextIndex]? := by rw [heq]
  change (Slotmap.store _ _ _)[_]? = (Slotmap.store _ _ _)[_]? at hslots
  rw [Slotmap.store_get _ w.slotmap.nextIndex_le, Slotmap.store_get _ w.slotmap.nextIndex_le,
    if_pos rfl, if_pos rfl] at hslots
  simp only [Option.some.injEq, Slot.mk.injEq, TimerEntry.mk.injEq] at hslots
  exact hslots.1.2.1

theorem toMillis_mono {x y : ℤ} (hx : 0 ≤ x) (hxy : x ≤ y) : toMillis x ≤ toMillis y := by
  rw [toMillis, toMillis, Int.tdiv_eq_ediv_of_nonneg hx, Int.tdiv_eq_ediv_of_nonneg (by omega)]
  exact Int.ediv_le_ediv (by decide) hxy

/-- Taking the difference undoes a wrap of the sum. -/
theorem dticks64_deadline64 (hw : w.InRange) (hd : 0 < d)
    (hfits : w.currentTime - w.startTime + d < 2 ^ 63) :
    w.dticks64 (w.deadline64 d) = (toMillis (w.currentTime - w.startTime + d)).toNat := by
  have hcurrent := hw.current
  rw [dticks64, deadline64, wrap64_wrap_sub, wrap64_of_lt (by omega) (by omega)]
  congr 2
  omega

theorem dticks64_mono (hw : w.InRange) (hfits : w.currentTime - w.startTime + d < 2 ^ 63) {d' : ℤ}
    (hd' : 0 < d') (hle : d' ≤ d) : w.dticks64 (w.deadline64 d') ≤ w.dticks64 (w.deadline64 d) := by
  have hcurrent := hw.current
  rw [dticks64_deadline64 hw hd' (by omega), dticks64_deadline64 hw (by omega) hfits]
  exact Int.toNat_le_toNat (toMillis_mono (by omega) (by omega))

end HierarchicalTimerWheel

namespace StreamIo
open Scripted

inductive TimedOp where
  | stream (op : StreamOp)
  | sendFileAll (fd inFd : ℤ) (offset count : ℕ)

def TimedOp.run (timeout : ℤ) : TimedOp → Io (Result ℕ)
  | stream op => op.withTimeout timeout
  | sendFileAll fd inFd offset count => sendFileAllWithTimeout fd inFd offset count timeout

theorem TimedOp.run_keeps (op : TimedOp) {quiet : Entry → Prop} {P : Net → Prop} {T : ℤ → Prop}
    (hP : Budget quiet P T) {timeout : ℤ} (ht : T timeout) :
    Triple P (op.run timeout) (fun _ => P) P := by
  cases op with
  | stream op => exact op.withTimeout_keeps hP ht
  | sendFileAll fd inFd offset count =>
    refine Triple.bind (M := fun _ => P) (.update fun s h => hP.move s _ h) fun _ => ?_
    refine hP.now.bind fun start s es hs => transferAll_keeps (fun total => ?_) s es hs.1
    split
    · exact hP.within (wrap64_lt _) (fun t => hP.checked timeout start t ht hs.2) (fun _ h => h)
        fun t htime hlt => (sendfile_steady _ _ _).timed_keeps _ hP _
          (hP.left timeout start t ht hs.2 htime hlt)
    · exact (sendfile_steady _ _ _).plain_keeps _ hP

/-- While the clock stands at `c`, every deadline compared with it is `c + d`. -/
structure OnTime (c : Fin (2 ^ 63)) (d : ℤ) (k : ℕ) (s : Net) : Prop where
  clock : s.clock = fun _ => c
  deadline : ∀ now deadline : ℤ, .checked now deadline ∈ s.log.drop k →
    now = (c : ℕ) ∧ deadline = (c : ℕ) + d

theorem OnTime.reading {c : Fin (2 ^ 63)} {d : ℤ} {k : ℕ} {t : ℤ} (h : Reading (OnTime c d k) t) :
    t = (c : ℕ) := by
  obtain ⟨s, hs, rfl⟩ := h
  rw [hs.clock]

theorem onTime_budget {c : Fin (2 ^ 63)} {d : ℤ} {k : ℕ} (hd : 0 < d)
    (hfits : ((c : ℕ) : ℤ) + d < 2 ^ 63) :
    Budget (fun e => ∀ now deadline : ℤ, e = .checked now deadline →
      now = (c : ℕ) ∧ deadline = (c : ℕ) + d) (OnTime c d k) fun x => x = d where
  note s e he h := by
    refine ⟨h.clock, fun now deadline hmem => ?_⟩
    rw [Net.note, List.drop_append, List.mem_append] at hmem
    rcases hmem with hmem | hmem
    · exact h.deadline now deadline hmem
    · exact he now deadline (List.mem_singleton.mp (List.mem_of_mem_drop hmem)).symm
  tick s h := ⟨h.clock, h.deadline⟩
  move s o h := ⟨h.clock, h.deadline⟩
  called e now deadline h := by cases h
  woken e now deadline h := by cases h
  entered x _ now deadline h := by cases h
  checked x start t hx hstart ht now deadline h := by
    cases h
    rw [OnTime.reading hstart, OnTime.reading ht, hx, wrap64_of_lt (by omega) hfits]
    exact ⟨rfl, rfl⟩
  left x start t hx hstart ht _ := by
    rw [OnTime.reading hstart, OnTime.reading ht, hx, wrap64_of_lt (by omega) hfits]
    omega

theorem readSome_expires {c : Fin (2 ^ 63)} {d : ℤ} (hd : 0 < d)
    (hwrap : wrap64 ((c : ℕ) + d) ≤ (c : ℕ)) :
    let r := readSomeWithTimeout 0 1 d ⟨fun _ => c, 0, true, [], 0, []⟩
      [⟨.error .again, .pending, .ok 0⟩]
    r.result = some (.error ⟨.timedOut, .text "read timeout"⟩) ∧ r.env.log =
      [.entered d, .called ⟨.read 0 1, .error .again⟩,
      .checked (c : ℕ) (wrap64 ((c : ℕ) + d))] := by
  have hlt : ¬d ≤ 0 := by omega
  simp [readSomeWithTimeout, transferSomeWithTimeout, hlt, now, transferSome,
    forever, rounds, perform, onReply, within, hwrap, Net.note, Except.map, Errno.again]

end StreamIo

/-- Deadlines for the delay `d` are what they should be: `schedule` does what it does with unbounded
time, `place` files no shorter delay under a later tick, and an operation with the timeout `d` that
starts when the clock shows `c` has time left until the clock moves on. -/
structure DeadlinesExact (w : HierarchicalTimerWheel) (c : Fin (2 ^ 63)) (d : ℤ) : Prop where
  schedule : ∀ h p st, w.schedule64 d h p st = w.schedule d h p st
  place : ∀ d', 0 < d' → d' ≤ d → w.dticks64 (w.deadline64 d') ≤ w.dticks64 (w.deadline64 d)
  timed : ∀ (op : StreamIo.TimedOp) (s : StreamIo.Net) (es : List StreamIo.Event),
    (s.clock = fun _ => c) → ∀ now deadline : ℤ,
      .checked now deadline ∈ (op.run d s es).env.log.drop s.log.length →
      deadline = (c : ℕ) + d ∧ now < deadline

theorem DeadlinesExact.of_fits {w : HierarchicalTimerWheel} (hw : w.InRange) {c : Fin (2 ^ 63)}
    {d : ℤ} (hd : 0 < d) (hwheel : w.currentTime + d < 2 ^ 63)
    (hclock : ((c : ℕ) : ℤ) + d < 2 ^ 63) : DeadlinesExact w c d := by
  have hstart := hw.start
  refine ⟨fun h p st => HierarchicalTimerWheel.schedule64_eq hw hd hwheel h p st,
    fun d' hd' hle => HierarchicalTimerWheel.dticks64_mono hw (by omega) hd' hle, ?_⟩
  intro op s es hs now deadline hmem
  have hbegin : StreamIo.OnTime c d s.log.length s := by
    refine ⟨hs, fun now deadline h => ?_⟩
    rw [List.drop_length] at h
    cases h
  have hend : StreamIo.OnTime c d s.log.length (op.run d s es).env :=
    (op.run_keeps (StreamIo.onTime_budget hd hclock) rfl).env hbegin es
  obtain ⟨rfl, rfl⟩ := hend.deadline now deadline hmem
  exact ⟨rfl, by omega⟩

/-- In a reachable wheel, and at any clock reading, the deadlines for a delay are exact if and only
if the sums of the current time and of the reading with the delay fit into 64 bits. -/
theorem deadlines_exact_iff {start : ℤ} {m : Heap} {ops : List TimerOp} {t : TimerState}
    (hreach : TimerState.Reaches start m ops t) (hstart : 0 ≤ start)
    (hnow : t.wheel.currentTime < 2 ^ 63) (c : Fin (2 ^ 63)) {d : ℤ} (hd : 0 < d)
    (hmax : d < 2 ^ 63) :
    DeadlinesExact t.wheel c d ↔
      t.wheel.currentTime + d < 2 ^ 63 ∧ ((c : ℕ) : ℤ) + d < 2 ^ 63 := by
  have hw := HierarchicalTimerWheel.inRange_of_reaches hreach hstart hnow
  have hc := c.isLt
  constructor
  · intro h
    constructor
    · have hexact := HierarchicalTimerWheel.deadline64_eq_of_schedule64
        (h.schedule none none .ready)
      have hlt := wrap64_lt (t.wheel.currentTime + d)
      rw [HierarchicalTimerWheel.deadline64] at hexact
      omega
    · by_contra hge
      have hwrap : wrap64 ((c : ℕ) + d) = (c : ℕ) + d - 2 ^ 64 :=
        wrap64_of_ge (by omega) (by omega)
      obtain ⟨-, hlog⟩ := StreamIo.readSome_expires (c := c) hd (by omega)
      have htimed := h.timed (.stream (.readSome 0 1)) ⟨fun _ => c, 0, true, [], 0, []⟩
        [⟨.error .again, .pending, .ok 0⟩] rfl (c : ℕ) (wrap64 ((c : ℕ) + d)) (by
          rw [StreamIo.TimedOp.run, StreamIo.StreamOp.withTimeout, hlog]
          simp)
      omega
  · rintro ⟨hwheel, hclock⟩
    exact .of_fits hw hd hwheel hclock

/-- A second after the start of the clock there is room for a day. -/
theorem deadlines_exact_for_day :
    let m : Heap := ⟨fun _ => .pending, fun _ => .ok 0, fun _ => false⟩
    DeadlinesExact (TimerState.fresh 1000000000 m).wheel 1000000000 86400000000000 :=
  (deadlines_exact_iff (show TimerState.Reaches 1000000000 _ [] _ from rfl) (by decide)
    (by decide) 1000000000 (by decide) (by decide)).mpr (by decide)

/-- A tick after the start of the clock, the longest delay is filed under an earlier tick than one
of a millisecond, and a read with the longest timeout has no time at all. -/
theorem longest_delay_wraps :
    let m : Heap := ⟨fun _ => .pending, fun _ => .ok 0, fun _ => false⟩
    let t := (TimerState.fresh 0 m).tick
    let longest : ℤ := 2 ^ 63 - 1
    TimerState.Reaches 0 m [.tick] t ∧ t.wheel.deadline64 longest = -(2 ^ 63) + 999999 ∧
      t.wheel.dticks64 (t.wheel.deadline64 longest) <
        t.wheel.dticks64 (t.wheel.deadline64 kMillisecond) ∧
      (StreamIo.readSomeWithTimeout 0 1 longest ⟨fun _ => 1000000, 0, true, [], 0, []⟩
        [⟨.error .again, .pending, .ok 0⟩]).result =
          some (.error ⟨.timedOut, .text "read timeout"⟩) := by
  intro m t longest
  have hcurrent : t.wheel.currentTime = 1000000 := TimerState.tick_currentTime _
  have hstart : t.wheel.startTime = 0 := TimerState.tick_startTime _
  refine ⟨rfl, ?_, ?_, (StreamIo.readSome_expires (by decide) (by decide)).1⟩
  · rw [HierarchicalTimerWheel.deadline64, hcurrent]
    decide
  · rw [HierarchicalTimerWheel.dticks64, HierarchicalTimerWheel.dticks64,
      HierarchicalTimerWheel.deadline64, HierarchicalTimerWheel.deadline64, hcurrent, hstart]
    decide

end RainRuntime
