import RainRuntime.ReactorFrames
import RainRuntime.Awaiters
import RainRuntime.TimerFiring

/-!
# Who may touch a wait state

Every entry in the reactor's slots and every entry of the wheel that an id can reach
belongs to a suspended coroutine and points to the cell of the awaiter it is suspended
in (`Owned`). What the contenders do to such a coroutine is described once, by
`MoveTo`: its state leaves `pending`, the entries that could move it again are gone
and its handle is queued at most once. Everything else that happens is `Still`.

Ids are taken up to `2 ^ 64`. Beyond the limits of the slotmap two ids may coincide, and
the invariant does not mind: it says who owns what an id leads to, not that the id
leads to its own timer.
-/

namespace RainRuntime
namespace World

/-- Where a handle is queued: by the reactor, by the wheel, by the loop, by other loops. -/
def lines (s : World) (h : Handle) : ℕ × ℕ × ℕ × ℕ :=
  (s.reactor.ready.count h, s.timer.wheel.ready.count h, s.ready.count h,
    (s.foreign.map Prod.snd).count h)

def enqueued (s : World) (h : Handle) : ℕ :=
  (s.lines h).1 + (s.lines h).2.1 + (s.lines h).2.2.1 + (s.lines h).2.2.2

def entryAt (s : World) (id : TimerId) : Option TimerEntry :=
  if id < 2 ^ 64 then s.timer.wheel.lookup id else none

def QueueOk (s : World) (h : Handle) : Prop :=
  match s.phase h with
  | .waiting a => s.enqueued h ≤ 1 ∧ (s.heap.state a.cell = .pending → s.enqueued h = 0)
  | .queued => s.enqueued h ≤ 1
  | _ => s.enqueued h = 0

def NarrowIds (s : World) : Prop := ∀ id, s.timer.wheel.Present id → id < 2 ^ 64

structure Owned (s : World) : Prop where
  cell : ∀ h a, s.phase h = .waiting a → s.cells a.cell = some h
  slot : ∀ i d e, (s.reactor.slotAt i).get d = some e → ∃ h a, s.phase h = .waiting a ∧
    e = ⟨some h, some a.cell, some a.cell, .ready⟩ ∧ a.kind.direction = some d ∧ a.fd = i ∧
    (s.heap.state a.cell = .pending ∨ s.heap.state a.cell = .timedOut)
  entry : ∀ id e, s.entryAt id = some e → ∃ h a, s.phase h = .waiting a ∧
    e.handle = some h ∧ e.state = some a.cell ∧ a.timerId = id ∧
    a.kind.timerCompletion = some e.completion ∧
    (s.heap.state a.cell = .pending ∨
      (a.kind.direction.isSome ∧ s.heap.state a.cell = .ready))
  ids : s.NarrowIds
  queue : ∀ h, s.QueueOk h
  result : ∀ h a, s.phase h = .waiting a → a.kind.direction.isSome →
    s.heap.state a.cell = .ready → s.heap.result a.cell = .ok 0
  done : ∀ h, (∃ on, s.phase h = .running on) ∨ (∃ a, s.phase h = .waiting a) →
    s.heap.done h = false

theorem Owned.unique {s : World} (hs : Owned s) {h h' : Handle} {a a' : Awaiter}
    (hw : s.phase h = .waiting a) (hw' : s.phase h' = .waiting a') (hc : a.cell = a'.cell) :
    h = h' ∧ a = a' := by
  have h1 := hs.cell h a hw
  rw [hc, hs.cell h' a' hw', Option.some.injEq] at h1
  subst h1
  rw [hw, Phase.waiting.injEq] at hw'
  exact ⟨rfl, hw'⟩

structure Still (s t : World) : Prop where
  phase : t.phase = s.phase
  cells : t.cells = s.cells
  state : t.heap.state = s.heap.state
  result : t.heap.result = s.heap.result
  done : t.heap.done = s.heap.done
  slots : ∀ i d e, (t.reactor.slotAt i).get d = some e → (s.reactor.slotAt i).get d = some e
  entries : ∀ id e, t.entryAt id = some e → s.entryAt id = some e
  ids : s.NarrowIds → t.NarrowIds
  lines : ∀ h, t.lines h = s.lines h

/-- A contender moves the state of the coroutine `h`, suspended in `a`, to `x`. -/
structure MoveTo (s t : World) (h : Handle) (a : Awaiter) (x : WaitState) : Prop where
  waiting : s.phase h = .waiting a
  pending : s.heap.state a.cell = .pending
  moved : x ≠ .pending
  phase : t.phase = s.phase
  cells : t.cells = s.cells
  state : t.heap.state = Function.update s.heap.state a.cell x
  result : ∀ p, p ≠ a.cell → t.heap.result p = s.heap.result p
  done : t.heap.done = s.heap.done
  filled : a.kind.direction.isSome → x = .ready → t.heap.result a.cell = .ok 0
  slots : ∀ i d e, (t.reactor.slotAt i).get d = some e → (s.reactor.slotAt i).get d = some e ∧
    (x ≠ .timedOut → e.state ≠ some a.cell)
  entries : ∀ id e, t.entryAt id = some e → s.entryAt id = some e ∧
    (¬(a.kind.direction.isSome ∧ x = .ready) → e.state ≠ some a.cell)
  ids : s.NarrowIds → t.NarrowIds
  queued : t.enqueued h ≤ 1
  lines : ∀ h', h' ≠ h → t.lines h' = s.lines h'

theorem enqueued_congr {s t : World} {h : Handle} (hl : t.lines h = s.lines h) :
    t.enqueued h = s.enqueued h := by
  rw [enqueued, enqueued, hl]

theorem Still.refl (s : World) : Still s s :=
  ⟨rfl, rfl, rfl, rfl, rfl, fun _ _ _ h => h, fun _ _ h => h, fun h => h, fun _ => rfl⟩

theorem Still.trans {s t u : World} (h : Still s t) (h' : Still t u) : Still s u where
  phase := h'.phase.trans h.phase
  cells := h'.cells.trans h.cells
  state := h'.state.trans h.state
  result := h'.result.trans h.result
  done := h'.done.trans h.done
  slots i d e he := h.slots i d e (h'.slots i d e he)
  entries id e he := h.entries id e (h'.entries id e he)
  ids hids := h'.ids (h.ids hids)
  lines k := (h'.lines k).trans (h.lines k)

theorem Still.owned {s t : World} (h : Still s t) (hs : Owned s) : Owned t where
  cell := by
    rw [h.phase, h.cells]
    exact hs.cell
  slot i d e he := by
    rw [h.phase, h.state]
    exact hs.slot i d e (h.slots i d e he)
  entry id e he := by
    rw [h.phase, h.state]
    exact hs.entry id e (h.entries id e he)
  ids := h.ids hs.ids
  queue k := by
    have hk := hs.queue k
    rw [QueueOk, h.phase, enqueued_congr (h.lines k), h.state]
    exact hk
  result := by
    rw [h.phase, h.state, h.result]
    exact hs.result
  done := by
    rw [h.phase, h.done]
    exact hs.done

theorem MoveTo.state_self {s t : World} {h : Handle} {a : Awaiter} {x : WaitState}
    (hm : MoveTo s t h a x) : t.heap.state a.cell = x := by
  rw [hm.state, Function.update_self]

theorem MoveTo.state_of_ne {s t : World} {h k : Handle} {a b : Awaiter} {x : WaitState}
    (hm : MoveTo s t h a x) (hs : Owned s) (hb : s.phase k = .waiting b) (hk : k ≠ h) :
    t.heap.state b.cell = s.heap.state b.cell := by
  rw [hm.state, Function.update_of_ne]
  intro hc
  exact hk (hs.unique hb hm.waiting hc).1

theorem MoveTo.owned {s t : World} {h : Handle} {a : Awaiter} {x : WaitState}
    (hm : MoveTo s t h a x) (hs : Owned s) : Owned t where
  cell := by
    rw [hm.phase, hm.cells]
    exact hs.cell
  slot i d e he := by
    obtain ⟨he', hx⟩ := hm.slots i d e he
    obtain ⟨k, b, hb, rfl, hd, hfd, hstate⟩ := hs.slot i d e he'
    refine ⟨k, b, by rw [hm.phase]; exact hb, rfl, hd, hfd, ?_⟩
    by_cases hk : k = h
    · subst hk
      rw [hm.waiting, Phase.waiting.injEq] at hb
      subst hb
      by_cases ht : x = .timedOut
      · exact Or.inr (hm.state_self.trans ht)
      · exact absurd rfl (hx ht)
    · rw [hm.state_of_ne hs hb hk]
      exact hstate
  entry id e he := by
    obtain ⟨he', hx⟩ := hm.entries id e he
    obtain ⟨k, b, hb, hhandle, hcell, hid, hcomp, hstate⟩ := hs.entry id e he'
    refine ⟨k, b, by rw [hm.phase]; exact hb, hhandle, hcell, hid, hcomp, ?_⟩
    by_cases hk : k = h
    · subst hk
      rw [hm.waiting, Phase.waiting.injEq] at hb
      subst hb
      by_cases hr : a.kind.direction.isSome ∧ x = .ready
      · exact Or.inr ⟨hr.1, hm.state_self.trans hr.2⟩
      · exact absurd hcell (hx hr)
    · rw [hm.state_of_ne hs hb hk]
      exact hstate
  ids := hm.ids hs.ids
  queue k := by
    have hk := hs.queue k
    by_cases hkh : k = h
    · subst hkh
      simp only [QueueOk, hm.phase, hm.waiting]
      refine ⟨hm.queued, fun hp => ?_⟩
      rw [hm.state_self] at hp
      exact absurd hp hm.moved
    · simp only [QueueOk, hm.phase, enqueued_congr (hm.lines k hkh)] at hk ⊢
      cases hp : s.phase k with
      | waiting b =>
        simp only [hp] at hk ⊢
        rw [hm.state_of_ne hs hp hkh]
        exact hk
      | _ =>
        simp only [hp] at hk ⊢
        exact hk
  result k b hb hdir hready := by
    rw [hm.phase] at hb
    by_cases hk : k = h
    · subst hk
      rw [hm.waiting, Phase.waiting.injEq] at hb
      subst hb
      exact hm.filled hdir (hm.state_self.symm.trans hready)
    · have hne : b.cell ≠ a.cell := fun hc => hk (hs.unique hb hm.waiting hc).1
      rw [hm.state_of_ne hs hb hk] at hready
      rw [hm.result _ hne]
      exact hs.result k b hb hdir hready
  done := by
    rw [hm.phase, hm.done]
    exact hs.done

/-- What a poll or a tick does to the suspended coroutines, one by one. -/
inductive Batch (c : Contender) : World → World → Prop where
  | still {s t : World} (h : Still s t) : Batch c s t
  | move {s t : World} {h : Handle} {a : Awaiter} {x : WaitState} (hm : MoveTo s t h a x)
      (hx : a.kind.movesTo c = some x) : Batch c s t
  | trans {s t u : World} (h : Batch c s t) (h' : Batch c t u) : Batch c s u

theorem Batch.refl (c : Contender) (s : World) : Batch c s s := .still (Still.refl s)

theorem Batch.owned {c : Contender} {s t : World} (h : Batch c s t) (hs : Owned s) : Owned t := by
  induction h with
  | still h => exact h.owned hs
  | move hm _ => exact hm.owned hs
  | trans _ _ ih ih' => exact ih' (ih hs)

theorem movesTo_ne_pending {kind : WaitKind} {c : Contender} {x : WaitState}
    (h : kind.movesTo c = some x) : x ≠ .pending := by
  cases c <;> cases kind <;>
    simp only [WaitKind.movesTo, WaitKind.direction, WaitKind.timerCompletion, Option.map_some,
      Option.map_none, Option.some.injEq, reduceCtorEq] at h <;>
    simp [← h]

theorem Batch.effect {c : Contender} {s t : World} (h : Batch c s t) (hs : Owned s) :
    t.phase = s.phase ∧ ∀ k b, s.phase k = .waiting b →
      (t.heap.state b.cell = s.heap.state b.cell ∧ t.lines k = s.lines k) ∨
      (s.heap.state b.cell = .pending ∧ b.kind.movesTo c = some (t.heap.state b.cell)) := by
  induction h with
  | still h => exact ⟨h.phase, fun k b _ => Or.inl ⟨by rw [h.state], h.lines k⟩⟩
  | @move s t h a x hm hx =>
    refine ⟨hm.phase, fun k b hb => ?_⟩
    by_cases hk : k = h
    · subst hk
      rw [hm.waiting, Phase.waiting.injEq] at hb
      subst hb
      exact Or.inr ⟨hm.pending, by rw [hm.state_self]; exact hx⟩
    · exact Or.inl ⟨hm.state_of_ne hs hb hk, hm.lines k hk⟩
  | @trans s t u h₁ h₂ ih₁ ih₂ =>
    obtain ⟨hp₁, he₁⟩ := ih₁ hs
    obtain ⟨hp₂, he₂⟩ := ih₂ (h₁.owned hs)
    refine ⟨hp₂.trans hp₁, fun k b hb => ?_⟩
    have hb' : t.phase k = .waiting b := by rw [hp₁]; exact hb
    rcases he₁ k b hb with ⟨hstate₁, hlines₁⟩ | ⟨hpend₁, hmoves₁⟩
    · rcases he₂ k b hb' with ⟨hstate₂, hlines₂⟩ | ⟨hpend₂, hmoves₂⟩
      · exact Or.inl ⟨hstate₂.trans hstate₁, hlines₂.trans hlines₁⟩
      · exact Or.inr ⟨hstate₁ ▸ hpend₂, hmoves₂⟩
    · rcases he₂ k b hb' with ⟨hstate₂, -⟩ | ⟨hpend₂, -⟩
      · exact Or.inr ⟨hpend₁, hstate₂ ▸ hmoves₁⟩
      · exact absurd hpend₂ (movesTo_ne_pending hmoves₁)

section Poll
open IoState

theorem fire_of_pending {s : IoState} {h : Handle} {q : StatePtr}
    (hq : s.heap.state q = .pending) :
    (s.fire ⟨some h, some q, some q, .ready⟩).2 =
      { s with
        heap := (s.heap.setState q .ready).setResult q (.ok 0)
        reactor := { s.reactor with ready := s.reactor.ready ++ [h] } } := by
  simp only [fire, hq, ne_eq, not_true_eq_false, if_false]

theorem fire_of_moved {s : IoState} {h : Handle} {q : StatePtr}
    (hq : s.heap.state q ≠ .pending) : (s.fire ⟨some h, some q, some q, .ready⟩).2 = s := by
  simp only [fire, ne_eq, hq, not_false_eq_true, if_true]

theorem Still.of_io {s : World} {i : IoState} (hheap : i.heap = s.heap)
    (hready : i.reactor.ready = s.reactor.ready)
    (hslots : ∀ j d e, (i.reactor.slotAt j).get d = some e →
      (s.reactor.slotAt j).get d = some e) : Still s (s.withIo i) where
  phase := rfl
  cells := rfl
  state := congrArg Heap.state hheap
  result := congrArg Heap.result hheap
  done := congrArg Heap.done hheap
  slots := hslots
  entries _ _ h := h
  ids h := h
  lines h := by simp only [World.lines, withIo, hready]

theorem dispatch_batch {s : World} (hs : Owned s) (d : Direction) {i : ℕ} (ep : BitVec 32) (n : ℕ)
    (hi : i < s.reactor.slots.length) :
    Batch .readiness s (s.withIo (dispatch d i ep (n, s.io)).2) := by
  unfold dispatch
  cases hp : (s.io.reactor.slotAt i).get d with
  | none => exact Batch.refl _ s
  | some p =>
    dsimp only
    by_cases hev : ep &&& d.epollBit ≠ 0 ∨ ep &&& (epollErr ||| epollHup) ≠ 0
    · rw [if_pos hev]
      obtain ⟨h, a, hw, rfl, hd, hfd, hstate⟩ := hs.slot i d p hp
      by_cases hpend : s.heap.state a.cell = .pending
      · rw [fire_of_pending (s := s.io) hpend]
        refine Batch.move (h := h) (a := a) (x := .ready) ?_ (by simp [WaitKind.movesTo, hd])
        have hzero := hs.queue h
        simp only [QueueOk, hw] at hzero
        have henq := hzero.2 hpend
        refine ⟨hw, hpend, by decide, rfl, rfl, rfl, fun q hq => ?_, rfl, fun _ _ => ?_,
          fun j c e he => ?_, fun id e he => ⟨he, fun hno => ?_⟩, fun hids => hids, ?_,
          fun k hk => ?_⟩
        · exact Function.update_of_ne hq _ _
        · exact Function.update_self _ _ _
        · obtain ⟨he', hne⟩ := get_withSlot_clear (s := { s.io with
            heap := (s.heap.setState a.cell .ready).setResult a.cell (.ok 0)
            reactor := { s.reactor with ready := s.reactor.ready ++ [h] } }) hi d he
          refine ⟨he', fun _ hcell => hne ?_⟩
          obtain ⟨k, b, hb, rfl, hc, hj, -⟩ := hs.slot j c e he'
          obtain ⟨-, rfl⟩ := hs.unique hb hw (Option.some.inj hcell)
          rw [hd, Option.some.injEq] at hc
          exact ⟨by omega, hc.symm⟩
        · exact absurd ⟨by simp [hd], rfl⟩ hno
        · simp only [enqueued, World.lines, withIo, withSlot, io, EpollReactor.setSlot,
            List.count_append, List.count_singleton_self] at henq ⊢
          omega
        · simp [World.lines, withIo, withSlot, io, EpollReactor.setSlot, Ne.symm hk]
      · rw [fire_of_moved (s := s.io) hpend]
        refine Batch.still (Still.of_io rfl rfl fun j c e he => ?_)
        exact (get_withSlot_clear (s := s.io) hi d he).1
    · rw [if_neg hev]
      exact Batch.refl _ s

theorem rearm_still (s : World) (fd : ℤ) : Still s (s.withIo (s.io.rearmOrErase fd)) := by
  rw [rearmOrErase_eq]
  exact Still.of_io rfl rfl fun _ _ _ h => h

theorem dispatch_length (d : Direction) (i : ℕ) (ep : BitVec 32) (r : ℕ × IoState)
    (hi : i < r.2.reactor.slots.length) :
    (dispatch d i ep r).2.reactor.slots.length = r.2.reactor.slots.length :=
  (dispatch_shrinks d ep hi).length

theorem handleEvent_batch {s : World} (hs : Owned s) (n : ℕ) (ev : ℤ × BitVec 32) :
    Batch .readiness s (s.withIo (handleEvent (n, s.io) ev).2) := by
  unfold IoState.handleEvent
  by_cases hfd : ev.1 < 0 ∨ s.reactor.slots.length ≤ ev.1.toNat
  · rw [if_pos (show ev.1 < 0 ∨ s.io.reactor.slots.length ≤ ev.1.toNat from hfd)]
    exact Batch.refl _ s
  rw [if_neg (show ¬(ev.1 < 0 ∨ s.io.reactor.slots.length ≤ ev.1.toNat) from hfd)]
  by_cases hidle : (s.io.reactor.slotAt ev.1.toNat).isIdle = true
  · rw [if_pos hidle]
    exact Batch.refl _ s
  rw [if_neg hidle]
  have hlt : ev.1.toNat < s.reactor.slots.length := by omega
  have hread := dispatch_batch hs .read (i := ev.1.toNat) ev.2 n hlt
  have hwrite := dispatch_batch (s := s.withIo (dispatch .read ev.1.toNat ev.2 (n, s.io)).2)
    (hread.owned hs) .write (i := ev.1.toNat) ev.2 (dispatch .read ev.1.toNat ev.2 (n, s.io)).1
    (by rw [withIo, dispatch_length .read _ _ _ hlt]; exact hlt)
  exact (hread.trans hwrite).trans (Batch.still (rearm_still _ ev.1))

theorem poll_batch {s : World} (hs : Owned s) (report : PollReport) :
    Batch .readiness s (s.withIo (s.io.poll report).2) := by
  have hfold : ∀ (events : List (ℤ × BitVec 32)) (n : ℕ) (t : World), Owned t →
      Batch .readiness t (t.withIo (events.foldl IoState.handleEvent (n, t.io)).2) := by
    intro events
    induction events with
    | nil =>
      intro n t _
      exact Batch.refl _ t
    | cons ev events ih =>
      intro n t ht
      have hev := handleEvent_batch ht n ev
      exact hev.trans (ih (IoState.handleEvent (n, t.io) ev).1 _ (hev.owned ht))
  cases report with
  | failed e => cases e <;> exact Batch.refl _ s
  | reported events =>
    have hk : Batch .readiness s { s with
        kernel := events.foldl (fun k ev => k.report ev.1) s.kernel } :=
      Batch.still (Still.of_io (i := { s.io with
        kernel := events.foldl (fun k ev => k.report ev.1) s.kernel }) rfl rfl fun _ _ _ h => h)
    exact hk.trans (hfold events 0 _ (hk.owned hs))

end Poll
section Tick
open HierarchicalTimerWheel

theorem visit_of_pending {t : TimerState} {id : TimerId} {e : TimerEntry} {h : Handle}
    {q : StatePtr} (hl : t.wheel.lookup id = some e) (hh : e.handle = some h)
    (hq : e.state = some q) (hp : t.heap.state q = .pending) (hd : t.heap.done h = false) :
    (t.visit id).heap = t.heap.setState q e.completion ∧
      (t.visit id).wheel = (t.wheel.wake h).release id := by
  simp [TimerState.visit, TimerState.fire, hl, hh, hq, hp, hd]

theorem visit_of_moved {t : TimerState} {id : TimerId} {e : TimerEntry} {q : StatePtr}
    (hl : t.wheel.lookup id = some e) (hq : e.state = some q) (hp : t.heap.state q ≠ .pending) :
    (t.visit id).heap = t.heap ∧ (t.visit id).wheel = t.wheel.release id := by
  simp [TimerState.visit, hl, hq, hp]

theorem entryAt_eq {s : World} {id : TimerId} (hid : id < 2 ^ 64) :
    s.entryAt id = s.timer.wheel.lookup id := if_pos hid

theorem entryAt_some {s : World} {id : TimerId} {e : TimerEntry} (h : s.entryAt id = some e) :
    id < 2 ^ 64 ∧ s.timer.wheel.lookup id = some e := by
  unfold entryAt at h
  split_ifs at h with hid
  exact ⟨hid, h⟩

theorem entryAt_of_release {s t : World} {id : TimerId}
    (hw : t.timer.wheel.slotmap = (s.timer.wheel.release id).slotmap) {j : TimerId}
    {e : TimerEntry} (h : t.entryAt j = some e) : s.entryAt j = some e ∧ j ≠ id := by
  obtain ⟨hj, hl⟩ := entryAt_some h
  rw [lookup, hw] at hl
  have hr := s.timer.wheel.lookup_release id j
  rw [lookup, hl] at hr
  split_ifs at hr with hjid
  exact ⟨by rw [entryAt_eq hj, ← hr], hjid⟩

theorem Still.of_timer {s : World} {t : TimerState} (hheap : t.heap = s.heap)
    (hready : t.wheel.ready = s.timer.wheel.ready)
    (hentries : ∀ id e, ({ s with timer := t } : World).entryAt id = some e →
      s.entryAt id = some e)
    (hids : ∀ id, t.wheel.Present id → s.timer.wheel.Present id) :
    Still s { s with timer := t } where
  phase := rfl
  cells := rfl
  state := congrArg Heap.state hheap
  result := congrArg Heap.result hheap
  done := congrArg Heap.done hheap
  slots _ _ _ h := h
  entries := hentries
  ids h id hid := h id (hids id hid)
  lines h := by simp only [World.lines, hready]

theorem visit_batch {s : World} (hs : Owned s) {id : TimerId} (hid : id < 2 ^ 64) :
    Batch .timer s { s with timer := s.timer.visit id } := by
  cases hl : s.timer.wheel.lookup id with
  | none =>
    rw [TimerState.visit_of_stale hl]
    exact Batch.refl _ s
  | some e =>
    obtain ⟨h, a, hw, hhandle, hcell, htimer, hcomp, hstate⟩ :=
      hs.entry id e (by rw [entryAt_eq hid, hl])
    have hslots := TimerState.visit_sameSlots s.timer id
    have hpresent : ∀ j, (s.timer.visit id).wheel.Present j → s.timer.wheel.Present j := by
      intro j hj
      exact present_of_bucket hj fun k r => congrArg (fun l => (l k).slots r) hslots.levels
    have hentries : ∀ j e', ({ s with timer := s.timer.visit id } : World).entryAt j = some e' →
        s.entryAt j = some e' ∧ j ≠ id := fun j e' he' =>
      entryAt_of_release (TimerState.visit_slotmap hl) he'
    by_cases hp : s.heap.state a.cell = .pending
    · have hdone : s.heap.done h = false := hs.done h (Or.inr ⟨a, hw⟩)
      obtain ⟨hheap, hwheel⟩ := visit_of_pending hl hhandle hcell hp hdone
      have hmoves : a.kind.movesTo .timer = some e.completion := hcomp
      refine Batch.move (h := h) (a := a) (x := e.completion) ?_ hmoves
      have hdone' : (s.timer.visit id).heap.done = s.heap.done := by
        rw [hheap]
        rfl
      have hzero := hs.queue h
      simp only [QueueOk, hw] at hzero
      have henq := hzero.2 hp
      have hready : (s.timer.visit id).wheel.ready = s.timer.wheel.ready ++ [h] := by
        rw [hwheel]
        rfl
      refine ⟨hw, hp, movesTo_ne_pending hmoves, rfl, rfl, congrArg Heap.state hheap,
        fun q _ => congrFun (congrArg Heap.result hheap) q, hdone',
        fun hdir hx => ?_, fun i d e' he' => ⟨he', fun hx hc => ?_⟩,
        fun j e' he' => ⟨(hentries j e' he').1, fun _ hc => ?_⟩,
        fun hids j hj => hids j (hpresent j hj), ?_, fun k hk => ?_⟩
      · -- a timer that completes with `ready` is a sleeper's, and those watch no fd
        cases hk : a.kind <;> simp [hk, WaitKind.timerCompletion, WaitKind.direction] at hcomp hdir
        rw [hx] at hcomp
        cases hcomp
      · obtain ⟨k, b, hb, rfl, hdir, -, -⟩ := hs.slot i d e' he'
        obtain ⟨-, rfl⟩ := hs.unique hb hw (Option.some.inj hc)
        cases hk : b.kind <;> simp [hk, WaitKind.timerCompletion, WaitKind.direction] at hcomp hdir
        exact hx hcomp.symm
      · obtain ⟨k, b, hb, -, hcell', htimer', -⟩ := hs.entry j e' (hentries j e' he').1
        rw [hc] at hcell'
        obtain ⟨-, rfl⟩ := hs.unique hw hb (Option.some.inj hcell')
        exact (hentries j e' he').2 (htimer'.symm.trans htimer)
      · simp only [enqueued, World.lines, hready, List.count_append,
          List.count_singleton_self] at henq ⊢
        omega
      · simp [World.lines, hready, Ne.symm hk]
    · obtain ⟨hheap, hwheel⟩ := visit_of_moved hl hcell hp
      have hready : (s.timer.visit id).wheel.ready = s.timer.wheel.ready := by
        rw [hwheel]
        rfl
      exact Batch.still (Still.of_timer hheap hready
        (fun j e' he' => (hentries j e' he').1) hpresent)

theorem visits_batch (ids : List TimerId) {s : World} (hs : Owned s)
    (hids : ∀ id ∈ ids, id < 2 ^ 64) :
    Batch .timer s { s with timer := ids.foldl TimerState.visit s.timer } := by
  induction ids generalizing s with
  | nil => exact Batch.refl _ s
  | cons id ids ih =>
    have hv := visit_batch hs (hids id List.mem_cons_self)
    exact hv.trans (ih (hv.owned hs) fun j hj => hids j (List.mem_cons_of_mem _ hj))

theorem opened_ready (t : TimerState) : t.opened.wheel.ready = t.wheel.ready :=
  TimerState.cascadeIfDue_rule (P := fun w => w.ready = t.wheel.ready)
    (fun v k hv => (v.redistribute_ready k).trans hv) (w := TimerState.beginTick t.wheel) rfl

theorem opened_still (s : World) : Still s { s with timer := s.timer.opened } := by
  refine Still.of_timer rfl (opened_ready s.timer) (fun id e he => ?_) fun id hid => ?_
  · obtain ⟨hid, hl⟩ := entryAt_some he
    rw [entryAt_eq hid, ← hl]
    exact (TimerState.lookup_opened s.timer id).symm
  · obtain ⟨k, r, hmem⟩ := hid
    apply TimerState.present_cascaded
    refine ⟨k, r, ?_⟩
    rw [TimerState.opened, bucket_setBucket] at hmem
    split_ifs at hmem
    · simp at hmem
    · exact hmem

theorem Owned.scanned_lt {s : World} (hs : Owned s) {id : TimerId} (hid : id ∈ s.timer.scanned) :
    id < 2 ^ 64 :=
  hs.ids id (TimerState.present_cascaded ⟨_, _, hid⟩)

theorem tick_batch {s : World} (hs : Owned s) :
    Batch .timer s { s with timer := s.timer.tick } := by
  have hscan := visits_batch s.timer.scanned ((opened_still s).owned hs) fun id => hs.scanned_lt
  refine ((Batch.still (opened_still s)).trans hscan).trans (Batch.still ?_)
  rw [TimerState.tick_eq]
  refine Still.of_timer rfl rfl (fun id e he => he) fun id hid => ?_
  exact present_of_bucket hid fun k r => bucket_advanceSlot _ 0 k r

theorem advanceTo_batch {s : World} (hs : Owned s) (target : ℤ) :
    Batch .timer s { s with timer := s.timer.advanceTo target } := by
  unfold TimerState.advanceTo
  induction s.timer.ticksUntil target with
  | zero => exact Batch.refl _ s
  | succ n ih =>
    rw [Function.iterate_succ_apply']
    exact ih.trans (tick_batch (ih.owned hs))

end Tick
section Cancel
open HierarchicalTimerWheel IoState

theorem deregisterWait_still (s : World) (a : Awaiter) : Still s (s.deregisterWait a) := by
  unfold deregisterWait
  cases a.kind.direction with
  | none => exact Still.refl s
  | some d =>
    obtain ⟨hheap, hready, hslots⟩ := deregisterDir_spec s.io a.fd d
    exact Still.of_io hheap hready fun j c e he => (hslots j c e he).1

theorem deregisterWait_slot {s : World} {a : Awaiter} {j : ℕ} {c : Direction} {e : PendingEntry}
    (he : ((s.deregisterWait a).reactor.slotAt j).get c = some e) :
    ¬((j : ℤ) = a.fd ∧ a.kind.direction = some c) := by
  unfold deregisterWait at he
  cases hd : a.kind.direction with
  | none => simp
  | some d =>
    rw [hd] at he
    obtain ⟨-, hne⟩ := (deregisterDir_spec s.io a.fd d).2.2 j c e he
    rintro ⟨hj, hc⟩
    exact hne ⟨hj, (Option.some.inj hc).symm⟩

theorem timer_cancel_spec (t : TimerState) (id : TimerId) :
    (t.cancel id).heap = t.heap ∧ (t.cancel id).wheel.ready = t.wheel.ready ∧
      (t.cancel id).wheel.levels = t.wheel.levels ∧
      (t.cancel id).wheel.slotmap = (t.wheel.release id).slotmap := by
  cases hl : t.wheel.lookup id with
  | none =>
    rw [TimerState.cancel_of_stale hl]
    exact ⟨rfl, rfl, rfl, (Slotmap.erase_of_get?_eq_none hl).symm⟩
  | some e =>
    rw [TimerState.cancel_of_live hl]
    exact ⟨rfl, rfl, rfl, rfl⟩

theorem cancel_entryAt {s : World} {id j : TimerId} {e : TimerEntry}
    (he : ({ s with timer := s.timer.cancel id } : World).entryAt j = some e) :
    s.entryAt j = some e ∧ j ≠ id :=
  entryAt_of_release (timer_cancel_spec s.timer id).2.2.2 he

theorem cancel_still (s : World) (id : TimerId) :
    Still s { s with timer := s.timer.cancel id } := by
  obtain ⟨hheap, hready, hlevels, -⟩ := timer_cancel_spec s.timer id
  refine Still.of_timer hheap hready (fun j e he => (cancel_entryAt he).1) fun j hj => ?_
  exact present_of_bucket hj fun k r => congrArg (fun l => (l k).slots r) hlevels

theorem cancelTimer_still (s : World) (a : Awaiter) : Still s (s.cancelTimer a) := by
  unfold cancelTimer
  cases a.kind.timerCompletion with
  | none => exact Still.refl s
  | some x => exact cancel_still s a.timerId

theorem cancelTimer_entryAt {s : World} {a : Awaiter} {j : TimerId} {e : TimerEntry}
    (ha : a.kind.timerCompletion.isSome) (he : (s.cancelTimer a).entryAt j = some e) :
    j ≠ a.timerId := by
  unfold cancelTimer at he
  cases hc : a.kind.timerCompletion with
  | none => simp [hc] at ha
  | some x =>
    rw [hc] at he
    exact (cancel_entryAt he).2

theorem withdraw_still (s : World) (a : Awaiter) : Still s (s.withdraw a) :=
  (cancelTimer_still s a).trans (deregisterWait_still _ a)

theorem cancelWait_of_pending {s : World} {h : Handle} {a : Awaiter} {tls : Option LoopId}
    (hp : s.heap.state a.cell = .pending) :
    s.cancelWait h a tls = (((s.withHeap (s.heap.setState a.cell .cancelled)).withdraw
      a).signal h a tls).mark h tls := if_neg (not_not.mpr hp)

theorem cancelWait_of_moved {s : World} {h : Handle} {a : Awaiter} {tls : Option LoopId}
    (hp : s.heap.state a.cell ≠ .pending) : s.cancelWait h a tls = s := if_pos hp

theorem signal_frame (s : World) (h : Handle) (a : Awaiter) (tls : Option LoopId) :
    (s.signal h a tls).phase = s.phase ∧ (s.signal h a tls).cells = s.cells ∧
    (s.signal h a tls).heap = s.heap ∧ (s.signal h a tls).reactor = s.reactor ∧
    (s.signal h a tls).timer.wheel.slotmap = s.timer.wheel.slotmap ∧
    (s.signal h a tls).timer.wheel.levels = s.timer.wheel.levels := by
  unfold signal notify
  cases a.kind with
  | sleep => exact ⟨rfl, rfl, rfl, rfl, rfl, rfl⟩
  | _ =>
    cases tls with
    | none => exact ⟨rfl, rfl, rfl, rfl, rfl, rfl⟩
    | some l =>
      dsimp only
      split_ifs <;> exact ⟨rfl, rfl, rfl, rfl, rfl, rfl⟩

theorem signal_lines_of_ne (s : World) {h k : Handle} (hk : k ≠ h) (a : Awaiter)
    (tls : Option LoopId) : (s.signal h a tls).lines k = s.lines k := by
  unfold signal notify
  cases a.kind with
  | sleep => simp [World.lines, wake, Ne.symm hk]
  | _ =>
    cases tls with
    | none => rfl
    | some l =>
      dsimp only
      split_ifs <;> simp [World.lines, Ne.symm hk]

theorem signal_enqueued (s : World) (h : Handle) (a : Awaiter) (tls : Option LoopId) :
    (s.signal h a tls).enqueued h ≤ s.enqueued h + 1 := by
  unfold signal notify
  cases a.kind with
  | sleep =>
    simp only [enqueued, World.lines, wake, List.count_append, List.count_singleton_self]
    omega
  | _ =>
    cases tls with
    | none => exact Nat.le_succ _
    | some l =>
      dsimp only
      split_ifs <;>
      · simp only [enqueued, World.lines, List.map_append, List.map_cons, List.map_nil,
          List.count_append, List.count_singleton_self]
        omega

theorem cancelWait_phase (s : World) (h : Handle) (a : Awaiter) (tls : Option LoopId) :
    (s.cancelWait h a tls).phase = s.phase := by
  by_cases hp : s.heap.state a.cell = .pending
  · rw [cancelWait_of_pending hp]
    exact (signal_frame _ h a tls).1.trans (withdraw_still _ a).phase
  · rw [cancelWait_of_moved hp]

theorem cancelWait_state {s : World} {a : Awaiter} {tls : Option LoopId} (h : Handle)
    (hp : s.heap.state a.cell = .pending) :
    (s.cancelWait h a tls).heap.state a.cell = .cancelled := by
  rw [cancelWait_of_pending hp]
  have hheap := (signal_frame ((s.withHeap (s.heap.setState a.cell .cancelled)).withdraw a) h a
    tls).2.2.1
  have hstill := withdraw_still (s.withHeap (s.heap.setState a.cell .cancelled)) a
  calc _ = ((s.withHeap (s.heap.setState a.cell .cancelled)).withdraw a).heap.state a.cell :=
        congrFun (congrArg Heap.state hheap) a.cell
    _ = (s.withHeap (s.heap.setState a.cell .cancelled)).heap.state a.cell :=
        congrFun hstill.state a.cell
    _ = .cancelled := by simp [withHeap, heap, Heap.setState]

theorem cancelWait_move {s : World} (hs : Owned s) {h : Handle} {a : Awaiter}
    (hw : s.phase h = .waiting a) (hp : s.heap.state a.cell = .pending) (tls : Option LoopId) :
    MoveTo s (s.cancelWait h a tls) h a .cancelled := by
  rw [cancelWait_of_pending hp]
  set s₁ := s.withHeap (s.heap.setState a.cell .cancelled) with hs₁
  have hstill := withdraw_still s₁ a
  obtain ⟨hphase, hcells, hheap, hreactor, hslotmap, hlevels⟩ :=
    signal_frame (s₁.withdraw a) h a tls
  have hzero := hs.queue h
  simp only [QueueOk, hw] at hzero
  have henq : s₁.enqueued h = 0 := hzero.2 hp
  refine ⟨hw, hp, by decide, hphase.trans hstill.phase, hcells.trans hstill.cells,
    (congrArg Heap.state hheap).trans hstill.state,
    fun q _ => congrFun ((congrArg Heap.result hheap).trans hstill.result) q,
    (congrArg Heap.done hheap).trans hstill.done, fun _ hx => absurd hx (by decide),
    fun j c e he => ?_, fun id e he => ?_, fun hids id hid => ?_, ?_, fun k hk => ?_⟩
  · have he₃ : ((s₁.withdraw a).reactor.slotAt j).get c = some e := by
      rw [← hreactor]
      exact he
    have he₁ : (s.reactor.slotAt j).get c = some e := hstill.slots j c e he₃
    refine ⟨he₁, fun _ hcell => ?_⟩
    obtain ⟨k, b, hb, rfl, hd, hfd, -⟩ := hs.slot j c e he₁
    obtain ⟨-, rfl⟩ := hs.unique hb hw (Option.some.inj hcell)
    exact deregisterWait_slot he₃ ⟨hfd.symm, hd⟩
  · obtain ⟨hid, hl⟩ := entryAt_some he
    have he₃ : (s₁.withdraw a).entryAt id = some e := by
      rw [entryAt_eq hid, ← hl, lookup, lookup]
      exact congrArg (fun m => m.get? (idIndex id) (idGen id)) hslotmap.symm
    have he₁ : s.entryAt id = some e := hstill.entries id e he₃
    refine ⟨he₁, fun _ hcell => ?_⟩
    obtain ⟨k, b, hb, -, hcell', htimer, hcomp, -⟩ := hs.entry id e he₁
    rw [hcell] at hcell'
    obtain ⟨-, rfl⟩ := hs.unique hw hb (Option.some.inj hcell')
    have he₂ := (deregisterWait_still (s₁.cancelTimer a) a).entries id e he₃
    exact cancelTimer_entryAt (by simp [hcomp]) he₂ htimer.symm
  · refine hstill.ids hids id (present_of_bucket hid fun k r => ?_)
    exact congrArg (fun l => (l k).slots r) hlevels
  · have hle := signal_enqueued (s₁.withdraw a) h a tls
    rw [enqueued_congr (hstill.lines h), henq] at hle
    exact hle
  · exact (signal_lines_of_ne _ hk a tls).trans (hstill.lines k)

end Cancel
end World
end RainRuntime
