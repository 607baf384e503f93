import RainRuntime.WaitInvariant

/-!
# The steps of the world keep ownership

An await adds registrations that point to its own cell (`Added`) and suspends, or it
takes them back and goes on. A resumption takes the coroutine out of its awaiter once
nothing points there any more. With the batches of polls and ticks and the stop
callbacks this covers every step.
-/

namespace RainRuntime
namespace World
open HierarchicalTimerWheel

structure Added (s t : World) (h : Handle) (a : Awaiter) : Prop where
  phase : t.phase = s.phase
  cells : t.cells = s.cells
  heap : t.heap = s.heap
  slots : ∀ j c e, (t.reactor.slotAt j).get c = some e → (s.reactor.slotAt j).get c = some e ∨
    (e = ⟨some h, some a.cell, some a.cell, .ready⟩ ∧ a.kind.direction = some c ∧ a.fd = j)
  entries : ∀ id e, t.entryAt id = some e → s.entryAt id = some e ∨
    (e.handle = some h ∧ e.state = some a.cell ∧ a.timerId = id ∧
      a.kind.timerCompletion = some e.completion)
  ids : s.NarrowIds → t.NarrowIds
  lines : ∀ k, t.lines k = s.lines k

theorem Added.refl (s : World) (h : Handle) (a : Awaiter) : Added s s h a :=
  ⟨rfl, rfl, rfl, fun _ _ _ he => Or.inl he, fun _ _ he => Or.inl he, fun hids => hids,
    fun _ => rfl⟩

theorem Added.trans {s t u : World} {h : Handle} {a : Awaiter} (h₁ : Added s t h a)
    (h₂ : Added t u h a) : Added s u h a where
  phase := h₂.phase.trans h₁.phase
  cells := h₂.cells.trans h₁.cells
  heap := h₂.heap.trans h₁.heap
  slots j c e he := by
    rcases h₂.slots j c e he with he | hnew
    · exact h₁.slots j c e he
    · exact Or.inr hnew
  entries id e he := by
    rcases h₂.entries id e he with he | hnew
    · exact h₁.entries id e he
    · exact Or.inr hnew
  ids hids := h₂.ids (h₁.ids hids)
  lines k := (h₂.lines k).trans (h₁.lines k)

structure Ready (s : World) (h : Handle) (a : Awaiter) : Prop where
  running : ∃ on, s.phase h = .running on
  free : s.cells a.cell = none

theorem Owned.cell_ne {s : World} (hs : Owned s) {a : Awaiter} (hfree : s.cells a.cell = none)
    {k : Handle} {b : Awaiter} (hb : s.phase k = .waiting b) : b.cell ≠ a.cell := by
  intro hc
  have hcell := hs.cell k b hb
  rw [hc, hfree] at hcell
  cases hcell

theorem Added.owned_suspend {s t : World} {h : Handle} {a : Awaiter} (hadd : Added s t h a)
    (hs : Owned s) (hr : Ready s h a) (hp : s.heap.state a.cell = .pending) :
    Owned (t.suspend h a) := by
  obtain ⟨⟨on, hrun⟩, hfree⟩ := hr
  have hself : (t.suspend h a).phase h = .waiting a := Function.update_self _ _ _
  have hother : ∀ k, k ≠ h → (t.suspend h a).phase k = s.phase k := by
    intro k hk
    rw [← hadd.phase]
    exact Function.update_of_ne hk _ _
  have hold : ∀ k b, s.phase k = .waiting b → (t.suspend h a).phase k = .waiting b := by
    intro k b hb
    rw [hother k, hb]
    rintro rfl
    rw [hrun] at hb
    cases hb
  have hheap : (t.suspend h a).heap = s.heap := hadd.heap
  constructor
  case cell =>
    intro k b hb
    by_cases hk : k = h
    · subst hk
      rw [hself, Phase.waiting.injEq] at hb
      subst hb
      exact Function.update_self _ _ _
    · rw [hother k hk] at hb
      have hcell := hs.cell k b hb
      have hupd : (t.suspend h a).cells b.cell = t.cells b.cell :=
        Function.update_of_ne (hs.cell_ne hfree hb) _ _
      rw [hupd, hadd.cells]
      exact hcell
  case slot =>
    intro j c e he
    rcases hadd.slots j c e he with he | ⟨rfl, hd, hfd⟩
    · obtain ⟨k, b, hb, heq, hd, hfd, hstate⟩ := hs.slot j c e he
      refine ⟨k, b, hold k b hb, heq, hd, hfd, ?_⟩
      rw [hheap]
      exact hstate
    · refine ⟨h, a, hself, rfl, hd, hfd, Or.inl ?_⟩
      rw [hheap]
      exact hp
  case entry =>
    intro id e he
    rcases hadd.entries id e he with he | ⟨hhandle, hcell, hid, hcomp⟩
    · obtain ⟨k, b, hb, hhandle, hcell, hid, hcomp, hstate⟩ := hs.entry id e he
      refine ⟨k, b, hold k b hb, hhandle, hcell, hid, hcomp, ?_⟩
      rw [hheap]
      exact hstate
    · refine ⟨h, a, hself, hhandle, hcell, hid, hcomp, Or.inl ?_⟩
      rw [hheap]
      exact hp
  case ids => exact hadd.ids hs.ids
  case queue =>
    intro k
    have hk := hs.queue k
    have henq : (t.suspend h a).enqueued k = s.enqueued k := enqueued_congr (hadd.lines k)
    by_cases hkh : k = h
    · subst hkh
      simp only [QueueOk, hrun] at hk
      simp only [QueueOk, hself, henq, hk]
      exact ⟨by omega, fun _ => trivial⟩
    · simp only [QueueOk, hother k hkh, henq, hheap] at hk ⊢
      exact hk
  case result =>
    intro k b hb hdir hready
    rw [hheap] at hready ⊢
    by_cases hk : k = h
    · subst hk
      rw [hself, Phase.waiting.injEq] at hb
      subst hb
      rw [hp] at hready
      cases hready
    · rw [hother k hk] at hb
      exact hs.result k b hb hdir hready
  case done =>
    intro k hk
    rw [hheap]
    by_cases hkh : k = h
    · subst hkh
      exact hs.done k (Or.inl ⟨on, hrun⟩)
    · rw [hother k hkh] at hk
      exact hs.done k hk

section Register
open IoState

theorem registerWait_eq (s : World) (h : Handle) (a : Awaiter) (d : Direction) :
    ∃ negative busy, s.registerWait h a d =
      ((register d negative busy s.io a.fd ⟨some h, some a.cell, some a.cell, .ready⟩).1,
        s.withIo (register d negative busy s.io a.fd
          ⟨some h, some a.cell, some a.cell, .ready⟩).2) := by
  cases d with
  | read => exact ⟨_, _, rfl⟩
  | write => exact ⟨_, _, rfl⟩

theorem registerWait_added {s : World} {h : Handle} {a : Awaiter} {d : Direction}
    (hd : a.kind.direction = some d) : Added s (s.registerWait h a d).2 h a := by
  obtain ⟨negative, busy, heq⟩ := registerWait_eq s h a d
  obtain ⟨hheap, hready, hslots⟩ := register_spec d negative busy s.io a.fd
    ⟨some h, some a.cell, some a.cell, .ready⟩
  rw [heq]
  refine ⟨rfl, rfl, hheap, fun j c e he => ?_, fun _ _ he => Or.inl he, fun hids => hids,
    fun k => ?_⟩
  · rcases hslots j c e he with he | ⟨-, rfl, rfl, hj⟩
    · exact Or.inl he
    · exact Or.inr ⟨rfl, hd, hj⟩
  · simp only [World.lines, withIo, hready]
    rfl

theorem registerWait_still {s : World} {h : Handle} {a : Awaiter} {d : Direction}
    {e : SystemError} (he : (s.registerWait h a d).1 = .error e) :
    Still s (s.registerWait h a d).2 := by
  obtain ⟨negative, busy, heq⟩ := registerWait_eq s h a d
  obtain ⟨hheap, hready, hslots⟩ := register_spec d negative busy s.io a.fd
    ⟨some h, some a.cell, some a.cell, .ready⟩
  rw [heq] at he ⊢
  refine Still.of_io hheap hready fun j c e' he' => ?_
  rcases hslots j c e' he' with hold | ⟨hok, -⟩
  · exact hold
  · rw [show (register d negative busy s.io a.fd
      ⟨some h, some a.cell, some a.cell, .ready⟩).1 = .error e from he] at hok
    cases hok

end Register

section Schedule

theorem entryAt_scheduleAt {s : World} {deadline : ℤ} {h : Option Handle} {p : Option StatePtr}
    {c : WaitState} {id : TimerId} {e : TimerEntry}
    (he : ({ s with timer := s.timer.scheduleAt deadline h p c } : World).entryAt id = some e) :
    s.entryAt id = some e ∨
      (id = s.timer.wheel.nextId ∧ e.handle = h ∧ e.state = p ∧ e.completion = c) := by
  obtain ⟨hid, hl⟩ := entryAt_some he
  rw [lookup, TimerState.scheduleAt_slotmap] at hl
  have hins := s.timer.wheel.slotmap.get?_insert
    (fun i g => ⟨encodeId i g, deadline, h, p, c⟩) (idIndex id) (idGen id)
  rw [show (s.timer.wheel.allocate deadline h p c).slotmap = s.timer.wheel.slotmap.insert
    (fun i g => ⟨encodeId i g, deadline, h, p, c⟩) from rfl, hins] at hl
  split_ifs at hl with hnew
  · right
    have hindex : s.timer.wheel.slotmap.nextIndex < 2 ^ 24 := hnew.1 ▸ idIndex_lt id
    have hgen : s.timer.wheel.slotmap.nextGeneration < 2 ^ 40 := hnew.2 ▸ idGen_lt hid
    have hself : id = s.timer.wheel.nextId := by
      apply id_ext
      · rw [hnew.1, nextId, idIndex_encodeId hindex hgen]
      · rw [hnew.2, nextId, idGen_encodeId hindex hgen]
    have hentry := Option.some.inj hl
    exact ⟨hself, by rw [← hentry], by rw [← hentry], by rw [← hentry]⟩
  · left
    rw [entryAt_eq hid]
    exact hl

theorem present_scheduleAt {t : TimerState} {deadline : ℤ} {h : Option Handle}
    {p : Option StatePtr} {c : WaitState} {id : TimerId}
    (hid : (t.scheduleAt deadline h p c).wheel.Present id) :
    t.wheel.Present id ∨ id < 2 ^ 64 := by
  obtain ⟨k, r, hmem⟩ := hid
  rw [TimerState.bucket_scheduleAt, List.mem_append] at hmem
  rcases hmem with hmem | hmem
  · exact Or.inl ⟨k, r, hmem⟩
  · right
    split_ifs at hmem
    · rw [List.mem_singleton.mp hmem]
      exact encodeId_lt _ _
    · simp at hmem

theorem scheduleWait_snd (s : World) (h : Handle) (a : Awaiter) (delay : ℤ) (c : WaitState) :
    (s.scheduleWait h a delay c).2 = { s with
      timer := s.timer.scheduleAt (s.timer.wheel.currentTime + delay) (some h) (some a.cell) c } :=
  rfl

theorem scheduleWait_fst (s : World) (h : Handle) (a : Awaiter) (delay : ℤ) (c : WaitState) :
    (s.scheduleWait h a delay c).1 = { a with timerId := s.timer.wheel.nextId } := rfl

theorem scheduleWait_added {s : World} {h : Handle} {a : Awaiter} {delay : ℤ} {c : WaitState}
    (hc : a.kind.timerCompletion = some c) :
    Added s (s.scheduleWait h a delay c).2 h (s.scheduleWait h a delay c).1 := by
  have hready : (s.timer.scheduleAt (s.timer.wheel.currentTime + delay) (some h) (some a.cell)
      c).wheel.ready = s.timer.wheel.ready := (frame_place _ _ _).ready
  rw [scheduleWait_snd, scheduleWait_fst]
  constructor
  case phase => rfl
  case cells => rfl
  case heap => rfl
  case slots =>
    intro j d e he
    exact Or.inl he
  case entries =>
    intro id e he
    rcases entryAt_scheduleAt he with hold | ⟨hid, hhandle, hstate, hcomp⟩
    · exact Or.inl hold
    · refine Or.inr ⟨hhandle, hstate, ?_, ?_⟩
      · exact hid.symm
      · rw [hcomp]
        exact hc
  case ids =>
    intro hids id hid
    rcases present_scheduleAt hid with hold | hlt
    · exact hids id hold
    · exact hlt
  case lines =>
    intro k
    simp only [World.lines, hready]

end Schedule
/-- Ownership, who moved each state, and where a cancelled coroutine is queued. -/
structure Inv (s : World) : Prop where
  owned : Owned s
  movers : ∀ h a, s.phase h = .waiting a →
    (s.movers h = [] ∧ s.heap.state a.cell = .pending) ∨
    ∃ c, s.movers h = [c] ∧ a.kind.movesTo c = some (s.heap.state a.cell)
  cancels : ∀ h a, s.phase h = .waiting a → a.kind.direction.isSome →
    s.heap.state a.cell = .cancelled → ∃ tls, s.cancelledOn h = some tls ∧
      (s.lines h).1 = 0 ∧ (s.lines h).2.1 = 0 ∧
      (s.lines h).2.2.1 = if tls = some ownerLoop then 1 else 0

theorem Inv.of_still {s t : World} (hs : Inv s) (h : Still s t) (hm : t.movers = s.movers)
    (hc : t.cancelledOn = s.cancelledOn) : Inv t where
  owned := h.owned hs.owned
  movers := by
    rw [h.phase, h.state, hm]
    exact hs.movers
  cancels k b hb hdir hstate := by
    rw [h.phase] at hb
    rw [h.state] at hstate
    rw [h.lines, hc]
    exact hs.cancels k b hb hdir hstate

theorem Inv.movers_eq_nil {s : World} (hs : Inv s) {h : Handle} {a : Awaiter}
    (hw : s.phase h = .waiting a) (hp : s.heap.state a.cell = .pending) : s.movers h = [] := by
  rcases hs.movers h a hw with ⟨hnil, -⟩ | ⟨c, -, hc⟩
  · exact hnil
  · exact absurd hp (movesTo_ne_pending hc)

theorem Owned.enqueued_eq_zero {s : World} (hs : Owned s) {h : Handle} {a : Awaiter}
    (hw : s.phase h = .waiting a) (hp : s.heap.state a.cell = .pending) : s.enqueued h = 0 := by
  have hq := hs.queue h
  simp only [QueueOk, hw] at hq
  exact hq.2 hp

theorem lines_eq_zero {s : World} {h : Handle} (hz : s.enqueued h = 0) :
    s.lines h = (0, 0, 0, 0) := by
  simp only [enqueued] at hz
  ext <;> simp only <;> omega

theorem signal_lines {s : World} {h : Handle} {a : Awaiter} {tls : Option LoopId}
    (hz : s.enqueued h = 0) (hdir : a.kind.direction.isSome) :
    ((s.signal h a tls).lines h).1 = 0 ∧ ((s.signal h a tls).lines h).2.1 = 0 ∧
      ((s.signal h a tls).lines h).2.2.1 = if tls = some ownerLoop then 1 else 0 := by
  have hnotify : s.signal h a tls = s.notify tls h := by
    unfold signal
    cases hk : a.kind <;> simp [hk, WaitKind.direction] at hdir ⊢
  have hlines := lines_eq_zero hz
  simp only [World.lines, Prod.mk.injEq] at hlines
  rw [hnotify]
  unfold notify
  cases tls with
  | none => simp [World.lines, hlines]
  | some l =>
    by_cases hl : l = ownerLoop
    · simp [World.lines, hlines, hl]
    · simp [World.lines, hlines, hl]

theorem signal_ghosts (s : World) (h : Handle) (a : Awaiter) (tls : Option LoopId) :
    (s.signal h a tls).movers = s.movers ∧ (s.signal h a tls).cancelledOn = s.cancelledOn := by
  unfold signal notify
  cases a.kind with
  | sleep => exact ⟨rfl, rfl⟩
  | _ =>
    cases tls with
    | none => exact ⟨rfl, rfl⟩
    | some l => dsimp only; split_ifs <;> exact ⟨rfl, rfl⟩

theorem cancelTimer_ghosts (s : World) (a : Awaiter) :
    (s.cancelTimer a).movers = s.movers ∧ (s.cancelTimer a).cancelledOn = s.cancelledOn := by
  unfold cancelTimer
  cases a.kind.timerCompletion <;> exact ⟨rfl, rfl⟩

theorem deregisterWait_ghosts (s : World) (a : Awaiter) :
    (s.deregisterWait a).movers = s.movers ∧
      (s.deregisterWait a).cancelledOn = s.cancelledOn := by
  unfold deregisterWait
  cases a.kind.direction <;> exact ⟨rfl, rfl⟩

theorem cancelWait_ghosts {s : World} (h : Handle) {a : Awaiter} (tls : Option LoopId)
    (hp : s.heap.state a.cell = .pending) :
    (s.cancelWait h a tls).movers =
        Function.update s.movers h (.cancellation :: s.movers h) ∧
      (s.cancelWait h a tls).cancelledOn = Function.update s.cancelledOn h (some tls) := by
  rw [cancelWait_of_pending hp]
  set s₁ := s.withHeap (s.heap.setState a.cell .cancelled)
  obtain ⟨hm₁, hc₁⟩ := cancelTimer_ghosts s₁ a
  obtain ⟨hm₂, hc₂⟩ := deregisterWait_ghosts (s₁.cancelTimer a) a
  obtain ⟨hm₃, hc₃⟩ := signal_ghosts (s₁.withdraw a) h a tls
  have hm : ((s₁.withdraw a).signal h a tls).movers = s.movers := hm₃.trans (hm₂.trans hm₁)
  have hc : ((s₁.withdraw a).signal h a tls).cancelledOn = s.cancelledOn :=
    hc₃.trans (hc₂.trans hc₁)
  simp only [mark, hm, hc, and_self]

theorem Inv.cancelWait {s : World} (hs : Inv s) {h : Handle} {a : Awaiter}
    (hw : s.phase h = .waiting a) (tls : Option LoopId) : Inv (s.cancelWait h a tls) := by
  by_cases hp : s.heap.state a.cell = .pending
  · have hmove := cancelWait_move hs.owned hw hp tls
    have hz := hs.owned.enqueued_eq_zero hw hp
    have hnil := hs.movers_eq_nil hw hp
    obtain ⟨hmov, hcan⟩ := cancelWait_ghosts h tls hp
    constructor
    case owned => exact hmove.owned hs.owned
    case movers =>
      intro k b hb
      rw [hmove.phase] at hb
      rw [hmov]
      by_cases hk : k = h
      · subst hk
        rw [hw, Phase.waiting.injEq] at hb
        subst hb
        rw [Function.update_self, hnil, hmove.state_self]
        exact Or.inr ⟨.cancellation, rfl, rfl⟩
      · rw [Function.update_of_ne hk, hmove.state_of_ne hs.owned hb hk]
        exact hs.movers k b hb
    case cancels =>
      intro k b hb hdir hstate
      rw [hmove.phase] at hb
      rw [hcan]
      by_cases hk : k = h
      · subst hk
        rw [hw, Phase.waiting.injEq] at hb
        subst hb
        rw [Function.update_self, cancelWait_of_pending hp]
        have hz' : ((s.withHeap (s.heap.setState a.cell .cancelled)).withdraw a).enqueued
            k = 0 := by
          rw [enqueued_congr ((withdraw_still _ a).lines k)]
          exact hz
        exact ⟨tls, rfl, signal_lines hz' hdir⟩
      · rw [hmove.state_of_ne hs.owned hb hk] at hstate
        rw [Function.update_of_ne hk, hmove.lines k hk]
        exact hs.cancels k b hb hdir hstate
  · rw [cancelWait_of_moved hp]
    exact hs

theorem Inv.record {c : Contender} (hc : c ≠ .cancellation) {s t : World} (hs : Inv s)
    (hb : Batch c s t) (hm : t.movers = s.movers) (hon : t.cancelledOn = s.cancelledOn) :
    Inv (s.record t c) := by
  have ht := hb.owned hs.owned
  obtain ⟨hphase, heffect⟩ := hb.effect hs.owned
  constructor
  case owned => exact ⟨ht.cell, ht.slot, ht.entry, ht.ids, ht.queue, ht.result, ht.done⟩
  case movers =>
    intro k b hk
    have hk' : s.phase k = .waiting b := hphase ▸ hk
    have hrec : (s.record t c).movers k = if t.heap.state b.cell = s.heap.state b.cell
        then s.movers k else c :: s.movers k := by
      simp only [World.record, hk', hm]
    have hheap : (s.record t c).heap = t.heap := rfl
    rw [hrec, hheap]
    rcases heffect k b hk' with ⟨hstate, -⟩ | ⟨hpend, hmoves⟩
    · rw [if_pos hstate, hstate]
      exact hs.movers k b hk'
    · have hne : t.heap.state b.cell ≠ s.heap.state b.cell := by
        rw [hpend]
        exact movesTo_ne_pending hmoves
      rw [if_neg hne, hs.movers_eq_nil hk' hpend]
      exact Or.inr ⟨c, rfl, hmoves⟩
  case cancels =>
    intro k b hk hdir hstate
    have hk' : s.phase k = .waiting b := hphase ▸ hk
    have hstate' : t.heap.state b.cell = .cancelled := hstate
    have hlines : (s.record t c).lines k = t.lines k := rfl
    have hcan : (s.record t c).cancelledOn = s.cancelledOn := hon
    rw [hlines, hcan]
    rcases heffect k b hk' with ⟨hsame, hl⟩ | ⟨hpend, hmoves⟩
    · rw [hl]
      exact hs.cancels k b hk' hdir (hsame ▸ hstate')
    · rw [hstate'] at hmoves
      cases c with
      | cancellation => exact absurd rfl hc
      | readiness => simp [WaitKind.movesTo] at hmoves
      | timer =>
        cases hkind : b.kind <;> simp [hkind, WaitKind.movesTo, WaitKind.timerCompletion] at hmoves

theorem Inv.suspend {s t : World} {h : Handle} {a : Awaiter} (hs : Inv s) (hadd : Added s t h a)
    (hr : Ready s h a) (hp : s.heap.state a.cell = .pending) (hnil : s.movers h = [])
    (hm : t.movers = s.movers) (hon : t.cancelledOn = s.cancelledOn) : Inv (t.suspend h a) := by
  have hself : (t.suspend h a).phase h = .waiting a := Function.update_self _ _ _
  have hother : ∀ k, k ≠ h → (t.suspend h a).phase k = s.phase k := by
    intro k hk
    rw [← hadd.phase]
    exact Function.update_of_ne hk _ _
  have hheap : (t.suspend h a).heap = s.heap := hadd.heap
  have hmov : (t.suspend h a).movers = s.movers := hm
  have hcan : (t.suspend h a).cancelledOn = s.cancelledOn := hon
  have hlines : ∀ k, (t.suspend h a).lines k = s.lines k := hadd.lines
  constructor
  case owned => exact hadd.owned_suspend hs.owned hr hp
  case movers =>
    intro k b hb
    rw [hmov, hheap]
    by_cases hk : k = h
    · subst hk
      rw [hself, Phase.waiting.injEq] at hb
      subst hb
      exact Or.inl ⟨hnil, hp⟩
    · rw [hother k hk] at hb
      exact hs.movers k b hb
  case cancels =>
    intro k b hb hdir hstate
    rw [hheap] at hstate
    rw [hlines, hcan]
    by_cases hk : k = h
    · subst hk
      rw [hself, Phase.waiting.injEq] at hb
      subst hb
      rw [hp] at hstate
      cases hstate
    · rw [hother k hk] at hb
      exact hs.cancels k b hb hdir hstate

structure Others (s t : World) (h : Handle) : Prop where
  phase : ∀ k, k ≠ h → t.phase k = s.phase k
  state : ∀ k b, k ≠ h → s.phase k = .waiting b → t.heap.state b.cell = s.heap.state b.cell
  done : ∀ k, k ≠ h → t.heap.done k = s.heap.done k
  lines : ∀ k, k ≠ h → t.lines k = s.lines k

theorem Others.trans {s t u : World} {h : Handle} (h₁ : Others s t h) (h₂ : Others t u h) :
    Others s u h where
  phase k hk := (h₂.phase k hk).trans (h₁.phase k hk)
  state k b hk hb := (h₂.state k b hk ((h₁.phase k hk).trans hb)).trans (h₁.state k b hk hb)
  done k hk := (h₂.done k hk).trans (h₁.done k hk)
  lines k hk := (h₂.lines k hk).trans (h₁.lines k hk)

theorem cancelWait_others {s : World} (hs : Owned s) {h : Handle} {a : Awaiter}
    (hw : s.phase h = .waiting a) (tls : Option LoopId) : Others s (s.cancelWait h a tls) h := by
  by_cases hp : s.heap.state a.cell = .pending
  · have hmove := cancelWait_move hs hw hp tls
    exact ⟨fun k _ => congrFun hmove.phase k, fun k b hk hb => hmove.state_of_ne hs hb hk,
      fun k _ => congrFun hmove.done k, hmove.lines⟩
  · rw [cancelWait_of_moved hp]
    exact ⟨fun _ _ => rfl, fun _ _ _ _ => rfl, fun _ _ => rfl, fun _ _ => rfl⟩

theorem Added.others_suspend {s t : World} {h : Handle} {a : Awaiter} (hadd : Added s t h a)
    (b : Awaiter) : Others s (t.suspend h b) h where
  phase k hk := (Function.update_of_ne hk _ _).trans (congrFun hadd.phase k)
  state _ b _ _ := congrFun (congrArg Heap.state hadd.heap) b.cell
  done k _ := congrFun (congrArg Heap.done hadd.heap) k
  lines k _ := hadd.lines k

/-- The coroutine `h` leaves its awaiter, if it was in one, for the phase `p`. Only what
belongs to `h` may change. -/
structure Leave (s t : World) (h : Handle) (p : Phase) : Prop where
  settled : ∀ b, p ≠ .waiting b
  phase : t.phase = Function.update s.phase h p
  cells : ∀ k b, k ≠ h → s.phase k = .waiting b → t.cells b.cell = s.cells b.cell
  state : ∀ k b, k ≠ h → s.phase k = .waiting b → t.heap.state b.cell = s.heap.state b.cell
  result : ∀ k b, k ≠ h → s.phase k = .waiting b → t.heap.result b.cell = s.heap.result b.cell
  done : ∀ k, k ≠ h → t.heap.done k = s.heap.done k
  active : (∃ on, p = .running on) → t.heap.done h = false
  slots : ∀ i d e, (t.reactor.slotAt i).get d = some e →
    (s.reactor.slotAt i).get d = some e ∧ e.handle ≠ some h
  entries : ∀ id e, t.entryAt id = some e → s.entryAt id = some e ∧ e.handle ≠ some h
  ids : s.NarrowIds → t.NarrowIds
  lines : ∀ k, k ≠ h → t.lines k = s.lines k
  queue : t.QueueOk h
  movers : ∀ k, k ≠ h → t.movers k = s.movers k
  cancelledOn : ∀ k, k ≠ h → t.cancelledOn k = s.cancelledOn k

section Leave
variable {s t : World} {h : Handle} {p : Phase}

theorem Leave.phase_of_ne (hl : Leave s t h p) {k : Handle} (hk : k ≠ h) :
    t.phase k = s.phase k := by
  rw [hl.phase, Function.update_of_ne hk]

theorem Leave.waiting (hl : Leave s t h p) {k : Handle} {b : Awaiter}
    (hb : t.phase k = .waiting b) : k ≠ h ∧ s.phase k = .waiting b := by
  have hk : k ≠ h := by
    rintro rfl
    rw [hl.phase, Function.update_self] at hb
    exact hl.settled b hb
  exact ⟨hk, hl.phase_of_ne hk ▸ hb⟩

theorem Leave.owned (hl : Leave s t h p) (hs : Owned s) : Owned t := by
  constructor
  case cell =>
    intro k b hb
    obtain ⟨hk, hb⟩ := hl.waiting hb
    rw [hl.cells k b hk hb]
    exact hs.cell k b hb
  case slot =>
    intro i d e he
    obtain ⟨he, hne⟩ := hl.slots i d e he
    obtain ⟨k, b, hb, rfl, hrest⟩ := hs.slot i d e he
    have hk : k ≠ h := fun hk => hne (congrArg some hk)
    refine ⟨k, b, (hl.phase_of_ne hk).trans hb, rfl, ?_⟩
    rw [hl.state k b hk hb]
    exact hrest
  case entry =>
    intro id e he
    obtain ⟨he, hne⟩ := hl.entries id e he
    obtain ⟨k, b, hb, hhandle, hrest⟩ := hs.entry id e he
    have hk : k ≠ h := fun hk => hne (hk ▸ hhandle)
    refine ⟨k, b, (hl.phase_of_ne hk).trans hb, hhandle, ?_⟩
    rw [hl.state k b hk hb]
    exact hrest
  case ids => exact hl.ids hs.ids
  case queue =>
    intro k
    have hk := hs.queue k
    by_cases hkh : k = h
    · rw [hkh]
      exact hl.queue
    · simp only [QueueOk, hl.phase_of_ne hkh, enqueued_congr (hl.lines k hkh)] at hk ⊢
      cases hp : s.phase k with
      | waiting b =>
        simp only [hp] at hk ⊢
        rw [hl.state k b hkh hp]
        exact hk
      | _ =>
        simp only [hp] at hk ⊢
        exact hk
  case result =>
    intro k b hb
    obtain ⟨hk, hb⟩ := hl.waiting hb
    rw [hl.state k b hk hb, hl.result k b hk hb]
    exact hs.result k b hb
  case done =>
    intro k hk
    by_cases hkh : k = h
    · subst hkh
      rw [hl.phase, Function.update_self] at hk
      rcases hk with hrun | ⟨b, hb⟩
      · exact hl.active hrun
      · exact absurd hb (hl.settled b)
    · rw [hl.phase_of_ne hkh] at hk
      rw [hl.done k hkh]
      exact hs.done k hk

theorem Leave.others (hl : Leave s t h p) : Others s t h :=
  ⟨fun _ hk => hl.phase_of_ne hk, hl.state, hl.done, hl.lines⟩

theorem Leave.inv (hl : Leave s t h p) (hs : Inv s) : Inv t := by
  constructor
  case owned => exact hl.owned hs.owned
  case movers =>
    intro k b hb
    obtain ⟨hk, hb⟩ := hl.waiting hb
    rw [hl.movers k hk, hl.state k b hk hb]
    exact hs.movers k b hb
  case cancels =>
    intro k b hb
    obtain ⟨hk, hb⟩ := hl.waiting hb
    rw [hl.state k b hk hb, hl.lines k hk, hl.cancelledOn k hk]
    exact hs.cancels k b hb

end Leave

end World
end RainRuntime
