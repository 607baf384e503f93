import RainRuntime.OwnSlots
import RainRuntime.WaitOutcome

/-!
# Timed out waits in the loop

Between the timer that ends a wait and the resumption of the coroutine the slot in the
reactor still holds its entry. A poll in between could empty the slot and somebody else
could take it. `run()` does not get there: it advances the wheel, takes over what the wheel
has made ready and resumes all of it before it polls again. `Prompt` says where a timed out
coroutine is queued at each place of the loop.
-/

namespace RainRuntime
namespace World
open HierarchicalTimerWheel

/-- The timer has ended the wait and the coroutine has not been resumed. -/
def Overdue (s : World) (h : Handle) : Prop :=
  ∃ a, s.phase h = .waiting a ∧ s.heap.state a.cell = .timedOut

section Overdue
variable {s t u : World} {h k : Handle}

theorem Overdue.of_others (ho : t.Overdue k) (hothers : Others s t h) (hk : k ≠ h) :
    s.Overdue k := by
  obtain ⟨a, hw, hst⟩ := ho
  rw [hothers.phase k hk] at hw
  rw [hothers.state k a hk hw] at hst
  exact ⟨a, hw, hst⟩

theorem Overdue.of_leave {p : Phase} (ho : t.Overdue k) (hl : Leave s t h p) :
    s.Overdue k ∧ k ≠ h := by
  have hk : k ≠ h := by
    obtain ⟨a, hw, -⟩ := ho
    exact (hl.waiting hw).1
  exact ⟨ho.of_others hl.others hk, hk⟩

theorem Overdue.of_enqueue (ho : (s.enqueue h).Overdue k) : s.Overdue k := by
  obtain ⟨a, hw, hst⟩ := ho
  by_cases hk : k = h
  · subst hk
    have hself : (s.enqueue k).phase k = .queued := Function.update_self _ _ _
    rw [hself] at hw
    cases hw
  · rw [enqueue_phase_of_ne hk] at hw
    exact ⟨a, hw, hst⟩

theorem Overdue.of_enqueues {l : List Handle} (ho : (l.foldl enqueue s).Overdue k) :
    s.Overdue k := by
  induction l generalizing s with
  | nil => exact ho
  | cons h l ih => exact (ih ho).of_enqueue

theorem Holds.enqueue (hh : Holds s) (h : Handle) : Holds (s.enqueue h) := by
  rintro j b d ⟨hw, hd, hst⟩
  by_cases hj : j = h
  · subst hj
    have hself : (s.enqueue j).phase j = .queued := Function.update_self _ _ _
    rw [hself] at hw
    cases hw
  · rw [enqueue_phase_of_ne hj] at hw
    exact hh j b d ⟨hw, hd, hst⟩

theorem Holds.enqueues (hh : Holds s) (l : List Handle) : Holds (l.foldl World.enqueue s) := by
  induction l generalizing s with
  | nil => exact hh
  | cons h l ih => exact ih (hh.enqueue h)

/-- Only the wheel makes a coroutine overdue, and its resumption ends that. -/
theorem overdue_of_step {op : WorldOp} (hs : Inv s) (hstep : step s op = some t)
    (hne : ¬s.Disowns op) (htick : op ≠ .tick) (hadv : ∀ target, op ≠ .advanceTo target)
    (ho : t.Overdue k) : s.Overdue k ∧ ∀ sys, op = .resume sys → s.actor op ≠ some k := by
  cases op with
  | wake h =>
    obtain ⟨hph, rfl⟩ := step_wake.mp hstep
    exact ⟨(ho.of_leave (Leave.wake hs.owned hph)).1, by simp⟩
  | park h =>
    obtain ⟨on, hph, rfl⟩ := step_park.mp hstep
    exact ⟨(ho.of_leave (Leave.park hs.owned hph)).1, by simp⟩
  | finish h =>
    obtain ⟨on, hph, rfl⟩ := step_finish.mp hstep
    exact ⟨(ho.of_leave (Leave.finish hs.owned hph)).1, by simp⟩
  | await h kind fd cell token sys =>
    obtain ⟨hjoins, hothers⟩ := await_joins hs hstep hne
    refine ⟨ho.of_others hothers ?_, by simp⟩
    rintro rfl
    obtain ⟨a, hw, hst⟩ := ho
    exact hjoins.fresh a hw hst
  | poll report =>
    rw [World.step, Option.some.injEq] at hstep
    subst hstep
    obtain ⟨a, hw, hst⟩ := ho
    have hb := poll_batch hs.owned report
    obtain ⟨hphase, heffect⟩ := hb.effect hs.owned
    have hw' : s.phase k = .waiting a := hw
    refine ⟨⟨a, hw', ?_⟩, by simp⟩
    rcases heffect k a hw' with ⟨hsame, -⟩ | ⟨-, hmoves⟩
    · exact hsame.symm.trans hst
    · have hmoves' : a.kind.movesTo .readiness = some .timedOut := hmoves.trans (congrArg some hst)
      cases hdir : a.kind.direction <;> simp [WaitKind.movesTo, hdir] at hmoves'
  | tick => exact absurd rfl htick
  | advanceTo target => exact absurd rfl (hadv target)
  | drainReactor =>
    rw [World.step, Option.some.injEq] at hstep
    subst hstep
    exact ⟨ho, by simp⟩
  | drainTimer =>
    rw [World.step, Option.some.injEq] at hstep
    subst hstep
    exact ⟨ho, by simp⟩
  | resume sys =>
    obtain ⟨h, rest, hr, rfl⟩ := step_resume.mp hstep
    obtain ⟨p, hl⟩ := (popped_ready hr).resume hs ownerLoop sys
    obtain ⟨ho', hk⟩ := ho.of_leave hl
    refine ⟨ho', fun _ _ hact => ?_⟩
    rw [actor, hr] at hact
    exact hk (Option.some.inj hact).symm
  | resumeForeign sys =>
    obtain ⟨entry, rest, hr, rfl⟩ := step_resumeForeign.mp hstep
    obtain ⟨p, hl⟩ := (popped_foreign hr).resume hs entry.1 sys
    exact ⟨(ho.of_leave hl).1, by simp⟩
  | requestStop src tls =>
    obtain ⟨-, rfl⟩ := step_requestStop.mp hstep
    exact ⟨ho, by simp⟩
  | callback h =>
    obtain ⟨a, src, tls, hw, -, -, -, rfl⟩ := step_callback.mp hstep
    obtain ⟨-, hothers, -⟩ := hs.callback hw tls rfl
    refine ⟨?_, by simp⟩
    by_cases hk : k = h
    · subst hk
      obtain ⟨b, hb, hst⟩ := ho
      have hself : ((s.cancelWait k a tls).setPhase k (.waiting { a with callback := false })).phase
          k = .waiting { a with callback := false } := Function.update_self _ _ _
      rw [hself, Phase.waiting.injEq] at hb
      subst hb
      have hst' : (s.cancelWait k a tls).heap.state a.cell = .timedOut := hst
      by_cases hp : s.heap.state a.cell = .pending
      · rw [cancelWait_state k hp] at hst'
        cases hst'
      · rw [cancelWait_of_moved hp] at hst'
        exact ⟨a, hw, hst'⟩
    · exact ho.of_others hothers hk
  | deregister fd =>
    rw [World.step, Option.some.injEq] at hstep
    subst hstep
    exact ⟨ho, by simp⟩
  | remove fd =>
    rw [World.step, Option.some.injEq] at hstep
    subst hstep
    obtain ⟨a, hw, hst⟩ := ho
    rw [(remove_still s fd).state] at hst
    exact ⟨⟨a, hw, hst⟩, by simp⟩
  | kernel k =>
    rw [World.step, Option.some.injEq] at hstep
    subst hstep
    exact ⟨ho, by simp⟩

end Overdue

/-! ## What the wheel ends it makes ready -/

structure Rings (s t : World) : Prop where
  phase : t.phase = s.phase
  ready : s.timer.wheel.ready ⊆ t.timer.wheel.ready
  rung : ∀ k b, s.phase k = .waiting b →
    t.heap.state b.cell = s.heap.state b.cell ∨ k ∈ t.timer.wheel.ready

section Rings
variable {s t u : World}

theorem Rings.refl (s : World) : Rings s s := ⟨rfl, fun _ h => h, fun _ _ _ => Or.inl rfl⟩

theorem Rings.trans (h : Rings s t) (h' : Rings t u) : Rings s u where
  phase := h'.phase.trans h.phase
  ready _ hk := h'.ready (h.ready hk)
  rung k b hb := by
    rcases h.rung k b hb with hst | hk
    · rcases h'.rung k b (by rw [h.phase]; exact hb) with hst' | hk
      · exact Or.inl (hst'.trans hst)
      · exact Or.inr hk
    · exact Or.inr (h'.ready hk)

theorem Rings.of_timer {t : TimerState} (hheap : t.heap = s.heap)
    (hready : t.wheel.ready = s.timer.wheel.ready) : Rings s { s with timer := t } where
  phase := rfl
  ready k hk := by
    change k ∈ t.wheel.ready
    rw [hready]
    exact hk
  rung k b _ := Or.inl (by rw [heap, hheap])

theorem visit_rings (hs : Owned s) {id : TimerId} (hid : id < 2 ^ 64) :
    Rings s { s with timer := s.timer.visit id } := by
  cases hl : s.timer.wheel.lookup id with
  | none =>
    rw [TimerState.visit_of_stale hl]
    exact Rings.refl s
  | some e =>
    obtain ⟨h, a, hw, hhandle, hcell, -, -, -⟩ := hs.entry id e (by rw [entryAt_eq hid, hl])
    by_cases hp : s.heap.state a.cell = .pending
    · have hdone : s.heap.done h = false := hs.done h (Or.inr ⟨a, hw⟩)
      obtain ⟨hheap, hwheel⟩ := visit_of_pending hl hhandle hcell hp hdone
      have hready : (s.timer.visit id).wheel.ready = s.timer.wheel.ready ++ [h] := by
        rw [hwheel]
        rfl
      refine ⟨rfl, fun k hk => ?_, fun k b hb => ?_⟩
      · change k ∈ (s.timer.visit id).wheel.ready
        rw [hready]
        exact List.mem_append_left _ hk
      · by_cases hk : k = h
        · right
          change k ∈ (s.timer.visit id).wheel.ready
          rw [hready, hk]
          simp
        · left
          change (s.timer.visit id).heap.state b.cell = _
          rw [hheap]
          exact Function.update_of_ne (fun hc => hk (hs.unique hb hw hc).1) _ _
    · obtain ⟨hheap, hwheel⟩ := visit_of_moved hl hcell hp
      exact Rings.of_timer hheap (by rw [hwheel]; rfl)

theorem visits_rings (ids : List TimerId) (hs : Owned s) (hids : ∀ id ∈ ids, id < 2 ^ 64) :
    Rings s { s with timer := ids.foldl TimerState.visit s.timer } := by
  induction ids generalizing s with
  | nil => exact Rings.refl s
  | cons id ids ih =>
    have hid := hids id List.mem_cons_self
    exact (visit_rings hs hid).trans
      (ih ((visit_batch hs hid).owned hs) fun j hj => hids j (List.mem_cons_of_mem _ hj))

theorem tick_rings (hs : Owned s) : Rings s { s with timer := s.timer.tick } := by
  have hopen : Rings s { s with timer := s.timer.opened } :=
    Rings.of_timer rfl (opened_ready s.timer)
  have hscan := visits_rings s.timer.scanned ((opened_still s).owned hs) fun id => hs.scanned_lt
  refine (hopen.trans hscan).trans ?_
  rw [TimerState.tick_eq]
  exact Rings.of_timer rfl rfl

theorem advanceTo_rings (hs : Owned s) (target : ℤ) :
    Rings s { s with timer := s.timer.advanceTo target } := by
  have hboth : Rings s { s with timer := s.timer.advanceTo target } ∧
      Owned { s with timer := s.timer.advanceTo target } := by
    refine TimerState.advanceTo_rule (fun t => Rings s { s with timer := t } ∧
      Owned { s with timer := t }) (fun t ht => ?_) target ⟨Rings.refl s, hs⟩
    exact ⟨ht.1.trans (tick_rings ht.2), (tick_batch ht.2).owned ht.2⟩
  exact hboth.1

/-- With nobody overdue before, the wheel has everybody who is overdue afterwards. -/
theorem overdue_advanceTo (hs : Owned s) {target : ℤ} (hnone : ∀ h, ¬s.Overdue h) {h : Handle}
    (ho : ({ s with timer := s.timer.advanceTo target } : World).Overdue h) :
    h ∈ (s.timer.advanceTo target).wheel.ready := by
  obtain ⟨a, hw, hst⟩ := ho
  rcases (advanceTo_rings hs target).rung h a hw with hsame | hmem
  · exact absurd ⟨a, hw, hsame.symm.trans hst⟩ (hnone h)
  · exact hmem

end Rings

/-! ## The queues only grow at the end -/

def Appends (s t : World) : Prop := Grows s t ∧ s.timer.wheel.ready <+: t.timer.wheel.ready

section Appends
variable {s t u : World}

theorem Appends.of_grows (hg : Grows s t) (hw : t.timer.wheel.ready = s.timer.wheel.ready) :
    Appends s t := ⟨hg, by rw [hw]⟩

theorem appends_rule (tls : Option LoopId) : Rule Appends tls where
  refl s := Appends.of_grows ((grows_rule tls).refl s) rfl
  trans h h' := ⟨(grows_rule tls).trans h.1 h'.1, h.2.trans h'.2⟩
  io s i := Appends.of_grows ((grows_rule tls).io s i) rfl
  cancel s id := Appends.of_grows ((grows_rule tls).cancel s id) (timer_cancel_spec s.timer id).2.1
  schedule s d h p c := Appends.of_grows ((grows_rule tls).schedule s d h p c) rfl
  signal s h a := by
    refine ⟨signal_grows s h a tls, ?_⟩
    unfold signal notify
    cases a.kind with
    | sleep => exact List.prefix_append s.timer.wheel.ready [h]
    | _ =>
      cases tls with
      | none => exact List.prefix_rfl
      | some l =>
        dsimp only
        split_ifs <;> exact List.prefix_rfl
  mark s h := Appends.of_grows ((grows_rule tls).mark s h) rfl
  suspend s h a := Appends.of_grows ((grows_rule tls).suspend s h a) rfl
  go s h on q o hon := Appends.of_grows ((grows_rule tls).go s h on q o hon) rfl
  unmark s h := Appends.of_grows ((grows_rule tls).unmark s h) rfl
  run s h on hon := Appends.of_grows ((grows_rule tls).run s h on hon) rfl

theorem step_appends {op : WorldOp} (hstep : step s op = some t)
    (hop : ∀ sys, op ≠ .resume sys) (htick : op ≠ .tick) (hadv : ∀ target, op ≠ .advanceTo target)
    (hdrain : op ≠ .drainTimer) : Appends s t := by
  have hgrows := step_grows hstep hop
  cases op with
  | wake h =>
    obtain ⟨-, rfl⟩ := step_wake.mp hstep
    exact Appends.of_grows hgrows rfl
  | park h =>
    obtain ⟨on, -, rfl⟩ := step_park.mp hstep
    exact Appends.of_grows hgrows rfl
  | finish h =>
    obtain ⟨on, -, rfl⟩ := step_finish.mp hstep
    exact Appends.of_grows hgrows rfl
  | await h kind fd cell token sys =>
    obtain ⟨on, -, -, rfl⟩ := step_await.mp hstep
    exact (appends_rule (some on)).await s h kind fd cell token sys
  | tick => exact absurd rfl htick
  | advanceTo target => exact absurd rfl (hadv target)
  | drainTimer => exact absurd rfl hdrain
  | resume sys => exact absurd rfl (hop sys)
  | resumeForeign sys =>
    obtain ⟨entry, rest, -, rfl⟩ := step_resumeForeign.mp hstep
    exact (appends_rule (some entry.1)).resume { s with foreign := rest } entry.2 sys
  | requestStop src tls =>
    obtain ⟨-, rfl⟩ := step_requestStop.mp hstep
    exact Appends.of_grows hgrows rfl
  | callback h =>
    obtain ⟨a, src, tls, -, -, -, -, rfl⟩ := step_callback.mp hstep
    exact (appends_rule tls).cancelWait s h a
  | _ =>
    rw [World.step, Option.some.injEq] at hstep
    subst hstep
    exact Appends.of_grows hgrows rfl

end Appends
end World

def LoopOp.keepsOpen : LoopOp → Bool
  | .world op => op.keepsOpen
  | _ => true

namespace EventLoop

/-- Where the overdue coroutines are queued at each place of `run()`. -/
def overdueQueue (s : EventLoop) : List Handle :=
  match s.pc with
  | .drainTimer => s.world.timer.wheel.ready
  | .drainCrossCore | .head | .leaving | .outside _ => s.world.ready
  | .resuming => s.world.ready.take s.batch
  | _ => []

def Prompt (s : EventLoop) : Prop := ∀ h, s.world.Overdue h → h ∈ s.overdueQueue

def Disowns (s : EventLoop) : LoopOp → Prop
  | .world op => s.world.Disowns op
  | _ => False

def actor (s : EventLoop) : LoopOp → Option Handle
  | .resume sys => s.world.actor (.resume sys)
  | .world op => s.world.actor op
  | _ => none

section Prompt
variable {s t : EventLoop}

theorem Prompt.none_of_nil (hp : Prompt s) (hq : s.overdueQueue = []) (h : Handle) :
    ¬s.world.Overdue h := by
  intro ho
  have hmem := hp h ho
  rw [hq] at hmem
  cases hmem

theorem mem_take_append {l m : List Handle} {n : ℕ} {h : Handle} (hm : h ∈ l.take n) :
    h ∈ (l ++ m).take n := by
  rw [List.take_append]
  exact List.mem_append_left _ hm

theorem Prompt.of_appends (hp : Prompt s) (hpc : t.pc = s.pc) (hbatch : t.batch = s.batch)
    (hback : ∀ h, t.world.Overdue h → s.world.Overdue h) (ha : s.world.Appends t.world) :
    Prompt t := by
  intro h ho
  have hmem := hp h (hback h ho)
  obtain ⟨⟨l, hl⟩, m, hm⟩ := ha
  unfold overdueQueue at hmem ⊢
  rw [hpc]
  cases hs : s.pc with
  | drainTimer =>
    rw [hs] at hmem
    dsimp only at hmem ⊢
    rw [← hm]
    exact List.mem_append_left _ hmem
  | resuming =>
    rw [hs] at hmem
    dsimp only at hmem ⊢
    rw [← hl, hbatch]
    exact mem_take_append hmem
  | drainCrossCore | head | leaving | outside =>
    rw [hs] at hmem
    dsimp only at hmem ⊢
    rw [← hl]
    exact List.mem_append_left _ hmem
  | _ =>
    rw [hs] at hmem
    cases hmem

theorem Prompt.of_nil (hp : Prompt s) (hq : s.overdueQueue = [])
    (h : ∀ k, t.world.Overdue k → s.world.Overdue k) : Prompt t :=
  fun k ho => absurd (h k ho) (hp.none_of_nil hq k)

theorem Prompt.step (hp : Prompt s) (hi : World.Inv s.world) {op : LoopOp}
    (hne : ¬s.Disowns op) (h : step s op = some t) : Prompt t := by
  cases step_move h with
  | run hpc | stop hpc | leave hpc =>
    intro k ho
    have hmem := hp k ho
    rw [overdueQueue, hpc] at hmem
    exact hmem
  | snapshot hpc =>
    intro k ho
    have hmem := hp k ho
    rw [overdueQueue, hpc] at hmem
    change k ∈ s.world.ready.take s.world.ready.length
    rw [List.take_length]
    exact hmem
  | batchDone hpc hb => exact hp.of_nil (by rw [overdueQueue, hpc, hb]; rfl) fun _ => id
  | goOn hpc =>
    refine hp.of_nil ?_ fun _ => id
    rcases hpc with hpc | hpc <;> rw [overdueQueue, hpc]
  | exitDrain hpc =>
    rw [drainCrossCore_eq]
    exact hp.of_nil (by rw [overdueQueue, hpc]) fun _ => World.Overdue.of_enqueues
  | drainReactor hpc hw | pollFailed hpc hw | polled hpc hw =>
    exact hp.of_nil (by rw [overdueQueue, hpc]) fun _ ho =>
      (World.overdue_of_step hi hw id (by simp) (by simp) ho).1
  | advanceTimer hpc hw =>
    rw [World.step, Option.some.injEq] at hw
    subst hw
    have hnone := hp.none_of_nil (by rw [overdueQueue, hpc])
    exact fun k ho => World.overdue_advanceTo hi.owned hnone ho
  | drainTimer hpc hw =>
    rw [World.step, Option.some.injEq] at hw
    subst hw
    intro k ho
    have hmem := hp k ho
    rw [overdueQueue, hpc] at hmem
    exact List.mem_append_right _ hmem
  | drainCrossCore hpc =>
    rw [drainCrossCore_eq]
    intro k ho
    have hmem := hp k (World.Overdue.of_enqueues ho)
    rw [overdueQueue, hpc] at hmem
    change k ∈ (s.crossCoreQueue.foldl World.enqueue s.world).ready
    rw [World.foldl_enqueue_ready]
    exact List.mem_append_left _ hmem
  | @resume n sys w hpc hbatch hw =>
    intro k ho
    obtain ⟨ho', hact⟩ := World.overdue_of_step hi hw id (by simp) (by simp) ho
    obtain ⟨k', rest, hready, ⟨l, hl⟩, hactor⟩ := World.resume_grows hw
    have hmem := hp k ho'
    unfold overdueQueue at hmem ⊢
    rw [hpc, hbatch, hready] at hmem
    dsimp only at hmem ⊢
    rw [hpc, ← hl]
    rw [List.take_succ_cons, List.mem_cons] at hmem
    rcases hmem with rfl | hmem
    · exact absurd hactor (hact sys rfl)
    · exact mem_take_append hmem
  | spawn =>
    exact hp.of_appends rfl rfl (fun k ho => ho.of_enqueue)
      ⟨List.prefix_append _ _, List.prefix_rfl⟩
  | @world op _ hop hw =>
    have hallowed : ∀ {wop : WorldOp}, s.allows wop = false → op ≠ wop := by
      rintro wop hno rfl
      exact Bool.false_ne_true (hno.symm.trans hop)
    exact hp.of_appends rfl rfl
      (fun k ho => (World.overdue_of_step hi hw hne (hallowed rfl) (fun _ => hallowed rfl) ho).1)
      (World.step_appends hw (fun _ => hallowed rfl) (hallowed rfl) (fun _ => hallowed rfl)
        (hallowed rfl))
  | push | write | requestStop | ring | elapse => exact hp
  | _ hpc => exact hp.of_nil (by rw [overdueQueue, hpc]) fun _ => id

end Prompt

structure SlotInv (s : EventLoop) : Prop where
  inv : World.Inv s.world
  prompt : Prompt s
  holds : World.Holds s.world

section Runs
variable {now : ℤ} {m : Heap} {k : Kernel} {ops : List LoopOp} {s t : EventLoop} {op : LoopOp}
  {h : Handle}

theorem Prompt.polling (hp : Prompt s) {timeout : ℤ} (hpc : s.pc = .polling timeout) (j : Handle)
    (b : Awaiter) (hw : s.world.phase j = .waiting b) : s.world.heap.state b.cell ≠ .timedOut :=
  fun hst => hp.none_of_nil (by rw [overdueQueue, hpc]) j ⟨b, hw, hst⟩

/-- What a step of the loop is for its world: handles that enter the queue, or one step of it;
only at `polling` this is a poll. -/
theorem step_world (h : step s op = some t) :
    (∃ l : List Handle, t.world = l.foldl World.enqueue s.world) ∨
    ∃ wop, s.world.step wop = some t.world ∧ (op.keepsOpen = true → wop.keepsOpen = true) ∧
      (s.world.Disowns wop → s.Disowns op) ∧
      ∀ report, wop = .poll report → ∃ timeout, s.pc = .polling timeout := by
  cases step_move h with
  | exitDrain | drainCrossCore =>
    rw [drainCrossCore_eq]
    exact Or.inl ⟨s.crossCoreQueue, rfl⟩
  | drainReactor _ hw | advanceTimer _ hw | drainTimer _ hw | resume _ _ hw =>
    exact Or.inr ⟨_, hw, fun _ => rfl, id, by simp⟩
  | pollFailed hpc hw | polled hpc hw =>
    exact Or.inr ⟨_, hw, fun _ => rfl, id, fun _ _ => ⟨_, hpc⟩⟩
  | world hop hw =>
    refine Or.inr ⟨_, hw, id, id, ?_⟩
    rintro report rfl
    cases hop
  | spawn => exact Or.inl ⟨[_], rfl⟩
  | _ => exact Or.inl ⟨[], rfl⟩

/-- In a run in which the fds stay open and no timeout disowns anybody, every open wait has
its slot. -/
theorem SlotInv.step (hs : SlotInv s) (hi : World.Inv t.world) (hopen : op.keepsOpen = true)
    (hne : ¬s.Disowns op) (h : step s op = some t) : SlotInv t where
  inv := hi
  prompt := hs.prompt.step hs.inv hne h
  holds := by
    rcases step_world h with ⟨l, hl⟩ | ⟨wop, hw, hkeep, hdis, hpoll⟩
    · rw [hl]
      exact hs.holds.enqueues l
    · refine hs.holds.step hs.inv hw (hkeep hopen) (fun hd => hne (hdis hd)) fun report hr => ?_
      obtain ⟨timeout, hpc⟩ := hpoll report hr
      exact hs.prompt.polling hpc

theorem create_slotInv (now : ℤ) (m : Heap) (k : Kernel) : SlotInv (create now m k) where
  inv := World.fresh_inv now m k
  prompt h ho := by
    obtain ⟨a, hw, -⟩ := ho
    cases hw
  holds h a d ho := by cases ho.1

theorem Reaches.slotInv (hr : Reaches now m k ops s) (hopen : ∀ op ∈ ops, op.keepsOpen = true)
    (hg : Transition.Guarded step (fun s op => ¬s.Disowns op) (create now m k) ops) :
    SlotInv s := by
  have hboth : (SlotInv s ∧ Tracked s) ∧ Driven now m k s := by
    refine Transition.invariant_of_guarded (fun s op => ¬s.Disowns op ∧ op.keepsOpen = true)
      (fun s => (SlotInv s ∧ Tracked s) ∧ Driven now m k s) ?_
      ⟨⟨create_slotInv now m k, create_tracked⟩, create_driven⟩
      (hg.and (Transition.guarded_of_forall fun op hop _ => hopen op hop)) hr
    rintro u op v hop hstep ⟨⟨hs, ht⟩, hd⟩
    have hd' := hd.step ht hstep
    exact ⟨⟨hs.step hd'.inv hop.2 hop.1 hstep, ht.step hstep⟩, hd'⟩
  exact hboth.1.1

theorem step_actor (h' : step s op = some t) (hact : s.actor op = some h) :
    ∃ wop, s.world.step wop = some t.world ∧ s.world.actor wop = some h ∧
      (s.Disowns op ↔ s.world.Disowns wop) := by
  cases step_move h' with
  | resume _ _ hw => exact ⟨_, hw, hact, Iff.rfl⟩
  | world _ hw => exact ⟨_, hw, hact, Iff.rfl⟩
  | _ => cases hact

/-- With the fds kept open, an awaiter takes a slot from another one in one case only: it is a
`TimedReadyAwaiter` with a timeout that is not positive, awaited where somebody waits. As long
as this does not happen every await, resumption and stop callback of a coroutine leaves the
waiters of all others in their slots. -/
theorem awaiter_removes_own_iff (hr : Reaches now m k ops s)
    (hopen : ∀ op ∈ ops, op.keepsOpen = true)
    (hg : Transition.Guarded step (fun s op => ¬s.Disowns op) (create now m k) ops)
    (hstep : step s op = some t) (hact : s.actor op = some h) :
    s.world.Spares t.world h ↔ ¬s.Disowns op := by
  have hs := hr.slotInv hopen hg
  obtain ⟨wop, hw, hact', hdis⟩ := step_actor hstep hact
  rw [hdis]
  exact World.step_spares_iff hs.inv hs.holds hw hact'

def readerWaits : List LoopOp :=
  [.spawn 1, .spawn 2, .run, .next, .resume (.ok 0),
    .world (.await 1 .readReady 3 10 none (.ok 0)), .resume (.ok 0)]

/-- The second one looks at the same fd without waiting, and the reader is out of its slot. -/
theorem empty_timeout_removes_reader : ∃ s t,
    Reaches 0 World.blankHeap World.blankKernel readerWaits s ∧
      step s (.world (.await 2 (.timedReady .read 0) 3 20 none (.ok 0))) = some t ∧
      s.world.waiter 3 .read = some ⟨some 1, some 10, some 10, .ready⟩ ∧
      t.world.waiter 3 .read = none ∧
      t.world.phase 1 = .waiting ⟨.readReady, 3, 10, none, 0, false⟩ ∧
      t.world.heap.state 10 = .pending := by
  refine ⟨_, _, rfl, rfl, ?_, ?_, ?_, ?_⟩ <;> rfl

theorem awaiter_removes_own_iff_on_reader : ∃ s t,
    Reaches 0 World.blankHeap World.blankKernel readerWaits s ∧
      step s (.world (.await 2 (.timedReady .read 5000000) 3 20 none (.ok 0))) = some t ∧
      s.world.Spares t.world 2 := by
  have hops : ∀ op ∈ readerWaits, ∀ s : EventLoop, ¬s.Disowns op := by
    intro op hop s hd
    simp only [readerWaits, List.mem_cons, List.not_mem_nil, or_false] at hop
    rcases hop with rfl | rfl | rfl | rfl | rfl | rfl | rfl <;> exact hd
  obtain ⟨s, t, hr, hstep⟩ : ∃ s t, Reaches 0 World.blankHeap World.blankKernel readerWaits s ∧
      step s (.world (.await 2 (.timedReady .read 5000000) 3 20 none (.ok 0))) = some t :=
    ⟨_, _, rfl, rfl⟩
  refine ⟨s, t, hr, hstep, ?_⟩
  exact (awaiter_removes_own_iff hr (by decide) (Transition.guarded_of_forall hops) hstep rfl).mpr
    fun hd => absurd hd.1 (by decide)

end Runs
end EventLoop
end RainRuntime
