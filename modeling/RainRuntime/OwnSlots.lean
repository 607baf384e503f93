import RainRuntime.LoopPoll
import RainRuntime.LoopWorld
import RainRuntime.ReactorDispatch
import RainRuntime.WaitRules

/-!
# Whose slot an awaiter empties

The reactor files waiters under a file descriptor and a direction and does not know who
filed them: `deregister(fd, dir)` empties the slot whoever is in it. An awaiter calls it
when it is cancelled and when it has timed out. `Holds` says that the slot is its own then.
The one awaiter that calls it without ever having registered is a `TimedReadyAwaiter` whose
timeout is not positive: it is timed out from the start, and its `await_resume` empties the
slot of whoever waits there.
-/

namespace RainRuntime

def WorldOp.keepsOpen : WorldOp → Bool
  | .deregister _ => false
  | .remove _ => false
  | _ => true

namespace World
open IoState

section Slots
variable {s t u : World} {h : Handle} {a : Awaiter}

def waiter (s : World) (i : ℕ) (d : Direction) : Option PendingEntry := (s.reactor.slotAt i).get d

def entryOf (h : Handle) (a : Awaiter) : PendingEntry := ⟨some h, some a.cell, some a.cell, .ready⟩

def Spares (s t : World) (h : Handle) : Prop :=
  ∀ i d e, s.waiter i d = some e → e.handle ≠ some h → t.waiter i d = some e

/-- The coroutine has an open wait at the reactor, or one that the timer has just ended. -/
def Open (s : World) (h : Handle) (a : Awaiter) (d : Direction) : Prop :=
  s.phase h = .waiting a ∧ a.kind.direction = some d ∧
    (s.heap.state a.cell = .pending ∨ s.heap.state a.cell = .timedOut)

def Holds (s : World) : Prop :=
  ∀ h a d, s.Open h a d → ∃ i : ℕ, (i : ℤ) = a.fd ∧ s.waiter i d = some (entryOf h a)

theorem Spares.of_reactor (hr : t.reactor = s.reactor) : Spares s t h := by
  intro i d e he _
  rw [waiter, hr]
  exact he

theorem deregisterWait_waiter (s : World) (a : Awaiter) (i : ℕ) (c : Direction) :
    (s.deregisterWait a).waiter i c =
      if (i : ℤ) = a.fd ∧ a.kind.direction = some c then none else s.waiter i c := by
  unfold deregisterWait
  cases hd : a.kind.direction with
  | none => rw [if_neg (by simp)]
  | some d =>
    have hcases := (deregisterDir_cases s.io a.fd d.flag).2 i c
    simp only [flag_eq, decide_eq_true_eq] at hcases
    refine hcases.trans ?_
    simp only [Option.some.injEq, eq_comm (a := c)]
    rfl

theorem Holds.spares (hs : Holds s) (hw : s.phase h = .waiting a)
    (hst : s.heap.state a.cell = .pending ∨ s.heap.state a.cell = .timedOut)
    (hslots : ∀ i c, t.waiter i c =
      if (i : ℤ) = a.fd ∧ a.kind.direction = some c then none else s.waiter i c) :
    Spares s t h := by
  intro i c e he hne
  rw [hslots]
  refine (if_neg ?_).trans he
  rintro ⟨hi, hc⟩
  obtain ⟨j, hj, hown⟩ := hs h a c ⟨hw, hc, hst⟩
  have hij : i = j := by omega
  rw [hij, hown, Option.some.injEq] at he
  exact hne (by rw [← he]; rfl)

theorem cancelTimer_reactor (s : World) (a : Awaiter) : (s.cancelTimer a).reactor = s.reactor := by
  unfold cancelTimer
  cases a.kind.timerCompletion <;> rfl

theorem cancelWait_waiter (hp : s.heap.state a.cell = .pending) (tls : Option LoopId) (i : ℕ)
    (c : Direction) : (s.cancelWait h a tls).waiter i c =
      if (i : ℤ) = a.fd ∧ a.kind.direction = some c then none else s.waiter i c := by
  rw [cancelWait_of_pending hp, waiter]
  change ((((s.withHeap (s.heap.setState a.cell .cancelled)).withdraw a).signal h a
    tls).reactor.slotAt i).get c = _
  rw [(signal_frame _ h a tls).2.2.2.1]
  change (((s.withHeap (s.heap.setState a.cell .cancelled)).cancelTimer a).deregisterWait a).waiter
    i c = _
  rw [deregisterWait_waiter, waiter, cancelTimer_reactor]
  rfl

theorem awaitResume_reactor (hne : s.heap.state a.cell ≠ .timedOut) (sys : Except Errno ℕ) :
    (s.awaitResume a sys).2.reactor = s.reactor := by
  unfold awaitResume
  cases a.kind with
  | sleep =>
    dsimp only
    split_ifs <;> rfl
  | timedReady d timeout =>
    dsimp only
    rw [if_neg hne]
    split_ifs
    · exact cancelTimer_reactor s a
    · cases s.heap.result a.cell <;> exact cancelTimer_reactor s a
  | _ =>
    dsimp only
    split_ifs
    · rfl
    · cases s.heap.result a.cell <;> rfl

/-- What an await that is not an empty timeout does to the slots: no waiter is removed, and a
wait it opens has its slot. -/
structure Joins (s t : World) (h : Handle) : Prop where
  kept : ∀ i d e, s.waiter i d = some e → t.waiter i d = some e
  holds : ∀ a d, t.Open h a d → ∃ i : ℕ, (i : ℤ) = a.fd ∧ t.waiter i d = some (entryOf h a)
  fresh : ∀ a, t.phase h = .waiting a → t.heap.state a.cell ≠ .timedOut

theorem installCallback_joins (hp : u.heap.state a.cell = .pending)
    (hkept : ∀ i d e, s.waiter i d = some e → u.waiter i d = some e)
    (hown : ∀ d, a.kind.direction = some d → ∃ i : ℕ, (i : ℤ) = a.fd ∧ s.waiter i d = none ∧
      u.waiter i d = some (entryOf h a))
    (tls : Option LoopId) : Joins s (u.installCallback h a tls) h := by
  have hself : ∀ b : Awaiter, (u.suspend h b).phase h = .waiting b := fun b =>
    Function.update_self _ _ _
  have hopen : ∀ b : Awaiter, b.kind = a.kind → b.fd = a.fd → b.cell = a.cell →
      Joins s (u.suspend h b) h := by
    intro b hk hfd hcell
    refine ⟨hkept, fun x c ho => ?_, fun x hx => ?_⟩
    · obtain ⟨hx, hc, -⟩ := ho
      rw [hself, Phase.waiting.injEq] at hx
      subst hx
      rw [hk] at hc
      obtain ⟨i, hi, -, hentry⟩ := hown c hc
      refine ⟨i, hi.trans hfd.symm, hentry.trans ?_⟩
      rw [entryOf, entryOf, hcell]
    · rw [hself, Phase.waiting.injEq] at hx
      subst hx
      change u.heap.state b.cell ≠ _
      rw [hcell, hp]
      simp
  unfold installCallback
  cases a.token with
  | none => exact hopen a rfl rfl rfl
  | some src =>
    dsimp only
    cases u.stopped src with
    | none => exact hopen _ rfl rfl rfl
    | some _ =>
      have hphase : ((u.suspend h a).cancelWait h a tls).phase h = .waiting a := by
        rw [cancelWait_phase, hself]
      have hstate : ((u.suspend h a).cancelWait h a tls).heap.state a.cell = .cancelled :=
        cancelWait_state h (s := u.suspend h a) hp
      refine ⟨fun i d e he => ?_, fun x c ho => ?_, fun x hx => ?_⟩
      · rw [cancelWait_waiter (s := u.suspend h a) (h := h) (a := a) hp tls]
        refine (if_neg ?_).trans (hkept i d e he)
        rintro ⟨hi, hd⟩
        obtain ⟨j, hj, hnone, -⟩ := hown d hd
        have hij : i = j := by omega
        rw [hij, hnone] at he
        cases he
      · obtain ⟨hx, -, hst⟩ := ho
        rw [hphase, Phase.waiting.injEq] at hx
        subst hx
        rw [hstate] at hst
        simp at hst
      · rw [hphase, Phase.waiting.injEq] at hx
        subst hx
        rw [hstate]
        simp

theorem registerWait_cases (s : World) (h : Handle) (a : Awaiter) (d : Direction) :
    ∃ negative busy, s.registerWait h a d = ((register d negative busy s.io a.fd (entryOf h a)).1,
      s.withIo (register d negative busy s.io a.fd (entryOf h a)).2) := by
  cases d with
  | read => exact ⟨_, _, rfl⟩
  | write => exact ⟨_, _, rfl⟩

theorem complete_waiter (hne : s.heap.state a.cell ≠ .timedOut) (on : LoopId)
    (sys : Except Errno ℕ) (i : ℕ) (c : Direction) :
    (s.complete h a on sys).waiter i c = s.waiter i c := by
  change ((s.awaitResume a sys).2.reactor.slotAt i).get c = _
  rw [awaitResume_reactor hne]
  rfl

theorem Joins.of_complete {v : World} (hne : v.heap.state a.cell ≠ .timedOut) (on : LoopId)
    (sys : Except Errno ℕ) (hslots : ∀ i d, v.waiter i d = s.waiter i d) :
    Joins s (v.complete h a on sys) h := by
  have hphase : ∀ x, (v.complete h a on sys).phase h ≠ .waiting x := by
    intro x hx
    rw [complete_phase] at hx
    cases hx
  refine ⟨fun i d e he => ?_, fun x d ho => absurd ho.1 (hphase x),
    fun x hx => absurd hx (hphase x)⟩
  rw [complete_waiter hne, hslots]
  exact he

theorem suspendIo_joins {on : LoopId} {d : Direction} (hd : a.kind.direction = some d)
    (hp : s.heap.state a.cell = .pending) (tls : Option LoopId) {cleanup : World → World}
    (hclean : ∀ u, (cleanup u).reactor = u.reactor ∧ (cleanup u).heap.state = u.heap.state)
    (sys : Except Errno ℕ) :
    Joins s (finishAwait (s.suspendIo h a d tls cleanup) h on sys) h := by
  obtain ⟨negative, busy, hreg⟩ := registerWait_cases s h a d
  unfold suspendIo
  rw [hreg]
  generalize hr : register d negative busy s.io a.fd (entryOf h a) = r
  obtain ⟨res, v⟩ := r
  obtain ⟨⟨hheap, -, -⟩, hcases⟩ := register_cases d negative busy s.io a.fd (entryOf h a) hr
  cases res with
  | ok x =>
    obtain ⟨-, -, i, hi, hnone, hslots⟩ := register_ok hr
    refine installCallback_joins (u := s.withIo v) ?_ (fun j c e he => ?_) (fun c hc => ?_) tls
    · change v.heap.state a.cell = _
      rw [hheap]
      exact hp
    · refine (hslots j c).trans ((if_neg ?_).trans he)
      rintro ⟨rfl, rfl⟩
      rw [show s.waiter j c = none from hnone] at he
      cases he
    · rw [hd, Option.some.injEq] at hc
      subst hc
      exact ⟨i, hi, hnone, (hslots i d).trans (if_pos ⟨rfl, rfl⟩)⟩
  | error e =>
    have hslots : ∀ j, v.reactor.slotAt j = s.reactor.slotAt j := by
      rcases hcases with ⟨-, hslots⟩ | ⟨hok, -⟩
      · exact hslots
      · cases hok
    obtain ⟨hreactor, hstate⟩ := hclean (s.withIo v)
    refine Joins.of_complete ?_ on sys fun i c => ?_
    · change (cleanup (s.withIo v)).heap.state a.cell ≠ _
      rw [hstate]
      change v.heap.state a.cell ≠ _
      rw [hheap]
      intro hx
      rw [show s.io.heap.state a.cell = .pending from hp] at hx
      cases hx
    · change ((cleanup (s.withIo v)).reactor.slotAt i).get c = _
      rw [hreactor]
      change (v.reactor.slotAt i).get c = _
      rw [hslots]
      rfl

theorem Joins.of_waiter (hj : Joins u t h) (hslots : ∀ i d, u.waiter i d = s.waiter i d) :
    Joins s t h :=
  ⟨fun i d e he => hj.kept i d e ((hslots i d).trans he), hj.holds, hj.fresh⟩

theorem scheduleWait_io (s : World) (h : Handle) (a : Awaiter) (delay : ℤ) (c : WaitState) :
    (s.scheduleWait h a delay c).2.reactor = s.reactor ∧
      (s.scheduleWait h a delay c).2.heap = s.heap := by
  rw [scheduleWait_snd]
  exact ⟨rfl, rfl⟩

theorem awaitSuspend_joins {on : LoopId} (hp : s.heap.state a.cell = .pending)
    (hne : ∀ d timeout, a.kind = .timedReady d timeout → 0 < timeout) (tls : Option LoopId)
    (sys : Except Errno ℕ) : Joins s (finishAwait (s.awaitSuspend h a tls) h on sys) h := by
  have hio : ∀ d, a.kind.direction = some d →
      Joins s (finishAwait (s.suspendIo h a d tls id) h on sys) h := fun d hd =>
    suspendIo_joins hd hp tls (fun _ => ⟨rfl, rfl⟩) sys
  unfold awaitSuspend
  cases hk : a.kind with
  | connect => exact hio .write (by rw [hk]; rfl)
  | readReady => exact hio .read (by rw [hk]; rfl)
  | writeReady => exact hio .write (by rw [hk]; rfl)
  | accept => exact hio .read (by rw [hk]; rfl)
  | timedReady d timeout =>
    dsimp only
    rw [if_neg (not_le.mpr (hne d timeout hk))]
    obtain ⟨hkind, hcell, -, -⟩ := scheduleWait_frame s h a timeout .timedOut
    obtain ⟨hreactor, hheap⟩ := scheduleWait_io s h a timeout .timedOut
    generalize s.scheduleWait h a timeout .timedOut = r at hkind hcell hreactor hheap ⊢
    have hjoins : Joins r.2 (finishAwait (r.2.suspendIo h r.1 d tls fun v => v.cancelTimer r.1)
        h on sys) h := by
      refine suspendIo_joins ?_ ?_ tls (fun v => ?_) sys
      · rw [hkind, hk]
        rfl
      · rw [hheap, hcell]
        exact hp
      · exact ⟨cancelTimer_reactor v r.1, (cancelTimer_still v r.1).state⟩
    exact hjoins.of_waiter fun i c => by rw [waiter, hreactor]; rfl
  | sleep delay =>
    dsimp only
    split_ifs with hle
    · exact Joins.of_complete (by rw [hp]; simp) on sys fun _ _ => rfl
    · obtain ⟨hkind, hcell, -, -⟩ := scheduleWait_frame s h a delay .ready
      obtain ⟨hreactor, hheap⟩ := scheduleWait_io s h a delay .ready
      generalize s.scheduleWait h a delay .ready = r at hkind hcell hreactor hheap ⊢
      have hjoins : Joins r.2 (r.2.installCallback h r.1 tls) h := by
        refine installCallback_joins ?_ (fun _ _ _ he => he) (fun d hd => ?_) tls
        · rw [hheap, hcell]
          exact hp
        · rw [hkind, hk] at hd
          cases hd
      exact hjoins.of_waiter fun i c => by rw [waiter, hreactor]; rfl

theorem awaitSuspend_empty {d : Direction} {timeout : ℤ} (hk : a.kind = .timedReady d timeout)
    (hle : timeout ≤ 0) (tls : Option LoopId) : s.awaitSuspend h a tls =
      (some a, s.withHeap (s.heap.setState a.cell .timedOut)) := by
  unfold awaitSuspend
  rw [hk]
  exact if_pos hle

theorem emptyTimeout_waiter (on : LoopId) {d : Direction} {timeout : ℤ}
    (hk : a.kind = .timedReady d timeout) (hle : timeout ≤ 0) (tls : Option LoopId)
    (sys : Except Errno ℕ) :
    (finishAwait (s.awaitSuspend h a tls) h on sys).phase h = .running on ∧
    ∀ i c, (finishAwait (s.awaitSuspend h a tls) h on sys).waiter i c =
      if (i : ℤ) = a.fd ∧ a.kind.direction = some c then none else s.waiter i c := by
  rw [awaitSuspend_empty hk hle]
  refine ⟨complete_phase _ h a on sys, fun i c => ?_⟩
  have hstate : (s.withHeap (s.heap.setState a.cell .timedOut)).heap.state a.cell = .timedOut :=
    Function.update_self _ _ _
  change (((s.withHeap (s.heap.setState a.cell .timedOut)).awaitResume a sys).2.reactor.slotAt
    i).get c = _
  rw [awaitResume_timedOut hk hstate]
  exact deregisterWait_waiter _ a i c

end Slots

/-- An awaiter with a timeout that is not positive is awaited where somebody waits. -/
def Disowns (s : World) : WorldOp → Prop
  | .await _ (.timedReady d timeout) fd _ _ _ =>
    timeout ≤ 0 ∧ ∃ i : ℕ, (i : ℤ) = fd ∧ (s.waiter i d).isSome
  | _ => False

section Steps
variable {s t u : World} {h : Handle} {a : Awaiter}

theorem await_joins (hs : Inv s) {kind : WaitKind} {fd : ℤ} {cell : StatePtr} {token : Option ℕ}
    {sys : Except Errno ℕ} (hstep : step s (.await h kind fd cell token sys) = some t)
    (hne : ¬s.Disowns (.await h kind fd cell token sys)) : Joins s t h ∧ Others s t h := by
  obtain ⟨on, hph, hfree, hawait⟩ := step_await.mp hstep
  rw [await_eq] at hawait
  obtain ⟨hb, hbegin⟩ := begun hs hph kind hfree fd token
  obtain ⟨-, hothers⟩ := hb.await (some on) sys
  have hslots : ∀ i d, (s.begin h kind cell).waiter i d = s.waiter i d := by
    intro i d
    obtain ⟨m, heq, -⟩ := initCells_eq s kind cell
    unfold World.begin
    rw [heq]
    rfl
  rw [hawait] at hothers
  refine ⟨?_, hbegin.trans hothers⟩
  by_cases hempty : ∃ d timeout, kind = .timedReady d timeout ∧ timeout ≤ 0
  · obtain ⟨d, timeout, rfl, hle⟩ := hempty
    obtain ⟨hphase, hwait⟩ := emptyTimeout_waiter (s := s.begin h (.timedReady d timeout) cell)
      (h := h) (a := ⟨.timedReady d timeout, fd, cell, token, 0, false⟩) on rfl hle (some on) sys
    rw [hawait] at hphase
    simp only [hawait, hslots] at hwait
    refine ⟨fun i c e he => ?_, fun x c ho => ?_, fun x hx => ?_⟩
    · rw [hwait]
      refine (if_neg ?_).trans he
      rintro ⟨hi, hc⟩
      have hcd : d = c := Option.some.inj hc
      subst hcd
      exact hne ⟨hle, i, hi, by rw [he]; rfl⟩
    · rw [ho.1] at hphase
      cases hphase
    · rw [hx] at hphase
      cases hphase
  · refine (hawait ▸ awaitSuspend_joins hb.pending ?_ (some on) sys : Joins _ t h).of_waiter hslots
    intro d timeout hk
    by_contra hle
    exact hempty ⟨d, timeout, hk, not_lt.mp hle⟩

theorem Holds.of_others (hh : Holds s) (ho : Others s t h) (hsp : Spares s t h)
    (hown : ∀ a d, t.Open h a d → ∃ i : ℕ, (i : ℤ) = a.fd ∧ t.waiter i d = some (entryOf h a)) :
    Holds t := by
  intro k b d hopen
  by_cases hk : k = h
  · subst hk
    exact hown b d hopen
  · obtain ⟨hw, hd, hst⟩ := hopen
    rw [ho.phase k hk] at hw
    rw [ho.state k b hk hw] at hst
    obtain ⟨i, hi, hentry⟩ := hh k b d ⟨hw, hd, hst⟩
    exact ⟨i, hi, hsp i d _ hentry fun he => hk (Option.some.inj he)⟩

theorem Holds.of_leave {p : Phase} (hh : Holds s) (hl : Leave s t h p) (hsp : Spares s t h) :
    Holds t :=
  hh.of_others hl.others hsp fun _ _ ho => absurd rfl (hl.waiting ho.1).1

theorem Holds.of_same (hh : Holds s) (hphase : t.phase = s.phase)
    (hstate : ∀ k b, s.phase k = .waiting b →
      t.heap.state b.cell = .pending ∨ t.heap.state b.cell = .timedOut →
      s.heap.state b.cell = .pending ∨ s.heap.state b.cell = .timedOut)
    (hslots : ∀ i d, t.waiter i d = s.waiter i d) : Holds t := by
  rintro k b d ⟨hw, hd, hst⟩
  rw [hphase] at hw
  obtain ⟨i, hi, hentry⟩ := hh k b d ⟨hw, hd, hstate k b hw hst⟩
  exact ⟨i, hi, (hslots i d).trans hentry⟩

theorem Popped.spares (hp : Popped s u h) (hs : Inv s) (hh : Holds s) (on : LoopId)
    (sys : Except Errno ℕ) : Spares s (u.resume h on sys) h := by
  by_cases hw : ∃ a, s.phase h = .waiting a
  · obtain ⟨a, hw⟩ := hw
    rw [hp.resume_waiting hs hw on sys]
    by_cases hout : s.heap.state a.cell = .timedOut
    · obtain ⟨-, -, c, -, hc⟩ := hp.moved hs hw
      rw [hout] at hc
      obtain ⟨d, timeout, hk⟩ := timedReady_of_timedOut hc
      refine hh.spares hw (Or.inr hout) fun i d => ?_
      change ((u.awaitResume a sys).2.reactor.slotAt i).get d = _
      rw [awaitResume_timedOut hk (hp.heap ▸ hout)]
      refine (deregisterWait_waiter u a i d).trans ?_
      rw [waiter, hp.reactor]
      rfl
    · intro i d e he _
      rw [complete_waiter (hp.heap ▸ hout), waiter, hp.reactor]
      exact he
  · refine Spares.of_reactor ?_
    unfold World.resume
    split_ifs
    · exact hp.reactor
    · cases hph : u.phase h with
      | waiting a => exact absurd ⟨a, hp.phase ▸ hph⟩ hw
      | _ => exact hp.reactor

theorem callback_spares (hh : Holds s) (hw : s.phase h = .waiting a) (tls : Option LoopId)
    (b : Awaiter) : Spares s ((s.cancelWait h a tls).setPhase h (.waiting b)) h := by
  by_cases hp : s.heap.state a.cell = .pending
  · exact hh.spares hw (Or.inl hp) fun i c => cancelWait_waiter hp tls i c
  · rw [cancelWait_of_moved hp]
    exact Spares.of_reactor rfl

theorem callback_holds (hh : Holds s) (hs : Inv s) (hw : s.phase h = .waiting a)
    (tls : Option LoopId) :
    Holds ((s.cancelWait h a tls).setPhase h (.waiting { a with callback := false })) := by
  obtain ⟨-, hothers, -⟩ := hs.callback hw tls rfl
  refine hh.of_others hothers (callback_spares hh hw tls _) fun b d ho => ?_
  obtain ⟨hb, hd, hst⟩ := ho
  have hself : ((s.cancelWait h a tls).setPhase h (.waiting { a with callback := false })).phase h =
      .waiting { a with callback := false } := Function.update_self _ _ _
  rw [hself, Phase.waiting.injEq] at hb
  subst hb
  by_cases hp : s.heap.state a.cell = .pending
  · have hcan : (s.cancelWait h a tls).heap.state a.cell = .cancelled := cancelWait_state h hp
    have hst' : (s.cancelWait h a tls).heap.state a.cell = .pending ∨
      (s.cancelWait h a tls).heap.state a.cell = .timedOut := hst
    rw [hcan] at hst'
    simp at hst'
  · rw [cancelWait_of_moved hp] at hst ⊢
    exact hh h a d ⟨hw, hd, hst⟩

theorem complete_state (m : Heap) (p : PendingEntry) (q : StatePtr) :
    (PendingEntry.complete m p).state q = if p.state = some q then p.completion else m.state q := by
  unfold PendingEntry.complete
  cases p.state with
  | none => cases p.result <;> rfl
  | some r =>
    simp only [Option.some.injEq, eq_comm (a := r)]
    cases p.result <;> exact Function.update_apply _ _ _ _

theorem settle_state {m : Heap} {p : PendingEntry} {q : StatePtr} (hp : p.completion ≠ .pending)
    (h : p.state = some q ∨ m.state q ≠ .pending) :
    (PendingEntry.settle m p).state q ≠ .pending := by
  unfold PendingEntry.settle
  split_ifs with hawake
  · rw [complete_state]
    split_ifs with hq
    · exact hp
    · exact h.resolve_left hq
  · refine h.elim (fun hq => ?_) id
    unfold PendingEntry.awake at hawake
    rw [hq] at hawake
    simpa using hawake

theorem settleAll_state {ps : List PendingEntry} {q : StatePtr}
    (hready : ∀ p ∈ ps, p.completion ≠ .pending) (m : Heap)
    (h : (∃ p ∈ ps, p.state = some q) ∨ m.state q ≠ .pending) :
    (PendingEntry.settleAll m ps).state q ≠ .pending := by
  induction ps generalizing m with
  | nil =>
    rcases h with ⟨p, hp, -⟩ | h
    · cases hp
    · exact h
  | cons p ps ih =>
    have hsettle := settle_state (m := m) (q := q) (hready p List.mem_cons_self)
    refine ih (fun r hr => hready r (List.mem_cons_of_mem _ hr)) _ ?_
    rcases h with ⟨r, hr, hq⟩ | h
    · rcases List.mem_cons.mp hr with rfl | hr
      · exact Or.inr (hsettle (Or.inl hq))
      · exact Or.inl ⟨r, hr, hq⟩
    · exact Or.inr (hsettle (Or.inr h))

/-- A poll empties only the slots of waits that it ends. -/
theorem poll_holds (hs : Inv s) (hh : Holds s) (report : PollReport)
    (hnone : ∀ k b, s.phase k = .waiting b → s.heap.state b.cell ≠ .timedOut) :
    Holds (s.record (s.withIo (s.io.poll report).2) .readiness) := by
  obtain ⟨-, heffect⟩ := (poll_batch hs.owned report).effect hs.owned
  have hstate : ∀ k b, s.phase k = .waiting b →
      (s.io.poll report).2.heap.state b.cell = .pending ∨
        (s.io.poll report).2.heap.state b.cell = .timedOut →
      s.heap.state b.cell = .pending ∧ (s.io.poll report).2.heap.state b.cell = .pending := by
    intro k b hb hst
    rcases heffect k b hb with ⟨hsame, -⟩ | ⟨-, hmoves⟩
    · change (s.io.poll report).2.heap.state b.cell = _ at hsame
      rw [hsame] at hst ⊢
      exact ⟨hst.resolve_right (hnone k b hb), hst.resolve_right (hnone k b hb)⟩
    · change b.kind.movesTo .readiness = some ((s.io.poll report).2.heap.state b.cell) at hmoves
      rcases hst with hst | hst <;> rw [hst] at hmoves <;>
        cases hdir : b.kind.direction <;> simp [WaitKind.movesTo, hdir] at hmoves
  rintro k b d ⟨hw, hd, hst⟩
  obtain ⟨hpend, hpend'⟩ := hstate k b hw hst
  obtain ⟨i, hi, hentry⟩ := hh k b d ⟨hw, hd, Or.inl hpend⟩
  refine ⟨i, hi, ?_⟩
  change ((s.io.poll report).2.reactor.slotAt i).get d = _
  cases report with
  | failed e => cases e <;> exact hentry
  | reported events =>
    obtain ⟨ds, n, v, hpoll, hdel, hds, hslots⟩ := poll_delivers s.io events
    rw [hpoll] at hpend' ⊢
    refine (hslots i d).trans ((if_neg fun hrep => ?_).trans hentry)
    have hmem : ((i, d), entryOf k b) ∈ ds := (hds i d _).mpr ⟨hentry, hrep⟩
    have hmoved : (PendingEntry.settleAll s.heap (ds.map Prod.snd)).state b.cell ≠ .pending := by
      refine settleAll_state (fun p hp => ?_) s.heap
        (Or.inl ⟨entryOf k b, List.mem_map.mpr ⟨_, hmem, rfl⟩, rfl⟩)
      obtain ⟨⟨⟨j, c⟩, q⟩, hx, rfl⟩ := List.mem_map.mp hp
      obtain ⟨k', b', -, rfl, -⟩ := hs.owned.slot j c q ((hds j c q).mp hx).1
      simp
    have hheap : v.heap = PendingEntry.settleAll s.heap (ds.map Prod.snd) := hdel.heap
    rw [← hheap] at hmoved
    exact hmoved hpend'

theorem Disowns.robs {op : WorldOp} (hs : Inv s) (hstep : step s op = some t)
    (hact : s.actor op = some h) (hd : s.Disowns op) : ¬Spares s t h := by
  cases op with
  | await k kind fd cell token sys =>
    cases kind with
    | timedReady d timeout =>
      obtain ⟨hle, i, hi, hsome⟩ := hd
      cases hact
      obtain ⟨on, hph, hfree, hawait⟩ := step_await.mp hstep
      obtain ⟨e, he⟩ := Option.isSome_iff_exists.mp hsome
      obtain ⟨-, hwait⟩ := emptyTimeout_waiter (s := s.begin h (.timedReady d timeout) cell)
        (h := h) (a := ⟨.timedReady d timeout, fd, cell, token, 0, false⟩) on rfl hle (some on) sys
      rw [await_eq] at hawait
      intro hsp
      have hkept := hsp i d e he (hs.owned.slot_handle_ne (not_waiting hph) he)
      rw [← hawait, hwait, if_pos ⟨hi, rfl⟩] at hkept
      cases hkept
    | _ => exact False.elim hd
  | _ => exact False.elim hd

theorem step_spares_iff {op : WorldOp} (hs : Inv s) (hh : Holds s) (hstep : step s op = some t)
    (hact : s.actor op = some h) : Spares s t h ↔ ¬s.Disowns op := by
  refine ⟨fun hsp hd => hd.robs hs hstep hact hsp, fun hne => ?_⟩
  cases op with
  | wake k =>
    obtain ⟨-, rfl⟩ := step_wake.mp hstep
    exact Spares.of_reactor rfl
  | park k =>
    obtain ⟨on, -, rfl⟩ := step_park.mp hstep
    exact Spares.of_reactor rfl
  | finish k =>
    obtain ⟨on, -, rfl⟩ := step_finish.mp hstep
    exact Spares.of_reactor rfl
  | await k kind fd cell token sys =>
    cases hact
    obtain ⟨hjoins, -⟩ := await_joins hs hstep hne
    exact fun i d e he _ => hjoins.kept i d e he
  | resume sys =>
    obtain ⟨k, rest, hr, rfl⟩ := step_resume.mp hstep
    rw [actor, hr] at hact
    cases hact
    exact (popped_ready hr).spares hs hh ownerLoop sys
  | resumeForeign sys =>
    obtain ⟨entry, rest, hr, rfl⟩ := step_resumeForeign.mp hstep
    rw [actor, hr] at hact
    cases hact
    exact (popped_foreign hr).spares hs hh entry.1 sys
  | callback k =>
    cases hact
    obtain ⟨a, src, tls, hw, -, -, -, rfl⟩ := step_callback.mp hstep
    exact callback_spares hh hw tls _
  | _ => cases hact

theorem Batch.open_of {c : Contender} (hb : Batch c s t) (hs : Owned s) {k : Handle} {b : Awaiter}
    (hw : s.phase k = .waiting b)
    (hst : t.heap.state b.cell = .pending ∨ t.heap.state b.cell = .timedOut) :
    s.heap.state b.cell = .pending ∨ s.heap.state b.cell = .timedOut := by
  rcases (hb.effect hs).2 k b hw with ⟨hsame, -⟩ | ⟨hpend, -⟩
  · exact hsame ▸ hst
  · exact Or.inl hpend

theorem Holds.step {op : WorldOp} (hh : Holds s) (hs : Inv s) (hstep : step s op = some t)
    (hopen : op.keepsOpen = true) (hne : ¬s.Disowns op)
    (hpoll : ∀ report, op = .poll report →
      ∀ k b, s.phase k = .waiting b → s.heap.state b.cell ≠ .timedOut) : Holds t := by
  have hspares := fun k hact => (step_spares_iff (h := k) hs hh hstep hact).mpr hne
  cases op with
  | wake k =>
    obtain ⟨hph, rfl⟩ := step_wake.mp hstep
    exact hh.of_leave (Leave.wake hs.owned hph) (hspares k rfl)
  | park k =>
    obtain ⟨on, hph, rfl⟩ := step_park.mp hstep
    exact hh.of_leave (Leave.park hs.owned hph) (hspares k rfl)
  | finish k =>
    obtain ⟨on, hph, rfl⟩ := step_finish.mp hstep
    exact hh.of_leave (Leave.finish hs.owned hph) (hspares k rfl)
  | await k kind fd cell token sys =>
    obtain ⟨hjoins, hothers⟩ := await_joins hs hstep hne
    exact hh.of_others hothers (hspares k rfl) hjoins.holds
  | poll report =>
    rw [World.step, Option.some.injEq] at hstep
    exact hstep ▸ poll_holds hs hh report (hpoll report rfl)
  | tick =>
    rw [World.step, Option.some.injEq] at hstep
    subst hstep
    have hb := tick_batch hs.owned
    exact hh.of_same (hb.effect hs.owned).1 (fun k b hw hst => hb.open_of hs.owned hw hst)
      fun _ _ => rfl
  | advanceTo target =>
    rw [World.step, Option.some.injEq] at hstep
    subst hstep
    have hb := advanceTo_batch hs.owned target
    exact hh.of_same (hb.effect hs.owned).1 (fun k b hw hst => hb.open_of hs.owned hw hst)
      fun _ _ => rfl
  | drainReactor =>
    rw [World.step, Option.some.injEq] at hstep
    subst hstep
    exact hh.of_same rfl (fun _ _ _ hst => hst) fun _ _ => rfl
  | drainTimer =>
    rw [World.step, Option.some.injEq] at hstep
    subst hstep
    exact hh.of_same rfl (fun _ _ _ hst => hst) fun _ _ => rfl
  | resume sys =>
    obtain ⟨k, rest, hr, rfl⟩ := step_resume.mp hstep
    obtain ⟨p, hl⟩ := (popped_ready hr).resume hs ownerLoop sys
    exact hh.of_leave hl (hspares k (by rw [actor, hr]; rfl))
  | resumeForeign sys =>
    obtain ⟨entry, rest, hr, rfl⟩ := step_resumeForeign.mp hstep
    obtain ⟨p, hl⟩ := (popped_foreign hr).resume hs entry.1 sys
    exact hh.of_leave hl (hspares entry.2 (by rw [actor, hr]; rfl))
  | requestStop src tls =>
    obtain ⟨-, rfl⟩ := step_requestStop.mp hstep
    exact hh.of_same rfl (fun _ _ _ hst => hst) fun _ _ => rfl
  | callback k =>
    obtain ⟨a, src, tls, hw, -, -, -, rfl⟩ := step_callback.mp hstep
    exact callback_holds hh hs hw tls
  | deregister fd => cases hopen
  | remove fd => cases hopen
  | kernel k =>
    rw [World.step, Option.some.injEq] at hstep
    subst hstep
    exact hh.of_same rfl (fun _ _ _ hst => hst) fun _ _ => rfl

end Steps
end World
end RainRuntime
