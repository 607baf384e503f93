import RainRuntime.StopCallbacks

/-!
# Stopping a source on the loop's own thread

`request_stop` runs the callbacks of its source before it returns. On the loop's own thread
nothing comes in between: when it returns, no wait that holds a token of the source is
pending, and a wait that starts later is cancelled in its own `await_suspend`. `Settled`
says this of a world between two steps of that thread.

A source runs its callbacks in an order of its own, so the order is a parameter.
-/

namespace RainRuntime
namespace World

def runCallback (src : ℕ) (s : World) (h : Handle) : World :=
  match s.phase h with
  | .waiting a => if a.token = some src then (s.step (.callback h)).getD s else s
  | _ => s

/-- `request_stop` on the loop's own thread. A source that is stopped already does nothing. -/
def stopSource (order : List Handle) (s : World) (src : ℕ) : World :=
  match s.step (.requestStop src (some ownerLoop)) with
  | none => s
  | some t => order.foldl (runCallback src) t

structure Settled (s : World) : Prop where
  inv : Inv s
  home : Local s
  armed : ∀ h a src, s.phase h = .waiting a → a.token = some src → s.stopped src = none →
    a.callback = true
  moved : ∀ h a src, s.phase h = .waiting a → a.token = some src → s.stopped src ≠ none →
    s.heap.state a.cell ≠ .pending

def NoneStarts (s t : World) : Prop :=
  ∀ h b, t.phase h = .waiting b → ∃ a, s.phase h = .waiting a ∧ a.token = b.token

theorem NoneStarts.trans {s t u : World} (h₁ : NoneStarts s t) (h₂ : NoneStarts t u) :
    NoneStarts s u := by
  intro h c hc
  obtain ⟨b, hb, hbc⟩ := h₂ h c hc
  obtain ⟨a, ha, hab⟩ := h₁ h b hb
  exact ⟨a, ha, hab.trans hbc⟩

section Steps
variable {s t : World} {h k : Handle} {a : Awaiter} {src : ℕ} {op : WorldOp}

/-! ## Steps that start no wait -/

def Plain : WorldOp → Prop
  | .await _ _ _ _ _ _ => False
  | .requestStop _ _ => False
  | .callback _ => False
  | _ => True

theorem Plain.local (hop : Plain op) : LocalStop op := by
  cases op with
  | requestStop src tls => exact hop.elim
  | _ => trivial

theorem resume_not_waiting (hs : Inv s) (rest : List Handle) (h : Handle) (on : LoopId)
    (sys : Except Errno ℕ) (b : Awaiter) :
    (({ s with ready := rest } : World).resume h on sys).phase h ≠ .waiting b := by
  rw [resume]
  split_ifs with hd
  · intro hb
    have hdone := hs.owned.done h (Or.inr ⟨b, hb⟩)
    rw [show s.heap.done h = true from hd] at hdone
    cases hdone
  · cases s.phase h with
    | waiting a =>
      simp only [complete, Function.update_self]
      simp
    | _ =>
      simp only [setPhase, Function.update_self]
      simp

theorem Plain.phase_eq (hop : Plain op) (hs : Settled s) (hstep : step s op = some t)
    {b : Awaiter} (hb : t.phase h = .waiting b) : s.phase h = .waiting b := by
  by_cases hactor : s.actor op = some h
  swap
  · rw [← ((step_spec hs.inv hstep).frame h hactor).1]
    exact hb
  cases op with
  | wake k =>
    obtain ⟨-, rfl⟩ := step_wake.mp hstep
    obtain rfl : k = h := Option.some.inj hactor
    simp [setPhase] at hb
  | park k =>
    obtain ⟨on, -, rfl⟩ := step_park.mp hstep
    obtain rfl : k = h := Option.some.inj hactor
    simp [setPhase] at hb
  | finish k =>
    obtain ⟨on, -, rfl⟩ := step_finish.mp hstep
    obtain rfl : k = h := Option.some.inj hactor
    simp [setPhase, withHeap] at hb
  | resume sys =>
    obtain ⟨k, rest, hready, rfl⟩ := step_resume.mp hstep
    rw [actor, hready] at hactor
    obtain rfl : k = h := Option.some.inj hactor
    exact absurd hb (resume_not_waiting hs.inv rest k ownerLoop sys b)
  | resumeForeign sys =>
    obtain ⟨entry, rest, hforeign, -⟩ := step_resumeForeign.mp hstep
    rw [hs.home.foreign] at hforeign
    cases hforeign
  | await k kind fd cell token sys => exact hop.elim
  | requestStop src tls => exact hop.elim
  | callback k => exact hop.elim
  | _ => cases hactor

theorem Plain.stopped_eq (hop : Plain op) (hs : Settled s) (hstep : step s op = some t) :
    t.stopped = s.stopped := by
  cases op with
  | wake k =>
    obtain ⟨-, rfl⟩ := step_wake.mp hstep
    rfl
  | park k =>
    obtain ⟨on, -, rfl⟩ := step_park.mp hstep
    rfl
  | finish k =>
    obtain ⟨on, -, rfl⟩ := step_finish.mp hstep
    rfl
  | resume sys =>
    obtain ⟨k, rest, -, rfl⟩ := step_resume.mp hstep
    exact (home_rule.resume { s with ready := rest } k sys).stopped
  | resumeForeign sys =>
    obtain ⟨entry, rest, hforeign, -⟩ := step_resumeForeign.mp hstep
    rw [hs.home.foreign] at hforeign
    cases hforeign
  | await k kind fd cell token sys => exact hop.elim
  | requestStop src tls => exact hop.elim
  | callback k => exact hop.elim
  | _ =>
    rw [step, Option.some.injEq] at hstep
    subst hstep
    rfl

/-- A state that has left `pending` stays where it is while its coroutine waits. -/
theorem moved_of_step (hs : Inv s) (hstep : step s op = some t) (hw : s.phase h = .waiting a)
    (hw' : ∃ b, t.phase h = .waiting b) (hm : s.heap.state a.cell ≠ .pending) :
    t.heap.state a.cell = s.heap.state a.cell := by
  rcases (step_spec hs hstep).waits h a hw with hkept | ⟨u, on, sys, -, -, rfl⟩
  · exact hkept.moved hm
  · obtain ⟨b, hb⟩ := hw'
    simp [complete] at hb

theorem Settled.plain (hs : Settled s) (hop : Plain op) (hstep : step s op = some t) :
    Settled t ∧ NoneStarts s t := by
  have hst := hop.stopped_eq hs hstep
  have hback : ∀ k b, t.phase k = .waiting b → s.phase k = .waiting b :=
    fun k b hb => hop.phase_eq hs hstep hb
  refine ⟨⟨(step_spec hs.inv hstep).inv, step_local hop.local hstep hs.home, ?_, ?_⟩, ?_⟩
  · intro k b src hb htok hnone
    rw [hst] at hnone
    exact hs.armed k b src (hback k b hb) htok hnone
  · intro k b src hb htok hsome
    rw [hst] at hsome
    have hm := hs.moved k b src (hback k b hb) htok hsome
    rw [moved_of_step hs.inv hstep (hback k b hb) ⟨b, hb⟩ hm]
    exact hm
  · intro k b hb
    exact ⟨b, hback k b hb, rfl⟩

/-! ## Waits that start -/

/-- How the coroutine `h` waits, if it does, after an await with this token: with a callback,
or cancelled if the source was stopped before. -/
structure Starts (t : World) (h : Handle) (token : Option ℕ)
    (stopped : ℕ → Option (Option LoopId)) :
    Prop where
  injected : ∀ b, t.phase h = .waiting b → b.token = token
  armed : ∀ b src, t.phase h = .waiting b → token = some src → stopped src = none →
    b.callback = true
  cancelled : ∀ b src, t.phase h = .waiting b → token = some src → stopped src ≠ none →
    t.heap.state b.cell = .cancelled

theorem Starts.of_phase {b : Awaiter} {stopped : ℕ → Option (Option LoopId)}
    (hb : t.phase h = .waiting b)
    (harmed : ∀ src, b.token = some src → stopped src = none → b.callback = true)
    (hcan : ∀ src, b.token = some src → stopped src ≠ none → t.heap.state b.cell = .cancelled) :
    Starts t h b.token stopped := by
  constructor
  case injected =>
    intro c hc
    rw [hb, Phase.waiting.injEq] at hc
    rw [hc]
  case armed =>
    intro c src hc
    rw [hb, Phase.waiting.injEq] at hc
    rw [← hc]
    exact harmed src
  case cancelled =>
    intro c src hc
    rw [hb, Phase.waiting.injEq] at hc
    rw [← hc]
    exact hcan src

theorem Starts.of_running {on : LoopId} (token : Option ℕ)
    (stopped : ℕ → Option (Option LoopId)) (hr : t.phase h = .running on) :
    Starts t h token stopped := by
  constructor
  case injected =>
    intro b hb
    exact absurd hb (not_waiting hr b)
  case armed =>
    intro b _ hb
    exact absurd hb (not_waiting hr b)
  case cancelled =>
    intro b _ hb
    exact absurd hb (not_waiting hr b)

theorem installCallback_starts (hp : s.heap.state a.cell = .pending) (h : Handle)
    (tls : Option LoopId) : Starts (s.installCallback h a tls) h a.token s.stopped := by
  rw [installCallback]
  cases htok : a.token with
  | none =>
    dsimp only
    rw [← htok]
    refine Starts.of_phase (b := a) (Function.update_self ..) ?_ ?_
    · simp [htok]
    · simp [htok]
  | some src =>
    dsimp only
    cases hst : s.stopped src with
    | none =>
      rw [← htok]
      refine Starts.of_phase (b := { a with callback := true }) (Function.update_self ..) ?_ ?_
      · exact fun _ _ _ => rfl
      · intro src' htok' hne
        rw [show a.token = some src' from htok', Option.some.injEq] at htok
        rw [htok, hst] at hne
        exact absurd rfl hne
    | some tls' =>
      rw [← htok]
      refine Starts.of_phase (b := a) ?_ ?_ ?_
      · rw [cancelWait_phase]
        exact Function.update_self ..
      · intro src' htok' hnone
        rw [htok', Option.some.injEq] at htok
        rw [htok, hst] at hnone
        cases hnone
      · intro _ _ _
        exact cancelWait_state h (s := s.suspend h a) hp

theorem registerWait_stopped (s : World) (h : Handle) (a : Awaiter) (d : Direction) :
    (s.registerWait h a d).2.stopped = s.stopped := by
  cases d <;> rfl

theorem suspendIo_starts {d : Direction} (hd : a.kind.direction = some d)
    (hp : s.heap.state a.cell = .pending) (h : Handle) (on : LoopId) (tls : Option LoopId)
    (cleanup : World → World) (sys : Except Errno ℕ) :
    Starts (finishAwait (s.suspendIo h a d tls cleanup) h on sys) h a.token s.stopped := by
  have hstop := registerWait_stopped s h a d
  have hheap := (registerWait_added (s := s) (h := h) hd).heap
  rw [suspendIo]
  generalize s.registerWait h a d = r at hstop hheap ⊢
  obtain ⟨res, u⟩ := r
  dsimp only at hstop hheap
  cases res with
  | error e => exact Starts.of_running _ _ (complete_phase ..)
  | ok x =>
    rw [← hstop]
    refine installCallback_starts ?_ h tls
    rw [hheap]
    exact hp

theorem scheduleWait_stopped (s : World) (h : Handle) (a : Awaiter) (delay : ℤ) (c : WaitState) :
    (s.scheduleWait h a delay c).2.stopped = s.stopped ∧
      (s.scheduleWait h a delay c).2.heap = s.heap := by
  rw [scheduleWait_snd]
  exact ⟨rfl, rfl⟩

theorem awaitSuspend_starts (hp : s.heap.state a.cell = .pending) (h : Handle) (on : LoopId)
    (tls : Option LoopId) (sys : Except Errno ℕ) :
    Starts (finishAwait (s.awaitSuspend h a tls) h on sys) h a.token s.stopped := by
  rw [awaitSuspend]
  cases hk : a.kind with
  | connect => exact suspendIo_starts (by rw [hk]; rfl) hp h on tls id sys
  | readReady => exact suspendIo_starts (by rw [hk]; rfl) hp h on tls id sys
  | writeReady => exact suspendIo_starts (by rw [hk]; rfl) hp h on tls id sys
  | accept => exact suspendIo_starts (by rw [hk]; rfl) hp h on tls id sys
  | timedReady d timeout =>
    dsimp only
    split_ifs with hle
    · exact Starts.of_running _ _ (complete_phase ..)
    · obtain ⟨hst, hheap⟩ := scheduleWait_stopped s h a timeout .timedOut
      have htok := scheduleWait_token s h a timeout .timedOut
      obtain ⟨hkind, hcell, -, -⟩ := scheduleWait_frame s h a timeout .timedOut
      generalize s.scheduleWait h a timeout .timedOut = r at hheap hkind hcell htok hst ⊢
      rw [← htok, ← hst]
      refine suspendIo_starts (by rw [hkind, hk]; rfl) ?_ h on tls _ sys
      rw [hheap, hcell]
      exact hp
  | sleep delay =>
    dsimp only
    split_ifs with hle
    · exact Starts.of_running _ _ (complete_phase ..)
    · obtain ⟨hst, hheap⟩ := scheduleWait_stopped s h a delay .ready
      have htok := scheduleWait_token s h a delay .ready
      obtain ⟨-, hcell, -, -⟩ := scheduleWait_frame s h a delay .ready
      generalize s.scheduleWait h a delay .ready = r at hheap hcell htok hst ⊢
      rw [← htok, ← hst]
      refine installCallback_starts ?_ h tls
      rw [hheap, hcell]
      exact hp

theorem begin_stopped (s : World) (h : Handle) (kind : WaitKind) (cell : StatePtr) :
    (s.begin h kind cell).stopped = s.stopped := by
  obtain ⟨m, heq, -, -⟩ := initCells_eq s kind cell
  rw [World.begin, heq]
  rfl

section Await
variable {kind : WaitKind} {fd : ℤ} {cell : StatePtr} {token : Option ℕ} {sys : Except Errno ℕ}

theorem step_await_starts (hs : Inv s) (hstep : step s (.await h kind fd cell token sys) = some t) :
    Starts t h token s.stopped := by
  obtain ⟨on, hph, hfree, hawait⟩ := step_await.mp hstep
  rw [await_eq] at hawait
  obtain ⟨hb, -⟩ := begun hs hph kind hfree fd token
  have hstarts := awaitSuspend_starts hb.pending h on (some on) sys
  rw [hawait, begin_stopped] at hstarts
  exact hstarts

theorem Settled.await_stopped (hs : Settled s)
    (hstep : step s (.await h kind fd cell token sys) = some t) : t.stopped = s.stopped := by
  obtain ⟨on, hph, -, rfl⟩ := step_await.mp hstep
  obtain rfl := hs.home.running h on hph
  exact (home_rule.await s h kind fd cell token sys).stopped

theorem Settled.await (hs : Settled s)
    (hstep : step s (.await h kind fd cell token sys) = some t) : Settled t := by
  have hspec := step_spec hs.inv hstep
  have hstarts := step_await_starts hs.inv hstep
  have hst := hs.await_stopped hstep
  have hframe : ∀ k, k ≠ h → t.phase k = s.phase k :=
    fun k hk => (hspec.frame k fun he => hk (Option.some.inj he).symm).1
  have hlocal : LocalStop (.await h kind fd cell token sys) := trivial
  refine ⟨hspec.inv, step_local hlocal hstep hs.home, ?_, ?_⟩
  · intro k b src hb htok hnone
    rw [hst] at hnone
    by_cases hk : k = h
    · subst hk
      exact hstarts.armed b src hb ((hstarts.injected b hb).symm.trans htok) hnone
    · rw [hframe k hk] at hb
      exact hs.armed k b src hb htok hnone
  · intro k b src hb htok hsome
    rw [hst] at hsome
    by_cases hk : k = h
    · subst hk
      rw [hstarts.cancelled b src hb ((hstarts.injected b hb).symm.trans htok) hsome]
      decide
    · have hb' := hb
      rw [hframe k hk] at hb'
      have hm := hs.moved k b src hb' htok hsome
      rw [moved_of_step hs.inv hstep hb' ⟨b, hb⟩ hm]
      exact hm

end Await

/-! ## The callbacks of a stopped source -/

/-- What callbacks of `src` may have done to the world: waits that hold its token and were
pending are cancelled. -/
structure Stops (src : ℕ) (s t : World) : Prop where
  inv : Inv t
  home : Local t
  stopped : t.stopped = s.stopped
  back : ∀ h b, t.phase h = .waiting b → ∃ a, s.phase h = .waiting a ∧ a.token = b.token
  wait : ∀ h a, s.phase h = .waiting a → ∃ b, t.phase h = .waiting b ∧ b.cell = a.cell ∧
    b.token = a.token ∧ (a.token ≠ some src → b = a) ∧
    (t.heap.state a.cell = s.heap.state a.cell ∨
      a.token = some src ∧ s.heap.state a.cell = .pending ∧ t.heap.state a.cell = .cancelled)

theorem Stops.refl (hs : Inv s) (hl : Local s) (src : ℕ) : Stops src s s where
  inv := hs
  home := hl
  stopped := rfl
  back _ b hb := ⟨b, hb, rfl⟩
  wait _ a ha := ⟨a, ha, rfl, rfl, fun _ => rfl, Or.inl rfl⟩

theorem Stops.trans {u : World} (h₁ : Stops src s t) (h₂ : Stops src t u) : Stops src s u where
  inv := h₂.inv
  home := h₂.home
  stopped := h₂.stopped.trans h₁.stopped
  back := NoneStarts.trans h₁.back h₂.back
  wait h a ha := by
    obtain ⟨b, hb, hcell, htok, heq, hstate⟩ := h₁.wait h a ha
    obtain ⟨c, hc, hcell', htok', heq', hstate'⟩ := h₂.wait h b hb
    refine ⟨c, hc, hcell'.trans hcell, htok'.trans htok, fun hne => ?_, ?_⟩
    · rw [heq' (by rw [htok]; exact hne), heq hne]
    · rw [hcell, htok] at hstate'
      rcases hstate' with hsame | ⟨hsrc, hpend, hcan⟩
      · rw [hsame]
        exact hstate
      · rcases hstate with hsame | ⟨-, -, hcan'⟩
        · exact Or.inr ⟨hsrc, hsame ▸ hpend, hcan⟩
        · rw [hcan'] at hpend
          cases hpend

theorem runCallback_cases (src : ℕ) (s : World) (h : Handle) :
    (runCallback src s h = s ∧ ∀ a, s.phase h = .waiting a → a.token = some src →
      s.step (.callback h) = none) ∨
    ∃ a, s.phase h = .waiting a ∧ a.token = some src ∧
      s.step (.callback h) = some (runCallback src s h) := by
  rw [runCallback]
  cases hw : s.phase h with
  | waiting a =>
    dsimp only
    split_ifs with htok
    · cases hstep : s.step (.callback h) with
      | none => exact Or.inl ⟨rfl, fun _ _ _ => rfl⟩
      | some t => exact Or.inr ⟨a, rfl, htok, rfl⟩
    · refine Or.inl ⟨rfl, fun b hb hb' => ?_⟩
      rw [Phase.waiting.injEq] at hb
      exact absurd (hb ▸ hb') htok
  | _ => exact Or.inl ⟨rfl, by simp⟩

theorem step_callback_spec (hs : Inv s) (hw : s.phase h = .waiting a)
    (hstep : s.step (.callback h) = some t) :
    Inv t ∧ Others s t h ∧ t.phase h = .waiting { a with callback := false } ∧
      (s.heap.state a.cell = .pending → t.heap.state a.cell = .cancelled) ∧
      (s.heap.state a.cell ≠ .pending → t.heap.state a.cell = s.heap.state a.cell) := by
  obtain ⟨a', src, tls, hw', -, -, -, ht⟩ := step_callback.mp hstep
  rw [hw, Phase.waiting.injEq] at hw'
  subst hw'
  obtain ⟨hinv, hothers, hkept⟩ := hs.callback hw tls ht
  refine ⟨hinv, hothers, ?_, fun hp => ?_, hkept.moved⟩
  · rw [← ht]
    exact Function.update_self ..
  · rw [← ht]
    exact cancelWait_state h hp

theorem step_callback_stopped (hl : Local s) (hstep : s.step (.callback h) = some t) :
    t.stopped = s.stopped := by
  obtain ⟨a, src, tls, -, -, hst, -, rfl⟩ := step_callback.mp hstep
  obtain rfl := hl.stopped src tls hst
  exact (home_rule.cancelWait s h a).stopped

theorem runCallback_stops (hs : Inv s) (hl : Local s) (src : ℕ) (h : Handle) :
    Stops src s (runCallback src s h) := by
  rcases runCallback_cases src s h with ⟨heq, -⟩ | ⟨a, hw, htok, hstep⟩
  · rw [heq]
    exact Stops.refl hs hl src
  generalize runCallback src s h = t at hstep ⊢
  obtain ⟨hinv, hothers, hself, hpend, hmoved⟩ := step_callback_spec hs hw hstep
  have hlocal : LocalStop (.callback h) := trivial
  refine ⟨hinv, step_local hlocal hstep hl, step_callback_stopped hl hstep, ?_, ?_⟩
  · intro k b hb
    by_cases hk : k = h
    · subst hk
      rw [hself, Phase.waiting.injEq] at hb
      exact ⟨a, hw, by rw [← hb]⟩
    · rw [hothers.phase k hk] at hb
      exact ⟨b, hb, rfl⟩
  · intro k b hb
    by_cases hk : k = h
    · subst hk
      rw [hw, Phase.waiting.injEq] at hb
      subst hb
      refine ⟨_, hself, rfl, rfl, fun hne => absurd htok hne, ?_⟩
      by_cases hp : s.heap.state a.cell = .pending
      · exact Or.inr ⟨htok, hp, hpend hp⟩
      · exact Or.inl (hmoved hp)
    · exact ⟨b, (hothers.phase k hk).trans hb, rfl, rfl, fun _ => rfl,
        Or.inl (hothers.state k b hk hb)⟩

def Armed (src : ℕ) (s : World) : Prop :=
  ∀ h a, s.phase h = .waiting a → a.token = some src → s.heap.state a.cell = .pending →
    a.callback = true

theorem runCallback_armed (hs : Inv s) (harm : Armed src s) (h : Handle) :
    Armed src (runCallback src s h) := by
  rcases runCallback_cases src s h with ⟨heq, -⟩ | ⟨a, hw, htok, hstep⟩
  · rw [heq]
    exact harm
  generalize runCallback src s h = t at hstep ⊢
  obtain ⟨-, hothers, hself, hpend, hmoved⟩ := step_callback_spec hs hw hstep
  intro k b hb htok' hp
  by_cases hk : k = h
  · subst hk
    rw [hself, Phase.waiting.injEq] at hb
    rw [← hb] at hp
    by_cases hp' : s.heap.state a.cell = .pending
    · rw [show t.heap.state a.cell = .pending from hp] at hpend
      cases hpend hp'
    · exact absurd ((hmoved hp').symm.trans hp) hp'
  · rw [hothers.phase k hk] at hb
    rw [hothers.state k b hk hb] at hp
    exact harm k b hb htok' hp

theorem runCallback_moved (hs : Inv s) (harm : Armed src s) (hst : s.stopped src ≠ none)
    (hw : s.phase h = .waiting a) (htok : a.token = some src) :
    (runCallback src s h).heap.state a.cell ≠ .pending := by
  rcases runCallback_cases src s h with ⟨heq, hnone⟩ | ⟨b, hb, -, hstep⟩
  · rw [heq]
    intro hp
    obtain ⟨tls, hst⟩ := Option.ne_none_iff_exists'.mp hst
    have hsome := step_callback.mpr ⟨a, src, tls, hw, htok, hst, harm h a hw htok hp, rfl⟩
    rw [hnone a hw htok] at hsome
    cases hsome
  · generalize runCallback src s h = t at hstep ⊢
    obtain ⟨-, -, -, hpend, hmoved⟩ := step_callback_spec hs hw hstep
    by_cases hp : s.heap.state a.cell = .pending
    · rw [hpend hp]
      decide
    · rw [hmoved hp]
      exact hp

/-- The callbacks of `src`, in any order that misses nobody: no wait for it is left pending. -/
theorem callbacks_stop (order : List Handle) (hs : Inv s) (hl : Local s) (harm : Armed src s)
    (hst : s.stopped src ≠ none) :
    Stops src s (order.foldl (runCallback src) s) ∧
      ∀ h ∈ order, ∀ a, s.phase h = .waiting a → a.token = some src →
        (order.foldl (runCallback src) s).heap.state a.cell ≠ .pending := by
  induction order generalizing s with
  | nil =>
    refine ⟨Stops.refl hs hl src, ?_⟩
    intro h hmem
    cases hmem
  | cons k order ih =>
    have hone := runCallback_stops hs hl src k
    have hst' : (runCallback src s k).stopped src ≠ none := by
      rw [hone.stopped]
      exact hst
    obtain ⟨hrest, hall⟩ := ih hone.inv hone.home (runCallback_armed hs harm k) hst'
    refine ⟨hone.trans hrest, fun h hmem a ha htok => ?_⟩
    obtain ⟨b, hb, hcell, hbtok, -, -⟩ := hone.wait h a ha
    rw [List.foldl_cons, ← hcell]
    rcases List.mem_cons.mp hmem with rfl | hmem
    · have hm := runCallback_moved hs harm hst ha htok
      rw [← hcell] at hm
      obtain ⟨-, -, -, -, -, hstate⟩ := hrest.wait h b hb
      rcases hstate with hsame | ⟨-, hpend, -⟩
      · rw [hsame]
        exact hm
      · exact absurd hpend hm
    · exact hall h hmem b hb (hbtok.trans htok)

theorem Stops.waiting (h : Stops src s t) {k : Handle} {b : Awaiter} (hb : t.phase k = .waiting b) :
    ∃ a, s.phase k = .waiting a ∧ b.cell = a.cell ∧ b.token = a.token ∧
      (a.token ≠ some src → b = a ∧ t.heap.state a.cell = s.heap.state a.cell) := by
  obtain ⟨a, ha, -⟩ := h.back k b hb
  obtain ⟨c, hc, hcell, htok, heq, hstate⟩ := h.wait k a ha
  rw [hb, Phase.waiting.injEq] at hc
  subst hc
  refine ⟨a, ha, hcell, htok, fun hne => ⟨heq hne, ?_⟩⟩
  rcases hstate with hsame | ⟨hsrc, -, -⟩
  · exact hsame
  · exact absurd hsrc hne

theorem stopSource_of_stopped (order : List Handle) (hst : s.stopped src ≠ none) :
    s.stopSource order src = s := by
  rw [World.stopSource]
  cases hstep : s.step (.requestStop src (some ownerLoop)) with
  | none => rfl
  | some t => exact absurd (step_requestStop.mp hstep).1 hst

theorem stopSource_of_unstopped (hs : Settled s) (hst : s.stopped src = none)
    (order : List Handle) : ∃ t, t.phase = s.phase ∧ t.heap = s.heap ∧
      t.stopped = Function.update s.stopped src (some (some ownerLoop)) ∧
      Stops src t (s.stopSource order src) ∧
      ∀ h ∈ order, ∀ a, s.phase h = .waiting a → a.token = some src →
        (s.stopSource order src).heap.state a.cell ≠ .pending := by
  have hstep : s.step (.requestStop src (some ownerLoop)) = some
      { s with stopped := Function.update s.stopped src (some (some ownerLoop)) } :=
    step_requestStop.mpr ⟨hst, rfl⟩
  have hlocal : LocalStop (.requestStop src (some ownerLoop)) := rfl
  have hmark : ({ s with
      stopped := Function.update s.stopped src (some (some ownerLoop)) } : World).stopped src ≠
        none := by
    simp
  have harm : Armed src
      { s with stopped := Function.update s.stopped src (some (some ownerLoop)) } :=
    fun h a ha htok _ => hs.armed h a src ha htok hst
  obtain ⟨hstops, hall⟩ := callbacks_stop order (step_spec hs.inv hstep).inv
    (step_local hlocal hstep hs.home) harm hmark
  refine ⟨{ s with stopped := Function.update s.stopped src (some (some ownerLoop)) },
    rfl, rfl, rfl, ?_, ?_⟩
  · rw [World.stopSource, hstep]
    exact hstops
  · rw [World.stopSource, hstep]
    exact hall

theorem Settled.stopSource (hs : Settled s) (src : ℕ) {order : List Handle}
    (hall : ∀ h a, s.phase h = .waiting a → h ∈ order) :
    Settled (s.stopSource order src) ∧ NoneStarts s (s.stopSource order src) := by
  by_cases hst : s.stopped src = none
  swap
  · rw [stopSource_of_stopped order hst]
    exact ⟨hs, fun h b hb => ⟨b, hb, rfl⟩⟩
  obtain ⟨t, hphase, hheap, hmark, hstops, hmoved⟩ := stopSource_of_unstopped hs hst order
  generalize s.stopSource order src = u at hstops hmoved ⊢
  refine ⟨⟨hstops.inv, hstops.home, ?_, ?_⟩, ?_⟩
  · intro h b src' hb htok hnone
    obtain ⟨a, ha, -, htok', hsame⟩ := hstops.waiting hb
    rw [hphase] at ha
    rw [hstops.stopped, hmark] at hnone
    have hne : src' ≠ src := by
      rintro rfl
      rw [Function.update_self] at hnone
      cases hnone
    rw [Function.update_of_ne hne] at hnone
    have hsrc : a.token ≠ some src := by
      rw [← htok', htok]
      simpa using hne
    rw [(hsame hsrc).1]
    exact hs.armed h a src' ha (htok'.symm.trans htok) hnone
  · intro h b src' hb htok hsome
    obtain ⟨a, ha, hcell, htok', hsame⟩ := hstops.waiting hb
    rw [hphase] at ha
    rw [hcell]
    by_cases hsrc : src' = src
    · subst hsrc
      exact hmoved h (hall h a ha) a ha (htok'.symm.trans htok)
    · rw [hstops.stopped, hmark, Function.update_of_ne hsrc] at hsome
      have hne : a.token ≠ some src := by
        rw [← htok', htok]
        simpa using hsrc
      rw [(hsame hne).2, hheap]
      exact hs.moved h a src' ha (htok'.symm.trans htok) hsome
  · intro h b hb
    obtain ⟨a, ha, -, htok, -⟩ := hstops.waiting hb
    exact ⟨a, hphase ▸ ha, htok.symm⟩

/-- A stop cancels the pending waits that hold a token of its source, and no others. -/
theorem Settled.cancelled_iff (hs : Settled s) (src : ℕ) {order : List Handle} (hmem : h ∈ order)
    (hw : s.phase h = .waiting a) (hp : s.heap.state a.cell = .pending) :
    (s.stopSource order src).heap.state a.cell = .cancelled ↔ a.token = some src := by
  by_cases hst : s.stopped src = none
  swap
  · rw [stopSource_of_stopped order hst, hp]
    refine iff_of_false (by decide) fun htok => ?_
    exact hs.moved h a src hw htok hst hp
  obtain ⟨t, hphase, hheap, -, hstops, hmoved⟩ := stopSource_of_unstopped hs hst order
  obtain ⟨b, -, -, -, -, hstate⟩ := hstops.wait h a (hphase ▸ hw)
  rw [hheap, hp] at hstate
  rcases hstate with hsame | ⟨htok, -, hcan⟩
  · rw [hsame]
    refine iff_of_false (by decide) fun htok => ?_
    exact hmoved h hmem a hw htok hsame
  · exact iff_of_true hcan htok

end Steps
end World
end RainRuntime
