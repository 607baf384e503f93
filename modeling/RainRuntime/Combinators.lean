import RainRuntime.Transition
import RainRuntime.Types

/-!
# Racing combinators

`when_any` and `timeout` let racers compete for one shared state: the first to resolve it
stores its result there and wakes the coroutine that awaits the race. That coroutine reads
the state twice. The awaiter's `await_resume` moves the result out, the `co_await` stands
as a statement and drops what it gets, and the `co_return` moves from the state again.

Racers run one at a time, on the loop's thread, in any order and with any outcomes. A
value type comes with what a move leaves behind in its source.
-/

namespace RainRuntime

class Movable (T : Type*) where
  movedFrom : T → T

instance : Movable ℕ := ⟨id⟩

instance : Movable String := ⟨fun _ => ""⟩

/-- An error's code is copied; its text is a string. -/
def SystemError.movedFrom (e : SystemError) : SystemError := { e with message := .text "" }

def makeTimedOutError : SystemError := ⟨.timedOut, .text "operation timed out"⟩

namespace Result
variable {T : Type*}

def movedFrom [Movable T] : Result T → Result T
  | .ok v => .ok (Movable.movedFrom v)
  | .error e => .error e.movedFrom

/-- Results that a move copies: values without resources, and errors without a text. -/
def Trivial [Movable T] : Result T → Prop
  | .ok v => Movable.movedFrom v = v
  | .error e => e.message = .text ""

theorem movedFrom_eq_self_iff [Movable T] (r : Result T) : movedFrom r = r ↔ Trivial r := by
  cases r with
  | ok v => simp only [movedFrom, Trivial, Except.ok.injEq]
  | error e =>
    cases e
    simp only [movedFrom, Trivial, SystemError.movedFrom, Except.error.injEq,
      SystemError.mk.injEq, true_and]
    exact eq_comm

def isOk : Result T → Bool
  | .ok _ => true
  | .error _ => false

end Result

/-- `WhenAnyState`. A `TimeoutState` has no `remaining`, and its two sources, the task's and
the sentinel's, are held by the racers. -/
structure RaceState (T : Type*) where
  resolved : Bool
  remaining : ℕ
  result : Result T
  waiter : Option Handle
  sources : List Bool

namespace RaceState
variable {T : Type*}

def whenAny (n : ℕ) : RaceState T :=
  ⟨false, n, .error makeCancelledError, none, List.replicate n false⟩

def timeout : RaceState T := ⟨false, 0, .error makeCancelledError, none, [false, false]⟩

def resolve (s : RaceState T) (r : Result T) (sources : List Bool) : RaceState T :=
  { s with resolved := true, result := r, sources := sources }

def whenAnyRacer (s : RaceState T) (r : Result T) : Bool × RaceState T :=
  let s := { s with remaining := s.remaining - 1 }
  if !s.resolved && (r.isOk || s.remaining == 0) then
    (true, s.resolve r (s.sources.map fun _ => true))
  else (false, s)

def timeoutTaskRacer (s : RaceState T) (r : Result T) : Bool × RaceState T :=
  if !s.resolved then (true, s.resolve r (s.sources.set 1 true)) else (false, s)

def timeoutTimerRacer (s : RaceState T) (slept : Result Unit) : Bool × RaceState T :=
  match slept with
  | .error _ => (false, s)
  | .ok _ =>
    if !s.resolved then (true, s.resolve (.error makeTimedOutError) (s.sources.set 0 true))
    else (false, s)

def awaitSuspend (s : RaceState T) (h : Handle) : Bool × RaceState T :=
  (!s.resolved, { s with waiter := some h })

variable [Movable T]

/-- `std::move(state->result)` as the source of a new `Result`. -/
def moveResult (s : RaceState T) : Result T × RaceState T :=
  (s.result, { s with result := s.result.movedFrom })

def awaitResume (s : RaceState T) : Result T × RaceState T := s.moveResult

def finish (s : RaceState T) : Result T × RaceState T :=
  let s := s.awaitResume.2
  s.moveResult

end RaceState

inductive Combinator where
  | whenAny (tasks : ℕ)
  | timeout
  deriving DecidableEq

inductive Body (T : Type*) where
  | starting
  | suspended
  | returned (r : Result T)

/-- `racing` are the racers that have not ended; in a timeout 0 is the task and 1 the
sentinel. `queued` is how often the body stands in the ready queue, `stored` what the
winner stored. -/
structure Race (T : Type*) where
  state : RaceState T
  body : Body T
  racing : List ℕ
  queued : ℕ
  stored : Option (Result T)

inductive RaceOp (T : Type*) where
  | await (h : Handle)
  | taskDone (i : ℕ) (r : Result T)
  | sleepDone (slept : Result Unit)
  | resume

namespace Race
variable {T : Type*}

def create : Combinator → Race T
  | .whenAny n => ⟨.whenAny n, .starting, List.range n, 0, none⟩
  | .timeout => ⟨.timeout, .starting, [0, 1], 0, none⟩

def settle (s : Race T) (i : ℕ) (p : Bool × RaceState T) : Race T where
  state := p.2
  body := s.body
  racing := s.racing.erase i
  queued := if p.1 && p.2.waiter.isSome then s.queued + 1 else s.queued
  stored := if p.1 then some p.2.result else s.stored

variable [Movable T]

def finish (s : Race T) : Race T :=
  { s with state := s.state.finish.2, body := .returned s.state.finish.1 }

def step (c : Combinator) (s : Race T) : RaceOp T → Option (Race T)
  | .await h =>
    match s.body with
    | .starting =>
      if c = .whenAny 0 then some { s with body := .returned (.error makeCancelledError) }
      else if s.state.resolved then some s.finish
      else if (s.state.awaitSuspend h).1 then
        some { s with state := (s.state.awaitSuspend h).2, body := .suspended }
      else some ({ s with state := (s.state.awaitSuspend h).2 } : Race T).finish
    | _ => none
  | .taskDone i r =>
    if i ∈ s.racing then
      match c with
      | .whenAny _ => some (s.settle i (s.state.whenAnyRacer r))
      | .timeout => if i = 0 then some (s.settle i (s.state.timeoutTaskRacer r)) else none
    else none
  | .sleepDone slept =>
    match c with
    | .whenAny _ => none
    | .timeout =>
      if 1 ∈ s.racing then some (s.settle 1 (s.state.timeoutTimerRacer slept)) else none
  | .resume =>
    match s.body, s.queued with
    | .suspended, n + 1 => some ({ s with queued := n } : Race T).finish
    | _, _ => none

def Reaches (c : Combinator) (ops : List (RaceOp T)) (s : Race T) : Prop :=
  Transition.run (step c) (create c) ops = some s

end Race

inductive Verdict {T : Type*} (s : RaceState T) : Bool × RaceState T → Prop where
  | lost {t : RaceState T} (resolved : t.resolved = s.resolved) (result : t.result = s.result)
      (waiter : t.waiter = s.waiter) : Verdict s (false, t)
  | won {t : RaceState T} (undecided : s.resolved = false) (resolved : t.resolved = true)
      (waiter : t.waiter = s.waiter) : Verdict s (true, t)

namespace RaceState
variable {T : Type*} (s : RaceState T)

theorem whenAnyRacer_verdict (r : Result T) : Verdict s (s.whenAnyRacer r) := by
  unfold whenAnyRacer
  dsimp only
  split_ifs with hwin
  · rw [Bool.and_eq_true, Bool.not_eq_true'] at hwin
    exact .won hwin.1 rfl rfl
  · exact .lost rfl rfl rfl

theorem timeoutTaskRacer_verdict (r : Result T) : Verdict s (s.timeoutTaskRacer r) := by
  unfold timeoutTaskRacer
  split_ifs with hwin
  · rw [Bool.not_eq_true'] at hwin
    exact .won hwin rfl rfl
  · exact .lost rfl rfl rfl

theorem timeoutTimerRacer_verdict (slept : Result Unit) :
    Verdict s (s.timeoutTimerRacer slept) := by
  unfold timeoutTimerRacer
  cases slept with
  | error e => exact .lost rfl rfl rfl
  | ok u =>
    dsimp only
    split_ifs with hwin
    · rw [Bool.not_eq_true'] at hwin
      exact .won hwin rfl rfl
    · exact .lost rfl rfl rfl

end RaceState

namespace Race
variable {T : Type*} [Movable T]

/-- The winner's result stays in the state until the body takes it, and a suspended body is
in the ready queue, once, when there is a winner. -/
structure Inv (c : Combinator) (s : Race T) : Prop where
  empty : c = .whenAny 0 → s.racing = [] ∧ s.stored = none
  resolved : s.state.resolved = s.stored.isSome
  kept : ∀ r, s.stored = some r → (∀ x, s.body ≠ .returned x) → s.state.result = r
  starting : s.body = .starting → s.state.waiter = none
  suspended : s.body = .suspended →
    s.state.waiter.isSome ∧ s.queued = if s.stored.isSome then 1 else 0
  unqueued : s.body ≠ .suspended → s.queued = 0
  returned : ∀ x, s.body = .returned x →
    (c = .whenAny 0 ∧ s.stored = none) ∨ ∃ r, s.stored = some r ∧ x = r.movedFrom

section Inv
variable {c : Combinator} {s t : Race T}

theorem create_inv (c : Combinator) : Inv c (create c : Race T) := by
  cases c <;> constructor <;> simp +contextual [create, RaceState.whenAny, RaceState.timeout]

theorem Inv.settle (hs : Inv c s) {i : ℕ} (hi : i ∈ s.racing) {p : Bool × RaceState T}
    (hp : Verdict s.state p) : Inv c (s.settle i p) := by
  have hne : c ≠ .whenAny 0 := by
    intro hc
    rw [(hs.empty hc).1] at hi
    cases hi
  cases hp with
  | @lost u hres hresult hwait =>
    constructor
    case empty => exact fun hc => absurd hc hne
    case resolved => exact hres.trans hs.resolved
    case kept => exact fun r hr hb => hresult.trans (hs.kept r hr hb)
    case starting => exact fun hb => hwait.trans (hs.starting hb)
    case suspended => exact fun hb => ⟨hwait ▸ (hs.suspended hb).1, (hs.suspended hb).2⟩
    case unqueued => exact hs.unqueued
    case returned => exact hs.returned
  | @won u hopen hres hwait =>
    have hnone : s.stored = none := by
      rw [hs.resolved] at hopen
      simpa using hopen
    have hrunning : ∀ x, s.body ≠ .returned x := by
      intro x hx
      rcases hs.returned x hx with ⟨hc, -⟩ | ⟨r, hr, -⟩
      · exact hne hc
      · rw [hnone] at hr
        cases hr
    constructor
    case empty => exact fun hc => absurd hc hne
    case resolved => exact hres
    case kept => exact fun r hr _ => Option.some.inj hr
    case starting => exact fun hb => hwait.trans (hs.starting hb)
    case suspended =>
      intro hb
      obtain ⟨hw, hq⟩ := hs.suspended hb
      rw [hnone] at hq
      refine ⟨hwait ▸ hw, ?_⟩
      simp [Race.settle, hwait, hw, hq]
    case unqueued =>
      intro hb
      have hstart : s.body = .starting := by
        cases hbody : s.body with
        | starting => rfl
        | suspended => exact absurd hbody hb
        | returned x => exact absurd hbody (hrunning x)
      simp [Race.settle, hwait, hs.starting hstart, hs.unqueued hb]
    case returned => exact fun x hx => absurd hx (hrunning x)

/-- The body goes on once there is a winner: it takes the result, and then what is left of
it. -/
theorem Inv.finish (hs : Inv c s) {r : Result T} (hr : s.stored = some r)
    (hb : ∀ x, s.body ≠ .returned x) {n : ℕ} (hn : n = 0) :
    Inv c ({ s with queued := n } : Race T).finish := by
  constructor
  case empty => exact hs.empty
  case resolved => exact hs.resolved
  case kept => exact fun _ _ hnot => absurd rfl (hnot _)
  case starting => intro hbody; cases hbody
  case suspended => intro hbody; cases hbody
  case unqueued => exact fun _ => hn
  case returned =>
    intro x hx
    cases hx
    exact Or.inr ⟨r, hr, congrArg Result.movedFrom (hs.kept r hr hb)⟩

theorem Inv.suspend (hs : Inv c s) (hb : s.body = .starting) (hopen : s.state.resolved = false)
    (h : Handle) :
    Inv c { s with state := (s.state.awaitSuspend h).2, body := .suspended } := by
  have hnone : s.stored = none := by
    rw [hs.resolved] at hopen
    simpa using hopen
  constructor
  case empty => exact hs.empty
  case resolved => exact hs.resolved
  case kept => exact fun r hr _ => hs.kept r hr (by simp [hb])
  case starting => intro hbody; cases hbody
  case suspended =>
    refine fun _ => ⟨rfl, ?_⟩
    simp [hnone, hs.unqueued (by simp [hb])]
  case unqueued => exact fun hnot => absurd rfl hnot
  case returned => intro x hx; cases hx

theorem Inv.giveUp (hs : Inv c s) (hc : c = .whenAny 0) (hb : s.body = .starting)
    {x : Result T} : Inv c { s with body := .returned x } := by
  constructor
  case empty => exact hs.empty
  case resolved => exact hs.resolved
  case kept => exact fun _ _ hnot => absurd rfl (hnot _)
  case starting => intro hbody; cases hbody
  case suspended => intro hbody; cases hbody
  case unqueued => exact fun _ => hs.unqueued (by simp [hb])
  case returned => exact fun _ _ => Or.inl ⟨hc, (hs.empty hc).2⟩

theorem Inv.step (hs : Inv c s) {op : RaceOp T} (h : Race.step c s op = some t) : Inv c t := by
  cases op with
  | await h' =>
    cases hbody : s.body with
    | starting =>
      have hq : s.queued = 0 := hs.unqueued (by simp [hbody])
      simp only [Race.step, hbody] at h
      by_cases hc : c = .whenAny 0
      · rw [if_pos hc, Option.some.injEq] at h
        subst h
        exact hs.giveUp hc hbody
      · rw [if_neg hc] at h
        cases hres : s.state.resolved with
        | true =>
          obtain ⟨r, hr⟩ := Option.isSome_iff_exists.mp (hs.resolved ▸ hres)
          simp only [hres, if_true, Option.some.injEq] at h
          subst h
          exact hs.finish hr (by simp [hbody]) hq
        | false =>
          rw [if_neg (by simp [hres]), if_pos (by simp [RaceState.awaitSuspend, hres]),
            Option.some.injEq] at h
          subst h
          exact hs.suspend hbody hres h'
    | suspended => simp [Race.step, hbody] at h
    | returned x => simp [Race.step, hbody] at h
  | taskDone i r =>
    cases c with
    | whenAny n =>
      simp only [Race.step] at h
      split_ifs at h with hi
      cases h
      exact hs.settle hi (s.state.whenAnyRacer_verdict r)
    | timeout =>
      simp only [Race.step] at h
      split_ifs at h with hi
      cases h
      exact hs.settle hi (s.state.timeoutTaskRacer_verdict r)
  | sleepDone slept =>
    cases c with
    | whenAny n => simp [Race.step] at h
    | timeout =>
      simp only [Race.step] at h
      split_ifs at h with hi
      cases h
      exact hs.settle hi (s.state.timeoutTimerRacer_verdict slept)
  | resume =>
    simp only [Race.step] at h
    split at h
    case h_2 => cases h
    case h_1 n hbody hqueued =>
      obtain ⟨-, hq⟩ := hs.suspended hbody
      cases hstored : s.stored with
      | none =>
        rw [hstored, hqueued] at hq
        cases hq
      | some r =>
        rw [hstored, hqueued] at hq
        cases h
        exact hs.finish hstored (by simp [hbody]) (Nat.succ.inj hq)

theorem Reaches.inv {ops : List (RaceOp T)} (h : Reaches c ops s) : Inv c s :=
  Transition.invariant (Inv c) (fun hstep hs => hs.step hstep) (create_inv c) h

end Inv

/-- A race that is over hands back what a move left of the winner's result: the result
itself only if moving from it does not change it. -/
theorem race_returns_winner_iff {c : Combinator} {ops : List (RaceOp T)} {s : Race T}
    (h : Reaches c ops s) {x : Result T} (hx : s.body = .returned x) :
    (c = .whenAny 0 ∧ s.stored = none) ∨ ∃ r, s.stored = some r ∧ (x = r ↔ Result.Trivial r) := by
  rcases h.inv.returned x hx with hempty | ⟨r, hr, rfl⟩
  · exact Or.inl hempty
  · exact Or.inr ⟨r, hr, Result.movedFrom_eq_self_iff r⟩

def oneTask (r : Result T) : List (RaceOp T) := [.await 0, .taskDone 0 r, .resume]

theorem race_returns_winner_iff_on_number : ∃ s : Race ℕ,
    Reaches .timeout (oneTask (.ok 42)) s ∧ s.stored = some (.ok 42) ∧
    s.body = .returned (.ok 42) := by
  obtain ⟨s, x, hr, hstored, hbody⟩ : ∃ (s : Race ℕ) (x : Result ℕ),
      Reaches .timeout (oneTask (.ok (42 : ℕ))) s ∧ s.stored = some (.ok 42) ∧
      s.body = .returned x := ⟨_, _, rfl, rfl, rfl⟩
  rcases race_returns_winner_iff hr hbody with ⟨hc, -⟩ | ⟨r, hr', hiff⟩
  · cases hc
  · rw [hstored] at hr'
    cases hr'
    rw [hiff.mpr rfl] at hbody
    exact ⟨s, hr, hstored, hbody⟩

/-- The task of a race comes back with `Ok("hi")`, the caller of the race gets `Ok("")`. -/
theorem race_returns_emptied_string :
    (∃ s : Race String, Reaches (.whenAny 1) (oneTask (.ok "hi")) s ∧
      s.stored = some (.ok "hi") ∧ s.body = .returned (.ok "")) ∧
    ∃ s : Race String, Reaches .timeout (oneTask (.ok "hi")) s ∧
      s.stored = some (.ok "hi") ∧ s.body = .returned (.ok "") :=
  ⟨⟨_, rfl, rfl, rfl⟩, ⟨_, rfl, rfl, rfl⟩⟩

end Race
end RainRuntime
