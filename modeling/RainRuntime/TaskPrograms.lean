import RainRuntime.Awaiters
import RainRuntime.Combinators

/-!
# Task expressions

The body of a task as a program over what a coroutine can do on its loop: wait in one of
the awaiters, `co_await` another task, read the clock, make a stop source or a shared
state, spawn a task, and await a shared state that racers bring to its end. The pipe
operators, `retry`, `with_deadline_check`, `when_all`, `when_any` and `timeout` are such
programs. A `TaskExpr` is a task built by nesting them.

Tokens are the numbers of their stop sources. The first `n` sources are made outside of all
tasks, and a program only knows the sources it made (`Fits`). The functions of the pipes
`inspect` and `inspect_err` act outside of the runtime; what is left is the value they pass
on.
-/

namespace RainRuntime

/-- What a task returns: `Unit`, a `Result<T>` or a vector of them. -/
inductive TaskType where
  | unit
  | result
  | results

def TaskType.Value : TaskType → Type
  | .unit => Unit
  | .result => Result ℕ
  | .results => List (Result ℕ)

/-- `WhenAllState`, `WhenAnyState` and `TimeoutState`, each with its own fields in use. -/
structure Shared extends RaceState ℕ where
  results : List (Result ℕ)
  stopSources : List ℕ

/-- What a racer does to the shared state: the new state, the sources it stops, and whether
it notifies the waiter. -/
structure Update where
  state : Shared
  stops : List ℕ
  notifies : Bool

namespace Shared

def whenAll (n : ℕ) : Shared :=
  ⟨⟨false, n, .error makeCancelledError, none, []⟩,
    List.replicate n (.error makeCancelledError), []⟩

def whenAny (n : ℕ) : Shared := ⟨RaceState.whenAny n, [], []⟩

def timeout : Shared := ⟨RaceState.timeout, [], []⟩

def storeResult (idx : ℕ) (r : Result ℕ) (s : Shared) : Update :=
  let s := { s with results := s.results.set idx r, remaining := s.remaining - 1 }
  ⟨s, [], s.remaining == 0⟩

def addSource (src : ℕ) (s : Shared) : Update :=
  ⟨{ s with stopSources := s.stopSources ++ [src] }, [], false⟩

def resolveWith (s : Shared) (p : Bool × RaceState ℕ) (sources : List ℕ) : Update :=
  ⟨{ s with toRaceState := p.2 }, if p.1 then sources else [], p.1⟩

end Shared

inductive Program : TaskType → Type where
  | ret {τ : TaskType} (v : τ.Value) : Program τ
  | now {τ : TaskType} (next : ℤ → Program τ) : Program τ
  | wait {τ : TaskType} (kind : WaitKind) (fd : ℤ) (next : Result ℕ → Program τ) : Program τ
  /-- `token` is what `set_cancellation` gave the task before. -/
  | await {σ τ : TaskType} (task : Program σ) (token : Option ℕ) (next : σ.Value → Program τ) :
      Program τ
  | makeSource {τ : TaskType} (next : ℕ → Program τ) : Program τ
  | makeState {τ : TaskType} (s : Shared) (next : ℕ → Program τ) : Program τ
  | spawn {τ : TaskType} (task : Program .unit) (token : Option ℕ) (next : Program τ) : Program τ
  | update {τ : TaskType} (state : ℕ) (f : Shared → Update) (next : Program τ) : Program τ
  | awaitState {τ : TaskType} (state : ℕ) (ready : Shared → Bool) (next : Shared → Program τ) :
      Program τ

namespace Program
variable {τ : TaskType}

/-! ## Pipes, deadlines and retries -/

def andThen (task : Program .result) (f : ℕ → Program .result) : Program .result :=
  .await task none fun r =>
    match r with
    | .error e => .ret (.error e)
    | .ok v => .await (f v) none .ret

def map (task : Program .result) (f : ℕ → ℕ) : Program .result :=
  .await task none fun r =>
    match r with
    | .error e => .ret (.error e)
    | .ok v => .ret (.ok (f v))

def mapErr (task : Program .result) (f : SystemError → SystemError) : Program .result :=
  .await task none fun r =>
    match r with
    | .error e => .ret (.error (f e))
    | .ok v => .ret (.ok v)

def orElse (task : Program .result) (f : SystemError → Program .result) : Program .result :=
  .await task none fun r =>
    match r with
    | .error e => .await (f e) none .ret
    | .ok v => .ret (.ok v)

def inspect (task : Program .result) : Program .result := .await task none .ret

def inspectErr (task : Program .result) : Program .result := .await task none .ret

def withDeadlineCheck (task : Program .result) (timeout : ℤ) : Program .result :=
  .now fun start =>
  .await task none fun r =>
  .now fun t => if t > start + timeout then .ret (.error makeTimedOutError) else .ret r

def retryFrom (factory : ℕ → Program .result) (delayBetween : ℤ) (timer : Bool) :
    ℕ → ℕ → Program .result
  | _, 0 => .ret (.error makeCancelledError)
  | attempt, left + 1 =>
    .await (factory attempt) none fun r =>
      match r with
      | .ok v => .ret (.ok v)
      | .error e =>
        if left = 0 then .ret (.error e)
        else if 0 < delayBetween ∧ timer = true then
          .wait (.sleep delayBetween) 0 fun _ =>
            retryFrom factory delayBetween timer (attempt + 1) left
        else retryFrom factory delayBetween timer (attempt + 1) left

/-- `timer` says whether the thread has a `g_timer`. -/
def retry (factory : ℕ → Program .result) (maxAttempts : ℕ) (delayBetween : ℤ) (timer : Bool) :
    Program .result :=
  retryFrom factory delayBetween timer 0 maxAttempts

/-! ## Concurrent combinators -/

def whenAllRacer (idx : ℕ) (task : Program .result) (state : ℕ) : Program .unit :=
  .await task none fun r => .update state (Shared.storeResult idx r) (.ret ())

def spawnAllRacers (state : ℕ) : ℕ → List (Program .result) → Program τ → Program τ
  | _, [], next => next
  | idx, task :: tasks, next =>
    .spawn (whenAllRacer idx task state) none (spawnAllRacers state (idx + 1) tasks next)

def whenAll (tasks : List (Program .result)) : Program .results :=
  -- What the move out of the shared state leaves there is not recorded: nobody reads it again.
  .makeState (Shared.whenAll tasks.length) fun state =>
  spawnAllRacers state 0 tasks <|
  .awaitState state (fun s => s.remaining == 0) fun s => .ret s.results

def whenAnyRacer (task : Program .result) (src state : ℕ) : Program .unit :=
  .await task (some src) fun r =>
  .update state (fun s => s.resolveWith (s.whenAnyRacer r) s.stopSources) (.ret ())

def spawnAnyRacers (state : ℕ) : List (Program .result) → Program τ → Program τ
  | [], next => next
  | task :: tasks, next =>
    .makeSource fun src =>
    .update state (Shared.addSource src) <|
    .spawn (whenAnyRacer task src state) none (spawnAnyRacers state tasks next)

def whenAny (tasks : List (Program .result)) : Program .result :=
  if tasks.isEmpty then .ret (.error makeCancelledError)
  else
    .makeState (Shared.whenAny tasks.length) fun state =>
    spawnAnyRacers state tasks <|
    .awaitState state (fun s => s.resolved) fun s => .ret s.finish.1

def timeoutTaskRacer (task : Program .result) (taskSrc state timerSrc : ℕ) : Program .unit :=
  .await task (some taskSrc) fun r =>
  .update state (fun s => s.resolveWith (s.timeoutTaskRacer r) [timerSrc]) (.ret ())

def timeoutTimerRacer (dur : ℤ) (state taskSrc : ℕ) : Program .unit :=
  .wait (.sleep dur) 0 fun slept =>
  .update state (fun s => s.resolveWith (s.timeoutTimerRacer (slept.map fun _ => ())) [taskSrc])
    (.ret ())

def timeout (task : Program .result) (dur : ℤ) : Program .result :=
  .makeState Shared.timeout fun state =>
  .makeSource fun taskSrc =>
  .makeSource fun timerSrc =>
  .spawn (timeoutTaskRacer task taskSrc state timerSrc) none <|
  .spawn (timeoutTimerRacer dur state taskSrc) (some timerSrc) <|
  .awaitState state (fun s => s.resolved) fun s => .ret s.finish.1

end Program

/-- A task, by how it is built. `retry` gets the task of each attempt. -/
inductive TaskExpr : TaskType → Type where
  | ret {τ : TaskType} (v : τ.Value) : TaskExpr τ
  | leaf {τ : TaskType} (kind : WaitKind) (fd : ℤ) (next : Result ℕ → TaskExpr τ) : TaskExpr τ
  | await {σ τ : TaskType} (task : TaskExpr σ) (next : σ.Value → TaskExpr τ) : TaskExpr τ
  | andThen (task : TaskExpr .result) (f : ℕ → TaskExpr .result) : TaskExpr .result
  | map (task : TaskExpr .result) (f : ℕ → ℕ) : TaskExpr .result
  | mapErr (task : TaskExpr .result) (f : SystemError → SystemError) : TaskExpr .result
  | orElse (task : TaskExpr .result) (f : SystemError → TaskExpr .result) : TaskExpr .result
  | inspect (task : TaskExpr .result) : TaskExpr .result
  | inspectErr (task : TaskExpr .result) : TaskExpr .result
  | retry (factory : ℕ → TaskExpr .result) (maxAttempts : ℕ) (delayBetween : ℤ) (timer : Bool) :
      TaskExpr .result
  | withDeadlineCheck (task : TaskExpr .result) (timeout : ℤ) : TaskExpr .result
  | whenAll {n : ℕ} (tasks : Fin n → TaskExpr .result) : TaskExpr .results
  | whenAny {n : ℕ} (tasks : Fin n → TaskExpr .result) : TaskExpr .result
  | timeout (task : TaskExpr .result) (dur : ℤ) : TaskExpr .result

namespace TaskExpr

def program {τ : TaskType} : TaskExpr τ → Program τ
  | .ret v => .ret v
  | .leaf kind fd next => .wait kind fd fun r => (next r).program
  | .await task next => .await task.program none fun v => (next v).program
  | .andThen task f => task.program.andThen fun v => (f v).program
  | .map task f => task.program.map f
  | .mapErr task f => task.program.mapErr f
  | .orElse task f => task.program.orElse fun e => (f e).program
  | .inspect task => task.program.inspect
  | .inspectErr task => task.program.inspectErr
  | .retry factory maxAttempts delayBetween timer =>
    Program.retry (fun i => (factory i).program) maxAttempts delayBetween timer
  | .withDeadlineCheck task limit => task.program.withDeadlineCheck limit
  | .whenAll tasks => .whenAll (List.ofFn fun i => (tasks i).program)
  | .whenAny tasks => .whenAny (List.ofFn fun i => (tasks i).program)
  | .timeout task dur => task.program.timeout dur

def Sequential {τ : TaskType} : TaskExpr τ → Prop
  | .ret _ => True
  | .leaf _ _ next => ∀ r, (next r).Sequential
  | .await task next => task.Sequential ∧ ∀ v, (next v).Sequential
  | .andThen task f => task.Sequential ∧ ∀ v, (f v).Sequential
  | .map task _ => task.Sequential
  | .mapErr task _ => task.Sequential
  | .orElse task f => task.Sequential ∧ ∀ e, (f e).Sequential
  | .inspect task => task.Sequential
  | .inspectErr task => task.Sequential
  | .retry factory _ _ _ => ∀ i, (factory i).Sequential
  | .withDeadlineCheck task _ => task.Sequential
  | .whenAll _ => False
  | .whenAny _ => False
  | .timeout _ _ => False

end TaskExpr

/-! ## What programs know of stop sources -/

def Inner (n : ℕ) (token : Option ℕ) : Prop := ∀ src, token = some src → n ≤ src

theorem inner_none (n : ℕ) : Inner n none := fun _ h => by cases h

theorem inner_some {n src : ℕ} (h : n ≤ src) : Inner n (some src) := by
  intro src' he
  rw [← Option.some.inj he]
  exact h

namespace Program
variable {τ : TaskType} {n : ℕ} {seq : Prop}

def Fits (n : ℕ) (seq : Prop) : {τ : TaskType} → Program τ → Prop
  | _, .ret _ => True
  | _, .now next => ∀ t, (next t).Fits n seq
  | _, .wait _ _ next => ∀ r, (next r).Fits n seq
  | _, .await task token next => task.Fits n seq ∧ Inner n token ∧ ∀ v, (next v).Fits n seq
  | _, .makeSource next => ∀ src, n ≤ src → (next src).Fits n seq
  | _, .makeState _ next => ∀ state, (next state).Fits n seq
  | _, .spawn task token next => ¬seq ∧ task.Fits n False ∧ Inner n token ∧ next.Fits n seq
  | _, .update _ _ next => next.Fits n seq
  | _, .awaitState _ _ next => ∀ s, (next s).Fits n seq

theorem fits_await {task : Program .result} {next : TaskType.result.Value → Program .result}
    (htask : task.Fits n seq) (hok : ∀ v, (next (Except.ok v)).Fits n seq)
    (herr : ∀ e, (next (Except.error e)).Fits n seq) : (await task none next).Fits n seq := by
  refine ⟨htask, inner_none n, fun r => ?_⟩
  cases r with
  | ok v => exact hok v
  | error e => exact herr e

theorem retryFrom_fits {factory : ℕ → Program .result} (h : ∀ i, (factory i).Fits n seq)
    (delayBetween : ℤ) (timer : Bool) (attempt left : ℕ) :
    (retryFrom factory delayBetween timer attempt left).Fits n seq := by
  induction left generalizing attempt with
  | zero => trivial
  | succ left ih =>
    refine fits_await (h attempt) (fun v => trivial) fun e => ?_
    dsimp only
    split_ifs
    · trivial
    · exact fun _ => ih (attempt + 1)
    · exact ih (attempt + 1)

theorem spawnAllRacers_fits {tasks : List (Program .result)} (h : ∀ p ∈ tasks, p.Fits n False)
    (hseq : ¬seq) {next : Program τ} (hnext : next.Fits n seq) (state idx : ℕ) :
    (spawnAllRacers state idx tasks next).Fits n seq := by
  induction tasks generalizing idx with
  | nil => exact hnext
  | cons task tasks ih =>
    have htask := h task (List.mem_cons_self ..)
    have hrest := ih (fun p hp => h p (List.mem_cons_of_mem task hp)) (idx + 1)
    exact ⟨hseq, ⟨htask, inner_none n, fun _ => trivial⟩, inner_none n, hrest⟩

theorem spawnAnyRacers_fits {tasks : List (Program .result)} (h : ∀ p ∈ tasks, p.Fits n False)
    (hseq : ¬seq) {next : Program τ} (hnext : next.Fits n seq) (state : ℕ) :
    (spawnAnyRacers state tasks next).Fits n seq := by
  induction tasks with
  | nil => exact hnext
  | cons task tasks ih =>
    intro src hsrc
    have htask := h task (List.mem_cons_self ..)
    have hrest := ih fun p hp => h p (List.mem_cons_of_mem task hp)
    exact ⟨hseq, ⟨htask, inner_some hsrc, fun _ => trivial⟩, inner_none n, hrest⟩

end Program

theorem TaskExpr.program_fits {τ : TaskType} (e : TaskExpr τ) (n : ℕ) {seq : Prop}
    (hseq : seq → e.Sequential) : e.program.Fits n seq := by
  induction e generalizing seq with
  | ret v => trivial
  | leaf kind fd next ih => exact fun r => ih r fun h => hseq h r
  | await task next iht ihn =>
    exact ⟨iht fun h => (hseq h).1, inner_none n, fun v => ihn v fun h => (hseq h).2 v⟩
  | andThen task f iht ihf =>
    refine Program.fits_await (iht fun h => (hseq h).1) (fun v => ?_) fun e => trivial
    exact ⟨ihf v fun h => (hseq h).2 v, inner_none n, fun _ => trivial⟩
  | map task f ih => exact Program.fits_await (ih hseq) (fun v => trivial) fun e => trivial
  | mapErr task f ih => exact Program.fits_await (ih hseq) (fun v => trivial) fun e => trivial
  | orElse task f iht ihf =>
    refine Program.fits_await (iht fun h => (hseq h).1) (fun v => trivial) fun e => ?_
    exact ⟨ihf e fun h => (hseq h).2 e, inner_none n, fun _ => trivial⟩
  | inspect task ih => exact ⟨ih hseq, inner_none n, fun _ => trivial⟩
  | inspectErr task ih => exact ⟨ih hseq, inner_none n, fun _ => trivial⟩
  | retry factory maxAttempts delayBetween timer ih =>
    exact Program.retryFrom_fits (fun i => ih i fun h => hseq h i) delayBetween timer 0 maxAttempts
  | withDeadlineCheck task limit ih =>
    intro start
    refine ⟨ih hseq, inner_none n, fun r t => ?_⟩
    dsimp only
    split_ifs <;> trivial
  | whenAll tasks ih =>
    intro state
    apply Program.spawnAllRacers_fits _ hseq (by exact fun _ => trivial)
    intro p hp
    obtain ⟨i, rfl⟩ := (List.mem_ofFn' _ _).mp hp
    exact ih i False.elim
  | whenAny tasks ih =>
    rw [TaskExpr.program, Program.whenAny]
    split_ifs
    · trivial
    · intro state
      apply Program.spawnAnyRacers_fits _ hseq (by exact fun _ => trivial)
      intro p hp
      obtain ⟨i, rfl⟩ := (List.mem_ofFn' _ _).mp hp
      exact ih i False.elim
  | timeout task dur ih =>
    intro state taskSrc htask timerSrc htimer
    refine ⟨hseq, ⟨ih False.elim, inner_some htask, fun _ => trivial⟩, inner_none n, ?_⟩
    exact ⟨hseq, fun _ => trivial, inner_some htimer, fun _ => trivial⟩

end RainRuntime
