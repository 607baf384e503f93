import RainRuntime.LoopThread

/-!
# What a stop does to retry

The token of a `retry` task reaches the attempt and the sleep between two attempts, and each
of them ends early when the source is stopped. `retry` itself never reads the token: the
cancelled attempt is a failure like any other, and the result of the sleep is dropped. The
loop therefore goes on after a stop just as it would have without it.

A frame of `retry` is watched along a run of the loop: how often the factory was called, the
results of the attempts, and how many calls there were when the source was stopped.
-/

namespace RainRuntime

namespace Program

def staysInFrame {τ : TaskType} : Program τ → Bool
  | .ret _ => false
  | .await _ _ _ => false
  | _ => true

end Program

structure RetryArgs where
  factory : ℕ → Program .result
  maxAttempts : ℕ
  delayBetween : ℤ
  timer : Bool

namespace RetryArgs

def attempts (R : RetryArgs) (n left : ℕ) : Program .result :=
  .retryFrom R.factory R.delayBetween R.timer n left

/-- What `retry` does with the result of the attempt number `n`, with `left` left after it. -/
def after (R : RetryArgs) (n left : ℕ) : TaskType.result.Value → Program .result
  | .ok v => .ret (.ok v)
  | .error e =>
    if left = 0 then .ret (.error e)
    else if 0 < R.delayBetween ∧ R.timer = true then
      .wait (.sleep R.delayBetween) 0 fun _ => R.attempts (n + 1) left
    else R.attempts (n + 1) left

theorem attempts_succ (R : RetryArgs) (n left : ℕ) :
    R.attempts n (left + 1) = .await (R.factory n) none (R.after n left) := rfl

end RetryArgs

def Callers.depth : {τ : TaskType} → Callers τ → ℕ
  | _, .bottom => 0
  | _, .cons _ _ rest => rest.depth + 1

/-- What the next step of a strand means to a frame of `retry` over `depth` callers. -/
inductive RetryMark where
  | call
  | result (r : Result ℕ)
  | back

def Strand.retryMark (depth : ℕ) : Strand → Option RetryMark
  | ⟨_, _, .body (.await _ _ _), callers, _⟩ =>
    if callers.depth = depth then some .call else none
  | ⟨.result, _, .body (.ret v), callers, _⟩ =>
    if callers.depth = depth then some .back
    else if callers.depth = depth + 1 then some (.result v)
    else none
  | _ => none

theorem Strand.retryMark_of_deep {depth : ℕ} {τ : TaskType} {token : Option ℕ} {v : τ.Value}
    {callers : Callers τ} {spawner : Option Handle} (h : depth + 1 < callers.depth) :
    Strand.retryMark depth ⟨τ, token, .body (.ret v), callers, spawner⟩ = none := by
  cases τ with
  | result => rw [retryMark, if_neg (by omega), if_neg (by omega)]
  | _ => rfl

/-- `stoppedAt` is the number of calls at the stop of the source. -/
structure RetryWatch where
  loop : TaskLoop
  calls : ℕ
  results : List (Result ℕ)
  stoppedAt : Option ℕ
  returned : Bool

namespace RetryWatch

def note (w : RetryWatch) : RetryMark → RetryWatch
  | .call => { w with calls := w.calls + 1 }
  | .result r => { w with results := w.results ++ [r] }
  | .back => { w with returned := true }

def mark (h : Handle) (depth : ℕ) (w : RetryWatch) : TaskLoopOp → Option RetryMark
  | .run k _ _ _ =>
    if k = h ∧ w.returned = false then (w.loop.strand h).bind (Strand.retryMark depth) else none
  | _ => none

def moveTo (w : RetryWatch) (src : ℕ) (t : TaskLoop) : RetryWatch :=
  { w with
    loop := t
    stoppedAt := w.stoppedAt.or ((t.world.stopped src).map fun _ => w.calls) }

def step (h : Handle) (depth src : ℕ) (w : RetryWatch) (op : TaskLoopOp) : Option RetryWatch :=
  (w.loop.step op).map fun t => ((w.mark h depth op).elim w w.note).moveTo src t

def start (src : ℕ) (s : TaskLoop) : RetryWatch :=
  (⟨s, 0, [], none, false⟩ : RetryWatch).moveTo src s

end RetryWatch

/-! ## Steps of one strand -/

def TaskLoopOp.runs (h : Handle) : TaskLoopOp → Bool
  | .run k _ _ _ => decide (k = h)
  | .spawn _ | .resume _ | .stop _ _ | .loop _ => false

namespace TaskLoop
variable {s t : TaskLoop} {h k : Handle} {sys : Except Errno ℕ} {clock : ℤ} {order : List Handle}
  {τ : TaskType} {token : Option ℕ} {callers : Callers τ} {spawner : Option Handle} {st : Strand}

theorem runBody_stays {p : Program τ} (hp : p.staysInFrame = true)
    (hstep : s.runBody h sys clock order token callers spawner p = some t) :
    ∃ place, t.strand h = some ⟨τ, token, place, callers, spawner⟩ := by
  cases p with
  | ret v => cases hp
  | await task own next => cases hp
  | wait kind fd next =>
    obtain ⟨w, place, -, rfl, -⟩ := runBody_wait_eq hstep
    exact ⟨place, Function.update_self ..⟩
  | spawn task own next =>
    obtain ⟨w, -, rfl⟩ := runBody_spawn_eq hstep
    exact ⟨_, Function.update_self ..⟩
  | update state f next =>
    obtain ⟨w, -, rfl⟩ := runBody_update_eq hstep
    exact ⟨_, Function.update_self ..⟩
  | awaitState state ready next =>
    rcases runBody_awaitState_eq hstep with ⟨-, rfl⟩ | ⟨w, -, -, rfl⟩ <;>
      exact ⟨_, Function.update_self ..⟩
  | _ =>
    rw [runBody, Option.some.injEq] at hstep
    subst hstep
    exact ⟨_, Function.update_self ..⟩

theorem runBody_other (hne : k ≠ h) (hlt : k < s.strands) {p : Program τ}
    (hstep : s.runBody h sys clock order token callers spawner p = some t) :
    t.strand k = s.strand k := by
  cases p with
  | ret v =>
    cases callers with
    | bottom =>
      rw [runBody, Option.map_eq_some_iff] at hstep
      obtain ⟨w, -, rfl⟩ := hstep
      rfl
    | cons token' next rest =>
      rw [runBody, Option.some.injEq] at hstep
      subst hstep
      exact Function.update_of_ne hne _ _
  | wait kind fd next =>
    obtain ⟨w, place, -, rfl, -⟩ := runBody_wait_eq hstep
    exact Function.update_of_ne hne _ _
  | spawn task own next =>
    obtain ⟨w, -, rfl⟩ := runBody_spawn_eq hstep
    exact (Function.update_of_ne hne _ _).trans (Function.update_of_ne hlt.ne _ _)
  | update state f next =>
    obtain ⟨w, -, rfl⟩ := runBody_update_eq hstep
    exact Function.update_of_ne hne _ _
  | awaitState state ready next =>
    rcases runBody_awaitState_eq hstep with ⟨-, rfl⟩ | ⟨w, -, -, rfl⟩ <;>
      exact Function.update_of_ne hne _ _
  | _ =>
    rw [runBody, Option.some.injEq] at hstep
    subst hstep
    exact Function.update_of_ne hne _ _

inductive GoesOn : Strand → Strand → Prop where
  | same (st : Strand) : GoesOn st st
  | leaf {τ : TaskType} {token : Option ℕ} {callers : Callers τ} {spawner : Option Handle}
      {next : Result ℕ → Program τ} (r : Result ℕ) :
      GoesOn ⟨τ, token, .leaf next, callers, spawner⟩ ⟨τ, token, .body (next r), callers, spawner⟩
  | parked {τ : TaskType} {token : Option ℕ} {callers : Callers τ} {spawner : Option Handle}
      {state : ℕ} {next : Shared → Program τ} (x : Shared) :
      GoesOn ⟨τ, token, .parked state next, callers, spawner⟩
        ⟨τ, token, .body (next x), callers, spawner⟩

theorem resumed_goesOn (hst : s.strand h = some st) (hstep : s.resumed h st = some t) :
    ∃ st', t.strand h = some st' ∧ GoesOn st st' := by
  obtain ⟨τ, token, place, callers, spawner⟩ := st
  cases place with
  | body p =>
    rw [resumed, Option.some.injEq] at hstep
    subst hstep
    exact ⟨_, hst, .same _⟩
  | leaf next =>
    rw [resumed, Option.map_eq_some_iff] at hstep
    obtain ⟨r, -, rfl⟩ := hstep
    exact ⟨_, Function.update_self .., .leaf r⟩
  | parked state next =>
    rw [resumed, Option.some.injEq] at hstep
    subst hstep
    exact ⟨_, Function.update_self .., .parked _⟩

theorem resumed_other (hne : k ≠ h) (hstep : s.resumed h st = some t) :
    t.strand k = s.strand k := by
  obtain ⟨τ, token, place, callers, spawner⟩ := st
  cases place with
  | body p =>
    rw [resumed, Option.some.injEq] at hstep
    rw [hstep]
  | leaf next =>
    rw [resumed, Option.map_eq_some_iff] at hstep
    obtain ⟨r, -, rfl⟩ := hstep
    exact Function.update_of_ne hne _ _
  | parked state next =>
    rw [resumed, Option.some.injEq] at hstep
    subst hstep
    exact Function.update_of_ne hne _ _

theorem step_strand (hs : Inv s) (hst : s.strand h = some st) {op : TaskLoopOp}
    (hstep : s.step op = some t) :
    (∃ sys clock order, op = .run h sys clock order) ∨
      op.runs h = false ∧
        ∃ st', t.strand h = some st' ∧ GoesOn st st' := by
  have hlt := hs.bound h st hst
  cases op with
  | spawn r =>
    rw [step] at hstep
    split_ifs at hstep
    obtain ⟨u, hu, rfl⟩ := Option.map_eq_some_iff.mp hstep
    obtain ⟨w, -, rfl⟩ := launch_eq hu
    exact Or.inr ⟨rfl, st, (Function.update_of_ne hlt.ne _ _).trans hst, .same st⟩
  | resume sys =>
    obtain ⟨k, rest, w, st', -, -, hst', hres⟩ := step_resume_eq hstep
    by_cases hk : h = k
    · subst hk
      obtain rfl : st = st' := Option.some.inj (hst.symm.trans hst')
      exact Or.inr ⟨rfl, resumed_goesOn (s := { s with world := w }) hst hres⟩
    · exact Or.inr ⟨rfl, st, (resumed_other hk hres).trans hst, .same st⟩
  | run k sys clock order =>
    by_cases hk : h = k
    · subst hk
      exact Or.inl ⟨sys, clock, order, rfl⟩
    · obtain ⟨on, τ, token, callers, spawner, p, -, -, hrun⟩ := step_run_eq hstep
      exact Or.inr ⟨decide_eq_false (Ne.symm hk), st, (runBody_other hk hlt hrun).trans hst,
        .same st⟩
  | stop src order =>
    rw [step] at hstep
    split_ifs at hstep
    rw [Option.some.injEq] at hstep
    subst hstep
    exact Or.inr ⟨rfl, st, hst, .same st⟩
  | loop op =>
    rw [step] at hstep
    split_ifs at hstep
    obtain ⟨w, -, rfl⟩ := Option.map_eq_some_iff.mp hstep
    exact Or.inr ⟨rfl, st, hst, .same st⟩

end TaskLoop

/-! ## Where the frame of retry is -/

inductive Callers.Above (base : Callers .result) (next : TaskType.result.Value → Program .result) :
    {τ : TaskType} → Callers τ → Prop where
  | call (token : Option ℕ) : Above base next (.cons token next base)
  | cons {σ τ : TaskType} (token : Option ℕ) (next' : σ.Value → Program τ) {rest : Callers τ}
      (h : Above base next rest) : Above base next (.cons token next' rest)

theorem Callers.Above.depth_lt {base : Callers .result}
    {next : TaskType.result.Value → Program .result} {τ : TaskType} {callers : Callers τ}
    (h : Above base next callers) : base.depth < callers.depth := by
  induction h with
  | call token => exact Nat.lt_succ_self _
  | cons token next' _ ih => exact Nat.lt_succ_of_lt ih

def Failed (results : List (Result ℕ)) (n : ℕ) : Prop :=
  ∀ i < n, ∃ e, results[i]? = some (.error e)

theorem Failed.concat {results : List (Result ℕ)} {n : ℕ} (h : Failed results n)
    (hlen : results.length = n) (r : Result ℕ) : Failed (results ++ [r]) n := by
  intro i hi
  rw [List.getElem?_append_left (by omega)]
  exact h i hi

theorem Failed.succ {results : List (Result ℕ)} {n : ℕ} (h : Failed results n) {e : SystemError}
    (hn : results[n]? = some (.error e)) : Failed results (n + 1) := by
  intro i hi
  rcases Nat.lt_succ_iff_lt_or_eq.mp hi with hlt | rfl
  · exact h i hlt
  · exact ⟨e, hn⟩

def LastCall (maxAttempts : ℕ) (results : List (Result ℕ)) (n : ℕ) : Prop :=
  n = maxAttempts ∨ 0 < n ∧ ∃ v, results[n - 1]? = some (.ok v)

/-- The frame of `retry` over the callers `base`, after `n` calls and with `results` so far. -/
inductive RetryAt (R : RetryArgs) (base : Callers .result) :
    Strand → ℕ → List (Result ℕ) → Prop where
  | head {n left : ℕ} {token : Option ℕ} {spawner : Option Handle} {results : List (Result ℕ)}
      (hmax : n + (left + 1) = R.maxAttempts) (hlen : results.length = n)
      (hfail : Failed results n) :
      RetryAt R base ⟨.result, token, .body (R.attempts n (left + 1)), base, spawner⟩ n results
  | attempt {n left : ℕ} {τ : TaskType} {token : Option ℕ} {place : Place τ} {callers : Callers τ}
      {spawner : Option Handle} {results : List (Result ℕ)}
      (hmax : n + (left + 1) = R.maxAttempts) (hlen : results.length = n)
      (hfail : Failed results n) (habove : Callers.Above base (R.after n left) callers) :
      RetryAt R base ⟨τ, token, place, callers, spawner⟩ (n + 1) results
  | pause {n left : ℕ} {token : Option ℕ} {spawner : Option Handle} {results : List (Result ℕ)}
      (hmax : n + (left + 1) = R.maxAttempts) (hlen : results.length = n)
      (hfail : Failed results n) :
      RetryAt R base ⟨.result, token,
        .body (.wait (.sleep R.delayBetween) 0 fun _ => R.attempts n (left + 1)), base, spawner⟩
        n results
  | asleep {n left : ℕ} {token : Option ℕ} {spawner : Option Handle} {results : List (Result ℕ)}
      (hmax : n + (left + 1) = R.maxAttempts) (hlen : results.length = n)
      (hfail : Failed results n) :
      RetryAt R base ⟨.result, token, .leaf fun _ => R.attempts n (left + 1), base, spawner⟩
        n results
  | ends {n : ℕ} {v : TaskType.result.Value} {token : Option ℕ} {spawner : Option Handle}
      {results : List (Result ℕ)} (hmax : n ≤ R.maxAttempts) (hfail : Failed results (n - 1))
      (hlast : LastCall R.maxAttempts results n) :
      RetryAt R base ⟨.result, token, .body (.ret v), base, spawner⟩ n results

namespace RetryAt
variable {R : RetryArgs} {base : Callers .result} {st st' : Strand} {n : ℕ}
  {results : List (Result ℕ)}

theorem calls_le (h : RetryAt R base st n results) : n ≤ R.maxAttempts := by
  cases h <;> omega

theorem failed (h : RetryAt R base st n results) : Failed results (n - 1) := by
  have hsub : Failed results n → Failed results (n - 1) := fun hf i hi => hf i (by omega)
  cases h with
  | head _ _ hfail => exact hsub hfail
  | attempt _ _ hfail => exact hfail
  | pause _ _ hfail => exact hsub hfail
  | asleep _ _ hfail => exact hsub hfail
  | ends _ hfail => exact hfail

theorem start (token : Option ℕ) (spawner : Option Handle) :
    RetryAt R base ⟨.result, token, .body (R.attempts 0 R.maxAttempts), base, spawner⟩ 0 [] := by
  have hfail : Failed [] 0 := fun i hi => absurd hi (Nat.not_lt_zero i)
  cases hmax : R.maxAttempts with
  | zero => exact .ends (Nat.zero_le _) hfail (Or.inl hmax.symm)
  | succ left => exact .head (by omega) rfl hfail

theorem goesOn (h : RetryAt R base st n results) (hgo : TaskLoop.GoesOn st st') :
    RetryAt R base st' n results := by
  cases hgo with
  | same => exact h
  | leaf r =>
    cases h with
    | attempt hmax hlen hfail habove => exact .attempt hmax hlen hfail habove
    | asleep hmax hlen hfail => exact .head hmax hlen hfail
  | parked x =>
    cases h with
    | attempt hmax hlen hfail habove => exact .attempt hmax hlen hfail habove

theorem of_result {left : ℕ} (hmax : n + (left + 1) = R.maxAttempts) (hlen : results.length = n)
    (hfail : Failed results n) (token : Option ℕ) (spawner : Option Handle) (r : Result ℕ) :
    RetryAt R base ⟨.result, token, .body (R.after n left r), base, spawner⟩
      (n + 1) (results ++ [r]) := by
  have hget : (results ++ [r])[n]? = some r := hlen ▸ List.getElem?_concat_length
  have hlen' : (results ++ [r]).length = n + 1 := by simp [hlen]
  have hinit := hfail.concat hlen r
  cases r with
  | ok v => exact .ends (by omega) hinit (Or.inr ⟨Nat.succ_pos n, v, hget⟩)
  | error e =>
    cases left with
    | zero => exact .ends (by omega) hinit (Or.inl hmax)
    | succ left =>
      have hmax' : n + 1 + (left + 1) = R.maxAttempts := by omega
      by_cases hsleep : 0 < R.delayBetween ∧ R.timer = true
      · have hp : R.after n (left + 1) (.error e) =
            .wait (.sleep R.delayBetween) 0 fun _ => R.attempts (n + 1) (left + 1) :=
          if_pos hsleep
        rw [hp]
        exact .pause hmax' hlen' (hinit.succ hget)
      · have hp : R.after n (left + 1) (.error e) = R.attempts (n + 1) (left + 1) :=
          if_neg hsleep
        rw [hp]
        exact .head hmax' hlen' (hinit.succ hget)

def Next (R : RetryArgs) (base : Callers .result) (st : Strand) (n : ℕ)
    (results : List (Result ℕ)) : Option RetryMark → Prop
  | none => RetryAt R base st n results
  | some .call => RetryAt R base st (n + 1) results
  | some (.result r) => RetryAt R base st n (results ++ [r])
  | some .back => LastCall R.maxAttempts results n

section Run
variable {s t : TaskLoop} {h : Handle} {sys : Except Errno ℕ} {clock : ℤ} {order : List Handle}
  {τ : TaskType} {token : Option ℕ} {callers : Callers τ} {spawner : Option Handle}
  {p : Program τ} {left : ℕ}

theorem run_attempt (hmax : n + (left + 1) = R.maxAttempts) (hlen : results.length = n)
    (hfail : Failed results n) (habove : Callers.Above base (R.after n left) callers)
    (hrun : s.runBody h sys clock order token callers spawner p = some t) :
    ∃ st', t.strand h = some st' ∧ Next R base st' (n + 1) results
      (Strand.retryMark base.depth ⟨τ, token, .body p, callers, spawner⟩) := by
  have hdepth := habove.depth_lt
  cases p with
  | ret v =>
    cases habove with
    | call token' =>
      rw [TaskLoop.runBody, Option.some.injEq] at hrun
      subst hrun
      refine ⟨_, Function.update_self .., ?_⟩
      have hmark : Strand.retryMark base.depth
          ⟨.result, token, .body (.ret v), .cons token' (R.after n left) base, spawner⟩ =
            some (.result v) := by
        simp [Strand.retryMark, Callers.depth]
      rw [hmark]
      exact of_result hmax hlen hfail token' spawner v
    | cons token' next' habove' =>
      rw [TaskLoop.runBody, Option.some.injEq] at hrun
      subst hrun
      have hinner := habove'.depth_lt
      refine ⟨_, Function.update_self .., ?_⟩
      rw [Strand.retryMark_of_deep (Nat.succ_lt_succ hinner)]
      exact .attempt hmax hlen hfail habove'
  | await task own next =>
    rw [TaskLoop.runBody, Option.some.injEq] at hrun
    subst hrun
    refine ⟨_, Function.update_self .., ?_⟩
    rw [Strand.retryMark, if_neg hdepth.ne']
    exact .attempt hmax hlen hfail (.cons token next habove)
  | _ =>
    obtain ⟨place, hplace⟩ := TaskLoop.runBody_stays rfl hrun
    exact ⟨_, hplace, .attempt hmax hlen hfail habove⟩

theorem run (hat : RetryAt R base st n results) (hst : s.strand h = some st)
    (hstep : s.step (.run h sys clock order) = some t) :
    ∃ st', t.strand h = some st' ∧ Next R base st' n results (st.retryMark base.depth) := by
  obtain ⟨on, τ, token, callers, spawner, p, -, hst', hrun⟩ := TaskLoop.step_run_eq hstep
  obtain rfl := Option.some.inj (hst.symm.trans hst')
  cases hat with
  | head hmax hlen hfail =>
    rw [R.attempts_succ, TaskLoop.runBody, Option.some.injEq] at hrun
    subst hrun
    refine ⟨_, Function.update_self .., ?_⟩
    rw [R.attempts_succ, Strand.retryMark, if_pos rfl]
    exact .attempt hmax hlen hfail (.call token)
  | attempt hmax hlen hfail habove => exact run_attempt hmax hlen hfail habove hrun
  | pause hmax hlen hfail =>
    obtain ⟨w, place, -, rfl, hplace⟩ := TaskLoop.runBody_wait_eq hrun
    refine ⟨_, Function.update_self .., ?_⟩
    rcases hplace with ⟨-, rfl⟩ | ⟨r, -, -, rfl⟩
    · exact .asleep hmax hlen hfail
    · exact .head hmax hlen hfail
  | @ends _ v _ _ _ hmax hfail hlast =>
    have hmark : Strand.retryMark base.depth ⟨.result, token, .body (.ret v), base, spawner⟩ =
        some .back := if_pos rfl
    rw [hmark]
    cases base with
    | bottom =>
      rw [TaskLoop.runBody, Option.map_eq_some_iff] at hrun
      obtain ⟨w, -, rfl⟩ := hrun
      exact ⟨_, hst, hlast⟩
    | cons token' next rest =>
      rw [TaskLoop.runBody, Option.some.injEq] at hrun
      subst hrun
      exact ⟨_, Function.update_self .., hlast⟩

end Run
end RetryAt

/-! ## Watched runs -/

namespace RetryWatch
variable {R : RetryArgs} {base : Callers .result} {h : Handle} {src : ℕ} {w w' : RetryWatch}
  {op : TaskLoopOp}

structure Inv (R : RetryArgs) (base : Callers .result) (h : Handle) (w : RetryWatch) : Prop where
  loop : w.loop.Inv
  frame : w.returned = false →
    ∃ st, w.loop.strand h = some st ∧ RetryAt R base st w.calls w.results
  calls_le : w.calls ≤ R.maxAttempts
  failed : Failed w.results (w.calls - 1)
  last : w.returned = true → LastCall R.maxAttempts w.results w.calls
  stop_le : ∀ a, w.stoppedAt = some a → a ≤ w.calls

theorem Inv.of_frame {st : Strand} (hloop : w.loop.Inv) (hopen : w.returned = false)
    (hst : w.loop.strand h = some st) (hat : RetryAt R base st w.calls w.results)
    (hstop : ∀ a, w.stoppedAt = some a → a ≤ w.calls) : Inv R base h w where
  loop := hloop
  frame := fun _ => ⟨st, hst, hat⟩
  calls_le := hat.calls_le
  failed := hat.failed
  last := fun hret => absurd (hopen.symm.trans hret) Bool.false_ne_true
  stop_le := hstop

theorem moveTo_stop_le {t : TaskLoop} (hstop : ∀ a, w.stoppedAt = some a → a ≤ w.calls) (a : ℕ)
    (ha : (w.moveTo src t).stoppedAt = some a) : a ≤ (w.moveTo src t).calls := by
  rcases Option.or_eq_some_iff.mp ha with hold | ⟨-, hnew⟩
  · exact hstop a hold
  · obtain ⟨_, -, rfl⟩ := Option.map_eq_some_iff.mp hnew
    exact le_rfl

theorem mark_of_not_run {depth : ℕ} (hop : op.runs h = false) : w.mark h depth op = none := by
  cases op with
  | run k sys clock order =>
    have hk : k ≠ h := of_decide_eq_false hop
    exact if_neg fun hc => hk hc.1
  | _ => rfl

theorem mark_of_returned {depth : ℕ} (hret : w.returned = true) : w.mark h depth op = none := by
  cases op with
  | run k sys clock order => exact if_neg fun hc => Bool.false_ne_true (hc.2.symm.trans hret)
  | _ => rfl

theorem Inv.step (hw : Inv R base h w) (hstep : w.step h base.depth src op = some w') :
    Inv R base h w' := by
  obtain ⟨t, ht, rfl⟩ := Option.map_eq_some_iff.mp hstep
  have hloop := (TaskLoop.step_inv hw.loop ht).1
  have hstop : ∀ a, w.stoppedAt = some a → a ≤ w.calls := hw.stop_le
  cases hret : w.returned with
  | true =>
    rw [mark_of_returned hret]
    exact ⟨hloop, fun hopen => absurd (hopen.symm.trans hret) Bool.false_ne_true, hw.calls_le,
      hw.failed, hw.last, moveTo_stop_le hstop⟩
  | false =>
    obtain ⟨st, hst, hat⟩ := hw.frame hret
    rcases TaskLoop.step_strand hw.loop hst ht with
      ⟨sys, clock, order, rfl⟩ | ⟨hop, st', hst', hgo⟩
    · obtain ⟨st', hst', hnext⟩ := hat.run hst ht
      have hmark : w.mark h base.depth (.run h sys clock order) = st.retryMark base.depth := by
        simp [mark, hret, hst]
      rw [hmark]
      generalize st.retryMark base.depth = m at hnext
      rcases m with _ | _ | r | _
      · exact .of_frame hloop hret hst' hnext (moveTo_stop_le hstop)
      · exact .of_frame hloop hret hst' hnext
          (moveTo_stop_le fun a ha => Nat.le_succ_of_le (hstop a ha))
      · exact .of_frame hloop hret hst' hnext (moveTo_stop_le hstop)
      · exact ⟨hloop, nofun, hw.calls_le, hw.failed, fun _ => hnext, moveTo_stop_le hstop⟩
    · rw [mark_of_not_run hop]
      exact .of_frame hloop hret hst' (hat.goesOn hgo) (moveTo_stop_le hstop)

theorem Inv.start {s : TaskLoop} (hs : s.Inv) {token : Option ℕ} {spawner : Option Handle}
    (hst : s.strand h =
      some ⟨.result, token, .body (R.attempts 0 R.maxAttempts), base, spawner⟩) :
    Inv R base h (RetryWatch.start src s) :=
  .of_frame hs rfl hst (RetryAt.start token spawner) (moveTo_stop_le nofun)

theorem Inv.calls_eq (hw : Inv R base h w) {a : ℕ} (ha : w.stoppedAt = some a)
    (hlast : LastCall R.maxAttempts w.results a) : w.calls = a := by
  have hle := hw.stop_le a ha
  rcases hlast with rfl | ⟨hpos, v, hv⟩
  · exact le_antisymm hw.calls_le hle
  · by_contra hne
    obtain ⟨e, he⟩ := hw.failed (a - 1) (by omega)
    exact absurd (hv.symm.trans he) (by simp)

end RetryWatch

/-- For a frame of `retry` anywhere in a task, whatever its attempts bring and whenever the
source of its token is stopped: the factory is not called after the stop exactly if the call
under way then was the last one anyway. -/
theorem retry_stops_iff {outer : ℕ} {now : ℤ} {m : Heap} {k : Kernel} {ops : List TaskLoopOp}
    {s : TaskLoop} (hs : TaskLoop.Reaches outer now m k ops s) {h : Handle}
    {factory : ℕ → Program .result} {maxAttempts : ℕ} {delayBetween : ℤ} {timer : Bool}
    {src : ℕ} {base : Callers .result} {spawner : Option Handle}
    (hst : s.strand h = some ⟨.result, some src,
      .body (.retry factory maxAttempts delayBetween timer), base, spawner⟩)
    {ops' : List TaskLoopOp} {w : RetryWatch}
    (hrun : Transition.run (RetryWatch.step h base.depth src) (RetryWatch.start src s) ops' =
      some w) {a : ℕ} (ha : w.stoppedAt = some a) :
    (LastCall maxAttempts w.results a → w.calls = a) ∧
      (w.returned = true → (w.calls = a ↔ LastCall maxAttempts w.results a)) := by
  have hw : w.Inv ⟨factory, maxAttempts, delayBetween, timer⟩ base h :=
    Transition.invariant (RetryWatch.Inv ⟨factory, maxAttempts, delayBetween, timer⟩ base h)
      (fun hstep hv => hv.step hstep) (.start hs.inv hst) hrun
  refine ⟨hw.calls_eq ha, fun hret => ⟨fun hcalls => ?_, hw.calls_eq ha⟩⟩
  rw [← hcalls]
  exact hw.last hret

def failsOnce : ℕ → TaskExpr .result
  | 0 => .ret (.error makeTimedOutError)
  | _ + 1 => .ret (.ok 7)

def stopInSecond : List TaskLoopOp :=
  [.resume (.ok 0), .run 0 (.ok 0) 0 [], .run 0 (.ok 0) 0 [], .run 0 (.ok 0) 0 [], .stop 0 [],
    .run 0 (.ok 0) 0 [], .run 0 (.ok 0) 0 []]

theorem retry_stops_in_second_attempt : ∃ s w,
    TaskLoop.Reaches 1 0 World.blankHeap World.blankKernel
      [.spawn ⟨.result, .retry failsOnce 3 0 false, some 0⟩] s ∧
    Transition.run (RetryWatch.step 0 0 0) (RetryWatch.start 0 s) stopInSecond = some w ∧
    w.results = [.error makeTimedOutError, .ok 7] ∧ w.stoppedAt = some 2 ∧
    w.returned = true ∧ w.calls = 2 := by
  obtain ⟨s, w, hs, hst, hrun, hres, ha, hret⟩ : ∃ s w,
      TaskLoop.Reaches 1 0 World.blankHeap World.blankKernel
        [.spawn ⟨.result, .retry failsOnce 3 0 false, some 0⟩] s ∧
      s.strand 0 = some ⟨.result, some 0,
        .body (.retry (fun n => (failsOnce n).program) 3 0 false), .bottom, none⟩ ∧
      Transition.run (RetryWatch.step 0 0 0) (RetryWatch.start 0 s) stopInSecond = some w ∧
      w.results = [.error makeTimedOutError, .ok 7] ∧ w.stoppedAt = some 2 ∧
      w.returned = true := ⟨_, _, rfl, rfl, rfl, rfl, rfl, rfl⟩
  have hlast : LastCall 3 w.results 2 := Or.inr ⟨by decide, 7, by rw [hres]; rfl⟩
  exact ⟨s, w, hs, hrun, hres, ha, hret, ((retry_stops_iff hs hst hrun ha).2 hret).mpr hlast⟩

def retriedRead (maxAttempts : ℕ) : Root :=
  ⟨.result, .retry (fun _ => TaskLoop.readTask) maxAttempts 0 false, some 0⟩

def stopInAttempt (n : ℕ) : List TaskLoopOp :=
  [.resume (.ok 0), .run 0 (.ok 0) 0 [], .run 0 (.ok 0) 0 [], .stop 0 [], .resume (.ok 0)] ++
    List.replicate n (.run 0 (.ok 0) 0 [])

def retriedFailure : Root :=
  ⟨.result, .retry (fun _ => .ret (.error makeTimedOutError)) 2 5 true, some 0⟩

/-- The factory is called again after a stop in the first attempt and after a stop in the sleep
that follows it, and for the first time after a stop that comes before. -/
theorem retry_goes_on_after_stop :
    (∃ s w, TaskLoop.Reaches 1 0 World.blankHeap World.blankKernel [.spawn (retriedRead 2)] s ∧
      s.strand 0 = some ⟨.result, some 0,
        .body (.retry (fun _ => TaskLoop.readTask.program) 2 0 false), .bottom, none⟩ ∧
      Transition.run (RetryWatch.step 0 0 0) (RetryWatch.start 0 s) (stopInAttempt 2) = some w ∧
      w.stoppedAt = some 1 ∧ w.calls = 2) ∧
    (∃ s w, TaskLoop.Reaches 1 0 World.blankHeap World.blankKernel [.spawn retriedFailure] s ∧
      s.strand 0 = some ⟨.result, some 0,
        .body (.retry (fun _ => .ret (.error makeTimedOutError)) 2 5 true), .bottom, none⟩ ∧
      Transition.run (RetryWatch.step 0 0 0) (RetryWatch.start 0 s)
        [.resume (.ok 0), .run 0 (.ok 0) 0 [], .run 0 (.ok 0) 0 [], .run 0 (.ok 0) 0 [],
          .stop 0 [], .loop .drainTimer, .resume (.ok 0), .run 0 (.ok 0) 0 []] = some w ∧
      w.stoppedAt = some 1 ∧ w.calls = 2) ∧
    ∃ s w, TaskLoop.Reaches 1 0 World.blankHeap World.blankKernel [.spawn (retriedRead 2)] s ∧
      Transition.run (RetryWatch.step 0 0 0) (RetryWatch.start 0 s)
        [.stop 0 [], .resume (.ok 0), .run 0 (.ok 0) 0 []] = some w ∧
      w.stoppedAt = some 0 ∧ w.calls = 1 :=
  ⟨⟨_, _, rfl, rfl, rfl, rfl, rfl⟩, ⟨_, _, rfl, rfl, rfl, rfl, rfl⟩, ⟨_, _, rfl, rfl, rfl, rfl⟩⟩

end RainRuntime
