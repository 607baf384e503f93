import RainRuntime.TaskPrograms

/-!
# Calls of the concurrent combinators

A call of `when_all`, `when_any` or `timeout` makes a shared state, makes its stop sources
and spawns its racers, and then awaits the state. A racer awaits one thing and, when that
comes back, updates the state and is done. So the state of a call is a fold over what its
racers came back with, in the order in which they ended (`tally`), whatever happened in
between. The fold says who decides the race, what is stored and who is asked to stop.

All programs that tasks are made of reach shared states only through such calls (`Formed`).
-/

namespace RainRuntime

inductive Contest where
  | whenAll (tasks : List (Program .result))
  | whenAny (tasks : List (Program .result))
  | timeout (task : Program .result) (dur : ℤ)

namespace Contest

def type : Contest → TaskType
  | .whenAll _ => .results
  | .whenAny _ => .result
  | .timeout _ _ => .result

def tasks : Contest → List (Program .result)
  | .whenAll tasks => tasks
  | .whenAny tasks => tasks
  | .timeout task _ => [task]

/-- The number of racers. In a timeout 0 is the task and 1 the sentinel. -/
def size : Contest → ℕ
  | .whenAll tasks => tasks.length
  | .whenAny tasks => tasks.length
  | .timeout _ _ => 2

def sources : Contest → ℕ
  | .whenAll _ => 0
  | .whenAny tasks => tasks.length
  | .timeout _ _ => 2

def notes (base : ℕ) : Contest → List ℕ
  | .whenAll _ => []
  | .whenAny tasks => List.range' base tasks.length
  | .timeout _ _ => []

def start : Contest → Shared
  | .whenAll tasks => .whenAll tasks.length
  | .whenAny tasks => .whenAny tasks.length
  | .timeout _ _ => .timeout

def ready : Contest → Shared → Bool
  | .whenAll _ => fun s => s.remaining == 0
  | .whenAny _ => fun s => s.resolved
  | .timeout _ _ => fun s => s.resolved

def next : (c : Contest) → Shared → Program c.type
  | .whenAll _ => fun s => .ret s.results
  | .whenAny _ => fun s => .ret s.finish.1
  | .timeout _ _ => fun s => .ret s.finish.1

def setUp : (c : Contest) → ℕ → Program c.type
  | .whenAll tasks, state =>
    Program.spawnAllRacers state 0 tasks <|
    .awaitState state (fun s => s.remaining == 0) fun s => .ret s.results
  | .whenAny tasks, state =>
    Program.spawnAnyRacers state tasks <|
    .awaitState state (fun s => s.resolved) fun s => .ret s.finish.1
  | .timeout task dur, state =>
    .makeSource fun taskSrc =>
    .makeSource fun timerSrc =>
    .spawn (Program.timeoutTaskRacer task taskSrc state timerSrc) none <|
    .spawn (Program.timeoutTimerRacer dur state taskSrc) (some timerSrc) <|
    .awaitState state (fun s => s.resolved) fun s => .ret s.finish.1

def program (c : Contest) : Program c.type := .makeState c.start c.setUp

def token (base : ℕ) : Contest → ℕ → Option ℕ
  | .whenAll _, _ => none
  | .whenAny _, idx => some (base + idx)
  | .timeout _ _, idx => some (base + idx)

def ending (base : ℕ) : Contest → ℕ → Result ℕ → Shared → Update
  | .whenAll _, idx, r => Shared.storeResult idx r
  | .whenAny _, _, r => fun s => s.resolveWith (s.whenAnyRacer r) s.stopSources
  | .timeout _ _, 0, r => fun s => s.resolveWith (s.timeoutTaskRacer r) [base + 1]
  | .timeout _ _, _ + 1, r => fun s =>
    s.resolveWith (s.timeoutTimerRacer (r.map fun _ => ())) [base]

def close (c : Contest) (state base idx : ℕ) (r : Result ℕ) : Program .unit :=
  .update state (c.ending base idx r) (.ret ())

def racers (state base : ℕ) : Contest → List (Program .unit × Option ℕ)
  | .whenAll tasks => tasks.mapIdx fun idx task => (Program.whenAllRacer idx task state, none)
  | .whenAny tasks =>
    tasks.mapIdx fun idx task => (Program.whenAnyRacer task (base + idx) state, none)
  | .timeout task dur =>
    [(Program.timeoutTaskRacer task base state (base + 1), none),
      (Program.timeoutTimerRacer dur state base, some (base + 1))]

theorem length_racers (c : Contest) (state base : ℕ) : (c.racers state base).length = c.size := by
  cases c <;> simp [racers, size]

theorem racer_cases {c : Contest} {state base idx : ℕ} {p : Program .unit} {own : Option ℕ}
    (h : (c.racers state base)[idx]? = some (p, own)) :
    (∃ task ∈ c.tasks, p = .await task (c.token base idx) (c.close state base idx) ∧ own = none) ∨
      ∃ dur, p = .wait (.sleep dur) 0 (c.close state base idx) ∧ own = c.token base idx := by
  cases c with
  | whenAll tasks =>
    rw [racers, List.getElem?_mapIdx] at h
    obtain ⟨task, htask, heq⟩ := Option.map_eq_some_iff.mp h
    cases heq
    exact Or.inl ⟨task, List.mem_of_getElem? htask, rfl, rfl⟩
  | whenAny tasks =>
    rw [racers, List.getElem?_mapIdx] at h
    obtain ⟨task, htask, heq⟩ := Option.map_eq_some_iff.mp h
    cases heq
    exact Or.inl ⟨task, List.mem_of_getElem? htask, rfl, rfl⟩
  | timeout task dur =>
    match idx, h with
    | 0, h =>
      cases h
      exact Or.inl ⟨task, List.mem_singleton_self _, rfl, rfl⟩
    | 1, h =>
      cases h
      exact Or.inr ⟨dur, rfl, rfl⟩
    | idx + 2, h => cases h

end Contest

theorem Program.whenAny_eq {tasks : List (Program .result)} (h : tasks ≠ []) :
    Program.whenAny tasks = (Contest.whenAny tasks).program := by
  rw [Program.whenAny, if_neg (by simpa using h)]
  rfl

/-! ## The set-up -/

namespace Program
variable {τ : TaskType} {state last src : ℕ} {final : Program τ} {notes : List ℕ}
  {racers : List (Program .unit × Option ℕ)}

/-- The program makes sources up to number `last`, starting with `src`, notes `notes` in the
state, spawns `racers` and goes on with `final`. -/
inductive Leads (state last : ℕ) (final : Program τ) :
    ℕ → List ℕ → List (Program .unit × Option ℕ) → Program τ → Prop where
  | done : Leads state last final last [] [] final
  | source {src : ℕ} {notes : List ℕ} {racers : List (Program .unit × Option ℕ)}
      {next : ℕ → Program τ} (h : Leads state last final (src + 1) notes racers (next src)) :
      Leads state last final src notes racers (.makeSource next)
  | note {src x : ℕ} {notes : List ℕ} {racers : List (Program .unit × Option ℕ)}
      {next : Program τ} (h : Leads state last final src notes racers next) :
      Leads state last final src (x :: notes) racers (.update state (Shared.addSource x) next)
  | spawn {src : ℕ} {notes : List ℕ} {racers : List (Program .unit × Option ℕ)}
      {task : Program .unit} {own : Option ℕ} {next : Program τ}
      (h : Leads state last final src notes racers next) :
      Leads state last final src notes ((task, own) :: racers) (.spawn task own next)

theorem spawnAllRacers_leads (tasks : List (Program .result)) (state src idx : ℕ)
    (final : Program τ) :
    Leads state src final src [] (tasks.mapIdx fun i task =>
      (whenAllRacer (idx + i) task state, none)) (spawnAllRacers state idx tasks final) := by
  induction tasks generalizing idx with
  | nil => exact .done
  | cons task tasks ih =>
    have hrest := ih (idx + 1)
    simp only [Nat.add_assoc, Nat.add_comm 1] at hrest
    rw [List.mapIdx_cons]
    exact .spawn hrest

theorem spawnAnyRacers_leads (tasks : List (Program .result)) (state src : ℕ)
    (final : Program τ) :
    Leads state (src + tasks.length) final src (List.range' src tasks.length)
      (tasks.mapIdx fun i task => (whenAnyRacer task (src + i) state, none))
      (spawnAnyRacers state tasks final) := by
  induction tasks generalizing src with
  | nil => exact .done
  | cons task tasks ih =>
    have hrest := ih (src + 1)
    rw [Nat.add_assoc, Nat.add_comm 1] at hrest
    simp only [Nat.add_assoc, Nat.add_comm 1] at hrest
    rw [List.mapIdx_cons, List.length_cons, List.range'_succ]
    exact .source (.note (.spawn hrest))

end Program

theorem Contest.setUp_leads (c : Contest) (state base : ℕ) :
    Program.Leads state (base + c.sources) (.awaitState state c.ready c.next) base (c.notes base)
      (c.racers state base) (c.setUp state) := by
  cases c with
  | whenAll tasks =>
    have h := Program.spawnAllRacers_leads tasks state base 0
      (.awaitState state (Contest.whenAll tasks).ready (Contest.whenAll tasks).next)
    simp only [Nat.zero_add] at h
    exact h
  | whenAny tasks => exact Program.spawnAnyRacers_leads tasks state base _
  | timeout task dur => exact .source (.source (.spawn (.spawn .done)))

/-! ## Programs of tasks -/

inductive Program.Formed : {τ : TaskType} → Program τ → Prop where
  | ret {τ : TaskType} (v : τ.Value) : Formed (.ret v : Program τ)
  | now {τ : TaskType} {next : ℤ → Program τ} (h : ∀ t, Formed (next t)) : Formed (.now next)
  | wait {τ : TaskType} {kind : WaitKind} {fd : ℤ} {next : Result ℕ → Program τ}
      (h : ∀ r, Formed (next r)) : Formed (.wait kind fd next)
  | await {σ τ : TaskType} {task : Program σ} {next : σ.Value → Program τ} (ht : Formed task)
      (h : ∀ v, Formed (next v)) : Formed (.await task none next)
  | call (c : Contest) (h : ∀ task ∈ c.tasks, Formed task) : Formed c.program

namespace Program
variable {τ : TaskType}

theorem formed_await {task : Program .result} {next : TaskType.result.Value → Program .result}
    (htask : task.Formed) (hok : ∀ v, (next (Except.ok v)).Formed)
    (herr : ∀ e, (next (Except.error e)).Formed) : (await task none next).Formed := by
  refine .await htask fun r => ?_
  cases r with
  | ok v => exact hok v
  | error e => exact herr e

theorem retryFrom_formed {factory : ℕ → Program .result} (h : ∀ i, (factory i).Formed)
    (delayBetween : ℤ) (timer : Bool) (attempt left : ℕ) :
    (retryFrom factory delayBetween timer attempt left).Formed := by
  induction left generalizing attempt with
  | zero => exact .ret _
  | succ left ih =>
    refine formed_await (h attempt) (fun v => .ret _) fun e => ?_
    dsimp only
    split_ifs
    · exact .ret _
    · exact .wait fun _ => ih (attempt + 1)
    · exact ih (attempt + 1)

end Program

theorem TaskExpr.program_formed {τ : TaskType} (e : TaskExpr τ) : e.program.Formed := by
  induction e with
  | ret v => exact .ret v
  | leaf kind fd next ih => exact .wait ih
  | await task next iht ihn => exact .await iht ihn
  | andThen task f iht ihf =>
    exact Program.formed_await iht (fun v => .await (ihf v) .ret) fun e => .ret _
  | map task f ih => exact Program.formed_await ih (fun v => .ret _) fun e => .ret _
  | mapErr task f ih => exact Program.formed_await ih (fun v => .ret _) fun e => .ret _
  | orElse task f iht ihf =>
    exact Program.formed_await iht (fun v => .ret _) fun e => .await (ihf e) .ret
  | inspect task ih => exact .await ih .ret
  | inspectErr task ih => exact .await ih .ret
  | retry factory maxAttempts delayBetween timer ih =>
    exact Program.retryFrom_formed ih delayBetween timer 0 maxAttempts
  | withDeadlineCheck task limit ih =>
    refine .now fun start => .await ih fun r => .now fun t => ?_
    split_ifs <;> exact .ret _
  | whenAll tasks ih =>
    refine .call (.whenAll _) fun p hp => ?_
    obtain ⟨i, rfl⟩ := (List.mem_ofFn' _ _).mp hp
    exact ih i
  | whenAny tasks ih =>
    rw [TaskExpr.program]
    by_cases hnil : (List.ofFn fun i => (tasks i).program) = []
    · rw [hnil]
      exact .ret _
    · rw [Program.whenAny_eq hnil]
      refine .call (.whenAny _) fun p hp => ?_
      obtain ⟨i, rfl⟩ := (List.mem_ofFn' _ _).mp hp
      exact ih i
  | timeout task dur ih =>
    refine .call (.timeout task.program dur) fun p hp => ?_
    rw [List.mem_singleton.mp hp]
    exact ih

/-! ## What the ends of the racers add up to -/

structure Tally where
  state : Shared
  stops : List ℕ
  notified : ℕ

def Tally.add (t : Tally) (u : Update) : Tally :=
  ⟨u.state, t.stops ++ u.stops, t.notified + u.notifies.toNat⟩

namespace Contest
variable {c : Contest} {base : ℕ} {waiter : Option Handle} {ends : List (ℕ × Result ℕ)}
  {e : ℕ × Result ℕ} {s : Shared}

def opened (c : Contest) (base : ℕ) (waiter : Option Handle) : Shared :=
  { c.start with stopSources := c.notes base, waiter := waiter }

theorem size_of_ready_opened (h : c.ready (c.opened base waiter) = true) : c.size = 0 := by
  cases c with
  | whenAll tasks => simpa [ready, opened, start, Shared.whenAll, size] using h
  | whenAny tasks => cases h
  | timeout task dur => cases h

theorem ready_waiter (c : Contest) (s : Shared) (waiter : Option Handle) :
    c.ready { s with waiter := waiter } = c.ready s := by
  cases c <;> rfl

theorem next_formed (c : Contest) (s : Shared) : (c.next s).Formed := by
  cases c <;> exact .ret _

/-- The racers of `ends` have ended, in this order: each with its index and what its await
came back with. -/
def tally (c : Contest) (base : ℕ) (waiter : Option Handle) (ends : List (ℕ × Result ℕ)) : Tally :=
  ends.foldl (fun t e => t.add (c.ending base e.1 e.2 t.state)) ⟨c.opened base waiter, [], 0⟩

theorem tally_concat : c.tally base waiter (ends ++ [e]) =
    (c.tally base waiter ends).add
      (c.ending base e.1 e.2 (c.tally base waiter ends).state) := by
  rw [tally, List.foldl_append]
  rfl

structure Ended (n : ℕ) (ends : List (ℕ × Result ℕ)) : Prop where
  once : (ends.map Prod.fst).Nodup
  known : ∀ e ∈ ends, e.1 < n

theorem Ended.nil (n : ℕ) : Ended n [] := ⟨List.nodup_nil, by simp⟩

theorem Ended.concat {n : ℕ} (h : Ended n ends) (hlt : e.1 < n) (hnew : e.1 ∉ ends.map Prod.fst) :
    Ended n (ends ++ [e]) := by
  constructor
  · rw [List.map_append]
    refine h.once.append (List.nodup_singleton e.1) ?_
    simpa using hnew
  · intro x hx
    rcases List.mem_append.mp hx with hx | hx
    · exact h.known x hx
    · rw [List.mem_singleton.mp hx]
      exact hlt

theorem Ended.length_le {n : ℕ} (h : Ended n ends) : ends.length ≤ n := by
  have hsub : ends.map Prod.fst ⊆ List.range n := by
    intro i hi
    obtain ⟨e, he, rfl⟩ := List.mem_map.mp hi
    exact List.mem_range.mpr (h.known e he)
  have hle := (List.subperm_of_subset h.once hsub).length_le
  rwa [List.length_map, List.length_range] at hle

theorem Ended.init {n : ℕ} (h : Ended n (ends ++ [e])) : Ended n ends := by
  constructor
  · have hnd := h.once
    rw [List.map_append] at hnd
    exact hnd.of_append_left
  · exact fun x hx => h.known x (List.mem_append_left _ hx)

theorem Ended.complete {n : ℕ} (h : Ended n ends) (hlen : ends.length = n) {idx : ℕ}
    (hidx : idx < n) :
    ∃ r, (idx, r) ∈ ends := by
  have hsub : ends.map Prod.fst ⊆ List.range n := by
    intro i hi
    obtain ⟨e, he, rfl⟩ := List.mem_map.mp hi
    exact List.mem_range.mpr (h.known e he)
  have hperm := (List.subperm_of_subset h.once hsub).perm_of_length_le (by simp [hlen])
  obtain ⟨e, he, rfl⟩ := List.mem_map.mp (hperm.mem_iff.mpr (List.mem_range.mpr hidx))
  exact ⟨e.2, he⟩

/-! ### One end -/

/-- A racer of `when_any` or `timeout` decides the race or leaves the result alone. -/
theorem ending_verdict (base : ℕ) (hc : c.type = .result) (idx : ℕ) (r : Result ℕ) (s : Shared) :
    ∃ p sources, Verdict s.toRaceState p ∧ c.ending base idx r s = s.resolveWith p sources ∧
      c.ready = fun s => s.resolved := by
  cases c with
  | whenAll tasks => cases hc
  | whenAny tasks => exact ⟨_, _, s.whenAnyRacer_verdict r, rfl, rfl⟩
  | timeout task dur =>
    cases idx with
    | zero => exact ⟨_, _, s.timeoutTaskRacer_verdict r, rfl, rfl⟩
    | succ idx => exact ⟨_, _, s.timeoutTimerRacer_verdict _, rfl, rfl⟩

theorem ending_waiter (idx : ℕ) (r : Result ℕ) (s : Shared) :
    (c.ending base idx r s).state.waiter = s.waiter := by
  cases hc : c.type with
  | unit => cases c <;> cases hc
  | results =>
    cases c with
    | whenAll tasks => rfl
    | _ => cases hc
  | result =>
    obtain ⟨p, sources, hv, heq, -⟩ := ending_verdict base hc idx r s
    rw [heq]
    cases hv with
    | lost _ _ hwait => exact hwait
    | won _ _ hwait => exact hwait

theorem ending_notifies (idx : ℕ) (r : Result ℕ) (hs : c.type = .results → c.ready s = false) :
    (c.ending base idx r s).notifies =
      (!c.ready s && c.ready (c.ending base idx r s).state) := by
  cases hc : c.type with
  | unit => cases c <;> cases hc
  | results =>
    rw [hs hc]
    cases c with
    | whenAll tasks => rfl
    | _ => cases hc
  | result =>
    obtain ⟨p, sources, hv, heq, hready⟩ := ending_verdict base hc idx r s
    rw [heq, hready]
    cases hv with
    | lost hres _ _ => simp [Shared.resolveWith, hres]
    | won hopen hres _ => simp [Shared.resolveWith, hopen, hres]

theorem ready_ending (idx : ℕ) (r : Result ℕ) (hs : c.ready s = true) :
    c.ready (c.ending base idx r s).state = true := by
  cases hc : c.type with
  | unit => cases c <;> cases hc
  | results =>
    cases c with
    | whenAll tasks =>
      have hz : s.remaining = 0 := by simpa [ready] using hs
      simp [ready, ending, Shared.storeResult, hz]
    | _ => cases hc
  | result =>
    obtain ⟨p, sources, hv, heq, hready⟩ := ending_verdict base hc idx r s
    rw [hready] at hs
    rw [heq, hready]
    cases hv with
    | lost hres _ _ => exact hres.trans hs
    | won hopen _ _ =>
      rw [show s.resolved = true from hs] at hopen
      cases hopen

/-! ### Runs of ends -/

theorem tally_waiter : (c.tally base waiter ends).state.waiter = waiter := by
  induction ends using List.reverseRecOn with
  | nil => rfl
  | append_singleton ends e ih =>
    rw [tally_concat]
    exact (ending_waiter e.1 e.2 _).trans ih

theorem ready_tally_append (rest : List (ℕ × Result ℕ))
    (h : c.ready (c.tally base waiter ends).state = true) :
    c.ready (c.tally base waiter (ends ++ rest)).state = true := by
  induction rest using List.reverseRecOn with
  | nil => rwa [List.append_nil]
  | append_singleton rest e ih =>
    rw [← List.append_assoc, tally_concat]
    exact ready_ending e.1 e.2 ih

section WhenAll
variable {tasks : List (Program .result)}

theorem whenAll_remaining :
    ((whenAll tasks).tally base waiter ends).state.remaining = tasks.length - ends.length := by
  induction ends using List.reverseRecOn with
  | nil => rfl
  | append_singleton ends e ih =>
    have hstep : ((whenAll tasks).tally base waiter (ends ++ [e])).state.remaining =
        ((whenAll tasks).tally base waiter ends).state.remaining - 1 := by
      rw [tally_concat]
      rfl
    rw [hstep, ih, List.length_append, List.length_singleton]
    omega

theorem ready_of_missing (hc : c.type = .results) (hends : Ended c.size (ends ++ [e])) :
    c.ready (c.tally base waiter ends).state = false := by
  cases c with
  | whenAll tasks =>
    have hlen := hends.length_le
    rw [List.length_append, List.length_singleton] at hlen
    have hrem : ((Contest.whenAll tasks).tally base waiter ends).state.remaining =
        tasks.length - ends.length := whenAll_remaining
    have hsize : (Contest.whenAll tasks).size = tasks.length := rfl
    simp only [ready, hrem, beq_eq_false_iff_ne]
    omega
  | _ => cases hc

theorem whenAll_results_concat : ((whenAll tasks).tally base waiter (ends ++ [e])).state.results =
    ((whenAll tasks).tally base waiter ends).state.results.set e.1 e.2 := by
  rw [tally_concat]
  rfl

theorem whenAll_length_results :
    ((whenAll tasks).tally base waiter ends).state.results.length = tasks.length := by
  induction ends using List.reverseRecOn with
  | nil => exact List.length_replicate
  | append_singleton ends e ih => rw [whenAll_results_concat, List.length_set, ih]

/-- A racer's entry is written by that racer; until then it holds the placeholder. -/
theorem whenAll_results (hends : Ended tasks.length ends) {idx : ℕ} (hidx : idx < tasks.length) :
    (∀ r, (idx, r) ∈ ends →
      ((whenAll tasks).tally base waiter ends).state.results[idx]? = some r) ∧
    (idx ∉ ends.map Prod.fst →
      ((whenAll tasks).tally base waiter ends).state.results[idx]? =
        some (.error makeCancelledError)) := by
  induction ends using List.reverseRecOn with
  | nil =>
    refine ⟨by simp, fun _ => ?_⟩
    exact List.getElem?_replicate_of_lt hidx
  | append_singleton ends e ih =>
    have hlen : ((whenAll tasks).tally base waiter ends).state.results.length = tasks.length :=
      whenAll_length_results
    obtain ⟨hold, hnew⟩ := ih hends.init
    rw [whenAll_results_concat]
    have hnd := hends.once
    rw [List.map_append, List.map_singleton, List.nodup_append] at hnd
    by_cases he : idx = e.1
    · constructor
      · intro r hr
        rcases List.mem_append.mp hr with hr | hr
        · have hmem : e.1 ∈ ends.map Prod.fst := List.mem_map.mpr ⟨(idx, r), hr, he⟩
          exact absurd rfl (hnd.2.2 e.1 hmem e.1 (List.mem_singleton_self _))
        · obtain rfl := List.mem_singleton.mp hr
          rw [List.getElem?_set_self (hlen ▸ hidx)]
      · intro hnot
        simp [he] at hnot
    · rw [List.getElem?_set_ne (Ne.symm he)]
      constructor
      · intro r hr
        rcases List.mem_append.mp hr with hr | hr
        · exact hold r hr
        · rw [← List.mem_singleton.mp hr] at he
          exact absurd rfl he
      · intro hnot
        apply hnew
        intro hmem
        exact hnot (by rw [List.map_append]; exact List.mem_append_left _ hmem)

end WhenAll

/-- The race is open, or it was decided by the end `w`: the result is what this end stored, one
racer has notified, and it asked the sources in `stops` to stop. -/
structure Decided (t : Tally) (w : Option (ℕ × Result ℕ)) (stored : ℕ × Result ℕ → Result ℕ)
    (stops : ℕ × Result ℕ → List ℕ) : Prop where
  resolved : t.state.resolved = w.isSome
  result : ∀ e, w = some e → t.state.result = stored e
  notified : t.notified = w.isSome.toNat
  stops : t.stops = (w.map stops).getD []

/-- The first end that can decide the race does, and who ends later changes nothing. -/
theorem Decided.race {t : Tally} {w : Option (ℕ × Result ℕ)} {stored : ℕ × Result ℕ → Result ℕ}
    {stops : ℕ × Result ℕ → List ℕ} (h : Decided t w stored stops) {p : Bool × RaceState ℕ}
    (hv : Verdict t.state.toRaceState p) {wins : Bool}
    (hwins : t.state.resolved = false → p.1 = wins) (hstored : p.1 = true → p.2.result = stored e) :
    Decided (t.add (t.state.resolveWith p (stops e))) (w.or (if wins then some e else none)) stored
      stops := by
  obtain ⟨hres, hresult, hnot, hstops⟩ := h
  cases w with
  | some x =>
    cases hv with
    | won hopen _ _ =>
      rw [hres] at hopen
      cases hopen
    | lost hsame hkept _ =>
      refine ⟨hsame.trans hres, fun y hy => hkept.trans (hresult y hy), hnot, ?_⟩
      exact (List.append_nil _).trans hstops
  | none =>
    rw [← hwins hres]
    cases hv with
    | lost hsame _ _ =>
      refine ⟨hsame.trans hres, ?_, hnot, (List.append_nil _).trans hstops⟩
      intro y hy
      cases hy
    | won _ hdone _ =>
      refine ⟨hdone, ?_, ?_, ?_⟩
      · intro y hy
        cases hy
        exact hstored rfl
      · simp [Tally.add, Shared.resolveWith, hnot]
      · simp [Tally.add, Shared.resolveWith, hstops]

section WhenAny
variable {tasks : List (Program .result)}

/-- Who decides a `when_any`: the first racer that succeeds, or the last of all. -/
def winner (n : ℕ) (ends : List (ℕ × Result ℕ)) : Option (ℕ × Result ℕ) :=
  (ends.find? fun e => e.2.isOk).or (if ends.length = n then ends.getLast? else none)

theorem winner_nil (n : ℕ) : winner n [] = none := by
  rw [winner]
  split_ifs <;> rfl

theorem winner_concat {n : ℕ} (hlt : ends.length < n) :
    winner n (ends ++ [e]) = (winner n ends).or
      (if e.2.isOk || ends.length + 1 == n then some e else none) := by
  rw [winner, winner, if_neg (Nat.ne_of_lt hlt), Option.or_none, List.find?_append,
    List.length_append, List.length_singleton, List.getLast?_concat]
  cases ends.find? fun e => e.2.isOk with
  | some x => rfl
  | none =>
    cases hok : e.2.isOk <;> simp [hok]

theorem winner_append {n : ℕ} {rest : List (ℕ × Result ℕ)} (hlen : (ends ++ rest).length ≤ n)
    (h : winner n ends = some e) : winner n (ends ++ rest) = some e := by
  rw [winner] at h ⊢
  rw [List.length_append] at hlen
  cases hfind : ends.find? fun e => e.2.isOk with
  | some x =>
    rw [hfind] at h
    rw [List.find?_append, hfind]
    exact h
  | none =>
    rw [hfind, Option.none_or] at h
    split_ifs at h with hn
    obtain rfl : rest = [] := List.eq_nil_of_length_eq_zero (by omega)
    rw [List.append_nil, hfind, if_pos hn]
    exact h

theorem whenAny_stopSources :
    ((whenAny tasks).tally base waiter ends).state.stopSources = List.range' base tasks.length := by
  induction ends using List.reverseRecOn with
  | nil => rfl
  | append_singleton ends e ih =>
    rw [tally_concat]
    exact ih

theorem whenAny_remaining :
    ((whenAny tasks).tally base waiter ends).state.remaining = tasks.length - ends.length := by
  induction ends using List.reverseRecOn with
  | nil => rfl
  | append_singleton ends e ih =>
    have hstep : ∀ s : RaceState ℕ, (s.whenAnyRacer e.2).2.remaining = s.remaining - 1 := by
      intro s
      unfold RaceState.whenAnyRacer
      dsimp only
      split_ifs <;> rfl
    rw [tally_concat, List.length_append, List.length_singleton]
    refine (hstep _).trans ?_
    rw [ih]
    omega

theorem whenAny_decided (hlen : ends.length ≤ tasks.length) :
    Decided ((whenAny tasks).tally base waiter ends) (winner tasks.length ends) Prod.snd
      fun _ => List.range' base tasks.length := by
  induction ends using List.reverseRecOn with
  | nil =>
    rw [winner_nil]
    exact ⟨rfl, by simp, rfl, rfl⟩
  | append_singleton ends e ih =>
    rw [List.length_append, List.length_singleton] at hlen
    have hdec := ih (by omega)
    have hnoted : ((whenAny tasks).tally base waiter ends).state.stopSources =
        List.range' base tasks.length := whenAny_stopSources
    have hrem : ((whenAny tasks).tally base waiter ends).state.remaining =
        tasks.length - ends.length := whenAny_remaining
    rw [tally_concat, winner_concat (by omega)]
    generalize (whenAny tasks).tally base waiter ends = t at *
    have hlast : (t.state.remaining - 1 == 0) = (ends.length + 1 == tasks.length) := by
      rw [hrem, Bool.eq_iff_iff]
      simp only [beq_iff_eq]
      omega
    rw [show ending base (whenAny tasks) e.1 e.2 t.state =
      t.state.resolveWith (t.state.whenAnyRacer e.2) t.state.stopSources from rfl, hnoted, ← hlast]
    apply hdec.race (t.state.whenAnyRacer_verdict e.2)
    · intro hopen
      unfold RaceState.whenAnyRacer
      cases hwin : e.2.isOk || t.state.remaining - 1 == 0 <;> simp [hopen, hwin]
    · unfold RaceState.whenAnyRacer
      dsimp only
      split_ifs
      · exact fun _ => rfl
      · intro h
        cases h

end WhenAny

section Timeout
variable {task : Program .result} {dur : ℤ}

end Timeout

end Contest
end RainRuntime
