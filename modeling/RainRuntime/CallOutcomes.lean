import RainRuntime.RaceRuns
import RainRuntime.WaitOutcome

/-!
# What the calls of the combinators come to

For every call of `when_all`, `when_any` and `timeout` that a strand enters in a run of the
loop's thread, and every state after: the racers end once each, the caller is suspended until
the state is ready, is then in the ready queue once, and goes on once.
-/

namespace RainRuntime

def Strand.parkedAt : Strand → Option ℕ
  | ⟨_, _, .parked state _, _, _⟩ => some state
  | _ => none

theorem Callers.Over.token_eq {calls : ℕ → Call} {i idx : ℕ} {token : Option ℕ} {τ : TaskType}
    {callers : Callers τ} (h : callers.Over calls (some (i, idx)) token) :
    token = (calls i).token idx := by
  induction h with
  | root h => cases h
  | racer h ht =>
    cases h
    exact ht
  | cons _ _ ih => exact ih

theorem Plays.token_of_leaf {calls : ℕ → Call} {sources i idx : ℕ} {stage : Stage} {st : Strand}
    (h : Plays calls sources (some (i, idx)) stage st) (hl : st.place.isLeaf = true) :
    st.token = (calls i).token idx := by
  cases h with
  | leaf _ hc => exact hc.token_eq
  | asleep => rfl
  | _ => cases hl

theorem Plays.stage_of_parked {calls : ℕ → Call} {sources i : ℕ} {role : Option (ℕ × ℕ)}
    {stage : Stage} {st : Strand} (h : Plays calls sources role stage st)
    (hp : st.parkedAt = some i) : stage = .parked i := by
  cases h with
  | parked =>
    cases hp
    rfl
  | _ => cases hp

theorem Plays.parkedAt {calls : ℕ → Call} {sources i : ℕ} {role : Option (ℕ × ℕ)} {st : Strand}
    (h : Plays calls sources role (.parked i) st) : st.parkedAt = some i := by
  cases h
  rfl

namespace Recorded
variable {r r' : Recorded} {h : Handle} {i : ℕ} {call : Call} {op : TaskLoopOp}

/-- Where the caller `h` of the call `i` is. While the call is not ready it is in no queue, and
when it is, it is in the ready queue once. -/
inductive CallerAt (r : Recorded) (h : Handle) (i : ℕ) (ready : Bool) : Prop where
  | settingUp (running : r.loop.world.isRunning h = true) (ends : (r.ledger.calls i).ends = [])
      (taken : (r.ledger.calls i).taken = [])
  | suspended {st : Strand} (strand : r.loop.strand h = some st) (parked : st.parkedAt = some i)
      (taken : (r.ledger.calls i).taken = [])
      (idle : ready = false → r.loop.world.phase h = .idle ∧ r.loop.world.enqueued h = 0)
      (queued : ready = true → h ∈ r.loop.world.ready ∧ r.loop.world.enqueued h = 1)
  | gone (s : Shared) (taken : (r.ledger.calls i).taken = [s]) (isReady : ready = true)

def Accepts (r : Recorded) : Prop :=
  ∀ k (τ : TaskType) token (callers : Callers τ) spawner state f next,
    r.loop.world.isRunning k = true →
    r.loop.strand k = some ⟨τ, token, .body (.update state f next), callers, spawner⟩ →
    ∀ sys clock order, ∃ r', r.step (.run k sys clock order) = some r'

structure Keeps (r : Recorded) (h : Handle) (i n : ℕ) (ready : Bool) : Prop where
  ended : Contest.Ended n (r.ledger.calls i).ends
  caller : r.CallerAt h i ready
  accepts : r.Accepts
  resumes : ∀ st rest sys, r.loop.strand h = some st → st.parkedAt = some i →
    r.loop.world.ready = h :: rest → r.loop.busy = false →
    ∃ r', r.step (.resume sys) = some r' ∧ (r'.ledger.calls i).taken = [r.loop.shared i]

/-! ## Every call -/

theorem Calls.callerAt (hc : r.Calls h i call) :
    r.CallerAt h i (call.contest.ready (r.loop.shared i)) := by
  obtain ⟨sc, hw, hi, rfl, hcaller⟩ := hc
  have hacc := hw.account i hi
  rw [hcaller] at hacc
  generalize hstage : sc.stage h = stage at hacc
  cases hacc with
  | opening _ _ _ ends _ taken => exact .settingUp (hw.setUp h i _ _ hstage).1 ends taken
  | waiting _ racing taken phase =>
    obtain ⟨-, st, hst⟩ := hw.born h i (by rw [hstage]; rfl)
    have hplays := hw.plays h st hst
    rw [hstage] at hplays
    rw [hcaller] at phase
    have hq := hw.orderly.inv.settled.inv.owned.queue h
    unfold World.QueueOk at hq
    refine .suspended hst hplays.parkedAt taken (fun hn => ?_) fun hy => ?_
    · rw [hn] at phase
      rw [phase] at hq
      exact ⟨phase, hq⟩
    · rw [hy] at phase
      rw [phase] at hq
      have hmem := (hw.orderly.strand h).queued phase
      have hpos := List.count_pos_iff.mpr hmem
      refine ⟨hmem, le_antisymm hq ?_⟩
      simp only [World.enqueued, World.lines]
      omega
  | @closed _ waiter pre gone known racing earlier ready taken =>
    obtain ⟨rest, hrest⟩ := earlier
    refine .gone _ taken ?_
    rw [racing.shared, ← hrest]
    exact Contest.ready_tally_append rest ready

theorem Calls.resumes (hc : r.Calls h i call) {st : Strand} {rest : List Handle}
    (sys : Except Errno ℕ) (hst : r.loop.strand h = some st) (hp : st.parkedAt = some i)
    (hready : r.loop.world.ready = h :: rest) (hidle : r.loop.busy = false) :
    ∃ r', r.step (.resume sys) = some r' ∧ (r'.ledger.calls i).taken = [r.loop.shared i] := by
  obtain ⟨sc, hw, hi, rfl, hcaller⟩ := hc
  have hstage := (hw.plays h st hst).stage_of_parked hp
  have htaken : (r.ledger.calls i).taken = [] := by
    have hacc := hw.account i hi
    rw [hcaller, hstage] at hacc
    cases hacc with
    | waiting _ _ taken => exact taken
    | closed gone => exact absurd rfl gone
  obtain ⟨τ, token, place, callers, spawner⟩ := st
  cases place with
  | parked state next =>
    obtain rfl : state = i := Option.some.inj hp
    obtain ⟨w, hresume⟩ : ∃ w, r.loop.world.step (.resume sys) = some w :=
      ⟨_, World.step_resume.mpr ⟨h, rest, hready, rfl⟩⟩
    obtain ⟨t, hstep⟩ : ∃ t, r.loop.turn (.resume sys) = some t := by
      simp [TaskLoop.turn, hidle, TaskLoop.step, hready, hresume, hst, TaskLoop.resumed]
    refine ⟨_, Option.map_eq_some_iff.mpr ⟨t, hstep, rfl⟩, ?_⟩
    simp only [Ledger.sees, hready, hst, Ledger.seesResume]
    refine (congrArg CallLog.taken (Function.update_self ..)).trans ?_
    rw [htaken]
    rfl
  | _ => cases hp

theorem Calls.blocked (hc : r.Calls h i call) {st : Strand} (hst : r.loop.strand h = some st)
    (hp : st.parkedAt = some i) :
    call.contest.ready (call.contest.opened call.base none) = false := by
  obtain ⟨sc, hw, hi, rfl, hcaller⟩ := hc
  have hacc := hw.account i hi
  rw [hcaller, (hw.plays h st hst).stage_of_parked hp] at hacc
  cases hacc with
  | waiting blocked => exact blocked
  | closed gone => exact absurd rfl gone

theorem Calls.goesOn (hc : r.Calls h i call) (hstep : r.step op = some r')
    (hchange : (r'.ledger.calls i).taken ≠ (r.ledger.calls i).taken) :
    call.contest.ready (r.loop.shared i) = true ∧ (r.ledger.calls i).taken = [] ∧
      (r'.ledger.calls i).taken = [r.loop.shared i] ∧
      r'.Enters h (call.contest.next (r.loop.shared i)) := by
  obtain ⟨sc, hw, hi, rfl, hcaller⟩ := hc
  rw [Recorded.step, Option.map_eq_some_iff] at hstep
  obtain ⟨t, hturn, rfl⟩ := hstep
  have htaken := TaskLoop.step_of_turn hturn
  have hedit : ∀ (l : Ledger) state s, i ≠ state →
      ((l.goesOn state s).calls i).taken = (l.calls i).taken := by
    intro l state s hne
    exact congrArg CallLog.taken (Function.update_of_ne hne _ _)
  have hself : ∀ s, (r.ledger.calls i).taken = [] →
      ((r.ledger.goesOn i s).calls i).taken = [s] := by
    intro s hnil
    refine (congrArg CallLog.taken (Function.update_self ..)).trans ?_
    rw [hnil]
    rfl
  cases op with
  | resume sys =>
    obtain ⟨k, rest, w, st, hready, hresume, hst, hres⟩ := TaskLoop.step_resume_eq htaken
    simp only [Ledger.sees, hready, hst] at hchange ⊢
    have hplays := hw.plays k st hst
    obtain ⟨τ, token, place, callers, spawner⟩ := st
    cases place with
    | body p => exact absurd rfl hchange
    | leaf next =>
      exact absurd (by rw [Ledger.seesResume]; split_ifs <;> rfl) hchange
    | parked state next =>
      by_cases hne : i = state
      swap
      · exact absurd (hedit _ _ _ hne) hchange
      subst hne
      generalize hstage : sc.stage k = stage at hplays
      generalize r.ledger.role k = role at hplays
      cases hplays with
      | parked hcontest hc =>
        obtain rfl := (hw.caller k i (by rw [hstage]; rfl)).2.symm.trans hcaller
        obtain ⟨hnow, hnil, -⟩ := hw.ready_of_mem hstage (hready ▸ List.mem_cons_self)
        rw [TaskLoop.resumed, Option.some.injEq] at hres
        subst hcontest hres
        refine ⟨hnow, hnil, hself _ hnil, ?_, _, _, _, Function.update_self ..⟩
        exact TaskLoop.isRunning_iff.mpr ⟨_, hw.orderly.resume_runs hready hresume⟩
  | run k sys clock order =>
    obtain ⟨on, τ, token, callers, spawner, p, hphase, hst, hrun⟩ := TaskLoop.step_run_eq htaken
    simp only [Ledger.sees, hst] at hchange ⊢
    have hplays := hw.plays k _ hst
    by_cases ha : (⟨τ, token, .body p, callers, spawner⟩ : Strand).awaitsState = true
    swap
    · have hgrow : Ledger.Grow fun c c' => c'.taken = c.taken :=
        ⟨fun _ => rfl, fun _ => rfl, fun _ _ _ => rfl⟩
      refine absurd (hgrow.seesRun hi k callers p (Or.inr ?_)) hchange
      rintro state ready next rfl
      exact ha rfl
    obtain ⟨j, hstage⟩ := hplays.setUp_of_awaitsState ha
    rw [hstage] at hplays
    generalize hrole : r.ledger.role k = role at hplays
    generalize r.loop.sources = src at hplays
    cases hplays with
    | setUp hcontest hl ht hc =>
      cases hl with
      | source => cases ha
      | done =>
        have hs : SetsUp r sc k j _ [] [] token _ :=
          ⟨hw, TaskLoop.isRunning_iff.mpr ⟨on, hphase⟩, hstage, hcontest, ht, hrole ▸ hc⟩
        rw [Ledger.seesRun] at hchange ⊢
        rcases TaskLoop.runBody_awaitState_eq hrun with ⟨hnow, rfl⟩ | ⟨w, hnot, -, -⟩
        swap
        · rw [if_neg (by simp [hnot])] at hchange
          exact absurd rfl hchange
        rw [if_pos hnow] at hchange ⊢
        by_cases hne : i = j
        swap
        · exact absurd (hedit _ _ _ hne) hchange
        subst hne hcontest
        obtain rfl := (hw.caller k i hs.call).2.symm.trans hcaller
        obtain ⟨-, -, -, -, hnil⟩ := hs.opened
        exact ⟨hnow, hnil, hself _ hnil, hs.running, _, _, _, Function.update_self ..⟩
  | _ => exact absurd rfl hchange

theorem Calls.keeps (hc : r.Calls h i call) :
    r.Keeps h i call.contest.size (call.contest.ready (r.loop.shared i)) := by
  refine ⟨?_, hc.callerAt, ?_, fun st rest sys => hc.resumes sys⟩
  · obtain ⟨sc, hw, hi, rfl, -⟩ := hc
    exact (hw.account i hi).ended
  · obtain ⟨sc, hw, -⟩ := hc
    intro k τ token callers spawner state f next hrun hst sys clock order
    exact hw.accepts hrun hst sys clock order

theorem Calls.waits (hc : r.Calls h i call) {k : Handle} {idx : ℕ} {a : Awaiter}
    (hrole : r.ledger.role k = some (i, idx)) (hwait : r.loop.world.phase k = .waiting a) :
    a.token = call.token idx := by
  obtain ⟨sc, hw, -, rfl, -⟩ := hc
  obtain ⟨st, hst, htoken⟩ := hw.orderly.inv.waits k a hwait
  have hplays := hw.plays k st hst
  rw [hrole] at hplays
  rw [← htoken]
  exact hplays.token_of_leaf ((hw.orderly.strand k).leaf st hst ⟨a, hwait⟩)

theorem Calls.not_waiting (hc : r.Calls h i call) {k : Handle} {idx : ℕ}
    (hrole : r.ledger.role k = some (i, idx)) (hended : idx ∈ (r.ledger.calls i).ends.map Prod.fst)
    (a : Awaiter) : r.loop.world.phase k ≠ .waiting a := by
  intro hwait
  obtain ⟨sc, hw, -⟩ := hc
  obtain ⟨st, hst, -⟩ := hw.orderly.inv.waits k a hwait
  have hplays := hw.plays k st hst
  have hleaf := (hw.orderly.strand k).leaf st hst ⟨a, hwait⟩
  rw [(hw.ended k i idx hrole).mpr hended, hrole] at hplays
  cases hplays
  cases hleaf

theorem Calls.ends_run (hc : r.Calls h i call) {ops : List TaskLoopOp}
    (hrun : Transition.run Recorded.step r ops = some r') :
    (r.ledger.calls i).ends <+: (r'.ledger.calls i).ends := by
  have hboth := Transition.invariant
    (fun r' : Recorded => r'.Calls h i call ∧ (r.ledger.calls i).ends <+: (r'.ledger.calls i).ends)
    (fun {r' op r''} hstep hr' => ?_) ⟨hc, List.prefix_refl _⟩ hrun
  · exact hboth.2
  · obtain ⟨hc', hends⟩ := hr'
    refine ⟨hc'.step hstep, hends.trans ?_⟩
    obtain ⟨-, -, hi, -⟩ := hc'
    rw [Recorded.step, Option.map_eq_some_iff] at hstep
    obtain ⟨t, -, rfl⟩ := hstep
    exact (r'.ledger.sees_extends r'.loop t op hi).2

theorem Calls.tallies (hc : r.Calls h i call) : ∃ waiter noted,
    r.loop.shared i = { (call.tally waiter (r.ledger.calls i).ends).state with
      stopSources := noted } ∧
    (r.ledger.calls i).notified = (call.tally waiter (r.ledger.calls i).ends).notified ∧
    ∀ x ∈ (call.tally waiter (r.ledger.calls i).ends).stops, r.loop.world.stopped x ≠ none := by
  obtain ⟨sc, hw, hi, rfl, -⟩ := hc
  exact (hw.account i hi).tallies

theorem Reaches.calls {outer : ℕ} {now : ℤ} {m : Heap} {k : Kernel} {ops₀ ops : List TaskLoopOp}
    {c : Contest} {sys : Except Errno ℕ} {clock : ℤ} {order : List Handle}
    (hm : ∀ h, m.done h = false) (hreach : Reaches outer now m k ops₀ r)
    (henter : r.Enters h c.program) (htasks : ∀ task ∈ c.tasks, task.Formed)
    (hrun : Transition.run Recorded.step r (.run h sys clock order :: ops) = some r') :
    r'.Calls h r.loop.states ⟨c, r.loop.sources⟩ := by
  obtain ⟨sc, hw⟩ := hreach.wf hm
  obtain ⟨r₁, hopen, hrest⟩ := Transition.run_cons_eq_some.mp hrun
  exact (henter.opens hw htasks hopen).run hrest

theorem formed_of_mem_programs {tasks : List (TaskExpr .result)} {p : Program .result}
    (hp : p ∈ tasks.map TaskExpr.program) : p.Formed := by
  obtain ⟨e, -, rfl⟩ := List.mem_map.mp hp
  exact e.program_formed

section Runs
variable {outer : ℕ} {now : ℤ} {m : Heap} {k : Kernel} {ops₀ ops : List TaskLoopOp} {r₀ : Recorded}
  {sys : Except Errno ℕ} {clock : ℤ} {order : List Handle} {tasks : List (TaskExpr .result)}

/-! ## `when_all` -/

theorem Calls.whenAll {tasks : List (Program .result)} {base : ℕ}
    (hc : r.Calls h i ⟨.whenAll tasks, base⟩) :
    (Contest.whenAll tasks).ready (r.loop.shared i) =
      decide ((r.ledger.calls i).ends.length = tasks.length) ∧
    (r.loop.shared i).results.length = tasks.length ∧
    ∀ idx < tasks.length,
      (∀ res, (idx, res) ∈ (r.ledger.calls i).ends → (r.loop.shared i).results[idx]? = some res) ∧
      (idx ∉ (r.ledger.calls i).ends.map Prod.fst →
        (r.loop.shared i).results[idx]? = some (.error makeCancelledError)) := by
  have hended : Contest.Ended tasks.length (r.ledger.calls i).ends := hc.keeps.ended
  have hle := hended.length_le
  obtain ⟨waiter, noted, hsh, -, -⟩ := hc.tallies
  rw [hsh]
  refine ⟨?_, Contest.whenAll_length_results, fun idx hidx => Contest.whenAll_results hended hidx⟩
  have hrem : ((Contest.whenAll tasks).tally base waiter (r.ledger.calls i).ends).state.remaining =
      tasks.length - (r.ledger.calls i).ends.length := Contest.whenAll_remaining
  rw [Bool.eq_iff_iff]
  simp only [Contest.ready, Call.tally, hrem, beq_iff_eq, decide_eq_true_eq]
  omega

def turnOf (h : Handle) : TaskLoopOp := .run h (.ok 0) 0 []

def StaysResolved (r : Recorded) (i : ℕ) : Prop :=
  (r.loop.shared i).resolved = true → ∀ ops r', Transition.run Recorded.step r ops = some r' →
    (r'.loop.shared i).resolved = true ∧ (r'.loop.shared i).result = (r.loop.shared i).result ∧
    (r'.ledger.calls i).notified = (r.ledger.calls i).notified

section Races
variable {decides : List (ℕ × Result ℕ) → Option (ℕ × Result ℕ)}
  {stored : ℕ × Result ℕ → Result ℕ} {stops : ℕ × Result ℕ → List ℕ}

theorem Calls.decided (hc : r.Calls h i call)
    (hdec : ∀ ends waiter, Contest.Ended call.contest.size ends →
      Contest.Decided (call.tally waiter ends) (decides ends) stored stops) :
    (r.loop.shared i).resolved = (decides (r.ledger.calls i).ends).isSome ∧
    (∀ e, decides (r.ledger.calls i).ends = some e → (r.loop.shared i).result = stored e) ∧
    (r.ledger.calls i).notified = (r.loop.shared i).resolved.toNat ∧
    ∀ e, decides (r.ledger.calls i).ends = some e →
      ∀ x ∈ stops e, r.loop.world.stopped x ≠ none := by
  obtain ⟨waiter, noted, hsh, hnotified, hstops⟩ := hc.tallies
  obtain ⟨hres, hresult, hnot, hst⟩ := hdec _ waiter hc.keeps.ended
  have hres' : (r.loop.shared i).resolved = (decides (r.ledger.calls i).ends).isSome := by
    rw [hsh]
    exact hres
  refine ⟨hres', fun e he => ?_, ?_, fun e he x hx => hstops x ?_⟩
  · rw [hsh]
    exact hresult e he
  · rw [hnotified, hnot, hres']
  · rw [hst, he]
    exact hx

theorem Calls.staysResolved (hc : r.Calls h i call)
    (hdec : ∀ ends waiter, Contest.Ended call.contest.size ends →
      Contest.Decided (call.tally waiter ends) (decides ends) stored stops)
    (hkeep : ∀ ends rest e, Contest.Ended call.contest.size (ends ++ rest) →
      decides ends = some e → decides (ends ++ rest) = some e) : r.StaysResolved i := by
  intro hresolved ops r' hrun
  have hc' := hc.run hrun
  obtain ⟨hres, hresult, hnot, -⟩ := hc.decided hdec
  obtain ⟨hres', hresult', hnot', -⟩ := hc'.decided hdec
  obtain ⟨rest, hrest⟩ := hc.ends_run hrun
  obtain ⟨e, he⟩ := Option.isSome_iff_exists.mp (hres.symm.trans hresolved)
  have he' : decides (r'.ledger.calls i).ends = some e := by
    rw [← hrest]
    exact hkeep _ rest e (hrest ▸ hc'.keeps.ended) he
  have hresolved' : (r'.loop.shared i).resolved = true := by
    rw [hres', he']
    rfl
  refine ⟨hresolved', ?_, ?_⟩
  · rw [hresult e he, hresult' e he']
  · rw [hnot, hnot', hresolved, hresolved']

end Races

/-! ## `when_any` -/

/-- `when_any` takes the first task that succeeds, or the last one if all fail. It resolves once,
and then every task has been asked to stop. -/
theorem when_any_resolves_once (hm : ∀ h, m.done h = false)
    (hreach : Reaches outer now m k ops₀ r₀) (hne : tasks ≠ [])
    (henter : r₀.Enters h (Program.whenAny (tasks.map TaskExpr.program)))
    (hrun : Transition.run Recorded.step r₀ (.run h sys clock order :: ops) = some r) :
    let log := r.ledger.calls r₀.loop.states
    let sh := r.loop.shared r₀.loop.states
    r.Keeps h r₀.loop.states tasks.length sh.resolved ∧
    sh.resolved = (Contest.winner tasks.length log.ends).isSome ∧
    (∀ e, Contest.winner tasks.length log.ends = some e → sh.result = e.2) ∧
    log.notified = sh.resolved.toNat ∧ r.StaysResolved r₀.loop.states ∧
    (sh.resolved = true →
      ∀ idx < tasks.length, r.loop.world.stopped (r₀.loop.sources + idx) ≠ none) ∧
    ∀ k idx a, r.ledger.role k = some (r₀.loop.states, idx) → r.loop.world.phase k = .waiting a →
      a.token = some (r₀.loop.sources + idx) := by
  intro log sh
  rw [Program.whenAny_eq (by simpa using hne)] at henter
  have hc : r.Calls h r₀.loop.states
      ⟨.whenAny (tasks.map TaskExpr.program), r₀.loop.sources⟩ :=
    hreach.calls hm henter (fun _ => formed_of_mem_programs) hrun
  have hsize : (Contest.whenAny (tasks.map TaskExpr.program)).size = tasks.length :=
    List.length_map _
  have hdec : ∀ ends waiter,
      Contest.Ended (Contest.whenAny (tasks.map TaskExpr.program)).size ends →
      Contest.Decided
        ((Contest.whenAny (tasks.map TaskExpr.program)).tally r₀.loop.sources waiter ends)
        (Contest.winner tasks.length ends) Prod.snd
        fun _ => List.range' r₀.loop.sources tasks.length := by
    intro ends waiter hended
    rw [← List.length_map TaskExpr.program]
    exact Contest.whenAny_decided hended.length_le
  have hkeeps := hc.keeps
  obtain ⟨hres, hresult, hnot, hstops⟩ := hc.decided hdec
  refine ⟨?_, hres, hresult, hnot, ?_, ?_, ?_⟩
  · rw [hsize] at hkeeps
    exact hkeeps
  · refine hc.staysResolved hdec fun ends rest e hended he => ?_
    exact Contest.winner_append (hsize ▸ hended.length_le) he
  · intro hresolved idx hidx
    obtain ⟨e, he⟩ := Option.isSome_iff_exists.mp (hres.symm.trans hresolved)
    exact hstops e he _ (List.mem_range'_1.mpr ⟨Nat.le_add_right _ _, Nat.add_lt_add_left hidx _⟩)
  · exact fun k idx a hrole hwait => hc.waits hrole hwait

def racedTasks : List (TaskExpr .result) := [.ret (.error makeCancelledError), .ret (.ok 8)]

def awaitRace : Root := ⟨.result, .whenAny fun i : Fin 2 => racedTasks.get i, none⟩

def raceEnds : List TaskLoopOp :=
  [turnOf 0, turnOf 0, turnOf 0, turnOf 0, turnOf 0, turnOf 0, turnOf 0, .resume (.ok 0), turnOf 1,
    turnOf 1, turnOf 1, turnOf 1, .resume (.ok 0), turnOf 2, turnOf 2, turnOf 2]

theorem when_any_resolves_once_for_second : ∃ r₀ r,
    Reaches 0 0 World.blankHeap World.blankKernel [.spawn awaitRace, .resume (.ok 0)] r₀ ∧
    racedTasks ≠ [] ∧ r₀.Enters 0 (Program.whenAny (racedTasks.map TaskExpr.program)) ∧
    Transition.run Recorded.step r₀ (turnOf 0 :: raceEnds) = some r ∧
    (r.loop.shared 0).result = .ok 8 ∧ r.Keeps 0 0 2 true ∧ (r.ledger.calls 0).notified = 1 ∧
    r.loop.world.stopped 0 ≠ none := by
  obtain ⟨r₀, r, hreach, henter, hrun, hstate, hsources, hwin⟩ : ∃ r₀ r,
      Reaches 0 0 World.blankHeap World.blankKernel [.spawn awaitRace, .resume (.ok 0)] r₀ ∧
      r₀.Enters 0 (Program.whenAny (racedTasks.map TaskExpr.program)) ∧
      Transition.run Recorded.step r₀ (turnOf 0 :: raceEnds) = some r ∧ r₀.loop.states = 0 ∧
      r₀.loop.sources = 0 ∧ Contest.winner 2 (r.ledger.calls 0).ends = some (1, .ok 8) :=
    ⟨_, _, rfl, ⟨rfl, _, _, _, rfl⟩, rfl, rfl, rfl, rfl⟩
  have hne : racedTasks ≠ [] := by simp [racedTasks]
  obtain ⟨hkeeps, hres, hresult, hnot, -, hstops, -⟩ :=
    when_any_resolves_once (fun _ => rfl) hreach hne henter hrun
  rw [hstate] at hkeeps hres hresult hnot hstops
  rw [hsources] at hstops
  have hresolved : (r.loop.shared 0).resolved = true := by
    rw [hres]
    exact congrArg Option.isSome hwin
  rw [hresolved] at hkeeps hnot
  exact ⟨r₀, r, hreach, hne, henter, hrun, hresult _ hwin, hkeeps, hnot,
    hstops hresolved 0 (by decide)⟩

/-! ## `timeout` -/

end Runs
end Recorded
end RainRuntime
