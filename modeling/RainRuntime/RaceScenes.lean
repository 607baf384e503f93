import RainRuntime.RaceLedger

/-!
# Where the strands of a run stand

Every strand of a run is at a known place: in a program of tasks, in the set-up of a call or
suspended at its state, or on its way as a racer (`Plays`). With that the record of a call
determines its shared state (`Account`), and a caller that is suspended at its state is in the
ready queue if and only if the state is ready.
-/

namespace RainRuntime

structure Call where
  contest : Contest
  base : ℕ

namespace Call

def close (c : Call) (state idx : ℕ) : Result ℕ → Program .unit := c.contest.close state c.base idx

def token (c : Call) (idx : ℕ) : Option ℕ := c.contest.token c.base idx

def tally (c : Call) (waiter : Option Handle) (ends : List (ℕ × Result ℕ)) : Tally :=
  c.contest.tally c.base waiter ends

end Call

/-- Frames that await each other and hold `token`. Below them is nobody, or the frame of the
racer that `role` names. -/
inductive Callers.Over (calls : ℕ → Call) (role : Option (ℕ × ℕ)) (token : Option ℕ) :
    {τ : TaskType} → Callers τ → Prop where
  | root {τ : TaskType} (h : role = none) : Over calls role token (.bottom : Callers τ)
  | racer {i idx : ℕ} (h : role = some (i, idx)) (ht : token = (calls i).token idx) :
      Over calls role token (.cons (σ := .result) none ((calls i).close i idx) .bottom)
  | cons {σ τ : TaskType} {next : σ.Value → Program τ} {rest : Callers τ}
      (hn : ∀ v, (next v).Formed) (hr : Over calls role token rest) :
      Over calls role token (.cons token next rest)

inductive Stage where
  | free
  /-- Sources to note and racers to spawn are left. -/
  | setUp (state : ℕ) (notes : List ℕ) (racers : List (Program .unit × Option ℕ))
  | parked (state : ℕ)
  | start
  | asleep
  | ending (r : Result ℕ)
  | done

namespace Stage

def call : Stage → Option ℕ
  | .setUp state _ _ => some state
  | .parked state => some state
  | _ => none

end Stage

/-- A strand with this role is at this stage. `sources` is the number of sources made so far. -/
inductive Plays (calls : ℕ → Call) (sources : ℕ) : Option (ℕ × ℕ) → Stage → Strand → Prop where
  | body {role : Option (ℕ × ℕ)} {τ : TaskType} {token : Option ℕ} {p : Program τ}
      {callers : Callers τ} {spawner : Option Handle} (hp : p.Formed)
      (hc : callers.Over calls role token) :
      Plays calls sources role .free ⟨τ, token, .body p, callers, spawner⟩
  | leaf {role : Option (ℕ × ℕ)} {τ : TaskType} {token : Option ℕ} {next : Result ℕ → Program τ}
      {callers : Callers τ} {spawner : Option Handle} (hn : ∀ r, (next r).Formed)
      (hc : callers.Over calls role token) :
      Plays calls sources role .free ⟨τ, token, .leaf next, callers, spawner⟩
  | setUp {role : Option (ℕ × ℕ)} {i : ℕ} {c : Contest} {notes : List ℕ}
      {racers : List (Program .unit × Option ℕ)} {token : Option ℕ} {p : Program c.type}
      {callers : Callers c.type} {spawner : Option Handle} (hcall : (calls i).contest = c)
      (hl : Program.Leads i ((calls i).base + c.sources) (.awaitState i c.ready c.next) sources
        notes racers p)
      (ht : ∀ task ∈ c.tasks, task.Formed) (hc : callers.Over calls role token) :
      Plays calls sources role (.setUp i notes racers) ⟨c.type, token, .body p, callers, spawner⟩
  | parked {role : Option (ℕ × ℕ)} {i : ℕ} {c : Contest} {token : Option ℕ}
      {callers : Callers c.type} {spawner : Option Handle} (hcall : (calls i).contest = c)
      (hc : callers.Over calls role token) :
      Plays calls sources role (.parked i) ⟨c.type, token, .parked i c.next, callers, spawner⟩
  | start {i idx : ℕ} {p : Program .unit} {own : Option ℕ} {spawner : Option Handle}
      (h : ((calls i).contest.racers i (calls i).base)[idx]? = some (p, own))
      (ht : ∀ task ∈ (calls i).contest.tasks, task.Formed) :
      Plays calls sources (some (i, idx)) .start ⟨.unit, own, .body p, .bottom, spawner⟩
  | asleep {i idx : ℕ} {spawner : Option Handle} :
      Plays calls sources (some (i, idx)) .asleep
        ⟨.unit, (calls i).token idx, .leaf ((calls i).close i idx), .bottom, spawner⟩
  | ending {i idx : ℕ} {r : Result ℕ} {token : Option ℕ} {spawner : Option Handle} :
      Plays calls sources (some (i, idx)) (.ending r)
        ⟨.unit, token, .body ((calls i).close i idx r), .bottom, spawner⟩
  | done {i idx : ℕ} {token : Option ℕ} {spawner : Option Handle} :
      Plays calls sources (some (i, idx)) .done
        ⟨.unit, token, .body (.ret ()), .bottom, spawner⟩

structure Racing (w : World) (c : Call) (log : CallLog) (sh : Shared) (waiter : Option Handle) :
    Prop where
  launched : log.launched = c.contest.size
  ended : Contest.Ended c.contest.size log.ends
  shared : sh = (c.tally waiter log.ends).state
  notified : log.notified = (c.tally waiter log.ends).notified
  stopped : ∀ x ∈ (c.tally waiter log.ends).stops, w.stopped x ≠ none

/-- What the record of the call `i` says about its shared state, by the stage of its caller. -/
inductive Account (w : World) (i : ℕ) (c : Call) (log : CallLog) (sh : Shared) : Stage → Prop where
  | opening {notes : List ℕ} {racers : List (Program .unit × Option ℕ)}
      (bound : log.launched ≤ c.contest.size)
      (left : (c.contest.racers i c.base).drop log.launched = racers)
      (noted : ∃ noted, noted ++ notes = c.contest.notes c.base ∧
        sh = { c.contest.start with stopSources := noted })
      (ends : log.ends = []) (notified : log.notified = 0) (taken : log.taken = []) :
      Account w i c log sh (.setUp i notes racers)
  | waiting (blocked : c.contest.ready (c.contest.opened c.base none) = false)
      (racing : Racing w c log sh (some log.caller)) (taken : log.taken = [])
      (phase : w.phase log.caller = if c.contest.ready sh then .queued else .idle) :
      Account w i c log sh (.parked i)
  | closed {stage : Stage} {waiter : Option Handle} {pre : List (ℕ × Result ℕ)}
      (gone : stage.call ≠ some i) (known : waiter = some log.caller ∨ c.contest.size = 0)
      (racing : Racing w c log sh waiter) (earlier : pre <+: log.ends)
      (ready : c.contest.ready (c.tally waiter pre).state = true)
      (taken : log.taken = [(c.tally waiter pre).state]) :
      Account w i c log sh stage

structure Scene where
  calls : ℕ → Call
  stage : Handle → Stage

structure Recorded.Staged (r : Recorded) (sc : Scene) : Prop where
  plays : ∀ h st, r.loop.strand h = some st →
    Plays sc.calls r.loop.sources (r.ledger.role h) (sc.stage h) st
  back : ∀ h res, sc.stage h = .ending res → r.ledger.back h = some res
  role : ∀ h i idx, r.ledger.role h = some (i, idx) → i < r.loop.states ∧ h < r.loop.strands ∧
    idx < (r.ledger.calls i).launched ∧ h ≠ (r.ledger.calls i).caller
  distinct : ∀ h k i idx, r.ledger.role h = some (i, idx) → r.ledger.role k = some (i, idx) → h = k
  ended : ∀ h i idx, r.ledger.role h = some (i, idx) →
    (sc.stage h = .done ↔ idx ∈ (r.ledger.calls i).ends.map Prod.fst)
  caller : ∀ h i, (sc.stage h).call = some i →
    i < r.loop.states ∧ (r.ledger.calls i).caller = h
  born : ∀ h i, (sc.stage h).call = some i →
    h < r.loop.strands ∧ ∃ st, r.loop.strand h = some st
  setUp : ∀ h i notes racers, sc.stage h = .setUp i notes racers →
    r.loop.world.isRunning h = true ∧ i + 1 = r.loop.states
  account : ∀ i < r.loop.states, Account r.loop.world i (sc.calls i) (r.ledger.calls i)
    (r.loop.shared i) (sc.stage (r.ledger.calls i).caller)

structure Recorded.Wf (r : Recorded) (sc : Scene) : Prop extends Recorded.Staged r sc where
  orderly : r.loop.Orderly

/-! ## What others do not change -/

section Frames
variable {w w' : World} {i : ℕ} {c : Call} {log : CallLog} {sh : Shared} {stage stage' : Stage}

def KeepsStops (w w' : World) : Prop := ∀ x, w.stopped x ≠ none → w'.stopped x ≠ none

theorem Racing.mono {waiter : Option Handle} (h : Racing w c log sh waiter)
    (hstop : KeepsStops w w') : Racing w' c log sh waiter :=
  ⟨h.launched, h.ended, h.shared, h.notified, fun x hx => hstop x (h.stopped x hx)⟩

theorem Account.mono (h : Account w i c log sh stage)
    (hstop : KeepsStops w w')
    (hphase : (∀ a, w.phase log.caller ≠ .waiting a) → stage = .parked i →
      w'.phase log.caller = w.phase log.caller) : Account w' i c log sh stage := by
  cases h with
  | opening bound left noted ends notified taken =>
    exact .opening bound left noted ends notified taken
  | waiting blocked racing taken phase =>
    refine .waiting blocked (racing.mono hstop) taken ?_
    rw [hphase ?_ rfl]
    · exact phase
    · rw [phase]
      split_ifs <;> simp
  | closed gone known racing earlier ready taken =>
    exact .closed gone known (racing.mono hstop) earlier ready taken

theorem Account.ended (h : Account w i c log sh stage) :
    Contest.Ended c.contest.size log.ends := by
  cases h with
  | opening _ _ _ ends =>
    rw [ends]
    exact Contest.Ended.nil _
  | waiting _ racing => exact racing.ended
  | closed _ _ racing => exact racing.ended

theorem Account.tallies (h : Account w i c log sh stage) : ∃ waiter noted,
    sh = { (c.tally waiter log.ends).state with stopSources := noted } ∧
    log.notified = (c.tally waiter log.ends).notified ∧
    ∀ x ∈ (c.tally waiter log.ends).stops, w.stopped x ≠ none := by
  have hracing : ∀ waiter, Racing w c log sh waiter → ∃ waiter noted,
      sh = { (c.tally waiter log.ends).state with stopSources := noted } ∧
      log.notified = (c.tally waiter log.ends).notified ∧
      ∀ x ∈ (c.tally waiter log.ends).stops, w.stopped x ≠ none :=
    fun waiter hr => ⟨waiter, _, hr.shared, hr.notified, hr.stopped⟩
  cases h with
  | opening _ _ noted ends notified =>
    obtain ⟨noted, -, hsh⟩ := noted
    refine ⟨none, noted, ?_, ?_, ?_⟩
    · rw [hsh, ends, Call.tally]
      cases c.contest <;> rfl
    · rw [notified, ends]
      rfl
    · rw [ends]
      intro x hx
      cases hx
  | waiting _ racing => exact hracing _ racing
  | closed _ _ racing => exact hracing _ racing

theorem Account.elsewhere (h : Account w i c log sh stage) (hgone : stage.call ≠ some i)
    (hgone' : stage'.call ≠ some i) : Account w i c log sh stage' := by
  cases h with
  | opening => exact absurd rfl hgone
  | waiting => exact absurd rfl hgone
  | closed _ known racing earlier ready taken =>
    exact .closed hgone' known racing earlier ready taken

/-! ## A racer ends -/

def CallLog.ended (log : CallLog) (e : ℕ × Result ℕ) (u : Update) : CallLog :=
  { log with
    ends := log.ends ++ [e]
    notified := log.notified + (u.notifies && u.state.waiter.isSome).toNat }

variable {e : ℕ × Result ℕ} {u : Update}

theorem Racing.missing {waiter : Option Handle} (hr : Racing w c log sh waiter)
    (hidx : e.1 < log.launched) (hmissing : e.1 ∉ log.ends.map Prod.fst) :
    Contest.Ended c.contest.size (log.ends ++ [e]) :=
  hr.ended.concat (hr.launched ▸ hidx) hmissing

theorem Racing.notifies {waiter : Option Handle} (hr : Racing w c log sh waiter)
    (hended : Contest.Ended c.contest.size (log.ends ++ [e]))
    (hu : u = c.contest.ending c.base e.1 e.2 sh) :
    u.notifies = (!c.contest.ready sh && c.contest.ready u.state) := by
  rw [hu]
  refine Contest.ending_notifies e.1 e.2 fun hc => ?_
  rw [hr.shared]
  exact Contest.ready_of_missing hc hended

theorem Racing.waiter {waiter : Option Handle} (hr : Racing w c log sh waiter)
    (hu : u = c.contest.ending c.base e.1 e.2 sh) : u.state.waiter = waiter := by
  rw [hu, Contest.ending_waiter, hr.shared]
  exact Contest.tally_waiter

theorem Racing.ends {k : Handle} (hr : Racing w c log sh (some k))
    (hended : Contest.Ended c.contest.size (log.ends ++ [e]))
    (hu : u = c.contest.ending c.base e.1 e.2 sh) (hstops : ∀ x ∈ u.stops, w'.stopped x ≠ none)
    (hkept : KeepsStops w w') : Racing w' c (log.ended e u) u.state (some k) := by
  have htally : c.tally (some k) (log.ends ++ [e]) = (c.tally (some k) log.ends).add u := by
    rw [hu, hr.shared]
    exact Contest.tally_concat
  constructor
  case launched => exact hr.launched
  case ended => exact hended
  case shared =>
    rw [CallLog.ended, htally]
    rfl
  case notified =>
    rw [CallLog.ended, htally, hr.waiter hu, hr.notified]
    simp [Tally.add]
  case stopped =>
    rw [CallLog.ended, htally]
    intro x hx
    rcases List.mem_append.mp hx with hx | hx
    · exact hkept x (hr.stopped x hx)
    · exact hstops x hx

/-- A racer that ends finds its caller suspended at a state that is not ready, or it notifies
nobody. -/
theorem Account.finds (h : Account w i c log sh stage)
    (hopen : ∀ notes racers, stage ≠ .setUp i notes racers) (hidx : e.1 < log.launched)
    (hmissing : e.1 ∉ log.ends.map Prod.fst) (hu : u = c.contest.ending c.base e.1 e.2 sh) :
    (u.notifies = true → stage = .parked i ∧ w.phase log.caller = .idle) ∧
      u.state.waiter = some log.caller := by
  cases h with
  | opening => exact absurd rfl (hopen _ _)
  | waiting blocked racing taken phase =>
    refine ⟨fun hyes => ⟨rfl, ?_⟩, racing.waiter hu⟩
    rw [racing.notifies (racing.missing hidx hmissing) hu, Bool.and_eq_true,
      Bool.not_eq_true'] at hyes
    rw [phase, hyes.1]
    rfl
  | @closed _ waiter pre gone known racing earlier ready taken =>
    have hsome : waiter = some log.caller := by
      refine known.resolve_right fun hz => ?_
      rw [racing.launched, hz] at hidx
      exact absurd hidx (Nat.not_lt_zero _)
    refine ⟨fun hyes => ?_, hsome ▸ racing.waiter hu⟩
    obtain ⟨rest, hrest⟩ := earlier
    have hsh : c.contest.ready sh = true := by
      rw [racing.shared, ← hrest]
      exact Contest.ready_tally_append rest ready
    rw [racing.notifies (racing.missing hidx hmissing) hu, hsh] at hyes
    cases hyes

/-- The caller is woken if it is suspended and the state has become ready. -/
theorem Account.ends {v : World} (h : Account w i c log sh stage)
    (hopen : ∀ notes racers, stage ≠ .setUp i notes racers) (hidx : e.1 < log.launched)
    (hmissing : e.1 ∉ log.ends.map Prod.fst) (hu : u = c.contest.ending c.base e.1 e.2 sh)
    (hcalm : World.Calm w v none)
    (hcalm' : ∀ k, v.step (.wake k) = some w' → World.Calm w w' (some k))
    (hstops : ∀ x ∈ u.stops, w'.stopped x ≠ none) (hkept : KeepsStops w w')
    (hwake : (∃ k, u.notifies = true ∧ u.state.waiter = some k ∧ v.step (.wake k) = some w') ∨
      ((u.notifies = false ∨ u.state.waiter = none) ∧ w' = v)) :
    ∃ actor, World.Calm w w' actor ∧
      (∀ k, actor = some k → k = log.caller ∧ stage = .parked i) ∧
      Account w' i c (log.ended e u) u.state stage := by
  obtain ⟨hfound, hwaiter⟩ := h.finds hopen hidx hmissing hu
  rw [hwaiter] at hwake
  cases h with
  | opening => exact absurd rfl (hopen _ _)
  | waiting blocked racing taken phase =>
    have hended := racing.missing hidx hmissing
    have hracing := racing.ends hended hu hstops hkept
    have hn := racing.notifies hended hu
    rcases hwake with ⟨k, hyes, hk, hstep⟩ | ⟨hno, rfl⟩
    · obtain rfl := Option.some.inj hk
      refine ⟨_, hcalm' _ hstep, fun k hk => ⟨(Option.some.inj hk).symm, rfl⟩,
        .waiting blocked hracing taken ?_⟩
      rw [hyes, eq_comm, Bool.and_eq_true] at hn
      rw [if_pos hn.2]
      exact (TaskLoop.step_wake_spec hstep).2.1
    · have hsame : c.contest.ready u.state = c.contest.ready sh := by
        rw [hno.resolve_right (by simp)] at hn
        cases hsh : c.contest.ready sh with
        | true =>
          rw [hu]
          exact Contest.ready_ending e.1 e.2 hsh
        | false => simpa [hsh] using hn.symm
      refine ⟨none, hcalm, by simp, .waiting blocked hracing taken ?_⟩
      rw [hsame, ← phase]
      refine hcalm.phase_eq (by simp) fun a => ?_
      change w.phase log.caller ≠ .waiting a
      rw [phase]
      split_ifs <;> simp
  | @closed _ waiter pre gone known racing earlier ready taken =>
    obtain rfl : waiter = some log.caller := (racing.waiter hu).symm.trans hwaiter
    rcases hwake with ⟨k, hyes, -⟩ | ⟨-, rfl⟩
    · rw [(hfound hyes).1] at gone
      exact absurd rfl gone
    · refine ⟨none, hcalm, by simp, ?_⟩
      exact .closed gone (Or.inl rfl) (racing.ends (racing.missing hidx hmissing) hu hstops hkept)
        (earlier.trans (List.prefix_append log.ends [e])) ready taken

variable {calls calls' : ℕ → Call} {role : Option (ℕ × ℕ)} {sources sources' : ℕ}

theorem Callers.Over.congr {token : Option ℕ} {τ : TaskType} {callers : Callers τ}
    (h : callers.Over calls role token)
    (hrole : ∀ i idx, role = some (i, idx) → calls' i = calls i) :
    callers.Over calls' role token := by
  induction h with
  | root h => exact .root h
  | @racer i idx h ht =>
    rw [← hrole i idx h] at ht ⊢
    exact .racer h ht
  | cons hn _ ih => exact .cons hn ih

theorem Plays.congr {st : Strand} (h : Plays calls sources role stage st)
    (hrole : ∀ i idx, role = some (i, idx) → calls' i = calls i)
    (hcall : ∀ i, stage.call = some i → calls' i = calls i)
    (hsources : ∀ i notes racers, stage = .setUp i notes racers → sources' = sources) :
    Plays calls' sources' role stage st := by
  cases h with
  | body hp hc => exact .body hp (hc.congr hrole)
  | leaf hn hc => exact .leaf hn (hc.congr hrole)
  | @setUp _ i _ _ _ _ _ _ _ hcontest hl ht hc =>
    have hc' := hcall i rfl
    rw [hsources _ _ _ rfl]
    exact .setUp (hc' ▸ hcontest) (hc' ▸ hl) ht (hc.congr hrole)
  | @parked _ i _ _ _ _ hcontest hc =>
    exact .parked (hcall i rfl ▸ hcontest) (hc.congr hrole)
  | @start i idx _ _ _ h ht =>
    rw [← hrole i idx rfl] at h ht
    exact .start h ht
  | @asleep i idx =>
    rw [← hrole i idx rfl]
    exact .asleep
  | @ending i idx =>
    rw [← hrole i idx rfl]
    exact .ending
  | done => exact .done

end Frames

def Strand.update? : Strand → Option (ℕ × (Shared → Update))
  | ⟨_, _, .body (.update state f _), _, _⟩ => some (state, f)
  | _ => none

/-- Who makes an update notes a source, or it is a racer at its end. -/
theorem Plays.updates {calls : ℕ → Call} {sources : ℕ} {role : Option (ℕ × ℕ)} {stage : Stage}
    {st : Strand} (hp : Plays calls sources role stage st) {state : ℕ} {f : Shared → Update}
    (hu : st.update? = some (state, f)) : (∃ x, f = Shared.addSource x) ∨ ∃ idx res,
      role = some (state, idx) ∧ stage = .ending res ∧
      f = (calls state).contest.ending (calls state).base idx res := by
  cases hp with
  | body hp => cases hp <;> cases hu
  | leaf => cases hu
  | setUp _ hl =>
    cases hl with
    | note =>
      cases hu
      exact Or.inl ⟨_, rfl⟩
    | _ => cases hu
  | parked => cases hu
  | start hr =>
    rcases Contest.racer_cases hr with ⟨task, -, rfl, -⟩ | ⟨dur, rfl, -⟩ <;> cases hu
  | asleep => cases hu
  | ending =>
    cases hu
    exact Or.inr ⟨_, _, rfl, rfl, rfl⟩
  | done => cases hu

def Strand.awaitsState : Strand → Bool
  | ⟨_, _, .body (.awaitState _ _ _), _, _⟩ => true
  | _ => false

theorem Plays.setUp_of_awaitsState {calls : ℕ → Call} {sources : ℕ} {role : Option (ℕ × ℕ)}
    {stage : Stage} {st : Strand} (hp : Plays calls sources role stage st)
    (ha : st.awaitsState = true) : ∃ i, stage = .setUp i [] [] := by
  cases hp with
  | body hp => cases hp <;> cases ha
  | leaf => cases ha
  | setUp _ hl =>
    cases hl with
    | done => exact ⟨_, rfl⟩
    | _ => cases ha
  | parked => cases ha
  | start hr =>
    rcases Contest.racer_cases hr with ⟨task, -, rfl, -⟩ | ⟨dur, rfl, -⟩ <;> cases ha
  | asleep => cases ha
  | ending => cases ha
  | done => cases ha

def Strand.makesState : Strand → Bool
  | ⟨_, _, .body (.makeState _ _), _, _⟩ => true
  | _ => false

theorem Plays.free_of_makesState {calls : ℕ → Call} {sources : ℕ}
    {role : Option (ℕ × ℕ)} {stage : Stage} {st : Strand} (hp : Plays calls sources role stage st)
    (hm : st.makesState = true) : stage = .free ∧ st.callers.Over calls role st.token := by
  cases hp with
  | body _ hc => exact ⟨rfl, hc⟩
  | leaf => cases hm
  | setUp _ hl => cases hl <;> cases hm
  | parked => cases hm
  | start hr =>
    rcases Contest.racer_cases hr with ⟨task, -, rfl, -⟩ | ⟨dur, rfl, -⟩ <;> cases hm
  | asleep => cases hm
  | ending => cases hm
  | done => cases hm

end RainRuntime
