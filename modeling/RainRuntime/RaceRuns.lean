import RainRuntime.RaceSteps

/-!
# Whole runs with their record

Every step of the loop's thread keeps the stages and the accounts, whatever the strands do
(`Wf.step`), and a call stays what it was when it was opened. So what an account says holds in
every state of every run.
-/

namespace RainRuntime

theorem awaitTransform_none (token : Option ℕ) : awaitTransform token none = token := by
  cases token <;> rfl

theorem TaskLoop.setStrand_self {s : TaskLoop} {h : Handle} {st : Strand}
    (hst : s.strand h = some st) : s.setStrand h st = s := by
  rw [TaskLoop.setStrand, ← hst, Function.update_eq_self]

namespace Recorded
variable {r r' : Recorded} {sc : Scene} {h : Handle} {t : TaskLoop} {τ : TaskType}
  {token : Option ℕ} {callers : Callers τ} {spawner : Option Handle} {p : Program τ}
  {sys : Except Errno ℕ} {clock : ℤ} {order : List Handle}

def Goes (r : Recorded) (sc : Scene) (r' : Recorded) : Prop :=
  ∃ sc', r'.Wf sc' ∧ ∀ i < r.loop.states, sc'.calls i = sc.calls i

theorem Goes.of_stage {stage : Handle → Stage} (hw : r'.Wf ⟨sc.calls, stage⟩) : r.Goes sc r' :=
  ⟨_, hw, fun _ _ => rfl⟩

/-! ## The strand that runs -/

theorem Wf.runFree (hw : r.Wf sc) (hrun : r.loop.world.isRunning h = true)
    (hst : r.loop.strand h = some ⟨τ, token, .body p, callers, spawner⟩)
    (hstage : sc.stage h = .free) (hp : p.Formed)
    (hc : callers.Over sc.calls (r.ledger.role h) token) (ho : t.Orderly)
    (hstep : r.loop.runBody h sys clock order token callers spawner p = some t) :
    r.Goes sc ⟨t, r.ledger.seesRun r.loop t h callers p⟩ := by
  have hsolo := hw.solo hrun
  have hold : (sc.stage h).call = none := by
    rw [hstage]
    rfl
  have hdone : Stage.free = .done ↔ sc.stage h = .done := by
    rw [hstage]
  have hsame : World.Calm r.loop.world r.loop.world (some h) := World.Calm.refl _ _
  have hstops : KeepsStops r.loop.world r.loop.world := fun _ hx => hx
  cases hp with
  | ret v =>
    cases hc with
    | root hrole =>
      rw [TaskLoop.runBody, Option.map_eq_some_iff] at hstep
      obtain ⟨w, hfin, rfl⟩ := hstep
      have hself := TaskLoop.setStrand_self (s := { r.loop with world := w }) hst
      rw [← hself] at ho ⊢
      refine Goes.of_stage (hw.move .free hsolo ho (Hears.refl _ _)
        (World.step_calm hw.orderly.inv.settled.inv hfin) ?_
        (.body (.ret v) (.root hrole)) (by simp) hold rfl hdone)
      intro x hx
      have hplain : World.Plain (.finish h) := trivial
      rw [hplain.stopped_eq hw.orderly.inv.settled hfin]
      exact hx
    | @racer i idx hrole ht =>
      simp only [TaskLoop.runBody, Option.some.injEq] at hstep
      subst hstep
      refine Goes.of_stage (hw.move (.ending v) hsolo ho (Hears.comesBack _ _ _) hsame hstops
        (hrole ▸ .ending) ?_ hold rfl (by simp [hstage]))
      intro res hres
      cases hres
      exact Function.update_self ..
    | cons hn hr =>
      rw [TaskLoop.runBody, Option.some.injEq] at hstep
      subst hstep
      exact Goes.of_stage (hw.move .free hsolo ho (Hears.ite _ _ _ _) hsame hstops
        (.body (hn v) hr) (by simp) hold rfl hdone)
  | now hn =>
    rw [TaskLoop.runBody, Option.some.injEq] at hstep
    subst hstep
    exact Goes.of_stage (hw.move .free hsolo ho (Hears.refl _ _) hsame hstops
      (.body (hn clock) hc) (by simp) hold rfl hdone)
  | wait hn =>
    obtain ⟨w, place, hwait, rfl, hplace⟩ := TaskLoop.runBody_wait_eq hstep
    refine Goes.of_stage (hw.move .free hsolo ho (Hears.ite _ _ _ _)
      (World.step_calm hw.orderly.inv.settled.inv hwait) ?_ ?_ (by simp) hold rfl hdone)
    · intro x hx
      rw [hw.orderly.inv.settled.await_stopped hwait]
      exact hx
    · rcases hplace with ⟨-, rfl⟩ | ⟨res, -, -, rfl⟩
      · exact .leaf hn hc
      · exact .body (hn res) hc
  | await ht hn =>
    rw [TaskLoop.runBody, Option.some.injEq] at hstep
    subst hstep
    rw [awaitTransform_none] at ho ⊢
    exact Goes.of_stage (hw.move .free hsolo ho (Hears.refl _ _) hsame hstops
      (.body ht (.cons hn hc)) (by simp) hold rfl hdone)
  | call c htasks =>
    exact ⟨_, hw.opens hrun hst hstage htasks hc ho hstep,
      fun i hi => Function.update_of_ne (Nat.ne_of_lt hi) _ _⟩

theorem Wf.runStart (hw : r.Wf sc) (hrun : r.loop.world.isRunning h = true) {i idx : ℕ}
    {p : Program .unit} (hrole : r.ledger.role h = some (i, idx)) (hstage : sc.stage h = .start)
    (hr : ((sc.calls i).contest.racers i (sc.calls i).base)[idx]? = some (p, token))
    (ht : ∀ task ∈ (sc.calls i).contest.tasks, task.Formed) (ho : t.Orderly)
    (hstep : r.loop.runBody h sys clock order token .bottom spawner p = some t) :
    r.Goes sc ⟨t, r.ledger.seesRun r.loop t h (.bottom : Callers .unit) p⟩ := by
  have hsolo := hw.solo hrun
  have hold : (sc.stage h).call = none := by
    rw [hstage]
    rfl
  have hdone : sc.stage h ≠ .done := by
    rw [hstage]
    simp
  rcases Contest.racer_cases hr with ⟨task, hmem, rfl, rfl⟩ | ⟨dur, rfl, rfl⟩
  · simp only [TaskLoop.runBody, Option.some.injEq] at hstep
    subst hstep
    exact Goes.of_stage (hw.move .free hsolo ho (Hears.refl _ _) (World.Calm.refl _ _)
      (fun _ hx => hx) (.body (ht task hmem) (.racer hrole rfl)) (by simp) hold rfl
      (iff_of_false (by simp) hdone))
  · obtain ⟨w, place, hwait, rfl, hplace⟩ := TaskLoop.runBody_wait_eq hstep
    have hcalm : World.Calm r.loop.world w (some h) :=
      World.step_calm hw.orderly.inv.settled.inv hwait
    have hstops : KeepsStops r.loop.world w := by
      intro x hx
      rw [hw.orderly.inv.settled.await_stopped hwait]
      exact hx
    rcases hplace with ⟨-, rfl⟩ | ⟨res, hawake, hres, rfl⟩
    · exact Goes.of_stage (hw.move .asleep hsolo ho (Hears.ite _ _ _ _) hcalm hstops
        (hrole ▸ .asleep) (by simp) hold rfl (iff_of_false (by simp) hdone))
    · refine Goes.of_stage (hw.move (.ending res) hsolo ho (Hears.ite _ _ _ _) hcalm hstops
        (hrole ▸ .ending) ?_ hold rfl (iff_of_false (by simp) hdone))
      intro res' hres'
      cases hres'
      simp [Ledger.seesRun, Callers.isBottom, TaskLoop.setStrand, hawake, Ledger.comesBack, hres]

theorem Wf.run (hw : r.Wf sc) (hrun : r.loop.world.isRunning h = true)
    (hst : r.loop.strand h = some ⟨τ, token, .body p, callers, spawner⟩) (ho : t.Orderly)
    (hstep : r.loop.runBody h sys clock order token callers spawner p = some t) :
    r.Goes sc ⟨t, r.ledger.seesRun r.loop t h callers p⟩ := by
  have hplays := hw.plays h _ hst
  generalize hstage : sc.stage h = stage at hplays
  generalize hrole : r.ledger.role h = role at hplays
  generalize hsrc : r.loop.sources = src at hplays
  cases hplays with
  | body hp hc => exact hw.runFree hrun hst hstage hp (hrole ▸ hc) ho hstep
  | @setUp _ i c _ _ _ _ _ _ hcall hl ht hc =>
    have hs : SetsUp r sc h i c _ _ token _ := ⟨hw, hrun, hstage, hcall, ht, hrole ▸ hc⟩
    cases hl with
    | done =>
      obtain ⟨stage, hgo⟩ := hs.await ho hstep
      exact Goes.of_stage hgo
    | source hl => exact Goes.of_stage (hs.source (hsrc ▸ hl) ho hstep)
    | note hl => exact Goes.of_stage (hs.note (hsrc ▸ hl) ho hstep)
    | spawn hl =>
      obtain ⟨stage, hgo⟩ := hs.spawn (hsrc ▸ hl) ho hstep
      exact Goes.of_stage hgo
  | start hr ht => exact hw.runStart hrun hrole hstage hr ht ho hstep
  | ending => exact Goes.of_stage (hw.racerEnds hrole hstage hrun ho hstep)
  | done =>
    simp only [TaskLoop.runBody, Option.map_eq_some_iff] at hstep
    obtain ⟨w, hfin, rfl⟩ := hstep
    have hself := TaskLoop.setStrand_self (s := { r.loop with world := w }) hst
    rw [← hself] at ho ⊢
    refine Goes.of_stage (hw.move .done (hw.solo hrun) ho (Hears.refl _ _)
      (World.step_calm hw.orderly.inv.settled.inv hfin) ?_ (hrole ▸ .done) (by simp)
      (by rw [hstage]; rfl) rfl (by rw [hstage]))
    intro x hx
    have hplain : World.Plain (.finish h) := trivial
    rw [hplain.stopped_eq hw.orderly.inv.settled hfin]
    exact hx

/-! ## The others -/

theorem Wf.resume (hw : r.Wf sc) {st : Strand} {w : World} {rest : List Handle}
    (hidle : r.loop.busy = false) (hready : r.loop.world.ready = h :: rest)
    (hst : r.loop.strand h = some st) (hresume : r.loop.world.step (.resume sys) = some w)
    (hstep : ({ r.loop with world := w } : TaskLoop).resumed h st = some t) (ho : t.Orderly) :
    r.Goes sc ⟨t, r.ledger.seesResume r.loop t h st⟩ := by
  have hnone := hw.no_setUp hidle
  have hsolo : ∀ k i notes racers, sc.stage k = .setUp i notes racers → k = h :=
    fun k i notes racers hk => absurd hk (hnone k i notes racers)
  have hcalm := World.step_calm hw.orderly.inv.settled.inv hresume
  rw [World.actor, hready] at hcalm
  have hstops : KeepsStops r.loop.world w := by
    intro x hx
    have hplain : World.Plain (.resume sys) := trivial
    rw [hplain.stopped_eq hw.orderly.inv.settled hresume]
    exact hx
  have hplays := hw.plays h st hst
  obtain ⟨τ, token, place, callers, spawner⟩ := st
  cases place with
  | body p =>
    rw [TaskLoop.resumed, Option.some.injEq] at hstep
    subst hstep
    have hself := TaskLoop.setStrand_self (s := { r.loop with world := w }) hst
    have hcall : (sc.stage h).call = none := by
      generalize hstage : sc.stage h = stage at hplays
      generalize r.ledger.role h = role at hplays
      cases hplays with
      | setUp => exact absurd hstage (hnone _ _ _ _)
      | _ => rfl
    rw [← hself] at ho ⊢
    exact Goes.of_stage (hw.move _ hsolo ho (Hears.refl _ _) hcalm hstops hplays
      (fun res hres => hw.back h res hres) hcall hcall Iff.rfl)
  | leaf next =>
    obtain ⟨res, hres, rfl⟩ := Option.map_eq_some_iff.mp hstep
    generalize hstage : sc.stage h = stage at hplays
    generalize hrole : r.ledger.role h = role at hplays
    cases hplays with
    | leaf hn hc =>
      exact Goes.of_stage (hw.move .free hsolo ho (Hears.ite _ _ _ _) hcalm hstops
        (.body (hn res) (hrole ▸ hc)) (by simp) (by rw [hstage]; rfl) rfl (by rw [hstage]))
    | asleep =>
      refine Goes.of_stage (hw.move (.ending res) hsolo ho (Hears.comesBack _ _ _) hcalm hstops
        (hrole ▸ .ending) ?_ (by rw [hstage]; rfl) rfl (by rw [hstage]; simp))
      intro res' hres'
      cases hres'
      refine (Function.update_self ..).trans ?_
      exact hres
  | parked i next =>
    rw [TaskLoop.resumed, Option.some.injEq] at hstep
    subst hstep
    generalize hstage : sc.stage h = stage at hplays
    generalize hrole : r.ledger.role h = role at hplays
    cases hplays with
    | parked hcontest hc =>
      exact Goes.of_stage (hw.resumesCaller hidle hready hstage (hrole ▸ hc) hresume ho)

theorem Wf.spawnsRoot (hw : r.Wf sc) {root : Root} (ho : t.Orderly)
    (hstep : r.loop.step (.spawn root) = some t) : r.Goes sc ⟨t, r.ledger⟩ := by
  rw [TaskLoop.step] at hstep
  split_ifs at hstep
  obtain ⟨u, hu, ht⟩ := Option.map_eq_some_iff.mp hstep
  obtain ⟨w, hwake, rfl⟩ := TaskLoop.launch_eq hu
  have hrole : r.ledger.role r.loop.strands = none := by
    cases hr : r.ledger.role r.loop.strands with
    | none => rfl
    | some p => exact absurd (hw.role _ _ _ hr).2.1 (Nat.lt_irrefl _)
  have hlaunch : Launches r ⟨t, r.ledger⟩
      ⟨root.type, root.token, .body root.expr.program, .bottom, none⟩ none := by
    subst ht
    exact ⟨rfl, rfl, rfl, rfl, rfl, rfl, by rw [← hrole, Function.update_eq_self], rfl, hwake⟩
  exact Goes.of_stage ⟨hw.launch hw.orderly.inv.settled.inv hlaunch
    (.body root.expr.program_formed (.root rfl)) (Or.inl rfl) (by simp), ho⟩

theorem Wf.step (hw : r.Wf sc) {op : TaskLoopOp} (hstep : r.step op = some r') : r.Goes sc r' := by
  rw [Recorded.step, Option.map_eq_some_iff] at hstep
  obtain ⟨t, hturn, rfl⟩ := hstep
  have ho := TaskLoop.turn_orderly hw.orderly hturn
  have htaken := TaskLoop.step_of_turn hturn
  cases op with
  | spawn root => exact hw.spawnsRoot ho htaken
  | resume sys =>
    rw [TaskLoop.turn] at hturn
    split_ifs at hturn with hbusy
    obtain ⟨h, rest, w, st, hready, hresume, hst, hres⟩ := TaskLoop.step_resume_eq htaken
    have hsees : r.ledger.sees r.loop t (.resume sys) = r.ledger.seesResume r.loop t h st := by
      simp only [Ledger.sees, hready, hst]
    rw [hsees]
    exact hw.resume (by simpa using hbusy) hready hst hresume hres ho
  | run h sys clock order =>
    obtain ⟨on, τ, token, callers, spawner, p, hphase, hst, hrun⟩ := TaskLoop.step_run_eq htaken
    have hsees : r.ledger.sees r.loop t (.run h sys clock order) =
        r.ledger.seesRun r.loop t h callers p := by
      simp only [Ledger.sees, hst]
    rw [hsees]
    exact hw.run (TaskLoop.isRunning_iff.mpr ⟨on, hphase⟩) hst ho hrun
  | stop src order =>
    rw [TaskLoop.step] at htaken
    split_ifs at htaken
    rw [Option.some.injEq] at htaken
    subst htaken
    obtain ⟨hcalm, hmark, hother⟩ :=
      World.stopSource_spec hw.orderly.inv.settled (r.loop.everyone order) src
    refine Goes.of_stage (hw.around ho hcalm fun x hx => ?_)
    by_cases hsrc : x = src
    · rw [hsrc]
      exact hmark
    · rw [hother x hsrc]
      exact hx
  | loop op =>
    rw [TaskLoop.step] at htaken
    split_ifs at htaken with hop
    obtain ⟨w, hw', rfl⟩ := Option.map_eq_some_iff.mp htaken
    have hactor : r.loop.world.actor op = none := by
      cases op <;> first | rfl | cases hop
    have hcalm := World.step_calm hw.orderly.inv.settled.inv hw'
    rw [hactor] at hcalm
    refine Goes.of_stage (hw.around ho hcalm fun x hx => ?_)
    rw [(TaskLoop.around_plain hop).stopped_eq hw.orderly.inv.settled hw']
    exact hx

theorem create_wf (outer : ℕ) (now : ℤ) {m : Heap} (k : Kernel) (hm : ∀ h, m.done h = false) :
    (create outer now m k).Wf ⟨fun _ => ⟨.whenAll [], 0⟩, fun _ => .free⟩ := by
  refine ⟨?_, TaskLoop.create_orderly outer now k hm⟩
  constructor
  case account =>
    intro i hi
    exact absurd hi (Nat.not_lt_zero i)
  all_goals
    intros
    rename_i h
    cases h

theorem Reaches.wf {outer : ℕ} {now : ℤ} {m : Heap} {k : Kernel} {ops : List TaskLoopOp}
    (hm : ∀ h, m.done h = false) (hr : Reaches outer now m k ops r) : ∃ sc, r.Wf sc := by
  refine Transition.invariant (fun r => ∃ sc, Wf r sc) ?_ ⟨_, create_wf outer now k hm⟩ hr
  rintro r op r' hstep ⟨sc, hw⟩
  obtain ⟨sc', hw', -⟩ := hw.step hstep
  exact ⟨sc', hw'⟩

/-! ## Roles -/

/-- A waiter that is notified is suspended, so the notification is not refused. -/
theorem Wf.accepts (hw : r.Wf sc) (hrun : r.loop.world.isRunning h = true) {state : ℕ}
    {f : Shared → Update} {next : Program τ}
    (hst : r.loop.strand h = some ⟨τ, token, .body (.update state f next), callers, spawner⟩)
    (sys : Except Errno ℕ) (clock : ℤ) (order : List Handle) :
    ∃ r', r.step (.run h sys clock order) = some r' := by
  suffices hbody : ∃ t, r.loop.runBody h sys clock order token callers spawner
      (.update state f next) = some t by
    obtain ⟨t, ht⟩ := hbody
    refine ⟨⟨t, _⟩, Option.map_eq_some_iff.mpr ⟨t, ?_, rfl⟩⟩
    simpa only [TaskLoop.turn, TaskLoop.step, hrun, if_true, hst] using ht
  set u := f (r.loop.shared state) with hu
  set v := u.stops.foldl (World.stopSource (r.loop.everyone order)) r.loop.world with hv
  suffices hwake : ∀ k, u.notifies = true → u.state.waiter = some k → v.phase k = .idle by
    obtain ⟨t, ht⟩ := TaskLoop.applyUpdate_of_idle (s := r.loop) hwake
    exact ⟨_, congrArg (Option.map _) ht⟩
  rcases (hw.plays h _ hst).updates rfl with ⟨x, rfl⟩ | ⟨idx, res, hrole, hstage, rfl⟩
  · intro k hyes
    cases hyes
  · obtain ⟨hi, -, hidx, -⟩ := hw.role h state idx hrole
    have hmissing : idx ∉ (r.ledger.calls state).ends.map Prod.fst := by
      rw [← hw.ended h state idx hrole, hstage]
      simp
    obtain ⟨hfound, hwaiter⟩ := (hw.account state hi).finds (e := (idx, res))
      (hw.not_opening hrole hrun) hidx hmissing hu
    intro k hyes hk
    obtain rfl := Option.some.inj (hwaiter.symm.trans hk)
    obtain ⟨-, hidle⟩ := hfound hyes
    obtain ⟨hcalm, -, -⟩ := World.stops_spec u.stops hw.orderly.inv.settled
      fun k a hk => hw.orderly.inv.mem_everyone order hk
    rw [← hidle]
    exact hcalm.phase_eq (by simp) (by rw [hidle]; simp)

/-! ## One call -/

def Calls (r : Recorded) (h : Handle) (i : ℕ) (call : Call) : Prop :=
  ∃ sc, r.Wf sc ∧ i < r.loop.states ∧ sc.calls i = call ∧ (r.ledger.calls i).caller = h

theorem Enters.opens {c : Contest} (hw : r.Wf sc) (he : r.Enters h c.program)
    (htasks : ∀ task ∈ c.tasks, task.Formed)
    (hstep : r.step (.run h sys clock order) = some r') :
    r'.Calls h r.loop.states ⟨c, r.loop.sources⟩ := by
  obtain ⟨hrun, token, callers, spawner, hst⟩ := he
  rw [Recorded.step, Option.map_eq_some_iff] at hstep
  obtain ⟨t, hturn, rfl⟩ := hstep
  have ho := TaskLoop.turn_orderly hw.orderly hturn
  have hbody : r.loop.runBody h sys clock order token callers spawner c.program = some t := by
    have htaken := TaskLoop.step_of_turn hturn
    simpa only [TaskLoop.step, hrun, if_true, hst] using htaken
  have hsees : r.ledger.sees r.loop t (.run h sys clock order) =
      r.ledger.seesRun r.loop t h callers c.program := by
    simp only [Ledger.sees, hst]
  obtain ⟨hstage, hcallers⟩ := (hw.plays h _ hst).free_of_makesState rfl
  have hw' := hw.opens hrun hst hstage htasks hcallers ho hbody
  rw [hsees]
  refine ⟨_, hw', ?_, Function.update_self .., ?_⟩
  · exact (hw'.caller h r.loop.states (by simp [Stage.call])).1
  · exact (hw'.caller h r.loop.states (by simp [Stage.call])).2

theorem Calls.step {i : ℕ} {call : Call} {op : TaskLoopOp} (hc : r.Calls h i call)
    (hstep : r.step op = some r') : r'.Calls h i call := by
  obtain ⟨sc, hw, hi, hcall, hcaller⟩ := hc
  obtain ⟨sc', hw', hsame⟩ := hw.step hstep
  rw [Recorded.step, Option.map_eq_some_iff] at hstep
  obtain ⟨t, hturn, rfl⟩ := hstep
  have hle := (TaskLoop.step_counters (TaskLoop.step_of_turn hturn)).1
  exact ⟨sc', hw', Nat.lt_of_lt_of_le hi hle, (hsame i hi).trans hcall,
    (r.ledger.sees_extends r.loop t op hi).1.trans hcaller⟩

theorem Calls.run {i : ℕ} {call : Call} {ops : List TaskLoopOp} (hc : r.Calls h i call)
    (hrun : Transition.run Recorded.step r ops = some r') : r'.Calls h i call :=
  Transition.invariant (fun r => r.Calls h i call) (fun hstep hc => hc.step hstep) hc hrun

end Recorded
end RainRuntime
