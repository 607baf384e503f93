import RainRuntime.RaceScenes

/-!
# One step of a recorded run

Every step of the loop's thread keeps the strands at known places and the accounts of the
calls right. There is one lemma for each kind of event: a strand goes on by itself, a call is
opened, notes a source, spawns a racer, suspends its caller or lets it go on, a racer ends.
-/

namespace RainRuntime
namespace Recorded
variable {r r' : Recorded} {sc : Scene} {h : Handle} {st : Strand} {stage : Stage}
  {actor : Option Handle}

/-! ## What the events share -/

theorem Staged.account_frame (hw : r.Staged sc) {i : ℕ} (hi : i < r.loop.states)
    (hlog : r'.ledger.calls i = r.ledger.calls i) (hshared : r'.loop.shared i = r.loop.shared i)
    (hcalm : World.Calm r.loop.world r'.loop.world actor)
    (hactor : ∀ k, actor = some k → (sc.stage k).call ≠ some i)
    (hstop : KeepsStops r.loop.world r'.loop.world) (hold : (sc.stage h).call ≠ some i)
    (hnew : stage.call ≠ some i) :
    Account r'.loop.world i (sc.calls i) (r'.ledger.calls i) (r'.loop.shared i)
      (Function.update sc.stage h stage (r'.ledger.calls i).caller) := by
  rw [hlog, hshared]
  have hkept : Account r'.loop.world i (sc.calls i) (r.ledger.calls i) (r.loop.shared i)
      (sc.stage (r.ledger.calls i).caller) := by
    refine (hw.account i hi).mono hstop fun hn hparked => ?_
    refine hcalm.phase_eq (fun hact => ?_) hn
    exact hactor _ hact (by rw [hparked]; rfl)
  by_cases hcaller : (r.ledger.calls i).caller = h
  · rw [hcaller] at hkept ⊢
    rw [Function.update_self]
    exact hkept.elsewhere hold hnew
  · rw [Function.update_of_ne hcaller]
    exact hkept

structure Steps (r r' : Recorded) (h : Handle) (st : Strand) : Prop where
  strand : r'.loop.strand = Function.update r.loop.strand h (some st)
  states : r'.loop.states = r.loop.states
  strands : r'.loop.strands = r.loop.strands
  role : r'.ledger.role = r.ledger.role
  log : ∀ i, (r'.ledger.calls i).caller = (r.ledger.calls i).caller ∧
    (r.ledger.calls i).launched ≤ (r'.ledger.calls i).launched
  back : ∀ k, k ≠ h → r'.ledger.back k = r.ledger.back k

theorem Staged.steps (hw : r.Staged sc) (hs : Steps r r' h st)
    (hsolo : ∀ k i notes racers, sc.stage k = .setUp i notes racers → k = h)
    (hplays : Plays sc.calls r'.loop.sources (r.ledger.role h) stage st)
    (hending : ∀ res, stage = .ending res → r'.ledger.back h = some res)
    (hended : ∀ k i idx, r.ledger.role k = some (i, idx) →
      (Function.update sc.stage h stage k = .done ↔ idx ∈ (r'.ledger.calls i).ends.map Prod.fst))
    (hcall : ∀ i, stage.call = some i → (sc.stage h).call = some i)
    (hsetUp : ∀ i notes racers, stage = .setUp i notes racers →
      r'.loop.world.isRunning h = true ∧ i + 1 = r.loop.states)
    (haccount : ∀ i < r.loop.states, Account r'.loop.world i (sc.calls i) (r'.ledger.calls i)
      (r'.loop.shared i) (Function.update sc.stage h stage (r'.ledger.calls i).caller)) :
    r'.Staged ⟨sc.calls, Function.update sc.stage h stage⟩ := by
  have hother : ∀ k, k ≠ h → Function.update sc.stage h stage k = sc.stage k :=
    fun k hk => Function.update_of_ne hk _ _
  have hself : Function.update sc.stage h stage h = stage := Function.update_self ..
  constructor
  case plays =>
    intro k st' hst'
    rw [hs.strand] at hst'
    rw [hs.role]
    by_cases hk : k = h
    · subst hk
      rw [Function.update_self, Option.some.injEq] at hst'
      dsimp only
      rw [hself, ← hst']
      exact hplays
    · rw [Function.update_of_ne hk] at hst'
      dsimp only
      rw [hother k hk]
      refine (hw.plays k st' hst').congr (fun _ _ _ => rfl) (fun _ _ => rfl) ?_
      intro i notes racers hsetUp
      exact absurd (hsolo k i notes racers hsetUp) hk
  case back =>
    intro k res hres
    dsimp only at hres
    by_cases hk : k = h
    · subst hk
      rw [hself] at hres
      exact hending res hres
    · rw [hother k hk] at hres
      rw [hs.back k hk]
      exact hw.back k res hres
  case role =>
    intro k i idx hk
    rw [hs.role] at hk
    obtain ⟨hi, hlt, hidx, hne⟩ := hw.role k i idx hk
    rw [hs.states, hs.strands, (hs.log i).1]
    exact ⟨hi, hlt, Nat.lt_of_lt_of_le hidx (hs.log i).2, hne⟩
  case distinct =>
    rw [hs.role]
    exact hw.distinct
  case ended =>
    intro k i idx hk
    rw [hs.role] at hk
    exact hended k i idx hk
  case caller =>
    intro k i hk
    rw [hs.states, (hs.log i).1]
    dsimp only at hk
    by_cases hkh : k = h
    · subst hkh
      rw [hself] at hk
      exact hw.caller k i (hcall i hk)
    · rw [hother k hkh] at hk
      exact hw.caller k i hk
  case born =>
    intro k i hk
    rw [hs.strands, hs.strand]
    have hold : (sc.stage k).call = some i := by
      dsimp only at hk
      by_cases hkh : k = h
      · subst hkh
        rw [hself] at hk
        exact hcall i hk
      · rwa [hother k hkh] at hk
    obtain ⟨hlt, st', hst'⟩ := hw.born k i hold
    exact ⟨hlt, TaskLoop.kept_update k hst'⟩
  case setUp =>
    intro k i notes racers hk
    rw [hs.states]
    dsimp only at hk
    by_cases hkh : k = h
    · subst hkh
      rw [hself] at hk
      exact hsetUp i notes racers hk
    · rw [hother k hkh] at hk
      exact absurd (hsolo k i notes racers hk) hkh
  case account =>
    intro i hi
    rw [hs.states] at hi
    exact haccount i hi

/-- Only the strand that runs can be in a set-up. -/
theorem Wf.solo (hw : r.Wf sc) (hrun : r.loop.world.isRunning h = true) (k : Handle) (i : ℕ)
    (notes : List ℕ) (racers : List (Program .unit × Option ℕ))
    (hk : sc.stage k = .setUp i notes racers) : k = h :=
  hw.orderly.single k h (hw.setUp k i notes racers hk).1 hrun

/-- While nobody runs there is no set-up. -/
theorem Wf.no_setUp (hw : r.Wf sc) (hidle : r.loop.busy = false) (k : Handle) (i : ℕ)
    (notes : List ℕ) (racers : List (Program .unit × Option ℕ)) :
    sc.stage k ≠ .setUp i notes racers := by
  intro hk
  have hrun := (hw.setUp k i notes racers hk).1
  rw [hw.orderly.not_running hidle k] at hrun
  cases hrun

theorem Staged.ended_frame (hw : r.Staged sc) (hdone : stage = .done ↔ sc.stage h = .done)
    (hlog : ∀ i, (r'.ledger.calls i).ends = (r.ledger.calls i).ends) (k : Handle) (i idx : ℕ)
    (hk : r.ledger.role k = some (i, idx)) :
    Function.update sc.stage h stage k = .done ↔ idx ∈ (r'.ledger.calls i).ends.map Prod.fst := by
  rw [hlog i, ← hw.ended k i idx hk]
  by_cases hkh : k = h
  · subst hkh
    rw [Function.update_self]
    exact hdone
  · rw [Function.update_of_ne hkh]

/-! ## A strand goes on by itself -/

structure Hears (l l' : Ledger) (h : Handle) : Prop where
  calls : l'.calls = l.calls
  role : l'.role = l.role
  back : ∀ k, k ≠ h → l'.back k = l.back k

theorem Hears.refl (l : Ledger) (h : Handle) : Hears l l h := ⟨rfl, rfl, fun _ _ => rfl⟩

theorem Hears.comesBack (l : Ledger) (h : Handle) (res : Option (Result ℕ)) :
    Hears l (l.comesBack h res) h :=
  ⟨rfl, rfl, fun _ hk => Function.update_of_ne hk _ _⟩

theorem Hears.ite (l : Ledger) (h : Handle) (b : Bool) (res : Option (Result ℕ)) :
    Hears l (if b then l.comesBack h res else l) h := by
  split_ifs
  · exact Hears.comesBack l h res
  · exact Hears.refl l h

theorem Wf.move (hw : r.Wf sc) (stage : Stage) {w : World} {l : Ledger}
    (hsolo : ∀ k i notes racers, sc.stage k = .setUp i notes racers → k = h)
    (ho : (({ r.loop with world := w } : TaskLoop).setStrand h st).Orderly)
    (hl : Hears r.ledger l h) (hcalm : World.Calm r.loop.world w (some h))
    (hstop : KeepsStops r.loop.world w)
    (hplays : Plays sc.calls r.loop.sources (r.ledger.role h) stage st)
    (hending : ∀ res, stage = .ending res → l.back h = some res)
    (hold : (sc.stage h).call = none) (hnew : stage.call = none)
    (hdone : stage = .done ↔ sc.stage h = .done) :
    (⟨({ r.loop with world := w } : TaskLoop).setStrand h st, l⟩ : Recorded).Wf
      ⟨sc.calls, Function.update sc.stage h stage⟩ := by
  have hlog : ∀ i, l.calls i = r.ledger.calls i := fun i => by rw [hl.calls]
  refine ⟨hw.steps ⟨rfl, rfl, rfl, hl.role, fun i => ?_, hl.back⟩ hsolo hplays hending
    (hw.ended_frame hdone fun i => by rw [hlog i]) ?_ ?_ ?_, ho⟩
  · rw [hlog i]
    exact ⟨rfl, le_rfl⟩
  · intro i hi
    rw [hnew] at hi
    cases hi
  · intro i notes racers hi
    rw [hi] at hnew
    cases hnew
  · intro i hi
    refine hw.account_frame hi (hlog i) rfl hcalm ?_ hstop (by simp [hold]) (by simp [hnew])
    intro k hk
    rw [← Option.some.inj hk, hold]
    simp

theorem Wf.around (hw : r.Wf sc) {w : World} (ho : ({ r.loop with world := w } : TaskLoop).Orderly)
    (hcalm : World.Calm r.loop.world w none) (hstop : KeepsStops r.loop.world w) :
    (⟨{ r.loop with world := w }, r.ledger⟩ : Recorded).Wf sc := by
  refine ⟨⟨hw.plays, hw.back, hw.role, hw.distinct, hw.ended, hw.caller, hw.born, ?_, ?_⟩, ho⟩
  · intro k i notes racers hk
    obtain ⟨hrun, hlast⟩ := hw.setUp k i notes racers hk
    exact ⟨(hcalm.isRunning (by simp)).trans hrun, hlast⟩
  · intro i hi
    exact (hw.account i hi).mono hstop fun hn _ => hcalm.phase_eq (by simp) hn

/-! ## A strand acts at a call -/

theorem Staged.act (hw : r.Staged sc) (i : ℕ) (hs : Steps r r' h st)
    (hsolo : ∀ k i notes racers, sc.stage k = .setUp i notes racers → k = h)
    (hcalm : World.Calm r.loop.world r'.loop.world actor)
    (hactor : ∀ k j, actor = some k → (sc.stage k).call = some j → j = i)
    (hstop : KeepsStops r.loop.world r'.loop.world)
    (hcalls : ∀ j, j ≠ i → r'.ledger.calls j = r.ledger.calls j)
    (hshared : ∀ j, j ≠ i → r'.loop.shared j = r.loop.shared j)
    (hplays : Plays sc.calls r'.loop.sources (r.ledger.role h) stage st)
    (hending : ∀ res, stage ≠ .ending res)
    (hended : ∀ k i idx, r.ledger.role k = some (i, idx) →
      (Function.update sc.stage h stage k = .done ↔ idx ∈ (r'.ledger.calls i).ends.map Prod.fst))
    (hold : ∀ j, (sc.stage h).call = some j → j = i)
    (hcall : ∀ j, stage.call = some j → (sc.stage h).call = some j)
    (hsetUp : ∀ i notes racers, stage = .setUp i notes racers →
      r'.loop.world.isRunning h = true ∧ i + 1 = r.loop.states)
    (haccount : Account r'.loop.world i (sc.calls i) (r'.ledger.calls i)
      (r'.loop.shared i) (Function.update sc.stage h stage (r'.ledger.calls i).caller)) :
    r'.Staged ⟨sc.calls, Function.update sc.stage h stage⟩ := by
  refine hw.steps hs hsolo hplays (fun res hres => absurd hres (hending res)) hended hcall hsetUp ?_
  intro j hj
  by_cases hji : j = i
  · subst hji
    exact haccount
  · refine hw.account_frame hj (hcalls j hji) (hshared j hji) hcalm ?_ hstop ?_ ?_
    · exact fun k hk hkj => hji (hactor k j hk hkj)
    · exact fun hkj => hji (hold j hkj)
    · exact fun hkj => hji (hold j (hcall j hkj))

theorem Staged.callerActs (hw : r.Staged sc) {i : ℕ} (hs : Steps r r' h st)
    (hsolo : ∀ k i notes racers, sc.stage k = .setUp i notes racers → k = h)
    (hcaller : (sc.stage h).call = some i)
    (hcalm : World.Calm r.loop.world r'.loop.world (some h))
    (hstop : KeepsStops r.loop.world r'.loop.world)
    (hcalls : ∀ j, j ≠ i → r'.ledger.calls j = r.ledger.calls j)
    (hends : (r'.ledger.calls i).ends = (r.ledger.calls i).ends)
    (hshared : ∀ j, j ≠ i → r'.loop.shared j = r.loop.shared j)
    (hplays : Plays sc.calls r'.loop.sources (r.ledger.role h) stage st)
    (hnew : stage = .free ∨ stage = .parked i ∨ ∃ notes racers, stage = .setUp i notes racers ∧
      r'.loop.world.isRunning h = true ∧ i + 1 = r.loop.states)
    (haccount : Account r'.loop.world i (sc.calls i) (r'.ledger.calls i) (r'.loop.shared i) stage) :
    r'.Staged ⟨sc.calls, Function.update sc.stage h stage⟩ := by
  have hsame : ∀ j, (r'.ledger.calls j).ends = (r.ledger.calls j).ends := by
    intro j
    by_cases hj : j = i
    · rw [hj]
      exact hends
    · rw [hcalls j hj]
  have hold : ∀ j, (sc.stage h).call = some j → j = i := by
    intro j hj
    rw [hcaller] at hj
    exact (Option.some.inj hj).symm
  have hdone : stage = .done ↔ sc.stage h = .done := by
    refine iff_of_false ?_ ?_
    · rcases hnew with rfl | rfl | ⟨_, _, rfl, -⟩ <;> simp
    · intro hd
      rw [hd] at hcaller
      cases hcaller
  refine hw.act i hs hsolo hcalm ?_ hstop hcalls hshared hplays ?_ (hw.ended_frame hdone hsame) hold
    ?_ ?_ ?_
  · intro k j hk hj
    rw [← Option.some.inj hk] at hj
    exact hold j hj
  · rcases hnew with rfl | rfl | ⟨_, _, rfl, -⟩ <;> simp
  · intro j hj
    rw [hcaller]
    rcases hnew with rfl | rfl | ⟨_, _, rfl, -⟩
    · cases hj
    · exact hj
    · exact hj
  · intro j notes racers hj
    rcases hnew with rfl | rfl | ⟨_, _, rfl, hrun, hlast⟩
    · cases hj
    · cases hj
    · cases hj
      exact ⟨hrun, hlast⟩
  · rw [(hs.log i).1, (hw.caller h i hcaller).2, Function.update_self]
    exact haccount

/-! ## A strand is spawned -/

structure Launches (r r' : Recorded) (st : Strand) (role : Option (ℕ × ℕ)) : Prop where
  strand : r'.loop.strand = Function.update r.loop.strand r.loop.strands (some st)
  strands : r'.loop.strands = r.loop.strands + 1
  sources : r'.loop.sources = r.loop.sources
  states : r'.loop.states = r.loop.states
  shared : r'.loop.shared = r.loop.shared
  calls : r'.ledger.calls = r.ledger.calls
  role : r'.ledger.role = Function.update r.ledger.role r.loop.strands role
  back : r'.ledger.back = r.ledger.back
  wakes : r.loop.world.step (.wake r.loop.strands) = some r'.loop.world

theorem Staged.launch (hw : r.Staged sc) (hinv : r.loop.world.Inv) {role : Option (ℕ × ℕ)}
    (hl : Launches r r' st role) (hplays : Plays sc.calls r.loop.sources role stage st)
    (hstage : stage = .free ∨ stage = .start)
    (hnew : ∀ i idx, role = some (i, idx) → i < r.loop.states ∧ idx < (r.ledger.calls i).launched ∧
      r.loop.strands ≠ (r.ledger.calls i).caller ∧ idx ∉ (r.ledger.calls i).ends.map Prod.fst ∧
      ∀ k, r.ledger.role k ≠ some (i, idx)) :
    r'.Staged ⟨sc.calls, Function.update sc.stage r.loop.strands stage⟩ := by
  set n := r.loop.strands with hn
  have hother : ∀ k, k ≠ n → Function.update sc.stage n stage k = sc.stage k :=
    fun k hk => Function.update_of_ne hk _ _
  have hself : Function.update sc.stage n stage n = stage := Function.update_self ..
  have hrole : ∀ k, k ≠ n → r'.ledger.role k = r.ledger.role k := by
    intro k hk
    rw [hl.role]
    exact Function.update_of_ne hk _ _
  have hroleSelf : r'.ledger.role n = role := by
    rw [hl.role]
    exact Function.update_self ..
  have hcall : stage.call = none := by
    rcases hstage with rfl | rfl <;> rfl
  obtain ⟨hidle, hqueued, -, -, hstopped⟩ := TaskLoop.step_wake_spec hl.wakes
  have hcalm : World.Calm r.loop.world r'.loop.world (some n) := World.step_calm hinv hl.wakes
  constructor
  case plays =>
    intro k st' hst'
    rw [hl.strand] at hst'
    rw [hl.sources]
    by_cases hk : k = n
    · subst hk
      rw [Function.update_self, Option.some.injEq] at hst'
      dsimp only
      rw [hself, hroleSelf, ← hst']
      exact hplays
    · rw [Function.update_of_ne hk] at hst'
      dsimp only
      rw [hother k hk, hrole k hk]
      exact hw.plays k st' hst'
  case back =>
    intro k res hres
    dsimp only at hres
    rw [hl.back]
    by_cases hk : k = n
    · subst hk
      rw [hself] at hres
      rcases hstage with rfl | rfl <;> cases hres
    · rw [hother k hk] at hres
      exact hw.back k res hres
  case role =>
    intro k i idx hk
    rw [hl.states, hl.strands, hl.calls]
    by_cases hkn : k = n
    · subst hkn
      rw [hroleSelf] at hk
      obtain ⟨hi, hidx, hne, -⟩ := hnew i idx hk
      exact ⟨hi, Nat.lt_succ_self _, hidx, hne⟩
    · rw [hrole k hkn] at hk
      obtain ⟨hi, hlt, hidx, hne⟩ := hw.role k i idx hk
      exact ⟨hi, Nat.lt_succ_of_lt hlt, hidx, hne⟩
  case distinct =>
    intro k k' i idx hk hk'
    by_cases hkn : k = n <;> by_cases hkn' : k' = n
    · rw [hkn, hkn']
    · rw [hkn, hroleSelf] at hk
      rw [hrole k' hkn'] at hk'
      exact absurd hk' ((hnew i idx hk).2.2.2.2 k')
    · rw [hkn', hroleSelf] at hk'
      rw [hrole k hkn] at hk
      exact absurd hk ((hnew i idx hk').2.2.2.2 k)
    · rw [hrole k hkn] at hk
      rw [hrole k' hkn'] at hk'
      exact hw.distinct k k' i idx hk hk'
  case ended =>
    intro k i idx hk
    rw [hl.calls]
    dsimp only
    by_cases hkn : k = n
    · subst hkn
      rw [hroleSelf] at hk
      rw [hself]
      refine iff_of_false ?_ (hnew i idx hk).2.2.2.1
      rcases hstage with rfl | rfl <;> simp
    · rw [hrole k hkn] at hk
      rw [hother k hkn]
      exact hw.ended k i idx hk
  case caller =>
    intro k i hk
    rw [hl.states, hl.calls]
    dsimp only at hk
    by_cases hkn : k = n
    · rw [hkn, hself, hcall] at hk
      cases hk
    · rw [hother k hkn] at hk
      exact hw.caller k i hk
  case born =>
    intro k i hk
    rw [hl.strands]
    dsimp only at hk
    by_cases hkn : k = n
    · rw [hkn, hself, hcall] at hk
      cases hk
    · rw [hother k hkn] at hk
      obtain ⟨hlt, st', hst'⟩ := hw.born k i hk
      rw [hl.strand]
      exact ⟨Nat.lt_succ_of_lt hlt, TaskLoop.kept_update k hst'⟩
  case setUp =>
    intro k i notes racers hk
    rw [hl.states]
    dsimp only at hk
    by_cases hkn : k = n
    · rw [hkn, hself] at hk
      rw [hk] at hcall
      cases hcall
    · rw [hother k hkn] at hk
      rw [hcalm.isRunning (by simpa using Ne.symm hkn)]
      exact hw.setUp k i notes racers hk
  case account =>
    intro i hi
    rw [hl.states] at hi
    have hnone : (sc.stage n).call ≠ some i := fun hk => Nat.lt_irrefl _ (hw.born n i hk).1
    refine hw.account_frame hi (by rw [hl.calls]) (by rw [hl.shared]) hcalm ?_ ?_ hnone ?_
    · intro k hk
      rw [← Option.some.inj hk]
      exact hnone
    · intro x hx
      rw [hstopped]
      exact hx
    · rw [hcall]
      simp

section SetUp
variable {t : TaskLoop} {i : ℕ} {c : Contest} {notes : List ℕ}
  {racers : List (Program .unit × Option ℕ)} {token : Option ℕ} {callers : Callers c.type}
  {spawner : Option Handle} {sys : Except Errno ℕ} {clock : ℤ} {order : List Handle}

structure SetsUp (r : Recorded) (sc : Scene) (h : Handle) (i : ℕ) (c : Contest) (notes : List ℕ)
    (racers : List (Program .unit × Option ℕ)) (token : Option ℕ) (callers : Callers c.type) :
    Prop where
  wf : r.Wf sc
  running : r.loop.world.isRunning h = true
  stage : sc.stage h = .setUp i notes racers
  contest : (sc.calls i).contest = c
  tasks : ∀ task ∈ c.tasks, task.Formed
  callers : callers.Over sc.calls (r.ledger.role h) token

theorem SetsUp.call (hs : SetsUp r sc h i c notes racers token callers) :
    (sc.stage h).call = some i := by
  rw [hs.stage]
  rfl

theorem SetsUp.last (hs : SetsUp r sc h i c notes racers token callers) : i + 1 = r.loop.states :=
  (hs.wf.setUp h i notes racers hs.stage).2

theorem SetsUp.role (hs : SetsUp r sc h i c notes racers token callers) (idx : ℕ) :
    r.ledger.role h ≠ some (i, idx) := by
  intro hrole
  exact (hs.wf.role h i idx hrole).2.2.2 (hs.wf.caller h i hs.call).2.symm

theorem SetsUp.account (hs : SetsUp r sc h i c notes racers token callers) :
    Account r.loop.world i (sc.calls i) (r.ledger.calls i) (r.loop.shared i)
      (.setUp i notes racers) := by
  obtain ⟨hi, hcaller⟩ := hs.wf.caller h i hs.call
  have hacc := hs.wf.account i hi
  rw [hcaller, hs.stage] at hacc
  exact hacc

theorem SetsUp.note {x : ℕ} (hs : SetsUp r sc h i c (x :: notes) racers token callers)
    {next : Program c.type}
    (hl : Program.Leads i ((sc.calls i).base + c.sources) (.awaitState i c.ready c.next)
      r.loop.sources notes racers next) (ho : t.Orderly)
    (hstep : r.loop.runBody h sys clock order token callers spawner
      (.update i (Shared.addSource x) next) = some t) :
    (⟨t, r.ledger.seesRun r.loop t h callers (.update i (Shared.addSource x) next)⟩ :
      Recorded).Wf ⟨sc.calls, Function.update sc.stage h (.setUp i notes racers)⟩ := by
  have hledger : r.ledger.seesRun r.loop t h callers (.update i (Shared.addSource x) next) =
      r.ledger := by
    rw [Ledger.seesRun]
    cases hrole : r.ledger.role h with
    | none => rfl
    | some p =>
      dsimp only
      rw [if_neg]
      rintro rfl
      exact hs.role p.2 hrole
  obtain ⟨w, happ, rfl⟩ := TaskLoop.runBody_update_eq hstep
  obtain rfl : w = r.loop.world := by
    rcases happ with ⟨waiter, hn, -, -⟩ | ⟨-, hw⟩
    · cases hn
    · exact hw
  rw [hledger]
  refine ⟨hs.wf.callerActs ⟨rfl, rfl, rfl, rfl, fun _ => ⟨rfl, le_rfl⟩, fun _ _ => rfl⟩
    (hs.wf.solo hs.running) hs.call (World.Calm.refl _ _) (fun _ hx => hx) (fun _ _ => rfl) rfl
    (fun j hj => Function.update_of_ne hj _ _) (.setUp hs.contest hl hs.tasks hs.callers)
    (Or.inr (Or.inr ⟨notes, racers, rfl, hs.running, hs.last⟩)) ?_, ho⟩
  cases hs.account with
  | closed gone => exact absurd rfl gone
  | opening bound left noted ends notified taken =>
    obtain ⟨done, hdone, hsh⟩ := noted
    refine .opening bound left ⟨done ++ [x], ?_, ?_⟩ ends notified taken
    · rw [← hdone, List.append_assoc]
      rfl
    · refine (Function.update_self ..).trans ?_
      rw [hsh]
      rfl

theorem SetsUp.source (hs : SetsUp r sc h i c notes racers token callers)
    {next : ℕ → Program c.type}
    (hl : Program.Leads i ((sc.calls i).base + c.sources) (.awaitState i c.ready c.next)
      (r.loop.sources + 1) notes racers (next r.loop.sources)) (ho : t.Orderly)
    (hstep : r.loop.runBody h sys clock order token callers spawner (.makeSource next) = some t) :
    (⟨t, r.ledger⟩ : Recorded).Wf
      ⟨sc.calls, Function.update sc.stage h (.setUp i notes racers)⟩ := by
  rw [TaskLoop.runBody, Option.some.injEq] at hstep
  subst hstep
  refine ⟨hs.wf.callerActs ⟨rfl, rfl, rfl, rfl, fun _ => ⟨rfl, le_rfl⟩, fun _ _ => rfl⟩
    (hs.wf.solo hs.running) hs.call (World.Calm.refl _ _) (fun _ hx => hx) (fun _ _ => rfl) rfl
    (fun _ _ => rfl) (.setUp hs.contest hl hs.tasks hs.callers)
    (Or.inr (Or.inr ⟨notes, racers, rfl, hs.running, hs.last⟩)) ?_, ho⟩
  exact hs.account

theorem SetsUp.spawn {task : Program .unit} {own : Option ℕ}
    (hs : SetsUp r sc h i c notes ((task, own) :: racers) token callers) {next : Program c.type}
    (hl : Program.Leads i ((sc.calls i).base + c.sources) (.awaitState i c.ready c.next)
      r.loop.sources notes racers next) (ho : t.Orderly)
    (hstep : r.loop.runBody h sys clock order token callers spawner (.spawn task own next) =
      some t) :
    ∃ stage, (⟨t, r.ledger.seesRun r.loop t h callers (.spawn task own next)⟩ : Recorded).Wf
      ⟨sc.calls, stage⟩ := by
  obtain ⟨w, hw, ht⟩ := TaskLoop.runBody_spawn_eq hstep
  obtain ⟨hi, hcaller⟩ := hs.wf.caller h i hs.call
  obtain ⟨hborn, -⟩ := hs.wf.born h i hs.call
  have hlast : r.loop.states - 1 = i := by
    have := hs.last
    omega
  have hopening : (r.ledger.calls i).launched < (sc.calls i).contest.size ∧
      ((sc.calls i).contest.racers i (sc.calls i).base).drop (r.ledger.calls i).launched =
        (task, own) :: racers ∧ (r.ledger.calls i).ends = [] := by
    cases hs.account with
    | closed gone => exact absurd rfl gone
    | opening bound left noted ends notified taken =>
      refine ⟨lt_of_le_of_ne bound fun he => ?_, left, ends⟩
      rw [List.drop_eq_nil_of_le (by rw [Contest.length_racers, he])] at left
      cases left
  obtain ⟨hlt, hleft, hends⟩ := hopening
  -- first the caller goes on, then its racer is there
  let middle : Recorded := ⟨r.loop.setStrand h ⟨c.type, token, .body next, callers, spawner⟩,
    r.ledger.edit i fun c => { c with launched := c.launched + 1 }⟩
  have hlog : middle.ledger.calls i =
      { r.ledger.calls i with launched := (r.ledger.calls i).launched + 1 } :=
    Function.update_self ..
  have hother : ∀ j, j ≠ i → middle.ledger.calls j = r.ledger.calls j :=
    fun j hj => Function.update_of_ne hj _ _
  have hmiddle : middle.Staged
      ⟨sc.calls, Function.update sc.stage h (.setUp i notes racers)⟩ := by
    refine hs.wf.callerActs ⟨rfl, rfl, rfl, rfl, fun j => ?_, fun _ _ => rfl⟩
      (hs.wf.solo hs.running) hs.call (World.Calm.refl _ _) (fun _ hx => hx) hother
      (by rw [hlog]) (fun _ _ => rfl) (.setUp hs.contest hl hs.tasks hs.callers)
      (Or.inr (Or.inr ⟨notes, racers, rfl, hs.running, hs.last⟩)) ?_
    · by_cases hj : j = i
      · rw [hj, hlog]
        exact ⟨rfl, Nat.le_succ _⟩
      · rw [hother j hj]
        exact ⟨rfl, le_rfl⟩
    · rw [hlog]
      cases hs.account with
      | closed gone => exact absurd rfl gone
      | opening bound left noted ends notified taken =>
        refine .opening hlt ?_ noted ends notified taken
        rw [← List.tail_drop, hleft]
        rfl
  have hlaunch : Launches middle
      ⟨t, r.ledger.seesRun r.loop t h callers (.spawn task own next)⟩
      ⟨.unit, own, .body task, .bottom, some h⟩ (some (i, (r.ledger.calls i).launched)) := by
    subst ht
    rw [Ledger.seesRun, hlast]
    exact ⟨Function.update_comm (Nat.ne_of_lt hborn).symm _ _ _, rfl, rfl, rfl, rfl, rfl, rfl, rfl,
      hw⟩
  refine ⟨_, hmiddle.launch hs.wf.orderly.inv.settled.inv hlaunch (.start ?_ ?_) (Or.inr rfl) ?_,
    ho⟩
  · have hget := congrArg (fun l => l[0]?) hleft
    rw [List.getElem?_drop] at hget
    exact hget
  · rw [hs.contest]
    exact hs.tasks
  · intro j idx hj
    obtain ⟨rfl, rfl⟩ := Prod.mk.inj (Option.some.inj hj)
    rw [hlog]
    refine ⟨hi, Nat.lt_succ_self _, ?_, ?_, ?_⟩
    · rw [hcaller]
      exact (Nat.ne_of_lt hborn).symm
    · rw [hends]
      simp
    · intro k hk
      exact Nat.lt_irrefl _ (hs.wf.role k i _ hk).2.2.1

theorem SetsUp.opened (hs : SetsUp r sc h i c [] [] token callers) :
    (r.ledger.calls i).launched = c.size ∧ r.loop.shared i = c.opened (sc.calls i).base none ∧
      (r.ledger.calls i).ends = [] ∧ (r.ledger.calls i).notified = 0 ∧
      (r.ledger.calls i).taken = [] := by
  cases hs.account with
  | closed gone => exact absurd rfl gone
  | opening bound left noted ends notified taken =>
    obtain ⟨done, hdone, hsh⟩ := noted
    rw [hs.contest] at bound left hdone hsh
    have hle := List.drop_eq_nil_iff.mp left
    rw [Contest.length_racers] at hle
    refine ⟨le_antisymm bound hle, ?_, ends, notified, taken⟩
    rw [hsh, ← List.append_nil done, hdone]
    cases c <;> rfl

theorem SetsUp.await (hs : SetsUp r sc h i c [] [] token callers) (ho : t.Orderly)
    (hstep : r.loop.runBody h sys clock order token callers spawner
      (.awaitState i c.ready c.next) = some t) :
    ∃ stage, (⟨t, r.ledger.seesRun r.loop t h callers (.awaitState i c.ready c.next)⟩ :
      Recorded).Wf ⟨sc.calls, Function.update sc.stage h stage⟩ := by
  obtain ⟨hlaunched, hsh, hends, hnotified, htaken⟩ := hs.opened
  obtain ⟨-, hcaller⟩ := hs.wf.caller h i hs.call
  have htally : ∀ waiter, (sc.calls i).tally waiter [] =
      ⟨c.opened (sc.calls i).base waiter, [], 0⟩ := by
    intro waiter
    rw [Call.tally, hs.contest]
    rfl
  have hracing : ∀ w waiter (log : CallLog), log.launched = c.size → log.ends = [] →
      log.notified = 0 →
      Racing w (sc.calls i) log (c.opened (sc.calls i).base waiter) waiter := by
    intro w waiter log hl he hn
    constructor
    · rw [hl, hs.contest]
    · rw [he]
      exact Contest.Ended.nil _
    · rw [he, htally]
    · rw [hn, he, htally]
    · rw [he, htally]
      simp
  rw [Ledger.seesRun]
  rcases TaskLoop.runBody_awaitState_eq hstep with ⟨hready, rfl⟩ | ⟨w, hready, hw, rfl⟩
  · refine ⟨.free, ?_⟩
    rw [if_pos hready]
    have hlog : (r.ledger.goesOn i (r.loop.shared i)).calls i =
        { r.ledger.calls i with taken := [r.loop.shared i] } := by
      refine (Function.update_self ..).trans ?_
      rw [htaken]
      rfl
    have hother : ∀ j, j ≠ i → (r.ledger.goesOn i (r.loop.shared i)).calls j = r.ledger.calls j :=
      fun j hj => Function.update_of_ne hj _ _
    refine ⟨hs.wf.callerActs ⟨rfl, rfl, rfl, rfl, fun j => ?_, fun _ _ => rfl⟩
      (hs.wf.solo hs.running) hs.call (World.Calm.refl _ _) (fun _ hx => hx) hother ?_
      (fun _ _ => rfl) (.body (c.next_formed _) hs.callers) (Or.inl rfl) ?_, ho⟩
    · by_cases hj : j = i
      · rw [hj, hlog]
        exact ⟨rfl, le_rfl⟩
      · rw [hother j hj]
        exact ⟨rfl, le_rfl⟩
    · rw [hlog]
    · dsimp only
      rw [hlog]
      rw [hsh] at hready
      have hsize := Contest.size_of_ready_opened hready
      have hnow : (sc.calls i).contest.ready ((sc.calls i).tally none []).state = true := by
        rw [htally, hs.contest]
        exact hready
      refine .closed (by simp [Stage.call]) (Or.inr ?_) ?_ List.nil_prefix hnow ?_
      · rw [hs.contest, hsize]
      · exact hsh ▸ hracing _ none _ hlaunched hends hnotified
      · rw [htally, hsh]
  · refine ⟨.parked i, ?_⟩
    rw [if_neg (by simp [hready])]
    obtain ⟨on, -, hw'⟩ := World.step_park.mp hw
    have hphase : w.phase h = .idle := by
      rw [← hw']
      exact Function.update_self ..
    have hopened : ({ r.loop.shared i with waiter := some h } : Shared) =
        c.opened (sc.calls i).base (some h) := by
      rw [hsh]
      rfl
    refine ⟨hs.wf.callerActs ⟨rfl, rfl, rfl, rfl, fun _ => ⟨rfl, le_rfl⟩, fun _ _ => rfl⟩
      (hs.wf.solo hs.running) hs.call (World.step_calm hs.wf.orderly.inv.settled.inv hw) ?_
      (fun _ _ => rfl) rfl (fun j hj => Function.update_of_ne hj _ _)
      (.parked hs.contest hs.callers) (Or.inr (Or.inl rfl)) ?_, ho⟩
    · intro x hx
      rw [← hw']
      exact hx
    · dsimp only [TaskLoop.setStrand]
      rw [Function.update_self, hopened]
      refine .waiting ?_ ?_ htaken ?_
      · rw [hs.contest, ← hsh, hready]
      · rw [hcaller]
        exact hracing _ _ _ hlaunched hends hnotified
      · rw [hcaller, hphase, ← hopened, hs.contest, Contest.ready_waiter, hready]
        rfl

end SetUp

section Calls
variable {t : TaskLoop} {τ : TaskType} {token : Option ℕ} {callers : Callers τ}
  {spawner : Option Handle} {sys : Except Errno ℕ} {clock : ℤ} {order : List Handle}

/-! ## A call is opened -/

theorem Wf.opens (hw : r.Wf sc) {c : Contest} {callers : Callers c.type}
    (hrun : r.loop.world.isRunning h = true)
    (hst : r.loop.strand h = some ⟨c.type, token, .body c.program, callers, spawner⟩)
    (hstage : sc.stage h = .free) (htasks : ∀ task ∈ c.tasks, task.Formed)
    (hcallers : callers.Over sc.calls (r.ledger.role h) token) (ho : t.Orderly)
    (hstep : r.loop.runBody h sys clock order token callers spawner c.program = some t) :
    (⟨t, r.ledger.seesRun r.loop t h callers c.program⟩ : Recorded).Wf
      ⟨Function.update sc.calls r.loop.states ⟨c, r.loop.sources⟩,
        Function.update sc.stage h (.setUp r.loop.states (c.notes r.loop.sources)
          (c.racers r.loop.states r.loop.sources))⟩ := by
  rw [Contest.program, TaskLoop.runBody, Option.some.injEq] at hstep
  rw [Contest.program, Ledger.seesRun]
  subst hstep
  set n := r.loop.states with hn
  set stage := Stage.setUp n (c.notes r.loop.sources) (c.racers n r.loop.sources) with hnew
  have hcalls : ∀ i, i < n → Function.update sc.calls n ⟨c, r.loop.sources⟩ i = sc.calls i :=
    fun i hi => Function.update_of_ne (Nat.ne_of_lt hi) _ _
  have hcall : Function.update sc.calls n ⟨c, r.loop.sources⟩ n = ⟨c, r.loop.sources⟩ :=
    Function.update_self ..
  have hlogs : ∀ i, i < n → (r.ledger.opens n h).calls i = r.ledger.calls i :=
    fun i hi => Function.update_of_ne (Nat.ne_of_lt hi) _ _
  have hlog : (r.ledger.opens n h).calls n = ⟨h, 0, [], 0, []⟩ := Function.update_self ..
  have hother : ∀ k, k ≠ h → Function.update sc.stage h stage k = sc.stage k :=
    fun k hk => Function.update_of_ne hk _ _
  have hself : Function.update sc.stage h stage h = stage := Function.update_self ..
  have hroles : ∀ k i idx, r.ledger.role k = some (i, idx) →
      Function.update sc.calls n ⟨c, r.loop.sources⟩ i = sc.calls i :=
    fun k i idx hk => hcalls i (hw.role k i idx hk).1
  refine ⟨?_, ho⟩
  constructor
  case plays =>
    intro k st hst
    dsimp only [TaskLoop.setStrand] at hst ⊢
    by_cases hk : k = h
    · subst hk
      rw [Function.update_self, Option.some.injEq] at hst
      rw [hself, ← hst]
      refine .setUp (by rw [hcall]) ?_ htasks (hcallers.congr (hroles k))
      rw [hcall]
      exact c.setUp_leads n r.loop.sources
    · rw [Function.update_of_ne hk] at hst
      rw [hother k hk]
      exact (hw.plays k st hst).congr (hroles k) (fun i hi => hcalls i (hw.caller k i hi).1)
        fun _ _ _ _ => rfl
  case back =>
    intro k res hres
    dsimp only at hres
    by_cases hk : k = h
    · subst hk
      rw [hself, hnew] at hres
      cases hres
    · rw [hother k hk] at hres
      exact hw.back k res hres
  case role =>
    intro k i idx hk
    obtain ⟨hi, hlt, hidx, hne⟩ := hw.role k i idx hk
    dsimp only
    rw [hlogs i hi]
    exact ⟨Nat.lt_succ_of_lt hi, hlt, hidx, hne⟩
  case distinct => exact hw.distinct
  case ended =>
    intro k i idx hk
    dsimp only
    rw [hlogs i (hw.role k i idx hk).1, ← hw.ended k i idx hk]
    by_cases hkh : k = h
    · subst hkh
      rw [hself, hstage, hnew]
      simp
    · rw [hother k hkh]
  case caller =>
    intro k i hk
    dsimp only at hk ⊢
    by_cases hkh : k = h
    · subst hkh
      rw [hself] at hk
      obtain rfl : n = i := Option.some.inj hk
      rw [hlog]
      exact ⟨Nat.lt_succ_self n, rfl⟩
    · rw [hother k hkh] at hk
      obtain ⟨hi, hcaller⟩ := hw.caller k i hk
      rw [hlogs i hi]
      exact ⟨Nat.lt_succ_of_lt hi, hcaller⟩
  case born =>
    intro k i hk
    dsimp only at hk
    by_cases hkh : k = h
    · rw [hkh]
      exact ⟨hw.orderly.inv.bound h _ hst, TaskLoop.kept_update h hst⟩
    · rw [hother k hkh] at hk
      obtain ⟨hlt, st', hst'⟩ := hw.born k i hk
      exact ⟨hlt, TaskLoop.kept_update k hst'⟩
  case setUp =>
    intro k i notes racers hk
    dsimp only at hk
    by_cases hkh : k = h
    · subst hkh
      rw [hself, hnew] at hk
      cases hk
      exact ⟨hrun, rfl⟩
    · rw [hother k hkh] at hk
      exact absurd (hw.solo hrun k i notes racers hk) hkh
  case account =>
    intro i hi
    rcases Nat.lt_succ_iff_lt_or_eq.mp hi with hlt | rfl
    · have hgone : stage.call ≠ some i := fun he => Nat.ne_of_gt hlt (Option.some.inj he)
      change Account _ i (Function.update sc.calls n ⟨c, r.loop.sources⟩ i) _ _ _
      rw [hcalls i hlt]
      exact hw.account_frame hlt (hlogs i hlt) (Function.update_of_ne (Nat.ne_of_lt hlt) _ _)
        (World.Calm.refl _ none) (by simp) (fun _ hx => hx)
        (by rw [hstage]; simp [Stage.call]) hgone
    · dsimp only [TaskLoop.setStrand]
      rw [hcall, hlog, hself, Function.update_self]
      refine .opening (Nat.zero_le _) rfl ⟨[], rfl, ?_⟩ rfl rfl rfl
      cases c <;> rfl

/-! ## A racer ends -/

theorem Wf.not_opening (hw : r.Wf sc) {i idx : ℕ} (hrole : r.ledger.role h = some (i, idx))
    (hrun : r.loop.world.isRunning h = true) (notes : List ℕ)
    (racers : List (Program .unit × Option ℕ)) :
    sc.stage (r.ledger.calls i).caller ≠ .setUp i notes racers := by
  intro hs
  exact (hw.role h i idx hrole).2.2.2 (hw.solo hrun _ _ _ _ hs).symm

theorem Staged.racerEnds (hw : r.Staged sc) {i idx : ℕ} {res : Result ℕ}
    (hrole : r.ledger.role h = some (i, idx)) (hstage : sc.stage h = .ending res)
    (hs : Steps r r' h ⟨.unit, token, .body (.ret ()), .bottom, spawner⟩)
    (hsolo : ∀ k i notes racers, sc.stage k = .setUp i notes racers → k = h)
    (hcalm : World.Calm r.loop.world r'.loop.world actor)
    (hactor : ∀ k j, actor = some k → (sc.stage k).call = some j → j = i)
    (hstop : KeepsStops r.loop.world r'.loop.world)
    (hcalls : ∀ j, j ≠ i → r'.ledger.calls j = r.ledger.calls j)
    (hends : (r'.ledger.calls i).ends = (r.ledger.calls i).ends ++ [(idx, res)])
    (hshared : ∀ j, j ≠ i → r'.loop.shared j = r.loop.shared j)
    (haccount : Account r'.loop.world i (sc.calls i) (r'.ledger.calls i) (r'.loop.shared i)
      (sc.stage (r.ledger.calls i).caller)) :
    r'.Staged ⟨sc.calls, Function.update sc.stage h .done⟩ := by
  have hnone : ∀ j, (sc.stage h).call ≠ some j := by
    rw [hstage]
    simp [Stage.call]
  refine hw.act i hs hsolo hcalm hactor hstop hcalls hshared (hrole ▸ .done) (by simp) ?_
    (fun j hj => absurd hj (hnone j)) (by simp [Stage.call]) (by simp) ?_
  · intro k j idx' hk
    by_cases hkh : k = h
    · rw [hkh, hrole] at hk
      obtain ⟨rfl, rfl⟩ := Prod.mk.inj (Option.some.inj hk)
      rw [hkh, Function.update_self, hends]
      simp
    · rw [Function.update_of_ne hkh, hw.ended k j idx' hk]
      by_cases hj : j = i
      · subst hj
        have hdiff : idx' ≠ idx := by
          rintro rfl
          exact hkh (hw.distinct k h j idx' hk hrole)
        rw [hends, List.map_append, List.mem_append]
        simp [hdiff]
      · rw [hcalls j hj]
  · have hne := (hw.role h i idx hrole).2.2.2
    rw [(hs.log i).1, Function.update_of_ne hne.symm]
    exact haccount

theorem Wf.racerEnds (hw : r.Wf sc) {i idx : ℕ} {res : Result ℕ}
    (hrole : r.ledger.role h = some (i, idx)) (hstage : sc.stage h = .ending res)
    (hrun : r.loop.world.isRunning h = true) (ho : t.Orderly)
    (hstep : r.loop.runBody h sys clock order token .bottom spawner
      ((sc.calls i).close i idx res) = some t) :
    (⟨t, r.ledger.seesRun r.loop t h (.bottom : Callers .unit) ((sc.calls i).close i idx res)⟩ :
      Recorded).Wf ⟨sc.calls, Function.update sc.stage h .done⟩ := by
  obtain ⟨hi, -, hidx, -⟩ := hw.role h i idx hrole
  rw [Call.close, Contest.close] at hstep ⊢
  obtain ⟨w, happ, ht⟩ := TaskLoop.runBody_update_eq hstep
  obtain ⟨v, hcalm, hinv, hstops, hkept, hwake⟩ := hw.orderly.inv.applies happ
  set u := (sc.calls i).contest.ending (sc.calls i).base idx res (r.loop.shared i) with hu
  have hledger : r.ledger.seesRun r.loop t h (.bottom : Callers .unit)
      (.update i ((sc.calls i).contest.ending (sc.calls i).base idx res) (.ret ())) =
      r.ledger.ends i idx h u := by
    rw [Ledger.seesRun, hrole]
    exact if_pos rfl
  have hlog : (r.ledger.ends i idx h u).calls i = (r.ledger.calls i).ended (idx, res) u := by
    refine (Function.update_self ..).trans ?_
    rw [hw.back h res hstage]
    rfl
  have hother : ∀ j, j ≠ i → (r.ledger.ends i idx h u).calls j = r.ledger.calls j :=
    fun j hj => Function.update_of_ne hj _ _
  have hmissing : idx ∉ (r.ledger.calls i).ends.map Prod.fst := by
    rw [← hw.ended h i idx hrole, hstage]
    simp
  obtain ⟨actor, hcalm', hactor, hacc⟩ := (hw.account i hi).ends (e := (idx, res))
    (hw.not_opening hrole hrun) hidx hmissing hu hcalm
    (fun k hk => (hcalm.widen _).trans (World.step_calm hinv hk)) hstops hkept hwake
  rw [hledger]
  subst ht
  refine ⟨hw.toStaged.racerEnds hrole hstage ⟨rfl, rfl, rfl, rfl, fun j => ?_, fun _ _ => rfl⟩
    (hw.solo hrun) hcalm' ?_ hkept hother (by rw [hlog]; rfl)
    (fun j hj => Function.update_of_ne hj _ _) ?_, ho⟩
  · by_cases hj : j = i
    · rw [hj, hlog]
      exact ⟨rfl, le_rfl⟩
    · rw [hother j hj]
      exact ⟨rfl, le_rfl⟩
  · intro k j hk hj
    obtain ⟨rfl, hparked⟩ := hactor k hk
    rw [hparked] at hj
    exact (Option.some.inj hj).symm
  · dsimp only [TaskLoop.setStrand]
    rw [Function.update_self, hlog]
    exact hacc

/-! ## A caller is resumed -/

/-- A suspended caller in the ready queue finds the state ready. -/
theorem Wf.ready_of_mem (hw : r.Wf sc) {i : ℕ} (hstage : sc.stage h = .parked i)
    (hmem : h ∈ r.loop.world.ready) : (sc.calls i).contest.ready (r.loop.shared i) = true ∧
      (r.ledger.calls i).taken = [] ∧
      Racing r.loop.world (sc.calls i) (r.ledger.calls i) (r.loop.shared i) (some h) := by
  obtain ⟨hi, hcaller⟩ := hw.caller h i (by rw [hstage]; rfl)
  have hacc := hw.account i hi
  rw [hcaller, hstage] at hacc
  cases hacc with
  | closed gone => exact absurd rfl gone
  | waiting blocked racing taken phase =>
    rw [hcaller] at phase racing
    refine ⟨?_, taken, racing⟩
    rcases hw.orderly.inv.settled.inv.queued_or_waiting hmem with hq | ⟨a, ha⟩
    · rw [hq] at phase
      by_contra hn
      rw [if_neg hn] at phase
      cases phase
    · rw [ha] at phase
      split_ifs at phase

theorem Wf.resumesCaller (hw : r.Wf sc) {i : ℕ} {c : Contest} {callers : Callers c.type} {w : World}
    {rest : List Handle} (hidle : r.loop.busy = false) (hready : r.loop.world.ready = h :: rest)
    (hstage : sc.stage h = .parked i)
    (hcallers : callers.Over sc.calls (r.ledger.role h) token)
    (hstep : r.loop.world.step (.resume sys) = some w)
    (ho : (({ r.loop with world := w } : TaskLoop).setStrand h
      ⟨c.type, token, .body (c.next (r.loop.shared i)), callers, spawner⟩).Orderly) :
    (⟨({ r.loop with world := w } : TaskLoop).setStrand h
      ⟨c.type, token, .body (c.next (r.loop.shared i)), callers, spawner⟩,
      r.ledger.goesOn i (r.loop.shared i)⟩ : Recorded).Wf
        ⟨sc.calls, Function.update sc.stage h .free⟩ := by
  have hcall : (sc.stage h).call = some i := by
    rw [hstage]
    rfl
  obtain ⟨hi, hcaller⟩ := hw.caller h i hcall
  have hcalm := World.step_calm hw.orderly.inv.settled.inv hstep
  rw [World.actor, hready] at hcalm
  have hstop : KeepsStops r.loop.world w := by
    intro x hx
    have hplain : World.Plain (.resume sys) := trivial
    rw [hplain.stopped_eq hw.orderly.inv.settled hstep]
    exact hx
  have hother : ∀ j, j ≠ i → (r.ledger.goesOn i (r.loop.shared i)).calls j = r.ledger.calls j :=
    fun j hj => Function.update_of_ne hj _ _
  have hlog : (r.ledger.goesOn i (r.loop.shared i)).calls i = { r.ledger.calls i with
      taken := (r.ledger.calls i).taken ++ [r.loop.shared i] } := Function.update_self ..
  refine ⟨hw.callerActs ⟨rfl, rfl, rfl, rfl, fun j => ?_, fun _ _ => rfl⟩ ?_ hcall hcalm
    hstop hother
    (by rw [hlog]) (fun _ _ => rfl) (.body (c.next_formed _) hcallers) (Or.inl rfl) ?_, ho⟩
  · by_cases hj : j = i
    · rw [hj, hlog]
      exact ⟨rfl, le_rfl⟩
    · rw [hother j hj]
      exact ⟨rfl, le_rfl⟩
  · exact fun k j notes racers hk => absurd hk (hw.no_setUp hidle k j notes racers)
  · dsimp only [TaskLoop.setStrand]
    rw [hlog]
    obtain ⟨hnow, htaken, racing⟩ := hw.ready_of_mem hstage (hready ▸ List.mem_cons_self)
    obtain ⟨hlaunched, hended, hshared, hnotified, hstopped⟩ := racing.mono hstop
    refine .closed (by simp [Stage.call]) (Or.inl (by rw [hcaller]))
      ⟨hlaunched, hended, hshared, hnotified, hstopped⟩ (List.prefix_refl _) ?_ ?_
    · exact racing.shared ▸ hnow
    · rw [htaken, ← racing.shared]
      rfl

end Calls
end Recorded
end RainRuntime
