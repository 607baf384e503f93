import RainRuntime.CallOutcomes

/-!
# A timeout in a crowd of timers

The ids of timers have 24 bits for the index. When `2 ^ 24` strands sleep and a `timeout` is
entered whose task ends at once, the sentinel's timer gets an index beyond that, and the stop
that ends its sleep leads to another timer. The sentinel ends, and its entry stays in the wheel.
-/

namespace RainRuntime

namespace Recorded
variable {r r' : Recorded} {h : Handle} {n : ℕ}

/-! ## Steps that are taken -/

theorem step_spawn {root : Root} {w : World} (htoken : root.token = none)
    (hwake : r.loop.world.step (.wake r.loop.strands) = some w) :
    r.step (.spawn root) = some ⟨{ r.loop with
      world := w
      strands := r.loop.strands + 1
      strand := Function.update r.loop.strand r.loop.strands
        (some ⟨root.type, root.token, .body root.expr.program, .bottom, none⟩)
      root := Function.update r.loop.root r.loop.strands (some root) }, r.ledger⟩ := by
  simp only [step, TaskLoop.turn, TaskLoop.step, htoken, Option.all_none, if_true, TaskLoop.launch,
    hwake, Option.map_some, Ledger.sees]

theorem step_run {τ : TaskType} {token : Option ℕ} {p : Program τ} {callers : Callers τ}
    {spawner : Option Handle} {t : TaskLoop} (hrun : r.loop.world.isRunning h = true)
    (hst : r.loop.strand h = some ⟨τ, token, .body p, callers, spawner⟩)
    (hbody : r.loop.runBody h (.ok 0) 0 [] token callers spawner p = some t) :
    r.step (turnOf h) = some ⟨t, r.ledger.seesRun r.loop t h callers p⟩ := by
  simp only [step, turnOf, TaskLoop.turn, TaskLoop.step, hrun, if_true, hst, hbody, Option.map_some,
    Ledger.sees]

theorem runBody_wait_suspends {s : TaskLoop} {w : World} {sys : Except Errno ℕ} {clock : ℤ}
    {order : List Handle} {τ : TaskType} {token : Option ℕ} {callers : Callers τ}
    {spawner : Option Handle} {kind : WaitKind} {fd : ℤ} (next : Result ℕ → Program τ)
    (hawait : s.world.step (.await h kind fd h token sys) = some w)
    (hwaits : w.isWaiting h = true) :
    s.runBody h sys clock order token callers spawner (.wait kind fd next) =
      some (({ s with world := w } : TaskLoop).setStrand h
        ⟨τ, token, .leaf next, callers, spawner⟩) := by
  simp only [TaskLoop.runBody, hawait, Option.bind_some, hwaits, if_true]

theorem step_resume {st : Strand} {rest : List Handle} {w : World} {t : TaskLoop}
    (hidle : r.loop.busy = false) (hready : r.loop.world.ready = h :: rest)
    (hst : r.loop.strand h = some st) (hresume : r.loop.world.step (.resume (.ok 0)) = some w)
    (hres : ({ r.loop with world := w } : TaskLoop).resumed h st = some t) :
    r.step (.resume (.ok 0)) = some ⟨t, r.ledger.seesResume r.loop t h st⟩ := by
  simp only [step, TaskLoop.turn, TaskLoop.step, hidle, hready, hresume, hst,
    Option.bind_some, hres, Ledger.sees]
  rfl

theorem step_orderly {op : TaskLoopOp} (ho : r.loop.Orderly) (hstep : r.step op = some r') :
    r'.loop.Orderly := by
  rw [step, Option.map_eq_some_iff] at hstep
  obtain ⟨t, hturn, rfl⟩ := hstep
  exact TaskLoop.turn_orderly ho hturn

theorem busy_eq_false {s : TaskLoop} (hn : ∀ h, s.world.isRunning h = false) : s.busy = false := by
  rw [TaskLoop.busy, List.any_eq_false]
  intro h _
  simp [hn h]

/-! ## The crowd -/

def sleeper : Root := ⟨.result, .leaf (.sleep 1) 0 fun r => .ret r, none⟩

def lieDown (h : Handle) : List TaskLoopOp := [.spawn sleeper, .resume (.ok 0), turnOf h]

structure Crowd (r : Recorded) (n : ℕ) : Prop where
  world : World.Crowd r.loop.world n
  quiet : ∀ h, r.loop.world.isRunning h = false
  tokens : ∀ h a, r.loop.world.phase h = .waiting a → a.token = none
  orderly : r.loop.Orderly
  strands : r.loop.strands = n
  states : r.loop.states = 0
  sources : r.loop.sources = 0

theorem Crowd.lieDown (hc : r.Crowd n) :
    ∃ r', Transition.run step r (lieDown n) = some r' ∧ r'.Crowd (n + 1) := by
  obtain ⟨w, hrun, hcrowd, hphase, -⟩ := hc.world.toBed none
  obtain ⟨w₁, hwake, hrun⟩ := Transition.run_cons_eq_some.mp hrun
  obtain ⟨w₂, hresume, hrun⟩ := Transition.run_cons_eq_some.mp hrun
  obtain ⟨w₃, hawait, hrun⟩ := Transition.run_cons_eq_some.mp hrun
  obtain rfl : w₃ = w := Option.some.inj hrun
  have hinv := hc.orderly.inv.settled.inv
  have hinv₁ := (World.step_spec hinv hwake).inv
  have hinv₂ := (World.step_spec hinv₁ hresume).inv
  obtain ⟨-, hqueued, -⟩ := TaskLoop.step_wake_spec hwake
  have hready : w₁.ready = n :: [] := by
    obtain ⟨-, rfl⟩ := World.step_wake.mp hwake
    exact congrArg (· ++ [n]) hc.world.ready
  have hframe₁ : ∀ h, h ≠ n → w₁.phase h = r.loop.world.phase h :=
    fun h hh => ((World.step_spec hinv hwake).frame h fun he => hh (Option.some.inj he).symm).1
  have hframe : ∀ h, h ≠ n → w₃.phase h = r.loop.world.phase h := by
    intro h hh
    have hactor : w₁.actor (.resume (.ok 0)) = some n := by
      rw [World.actor, hready]
      rfl
    have h₂ := ((World.step_spec hinv₁ hresume).frame h (by rw [hactor]; simpa using Ne.symm hh)).1
    have h₃ := ((World.step_spec hinv₂ hawait).frame h fun he => hh (Option.some.inj he).symm).1
    rw [h₃, h₂, hframe₁ h hh]
  have hquiet₁ : ∀ h, w₁.isRunning h = false := by
    intro h
    by_cases hh : h = n
    · rw [hh, World.isRunning, hqueued]
    · rw [World.isRunning, hframe₁ h hh]
      exact hc.quiet h
  have hspawn := step_spawn (rfl : sleeper.token = none) (hc.strands ▸ hwake)
  generalize hr₁ : (⟨_, r.ledger⟩ : Recorded) = r₁ at hspawn
  have hst₁ : r₁.loop.strand n = some
      ⟨.result, none, .body sleeper.expr.program, .bottom, none⟩ := by
    rw [← hr₁, hc.strands]
    exact Function.update_self ..
  have hw₁ : r₁.loop.world = w₁ := by rw [← hr₁]
  have hres₁ : r₁.step (.resume (.ok 0)) = some ⟨{ r₁.loop with world := w₂ }, r₁.ledger⟩ :=
    step_resume (busy_eq_false (hw₁ ▸ hquiet₁)) (hw₁ ▸ hready) hst₁ (hw₁ ▸ hresume) rfl
  have ho₁ := step_orderly hc.orderly hspawn
  have hruns : w₂.isRunning n = true :=
    TaskLoop.isRunning_iff.mpr ⟨_, ho₁.resume_runs (hw₁ ▸ hready) (hw₁ ▸ hresume)⟩
  have hwaiting : w₃.isWaiting n = true := by
    rw [World.isWaiting, hphase]
  have hrun₂ := step_run (r := ⟨{ r₁.loop with world := w₂ }, r₁.ledger⟩) hruns hst₁
    (runBody_wait_suspends _ hawait hwaiting)
  refine ⟨_, Transition.run_cons_eq_some.mpr ⟨_, hspawn, Transition.run_cons_eq_some.mpr ⟨_, hres₁,
    Transition.run_cons_eq_some.mpr ⟨_, hrun₂, rfl⟩⟩⟩, hcrowd, fun h => ?_, fun h a ha => ?_,
    step_orderly (step_orderly ho₁ hres₁) hrun₂, ?_, ?_, ?_⟩
  · change w₃.isRunning h = false
    by_cases hh : h = n
    · rw [hh, World.isRunning, hphase]
    · rw [World.isRunning, hframe h hh]
      exact hc.quiet h
  · change w₃.phase h = .waiting a at ha
    by_cases hh : h = n
    · rw [hh, hphase, Phase.waiting.injEq] at ha
      rw [← ha]
    · rw [hframe h hh] at ha
      exact hc.tokens h a ha
  · rw [← hr₁]
    exact congrArg (· + 1) hc.strands
  · rw [← hr₁]
    exact hc.states
  · rw [← hr₁]
    exact hc.sources

def bedtime (n : ℕ) : List TaskLoopOp := (List.range n).flatMap lieDown

theorem crowd_bedtime (n : ℕ) : ∃ r,
    Reaches 0 0 World.blankHeap World.blankKernel (bedtime n) r ∧ r.Crowd n := by
  induction n with
  | zero =>
    obtain ⟨s, hs, hc⟩ := World.crowd_bedtime 0 World.blankKernel 0
    obtain rfl := Option.some.inj hs
    refine ⟨_, rfl, hc, fun _ => rfl, fun h a ha => ?_,
      TaskLoop.create_orderly 0 0 World.blankKernel fun _ => rfl, rfl, rfl, rfl⟩
    cases ha
  | succ n ih =>
    obtain ⟨r, hr, hc⟩ := ih
    obtain ⟨r', hrun, hc'⟩ := hc.lieDown
    refine ⟨r', ?_, hc'⟩
    rw [Reaches, bedtime, List.range_succ, List.flatMap_append, Transition.run_append_eq_some]
    exact ⟨r, hr, by simpa using hrun⟩

/-! ## Three more strands -/

/-- What is kept in view of a run behind the crowd: the strands `n`, `n + 1` and `n + 2`, the
queue, the first shared state, the source 1, the wheel and the cell of the last strand. -/
structure Desk where
  ready : List Handle
  phase : Fin 3 → Phase
  strand : Fin 3 → Option Strand
  shared : Shared
  states : ℕ
  sources : ℕ
  strands : ℕ
  stopped : Option (Option LoopId)
  wheel : HierarchicalTimerWheel
  cell : Option Handle

structure Shows (r : Recorded) (n : ℕ) (d : Desk) : Prop where
  orderly : r.loop.Orderly
  ready : r.loop.world.ready = d.ready
  phase : ∀ i : Fin 3, r.loop.world.phase (n + i) = d.phase i
  strand : ∀ i : Fin 3, r.loop.strand (n + i) = d.strand i
  shared : r.loop.shared 0 = d.shared
  states : r.loop.states = d.states
  sources : r.loop.sources = d.sources
  strands : r.loop.strands = d.strands
  stopped : r.loop.world.stopped 1 = d.stopped
  wheel : r.loop.world.timer.wheel = d.wheel
  cell : r.loop.world.cells (n + 2) = d.cell
  quiet : ∀ h, (∀ i : Fin 3, h ≠ n + i) → r.loop.world.isRunning h = false
  tokens : ∀ h a, (∀ i : Fin 3, h ≠ n + i) → r.loop.world.phase h = .waiting a → a.token = none

section Desk
variable {d : Desk} {w : World} {i : Fin 3}

theorem update_desk {α : Type*} {f : Handle → α} {g : Fin 3 → α} (hf : ∀ j : Fin 3, f (n + j) = g j)
    (i : Fin 3) (x : α) (j : Fin 3) :
    Function.update f (n + i) x (n + j) = Function.update g i x j := by
  by_cases hj : j = i
  · rw [hj, Function.update_self, Function.update_self]
  · have hne : n + (j : ℕ) ≠ n + i := fun he => hj (Fin.ext (Nat.add_left_cancel he))
    rw [Function.update_of_ne hne, Function.update_of_ne hj]
    exact hf j

theorem Shows.alter {d' : Desk} (hs : r.Shows n d) (ho : r'.loop.Orderly)
    (hothers : ∀ h, (∀ i : Fin 3, h ≠ n + i) → r'.loop.world.phase h = r.loop.world.phase h)
    (hphase : ∀ i : Fin 3, r'.loop.world.phase (n + i) = d'.phase i)
    (hstrand : ∀ i : Fin 3, r'.loop.strand (n + i) = d'.strand i)
    (hready : r'.loop.world.ready = d'.ready) (hshared : r'.loop.shared 0 = d'.shared)
    (hcounters : r'.loop.states = d'.states ∧ r'.loop.sources = d'.sources ∧
      r'.loop.strands = d'.strands) (hstopped : r'.loop.world.stopped 1 = d'.stopped)
    (hwheel : r'.loop.world.timer.wheel = d'.wheel)
    (hcell : r'.loop.world.cells (n + 2) = d'.cell) : r'.Shows n d' where
  orderly := ho
  ready := hready
  phase := hphase
  strand := hstrand
  shared := hshared
  states := hcounters.1
  sources := hcounters.2.1
  strands := hcounters.2.2
  stopped := hstopped
  wheel := hwheel
  cell := hcell
  quiet h hh := by
    rw [World.isRunning, hothers h hh]
    exact hs.quiet h hh
  tokens h a hh ha := by
    rw [hothers h hh] at ha
    exact hs.tokens h a hh ha

theorem Shows.isRunning (hs : r.Shows n d) (hrun : d.phase i = .running ownerLoop) :
    r.loop.world.isRunning (n + i) = true := by
  rw [World.isRunning, hs.phase, hrun]

theorem Shows.busy (hs : r.Shows n d) (hidle : ∀ i on, d.phase i ≠ .running on) :
    r.loop.busy = false := by
  refine busy_eq_false fun h => ?_
  by_cases hh : ∀ i : Fin 3, h ≠ n + i
  · exact hs.quiet h hh
  · push Not at hh
    obtain ⟨i, rfl⟩ := hh
    rw [World.isRunning, hs.phase]
    cases hp : d.phase i with
    | running on => exact absurd hp (hidle i on)
    | _ => rfl

variable {τ : TaskType} {token : Option ℕ} {callers : Callers τ} {spawner : Option Handle}

theorem Shows.goOn (hs : r.Shows n d) (hrun : d.phase i = .running ownerLoop) {p : Program τ}
    (hst : d.strand i = some ⟨τ, token, .body p, callers, spawner⟩) {st : Strand}
    (hbody : r.loop.runBody (n + i) (.ok 0) 0 [] token callers spawner p =
      some (r.loop.setStrand (n + i) st)) :
    ∃ r', r.step (turnOf (n + i)) = some r' ∧
      r'.Shows n { d with strand := Function.update d.strand i (some st) } := by
  have hstep := step_run (hs.isRunning hrun) ((hs.strand i).trans hst) hbody
  exact ⟨_, hstep, hs.alter (step_orderly hs.orderly hstep) (fun _ _ => rfl) hs.phase
    (update_desk hs.strand i _) hs.ready hs.shared ⟨hs.states, hs.sources, hs.strands⟩ hs.stopped
    hs.wheel hs.cell⟩

theorem Shows.makeState (hs : r.Shows n d) (hrun : d.phase i = .running ownerLoop) {init : Shared}
    {next : ℕ → Program τ}
    (hst : d.strand i = some ⟨τ, token, .body (.makeState init next), callers, spawner⟩)
    (hstates : d.states = 0) :
    ∃ r', r.step (turnOf (n + i)) = some r' ∧ r'.ledger = r.ledger.opens 0 (n + i) ∧
      r'.Shows n { d with
        states := 1
        shared := init
        strand := Function.update d.strand i
          (some ⟨τ, token, .body (next 0), callers, spawner⟩) } := by
  have hzero := hs.states.trans hstates
  have hshared : Function.update r.loop.shared 0 init 0 = init := Function.update_self ..
  have hstep := step_run (hs.isRunning hrun) ((hs.strand i).trans hst) rfl
  simp only [Ledger.seesRun, hzero] at hstep
  refine ⟨_, hstep, rfl, hs.alter (step_orderly hs.orderly hstep) (fun _ _ => rfl) hs.phase
    (update_desk hs.strand i _) hs.ready hshared ⟨rfl, hs.sources, hs.strands⟩
    hs.stopped hs.wheel hs.cell⟩

theorem Shows.makeSource (hs : r.Shows n d) (hrun : d.phase i = .running ownerLoop)
    {next : ℕ → Program τ}
    (hst : d.strand i = some ⟨τ, token, .body (.makeSource next), callers, spawner⟩) :
    ∃ r', r.step (turnOf (n + i)) = some r' ∧ r'.ledger = r.ledger ∧
      r'.Shows n { d with
        sources := d.sources + 1
        strand := Function.update d.strand i
          (some ⟨τ, token, .body (next d.sources), callers, spawner⟩) } := by
  have hstep := step_run (hs.isRunning hrun) ((hs.strand i).trans hst) rfl
  simp only [hs.sources] at hstep
  exact ⟨_, hstep, rfl, hs.alter (step_orderly hs.orderly hstep) (fun _ _ => rfl) hs.phase
    (update_desk hs.strand i _) hs.ready hs.shared ⟨hs.states, rfl, hs.strands⟩ hs.stopped
    hs.wheel hs.cell⟩

theorem Shows.spawn (hs : r.Shows n d) (hrun : d.phase i = .running ownerLoop)
    {task : Program .unit} {own : Option ℕ} {next : Program τ}
    (hst : d.strand i = some ⟨τ, token, .body (.spawn task own next), callers, spawner⟩)
    {j : Fin 3} (hnew : d.strands = n + j) (hidle : d.phase j = .idle) :
    ∃ r', r.step (turnOf (n + i)) = some r' ∧
      r'.ledger = r.ledger.launches (d.states - 1) (n + j) ∧
      r'.Shows n { d with
        ready := d.ready ++ [n + j]
        phase := Function.update d.phase j .queued
        strands := d.strands + 1
        strand := Function.update (Function.update d.strand j
          (some ⟨.unit, own, .body task, .bottom, some (n + i)⟩)) i
          (some ⟨τ, token, .body next, callers, spawner⟩) } := by
  have hstrands := hs.strands.trans hnew
  have hwake := World.step_wake.mpr ⟨(hs.phase j).trans hidle, rfl⟩
  have hstep := step_run (hs.isRunning hrun) ((hs.strand i).trans hst) (by
    rw [TaskLoop.runBody, TaskLoop.launch, hstrands, hwake]
    rfl)
  simp only [Ledger.seesRun, hs.states, hstrands] at hstep
  refine ⟨_, hstep, rfl, hs.alter (step_orderly hs.orderly hstep) (fun h hh => ?_)
    (update_desk hs.phase j _) (update_desk (update_desk hs.strand j _) i _)
    (congrArg (· ++ [n + (j : ℕ)]) hs.ready) hs.shared ⟨rfl, hs.sources, ?_⟩ hs.stopped hs.wheel
    hs.cell⟩
  · exact Function.update_of_ne (hh j) _ _
  · rw [hnew]
    rfl

theorem Shows.park (hs : r.Shows n d) (hrun : d.phase i = .running ownerLoop)
    {ready : Shared → Bool} {next : Shared → Program τ}
    (hst : d.strand i = some ⟨τ, token, .body (.awaitState 0 ready next), callers, spawner⟩)
    (hopen : ready d.shared = false) :
    ∃ r', r.step (turnOf (n + i)) = some r' ∧
      r'.Shows n { d with
        phase := Function.update d.phase i .idle
        shared := { d.shared with waiter := some (n + i) }
        strand := Function.update d.strand i
          (some ⟨τ, token, .parked 0 next, callers, spawner⟩) } := by
  have hpark := World.step_park.mpr ⟨_, (hs.phase i).trans hrun, rfl⟩
  have hstep := step_run (hs.isRunning hrun) ((hs.strand i).trans hst) (by
    rw [TaskLoop.runBody, if_neg (by rw [hs.shared, hopen]; simp), hpark]
    rfl)
  refine ⟨_, hstep, hs.alter (step_orderly hs.orderly hstep) (fun h hh => ?_)
    (update_desk hs.phase i _) (update_desk hs.strand i _) hs.ready ?_
    ⟨hs.states, hs.sources, hs.strands⟩ hs.stopped hs.wheel hs.cell⟩
  · exact Function.update_of_ne (hh i) _ _
  · have hshared : Function.update r.loop.shared 0
        { r.loop.shared 0 with waiter := some (n + (i : ℕ)) } 0 =
        { d.shared with waiter := some (n + (i : ℕ)) } := by
      rw [Function.update_self, hs.shared]
    exact hshared

theorem Shows.resume (hs : r.Shows n d) (hidle : ∀ i on, d.phase i ≠ .running on)
    {l : List Handle} (hready : d.ready = (n + i) :: l) (hqueued : d.phase i = .queued)
    {st st' : Strand} (hst : d.strand i = some st)
    (hres : ∀ s : TaskLoop, s.shared 0 = d.shared → s.strand (n + i) = some st →
      s.resumed (n + i) st = some (s.setStrand (n + i) st')) :
    ∃ r', r.step (.resume (.ok 0)) = some r' ∧
      r'.Shows n { d with
        ready := l
        phase := Function.update d.phase i (.running ownerLoop)
        strand := Function.update d.strand i (some st') } := by
  have hhead := hs.ready.trans hready
  have hphase := (hs.phase i).trans hqueued
  have halive : r.loop.world.heap.done (n + i) = false :=
    (hs.orderly.strand _).alive (by rw [hphase]; simp)
  have hresume : r.loop.world.step (.resume (.ok 0)) =
      some (({ r.loop.world with ready := l } : World).setPhase (n + i) (.running ownerLoop)) := by
    refine World.step_resume.mpr ⟨_, _, hhead, ?_⟩
    exact World.resume_of_queued (s := { r.loop.world with ready := l }) halive hphase _ _
  have hstep := step_resume (hs.busy hidle) hhead ((hs.strand i).trans hst) hresume
    (hres _ hs.shared ((hs.strand i).trans hst))
  refine ⟨_, hstep, hs.alter (step_orderly hs.orderly hstep) (fun h hh => ?_)
    (update_desk hs.phase i _) (update_desk hs.strand i _) rfl hs.shared
    ⟨hs.states, hs.sources, hs.strands⟩ hs.stopped hs.wheel hs.cell⟩
  exact Function.update_of_ne (hh i) _ _

theorem Shows.finish (hs : r.Shows n d) (hrun : d.phase i = .running ownerLoop) {v : τ.Value}
    (hst : d.strand i = some ⟨τ, token, .body (.ret v), .bottom, spawner⟩) :
    ∃ r', r.step (turnOf (n + i)) = some r' ∧
      r'.Shows n { d with phase := Function.update d.phase i .finished } := by
  have hfinish := World.step_finish.mpr ⟨_, (hs.phase i).trans hrun, rfl⟩
  have hstep := step_run (hs.isRunning hrun) ((hs.strand i).trans hst) (by
    rw [TaskLoop.runBody, hfinish]
    rfl)
  refine ⟨_, hstep, hs.alter (step_orderly hs.orderly hstep) (fun h hh => ?_)
    (update_desk hs.phase i _) hs.strand hs.ready hs.shared ⟨hs.states, hs.sources, hs.strands⟩
    hs.stopped hs.wheel hs.cell⟩
  exact Function.update_of_ne (hh i) _ _

theorem callbacks_of_none (order : List Handle) {src : ℕ}
    (hn : ∀ h a, w.phase h = .waiting a → a.token ≠ some src) :
    order.foldl (World.runCallback src) w = w := by
  induction order with
  | nil => rfl
  | cons h order ih =>
    have hone : World.runCallback src w h = w := by
      rw [World.runCallback]
      cases hp : w.phase h with
      | waiting a => exact if_neg (hn h a hp)
      | _ => rfl
    rw [List.foldl_cons, hone, ih]

theorem Shows.stopSource (hs : r.Shows n d) (hwait : ∀ i a, d.phase i ≠ .waiting a)
    (hst : d.stopped = none) (order : List Handle) :
    r.loop.world.stopSource order 1 = { r.loop.world with
      stopped := Function.update r.loop.world.stopped 1 (some (some ownerLoop)) } := by
  have hstep : r.loop.world.step (.requestStop 1 (some ownerLoop)) = _ :=
    World.step_requestStop.mpr ⟨hs.stopped.trans hst, rfl⟩
  rw [World.stopSource, hstep]
  refine callbacks_of_none order fun h a ha htoken => ?_
  by_cases hh : ∀ i : Fin 3, h ≠ n + i
  · rw [hs.tokens h a hh ha] at htoken
    cases htoken
  · push Not at hh
    obtain ⟨i, rfl⟩ := hh
    exact hwait i a ((hs.phase i).symm.trans ha)

theorem Shows.lose (hs : r.Shows n d) (hrun : d.phase i = .running ownerLoop)
    {f : Shared → Update} {next : Program τ}
    (hst : d.strand i = some ⟨τ, token, .body (.update 0 f next), callers, spawner⟩) {sh : Shared}
    (hf : f d.shared = ⟨sh, [], false⟩) :
    ∃ r', r.step (turnOf (n + i)) = some r' ∧
      r'.Shows n { d with
        shared := sh
        strand := Function.update d.strand i (some ⟨τ, token, .body next, callers, spawner⟩) } := by
  have hstep := step_run (hs.isRunning hrun) ((hs.strand i).trans hst) (by
    rw [TaskLoop.runBody, hs.shared, hf]
    rfl)
  have hshared : Function.update r.loop.shared 0 sh 0 = sh := Function.update_self ..
  exact ⟨_, hstep, hs.alter (step_orderly hs.orderly hstep) (fun _ _ => rfl) hs.phase
    (update_desk hs.strand i _) hs.ready hshared ⟨hs.states, hs.sources, hs.strands⟩ hs.stopped
    hs.wheel hs.cell⟩

theorem Shows.drainTimer (hs : r.Shows n d) :
    ∃ r', r.step (.loop .drainTimer) = some r' ∧
      r'.Shows n { d with ready := d.ready ++ d.wheel.ready, wheel := d.wheel.drainReady.2 } := by
  have hstep : r.step (.loop .drainTimer) = some ⟨{ r.loop with world := { r.loop.world with
      ready := r.loop.world.ready ++ r.loop.world.timer.wheel.ready
      timer := { r.loop.world.timer with
        wheel := r.loop.world.timer.wheel.drainReady.2 } } }, r.ledger⟩ := rfl
  refine ⟨_, hstep, hs.alter (step_orderly hs.orderly hstep) (fun _ _ => rfl) hs.phase hs.strand ?_
    hs.shared ⟨hs.states, hs.sources, hs.strands⟩ hs.stopped ?_ hs.cell⟩
  · dsimp only
    rw [hs.ready, hs.wheel]
  · dsimp only
    rw [hs.wheel]

end Desk

end Recorded
end RainRuntime
