import RainRuntime.Executor

/-!
# What one step of the executor does

The steps of the owner, of a worker and of the watchdog are listed once, by where the thread is.
What concerns one core follows from the steps of its worker, and every loop of an executor runs
as a loop by itself, so that what holds of all runs of a loop holds of each core.
-/

namespace RainRuntime
namespace EventLoop
variable {s t : EventLoop} {op : LoopOp}

theorem step_outside {r : Option (Result Unit)} (hpc : s.pc = .outside r) (hop : op ≠ .run)
    (h : EventLoop.step s op = some t) : t.pc = .outside r := by
  cases step_move h with
  | run => exact absurd rfl hop
  | spawn | world | push | write | requestStop | ring | elapse => exact hpc
  | goOn hpc' => rcases hpc' with hpc' | hpc' <;> exact absurd (hpc.symm.trans hpc') (by simp)
  | _ hpc' => exact absurd (hpc.symm.trans hpc') (by simp)

theorem step_pc_ne (hpc : s.pc ≠ .outside none) (h : EventLoop.step s op = some t) :
    t.pc ≠ .outside none := by
  cases step_move h with
  | resume | spawn | world | push | write | requestStop | ring | elapse => exact hpc
  | _ => simp

theorem step_stopRequested (hop : op ≠ .requestStop) (h : EventLoop.step s op = some t) :
    t.stopRequested = s.stopRequested := by
  cases step_move h with
  | exitDrain | drainCrossCore => rw [drainCrossCore_eq]
  | requestStop => exact absurd rfl hop
  | _ => rfl

end EventLoop

namespace WorkerPc

def Agrees (pc : Pc) : WorkerPc → Prop
  | .unborn | .installing | .initializing | .entering => pc = .outside none
  | .running => pc ≠ .outside none
  | .counting e | .emitting e | .recording e => pc = .outside (some (.error e))
  | .stopping _ | .ringing _ => ∃ e, pc = .outside (some (.error e))
  | .tearingDown | .uninstalling | .ended => ∃ r, pc = .outside (some r)

def installed : WorkerPc → Bool
  | .unborn | .installing | .ended => false
  | _ => true

def counted : WorkerPc → Bool
  | .emitting _ | .recording _ | .stopping _ | .ringing _ | .tearingDown | .uninstalling
  | .ended => true
  | _ => false

def emitted : WorkerPc → Bool
  | .recording _ | .stopping _ | .ringing _ | .tearingDown | .uninstalling | .ended => true
  | _ => false

def fresh : WorkerPc → Bool
  | .unborn | .installing => true
  | _ => false

def recorded : WorkerPc → Bool
  | .stopping _ | .ringing _ | .tearingDown | .uninstalling | .ended => true
  | _ => false

def hooks : WorkerPc → List Hook
  | .unborn | .installing | .initializing => []
  | .uninstalling | .ended => [.threadInit, .teardown]
  | _ => [.threadInit]

end WorkerPc

def Pc.failure : Pc → Option SystemError
  | .outside (some (.error e)) => some e
  | _ => none

namespace Executor
variable {n : ℕ} {s t : Executor n} {i j : Fin n}

/-! ## What a step can do -/

inductive OwnerMove (s : Executor n) : OwnerPc → Executor n → Prop
  | sigpipe : OwnerMove s .sigpipe (s.goTo (.setup 0))
  | sigpipeFailed (e : SystemError) : OwnerMove s .sigpipe (s.goTo (.returning .run (.error e)))
  | setup (i : Fin n) : OwnerMove s (.setup i)
      (({ s with setups := s.setups ++ [(i, .ok ())] } : Executor n).goTo (.setup (i + 1)))
  | setupFailed (i : Fin n) (e : SystemError) : OwnerMove s (.setup i)
      (({ s with setups := s.setups ++ [(i, .error e)] } : Executor n).goTo
        (.stop 0 (.join (.abort e))))
  | setupsDone (i : ℕ) (hi : n ≤ i) : OwnerMove s (.setup i) (s.goTo (.start 0))
  | start (i : Fin n) : OwnerMove s (.start i)
      { (s.setWorker i .installing).goTo (.start (i + 1)) with launched := true }
  | startFailed (i : Fin n) :
      OwnerMove s (.start i) { s with owner := .idle, lastRun := some .threw }
  | started (i : ℕ) (hi : n ≤ i) : OwnerMove s (.start i) (s.goTo (.returning .run (.ok ())))
  | stop (i : Fin n) (next : AfterStop) :
      OwnerMove s (.stop i next) ((s.askToStop i .owner).goTo (.ring i next))
  | stopped (i : ℕ) (hi : n ≤ i) : OwnerMove s (.stop i .stop) (s.goTo (.returning .stop (.ok ())))
  | stoppedJoin (i : ℕ) (hi : n ≤ i) (next : AfterJoin) :
      OwnerMove s (.stop i (.join next)) (s.goTo (.join 0 next))
  | ring (i : Fin n) (next : AfterStop) :
      OwnerMove s (.ring i next) ((s.ringLoop i).goTo (.stop (i + 1) next))
  | graceful (i : Fin n) (deadline : Option ℤ) :
      OwnerMove s (.graceful i deadline) ((s.stopGraceful i).goTo (.gracefulRing i deadline))
  | gracefulDone (i : ℕ) (hi : n ≤ i) : OwnerMove s (.graceful i none)
      (s.goTo (.returning .requestGracefulStop (.ok ())))
  | gracefulWatch (i : ℕ) (hi : n ≤ i) (d : ℤ) :
      OwnerMove s (.graceful i (some d)) (s.goTo (.watch d))
  | gracefulRing (i : Fin n) (deadline : Option ℤ) :
      OwnerMove s (.gracefulRing i deadline) ((s.ringLoop i).goTo (.graceful (i + 1) deadline))
  | watch (d : ℤ) : OwnerMove s (.watch d)
      { s with drained := false, watchdog := .born d, owner := .join 0 (.graceful d) }
  | watchFailed (d : ℤ) : OwnerMove s (.watch d) (s.goTo .idle)
  | join (i : Fin n) (next : AfterJoin) (hi : s.isSettled i = true) :
      OwnerMove s (.join i next) (s.goTo (.join (i + 1) next))
  | joined (i : ℕ) (hi : n ≤ i) (next : AfterJoin) :
      OwnerMove s (.join i next) (s.goTo (.front next))
  | front (next : AfterJoin) : OwnerMove s (.front next) (s.goTo (s.afterFront next))
  | setDrained (d : ℤ) (r : Result Unit) : OwnerMove s (.setDrained d r)
      { s with drained := true, owner := .joinWatchdog d r }
  | joinWatchdog (d : ℤ) (r : Result Unit) (hw : s.watchdog = .ended) :
      OwnerMove s (.joinWatchdog d r)
        { s with watchdog := .absent, owner := .returning (.gracefulStop d) r }
  | returning (c : ExecutorCall) (r : Result Unit) : OwnerMove s (.returning c r)
      { s with
        owner := .idle
        returned := s.returned ++ [(c, r)]
        lastRun := if c = .run then some (.returned r) else s.lastRun }

theorem ownerStep_move {outcome : Result Unit} (h : s.ownerStep outcome = some t) :
    OwnerMove s s.owner t := by
  unfold ownerStep at h
  cases hpc : s.owner with
  | idle => simp [hpc] at h
  | sigpipe =>
    simp only [hpc] at h
    cases outcome <;> cases h
    · exact .sigpipeFailed _
    · exact .sigpipe
  | setup i =>
    simp only [hpc] at h
    split_ifs at h with hi
    · cases outcome <;> cases h
      · exact .setupFailed ⟨i, hi⟩ _
      · exact .setup ⟨i, hi⟩
    · cases h
      exact .setupsDone i (Nat.le_of_not_lt hi)
  | start i =>
    simp only [hpc] at h
    split_ifs at h with hi
    · cases outcome <;> cases h
      · exact .startFailed ⟨i, hi⟩
      · exact .start ⟨i, hi⟩
    · cases h
      exact .started i (Nat.le_of_not_lt hi)
  | stop i next =>
    simp only [hpc] at h
    split_ifs at h with hi
    · cases h
      exact .stop ⟨i, hi⟩ next
    · cases next <;> cases h
      · exact .stopped i (Nat.le_of_not_lt hi)
      · exact .stoppedJoin i (Nat.le_of_not_lt hi) _
  | ring i next =>
    simp only [hpc] at h
    split_ifs at h with hi
    cases h
    exact .ring ⟨i, hi⟩ next
  | graceful i deadline =>
    simp only [hpc] at h
    split_ifs at h with hi
    · cases h
      exact .graceful ⟨i, hi⟩ deadline
    · cases deadline <;> cases h
      · exact .gracefulDone i (Nat.le_of_not_lt hi)
      · exact .gracefulWatch i (Nat.le_of_not_lt hi) _
  | gracefulRing i deadline =>
    simp only [hpc] at h
    split_ifs at h with hi
    cases h
    exact .gracefulRing ⟨i, hi⟩ deadline
  | watch d =>
    simp only [hpc] at h
    cases outcome <;> cases h
    · exact .watchFailed d
    · exact .watch d
  | join i next =>
    simp only [hpc] at h
    split_ifs at h with hi hset <;> cases h
    · exact .join ⟨i, hi⟩ next hset
    · exact .joined i (Nat.le_of_not_lt hi) next
  | front next =>
    simp only [hpc, Option.some.injEq] at h
    exact h ▸ .front next
  | setDrained d r =>
    simp only [hpc, Option.some.injEq] at h
    exact h ▸ .setDrained d r
  | joinWatchdog d r =>
    simp only [hpc] at h
    split at h <;> cases h
    exact .joinWatchdog d r ‹_›
  | returning c r =>
    simp only [hpc, Option.some.injEq] at h
    exact h ▸ .returning c r

inductive WorkerMove (s : Executor n) (i : Fin n) : WorkerPc → Executor n → Prop
  | install : WorkerMove s i .installing { s.setWorker i .initializing with
      gMetrics := Function.update s.gMetrics i true
      registry := s.registry ++ [i] }
  | init : WorkerMove s i .initializing ((s.callHook .threadInit i).setWorker i .entering)
  | enter (l : EventLoop) (hl : (s.loops i).step .run = some l) :
      WorkerMove s i .entering ((s.setLoop i l).setWorker i .running)
  | leave (hpc : (s.loops i).pc = .outside (some (.ok ()))) :
      WorkerMove s i .running (s.setWorker i .tearingDown)
  | fail (e : SystemError) (hpc : (s.loops i).pc = .outside (some (.error e))) :
      WorkerMove s i .running (s.setWorker i (.counting e))
  | count (e : SystemError) :
      WorkerMove s i (.counting e) ((s.countError i).setWorker i (.emitting e))
  | emit (e : SystemError) : WorkerMove s i (.emitting e)
      { s.setWorker i (.recording e) with emitted := s.emitted ++ [(i, e)] }
  | recordFast (e : SystemError) (hp : s.policy = .failFast) : WorkerMove s i (.recording e)
      { s.setWorker i (.stopping 0) with faults := s.faults ++ [e] }
  | recordOnly (e : SystemError) (hp : s.policy = .logOnly) : WorkerMove s i (.recording e)
      { s.setWorker i .tearingDown with faults := s.faults ++ [e] }
  | stop (k : Fin n) : WorkerMove s i (.stopping k)
      ((s.askToStop k .worker).setWorker i (.ringing k))
  | stopped (k : ℕ) (hk : n ≤ k) : WorkerMove s i (.stopping k) (s.setWorker i .tearingDown)
  | ring (k : Fin n) : WorkerMove s i (.ringing k)
      ((s.ringLoop k).setWorker i (.stopping (k + 1)))
  | tearDown : WorkerMove s i .tearingDown ((s.callHook .teardown i).setWorker i .uninstalling)
  | uninstall : WorkerMove s i .uninstalling { s.setWorker i .ended with
      registry := s.registry.filter fun j => j ≠ i
      gMetrics := Function.update s.gMetrics i false }

theorem workerStep_move (h : s.workerStep i = some t) : WorkerMove s i (s.worker i) t := by
  unfold workerStep at h
  cases hpc : s.worker i with
  | unborn | ended => simp [hpc] at h
  | installing =>
    simp only [hpc, Option.some.injEq] at h
    exact h ▸ .install
  | initializing =>
    simp only [hpc, Option.some.injEq] at h
    exact h ▸ .init
  | entering =>
    simp only [hpc] at h
    obtain ⟨l, hl, rfl⟩ := Option.map_eq_some_iff.mp h
    exact .enter l hl
  | running =>
    simp only [hpc] at h
    split at h <;> cases h
    · exact .leave ‹_›
    · exact .fail _ ‹_›
  | counting e =>
    simp only [hpc, Option.some.injEq] at h
    exact h ▸ .count e
  | emitting e =>
    simp only [hpc, Option.some.injEq] at h
    exact h ▸ .emit e
  | recording e =>
    simp only [hpc] at h
    cases hp : s.policy <;> simp only [hp, Option.some.injEq] at h
    · exact h ▸ .recordFast e hp
    · exact h ▸ .recordOnly e hp
  | stopping k =>
    simp only [hpc] at h
    split_ifs at h with hk <;> cases h
    · exact .stop ⟨k, hk⟩
    · exact .stopped k (Nat.le_of_not_lt hk)
  | ringing k =>
    simp only [hpc] at h
    split_ifs at h with hk
    cases h
    exact .ring ⟨k, hk⟩
  | tearingDown =>
    simp only [hpc, Option.some.injEq] at h
    exact h ▸ .tearDown
  | uninstalling =>
    simp only [hpc, Option.some.injEq] at h
    exact h ▸ .uninstall

inductive WatchdogMove (s : Executor n) : WatchdogPc → Executor n → Prop
  | read (d : ℤ) : WatchdogMove s (.born d) { s with watchdog := .reading (wrap64 (s.clock + d)) }
  | early (limit : ℤ) (h : s.clock < limit) :
      WatchdogMove s (.reading limit) { s with watchdog := .looking limit }
  | late (limit : ℤ) (h : limit ≤ s.clock) :
      WatchdogMove s (.reading limit) { s with watchdog := .stopping 0 }
  | drained (limit : ℤ) : WatchdogMove s (.looking limit) { s with watchdog := .ended }
  | pause (limit : ℤ) : WatchdogMove s (.looking limit)
      { s with watchdog := .sleeping limit (s.clock + kWatchdogPause) }
  | wake (limit wake : ℤ) : WatchdogMove s (.sleeping limit wake)
      { s with watchdog := .reading limit }
  | stop (k : Fin n) : WatchdogMove s (.stopping k)
      { s.askToStop k .watchdog with watchdog := .ringing k }
  | stopped (k : ℕ) (hk : n ≤ k) : WatchdogMove s (.stopping k) { s with watchdog := .ended }
  | ring (k : Fin n) : WatchdogMove s (.ringing k)
      { s.ringLoop k with watchdog := .stopping (k + 1) }

theorem watchdogStep_move (h : s.watchdogStep = some t) : WatchdogMove s s.watchdog t := by
  unfold watchdogStep at h
  cases hpc : s.watchdog with
  | absent | ended => simp [hpc] at h
  | born d =>
    simp only [hpc, Option.some.injEq] at h
    exact h ▸ .read d
  | reading limit =>
    simp only [hpc, Option.some.injEq] at h
    subst h
    split_ifs with hlt
    · exact .early limit hlt
    · exact .late limit (Int.not_lt.mp hlt)
  | looking limit =>
    simp only [hpc, Option.some.injEq] at h
    subst h
    split_ifs
    · exact .drained limit
    · exact .pause limit
  | sleeping limit wake =>
    simp only [hpc] at h
    split_ifs at h
    cases h
    exact .wake limit wake
  | stopping k =>
    simp only [hpc] at h
    split_ifs at h with hk <;> cases h
    · exact .stop ⟨k, hk⟩
    · exact .stopped k (Nat.le_of_not_lt hk)
  | ringing k =>
    simp only [hpc] at h
    split_ifs at h with hk
    cases h
    exact .ring ⟨k, hk⟩

inductive CallMove (s : Executor n) : ExecutorCall → Executor n → Prop
  | run (first : s.launched = false) : CallMove s .run
      { s with owner := entry .run, calledAt := s.clock, setups := [], lastRun := none }
  | other (c : ExecutorCall) (hc : c ≠ .run) :
      CallMove s c { s with owner := entry c, calledAt := s.clock }

theorem callStep_move {c : ExecutorCall} (h : s.callStep c = some t) :
    s.owner = .idle ∧ CallMove s c t := by
  unfold callStep at h
  split at h
  case h_2 => cases h
  case h_1 hidle =>
    refine ⟨hidle, ?_⟩
    cases c with
    | run =>
      dsimp only at h
      split_ifs at h with hlaunched
      cases h
      exact .run (Bool.not_eq_true _ ▸ hlaunched)
    | _ =>
      cases h
      exact .other _ (by simp)

theorem nestedStep_eq (h : s.nestedStep i = some t) : s.callsOut i = true ∧
    t = { s with gMetrics := Function.update s.gMetrics i false, nested := s.nested ++ [i] } := by
  unfold nestedStep at h
  split_ifs at h with hcalls
  exact ⟨hcalls, (Option.some.inj h).symm⟩

theorem loopStep_eq {op : LoopOp} (h : s.loopStep i op = some t) :
    s.allows i op = true ∧ ∃ l, (s.loops i).step op = some l ∧
      t = { s.setLoop i l with askers := s.askersAfter i op } := by
  unfold loopStep at h
  split_ifs at h with hallow
  obtain ⟨l, hl, rfl⟩ := Option.map_eq_some_iff.mp h
  exact ⟨hallow, l, hl, rfl⟩

/-! ## One core -/

def coreEmitted (s : Executor n) (j : Fin n) : List SystemError :=
  (s.emitted.filter fun x => x.1 = j).map Prod.snd

def coreHooks (s : Executor n) (j : Fin n) : List Hook :=
  (s.hooks.filter fun x => x.2 = j).map Prod.fst

structure Apart (s t : Executor n) (j : Fin n) : Prop where
  worker : t.worker j = s.worker j
  pc : (t.loops j).pc = (s.loops j).pc
  registry : t.registry.count j = s.registry.count j
  errors : t.loopRunErrors j = s.loopRunErrors j
  emitted : t.coreEmitted j = s.coreEmitted j
  hooks : t.coreHooks j = s.coreHooks j
  metrics : t.gMetrics j = s.gMetrics j
  nested : j ∈ t.nested ↔ j ∈ s.nested
  hooked : t.hooked = s.hooked

structure CoreInv (s : Executor n) (j : Fin n) : Prop where
  agrees : (s.worker j).Agrees (s.loops j).pc
  registry : s.registry.count j = (s.worker j).installed.toNat
  errors : s.loopRunErrors j =
    if (s.worker j).counted ∧ j ∉ s.nested then (s.loops j).pc.failure.toList.length else 0
  emitted : s.coreEmitted j = if (s.worker j).emitted then (s.loops j).pc.failure.toList else []
  hooks : s.coreHooks j = (s.worker j).hooks.filter s.hooked
  metrics : (s.worker j).installed = true → s.gMetrics j = decide (j ∉ s.nested)
  unnested : (s.worker j).fresh = true → j ∉ s.nested

theorem CoreInv.apart (hs : CoreInv s j) (h : Apart s t j) : CoreInv t j := by
  constructor
  · rw [h.worker, h.pc]
    exact hs.agrees
  · rw [h.worker, h.registry]
    exact hs.registry
  · simp only [h.worker, h.pc, h.errors, h.nested]
    exact hs.errors
  · rw [h.worker, h.pc, h.emitted]
    exact hs.emitted
  · rw [h.worker, h.hooks, h.hooked]
    exact hs.hooks
  · simp only [h.worker, h.metrics, h.nested]
    exact hs.metrics
  · rw [h.worker, h.nested]
    exact hs.unnested

/-- What the cores leave behind, apart from where they are. -/
def records (s : Executor n) :=
  (s.registry, s.loopRunErrors, s.emitted, s.hooks, s.gMetrics, s.nested, s.hooked)

theorem apart_of_eq (hworker : t.worker j = s.worker j) (hpc : (t.loops j).pc = (s.loops j).pc)
    (h : t.records = s.records) : Apart s t j := by
  simp only [records, Prod.mk.injEq] at h
  obtain ⟨hregistry, herrors, hemitted, hhooks, hmetrics, hnested, hhooked⟩ := h
  exact ⟨hworker, hpc, by rw [hregistry], by rw [herrors],
    by rw [coreEmitted, coreEmitted, hemitted],
    by rw [coreHooks, coreHooks, hhooks], by rw [hmetrics], by rw [hnested], hhooked⟩

theorem setLoop_pc {l : EventLoop} (hpc : l.pc = (s.loops i).pc) (j : Fin n) :
    ((s.setLoop i l).loops j).pc = (s.loops j).pc := by
  by_cases hj : j = i
  · subst hj
    simp only [setLoop, Function.update_self, hpc]
  · simp only [setLoop, Function.update_of_ne hj]

theorem askToStop_pc (i : Fin n) (a : Asker) (j : Fin n) :
    ((s.askToStop i a).loops j).pc = (s.loops j).pc :=
  setLoop_pc (l := { s.loops i with stopRequested := true }) rfl j

theorem ringLoop_pc (i j : Fin n) : ((s.ringLoop i).loops j).pc = (s.loops j).pc :=
  setLoop_pc (l := { s.loops i with wakeup := (s.loops i).wakeup.write.2 }) rfl j

theorem stopGraceful_eq (s : Executor n) (i : Fin n) : ∃ w,
    s.stopGraceful i = s.setLoop i { s.loops i with world := w } := by
  unfold stopGraceful
  split
  · exact ⟨_, rfl⟩
  · refine ⟨(s.loops i).world, ?_⟩
    rw [setLoop]
    exact (congrArg (fun l => { s with loops := l }) (Function.update_eq_self i s.loops)).symm

theorem setWorker_of_ne {pc : WorkerPc} (hj : j ≠ i) : (s.setWorker i pc).worker j = s.worker j :=
  Function.update_of_ne hj ..

theorem OwnerMove.apart {pc : OwnerPc} (h : OwnerMove s pc t) (hj : pc ≠ .start j) :
    Apart s t j := by
  cases h with
  | start i =>
    have hne : j ≠ i := fun he => hj (by rw [he])
    exact apart_of_eq (setWorker_of_ne hne) rfl rfl
  | stop i next => exact apart_of_eq rfl (askToStop_pc i .owner j) rfl
  | ring i next | gracefulRing i next => exact apart_of_eq rfl (ringLoop_pc i j) rfl
  | graceful i deadline =>
    obtain ⟨w, hw⟩ := stopGraceful_eq s i
    rw [hw]
    exact apart_of_eq rfl (setLoop_pc (l := { s.loops i with world := w }) rfl j) rfl
  | _ => exact apart_of_eq rfl rfl rfl

theorem WatchdogMove.apart {pc : WatchdogPc} (h : WatchdogMove s pc t) (j : Fin n) :
    Apart s t j := by
  cases h with
  | stop k => exact apart_of_eq rfl (askToStop_pc k .watchdog j) rfl
  | ring k => exact apart_of_eq rfl (ringLoop_pc k j) rfl
  | _ => exact apart_of_eq rfl rfl rfl

theorem coreHooks_callHook (h : Hook) (i j : Fin n) :
    (s.callHook h i).coreHooks j =
      s.coreHooks j ++ if j = i then [h].filter s.hooked else [] := by
  by_cases hset : s.hooked h = true <;> by_cases hj : j = i
  · simp [callHook, coreHooks, hset, hj]
  · simp [callHook, coreHooks, hset, hj, Ne.symm hj]
  · simp [callHook, coreHooks, hset, hj]
  · simp [callHook, coreHooks, hset, hj]

theorem callHook_apart (h : Hook) (hj : j ≠ i) (pc : WorkerPc) :
    Apart s ((s.callHook h i).setWorker i pc) j := by
  refine ⟨setWorker_of_ne hj, rfl, rfl, rfl, rfl, ?_, rfl, Iff.rfl, rfl⟩
  exact (coreHooks_callHook h i j).trans (by rw [if_neg hj, List.append_nil])

theorem WorkerMove.apart {pc : WorkerPc} (h : WorkerMove s i pc t) (hj : j ≠ i) :
    Apart s t j := by
  cases h with
  | install =>
    refine ⟨setWorker_of_ne hj, rfl, ?_, rfl, rfl, rfl, Function.update_of_ne hj .., Iff.rfl, rfl⟩
    exact (List.count_append ..).trans (by simp [Ne.symm hj])
  | init | tearDown => exact callHook_apart _ hj _
  | enter l hl =>
    exact apart_of_eq (setWorker_of_ne hj)
      (congrArg EventLoop.pc (Function.update_of_ne hj ..)) rfl
  | count e =>
    exact ⟨setWorker_of_ne hj, rfl, rfl, Function.update_of_ne hj .., rfl, rfl, rfl, Iff.rfl, rfl⟩
  | emit e =>
    refine ⟨setWorker_of_ne hj, rfl, rfl, rfl, ?_, rfl, rfl, Iff.rfl, rfl⟩
    simp [coreEmitted, Ne.symm hj]
  | stop k =>
    exact apart_of_eq (setWorker_of_ne hj) (askToStop_pc k .worker j) rfl
  | ring k => exact apart_of_eq (setWorker_of_ne hj) (ringLoop_pc k j) rfl
  | uninstall =>
    refine ⟨setWorker_of_ne hj, rfl, ?_, rfl, rfl, rfl, Function.update_of_ne hj .., Iff.rfl, rfl⟩
    exact List.count_filter (by simp [hj])
  | _ => exact apart_of_eq (setWorker_of_ne hj) rfl rfl

theorem CoreInv.own {pc pc' : WorkerPc} (hs : CoreInv s i) (hpc : s.worker i = pc)
    (hworker : t.worker i = pc') (hnested : t.nested = s.nested)
    (hagrees : pc.Agrees (s.loops i).pc → pc'.Agrees (t.loops i).pc)
    (hregistry : s.registry.count i = pc.installed.toNat →
      t.registry.count i = pc'.installed.toNat)
    (herrors : s.loopRunErrors i =
        (if pc.counted ∧ i ∉ s.nested then (s.loops i).pc.failure.toList.length else 0) →
      t.loopRunErrors i =
        if pc'.counted ∧ i ∉ s.nested then (t.loops i).pc.failure.toList.length else 0)
    (hemitted : s.coreEmitted i = (if pc.emitted then (s.loops i).pc.failure.toList else []) →
      t.coreEmitted i = if pc'.emitted then (t.loops i).pc.failure.toList else [])
    (hhooks : s.coreHooks i = pc.hooks.filter s.hooked →
      t.coreHooks i = pc'.hooks.filter t.hooked)
    (hmetrics : pc'.installed = true →
      t.gMetrics i = s.gMetrics i ∧ pc.installed = true ∨ t.gMetrics i = true ∧ pc.fresh = true)
    (hfresh : pc'.fresh = true → pc.fresh = true) : CoreInv t i := by
  subst hpc
  constructor
  · rw [hworker]
    exact hagrees hs.agrees
  · rw [hworker]
    exact hregistry hs.registry
  · rw [hworker, hnested]
    exact herrors hs.errors
  · rw [hworker]
    exact hemitted hs.emitted
  · rw [hworker]
    exact hhooks hs.hooks
  · rw [hworker, hnested]
    intro hinst
    rcases hmetrics hinst with ⟨hsame, hold⟩ | ⟨htrue, hold⟩
    · rw [hsame, hs.metrics hold]
    · rw [htrue, decide_eq_true (hs.unnested hold)]
  · rw [hworker, hnested]
    exact fun hf => hs.unnested (hfresh hf)

theorem setWorker_self (s : Executor n) (i : Fin n) (pc : WorkerPc) :
    (s.setWorker i pc).worker i = pc :=
  Function.update_self ..

theorem CoreInv.callHook {pc pc' : WorkerPc} (hs : CoreInv s i) (hpc : s.worker i = pc) (h : Hook)
    (hagrees : pc.Agrees (s.loops i).pc → pc'.Agrees (s.loops i).pc)
    (hinstalled : pc.installed = true ∧ pc'.installed = true) (hcounted : pc'.counted = pc.counted)
    (hemitted : pc'.emitted = pc.emitted) (hhooks : pc'.hooks = pc.hooks ++ [h])
    (hfresh : pc'.fresh = false) : CoreInv ((s.callHook h i).setWorker i pc') i := by
  refine hs.own hpc (setWorker_self ..) rfl hagrees ?_ ?_ ?_ (fun hh => ?_)
    (fun _ => Or.inl ⟨rfl, hinstalled.1⟩) ?_
  · rw [hinstalled.1, hinstalled.2]
    exact id
  · rw [hcounted]
    exact id
  · rw [hemitted]
    exact id
  · refine (coreHooks_callHook h i i).trans ?_
    rw [if_pos rfl, hh, hhooks, List.filter_append]
    rfl
  · rw [hfresh]
    exact fun hf => nomatch hf

theorem WorkerMove.core {pc : WorkerPc} (h : WorkerMove s i pc t) (hpc : s.worker i = pc)
    (hs : CoreInv s i) : CoreInv t i := by
  have hagrees := hs.agrees
  rw [hpc] at hagrees
  cases h with
  | install =>
    refine hs.own hpc (setWorker_self ..) rfl id (fun hr => ?_) id id id
      (fun _ => Or.inr ⟨Function.update_self .., rfl⟩) (absurd · Bool.false_ne_true)
    exact (List.count_append ..).trans (by rw [hr]; simp [WorkerPc.installed])
  | init => exact hs.callHook hpc .threadInit id ⟨rfl, rfl⟩ rfl rfl rfl rfl
  | enter l hl =>
    have hpc' : l.pc = .head := by
      rw [EventLoop.step, show (s.loops i).pc = .outside none from hagrees,
        Option.some.injEq] at hl
      rw [← hl]
    have hloop : ((s.setLoop i l).setWorker i .running).loops i = l := Function.update_self ..
    refine hs.own hpc (setWorker_self ..) rfl (fun _ => ?_) id id id id
      (fun _ => Or.inl ⟨rfl, rfl⟩) (absurd · Bool.false_ne_true)
    rw [hloop]
    simp [WorkerPc.Agrees, hpc']
  | leave hout =>
    refine hs.own hpc (setWorker_self ..) rfl (fun _ => ⟨_, hout⟩) id (fun he => ?_) (fun he => ?_)
      id (fun _ => Or.inl ⟨rfl, rfl⟩) (absurd · Bool.false_ne_true)
    · exact he.trans (by simp [WorkerPc.counted, setWorker, hout, Pc.failure])
    · exact he.trans (by simp [WorkerPc.emitted, setWorker, hout, Pc.failure])
  | fail e hout =>
    exact hs.own hpc (setWorker_self ..) rfl (fun _ => hout) id id id id
      (fun _ => Or.inl ⟨rfl, rfl⟩) (absurd · Bool.false_ne_true)
  | count e =>
    refine hs.own hpc (setWorker_self ..) rfl id id (fun he => ?_) id id
      (fun _ => Or.inl ⟨rfl, rfl⟩) (absurd · Bool.false_ne_true)
    have hmetrics := hs.metrics (by rw [hpc]; rfl)
    refine (Function.update_self ..).trans ?_
    rw [he, hmetrics]
    by_cases hn : i ∈ s.nested
    · simp [hn, WorkerPc.counted]
    · simp [hn, WorkerPc.counted, setWorker, countError, show (s.loops i).pc = _ from hagrees,
        Pc.failure]
  | emit e =>
    refine hs.own hpc (setWorker_self ..) rfl id id id (fun he => ?_) id
      (fun _ => Or.inl ⟨rfl, rfl⟩) (absurd · Bool.false_ne_true)
    simp only [coreEmitted, List.filter_append, List.map_append] at he ⊢
    rw [he]
    simp [WorkerPc.emitted, setWorker, show (s.loops i).pc = _ from hagrees, Pc.failure]
  | recordFast e hp =>
    exact hs.own hpc (setWorker_self ..) rfl (fun h => ⟨e, h⟩) id id id id
      (fun _ => Or.inl ⟨rfl, rfl⟩) (absurd · Bool.false_ne_true)
  | recordOnly e hp =>
    exact hs.own hpc (setWorker_self ..) rfl (fun h => ⟨_, h⟩) id id id id
      (fun _ => Or.inl ⟨rfl, rfl⟩) (absurd · Bool.false_ne_true)
  | stop k =>
    have hsame : (((s.askToStop k .worker).setWorker i (.ringing k)).loops i).pc =
        (s.loops i).pc := askToStop_pc k .worker i
    refine hs.own hpc (setWorker_self ..) rfl ?_ id ?_ ?_ id
      (fun _ => Or.inl ⟨rfl, rfl⟩) (absurd · Bool.false_ne_true) <;> rw [hsame] <;> exact id
  | stopped k hk =>
    refine hs.own hpc (setWorker_self ..) rfl ?_ id id id id
      (fun _ => Or.inl ⟨rfl, rfl⟩) (absurd · Bool.false_ne_true)
    rintro ⟨e, he⟩
    exact ⟨_, he⟩
  | ring k =>
    have hsame : (((s.ringLoop k).setWorker i (.stopping (k + 1))).loops i).pc =
        (s.loops i).pc := ringLoop_pc k i
    refine hs.own hpc (setWorker_self ..) rfl ?_ id ?_ ?_ id
      (fun _ => Or.inl ⟨rfl, rfl⟩) (absurd · Bool.false_ne_true) <;> rw [hsame] <;> exact id
  | tearDown => exact hs.callHook hpc .teardown id ⟨rfl, rfl⟩ rfl rfl rfl rfl
  | uninstall =>
    refine hs.own hpc (setWorker_self ..) rfl id (fun _ => ?_) id id id (absurd · Bool.false_ne_true)
      (absurd · Bool.false_ne_true)
    exact List.count_eq_zero.mpr (by simp)

theorem callsOut_pc (h : s.callsOut i = true) :
    (s.worker i).counted = false ∧ (s.worker i).fresh = false := by
  unfold callsOut at h
  split at h
  case h_1 hw => simp [hw, WorkerPc.counted, WorkerPc.fresh]
  case h_2 hw => simp [hw, WorkerPc.counted, WorkerPc.fresh]
  case h_3 => cases h

theorem CoreInv.nested (hs : CoreInv s j) (h : s.nestedStep i = some t) : CoreInv t j := by
  obtain ⟨hcalls, rfl⟩ := nestedStep_eq h
  by_cases hj : j = i
  · subst hj
    obtain ⟨hcounted, hfresh⟩ := callsOut_pc hcalls
    refine ⟨hs.agrees, hs.registry, ?_, hs.emitted, hs.hooks, fun _ => ?_, fun hf => ?_⟩
    · have herrors := hs.errors
      rw [hcounted] at herrors
      exact herrors.trans (by simp)
    · exact (Function.update_self ..).trans (by simp)
    · rw [show (s.worker j).fresh = true from hf] at hfresh
      cases hfresh
  · refine hs.apart ⟨rfl, rfl, rfl, rfl, rfl, rfl, Function.update_of_ne hj .., ?_, rfl⟩
    simp [hj]

theorem allows_run {op : LoopOp} (h : s.allows i op = true) : op ≠ .run := by
  rintro rfl
  cases h

theorem CoreInv.loop {op : LoopOp} (hs : CoreInv s j) (h : s.loopStep i op = some t) :
    CoreInv t j := by
  obtain ⟨hallow, l, hl, rfl⟩ := loopStep_eq h
  have hop := allows_run hallow
  by_cases hj : j = i
  · subst hj
    have hloop : (s.setLoop j l).loops j = l := Function.update_self ..
    by_cases hout : ∃ r, (s.loops j).pc = .outside r
    · obtain ⟨r, hr⟩ := hout
      refine hs.apart (apart_of_eq rfl ?_ rfl)
      change ((s.setLoop j l).loops j).pc = _
      rw [hloop, hr]
      exact EventLoop.step_outside hr hop hl
    · have hrunning : s.worker j = .running := by
        have hagrees := hs.agrees
        cases hw : s.worker j with
        | running => rfl
        | unborn | installing | initializing | entering | counting e | emitting e | recording e =>
          rw [hw] at hagrees
          exact absurd ⟨_, hagrees⟩ hout
        | stopping k | ringing k | tearingDown | uninstalling | ended =>
          rw [hw] at hagrees
          obtain ⟨r, hr⟩ := hagrees
          exact absurd ⟨_, hr⟩ hout
      refine hs.own hrunning hrunning rfl (fun hne => ?_) id id id id
        (fun _ => Or.inl ⟨rfl, rfl⟩) (fun h => nomatch h)
      change ((s.setLoop j l).loops j).pc ≠ _
      rw [hloop]
      exact EventLoop.step_pc_ne hne hl
  · exact hs.apart (apart_of_eq rfl (congrArg EventLoop.pc (Function.update_of_ne hj ..))
      rfl)

/-! ## Every loop runs as a loop by itself -/

inductive LoopMove (s : Executor n) (j : Fin n) (l : EventLoop) : Prop
  | stay (h : l = s.loops j)
  | step (op : LoopOp) (h : (s.loops j).step op = some l)
      (hrun : op = .run → s.worker j = .entering)
      (hspawn : ∀ k, op = .spawn k → ∀ r, (s.loops j).pc ≠ .outside (some r))

theorem loopMove_update {l : EventLoop} (op : LoopOp) (h : (s.loops i).step op = some l)
    (hrun : op = .run → s.worker i = .entering)
    (hspawn : ∀ k, op = .spawn k → ∀ r, (s.loops i).pc ≠ .outside (some r)) (j : Fin n) :
    LoopMove s j (Function.update s.loops i l j) := by
  by_cases hj : j = i
  · subst hj
    rw [Function.update_self]
    exact .step op h hrun hspawn
  · rw [Function.update_of_ne hj]
    exact .stay rfl

theorem askToStop_move (i : Fin n) (a : Asker) (j : Fin n) :
    LoopMove s j ((s.askToStop i a).loops j) :=
  loopMove_update .requestStop rfl (by simp) (by simp) j

theorem ringLoop_move (i j : Fin n) : LoopMove s j ((s.ringLoop i).loops j) :=
  loopMove_update .ring rfl (by simp) (by simp) j

theorem stopGraceful_move (i j : Fin n) : LoopMove s j ((s.stopGraceful i).loops j) := by
  unfold stopGraceful
  split
  case h_1 w hw =>
    refine loopMove_update (.world (.requestStop gracefulSource none)) ?_ (by simp)
      (by simp) j
    simp only [EventLoop.step, EventLoop.allows, if_true, EventLoop.withWorld, hw, Option.map_some]
  case h_2 => exact .stay rfl

theorem OwnerMove.loopMove {pc : OwnerPc} (h : OwnerMove s pc t) (j : Fin n) :
    LoopMove s j (t.loops j) := by
  cases h with
  | stop i next => exact askToStop_move i .owner j
  | ring i next | gracefulRing i deadline => exact ringLoop_move i j
  | graceful i deadline => exact stopGraceful_move i j
  | _ => exact .stay rfl

theorem WorkerMove.loopMove {pc : WorkerPc} (h : WorkerMove s i pc t) (hpc : s.worker i = pc)
    (j : Fin n) : LoopMove s j (t.loops j) := by
  cases h with
  | enter l hl => exact loopMove_update _ hl (fun _ => hpc) (by simp) j
  | stop k => exact askToStop_move k .worker j
  | ring k => exact ringLoop_move k j
  | _ => exact .stay rfl

theorem WatchdogMove.loopMove {pc : WatchdogPc} (h : WatchdogMove s pc t) (j : Fin n) :
    LoopMove s j (t.loops j) := by
  cases h with
  | stop k => exact askToStop_move k .watchdog j
  | ring k => exact ringLoop_move k j
  | _ => exact .stay rfl

theorem step_loopMove {op : ExecutorOp n} (h : s.step op = some t) (j : Fin n) :
    LoopMove s j (t.loops j) := by
  cases op with
  | call c =>
    obtain ⟨-, hmove⟩ := callStep_move h
    cases hmove <;> exact .stay rfl
  | owner outcome => exact (ownerStep_move h).loopMove j
  | worker i => exact (workerStep_move h).loopMove rfl j
  | nested i =>
    obtain ⟨-, rfl⟩ := nestedStep_eq h
    exact .stay rfl
  | watchdog => exact (watchdogStep_move h).loopMove j
  | loop i op =>
    obtain ⟨hallow, l, hl, rfl⟩ := loopStep_eq h
    refine loopMove_update _ hl (fun he => absurd he (allows_run hallow)) ?_ j
    rintro k rfl r hr
    rw [allows, hr] at hallow
    cases hallow
  | elapse ns =>
    rw [step, Option.some.injEq] at h
    subst h
    exact .step (.elapse ns) rfl (by simp) (by simp)

theorem step_pc_eq {op : ExecutorOp n} (h : s.step op = some t) (hs : CoreInv s j)
    (hrec : (s.worker j).recorded = true) : (t.loops j).pc = (s.loops j).pc := by
  cases step_loopMove h j with
  | stay hl => rw [hl]
  | step lop hl hrun _ =>
    obtain ⟨r, hr⟩ : ∃ r, (s.loops j).pc = .outside r := by
      have hagrees := hs.agrees
      cases hw : s.worker j <;> rw [hw] at hrec hagrees <;> cases hrec
      all_goals
        obtain ⟨r, hr⟩ := hagrees
        exact ⟨_, hr⟩
    rw [hr]
    refine EventLoop.step_outside hr (fun he => ?_) hl
    rw [hrun he] at hrec
    cases hrec

theorem step_stopRequested {op : ExecutorOp n} (h : s.step op = some t)
    (hs : (s.loops j).stopRequested = true) : (t.loops j).stopRequested = true := by
  cases step_loopMove h j with
  | stay hl => rw [hl, hs]
  | step lop hl _ _ =>
    by_cases hop : lop = .requestStop
    · subst hop
      rw [EventLoop.step, Option.some.injEq] at hl
      rw [← hl]
    · rw [EventLoop.step_stopRequested hop hl, hs]

theorem step_worker {op : ExecutorOp n} (h : s.step op = some t) (j : Fin n) :
    t.worker j = s.worker j ∨ (op = .worker j ∧ WorkerMove s j (s.worker j) t) ∨
      ((∃ outcome, op = .owner outcome) ∧ s.owner = .start j ∧ t.worker j = .installing) := by
  cases op with
  | call c =>
    obtain ⟨-, hmove⟩ := callStep_move h
    cases hmove <;> exact Or.inl rfl
  | owner outcome =>
    have hmove := ownerStep_move h
    by_cases hj : s.owner = .start j
    · generalize hpc : s.owner = pc at hmove
      rw [hpc] at hj
      cases hmove with
      | start i =>
        obtain rfl : i = j := Fin.ext (OwnerPc.start.inj hj)
        exact Or.inr (Or.inr ⟨⟨outcome, rfl⟩, rfl, setWorker_self s i .installing⟩)
      | startFailed i => exact Or.inl rfl
      | started i hi =>
        have hlt := j.isLt
        rw [← OwnerPc.start.inj hj] at hlt
        omega
      | _ => cases hj
    · exact Or.inl (hmove.apart hj).worker
  | worker i =>
    have hmove := workerStep_move h
    by_cases hj : j = i
    · subst hj
      exact Or.inr (Or.inl ⟨rfl, hmove⟩)
    · exact Or.inl (hmove.apart hj).worker
  | nested i =>
    obtain ⟨-, rfl⟩ := nestedStep_eq h
    exact Or.inl rfl
  | watchdog => exact Or.inl ((watchdogStep_move h).apart j).worker
  | loop i op =>
    obtain ⟨-, l, -, rfl⟩ := loopStep_eq h
    exact Or.inl rfl
  | elapse ns =>
    rw [step, Option.some.injEq] at h
    subst h
    exact Or.inl rfl

theorem step_faults {op : ExecutorOp n} (h : s.step op = some t) :
    t.faults = s.faults ∨ ∃ i e, op = .worker i ∧ s.worker i = .recording e := by
  cases op with
  | call c =>
    obtain ⟨-, hmove⟩ := callStep_move h
    cases hmove <;> exact Or.inl rfl
  | owner outcome =>
    have hmove := ownerStep_move h
    generalize s.owner = pc at hmove
    cases hmove with
    | graceful i deadline =>
      obtain ⟨w, hw⟩ := stopGraceful_eq s i
      rw [hw]
      exact Or.inl rfl
    | _ => exact Or.inl rfl
  | worker i =>
    have hmove := workerStep_move h
    generalize hpc : s.worker i = pc at hmove
    cases hmove with
    | recordFast e hp | recordOnly e hp => exact Or.inr ⟨i, e, rfl, hpc⟩
    | _ => exact Or.inl rfl
  | nested i =>
    obtain ⟨-, rfl⟩ := nestedStep_eq h
    exact Or.inl rfl
  | watchdog =>
    have hmove := watchdogStep_move h
    generalize s.watchdog = pc at hmove
    cases hmove <;> exact Or.inl rfl
  | loop i op =>
    obtain ⟨-, l, -, rfl⟩ := loopStep_eq h
    exact Or.inl rfl
  | elapse ns =>
    rw [step, Option.some.injEq] at h
    subst h
    exact Or.inl rfl

variable {now : ℤ} {policy : FaultPolicy} {hooked : Hook → Bool} {m : Fin n → Heap}
  {k : Fin n → Kernel} {ops : List (ExecutorOp n)}

theorem Reaches.loop (h : Reaches now policy hooked m k ops s) (j : Fin n) :
    ∃ lops, EventLoop.Reaches now (m j) (k j) lops (s.loops j) := by
  have hcreate : ∃ lops, EventLoop.Reaches now (m j) (k j) lops
      ((create now policy hooked m k).loops j) := ⟨[], rfl⟩
  refine Transition.invariant
    (fun u : Executor n => ∃ lops, EventLoop.Reaches now (m j) (k j) lops (u.loops j)) ?_ hcreate h
  rintro u op v hstep ⟨lops, hu⟩
  cases step_loopMove hstep j with
  | stay hl => exact ⟨lops, hl ▸ hu⟩
  | step lop hl _ _ => exact ⟨lops ++ [lop], Transition.run_concat_eq_some.mpr ⟨_, hu, hl⟩⟩

/-- A loop that came out of `run()` without having been stopped owns no task. -/
theorem Reaches.leavesEmpty (h : Reaches now policy hooked m k ops s) (j : Fin n) :
    (s.loops j).LeavesEmpty := by
  refine Transition.invariant (s := create now policy hooked m k)
    (fun u : Executor n => (u.loops j).LeavesEmpty) ?_ trivial h
  intro u op v hstep hu
  cases step_loopMove hstep j with
  | stay hl => exact hl ▸ hu
  | step lop hl _ hspawn =>
    by_cases hout : (u.loops j).pc = .outside none ∧ ∃ c, lop = .spawn c
    · obtain ⟨hpc, c, rfl⟩ := hout
      obtain ⟨-, hv⟩ := EventLoop.step_spawn_eq hl
      rw [hv, EventLoop.LeavesEmpty, hpc]
      trivial
    · refine hu.step (fun c hc => ?_) hl
      subst hc
      generalize v.loops j = l at hl
      cases EventLoop.step_move hl with
      | spawn hpc =>
        rcases hpc with ⟨_ | r, hr⟩ | hr
        · exact absurd ⟨hr, c, rfl⟩ hout
        · exact absurd hr (hspawn c rfl r)
        · rw [EventLoop.isResuming, hr]

/-- A task that a loop has taken over is there or completed ever after. -/
theorem run_place {u : Executor n} {c : Handle} (h : Transition.run step u ops = some s)
    (hc : c ∈ (u.loops j).ownedTasks ∨ c ∈ (u.loops j).completed) :
    c ∈ (s.loops j).ownedTasks ∨ c ∈ (s.loops j).completed := by
  refine Transition.invariant
    (fun v : Executor n => c ∈ (v.loops j).ownedTasks ∨ c ∈ (v.loops j).completed) ?_ hc h
  intro v op w hstep hv
  cases step_loopMove hstep j with
  | stay hl => exact hl ▸ hv
  | step lop hl _ _ => exact EventLoop.step_place hl hv

end Executor
end RainRuntime
