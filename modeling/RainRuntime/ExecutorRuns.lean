import RainRuntime.ExecutorSteps

/-!
# Runs of the executor

`join()` reports the first fault and only then, when nobody is left running; with `FailFast` all
loops have been told to stop by that time. A graceful stop that ends before its deadline has let
every task of every loop finish. Workers are started all or none.
-/

namespace RainRuntime
namespace OwnerPc

def aborting : OwnerPc → Option SystemError
  | .stop _ (.join (.abort e)) | .ring _ (.join (.abort e)) => some e
  | .join _ (.abort e) | .front (.abort e) => some e
  | _ => none

def launching : OwnerPc → Bool
  | .sigpipe | .setup _ | .start _ | .returning .run _ => true
  | pc => pc.aborting.isSome

end OwnerPc

namespace Executor
variable {n : ℕ} {s t : Executor n} {i j : Fin n} {op : ExecutorOp n}

/-! ## Faults -/

def reported (s : Executor n) (j : Fin n) : Option SystemError :=
  if (s.worker j).recorded then (s.loops j).pc.failure else none

theorem perm_filterMap_concat {α β : Type*} {l : List α} {f g : α → Option β} {a : α} {b : β}
    (hl : l.Nodup) (ha : a ∈ l) (hf : f a = none) (hg : g a = some b)
    (hne : ∀ c, c ≠ a → g c = f c) : (l.filterMap f ++ [b]).Perm (l.filterMap g) := by
  obtain ⟨l₁, l₂, rfl⟩ := List.append_of_mem ha
  rw [List.nodup_middle, List.nodup_cons, List.mem_append, not_or] at hl
  have h₁ : l₁.filterMap g = l₁.filterMap f :=
    List.filterMap_congr fun c hc => hne c fun he => hl.1.1 (he ▸ hc)
  have h₂ : l₂.filterMap g = l₂.filterMap f :=
    List.filterMap_congr fun c hc => hne c fun he => hl.1.2 (he ▸ hc)
  simp only [List.filterMap_append, List.filterMap_cons, hf, hg, h₁, h₂]
  rw [List.append_assoc]
  exact (List.perm_append_singleton b (l₂.filterMap f)).append_left _

def FaultInv (s : Executor n) : Prop := s.faults.Perm ((List.finRange n).filterMap s.reported)

theorem FaultInv.congr (hs : FaultInv s) (hf : t.faults = s.faults)
    (hr : ∀ j, t.reported j = s.reported j) : FaultInv t := by
  rw [FaultInv, hf, List.filterMap_congr fun j _ => hr j]
  exact hs

theorem reported_apart (h : Apart s t j) : t.reported j = s.reported j := by
  rw [reported, reported, h.worker, h.pc]

theorem FaultInv.record {pc : WorkerPc} {e : SystemError} (hs : FaultInv s) (hcore : CoreInv s i)
    (hpc : s.worker i = .recording e) (hrec : pc.recorded = true) :
    FaultInv { s.setWorker i pc with faults := s.faults ++ [e] } := by
  have hagrees := hcore.agrees
  rw [hpc] at hagrees
  refine (hs.append_right [e]).trans
    (perm_filterMap_concat (List.nodup_finRange n) (List.mem_finRange i) ?_ ?_ ?_)
  · rw [reported, hpc]
    rfl
  · change (if (Function.update s.worker i pc i).recorded then (s.loops i).pc.failure else none) = _
    rw [Function.update_self, if_pos hrec, show (s.loops i).pc = _ from hagrees, Pc.failure]
  · intro j hj
    change (if (Function.update s.worker i pc j).recorded then (s.loops j).pc.failure else none) = _
    rw [Function.update_of_ne hj, reported]

theorem FaultInv.worker {pc : WorkerPc} (hs : FaultInv s) (hcore : CoreInv s i)
    (hpc : s.worker i = pc) (h : WorkerMove s i pc t) : FaultInv t := by
  have hquiet : t.faults = s.faults → t.reported i = s.reported i → FaultInv t := by
    intro hf hr
    refine hs.congr hf fun j => ?_
    by_cases hj : j = i
    · rw [hj, hr]
    · exact reported_apart (h.apart hj)
  cases h with
  | recordFast e hp => exact hs.record hcore hpc rfl
  | recordOnly e hp => exact hs.record hcore hpc rfl
  | leave hout =>
    refine hquiet rfl ?_
    rw [reported, reported, hpc, setWorker_self]
    change Pc.failure (s.loops i).pc = none
    rw [hout]
    rfl
  | stop k =>
    refine hquiet rfl ?_
    rw [reported, reported, hpc, setWorker_self]
    exact congrArg Pc.failure (askToStop_pc k .worker i)
  | ring k =>
    refine hquiet rfl ?_
    rw [reported, reported, hpc, setWorker_self]
    exact congrArg Pc.failure (ringLoop_pc k i)
  | enter l hl | install | init | fail | count | emit =>
    refine hquiet rfl ?_
    rw [reported, reported, hpc]
    simp [setWorker, WorkerPc.recorded]
  | stopped k hk | tearDown | uninstall =>
    refine hquiet rfl ?_
    rw [reported, reported, hpc]
    simp [setWorker, callHook, WorkerPc.recorded]

def StartsUnborn (s : Executor n) : Prop := ∀ j : Fin n, s.owner = .start j → s.worker j = .unborn

theorem FaultInv.step (hs : FaultInv s) (hcores : ∀ j, CoreInv s j) (hunborn : StartsUnborn s)
    (h : s.step op = some t) : FaultInv t := by
  by_cases hop : ∃ i, op = .worker i
  · obtain ⟨i, rfl⟩ := hop
    exact hs.worker (hcores i) rfl (workerStep_move h)
  · refine hs.congr ((step_faults h).resolve_right ?_) fun j => ?_
    · rintro ⟨i, -, rfl, -⟩
      exact hop ⟨i, rfl⟩
    · rcases step_worker h j with hw | ⟨rfl, -⟩ | ⟨-, hstart, hw⟩
      · rw [reported, reported, hw]
        by_cases hrec : (s.worker j).recorded = true
        · rw [step_pc_eq h (hcores j) hrec]
        · rw [if_neg hrec, if_neg hrec]
      · exact absurd ⟨j, rfl⟩ hop
      · rw [reported, reported, hw, hunborn j hstart]
        rfl

theorem cores_step (hs : ∀ j, CoreInv s j) (hunborn : StartsUnborn s) (h : s.step op = some t)
    (j : Fin n) : CoreInv t j := by
  cases op with
  | call c =>
    obtain ⟨-, hmove⟩ := callStep_move h
    cases hmove <;> exact (hs j).apart (apart_of_eq rfl rfl rfl)
  | owner outcome =>
    have hmove := ownerStep_move h
    by_cases hj : s.owner = .start j
    · generalize hpc : s.owner = pc at hmove
      rw [hpc] at hj
      cases hmove with
      | start i =>
        obtain rfl : i = j := Fin.ext (OwnerPc.start.inj hj)
        exact (hs i).own (hunborn i hpc) (setWorker_self ..) rfl id id id id id
          (fun h => nomatch h) (fun _ => rfl)
      | startFailed i => exact (hs j).apart (apart_of_eq rfl rfl rfl)
      | started i hi =>
        have hlt := j.isLt
        rw [← OwnerPc.start.inj hj] at hlt
        omega
      | _ => cases hj
    · exact (hs j).apart (hmove.apart hj)
  | worker i =>
    have hmove := workerStep_move h
    by_cases hj : j = i
    · subst hj
      exact hmove.core rfl (hs j)
    · exact (hs j).apart (hmove.apart hj)
  | nested i => exact (hs j).nested h
  | watchdog => exact (hs j).apart ((watchdogStep_move h).apart j)
  | loop i op => exact (hs j).loop h
  | elapse ns =>
    rw [step, Option.some.injEq] at h
    subst h
    exact (hs j).apart (apart_of_eq rfl rfl rfl)

/-! ## Requests to stop -/

/-- With `FailFast`, a worker that failed has told every loop to stop before it goes on. -/
def StopsFor (s : Executor n) (i : Fin n) : WorkerPc → Prop
  | .stopping k => ∀ j : Fin n, j.val < k → (s.loops j).stopRequested = true
  | .ringing k => ∀ j : Fin n, j.val ≤ k → (s.loops j).stopRequested = true
  | .tearingDown | .uninstalling | .ended =>
    s.policy = .failFast → (s.loops i).pc.failure ≠ none → ∀ j, (s.loops j).stopRequested = true
  | _ => True

def StopInv (s : Executor n) (i : Fin n) : Prop := StopsFor s i (s.worker i)

theorem StopInv.of_worker {pc : WorkerPc} (hw : s.worker i = pc) (h : StopsFor s i pc) :
    StopInv s i := by
  rw [StopInv, hw]
  exact h

theorem step_config (h : s.step op = some t) : t.policy = s.policy ∧ t.hooked = s.hooked := by
  cases op with
  | call c =>
    obtain ⟨-, hmove⟩ := callStep_move h
    cases hmove <;> exact ⟨rfl, rfl⟩
  | owner outcome =>
    have hmove := ownerStep_move h
    generalize s.owner = pc at hmove
    cases hmove with
    | graceful i deadline =>
      obtain ⟨w, hw⟩ := stopGraceful_eq s i
      rw [hw]
      exact ⟨rfl, rfl⟩
    | _ => exact ⟨rfl, rfl⟩
  | worker i =>
    have hmove := workerStep_move h
    generalize s.worker i = pc at hmove
    cases hmove <;> exact ⟨rfl, rfl⟩
  | nested i =>
    obtain ⟨-, rfl⟩ := nestedStep_eq h
    exact ⟨rfl, rfl⟩
  | watchdog =>
    have hmove := watchdogStep_move h
    generalize s.watchdog = pc at hmove
    cases hmove <;> exact ⟨rfl, rfl⟩
  | loop i op =>
    obtain ⟨-, l, -, rfl⟩ := loopStep_eq h
    exact ⟨rfl, rfl⟩
  | elapse ns =>
    rw [step, Option.some.injEq] at h
    subst h
    exact ⟨rfl, rfl⟩

theorem StopsFor.mono {pc : WorkerPc} (hs : StopsFor s i pc)
    (hmono : ∀ j, (s.loops j).stopRequested = true → (t.loops j).stopRequested = true)
    (hpolicy : t.policy = s.policy)
    (hpc : pc.recorded = true → (t.loops i).pc = (s.loops i).pc) : StopsFor t i pc := by
  cases pc with
  | stopping k | ringing k => exact fun j hj => hmono j (hs j hj)
  | tearingDown | uninstalling | ended =>
    intro hp hf j
    rw [hpolicy] at hp
    rw [hpc rfl] at hf
    exact hmono j (hs hp hf j)
  | _ => trivial

theorem askToStop_stopRequested (s : Executor n) (k : Fin n) (a : Asker) :
    ((s.askToStop k a).loops k).stopRequested = true := by
  simp only [askToStop, setLoop, Function.update_self]

theorem StopInv.own (hs : StopInv s i) (h : s.step (.worker i) = some t) : StopInv t i := by
  have hmono : ∀ j, (s.loops j).stopRequested = true → (t.loops j).stopRequested = true :=
    fun j => step_stopRequested h
  have hmove := workerStep_move h
  unfold StopInv at hs
  generalize hpc : s.worker i = pc at hmove hs
  cases hmove with
  | leave hout =>
    refine .of_worker (setWorker_self ..) fun _ hf => absurd ?_ hf
    exact congrArg Pc.failure hout
  | recordFast e hp =>
    exact .of_worker (setWorker_self ..) fun j hj => absurd hj (Nat.not_lt_zero _)
  | recordOnly e hp =>
    refine .of_worker (setWorker_self ..) fun hfast => ?_
    rw [show s.policy = .failFast from hfast] at hp
    cases hp
  | stop k =>
    refine .of_worker (setWorker_self ..) fun j hj => ?_
    rcases Nat.lt_or_eq_of_le hj with hlt | heq
    · exact hmono j (hs j hlt)
    · obtain rfl : j = k := Fin.ext heq
      exact askToStop_stopRequested s j .worker
  | stopped k hk =>
    exact .of_worker (setWorker_self ..) fun _ _ j => hs j (Nat.lt_of_lt_of_le j.isLt hk)
  | ring k =>
    exact .of_worker (setWorker_self ..) fun j hj => hmono j (hs j (Nat.lt_succ_iff.mp hj))
  | tearDown | uninstall => exact .of_worker (setWorker_self ..) hs
  | _ => exact .of_worker (setWorker_self ..) trivial

theorem StopInv.step (hs : StopInv s i) (hcore : CoreInv s i) (h : s.step op = some t) :
    StopInv t i := by
  rcases step_worker h i with hw | ⟨rfl, -⟩ | ⟨-, -, hw⟩
  · exact .of_worker hw (hs.mono (fun j => step_stopRequested h) (step_config h).1
      (step_pc_eq h hcore))
  · exact hs.own h
  · exact .of_worker hw trivial

def AskInv (s : Executor n) : Prop := ∀ j, (s.loops j).stopRequested = !(s.askers j).isEmpty

theorem AskInv.ask (hs : AskInv s) (k : Fin n) (a : Asker) : AskInv (s.askToStop k a) := by
  intro j
  by_cases hj : j = k
  · subst hj
    rw [askToStop_stopRequested]
    simp [askToStop]
  · simp only [askToStop, setLoop, Function.update_of_ne hj]
    exact hs j

theorem AskInv.setLoop (hs : AskInv s) {l : EventLoop}
    (hl : l.stopRequested = (s.loops i).stopRequested) : AskInv (s.setLoop i l) := by
  intro j
  by_cases hj : j = i
  · subst hj
    rw [show (s.setLoop j l).loops j = l from Function.update_self .., hl]
    exact hs j
  · rw [show (s.setLoop i l).loops j = s.loops j from Function.update_of_ne hj ..]
    exact hs j

theorem AskInv.ring (hs : AskInv s) (k : Fin n) : AskInv (s.ringLoop k) :=
  hs.setLoop (l := { s.loops k with wakeup := (s.loops k).wakeup.write.2 }) rfl

theorem AskInv.step (hs : AskInv s) (h : s.step op = some t) : AskInv t := by
  cases op with
  | call c =>
    obtain ⟨-, hmove⟩ := callStep_move h
    cases hmove <;> exact hs
  | owner outcome =>
    have hmove := ownerStep_move h
    generalize s.owner = pc at hmove
    cases hmove with
    | stop i next => exact hs.ask i .owner
    | ring i next | gracefulRing i deadline => exact hs.ring i
    | graceful i deadline =>
      obtain ⟨w, hw⟩ := stopGraceful_eq s i
      rw [hw]
      exact hs.setLoop (l := { s.loops i with world := w }) rfl
    | _ => exact hs
  | worker i =>
    have hmove := workerStep_move h
    generalize s.worker i = pc at hmove
    cases hmove with
    | enter l hl => exact hs.setLoop (EventLoop.step_stopRequested (by simp) hl)
    | stop k => exact hs.ask k .worker
    | ring k => exact hs.ring k
    | _ => exact hs
  | nested i =>
    obtain ⟨-, rfl⟩ := nestedStep_eq h
    exact hs
  | watchdog =>
    have hmove := watchdogStep_move h
    generalize s.watchdog = pc at hmove
    cases hmove with
    | stop k => exact hs.ask k .watchdog
    | ring k => exact hs.ring k
    | _ => exact hs
  | loop i op =>
    obtain ⟨-, l, hl, rfl⟩ := loopStep_eq h
    by_cases hop : op = .requestStop
    · subst hop
      rw [EventLoop.step, Option.some.injEq] at hl
      subst hl
      exact hs.ask i .other
    · have hasked : s.askersAfter i op = s.askers := by
        unfold askersAfter
        split
        · exact absurd rfl hop
        · rfl
      rw [hasked]
      exact hs.setLoop (EventLoop.step_stopRequested hop hl)
  | elapse ns =>
    rw [Executor.step, Option.some.injEq] at h
    subst h
    exact hs

/-! ## Starting the workers -/

def okSetups (n i : ℕ) : List (Fin n × Result Unit) :=
  ((List.finRange n).take i).map fun j => (j, .ok ())

theorem okSetups_succ (i : Fin n) : okSetups n (i + 1) = okSetups n i ++ [(i, .ok ())] := by
  have hlt : i.val < (List.finRange n).length := by
    rw [List.length_finRange]
    exact i.isLt
  rw [okSetups, List.take_succ_eq_append_getElem hlt, List.map_append, okSetups]
  simp

theorem okSetups_of_le {i : ℕ} (hi : n ≤ i) : okSetups n i = okSetups n n := by
  rw [okSetups, okSetups, List.take_of_length_le (by rw [List.length_finRange]; exact hi),
    List.take_of_length_le (by rw [List.length_finRange])]

theorem OwnerMove.not_launching {pc : OwnerPc} (h : OwnerMove s pc t) (hpc : pc.launching = false) :
    t.owner.launching = false ∧ t.worker = s.worker ∧ t.setups = s.setups ∧
      t.lastRun = s.lastRun := by
  cases h with
  | sigpipe | sigpipeFailed | setup | setupFailed | setupsDone | start | startFailed | started =>
    cases hpc
  | stop i next | ring i next =>
    refine ⟨?_, rfl, rfl, rfl⟩
    rcases next with _ | (_ | _ | _ | _)
    case join.abort => cases hpc
    all_goals rfl
  | stoppedJoin i hi next | join i next | joined i hi next =>
    refine ⟨?_, rfl, rfl, rfl⟩
    cases next with
    | abort e => cases hpc
    | _ => rfl
  | graceful i deadline =>
    obtain ⟨w, hw⟩ := stopGraceful_eq s i
    rw [hw]
    exact ⟨rfl, rfl, rfl, rfl⟩
  | front next =>
    refine ⟨?_, rfl, rfl, rfl⟩
    cases next with
    | abort e => cases hpc
    | _ => rfl
  | returning c r =>
    refine ⟨rfl, rfl, rfl, if_neg ?_⟩
    rintro rfl
    cases hpc
  | _ => exact ⟨rfl, rfl, rfl, rfl⟩

def OwnerStops (s : Executor n) : OwnerPc → Prop
  | .stop i _ => ∀ j : Fin n, j.val < i → (s.loops j).stopRequested = true
  | .ring i _ => ∀ j : Fin n, j.val ≤ i → (s.loops j).stopRequested = true
  | _ => ∀ j, (s.loops j).stopRequested = true

def SetupFailed (s : Executor n) (e : SystemError) : Prop :=
  ∃ i : Fin n, s.setups = okSetups n i ++ [(i, .error e)]

def GaveUp (s : Executor n) (e : SystemError) : Prop :=
  s.setups = [] ∨ SetupFailed s e ∧ ∀ j, (s.loops j).stopRequested = true

/-- Where the last `run()` is, or how it ended. -/
inductive Launch (s : Executor n) : Prop
  | before (owner : s.owner.launching = false) (unborn : ∀ j, s.worker j = .unborn)
      (setups : s.setups = []) (last : s.lastRun = none)
  | sigpipe (owner : s.owner = .sigpipe) (unborn : ∀ j, s.worker j = .unborn)
      (setups : s.setups = []) (last : s.lastRun = none)
  | setting (i : ℕ) (owner : s.owner = .setup i) (unborn : ∀ j, s.worker j = .unborn)
      (setups : s.setups = okSetups n i) (last : s.lastRun = none)
  | starting (i : ℕ) (owner : s.owner = .start i)
      (unborn : ∀ j : Fin n, s.worker j = .unborn ↔ i ≤ j) (setups : s.setups = okSetups n n)
      (last : s.lastRun = none)
  | aborting (e : SystemError) (owner : s.owner.aborting = some e)
      (unborn : ∀ j, s.worker j = .unborn) (setups : SetupFailed s e)
      (stops : OwnerStops s s.owner) (last : s.lastRun = none)
  | givingUp (e : SystemError) (owner : s.owner = .returning .run (.error e))
      (unborn : ∀ j, s.worker j = .unborn) (setups : GaveUp s e) (last : s.lastRun = none)
  | started (owner : s.owner = .returning .run (.ok ())) (born : ∀ j, s.worker j ≠ .unborn)
      (setups : s.setups = okSetups n n) (last : s.lastRun = none)
  | launched (owner : s.owner.launching = false) (born : ∀ j, s.worker j ≠ .unborn)
      (setups : s.setups = okSetups n n) (last : s.lastRun = some (.returned (.ok ())))
  | threw (i : Fin n) (owner : s.owner.launching = false)
      (unborn : ∀ j : Fin n, s.worker j = .unborn ↔ i ≤ j) (setups : s.setups = okSetups n n)
      (last : s.lastRun = some .threw)
  | failed (e : SystemError) (owner : s.owner.launching = false)
      (unborn : ∀ j, s.worker j = .unborn) (setups : GaveUp s e)
      (last : s.lastRun = some (.returned (.error e)))

theorem WorkerMove.born {pc : WorkerPc} (h : WorkerMove s i pc t) :
    pc ≠ .unborn ∧ t.worker i ≠ .unborn := by
  cases h <;> simp [setWorker]

structure OwnerKeeps (s t : Executor n) : Prop where
  owner : t.owner = s.owner
  lastRun : t.lastRun = s.lastRun
  setups : t.setups = s.setups

def foreign : ExecutorOp n → Bool
  | .call _ | .owner _ => false
  | .worker _ | .nested _ | .watchdog | .loop _ _ | .elapse _ => true

theorem step_foreign (h : s.step op = some t) (hop : foreign op = true) : OwnerKeeps s t := by
  cases op with
  | call c => cases hop
  | owner outcome => cases hop
  | worker i =>
    have hmove := workerStep_move h
    generalize s.worker i = pc at hmove
    cases hmove <;> exact ⟨rfl, rfl, rfl⟩
  | nested i =>
    obtain ⟨-, rfl⟩ := nestedStep_eq h
    exact ⟨rfl, rfl, rfl⟩
  | watchdog =>
    have hmove := watchdogStep_move h
    generalize s.watchdog = pc at hmove
    cases hmove <;> exact ⟨rfl, rfl, rfl⟩
  | loop i op =>
    obtain ⟨-, l, -, rfl⟩ := loopStep_eq h
    exact ⟨rfl, rfl, rfl⟩
  | elapse ns =>
    rw [Executor.step, Option.some.injEq] at h
    subst h
    exact ⟨rfl, rfl, rfl⟩

theorem step_unborn_foreign (h : s.step op = some t) (hop : foreign op = true) :
    t.worker j = .unborn ↔ s.worker j = .unborn := by
  rcases step_worker h j with hw | ⟨-, hmove⟩ | ⟨⟨outcome, rfl⟩, -, -⟩
  · rw [hw]
  · exact iff_of_false hmove.born.2 hmove.born.1
  · cases hop

theorem GaveUp.mono {e : SystemError} (hs : GaveUp s e) (hsetups : t.setups = s.setups)
    (hmono : ∀ j, (s.loops j).stopRequested = true → (t.loops j).stopRequested = true) :
    GaveUp t e := by
  rw [GaveUp, SetupFailed, hsetups]
  exact hs.imp_right fun hf => ⟨hf.1, fun j => hmono j (hf.2 j)⟩

theorem OwnerStops.mono {pc : OwnerPc} (hs : OwnerStops s pc)
    (hmono : ∀ j, (s.loops j).stopRequested = true → (t.loops j).stopRequested = true) :
    OwnerStops t pc := by
  cases pc with
  | stop i next | ring i next => exact fun j hj => hmono j (hs j hj)
  | _ => exact fun j => hmono j (hs j)

theorem Launch.foreign (hs : Launch s) (h : s.step op = some t) (hop : foreign op = true) :
    Launch t := by
  have hk := step_foreign h hop
  have hmono : ∀ j, (s.loops j).stopRequested = true → (t.loops j).stopRequested = true :=
    fun j => step_stopRequested h
  have hunborn : ∀ j, t.worker j = .unborn ↔ s.worker j = .unborn :=
    fun j => step_unborn_foreign h hop
  cases hs with
  | before owner unborn setups last =>
    exact .before (hk.owner ▸ owner) (fun j => (hunborn j).mpr (unborn j)) (hk.setups ▸ setups)
      (hk.lastRun ▸ last)
  | sigpipe owner unborn setups last =>
    exact .sigpipe (hk.owner ▸ owner) (fun j => (hunborn j).mpr (unborn j)) (hk.setups ▸ setups)
      (hk.lastRun ▸ last)
  | setting i owner unborn setups last =>
    exact .setting i (hk.owner ▸ owner) (fun j => (hunborn j).mpr (unborn j)) (hk.setups ▸ setups)
      (hk.lastRun ▸ last)
  | starting i owner unborn setups last =>
    exact .starting i (hk.owner ▸ owner) (fun j => (hunborn j).trans (unborn j))
      (hk.setups ▸ setups) (hk.lastRun ▸ last)
  | aborting e owner unborn setups stops last =>
    refine .aborting e (hk.owner ▸ owner) (fun j => (hunborn j).mpr (unborn j)) ?_ ?_
      (hk.lastRun ▸ last)
    · rw [SetupFailed, hk.setups]
      exact setups
    · rw [hk.owner]
      exact stops.mono hmono
  | givingUp e owner unborn setups last =>
    exact .givingUp e (hk.owner ▸ owner) (fun j => (hunborn j).mpr (unborn j))
      (setups.mono hk.setups hmono) (hk.lastRun ▸ last)
  | started owner born setups last =>
    exact .started (hk.owner ▸ owner) (fun j hj => born j ((hunborn j).mp hj))
      (hk.setups ▸ setups) (hk.lastRun ▸ last)
  | launched owner born setups last =>
    exact .launched (hk.owner ▸ owner) (fun j hj => born j ((hunborn j).mp hj))
      (hk.setups ▸ setups) (hk.lastRun ▸ last)
  | threw i owner unborn setups last =>
    exact .threw i (hk.owner ▸ owner) (fun j => (hunborn j).trans (unborn j))
      (hk.setups ▸ setups) (hk.lastRun ▸ last)
  | failed e owner unborn setups last =>
    exact .failed e (hk.owner ▸ owner) (fun j => (hunborn j).mpr (unborn j))
      (setups.mono hk.setups hmono) (hk.lastRun ▸ last)

def FlagInv (s : Executor n) : Prop := s.launched = false → ∀ j, s.worker j = .unborn

theorem FlagInv.step (hs : FlagInv s) (h : s.step op = some t) : FlagInv t := by
  cases op with
  | call c =>
    obtain ⟨-, hmove⟩ := callStep_move h
    cases hmove <;> exact hs
  | owner outcome =>
    have hmove := ownerStep_move h
    generalize s.owner = pc at hmove
    cases hmove with
    | start i => exact fun hf => nomatch hf
    | graceful i deadline =>
      obtain ⟨w, hw⟩ := stopGraceful_eq s i
      rw [hw]
      exact hs
    | _ => exact hs
  | worker i =>
    intro hf
    have hmove := workerStep_move h
    have hold : s.launched = false := by
      generalize s.worker i = pc at hmove
      cases hmove <;> exact hf
    exact absurd (hs hold i) hmove.born.1
  | nested i =>
    obtain ⟨-, rfl⟩ := nestedStep_eq h
    exact hs
  | watchdog =>
    have hmove := watchdogStep_move h
    generalize s.watchdog = pc at hmove
    cases hmove <;> exact hs
  | loop i op =>
    obtain ⟨-, l, -, rfl⟩ := loopStep_eq h
    exact hs
  | elapse ns =>
    rw [Executor.step, Option.some.injEq] at h
    subst h
    exact hs

theorem Launch.call {c : ExecutorCall} (hs : Launch s) (hflag : FlagInv s)
    (h : s.callStep c = some t) : Launch t := by
  obtain ⟨hidle, hmove⟩ := callStep_move h
  cases hmove with
  | run first => exact .sigpipe rfl (hflag first) rfl rfl
  | other c hc =>
    have hentry : (entry c).launching = false := by
      cases c with
      | run => exact absurd rfl hc
      | _ => rfl
    cases hs with
    | before owner unborn setups last => exact .before hentry unborn setups last
    | launched owner born setups last => exact .launched hentry born setups last
    | threw i owner unborn setups last => exact .threw i hentry unborn setups last
    | failed e owner unborn setups last => exact .failed e hentry unborn setups last
    | sigpipe owner | setting _ owner | starting _ owner | givingUp _ owner | started owner
    | aborting _ owner =>
      rw [hidle] at owner
      cases owner

theorem Launch.abortStep {e : SystemError} {pc : OwnerPc} (h : OwnerMove s pc t)
    (hpc : s.owner = pc) (hmono : ∀ j, (s.loops j).stopRequested = true →
      (t.loops j).stopRequested = true) (owner : pc.aborting = some e)
    (unborn : ∀ j, s.worker j = .unborn) (setups : SetupFailed s e) (stops : OwnerStops s pc)
    (last : s.lastRun = none) : Launch t := by
  cases h with
  | stop i next =>
    refine .aborting e ?_ unborn setups (fun j hj => ?_) last
    · rcases next with _ | (_ | _ | _ | _) <;> exact owner
    · rcases Nat.lt_or_eq_of_le hj with hlt | heq
      · exact hmono j (stops j hlt)
      · obtain rfl : j = i := Fin.ext heq
        exact askToStop_stopRequested s j .owner
  | stoppedJoin i hi next =>
    refine .aborting e ?_ unborn setups (fun j => ?_) last
    · cases next <;> exact owner
    · exact stops j (Nat.lt_of_lt_of_le j.isLt hi)
  | ring i next =>
    refine .aborting e ?_ unborn setups (fun j hj => ?_) last
    · rcases next with _ | (_ | _ | _ | _) <;> exact owner
    · exact hmono j (stops j (Nat.lt_succ_iff.mp hj))
  | join i next hi =>
    refine .aborting e ?_ unborn setups stops last
    cases next <;> exact owner
  | joined i hi next =>
    refine .aborting e ?_ unborn setups stops last
    cases next <;> exact owner
  | front next =>
    cases next with
    | abort e' =>
      obtain rfl : e' = e := Option.some.inj owner
      exact .givingUp e' rfl unborn (Or.inr ⟨setups, stops⟩) last
    | _ => cases owner
  | _ => cases owner

theorem Launch.owner {outcome : Result Unit} (hs : Launch s)
    (h : s.step (.owner outcome) = some t) :
    Launch t := by
  have hmono : ∀ j, (s.loops j).stopRequested = true → (t.loops j).stopRequested = true :=
    fun j => step_stopRequested h
  have hmove := ownerStep_move h
  cases hs with
  | before owner unborn setups last =>
    obtain ⟨hlaunch, hworker, hsetups, hlast⟩ := hmove.not_launching owner
    exact .before hlaunch (fun j => (congrFun hworker j).trans (unborn j)) (hsetups.trans setups)
      (hlast.trans last)
  | sigpipe owner unborn setups last =>
    rw [owner] at hmove
    cases hmove with
    | sigpipe => exact .setting 0 rfl unborn setups last
    | sigpipeFailed e => exact .givingUp e rfl unborn (Or.inl setups) last
  | setting i owner unborn setups last =>
    rw [owner] at hmove
    generalize hpc : OwnerPc.setup i = pc at hmove
    cases hmove with
    | setup i' =>
      obtain rfl : i = i' := OwnerPc.setup.inj hpc
      refine .setting (i' + 1) rfl unborn ?_ last
      exact (congrArg (· ++ _) setups).trans (okSetups_succ i').symm
    | setupFailed i' e =>
      obtain rfl : i = i' := OwnerPc.setup.inj hpc
      refine .aborting e rfl unborn ⟨i', congrArg (· ++ _) setups⟩ ?_ last
      exact fun j hj => absurd hj (Nat.not_lt_zero _)
    | setupsDone i' hi =>
      obtain rfl : i = i' := OwnerPc.setup.inj hpc
      refine .starting 0 rfl (fun j => ?_) (setups.trans (okSetups_of_le hi)) last
      exact iff_of_true (unborn j) (Nat.zero_le _)
    | _ => cases hpc
  | starting i owner unborn setups last =>
    rw [owner] at hmove
    generalize hpc : OwnerPc.start i = pc at hmove
    cases hmove with
    | start i' =>
      obtain rfl : i = i' := OwnerPc.start.inj hpc
      refine .starting (i' + 1) rfl (fun j => ?_) setups last
      by_cases hj : j = i'
      · subst hj
        refine iff_of_false ?_ (by omega)
        rw [show ((s.setWorker j .installing).goTo (.start (j + 1))).worker j = _ from
          setWorker_self ..]
        simp
      · refine (iff_of_eq (congrArg (· = WorkerPc.unborn) (setWorker_of_ne hj))).trans
          ((unborn j).trans ?_)
        have hne : j.val ≠ i'.val := fun he => hj (Fin.ext he)
        omega
    | startFailed i' =>
      obtain rfl : i = i' := OwnerPc.start.inj hpc
      exact .threw i' rfl unborn setups rfl
    | started i' hi =>
      obtain rfl : i = i' := OwnerPc.start.inj hpc
      refine .started rfl (fun j hj => ?_) setups last
      have hle := (unborn j).mp hj
      have hlt := j.isLt
      omega
    | _ => cases hpc
  | aborting e owner unborn setups stops last =>
    exact .abortStep hmove rfl hmono owner unborn setups stops last
  | givingUp e owner unborn setups last =>
    rw [owner] at hmove
    cases hmove with
    | returning => exact .failed e rfl unborn setups rfl
  | started owner born setups last =>
    rw [owner] at hmove
    cases hmove with
    | returning => exact .launched rfl born setups rfl
  | launched owner born setups last =>
    obtain ⟨hlaunch, hworker, hsetups, hlast⟩ := hmove.not_launching owner
    refine .launched hlaunch (fun j hj => ?_) (hsetups.trans setups) (hlast.trans last)
    exact born j ((congrFun hworker j).symm.trans hj)
  | threw i owner unborn setups last =>
    obtain ⟨hlaunch, hworker, hsetups, hlast⟩ := hmove.not_launching owner
    refine .threw i hlaunch (fun j => ?_) (hsetups.trans setups) (hlast.trans last)
    rw [hworker]
    exact unborn j
  | failed e owner unborn setups last =>
    obtain ⟨hlaunch, hworker, hsetups, hlast⟩ := hmove.not_launching owner
    exact .failed e hlaunch (fun j => (congrFun hworker j).trans (unborn j))
      (setups.mono hsetups hmono) (hlast.trans last)

theorem Launch.startsUnborn (hs : Launch s) : StartsUnborn s := by
  intro j hj
  cases hs with
  | starting i owner unborn =>
    refine (unborn j).mpr ?_
    rw [owner] at hj
    exact le_of_eq (OwnerPc.start.inj hj)
  | before _ unborn | sigpipe _ unborn | setting _ _ unborn | aborting _ _ unborn
  | givingUp _ _ unborn | failed _ _ unborn => exact unborn j
  | started owner =>
    rw [owner] at hj
    cases hj
  | launched owner | threw _ owner =>
    rw [hj] at owner
    cases owner

theorem Launch.step (hs : Launch s) (hflag : FlagInv s) (h : s.step op = some t) : Launch t := by
  cases op with
  | call c => exact hs.call hflag h
  | owner outcome => exact hs.owner h
  | _ => exact hs.foreign h rfl

/-! ## Joining -/

def Knows (s : Executor n) : OwnerPc → Prop
  | .join i _ => ∀ j : Fin n, j.val < i → s.isSettled j = true
  | .front _ => ∀ j, s.isSettled j = true
  | .setDrained _ r | .joinWatchdog _ r => (∀ j, s.isSettled j = true) ∧ r = verdict s.faults
  | .returning c r => c.reports = true → (∀ j, s.isSettled j = true) ∧ r = verdict s.faults
  | _ => True

theorem WorkerMove.not_settled {pc : WorkerPc} (h : WorkerMove s i pc t) (hpc : s.worker i = pc) :
    s.isSettled i = false := by
  rw [isSettled, hpc]
  cases h <;> rfl

theorem step_settled_foreign (h : s.step op = some t) (hop : foreign op = true)
    (hj : s.isSettled j = true) : t.isSettled j = true := by
  rcases step_worker h j with hw | ⟨-, hmove⟩ | ⟨⟨outcome, rfl⟩, -, -⟩
  · rw [isSettled, hw]
    exact hj
  · exact absurd (hj.symm.trans (hmove.not_settled rfl)) (by decide)
  · cases hop

theorem step_faults_settled (h : s.step op = some t) (hs : ∀ j, s.isSettled j = true) :
    t.faults = s.faults := by
  refine (step_faults h).resolve_right ?_
  rintro ⟨i, e, -, hi⟩
  have hset := hs i
  rw [isSettled, hi] at hset
  cases hset

theorem Knows.foreign {pc : OwnerPc} (hs : Knows s pc) (h : s.step op = some t)
    (hop : foreign op = true) : Knows t pc := by
  have hsettled : ∀ j, s.isSettled j = true → t.isSettled j = true :=
    fun j => step_settled_foreign h hop
  cases pc with
  | join i next => exact fun j hj => hsettled j (hs j hj)
  | front next => exact fun j => hsettled j (hs j)
  | setDrained d r | joinWatchdog d r =>
    exact ⟨fun j => hsettled j (hs.1 j), by rw [step_faults_settled h hs.1]; exact hs.2⟩
  | returning c r =>
    intro hc
    obtain ⟨hset, hr⟩ := hs hc
    exact ⟨fun j => hsettled j (hset j), by rw [step_faults_settled h hset]; exact hr⟩
  | _ => trivial

theorem OwnerMove.knows {pc : OwnerPc} (h : OwnerMove s pc t) (hs : Knows s pc) :
    Knows t t.owner := by
  cases h with
  | stoppedJoin i hi next | watch d => exact fun j hj => absurd hj (Nat.not_lt_zero _)
  | join i next hi =>
    intro j hj
    rcases Nat.lt_succ_iff_lt_or_eq.mp hj with hlt | heq
    · exact hs j hlt
    · obtain rfl : j = i := Fin.ext heq
      exact hi
  | joined i hi next => exact fun j => hs j (Nat.lt_of_lt_of_le j.isLt hi)
  | front next =>
    cases next with
    | join => exact fun _ => ⟨hs, rfl⟩
    | graceful d => exact ⟨hs, rfl⟩
    | stopAndJoin | abort e =>
      intro hc
      cases hc
  | setDrained d r => exact hs
  | joinWatchdog d r hw => exact fun _ => hs
  | sigpipeFailed e | started i hi | stopped i hi | gracefulDone i hi =>
    intro hc
    cases hc
  | _ => trivial

theorem Knows.step (hs : Knows s s.owner) (h : s.step op = some t) : Knows t t.owner := by
  cases op with
  | call c =>
    obtain ⟨-, hmove⟩ := callStep_move h
    cases hmove with
    | run => trivial
    | other c hc =>
      cases c with
      | join => exact fun j hj => absurd hj (Nat.not_lt_zero _)
      | _ => trivial
  | owner outcome => exact (ownerStep_move h).knows hs
  | _ =>
    rw [(step_foreign h rfl).owner]
    exact hs.foreign h rfl

structure Inv (s : Executor n) : Prop where
  cores : ∀ j, CoreInv s j
  faults : FaultInv s
  stops : ∀ j, StopInv s j
  asks : AskInv s
  flag : FlagInv s
  launch : Launch s
  knows : Knows s s.owner

theorem Inv.step (hs : Inv s) (h : s.step op = some t) : Inv t where
  cores := cores_step hs.cores hs.launch.startsUnborn h
  faults := hs.faults.step hs.cores hs.launch.startsUnborn h
  stops j := (hs.stops j).step (hs.cores j) h
  asks := hs.asks.step h
  flag := hs.flag.step h
  launch := hs.launch.step hs.flag h
  knows := hs.knows.step h

variable {now : ℤ} {policy : FaultPolicy} {hooked : Hook → Bool} {m : Fin n → Heap}
  {k : Fin n → Kernel} {ops : List (ExecutorOp n)}

theorem create_inv : Inv (create now policy hooked m k) where
  cores j := ⟨rfl, rfl, rfl, rfl, rfl, (fun h => nomatch h), fun _ => List.not_mem_nil⟩
  faults := by
    have hnone : (List.finRange n).filterMap (create now policy hooked m k).reported = [] :=
      List.filterMap_eq_nil_iff.mpr fun j _ => rfl
    rw [FaultInv, hnone]
    exact List.Perm.refl _
  stops j := trivial
  asks j := rfl
  flag _ _ := rfl
  launch := .before rfl (fun _ => rfl) rfl rfl
  knows := trivial

theorem Reaches.inv (h : Reaches now policy hooked m k ops s) : Inv s :=
  Transition.invariant Inv (fun hstep hs => hs.step hstep) create_inv h

theorem Reaches.config (h : Reaches now policy hooked m k ops s) :
    s.policy = policy ∧ s.hooked = hooked := by
  refine Transition.invariant (s := create now policy hooked m k)
    (fun u : Executor n => u.policy = policy ∧ u.hooked = hooked) ?_ ⟨rfl, rfl⟩ h
  rintro u op v hstep ⟨hpolicy, hhooked⟩
  obtain ⟨hp, hh⟩ := step_config hstep
  exact ⟨hp.trans hpolicy, hh.trans hhooked⟩

theorem settled_iff : s.isSettled j = true ↔ s.worker j = .unborn ∨ s.worker j = .ended := by
  rw [isSettled]
  cases s.worker j <;> simp

theorem reported_of_settled (hs : Inv s) (hj : s.isSettled j = true) :
    s.reported j = (s.loops j).pc.failure := by
  have hagrees := (hs.cores j).agrees
  rcases settled_iff.mp hj with hw | hw
  · rw [hw] at hagrees
    rw [reported, hw, show (s.loops j).pc = _ from hagrees]
    rfl
  · rw [reported, hw]
    rfl

theorem verdict_eq_ok {l : List SystemError} : verdict l = .ok () ↔ l = [] := by
  cases l <;> simp [verdict]

theorem verdict_eq_error {l : List SystemError} {e : SystemError} :
    verdict l = .error e ↔ l.head? = some e := by
  cases l <;> simp [verdict]

theorem Inv.faults_perm (hs : Inv s) (hset : ∀ j, s.isSettled j = true) :
    s.faults.Perm ((List.finRange n).filterMap fun j => (s.loops j).pc.failure) := by
  have hf := hs.faults
  rwa [FaultInv, List.filterMap_congr fun j _ => reported_of_settled hs (hset j)] at hf

theorem Inv.verdict_ok (hs : Inv s) (hset : ∀ j, s.isSettled j = true) :
    verdict s.faults = .ok () ↔ ∀ j, (s.loops j).pc.failure = none := by
  have hperm := hs.faults_perm hset
  rw [verdict_eq_ok]
  constructor
  · intro hnil j
    rw [hnil] at hperm
    exact List.filterMap_eq_nil_iff.mp hperm.symm.eq_nil j (List.mem_finRange j)
  · intro hnone
    rw [List.filterMap_eq_nil_iff.mpr fun j _ => hnone j] at hperm
    exact hperm.eq_nil

/-- When `join()` or `graceful_stop()` comes back, every thread is over and none is listed in the
registry. The faults are those of the loops whose `run()` failed, each once; the call returns the
one that was pushed first, and `Ok` exactly if there is none. With `FailFast` a fault means that
every loop has been told to stop. Each core that ran has emitted its own failure, counted it unless
a nested `block_on` took its counters away, and called the hooks that are set once. -/
theorem join_reports_first_fault (h : Reaches now policy hooked m k ops s) {c : ExecutorCall}
    {r : Result Unit} (hret : s.owner = .returning c r) (hc : c.reports = true) :
    (∀ j, s.worker j = .unborn ∨ s.worker j = .ended) ∧ s.registry = [] ∧
    s.faults.Perm ((List.finRange n).filterMap fun j => (s.loops j).pc.failure) ∧
    (r = .ok () ↔ ∀ j, (s.loops j).pc.failure = none) ∧
    (∀ e, r = .error e → s.faults.head? = some e) ∧
    (policy = .failFast → r ≠ .ok () → ∀ j, (s.loops j).stopRequested = true) ∧
    ∀ j, s.worker j = .ended →
      s.loopRunErrors j = (if j ∈ s.nested then 0 else (s.loops j).pc.failure.toList.length) ∧
      s.coreEmitted j = (s.loops j).pc.failure.toList ∧
      s.coreHooks j = [.threadInit, .teardown].filter hooked := by
  have hinv := h.inv
  have hknows := hinv.knows
  rw [hret] at hknows
  obtain ⟨hset, hr⟩ := hknows hc
  have hok : r = .ok () ↔ ∀ j, (s.loops j).pc.failure = none := by
    rw [hr]
    exact hinv.verdict_ok hset
  refine ⟨fun j => settled_iff.mp (hset j), ?_, hinv.faults_perm hset, hok, ?_, ?_, ?_⟩
  · refine List.eq_nil_iff_forall_not_mem.mpr fun j hj => ?_
    have hcount := (hinv.cores j).registry
    have hnot : (s.worker j).installed = false := by
      rcases settled_iff.mp (hset j) with hw | hw <;> rw [hw] <;> rfl
    rw [hnot] at hcount
    exact List.count_eq_zero.mp hcount hj
  · intro e he
    exact verdict_eq_error.mp (hr.symm.trans he)
  · intro hp hne
    obtain ⟨i, hi⟩ := not_forall.mp fun hall => hne (hok.mpr hall)
    have hended : s.worker i = .ended := by
      refine (settled_iff.mp (hset i)).resolve_left fun hw => hi ?_
      have hagrees := (hinv.cores i).agrees
      rw [hw] at hagrees
      rw [show (s.loops i).pc = _ from hagrees]
      rfl
    have hstops := hinv.stops i
    rw [StopInv, hended] at hstops
    exact hstops (h.config.1.trans hp) hi
  · intro j hj
    have hcore := hinv.cores j
    have herrors := hcore.errors
    have hemitted := hcore.emitted
    have hhooks := hcore.hooks
    rw [hj] at herrors hemitted hhooks
    rw [h.config.2] at hhooks
    refine ⟨herrors.trans ?_, hemitted, hhooks⟩
    by_cases hn : j ∈ s.nested <;> simp [hn, WorkerPc.counted]

/-- A core starts and goes to `poll`; `within` happens while its task runs. -/
def untilPoll (i : Fin 2) (task : Handle) (within : List (ExecutorOp 2)) : List (ExecutorOp 2) :=
  List.replicate 3 (.worker i) ++ [.loop i .next, .loop i (.resume (.ok 0))] ++ within ++
    [.loop i (.world (.park task))] ++ List.replicate 4 (.loop i .next)

def failPoll (i : Fin 2) (e : Errno) : List (ExecutorOp 2) :=
  .loop i (.poll (.failed e) false) :: List.replicate 11 (.worker i)

/-- The task of core 1 calls `block_on`; then that core fails, and after it core 0. -/
def failingCores : List (ExecutorOp 2) :=
  [.call .run, .owner (.ok ()), .loop 0 (.spawn 7), .owner (.ok ()), .loop 1 (.spawn 8)] ++
    List.replicate 6 (.owner (.ok ())) ++ untilPoll 0 7 [] ++ untilPoll 1 8 [.nested 1] ++
    failPoll 1 .badf ++ failPoll 0 (.other 22) ++ [.call .join] ++
    List.replicate 4 (.owner (.ok ()))

def onlyInit : Hook → Bool
  | .threadInit => true
  | .teardown => false

theorem join_reports_failed_polls : ∃ s, Reaches 0 .failFast onlyInit
      (fun _ => World.blankHeap) (fun _ => World.blankKernel) failingCores s ∧
    s.owner = .returning .join (.error (SystemError.fromErrno .badf)) ∧
    (∀ j, (s.loops j).stopRequested = true) ∧ s.loopRunErrors 0 = 1 ∧ s.loopRunErrors 1 = 0 ∧
    s.coreHooks 0 = [.threadInit] := by
  obtain ⟨s, hs, howner, hended, hfailure, hnested⟩ : ∃ s, Reaches 0 .failFast onlyInit
      (fun _ => World.blankHeap) (fun _ => World.blankKernel) failingCores s ∧
      s.owner = .returning .join (.error (SystemError.fromErrno .badf)) ∧
      (s.worker 0 = .ended ∧ s.worker 1 = .ended) ∧
      (s.loops 0).pc.failure = some (SystemError.fromErrno (.other 22)) ∧ s.nested = [1] :=
    ⟨_, rfl, rfl, ⟨rfl, rfl⟩, rfl, rfl⟩
  obtain ⟨-, -, -, -, -, hstop, hcore⟩ := join_reports_first_fault hs howner rfl
  obtain ⟨herrors, -, hhooks⟩ := hcore 0 hended.1
  refine ⟨s, hs, howner, hstop rfl (by simp), herrors.trans ?_,
    (hcore 1 hended.2).1.trans ?_, hhooks⟩
  · rw [hnested, hfailure]
    rfl
  · rw [hnested]
    rfl

/-- No thread is started unless every setup of the last `run()` has succeeded, in order; `run()`
that returns `Ok` has started all of them. If it returns an error, then none is there: the setups
ended with the one that failed and every loop has been told to stop, or none was called. If the
construction of a thread throws, then the threads before it are there. -/
theorem workers_start_all_or_none (h : Reaches now policy hooked m k ops s) :
    ((∃ j, s.worker j ≠ .unborn) → s.setups = okSetups n n) ∧
    (s.lastRun = some (.returned (.ok ())) → ∀ j, s.worker j ≠ .unborn) ∧
    (∀ e, s.lastRun = some (.returned (.error e)) → (∀ j, s.worker j = .unborn) ∧
      (s.setups = [] ∨ (∃ i : Fin n, s.setups = okSetups n i ++ [(i, .error e)]) ∧
        ∀ j, (s.loops j).stopRequested = true)) ∧
    (s.lastRun = some .threw → ∃ i : Fin n, ∀ j, s.worker j = .unborn ↔ i ≤ j) := by
  cases h.inv.launch with
  | before _ unborn _ last | sigpipe _ unborn _ last | setting _ _ unborn _ last
  | aborting _ _ unborn _ _ last | givingUp _ _ unborn _ last =>
    rw [last]
    refine ⟨?_, nofun, nofun, nofun⟩
    rintro ⟨j, hj⟩
    exact absurd (unborn j) hj
  | starting _ _ _ setups last | started _ _ setups last =>
    rw [last]
    exact ⟨fun _ => setups, nofun, nofun, nofun⟩
  | launched _ born setups last =>
    rw [last]
    exact ⟨fun _ => setups, fun _ => born, nofun, nofun⟩
  | threw i _ unborn setups last =>
    rw [last]
    exact ⟨fun _ => setups, nofun, nofun, fun _ => ⟨i, unborn⟩⟩
  | failed e' _ unborn setups last =>
    rw [last]
    refine ⟨?_, nofun, fun e he => ?_, nofun⟩
    · rintro ⟨j, hj⟩
      exact absurd (unborn j) hj
    · cases he
      exact ⟨unborn, setups⟩

def failingSetup : List (ExecutorOp 2) :=
  [.call .run, .owner (.ok ()), .owner (.ok ()), .owner (.error makeCancelledError)] ++
    List.replicate 10 (.owner (.ok ()))

def secondRun : List (ExecutorOp 2) := .call .run :: List.replicate 8 (.owner (.ok ()))

theorem no_worker_after_failed_setup : ∃ s t, Reaches 0 .logOnly onlyInit
      (fun _ => World.blankHeap) (fun _ => World.blankKernel) failingSetup s ∧
    s.returned = [(.run, .error makeCancelledError)] ∧ (∀ j, s.worker j = .unborn) ∧
    (∀ j, (s.loops j).stopRequested = true) ∧ Transition.run step s secondRun = some t ∧
    t.lastRun = some (.returned (.ok ())) ∧ ∀ j, t.worker j ≠ .unborn := by
  obtain ⟨s, t, hs, ht, hret, hlast, hsetups, hlast'⟩ : ∃ s t, Reaches 0 .logOnly onlyInit
      (fun _ => World.blankHeap) (fun _ => World.blankKernel) failingSetup s ∧
      Transition.run step s secondRun = some t ∧
      s.returned = [(.run, .error makeCancelledError)] ∧
      s.lastRun = some (.returned (.error makeCancelledError)) ∧ s.setups.length = 2 ∧
      t.lastRun = some (.returned (.ok ())) := ⟨_, _, rfl, rfl, rfl, rfl, rfl, rfl⟩
  obtain ⟨-, -, herr, -⟩ := workers_start_all_or_none hs
  obtain ⟨hunborn, hgave⟩ := herr makeCancelledError hlast
  have hboth := Transition.run_append_eq_some.mpr ⟨s, hs, ht⟩
  exact ⟨s, t, hs, hret, hunborn, (hgave.resolve_left fun hnil => by simp [hnil] at hsetups).2, ht,
    hlast', (workers_start_all_or_none hboth).2.1 hlast'⟩

end Executor
end RainRuntime
