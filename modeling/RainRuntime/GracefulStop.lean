import RainRuntime.ExecutorRuns

/-!
# Graceful stops

`graceful_stop` asks the services of every loop to end and then joins the workers, while a
watchdog looks at the clock. The watchdog asks no loop to stop before the deadline is over. So if
the call comes back in time and nobody else has asked for a hard stop, every loop has come out of
`run()` by itself, which it does when it owns no task.
-/

namespace RainRuntime

def OwnerPc.gracefulCall : OwnerPc → Option ℤ
  | .join _ (.graceful d) | .front (.graceful d) => some d
  | .setDrained d _ | .joinWatchdog d _ | .returning (.gracefulStop d) _ => some d
  | _ => none

def OwnerPc.watching : OwnerPc → Bool
  | .returning _ _ => false
  | pc => pc.gracefulCall.isSome

theorem OwnerPc.gracefulCall_of_watching {pc : OwnerPc} (h : pc.watching = true) :
    ∃ d, pc.gracefulCall = some d := by
  unfold OwnerPc.watching at h
  split at h
  · cases h
  · exact Option.isSome_iff_exists.mp h

namespace Executor
variable {n : ℕ} {s t : Executor n} {i j : Fin n} {op : ExecutorOp n}

/-- Where the watchdog of a call is, whose deadline is over at `limit`. -/
def Heeds (s : Executor n) (limit : ℤ) : WatchdogPc → Prop
  | .born d => s.calledAt + d = limit
  | .reading l | .looking l | .sleeping l _ => limit ≤ l
  | .stopping _ | .ringing _ => limit ≤ s.clock
  | .absent | .ended => True

/-- The deadline of a call of `graceful_stop(d)` is within the range of the clock. -/
def Fits (s : Executor n) (d : ℤ) : Prop := 0 ≤ s.calledAt + d ∧ s.clock + d < 2 ^ 63

structure Watch (s : Executor n) : Prop where
  since : s.calledAt ≤ s.clock
  absent : s.owner.watching = false → s.watchdog = .absent
  heeds : ∀ d, s.owner.gracefulCall = some d → Fits s d → Heeds s (s.calledAt + d) s.watchdog
  asked : (∀ d r, (.gracefulStop d, r) ∉ s.returned) → ∀ j, Asker.watchdog ∈ s.askers j →
    ∃ d, s.owner.gracefulCall = some d ∧ (Fits s d → s.calledAt + d ≤ s.clock)

theorem Watch.of_eq (hs : Watch s) (howner : t.owner.gracefulCall = s.owner.gracefulCall)
    (hwatching : t.owner.watching = s.owner.watching) (hwatchdog : t.watchdog = s.watchdog)
    (hcalled : t.calledAt = s.calledAt) (hclock : t.clock = s.clock)
    (hreturned : t.returned = s.returned)
    (hasked : ∀ j, Asker.watchdog ∈ t.askers j → Asker.watchdog ∈ s.askers j) : Watch t := by
  constructor
  · rw [hcalled, hclock]
    exact hs.since
  · rw [hwatching, hwatchdog]
    exact hs.absent
  · intro d hd hfits
    rw [Fits, hcalled, hclock] at hfits
    have hold := hs.heeds d (howner.symm.trans hd) hfits
    rw [hwatchdog, hcalled]
    unfold Heeds at hold ⊢
    rw [hcalled, hclock]
    exact hold
  · intro hfirst j hj
    simp only [Fits, howner, hcalled, hclock]
    exact hs.asked (hreturned ▸ hfirst) j (hasked j hj)

theorem mem_askToStop {a b : Asker} {k : Fin n} (h : b ∈ (s.askToStop k a).askers j) :
    b = a ∨ b ∈ s.askers j := by
  by_cases hj : j = k
  · subst hj
    simp only [askToStop, Function.update_self, List.mem_append, List.mem_singleton] at h
    exact h.symm
  · simp only [askToStop, Function.update_of_ne hj] at h
    exact Or.inr h

theorem watchdog_of_askToStop {a : Asker} {k : Fin n} (ha : a ≠ .watchdog)
    (h : Asker.watchdog ∈ (s.askToStop k a).askers j) : Asker.watchdog ∈ s.askers j :=
  (mem_askToStop h).resolve_left (Ne.symm ha)

theorem Watch.of_none (hs : Watch s) (hnone : s.owner.gracefulCall = none)
    (hwatchdog : t.watchdog = s.watchdog) (hsince : t.calledAt ≤ t.clock)
    (hreturned : (∀ d r, (.gracefulStop d, r) ∉ t.returned) →
      ∀ d r, (.gracefulStop d, r) ∉ s.returned)
    (hasked : ∀ j, Asker.watchdog ∈ t.askers j → Asker.watchdog ∈ s.askers j) : Watch t := by
  have habsent : s.watchdog = .absent := by
    refine hs.absent ?_
    unfold OwnerPc.watching
    split
    · rfl
    · rw [hnone]
      rfl
  refine ⟨hsince, fun _ => hwatchdog.trans habsent, fun d _ _ => ?_, fun hfirst j hj => ?_⟩
  · rw [hwatchdog, habsent]
    trivial
  · obtain ⟨d, hd, -⟩ := hs.asked (hreturned hfirst) j (hasked j hj)
    rw [hnone] at hd
    cases hd

theorem Watch.call {c : ExecutorCall} (hs : Watch s) (h : s.callStep c = some t) : Watch t := by
  obtain ⟨hidle, hmove⟩ := callStep_move h
  have hnone : s.owner.gracefulCall = none := by
    rw [hidle]
    rfl
  cases hmove <;> exact hs.of_none hnone rfl (le_refl _) id fun j => id

theorem Watch.owner {pc : OwnerPc} (hs : Watch s) (hpc : s.owner = pc) (h : OwnerMove s pc t) :
    Watch t := by
  cases h with
  | watch d =>
    have hnone : s.owner.gracefulCall = none := by rw [hpc]; rfl
    refine ⟨hs.since, fun hd => (by cases hd), fun d' hd _ => ?_, fun hfirst j hj => ?_⟩
    · rw [← Option.some.inj hd]
      rfl
    · obtain ⟨d', hd, -⟩ := hs.asked hfirst j hj
      rw [hnone] at hd
      cases hd
  | stop i next =>
    exact hs.of_none (by rw [hpc]; rfl) rfl hs.since id
      fun j => watchdog_of_askToStop (by decide)
  | graceful i deadline =>
    obtain ⟨w, hw⟩ := stopGraceful_eq s i
    rw [hw]
    exact hs.of_none (by rw [hpc]; rfl) rfl hs.since id fun j => id
  | join i next hi | joined i hi next =>
    refine hs.of_eq ?_ ?_ rfl rfl rfl rfl fun j => id <;> rw [hpc] <;> cases next <;> rfl
  | front next =>
    cases next with
    | graceful d => exact hs.of_eq (by rw [hpc]; rfl) (by rw [hpc]; rfl) rfl rfl rfl rfl fun j => id
    | _ => exact hs.of_none (by rw [hpc]; rfl) rfl hs.since id fun j => id
  | setDrained d r =>
    exact hs.of_eq (by rw [hpc]; rfl) (by rw [hpc]; rfl) rfl rfl rfl rfl fun j => id
  | joinWatchdog d r hw =>
    refine ⟨hs.since, fun _ => rfl, fun _ _ _ => trivial, ?_⟩
    have hasked := hs.asked
    rw [hpc] at hasked
    exact hasked
  | returning c r =>
    have habsent := hs.absent (by rw [hpc]; rfl)
    refine ⟨hs.since, fun _ => habsent, fun d hd _ => (by cases hd), fun hfirst j hj => ?_⟩
    have hold : ∀ d r, (.gracefulStop d, r) ∉ s.returned :=
      fun d r hr => hfirst d r (List.mem_append_left _ hr)
    obtain ⟨d, hd, hle⟩ := hs.asked hold j hj
    rw [hpc] at hd
    cases c with
    | gracefulStop d' => exact absurd (List.mem_append_right _ List.mem_cons_self) (hfirst d' r)
    | _ => cases hd
  | _ => exact hs.of_none (by rw [hpc]; rfl) rfl hs.since id fun j => id

theorem Watch.watchdog {pc : WatchdogPc} (hs : Watch s) (hpc : s.watchdog = pc)
    (h : WatchdogMove s pc t) : Watch t := by
  have hwatching : s.owner.watching = true := by
    cases hw : s.owner.watching with
    | true => rfl
    | false =>
      have habsent := hs.absent hw
      rw [hpc] at habsent
      rw [habsent] at h
      cases h
  obtain ⟨d, hd⟩ := OwnerPc.gracefulCall_of_watching hwatching
  have hheeds := hs.heeds d hd
  rw [hpc] at hheeds
  -- the owner and the clock stay; what is left is the watchdog's own place
  have hown : ∀ u : Executor n, u.owner = s.owner → u.calledAt = s.calledAt → u.clock = s.clock →
      u.returned = s.returned → (Fits s d → Heeds s (s.calledAt + d) u.watchdog) →
      (∀ j, Asker.watchdog ∈ u.askers j →
        Asker.watchdog ∈ s.askers j ∨ (Fits s d → s.calledAt + d ≤ s.clock)) → Watch u := by
    intro u howner hcalled hclock hreturned hplace hasked
    refine ⟨by rw [hcalled, hclock]; exact hs.since, fun hw => ?_, fun d' hd' hfits => ?_,
      fun hfirst j hj => ?_⟩
    · rw [howner, hwatching] at hw
      cases hw
    · rw [howner, hd] at hd'
      obtain rfl := Option.some.inj hd'
      rw [Fits, hcalled, hclock] at hfits
      have hthere := hplace hfits
      unfold Heeds at hthere ⊢
      rw [hcalled, hclock]
      exact hthere
    · simp only [Fits, howner, hcalled, hclock]
      rcases hasked j hj with hold | hle
      · exact hs.asked (hreturned ▸ hfirst) j hold
      · exact ⟨d, hd, hle⟩
  cases h with
  | read d' =>
    refine hown _ rfl rfl rfl rfl (fun hfits => ?_) fun j hj => Or.inl hj
    have hsince := hs.since
    have heq : s.calledAt + d' = s.calledAt + d := hheeds hfits
    obtain rfl : d' = d := by omega
    obtain ⟨hlow, hhigh⟩ := hfits
    change s.calledAt + d' ≤ wrap64 (s.clock + d')
    rw [wrap64_of_lt (by omega) hhigh]
    omega
  | early limit hlt => exact hown _ rfl rfl rfl rfl hheeds fun j hj => Or.inl hj
  | late limit hle =>
    exact hown _ rfl rfl rfl rfl (fun hfits => Int.le_trans (hheeds hfits) hle)
      fun j hj => Or.inl hj
  | drained limit => exact hown _ rfl rfl rfl rfl (fun _ => trivial) fun j hj => Or.inl hj
  | pause limit => exact hown _ rfl rfl rfl rfl hheeds fun j hj => Or.inl hj
  | wake limit wake => exact hown _ rfl rfl rfl rfl hheeds fun j hj => Or.inl hj
  | stop k => exact hown _ rfl rfl rfl rfl hheeds fun j hj => Or.inr hheeds
  | stopped k hk => exact hown _ rfl rfl rfl rfl (fun _ => trivial) fun j hj => Or.inl hj
  | ring k => exact hown _ rfl rfl rfl rfl hheeds fun j hj => Or.inl hj

theorem Watch.step (hs : Watch s) (h : s.step op = some t) : Watch t := by
  cases op with
  | call c => exact hs.call h
  | owner outcome => exact hs.owner rfl (ownerStep_move h)
  | worker i =>
    have hmove := workerStep_move h
    generalize s.worker i = pc at hmove
    cases hmove with
    | stop k =>
      exact hs.of_eq rfl rfl rfl rfl rfl rfl fun j => watchdog_of_askToStop (by decide)
    | _ => exact hs.of_eq rfl rfl rfl rfl rfl rfl fun j => id
  | nested i =>
    obtain ⟨-, rfl⟩ := nestedStep_eq h
    exact hs.of_eq rfl rfl rfl rfl rfl rfl fun j => id
  | watchdog => exact hs.watchdog rfl (watchdogStep_move h)
  | loop i op =>
    obtain ⟨-, l, -, rfl⟩ := loopStep_eq h
    refine hs.of_eq rfl rfl rfl rfl rfl rfl fun j hj => ?_
    by_cases hop : op = .requestStop
    · subst hop
      exact watchdog_of_askToStop (k := i) (a := .other) (by decide) hj
    · have hasked : s.askersAfter i op = s.askers := by
        unfold askersAfter
        split
        · exact absurd rfl hop
        · rfl
      exact congrFun hasked j ▸ hj
  | elapse ns =>
    rw [Executor.step, Option.some.injEq] at h
    subst h
    have hle : s.clock ≤ s.clock + ns := by omega
    have hearlier : ∀ d, 0 ≤ s.calledAt + d ∧ s.clock + ns + d < 2 ^ 63 → Fits s d :=
      fun d hfits => ⟨hfits.1, by omega⟩
    refine ⟨Int.le_trans hs.since hle, hs.absent, fun d hd hfits => ?_, fun hfirst j hj => ?_⟩
    · have hheeds := hs.heeds d hd (hearlier d hfits)
      cases hw : s.watchdog with
      | stopping k | ringing k =>
        rw [hw] at hheeds
        exact Int.le_trans hheeds hle
      | _ =>
        rw [hw] at hheeds
        exact hheeds
    · obtain ⟨d, hd, hlim⟩ := hs.asked hfirst j hj
      exact ⟨d, hd, fun hfits => Int.le_trans (hlim (hearlier d hfits)) hle⟩

variable {now : ℤ} {policy : FaultPolicy} {hooked : Hook → Bool} {m : Fin n → Heap}
  {k : Fin n → Kernel} {ops : List (ExecutorOp n)}

theorem Reaches.watch (h : Reaches now policy hooked m k ops s) : Watch s := by
  have hcreate : Watch (create now policy hooked m k) :=
    ⟨le_refl _, fun _ => rfl, fun d hd _ => (by cases hd), fun _ j hj => (by cases hj)⟩
  exact Transition.invariant Watch (fun hstep hs => hs.step hstep) hcreate h

/-- The first `graceful_stop(d)` comes back less than `d` after it was called, `now + d` was within
the range of the clock, and nobody but its watchdog has asked the loop of a started core to stop.
Then nobody has asked at all. The loop's `run()` failed and the call tells of a fault, or the loop
owns no task and every task it ever owned has finished. -/
theorem graceful_stop_drains {u : Executor n} {ops' : List (ExecutorOp n)}
    (hu : Reaches now policy hooked m k ops u) (hrun : Transition.run step u ops' = some s) {d : ℤ}
    {r : Result Unit} (hret : s.owner = .returning (.gracefulStop d) r)
    (hfirst : ∀ d' r', (.gracefulStop d', r') ∉ s.returned) (hsoon : s.clock < s.calledAt + d)
    (hfits : 0 ≤ s.calledAt + d ∧ s.clock + d < 2 ^ 63)
    (hborn : s.worker j ≠ .unborn) (hasked : ∀ a ∈ s.askers j, a = .watchdog) :
    (s.loops j).stopRequested = false ∧
    ((∃ e, (s.loops j).pc = .outside (some (.error e)) ∧ r ≠ .ok ()) ∨
      (s.loops j).ownedTasks = [] ∧ ∀ c ∈ (u.loops j).ownedTasks,
        c ∈ (s.loops j).completed ∧ (s.loops j).world.heap.done c = true) := by
  have hs : Reaches now policy hooked m k (ops ++ ops') s :=
    Transition.run_append_eq_some.mpr ⟨u, hu, hrun⟩
  have hinv := hs.inv
  have hnone : s.askers j = [] := by
    refine List.eq_nil_iff_forall_not_mem.mpr fun a ha => ?_
    obtain rfl := hasked a ha
    obtain ⟨d', hd', hle⟩ := hs.watch.asked hfirst j ha
    rw [hret] at hd'
    obtain rfl := Option.some.inj hd'
    exact absurd (hle hfits) (Int.not_le.mpr hsoon)
  have hnot : (s.loops j).stopRequested = false := by
    rw [hinv.asks j, hnone]
    rfl
  refine ⟨hnot, ?_⟩
  have hknows := hinv.knows
  rw [hret] at hknows
  obtain ⟨hset, hr⟩ := hknows rfl
  obtain ⟨r', hpc⟩ : ∃ r', (s.loops j).pc = .outside (some r') := by
    have hagrees := (hinv.cores j).agrees
    rw [(settled_iff.mp (hset j)).resolve_left hborn] at hagrees
    exact hagrees
  cases r' with
  | error e =>
    refine Or.inl ⟨e, hpc, fun hok => ?_⟩
    have hfail := (hinv.verdict_ok hset).mp (hr.symm.trans hok) j
    rw [hpc] at hfail
    cases hfail
  | ok x =>
    have howned : (s.loops j).ownedTasks = [] := by
      have hempty := hs.leavesEmpty j
      rw [EventLoop.LeavesEmpty, hpc] at hempty
      exact hempty hnot
    refine Or.inr ⟨howned, fun c hc => ?_⟩
    have hplace := run_place hrun (Or.inl hc)
    rw [howned] at hplace
    have hcompleted := hplace.resolve_left List.not_mem_nil
    obtain ⟨lops, hl⟩ := hs.loop j
    exact ⟨hcompleted, hl.driven.done c hcompleted⟩

def soleCore : Fin 1 := 0

def oneTask : List (ExecutorOp 1) := [.call .run, .owner (.ok ()), .loop soleCore (.spawn 7)]

def stoppedInTime : List (ExecutorOp 1) :=
  [.owner (.ok ()), .owner (.ok ()), .owner (.ok ()), .owner (.ok ()), .owner (.ok ()),
    .worker soleCore, .worker soleCore, .worker soleCore, .loop soleCore .next, .elapse 300,
    .call (.gracefulStop 1000), .owner (.ok ()), .owner (.ok ()), .owner (.ok ()),
    .owner (.ok ()), .watchdog, .loop soleCore (.resume (.ok 0)), .elapse 50,
    .loop soleCore (.world (.finish 7)), .loop soleCore .next, .loop soleCore .next,
    .loop soleCore .next, .loop soleCore .next, .loop soleCore .next, .loop soleCore .next,
    .worker soleCore, .worker soleCore, .worker soleCore, .owner (.ok ()), .owner (.ok ()),
    .owner (.ok ()), .owner (.ok ()), .watchdog, .watchdog, .owner (.ok ())]

theorem graceful_stop_drains_one_task : ∃ u s, Reaches 0 .failFast (fun _ => true)
      (fun _ => World.blankHeap) (fun _ => World.blankKernel) oneTask u ∧
    Transition.run step u stoppedInTime = some s ∧
    s.owner = .returning (.gracefulStop 1000) (.ok ()) ∧ (u.loops 0).ownedTasks = [7] ∧
    (s.loops 0).ownedTasks = [] ∧ 7 ∈ (s.loops 0).completed := by
  obtain ⟨u, s, hu, hs, hret, howned, hreturned, ⟨hclock, hcalled⟩, hborn, hasked⟩ :
      ∃ u s, Reaches 0 .failFast (fun _ => true) (fun _ => World.blankHeap)
        (fun _ => World.blankKernel) oneTask u ∧
      Transition.run step u stoppedInTime = some s ∧
      s.owner = .returning (.gracefulStop 1000) (.ok ()) ∧ (u.loops 0).ownedTasks = [7] ∧
      s.returned = [(.run, .ok ())] ∧ (s.clock = 350 ∧ s.calledAt = 300) ∧ s.worker 0 = .ended ∧
      s.askers 0 = [] := ⟨_, _, rfl, rfl, rfl, rfl, rfl, ⟨rfl, rfl⟩, rfl, rfl⟩
  obtain ⟨-, ⟨e, -, hne⟩ | ⟨hempty, hdone⟩⟩ := graceful_stop_drains hu hs hret
    (fun d' r' hr => by rw [hreturned] at hr; simp at hr) (by rw [hclock, hcalled]; decide)
    (by rw [hclock, hcalled]; decide) (by rw [hborn]; simp)
    (fun a ha => by rw [hasked] at ha; cases ha)
  · exact absurd rfl hne
  · exact ⟨u, s, hu, hs, hret, howned, hempty, (hdone 7 (by rw [howned]; simp)).1⟩

end Executor
end RainRuntime
