import RainRuntime.CrossCore
import RainRuntime.WaitRules

/-!
# The loop drives a world

Whatever a loop and the threads around it do, the world of the loop takes its own steps
only: a drain of the cross-core queue wakes the tasks it takes over one after the other.
So what holds of every run of a `World` holds of the world of every loop, and the wheel of
a loop runs like a wheel by itself.
-/

namespace RainRuntime
namespace World
variable {s t : World} {op : WorldOp} {h : Handle}

theorem QueueOk.not_mem_ready (hq : s.QueueOk h) (hidle : s.phase h = .idle) :
    h ∉ s.ready ∧ h ∉ s.foreign.map Prod.snd := by
  simp only [QueueOk, hidle, enqueued, lines] at hq
  constructor
  · intro hmem
    have hpos := List.count_pos_iff.mpr hmem
    omega
  · intro hmem
    have hpos := List.count_pos_iff.mpr hmem
    omega

theorem actor_ne_of_idle (hs : Inv s) (hstep : step s op = some t) (hidle : s.phase h = .idle)
    (hop : op ≠ .wake h) : s.actor op ≠ some h := by
  have hq := (hs.owned.queue h).not_mem_ready hidle
  intro hactor
  cases op with
  | wake h' => exact hop (congrArg WorldOp.wake (Option.some.inj hactor))
  | park h' =>
    obtain ⟨on, hrun, -⟩ := step_park.mp hstep
    rw [Option.some.inj hactor, hidle] at hrun
    cases hrun
  | finish h' =>
    obtain ⟨on, hrun, -⟩ := step_finish.mp hstep
    rw [Option.some.inj hactor, hidle] at hrun
    cases hrun
  | await h' kind fd cell token sys =>
    obtain ⟨on, hrun, -⟩ := step_await.mp hstep
    rw [Option.some.inj hactor, hidle] at hrun
    cases hrun
  | resume sys => exact hq.1 (List.mem_of_head? hactor)
  | resumeForeign sys =>
    obtain ⟨entry, hentry, heq⟩ := Option.map_eq_some_iff.mp hactor
    exact hq.2 (List.mem_map.mpr ⟨entry, List.mem_of_head? hentry, heq⟩)
  | callback h' =>
    obtain ⟨a, src, tls, hw, -⟩ := step_callback.mp hstep
    rw [Option.some.inj hactor, hidle] at hw
    cases hw
  | _ => cases hactor

theorem step_idle (hs : Inv s) (hstep : step s op = some t) (hidle : s.phase h = .idle)
    (hop : op ≠ .wake h) : t.phase h = .idle :=
  ((step_spec hs hstep).frame h (actor_ne_of_idle hs hstep hidle hop)).1.trans hidle

theorem resume_done (s : World) (hdone : s.heap.done h = true) (on : LoopId)
    (sys : Except Errno ℕ) : (s.resume h on sys).heap.done h = true := by
  rw [resume, if_pos hdone]
  exact hdone

theorem step_done (hs : Inv s) (hstep : step s op = some t) (hdone : s.heap.done h = true) :
    t.heap.done h = true := by
  have hlive : ∀ {p}, s.phase h = p → (∃ on, p = .running on) ∨ (∃ a, p = .waiting a) → False := by
    rintro p rfl hp
    exact Bool.false_ne_true ((hs.owned.done h hp).symm.trans hdone)
  by_cases hactor : s.actor op = some h
  · cases op with
    | wake h' =>
      obtain ⟨-, rfl⟩ := step_wake.mp hstep
      exact hdone
    | park h' =>
      obtain ⟨on, -, rfl⟩ := step_park.mp hstep
      exact hdone
    | finish h' =>
      obtain ⟨on, hrun, -⟩ := step_finish.mp hstep
      exact (hlive (Option.some.inj hactor ▸ hrun) (Or.inl ⟨on, rfl⟩)).elim
    | await h' kind fd cell token sys =>
      obtain ⟨on, hrun, -⟩ := step_await.mp hstep
      exact (hlive (Option.some.inj hactor ▸ hrun) (Or.inl ⟨on, rfl⟩)).elim
    | resume sys =>
      obtain ⟨h', rest, hready, rfl⟩ := step_resume.mp hstep
      rw [actor, hready] at hactor
      cases hactor
      exact resume_done { s with ready := rest } hdone ownerLoop sys
    | resumeForeign sys =>
      obtain ⟨entry, rest, hforeign, rfl⟩ := step_resumeForeign.mp hstep
      rw [actor, hforeign] at hactor
      cases hactor
      exact resume_done { s with foreign := rest } hdone entry.1 sys
    | callback h' =>
      obtain ⟨a, src, tls, hw, -⟩ := step_callback.mp hstep
      exact (hlive (Option.some.inj hactor ▸ hw) (Or.inr ⟨a, rfl⟩)).elim
    | _ => cases hactor
  · exact ((step_spec hs hstep).frame h hactor).2.trans hdone

theorem step_wake_eq (hidle : s.phase h = .idle) : step s (.wake h) = some (s.enqueue h) :=
  step_wake.mpr ⟨hidle, rfl⟩

theorem enqueue_phase_of_ne {k : Handle} (hne : k ≠ h) : (s.enqueue h).phase k = s.phase k :=
  Function.update_of_ne hne _ _

theorem run_wakes (l : List Handle) (hnodup : l.Nodup) (hidle : ∀ h ∈ l, s.phase h = .idle) :
    Transition.run step s (l.map .wake) = some (l.foldl enqueue s) := by
  induction l generalizing s with
  | nil => rfl
  | cons h l ih =>
    obtain ⟨hnot, hnodup⟩ := List.nodup_cons.mp hnodup
    refine Transition.run_cons_eq_some.mpr
      ⟨_, step_wake_eq (hidle h (List.mem_cons_self ..)), ih hnodup fun k hk => ?_⟩
    have hne : k ≠ h := fun heq => hnot (heq ▸ hk)
    exact (enqueue_phase_of_ne hne).trans (hidle k (List.mem_cons_of_mem h hk))

theorem foldl_enqueue_timer (l : List Handle) (s : World) :
    (l.foldl enqueue s).timer = s.timer := by
  induction l generalizing s with
  | nil => rfl
  | cons h l ih => exact ih (s.enqueue h)

end World

namespace EventLoop

structure Driven (now : ℤ) (m : Heap) (k : Kernel) (s : EventLoop) : Prop where
  world : ∃ ops, World.Reaches now m k ops s.world
  idle : ∀ h ∈ s.crossCoreQueue, s.world.phase h = .idle
  done : ∀ h ∈ s.completed, s.world.heap.done h = true

section Driven
variable {now : ℤ} {m : Heap} {k : Kernel} {s t : EventLoop}

theorem Driven.run (hs : Driven now m k s) {ops : List WorldOp} {w : World}
    (h : Transition.run World.step s.world ops = some w) : ∃ ops, World.Reaches now m k ops w := by
  obtain ⟨ops₀, h₀⟩ := hs.world
  exact ⟨ops₀ ++ ops, Transition.run_append_eq_some.mpr ⟨_, h₀, h⟩⟩

theorem Driven.op (hs : Driven now m k s) {op : WorldOp} {w : World}
    (h : s.world.step op = some w) : ∃ ops, World.Reaches now m k ops w :=
  hs.run (Transition.run_cons_eq_some.mpr ⟨w, h, Transition.run_nil _ w⟩)

theorem Driven.inv (hs : Driven now m k s) : World.Inv s.world := by
  obtain ⟨ops, h⟩ := hs.world
  exact h.inv

theorem idle_of_isFresh {h : Handle} (hf : s.isFresh h = true) :
    s.world.phase h = .idle ∧ h ∉ s.crossCoreQueue := by
  simp only [isFresh, Bool.and_eq_true, Bool.not_eq_true', List.contains_eq_mem,
    decide_eq_false_iff_not] at hf
  refine ⟨?_, hf.1.1.2⟩
  have hidle := hf.1.1.1
  cases hph : s.world.phase h <;> simp [hph] at hidle ⊢

theorem Driven.world_step (hs : Driven now m k s) {op : WorldOp} (hop : s.drives op)
    (h : s.world.step op = some t.world) (hk : Keeps s t) : Driven now m k t where
  world := hs.op h
  idle h' hmem := by
    rw [hk.queue] at hmem
    refine World.step_idle hs.inv h (hs.idle h' hmem) ?_
    rintro rfl
    exact hop hmem
  done h' hmem := World.step_done hs.inv h (hs.done h' (hk.completed ▸ hmem))

theorem Driven.drain (hs : Driven now m k s) (ht : Tracked s) {pc : Pc} :
    Driven now m k { s.drainCrossCore with pc := pc } := by
  have hnodup : s.crossCoreQueue.Nodup := by
    refine List.nodup_iff_count_le_one.mpr fun h => ?_
    have hle := ht.places_le h
    unfold places at hle
    omega
  rw [drainCrossCore_eq]
  refine ⟨hs.run (World.run_wakes s.crossCoreQueue hnodup hs.idle), by simp, fun h hmem => ?_⟩
  have htimer := World.foldl_enqueue_timer s.crossCoreQueue s.world
  exact (congrArg (fun timer : TimerState => timer.heap.done h) htimer).trans (hs.done h hmem)

theorem Driven.step (hs : Driven now m k s) (ht : Tracked s) {op : LoopOp}
    (h : EventLoop.step s op = some t) : Driven now m k t := by
  cases step_effect h with
  | quiet hw hk =>
    refine ⟨hw ▸ hs.world, ?_, ?_⟩
    · rw [hw, hk.queue]
      exact hs.idle
    · rw [hw, hk.completed]
      exact hs.done
  | world op hop hw hk => exact hs.world_step hop hw hk
  | cleanup pc heq =>
    subst heq
    refine ⟨hs.world, hs.idle, fun h' hmem => ?_⟩
    rcases List.mem_append.mp hmem with hmem | hmem
    · exact hs.done h' hmem
    · exact (List.mem_filter.mp hmem).2
  | drain pc heq => exact heq ▸ hs.drain ht
  | spawn h' hf heq =>
    subst heq
    obtain ⟨hidle, hnot⟩ := idle_of_isFresh hf
    refine ⟨hs.op (World.step_wake_eq hidle), fun k hk => ?_, hs.done⟩
    have hne : k ≠ h' := fun heq => hnot (heq ▸ hk)
    exact (World.enqueue_phase_of_ne hne).trans (hs.idle k hk)
  | push h' hf heq =>
    subst heq
    refine ⟨hs.world, fun k hk => ?_, hs.done⟩
    rcases List.mem_append.mp hk with hk | hk
    · exact hs.idle k hk
    · exact List.mem_singleton.mp hk ▸ (idle_of_isFresh hf).1
  | write h' hmem heq =>
    subst heq
    exact ⟨hs.world, hs.idle, hs.done⟩

theorem create_driven : Driven now m k (create now m k) :=
  ⟨⟨[], rfl⟩, by simp [create], by simp [create]⟩

/-- Every run of a loop is a run of its world. -/
theorem Reaches.driven {ops : List LoopOp} (h : Reaches now m k ops s) : Driven now m k s := by
  have hboth : Tracked s ∧ Driven now m k s :=
    Transition.invariant (fun s => Tracked s ∧ Driven now m k s)
      (fun hstep hs => ⟨hs.1.step hstep, hs.2.step hs.1 hstep⟩) ⟨create_tracked, create_driven⟩ h
  exact hboth.2

end Driven
end EventLoop
end RainRuntime
