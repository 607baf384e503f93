import RainRuntime.JoinHandles

/-!
# How long a join handle is good

A loop owns every task with a handle from `spawn_with_handle` to the first clean-up after
the end of the task, and no longer. A handle that is used within that time and awaited
once gives its waiter what the task produced.
-/

namespace RainRuntime
namespace EventLoop

inductive Change (s : EventLoop) (op : LoopOp) (t : EventLoop) : Prop
  | cleanup (hclean : JoinLoop.cleans s op = true)
      (howned : t.ownedTasks = s.ownedTasks.filter fun h => !s.world.heap.done h)
      (hcompleted : t.completed = s.completed ++ s.ownedTasks.filter fun h => s.world.heap.done h)
      (hworld : t.world = s.world)
  | world (op' : WorldOp) (hclean : JoinLoop.cleans s op = false)
      (hstep : s.world.step op' = some t.world)
      (hfinish : ∀ h, op' = .finish h → op = .world (.finish h))
      (howned : t.ownedTasks = s.ownedTasks) (hcompleted : t.completed = s.completed)
  | grow (fresh : List Handle) (hclean : JoinLoop.cleans s op = false)
      (hfresh : ∀ h ∈ fresh, s.isFresh h = true ∨ h ∈ s.crossCoreQueue)
      (howned : t.ownedTasks = s.ownedTasks ++ fresh) (hcompleted : t.completed = s.completed)
      (hdone : t.world.heap.done = s.world.heap.done)

section Change
variable {s t : EventLoop}

theorem Change.still {op : LoopOp} (hclean : JoinLoop.cleans s op = false)
    (howned : t.ownedTasks = s.ownedTasks) (hcompleted : t.completed = s.completed)
    (hdone : t.world.heap.done = s.world.heap.done) : Change s op t := by
  refine .grow [] hclean ?_ ?_ hcompleted hdone
  · intro h hmem
    exact absurd hmem List.not_mem_nil
  · rw [howned, List.append_nil]

theorem Change.drain {op : LoopOp} {pc : Pc} (hclean : JoinLoop.cleans s op = false) :
    Change s op { s.drainCrossCore with pc := pc } := by
  refine .grow s.crossCoreQueue hclean (fun h hmem => Or.inr hmem) ?_ ?_ ?_
  · rw [drainCrossCore_eq]
  · rw [drainCrossCore_eq]
  · rw [drainCrossCore_eq]
    have htimer := World.foldl_enqueue_timer s.crossCoreQueue s.world
    exact congrArg (fun timer : TimerState => timer.heap.done) htimer

theorem step_change {op : LoopOp} (h : step s op = some t) : Change s op t := by
  cases step_move h with
  | cleanup hpc => exact .cleanup (by rw [JoinLoop.cleans, hpc]) rfl rfl rfl
  | exitDrain hpc | drainCrossCore hpc => exact Change.drain (by rw [JoinLoop.cleans, hpc])
  | drainReactor hpc hw | advanceTimer hpc hw | drainTimer hpc hw =>
    exact .world _ (by rw [JoinLoop.cleans, hpc]) hw (fun _ hk => nomatch hk) rfl rfl
  | resume _ _ hw | pollFailed _ hw | polled _ hw =>
    exact .world _ rfl hw (fun _ hk => nomatch hk) rfl rfl
  | world _ hw => exact .world _ rfl hw (fun _ hk => congrArg LoopOp.world hk) rfl rfl
  | spawn _ hfresh =>
    exact .grow [_] rfl (fun _ hk => Or.inl (List.mem_singleton.mp hk ▸ hfresh)) rfl rfl rfl
  | goOn hpc =>
    rcases hpc with hpc | hpc <;> exact .still (by rw [JoinLoop.cleans, hpc]) rfl rfl rfl
  | run | push | write | requestStop | ring | elapse => exact .still rfl rfl rfl rfl
  | _ hpc => exact .still (by rw [JoinLoop.cleans, hpc]) rfl rfl rfl

end Change
end EventLoop

namespace JoinLoop
variable {α : Type*} {now : ℤ} {m : Heap} {k : Kernel} {s t : JoinLoop α}

structure Held (now : ℤ) (m : Heap) (k : Kernel) (s : JoinLoop α) : Prop where
  reaches : ∃ ops, EventLoop.Reaches now m k ops s.loop
  place : ∀ h ∈ s.handles, h ∈ s.loop.ownedTasks ∨ h ∈ s.loop.completed
  owns : ∀ h ∈ s.handles,
    h ∈ s.loop.ownedTasks ↔ s.loop.world.heap.done h = false ∨ h ∈ s.finishedNow

namespace Held

theorem inv (hs : Held now m k s) : World.Inv s.loop.world := by
  obtain ⟨ops, hr⟩ := hs.reaches
  exact hr.driven.inv

theorem not_fresh (hs : Held now m k s) {h : Handle} (hmem : h ∈ s.handles) :
    s.loop.isFresh h ≠ true ∧ h ∉ s.loop.crossCoreQueue := by
  obtain ⟨ops, hr⟩ := hs.reaches
  have hle := hr.tracked.places_le h
  have hpos : 0 < s.loop.ownedTasks.count h + s.loop.completed.count h := by
    rcases hs.place h hmem with hin | hin
    · have hcount := List.count_pos_iff.mpr hin
      omega
    · have hcount := List.count_pos_iff.mpr hin
      omega
  refine ⟨?_, ?_⟩
  · intro hf
    have hzero := EventLoop.places_of_isFresh hf
    rw [EventLoop.places] at hzero
    omega
  · intro hq
    have hcount := List.count_pos_iff.mpr hq
    rw [EventLoop.places] at hle
    omega

theorem reaches_step (hs : Held now m k s) {op : LoopOp} {l : EventLoop}
    (h : s.loop.step op = some l) : ∃ ops, EventLoop.Reaches now m k ops l := by
  obtain ⟨ops, hr⟩ := hs.reaches
  exact ⟨ops ++ [op], Transition.run_concat_eq_some.mpr ⟨s.loop, hr, h⟩⟩

theorem loop (hs : Held now m k s) {op : LoopOp} {l : EventLoop} (h : s.loop.step op = some l)
    (hop : ∀ h ∈ s.handles, op ≠ .world (.finish h)) :
    (∀ h ∈ s.handles, l.world.heap.done h = s.loop.world.heap.done h) ∧
    (∀ h ∈ s.handles, h ∈ l.ownedTasks ∨ h ∈ l.completed) ∧
    (∀ h ∈ s.handles, h ∈ l.ownedTasks ↔ l.world.heap.done h = false ∨
      h ∈ if cleans s.loop op then [] else s.finishedNow) := by
  cases EventLoop.step_change h with
  | cleanup hclean howned hcompleted hworld =>
    rw [howned, hcompleted, hworld, if_pos hclean]
    refine ⟨fun _ _ => rfl, ?_, ?_⟩
    · intro h' hmem
      rcases hs.place h' hmem with hin | hin
      · by_cases hd : s.loop.world.heap.done h' = true
        · exact Or.inr (List.mem_append_right _ (List.mem_filter.mpr ⟨hin, hd⟩))
        · exact Or.inl (List.mem_filter.mpr ⟨hin, by simpa using hd⟩)
      · exact Or.inr (List.mem_append_left _ hin)
    · intro h' hmem
      rw [List.mem_filter, hs.owns h' hmem]
      constructor
      · intro hin
        exact Or.inl (by simpa using hin.2)
      · intro hin
        have hd := hin.resolve_right List.not_mem_nil
        exact ⟨Or.inl hd, by simpa using hd⟩
  | world op' hclean hstep hfinish howned hcompleted =>
    have hdone : ∀ h ∈ s.handles, l.world.heap.done h = s.loop.world.heap.done h := by
      intro h' hmem
      refine World.step_done_eq hs.inv hstep ?_
      intro hop'
      exact hop h' hmem (hfinish h' hop')
    rw [howned, hcompleted, hclean]
    refine ⟨hdone, hs.place, ?_⟩
    intro h' hmem
    rw [hdone h' hmem]
    exact hs.owns h' hmem
  | grow fresh hclean hfresh howned hcompleted hdone =>
    have hnot : ∀ h ∈ s.handles, h ∉ fresh := by
      intro h' hmem hin
      rcases hfresh h' hin with hf | hq
      · exact (hs.not_fresh hmem).1 hf
      · exact (hs.not_fresh hmem).2 hq
    rw [howned, hcompleted, hclean, hdone]
    refine ⟨fun _ _ => rfl, ?_, ?_⟩
    · intro h' hmem
      rcases hs.place h' hmem with hin | hin
      · exact Or.inl (List.mem_append_left _ hin)
      · exact Or.inr hin
    · intro h' hmem
      rw [List.mem_append, or_iff_left (hnot h' hmem)]
      exact hs.owns h' hmem

theorem spawn (hs : Held now m k s) {h : Handle} {l : EventLoop}
    (hstep : s.loop.step (.spawn h) = some l) :
    h ∉ s.handles ∧ l.world.heap.done = s.loop.world.heap.done ∧ h ∈ l.ownedTasks := by
  simp only [EventLoop.step] at hstep
  split at hstep
  case h_3 => cases hstep
  all_goals
    split_ifs at hstep with hfresh
    cases hstep
    refine ⟨fun hmem => (hs.not_fresh hmem).1 hfresh, rfl, ?_⟩
    exact List.mem_append_right _ (List.mem_singleton.mpr rfl)

theorem finish (hs : Held now m k s) {h : Handle} {l : EventLoop}
    (hstep : s.loop.step (.world (.finish h)) = some l) :
    s.loop.world.heap.done h = false ∧
    l.world.heap.done = Function.update s.loop.world.heap.done h true ∧
    l.ownedTasks = s.loop.ownedTasks ∧ l.completed = s.loop.completed := by
  simp only [EventLoop.step] at hstep
  split_ifs at hstep
  obtain ⟨w, hw, rfl⟩ := EventLoop.withWorld_eq_some.mp hstep
  obtain ⟨on, hrun, rfl⟩ := World.step_finish.mp hw
  exact ⟨hs.inv.owned.done h (Or.inl ⟨on, hrun⟩), rfl, rfl, rfl⟩

theorem of_eq (hs : Held now m k s) (hloop : t.loop = s.loop) (hhandles : t.handles = s.handles)
    (hnow : t.finishedNow = s.finishedNow) : Held now m k t := by
  refine ⟨hloop ▸ hs.reaches, ?_, ?_⟩
  · rw [hhandles, hloop]
    exact hs.place
  · rw [hhandles, hloop, hnow]
    exact hs.owns

end Held

section Step
variable [Movable α]

theorem transfer_frame (s : JoinLoop α) (h : Handle) :
    (s.transfer h).loop = s.loop ∧ (s.transfer h).handles = s.handles ∧
      (s.transfer h).finishedNow = s.finishedNow := by
  rw [transfer]
  split
  · exact ⟨rfl, rfl, rfl⟩
  · exact ⟨rfl, rfl, rfl⟩

theorem awaitHandle_frame (s : JoinLoop α) (w h : Handle) :
    (s.awaitHandle w h).loop = s.loop ∧ (s.awaitHandle w h).handles = s.handles ∧
      (s.awaitHandle w h).finishedNow = s.finishedNow := by
  rw [awaitHandle]
  dsimp only
  split_ifs
  · exact ⟨rfl, rfl, rfl⟩
  · exact ⟨rfl, rfl, rfl⟩

omit [Movable α] in
theorem use_eq_some {u : JoinLoop α} {h : Handle} (hu : s.use h u = some t) :
    h ∈ s.handles ∧ ((h ∈ s.loop.ownedTasks ∧ t = u) ∨
      (h ∉ s.loop.ownedTasks ∧ t = { s with fault := true })) := by
  rw [use] at hu
  by_cases hmem : s.handles.contains h = true
  · rw [if_pos hmem, Option.some.injEq] at hu
    refine ⟨by simpa using hmem, ?_⟩
    by_cases howned : s.loop.ownedTasks.contains h = true
    · rw [if_pos howned] at hu
      exact Or.inl ⟨by simpa using howned, hu.symm⟩
    · rw [if_neg howned] at hu
      exact Or.inr ⟨by simpa using howned, hu.symm⟩
  · rw [if_neg hmem] at hu
    cases hu

omit [Movable α] in
theorem Held.use (hs : Held now m k s) {u : JoinLoop α} {h : Handle} (hu : s.use h u = some t)
    (hframe : u.loop = s.loop ∧ u.handles = s.handles ∧ u.finishedNow = s.finishedNow) :
    Held now m k t := by
  obtain ⟨_, ⟨_, rfl⟩ | ⟨_, rfl⟩⟩ := use_eq_some hu
  · exact hs.of_eq hframe.1 hframe.2.1 hframe.2.2
  · exact hs.of_eq rfl rfl rfl

omit [Movable α] in
theorem allows_finish {op : LoopOp} (hallow : s.allows op = true) :
    ∀ h ∈ s.handles, op ≠ .world (.finish h) := by
  rintro h hmem rfl
  rw [allows, Bool.and_eq_true] at hallow
  have hnot := hallow.2
  rw [Bool.not_eq_true', List.contains_eq_mem, decide_eq_false_iff_not] at hnot
  exact hnot hmem

inductive Effect (s : JoinLoop α) (op : JoinOp α) (t : JoinLoop α) : Prop
  | loop (op' : LoopOp) (l : EventLoop) (hop : op = .loop op') (hallow : s.allows op' = true)
      (hl : s.loop.step op' = some l)
      (eq : t = { s with
        loop := l
        finishedNow := if cleans s.loop op' then [] else s.finishedNow })
  | spawn (h : Handle) (l : EventLoop) (hop : op = .spawnWithHandle h)
      (hd : s.loop.world.heap.done h = false) (hl : s.loop.step (.spawn h) = some l)
      (eq : t = { s with
        loop := l
        handles := s.handles ++ [h]
        result := Function.update s.result h (.error makeCancelledError)
        continuation := Function.update s.continuation h none
        stopRequested := Function.update s.stopRequested h false })
  | finish (h : Handle) (r : Result α) (l : EventLoop) (hop : op = .finish h r)
      (hmem : h ∈ s.handles) (hl : s.loop.step (.world (.finish h)) = some l)
      (eq : t = ({ s with
        loop := l
        result := Function.update s.result h r
        produced := Function.update s.produced h (some r)
        finishedNow := s.finishedNow ++ [h] } : JoinLoop α).transfer h)
  | query (h : Handle) (b : Handle → Bool) (hop : op = .done h ∨ op = .requestStop h)
      (hu : s.use h { s with stopRequested := b } = some t)
  | await (w h : Handle) (hop : op = .await w h) (hw : s.joining w = false)
      (hu : s.use h (s.awaitHandle w h) = some t)

theorem step_effect {op : JoinOp α} (h : s.step op = some t) : s.Effect op t := by
  rw [step.eq_def] at h
  split at h
  · cases h
  cases op with
  | loop op =>
    simp only at h
    by_cases hallow : s.allows op = true
    · rw [if_pos hallow] at h
      obtain ⟨l, hl, rfl⟩ := Option.map_eq_some_iff.mp h
      exact .loop op l rfl hallow hl rfl
    · rw [if_neg hallow] at h
      cases h
  | spawnWithHandle h' =>
    simp only at h
    split_ifs at h with hd
    obtain ⟨l, hl, rfl⟩ := Option.map_eq_some_iff.mp h
    exact .spawn h' l rfl (Bool.eq_false_iff.mpr hd) hl rfl
  | finish h' r =>
    simp only at h
    split_ifs at h with hmem
    obtain ⟨l, hl, rfl⟩ := Option.map_eq_some_iff.mp h
    rw [Bool.and_eq_true] at hmem
    exact .finish h' r l rfl (by simpa using hmem.1) hl rfl
  | done h' => exact .query h' s.stopRequested (Or.inl rfl) h
  | requestStop h' => exact .query h' _ (Or.inr rfl) h
  | await w h' =>
    simp only at h
    split_ifs at h with hw
    rw [Bool.and_eq_true] at hw
    exact .await w h' rfl (by simpa using hw.2) h

theorem Held.step {op : JoinOp α} (hs : Held now m k s) (h : s.step op = some t) :
    Held now m k t := by
  cases step_effect h with
  | loop op' l hop hallow hl heq =>
    subst heq
    obtain ⟨_, hplace, howns⟩ := hs.loop hl (allows_finish hallow)
    exact ⟨hs.reaches_step hl, hplace, howns⟩
  | spawn h' l hop hd hl heq =>
    subst heq
    obtain ⟨_, hdone, howned⟩ := hs.spawn hl
    obtain ⟨_, hplace, howns⟩ := hs.loop hl (fun _ _ hne => (by cases hne))
    refine ⟨hs.reaches_step hl, ?_, ?_⟩
    · intro g hg
      rcases List.mem_append.mp hg with hg | hg
      · exact hplace g hg
      · exact Or.inl (List.mem_singleton.mp hg ▸ howned)
    · intro g hg
      rcases List.mem_append.mp hg with hg | hg
      · exact howns g hg
      · rw [List.mem_singleton.mp hg]
        refine iff_of_true howned (Or.inl ?_)
        rw [hdone]
        exact hd
  | finish h' r l hop hmem hl heq =>
    subst heq
    obtain ⟨hd, hdone, howned, hcompleted⟩ := hs.finish hl
    refine Held.of_eq (s := { s with loop := l, finishedNow := s.finishedNow ++ [h'] }) ?_
      (transfer_frame _ h').1 (transfer_frame _ h').2.1 (transfer_frame _ h').2.2
    refine ⟨hs.reaches_step hl, ?_, ?_⟩
    · intro g hg
      rw [howned, hcompleted]
      exact hs.place g hg
    · intro g hg
      rw [howned, hs.owns g hg, hdone, List.mem_append, List.mem_singleton]
      by_cases hgh : g = h'
      · rw [hgh]
        exact iff_of_true (Or.inl hd) (Or.inr (Or.inr rfl))
      · rw [Function.update_of_ne hgh, or_iff_left hgh]
  | query h' b hop hu => exact hs.use hu ⟨rfl, rfl, rfl⟩
  | await w h' hop hw hu => exact hs.use hu (awaitHandle_frame s w h')

omit [Movable α] in
theorem held_create : Held now m k (create now m k : JoinLoop α) :=
  ⟨⟨[], rfl⟩, fun _ h => absurd h List.not_mem_nil, fun _ h => absurd h List.not_mem_nil⟩

/-! ## What waiters get -/

structure Served (s : JoinLoop α) : Prop where
  sound : s.fault = false
  handles : ∀ h ∈ s.awaited, h ∈ s.handles
  returned : ∀ w h r, (w, h, r) ∈ s.returned →
    h ∈ s.awaited ∧ s.loop.world.heap.done h = true ∧ s.produced h = some r
  untouched : ∀ h ∈ s.handles, h ∉ s.awaited → s.continuation h = none ∧
    (s.loop.world.heap.done h = true → s.produced h = some (s.result h))
  waits : ∀ h ∈ s.awaited,
    (s.loop.world.heap.done h = true ∧ ∃ w r, (w, h, r) ∈ s.returned) ∨
    (s.loop.world.heap.done h = false ∧ ∃ w, s.continuation h = some w ∧ s.joining w = true)
  single : ∀ h ∈ s.awaited, ∀ h' ∈ s.awaited, ∀ w, s.loop.world.heap.done h = false →
    s.loop.world.heap.done h' = false → s.continuation h = some w → s.continuation h' = some w →
    h = h'

namespace Served

omit [Movable α] in
theorem loop (hv : s.Served) {l : EventLoop} {now' : List Handle}
    (hdone : ∀ h ∈ s.handles, l.world.heap.done h = s.loop.world.heap.done h) :
    Served { s with loop := l, finishedNow := now' } := by
  have hdone' : ∀ h ∈ s.awaited, l.world.heap.done h = s.loop.world.heap.done h :=
    fun h hmem => hdone h (hv.handles h hmem)
  refine ⟨hv.sound, hv.handles, ?_, ?_, ?_, ?_⟩
  · intro w h r hmem
    obtain ⟨ha, hd, hp⟩ := hv.returned w h r hmem
    exact ⟨ha, (hdone' h ha).trans hd, hp⟩
  · intro h hmem hna
    obtain ⟨hc, hp⟩ := hv.untouched h hmem hna
    refine ⟨hc, fun hd => hp ?_⟩
    rw [← hdone h hmem]
    exact hd
  · intro h hmem
    have hw := hv.waits h hmem
    rw [← hdone' h hmem] at hw
    exact hw
  · intro h hmem h' hmem' w hd hd' hc hc'
    refine hv.single h hmem h' hmem' w ?_ ?_ hc hc'
    · rw [← hdone' h hmem]
      exact hd
    · rw [← hdone' h' hmem']
      exact hd'

omit [Movable α] in
theorem spawn (hv : s.Served) {h : Handle} {l : EventLoop} {b : Handle → Bool}
    (hnew : h ∉ s.handles) (hdone : l.world.heap.done = s.loop.world.heap.done)
    (hd : s.loop.world.heap.done h = false) : Served { s with
      loop := l
      handles := s.handles ++ [h]
      result := Function.update s.result h (.error makeCancelledError)
      continuation := Function.update s.continuation h none
      stopRequested := b } := by
  have hold : ∀ {g}, g ∈ s.handles → g ≠ h := by
    rintro g hg rfl
    exact hnew hg
  refine ⟨hv.sound, ?_, ?_, ?_, ?_, ?_⟩
  all_goals dsimp only
  · intro g hg
    exact List.mem_append_left _ (hv.handles g hg)
  · intro w g r hmem
    rw [hdone]
    exact hv.returned w g r hmem
  · intro g hg hna
    rcases List.mem_append.mp hg with hg | hg
    · rw [hdone, Function.update_of_ne (hold hg), Function.update_of_ne (hold hg)]
      exact hv.untouched g hg hna
    · rw [List.mem_singleton.mp hg, hdone, hd, Function.update_self]
      exact ⟨rfl, fun hd' => absurd hd' (by decide)⟩
  · intro g hg
    rw [hdone, Function.update_of_ne (hold (hv.handles g hg))]
    exact hv.waits g hg
  · intro g hg g' hg' w hdg hdg' hc hc'
    rw [hdone] at hdg hdg'
    rw [Function.update_of_ne (hold (hv.handles g hg))] at hc
    rw [Function.update_of_ne (hold (hv.handles g' hg'))] at hc'
    exact hv.single g hg g' hg' w hdg hdg' hc hc'

theorem finish (hv : s.Served) {h : Handle} {r : Result α} {l : EventLoop} {now' : List Handle}
    (hmem : h ∈ s.handles) (hd : s.loop.world.heap.done h = false)
    (hdone : l.world.heap.done = Function.update s.loop.world.heap.done h true) :
    Served (({ s with
      loop := l
      result := Function.update s.result h r
      produced := Function.update s.produced h (some r)
      finishedNow := now' } : JoinLoop α).transfer h) := by
  have hself : l.world.heap.done h = true := by rw [hdone, Function.update_self]
  have hother : ∀ {g}, g ≠ h → l.world.heap.done g = s.loop.world.heap.done g := by
    intro g hg
    rw [hdone, Function.update_of_ne hg]
  have hundone : ∀ {g}, l.world.heap.done g = false → g ≠ h ∧
      s.loop.world.heap.done g = false := by
    intro g hg
    have hgh : g ≠ h := by
      rintro rfl
      rw [hself] at hg
      cases hg
    exact ⟨hgh, (hother hgh).symm.trans hg⟩
  have hreturned : ∀ w g r', (w, g, r') ∈ s.returned →
      g ∈ s.awaited ∧ l.world.heap.done g = true ∧
        Function.update s.produced h (some r) g = some r' := by
    intro w g r' hin
    obtain ⟨ha, hdg, hp⟩ := hv.returned w g r' hin
    have hgh : g ≠ h := by
      rintro rfl
      rw [hd] at hdg
      cases hdg
    rw [hother hgh, Function.update_of_ne hgh]
    exact ⟨ha, hdg, hp⟩
  cases hc : s.continuation h with
  | none =>
    have hna : h ∉ s.awaited := by
      intro ha
      rcases hv.waits h ha with ⟨hd', _⟩ | ⟨_, w, hw, _⟩
      · rw [hd] at hd'
        cases hd'
      · rw [hc] at hw
        cases hw
    rw [transfer]
    simp only [hc]
    refine ⟨hv.sound, hv.handles, hreturned, ?_, ?_, ?_⟩
    all_goals dsimp only
    · intro g hg hgna
      by_cases hgh : g = h
      · rw [hgh, Function.update_self, Function.update_self]
        exact ⟨hc, fun _ => rfl⟩
      · rw [hother hgh, Function.update_of_ne hgh, Function.update_of_ne hgh]
        exact hv.untouched g hg hgna
    · intro g hg
      have hgh : g ≠ h := by
        rintro rfl
        exact hna hg
      rw [hother hgh]
      exact hv.waits g hg
    · intro g hg g' hg' w hdg hdg'
      exact hv.single g hg g' hg' w (hundone hdg).2 (hundone hdg').2
  | some w =>
    have ha : h ∈ s.awaited := by
      by_contra hna
      rw [(hv.untouched h hmem hna).1] at hc
      cases hc
    rw [transfer]
    simp only [hc, take, Function.update_self]
    refine ⟨hv.sound, hv.handles, ?_, ?_, ?_, ?_⟩
    all_goals dsimp only
    · intro w' g r' hin
      rcases List.mem_append.mp hin with hin | hin
      · exact hreturned w' g r' hin
      · rw [List.mem_singleton] at hin
        cases hin
        rw [Function.update_self]
        exact ⟨ha, hself, rfl⟩
    · intro g hg hgna
      have hgh : g ≠ h := by
        rintro rfl
        exact hgna ha
      rw [hother hgh, Function.update_of_ne hgh, Function.update_of_ne hgh,
        Function.update_of_ne hgh]
      exact hv.untouched g hg hgna
    · intro g hg
      by_cases hgh : g = h
      · rw [hgh]
        exact Or.inl ⟨hself, w, r, List.mem_append_right _ (List.mem_singleton.mpr rfl)⟩
      · rw [hother hgh]
        rcases hv.waits g hg with ⟨hdg, w', r', hin⟩ | ⟨hdg, w', hcw, hjw⟩
        · exact Or.inl ⟨hdg, w', r', List.mem_append_left _ hin⟩
        · refine Or.inr ⟨hdg, w', hcw, ?_⟩
          have hww : w' ≠ w := by
            rintro rfl
            exact hgh (hv.single g hg h ha w' hdg hd hcw hc)
          rw [Function.update_of_ne hww]
          exact hjw
    · intro g hg g' hg' w' hdg hdg'
      exact hv.single g hg g' hg' w' (hundone hdg).2 (hundone hdg').2

theorem awaitHandle (hv : s.Served) {w h : Handle} (hmem : h ∈ s.handles) (hna : h ∉ s.awaited)
    (hw : s.joining w = false) : (s.awaitHandle w h).Served := by
  have hawaited : ∀ {g}, g ∈ s.awaited ++ [h] → g ≠ h → g ∈ s.awaited := by
    intro g hg hgh
    rcases List.mem_append.mp hg with hg | hg
    · exact hg
    · exact absurd (List.mem_singleton.mp hg) hgh
  have hne : ∀ {g}, g ∉ s.awaited ++ [h] → g ≠ h ∧ g ∉ s.awaited := by
    intro g hg
    rw [List.mem_append, List.mem_singleton, not_or] at hg
    exact ⟨hg.2, hg.1⟩
  have hhandles : ∀ g ∈ s.awaited ++ [h], g ∈ s.handles := by
    intro g hg
    by_cases hgh : g = h
    · rw [hgh]
      exact hmem
    · exact hv.handles g (hawaited hg hgh)
  rw [JoinLoop.awaitHandle]
  dsimp only
  split_ifs with hd
  · have hproduced := (hv.untouched h hmem hna).2 hd
    rw [take]
    refine ⟨hv.sound, hhandles, ?_, ?_, ?_, ?_⟩
    all_goals dsimp only
    · intro w' g r hin
      rcases List.mem_append.mp hin with hin | hin
      · obtain ⟨hga, hgd, hgp⟩ := hv.returned w' g r hin
        exact ⟨List.mem_append_left _ hga, hgd, hgp⟩
      · rw [List.mem_singleton] at hin
        cases hin
        exact ⟨List.mem_append_right _ (List.mem_singleton.mpr rfl), hd, hproduced⟩
    · intro g hg hgna
      obtain ⟨hgh, hgna'⟩ := hne hgna
      rw [Function.update_of_ne hgh]
      exact hv.untouched g hg hgna'
    · intro g hg
      by_cases hgh : g = h
      · rw [hgh]
        exact Or.inl ⟨hd, w, _, List.mem_append_right _ (List.mem_singleton.mpr rfl)⟩
      · rcases hv.waits g (hawaited hg hgh) with ⟨hgd, w', r, hin⟩ | hwait
        · exact Or.inl ⟨hgd, w', r, List.mem_append_left _ hin⟩
        · exact Or.inr hwait
    · intro g hg g' hg' w' hgd hgd' hgc hgc'
      have hundone : ∀ {x}, s.loop.world.heap.done x = false → x ≠ h := by
        rintro x hx rfl
        rw [hd] at hx
        cases hx
      exact hv.single g (hawaited hg (hundone hgd)) g' (hawaited hg' (hundone hgd')) w' hgd hgd'
        hgc hgc'
  · have hd' : s.loop.world.heap.done h = false := Bool.eq_false_iff.mpr hd
    -- the waiter is not suspended at another handle
    have hfree : ∀ g ∈ s.awaited, s.loop.world.heap.done g = false →
        s.continuation g ≠ some w := by
      intro g hg hgd hgc
      rcases hv.waits g hg with ⟨hgd', _⟩ | ⟨_, w', hgc', hjw⟩
      · rw [hgd] at hgd'
        cases hgd'
      · rw [hgc, Option.some.injEq] at hgc'
        rw [← hgc', hw] at hjw
        cases hjw
    refine ⟨hv.sound, hhandles, ?_, ?_, ?_, ?_⟩
    all_goals dsimp only
    · intro w' g r hin
      obtain ⟨hga, hgd, hgp⟩ := hv.returned w' g r hin
      exact ⟨List.mem_append_left _ hga, hgd, hgp⟩
    · intro g hg hgna
      obtain ⟨hgh, hgna'⟩ := hne hgna
      rw [Function.update_of_ne hgh]
      exact hv.untouched g hg hgna'
    · intro g hg
      by_cases hgh : g = h
      · rw [hgh]
        exact Or.inr ⟨hd', w, Function.update_self .., Function.update_self ..⟩
      · rw [Function.update_of_ne hgh]
        rcases hv.waits g (hawaited hg hgh) with hret | ⟨hgd, w', hgc, hjw⟩
        · exact Or.inl hret
        · refine Or.inr ⟨hgd, w', hgc, ?_⟩
          by_cases hww : w' = w
          · rw [hww, Function.update_self]
          · rw [Function.update_of_ne hww]
            exact hjw
    · intro g hg g' hg' w' hgd hgd' hgc hgc'
      by_cases hgh : g = h
      · by_cases hgh' : g' = h
        · rw [hgh, hgh']
        · rw [hgh, Function.update_self, Option.some.injEq] at hgc
          rw [Function.update_of_ne hgh', ← hgc] at hgc'
          exact absurd hgc' (hfree g' (hawaited hg' hgh') hgd')
      · by_cases hgh' : g' = h
        · rw [hgh', Function.update_self, Option.some.injEq] at hgc'
          rw [Function.update_of_ne hgh, ← hgc'] at hgc
          exact absurd hgc (hfree g (hawaited hg hgh) hgd)
        · rw [Function.update_of_ne hgh] at hgc
          rw [Function.update_of_ne hgh'] at hgc'
          exact hv.single g (hawaited hg hgh) g' (hawaited hg' hgh') w' hgd hgd' hgc hgc'

theorem step {op : JoinOp α} (hs : Held now m k s) (hv : s.Served) (hop : s.InTime op)
    (h : s.step op = some t) : t.Served := by
  cases step_effect h with
  | loop op' l _ hallow hl heq =>
    subst heq
    exact hv.loop (hs.loop hl (allows_finish hallow)).1
  | spawn h' l _ hd hl heq =>
    subst heq
    obtain ⟨hnew, hdone, _⟩ := hs.spawn hl
    exact hv.spawn hnew hdone hd
  | finish h' r l _ hmem hl heq =>
    subst heq
    obtain ⟨hd, hdone, _⟩ := hs.finish hl
    exact hv.finish hmem hd hdone
  | query h' b hquery hu =>
    have htime : s.loop.world.heap.done h' = false ∨ h' ∈ s.finishedNow := by
      rcases hquery with rfl | rfl
      · exact hop
      · exact hop
    obtain ⟨hmem, ⟨_, rfl⟩ | ⟨hnot, _⟩⟩ := use_eq_some hu
    · exact ⟨hv.sound, hv.handles, hv.returned, hv.untouched, hv.waits, hv.single⟩
    · exact absurd ((hs.owns h' hmem).mpr htime) hnot
  | await w h' hawait hw hu =>
    subst hawait
    obtain ⟨hmem, ⟨_, rfl⟩ | ⟨hnot, _⟩⟩ := use_eq_some hu
    · exact hv.awaitHandle hmem hop.2 hw
    · exact absurd ((hs.owns h' hmem).mpr hop.1) hnot

end Served

omit [Movable α] in
theorem served_create : (create now m k : JoinLoop α).Served where
  sound := rfl
  handles := fun _ h => absurd h List.not_mem_nil
  returned := fun _ _ _ h => absurd h List.not_mem_nil
  untouched := fun _ h => absurd h List.not_mem_nil
  waits := fun _ h => absurd h List.not_mem_nil
  single := fun _ h => absurd h List.not_mem_nil

/-- The loop holds the frame of a task with a handle until the first clean-up after the end of the
task. In a run in which every handle is used within that time and awaited once, no frame is used
after it is gone, every await of a finished task has returned, and awaits return what the task
produced. -/
theorem join_handle_used_in_time {ops : List (JoinOp α)} (hr : Reaches now m k ops s)
    (hops : Transition.Guarded step InTime (create now m k) ops) :
    s.fault = false ∧
    (∀ h ∈ s.handles,
      h ∈ s.loop.ownedTasks ↔ s.loop.world.heap.done h = false ∨ h ∈ s.finishedNow) ∧
    (∀ w h r, (w, h, r) ∈ s.returned → s.produced h = some r) ∧
    (∀ h ∈ s.awaited, s.loop.world.heap.done h = true → ∃ w r, (w, h, r) ∈ s.returned) := by
  have hboth : Held now m k s ∧ s.Served :=
    Transition.invariant_of_guarded InTime (fun u => Held now m k u ∧ u.Served)
      (fun hop hstep hu => ⟨hu.1.step hstep, hu.2.step hu.1 hop hstep⟩)
      ⟨held_create, served_create⟩ hops hr
  obtain ⟨hs, hv⟩ := hboth
  refine ⟨hv.sound, hs.owns, ?_, ?_⟩
  · intro w h r hin
    exact (hv.returned w h r hin).2.2
  · intro h hmem hd
    rcases hv.waits h hmem with ⟨_, hret⟩ | ⟨hd', _⟩
    · exact hret
    · rw [hd] at hd'
      cases hd'

end Step

def awaitThenFinish : List (JoinOp ℕ) :=
  [.loop (.spawn 8), .spawnWithHandle 7, .loop .run, .loop .next, .loop (.resume (.ok 0)),
    .await 8 7, .loop (.resume (.ok 0)), .finish 7 (.ok 5), .done 7]

theorem join_handle_used_in_time_on_waiter : ∃ s,
    Reaches 0 World.blankHeap World.blankKernel awaitThenFinish s ∧ s.fault = false ∧
    s.returned = [(8, 7, .ok 5)] ∧ s.produced 7 = some (.ok 5) := by
  have hops : Transition.Guarded step InTime
      (create 0 World.blankHeap World.blankKernel) awaitThenFinish := by
    refine ⟨trivial, fun t ht => ?_⟩
    cases ht
    refine ⟨trivial, fun t ht => ?_⟩
    cases ht
    refine ⟨trivial, fun t ht => ?_⟩
    cases ht
    refine ⟨trivial, fun t ht => ?_⟩
    cases ht
    refine ⟨trivial, fun t ht => ?_⟩
    cases ht
    refine ⟨⟨Or.inl rfl, List.not_mem_nil⟩, fun t ht => ?_⟩
    cases ht
    refine ⟨trivial, fun t ht => ?_⟩
    cases ht
    refine ⟨trivial, fun t ht => ?_⟩
    cases ht
    exact ⟨Or.inr (List.mem_singleton.mpr rfl), fun _ _ => trivial⟩
  obtain ⟨s, hr, hret⟩ : ∃ s,
      Reaches 0 World.blankHeap World.blankKernel awaitThenFinish s ∧
      s.returned = [(8, 7, .ok 5)] := ⟨_, rfl, rfl⟩
  have hall := join_handle_used_in_time hr hops
  refine ⟨s, hr, hall.1, hret, hall.2.2.1 8 7 (.ok 5) ?_⟩
  rw [hret]
  exact List.mem_singleton.mpr rfl

def awaitTooLate : List (JoinOp ℕ) :=
  [.spawnWithHandle 7, .loop (.spawn 8), .loop .run, .loop .next, .loop (.resume (.ok 0)),
    .finish 7 (.ok 5), .loop (.resume (.ok 0)), .loop (.spawn 9), .loop (.world (.finish 8)),
    .loop .next, .loop .next, .loop .next, .loop .next, .loop (.poll (.reported []) false),
    .loop .next, .loop .next, .loop .next, .loop .next, .loop .next, .loop (.resume (.ok 0))]

theorem join_handle_outlives_frame : ∃ s t,
    Reaches 0 World.blankHeap World.blankKernel awaitTooLate s ∧ s.handles = [7] ∧
    s.loop.ownedTasks = [9] ∧ s.step (.await 9 7) = some t ∧ t.fault = true ∧ t.returned = [] :=
  ⟨_, _, rfl, rfl, rfl, rfl, rfl, rfl⟩

end JoinLoop
end RainRuntime
