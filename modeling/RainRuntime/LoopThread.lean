import RainRuntime.StopReach

/-!
# The one thread of a loop

A loop resumes its coroutines one after the other: who was resumed runs until it suspends or
ends, and only then the next one is taken off the ready queue. `turn` is `TaskLoop.step` under
this rule. In its runs at most one strand runs at a time, and who was woken is in the ready
queue until it runs (`Orderly`).

A step is about one coroutine. `Calm` is what all the others notice of it.
-/

namespace RainRuntime
namespace World
variable {s t u : World} {actor : Option Handle}

structure Calm (s t : World) (actor : Option Handle) : Prop where
  phase : ∀ h, actor ≠ some h → t.phase h = s.phase h ∨
    ∃ a b, s.phase h = .waiting a ∧ t.phase h = .waiting b
  done : ∀ h, actor ≠ some h → t.heap.done h = s.heap.done h
  ready : ∀ h, actor ≠ some h → h ∈ s.ready → h ∈ t.ready

theorem Calm.refl (s : World) (actor : Option Handle) : Calm s s actor :=
  ⟨fun _ _ => Or.inl rfl, fun _ _ => rfl, fun _ _ hmem => hmem⟩

theorem Calm.trans (h₁ : Calm s t actor) (h₂ : Calm t u actor) : Calm s u actor where
  phase h hne := by
    rcases h₂.phase h hne with heq | ⟨b, c, hb, hc⟩
    · rw [heq]
      exact h₁.phase h hne
    · rcases h₁.phase h hne with heq | ⟨a, b', ha, -⟩
      · exact Or.inr ⟨b, c, heq ▸ hb, hc⟩
      · exact Or.inr ⟨a, c, ha, hc⟩
  done h hne := (h₂.done h hne).trans (h₁.done h hne)
  ready h hne hmem := h₂.ready h hne (h₁.ready h hne hmem)

theorem Calm.widen (h : Calm s t none) (actor : Option Handle) : Calm s t actor :=
  ⟨fun k _ => h.phase k (by simp), fun k _ => h.done k (by simp), fun k _ => h.ready k (by simp)⟩

theorem Calm.phase_eq (hc : Calm s t actor) {h : Handle} (hne : actor ≠ some h)
    (hn : ∀ a, s.phase h ≠ .waiting a) : t.phase h = s.phase h := by
  rcases hc.phase h hne with heq | ⟨a, b, ha, -⟩
  · exact heq
  · exact absurd ha (hn a)

theorem Calm.isRunning (hc : Calm s t actor) {h : Handle} (hne : actor ≠ some h) :
    t.isRunning h = s.isRunning h := by
  rcases hc.phase h hne with heq | ⟨a, b, ha, hb⟩
  · rw [World.isRunning, World.isRunning, heq]
  · rw [World.isRunning, World.isRunning, ha, hb]

theorem step_calm (hs : Inv s) {op : WorldOp} (hstep : step s op = some t) :
    Calm s t (s.actor op) := by
  have hframe := (step_spec hs hstep).frame
  refine ⟨fun h hne => Or.inl (hframe h hne).1, fun h hne => (hframe h hne).2, ?_⟩
  intro h hne hmem
  by_cases hop : ∃ sys, op = .resume sys
  · obtain ⟨sys, rfl⟩ := hop
    obtain ⟨k, rest, hready, hrest, hactor⟩ := resume_grows hstep
    rw [hready] at hmem
    rcases List.mem_cons.mp hmem with rfl | hmem
    · exact absurd hactor hne
    · exact hrest.subset hmem
  · exact (step_grows hstep fun sys he => hop ⟨sys, he⟩).subset hmem

/-! ## Stopping a source -/

theorem runCallback_calm (hs : Inv s) (src : ℕ) (h : Handle) :
    Calm s (runCallback src s h) none := by
  rcases runCallback_cases src s h with ⟨heq, -⟩ | ⟨a, hw, -, hstep⟩
  · rw [heq]
    exact Calm.refl s none
  generalize runCallback src s h = t at hstep ⊢
  obtain ⟨hinv, hothers, hself, -, -⟩ := step_callback_spec hs hw hstep
  constructor
  case phase =>
    intro k _
    by_cases hk : k = h
    · subst hk
      exact Or.inr ⟨a, _, hw, hself⟩
    · exact Or.inl (hothers.phase k hk)
  case done =>
    intro k _
    by_cases hk : k = h
    · subst hk
      rw [hs.owned.done k (Or.inr ⟨a, hw⟩), hinv.owned.done k (Or.inr ⟨_, hself⟩)]
    · exact hothers.done k hk
  case ready => exact fun k _ hmem => (step_grows hstep (by simp)).subset hmem

theorem callbacks_calm (order : List Handle) (src : ℕ) (hs : Inv s) (hl : Local s) :
    Calm s (order.foldl (runCallback src) s) none := by
  induction order generalizing s with
  | nil => exact Calm.refl s none
  | cons k order ih =>
    have hone := runCallback_stops hs hl src k
    exact (runCallback_calm hs src k).trans (ih hone.inv hone.home)

theorem callbacks_stopped (order : List Handle) (src : ℕ) (hs : Inv s) (hl : Local s) :
    (order.foldl (runCallback src) s).stopped = s.stopped := by
  induction order generalizing s with
  | nil => rfl
  | cons k order ih =>
    have hone := runCallback_stops hs hl src k
    exact (ih hone.inv hone.home).trans hone.stopped

theorem stopSource_spec (hs : Settled s) (order : List Handle) (src : ℕ) :
    Calm s (s.stopSource order src) none ∧ (s.stopSource order src).stopped src ≠ none ∧
      ∀ x, x ≠ src → (s.stopSource order src).stopped x = s.stopped x := by
  by_cases hst : s.stopped src = none
  swap
  · rw [stopSource_of_stopped order hst]
    exact ⟨Calm.refl s none, hst, fun _ _ => rfl⟩
  set v : World := { s with stopped := Function.update s.stopped src (some (some ownerLoop)) }
    with hv
  have hstep : s.step (.requestStop src (some ownerLoop)) = some v :=
    step_requestStop.mpr ⟨hst, rfl⟩
  have heq : s.stopSource order src = order.foldl (runCallback src) v := by
    rw [World.stopSource, hstep]
  have hinv := (step_spec hs.inv hstep).inv
  have hlocal : LocalStop (.requestStop src (some ownerLoop)) := rfl
  have hhome := step_local hlocal hstep hs.home
  rw [heq, callbacks_stopped order src hinv hhome]
  refine ⟨(step_calm hs.inv hstep).trans (callbacks_calm order src hinv hhome), ?_, ?_⟩
  · rw [hv]
    simp
  · exact fun x hx => Function.update_of_ne hx _ _

theorem stops_spec (sources : List ℕ) {order : List Handle} (hs : Settled s)
    (hall : ∀ h a, s.phase h = .waiting a → h ∈ order) :
    Calm s (sources.foldl (World.stopSource order) s) none ∧
      (∀ x ∈ sources, (sources.foldl (World.stopSource order) s).stopped x ≠ none) ∧
      ∀ x, s.stopped x ≠ none → (sources.foldl (World.stopSource order) s).stopped x ≠ none := by
  induction sources generalizing s with
  | nil => exact ⟨Calm.refl s none, by simp, fun _ hx => hx⟩
  | cons src sources ih =>
    obtain ⟨hcalm, hmark, hother⟩ := stopSource_spec hs order src
    obtain ⟨hsettled, hnone⟩ := hs.stopSource src hall
    have hall' : ∀ h a, (s.stopSource order src).phase h = .waiting a → h ∈ order := by
      intro h b hb
      obtain ⟨a, ha, -⟩ := hnone h b hb
      exact hall h a ha
    obtain ⟨hcalm', hmarks, hkept⟩ := ih hsettled hall'
    refine ⟨hcalm.trans hcalm', fun x hx => ?_, fun x hx => hkept x ?_⟩
    · rcases List.mem_cons.mp hx with rfl | hx
      · exact hkept x hmark
      · exact hmarks x hx
    · by_cases he : x = src
      · rw [he]
        exact hmark
      · rw [hother x he]
        exact hx

/-! ## The step's own coroutine -/

def Busies (s t : World) : Prop :=
  ∀ h, t.phase h = s.phase h ∨ (∃ on, t.phase h = .running on) ∨ ∃ a, t.phase h = .waiting a

theorem Busies.of_update {h : Handle} {p : Phase} (hp : t.phase = Function.update s.phase h p)
    (hbusy : (∃ on, p = .running on) ∨ ∃ a, p = .waiting a) : Busies s t := by
  intro k
  rw [hp]
  by_cases hk : k = h
  · subst hk
    rw [Function.update_self]
    exact Or.inr hbusy
  · exact Or.inl (Function.update_of_ne hk _ _)

theorem busies_rule (tls : Option LoopId) : Rule Busies tls where
  refl _ _ := Or.inl rfl
  trans h h' k := by
    rcases h' k with heq | hbusy
    · rw [heq]
      exact h k
    · exact Or.inr hbusy
  io _ _ _ := Or.inl rfl
  cancel _ _ _ := Or.inl rfl
  schedule _ _ _ _ _ _ := Or.inl rfl
  signal s h a k := by
    unfold signal notify
    cases a.kind with
    | sleep => exact Or.inl rfl
    | _ =>
      cases tls with
      | none => exact Or.inl rfl
      | some l =>
        dsimp only
        split_ifs <;> exact Or.inl rfl
  mark _ _ _ := Or.inl rfl
  suspend _ _ a := Busies.of_update rfl (Or.inr ⟨a, rfl⟩)
  go _ _ on _ _ _ := Busies.of_update rfl (Or.inl ⟨on, rfl⟩)
  unmark _ _ _ := Or.inl rfl
  run _ _ on _ := Busies.of_update rfl (Or.inl ⟨on, rfl⟩)

theorem step_await_phase {h : Handle} {kind : WaitKind} {fd : ℤ} {cell : StatePtr}
    {token : Option ℕ} {sys : Except Errno ℕ}
    (hstep : step s (.await h kind fd cell token sys) = some t) :
    (∃ on, t.phase h = .running on) ∨ ∃ a, t.phase h = .waiting a := by
  obtain ⟨on, hrun, -, rfl⟩ := step_await.mp hstep
  rcases (busies_rule (some on)).await s h kind fd cell token sys h with heq | hbusy
  · exact Or.inl ⟨on, heq.trans hrun⟩
  · exact hbusy

theorem Inv.queued_or_waiting (hs : Inv s) {h : Handle} (hmem : h ∈ s.ready) :
    s.phase h = .queued ∨ ∃ a, s.phase h = .waiting a := by
  have hpos : 0 < s.enqueued h := by
    have := List.count_pos_iff.mpr hmem
    simp only [enqueued, lines]
    omega
  have hq := hs.owned.queue h
  unfold QueueOk at hq
  cases hp : s.phase h with
  | queued => exact Or.inl rfl
  | waiting a => exact Or.inr ⟨a, rfl⟩
  | _ =>
    rw [hp] at hq
    dsimp only at hq
    omega

end World

/-! ## Turns -/

def Place.isLeaf {τ : TaskType} : Place τ → Bool
  | .leaf _ => true
  | _ => false

namespace TaskLoop

def busy (s : TaskLoop) : Bool := (List.range s.strands).any s.world.isRunning

/-- A step of the loop, which resumes nobody while a strand runs. -/
def turn (s : TaskLoop) : TaskLoopOp → Option TaskLoop
  | .resume sys => if s.busy then none else s.step (.resume sys)
  | op => s.step op

theorem step_of_turn {s t : TaskLoop} {op : TaskLoopOp} (h : s.turn op = some t) :
    s.step op = some t := by
  cases op with
  | resume sys =>
    rw [turn] at h
    split_ifs at h
    exact h
  | _ => exact h

structure OrderlyAt (s : TaskLoop) (h : Handle) : Prop where
  alive : s.world.phase h ≠ .finished → s.world.heap.done h = false
  running : s.world.isRunning h = true → ∃ st, s.strand h = some st
  queued : s.world.phase h = .queued → h ∈ s.world.ready
  leaf : ∀ st, s.strand h = some st → (∃ a, s.world.phase h = .waiting a) → st.place.isLeaf = true

structure Orderly (s : TaskLoop) : Prop where
  inv : s.Inv
  single : ∀ h k, s.world.isRunning h = true → s.world.isRunning k = true → h = k
  strand : ∀ h, s.OrderlyAt h

section Orderly
variable {s t : TaskLoop} {h : Handle} {actor : Option Handle}

theorem OrderlyAt.calm (hs : OrderlyAt s h) (hc : World.Calm s.world t.world actor)
    (hne : actor ≠ some h) (hkept : ∀ st, s.strand h = some st → ∃ st', t.strand h = some st')
    (hleaf : (∃ a, s.world.phase h = .waiting a) → t.strand h = s.strand h) : OrderlyAt t h := by
  have hwait : (∃ b, t.world.phase h = .waiting b) → ∃ a, s.world.phase h = .waiting a := by
    rintro ⟨b, hb⟩
    rcases hc.phase h hne with heq | ⟨a, -, ha, -⟩
    · exact ⟨b, heq ▸ hb⟩
    · exact ⟨a, ha⟩
  constructor
  case alive =>
    intro hfin
    rw [hc.done h hne]
    apply hs.alive
    intro hs'
    rw [hc.phase_eq hne (by simp [hs'])] at hfin
    exact hfin hs'
  case running =>
    rw [hc.isRunning hne]
    intro hr
    obtain ⟨st, hst⟩ := hs.running hr
    exact hkept st hst
  case queued =>
    intro hq
    rcases hc.phase h hne with heq | ⟨-, b, -, hb⟩
    · exact hc.ready h hne (hs.queued (heq ▸ hq))
    · rw [hb] at hq
      cases hq
  case leaf =>
    intro st hst hw
    rw [hleaf (hwait hw)] at hst
    exact hs.leaf st hst (hwait hw)

theorem Orderly.not_running (hs : Orderly s) (hidle : s.busy = false) (h : Handle) :
    s.world.isRunning h = false := by
  by_contra hr
  rw [Bool.not_eq_false] at hr
  obtain ⟨st, hst⟩ := (hs.strand h).running hr
  rw [busy, List.any_eq_false] at hidle
  exact hidle h (List.mem_range.mpr (hs.inv.bound h st hst)) hr

theorem Orderly.next (hs : Orderly s) (ht : t.Inv) (hc : World.Calm s.world t.world actor)
    (hkept : ∀ h st, s.strand h = some st → ∃ st', t.strand h = some st')
    (hleaf : ∀ h, actor ≠ some h → (∃ a, s.world.phase h = .waiting a) → t.strand h = s.strand h)
    (hactor : ∀ h, actor = some h → OrderlyAt t h ∧
      (t.world.isRunning h = true → s.world.isRunning h = true ∨ s.busy = false)) :
    Orderly t := by
  have hran : ∀ h, t.world.isRunning h = true → s.world.isRunning h = true ∨
      actor = some h ∧ s.busy = false := by
    intro h hr
    by_cases hact : actor = some h
    · exact ((hactor h hact).2 hr).imp id fun hb => ⟨hact, hb⟩
    · rw [hc.isRunning hact] at hr
      exact Or.inl hr
  refine ⟨ht, fun h k hh hk => ?_, fun h => ?_⟩
  · rcases hran h hh with hh' | ⟨hact, hb⟩
    · rcases hran k hk with hk' | ⟨-, hb⟩
      · exact hs.single h k hh' hk'
      · rw [hs.not_running hb h] at hh'
        cases hh'
    · rcases hran k hk with hk' | ⟨hact', -⟩
      · rw [hs.not_running hb k] at hk'
        cases hk'
      · rw [hact] at hact'
        exact Option.some.inj hact'
  · by_cases hact : actor = some h
    · exact (hactor h hact).1
    · exact (hs.strand h).calm hc hact (hkept h) (hleaf h hact)

end Orderly

/-! ## What each step does -/

section Inversion
variable {s t : TaskLoop} {h : Handle} {sys : Except Errno ℕ} {clock : ℤ} {order : List Handle}
  {τ : TaskType} {token : Option ℕ} {callers : Callers τ} {spawner : Option Handle}

theorem launch_eq {st : Strand} (hl : s.launch st = some t) : ∃ w,
    s.world.step (.wake s.strands) = some w ∧ t = { s with
      world := w
      strands := s.strands + 1
      strand := Function.update s.strand s.strands (some st) } := by
  obtain ⟨w, hw, rfl⟩ := Option.map_eq_some_iff.mp hl
  exact ⟨w, hw, rfl⟩

def Applies (s : TaskLoop) (u : Update) (order : List Handle) (w : World) : Prop :=
  (∃ waiter, u.notifies = true ∧ u.state.waiter = some waiter ∧
    (u.stops.foldl (World.stopSource (s.everyone order)) s.world).step (.wake waiter) = some w) ∨
  ((u.notifies = false ∨ u.state.waiter = none) ∧
    w = u.stops.foldl (World.stopSource (s.everyone order)) s.world)

theorem applyUpdate_eq {state : ℕ} {u : Update} (ha : s.applyUpdate state u order = some t) :
    ∃ w, s.Applies u order w ∧
      t = { s with world := w, shared := Function.update s.shared state u.state } := by
  rw [applyUpdate, Option.map_eq_some_iff] at ha
  obtain ⟨w, hw, rfl⟩ := ha
  refine ⟨w, ?_, rfl⟩
  cases hn : u.notifies with
  | false =>
    simp only [hn, Option.some.injEq] at hw
    exact Or.inr ⟨Or.inl hn, hw.symm⟩
  | true =>
    cases hwait : u.state.waiter with
    | none =>
      simp only [hn, hwait, Option.some.injEq] at hw
      exact Or.inr ⟨Or.inr hwait, hw.symm⟩
    | some waiter =>
      simp only [hn, hwait] at hw
      exact Or.inl ⟨waiter, hn, hwait, hw⟩

theorem applyUpdate_of_idle {state : ℕ} {u : Update}
    (hidle : ∀ k, u.notifies = true → u.state.waiter = some k →
      (u.stops.foldl (World.stopSource (s.everyone order)) s.world).phase k = .idle) :
    ∃ t, s.applyUpdate state u order = some t := by
  rw [applyUpdate]
  cases hn : u.notifies with
  | false => exact ⟨_, rfl⟩
  | true =>
    cases hwait : u.state.waiter with
    | none => exact ⟨_, rfl⟩
    | some k =>
      have hstep := World.step_wake.mpr ⟨hidle k hn hwait, rfl⟩
      exact ⟨_, congrArg (Option.map _) hstep⟩

theorem runBody_wait_eq {kind : WaitKind} {fd : ℤ} {next : Result ℕ → Program τ}
    (hstep : s.runBody h sys clock order token callers spawner (.wait kind fd next) = some t) :
    ∃ w place, s.world.step (.await h kind fd h token sys) = some w ∧
      t = ({ s with world := w } : TaskLoop).setStrand h ⟨τ, token, place, callers, spawner⟩ ∧
      ((w.isWaiting h = true ∧ place = .leaf next) ∨
        ∃ r, w.isWaiting h = false ∧ w.outcome h = some r ∧ place = .body (next r)) := by
  rw [runBody, Option.bind_eq_some_iff] at hstep
  obtain ⟨w, hw, hstep⟩ := hstep
  split_ifs at hstep with hwait
  · rw [Option.some.injEq] at hstep
    exact ⟨w, _, hw, hstep.symm, Or.inl ⟨hwait, rfl⟩⟩
  · obtain ⟨r, hr, rfl⟩ := Option.map_eq_some_iff.mp hstep
    exact ⟨w, _, hw, rfl, Or.inr ⟨r, by simpa using hwait, hr, rfl⟩⟩

theorem runBody_spawn_eq {task : Program .unit} {own : Option ℕ} {next : Program τ}
    (hstep : s.runBody h sys clock order token callers spawner (.spawn task own next) = some t) :
    ∃ w, s.world.step (.wake s.strands) = some w ∧ t = (({ s with
      world := w
      strands := s.strands + 1
      strand := Function.update s.strand s.strands
        (some ⟨.unit, own, .body task, .bottom, some h⟩) } : TaskLoop).setStrand h
          ⟨τ, token, .body next, callers, spawner⟩) := by
  rw [runBody, Option.map_eq_some_iff] at hstep
  obtain ⟨u, hu, rfl⟩ := hstep
  obtain ⟨w, hw, rfl⟩ := launch_eq hu
  exact ⟨w, hw, rfl⟩

theorem runBody_update_eq {state : ℕ} {f : Shared → Update} {next : Program τ}
    (hstep : s.runBody h sys clock order token callers spawner (.update state f next) = some t) :
    ∃ w, s.Applies (f (s.shared state)) order w ∧ t = ({ s with
      world := w
      shared := Function.update s.shared state (f (s.shared state)).state } : TaskLoop).setStrand h
        ⟨τ, token, .body next, callers, spawner⟩ := by
  rw [runBody, Option.map_eq_some_iff] at hstep
  obtain ⟨u, hu, rfl⟩ := hstep
  obtain ⟨w, hw, rfl⟩ := applyUpdate_eq hu
  exact ⟨w, hw, rfl⟩

theorem runBody_awaitState_eq {state : ℕ} {ready : Shared → Bool} {next : Shared → Program τ}
    (hstep : s.runBody h sys clock order token callers spawner (.awaitState state ready next) =
      some t) :
    (ready (s.shared state) = true ∧
      t = s.setStrand h ⟨τ, token, .body (next (s.shared state)), callers, spawner⟩) ∨
    ∃ w, ready (s.shared state) = false ∧ s.world.step (.park h) = some w ∧ t = ({ s with
      world := w
      shared := Function.update s.shared state
        { s.shared state with waiter := some h } } : TaskLoop).setStrand h
          ⟨τ, token, .parked state next, callers, spawner⟩ := by
  rw [runBody] at hstep
  split_ifs at hstep with hready
  · rw [Option.some.injEq] at hstep
    exact Or.inl ⟨hready, hstep.symm⟩
  · obtain ⟨w, hw, rfl⟩ := Option.map_eq_some_iff.mp hstep
    exact Or.inr ⟨w, by simpa using hready, hw, rfl⟩

theorem step_resume_eq (hstep : s.step (.resume sys) = some t) : ∃ h rest w st,
    s.world.ready = h :: rest ∧ s.world.step (.resume sys) = some w ∧ s.strand h = some st ∧
    ({ s with world := w } : TaskLoop).resumed h st = some t := by
  rw [step] at hstep
  cases hready : s.world.ready with
  | nil =>
    rw [hready] at hstep
    cases hstep
  | cons h rest =>
    rw [hready] at hstep
    obtain ⟨w, hw, hstep⟩ := Option.bind_eq_some_iff.mp hstep
    obtain ⟨st, hst, hstep⟩ := Option.bind_eq_some_iff.mp hstep
    exact ⟨h, rest, w, st, rfl, hw, hst, hstep⟩

theorem step_run_eq (hstep : s.step (.run h sys clock order) = some t) :
    ∃ on τ token callers spawner, ∃ p : Program τ, s.world.phase h = .running on ∧
      s.strand h = some ⟨τ, token, .body p, callers, spawner⟩ ∧
      s.runBody h sys clock order token callers spawner p = some t := by
  rw [step] at hstep
  split_ifs at hstep with hrunning
  obtain ⟨on, hrun⟩ := isRunning_iff.mp hrunning
  split at hstep
  · next hst => exact ⟨on, _, _, _, _, _, hrun, hst, hstep⟩
  · cases hstep

theorem runBody_counters {p : Program τ}
    (hstep : s.runBody h sys clock order token callers spawner p = some t) :
    s.states ≤ t.states ∧ s.strands ≤ t.strands := by
  cases p with
  | ret v =>
    cases callers with
    | bottom =>
      rw [runBody, Option.map_eq_some_iff] at hstep
      obtain ⟨w, -, rfl⟩ := hstep
      exact ⟨le_rfl, le_rfl⟩
    | cons token' next rest =>
      rw [runBody, Option.some.injEq] at hstep
      subst hstep
      exact ⟨le_rfl, le_rfl⟩
  | wait kind fd next =>
    obtain ⟨w, place, -, rfl, -⟩ := runBody_wait_eq hstep
    exact ⟨le_rfl, le_rfl⟩
  | makeState init next =>
    rw [runBody, Option.some.injEq] at hstep
    subst hstep
    exact ⟨Nat.le_succ _, le_rfl⟩
  | spawn task own next =>
    obtain ⟨w, -, rfl⟩ := runBody_spawn_eq hstep
    exact ⟨le_rfl, Nat.le_succ _⟩
  | update state f next =>
    obtain ⟨w, -, rfl⟩ := runBody_update_eq hstep
    exact ⟨le_rfl, le_rfl⟩
  | awaitState state ready next =>
    rcases runBody_awaitState_eq hstep with ⟨-, rfl⟩ | ⟨w, -, -, rfl⟩ <;> exact ⟨le_rfl, le_rfl⟩
  | _ =>
    rw [runBody, Option.some.injEq] at hstep
    subst hstep
    exact ⟨le_rfl, le_rfl⟩

theorem step_counters {op : TaskLoopOp} (hstep : s.step op = some t) :
    s.states ≤ t.states ∧ s.strands ≤ t.strands := by
  cases op with
  | spawn r =>
    rw [step] at hstep
    split_ifs at hstep
    obtain ⟨u, hu, rfl⟩ := Option.map_eq_some_iff.mp hstep
    obtain ⟨w, -, rfl⟩ := launch_eq hu
    exact ⟨le_rfl, Nat.le_succ _⟩
  | resume sys =>
    obtain ⟨h, rest, w, st, -, -, -, hres⟩ := step_resume_eq hstep
    obtain ⟨τ, token, place, callers, spawner⟩ := st
    cases place with
    | leaf next =>
      obtain ⟨r, -, rfl⟩ := Option.map_eq_some_iff.mp hres
      exact ⟨le_rfl, le_rfl⟩
    | _ =>
      rw [resumed, Option.some.injEq] at hres
      subst hres
      exact ⟨le_rfl, le_rfl⟩
  | run h sys clock order =>
    obtain ⟨on, τ, token, callers, spawner, p, -, -, hrun⟩ := step_run_eq hstep
    exact runBody_counters hrun
  | stop src order =>
    rw [step] at hstep
    split_ifs at hstep
    rw [Option.some.injEq] at hstep
    subst hstep
    exact ⟨le_rfl, le_rfl⟩
  | loop op =>
    rw [step] at hstep
    split_ifs at hstep
    obtain ⟨w, -, rfl⟩ := Option.map_eq_some_iff.mp hstep
    exact ⟨le_rfl, le_rfl⟩

end Inversion

/-! ## Turns keep the order -/

section Turns
variable {s t : TaskLoop} {h : Handle} {sys : Except Errno ℕ} {clock : ℤ} {order : List Handle}
  {τ : TaskType} {token : Option ℕ} {callers : Callers τ} {spawner : Option Handle} {w : World}

theorem kept_update {st' : Strand} (k : Handle) {st : Strand} (hst : s.strand k = some st) :
    ∃ st'', Function.update s.strand h (some st') k = some st'' := by
  by_cases hk : k = h
  · subst hk
    exact ⟨st', Function.update_self ..⟩
  · exact ⟨st, (Function.update_of_ne hk _ _).trans hst⟩

theorem Orderly.goOn (hs : Orderly s) {st : Strand} (ht : t.Inv)
    (hc : World.Calm s.world t.world none) (hrun : s.world.isRunning h = true)
    (hstrand : t.strand = Function.update s.strand h (some st)) : Orderly t := by
  refine hs.next ht hc (fun k st' hst => hstrand ▸ kept_update k hst) ?_ (by simp)
  rintro k _ ⟨a, ha⟩
  rw [hstrand]
  refine Function.update_of_ne ?_ _ _
  rintro rfl
  rw [World.isRunning, ha] at hrun
  cases hrun

theorem Orderly.leave (hs : Orderly s) {st : Strand} (ht : t.Inv) (hworld : t.world = w)
    (hc : World.Calm s.world w (some h)) (hrun : s.world.isRunning h = true)
    (hstrand : t.strand = Function.update s.strand h (some st))
    (hdone : w.phase h ≠ .finished → w.heap.done h = false) (hqueued : w.phase h ≠ .queued)
    (hleaf : (∃ a, w.phase h = .waiting a) → st.place.isLeaf = true) : Orderly t := by
  subst hworld
  have hself : t.strand h = some st := by rw [hstrand, Function.update_self]
  refine hs.next ht hc (fun k st' hst => hstrand ▸ kept_update k hst) ?_ ?_
  · intro k hk _
    rw [hstrand]
    exact Function.update_of_ne (fun he => hk (by rw [he])) _ _
  · intro k hk
    obtain rfl := Option.some.inj hk
    refine ⟨⟨hdone, fun _ => ⟨st, hself⟩, fun hq => absurd hq hqueued, ?_⟩, fun _ => Or.inl hrun⟩
    intro st' hst' hw
    rw [hself, Option.some.injEq] at hst'
    exact hst' ▸ hleaf hw

theorem step_wake_spec {v w : World} {k : Handle} (hw : v.step (.wake k) = some w) :
    v.phase k = .idle ∧ w.phase k = .queued ∧ k ∈ w.ready ∧ w.heap = v.heap ∧
      w.stopped = v.stopped := by
  obtain ⟨hidle, rfl⟩ := World.step_wake.mp hw
  exact ⟨hidle, Function.update_self .., List.mem_append_right _ (List.mem_singleton_self k), rfl,
    rfl⟩

theorem Orderly.wake (hs : Orderly s) (ht : t.Inv) {v : World} {k : Handle}
    (hcalm : World.Calm s.world v none) (hinv : v.Inv) (hw : v.step (.wake k) = some t.world)
    (hkept : ∀ h st, s.strand h = some st → ∃ st', t.strand h = some st')
    (hleaf : ∀ h, (∃ a, s.world.phase h = .waiting a) → t.strand h = s.strand h) : Orderly t := by
  obtain ⟨hidle, hqueued, hmem, hheap, -⟩ := step_wake_spec hw
  have hc : World.Calm s.world t.world (some k) :=
    (hcalm.widen (some k)).trans (World.step_calm hinv hw)
  have hphase : s.world.phase k = .idle := by
    rcases hcalm.phase k (by simp) with heq | ⟨a, b, -, hb⟩
    · exact heq ▸ hidle
    · rw [hidle] at hb
      cases hb
  refine hs.next ht hc hkept (fun h _ => hleaf h) fun h hh => ?_
  obtain rfl := Option.some.inj hh
  refine ⟨⟨fun _ => ?_, ?_, fun _ => hmem, ?_⟩, ?_⟩
  · rw [hheap, hcalm.done k (by simp)]
    exact (hs.strand k).alive (by rw [hphase]; simp)
  · intro hr
    rw [World.isRunning, hqueued] at hr
    cases hr
  · rintro st _ ⟨a, ha⟩
    rw [hqueued] at ha
    cases ha
  · intro hr
    rw [World.isRunning, hqueued] at hr
    cases hr

theorem not_isWaiting {v : World} (hn : v.isWaiting h = false) (a : Awaiter) :
    v.phase h ≠ .waiting a := by
  intro ha
  rw [World.isWaiting, ha] at hn
  cases hn

theorem Inv.applies (hs : s.Inv) {u : Update} {w : World} (ha : s.Applies u order w) :
    ∃ v, World.Calm s.world v none ∧ v.Inv ∧
      (∀ x ∈ u.stops, w.stopped x ≠ none) ∧
      (∀ x, s.world.stopped x ≠ none → w.stopped x ≠ none) ∧
      ((∃ k, u.notifies = true ∧ u.state.waiter = some k ∧ v.step (.wake k) = some w) ∨
        ((u.notifies = false ∨ u.state.waiter = none) ∧ w = v)) := by
  have hall : ∀ k a, s.world.phase k = .waiting a → k ∈ s.everyone order :=
    fun k a hk => hs.mem_everyone order hk
  obtain ⟨hcalm, hmarks, hkept⟩ := World.stops_spec u.stops hs.settled hall
  obtain ⟨hsettled, -⟩ := stops_settled u.stops hs.settled hall
  rcases ha with ⟨k, hn, hwait, hw⟩ | ⟨hno, rfl⟩
  · obtain ⟨-, -, -, -, hstopped⟩ := step_wake_spec hw
    refine ⟨_, hcalm, hsettled.inv, ?_, ?_, Or.inl ⟨k, hn, hwait, hw⟩⟩
    · rw [hstopped]
      exact hmarks
    · rw [hstopped]
      exact hkept
  · exact ⟨_, hcalm, hsettled.inv, hmarks, hkept, Or.inr ⟨hno, rfl⟩⟩

theorem runBody_orderly (hs : Orderly s) (ht : t.Inv) {p : Program τ} {on : LoopId}
    (hst : s.strand h = some ⟨τ, token, .body p, callers, spawner⟩)
    (hphase : s.world.phase h = .running on)
    (hstep : s.runBody h sys clock order token callers spawner p = some t) : Orderly t := by
  have hrun : s.world.isRunning h = true := isRunning_iff.mpr ⟨on, hphase⟩
  have hne : ∀ k, (∃ a, s.world.phase k = .waiting a) → k ≠ h := by
    rintro k ⟨a, ha⟩ rfl
    exact World.not_waiting hphase a ha
  cases p with
  | ret v =>
    cases callers with
    | bottom =>
      rw [runBody, Option.map_eq_some_iff] at hstep
      obtain ⟨w, hw, rfl⟩ := hstep
      obtain ⟨on', -, hw'⟩ := World.step_finish.mp hw
      have hfin : w.phase h = .finished := by
        rw [← hw']
        exact Function.update_self ..
      refine hs.leave (w := w) ht rfl (World.step_calm hs.inv.settled.inv hw) hrun
        (by rw [← hst, Function.update_eq_self]) (fun hn => absurd hfin hn) ?_ ?_
      · rw [hfin]
        simp
      · rw [hfin]
        simp
    | cons token' next rest =>
      rw [runBody, Option.some.injEq] at hstep
      subst hstep
      exact hs.goOn ht (World.Calm.refl _ _) hrun rfl
  | now next =>
    rw [runBody, Option.some.injEq] at hstep
    subst hstep
    exact hs.goOn ht (World.Calm.refl _ _) hrun rfl
  | await task own next =>
    rw [runBody, Option.some.injEq] at hstep
    subst hstep
    exact hs.goOn ht (World.Calm.refl _ _) hrun rfl
  | makeSource next =>
    rw [runBody, Option.some.injEq] at hstep
    subst hstep
    exact hs.goOn ht (World.Calm.refl _ _) hrun rfl
  | makeState init next =>
    rw [runBody, Option.some.injEq] at hstep
    subst hstep
    exact hs.goOn ht (World.Calm.refl _ _) hrun rfl
  | wait kind fd next =>
    obtain ⟨w, place, hw, rfl, hplace⟩ := runBody_wait_eq hstep
    have hbusy := World.step_await_phase hw
    have hinv := (World.step_spec hs.inv.settled.inv hw).inv
    refine hs.leave (w := w) ht rfl (World.step_calm hs.inv.settled.inv hw) hrun rfl ?_ ?_ ?_
    · exact fun _ => hinv.owned.done h hbusy
    · intro hq
      rw [hq] at hbusy
      simp at hbusy
    · rintro ⟨a, ha⟩
      rcases hplace with ⟨-, rfl⟩ | ⟨r, hn, -, -⟩
      · rfl
      · exact absurd ha (not_isWaiting hn a)
  | spawn task own next =>
    obtain ⟨w, hw, rfl⟩ := runBody_spawn_eq hstep
    refine hs.wake ht (World.Calm.refl _ _) hs.inv.settled.inv hw ?_ ?_
    · intro k st hk
      have hold : ∃ st'', Function.update s.strand s.strands
          (some ⟨.unit, own, .body task, .bottom, some h⟩) k = some st'' := kept_update k hk
      obtain ⟨st'', hst''⟩ := hold
      exact kept_update (s := { s with
        strand := Function.update s.strand s.strands
          (some ⟨.unit, own, .body task, .bottom, some h⟩) }) k hst''
    · intro k hk
      obtain ⟨a, ha⟩ := hk
      obtain ⟨st, hst', -⟩ := hs.inv.waits k a ha
      have hlt := hs.inv.bound k st hst'
      exact (Function.update_of_ne (hne k ⟨a, ha⟩) _ _).trans
        (Function.update_of_ne (Nat.ne_of_lt hlt) _ _)
  | update state f next =>
    obtain ⟨w, hw, rfl⟩ := runBody_update_eq hstep
    obtain ⟨v, hcalm, hinv, -, -, hwake⟩ := hs.inv.applies hw
    rcases hwake with ⟨k, -, -, hk⟩ | ⟨-, rfl⟩
    · refine hs.wake ht hcalm hinv hk (fun k st hst => kept_update k hst) fun k hk => ?_
      exact Function.update_of_ne (hne k hk) _ _
    · exact hs.goOn ht hcalm hrun rfl
  | awaitState state ready next =>
    rcases runBody_awaitState_eq hstep with ⟨-, rfl⟩ | ⟨w, -, hw, rfl⟩
    · exact hs.goOn ht (World.Calm.refl _ _) hrun rfl
    · obtain ⟨on', -, hw'⟩ := World.step_park.mp hw
      have hidle : w.phase h = .idle := by
        rw [← hw']
        exact Function.update_self ..
      have hdone : w.heap = s.world.heap := by
        rw [← hw']
        rfl
      refine hs.leave (w := w) ht rfl (World.step_calm hs.inv.settled.inv hw) hrun rfl ?_ ?_ ?_
      · intro _
        rw [hdone]
        exact hs.inv.settled.inv.owned.done h (Or.inl ⟨on, hphase⟩)
      · rw [hidle]
        simp
      · rw [hidle]
        simp

theorem resumed_frame {st : Strand} (hst : s.strand h = some st)
    (hstep : s.resumed h st = some t) :
    t.world = s.world ∧ ∃ st', t.strand = Function.update s.strand h (some st') := by
  obtain ⟨τ, token, place, callers, spawner⟩ := st
  cases place with
  | body p =>
    rw [resumed, Option.some.injEq] at hstep
    subst hstep
    exact ⟨rfl, _, by rw [← hst, Function.update_eq_self]⟩
  | leaf next =>
    obtain ⟨r, -, rfl⟩ := Option.map_eq_some_iff.mp hstep
    exact ⟨rfl, _, rfl⟩
  | parked state next =>
    rw [resumed, Option.some.injEq] at hstep
    subst hstep
    exact ⟨rfl, _, rfl⟩

theorem step_resume_phase (hdone : s.world.heap.done h = false)
    {rest : List Handle} (hready : s.world.ready = h :: rest)
    (hstep : s.world.step (.resume sys) = some w) : w.phase h = .running ownerLoop := by
  obtain ⟨k, rest', hready', rfl⟩ := World.step_resume.mp hstep
  rw [hready] at hready'
  cases hready'
  rw [World.resume, if_neg (by rw [show ({ s.world with ready := rest } : World).heap.done h =
    s.world.heap.done h from rfl, hdone]; simp)]
  cases hp : s.world.phase h with
  | waiting a => exact World.complete_phase ..
  | _ => exact Function.update_self ..

theorem Orderly.resume_runs (hs : Orderly s) {rest : List Handle}
    (hready : s.world.ready = h :: rest) (hstep : s.world.step (.resume sys) = some w) :
    w.phase h = .running ownerLoop := by
  refine step_resume_phase ((hs.strand h).alive ?_) hready hstep
  rcases hs.inv.settled.inv.queued_or_waiting (hready ▸ List.mem_cons_self) with hq | ⟨a, ha⟩
  · rw [hq]
    simp
  · rw [ha]
    simp

theorem turn_orderly (hs : Orderly s) {op : TaskLoopOp} (hturn : s.turn op = some t) :
    Orderly t := by
  have hstep := step_of_turn hturn
  have ht := (step_inv hs.inv hstep).1
  cases op with
  | spawn r =>
    rw [step] at hstep
    split_ifs at hstep
    obtain ⟨u, hu, rfl⟩ := Option.map_eq_some_iff.mp hstep
    obtain ⟨w, hw, rfl⟩ := launch_eq hu
    refine hs.wake ht (World.Calm.refl _ _) hs.inv.settled.inv hw
      (fun k st hst => kept_update k hst) ?_
    rintro k ⟨a, ha⟩
    obtain ⟨st, hst, -⟩ := hs.inv.waits k a ha
    exact Function.update_of_ne (Nat.ne_of_lt (hs.inv.bound k st hst)) _ _
  | resume sys =>
    rw [turn] at hturn
    split_ifs at hturn with hidle
    obtain ⟨h, rest, w, st, hready, hw, hst, hres⟩ := step_resume_eq hstep
    obtain ⟨hworld, st', hstrand⟩ := resumed_frame (s := { s with world := w }) hst hres
    have hinv := (World.step_spec hs.inv.settled.inv hw).inv
    have hphase := hs.resume_runs hready hw
    have hcalm := World.step_calm hs.inv.settled.inv hw
    rw [World.actor, hready] at hcalm
    obtain rfl : t.world = w := hworld
    refine hs.next ht hcalm (fun k st hst => hstrand ▸ kept_update k hst) ?_ ?_
    · intro k hk _
      rw [hstrand]
      exact Function.update_of_ne (fun he => hk (by rw [he]; rfl)) _ _
    · intro k hk
      obtain rfl : h = k := Option.some.inj hk
      refine ⟨⟨fun _ => hinv.owned.done h (Or.inl ⟨_, hphase⟩), fun _ => ?_, ?_, ?_⟩, fun _ => ?_⟩
      · exact ⟨st', by rw [hstrand, Function.update_self]⟩
      · rw [hphase]
        simp
      · rw [hphase]
        simp
      · exact Or.inr (by simpa using hidle)
  | run h sys clock order =>
    obtain ⟨on, τ, token, callers, spawner, p, hphase, hst, hrun⟩ := step_run_eq hstep
    exact runBody_orderly hs ht hst hphase hrun
  | stop src order =>
    rw [step] at hstep
    split_ifs at hstep
    rw [Option.some.injEq] at hstep
    subst hstep
    obtain ⟨hcalm, -, -⟩ := World.stopSource_spec hs.inv.settled (s.everyone order) src
    exact hs.next ht hcalm (fun k st hst => ⟨st, hst⟩) (fun _ _ _ => rfl) (by simp)
  | loop op =>
    rw [step] at hstep
    split_ifs at hstep with hop
    obtain ⟨w, hw, rfl⟩ := Option.map_eq_some_iff.mp hstep
    have hactor : s.world.actor op = none := by
      cases op <;> first | rfl | cases hop
    have hcalm := World.step_calm hs.inv.settled.inv hw
    rw [hactor] at hcalm
    exact hs.next ht hcalm (fun k st hst => ⟨st, hst⟩) (fun _ _ _ => rfl) (by simp)

theorem create_orderly (outer : ℕ) (now : ℤ) {m : Heap} (k : Kernel)
    (hm : ∀ h, m.done h = false) : Orderly (create outer now m k) := by
  refine ⟨create_inv outer now m k, ?_, fun h => ⟨fun _ => hm h, ?_, ?_, ?_⟩⟩
  · intro h _ hr
    cases hr
  · intro hr
    cases hr
  · intro hq
    cases hq
  · intro st hst
    cases hst

end Turns
end TaskLoop
end RainRuntime
