import RainRuntime.TaskLoop

/-!
# How far a stop reaches

A token that was injected into a spawned task is the token of every frame of its strand,
and of every wait in it. A stop of its source therefore cancels what is pending in the
strand, and every wait that starts in it afterwards. It ends there: the strands that
`when_all`, `when_any` and `timeout` spawn run without a token or with tokens of sources
made by the combinator, and nothing hands the stop on to them.
-/

namespace RainRuntime

def Callers.Fits (n : ℕ) (seq : Prop) (P : Option ℕ → Prop) : {τ : TaskType} → Callers τ → Prop
  | _, .bottom => True
  | _, .cons token next rest => P token ∧ (∀ v, (next v).Fits n seq) ∧ rest.Fits n seq P

def Place.Fits (n : ℕ) (seq : Prop) {τ : TaskType} : Place τ → Prop
  | .body p => p.Fits n seq
  | .leaf next => ∀ r, (next r).Fits n seq
  | .parked _ next => ∀ s, (next s).Fits n seq

structure Strand.Fits (n : ℕ) (seq : Prop) (P : Option ℕ → Prop) (st : Strand) : Prop where
  token : P st.token
  place : st.place.Fits n seq
  callers : st.callers.Fits n seq P

/-- What holds of the tokens in a strand: they are the token of its root, or inner ones if the
strand was spawned by another. -/
def Carried (n : ℕ) : Option Root → Option ℕ → Prop
  | some r, token => ∀ src, r.token = some src → token = some src
  | none, token => Inner n token

def SpawnsNone : Option Root → Prop
  | some r => r.expr.Sequential
  | none => False

theorem carried_awaitTransform {n : ℕ} {r : Option Root} {token own : Option ℕ}
    (ht : Carried n r token) (ho : Inner n own) : Carried n r (awaitTransform token own) := by
  cases r with
  | none =>
    cases token with
    | none => exact ho
    | some src => exact ht
  | some r =>
    intro src hsrc
    rw [ht src hsrc]
    rfl

namespace TaskLoop

structure Inv (s : TaskLoop) : Prop where
  settled : s.world.Settled
  waits : ∀ h a, s.world.phase h = .waiting a → ∃ st, s.strand h = some st ∧ st.token = a.token
  bound : ∀ h st, s.strand h = some st → h < s.strands
  fits : ∀ h st, s.strand h = some st →
    st.Fits s.outer (SpawnsNone (s.root h)) (Carried s.outer (s.root h))
  spawner : ∀ h st p, s.strand h = some st → st.spawner = some p →
    s.root h = none ∧ p < s.strands ∧ ¬SpawnsNone (s.root p)
  root : ∀ h r, s.root h = some r → h < s.strands ∧ ∀ src, r.token = some src → src < s.outer
  sources : s.outer ≤ s.sources

/-- A wait that starts has the token of its frame, and if the source of that is stopped already,
the wait is cancelled at once. -/
def CancelsLate (s : TaskLoop) (w : World) : Prop :=
  ∀ h b, w.phase h = .waiting b → (∃ a, s.world.phase h = .waiting a) ∨
    ∃ st, s.strand h = some st ∧ ∀ src, st.token = some src → s.world.stopped src ≠ none →
      w.heap.state b.cell = .cancelled

theorem cancelsLate_of_noneStarts {s : TaskLoop} {w : World} (h : World.NoneStarts s.world w) :
    CancelsLate s w := by
  intro k b hb
  obtain ⟨a, ha, -⟩ := h k b hb
  exact Or.inl ⟨a, ha⟩

theorem cancelsLate_refl (s : TaskLoop) : CancelsLate s s.world :=
  cancelsLate_of_noneStarts fun _ b hb => ⟨b, hb, rfl⟩

section Steps
variable {s t : TaskLoop} {h : Handle} {st st' : Strand} {w : World}

/-! ## Parts of a step -/

theorem Inv.of_world (hs : Inv s) (hw : w.Settled)
    (hwaits : ∀ k b, w.phase k = .waiting b → ∃ st, s.strand k = some st ∧ st.token = b.token)
    (shared : ℕ → Shared) : Inv { s with world := w, shared := shared } where
  settled := hw
  waits := hwaits
  bound := hs.bound
  fits := hs.fits
  spawner := hs.spawner
  root := hs.root
  sources := hs.sources

theorem Inv.of_noneStarts (hs : Inv s) (hw : w.Settled) (hn : World.NoneStarts s.world w)
    (shared : ℕ → Shared) : Inv { s with world := w, shared := shared } := by
  refine hs.of_world hw (fun k b hb => ?_) shared
  obtain ⟨a, ha, htok⟩ := hn k b hb
  obtain ⟨st, hst, hsttok⟩ := hs.waits k a ha
  exact ⟨st, hst, hsttok.trans htok⟩

theorem Inv.setStrand (hs : Inv s) (hst : s.strand h = some st)
    (hn : ∀ a, s.world.phase h ≠ .waiting a)
    (hfits : st'.Fits s.outer (SpawnsNone (s.root h)) (Carried s.outer (s.root h)))
    (hsp : st'.spawner = st.spawner) : Inv (s.setStrand h st') := by
  have hother : ∀ k, k ≠ h → (s.setStrand h st').strand k = s.strand k :=
    fun k hk => Function.update_of_ne hk _ _
  have hself : (s.setStrand h st').strand h = some st' := Function.update_self ..
  constructor
  case settled => exact hs.settled
  case waits =>
    intro k a ha
    have hk : k ≠ h := by
      intro he
      exact hn a (he ▸ ha)
    rw [hother k hk]
    exact hs.waits k a ha
  case bound =>
    intro k u hu
    by_cases hk : k = h
    · rw [hk]
      exact hs.bound h st hst
    · rw [hother k hk] at hu
      exact hs.bound k u hu
  case fits =>
    intro k u hu
    by_cases hk : k = h
    · subst hk
      rw [hself, Option.some.injEq] at hu
      rw [← hu]
      exact hfits
    · rw [hother k hk] at hu
      exact hs.fits k u hu
  case spawner =>
    intro k u p hu hp
    by_cases hk : k = h
    · subst hk
      rw [hself, Option.some.injEq] at hu
      rw [← hu, hsp] at hp
      exact hs.spawner k st p hst hp
    · rw [hother k hk] at hu
      exact hs.spawner k u p hu hp
  case root => exact hs.root
  case sources => exact hs.sources

theorem Inv.launch (hs : Inv s) (hl : s.launch st = some t) (r : Option Root)
    (hr : ∀ e src, r = some e → e.token = some src → src < s.outer)
    (hfits : st.Fits s.outer (SpawnsNone r) (Carried s.outer r))
    (hsp : ∀ p, st.spawner = some p → r = none ∧ p < s.strands ∧ ¬SpawnsNone (s.root p)) :
    Inv { t with root := Function.update s.root s.strands r } ∧
      World.NoneStarts s.world t.world := by
  rw [TaskLoop.launch, Option.map_eq_some_iff] at hl
  obtain ⟨w, hw, rfl⟩ := hl
  have hplain : World.Plain (.wake s.strands) := trivial
  obtain ⟨hsettled, hnone⟩ := hs.settled.plain hplain hw
  refine ⟨?_, hnone⟩
  have hself : Function.update s.strand s.strands (some st) s.strands = some st :=
    Function.update_self ..
  have hother : ∀ k, k ≠ s.strands → Function.update s.strand s.strands (some st) k = s.strand k :=
    fun k hk => Function.update_of_ne hk _ _
  have hroot : ∀ k, k ≠ s.strands → Function.update s.root s.strands r k = s.root k :=
    fun k hk => Function.update_of_ne hk _ _
  constructor
  case settled => exact hsettled
  case waits =>
    intro k b hb
    obtain ⟨a, ha, htok⟩ := hnone k b hb
    obtain ⟨u, hu, hutok⟩ := hs.waits k a ha
    have hk := hs.bound k u hu
    refine ⟨u, ?_, hutok.trans htok⟩
    dsimp only
    rw [hother k (Nat.ne_of_lt hk)]
    exact hu
  case bound =>
    intro k u hu
    dsimp only at hu ⊢
    by_cases hk : k = s.strands
    · rw [hk]
      exact Nat.lt_succ_self _
    · rw [hother k hk] at hu
      exact Nat.lt_succ_of_lt (hs.bound k u hu)
  case fits =>
    intro k u hu
    dsimp only at hu ⊢
    by_cases hk : k = s.strands
    · subst hk
      rw [hself, Option.some.injEq] at hu
      rw [← hu, Function.update_self]
      exact hfits
    · rw [hother k hk] at hu
      rw [hroot k hk]
      exact hs.fits k u hu
  case spawner =>
    intro k u p hu hp
    dsimp only at hu ⊢
    by_cases hk : k = s.strands
    · subst hk
      rw [hself, Option.some.injEq] at hu
      rw [← hu] at hp
      obtain ⟨hnone, hlt, hseq⟩ := hsp p hp
      rw [Function.update_self, hroot p (Nat.ne_of_lt hlt)]
      exact ⟨hnone, Nat.lt_succ_of_lt hlt, hseq⟩
    · rw [hother k hk] at hu
      obtain ⟨hnone, hlt, hseq⟩ := hs.spawner k u p hu hp
      rw [hroot k hk, hroot p (Nat.ne_of_lt hlt)]
      exact ⟨hnone, Nat.lt_succ_of_lt hlt, hseq⟩
  case root =>
    intro k e he
    dsimp only at he ⊢
    by_cases hk : k = s.strands
    · subst hk
      rw [Function.update_self] at he
      exact ⟨Nat.lt_succ_self _, fun src => hr e src he⟩
    · rw [hroot k hk] at he
      obtain ⟨hlt, htok⟩ := hs.root k e he
      exact ⟨Nat.lt_succ_of_lt hlt, htok⟩
  case sources => exact hs.sources

theorem Inv.mem_everyone (hs : Inv s) (order : List Handle) {a : Awaiter}
    (hw : s.world.phase h = .waiting a) : h ∈ s.everyone order := by
  obtain ⟨st, hst, -⟩ := hs.waits h a hw
  exact List.mem_append_right order (List.mem_range.mpr (hs.bound h st hst))

theorem stops_settled (sources : List ℕ) {order : List Handle} (hw : w.Settled)
    (hall : ∀ h a, w.phase h = .waiting a → h ∈ order) :
    (sources.foldl (World.stopSource order) w).Settled ∧
      World.NoneStarts w (sources.foldl (World.stopSource order) w) := by
  induction sources generalizing w with
  | nil => exact ⟨hw, fun _ b hb => ⟨b, hb, rfl⟩⟩
  | cons src sources ih =>
    obtain ⟨hone, hnone⟩ := hw.stopSource src hall
    have hall' : ∀ h a, (w.stopSource order src).phase h = .waiting a → h ∈ order := by
      intro h b hb
      obtain ⟨a, ha, -⟩ := hnone h b hb
      exact hall h a ha
    obtain ⟨hrest, hnone'⟩ := ih hone hall'
    exact ⟨hrest, hnone.trans hnone'⟩

theorem Inv.plain (hs : Inv s) {op : WorldOp} (hop : World.Plain op)
    (hstep : s.world.step op = some w) (shared : ℕ → Shared) :
    Inv { s with world := w, shared := shared } ∧ CancelsLate s w := by
  obtain ⟨hsettled, hnone⟩ := hs.settled.plain hop hstep
  exact ⟨hs.of_noneStarts hsettled hnone shared, cancelsLate_of_noneStarts hnone⟩

/-! ## One step of a frame -/

section Run
variable {τ : TaskType} {token : Option ℕ} {place : Place τ} {callers : Callers τ}
  {spawner : Option Handle}

theorem Inv.goOn (hs : Inv s) (hst : s.strand h = some ⟨τ, token, place, callers, spawner⟩)
    (hn : ∀ a, s.world.phase h ≠ .waiting a) {q : Place τ}
    (hq : q.Fits s.outer (SpawnsNone (s.root h))) :
    Inv (s.setStrand h ⟨τ, token, q, callers, spawner⟩) := by
  obtain ⟨htok, -, hcallers⟩ := hs.fits h _ hst
  exact hs.setStrand hst hn ⟨htok, hq, hcallers⟩ rfl

variable {on : LoopId} {sys : Except Errno ℕ} {clock : ℤ} {order : List Handle}

theorem runBody_ret (hs : Inv s) {v : τ.Value}
    (hst : s.strand h = some ⟨τ, token, .body (.ret v), callers, spawner⟩)
    (hrun : s.world.phase h = .running on)
    (hstep : s.runBody h sys clock order token callers spawner (.ret v) = some t) :
    Inv t ∧ CancelsLate s t.world := by
  cases callers with
  | bottom =>
    rw [runBody, Option.map_eq_some_iff] at hstep
    obtain ⟨w, hw, rfl⟩ := hstep
    have hplain : World.Plain (.finish h) := trivial
    exact hs.plain hplain hw s.shared
  | cons outerToken next rest =>
    rw [runBody, Option.some.injEq] at hstep
    subst hstep
    obtain ⟨htok, hnext, hrest⟩ := (hs.fits h _ hst).callers
    exact ⟨hs.setStrand hst (World.not_waiting hrun) ⟨htok, hnext v, hrest⟩ rfl,
      cancelsLate_refl s⟩

theorem runBody_wait (hs : Inv s) {kind : WaitKind} {fd : ℤ} {next : Result ℕ → Program τ}
    (hst : s.strand h = some ⟨τ, token, .body (.wait kind fd next), callers, spawner⟩)
    (hrun : s.world.phase h = .running on)
    (hstep : s.runBody h sys clock order token callers spawner (.wait kind fd next) = some t) :
    Inv t ∧ CancelsLate s t.world := by
  have hnext : ∀ r, (next r).Fits s.outer (SpawnsNone (s.root h)) := (hs.fits h _ hst).place
  rw [runBody, Option.bind_eq_some_iff] at hstep
  obtain ⟨w, hw, hstep⟩ := hstep
  have hstarts := World.step_await_starts hs.settled.inv hw
  have hframe : ∀ k, k ≠ h → w.phase k = s.world.phase k := by
    intro k hk
    refine ((World.step_spec hs.settled.inv hw).frame k ?_).1
    intro he
    exact hk (Option.some.inj he).symm
  -- the strand keeps its token, whether it waits or goes on at once
  have hinv : ∀ q : Place τ, q.Fits s.outer (SpawnsNone (s.root h)) →
      Inv (({ s with world := w } : TaskLoop).setStrand h ⟨τ, token, q, callers, spawner⟩) := by
    intro q hq
    have hgo := hs.goOn hst (World.not_waiting hrun) hq
    refine hgo.of_world (hs.settled.await hw) (fun k b hb => ?_) s.shared
    by_cases hk : k = h
    · subst hk
      exact ⟨_, Function.update_self .., (hstarts.injected b hb).symm⟩
    · rw [hframe k hk] at hb
      exact hgo.waits k b hb
  have hlate : CancelsLate s w := by
    intro k b hb
    by_cases hk : k = h
    · subst hk
      right
      refine ⟨_, hst, fun src hsrc hstopped => ?_⟩
      exact hstarts.cancelled b src hb hsrc hstopped
    · left
      rw [hframe k hk] at hb
      exact ⟨b, hb⟩
  split_ifs at hstep
  · rw [Option.some.injEq] at hstep
    subst hstep
    exact ⟨hinv (.leaf next) hnext, hlate⟩
  · rw [Option.map_eq_some_iff] at hstep
    obtain ⟨r, -, rfl⟩ := hstep
    exact ⟨hinv (.body (next r)) (hnext r), hlate⟩

theorem runBody_spawn (hs : Inv s) {task : Program .unit} {own : Option ℕ} {next : Program τ}
    (hst : s.strand h = some ⟨τ, token, .body (.spawn task own next), callers, spawner⟩)
    (hrun : s.world.phase h = .running on)
    (hstep : s.runBody h sys clock order token callers spawner (.spawn task own next) = some t) :
    Inv t ∧ CancelsLate s t.world := by
  obtain ⟨hseq, htask, hown, hnext⟩ := (hs.fits h _ hst).place
  have hlt := hs.bound h _ hst
  have hfresh : s.root s.strands = none := by
    by_contra hne
    obtain ⟨r, hr⟩ := Option.ne_none_iff_exists'.mp hne
    exact Nat.lt_irrefl _ (hs.root _ r hr).1
  rw [runBody, Option.map_eq_some_iff] at hstep
  obtain ⟨u, hu, rfl⟩ := hstep
  obtain ⟨hinv, hnone⟩ := hs.launch hu none (by simp) ⟨hown, htask, trivial⟩ fun p hp => by
    obtain rfl : h = p := Option.some.inj hp
    exact ⟨rfl, hlt, hseq⟩
  rw [← hfresh, Function.update_eq_self] at hinv
  refine ⟨?_, cancelsLate_of_noneStarts hnone⟩
  rw [launch, Option.map_eq_some_iff] at hu
  obtain ⟨w, hw, rfl⟩ := hu
  have hne : h ≠ s.strands := Nat.ne_of_lt hlt
  have hn : ∀ b, w.phase h ≠ .waiting b := by
    intro b hb
    obtain ⟨a, ha, -⟩ := hnone h b hb
    exact World.not_waiting hrun a ha
  exact hinv.goOn ((Function.update_of_ne hne _ _).trans hst) hn hnext

theorem runBody_update (hs : Inv s) {state : ℕ} {f : Shared → Update} {next : Program τ}
    (hst : s.strand h = some ⟨τ, token, .body (.update state f next), callers, spawner⟩)
    (hrun : s.world.phase h = .running on)
    (hstep : s.runBody h sys clock order token callers spawner (.update state f next) = some t) :
    Inv t ∧ CancelsLate s t.world := by
  have hnext : next.Fits s.outer (SpawnsNone (s.root h)) := (hs.fits h _ hst).place
  rw [runBody, Option.map_eq_some_iff] at hstep
  obtain ⟨u, hu, rfl⟩ := hstep
  rw [applyUpdate, Option.map_eq_some_iff] at hu
  obtain ⟨w, hw, rfl⟩ := hu
  obtain ⟨hsettled, hnone⟩ := stops_settled (f (s.shared state)).stops hs.settled
    fun k a hk => hs.mem_everyone order hk
  generalize (f (s.shared state)).stops.foldl (World.stopSource (s.everyone order)) s.world = v at *
  have hwake : w.Settled ∧ World.NoneStarts s.world w := by
    split at hw
    · next waiter _ _ =>
      have hplain : World.Plain (.wake waiter) := trivial
      obtain ⟨hsettled', hnone'⟩ := hsettled.plain hplain hw
      exact ⟨hsettled', hnone.trans hnone'⟩
    · rw [Option.some.injEq] at hw
      subst hw
      exact ⟨hsettled, hnone⟩
  refine ⟨?_, cancelsLate_of_noneStarts hwake.2⟩
  refine (hs.of_noneStarts hwake.1 hwake.2 _).goOn hst ?_ hnext
  intro b hb
  obtain ⟨a, ha, -⟩ := hwake.2 h b hb
  exact World.not_waiting hrun a ha

theorem runBody_awaitState (hs : Inv s) {state : ℕ} {ready : Shared → Bool}
    {next : Shared → Program τ}
    (hst : s.strand h = some ⟨τ, token, .body (.awaitState state ready next), callers, spawner⟩)
    (hrun : s.world.phase h = .running on)
    (hstep : s.runBody h sys clock order token callers spawner (.awaitState state ready next) =
      some t) : Inv t ∧ CancelsLate s t.world := by
  have hnext : ∀ r, (next r).Fits s.outer (SpawnsNone (s.root h)) := (hs.fits h _ hst).place
  rw [runBody] at hstep
  split_ifs at hstep
  · rw [Option.some.injEq] at hstep
    subst hstep
    exact ⟨hs.goOn hst (World.not_waiting hrun) (hnext _), cancelsLate_refl s⟩
  · rw [Option.map_eq_some_iff] at hstep
    obtain ⟨w, hw, rfl⟩ := hstep
    have hplain : World.Plain (.park h) := trivial
    obtain ⟨hinv, hlate⟩ := hs.plain hplain hw
      (Function.update s.shared state { s.shared state with waiter := some h })
    refine ⟨hinv.goOn hst ?_ hnext, hlate⟩
    obtain ⟨on, -, rfl⟩ := World.step_park.mp hw
    simp [World.setPhase]

theorem runBody_inv (hs : Inv s) {p : Program τ}
    (hst : s.strand h = some ⟨τ, token, .body p, callers, spawner⟩)
    (hrun : s.world.phase h = .running on)
    (hstep : s.runBody h sys clock order token callers spawner p = some t) :
    Inv t ∧ CancelsLate s t.world := by
  have hn := World.not_waiting hrun
  have hplace := (hs.fits h _ hst).place
  cases p with
  | ret v => exact runBody_ret hs hst hrun hstep
  | wait kind fd next => exact runBody_wait hs hst hrun hstep
  | spawn task own next => exact runBody_spawn hs hst hrun hstep
  | update state f next => exact runBody_update hs hst hrun hstep
  | awaitState state ready next => exact runBody_awaitState hs hst hrun hstep
  | now next =>
    rw [runBody, Option.some.injEq] at hstep
    subst hstep
    exact ⟨hs.goOn hst hn (hplace clock), cancelsLate_refl s⟩
  | await task own next =>
    rw [runBody, Option.some.injEq] at hstep
    subst hstep
    obtain ⟨htask, hown, hnext⟩ := hplace
    obtain ⟨htok, -, hcallers⟩ := hs.fits h _ hst
    refine ⟨hs.setStrand hst hn ⟨carried_awaitTransform htok hown, htask, ?_⟩ rfl,
      cancelsLate_refl s⟩
    exact ⟨htok, hnext, hcallers⟩
  | makeSource next =>
    rw [runBody, Option.some.injEq] at hstep
    subst hstep
    have hinv : Inv { s with sources := s.sources + 1 } :=
      ⟨hs.settled, hs.waits, hs.bound, hs.fits, hs.spawner, hs.root, Nat.le_succ_of_le hs.sources⟩
    exact ⟨hinv.goOn hst hn (hplace s.sources hs.sources), cancelsLate_refl s⟩
  | makeState init next =>
    rw [runBody, Option.some.injEq] at hstep
    subst hstep
    have hinv : Inv { s with
        states := s.states + 1
        shared := Function.update s.shared s.states init } :=
      ⟨hs.settled, hs.waits, hs.bound, hs.fits, hs.spawner, hs.root, hs.sources⟩
    exact ⟨hinv.goOn hst hn (hplace s.states), cancelsLate_refl s⟩

end Run

/-! ## Steps and runs -/

theorem resumed_inv (hs : Inv s) (hst : s.strand h = some st)
    (hn : ∀ a, s.world.phase h ≠ .waiting a) (hstep : s.resumed h st = some t) :
    Inv t ∧ t.world = s.world := by
  have hplace := (hs.fits h st hst).place
  obtain ⟨τ, token, place, callers, spawner⟩ := st
  cases place with
  | body p =>
    rw [resumed, Option.some.injEq] at hstep
    exact ⟨hstep ▸ hs, by rw [hstep]⟩
  | leaf next =>
    rw [resumed, Option.map_eq_some_iff] at hstep
    obtain ⟨r, -, rfl⟩ := hstep
    exact ⟨hs.goOn hst hn (hplace r), rfl⟩
  | parked state next =>
    rw [resumed, Option.some.injEq] at hstep
    subst hstep
    exact ⟨hs.goOn hst hn (hplace _), rfl⟩

theorem step_resume_inv (hs : Inv s) {sys : Except Errno ℕ}
    (hstep : s.step (.resume sys) = some t) : Inv t ∧ CancelsLate s t.world := by
  rw [step] at hstep
  cases hready : s.world.ready with
  | nil =>
    rw [hready] at hstep
    cases hstep
  | cons h rest =>
    rw [hready] at hstep
    obtain ⟨w, hw, hstep⟩ := Option.bind_eq_some_iff.mp hstep
    obtain ⟨st, hst, hstep⟩ := Option.bind_eq_some_iff.mp hstep
    have hplain : World.Plain (.resume sys) := trivial
    obtain ⟨hinv, hlate⟩ := hs.plain hplain hw s.shared
    have hn : ∀ a, w.phase h ≠ .waiting a := by
      intro a
      obtain ⟨h', rest', hready', rfl⟩ := World.step_resume.mp hw
      rw [hready] at hready'
      cases hready'
      exact World.resume_not_waiting hs.settled.inv rest h ownerLoop sys a
    obtain ⟨hinv', hworld⟩ := resumed_inv hinv hst hn hstep
    exact ⟨hinv', by rw [hworld]; exact hlate⟩

theorem around_plain {op : WorldOp} (h : World.around op = true) : World.Plain op := by
  cases op with
  | await k kind fd cell token sys => cases h
  | requestStop src tls => cases h
  | callback k => cases h
  | _ => trivial

theorem isRunning_iff {w : World} {h : Handle} :
    w.isRunning h = true ↔ ∃ on, w.phase h = .running on := by
  rw [World.isRunning]
  cases w.phase h <;> simp

theorem step_inv (hs : Inv s) {op : TaskLoopOp} (hstep : s.step op = some t) :
    Inv t ∧ CancelsLate s t.world := by
  cases op with
  | spawn r =>
    rw [step] at hstep
    split_ifs at hstep with htok
    rw [Option.map_eq_some_iff] at hstep
    obtain ⟨u, hu, rfl⟩ := hstep
    have hroot : u.root = s.root := by
      obtain ⟨w, -, rfl⟩ := Option.map_eq_some_iff.mp hu
      rfl
    have hfits : r.expr.program.Fits s.outer r.expr.Sequential := r.expr.program_fits s.outer id
    have hbound : ∀ e src, some r = some e → e.token = some src → src < s.outer := by
      intro e src he hsrc
      cases he
      simpa [hsrc] using htok
    obtain ⟨hinv, hnone⟩ := hs.launch hu (some r) hbound ⟨fun _ h => h, hfits, trivial⟩ (by simp)
    rw [hroot]
    exact ⟨hinv, cancelsLate_of_noneStarts hnone⟩
  | resume sys => exact step_resume_inv hs hstep
  | run h sys clock order =>
    rw [step] at hstep
    split_ifs at hstep with hrunning
    obtain ⟨on, hrun⟩ := isRunning_iff.mp hrunning
    split at hstep
    · next hst => exact runBody_inv hs hst hrun hstep
    · cases hstep
  | stop src order =>
    rw [step] at hstep
    split_ifs at hstep
    rw [Option.some.injEq] at hstep
    subst hstep
    obtain ⟨hsettled, hnone⟩ := hs.settled.stopSource src fun k a hk => hs.mem_everyone order hk
    exact ⟨hs.of_noneStarts hsettled hnone s.shared, cancelsLate_of_noneStarts hnone⟩
  | loop op =>
    rw [step] at hstep
    split_ifs at hstep with hop
    rw [Option.map_eq_some_iff] at hstep
    obtain ⟨w, hw, rfl⟩ := hstep
    exact hs.plain (around_plain hop) hw s.shared

theorem create_inv (outer : ℕ) (now : ℤ) (m : Heap) (k : Kernel) : Inv (create outer now m k) := by
  have hphase : ∀ h a, (World.fresh now m k).phase h ≠ .waiting a := by
    simp [World.fresh]
  constructor
  case settled =>
    refine ⟨World.fresh_inv now m k, ?_, ?_, ?_⟩
    · exact ⟨rfl, by simp [create, World.fresh], by simp [create, World.fresh],
        by simp [create, World.fresh]⟩
    · exact fun h a _ hw => absurd hw (hphase h a)
    · exact fun h a _ hw => absurd hw (hphase h a)
  case waits => exact fun h a hw => absurd hw (hphase h a)
  case bound => exact fun _ _ h => by cases h
  case fits => exact fun _ _ h => by cases h
  case spawner => exact fun _ _ _ h => by cases h
  case root => exact fun _ _ h => by cases h
  case sources => exact le_refl outer

theorem Reaches.inv {outer : ℕ} {now : ℤ} {m : Heap} {k : Kernel} {ops : List TaskLoopOp}
    (hr : Reaches outer now m k ops s) : Inv s :=
  Transition.invariant Inv (fun hstep hs => (step_inv hs hstep).1) (create_inv outer now m k) hr

/-! ## The expression of a root -/

/-- The innermost frame in the strand of a root holds the root's token. -/
theorem Inv.token_eq (hs : Inv s) {r : Root} (hroot : s.root h = some r) {src : ℕ}
    (htok : r.token = some src) (hst : s.strand h = some st) : st.token = some src := by
  have hcar := (hs.fits h st hst).token
  rw [hroot] at hcar
  exact hcar src htok

/-- A wait in a strand that another one spawned holds no outer token. -/
theorem Inv.token_ne (hs : Inv s) (hroot : s.root h = none) {src : ℕ} (hsrc : src < s.outer)
    {a : Awaiter} (hw : s.world.phase h = .waiting a) : a.token ≠ some src := by
  obtain ⟨st, hst, hsttok⟩ := hs.waits h a hw
  have hcar := (hs.fits h st hst).token
  rw [hroot] at hcar
  rw [← hsttok]
  intro he
  exact Nat.not_lt.mpr (hcar src he) hsrc

theorem Inv.descends_root (hs : Inv s) {r : Handle} (hd : s.Descends r h) (hne : h ≠ r) :
    s.root h = none := by
  cases hd with
  | self => exact absurd rfl hne
  | child hp hst hspawner => exact (hs.spawner h _ _ hst hspawner).1

theorem Inv.descends_sequential (hs : Inv s) {r : Handle} (hseq : SpawnsNone (s.root r))
    (hd : s.Descends r h) : h = r := by
  induction hd with
  | self => rfl
  | child hp hst hspawner ih =>
    subst ih
    exact absurd hseq (hs.spawner _ _ _ hst hspawner).2.2

/-- A task is given a token of `src` and spawned. A stop of `src` cancels the pending waits of
its expression that it reaches by awaiting, and no others; a wait that it reaches so and that
starts later is cancelled at once. An expression without concurrent combinators reaches all its
waits so. -/
theorem stop_reaches_awaited_waits {outer : ℕ} {now : ℤ} {m : Heap} {k : Kernel}
    {ops : List TaskLoopOp} (hr : Reaches outer now m k ops s) {r : Handle} {e : Root}
    (hroot : s.root r = some e) {src : ℕ} (htok : e.token = some src) :
    (∀ order t, s.step (.stop src order) = some t → ∀ h a, s.Descends r h →
      s.world.phase h = .waiting a → s.world.heap.state a.cell = .pending →
      (t.world.heap.state a.cell = .cancelled ↔ h = r)) ∧
    (s.world.stopped src ≠ none → ∀ op t a, s.step op = some t →
      (∀ b, s.world.phase r ≠ .waiting b) → t.world.phase r = .waiting a →
      t.world.heap.state a.cell = .cancelled) ∧
    (e.expr.Sequential → ∀ h, s.Descends r h → h = r) := by
  have hs := hr.inv
  refine ⟨?_, ?_, ?_⟩
  · intro order t hstep h a hd hw hp
    rw [step] at hstep
    split_ifs at hstep with hsrc
    rw [Option.some.injEq] at hstep
    subst hstep
    rw [hs.settled.cancelled_iff src (hs.mem_everyone order hw) hw hp]
    constructor
    · intro ha
      by_contra hne
      exact hs.token_ne (hs.descends_root hd hne) hsrc hw ha
    · intro he
      subst he
      obtain ⟨st, hst, hsttok⟩ := hs.waits h a hw
      rw [← hsttok]
      exact hs.token_eq hroot htok hst
  · intro hst op t a hstep hn hw
    rcases (step_inv hs hstep).2 r a hw with ⟨b, hb⟩ | ⟨st, hstrand, hcan⟩
    · exact absurd hb (hn b)
    · exact hcan src (hs.token_eq hroot htok hstrand) hst
  · intro hseq h hd
    refine hs.descends_sequential ?_ hd
    rw [hroot]
    exact hseq

end Steps

def readTask : TaskExpr .result := .leaf .readReady 3 fun r => .ret r

def pipedRead : Root := ⟨.result, .andThen readTask fun _ => readTask, some 0⟩

def pipedReadWaits : List TaskLoopOp :=
  [.spawn pipedRead, .resume (.ok 0), .run 0 (.ok 0) 0 [], .run 0 (.ok 0) 0 []]

theorem stop_reaches_awaited_waits_in_pipe : ∃ s t,
    Reaches 1 0 World.blankHeap World.blankKernel pipedReadWaits s ∧
    s.root 0 = some pipedRead ∧ s.step (.stop 0 []) = some t ∧
    s.world.phase 0 = .waiting ⟨.readReady, 3, 0, some 0, 0, true⟩ ∧
    s.world.heap.state 0 = .pending ∧ t.world.heap.state 0 = .cancelled := by
  obtain ⟨s, t, hr, hroot, hstep, hw, hp⟩ : ∃ s t,
      Reaches 1 0 World.blankHeap World.blankKernel pipedReadWaits s ∧
      s.root 0 = some pipedRead ∧ s.step (.stop 0 []) = some t ∧
      s.world.phase 0 = .waiting ⟨.readReady, 3, 0, some 0, 0, true⟩ ∧
      s.world.heap.state 0 = .pending := ⟨_, _, rfl, rfl, rfl, rfl, rfl⟩
  have hiff := (stop_reaches_awaited_waits hr hroot rfl).1 [] t hstep 0 _ .self hw hp
  exact ⟨s, t, hr, hroot, hstep, hw, hp, hiff.mpr rfl⟩

def racedRead : Root := ⟨.result, .whenAny fun _ : Fin 1 => readTask, some 0⟩

def racedReadStarts : List TaskLoopOp :=
  [.spawn racedRead, .resume (.ok 0), .run 0 (.ok 0) 0 [], .run 0 (.ok 0) 0 [],
    .run 0 (.ok 0) 0 [], .run 0 (.ok 0) 0 [], .run 0 (.ok 0) 0 [], .resume (.ok 0),
    .run 1 (.ok 0) 0 []]

/-- The racer's read stays pending when the source of the root is stopped, and it waits as
before when the source was stopped first. -/
theorem stop_misses_raced_read :
    (∃ s t, Reaches 1 0 World.blankHeap World.blankKernel
        (racedReadStarts ++ [.run 1 (.ok 0) 0 []]) s ∧
      s.root 0 = some racedRead ∧ s.Descends 0 1 ∧
      s.world.phase 1 = .waiting ⟨.readReady, 3, 1, some 1, 0, true⟩ ∧
      s.world.heap.state 1 = .pending ∧ s.step (.stop 0 []) = some t ∧
      t.world.heap.state 1 = .pending) ∧
    (∃ s t, Reaches 1 0 World.blankHeap World.blankKernel (racedReadStarts ++ [.stop 0 []]) s ∧
      s.world.stopped 0 = some (some ownerLoop) ∧ s.Descends 0 1 ∧
      s.world.phase 1 = .running ownerLoop ∧ s.step (.run 1 (.ok 0) 0 []) = some t ∧
      t.world.phase 1 = .waiting ⟨.readReady, 3, 1, some 1, 0, true⟩ ∧
      t.world.heap.state 1 = .pending) :=
  ⟨⟨_, _, rfl, rfl, .child .self rfl rfl, rfl, rfl, rfl, rfl⟩,
    ⟨_, _, rfl, rfl, .child .self rfl rfl, rfl, rfl, rfl, rfl⟩⟩

end TaskLoop
end RainRuntime
