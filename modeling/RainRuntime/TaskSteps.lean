import RainRuntime.TaskChains

/-!
# Steps of the task machine

What a step can do is said once, with the links that the invariant gives it: where control
goes at the end of a frame is the frame that awaits it. The invariant has three parts. The
trees of the frames, from the previous module, with the numbers in use and the running
frame; the waiter of a root; and the turns of each frame, which are suspensions and
resumptions in alternation.
-/

namespace RainRuntime
open Coroutine (Input Agrees)

variable {L V : Type*}

namespace TaskMachine

/-! ## Turns -/

def Alternating (l : List Bool) : Prop := ∀ i b, l[i]? = some b → b = decide (i % 2 = 1)

theorem alternating_nil : Alternating [] := by
  intro i b h
  cases h

theorem Alternating.concat {l : List Bool} (h : Alternating l) {b : Bool}
    (hb : b = decide (l.length % 2 = 1)) : Alternating (l ++ [b]) := by
  intro i c hc
  rw [List.getElem?_append] at hc
  split at hc
  · exact h i c hc
  · next hi =>
    rw [List.getElem?_singleton] at hc
    split at hc
    · next hz =>
      cases hc
      have hil : i = l.length := by omega
      rw [hil]
      exact hb
    · cases hc

def Suspended (s : TaskMachine L V) (f : ℕ) : Prop :=
  f < s.size ∧ s.point f ≠ .done ∧ s.current ≠ some f

def InTurn (s : TaskMachine L V) (f : ℕ) : Prop :=
  Alternating (s.turns f) ∧ ((s.turns f).length % 2 = 1 ↔ s.Suspended f)

variable {s t : TaskMachine L V} {f g r : ℕ} {es : List (TaskEvent L V)}

theorem steps_of_log (h : t.log = s.log ++ es) (r : ℕ) :
    t.steps r = s.steps r ++ es.filterMap (stepOf r) := by
  rw [steps, h, List.filterMap_append, steps]

theorem inputs_of_log (h : t.log = s.log ++ es) (r : ℕ) :
    t.inputs r = s.inputs r ++ es.filterMap (inputOf r) := by
  rw [inputs, h, List.filterMap_append, inputs]

theorem turns_of_log (h : t.log = s.log ++ es) (f : ℕ) :
    t.turns f = s.turns f ++ es.filterMap (turnOf f) := by
  rw [turns, h, List.filterMap_append, turns]

theorem InTurn.keep (h : s.InTurn f) (ht : t.turns f = s.turns f)
    (hs : t.Suspended f ↔ s.Suspended f) : t.InTurn f := by
  rw [InTurn, ht, hs]
  exact h

theorem InTurn.suspend (h : s.InTurn f) (ht : t.turns f = s.turns f ++ [false])
    (hs : ¬ s.Suspended f) (hs' : t.Suspended f) : t.InTurn f := by
  have heven : ¬ (s.turns f).length % 2 = 1 := fun hl => hs (h.2.mp hl)
  rw [InTurn, ht]
  refine ⟨h.1.concat (decide_eq_false heven).symm, ?_⟩
  rw [List.length_append, List.length_singleton]
  exact iff_of_true (by omega) hs'

theorem InTurn.resume (h : s.InTurn f) (ht : t.turns f = s.turns f ++ [true])
    (hs : s.Suspended f) (hs' : ¬ t.Suspended f) : t.InTurn f := by
  have hodd : (s.turns f).length % 2 = 1 := h.2.mpr hs
  rw [InTurn, ht]
  refine ⟨h.1.concat (decide_eq_true hodd).symm, ?_⟩
  rw [List.length_append, List.length_singleton]
  exact iff_of_false (by omega) hs'

/-! ## What a step can do -/

inductive Move (s : TaskMachine L V) (f : ℕ) :
    Point L V → List (TaskEvent L V) → Option ℕ → Prop
  | start {code} (hp : s.point f = .ready code) (hc : s.current = none) :
    Move s f (.ready code) [.resume f] (some f)
  | act {l next} (hp : s.point f = .ready (.act l next)) (hc : s.current = some f) :
    Move s f (.ready next) [.step (s.root f) l] (some f)
  | joined {task next} (hp : s.point f = .ready (.join task next)) (hc : s.current = some f) :
    Move s f (.ready (next (s.result task))) [.joined (s.root f) task (s.result task)] (some f)
  | sleep {next} (hp : s.point f = .ready (.leaf next)) (hc : s.current = some f) :
    Move s f (.leaf next) [.suspend f] none
  | wake {next v} (hp : s.point f = .leaf next) (hc : s.current = none) :
    Move s f (.ready (next v)) [.resume f, .leaf (s.root f) v] (some f)

inductive Ends : Point L V → Result V → Prop
  | ret (v : V) : Ends (.ready (.ret v)) (.ok v)
  | throw : Ends (.ready .throw) (.error unhandled)

inductive Effect (s : TaskMachine L V) : TaskMachine L V → Prop
  | spawn (B : TaskBody L V) :
    Effect s { s.allocate B none s.size with body := Function.update s.body s.size (some B) }
  | move {f p es c} (h : s.Move f p es c) :
    Effect s { (s.setPoint f p).record es with current := c }
  | join {f task next} (hc : s.current = some f) (hp : s.point f = .ready (.join task next))
    (hb : s.body task ≠ none) (hd : s.point task ≠ .done) :
    Effect s { (s.setPoint f (.joining task next)).record [.joins f task, .suspend f] with
      continuation := Function.update s.continuation task (some f)
      current := none }
  | call {f child next} (hc : s.current = some f) (hp : s.point f = .ready (.await child next)) :
    Effect s { ((s.allocate child (some f) (s.root f)).setPoint f
        (.awaiting s.size next)).record [.awaits f s.size, .suspend f, .resume s.size] with
      current := some s.size }
  | finishRoot {f res} (hc : s.current = some f) (hend : Ends (s.point f) res)
    (hb : s.body f ≠ none) (hcont : s.continuation f = none) : Effect s (s.ended f res)
  | finishJoin {f res w next} (hc : s.current = some f) (hend : Ends (s.point f) res)
    (hb : s.body f ≠ none) (hcont : s.continuation f = some w)
    (hw : s.point w = .joining f next) :
    Effect s { ((s.ended f res).setPoint w (.ready (next res))).record
        [.resume w, .joined (s.root w) f res] with
      current := some w }
  | finishChild {f v g next} (hc : s.current = some f) (hp : s.point f = .ready (.ret v))
    (hb : s.body f = none) (hcont : s.continuation f = some g)
    (hg : s.point g = .awaiting f next) :
    Effect s { ((s.ended f (.ok v)).setPoint g (.ready (next v))).record [.resume g] with
      current := some g }

/-! ## The invariant -/

structure Inv (s : TaskMachine L V) : Prop where
  roots : ∀ r B, s.body r = some B → s.root r = r ∧ r < s.size
  rooted : ∀ f, f < s.size → ∃ B, s.body (s.root f) = some B
  fresh : ∀ f, s.size ≤ f →
    s.point f = .done ∧ s.turns f = [] ∧ s.inputs f = [] ∧ s.steps f = []
  running : ∀ f, s.current = some f → ∃ code, s.point f = .ready code
  tree : ∀ r B, s.body r = some B → s.Tree r B
  waiter : ∀ r w, s.body r ≠ none → s.continuation r = some w →
    (s.point r ≠ .done → ∃ next, s.point w = .joining r next) ∧
    (s.point r = .done → ∀ next, s.point w ≠ .joining r next)
  inTurn : ∀ f, s.InTurn f

namespace Inv

theorem lt_size (hI : s.Inv) (hd : s.point f ≠ .done) : f < s.size := by
  by_contra h
  exact hd (hI.fresh f (Nat.le_of_not_lt h)).1

theorem root_lt (hI : s.Inv) (hlt : f < s.size) : s.root f < s.size := by
  obtain ⟨B, hB⟩ := hI.rooted f hlt
  exact (hI.roots _ B hB).2

theorem root_self (hI : s.Inv) (hb : s.body f ≠ none) : s.root f = f := by
  obtain ⟨B, hB⟩ := Option.ne_none_iff_exists'.mp hb
  exact (hI.roots f B hB).1

theorem root_ne (hI : s.Inv) (hlt : f < s.size) (hb : s.body f = none) : s.root f ≠ f := by
  intro h
  obtain ⟨B, hB⟩ := hI.rooted f hlt
  rw [h, hb] at hB
  cases hB

theorem live (hI : s.Inv) (hf : (s.point f).Active) :
    ∃ B parents, s.body (s.root f) = some B ∧ s.Live (s.root f) B f parents := by
  obtain ⟨B, hB⟩ := hI.rooted f (hI.lt_size hf.ne_done)
  obtain ⟨parents, hlive⟩ := (hI.tree _ B hB).live_of_active rfl hf
  exact ⟨B, parents, hB, hlive⟩

theorem awaiter (hI : s.Inv) (hf : (s.point f).Active) (hb : s.body f = none) :
    ∃ g next, s.continuation f = some g ∧ s.point g = .awaiting f next := by
  obtain ⟨B, parents, _, hlive⟩ := hI.live hf
  cases parents with
  | nil => exact absurd hlive.chain.symm (hI.root_ne (hI.lt_size hf.ne_done) hb)
  | cons p rest =>
    obtain ⟨_, _, hc, hp, _⟩ := hlive.chain
    exact ⟨p.1, p.2, hc, hp⟩

end Inv

theorem Ends.ready {p : Point L V} {res : Result V} (h : Ends p res) : ∃ code, p = .ready code := by
  cases h with
  | ret v => exact ⟨_, rfl⟩
  | throw => exact ⟨_, rfl⟩

theorem active_of_ready {code : TaskBody L V} (h : s.point f = .ready code) :
    (s.point f).Active := by
  rw [h]
  trivial

/-- The end of a frame, with the links of the invariant: it is an effect unless an error goes to
a frame that unwraps it. -/
theorem finish_effect (hI : s.Inv) (hc : s.current = some f) {res : Result V}
    (hend : Ends (s.point f) res) (h0 : s.fault = none) :
    ((s.finish f res).fault = none ∧ s.Effect (s.finish f res)) ∨
      (s.point f = .ready .throw ∧ s.body f = none ∧
        (s.finish f res).fault = some .badUnwrap) := by
  obtain ⟨code, hp⟩ := hend.ready
  have hact : (s.point f).Active := active_of_ready hp
  cases hb : s.body f with
  | some B =>
    have hb' : s.body f ≠ none := by
      rw [hb]
      exact Option.some_ne_none B
    left
    cases hcont : s.continuation f with
    | none =>
      have heq : s.finish f res = s.ended f res := by rw [finish, hcont]
      rw [heq]
      exact ⟨h0, .finishRoot hc hend hb' hcont⟩
    | some w =>
      obtain ⟨next, hw⟩ := (hI.waiter f w hb' hcont).1 hact.ne_done
      have hwf : w ≠ f := by
        rintro rfl
        rw [hp] at hw
        cases hw
      have hw' : (s.ended f res).point w = .joining f next := by
        rw [← hw]
        exact Function.update_of_ne hwf _ _
      have heq : s.finish f res = { ((s.ended f res).setPoint w (.ready (next res))).record
          [.resume w, .joined (s.root w) f res] with current := some w } := by
        simp only [finish, hcont, transfer, hw', if_pos]
        rfl
      rw [heq]
      exact ⟨h0, .finishJoin hc hend hb' hcont hw⟩
  | none =>
    obtain ⟨g, next, hcont, hg⟩ := hI.awaiter hact hb
    have hgf : g ≠ f := by
      rintro rfl
      rw [hp] at hg
      cases hg
    have hg' : (s.ended f res).point g = .awaiting f next := by
      rw [← hg]
      exact Function.update_of_ne hgf _ _
    generalize hpf : s.point f = p at hend
    cases hend with
    | ret v =>
      left
      have heq : s.finish f (.ok v) = { ((s.ended f (.ok v)).setPoint g (.ready (next v))).record
          [.resume g] with current := some g } := by
        simp only [finish, hcont, transfer, hg', if_pos]
      rw [heq]
      exact ⟨h0, .finishChild hc hpf hb hcont hg⟩
    | throw =>
      right
      refine ⟨rfl, rfl, ?_⟩
      simp only [finish, hcont, transfer, hg', if_pos]

/-- Where the machine can stop: at an await of an empty task, and at the end of an awaited task
by an exception. -/
def Unwraps (s : TaskMachine L V) (f : ℕ) : Prop :=
  (∃ next, s.point f = .ready (.awaitEmpty next)) ∨
    (s.point f = .ready .throw ∧ s.body f = none)

theorem step_effect {op : TaskOp L V} (hI : s.Inv) (h : s.step op = some t) :
    (t.fault = none ∧ s.Effect t) ∨
      (t.fault ≠ none ∧ t.fault ≠ some .badResume ∧ op = .run ∧
        ∃ f, s.current = some f ∧ s.Unwraps f) := by
  rw [step.eq_def] at h
  split at h
  · cases h
  next hfault =>
  have h0 : s.fault = none := by
    by_contra hf
    exact hfault hf
  cases op with
  | spawn body =>
    left
    cases h
    exact ⟨h0, .spawn body⟩
  | start root =>
    simp only at h
    split at h
    · next code hc hp =>
      left
      cases h
      have heq : s.record [.resume root] = (s.setPoint root (.ready code)).record
          [.resume root] := by
        rw [setPoint, ← hp, Function.update_eq_self]
      rw [heq]
      exact ⟨h0, .move (.start hp hc)⟩
    · cases h
  | resume f v =>
    simp only at h
    split at h
    · next next hc hp =>
      left
      cases h
      exact ⟨h0, .move (.wake hp hc)⟩
    · cases h
  | run =>
    simp only at h
    split at h
    · cases h
    next f hc =>
    split at h
    swap
    · cases h
    next code hp =>
    cases code with
    | act l next =>
      left
      cases h
      have hcur : { (s.setPoint f (.ready next)).record [.step (s.root f) l] with
          current := some f } = (s.setPoint f (.ready next)).record [.step (s.root f) l] := by
        rw [← hc]
        rfl
      exact ⟨h0, hcur ▸ .move (.act hp hc)⟩
    | ret v =>
      cases h
      rcases finish_effect hI hc (hp ▸ Ends.ret v) h0 with heff | ⟨hthrow, _⟩
      · exact Or.inl heff
      · rw [hp] at hthrow
        cases hthrow
    | throw =>
      cases h
      rcases finish_effect hI hc (hp ▸ Ends.throw) h0 with heff | ⟨hthrow, hb, hbad⟩
      · exact Or.inl heff
      · right
        rw [hbad]
        exact ⟨by decide, by decide, rfl, f, hc, Or.inr ⟨hthrow, hb⟩⟩
    | await child next =>
      left
      cases h
      exact ⟨h0, .call hc hp⟩
    | awaitEmpty next =>
      right
      cases h
      have hne : some TaskFault.noPromise ≠ none ∧
          some TaskFault.noPromise ≠ some .badResume := by decide
      exact ⟨hne.1, hne.2, rfl, f, hc, Or.inl ⟨next, hp⟩⟩
    | leaf next =>
      left
      cases h
      exact ⟨h0, .move (.sleep hp hc)⟩
    | join task next =>
      left
      rw [runBody] at h
      split at h
      · cases h
      next hb =>
      have hb' : s.body task ≠ none := by
        intro hn
        rw [hn] at hb
        exact hb rfl
      split at h
      · cases h
        have hcur : { (s.setPoint f (.ready (next (s.result task)))).record
            [.joined (s.root f) task (s.result task)] with current := some f } =
            (s.setPoint f (.ready (next (s.result task)))).record
              [.joined (s.root f) task (s.result task)] := by
          rw [← hc]
          rfl
        exact ⟨h0, hcur ▸ .move (.joined hp hc)⟩
      · next hd =>
        cases h
        exact ⟨h0, .join hc hp hb' hd⟩

/-! ## Moves -/

namespace Move
variable {p : Point L V} {c : Option ℕ}

theorem active (h : s.Move f p es c) : (s.point f).Active ∧ p.Active := by
  cases h with
  | start hp _ | act hp _ | joined hp _ | sleep hp _ | wake hp _ =>
    rw [hp]
    exact ⟨trivial, trivial⟩

theorem agrees (h : s.Move f p es c) {B : TaskBody L V} {ins : List (Input V SystemError)}
    {done : List L} {ks : List (V → TaskBody L V)}
    (ha : Agrees B ins done ks (s.point f).code) :
    Agrees B (ins ++ es.filterMap (inputOf (s.root f))) (done ++ es.filterMap (stepOf (s.root f)))
      ks p.code := by
  cases h with
  | start hp _ =>
    rw [hp] at ha
    simpa [inputOf, stepOf, List.filterMap_cons, Point.code] using ha
  | act hp _ =>
    rw [hp] at ha
    simpa [inputOf, stepOf, List.filterMap_cons, Point.code] using ha.act
  | joined hp _ =>
    rw [hp] at ha
    simpa [inputOf, stepOf, List.filterMap_cons, Point.code] using ha.join (s.result _)
  | sleep hp _ =>
    rw [hp] at ha
    simpa [inputOf, stepOf, List.filterMap_cons, Point.code] using ha
  | @wake _ v hp _ =>
    rw [hp] at ha
    simpa [inputOf, stepOf, List.filterMap_cons, Point.code] using ha.leaf v

theorem other (h : s.Move f p es c) (hr : r ≠ s.root f) :
    es.filterMap (inputOf r) = [] ∧ es.filterMap (stepOf r) = [] := by
  cases h <;> simp [inputOf, stepOf, List.filterMap_cons, hr.symm]

theorem turns_other (h : s.Move f p es c) (hg : g ≠ f) : es.filterMap (turnOf g) = [] := by
  cases h <;> simp [turnOf, List.filterMap_cons, hg.symm]

theorem no_link (h : s.Move f p es c) :
    (∀ g d, .finish g d ∉ es) ∧ (∀ g d, .awaits g d ∉ es) := by
  cases h <;> simp

theorem ready_of_current (h : s.Move f p es c) (hc : c = some g) :
    g = f ∧ ∃ code, p = .ready code := by
  cases h <;> cases hc <;> exact ⟨rfl, _, rfl⟩

theorem current_other (h : s.Move f p es c) (hg : g ≠ f) : c ≠ some g ∧ s.current ≠ some g := by
  cases h with
  | start _ hc | wake _ hc =>
    rw [hc]
    simp [hg.symm]
  | act _ hc | joined _ hc | sleep _ hc =>
    rw [hc]
    simp [hg.symm]

end Move

end TaskMachine
end RainRuntime
