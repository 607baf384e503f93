import RainRuntime.TaskRuns

/-!
# Tasks as calls

The log gives the links between frames: whoever awaited a child is where the child's end
transfers control to, and a root transfers control to the frame that joined it or to
nobody. With the chains of the invariant this makes a run of the machine an evaluation of
the spawned bodies as nested calls.

The unchecked unwrap of `Task::await_resume` needs a value in the promise. It has one
unless the awaited task is empty or has ended by an exception.
-/

namespace RainRuntime
open Coroutine (Input Agrees)

variable {L V : Type*}

namespace TaskMachine

variable {s t : TaskMachine L V} {es : List (TaskEvent L V)}

def Resumes : List (TaskEvent L V) → Prop
  | [] => True
  | .finish _ (some c) :: rest => rest.head? = some (.resume c) ∧ Resumes rest
  | _ :: rest => Resumes rest

theorem Resumes.append {l l' : List (TaskEvent L V)} (h : Resumes l) (h' : Resumes l') :
    Resumes (l ++ l') := by
  induction l with
  | nil => exact h'
  | cons e l ih =>
    cases e with
    | finish f d =>
      cases d with
      | none => exact ih h
      | some c =>
        refine ⟨?_, ih h.2⟩
        change (l ++ l').head? = some (.resume c)
        rw [List.head?_append, h.1]
        rfl
    | step | leaf | joined | suspend | resume | awaits | joins => exact ih h

theorem Resumes.cut {pre post : List (TaskEvent L V)} {f c : ℕ}
    (h : Resumes (pre ++ .finish f (some c) :: post)) : post.head? = some (.resume c) := by
  induction pre with
  | nil => exact h.1
  | cons e pre ih =>
    cases e with
    | finish f d =>
      cases d with
      | none => exact ih h
      | some c => exact ih h.2
    | step | leaf | joined | suspend | resume | awaits | joins => exact ih h

structure Links (s : TaskMachine L V) : Prop where
  finished : ∀ f d, .finish f d ∈ s.log → f < s.size ∧ s.point f = .done ∧ s.continuation f = d
  awaited : ∀ c f, .awaits c f ∈ s.log →
    f < s.size ∧ s.body f = none ∧ s.continuation f = some c
  child : ∀ f, f < s.size → s.body f = none → ∃ c, .awaits c f ∈ s.log
  joined : ∀ r c, s.body r ≠ none → s.continuation r = some c → .joins c r ∈ s.log
  ended : ∀ f, f < s.size → s.point f = .done → ∃ d, .finish f d ∈ s.log
  resumes : Resumes s.log

namespace Links

theorem extend (h : s.Links) (hlog : t.log = s.log ++ es) (hsize : s.size ≤ t.size)
    (hbody : ∀ f, f < s.size → t.body f = s.body f)
    (hchild : ∀ f, f < s.size → s.body f = none → t.continuation f = s.continuation f)
    (hdone : ∀ f, f < s.size → s.point f = .done →
      t.point f = .done ∧ t.continuation f = s.continuation f)
    (hfinish : ∀ f d, .finish f d ∈ es → f < t.size ∧ t.point f = .done ∧ t.continuation f = d)
    (hawaits : ∀ c f, .awaits c f ∈ es →
      f < t.size ∧ t.body f = none ∧ t.continuation f = some c)
    (hnew : ∀ f, s.size ≤ f → f < t.size → t.body f = none → ∃ c, .awaits c f ∈ es)
    (hjoins : ∀ r c, t.body r ≠ none → t.continuation r = some c →
      (s.body r ≠ none ∧ s.continuation r = some c) ∨ .joins c r ∈ es)
    (hended : ∀ f, f < t.size → t.point f = .done →
      (f < s.size ∧ s.point f = .done) ∨ ∃ d, .finish f d ∈ es)
    (hresumes : Resumes es) : t.Links := by
  refine ⟨?_, ?_, ?_, ?_, ?_, ?_⟩
  · intro f d hf
    rw [hlog] at hf
    rcases List.mem_append.mp hf with hf | hf
    · obtain ⟨hlt, hp, hc⟩ := h.finished f d hf
      obtain ⟨hp', hc'⟩ := hdone f hlt hp
      exact ⟨Nat.lt_of_lt_of_le hlt hsize, hp', hc'.trans hc⟩
    · exact hfinish f d hf
  · intro c f hf
    rw [hlog] at hf
    rcases List.mem_append.mp hf with hf | hf
    · obtain ⟨hlt, hb, hc⟩ := h.awaited c f hf
      exact ⟨Nat.lt_of_lt_of_le hlt hsize, (hbody f hlt).trans hb, (hchild f hlt hb).trans hc⟩
    · exact hawaits c f hf
  · intro f hlt hb
    rw [hlog]
    rcases Nat.lt_or_ge f s.size with hf | hf
    · rw [hbody f hf] at hb
      obtain ⟨c, hc⟩ := h.child f hf hb
      exact ⟨c, List.mem_append_left es hc⟩
    · obtain ⟨c, hc⟩ := hnew f hf hlt hb
      exact ⟨c, List.mem_append_right s.log hc⟩
  · intro r c hb hc
    rw [hlog]
    rcases hjoins r c hb hc with ⟨hb', hc'⟩ | hmem
    · exact List.mem_append_left es (h.joined r c hb' hc')
    · exact List.mem_append_right s.log hmem
  · intro f hlt hp
    rw [hlog]
    rcases hended f hlt hp with ⟨hlt', hp'⟩ | ⟨d, hd⟩
    · obtain ⟨d, hd⟩ := h.ended f hlt' hp'
      exact ⟨d, List.mem_append_left es hd⟩
    · exact ⟨d, List.mem_append_right s.log hd⟩
  · rw [hlog]
    exact h.resumes.append hresumes

theorem move {f : ℕ} {p : Point L V} {c : Option ℕ} (h : s.Links)
    (hm : s.Move f p es c) : Links { (s.setPoint f p).record es with current := c } := by
  obtain ⟨hact, hpact⟩ := hm.active
  have hpoint : ∀ g, Function.update s.point f p g = .done ↔ s.point g = .done := by
    intro g
    by_cases hg : g = f
    · rw [hg, Function.update_self]
      exact iff_of_false hpact.ne_done hact.ne_done
    · rw [Function.update_of_ne hg]
  refine h.extend rfl (Nat.le_refl _) (fun _ _ => rfl) (fun _ _ _ => rfl) ?_ ?_ ?_ ?_ ?_ ?_ ?_
  · intro g _ hg
    exact ⟨(hpoint g).mpr hg, rfl⟩
  · intro g d hg
    exact absurd hg (hm.no_link.1 g d)
  · intro g d hg
    exact absurd hg (hm.no_link.2 g d)
  · intro g hle hlt
    exact absurd hlt (Nat.not_lt.mpr hle)
  · intro r c hb hc
    exact Or.inl ⟨hb, hc⟩
  · intro g hlt hd
    exact Or.inl ⟨hlt, (hpoint g).mp hd⟩
  · cases hm <;> trivial

theorem handOver {f w : ℕ} {res : Result V} {code : TaskBody L V} (h : s.Links)
    (hlt : f < s.size) (hwf : w ≠ f) (hw : s.point w ≠ .done) (hcf : s.continuation f = some w)
    (hes : es = [.resume w] ∨ es = [.resume w, .joined (s.root w) f res]) :
    Links { ((s.ended f res).setPoint w (.ready code)).record es with current := some w } := by
  have hpoint : ∀ g, Function.update (Function.update s.point f .done) w (.ready code) g = .done ↔
      g = f ∨ s.point g = .done := by
    intro g
    by_cases hgw : g = w
    · rw [hgw, Function.update_self]
      exact iff_of_false (by simp) (by simp [hwf, hw])
    · rw [Function.update_of_ne hgw]
      by_cases hgf : g = f
      · rw [hgf, Function.update_self]
        simp
      · rw [Function.update_of_ne hgf]
        simp [hgf]
  have hlink : (∀ g d, .finish g d ∉ es) ∧ (∀ g d, .awaits g d ∉ es) := by
    rcases hes with rfl | rfl <;> simp
  have hlog : s.log ++ [.finish f (s.continuation f)] ++ es =
      s.log ++ .finish f (s.continuation f) :: es :=
    List.append_assoc s.log [.finish f (s.continuation f)] es
  refine h.extend hlog (Nat.le_refl _) (fun _ _ => rfl) (fun _ _ _ => rfl) ?_ ?_ ?_ ?_ ?_ ?_ ?_
  · intro g _ hg
    exact ⟨(hpoint g).mpr (Or.inr hg), rfl⟩
  · intro g d hg
    rcases List.mem_cons.mp hg with hg | hg
    · cases hg
      exact ⟨hlt, (hpoint f).mpr (Or.inl rfl), rfl⟩
    · exact absurd hg (hlink.1 g d)
  · intro g d hg
    rcases List.mem_cons.mp hg with hg | hg
    · cases hg
    · exact absurd hg (hlink.2 g d)
  · intro g hle hglt
    exact absurd hglt (Nat.not_lt.mpr hle)
  · intro r c hb hc
    exact Or.inl ⟨hb, hc⟩
  · intro g hglt hd
    rcases (hpoint g).mp hd with rfl | hd
    · exact Or.inr ⟨_, List.mem_cons_self ..⟩
    · exact Or.inl ⟨hglt, hd⟩
  · rw [hcf]
    rcases hes with rfl | rfl
    · exact ⟨rfl, trivial⟩
    · exact ⟨rfl, trivial⟩

theorem effect (hI : s.Inv) (h : s.Links) (he : s.Effect t) : t.Links := by
  cases he with
  | spawn B =>
    have hne : ∀ {g}, g < s.size → g ≠ s.size := Nat.ne_of_lt
    refine h.extend rfl (Nat.le_succ _) ?_ ?_ ?_ ?_ ?_ ?_ ?_ ?_ trivial
    · intro f hlt
      exact Function.update_of_ne (hne hlt) _ _
    · intro f hlt _
      exact Function.update_of_ne (hne hlt) _ _
    · intro f hlt hd
      exact ⟨(Function.update_of_ne (hne hlt) _ _).trans hd, Function.update_of_ne (hne hlt) _ _⟩
    · intro f d hf
      simp at hf
    · intro c f hf
      simp at hf
    · intro f hle hlt hb
      have hf : f = s.size := Nat.le_antisymm (Nat.lt_succ_iff.mp hlt) hle
      change Function.update s.body s.size (some B) f = none at hb
      rw [hf, Function.update_self] at hb
      cases hb
    · intro r c hb hc
      have hr : r ≠ s.size := by
        rintro rfl
        change Function.update s.continuation s.size none s.size = some c at hc
        rw [Function.update_self] at hc
        cases hc
      change Function.update s.body s.size (some B) r ≠ none at hb
      change Function.update s.continuation s.size none r = some c at hc
      rw [Function.update_of_ne hr] at hb hc
      exact Or.inl ⟨hb, hc⟩
    · intro f hlt hd
      have hf : f ≠ s.size := by
        rintro rfl
        change Function.update s.point s.size (.ready B) s.size = .done at hd
        rw [Function.update_self] at hd
        cases hd
      change Function.update s.point s.size (.ready B) f = .done at hd
      rw [Function.update_of_ne hf] at hd
      exact Or.inl ⟨Nat.lt_of_le_of_ne (Nat.lt_succ_iff.mp hlt) hf, hd⟩
  | move hm => exact h.move hm
  | @join f task next hc hp hb hd =>
    have hpoint : ∀ g, Function.update s.point f (.joining task next) g = .done ↔
        s.point g = .done := by
      intro g
      by_cases hg : g = f
      · rw [hg, Function.update_self, hp]
        simp
      · rw [Function.update_of_ne hg]
    refine h.extend rfl (Nat.le_refl _) (fun _ _ => rfl) ?_ ?_ ?_ ?_ ?_ ?_ ?_ trivial
    · intro g _ hg
      refine Function.update_of_ne ?_ _ _
      rintro rfl
      exact hb hg
    · intro g _ hg
      refine ⟨(hpoint g).mpr hg, Function.update_of_ne ?_ _ _⟩
      rintro rfl
      exact hd hg
    · intro g d hg
      simp at hg
    · intro c g hg
      simp at hg
    · intro g hle hlt
      exact absurd hlt (Nat.not_lt.mpr hle)
    · intro r c hbr hcr
      change Function.update s.continuation task (some f) r = some c at hcr
      by_cases hr : r = task
      · subst hr
        rw [Function.update_self, Option.some.injEq] at hcr
        subst hcr
        exact Or.inr (List.mem_cons_self ..)
      · rw [Function.update_of_ne hr] at hcr
        exact Or.inl ⟨hbr, hcr⟩
    · intro g hlt hg
      exact Or.inl ⟨hlt, (hpoint g).mp hg⟩
  | @call f child next hc hp =>
    have hlt : f < s.size := hI.lt_size (active_of_ready hp).ne_done
    have hbody : s.body s.size = none := by
      by_contra hb
      obtain ⟨B, hB⟩ := Option.ne_none_iff_exists'.mp hb
      exact Nat.lt_irrefl _ (hI.roots _ B hB).2
    have hne : ∀ {g}, g < s.size → g ≠ s.size := Nat.ne_of_lt
    have hlog : s.log ++ [.suspend s.size] ++ [.awaits f s.size, .suspend f, .resume s.size] =
        s.log ++ [.suspend s.size, .awaits f s.size, .suspend f, .resume s.size] :=
      List.append_assoc s.log [.suspend s.size] _
    refine h.extend hlog (Nat.le_succ _) (fun _ _ => rfl) ?_ ?_ ?_ ?_ ?_ ?_ ?_ trivial
    · intro g hg _
      exact Function.update_of_ne (hne hg) _ _
    · intro g hg hd
      have hgf : g ≠ f := by
        rintro rfl
        rw [hp] at hd
        cases hd
      refine ⟨?_, Function.update_of_ne (hne hg) _ _⟩
      rw [← hd]
      exact (Function.update_of_ne hgf _ _).trans (Function.update_of_ne (hne hg) _ _)
    · intro g d hg
      simp at hg
    · intro c g hg
      simp only [List.mem_cons, reduceCtorEq, TaskEvent.awaits.injEq, List.not_mem_nil, or_false,
        false_or] at hg
      obtain ⟨rfl, rfl⟩ := hg
      exact ⟨Nat.lt_succ_self _, hbody, Function.update_self ..⟩
    · intro g hle hg _
      have hgs : g = s.size := Nat.le_antisymm (Nat.lt_succ_iff.mp hg) hle
      rw [hgs]
      exact ⟨f, by simp⟩
    · intro r c hb hcr
      have hr : r ≠ s.size := by
        rintro rfl
        exact hb hbody
      exact Or.inl ⟨hb, (Function.update_of_ne hr _ _).symm.trans hcr⟩
    · intro g hg hd
      change Function.update (Function.update s.point s.size (.ready child)) f
        (.awaiting s.size next) g = .done at hd
      have hgf : g ≠ f := by
        rintro rfl
        rw [Function.update_self] at hd
        cases hd
      have hgs : g ≠ s.size := by
        rintro rfl
        rw [Function.update_of_ne hgf, Function.update_self] at hd
        cases hd
      rw [Function.update_of_ne hgf, Function.update_of_ne hgs] at hd
      exact Or.inl ⟨Nat.lt_of_le_of_ne (Nat.lt_succ_iff.mp hg) hgs, hd⟩
  | @finishRoot f res hc hend hb hcf =>
    obtain ⟨code, hp⟩ := hend.ready
    have hlt : f < s.size := hI.lt_size (active_of_ready hp).ne_done
    refine h.extend rfl (Nat.le_refl _) (fun _ _ => rfl) (fun _ _ _ => rfl) ?_ ?_ ?_ ?_ ?_ ?_ ?_
    · intro g _ hd
      refine ⟨?_, rfl⟩
      by_cases hg : g = f
      · rw [hg]
        exact Function.update_self ..
      · exact (Function.update_of_ne hg _ _).trans hd
    · intro g d hg
      rw [List.mem_singleton] at hg
      cases hg
      exact ⟨hlt, Function.update_self .., rfl⟩
    · intro c g hg
      simp at hg
    · intro g hle hglt
      exact absurd hglt (Nat.not_lt.mpr hle)
    · intro r c hbr hcr
      exact Or.inl ⟨hbr, hcr⟩
    · intro g hglt hd
      by_cases hg : g = f
      · rw [hg]
        exact Or.inr ⟨_, List.mem_cons_self ..⟩
      · exact Or.inl ⟨hglt, (Function.update_of_ne hg _ _).symm.trans hd⟩
    · rw [hcf]
      trivial
  | @finishJoin f res w next hc hend hb hcf hw =>
    obtain ⟨code, hp⟩ := hend.ready
    have hlt : f < s.size := hI.lt_size (active_of_ready hp).ne_done
    refine h.handOver hlt ?_ ?_ hcf (Or.inr rfl)
    · rintro rfl
      rw [hp] at hw
      cases hw
    · rw [hw]
      simp
  | @finishChild f v g next hc hp hb hcf hg =>
    have hlt : f < s.size := hI.lt_size (active_of_ready hp).ne_done
    refine h.handOver hlt ?_ ?_ hcf (Or.inl rfl)
    · rintro rfl
      rw [hp] at hg
      cases hg
    · rw [hg]
      simp

end Links

theorem links_initial : (initial : TaskMachine L V).Links where
  finished := fun _ _ h => absurd h List.not_mem_nil
  awaited := fun _ _ h => absurd h List.not_mem_nil
  child := fun _ h => absurd h (Nat.not_lt_zero _)
  joined := fun _ _ h => absurd rfl h
  ended := fun _ h => absurd h (Nat.not_lt_zero _)
  resumes := trivial

theorem transfer_body (s : TaskMachine L V) (f c : ℕ) (r : Result V) :
    (s.transfer f c r).body = s.body := by
  rw [transfer]
  split
  · split
    · split <;> rfl
    · rfl
  · split <;> rfl
  · rfl

theorem finish_body (s : TaskMachine L V) (f : ℕ) (r : Result V) :
    (s.finish f r).body = s.body := by
  rw [finish]
  split
  · rfl
  · exact transfer_body _ f _ r

theorem runBody_body {f : ℕ} {code : TaskBody L V} (h : s.runBody f code = some t) :
    t.body = s.body := by
  cases code with
  | ret v =>
    cases h
    exact finish_body s f (.ok v)
  | throw =>
    cases h
    exact finish_body s f (.error unhandled)
  | act | await | awaitEmpty | leaf =>
    cases h
    rfl
  | join task next =>
    rw [runBody] at h
    split at h
    · cases h
    · split at h <;> cases h <;> rfl

theorem step_body {op : TaskOp L V} (h : s.step op = some t) {r : ℕ} {B : TaskBody L V}
    (hB : t.body r = some B) : s.body r = some B ∨ op = .spawn B := by
  rw [step.eq_def] at h
  split at h
  · cases h
  cases op with
  | spawn body =>
    cases h
    change Function.update s.body s.size (some body) r = some B at hB
    by_cases hr : r = s.size
    · rw [hr, Function.update_self, Option.some.injEq] at hB
      exact Or.inr (by rw [hB])
    · rw [Function.update_of_ne hr] at hB
      exact Or.inl hB
  | start root =>
    simp only at h
    split at h <;> cases h
    exact Or.inl hB
  | resume f v =>
    simp only at h
    split at h <;> cases h
    exact Or.inl hB
  | run =>
    simp only at h
    split at h
    · cases h
    split at h
    · rw [runBody_body h] at hB
      exact Or.inl hB
    · cases h

theorem Inv.not_unwraps (hI : s.Inv) (hplain : ∀ r B, s.body r = some B → B.Plain) {f : ℕ}
    (hc : s.current = some f) : ¬ s.Unwraps f := by
  obtain ⟨code, hp⟩ := hI.running f hc
  obtain ⟨B, parents, hB, hlive⟩ := hI.live (active_of_ready hp)
  have hcode := (hlive.agrees (hplain _ B hB)).plain
  rw [hp] at hcode
  intro hu
  rcases hu with ⟨next, hp'⟩ | ⟨hp', _⟩
  · rw [hp] at hp'
    cases hp'
    exact hcode
  · rw [hp] at hp'
    cases hp'
    exact hcode

theorem Inv.step {op : TaskOp L V} (hI : s.Inv) (h : s.step op = some t)
    (hop : op = .run → ∀ f, s.current = some f → ¬ s.Unwraps f) :
    t.fault = none ∧ t.Inv ∧ (s.Links → t.Links) := by
  rcases step_effect hI h with ⟨hfault, heff⟩ | ⟨_, _, hrun, f, hc, hu⟩
  · exact ⟨hfault, hI.effect heff, fun hL => hL.effect hI heff⟩
  · exact absurd hu (hop hrun f hc)

theorem inv_of_plain {ops : List (TaskOp L V)} (hplain : ∀ B, .spawn B ∈ ops → B.Plain)
    (hr : Transition.run step initial ops = some s) :
    s.fault = none ∧ s.Inv ∧ s.Links ∧ ∀ r B, s.body r = some B → B.Plain := by
  refine Transition.invariant_of_guarded
    (fun _ op => ∀ B, op = TaskOp.spawn B → B.Plain)
    (fun u => u.fault = none ∧ u.Inv ∧ u.Links ∧ ∀ r B, u.body r = some B → B.Plain)
    ?_ ⟨rfl, inv_initial, links_initial, fun r B hB => by cases hB⟩ ?_ hr
  · intro u op v hop hstep hu
    obtain ⟨_, hI, hL, hpl⟩ := hu
    obtain ⟨hfault, hI', hL'⟩ := hI.step hstep fun _ f hc => hI.not_unwraps hpl hc
    refine ⟨hfault, hI', hL' hL, ?_⟩
    intro r B hB
    rcases step_body hstep hB with hB | hspawn
    · exact hpl r B hB
    · exact hop B hspawn
  · refine Transition.guarded_of_forall ?_
    intro op hop _ B hB
    exact hplain B (hB ▸ hop)

def AtLeaf (s : TaskMachine L V) (f : ℕ) : Prop :=
  (∃ next, s.point f = .leaf next) ∨ ∃ task next, s.point f = .joining task next

theorem AtLeaf.active {f : ℕ} (h : s.AtLeaf f) :
    (s.point f).Active ∧ (s.point f).code.eval [] = ([], .blocked) := by
  rcases h with ⟨next, hp⟩ | ⟨task, next, hp⟩
  · rw [hp]
    exact ⟨trivial, rfl⟩
  · rw [hp]
    exact ⟨trivial, rfl⟩

/-- Every run of plain tasks, under any order of resumptions, is an evaluation of their bodies as
nested calls on the values the suspensions were resumed with: the steps so far begin the steps
of the calls; a finished root holds the value of the calls; and a suspended leaf hangs on an
unbroken chain of awaiters, with the calls blocked there. Suspensions and resumptions of every
frame alternate, and the end of a frame resumes the frame that awaited it. -/
theorem task_trees_run_as_calls {ops : List (TaskOp L V)}
    (hplain : ∀ B, .spawn B ∈ ops → B.Plain)
    (hr : Transition.run step initial ops = some s) :
    s.fault = none ∧
    (∀ r B, s.body r = some B →
      s.steps r <+: (B.eval (s.inputs r)).1 ∧
      (s.point r = .done → ∃ v, s.result r = .ok v ∧
        B.eval (s.inputs r) = (s.steps r, .value v [])) ∧
      (∀ f, s.root f = r → s.AtLeaf f → ∃ parents, s.Chain r parents f ∧
        B.eval (s.inputs r) = (s.steps r, .blocked))) ∧
    (∀ f, Alternating (s.turns f) ∧ ((s.turns f).length % 2 = 1 ↔ s.Suspended f)) ∧
    (∀ f, f < s.size → s.point f = .done → ∃ d, .finish f d ∈ s.log ∧
      ((s.body f = none ∧ ∃ c, d = some c ∧ ∀ c', .awaits c' f ∈ s.log ↔ c' = c) ∨
        (s.body f ≠ none ∧ (d = none ∨ ∃ c, d = some c ∧ .joins c f ∈ s.log)))) ∧
    (∀ pre post f c, s.log = pre ++ .finish f (some c) :: post →
      post.head? = some (.resume c)) := by
  obtain ⟨hfault, hI, hL, hpl⟩ := inv_of_plain hplain hr
  refine ⟨hfault, ?_, hI.inTurn, ?_, ?_⟩
  · intro r B hB
    refine ⟨?_, ?_, ?_⟩
    · rcases hI.tree r B hB with ⟨f, parents, hlive⟩ | hended
      · exact (hlive.agrees (hpl r B hB)).starts
      · obtain ⟨v, _, hv⟩ := hended.value (hpl r B hB)
        have hval := hv []
        rw [List.append_nil] at hval
        rw [hval]
    · intro hd
      rcases hI.tree r B hB with ⟨f, parents, hlive⟩ | hended
      · -- a live chain reaches down to the root, which is not finished then
        exfalso
        cases parents with
        | nil =>
          obtain rfl : f = r := hlive.chain
          exact hlive.active.ne_done hd
        | cons p rest =>
          have hmem : r ∈ (p :: rest).map Prod.fst := hlive.chain.root_mem
          exact hlive.parent_ne_done hmem hd
      · obtain ⟨v, hres, hv⟩ := hended.value (hpl r B hB)
        have hval := hv []
        rw [List.append_nil] at hval
        exact ⟨v, hres, hval⟩
    · intro f hf hleaf
      obtain ⟨hact, hblocked⟩ := hleaf.active
      obtain ⟨parents, hlive⟩ := (hI.tree r B hB).live_of_active hf hact
      exact ⟨parents, hlive.chain, (hlive.agrees (hpl r B hB)).blocked hblocked⟩
  · intro f hlt hd
    obtain ⟨d, hmem⟩ := hL.ended f hlt hd
    obtain ⟨_, _, hcont⟩ := hL.finished f d hmem
    refine ⟨d, hmem, ?_⟩
    cases hb : s.body f with
    | none =>
      left
      obtain ⟨c, hc⟩ := hL.child f hlt hb
      have hcc : s.continuation f = some c := (hL.awaited c f hc).2.2
      refine ⟨rfl, c, hcont.symm.trans hcc, fun c' => ⟨?_, ?_⟩⟩
      · intro hc'
        have hcc' := (hL.awaited c' f hc').2.2
        rw [hcc, Option.some.injEq] at hcc'
        exact hcc'.symm
      · intro hc'
        rw [hc']
        exact hc
    | some B =>
      right
      refine ⟨Option.some_ne_none B, ?_⟩
      cases d with
      | none => exact Or.inl rfl
      | some c =>
        refine Or.inr ⟨c, rfl, hL.joined f c ?_ hcont⟩
        rw [hb]
        exact Option.some_ne_none B
  · intro pre post f c hlog
    have hres := hL.resumes
    rw [hlog] at hres
    exact hres.cut

def twoRoots : List (TaskOp ℕ ℕ) :=
  [.spawn (.await (.act 1 (.leaf fun v => .ret (v + 1))) fun v => .act 2 (.ret v)),
    .spawn (.join 0 fun _ => .ret 0), .start 0, .run, .run, .run, .start 1, .run,
    .resume 2 5, .run, .run, .run]

theorem task_trees_run_as_calls_on_two_roots :
    ∃ s, Transition.run step initial twoRoots = some s ∧ s.fault = none ∧
      s.steps 0 = [1, 2] ∧ s.result 0 = .ok 6 ∧
      ∃ B, s.body 0 = some B ∧ ∃ v, s.result 0 = .ok v ∧
        B.eval (s.inputs 0) = (s.steps 0, .value v []) := by
  have hplain : ∀ B, .spawn B ∈ twoRoots → B.Plain := by
    intro B hB
    simp only [twoRoots, List.mem_cons, TaskOp.spawn.injEq, reduceCtorEq, List.not_mem_nil,
      or_false] at hB
    rcases hB with rfl | rfl
    · exact ⟨fun _ => trivial, fun _ => trivial⟩
    · exact fun _ => trivial
  obtain ⟨s, B, hr, hsteps, hresult, hbody, hdone⟩ : ∃ s B,
      Transition.run step initial twoRoots = some s ∧ s.steps 0 = [1, 2] ∧ s.result 0 = .ok 6 ∧
      s.body 0 = some B ∧ s.point 0 = .done := ⟨_, _, rfl, rfl, rfl, rfl, rfl⟩
  obtain ⟨hfault, hbodies, -⟩ := task_trees_run_as_calls hplain hr
  exact ⟨s, hr, hfault, hsteps, hresult, B, hbody, (hbodies 0 B hbody).2.1 hdone⟩

/-! ## The unwrap -/

/-- As long as no empty task is awaited and no awaited task ends by an exception, no await unwraps
a missing value, and what a child returns is what its awaiter goes on with; for a task of results
this is the error too. -/
theorem await_unwraps_values {ops : List (TaskOp L V)}
    (hg : Transition.Guarded step
      (fun u op => op = .run → ∀ f, u.current = some f → ¬ u.Unwraps f) initial ops)
    (hr : Transition.run step initial ops = some s) :
    s.fault = none ∧
    ∀ f v, s.current = some f → s.point f = .ready (.ret v) → s.body f = none →
      ∃ g next t, s.continuation f = some g ∧ s.point g = .awaiting f next ∧
        s.step .run = some t ∧ t.fault = none ∧ t.current = some g ∧
        t.point g = .ready (next v) := by
  have hI : s.fault = none ∧ s.Inv := by
    refine Transition.invariant_of_guarded
      (fun u op => op = .run → ∀ f, u.current = some f → ¬ u.Unwraps f)
      (fun u => u.fault = none ∧ u.Inv) ?_ ⟨rfl, inv_initial⟩ hg hr
    intro u op v hop hstep hu
    obtain ⟨hfault, hI, _⟩ := hu.2.step hstep hop
    exact ⟨hfault, hI⟩
  obtain ⟨h0, hI⟩ := hI
  refine ⟨h0, ?_⟩
  intro f v hc hp hb
  obtain ⟨g, next, hcont, hg⟩ := hI.awaiter (active_of_ready hp) hb
  have hgf : g ≠ f := by
    intro hgf
    rw [hgf, hp] at hg
    cases hg
  have hg' : (s.ended f (.ok v)).point g = .awaiting f next := by
    rw [← hg]
    exact Function.update_of_ne hgf _ _
  have hstep : s.step .run = some (s.finish f (.ok v)) := by
    rw [step, h0, hc]
    simp only [hp]
    rfl
  have hfin : s.finish f (.ok v) =
      { ((s.ended f (.ok v)).setPoint g (.ready (next v))).record [.resume g] with
        current := some g } := by
    simp only [finish, hcont, transfer, hg', if_pos]
  refine ⟨g, next, _, hcont, hg, hstep, ?_, ?_, ?_⟩
  · rw [hfin]
    exact h0
  · rw [hfin]
  · rw [hfin]
    exact Function.update_self ..

def failingChild : List (TaskOp ℕ (Result ℕ)) :=
  [.spawn (.await (.ret (.error makeCancelledError)) fun r => .ret r), .start 0, .run]

theorem await_unwraps_values_on_failing_child :
    ∃ s, Transition.run step initial failingChild = some s ∧ s.fault = none ∧
      ∃ t, s.step .run = some t ∧ t.fault = none ∧
        t.point 0 = .ready (.ret (.error makeCancelledError)) := by
  have hg : Transition.Guarded step
      (fun u op => op = .run → ∀ f, u.current = some f → ¬ u.Unwraps f)
      (initial : TaskMachine ℕ (Result ℕ)) failingChild := by
    refine ⟨fun h => (by cases h), fun t ht => ?_⟩
    cases ht
    refine ⟨fun h => (by cases h), fun t ht => ?_⟩
    cases ht
    refine ⟨fun _ f hf hu => ?_, fun _ _ => trivial⟩
    cases hf
    rcases hu with ⟨next, hp⟩ | ⟨hp, _⟩
    · cases hp
    · cases hp
  refine ⟨_, rfl, (await_unwraps_values hg rfl).1, ?_⟩
  obtain ⟨g, next, t, hcont, hpoint, hstep, hfault, _, hnext⟩ :=
    (await_unwraps_values hg rfl).2 1 _ rfl rfl rfl
  cases hcont
  cases hpoint
  exact ⟨t, hstep, hfault, hnext⟩

/-- An awaited task of results that ends by an exception, and an await of an empty task. -/
theorem await_unwraps_missing_value :
    (∃ s : TaskMachine ℕ (Result ℕ), Transition.run step initial
        [.spawn (.await .throw fun r => .ret r), .start 0, .run, .run] = some s ∧
      s.fault = some .badUnwrap) ∧
    ∃ s : TaskMachine ℕ (Result ℕ), Transition.run step initial
        [.spawn (.awaitEmpty fun r => .ret r), .start 0, .run] = some s ∧
      s.fault = some .noPromise :=
  ⟨⟨_, rfl, rfl⟩, ⟨_, rfl, rfl⟩⟩

end TaskMachine
end RainRuntime
