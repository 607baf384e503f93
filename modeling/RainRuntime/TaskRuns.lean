import RainRuntime.TaskSteps

/-!
# The invariant of the task machine

Each effect of a step keeps the invariant. The trees have their lemmas already; what is
left is that numbers not in use stay quiet, that a root's waiter is the one frame that
waits for it, and that suspensions and resumptions alternate.
-/

namespace RainRuntime
open Coroutine (Input Agrees)

variable {L V : Type*}

namespace TaskMachine

variable {s t : TaskMachine L V} {f g r : ℕ} {es : List (TaskEvent L V)}

def Below (n : ℕ) (e : TaskEvent L V) : Prop :=
  ∀ f, n ≤ f → turnOf f e = none ∧ inputOf f e = none ∧ stepOf f e = none

theorem quiet_of_below {n : ℕ} (h : ∀ e ∈ es, Below n e) (hf : n ≤ f) :
    es.filterMap (turnOf f) = [] ∧ es.filterMap (inputOf f) = [] ∧
      es.filterMap (stepOf f) = [] := by
  refine ⟨?_, ?_, ?_⟩
  · exact List.filterMap_eq_nil_iff.mpr fun e he => (h e he f hf).1
  · exact List.filterMap_eq_nil_iff.mpr fun e he => (h e he f hf).2.1
  · exact List.filterMap_eq_nil_iff.mpr fun e he => (h e he f hf).2.2

theorem below_suspend {n : ℕ} (h : f < n) : Below n (.suspend f : TaskEvent L V) := by
  intro g hg
  exact ⟨if_neg (by omega), rfl, rfl⟩

theorem below_resume {n : ℕ} (h : f < n) : Below n (.resume f : TaskEvent L V) := by
  intro g hg
  exact ⟨if_neg (by omega), rfl, rfl⟩

theorem below_joins (n f g : ℕ) : Below n (.joins f g : TaskEvent L V) :=
  fun _ _ => ⟨rfl, rfl, rfl⟩

theorem below_finish (n f : ℕ) (d : Option ℕ) : Below n (.finish f d : TaskEvent L V) :=
  fun _ _ => ⟨rfl, rfl, rfl⟩

theorem below_step {n : ℕ} (h : r < n) (l : L) : Below n (.step r l : TaskEvent L V) := by
  intro g hg
  exact ⟨rfl, rfl, if_neg (by omega)⟩

theorem below_leaf {n : ℕ} (h : r < n) (v : V) : Below n (.leaf r v : TaskEvent L V) := by
  intro g hg
  exact ⟨rfl, if_neg (by omega), rfl⟩

theorem below_joined {n : ℕ} (h : r < n) (task : ℕ) (res : Result V) :
    Below n (.joined r task res : TaskEvent L V) := by
  intro g hg
  exact ⟨rfl, if_neg (by omega), rfl⟩

theorem Move.below {p : Point L V} {c : Option ℕ} (h : s.Move f p es c) (hlt : f < s.size)
    (hroot : s.root f < s.size) : ∀ e ∈ es, Below s.size e := by
  cases h with
  | start | sleep =>
    intro e he
    rw [List.mem_singleton.mp he]
    first | exact below_resume hlt | exact below_suspend hlt
  | act =>
    intro e he
    rw [List.mem_singleton.mp he]
    exact below_step hroot _
  | joined =>
    intro e he
    rw [List.mem_singleton.mp he]
    exact below_joined hroot _ _
  | wake =>
    intro e he
    rcases List.mem_pair.mp he with rfl | rfl
    · exact below_resume hlt
    · exact below_leaf hroot _

namespace Inv

theorem fresh_of_log (hI : s.Inv) (hsize : t.size = s.size) (hlog : t.log = s.log ++ es)
    (hpoint : ∀ f, s.size ≤ f → t.point f = s.point f) (hes : ∀ e ∈ es, Below s.size e) :
    ∀ f, t.size ≤ f → t.point f = .done ∧ t.turns f = [] ∧ t.inputs f = [] ∧ t.steps f = [] := by
  intro f hf
  rw [hsize] at hf
  obtain ⟨hp, ht, hi, hs⟩ := hI.fresh f hf
  obtain ⟨et, ei, es'⟩ := quiet_of_below hes hf
  rw [hpoint f hf, turns_of_log hlog, inputs_of_log hlog, steps_of_log hlog, ht, hi, hs,
    et, ei, es']
  exact ⟨hp, rfl, rfl, rfl⟩

theorem waiter_of_iff (hI : s.Inv) (hbody : t.body = s.body)
    (hcont : ∀ r, s.body r ≠ none → t.continuation r = s.continuation r)
    (hjoin : ∀ w r next, t.point w = .joining r next ↔ s.point w = .joining r next)
    (hdone : ∀ r w, s.body r ≠ none → s.continuation r = some w →
      (t.point r = .done ↔ s.point r = .done)) :
    ∀ r w, t.body r ≠ none → t.continuation r = some w →
      (t.point r ≠ .done → ∃ next, t.point w = .joining r next) ∧
      (t.point r = .done → ∀ next, t.point w ≠ .joining r next) := by
  intro r w hb hc
  rw [hbody] at hb
  rw [hcont r hb] at hc
  obtain ⟨hlive, hended⟩ := hI.waiter r w hb hc
  simp only [ne_eq, hjoin, hdone r w hb hc]
  exact ⟨hlive, hended⟩

theorem not_suspended (hc : s.current = some f) : ¬ s.Suspended f := fun h => h.2.2 hc

theorem spawn (hI : s.Inv) (B : TaskBody L V) :
    Inv { s.allocate B none s.size with body := Function.update s.body s.size (some B) } := by
  obtain ⟨hnew, hturns, hinputs, hsteps⟩ := hI.fresh s.size (Nat.le_refl _)
  generalize ht : { s.allocate B none s.size with
    body := Function.update s.body s.size (some B) } = t
  have hsize : t.size = s.size + 1 := (congrArg size ht).symm
  have hlog : t.log = s.log ++ [.suspend s.size] := (congrArg log ht).symm
  have hpoint : t.point = Function.update s.point s.size (.ready B) := (congrArg point ht).symm
  have hroot : t.root = Function.update s.root s.size s.size := (congrArg root ht).symm
  have hcont : t.continuation = Function.update s.continuation s.size none :=
    (congrArg continuation ht).symm
  have hresult : t.result = Function.update s.result s.size (.error makeCancelledError) :=
    (congrArg result ht).symm
  have hbody : t.body = Function.update s.body s.size (some B) := (congrArg body ht).symm
  have hcur : t.current = s.current := (congrArg current ht).symm
  have hins : ∀ r, t.inputs r = s.inputs r ∧ t.steps r = s.steps r := by
    intro r
    rw [inputs_of_log hlog, steps_of_log hlog]
    exact ⟨List.append_nil _, List.append_nil _⟩
  have hold : ∀ {g}, g ≠ s.size → t.point g = s.point g ∧ t.root g = s.root g ∧
      t.continuation g = s.continuation g ∧ t.body g = s.body g := by
    intro g hg
    rw [hpoint, hroot, hcont, hbody]
    simp only [Function.update_of_ne hg, and_self]
  have hturn : ∀ g, t.turns g = s.turns g ++ if s.size = g then [false] else [] := by
    intro g
    rw [turns_of_log hlog]
    by_cases hg : s.size = g <;> simp [turnOf, hg]
  refine ⟨?_, ?_, ?_, ?_, ?_, ?_, ?_⟩
  · intro r B' hB'
    by_cases hr : r = s.size
    · rw [hr, hroot, hsize, Function.update_self]
      exact ⟨rfl, Nat.lt_succ_self _⟩
    · rw [(hold hr).2.2.2] at hB'
      obtain ⟨hroot', hlt⟩ := hI.roots r B' hB'
      rw [(hold hr).2.1, hsize]
      exact ⟨hroot', Nat.lt_succ_of_lt hlt⟩
  · intro f hf
    by_cases hfs : f = s.size
    · rw [hfs, hroot, Function.update_self, hbody, Function.update_self]
      exact ⟨B, rfl⟩
    · have hlt : f < s.size := by omega
      obtain ⟨B', hB'⟩ := hI.rooted f hlt
      rw [(hold hfs).2.1, (hold (Nat.ne_of_lt (hI.root_lt hlt))).2.2.2]
      exact ⟨B', hB'⟩
  · intro f hf
    have hfs : f ≠ s.size := by omega
    obtain ⟨hp, ht', hi, hs⟩ := hI.fresh f (by omega)
    rw [(hold hfs).1, hturn, (hins f).1, (hins f).2, if_neg (Ne.symm hfs), List.append_nil]
    exact ⟨hp, ht', hi, hs⟩
  · intro f hf
    rw [hcur] at hf
    obtain ⟨code, hp⟩ := hI.running f hf
    have hfs : f ≠ s.size := by
      rintro rfl
      rw [hnew] at hp
      cases hp
    exact ⟨code, (hold hfs).1.trans hp⟩
  · intro r B' hB'
    by_cases hr : r = s.size
    · subst hr
      rw [hbody, Function.update_self, Option.some.injEq] at hB'
      subst hB'
      refine Tree.spawned hpoint hroot ?_ ((hins _).1.trans hinputs) ((hins _).2.trans hsteps)
      intro g hg
      exact Nat.ne_of_lt (hI.root_lt (hI.lt_size hg))
    · rw [(hold hr).2.2.2] at hB'
      refine (hI.tree r B' hB').spawn hpoint hroot hnew ?_ ?_ hins (hI.roots r B' hB').2
      · intro g hg
        exact (hold hg).2.2.1
      · intro g hg
        rw [hresult, Function.update_of_ne hg]
  · intro r w hb hc
    have hr : r ≠ s.size := by
      rintro rfl
      rw [hcont, Function.update_self] at hc
      cases hc
    rw [(hold hr).2.2.2] at hb
    rw [(hold hr).2.2.1] at hc
    rw [(hold hr).1]
    obtain ⟨hlive, hended⟩ := hI.waiter r w hb hc
    refine ⟨?_, ?_⟩
    · intro hd
      obtain ⟨next, hw⟩ := hlive hd
      have hws : w ≠ s.size := by
        rintro rfl
        rw [hnew] at hw
        cases hw
      exact ⟨next, (hold hws).1.trans hw⟩
    · intro hd next hw
      by_cases hws : w = s.size
      · rw [hws, hpoint, Function.update_self] at hw
        cases hw
      · exact hended hd next ((hold hws).1 ▸ hw)
  · intro g
    by_cases hg : g = s.size
    · subst hg
      refine (hI.inTurn _).suspend ?_ (fun h => Nat.lt_irrefl _ h.1) ⟨?_, ?_, ?_⟩
      · rw [hturn, if_pos rfl]
      · omega
      · rw [hpoint, Function.update_self]
        intro hd
        cases hd
      · rw [hcur]
        intro hc
        obtain ⟨code, hp⟩ := hI.running _ hc
        rw [hnew] at hp
        cases hp
    · refine (hI.inTurn g).keep ?_ ?_
      · rw [hturn, if_neg (Ne.symm hg), List.append_nil]
      · rw [Suspended, Suspended, (hold hg).1, hcur, hsize]
        have hlt : g < s.size + 1 ↔ g < s.size := by omega
        rw [hlt]

theorem move {p : Point L V} {c : Option ℕ} (hI : s.Inv) (h : s.Move f p es c) :
    Inv { (s.setPoint f p).record es with current := c } := by
  obtain ⟨hact, hpact⟩ := h.active
  have hlt : f < s.size := hI.lt_size hact.ne_done
  generalize ht : { (s.setPoint f p).record es with current := c } = t
  have hsize : t.size = s.size := (congrArg size ht).symm
  have hlog : t.log = s.log ++ es := (congrArg log ht).symm
  have hpoint : t.point = Function.update s.point f p := (congrArg point ht).symm
  have hroot : t.root = s.root := (congrArg root ht).symm
  have hcont : t.continuation = s.continuation := (congrArg continuation ht).symm
  have hresult : t.result = s.result := (congrArg result ht).symm
  have hbody : t.body = s.body := (congrArg body ht).symm
  have hcur : t.current = c := (congrArg current ht).symm
  have hself : t.point f = p := by rw [hpoint, Function.update_self]
  have hold : ∀ {g}, g ≠ f → t.point g = s.point g := by
    intro g hg
    rw [hpoint, Function.update_of_ne hg]
  have hjoin : ∀ r next, s.point f ≠ .joining r next ∧ p ≠ .joining r next := by
    intro r next
    cases h with
    | start hp _ | act hp _ | joined hp _ | sleep hp _ | wake hp _ =>
      rw [hp]
      simp
  refine ⟨?_, ?_, ?_, ?_, ?_, ?_, ?_⟩
  · rw [hbody, hroot, hsize]
    exact hI.roots
  · rw [hbody, hroot, hsize]
    exact hI.rooted
  · refine hI.fresh_of_log hsize hlog ?_ (h.below hlt (hI.root_lt hlt))
    intro g hg
    exact hold (by omega)
  · intro g hg
    rw [hcur] at hg
    obtain ⟨rfl, code, hp⟩ := h.ready_of_current hg
    exact ⟨code, hself.trans hp⟩
  · intro r B hB
    rw [hbody] at hB
    refine Tree.advance hact hpact hpoint hroot (fun g _ => by rw [hcont]) hresult ?_ ?_
      (hI.tree r B hB)
    · intro B ks ha
      rw [inputs_of_log hlog, steps_of_log hlog]
      exact h.agrees ha
    · intro r hr
      obtain ⟨hi, hs⟩ := h.other hr
      rw [inputs_of_log hlog, steps_of_log hlog, hi, hs, List.append_nil, List.append_nil]
      exact ⟨rfl, rfl⟩
  · refine hI.waiter_of_iff hbody (fun r _ => by rw [hcont]) ?_ ?_
    · intro w r next
      by_cases hw : w = f
      · subst hw
        rw [hself]
        exact iff_of_false (hjoin r next).2 (hjoin r next).1
      · rw [hold hw]
    · intro r w _ _
      by_cases hr : r = f
      · subst hr
        rw [hself]
        exact iff_of_false hpact.ne_done hact.ne_done
      · rw [hold hr]
  · intro g
    by_cases hg : g = f
    · subst hg
      have hturn := turns_of_log hlog g
      have hsus : s.current = none → s.Suspended g := by
        intro hc
        refine ⟨hlt, hact.ne_done, ?_⟩
        rw [hc]
        exact (Option.some_ne_none g).symm
      have hIg := hI.inTurn g
      cases h with
      | start _ hc =>
        refine hIg.resume ?_ (hsus hc) (not_suspended hcur)
        rw [hturn]
        simp [turnOf]
      | act _ hc | joined _ hc =>
        refine hIg.keep ?_ (iff_of_false (not_suspended hcur) (not_suspended hc))
        rw [hturn]
        simp [turnOf, List.filterMap_cons]
      | sleep _ hc =>
        refine hIg.suspend ?_ (not_suspended hc) ⟨hsize ▸ hlt, ?_, ?_⟩
        · rw [hturn]
          simp [turnOf]
        · rw [hself]
          exact hpact.ne_done
        · rw [hcur]
          exact (Option.some_ne_none g).symm
      | wake _ hc =>
        refine hIg.resume ?_ (hsus hc) (not_suspended hcur)
        rw [hturn]
        simp [turnOf, List.filterMap_cons]
    · obtain ⟨hc, hcs⟩ := h.current_other hg
      refine (hI.inTurn g).keep ?_ ?_
      · rw [turns_of_log hlog, h.turns_other hg, List.append_nil]
      · rw [Suspended, Suspended, hold hg, hsize, hcur]
        simp only [hc, hcs, ne_eq, not_false_eq_true]

theorem join {task : ℕ} {next : Result V → TaskBody L V} (hI : s.Inv)
    (hc : s.current = some f) (hp : s.point f = .ready (.join task next))
    (hb : s.body task ≠ none) (hd : s.point task ≠ .done) :
    Inv { (s.setPoint f (.joining task next)).record [.joins f task, .suspend f] with
      continuation := Function.update s.continuation task (some f)
      current := none } := by
  have hact : (s.point f).Active := active_of_ready hp
  have hlt : f < s.size := hI.lt_size hact.ne_done
  generalize ht : { (s.setPoint f (.joining task next)).record [.joins f task, .suspend f] with
      continuation := Function.update s.continuation task (some f)
      current := none } = t
  have hsize : t.size = s.size := (congrArg size ht).symm
  have hlog : t.log = s.log ++ [.joins f task, .suspend f] := (congrArg log ht).symm
  have hpoint : t.point = Function.update s.point f (.joining task next) :=
    (congrArg point ht).symm
  have hroot : t.root = s.root := (congrArg root ht).symm
  have hcont : t.continuation = Function.update s.continuation task (some f) :=
    (congrArg continuation ht).symm
  have hresult : t.result = s.result := (congrArg result ht).symm
  have hbody : t.body = s.body := (congrArg body ht).symm
  have hcur : t.current = none := (congrArg current ht).symm
  have hself : t.point f = .joining task next := by rw [hpoint, Function.update_self]
  have hold : ∀ {g}, g ≠ f → t.point g = s.point g := by
    intro g hg
    rw [hpoint, Function.update_of_ne hg]
  have hins : ∀ r, t.inputs r = s.inputs r ∧ t.steps r = s.steps r := by
    intro r
    rw [inputs_of_log hlog, steps_of_log hlog]
    exact ⟨List.append_nil _, List.append_nil _⟩
  have hdone : ∀ r, t.point r = .done ↔ s.point r = .done := by
    intro r
    by_cases hr : r = f
    · subst hr
      rw [hself, hp]
      simp
    · rw [hold hr]
  refine ⟨?_, ?_, ?_, ?_, ?_, ?_, ?_⟩
  · rw [hbody, hroot, hsize]
    exact hI.roots
  · rw [hbody, hroot, hsize]
    exact hI.rooted
  · refine hI.fresh_of_log hsize hlog ?_ ?_
    · intro g hg
      exact hold (by omega)
    · intro e he
      rcases List.mem_pair.mp he with rfl | rfl
      · exact below_joins _ f task
      · exact below_suspend hlt
  · intro g hg
    rw [hcur] at hg
    cases hg
  · intro r B hB
    rw [hbody] at hB
    refine Tree.advance hact (by trivial) hpoint hroot ?_ hresult ?_ (fun r _ => hins r)
      (hI.tree r B hB)
    · -- only the link of a root changes
      intro g hg
      rw [hcont, Function.update_of_ne]
      rintro rfl
      exact hg (hI.root_self hb)
    · intro B ks ha
      rw [(hins _).1, (hins _).2]
      rw [hp] at ha
      exact ha
  · intro r w hbr hcw
    rw [hbody] at hbr
    rw [ne_eq, hdone]
    by_cases hr : r = task
    · subst hr
      rw [hcont, Function.update_self, Option.some.injEq] at hcw
      subst hcw
      exact ⟨fun _ => ⟨next, hself⟩, fun hd' => absurd hd' hd⟩
    · rw [hcont, Function.update_of_ne hr] at hcw
      obtain ⟨hlive, hended⟩ := hI.waiter r w hbr hcw
      refine ⟨?_, ?_⟩
      · intro hnd
        obtain ⟨next', hw⟩ := hlive hnd
        have hwf : w ≠ f := by
          rintro rfl
          rw [hp] at hw
          cases hw
        exact ⟨next', (hold hwf).trans hw⟩
      · intro hd' next' hw
        by_cases hwf : w = f
        · rw [hwf, hself] at hw
          injection hw with htask
          exact hr htask.symm
        · exact hended hd' next' ((hold hwf).symm.trans hw)
  · intro g
    by_cases hg : g = f
    · subst hg
      refine (hI.inTurn g).suspend ?_ (not_suspended hc) ⟨hsize ▸ hlt, ?_, ?_⟩
      · rw [turns_of_log hlog]
        simp [turnOf, List.filterMap_cons]
      · rw [hself]
        simp
      · rw [hcur]
        simp
    · refine (hI.inTurn g).keep ?_ ?_
      · rw [turns_of_log hlog]
        simp [turnOf, List.filterMap_cons, Ne.symm hg]
      · rw [Suspended, Suspended, hold hg, hsize, hcur, hc]
        simp [Ne.symm hg]

theorem call {child : TaskBody L V} {next : V → TaskBody L V} (hI : s.Inv)
    (hc : s.current = some f) (hp : s.point f = .ready (.await child next)) :
    Inv { ((s.allocate child (some f) (s.root f)).setPoint f
        (.awaiting s.size next)).record [.awaits f s.size, .suspend f, .resume s.size] with
      current := some s.size } := by
  have hact : (s.point f).Active := active_of_ready hp
  have hlt : f < s.size := hI.lt_size hact.ne_done
  have hne : s.size ≠ f := Nat.ne_of_gt hlt
  obtain ⟨hnew, hturns, hinputs, hsteps⟩ := hI.fresh s.size (Nat.le_refl _)
  generalize ht : { ((s.allocate child (some f) (s.root f)).setPoint f
        (.awaiting s.size next)).record [.awaits f s.size, .suspend f, .resume s.size] with
      current := some s.size } = t
  have hsize : t.size = s.size + 1 := (congrArg size ht).symm
  have hlog : t.log = s.log ++
      [.suspend s.size, .awaits f s.size, .suspend f, .resume s.size] := by
    rw [← ht]
    exact List.append_assoc s.log [.suspend s.size] _
  have hpoint : t.point = Function.update (Function.update s.point s.size (.ready child)) f
      (.awaiting s.size next) := (congrArg point ht).symm
  have hroot : t.root = Function.update s.root s.size (s.root f) := (congrArg root ht).symm
  have hcont : t.continuation = Function.update s.continuation s.size (some f) :=
    (congrArg continuation ht).symm
  have hresult : t.result = Function.update s.result s.size (.error makeCancelledError) :=
    (congrArg result ht).symm
  have hbody : t.body = s.body := (congrArg body ht).symm
  have hcur : t.current = some s.size := (congrArg current ht).symm
  have htop : t.point s.size = .ready child := by
    rw [hpoint, Function.update_of_ne hne, Function.update_self]
  have hself : t.point f = .awaiting s.size next := by rw [hpoint, Function.update_self]
  have hold : ∀ {g}, g ≠ s.size → g ≠ f → t.point g = s.point g := by
    intro g hgs hgf
    rw [hpoint, Function.update_of_ne hgf, Function.update_of_ne hgs]
  have hins : ∀ r, t.inputs r = s.inputs r ∧ t.steps r = s.steps r := by
    intro r
    rw [inputs_of_log hlog, steps_of_log hlog]
    exact ⟨List.append_nil _, List.append_nil _⟩
  refine ⟨?_, ?_, ?_, ?_, ?_, ?_, ?_⟩
  · intro r B hB
    rw [hbody] at hB
    obtain ⟨hr, hrlt⟩ := hI.roots r B hB
    rw [hroot, Function.update_of_ne (Nat.ne_of_lt hrlt), hsize]
    exact ⟨hr, Nat.lt_succ_of_lt hrlt⟩
  · intro g hg
    rw [hbody, hroot]
    by_cases hgs : g = s.size
    · rw [hgs, Function.update_self]
      exact hI.rooted f hlt
    · rw [Function.update_of_ne hgs]
      exact hI.rooted g (by omega)
  · intro g hg
    obtain ⟨hgp, hgt, hgi, hgst⟩ := hI.fresh g (by omega)
    have hgs : s.size ≠ g := by omega
    have hgf : f ≠ g := by omega
    rw [hold hgs.symm hgf.symm, (hins g).1, (hins g).2, turns_of_log hlog, hgt]
    refine ⟨hgp, ?_, hgi, hgst⟩
    simp [turnOf, List.filterMap_cons, hgs, hgf]
  · intro g hg
    rw [hcur, Option.some.injEq] at hg
    subst hg
    exact ⟨child, htop⟩
  · intro r B hB
    rw [hbody] at hB
    refine (hI.tree r B hB).call hp hlt hnew hpoint hroot hcont ?_ hins (hI.roots r B hB).2
    intro g hg
    rw [hresult, Function.update_of_ne hg]
  · have hroot_ne : ∀ {r}, s.body r ≠ none → r ≠ s.size := by
      rintro r hb rfl
      obtain ⟨B, hB⟩ := Option.ne_none_iff_exists'.mp hb
      exact Nat.lt_irrefl _ (hI.roots _ B hB).2
    refine hI.waiter_of_iff hbody ?_ ?_ ?_
    · intro r hb
      rw [hcont, Function.update_of_ne (hroot_ne hb)]
    · intro w r next'
      by_cases hws : w = s.size
      · rw [hws, htop, hnew]
        simp
      · by_cases hwf : w = f
        · rw [hwf, hself, hp]
          simp
        · rw [hold hws hwf]
    · intro r w hb _
      by_cases hrf : r = f
      · rw [hrf, hself, hp]
        simp
      · rw [hold (hroot_ne hb) hrf]
  · intro g
    by_cases hgs : g = s.size
    · subst hgs
      -- the child starts suspended and is resumed at once
      have hturn : t.turns s.size = [false, true] := by
        rw [turns_of_log hlog, hturns]
        simp [turnOf, List.filterMap_cons, hne.symm]
      rw [InTurn, hturn]
      refine ⟨?_, iff_of_false (by decide) (not_suspended hcur)⟩
      have hfirst : Alternating ([] ++ [false]) := alternating_nil.concat rfl
      exact hfirst.concat rfl
    · by_cases hgf : g = f
      · subst hgf
        refine (hI.inTurn g).suspend ?_ (not_suspended hc) ⟨by omega, ?_, ?_⟩
        · rw [turns_of_log hlog]
          simp [turnOf, List.filterMap_cons, hne]
        · rw [hself]
          simp
        · rw [hcur]
          simpa using hne
      · refine (hI.inTurn g).keep ?_ ?_
        · rw [turns_of_log hlog]
          simp [turnOf, List.filterMap_cons, Ne.symm hgs, Ne.symm hgf]
        · rw [Suspended, Suspended, hold hgs hgf, hsize, hcur, hc]
          have hlt' : g < s.size + 1 ↔ g < s.size := by omega
          simp [Ne.symm hgs, Ne.symm hgf, hlt']

theorem ended_log (s : TaskMachine L V) (f : ℕ) (res : Result V) (r : ℕ) :
    (s.ended f res).inputs r = s.inputs r ∧ (s.ended f res).steps r = s.steps r ∧
      (s.ended f res).turns r = s.turns r := by
  have hlog : (s.ended f res).log = s.log ++ [.finish f (s.continuation f)] := rfl
  rw [inputs_of_log hlog, steps_of_log hlog, turns_of_log hlog]
  exact ⟨List.append_nil _, List.append_nil _, List.append_nil _⟩

theorem tree_ended {res : Result V} (hI : s.Inv) (hend : Ends (s.point f) res)
    (hb : s.body f ≠ none) {B : TaskBody L V} (h : s.Tree r B) :
    (s.ended f res).Tree r B := by
  obtain ⟨code, hp⟩ := hend.ready
  refine Tree.finishRoot (active_of_ready hp) (hI.root_self hb) rfl rfl rfl rfl ?_ ?_ h
  · intro r
    obtain ⟨hi, hs, _⟩ := ended_log s f res r
    exact ⟨hi, hs⟩
  · intro hplain
    generalize s.point f = p at hend hplain
    cases hend with
    | ret v => exact ⟨v, rfl, rfl⟩
    | throw => exact hplain.elim

theorem finishRoot {res : Result V} (hI : s.Inv) (hc : s.current = some f)
    (hend : Ends (s.point f) res) (hb : s.body f ≠ none) (hcf : s.continuation f = none) :
    Inv (s.ended f res) := by
  obtain ⟨code, hp⟩ := hend.ready
  have hlt : f < s.size := hI.lt_size (active_of_ready hp).ne_done
  have hold : ∀ {g}, g ≠ f → (s.ended f res).point g = s.point g :=
    fun hg => Function.update_of_ne hg _ _
  have hself : (s.ended f res).point f = .done := Function.update_self ..
  refine ⟨hI.roots, hI.rooted, ?_, ?_, ?_, ?_, ?_⟩
  · refine hI.fresh_of_log rfl rfl ?_ ?_
    · intro g hg
      exact hold (by omega)
    · intro e he
      rw [List.mem_singleton.mp he]
      exact below_finish _ f _
  · intro g hg
    cases hg
  · intro r B hB
    exact hI.tree_ended hend hb (hI.tree r B hB)
  · refine hI.waiter_of_iff rfl (fun _ _ => rfl) ?_ ?_
    · intro w r next
      by_cases hw : w = f
      · rw [hw, hself, hp]
        simp
      · rw [hold hw]
    · intro r w _ hcw
      have hr : r ≠ f := by
        rintro rfl
        rw [hcf] at hcw
        cases hcw
      rw [hold hr]
  · intro g
    refine (hI.inTurn g).keep (ended_log s f res g).2.2 ?_
    by_cases hg : g = f
    · subst hg
      exact iff_of_false (fun h => h.2.1 hself) (not_suspended hc)
    · have hcur : s.current ≠ some g := by
        rw [hc]
        simpa using Ne.symm hg
      have hcur' : (s.ended f res).current ≠ some g := (Option.some_ne_none g).symm
      rw [Suspended, Suspended, hold hg]
      exact and_congr_right fun _ => and_congr_right fun _ => iff_of_true hcur' hcur

theorem handOver {res : Result V} {w : ℕ} {code : TaskBody L V} (hI : s.Inv)
    (hc : s.current = some f) (hend : Ends (s.point f) res) (hw : s.point w ≠ .done)
    (hwf : w ≠ f) (hbelow : ∀ e ∈ es, Below s.size e)
    (hturn : es.filterMap (turnOf w) = [true])
    (hquiet : ∀ g, g ≠ w → es.filterMap (turnOf g) = [])
    (ht : { ((s.ended f res).setPoint w (.ready code)).record es with current := some w } = t)
    (htree : ∀ r B, s.body r = some B → t.Tree r B)
    (hwaiter : ∀ r w, t.body r ≠ none → t.continuation r = some w →
      (t.point r ≠ .done → ∃ next, t.point w = .joining r next) ∧
      (t.point r = .done → ∀ next, t.point w ≠ .joining r next)) : t.Inv := by
  obtain ⟨fcode, hp⟩ := hend.ready
  have hlt : f < s.size := hI.lt_size (active_of_ready hp).ne_done
  have hwlt : w < s.size := hI.lt_size hw
  have hsize : t.size = s.size := (congrArg size ht).symm
  have hlog : t.log = s.log ++ ([.finish f (s.continuation f)] ++ es) := by
    rw [← ht]
    exact List.append_assoc s.log _ es
  have hpoint : t.point = Function.update (Function.update s.point f .done) w (.ready code) :=
    (congrArg point ht).symm
  have hroot : t.root = s.root := (congrArg root ht).symm
  have hbody : t.body = s.body := (congrArg body ht).symm
  have hcur : t.current = some w := (congrArg current ht).symm
  have hold : ∀ {g}, g ≠ f → g ≠ w → t.point g = s.point g := by
    intro g hgf hgw
    rw [hpoint, Function.update_of_ne hgw, Function.update_of_ne hgf]
  have hturns : ∀ g, t.turns g = s.turns g ++ es.filterMap (turnOf g) := by
    intro g
    rw [turns_of_log hlog]
    rfl
  refine ⟨?_, ?_, ?_, ?_, ?_, hwaiter, ?_⟩
  · rw [hbody, hroot, hsize]
    exact hI.roots
  · rw [hbody, hroot, hsize]
    exact hI.rooted
  · refine hI.fresh_of_log hsize hlog ?_ ?_
    · intro g hg
      exact hold (by omega) (by omega)
    · intro e he
      rcases List.mem_cons.mp he with rfl | he
      · exact below_finish _ f _
      · exact hbelow e he
  · intro g hg
    rw [hcur, Option.some.injEq] at hg
    subst hg
    exact ⟨code, by rw [hpoint, Function.update_self]⟩
  · rw [hbody]
    exact htree
  · intro g
    by_cases hgw : g = w
    · subst hgw
      refine (hI.inTurn g).resume ?_ ⟨hwlt, hw, ?_⟩ (not_suspended hcur)
      · rw [hturns, hturn]
      · rw [hc]
        simpa using Ne.symm hwf
    · refine (hI.inTurn g).keep ?_ ?_
      · rw [hturns, hquiet g hgw, List.append_nil]
      · by_cases hgf : g = f
        · subst hgf
          refine iff_of_false (fun h => h.2.1 ?_) (not_suspended hc)
          rw [hpoint, Function.update_of_ne hgw, Function.update_self]
        · rw [Suspended, Suspended, hold hgf hgw, hsize, hcur, hc]
          simp [Ne.symm hgf, Ne.symm hgw]

theorem finishJoin {res : Result V} {w : ℕ} {next : Result V → TaskBody L V} (hI : s.Inv)
    (hc : s.current = some f) (hend : Ends (s.point f) res) (hb : s.body f ≠ none)
    (hcf : s.continuation f = some w) (hw : s.point w = .joining f next) :
    Inv { ((s.ended f res).setPoint w (.ready (next res))).record
        [.resume w, .joined (s.root w) f res] with
      current := some w } := by
  obtain ⟨code, hp⟩ := hend.ready
  have hwf : w ≠ f := by
    rintro rfl
    rw [hp] at hw
    cases hw
  have hw' : (s.ended f res).point w = .joining f next := by
    rw [← hw]
    exact Function.update_of_ne hwf _ _
  have hwd : s.point w ≠ .done := by
    rw [hw]
    simp
  have hwlt : w < s.size := hI.lt_size hwd
  generalize ht : { ((s.ended f res).setPoint w (.ready (next res))).record
        [.resume w, .joined (s.root w) f res] with
      current := some w } = t
  have hlog : t.log = (s.ended f res).log ++ [.resume w, .joined (s.root w) f res] :=
    (congrArg log ht).symm
  have hpoint : t.point = Function.update (s.ended f res).point w (.ready (next res)) :=
    (congrArg point ht).symm
  have hroot : t.root = s.root := (congrArg root ht).symm
  have hcont : t.continuation = s.continuation := (congrArg continuation ht).symm
  have hbody : t.body = s.body := (congrArg body ht).symm
  have hself : t.point f = .done := by
    rw [hpoint, Function.update_of_ne (Ne.symm hwf)]
    exact Function.update_self ..
  have hnext : t.point w = .ready (next res) := by rw [hpoint, Function.update_self]
  have hold : ∀ {g}, g ≠ f → g ≠ w → t.point g = s.point g := by
    intro g hgf hgw
    rw [hpoint, Function.update_of_ne hgw]
    exact Function.update_of_ne hgf _ _
  refine hI.handOver hc hend hwd hwf ?_ ?_ ?_ ht ?_ ?_
  · intro e he
    rcases List.mem_pair.mp he with rfl | rfl
    · exact below_resume hwlt
    · exact below_joined (hI.root_lt hwlt) f res
  · simp [turnOf, List.filterMap_cons]
  · intro g hg
    simp [turnOf, List.filterMap_cons, Ne.symm hg]
  · intro r B hB
    have hended : (s.ended f res).Tree r B := hI.tree_ended hend hb (hI.tree r B hB)
    refine Tree.advance (f := w) (p := .ready (next res)) ?_ (by trivial) hpoint hroot
      (fun g _ => by rw [hcont]; rfl) (congrArg result ht).symm ?_ ?_ hended
    · rw [hw']
      trivial
    · intro B ks ha
      rw [hw'] at ha
      rw [inputs_of_log hlog, steps_of_log hlog]
      have hroot_w : (s.ended f res).root w = s.root w := rfl
      simpa [inputOf, stepOf, List.filterMap_cons, Point.code, hroot_w] using ha.join res
    · intro r hr
      have hr' : s.root w ≠ r := fun h => hr h.symm
      rw [inputs_of_log hlog, steps_of_log hlog]
      simp [inputOf, stepOf, List.filterMap_cons, hr']
  · intro r w' hbr hcw
    rw [hbody] at hbr
    rw [hcont] at hcw
    by_cases hrf : r = f
    · subst hrf
      rw [hcf, Option.some.injEq] at hcw
      subst hcw
      refine ⟨fun hd => absurd hself hd, fun _ next' h => ?_⟩
      rw [hnext] at h
      cases h
    · obtain ⟨hlive, hended⟩ := hI.waiter r w' hbr hcw
      have hdone : t.point r = .done ↔ s.point r = .done := by
        by_cases hrw : r = w
        · rw [hrw, hnext, hw]
          simp
        · rw [hold hrf hrw]
      rw [ne_eq, hdone]
      refine ⟨?_, ?_⟩
      · intro hd
        obtain ⟨next', hw''⟩ := hlive hd
        refine ⟨next', (hold ?_ ?_).trans hw''⟩
        · rintro rfl
          rw [hp] at hw''
          cases hw''
        · rintro rfl
          rw [hw] at hw''
          injection hw'' with hfr
          exact hrf hfr.symm
      · intro hd next' h
        by_cases hw'w : w' = w
        · rw [hw'w, hnext] at h
          cases h
        · by_cases hw'f : w' = f
          · rw [hw'f, hself] at h
            cases h
          · exact hended hd next' ((hold hw'f hw'w).symm.trans h)

theorem finishChild {v : V} {next : V → TaskBody L V} (hI : s.Inv)
    (hc : s.current = some f) (hp : s.point f = .ready (.ret v)) (hb : s.body f = none)
    (hcf : s.continuation f = some g) (hg : s.point g = .awaiting f next) :
    Inv { ((s.ended f (.ok v)).setPoint g (.ready (next v))).record [.resume g] with
      current := some g } := by
  have hlt : f < s.size := hI.lt_size (active_of_ready hp).ne_done
  have hgf : g ≠ f := by
    rintro rfl
    rw [hp] at hg
    cases hg
  have hgd : s.point g ≠ .done := by
    rw [hg]
    simp
  generalize ht : { ((s.ended f (.ok v)).setPoint g (.ready (next v))).record [.resume g] with
      current := some g } = t
  have hlog : t.log = (s.ended f (.ok v)).log ++ [.resume g] := (congrArg log ht).symm
  have hpoint : t.point = Function.update (Function.update s.point f .done) g (.ready (next v)) :=
    (congrArg point ht).symm
  have hcont : t.continuation = s.continuation := (congrArg continuation ht).symm
  have hresult : t.result = Function.update s.result f (.ok v) := (congrArg result ht).symm
  have hbody : t.body = s.body := (congrArg body ht).symm
  have hself : t.point f = .done := by
    rw [hpoint, Function.update_of_ne (Ne.symm hgf), Function.update_self]
  have hnext : t.point g = .ready (next v) := by rw [hpoint, Function.update_self]
  have hold : ∀ {h}, h ≠ f → h ≠ g → t.point h = s.point h := by
    intro h hhf hhg
    rw [hpoint, Function.update_of_ne hhg, Function.update_of_ne hhf]
  refine hI.handOver hc (hp ▸ Ends.ret v) hgd hgf ?_ ?_ ?_ ht ?_ ?_
  · intro e he
    rw [List.mem_singleton.mp he]
    exact below_resume (hI.lt_size hgd)
  · simp [turnOf]
  · intro h hh
    simp [turnOf, Ne.symm hh]
  · intro r B hB
    refine (hI.tree r B hB).return hp (hI.root_ne hlt hb) hcf hg hpoint (congrArg root ht).symm
      hcont ?_ ?_ (hI.roots r B hB).1
    · intro h hh
      rw [hresult, Function.update_of_ne hh]
    · intro r
      obtain ⟨hi, hs, _⟩ := ended_log s f (.ok v) r
      rw [inputs_of_log hlog, steps_of_log hlog, hi, hs]
      exact ⟨List.append_nil _, List.append_nil _⟩
  · refine hI.waiter_of_iff hbody (fun r _ => by rw [hcont]) ?_ ?_
    · intro w r next'
      by_cases hwg : w = g
      · rw [hwg, hnext, hg]
        simp
      · by_cases hwf : w = f
        · rw [hwf, hself, hp]
          simp
        · rw [hold hwf hwg]
    · intro r w hbr _
      have hrf : r ≠ f := by
        rintro rfl
        exact hbr hb
      by_cases hrg : r = g
      · rw [hrg, hnext, hg]
        simp
      · rw [hold hrf hrg]

theorem effect (hI : s.Inv) (h : s.Effect t) : t.Inv := by
  cases h with
  | spawn B => exact hI.spawn B
  | move h => exact hI.move h
  | join hc hp hb hd => exact hI.join hc hp hb hd
  | call hc hp => exact hI.call hc hp
  | finishRoot hc hend hb hcont => exact hI.finishRoot hc hend hb hcont
  | finishJoin hc hend hb hcont hw => exact hI.finishJoin hc hend hb hcont hw
  | finishChild hc hp hb hcont hg => exact hI.finishChild hc hp hb hcont hg

end Inv

theorem inv_initial : (initial : TaskMachine L V).Inv where
  roots := fun _ _ h => by cases h
  rooted := fun _ h => absurd h (Nat.not_lt_zero _)
  fresh := fun _ _ => ⟨rfl, rfl, rfl, rfl⟩
  running := fun _ h => by cases h
  tree := fun _ _ h => by cases h
  waiter := fun _ _ h => absurd rfl h
  inTurn := fun _ => ⟨alternating_nil, iff_of_false Nat.zero_ne_one fun h => Nat.not_lt_zero _ h.1⟩

end TaskMachine
end RainRuntime
