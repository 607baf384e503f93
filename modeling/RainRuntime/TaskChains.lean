import RainRuntime.TaskMachine

/-!
# The chain from a suspended frame to its root

All frames of one root that are not finished form a chain: every frame but the one on top
awaits the next, whose `continuation_` points back to it. The chain is the call stack of
the root, and what the machine has still to do is the code on top under the stack of its
awaiters. A tree keeps this shape when the frame on top goes on or is suspended, when it
awaits a new child, and when it ends.
-/

namespace RainRuntime
open Coroutine (Input Agrees)

variable {L V : Type*}

namespace Point

def Active : Point L V → Prop
  | .ready _ | .leaf _ | .joining _ _ => True
  | .awaiting _ _ | .done => False

def code : Point L V → TaskBody L V
  | .ready code => code
  | .leaf next => .leaf next
  | .joining task next => .join task next
  | .awaiting _ _ | .done => .throw

theorem Active.ne_done {p : Point L V} (h : p.Active) : p ≠ .done := by
  intro hp
  rw [hp] at h
  exact h

theorem Active.ne_awaiting {p : Point L V} (h : p.Active) (child : ℕ)
    (next : V → TaskBody L V) : p ≠ .awaiting child next := by
  intro hp
  rw [hp] at h
  exact h

end Point

namespace TaskMachine

/-- The awaiters of `f`, innermost first, down to the root `r`. -/
def Chain (s : TaskMachine L V) (r : ℕ) : List (ℕ × (V → TaskBody L V)) → ℕ → Prop
  | [], f => f = r
  | (g, next) :: rest, f =>
    f ≠ r ∧ g < f ∧ s.continuation f = some g ∧ s.point g = .awaiting f next ∧ s.Chain r rest g

structure Live (s : TaskMachine L V) (r : ℕ) (B : TaskBody L V) (f : ℕ)
    (parents : List (ℕ × (V → TaskBody L V))) : Prop where
  chain : s.Chain r parents f
  active : (s.point f).Active
  only : ∀ g, s.root g = r → s.point g ≠ .done → g = f ∨ g ∈ parents.map Prod.fst
  root_top : s.root f = r
  root_parents : ∀ g ∈ parents.map Prod.fst, s.root g = r
  agrees : B.Plain → Agrees B (s.inputs r) (s.steps r) (parents.map Prod.snd) (s.point f).code

structure Ended (s : TaskMachine L V) (r : ℕ) (B : TaskBody L V) : Prop where
  done : ∀ g, s.root g = r → s.point g = .done
  value : B.Plain → ∃ v, s.result r = .ok v ∧
    ∀ later, B.eval (s.inputs r ++ later) = (s.steps r, .value v later)

def Tree (s : TaskMachine L V) (r : ℕ) (B : TaskBody L V) : Prop :=
  (∃ f parents, s.Live r B f parents) ∨ s.Ended r B

variable {s t : TaskMachine L V} {r f g : ℕ} {B : TaskBody L V}
  {parents : List (ℕ × (V → TaskBody L V))}

theorem Chain.mem (h : s.Chain r parents f) (hg : g ∈ parents.map Prod.fst) :
    g < f ∧ ∃ child next, s.point g = .awaiting child next ∧
      (child = f ∨ child ∈ parents.map Prod.fst) := by
  induction parents generalizing f with
  | nil => simp at hg
  | cons p rest ih =>
    obtain ⟨_, hlt, _, hpoint, hrest⟩ := h
    rcases List.mem_cons.mp hg with rfl | hg
    · exact ⟨hlt, f, p.2, hpoint, Or.inl rfl⟩
    · obtain ⟨hlt', child, next, hp, hc⟩ := ih hrest hg
      refine ⟨Nat.lt_trans hlt' hlt, child, next, hp, Or.inr ?_⟩
      rcases hc with rfl | hc
      · exact List.mem_cons_self ..
      · exact List.mem_cons_of_mem _ hc

theorem Chain.root_mem {p : ℕ × (V → TaskBody L V)} (h : s.Chain r (p :: parents) f) :
    r ∈ (p :: parents).map Prod.fst := by
  induction parents generalizing p f with
  | nil =>
    obtain ⟨_, _, _, _, hrest⟩ := h
    exact List.mem_cons.mpr (Or.inl (Eq.symm hrest))
  | cons q rest ih =>
    obtain ⟨_, _, _, _, hrest⟩ := h
    exact List.mem_cons_of_mem _ (ih hrest)

theorem Chain.congr (h : s.Chain r parents f)
    (hpoint : ∀ g ∈ parents.map Prod.fst, t.point g = s.point g)
    (hcont : ∀ g, g = f ∨ g ∈ parents.map Prod.fst → g ≠ r →
      t.continuation g = s.continuation g) : t.Chain r parents f := by
  induction parents generalizing f with
  | nil => exact h
  | cons p rest ih =>
    obtain ⟨hne, hlt, hc, hp, hrest⟩ := h
    refine ⟨hne, hlt, ?_, ?_, ih hrest ?_ ?_⟩
    · rw [hcont f (Or.inl rfl) hne, hc]
    · rw [hpoint p.1 (List.mem_cons_self ..), hp]
    · intro g hg
      exact hpoint g (List.mem_cons_of_mem _ hg)
    · intro g hg hr
      refine hcont g (Or.inr ?_) hr
      rcases hg with rfl | hg
      · exact List.mem_cons_self ..
      · exact List.mem_cons_of_mem _ hg

namespace Live

theorem parent_ne (h : s.Live r B f parents) {g : ℕ} (hg : g ∈ parents.map Prod.fst) : g ≠ f :=
  Nat.ne_of_lt (h.chain.mem hg).1

theorem parent_ne_done (h : s.Live r B f parents) {g : ℕ} (hg : g ∈ parents.map Prod.fst) :
    s.point g ≠ .done := by
  obtain ⟨_, child, next, hp, _⟩ := h.chain.mem hg
  rw [hp]
  intro hd
  cases hd

theorem eq_top (h : s.Live r B f parents) (hroot : s.root g = r) (hg : (s.point g).Active) :
    g = f := by
  rcases h.only g hroot hg.ne_done with rfl | hmem
  · rfl
  · obtain ⟨_, child, next, hp, _⟩ := h.chain.mem hmem
    exact absurd hp (hg.ne_awaiting child next)

end Live

theorem Tree.live_of_active (h : s.Tree r B) (hroot : s.root f = r) (hf : (s.point f).Active) :
    ∃ parents, s.Live r B f parents := by
  rcases h with ⟨f', parents, hlive⟩ | hended
  · rw [hlive.eq_top hroot hf]
    exact ⟨parents, hlive⟩
  · exact absurd (hended.done f hroot) hf.ne_done

theorem Tree.frame (h : s.Tree r B)
    (hroot : ∀ g, t.root g = r → s.root g = r ∧ t.point g = s.point g)
    (hkeep : ∀ g, s.root g = r → s.point g ≠ .done →
      t.root g = r ∧ (g ≠ r → t.continuation g = s.continuation g))
    (hinputs : t.inputs r = s.inputs r) (hsteps : t.steps r = s.steps r)
    (hresult : t.result r = s.result r) : t.Tree r B := by
  rcases h with ⟨f, parents, hlive⟩ | hended
  · left
    have htop := hkeep f hlive.root_top hlive.active.ne_done
    have hpar : ∀ g ∈ parents.map Prod.fst,
        t.root g = r ∧ (g ≠ r → t.continuation g = s.continuation g) := by
      intro g hg
      exact hkeep g (hlive.root_parents g hg) (hlive.parent_ne_done hg)
    have hpoint : t.point f = s.point f := (hroot f htop.1).2
    refine ⟨f, parents, hlive.chain.congr ?_ ?_, ?_, ?_, htop.1, ?_, ?_⟩
    · intro g hg
      exact (hroot g (hpar g hg).1).2
    · intro g hg hr
      rcases hg with rfl | hg
      · exact htop.2 hr
      · exact (hpar g hg).2 hr
    · rw [hpoint]
      exact hlive.active
    · intro g hg hd
      obtain ⟨hgs, hgp⟩ := hroot g hg
      rw [hgp] at hd
      exact hlive.only g hgs hd
    · intro g hg
      exact (hpar g hg).1
    · rw [hinputs, hsteps, hpoint]
      exact hlive.agrees
  · right
    refine ⟨?_, ?_⟩
    · intro g hg
      obtain ⟨hgs, hgp⟩ := hroot g hg
      rw [hgp]
      exact hended.done g hgs
    · rw [hinputs, hsteps, hresult]
      exact hended.value

theorem Tree.advance {p : Point L V} (hf : (s.point f).Active) (hp : p.Active)
    (hpoint : t.point = Function.update s.point f p) (hroot : t.root = s.root)
    (hcont : ∀ g, s.root g ≠ g → t.continuation g = s.continuation g)
    (hresult : t.result = s.result)
    (hagrees : ∀ B ks, Agrees B (s.inputs (s.root f)) (s.steps (s.root f)) ks (s.point f).code →
      Agrees B (t.inputs (s.root f)) (t.steps (s.root f)) ks p.code)
    (hother : ∀ r, r ≠ s.root f → t.inputs r = s.inputs r ∧ t.steps r = s.steps r)
    (h : s.Tree r B) : t.Tree r B := by
  by_cases hr : r = s.root f
  · subst hr
    obtain ⟨parents, hlive⟩ := h.live_of_active rfl hf
    have htop : t.point f = p := by rw [hpoint, Function.update_self]
    have hrest : ∀ g, g ≠ f → t.point g = s.point g := by
      intro g hg
      rw [hpoint, Function.update_of_ne hg]
    left
    refine ⟨f, parents, hlive.chain.congr ?_ ?_, ?_, ?_, ?_, ?_, ?_⟩
    · intro g hg
      exact hrest g (hlive.parent_ne hg)
    · intro g hg hr
      refine hcont g ?_
      rcases hg with rfl | hg
      · exact fun h => hr h.symm
      · rw [hlive.root_parents g hg]
        exact fun h => hr h.symm
    · rw [htop]
      exact hp
    · intro g hg hd
      by_cases hgf : g = f
      · exact Or.inl hgf
      · rw [hrest g hgf] at hd
        rw [hroot] at hg
        exact hlive.only g hg hd
    · rw [hroot]
    · rw [hroot]
      exact hlive.root_parents
    · intro hB
      rw [htop]
      exact hagrees B _ (hlive.agrees hB)
  · refine h.frame ?_ ?_ (hother r hr).1 (hother r hr).2 (by rw [hresult])
    · intro g hg
      rw [hroot] at hg
      have hgf : g ≠ f := by
        rintro rfl
        exact hr hg.symm
      rw [hpoint, Function.update_of_ne hgf]
      exact ⟨hg, rfl⟩
    · intro g hg _
      rw [hroot]
      refine ⟨hg, fun hne => hcont g ?_⟩
      rw [hg]
      exact fun h => hne h.symm

theorem Tree.call {child : TaskBody L V} {next : V → TaskBody L V}
    (hf : s.point f = .ready (.await child next)) (hlt : f < s.size)
    (hfree : s.point s.size = .done)
    (hpoint : t.point = Function.update (Function.update s.point s.size (.ready child)) f
      (.awaiting s.size next))
    (hroot : t.root = Function.update s.root s.size (s.root f))
    (hcont : t.continuation = Function.update s.continuation s.size (some f))
    (hresult : ∀ g, g ≠ s.size → t.result g = s.result g)
    (hlog : ∀ r, t.inputs r = s.inputs r ∧ t.steps r = s.steps r)
    (hr : r < s.size) (h : s.Tree r B) : t.Tree r B := by
  have hne : s.size ≠ f := Nat.ne_of_gt hlt
  have hkeep : ∀ g, g ≠ s.size → t.root g = s.root g ∧ t.continuation g = s.continuation g := by
    intro g hg
    rw [hroot, hcont, Function.update_of_ne hg, Function.update_of_ne hg]
    exact ⟨rfl, rfl⟩
  have hrest : ∀ g, g ≠ s.size → g ≠ f → t.point g = s.point g := by
    intro g hg hgf
    rw [hpoint, Function.update_of_ne hgf, Function.update_of_ne hg]
  have hused : ∀ g, s.point g ≠ .done → g ≠ s.size := by
    rintro g hg rfl
    exact hg hfree
  by_cases hrf : r = s.root f
  · subst hrf
    obtain ⟨parents, hlive⟩ := h.live_of_active rfl (by rw [hf]; trivial)
    have htop : t.point s.size = .ready child := by
      rw [hpoint, Function.update_of_ne hne, Function.update_self]
    have hparents : ∀ g ∈ parents.map Prod.fst, g ≠ s.size := by
      intro g hg
      exact hused g (hlive.parent_ne_done hg)
    left
    refine ⟨s.size, (f, next) :: parents, ⟨Nat.ne_of_gt hr, hlt, ?_, ?_, ?_⟩, ?_, ?_, ?_, ?_, ?_⟩
    · rw [hcont, Function.update_self]
    · rw [hpoint, Function.update_self]
    · refine hlive.chain.congr ?_ ?_
      · intro g hg
        exact hrest g (hparents g hg) (hlive.parent_ne hg)
      · intro g hg _
        refine (hkeep g ?_).2
        rcases hg with rfl | hg
        · exact fun h => hne h.symm
        · exact hparents g hg
    · rw [htop]
      trivial
    · intro g hg hd
      by_cases hgs : g = s.size
      · exact Or.inl hgs
      · right
        rw [(hkeep g hgs).1] at hg
        by_cases hgf : g = f
        · exact List.mem_cons.mpr (Or.inl hgf)
        · rw [hrest g hgs hgf] at hd
          exact List.mem_cons.mpr (hlive.only g hg hd)
    · rw [hroot, Function.update_self]
    · intro g hg
      rcases List.mem_cons.mp hg with rfl | hg
      · exact (hkeep g (fun h => hne h.symm)).1
      · rw [(hkeep g (hparents g hg)).1]
        exact hlive.root_parents g hg
    · intro hB
      have hag := hlive.agrees hB
      rw [hf] at hag
      rw [htop, (hlog _).1, (hlog _).2]
      exact hag.await
  · refine h.frame ?_ ?_ (hlog r).1 (hlog r).2 (hresult r (Nat.ne_of_lt hr))
    · intro g hg
      have hgs : g ≠ s.size := by
        rintro rfl
        rw [hroot, Function.update_self] at hg
        exact hrf hg.symm
      rw [(hkeep g hgs).1] at hg
      refine ⟨hg, hrest g hgs ?_⟩
      rintro rfl
      exact hrf hg.symm
    · intro g hg hd
      have hgs := hkeep g (hused g hd)
      rw [hgs.1]
      exact ⟨hg, fun _ => hgs.2⟩

theorem Tree.return {v : V} {next : V → TaskBody L V}
    (hf : s.point f = .ready (.ret v)) (hchild : s.root f ≠ f)
    (hcf : s.continuation f = some g) (hg : s.point g = .awaiting f next)
    (hpoint : t.point = Function.update (Function.update s.point f .done) g (.ready (next v)))
    (hroot : t.root = s.root) (hcont : t.continuation = s.continuation)
    (hresult : ∀ h, h ≠ f → t.result h = s.result h)
    (hlog : ∀ r, t.inputs r = s.inputs r ∧ t.steps r = s.steps r)
    (hr : s.root r = r) (h : s.Tree r B) : t.Tree r B := by
  have hrest : ∀ h, h ≠ f → h ≠ g → t.point h = s.point h := by
    intro h hhf hhg
    rw [hpoint, Function.update_of_ne hhg, Function.update_of_ne hhf]
  have hrf' : r ≠ f := by
    rintro rfl
    exact hchild hr
  by_cases hrf : r = s.root f
  · subst hrf
    obtain ⟨parents, hlive⟩ := h.live_of_active rfl (by rw [hf]; trivial)
    cases parents with
    | nil => exact absurd hlive.chain.symm hchild
    | cons p rest =>
      obtain ⟨hfr, hlt, hc, hp, hchain⟩ := hlive.chain
      obtain rfl : g = p.1 := by
        rw [hcf, Option.some.injEq] at hc
        exact hc
      obtain rfl : next = p.2 := by
        rw [hg] at hp
        injection hp
      have htop : t.point p.1 = .ready (p.2 v) := by rw [hpoint, Function.update_self]
      left
      refine ⟨p.1, rest, hchain.congr ?_ ?_, ?_, ?_, ?_, ?_, ?_⟩
      · intro h hh
        exact hrest h (hlive.parent_ne (List.mem_cons_of_mem _ hh))
          (Nat.ne_of_lt (hchain.mem hh).1)
      · intro h _ _
        rw [hcont]
      · rw [htop]
        trivial
      · intro h hh hd
        by_cases hhg : h = p.1
        · exact Or.inl hhg
        · have hhf : h ≠ f := by
            rintro rfl
            rw [hpoint, Function.update_of_ne hhg, Function.update_self] at hd
            exact hd rfl
          rw [hrest h hhf hhg] at hd
          rw [hroot] at hh
          exact List.mem_cons.mp ((hlive.only h hh hd).resolve_left hhf)
      · rw [hroot]
        exact hlive.root_parents p.1 (List.mem_cons_self ..)
      · intro h hh
        rw [hroot]
        exact hlive.root_parents h (List.mem_cons_of_mem _ hh)
      · intro hB
        have hag := hlive.agrees hB
        rw [hf] at hag
        rw [htop, (hlog _).1, (hlog _).2]
        exact hag.ret
  · have hrg : s.root g ≠ r := by
      -- the awaiter of `f` belongs to a live chain, and then so does `f`
      intro hgr
      rcases h with ⟨f', parents, hlive⟩ | hended
      · have hgd : s.point g ≠ .done := by
          rw [hg]
          intro hd
          cases hd
        rcases hlive.only g hgr hgd with rfl | hmem
        · have hact := hlive.active
          rw [hg] at hact
          exact hact
        · obtain ⟨_, child, next', hp, hc⟩ := hlive.chain.mem hmem
          rw [hg] at hp
          injection hp with hcf' _
          subst hcf'
          rcases hc with rfl | hc
          · exact hrf hlive.root_top.symm
          · exact hrf (hlive.root_parents f hc).symm
      · have hd := hended.done g hgr
        rw [hg] at hd
        cases hd
    refine h.frame ?_ ?_ (hlog r).1 (hlog r).2 (hresult r hrf')
    · intro h hh
      rw [hroot] at hh
      refine ⟨hh, hrest h ?_ ?_⟩
      · rintro rfl
        exact hrf hh.symm
      · rintro rfl
        exact hrg hh
    · intro h hh _
      rw [hroot, hcont]
      exact ⟨hh, fun _ => rfl⟩

theorem Tree.finishRoot {res : Result V} (hf : (s.point f).Active) (hroot_f : s.root f = f)
    (hpoint : t.point = Function.update s.point f .done) (hroot : t.root = s.root)
    (hcont : t.continuation = s.continuation) (hresult : t.result = Function.update s.result f res)
    (hlog : ∀ r, t.inputs r = s.inputs r ∧ t.steps r = s.steps r)
    (hvalue : (s.point f).code.Plain → ∃ v, (s.point f).code = .ret v ∧ res = .ok v)
    (h : s.Tree r B) : t.Tree r B := by
  by_cases hrf : r = f
  · subst hrf
    obtain ⟨parents, hlive⟩ := h.live_of_active hroot_f hf
    cases parents with
    | cons p rest => exact absurd rfl hlive.chain.1
    | nil =>
      right
      refine ⟨?_, ?_⟩
      · intro g hg
        by_cases hgr : g = r
        · rw [hpoint, hgr, Function.update_self]
        · rw [hpoint, Function.update_of_ne hgr]
          rw [hroot] at hg
          by_contra hd
          exact (hlive.only g hg hd).elim hgr List.not_mem_nil
      · intro hB
        have hag := hlive.agrees hB
        obtain ⟨v, hcode, rfl⟩ := hvalue hag.plain
        rw [hcode] at hag
        refine ⟨v, by rw [hresult, Function.update_self], fun later => ?_⟩
        rw [(hlog r).1, (hlog r).2]
        exact hag.value later
  · refine h.frame ?_ ?_ (hlog r).1 (hlog r).2 (by rw [hresult, Function.update_of_ne hrf])
    · intro g hg
      rw [hroot] at hg
      have hgf : g ≠ f := by
        rintro rfl
        exact hrf (hg.symm.trans hroot_f)
      rw [hpoint, Function.update_of_ne hgf]
      exact ⟨hg, rfl⟩
    · intro g hg _
      rw [hroot, hcont]
      exact ⟨hg, fun _ => rfl⟩

theorem Tree.spawned (hpoint : t.point = Function.update s.point s.size (.ready B))
    (hroot : t.root = Function.update s.root s.size s.size)
    (hfree : ∀ g, s.point g ≠ .done → s.root g ≠ s.size)
    (hinputs : t.inputs s.size = []) (hsteps : t.steps s.size = []) : t.Tree s.size B := by
  have htop : t.point s.size = .ready B := by rw [hpoint, Function.update_self]
  left
  refine ⟨s.size, [], rfl, ?_, ?_, ?_, ?_, ?_⟩
  · rw [htop]
    trivial
  · intro g hg hd
    by_contra hgs
    have hgs' : g ≠ s.size := fun h => hgs (Or.inl h)
    rw [hroot, Function.update_of_ne hgs'] at hg
    rw [hpoint, Function.update_of_ne hgs'] at hd
    exact hfree g hd hg
  · rw [hroot, Function.update_self]
  · intro g hg
    exact absurd hg List.not_mem_nil
  · intro hB
    rw [htop, hinputs, hsteps]
    exact Agrees.initial hB

theorem Tree.spawn (hpoint : t.point = Function.update s.point s.size (.ready B))
    (hroot : t.root = Function.update s.root s.size s.size)
    (hfree : s.point s.size = .done)
    (hcont : ∀ g, g ≠ s.size → t.continuation g = s.continuation g)
    (hresult : ∀ g, g ≠ s.size → t.result g = s.result g)
    (hlog : ∀ r, t.inputs r = s.inputs r ∧ t.steps r = s.steps r)
    (hr : r < s.size) {B' : TaskBody L V} (h : s.Tree r B') : t.Tree r B' := by
  refine h.frame ?_ ?_ (hlog r).1 (hlog r).2 (hresult r (Nat.ne_of_lt hr))
  · intro g hg
    have hgs : g ≠ s.size := by
      rintro rfl
      rw [hroot, Function.update_self] at hg
      exact Nat.ne_of_gt hr hg
    rw [hroot, Function.update_of_ne hgs] at hg
    rw [hpoint, Function.update_of_ne hgs]
    exact ⟨hg, rfl⟩
  · intro g hg hd
    have hgs : g ≠ s.size := by
      rintro rfl
      exact hd hfree
    rw [hroot, Function.update_of_ne hgs]
    exact ⟨hg, fun _ => hcont g hgs⟩

end TaskMachine
end RainRuntime
