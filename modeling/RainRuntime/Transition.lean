import Mathlib.Data.List.Basic
import Mathlib.Data.List.Nodup
import Mathlib.Data.Option.Basic

/-!
# Runs of a partial step function

A system is a step function that may refuse a label. A run is a list of labels,
so that every interleaving of the parties is some run. The rules below are the
induction over runs, packaged once: the plain invariant rule, the rule for facts
that hold as long as a resource bound does, and the rule for runs whose every
step meets a guard. Runs may also put out data, from a queue in the order of entry, and a
falling measure bounds how often a kind of step is taken.
-/

namespace Transition
variable {σ ε τ δ : Type*}

def run (step : σ → ε → Option σ) : σ → List ε → Option σ
  | s, [] => some s
  | s, e :: es => (step s e).bind fun t => run step t es

@[simp] theorem run_nil (step : σ → ε → Option σ) (s : σ) : run step s [] = some s := rfl

theorem run_cons_eq_some {step : σ → ε → Option σ} {s u : σ} {e : ε} {es : List ε} :
    run step s (e :: es) = some u ↔ ∃ t, step s e = some t ∧ run step t es = some u := by
  simp only [run, Option.bind_eq_some_iff]

theorem run_append_eq_some {step : σ → ε → Option σ} {s u : σ} {es fs : List ε} :
    run step s (es ++ fs) = some u ↔
      ∃ t, run step s es = some t ∧ run step t fs = some u := by
  induction es generalizing s with
  | nil => simp
  | cons e es ih =>
    simp only [List.cons_append, run_cons_eq_some, ih]
    constructor
    · rintro ⟨t, he, r, hes, hfs⟩
      exact ⟨r, ⟨t, he, hes⟩, hfs⟩
    · rintro ⟨r, ⟨t, he, hes⟩, hfs⟩
      exact ⟨t, he, r, hes, hfs⟩

theorem run_concat_eq_some {step : σ → ε → Option σ} {s u : σ} {es : List ε} {e : ε} :
    run step s (es ++ [e]) = some u ↔ ∃ t, run step s es = some t ∧ step t e = some u := by
  simp only [run_append_eq_some, run_cons_eq_some, run_nil, Option.some.injEq,
    exists_eq_right]

theorem invariant {step : σ → ε → Option σ} (I : σ → Prop)
    (pres : ∀ {t : σ} {e : ε} {u : σ}, step t e = some u → I t → I u)
    {s t : σ} {es : List ε} (hs : I s) (hr : run step s es = some t) : I t := by
  induction es generalizing s with
  | nil =>
    rw [run_nil, Option.some.injEq] at hr
    exact hr ▸ hs
  | cons e es ih =>
    obtain ⟨u, he, hes⟩ := run_cons_eq_some.mp hr
    exact ih (pres he hs) hes

/-- Facts that hold while a bound does. The bound is read off the last state, and
`back` carries it to the earlier ones. -/
theorem invariant_while {step : σ → ε → Option σ} (B I : σ → Prop)
    (back : ∀ {t : σ} {e : ε} {u : σ}, step t e = some u → B u → B t)
    (pres : ∀ {t : σ} {e : ε} {u : σ}, step t e = some u → B t → B u → I t → I u)
    {s t : σ} {es : List ε} (hs : B s → I s) (hr : run step s es = some t) (hb : B t) : I t := by
  have hI : B t → I t := by
    refine invariant (I := fun u => B u → I u) ?_ hs hr
    intro u e v he hu hv
    exact pres he (back he hv) hv (hu (back he hv))
  exact hI hb

/-- Every step of the run is taken from a state that meets the guard for its label. -/
def Guarded (step : σ → ε → Option σ) (G : σ → ε → Prop) : σ → List ε → Prop
  | _, [] => True
  | s, e :: es => G s e ∧ ∀ t, step s e = some t → Guarded step G t es

theorem guarded_of_forall {step : σ → ε → Option σ} {G : σ → ε → Prop} {s : σ} {es : List ε}
    (h : ∀ e ∈ es, ∀ t, G t e) : Guarded step G s es := by
  induction es generalizing s with
  | nil => trivial
  | cons e es ih =>
    exact ⟨h e (List.mem_cons_self ..) s,
      fun t _ => ih fun e' he' => h e' (List.mem_cons_of_mem e he')⟩

theorem Guarded.and {step : σ → ε → Option σ} {G H : σ → ε → Prop} {s : σ} {es : List ε}
    (hg : Guarded step G s es) (hh : Guarded step H s es) :
    Guarded step (fun t e => G t e ∧ H t e) s es := by
  induction es generalizing s with
  | nil => trivial
  | cons e es ih => exact ⟨⟨hg.1, hh.1⟩, fun t ht => ih (hg.2 t ht) (hh.2 t ht)⟩

theorem invariant_of_guarded {step : σ → ε → Option σ} (G : σ → ε → Prop) (I : σ → Prop)
    (pres : ∀ {t : σ} {e : ε} {u : σ}, G t e → step t e = some u → I t → I u)
    {s t : σ} {es : List ε} (hs : I s) (hg : Guarded step G s es)
    (hr : run step s es = some t) : I t := by
  induction es generalizing s with
  | nil =>
    rw [run_nil, Option.some.injEq] at hr
    exact hr ▸ hs
  | cons e es ih =>
    obtain ⟨u, he, hes⟩ := run_cons_eq_some.mp hr
    exact ih (pres hg.1 he hs) (hg.2 u he) hes

/-- A run of one system is a run of another when each of its steps is. -/
theorem simulation {step : σ → ε → Option σ} {step' : τ → δ → Option τ} (abs : σ → τ)
    (hstep : ∀ {t : σ} {e : ε} {u : σ}, step t e = some u →
      ∃ ds, run step' (abs t) ds = some (abs u))
    {s t : σ} {es : List ε} (hr : run step s es = some t) :
    ∃ ds, run step' (abs s) ds = some (abs t) := by
  refine invariant (I := fun u => ∃ ds, run step' (abs s) ds = some (abs u)) ?_ ⟨[], rfl⟩ hr
  rintro u e v he ⟨ds, hds⟩
  obtain ⟨fs, hfs⟩ := hstep he
  exact ⟨ds ++ fs, run_append_eq_some.mpr ⟨_, hds, hfs⟩⟩

theorem run_map {step : σ → ε → Option σ} {step' : τ → ε → Option τ} (abs : σ → τ)
    (hstep : ∀ {t : σ} {e : ε} {u : σ}, step t e = some u → step' (abs t) e = some (abs u))
    {s t : σ} {es : List ε} (hr : run step s es = some t) :
      run step' (abs s) es = some (abs t) := by
  induction es generalizing s with
  | nil =>
    rw [run_nil, Option.some.injEq] at hr
    rw [hr, run_nil]
  | cons e es ih =>
    obtain ⟨u, he, hes⟩ := run_cons_eq_some.mp hr
    exact run_cons_eq_some.mpr ⟨abs u, hstep he, ih hes⟩

/-- What the steps of a run put out, one after the other. -/
def outputs {ο : Type*} (step : σ → ε → Option σ) (out : σ → ε → List ο) : σ → List ε → List ο
  | _, [] => []
  | s, e :: es => out s e ++ ((step s e).map fun t => outputs step out t es).getD []

theorem outputs_cons {ο : Type*} {step : σ → ε → Option σ} {out : σ → ε → List ο} {s t : σ}
    {e : ε} (es : List ε) (h : step s e = some t) :
    outputs step out s (e :: es) = out s e ++ outputs step out t es := by
  rw [outputs, h, Option.map_some, Option.getD_some]

theorem outputs_append {ο : Type*} {step : σ → ε → Option σ} {out : σ → ε → List ο} {s t : σ}
    {es : List ε} (fs : List ε) (h : run step s es = some t) :
    outputs step out s (es ++ fs) = outputs step out s es ++ outputs step out t fs := by
  induction es generalizing s with
  | nil =>
    rw [run_nil, Option.some.injEq] at h
    rw [h]
    rfl
  | cons e es ih =>
    obtain ⟨u, he, hes⟩ := run_cons_eq_some.mp h
    rw [List.cons_append, outputs_cons _ he, outputs_cons _ he, ih hes, List.append_assoc]

/-- A related system follows a run by what its steps put out, as long as a bound holds. -/
theorem simulation_while {step : σ → ε → Option σ} {step' : τ → δ → Option τ}
    {out : σ → ε → List δ} (B : σ → Prop) (R : σ → τ → Prop)
    (back : ∀ {t : σ} {e : ε} {u : σ}, step t e = some u → B u → B t)
    (hstep : ∀ {t : σ} {e : ε} {u : σ} {c : τ}, step t e = some u → B u → R t c →
      ∃ d, run step' c (out t e) = some d ∧ R u d)
    {s t : σ} {c : τ} {es : List ε} (hs : R s c) (hr : run step s es = some t) (hb : B t) :
    ∃ d, run step' c (outputs step out s es) = some d ∧ R t d := by
  induction es generalizing s c with
  | nil =>
    rw [run_nil, Option.some.injEq] at hr
    exact ⟨c, rfl, hr ▸ hs⟩
  | cons e es ih =>
    obtain ⟨u, he, hes⟩ := run_cons_eq_some.mp hr
    have hu : B u := by
      refine invariant (I := fun v => B v → B u) (fun hv hw hx => hw (back hv hx)) id hes hb
    obtain ⟨d, hd, hud⟩ := hstep he hu hs
    obtain ⟨f, hf, htf⟩ := ih hud hes
    rw [outputs_cons _ he]
    exact ⟨f, run_append_eq_some.mpr ⟨d, hd, hf⟩, htf⟩

theorem outputs_filterMap {ο β : Type*} (step : σ → ε → Option σ) (out : σ → ε → List ο)
    (f : ο → Option β) (s : σ) (es : List ε) :
    outputs step (fun s e => (out s e).filterMap f) s es = (outputs step out s es).filterMap f := by
  induction es generalizing s with
  | nil => rfl
  | cons e es ih =>
    rw [outputs, outputs, List.filterMap_append]
    cases step s e with
    | none => rfl
    | some t => exact congrArg (_ ++ ·) (ih t)

/-- A queue that every step extends by `inn` at the back and from which it takes `out` at the
front puts out what enters it, in the same order. -/
theorem outputs_fifo {ο : Type*} {step : σ → ε → Option σ} {inn out : σ → ε → List ο}
    (queue : σ → List ο)
    (hstep : ∀ {t : σ} {e : ε} {u : σ}, step t e = some u →
      queue t ++ inn t e = out t e ++ queue u)
    {s t : σ} {es : List ε} (hr : run step s es = some t) :
    queue s ++ outputs step inn s es = outputs step out s es ++ queue t := by
  induction es generalizing s with
  | nil =>
    rw [run_nil, Option.some.injEq] at hr
    rw [hr]
    exact List.append_nil _
  | cons e es ih =>
    obtain ⟨u, he, hes⟩ := run_cons_eq_some.mp hr
    rw [outputs_cons _ he, outputs_cons _ he, ← List.append_assoc, hstep he, List.append_assoc,
      ih hes, List.append_assoc]

/-- A measure that no step raises and that each step of a kind lowers bounds the number of steps
of that kind. -/
theorem countP_add_le {step : σ → ε → Option σ} (I : σ → Prop) (G : ε → Prop) (p : ε → Bool)
    (rank : σ → ℕ) (pres : ∀ {t : σ} {e : ε} {u : σ}, step t e = some u → I t → I u)
    (lower : ∀ {t : σ} {e : ε} {u : σ}, step t e = some u → I t → G e →
      (p e).toNat + rank u ≤ rank t)
    {s t : σ} {es : List ε} (hs : I s) (hg : ∀ e ∈ es, G e) (hr : run step s es = some t) :
    es.countP p + rank t ≤ rank s := by
  induction es generalizing s with
  | nil =>
    rw [run_nil, Option.some.injEq] at hr
    simp [hr]
  | cons e es ih =>
    obtain ⟨u, he, hes⟩ := run_cons_eq_some.mp hr
    obtain ⟨hge, hges⟩ := List.forall_mem_cons.mp hg
    have hfirst := lower he hs hge
    have hrest := ih (pres he hs) hges hes
    have hcount : (e :: es).countP p = es.countP p + (p e).toNat := by
      rw [List.countP_cons]
      cases p e <;> rfl
    omega

theorem eq_of_nodup_filterMap {α β : Type*} {f : α → Option β} {l : List α}
    (h : (l.filterMap f).Nodup) {a b : α} {x : β} (ha : a ∈ l) (hb : b ∈ l)
    (hfa : f a = some x) (hfb : f b = some x) : a = b := by
  induction l with
  | nil => simp at ha
  | cons c l ih =>
    rw [List.filterMap_cons] at h
    rcases List.mem_cons.mp ha with rfl | ha' <;> rcases List.mem_cons.mp hb with rfl | hb'
    · rfl
    · rw [hfa] at h
      exact absurd (List.mem_filterMap.mpr ⟨b, hb', hfb⟩) (List.nodup_cons.mp h).1
    · rw [hfb] at h
      exact absurd (List.mem_filterMap.mpr ⟨a, ha', hfa⟩) (List.nodup_cons.mp h).1
    · cases hc : f c with
      | none => rw [hc] at h; exact ih h ha' hb'
      | some y => rw [hc] at h; exact ih (List.nodup_cons.mp h).2 ha' hb'

theorem forall_cut_concat {α : Type*} {P : List α → α → Prop} {log : List α} {e : α}
    (hlog : ∀ pre post a, log = pre ++ a :: post → P pre a) (hlast : P log e)
    {pre post : List α} {a : α} (h : log ++ [e] = pre ++ a :: post) : P pre a := by
  rcases List.eq_nil_or_concat post with rfl | ⟨post', b, rfl⟩
  · obtain ⟨rfl, hae⟩ := List.append_inj' h rfl
    rw [List.singleton_inj] at hae
    exact hae ▸ hlast
  · rw [List.concat_eq_append, ← List.cons_append, ← List.append_assoc] at h
    exact hlog pre post' a (List.append_inj' h rfl).1

end Transition
