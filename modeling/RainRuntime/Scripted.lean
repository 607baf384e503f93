import Mathlib.Data.Nat.Basic
import Mathlib.Data.Option.Basic
import Mathlib.Data.Sum.Basic

/-!
# Programs that read their fate off a script

A program changes an environment and asks for events, which come from a script. It ends with a
result, or it stops where the script ends; the environment is there in both cases.

`Triple` has a postcondition for programs that end and a condition for those that the script
leaves in the middle. `forever` repeats a body until it gives a result. Its rounds are numbered by
the length of the script, and `Reads` shows that there are enough of them: a program whose every
round asks for an event stops early only when the script is at its end. `Tracks` compares two
programs on one script, as long as the first has not come to a spoiled environment.
-/

namespace Scripted
variable {σ τ ρ ε α β γ δ : Type}

structure Run (σ ε α : Type) where
  env : σ
  rest : List ε
  result : Option α

def Prog (σ ε α : Type) : Type := σ → List ε → Run σ ε α

instance : Monad (Prog σ ε) where
  pure a := fun s es => ⟨s, es, some a⟩
  bind p f := fun s es =>
    let r := p s es
    match r.result with
    | some a => f a r.env r.rest
    | none => ⟨r.env, r.rest, none⟩

def ask : Prog σ ε ε := fun s es =>
  match es with
  | [] => ⟨s, [], none⟩
  | e :: es => ⟨s, es, some e⟩

def view (f : σ → α) : Prog σ ε α := fun s es => ⟨s, es, some (f s)⟩

def update (f : σ → σ) : Prog σ ε Unit := fun s es => ⟨f s, es, some ()⟩

def rounds (body : τ → Prog σ ε (τ ⊕ α)) : ℕ → τ → Prog σ ε α
  | 0, _ => fun s es => ⟨s, es, none⟩
  | n + 1, t => body t >>= Sum.elim (rounds body n) pure

def forever (body : τ → Prog σ ε (τ ⊕ α)) (t : τ) : Prog σ ε α :=
  fun s es => rounds body (es.length + 1) t s es

@[simp] theorem pure_run (a : α) (s : σ) (es : List ε) :
    (pure a : Prog σ ε α) s es = ⟨s, es, some a⟩ := rfl

theorem bind_some {p : Prog σ ε α} {f : α → Prog σ ε β} {s : σ} {es : List ε} {a : α}
    (h : (p s es).result = some a) : (p >>= f) s es = f a (p s es).env (p s es).rest := by
  change (match (p s es).result with
    | some a => f a (p s es).env (p s es).rest
    | none => ⟨(p s es).env, (p s es).rest, none⟩) = _
  rw [h]

theorem bind_none {p : Prog σ ε α} {f : α → Prog σ ε β} {s : σ} {es : List ε}
    (h : (p s es).result = none) : (p >>= f) s es = ⟨(p s es).env, (p s es).rest, none⟩ := by
  change (match (p s es).result with
    | some a => f a (p s es).env (p s es).rest
    | none => ⟨(p s es).env, (p s es).rest, none⟩) = _
  rw [h]

/-! These run a program step by step. -/

@[simp] theorem pure_bind_run (a : α) (f : α → Prog σ ε β) (s : σ) (es : List ε) :
    ((pure a : Prog σ ε α) >>= f) s es = f a s es := rfl

@[simp] theorem view_bind_run (g : σ → α) (f : α → Prog σ ε β) (s : σ) (es : List ε) :
    (view g >>= f) s es = f (g s) s es := rfl

@[simp] theorem update_bind_run (g : σ → σ) (f : Unit → Prog σ ε β) (s : σ) (es : List ε) :
    (update g >>= f) s es = f () (g s) es := rfl

@[simp] theorem ask_bind_run (f : ε → Prog σ ε β) (s : σ) (e : ε) (es : List ε) :
    ((ask : Prog σ ε ε) >>= f) s (e :: es) = f e s es := rfl

@[simp] theorem bind_bind_run (p : Prog σ ε α) (f : α → Prog σ ε β) (g : β → Prog σ ε γ) (s : σ)
    (es : List ε) : ((p >>= f) >>= g) s es = (p >>= fun a => f a >>= g) s es := by
  cases h : (p s es).result with
  | some a =>
    rw [bind_some (f := fun a => f a >>= g) h]
    have hf := bind_some (f := f) h
    cases h' : (f a (p s es).env (p s es).rest).result with
    | some b => rw [bind_some (hf.symm ▸ h'), bind_some h', hf]
    | none => rw [bind_none (hf.symm ▸ h'), bind_none h', hf]
  | none =>
    have hf := bind_none (f := f) h
    rw [bind_none (f := fun a => f a >>= g) h, bind_none (by rw [hf]), hf]

theorem forever_bind_run (body : τ → Prog σ ε (τ ⊕ α)) (t : τ) (f : α → Prog σ ε β) (s : σ)
    (es : List ε) :
    (forever body t >>= f) s es = (rounds body (es.length + 1) t >>= f) s es := rfl

/-! ## Pre- and postconditions -/

def Run.Meets (r : Run σ ε α) (Q : α → σ → Prop) (R : σ → Prop) : Prop :=
  match r.result with
  | some a => Q a r.env
  | none => R r.env

theorem Run.meets_some {r : Run σ ε α} {Q : α → σ → Prop} {R : σ → Prop} {a : α}
    (h : r.result = some a) : r.Meets Q R ↔ Q a r.env := by
  rw [Run.Meets, h]

theorem Run.meets_none {r : Run σ ε α} {Q : α → σ → Prop} {R : σ → Prop} (h : r.result = none) :
    r.Meets Q R ↔ R r.env := by
  rw [Run.Meets, h]

/-- From an environment that meets `P` the program ends in one that meets `Q`, or stands in one
that meets `R` when the script is used up. -/
def Triple (P : σ → Prop) (p : Prog σ ε α) (Q : α → σ → Prop) (R : σ → Prop) : Prop :=
  ∀ s es, P s → (p s es).Meets Q R

section Triple
variable {P P' : σ → Prop} {Q Q' : α → σ → Prop} {R R' : σ → Prop} {p : Prog σ ε α}

theorem Triple.imp (h : Triple P p Q R) (hpre : ∀ s, P' s → P s) (hpost : ∀ a s, Q a s → Q' a s)
    (hstop : ∀ s, R s → R' s) : Triple P' p Q' R' := by
  intro s es hs
  have hm := h s es (hpre s hs)
  cases hr : (p s es).result with
  | some a =>
    rw [Run.meets_some hr] at hm ⊢
    exact hpost a _ hm
  | none =>
    rw [Run.meets_none hr] at hm ⊢
    exact hstop _ hm

theorem Triple.env (h : Triple P p (fun _ => R) R) {s : σ} (hs : P s) (es : List ε) :
    R (p s es).env := by
  have hm := h s es hs
  cases hr : (p s es).result with
  | some a => exact (Run.meets_some hr).mp hm
  | none => exact (Run.meets_none hr).mp hm

theorem Triple.pure {a : α} (h : ∀ s, P s → Q a s) : Triple P (pure a : Prog σ ε α) Q R :=
  fun s _ hs => h s hs

theorem Triple.bind {M : β → σ → Prop} {q : Prog σ ε β} {f : β → Prog σ ε α}
    (hq : Triple P q M R) (hf : ∀ b, Triple (M b) (f b) Q R) : Triple P (q >>= f) Q R := by
  intro s es hs
  have hm := hq s es hs
  cases hr : (q s es).result with
  | some b =>
    rw [Run.meets_some hr] at hm
    rw [bind_some hr]
    exact hf b _ _ hm
  | none =>
    rw [Run.meets_none hr] at hm
    rw [bind_none hr]
    exact hm

theorem Triple.ask {Q : ε → σ → Prop} (h : ∀ e s, P s → Q e s) (hstop : ∀ s, P s → R s) :
    Triple P (ask : Prog σ ε ε) Q R := by
  intro s es hs
  cases es with
  | nil => exact hstop s hs
  | cons e es => exact h e s hs

theorem Triple.view {f : σ → α} (h : ∀ s, P s → Q (f s) s) : Triple P (view f : Prog σ ε α) Q R :=
  fun s _ hs => h s hs

theorem Triple.update {f : σ → σ} {Q : Unit → σ → Prop} (h : ∀ s, P s → Q () (f s)) :
    Triple P (update f : Prog σ ε Unit) Q R :=
  fun s _ hs => h s hs

/-- The rule of the loop, with its invariant. -/
theorem Triple.forever {I : τ → σ → Prop} {body : τ → Prog σ ε (τ ⊕ α)}
    (hbody : ∀ t, Triple (I t) (body t) (fun r s => r.elim (fun t => I t s) fun a => Q a s) R)
    (hstop : ∀ t s, I t s → R s) (t : τ) : Triple (I t) (forever body t) Q R := by
  have hrounds : ∀ n t, Triple (I t) (rounds body n t) Q R := by
    intro n
    induction n with
    | zero => exact fun t s es hs => hstop t s hs
    | succ n ih =>
      intro t
      refine (hbody t).bind fun r => ?_
      cases r with
      | inl t' => exact ih t'
      | inr a => exact .pure fun s hs => hs
  exact fun s es hs => hrounds _ t s es hs

theorem Triple.and {Q₁ Q₂ : α → σ → Prop} {R₁ R₂ : σ → Prop} {P₁ P₂ : σ → Prop}
    (h₁ : Triple P₁ p Q₁ R₁) (h₂ : Triple P₂ p Q₂ R₂) :
    Triple (fun s => P₁ s ∧ P₂ s) p (fun a s => Q₁ a s ∧ Q₂ a s) fun s => R₁ s ∧ R₂ s := by
  intro s es hs
  have hm₁ := h₁ s es hs.1
  have hm₂ := h₂ s es hs.2
  cases hr : (p s es).result with
  | some a =>
    rw [Run.meets_some hr] at hm₁ hm₂ ⊢
    exact ⟨hm₁, hm₂⟩
  | none =>
    rw [Run.meets_none hr] at hm₁ hm₂ ⊢
    exact ⟨hm₁, hm₂⟩

end Triple

/-! ## How the script is read -/

/-- The program stops early only at the end of the script, and it has taken an event from it when
it ends with a result for which `need` holds. -/
structure Reads (p : Prog σ ε α) (need : α → Prop) : Prop where
  stops : ∀ s es, (p s es).result = none → (p s es).rest = []
  le : ∀ s es, (p s es).rest.length ≤ es.length
  lt : ∀ s es a, (p s es).result = some a → need a → (p s es).rest.length < es.length

section Reads
variable {need : α → Prop}

theorem Reads.pure {a : α} (h : ¬need a) : Reads (pure a : Prog σ ε α) need where
  stops _ _ hr := by cases hr
  le _ _ := le_refl _
  lt _ _ b hb hneed := absurd (Option.some.inj hb ▸ hneed) h

theorem Reads.ask : Reads (ask : Prog σ ε ε) fun _ => True where
  stops s es hr := by
    cases es with
    | nil => rfl
    | cons e es => cases hr
  le s es := by
    cases es with
    | nil => exact le_refl _
    | cons e es => exact Nat.le_succ _
  lt s es a hr _ := by
    cases es with
    | nil => cases hr
    | cons e es => exact Nat.lt_succ_self _

theorem Reads.view {f : σ → α} : Reads (view f : Prog σ ε α) fun _ => False where
  stops _ _ hr := by cases hr
  le _ _ := le_refl _
  lt _ _ _ _ h := h.elim

theorem Reads.update {f : σ → σ} : Reads (update f : Prog σ ε Unit) fun _ => False where
  stops _ _ hr := by cases hr
  le _ _ := le_refl _
  lt _ _ _ _ h := h.elim

theorem Reads.imp {p : Prog σ ε α} {need' : α → Prop} (h : Reads p need)
    (himp : ∀ a, need' a → need a) : Reads p need' :=
  ⟨h.stops, h.le, fun s es a hr ha => h.lt s es a hr (himp a ha)⟩

theorem Reads.bind {need' : β → Prop} {p : Prog σ ε α} {f : α → Prog σ ε β} (hp : Reads p need)
    (hf : ∀ a, Reads (f a) fun b => need' b ∧ ¬need a) : Reads (p >>= f) need' where
  stops s es hr := by
    cases hres : (p s es).result with
    | some a =>
      rw [bind_some hres] at hr ⊢
      exact (hf a).stops _ _ hr
    | none =>
      rw [bind_none hres]
      exact hp.stops s es hres
  le s es := by
    cases hres : (p s es).result with
    | some a =>
      rw [bind_some hres]
      exact le_trans ((hf a).le _ _) (hp.le s es)
    | none =>
      rw [bind_none hres]
      exact hp.le s es
  lt s es b hb hneed := by
    cases hres : (p s es).result with
    | some a =>
      rw [bind_some hres] at hb ⊢
      by_cases ha : need a
      · exact lt_of_le_of_lt ((hf a).le _ _) (hp.lt s es a hres ha)
      · exact lt_of_lt_of_le ((hf a).lt _ _ b hb ⟨hneed, ha⟩) (hp.le s es)
    | none =>
      rw [bind_none hres] at hb
      cases hb

/-- A loop whose rounds take an event each is not cut short. -/
theorem Reads.forever {body : τ → Prog σ ε (τ ⊕ α)}
    (hbody : ∀ t, Reads (body t) (Sum.elim (fun _ => True) need)) (t : τ) :
    Reads (forever body t) need := by
  have hrounds : ∀ n t s es, es.length < n →
      ((rounds body n t s es).result = none → (rounds body n t s es).rest = []) ∧
      (rounds body n t s es).rest.length ≤ es.length ∧
      ∀ a, (rounds body n t s es).result = some a → need a →
        (rounds body n t s es).rest.length < es.length := by
    intro n
    induction n with
    | zero =>
      intro t s es hlt
      omega
    | succ n ih =>
      intro t s es hlt
      cases hres : (body t s es).result with
      | none =>
        rw [rounds, bind_none hres]
        refine ⟨fun _ => (hbody t).stops s es hres, (hbody t).le s es, fun a ha => ?_⟩
        cases ha
      | some r =>
        rw [rounds, bind_some hres]
        cases r with
        | inl t' =>
          have hless := (hbody t).lt s es _ hres trivial
          obtain ⟨hstops, hle, -⟩ := ih t' (body t s es).env (body t s es).rest (by omega)
          exact ⟨hstops, le_trans hle (le_of_lt hless), fun _ _ _ => lt_of_le_of_lt hle hless⟩
        | inr a =>
          refine ⟨fun hr => ?_, (hbody t).le s es, fun b hb hneed => ?_⟩
          · cases hr
          · obtain rfl := Option.some.inj hb
            exact (hbody t).lt s es _ hres hneed
  exact ⟨fun s es => (hrounds _ t s es (Nat.lt_succ_self _)).1,
    fun s es => (hrounds _ t s es (Nat.lt_succ_self _)).2.1,
    fun s es => (hrounds _ t s es (Nat.lt_succ_self _)).2.2⟩

end Reads

/-! ## Two programs on one script -/

/-- Unless its environment is spoiled, `p` takes from the script what `q` takes, with a result
that `S` relates to that of `q`. -/
def Tracks (L : σ → ρ → Prop) (E : σ → Prop) (S : α → β → Prop) (p : Prog σ ε α)
    (q : Prog ρ ε β) : Prop :=
  ∀ s u es, L s u → E (p s es).env ∨ (L (p s es).env (q u es).env ∧
    (p s es).rest = (q u es).rest ∧ Option.Rel S (p s es).result (q u es).result)

section Tracks
variable {L : σ → ρ → Prop} {E : σ → Prop} {S : α → β → Prop} {p : Prog σ ε α} {q : Prog ρ ε β}

theorem Tracks.pure {a : α} {b : β} (h : S a b) :
    Tracks L E S (pure a : Prog σ ε α) (pure b : Prog ρ ε β) :=
  fun _ _ _ hl => Or.inr ⟨hl, rfl, .some h⟩

theorem Tracks.ask {S : ε → ε → Prop} (h : ∀ e, S e e) :
    Tracks L E S (ask : Prog σ ε ε) (ask : Prog ρ ε ε) := by
  intro s u es hl
  cases es with
  | nil => exact Or.inr ⟨hl, rfl, .none⟩
  | cons e es => exact Or.inr ⟨hl, rfl, .some (h e)⟩

theorem Tracks.view {f : σ → α} {g : ρ → β} (h : ∀ s u, L s u → S (f s) (g u)) :
    Tracks L E S (view f : Prog σ ε α) (view g : Prog ρ ε β) :=
  fun s u _ hl => Or.inr ⟨hl, rfl, .some (h s u hl)⟩

theorem Tracks.update {f : σ → σ} {g : ρ → ρ} (h : ∀ s u, L s u → L (f s) (g u)) :
    Tracks L E (fun _ _ => True) (update f : Prog σ ε Unit) (update g : Prog ρ ε Unit) :=
  fun s u _ hl => Or.inr ⟨h s u hl, rfl, .some trivial⟩

theorem Tracks.bind {S' : γ → δ → Prop} {f : α → Prog σ ε γ} {g : β → Prog ρ ε δ}
    (hpq : Tracks L E S p q) (hfg : ∀ a b, S a b → Tracks L E S' (f a) (g b))
    (hkeep : ∀ a, Triple E (f a) (fun _ => E) E) : Tracks L E S' (p >>= f) (q >>= g) := by
  intro s u es hl
  have hspoiled : E (p s es).env → E ((p >>= f) s es).env := by
    intro he
    cases hres : (p s es).result with
    | none =>
      rw [bind_none hres]
      exact he
    | some a =>
      rw [bind_some hres]
      exact (hkeep a).env he _
  rcases hpq s u es hl with he | ⟨hl', hrest, hrel⟩
  · exact Or.inl (hspoiled he)
  · cases hres : (p s es).result with
    | none =>
      rw [hres] at hrel
      have hres' : (q u es).result = none := by
        cases hq : (q u es).result with
        | none => rfl
        | some b =>
          rw [hq] at hrel
          cases hrel
      rw [bind_none hres, bind_none hres']
      exact Or.inr ⟨hl', hrest, .none⟩
    | some a =>
      rw [hres] at hrel
      cases hq : (q u es).result with
      | none =>
        rw [hq] at hrel
        cases hrel
      | some b =>
        rw [hq] at hrel
        rw [bind_some hres, bind_some hq, ← hrest]
        cases hrel with
        | some hab => exact hfg a b hab _ _ _ hl'

theorem Tracks.left {S' : γ → β → Prop} {f : α → Prog σ ε γ} (v : σ → α) (g : σ → σ)
    (hp : ∀ s es, p s es = ⟨g s, es, some (v s)⟩) (hl : ∀ s u, L s u → L (g s) u)
    (hf : ∀ s u, L s u → Tracks L E S' (f (v s)) q) :
    Tracks L E S' (p >>= f) q := by
  intro s u es hs
  have hrun : (p >>= f) s es = f (v s) (g s) es := by
    rw [bind_some (by rw [hp])]
    simp only [hp]
  rw [hrun]
  exact hf s u hs (g s) u es (hl s u hs)

theorem Tracks.forever {T : τ → δ → Prop} {body : τ → Prog σ ε (τ ⊕ α)}
    {body' : δ → Prog ρ ε (δ ⊕ β)}
    (hbody : ∀ t t', T t t' → Tracks L E (Sum.LiftRel T S) (body t) (body' t'))
    (hkeep : ∀ t, Triple E (body t) (fun _ => E) E) {t : τ} {t' : δ} (ht : T t t') :
    Tracks L E S (forever body t) (forever body' t') := by
  have hstay : ∀ n t, Triple E (rounds body n t) (fun _ => E) E := by
    intro n
    induction n with
    | zero => exact fun _ _ _ hs => hs
    | succ n ih =>
      intro t
      refine (hkeep t).bind fun r => ?_
      cases r with
      | inl t' => exact ih t'
      | inr a => exact .pure fun s hs => hs
  have hrounds : ∀ n t t', T t t' → Tracks L E S (rounds body n t) (rounds body' n t') := by
    intro n
    induction n with
    | zero => exact fun _ _ _ s u es hl => Or.inr ⟨hl, rfl, .none⟩
    | succ n ih =>
      intro t t' ht
      refine (hbody t t' ht).bind (fun r r' hr => ?_) fun r => ?_
      · cases hr with
        | inl h => exact ih _ _ h
        | inr h => exact .pure h
      · cases r with
        | inl t' => exact hstay n t'
        | inr a => exact .pure fun s hs => hs
  exact fun s u es hl => hrounds _ t t' ht s u es hl

end Tracks
end Scripted
