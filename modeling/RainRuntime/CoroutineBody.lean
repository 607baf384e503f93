import Mathlib.Data.List.Basic

/-!
# Bodies of coroutines, read as ordinary calls

A body is a sequence of local steps, awaits of other bodies and suspensions that are ended
from outside, either with a value or with the result of another task. `eval` reads an
await as a call: it runs the callee to its end and goes on with what it returned. What
comes from outside is a list of inputs, used up from the front; a body that needs an input
that is not there is blocked.

`unwind` finishes an evaluation under a stack of callers. The equations below say how the
body on top of a stack is evaluated step by step.
-/

namespace Coroutine

/-- `awaitEmpty` awaits a task object without a coroutine. -/
inductive Body (L V E : Type*) where
  | ret (v : V)
  | act (l : L) (next : Body L V E)
  | await (child : Body L V E) (next : V → Body L V E)
  | awaitEmpty (next : V → Body L V E)
  | leaf (next : V → Body L V E)
  | join (task : ℕ) (next : Except E V → Body L V E)
  | throw

inductive Input (V E : Type*) where
  | leaf (v : V)
  | join (task : ℕ) (r : Except E V)

inductive Outcome (V E : Type*) where
  | value (v : V) (rest : List (Input V E))
  | blocked
  | thrown

variable {L V E : Type*}

namespace Body

def Plain : Body L V E → Prop
  | .ret _ => True
  | .act _ next => next.Plain
  | .await child next => child.Plain ∧ ∀ v, (next v).Plain
  | .awaitEmpty _ => False
  | .leaf next => ∀ v, (next v).Plain
  | .join _ next => ∀ r, (next r).Plain
  | .throw => False

/-- The steps of the body and of everything it calls, in order, and how it ends. -/
def eval : Body L V E → List (Input V E) → List L × Outcome V E
  | .ret v, ins => ([], .value v ins)
  | .act l next, ins => (l :: (next.eval ins).1, (next.eval ins).2)
  | .await child next, ins =>
    match child.eval ins with
    | (steps, .value v rest) => (steps ++ ((next v).eval rest).1, ((next v).eval rest).2)
    | (steps, .blocked) => (steps, .blocked)
    | (steps, .thrown) => (steps, .thrown)
  | .leaf next, .leaf v :: ins => (next v).eval ins
  | .leaf _, _ => ([], .blocked)
  | .join task next, .join task' r :: ins =>
    if task = task' then (next r).eval ins else ([], .blocked)
  | .join _ _, _ => ([], .blocked)
  | .awaitEmpty _, _ => ([], .thrown)
  | .throw, _ => ([], .thrown)

end Body

def emit (steps : List L) (p : List L × Outcome V E) : List L × Outcome V E := (steps ++ p.1, p.2)

def unwind : List (V → Body L V E) → List L × Outcome V E → List L × Outcome V E
  | [], p => p
  | k :: ks, (steps, .value v rest) => emit steps (unwind ks ((k v).eval rest))
  | _ :: _, (steps, .blocked) => (steps, .blocked)
  | _ :: _, (steps, .thrown) => (steps, .thrown)

theorem emit_emit (s t : List L) (p : List L × Outcome V E) :
    emit s (emit t p) = emit (s ++ t) p := by
  simp [emit]

theorem unwind_emit (ks : List (V → Body L V E)) (steps : List L) (p : List L × Outcome V E) :
    unwind ks (emit steps p) = emit steps (unwind ks p) := by
  cases ks with
  | nil => rfl
  | cons k ks =>
    obtain ⟨t, o⟩ := p
    cases o with
    | value v rest => exact (emit_emit steps t _).symm
    | blocked => rfl
    | thrown => rfl

theorem unwind_blocked (ks : List (V → Body L V E)) (steps : List L) :
    unwind ks (steps, .blocked) = (steps, (.blocked : Outcome V E)) := by
  cases ks <;> rfl

theorem unwind_thrown (ks : List (V → Body L V E)) (steps : List L) :
    unwind ks (steps, .thrown) = (steps, (.thrown : Outcome V E)) := by
  cases ks <;> rfl

theorem unwind_act (ks : List (V → Body L V E)) (l : L) (next : Body L V E)
    (ins : List (Input V E)) :
    unwind ks ((Body.act l next).eval ins) = emit [l] (unwind ks (next.eval ins)) :=
  unwind_emit ks [l] (next.eval ins)

theorem unwind_await (ks : List (V → Body L V E)) (child : Body L V E) (next : V → Body L V E)
    (ins : List (Input V E)) :
    unwind ks ((Body.await child next).eval ins) = unwind (next :: ks) (child.eval ins) := by
  rw [Body.eval]
  cases child.eval ins with
  | mk steps o =>
    cases o with
    | value v rest => exact unwind_emit ks steps ((next v).eval rest)
    | blocked => exact unwind_blocked ks steps
    | thrown => exact unwind_thrown ks steps

theorem unwind_ret (ks : List (V → Body L V E)) (next : V → Body L V E) (v : V)
    (ins : List (Input V E)) :
    unwind (next :: ks) ((Body.ret v : Body L V E).eval ins) = unwind ks ((next v).eval ins) := rfl

theorem eval_join (task : ℕ) (next : Except E V → Body L V E) (r : Except E V)
    (ins : List (Input V E)) :
    (Body.join task next).eval (.join task r :: ins) = (next r).eval ins := by
  rw [Body.eval, if_pos rfl]

/-! ## The stack machine against the calls -/

/-- A stack of callers with `code` on top is what is left of the plain body `B` after the inputs
`ins` and the steps `done`. -/
structure Agrees (B : Body L V E) (ins : List (Input V E)) (done : List L)
    (ks : List (V → Body L V E)) (code : Body L V E) : Prop where
  plain : code.Plain
  callers : ∀ k ∈ ks, ∀ v, (k v).Plain
  eval : ∀ later, B.eval (ins ++ later) = emit done (unwind ks (code.eval later))

namespace Agrees
variable {B : Body L V E} {ins : List (Input V E)} {done : List L} {ks : List (V → Body L V E)}

theorem initial (h : B.Plain) : Agrees B [] [] [] B :=
  ⟨h, fun _ hk => absurd hk List.not_mem_nil, fun _ => rfl⟩

theorem act {l : L} {next : Body L V E} (h : Agrees B ins done ks (.act l next)) :
    Agrees B ins (done ++ [l]) ks next := by
  refine ⟨h.plain, h.callers, fun later => ?_⟩
  rw [h.eval, unwind_act, emit_emit]

theorem await {child : Body L V E} {next : V → Body L V E}
    (h : Agrees B ins done ks (.await child next)) : Agrees B ins done (next :: ks) child := by
  refine ⟨h.plain.1, ?_, fun later => ?_⟩
  · intro k hk
    rcases List.mem_cons.mp hk with rfl | hk
    · exact h.plain.2
    · exact h.callers k hk
  · rw [h.eval, unwind_await]

theorem ret {next : V → Body L V E} {v : V} (h : Agrees B ins done (next :: ks) (.ret v)) :
    Agrees B ins done ks (next v) := by
  refine ⟨h.callers next (List.mem_cons_self ..) v, ?_, fun later => ?_⟩
  · intro k hk
    exact h.callers k (List.mem_cons_of_mem next hk)
  · rw [h.eval, unwind_ret]

theorem leaf {next : V → Body L V E} (h : Agrees B ins done ks (.leaf next)) (v : V) :
    Agrees B (ins ++ [.leaf v]) done ks (next v) := by
  refine ⟨h.plain v, h.callers, fun later => ?_⟩
  rw [List.append_assoc, List.singleton_append, h.eval]
  rfl

theorem join {task : ℕ} {next : Except E V → Body L V E}
    (h : Agrees B ins done ks (.join task next))
    (r : Except E V) : Agrees B (ins ++ [.join task r]) done ks (next r) := by
  refine ⟨h.plain r, h.callers, fun later => ?_⟩
  rw [List.append_assoc, List.singleton_append, h.eval, eval_join]

theorem value {v : V} (h : Agrees B ins done [] (.ret v)) (later : List (Input V E)) :
    B.eval (ins ++ later) = (done, .value v later) := by
  rw [h.eval]
  exact Prod.ext (List.append_nil done) rfl

theorem eval_inputs {code : Body L V E} (h : Agrees B ins done ks code) :
    B.eval ins = emit done (unwind ks (code.eval [])) := by
  rw [← h.eval, List.append_nil]

theorem starts {code : Body L V E} (h : Agrees B ins done ks code) : done <+: (B.eval ins).1 := by
  rw [h.eval_inputs]
  exact List.prefix_append done _

theorem blocked {code : Body L V E} (h : Agrees B ins done ks code)
    (hcode : code.eval [] = ([], .blocked)) : B.eval ins = (done, .blocked) := by
  rw [h.eval_inputs, hcode, unwind_blocked]
  exact Prod.ext (List.append_nil done) rfl

end Agrees
end Coroutine
