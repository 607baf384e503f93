import Mathlib.Data.List.Nodup
import Mathlib.Logic.Function.Basic
import RainRuntime.Transition

/-!
# The thread-local pointers and the metrics registry

`EventLoop::run` installs three pointers of its thread and clears them when it returns; `block_on`
and the worker threads of an executor do the same with the counters and the pool. None of them
restores what was there before, and a coroutine may call `block_on` or `run` again on the thread
that runs it. The scopes that a thread is in are a stack, innermost first.

The counters of a `block_on` live on its frame and those of a worker in the executor. A thread's
counters are named by the thread and a serial number. `for_each`, `add` and `remove` of the
registry hold its mutex and are single steps.
-/

namespace RainRuntime.ThreadContext

abbrev MetricsId := ℕ × ℕ

/-- `g_reactor`, `g_timer` and `g_event_loop`, each by the loop it belongs to. -/
structure LoopPointers where
  reactor : Option ℕ
  timer : Option ℕ
  eventLoop : Option ℕ

def LoopPointers.null : LoopPointers := ⟨none, none, none⟩

def LoopPointers.guarding (loop : ℕ) : LoopPointers := ⟨some loop, some loop, some loop⟩

structure Locals where
  loop : LoopPointers
  metrics : Option MetricsId
  pool : Option ℕ

def Locals.null : Locals := ⟨.null, none, none⟩

inductive SessionKind where
  | worker
  | blockOn
  deriving DecidableEq

/-- Where the function around `run` is. `failed` is the answer of `run`; `stripped` is whether
another session ended on this thread meanwhile. -/
inductive SessionPc where
  | entered
  | added
  | inited
  | ran (failed stripped : Bool)
  | settled (failed stripped : Bool)
  | removed (failed stripped : Bool)

structure Session where
  kind : SessionKind
  serial : ℕ
  pool : Option ℕ
  pc : SessionPc

/-- A call of `EventLoop::run`. `cleared` and `stripped` say whether a call of `run`, or a whole
session, has ended inside of it. -/
structure RunScope where
  loop : ℕ
  cleared : Bool
  stripped : Bool

inductive Scope where
  | session (σ : Session)
  | run (r : RunScope)

structure ThreadState where
  locals : Locals
  stack : List Scope
  serial : ℕ

structure Process where
  threads : ℕ → ThreadState
  registry : List MetricsId
  loopRunErrors : MetricsId → ℕ

inductive ContextOp where
  | enter (th : ℕ) (kind : SessionKind) (pool : Option ℕ)
  | advance (th : ℕ)
  | run (th loop : ℕ)
  | returns (th : ℕ) (failed : Bool)

/-- Whether the code of the innermost scope may call a function: a coroutine, or a thread that is
in no scope. -/
def callable : List Scope → Bool
  | [] => true
  | .run _ :: _ => true
  | .session _ :: _ => false

def mayRun : List Scope → Bool
  | .session ⟨_, _, _, .inited⟩ :: _ => true
  | stack => callable stack

def afterRun (failed : Bool) (r : RunScope) : List Scope → List Scope
  | .session σ :: rest => .session { σ with pc := .ran failed r.stripped } :: rest
  | .run r' :: rest =>
    .run { r' with cleared := true, stripped := r'.stripped || r.stripped } :: rest
  | [] => []

def afterSession : List Scope → List Scope
  | .run r :: rest => .run { r with cleared := true, stripped := true } :: rest
  | stack => stack

def Locals.settle (l : Locals) : SessionKind → Locals
  | .blockOn => { l with pool := none }
  | .worker => l

def Locals.leave (l : Locals) : SessionKind → Locals
  | .blockOn => { l with metrics := none }
  | .worker => .null

namespace Process

def setThread (s : Process) (th : ℕ) (t : ThreadState) : Process :=
  { s with threads := Function.update s.threads th t }

def countRunError (s : Process) : Option MetricsId → Process
  | some m => { s with loopRunErrors := Function.update s.loopRunErrors m (s.loopRunErrors m + 1) }
  | none => s

/-- The next statement of a session's function besides the call of `run`. -/
def advance (s : Process) (th : ℕ) (t : ThreadState) (σ : Session) (rest : List Scope) :
    Option Process :=
  let moved := fun pc => Scope.session { σ with pc := pc } :: rest
  match σ.pc with
  | .entered =>
    some { s.setThread th { t with stack := moved .added } with
      registry := s.registry ++ [(th, σ.serial)] }
  | .added =>
    some (s.setThread th { t with
      locals := { t.locals with pool := σ.pool }, stack := moved .inited })
  | .inited => none
  | .ran failed stripped =>
    let s' := s.setThread th { t with
      locals := t.locals.settle σ.kind, stack := moved (.settled failed stripped) }
    some (if failed then s'.countRunError t.locals.metrics else s')
  | .settled failed stripped =>
    some { s.setThread th { t with stack := moved (.removed failed stripped) } with
      registry := s.registry.filter fun m => m ≠ (th, σ.serial) }
  | .removed _ _ =>
    some (s.setThread th { t with
      locals := t.locals.leave σ.kind, stack := afterSession rest })

def step (s : Process) : ContextOp → Option Process
  | .enter th kind pool =>
    let t := s.threads th
    if callable t.stack ∧ (kind = .worker → t.stack = []) then
      some (s.setThread th
        { locals := { t.locals with metrics := some (th, t.serial) }
          stack := .session ⟨kind, t.serial, pool, .entered⟩ :: t.stack
          serial := t.serial + 1 })
    else none
  | .advance th =>
    match (s.threads th).stack with
    | .session σ :: rest => s.advance th (s.threads th) σ rest
    | _ => none
  | .run th loop =>
    let t := s.threads th
    if mayRun t.stack then
      some (s.setThread th { t with
        locals := { t.locals with loop := .guarding loop }
        stack := .run ⟨loop, false, false⟩ :: t.stack })
    else none
  | .returns th failed =>
    let t := s.threads th
    match t.stack with
    | .run r :: rest =>
      some (s.setThread th { t with
        locals := { t.locals with loop := .null }, stack := afterRun failed r rest })
    | _ => none

def init : Process := ⟨fun _ => ⟨.null, [], 0⟩, [], fun _ => 0⟩

def Reaches (ops : List ContextOp) (s : Process) : Prop := Transition.run step init ops = some s

end Process

/-! ## What the pointers are, by the scopes of the thread -/

def Session.own (σ : Session) (th : ℕ) (stripped : Bool) : Option MetricsId :=
  if stripped then none else some (th, σ.serial)

def Session.ownPool (σ : Session) (stripped : Bool) : Option ℕ :=
  if stripped then none else σ.pool

def expected (th : ℕ) : List Scope → Locals
  | [] => .null
  | .run r :: rest =>
    { loop := if r.cleared then .null else .guarding r.loop
      metrics := if r.stripped then none else (expected th rest).metrics
      pool := if r.stripped then none else (expected th rest).pool }
  | .session σ :: rest =>
    match σ.pc with
    | .entered | .added => { expected th rest with metrics := some (th, σ.serial) }
    | .inited => { expected th rest with metrics := some (th, σ.serial), pool := σ.pool }
    | .ran _ stripped => ⟨.null, σ.own th stripped, σ.ownPool stripped⟩
    | .settled _ stripped | .removed _ stripped =>
      ⟨.null, σ.own th stripped, if σ.kind = .blockOn then none else σ.ownPool stripped⟩

def SessionPc.registered : SessionPc → Bool
  | .entered | .removed _ _ => false
  | _ => true

def SessionPc.counted : SessionPc → ℕ
  | .settled true false | .removed true false => 1
  | _ => 0

def Scope.session? : Scope → Option Session
  | .session σ => some σ
  | .run _ => none

def sessions (stack : List Scope) : List Session := stack.filterMap Scope.session?

/-- A call of `run` is made by a session that is ready for it, by a coroutine or by a thread without
scopes; a session is entered by one of the latter two, and a worker's by its thread. -/
def Shaped : List Scope → Prop
  | [] => True
  | .run _ :: rest => mayRun rest = true ∧ Shaped rest
  | .session σ :: rest => callable rest = true ∧ (σ.kind = .worker → rest = []) ∧ Shaped rest

@[simp] theorem sessions_session (σ : Session) (rest : List Scope) :
    sessions (.session σ :: rest) = σ :: sessions rest := rfl

@[simp] theorem sessions_run (r : RunScope) (rest : List Scope) :
    sessions (.run r :: rest) = sessions rest := rfl

@[simp] theorem sessions_afterSession (stack : List Scope) :
    sessions (afterSession stack) = sessions stack := by
  rcases stack with _ | ⟨σ | r, rest⟩ <;> rfl

@[simp] theorem Process.countRunError_threads (s : Process) (m : Option MetricsId) :
    (s.countRunError m).threads = s.threads := by
  cases m <;> rfl

@[simp] theorem Process.countRunError_registry (s : Process) (m : Option MetricsId) :
    (s.countRunError m).registry = s.registry := by
  cases m <;> rfl

theorem Shaped.afterSession {stack : List Scope} (h : Shaped stack) :
    Shaped (afterSession stack) := by
  rcases stack with _ | ⟨σ | r, rest⟩
  · trivial
  · exact h
  · exact h

theorem expected_afterSession (th : ℕ) {stack : List Scope} (h : callable stack = true) :
    expected th (afterSession stack) = .null := by
  rcases stack with _ | ⟨σ | r, rest⟩
  · rfl
  · cases h
  · rfl

theorem pc_of_mayRun {σ : Session} {rest : List Scope}
    (h : mayRun (.session σ :: rest) = true) : σ.pc = .inited := by
  obtain ⟨kind, serial, pool, pc⟩ := σ
  cases pc <;> first | rfl | cases h

structure Ok (s : Process) (th : ℕ) : Prop where
  locals : (s.threads th).locals = expected th (s.threads th).stack
  shaped : Shaped (s.threads th).stack
  nodup : ((sessions (s.threads th).stack).map Session.serial).Nodup
  bound : ∀ σ ∈ sessions (s.threads th).stack, σ.serial < (s.threads th).serial
  registry : ∀ k, (th, k) ∈ s.registry ↔
    ∃ σ ∈ sessions (s.threads th).stack, σ.serial = k ∧ σ.pc.registered = true
  errors : ∀ σ ∈ sessions (s.threads th).stack, s.loopRunErrors (th, σ.serial) = σ.pc.counted
  unused : ∀ k, (s.threads th).serial ≤ k → s.loopRunErrors (th, k) = 0

variable {s u : Process} {op : ContextOp} {th : ℕ} {σ : Session} {rest : List Scope}

theorem Ok.of_sessions (h : Ok s th)
    (hsessions : sessions (u.threads th).stack = sessions (s.threads th).stack)
    (hserial : (u.threads th).serial = (s.threads th).serial)
    (hlocals : (u.threads th).locals = expected th (u.threads th).stack)
    (hshaped : Shaped (u.threads th).stack)
    (hregistry : ∀ k, (th, k) ∈ u.registry ↔ (th, k) ∈ s.registry)
    (herrors : ∀ k, u.loopRunErrors (th, k) = s.loopRunErrors (th, k)) : Ok u th := by
  refine ⟨hlocals, hshaped, ?_, ?_, fun k => ?_, fun σ hσ => ?_, fun k hk => ?_⟩
  · rw [hsessions]
    exact h.nodup
  · rw [hsessions, hserial]
    exact h.bound
  · rw [hregistry, hsessions]
    exact h.registry k
  · rw [hsessions] at hσ
    rw [herrors]
    exact h.errors σ hσ
  · rw [hserial] at hk
    rw [herrors]
    exact h.unused k hk

theorem Ok.enter (h : Ok s th) (kind : SessionKind) (pool : Option ℕ)
    (hcall : callable (s.threads th).stack = true)
    (hkind : kind = .worker → (s.threads th).stack = []) :
    Ok (s.setThread th
      { locals := { (s.threads th).locals with metrics := some (th, (s.threads th).serial) }
        stack := .session ⟨kind, (s.threads th).serial, pool, .entered⟩ :: (s.threads th).stack
        serial := (s.threads th).serial + 1 }) th := by
  have hnot : (s.threads th).serial ∉ (sessions (s.threads th).stack).map Session.serial := by
    intro hmem
    obtain ⟨σ, hσ, heq⟩ := List.mem_map.mp hmem
    exact absurd heq (Nat.ne_of_lt (h.bound σ hσ))
  constructor
  all_goals simp only [Process.setThread, Function.update_self]
  · rw [h.locals]
    rfl
  · exact ⟨hcall, hkind, h.shaped⟩
  · exact List.nodup_cons.mpr ⟨hnot, h.nodup⟩
  · intro σ hσ
    rcases List.mem_cons.mp hσ with rfl | hσ
    · exact Nat.lt_succ_self _
    · exact Nat.lt_succ_of_lt (h.bound σ hσ)
  · intro k
    rw [h.registry]
    simp [SessionPc.registered]
  · intro σ hσ
    rcases List.mem_cons.mp hσ with rfl | hσ
    · exact h.unused _ (Nat.le_refl _)
    · exact h.errors σ hσ
  · intro k hk
    exact h.unused k (by omega)

theorem Ok.run (h : Ok s th) (loop : ℕ) (hrun : mayRun (s.threads th).stack = true) :
    Ok (s.setThread th { s.threads th with
      locals := { (s.threads th).locals with loop := .guarding loop }
      stack := .run ⟨loop, false, false⟩ :: (s.threads th).stack }) th := by
  refine h.of_sessions ?_ ?_ ?_ ?_ (fun _ => Iff.rfl) (fun _ => rfl)
  all_goals simp only [Process.setThread, Function.update_self, sessions_run]
  · rw [h.locals]
    rfl
  · exact ⟨hrun, h.shaped⟩

theorem Ok.move (h : Ok s th) {tail : List Session} {p : SessionPc}
    (hold : sessions (s.threads th).stack = σ :: tail)
    (hnew : sessions (u.threads th).stack = { σ with pc := p } :: tail)
    (hserial : (u.threads th).serial = (s.threads th).serial)
    (hlocals : (u.threads th).locals = expected th (u.threads th).stack)
    (hshaped : Shaped (u.threads th).stack)
    (hregistry : ∀ k, (th, k) ∈ u.registry ↔
      if k = σ.serial then p.registered = true else (th, k) ∈ s.registry)
    (herrors : ∀ k, u.loopRunErrors (th, k) =
      if k = σ.serial then p.counted else s.loopRunErrors (th, k)) : Ok u th := by
  have hnodup := h.nodup
  have hbound := h.bound
  have hentries := h.registry
  have hcounts := h.errors
  rw [hold] at hnodup hbound hentries hcounts
  have hother : ∀ σ' ∈ tail, σ'.serial ≠ σ.serial := fun σ' hσ' heq =>
    (List.nodup_cons.mp hnodup).1 (List.mem_map.mpr ⟨σ', hσ', heq⟩)
  refine ⟨hlocals, hshaped, ?_, ?_, fun k => ?_, ?_, fun k hk => ?_⟩
  · rw [hnew]
    exact hnodup
  · rw [hnew, hserial]
    intro σ' hσ'
    rcases List.mem_cons.mp hσ' with rfl | hσ'
    · exact hbound σ List.mem_cons_self
    · exact hbound σ' (List.mem_cons_of_mem _ hσ')
  · rw [hregistry, hnew]
    split_ifs with hk
    · subst hk
      constructor
      · exact fun hpc => ⟨_, List.mem_cons_self, rfl, hpc⟩
      · rintro ⟨σ', hσ', hk, hpc⟩
        rcases List.mem_cons.mp hσ' with rfl | hσ'
        · exact hpc
        · exact absurd hk (hother σ' hσ')
    · rw [hentries]
      simp [Ne.symm hk]
  · rw [hnew]
    intro σ' hσ'
    rw [herrors]
    rcases List.mem_cons.mp hσ' with rfl | hσ'
    · exact if_pos rfl
    · rw [if_neg (hother σ' hσ')]
      exact hcounts σ' (List.mem_cons_of_mem _ hσ')
  · rw [hserial] at hk
    have hne : k ≠ σ.serial :=
      Nat.ne_of_gt (Nat.lt_of_lt_of_le (hbound σ List.mem_cons_self) hk)
    rw [herrors, if_neg hne]
    exact h.unused k hk

theorem Ok.mem_registry_iff (h : Ok s th) {tail : List Session} {p : SessionPc}
    (hold : sessions (s.threads th).stack = σ :: tail)
    (hpc : p.registered = σ.pc.registered) (k : ℕ) :
    (th, k) ∈ s.registry ↔
      if k = σ.serial then p.registered = true else (th, k) ∈ s.registry := by
  have hmem : σ ∈ sessions (s.threads th).stack := by
    rw [hold]
    exact List.mem_cons_self
  split_ifs with hk
  · subst hk
    rw [h.registry, hpc]
    constructor
    · rintro ⟨σ', hσ', heq, hreg⟩
      rw [List.inj_on_of_nodup_map h.nodup hσ' hmem heq] at hreg
      exact hreg
    · exact fun hreg => ⟨σ, hmem, rfl, hreg⟩
  · rfl

theorem Ok.loopRunErrors_eq (h : Ok s th) {tail : List Session} {p : SessionPc}
    (hold : sessions (s.threads th).stack = σ :: tail)
    (hpc : p.counted = σ.pc.counted) (k : ℕ) :
    s.loopRunErrors (th, k) =
      if k = σ.serial then p.counted else s.loopRunErrors (th, k) := by
  split_ifs with hk
  · rw [hk, hpc]
    exact h.errors σ (by rw [hold]; exact List.mem_cons_self)
  · rfl

theorem Ok.returns (h : Ok s th) (failed : Bool) {r : RunScope}
    (hstack : (s.threads th).stack = .run r :: rest) :
    Ok (s.setThread th { s.threads th with
      locals := { (s.threads th).locals with loop := .null }
      stack := afterRun failed r rest }) th := by
  have hlocals := h.locals
  have hshaped := h.shaped
  have hsessions : sessions (s.threads th).stack = sessions rest := by rw [hstack, sessions_run]
  rw [hstack] at hlocals hshaped
  obtain ⟨hrun, hshaped⟩ := hshaped
  rcases rest with _ | ⟨σ | r', rest⟩
  · refine h.of_sessions ?_ ?_ ?_ ?_ (fun _ => Iff.rfl) (fun _ => rfl)
    all_goals simp only [Process.setThread, Function.update_self, afterRun]
    · exact hsessions.symm
    · rw [hlocals]
      simp [expected, Locals.null]
    · trivial
  · have hpc := pc_of_mayRun hrun
    refine h.move (p := .ran failed r.stripped) hsessions ?_ ?_ ?_ ?_
      (h.mem_registry_iff hsessions (by rw [hpc]; rfl))
      (h.loopRunErrors_eq hsessions (by rw [hpc]; rfl))
    all_goals simp only [Process.setThread, Function.update_self, afterRun]
    · rfl
    · rw [hlocals]
      simp [expected, hpc, Session.own, Session.ownPool]
    · exact hshaped
  · refine h.of_sessions ?_ ?_ ?_ ?_ (fun _ => Iff.rfl) (fun _ => rfl)
    all_goals simp only [Process.setThread, Function.update_self, afterRun, sessions_run]
    · exact hsessions.symm
    · rw [hlocals]
      cases hr : r.stripped <;> cases hr' : r'.stripped <;> simp [expected, hr, hr']
    · exact hshaped

theorem Ok.advance (h : Ok s th) (hstack : (s.threads th).stack = .session σ :: rest)
    (hstep : s.advance th (s.threads th) σ rest = some u) : Ok u th := by
  have hlocals := h.locals
  have hshaped := h.shaped
  have hsessions : sessions (s.threads th).stack = σ :: sessions rest := by
    rw [hstack, sessions_session]
  rw [hstack] at hlocals hshaped
  cases hpc : σ.pc with
  | entered =>
    simp only [Process.advance, hpc, Option.some.injEq] at hstep
    subst hstep
    refine h.move (p := .added) hsessions ?_ ?_ ?_ ?_ (fun k => ?_)
      (h.loopRunErrors_eq hsessions (by rw [hpc]; rfl))
    all_goals simp only [Process.setThread, Function.update_self, sessions_session]
    · rw [hlocals]
      simp [expected, hpc]
    · exact hshaped
    · by_cases hk : k = σ.serial <;> simp [hk, SessionPc.registered]
  | added =>
    simp only [Process.advance, hpc, Option.some.injEq] at hstep
    subst hstep
    refine h.move (p := .inited) hsessions ?_ ?_ ?_ ?_
      (h.mem_registry_iff hsessions (by rw [hpc]; rfl))
      (h.loopRunErrors_eq hsessions (by rw [hpc]; rfl))
    all_goals simp only [Process.setThread, Function.update_self, sessions_session]
    · rw [hlocals]
      simp [expected, hpc]
    · exact hshaped
  | inited =>
    simp only [Process.advance, hpc] at hstep
    cases hstep
  | ran failed stripped =>
    simp only [Process.advance, hpc, Option.some.injEq] at hstep
    have hown : (s.threads th).locals.metrics = σ.own th stripped := by
      rw [hlocals]
      simp [expected, hpc]
    have hthreads : u.threads th = { s.threads th with
        locals := (s.threads th).locals.settle σ.kind
        stack := .session { σ with pc := .settled failed stripped } :: rest } := by
      rw [← hstep]
      cases failed <;> simp [Process.setThread]
    refine h.move (p := .settled failed stripped) hsessions ?_ ?_ ?_ ?_ (fun k => ?_) (fun k => ?_)
    · rw [hthreads, sessions_session]
    · rw [hthreads]
    · rw [hthreads, hlocals]
      cases σ.kind <;> simp [expected, hpc, Locals.settle, Session.own, Session.ownPool]
    · rw [hthreads]
      exact hshaped
    · rw [← h.mem_registry_iff (p := .settled failed stripped) hsessions (by rw [hpc]; rfl),
        ← hstep]
      cases failed <;> simp [Process.setThread]
    · have hzero : s.loopRunErrors (th, σ.serial) = 0 := by
        rw [h.errors σ (by rw [hsessions]; exact List.mem_cons_self), hpc]
        rfl
      rw [← hstep, hown]
      by_cases hk : k = σ.serial <;> cases failed <;> cases stripped <;>
        simp [hk, hzero, Session.own, Process.countRunError, Process.setThread, SessionPc.counted]
  | settled failed stripped =>
    simp only [Process.advance, hpc, Option.some.injEq] at hstep
    subst hstep
    refine h.move (p := .removed failed stripped) hsessions ?_ ?_ ?_ ?_ (fun k => ?_)
      (h.loopRunErrors_eq hsessions (by rw [hpc]; cases failed <;> cases stripped <;> rfl))
    all_goals simp only [Process.setThread, Function.update_self, sessions_session]
    · rw [hlocals]
      simp [expected, hpc, Session.own, Session.ownPool]
    · exact hshaped
    · by_cases hk : k = σ.serial <;> simp [hk, SessionPc.registered]
  | removed failed stripped =>
    simp only [Process.advance, hpc, Option.some.injEq] at hstep
    subst hstep
    obtain ⟨hcall, hkind, hshaped⟩ := hshaped
    have hnodup := h.nodup
    have hbound := h.bound
    have hregistry := h.registry
    have herrors := h.errors
    rw [hsessions] at hnodup hbound hregistry herrors
    constructor
    all_goals simp only [Process.setThread, Function.update_self, sessions_afterSession]
    · rw [expected_afterSession th hcall]
      cases hk : σ.kind with
      | worker => rfl
      | blockOn =>
        rw [hlocals]
        simp [expected, hpc, hk, Locals.leave, Locals.null]
    · exact hshaped.afterSession
    · exact (List.nodup_cons.mp hnodup).2
    · exact fun σ' hσ' => hbound σ' (List.mem_cons_of_mem _ hσ')
    · intro k
      rw [hregistry]
      simp [hpc, SessionPc.registered]
    · exact fun σ' hσ' => herrors σ' (List.mem_cons_of_mem _ hσ')
    · exact h.unused

def ContextOp.thread : ContextOp → ℕ
  | .enter th _ _ | .advance th | .run th _ | .returns th _ => th

theorem Ok.step (h : Ok s op.thread) (hstep : s.step op = some u) : Ok u op.thread := by
  cases op with
  | enter th kind pool =>
    simp only [Process.step] at hstep
    split_ifs at hstep with hc
    cases hstep
    exact h.enter kind pool hc.1 hc.2
  | advance th =>
    simp only [Process.step] at hstep
    split at hstep
    case h_1 σ rest hstack => exact h.advance hstack hstep
    case h_2 => cases hstep
  | run th loop =>
    simp only [Process.step] at hstep
    split_ifs at hstep with hc
    cases hstep
    exact h.run loop hc
  | returns th failed =>
    simp only [Process.step] at hstep
    split at hstep
    case h_1 r rest hstack =>
      cases hstep
      exact h.returns failed hstack
    case h_2 => cases hstep

theorem setThread_or_advance (hstep : s.step op = some u) :
    (∃ t, u = s.setThread op.thread t) ∨
      ∃ σ rest, (s.threads op.thread).stack = .session σ :: rest ∧
        s.advance op.thread (s.threads op.thread) σ rest = some u := by
  cases op with
  | enter th kind pool =>
    simp only [Process.step] at hstep
    split_ifs at hstep
    exact Or.inl ⟨_, (Option.some.inj hstep).symm⟩
  | advance th =>
    simp only [Process.step] at hstep
    split at hstep
    case h_1 σ rest hstack => exact Or.inr ⟨σ, rest, hstack, hstep⟩
    case h_2 => cases hstep
  | run th loop =>
    simp only [Process.step] at hstep
    split_ifs at hstep
    exact Or.inl ⟨_, (Option.some.inj hstep).symm⟩
  | returns th failed =>
    simp only [Process.step] at hstep
    split at hstep
    · exact Or.inl ⟨_, (Option.some.inj hstep).symm⟩
    · cases hstep

structure Beside (th : ℕ) (s u : Process) : Prop where
  thread : u.threads th = s.threads th
  registry : ∀ k, (th, k) ∈ u.registry ↔ (th, k) ∈ s.registry
  errors : ∀ k, u.loopRunErrors (th, k) = s.loopRunErrors (th, k)

theorem beside_setThread {th' : ℕ} (hne : th' ≠ th) (s : Process) (t : ThreadState) :
    Beside th' s (s.setThread th t) :=
  ⟨Function.update_of_ne hne .., fun _ => Iff.rfl, fun _ => rfl⟩

theorem beside_advance {th' : ℕ} (hne : th' ≠ th) (h : Ok s th)
    (hstack : (s.threads th).stack = .session σ :: rest)
    (hstep : s.advance th (s.threads th) σ rest = some u) : Beside th' s u := by
  cases hpc : σ.pc with
  | entered =>
    simp only [Process.advance, hpc, Option.some.injEq] at hstep
    subst hstep
    exact ⟨Function.update_of_ne hne .., fun k => by simp [hne], fun _ => rfl⟩
  | added =>
    simp only [Process.advance, hpc, Option.some.injEq] at hstep
    exact hstep ▸ beside_setThread hne s _
  | inited =>
    simp only [Process.advance, hpc] at hstep
    cases hstep
  | ran failed stripped =>
    simp only [Process.advance, hpc, Option.some.injEq] at hstep
    have hown : (s.threads th).locals.metrics = σ.own th stripped := by
      rw [h.locals, hstack]
      simp [expected, hpc]
    rw [hown] at hstep
    subst hstep
    refine ⟨?_, fun k => ?_, fun k => ?_⟩
    · cases failed <;> simp [Process.setThread, hne]
    · cases failed <;> simp [Process.setThread]
    · cases failed <;> cases stripped <;>
        simp [Process.setThread, Process.countRunError, Session.own, hne]
  | settled failed stripped =>
    simp only [Process.advance, hpc, Option.some.injEq] at hstep
    subst hstep
    exact ⟨Function.update_of_ne hne .., fun k => by simp [hne], fun _ => rfl⟩
  | removed failed stripped =>
    simp only [Process.advance, hpc, Option.some.injEq] at hstep
    exact hstep ▸ beside_setThread hne s _

theorem beside_step {th' : ℕ} (hne : th' ≠ op.thread) (h : Ok s op.thread)
    (hstep : s.step op = some u) : Beside th' s u := by
  obtain ⟨t, rfl⟩ | ⟨σ, rest, hstack, hadvance⟩ := setThread_or_advance hstep
  · exact beside_setThread hne s t
  · exact beside_advance hne h hstack hadvance

theorem Ok.beside (h : Ok s th) (hb : Beside th s u) : Ok u th := by
  refine h.of_sessions ?_ ?_ ?_ ?_ hb.registry hb.errors
  · rw [hb.thread]
  · rw [hb.thread]
  · rw [hb.thread]
    exact h.locals
  · rw [hb.thread]
    exact h.shaped

theorem mem_sessions {stack : List Scope} : σ ∈ sessions stack ↔ .session σ ∈ stack := by
  rw [sessions, List.mem_filterMap]
  constructor
  · rintro ⟨scope, hmem, hscope⟩
    cases scope with
    | session σ' =>
      cases hscope
      exact hmem
    | run r => cases hscope
  · exact fun hmem => ⟨_, hmem, rfl⟩

theorem registry_nodup_advance (h : Ok s th) (hs : s.registry.Nodup)
    (hstack : (s.threads th).stack = .session σ :: rest)
    (hstep : s.advance th (s.threads th) σ rest = some u) : u.registry.Nodup := by
  have hsessions : sessions (s.threads th).stack = σ :: sessions rest := by
    rw [hstack, sessions_session]
  cases hpc : σ.pc with
  | entered =>
    simp only [Process.advance, hpc, Option.some.injEq] at hstep
    subst hstep
    have hentry := h.mem_registry_iff (p := .entered) hsessions (by rw [hpc]) σ.serial
    rw [if_pos rfl] at hentry
    have hnot : (th, σ.serial) ∉ s.registry := fun hmem => Bool.false_ne_true (hentry.mp hmem)
    exact List.nodup_append.mpr ⟨hs, List.nodup_singleton _, fun m hm m' hm' heq =>
      hnot (List.mem_singleton.mp hm' ▸ heq ▸ hm)⟩
  | added =>
    simp only [Process.advance, hpc, Option.some.injEq] at hstep
    exact hstep ▸ hs
  | inited =>
    simp only [Process.advance, hpc] at hstep
    cases hstep
  | ran failed stripped =>
    simp only [Process.advance, hpc, Option.some.injEq] at hstep
    subst hstep
    cases failed
    · exact hs
    · simpa [Process.setThread] using hs
  | settled failed stripped =>
    simp only [Process.advance, hpc, Option.some.injEq] at hstep
    subst hstep
    exact hs.filter _
  | removed failed stripped =>
    simp only [Process.advance, hpc, Option.some.injEq] at hstep
    exact hstep ▸ hs

theorem registry_nodup_step (h : Ok s op.thread) (hs : s.registry.Nodup)
    (hstep : s.step op = some u) : u.registry.Nodup := by
  obtain ⟨t, rfl⟩ | ⟨σ, rest, hstack, hadvance⟩ := setThread_or_advance hstep
  · exact hs
  · exact registry_nodup_advance h hs hstack hadvance

theorem expected_loop (th : ℕ) (stack : List Scope) :
    (expected th stack).loop = .null ∨
      ∃ r, .run r ∈ stack ∧ (expected th stack).loop = .guarding r.loop := by
  induction stack with
  | nil => exact Or.inl rfl
  | cons scope rest ih =>
    have hrest : (expected th rest).loop = .null ∨
        ∃ r, .run r ∈ scope :: rest ∧ (expected th rest).loop = .guarding r.loop :=
      ih.imp_right fun ⟨r, hr, heq⟩ => ⟨r, List.mem_cons_of_mem _ hr, heq⟩
    cases scope with
    | run r =>
      cases hr : r.cleared with
      | true => exact Or.inl (by simp [expected, hr])
      | false => exact Or.inr ⟨r, List.mem_cons_self, by simp [expected, hr]⟩
    | session σ =>
      cases hpc : σ.pc with
      | entered => simpa [expected, hpc] using hrest
      | added => simpa [expected, hpc] using hrest
      | inited => simpa [expected, hpc] using hrest
      | ran => exact Or.inl (by simp [expected, hpc])
      | settled => exact Or.inl (by simp [expected, hpc])
      | removed => exact Or.inl (by simp [expected, hpc])

theorem Session.own_eq_some {m : MetricsId} {stripped : Bool} (h : σ.own th stripped = some m) :
    m = (th, σ.serial) := by
  cases stripped
  · exact (Option.some.inj h).symm
  · cases h

theorem expected_metrics {stack : List Scope} {m : MetricsId}
    (h : (expected th stack).metrics = some m) :
    ∃ σ, .session σ ∈ stack ∧ m = (th, σ.serial) := by
  induction stack with
  | nil => cases h
  | cons scope rest ih =>
    cases scope with
    | run r =>
      simp only [expected] at h
      split_ifs at h
      obtain ⟨σ, hσ, hm⟩ := ih h
      exact ⟨σ, List.mem_cons_of_mem _ hσ, hm⟩
    | session σ =>
      refine ⟨σ, List.mem_cons_self, ?_⟩
      cases hpc : σ.pc <;> simp only [expected, hpc] at h
      case entered => exact (Option.some.inj h).symm
      case added => exact (Option.some.inj h).symm
      case inited => exact (Option.some.inj h).symm
      all_goals exact Session.own_eq_some h

namespace Process
variable {ops : List ContextOp}

structure Consistent (s : Process) : Prop where
  ok : ∀ th, Ok s th
  nodup : s.registry.Nodup

theorem Consistent.step (hs : Consistent s) (hstep : s.step op = some u) : Consistent u := by
  have hop := hs.ok op.thread
  refine ⟨fun th => ?_, registry_nodup_step hop hs.nodup hstep⟩
  by_cases hth : th = op.thread
  · rw [hth]
    exact hop.step hstep
  · exact (hs.ok th).beside (beside_step hth hop hstep)

theorem init_consistent : Consistent init where
  ok _ := ⟨rfl, trivial, List.nodup_nil, by simp [init, sessions], by simp [init, sessions],
    by simp [init, sessions], fun _ _ => rfl⟩
  nodup := List.nodup_nil

/-- On every thread the pointers are those that its scopes say, whatever other threads do. They
never belong to a call of `run` or to a session that is over; the registry holds the counters of
the sessions between `add` and `remove`, which are alive; and the failure of a loop is counted in
its session's counters unless another session ended on the thread meanwhile. -/
theorem pointers_follow_scopes (h : Reaches ops s) :
    (∀ th, (s.threads th).locals = expected th (s.threads th).stack) ∧
    (∀ th, (s.threads th).locals.loop = .null ∨
      ∃ r, .run r ∈ (s.threads th).stack ∧ (s.threads th).locals.loop = .guarding r.loop) ∧
    (∀ th m, (s.threads th).locals.metrics = some m →
      ∃ σ, .session σ ∈ (s.threads th).stack ∧ m = (th, σ.serial)) ∧
    s.registry.Nodup ∧
    (∀ th k, (th, k) ∈ s.registry ↔
      ∃ σ, .session σ ∈ (s.threads th).stack ∧ σ.serial = k ∧ σ.pc.registered = true) ∧
    ∀ th σ, .session σ ∈ (s.threads th).stack →
      s.loopRunErrors (th, σ.serial) = σ.pc.counted := by
  obtain ⟨hok, hnodup⟩ : Consistent s :=
    Transition.invariant Consistent (fun hstep hs => hs.step hstep) init_consistent h
  refine ⟨fun th => (hok th).locals, fun th => ?_, fun th m hm => ?_, hnodup,
    fun th k => ?_, fun th σ hσ => (hok th).errors σ (mem_sessions.mpr hσ)⟩
  · rw [(hok th).locals]
    exact expected_loop th _
  · rw [(hok th).locals] at hm
    exact expected_metrics hm
  · rw [(hok th).registry]
    simp only [mem_sessions]

def nestedBlockOn : List ContextOp :=
  [.enter 0 .blockOn (some 5), .advance 0, .advance 0, .run 0 1, .enter 0 .blockOn (some 5),
    .advance 0, .advance 0, .run 0 2, .returns 0 true, .advance 0, .advance 0, .advance 0]

/-- The loop around it goes on without its pointers, its counters and its pool. -/
theorem pointers_follow_scopes_of_nested : ∃ s, Reaches nestedBlockOn s ∧
    (s.threads 0).stack = [.run ⟨1, true, true⟩, .session ⟨.blockOn, 0, some 5, .inited⟩] ∧
    (s.threads 0).locals = .null ∧ (0, 0) ∈ s.registry ∧ (0, 1) ∉ s.registry := by
  obtain ⟨s, hs, hstack⟩ : ∃ s, Reaches nestedBlockOn s ∧
      (s.threads 0).stack = [.run ⟨1, true, true⟩, .session ⟨.blockOn, 0, some 5, .inited⟩] :=
    ⟨_, rfl, rfl⟩
  obtain ⟨hlocals, -, -, -, hregistry, -⟩ := pointers_follow_scopes hs
  refine ⟨s, hs, hstack, ?_, ?_, ?_⟩
  · rw [hlocals, hstack]
    rfl
  · rw [hregistry, hstack]
    exact ⟨_, List.mem_cons_of_mem _ List.mem_cons_self, rfl, rfl⟩
  · rw [hregistry, hstack]
    simp

end Process
end RainRuntime.ThreadContext
