import RainRuntime.Contests
import RainRuntime.LoopThread

/-!
# What is seen of the calls

A run of the loop's thread, with a record of what happens at each shared state: who made it,
which strands were spawned for it and in which order they ended, how often its waiter was
notified, and what the caller found when it went on. The record is read off the steps as they
happen and influences none of them.

While a strand sets up its call nobody else runs, so what it spawns belongs to the state made
last.
-/

namespace RainRuntime

/-- `ends` lists the racers that have ended, each with its index and what its await came back
with; `taken` the state as the caller found it, once for each time it went on. -/
structure CallLog where
  caller : Handle
  launched : ℕ
  ends : List (ℕ × Result ℕ)
  notified : ℕ
  taken : List Shared

/-- `role` is the call a strand was spawned for and its index there, `back` what the outermost
await of a strand came back with. -/
structure Ledger where
  calls : ℕ → CallLog
  role : Handle → Option (ℕ × ℕ)
  back : Handle → Option (Result ℕ)

namespace Ledger

def edit (l : Ledger) (state : ℕ) (f : CallLog → CallLog) : Ledger :=
  { l with calls := Function.update l.calls state (f (l.calls state)) }

def opens (l : Ledger) (state : ℕ) (h : Handle) : Ledger := l.edit state fun _ => ⟨h, 0, [], 0, []⟩

def launches (l : Ledger) (state : ℕ) (h : Handle) : Ledger :=
  { l.edit state fun c => { c with launched := c.launched + 1 } with
    role := Function.update l.role h (some (state, (l.calls state).launched)) }

def comesBack (l : Ledger) (h : Handle) (r : Option (Result ℕ)) : Ledger :=
  { l with back := Function.update l.back h r }

def ends (l : Ledger) (state idx : ℕ) (h : Handle) (u : Update) : Ledger :=
  l.edit state fun c =>
    { c with
      ends := c.ends ++ ((l.back h).map fun r => (idx, r)).toList
      notified := c.notified + (u.notifies && u.state.waiter.isSome).toNat }

def goesOn (l : Ledger) (state : ℕ) (s : Shared) : Ledger :=
  l.edit state fun c => { c with taken := c.taken ++ [s] }

end Ledger

def TaskType.result? : (τ : TaskType) → τ.Value → Option (Result ℕ)
  | .result, r => some r
  | _, _ => none

def Callers.isBottom {τ : TaskType} : Callers τ → Bool
  | .bottom => true
  | .cons _ _ _ => false

def Callers.isOutermost {τ : TaskType} : Callers τ → Bool
  | .bottom => false
  | .cons _ _ rest => rest.isBottom

namespace Ledger

def seesRun (l : Ledger) (s t : TaskLoop) (h : Handle) {τ : TaskType} (callers : Callers τ) :
    Program τ → Ledger
  | .ret v => if callers.isOutermost then l.comesBack h (τ.result? v) else l
  | .wait _ _ _ =>
    if callers.isBottom && !t.world.isWaiting h then l.comesBack h (t.world.outcome h) else l
  | .makeState _ _ => l.opens s.states h
  | .spawn _ _ _ => l.launches (s.states - 1) s.strands
  | .update state f _ =>
    match l.role h with
    | some (i, idx) => if i = state then l.ends state idx h (f (s.shared state)) else l
    | none => l
  | .awaitState state ready _ =>
    if ready (s.shared state) then l.goesOn state (s.shared state) else l
  | _ => l

def seesResume (l : Ledger) (s t : TaskLoop) (h : Handle) (st : Strand) : Ledger :=
  match st.place with
  | .leaf _ => if st.callers.isBottom then l.comesBack h (t.world.outcome h) else l
  | .parked state _ => l.goesOn state (s.shared state)
  | .body _ => l

def sees (l : Ledger) (s t : TaskLoop) : TaskLoopOp → Ledger
  | .run h _ _ _ =>
    match s.strand h with
    | some ⟨_, _, .body p, callers, _⟩ => l.seesRun s t h callers p
    | _ => l
  | .resume _ =>
    match s.world.ready with
    | [] => l
    | h :: _ =>
      match s.strand h with
      | some st => l.seesResume s t h st
      | none => l
  | _ => l

/-! ### What a step adds to the record of a call -/

section Grow
variable {l : Ledger} {s t : TaskLoop} {i : ℕ}

theorem edit_rel {R : CallLog → CallLog → Prop} (hrefl : ∀ c, R c c) {state : ℕ}
    {f : CallLog → CallLog} (hf : ∀ c, R c (f c)) : R (l.calls i) ((l.edit state f).calls i) := by
  rw [edit]
  by_cases hi : i = state
  · rw [hi]
    dsimp only
    rw [Function.update_self]
    exact hf _
  · dsimp only
    rw [Function.update_of_ne hi]
    exact hrefl _

structure Grow (R : CallLog → CallLog → Prop) : Prop where
  refl : ∀ c, R c c
  launch : ∀ c, R c { c with launched := c.launched + 1 }
  ends : ∀ c es n, R c { c with ends := c.ends ++ es, notified := c.notified + n }

theorem Grow.seesRun {R : CallLog → CallLog → Prop} (hR : Grow R) (hi : i < s.states) (h : Handle)
    {τ : TaskType} (callers : Callers τ) (p : Program τ)
    (hgo : (∀ c x, R c { c with taken := c.taken ++ [x] }) ∨
      ∀ state ready next, p ≠ .awaitState state ready next) :
    R (l.calls i) ((l.seesRun s t h callers p).calls i) := by
  cases p with
  | ret v =>
    rw [Ledger.seesRun]
    split_ifs <;> exact hR.refl _
  | wait kind fd next =>
    rw [Ledger.seesRun]
    split_ifs <;> exact hR.refl _
  | makeState init next =>
    have hsame : (l.opens s.states h).calls i = l.calls i :=
      Function.update_of_ne (Nat.ne_of_lt hi) _ _
    rw [Ledger.seesRun, hsame]
    exact hR.refl _
  | spawn task own next =>
    exact edit_rel hR.refl (f := fun c => { c with launched := c.launched + 1 }) hR.launch
  | update state f next =>
    rw [Ledger.seesRun]
    split
    · split_ifs
      · exact edit_rel hR.refl fun c => hR.ends c _ _
      · exact hR.refl _
    · exact hR.refl _
  | awaitState state ready next =>
    rw [Ledger.seesRun]
    split_ifs
    · exact edit_rel hR.refl fun c => (hgo.resolve_right fun hne => hne _ _ _ rfl) c _
    · exact hR.refl _
  | _ => exact hR.refl _

end Grow

def Extends (c c' : CallLog) : Prop := c'.caller = c.caller ∧ c.ends <+: c'.ends

theorem Extends.refl (c : CallLog) : Extends c c := ⟨rfl, List.prefix_refl _⟩

theorem extends_grow : Grow Extends where
  refl := Extends.refl
  launch _ := ⟨rfl, List.prefix_refl _⟩
  ends _ _ _ := ⟨rfl, List.prefix_append _ _⟩

theorem sees_extends (l : Ledger) (s t : TaskLoop) (op : TaskLoopOp) {i : ℕ} (hi : i < s.states) :
    Extends (l.calls i) ((l.sees s t op).calls i) := by
  have htaken : ∀ (c : CallLog) (x : Shared), Extends c { c with taken := c.taken ++ [x] } :=
    fun _ _ => ⟨rfl, List.prefix_refl _⟩
  cases op with
  | run h sys clock order =>
    rw [Ledger.sees]
    split
    · exact extends_grow.seesRun hi h _ _ (Or.inl htaken)
    · exact Extends.refl _
  | resume sys =>
    rw [Ledger.sees]
    split
    · exact Extends.refl _
    · split
      · rw [Ledger.seesResume]
        split
        · split_ifs <;> exact Extends.refl _
        · exact edit_rel Extends.refl fun c => htaken c _
        · exact Extends.refl _
      · exact Extends.refl _
  | _ => exact Extends.refl _

def blank : Ledger := ⟨fun _ => ⟨0, 0, [], 0, []⟩, fun _ => none, fun _ => none⟩

end Ledger

structure Recorded where
  loop : TaskLoop
  ledger : Ledger

namespace Recorded

def step (r : Recorded) (op : TaskLoopOp) : Option Recorded :=
  (r.loop.turn op).map fun t => ⟨t, r.ledger.sees r.loop t op⟩

def create (outer : ℕ) (now : ℤ) (m : Heap) (k : Kernel) : Recorded :=
  ⟨TaskLoop.create outer now m k, .blank⟩

def Reaches (outer : ℕ) (now : ℤ) (m : Heap) (k : Kernel) (ops : List TaskLoopOp)
    (r : Recorded) : Prop :=
  Transition.run step (create outer now m k) ops = some r

def Enters (r : Recorded) (h : Handle) {τ : TaskType} (p : Program τ) : Prop :=
  r.loop.world.isRunning h = true ∧ ∃ token callers spawner,
    r.loop.strand h = some ⟨τ, token, .body p, callers, spawner⟩

end Recorded
end RainRuntime
