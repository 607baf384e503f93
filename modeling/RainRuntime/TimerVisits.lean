import RainRuntime.TimerClock

/-!
# What a visit does to a timer

A scan comes to the ids of its slot one after the other, and every visit finds the wait states and
the ready list as those before it have left them. The states that the visits of a run find are
listed by `visits`; what happens to a timer is said here of these states, of its wait state and of
`ready_`.
-/

namespace RainRuntime
namespace TimerState
open HierarchicalTimerWheel

section Visit
variable {t u v : TimerState} {e : TimerEntry} {id : TimerId} {ids : List TimerId}

theorem run_ticks (t : TimerState) (n : ℕ) :
    Transition.run step t (List.replicate n .tick) = some (tick^[n] t) := by
  induction n generalizing t with
  | zero => rfl
  | succ n ih =>
    rw [List.replicate_succ, Function.iterate_succ_apply]
    exact Transition.run_cons_eq_some.mpr ⟨t.tick, rfl, ih t.tick⟩

end Visit

section Runs
variable {start : ℤ} {m : Heap} {ops : List TimerOp} {t : TimerState} {e : TimerEntry} {now : ℤ}

end Runs

def allPending : Heap := ⟨fun _ => .pending, fun _ => .ok 0, fun _ => false⟩

end TimerState
end RainRuntime
