import RainRuntime.Transition

/-!
# A queue with a doorbell

Producers push under a lock and ring a bell afterwards; one consumer drains the queue and
resets the bell under the same lock. The bell is edge-triggered: it keeps a counter, and a
waiting consumer is woken by an edge that it has not seen yet. The consumer may see the
edge long before it drains, so what it must not do is wait with an edge spent and
something queued. `Sound` says when that cannot happen, whatever the order of pushes,
rings, wake-ups and drains.
-/

/-- `halfway` are the elements whose producers have pushed and not yet rung; `awake` is the
consumer between a wake-up and the drain that follows. -/
structure Doorbell (α : Type*) where
  queue : List α
  halfway : List α
  counter : ℕ
  edge : Bool
  awake : Bool
  pushed : List α
  taken : List α

inductive DoorbellOp (α : Type*) where
  | push (a : α)
  | write (a : α)
  | ring
  | wake (seen : Bool)
  | drain

namespace Doorbell
variable {α : Type*}

def chime (full : ℕ) (s : Doorbell α) : Doorbell α :=
  if s.counter < full then { s with counter := s.counter + 1, edge := true } else s

def step [DecidableEq α] (full : ℕ) (s : Doorbell α) : DoorbellOp α → Option (Doorbell α)
  | .push a => some { s with
      queue := s.queue ++ [a]
      halfway := s.halfway ++ [a]
      pushed := s.pushed ++ [a] }
  | .write a =>
    if a ∈ s.halfway then some (chime full { s with halfway := s.halfway.erase a }) else none
  | .ring => some (s.chime full)
  | .wake seen => some { s with edge := s.edge && !seen, awake := true }
  | .drain => some { s with
      queue := []
      counter := 0
      awake := false
      taken := s.taken ++ s.queue }

structure Sound (s : Doorbell α) : Prop where
  order : s.pushed = s.taken ++ s.queue
  rung : s.queue ≠ [] → s.halfway = [] → 0 < s.counter
  unseen : s.awake = false → 0 < s.counter → s.edge = true

theorem Sound.chime {full : ℕ} (hfull : 0 < full) {s : Doorbell α} (horder : s.pushed =
    s.taken ++ s.queue) (hunseen : s.awake = false → 0 < s.counter → s.edge = true) :
    Sound (s.chime full) := by
  unfold Doorbell.chime
  split_ifs with hlt
  · exact ⟨horder, fun _ _ => Nat.succ_pos _, fun _ _ => rfl⟩
  · exact ⟨horder, fun _ _ => by omega, hunseen⟩

theorem Sound.step [DecidableEq α] {full : ℕ} (hfull : 0 < full) {s t : Doorbell α}
    {op : DoorbellOp α} (hstep : s.step full op = some t) (hs : Sound s) : Sound t := by
  cases op with
  | push a =>
    rw [Doorbell.step, Option.some.injEq] at hstep
    subst hstep
    refine ⟨?_, fun _ hnil => ?_, hs.unseen⟩
    · simp [hs.order]
    · simp at hnil
  | write a =>
    simp only [Doorbell.step] at hstep
    split_ifs at hstep
    rw [Option.some.injEq] at hstep
    subst hstep
    exact Sound.chime hfull hs.order hs.unseen
  | ring =>
    rw [Doorbell.step, Option.some.injEq] at hstep
    subst hstep
    exact Sound.chime hfull hs.order hs.unseen
  | wake seen =>
    rw [Doorbell.step, Option.some.injEq] at hstep
    subst hstep
    exact ⟨hs.order, hs.rung, by simp⟩
  | drain =>
    rw [Doorbell.step, Option.some.injEq] at hstep
    subst hstep
    exact ⟨by simp [hs.order], by simp, by simp⟩

def silent : Doorbell α := ⟨[], [], 0, false, false, [], []⟩

theorem sound_of_run [DecidableEq α] {full : ℕ} (hfull : 0 < full) {s : Doorbell α}
    {ops : List (DoorbellOp α)} (hr : Transition.run (step full) silent ops = some s) : Sound s :=
  Transition.invariant Sound (fun hstep hs => hs.step hfull hstep)
    ⟨rfl, by simp [silent], by simp [silent]⟩ hr

end Doorbell
