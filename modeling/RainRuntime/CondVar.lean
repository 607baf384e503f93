import Mathlib.Data.List.Basic

/-!
# Condition variables

A condition variable is used under a mutex, so its operations are atomic. A thread that
waits joins the wait set. It leaves the set when it is notified, or on its own: by a
timeout or for no reason. In both cases it still has to get the mutex back and to look at
its predicate again before its wait is over.

The counting rule: let `demand` be the number of threads whose predicate could be
satisfied at once. No wake-up is lost if, while somebody waits, at least `demand` threads
have been notified and not yet run. `Covered` is this rule, for waits that take place
only while `ok` holds, with one lemma for each operation.
-/

/-- `stirred` are the threads that left the wait set without being notified. -/
structure CondVar (α : Type*) where
  waiting : List α
  notified : List α
  stirred : List α

namespace CondVar
variable {α : Type*}

def idle : CondVar α := ⟨[], [], []⟩

def wait (cv : CondVar α) (a : α) : CondVar α := { cv with waiting := cv.waiting ++ [a] }

def notifyOne [DecidableEq α] (cv : CondVar α) : Option α → Option (CondVar α)
  | none => if cv.waiting = [] then some cv else none
  | some a =>
    if a ∈ cv.waiting then
      some { cv with waiting := cv.waiting.erase a, notified := cv.notified ++ [a] }
    else none

def notifyAll (cv : CondVar α) : CondVar α :=
  { cv with waiting := [], notified := cv.notified ++ cv.waiting }

def stir [DecidableEq α] (cv : CondVar α) (a : α) : Option (CondVar α) :=
  if a ∈ cv.waiting then
    some { cv with waiting := cv.waiting.erase a, stirred := cv.stirred ++ [a] }
  else none

def leave [DecidableEq α] (cv : CondVar α) (a : α) : Option (CondVar α) :=
  if a ∈ cv.notified then some { cv with notified := cv.notified.erase a }
  else if a ∈ cv.stirred then some { cv with stirred := cv.stirred.erase a }
  else none

def Covered (ok : Prop) (demand : ℕ) (cv : CondVar α) : Prop :=
  cv.waiting ≠ [] → ok ∧ demand ≤ cv.notified.length

variable {ok : Prop} {demand : ℕ} {cv cv' : CondVar α}

theorem covered_idle : Covered ok demand (idle : CondVar α) := fun h => absurd rfl h

theorem Covered.mono (h : Covered ok demand cv) {less : ℕ} (hle : less ≤ demand) :
    Covered ok less cv := by
  intro hne
  obtain ⟨hok, hcover⟩ := h hne
  exact ⟨hok, Nat.le_trans hle hcover⟩

theorem Covered.of_not (h : Covered ok demand cv) (hok : ¬ok) {ok' : Prop} {any : ℕ} :
    Covered ok' any cv :=
  fun hne => absurd (h hne).1 hok

/-- A thread waits because its predicate is false, that is when there is no demand. -/
theorem covered_wait (hok : ok) (a : α) : Covered ok 0 (cv.wait a) :=
  fun _ => ⟨hok, Nat.zero_le _⟩

theorem covered_notifyAll : Covered ok demand cv.notifyAll := fun hne => absurd rfl hne

section Moves
variable [DecidableEq α]

theorem ne_nil_of_erase {l : List α} {a : α} (h : l.erase a ≠ []) : l ≠ [] := by
  rintro rfl
  exact h rfl

theorem Covered.notifyOne (h : Covered ok demand cv) {w : Option α}
    (hw : cv.notifyOne w = some cv') : Covered ok (demand + 1) cv' := by
  cases w with
  | none =>
    simp only [CondVar.notifyOne] at hw
    split_ifs at hw with hnil
    obtain rfl := Option.some.inj hw
    exact fun hne => absurd hnil hne
  | some a =>
    simp only [CondVar.notifyOne] at hw
    split_ifs at hw
    obtain rfl := Option.some.inj hw
    intro hne
    obtain ⟨hok, hcover⟩ := h (ne_nil_of_erase hne)
    refine ⟨hok, ?_⟩
    rw [List.length_append, List.length_singleton]
    exact Nat.succ_le_succ hcover

theorem Covered.stir (h : Covered ok demand cv) {a : α} (ha : cv.stir a = some cv') :
    Covered ok demand cv' := by
  simp only [CondVar.stir] at ha
  split_ifs at ha
  obtain rfl := Option.some.inj ha
  exact fun hne => h (ne_nil_of_erase hne)

theorem Covered.leave (h : Covered ok demand cv) {a : α} (ha : cv.leave a = some cv') :
    Covered ok (demand - 1) cv' := by
  simp only [CondVar.leave] at ha
  split_ifs at ha with hnotified hstirred
  · obtain rfl := Option.some.inj ha
    intro hne
    obtain ⟨hok, hcover⟩ := h hne
    refine ⟨hok, ?_⟩
    rw [List.length_erase_of_mem hnotified]
    exact Nat.sub_le_sub_right hcover 1
  · obtain rfl := Option.some.inj ha
    exact h.mono (Nat.sub_le _ _)

end Moves
end CondVar
