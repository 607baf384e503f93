import Mathlib.Data.Finset.SDiff
import Mathlib.Data.Finset.Insert
import RainRuntime.Transition
import RainRuntime.Types

/-!
# Signal sets and the mask of their thread

A `SignalSet` blocks its signals in the thread that creates it and keeps the whole mask
from before; closing it sets the thread's mask back to that copy. This is right as long as
sets are closed in the reverse order of their creation. A set that is closed earlier takes
the signals of the newer ones out of the mask, and the newer ones put its own signals back
when they are closed. `add_signals` on a loop that has a set already creates the new set
first and then destroys the old one, so the signals it has just blocked are unblocked.

The masks of a thread are sets of signal numbers. The kernel takes `SIGKILL` and `SIGSTOP` out
of every mask without an error, and so does `pthread_sigmask` with the two numbers the C library
keeps for itself, which `sigaddset` refuses. `order` records the open sets, newest first, and
`given` the numbers that a set was created with; no step reads them.
-/

namespace RainRuntime

structure SignalSet where
  mask : Finset ℤ
  oldMask : Finset ℤ
  given : List ℤ

/-- Who holds a set: an object of the program's own, or the `signals_` of a loop. -/
inductive SetOwner where
  | object (n : ℕ)
  | loop (n : ℕ)
  deriving DecidableEq

structure SignalThread where
  blocked : Finset ℤ
  /-- The open sets. One that was closed has no fd and is not there. -/
  sets : SetOwner → Option SignalSet
  order : List SetOwner

/-- `fdOk` is whether `signalfd` succeeds. -/
inductive SignalOp where
  | create (n : ℕ) (signals : List ℤ) (fdOk : Bool)
  | close (o : SetOwner)
  | addSignals (l : ℕ) (signals : List ℤ) (fdOk : Bool)

def unblockable : Finset ℤ := {9, 19, 32, 33}

/-- Other numbers are refused, and `create` ignores the refusal. -/
def sigaddset (mask : Finset ℤ) (sig : ℤ) : Finset ℤ :=
  if 1 ≤ sig ∧ sig ≤ 64 ∧ sig ≠ 32 ∧ sig ≠ 33 then insert sig mask else mask

namespace SignalThread

def sigBlock (s : SignalThread) (mask : Finset ℤ) : SignalThread :=
  { s with blocked := s.blocked ∪ (mask \ unblockable) }

def sigSetMask (s : SignalThread) (mask : Finset ℤ) : SignalThread :=
  { s with blocked := mask \ unblockable }

def createSet (s : SignalThread) (signals : List ℤ) (fdOk : Bool) :
    Option SignalSet × SignalThread :=
  let mask := signals.foldl sigaddset ∅
  let oldMask := s.blocked
  let s := s.sigBlock mask
  if fdOk then (some ⟨mask, oldMask, signals⟩, s) else (none, s.sigSetMask oldMask)

def closeSet (s : SignalThread) (o : SetOwner) : SignalThread :=
  match s.sets o with
  | none => s
  | some set =>
    { s with
      sets := Function.update s.sets o none
      order := s.order.erase o }.sigSetMask set.oldMask

def hold (s : SignalThread) (o : SetOwner) (set : SignalSet) : SignalThread :=
  { s with sets := Function.update s.sets o (some set), order := o :: s.order }

def step (s : SignalThread) : SignalOp → Option SignalThread
  | .create n signals fdOk =>
    match s.sets (.object n) with
    | some _ => none
    | none =>
      match s.createSet signals fdOk with
      | (none, s) => some s
      | (some set, s) => some (s.hold (.object n) set)
  | .close o => some (s.closeSet o)
  | .addSignals l signals fdOk =>
    match s.createSet signals fdOk with
    | (none, s) => some s
    -- `emplace` destroys the set of the loop before it takes the new one
    | (some set, s) => some ((s.closeSet (.loop l)).hold (.loop l) set)

def start (mask : Finset ℤ) : SignalThread := ⟨mask \ unblockable, fun _ => none, []⟩

/-- The mask is that of the start with the signals that the open sets were created with. -/
def Disciplined (mask : Finset ℤ) (s : SignalThread) : Prop :=
  ∀ sig, sig ∈ s.blocked ↔
    sig ∈ (start mask).blocked ∨ ∃ o set, s.sets o = some set ∧ sig ∈ set.given

def Blockable (signals : List ℤ) : Prop :=
  ∀ sig ∈ signals, 1 ≤ sig ∧ sig ≤ 64 ∧ sig ∉ unblockable

/-- Signals that can be blocked; sets are closed newest first; a loop gets one set. -/
def InOrder (s : SignalThread) : SignalOp → Prop
  | .create _ signals _ => Blockable signals
  | .close o => s.order.head? = some o ∨ s.sets o = none
  | .addSignals l signals _ => Blockable signals ∧ s.sets (.loop l) = none

/-! ## The sets as a stack -/

/-- Every open set keeps the mask that the sets below it made. -/
def Stacked (base : Finset ℤ) (sets : SetOwner → Option SignalSet) :
    List SetOwner → Finset ℤ → Prop
  | [], blocked => blocked = base
  | o :: rest, blocked =>
    ∃ set, sets o = some set ∧ blocked = set.oldMask ∪ set.mask ∧
      Stacked base sets rest set.oldMask

structure Inv (mask : Finset ℤ) (s : SignalThread) : Prop where
  stacked : Stacked (start mask).blocked s.sets s.order s.blocked
  open_iff : ∀ o, s.sets o ≠ none ↔ o ∈ s.order
  nodup : s.order.Nodup
  blockable : Disjoint s.blocked unblockable
  saved : ∀ o set, s.sets o = some set → Disjoint set.oldMask unblockable
  given : ∀ o set, s.sets o = some set → ∀ sig, sig ∈ set.mask ↔ sig ∈ set.given

variable {mask base blocked : Finset ℤ} {s t : SignalThread} {o : SetOwner}
  {sets sets' : SetOwner → Option SignalSet} {order : List SetOwner}

theorem Stacked.congr (h : Stacked base sets order blocked)
    (hsets : ∀ o ∈ order, sets' o = sets o) : Stacked base sets' order blocked := by
  induction order generalizing blocked with
  | nil => exact h
  | cons o rest ih =>
    obtain ⟨set, hset, hblocked, hrest⟩ := h
    refine ⟨set, (hsets o (List.mem_cons_self ..)).trans hset, hblocked, ih hrest ?_⟩
    intro o' ho'
    exact hsets o' (List.mem_cons_of_mem o ho')

theorem Stacked.mem_iff (h : Stacked base sets order blocked) (sig : ℤ) :
    sig ∈ blocked ↔ sig ∈ base ∨ ∃ o ∈ order, ∃ set, sets o = some set ∧ sig ∈ set.mask := by
  induction order generalizing blocked with
  | nil =>
    rw [show blocked = base from h]
    simp
  | cons o rest ih =>
    obtain ⟨set, hset, hblocked, hrest⟩ := h
    rw [hblocked, Finset.mem_union, ih hrest]
    constructor
    · rintro ((hbase | ⟨o', ho', set', hset', hsig⟩) | hsig)
      · exact Or.inl hbase
      · exact Or.inr ⟨o', List.mem_cons_of_mem o ho', set', hset', hsig⟩
      · exact Or.inr ⟨o, List.mem_cons_self .., set, hset, hsig⟩
    · rintro (hbase | ⟨o', ho', set', hset', hsig⟩)
      · exact Or.inl (Or.inl hbase)
      · rcases List.mem_cons.mp ho' with rfl | ho'
        · rw [hset, Option.some.injEq] at hset'
          rw [hset']
          exact Or.inr hsig
        · exact Or.inl (Or.inr ⟨o', ho', set', hset', hsig⟩)

theorem Inv.disciplined (hs : Inv mask s) : Disciplined mask s := by
  intro sig
  rw [hs.stacked.mem_iff sig]
  refine or_congr Iff.rfl ⟨?_, ?_⟩
  · rintro ⟨o, _, set, hset, hsig⟩
    exact ⟨o, set, hset, (hs.given o set hset sig).mp hsig⟩
  · rintro ⟨o, set, hset, hsig⟩
    refine ⟨o, (hs.open_iff o).mp ?_, set, hset, (hs.given o set hset sig).mpr hsig⟩
    rw [hset]
    exact Option.some_ne_none set

theorem mem_foldl_sigaddset {signals : List ℤ} (h : Blockable signals) {m : Finset ℤ} {n : ℤ} :
    n ∈ signals.foldl sigaddset m ↔ n ∈ m ∨ n ∈ signals := by
  induction signals generalizing m with
  | nil => simp
  | cons sig rest ih =>
    obtain ⟨⟨hlow, hhigh, hun⟩, hrest⟩ := List.forall_mem_cons.mp h
    have hvalid : 1 ≤ sig ∧ sig ≤ 64 ∧ sig ≠ 32 ∧ sig ≠ 33 := by
      simp only [unblockable, Finset.mem_insert, Finset.mem_singleton, not_or] at hun
      exact ⟨hlow, hhigh, hun.2.2⟩
    rw [List.foldl_cons, ih hrest, sigaddset, if_pos hvalid, Finset.mem_insert, List.mem_cons,
      or_comm (a := n = sig), or_assoc]

theorem disjoint_signals {signals : List ℤ} (h : Blockable signals) :
    Disjoint (signals.foldl sigaddset ∅) unblockable := by
  rw [Finset.disjoint_left]
  intro n hn
  exact (h n (((mem_foldl_sigaddset h).mp hn).resolve_left (Finset.notMem_empty n))).2.2

theorem createSet_failed (hs : Disjoint s.blocked unblockable) (signals : List ℤ) :
    s.createSet signals false = (none, s) := by
  have hmask : s.blocked \ unblockable = s.blocked := Finset.sdiff_eq_self_of_disjoint hs
  simp only [createSet, sigBlock, sigSetMask, hmask]
  rfl

theorem Inv.hold (hs : Inv mask s) {signals : List ℤ} (hsignals : Blockable signals)
    (hfree : s.sets o = none) :
    Inv mask ((s.sigBlock (signals.foldl sigaddset ∅)).hold o
      ⟨signals.foldl sigaddset ∅, s.blocked, signals⟩) := by
  have hdisj := disjoint_signals hsignals
  have hmem : ∀ sig, sig ∈ signals.foldl sigaddset ∅ ↔ sig ∈ signals := fun sig =>
    (mem_foldl_sigaddset hsignals).trans (or_iff_right (Finset.notMem_empty sig))
  generalize signals.foldl sigaddset ∅ = m at hdisj hmem
  have hm : m \ unblockable = m := Finset.sdiff_eq_self_of_disjoint hdisj
  have hnot : o ∉ s.order := by
    intro hmem
    exact (hs.open_iff o).mpr hmem hfree
  refine ⟨⟨⟨m, s.blocked, signals⟩, Function.update_self .., ?_, ?_⟩, ?_, ?_, ?_, ?_, ?_⟩
  · change s.blocked ∪ (m \ unblockable) = s.blocked ∪ m
    rw [hm]
  · refine hs.stacked.congr ?_
    intro o' ho'
    refine Function.update_of_ne ?_ _ _
    rintro rfl
    exact hnot ho'
  · intro o'
    change Function.update s.sets o _ o' ≠ none ↔ o' ∈ o :: s.order
    by_cases ho : o' = o
    · rw [ho, Function.update_self]
      exact iff_of_true (Option.some_ne_none _) (List.mem_cons_self ..)
    · rw [Function.update_of_ne ho, List.mem_cons, hs.open_iff o', or_iff_right ho]
  · exact List.nodup_cons.mpr ⟨hnot, hs.nodup⟩
  · change Disjoint (s.blocked ∪ (m \ unblockable)) unblockable
    rw [hm, Finset.disjoint_union_left]
    exact ⟨hs.blockable, hdisj⟩
  · intro o' set hset
    change Function.update s.sets o _ o' = some set at hset
    by_cases ho : o' = o
    · rw [ho, Function.update_self, Option.some.injEq] at hset
      rw [← hset]
      exact hs.blockable
    · rw [Function.update_of_ne ho] at hset
      exact hs.saved o' set hset
  · intro o' set hset
    change Function.update s.sets o _ o' = some set at hset
    by_cases ho : o' = o
    · rw [ho, Function.update_self, Option.some.injEq] at hset
      rw [← hset]
      exact hmem
    · rw [Function.update_of_ne ho] at hset
      exact hs.given o' set hset

theorem Inv.close (hs : Inv mask s) (ho : s.order.head? = some o ∨ s.sets o = none) :
    Inv mask (s.closeSet o) := by
  rw [closeSet]
  cases hset : s.sets o with
  | none => exact hs
  | some set =>
    have hhead := ho.resolve_right (by rw [hset]; exact Option.some_ne_none set)
    obtain ⟨rest, horder⟩ := List.head?_eq_some_iff.mp hhead
    have hold : set.oldMask \ unblockable = set.oldMask :=
      Finset.sdiff_eq_self_of_disjoint (hs.saved o set hset)
    have hstacked := hs.stacked
    have hnodup := hs.nodup
    rw [horder] at hstacked hnodup
    obtain ⟨set', hset', _, hrest⟩ := hstacked
    obtain ⟨hnot, hnodup⟩ := List.nodup_cons.mp hnodup
    rw [hset, Option.some.injEq] at hset'
    subst hset'
    have herase : s.order.erase o = rest := by rw [horder, List.erase_cons_head]
    have hothers : ∀ {o' set''}, Function.update s.sets o none o' = some set'' →
        s.sets o' = some set'' := by
      intro o' set'' hset''
      by_cases hoo : o' = o
      · rw [hoo, Function.update_self] at hset''
        cases hset''
      · rwa [Function.update_of_ne hoo] at hset''
    refine ⟨?_, ?_, ?_, ?_, fun o' set'' h => hs.saved o' set'' (hothers h),
      fun o' set'' h => hs.given o' set'' (hothers h)⟩
    · change Stacked _ (Function.update s.sets o none) (s.order.erase o)
        (set.oldMask \ unblockable)
      rw [herase, hold]
      refine hrest.congr ?_
      intro o' ho'
      refine Function.update_of_ne ?_ _ _
      rintro rfl
      exact hnot ho'
    · intro o'
      change Function.update s.sets o none o' ≠ none ↔ o' ∈ s.order.erase o
      rw [herase]
      by_cases hoo : o' = o
      · rw [hoo, Function.update_self]
        exact iff_of_false (fun h => h rfl) hnot
      · rw [Function.update_of_ne hoo, hs.open_iff o', horder, List.mem_cons, or_iff_right hoo]
    · change (s.order.erase o).Nodup
      rw [herase]
      exact hnodup
    · change Disjoint (set.oldMask \ unblockable) unblockable
      rw [hold]
      exact hs.saved o set hset

theorem Inv.step {op : SignalOp} (hs : Inv mask s) (hop : s.InOrder op)
    (h : s.step op = some t) : Inv mask t := by
  cases op with
  | create n signals fdOk =>
    simp only [SignalThread.step] at h
    cases hfree : s.sets (.object n) with
    | some set =>
      rw [hfree] at h
      cases h
    | none =>
      simp only [hfree] at h
      cases fdOk with
      | false =>
        rw [createSet_failed hs.blockable] at h
        cases h
        exact hs
      | true =>
        cases h
        exact hs.hold hop hfree
  | close o =>
    cases h
    exact hs.close hop
  | addSignals l signals fdOk =>
    simp only [SignalThread.step] at h
    cases fdOk with
    | false =>
      rw [createSet_failed hs.blockable] at h
      cases h
      exact hs
    | true =>
      obtain ⟨hsignals, hfree⟩ := hop
      cases h
      have hclose : (s.sigBlock (signals.foldl sigaddset ∅)).closeSet (.loop l) =
          s.sigBlock (signals.foldl sigaddset ∅) := by
        rw [closeSet]
        change (match s.sets (.loop l) with
          | none => s.sigBlock (signals.foldl sigaddset ∅)
          | some set => _) = _
        rw [hfree]
      have hheld := hs.hold hsignals hfree
      rw [← hclose] at hheld
      exact hheld

theorem inv_start (mask : Finset ℤ) : Inv mask (start mask) where
  stacked := rfl
  open_iff := fun _ => iff_of_false (fun h => h rfl) List.not_mem_nil
  nodup := List.nodup_nil
  blockable := Finset.sdiff_disjoint
  saved := fun _ _ h => by cases h
  given := fun _ _ h => by cases h

/-- If sets are closed newest first and no loop is given a second set, the mask is at every moment
that of the start with the signals of the open sets. -/
theorem mask_follows_open_sets {ops : List SignalOp}
    (hr : Transition.run step (start mask) ops = some s)
    (hops : Transition.Guarded step InOrder (start mask) ops) : Disciplined mask s :=
  (Transition.invariant_of_guarded InOrder (Inv mask) (fun hop hstep hs => hs.step hop hstep)
    (inv_start mask) hops hr).disciplined

def twoLoops : List SignalOp :=
  [.addSignals 0 [10] true, .addSignals 1 [12] true, .close (.loop 1)]

theorem mask_follows_open_sets_on_two_loops : ∃ s,
    Transition.run step (start {1}) twoLoops = some s ∧ s.order = [.loop 0] ∧
    s.blocked = {1, 10} ∧ Disciplined {1} s := by
  have hops : Transition.Guarded step InOrder (start {1}) twoLoops := by
    refine ⟨⟨by simp [Blockable, unblockable], rfl⟩, fun t ht => ?_⟩
    cases ht
    refine ⟨⟨by simp [Blockable, unblockable], rfl⟩, fun t ht => ?_⟩
    cases ht
    exact ⟨Or.inl rfl, fun _ _ => trivial⟩
  exact ⟨_, rfl, rfl, by decide, mask_follows_open_sets rfl hops⟩

/-- A second `add_signals` on a loop leaves its signals unblocked. So does the end of an older loop
to those of a newer one, which then leaves the signals of the older one blocked for good. A number
that `sigaddset` refuses is left out of a set that is created all the same. -/
theorem mask_loses_signals :
    (∃ s, Transition.run step (start ∅) [.addSignals 0 [10] true, .addSignals 0 [12] true] =
        some s ∧
      s.sets (.loop 0) = some ⟨{12}, {10}, [12]⟩ ∧ s.blocked = ∅ ∧ ¬ Disciplined ∅ s) ∧
    (∃ s, Transition.run step (start ∅)
        [.addSignals 0 [10] true, .addSignals 1 [12] true, .close (.loop 0)] = some s ∧
      s.sets (.loop 1) = some ⟨{12}, {10}, [12]⟩ ∧ s.blocked = ∅ ∧ ¬ Disciplined ∅ s) ∧
    (∃ s, Transition.run step (start ∅)
        [.addSignals 0 [10] true, .addSignals 1 [12] true, .close (.loop 0), .close (.loop 1)] =
        some s ∧
      s.order = [] ∧ s.blocked = {10}) ∧
    ∃ s, Transition.run step (start ∅) [.create 0 [34, 32] true] = some s ∧
      s.sets (.object 0) = some ⟨{34}, ∅, [34, 32]⟩ ∧ s.blocked = {34} ∧ ¬ Disciplined ∅ s := by
  refine ⟨⟨_, rfl, rfl, by decide, fun h => ?_⟩, ⟨_, rfl, rfl, by decide, fun h => ?_⟩,
    ⟨_, rfl, by decide, by decide⟩, ⟨_, rfl, rfl, by decide, fun h => ?_⟩⟩
  · exact absurd ((h 12).mpr (Or.inr ⟨.loop 0, _, rfl, by decide⟩)) (by decide)
  · exact absurd ((h 12).mpr (Or.inr ⟨.loop 1, _, rfl, by decide⟩)) (by decide)
  · exact absurd ((h 32).mpr (Or.inr ⟨.object 0, _, rfl, by decide⟩)) (by decide)

end SignalThread
end RainRuntime
