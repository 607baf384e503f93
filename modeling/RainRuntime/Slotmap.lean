import Mathlib.Data.List.Basic
import Mathlib.Data.List.Nodup
import Mathlib.Order.Nat

/-!
# Dense slotmaps with generations

A vector of slots, a stack of the free indices and a count of the active slots.
An insertion takes the index on top of the stack, or appends, and raises the
generation of that slot; a key is the pair of the index and the generation. The
fields of `Slotmap` state the representation invariant, so it is discharged once,
where the operations are defined. Seen from outside the structure is a finite map
from keys: `get?_insert` and `get?_erase` say all that callers need.
-/

structure Slot (α : Type*) where
  entry : α
  generation : ℕ
  active : Bool

structure Slotmap (α : Type*) where
  slots : List (Slot α)
  freeIndices : List ℕ
  activeCount : ℕ
  freeIndices_nodup : freeIndices.Nodup
  mem_freeIndices : ∀ i, i ∈ freeIndices ↔ ∃ s, slots[i]? = some s ∧ s.active = false
  activeCount_eq : activeCount = slots.countP Slot.active

namespace Slotmap
variable {α : Type*}

def empty : Slotmap α where
  slots := []
  freeIndices := []
  activeCount := 0
  freeIndices_nodup := List.nodup_nil
  mem_freeIndices := by simp
  activeCount_eq := rfl

def generation (m : Slotmap α) (i : ℕ) : ℕ :=
  match m.slots[i]? with
  | some s => s.generation
  | none => 0

def get? (m : Slotmap α) (i g : ℕ) : Option α :=
  match m.slots[i]? with
  | some s => if s.active = true ∧ s.generation = g then some s.entry else none
  | none => none

def nextIndex (m : Slotmap α) : ℕ := m.freeIndices.head?.getD m.slots.length

def nextGeneration (m : Slotmap α) : ℕ := m.generation m.nextIndex + 1

def store (l : List (Slot α)) (i : ℕ) (s : Slot α) : List (Slot α) :=
  if i < l.length then l.set i s else l ++ [s]

theorem nextIndex_le (m : Slotmap α) : m.nextIndex ≤ m.slots.length := by
  unfold nextIndex
  cases hf : m.freeIndices with
  | nil => simp
  | cons i rest =>
    obtain ⟨s, hs, -⟩ := (m.mem_freeIndices i).mp (by simp [hf])
    simpa using Nat.le_of_lt (List.getElem?_eq_some_iff.mp hs).1

theorem store_get (l : List (Slot α)) {i : ℕ} (hi : i ≤ l.length) (s : Slot α) (j : ℕ) :
    (store l i s)[j]? = if j = i then some s else l[j]? := by
  unfold store
  split_ifs with hl hj hj
  · subst hj; simp [hl]
  · exact List.getElem?_set_ne (Ne.symm hj)
  · have : i = l.length := by omega
    subst hj; subst this; simp
  · have : i = l.length := by omega
    subst this
    rcases Nat.lt_or_gt_of_ne hj with h | h
    · simp [List.getElem?_append_left h]
    · rw [List.getElem?_eq_none (by simp; omega), List.getElem?_eq_none (by omega)]

theorem nextIndex_inactive (m : Slotmap α) {s : Slot α} (hs : m.slots[m.nextIndex]? = some s) :
    s.active = false := by
  unfold nextIndex at hs
  cases hf : m.freeIndices with
  | nil => simp [hf] at hs
  | cons i rest =>
    obtain ⟨t, ht, hta⟩ := (m.mem_freeIndices i).mp (by simp [hf])
    simp only [hf, List.head?_cons, Option.getD_some] at hs
    rw [hs, Option.some.injEq] at ht
    rw [ht]; exact hta

theorem countP_store (m : Slotmap α) (s : Slot α) (hs : s.active = true) :
    (store m.slots m.nextIndex s).countP Slot.active = m.slots.countP Slot.active + 1 := by
  unfold store
  split_ifs with hl
  · rw [List.countP_set hl]
    have hin := m.nextIndex_inactive (List.getElem?_eq_getElem hl)
    simp [hin, hs]
  · simp [List.countP_append, hs]

theorem mem_tail_freeIndices (m : Slotmap α) (i : ℕ) :
    i ∈ m.freeIndices.tail ↔ i ≠ m.nextIndex ∧ ∃ s, m.slots[i]? = some s ∧ s.active = false := by
  have hmem := m.mem_freeIndices i
  have hnd := m.freeIndices_nodup
  unfold nextIndex
  cases hf : m.freeIndices with
  | nil =>
    rw [hf] at hmem
    simp only [List.tail_nil, List.not_mem_nil, List.head?_nil, Option.getD_none, false_iff]
    rintro ⟨_, h⟩
    exact absurd (hmem.mpr h) (by simp)
  | cons j rest =>
    rw [hf] at hmem hnd
    simp only [List.tail_cons, List.head?_cons, Option.getD_some]
    rw [← hmem, List.mem_cons]
    constructor
    · intro h
      exact ⟨fun e => (List.nodup_cons.mp hnd).1 (e ▸ h), Or.inr h⟩
    · rintro ⟨hne, h⟩
      exact h.resolve_left hne

def insert (m : Slotmap α) (mk : ℕ → ℕ → α) : Slotmap α where
  slots := store m.slots m.nextIndex
    ⟨mk m.nextIndex m.nextGeneration, m.nextGeneration, true⟩
  freeIndices := m.freeIndices.tail
  activeCount := m.activeCount + 1
  freeIndices_nodup := m.freeIndices_nodup.tail
  mem_freeIndices := by
    intro i
    rw [m.mem_tail_freeIndices i]
    simp only [store_get _ m.nextIndex_le]
    split_ifs with hi
    · simp [hi]
    · simp [hi]
  activeCount_eq := by rw [countP_store _ _ rfl, m.activeCount_eq]

theorem get?_eq_some {m : Slotmap α} {i g : ℕ} {a : α} :
    m.get? i g = some a ↔
      ∃ s, m.slots[i]? = some s ∧ s.active = true ∧ s.generation = g ∧ s.entry = a := by
  unfold get?
  cases m.slots[i]? with
  | none => simp
  | some s => simp [and_assoc]

theorem countP_deactivate (l : List (Slot α)) {i : ℕ} {s : Slot α} (hs : l[i]? = some s)
    (ha : s.active = true) :
    (l.set i { s with active := false }).countP Slot.active = l.countP Slot.active - 1 := by
  obtain ⟨hi, hsi⟩ := List.getElem?_eq_some_iff.mp hs
  rw [List.countP_set hi, hsi, ha]
  simp

/-- Releases the slot of a key that is in use; any other key changes nothing. -/
def erase (m : Slotmap α) (i g : ℕ) : Slotmap α :=
  match hs : m.slots[i]? with
  | none => m
  | some s =>
    if ha : s.active = true ∧ s.generation = g then
      { slots := m.slots.set i { s with active := false }
        freeIndices := i :: m.freeIndices
        activeCount := m.activeCount - 1
        freeIndices_nodup := by
          refine List.nodup_cons.mpr ⟨fun hi => ?_, m.freeIndices_nodup⟩
          obtain ⟨t, ht, hta⟩ := (m.mem_freeIndices i).mp hi
          rw [hs, Option.some.injEq] at ht
          rw [← ht, ha.1] at hta
          exact absurd hta (by simp)
        mem_freeIndices := by
          intro j
          have hi := (List.getElem?_eq_some_iff.mp hs).1
          rw [List.mem_cons, m.mem_freeIndices j, List.getElem?_set]
          by_cases hj : j = i
          · subst hj; simp [hi]
          · simp [hj, Ne.symm hj]
        activeCount_eq := by rw [countP_deactivate _ hs ha.1, m.activeCount_eq] }
    else m

theorem erase_of_get?_eq_none {m : Slotmap α} {i g : ℕ} (h : m.get? i g = none) :
    m.erase i g = m := by
  unfold get? at h
  unfold erase
  split
  · rfl
  · rename_i s hs
    rw [hs] at h
    split_ifs with ha
    · simp [ha] at h
    · rfl

theorem erase_slots {m : Slotmap α} {i g : ℕ} {s : Slot α} (hs : m.slots[i]? = some s)
    (ha : s.active = true) (hg : s.generation = g) :
    (m.erase i g).slots = m.slots.set i { s with active := false } := by
  unfold erase
  split
  · rename_i hn; rw [hs] at hn; exact absurd hn (by simp)
  · rename_i t ht
    rw [hs, Option.some.injEq] at ht
    subst ht
    rw [dif_pos ⟨ha, hg⟩]

theorem get?_insert (m : Slotmap α) (mk : ℕ → ℕ → α) (i g : ℕ) :
    (m.insert mk).get? i g =
      if i = m.nextIndex ∧ g = m.nextGeneration then some (mk i g) else m.get? i g := by
  simp only [get?, insert, store_get _ m.nextIndex_le]
  by_cases hi : i = m.nextIndex
  · subst hi
    simp only [↓reduceIte, true_and]
    by_cases hg : g = m.nextGeneration
    · simp [hg]
    · rw [if_neg (Ne.symm hg), if_neg hg]
      cases hs : m.slots[m.nextIndex]? with
      | none => rfl
      | some s => simp [m.nextIndex_inactive hs]
  · simp [hi]

theorem get?_erase (m : Slotmap α) (i g j h : ℕ) :
    (m.erase i g).get? j h = if j = i ∧ h = g then none else m.get? j h := by
  cases hk : m.get? i g with
  | none =>
    rw [erase_of_get?_eq_none hk]
    split_ifs with he
    · rw [he.1, he.2, hk]
    · rfl
  | some a =>
    obtain ⟨s, hs, ha, hg, -⟩ := get?_eq_some.mp hk
    have hi := (List.getElem?_eq_some_iff.mp hs).1
    simp only [get?, erase_slots hs ha hg, List.getElem?_set]
    by_cases hj : j = i
    · subst hj
      simp only [hi, hs, ↓reduceIte, true_and, hg, ha, Bool.false_eq_true, false_and]
      split_ifs with h1 h2
      · rfl
      · exact absurd h2.symm h1
      · rfl
    · simp [hj, Ne.symm hj]

theorem generation_insert (m : Slotmap α) (mk : ℕ → ℕ → α) (i : ℕ) :
    (m.insert mk).generation i =
      if i = m.nextIndex then m.nextGeneration else m.generation i := by
  simp only [generation, insert, store_get _ m.nextIndex_le]
  split_ifs <;> rfl

theorem generation_erase (m : Slotmap α) (i g j : ℕ) :
    (m.erase i g).generation j = m.generation j := by
  cases hk : m.get? i g with
  | none => rw [erase_of_get?_eq_none hk]
  | some a =>
    obtain ⟨s, hs, ha, hg, -⟩ := get?_eq_some.mp hk
    have hi := (List.getElem?_eq_some_iff.mp hs).1
    simp only [generation, erase_slots hs ha hg, List.getElem?_set]
    by_cases hj : j = i
    · subst hj; simp only [↓reduceIte, hi, hs]
    · simp [Ne.symm hj]

theorem length_insert (m : Slotmap α) (mk : ℕ → ℕ → α) :
    m.slots.length ≤ (m.insert mk).slots.length := by
  simp only [insert, store]
  split_ifs <;> simp

theorem nextIndex_lt_length_insert (m : Slotmap α) (mk : ℕ → ℕ → α) :
    m.nextIndex < (m.insert mk).slots.length := by
  have hle := m.nextIndex_le
  simp only [insert, store]
  split_ifs with h
  · simpa using h
  · simp; omega

theorem length_erase (m : Slotmap α) (i g : ℕ) :
    (m.erase i g).slots.length = m.slots.length := by
  cases hk : m.get? i g with
  | none => rw [erase_of_get?_eq_none hk]
  | some a =>
    obtain ⟨s, hs, ha, hg, -⟩ := get?_eq_some.mp hk
    simp [erase_slots hs ha hg]

theorem generation_of_get? {m : Slotmap α} {i g : ℕ} {a : α} (h : m.get? i g = some a) :
    m.generation i = g := by
  obtain ⟨s, hs, -, hg, -⟩ := get?_eq_some.mp h
  simp [generation, hs, hg]

theorem lt_length_of_get? {m : Slotmap α} {i g : ℕ} {a : α} (h : m.get? i g = some a) :
    i < m.slots.length := by
  obtain ⟨s, hs, -⟩ := get?_eq_some.mp h
  exact (List.getElem?_eq_some_iff.mp hs).1

@[simp] theorem get?_empty (i g : ℕ) : (empty : Slotmap α).get? i g = none := by
  simp [get?, empty]

def Grows (m m' : Slotmap α) : Prop :=
  m.slots.length ≤ m'.slots.length ∧ ∀ i, m.generation i ≤ m'.generation i

theorem Grows.refl (m : Slotmap α) : m.Grows m := ⟨le_rfl, fun _ => le_rfl⟩

theorem Grows.trans {m m' m'' : Slotmap α} (h : m.Grows m') (h' : m'.Grows m'') : m.Grows m'' :=
  ⟨h.1.trans h'.1, fun i => (h.2 i).trans (h'.2 i)⟩

theorem grows_insert (m : Slotmap α) (mk : ℕ → ℕ → α) : m.Grows (m.insert mk) := by
  refine ⟨m.length_insert mk, fun i => ?_⟩
  rw [generation_insert]
  split_ifs with hi
  · rw [hi, nextGeneration]; omega
  · exact le_rfl

theorem grows_erase (m : Slotmap α) (i g : ℕ) : m.Grows (m.erase i g) :=
  ⟨(m.length_erase i g).ge, fun j => (m.generation_erase i g j).ge⟩

end Slotmap
