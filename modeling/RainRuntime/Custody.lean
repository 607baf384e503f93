import Mathlib.Data.Multiset.AddSub
import Mathlib.Data.Multiset.Count
import Mathlib.Data.Multiset.Dedup
import RainRuntime.Transition

/-!
# Custody of numbered resources

A resource is reached through a name, and a name serves again once the resource behind it has
been given back, as descriptor numbers do. Whoever holds a name is responsible for its resource.
The rules below say how names change hands, and the balance is what follows for every run: a
resource is held once, or was given back once, or was lost once, and never two of these.
-/

/-- `names x` is what stands behind the name `x`: one of the resources that were taken, by its
number, or `some none` for a resource of somebody else. -/
structure Custody (ν : Type*) where
  names : ν → Option (Option ℕ)
  held : Multiset ν
  taken : ℕ
  released : Multiset ℕ
  lost : Multiset ℕ

namespace Custody
variable {ν : Type*}

inductive Op (ν : Type*) where
  | acquire (x : ν)
  | release (x : ν)
  | lose (x : ν)
  | lend (x : ν)
  | reclaim (x : ν)

def step [DecidableEq ν] (s : Custody ν) : Op ν → Option (Custody ν)
  | .acquire x =>
    if s.names x = none then
      some { s with
        names := Function.update s.names x (some (some s.taken))
        held := x ::ₘ s.held
        taken := s.taken + 1 }
    else none
  | .release x =>
    match s.names x with
    | some (some n) =>
      if x ∈ s.held then
        some { s with
          names := Function.update s.names x none
          held := s.held.erase x
          released := n ::ₘ s.released }
      else none
    | _ => none
  | .lose x =>
    match s.names x with
    | some (some n) =>
      if x ∈ s.held then some { s with held := s.held.erase x, lost := n ::ₘ s.lost } else none
    | _ => none
  | .lend x =>
    if s.names x = none then some { s with names := Function.update s.names x (some none) }
    else none
  | .reclaim x =>
    if s.names x = some none then some { s with names := Function.update s.names x none } else none

def holders (s : Custody ν) (n : ℕ) : ℕ := (s.held.map s.names).count (some (some n))

structure Inv (s : Custody ν) : Prop where
  balance : ∀ n < s.taken, s.released.count n + s.lost.count n + s.holders n = 1
  backed : ∀ x ∈ s.held, ∃ n, s.names x = some (some n)
  taken_of_name : ∀ x n, s.names x = some (some n) → n < s.taken ∧ n ∉ s.released
  known : ∀ n, n ∈ s.released ∨ n ∈ s.lost → n < s.taken
  named : ∀ x y n, s.names x = some (some n) → s.names y = some (some n) → x = y

section Steps
variable {s t : Custody ν} {x y : ν} {n : ℕ}

theorem Inv.holders_eq_zero (h : Inv s) (hn : s.taken ≤ n) : s.holders n = 0 := by
  refine Multiset.count_eq_zero_of_notMem fun hmem => ?_
  obtain ⟨x, -, hx⟩ := Multiset.mem_map.mp hmem
  exact absurd (h.taken_of_name x n hx).1 (by omega)

theorem Inv.holders_le_one (h : Inv s) (n : ℕ) : s.holders n ≤ 1 := by
  by_cases hn : n < s.taken
  · have := h.balance n hn
    omega
  · rw [h.holders_eq_zero (by omega)]
    exact Nat.zero_le 1

theorem Inv.notMem_of_name (h : Inv s) (hx : ∀ n, s.names x ≠ some (some n)) : x ∉ s.held := by
  intro hmem
  obtain ⟨n, hn⟩ := h.backed x hmem
  exact hx n hn

variable [DecidableEq ν]

theorem step_acquire (h : s.step (.acquire x) = some t) : s.names x = none ∧ t = { s with
    names := Function.update s.names x (some (some s.taken))
    held := x ::ₘ s.held
    taken := s.taken + 1 } := by
  simp only [step] at h
  split_ifs at h with hx
  exact ⟨hx, (Option.some.inj h).symm⟩

theorem step_release (h : s.step (.release x) = some t) : ∃ n, s.names x = some (some n) ∧
    x ∈ s.held ∧ t = { s with
      names := Function.update s.names x none
      held := s.held.erase x
      released := n ::ₘ s.released } := by
  simp only [step] at h
  split at h
  · rename_i n hn
    split_ifs at h with hx
    exact ⟨n, hn, hx, (Option.some.inj h).symm⟩
  · cases h

theorem step_lose (h : s.step (.lose x) = some t) : ∃ n, s.names x = some (some n) ∧
    x ∈ s.held ∧ t = { s with held := s.held.erase x, lost := n ::ₘ s.lost } := by
  simp only [step] at h
  split at h
  · rename_i n hn
    split_ifs at h with hx
    exact ⟨n, hn, hx, (Option.some.inj h).symm⟩
  · cases h

theorem map_update_of_notMem {m : Multiset ν} (hx : x ∉ m) (f : ν → Option (Option ℕ))
    (o : Option (Option ℕ)) : m.map (Function.update f x o) = m.map f := by
  refine Multiset.map_congr rfl fun y hy => Function.update_of_ne ?_ ..
  rintro rfl
  exact hx hy

theorem update_cases {f : ν → Option (Option ℕ)} {o : Option (Option ℕ)}
    (h : Function.update f x o y = some (some n)) :
    (y = x ∧ o = some (some n)) ∨ (y ≠ x ∧ f y = some (some n)) := by
  by_cases hyx : y = x
  · subst hyx
    rw [Function.update_self] at h
    exact Or.inl ⟨rfl, h⟩
  · rw [Function.update_of_ne hyx] at h
    exact Or.inr ⟨hyx, h⟩

theorem Inv.backed_update (h : Inv s) (hx : x ∉ s.held) (hy : y ∈ s.held) (o : Option (Option ℕ)) :
    ∃ n, Function.update s.names x o y = some (some n) := by
  obtain ⟨n, hn⟩ := h.backed y hy
  refine ⟨n, (Function.update_of_ne ?_ ..).trans hn⟩
  rintro rfl
  exact hx hy

theorem holders_erase (hx : x ∈ s.held) (hn : s.names x = some (some n)) (k : ℕ) :
    ((s.held.erase x).map s.names).count (some (some k)) + (if k = n then 1 else 0) =
      s.holders k := by
  rw [holders]
  nth_rewrite 2 [← Multiset.cons_erase hx]
  rw [Multiset.map_cons, Multiset.count_cons, hn]
  simp only [Option.some.injEq]

theorem Inv.notMem_erase (h : Inv s) (hx : x ∈ s.held) : x ∉ s.held.erase x := by
  obtain ⟨n, hn⟩ := h.backed x hx
  intro hmem
  have hle := h.holders_le_one n
  have hrest := holders_erase hx hn n
  have hpos : 0 < ((s.held.erase x).map s.names).count (some (some n)) :=
    Multiset.count_pos.mpr (Multiset.mem_map.mpr ⟨x, hmem, hn⟩)
  rw [if_pos rfl] at hrest
  omega

theorem Inv.held_nodup (h : Inv s) : s.held.Nodup := by
  refine Multiset.nodup_iff_count_le_one.mpr fun x => ?_
  by_contra hcount
  have hx : x ∈ s.held := Multiset.count_pos.mp (by omega)
  refine h.notMem_erase hx (Multiset.count_pos.mp ?_)
  rw [Multiset.count_erase_self]
  omega

theorem Inv.acquire (h : Inv s) (hs : s.step (.acquire x) = some t) : Inv t := by
  obtain ⟨hx, rfl⟩ := step_acquire hs
  have hfree : x ∉ s.held := h.notMem_of_name (by simp [hx])
  have hreleased : s.taken ∉ s.released := fun hm => (h.known _ (Or.inl hm)).false
  have hlost : s.taken ∉ s.lost := fun hm => (h.known _ (Or.inr hm)).false
  refine ⟨fun n hn => ?_, fun y hy => ?_, fun y n hy => ?_, fun n hn => ?_, fun y z n hy hz => ?_⟩
  · dsimp only [holders]
    rw [Multiset.map_cons, Multiset.count_cons, map_update_of_notMem hfree, Function.update_self,
      ← holders]
    simp only [Option.some.injEq]
    rcases Nat.lt_succ_iff_lt_or_eq.mp hn with hlt | rfl
    · rw [if_neg hlt.ne]
      exact h.balance n hlt
    · rw [if_pos rfl, h.holders_eq_zero (le_refl _), Multiset.count_eq_zero_of_notMem hreleased,
        Multiset.count_eq_zero_of_notMem hlost]
  · rcases Multiset.mem_cons.mp hy with rfl | hy
    · exact ⟨s.taken, Function.update_self ..⟩
    · exact h.backed_update hfree hy _
  · rcases update_cases hy with ⟨-, heq⟩ | ⟨-, hold⟩
    · cases heq
      exact ⟨Nat.lt_succ_self _, hreleased⟩
    · obtain ⟨hlt, hnot⟩ := h.taken_of_name y n hold
      exact ⟨Nat.lt_succ_of_lt hlt, hnot⟩
  · exact Nat.lt_succ_of_lt (h.known n hn)
  · rcases update_cases hy with ⟨hyx, hynew⟩ | ⟨-, hyold⟩ <;>
      rcases update_cases hz with ⟨hzx, hznew⟩ | ⟨-, hzold⟩
    · rw [hyx, hzx]
    · cases hynew
      exact absurd (h.taken_of_name z _ hzold).1 (lt_irrefl _)
    · cases hznew
      exact absurd (h.taken_of_name y _ hyold).1 (lt_irrefl _)
    · exact h.named y z n hyold hzold

theorem Inv.release (h : Inv s) (hs : s.step (.release x) = some t) : Inv t := by
  obtain ⟨k, hk, hx, rfl⟩ := step_release hs
  have hgone := h.notMem_erase hx
  have hname : ∀ {y n}, Function.update s.names x none y = some (some n) →
      y ≠ x ∧ s.names y = some (some n) := by
    intro y n hy
    exact (update_cases hy).resolve_left (by simp)
  refine ⟨fun n hn => ?_, fun y hy => ?_, fun y n hy => ?_, fun n hn => ?_, fun y z n hy hz => ?_⟩
  · have hbal := h.balance n hn
    have herase := holders_erase hx hk n
    dsimp only [holders]
    rw [map_update_of_notMem hgone, Multiset.count_cons]
    omega
  · obtain ⟨n, hn⟩ := h.backed y (Multiset.mem_of_mem_erase hy)
    refine ⟨n, (Function.update_of_ne ?_ ..).trans hn⟩
    rintro rfl
    exact hgone hy
  · obtain ⟨hyx, hold⟩ := hname hy
    refine ⟨(h.taken_of_name y n hold).1, fun hmem => ?_⟩
    rcases Multiset.mem_cons.mp hmem with rfl | hmem
    · exact hyx (h.named y x n hold hk)
    · exact (h.taken_of_name y n hold).2 hmem
  · rcases hn with hn | hn
    · rcases Multiset.mem_cons.mp hn with rfl | hn
      · exact (h.taken_of_name x n hk).1
      · exact h.known n (Or.inl hn)
    · exact h.known n (Or.inr hn)
  · exact h.named y z n (hname hy).2 (hname hz).2

theorem Inv.lose (h : Inv s) (hs : s.step (.lose x) = some t) : Inv t := by
  obtain ⟨k, hk, hx, rfl⟩ := step_lose hs
  refine ⟨fun n hn => ?_, fun y hy => h.backed y (Multiset.mem_of_mem_erase hy), h.taken_of_name,
    fun n hn => ?_, h.named⟩
  · have hbal := h.balance n hn
    have herase := holders_erase hx hk n
    dsimp only [holders]
    rw [Multiset.count_cons]
    omega
  · rcases hn with hn | hn
    · exact h.known n (Or.inl hn)
    · rcases Multiset.mem_cons.mp hn with rfl | hn
      · exact (h.taken_of_name x n hk).1
      · exact h.known n (Or.inr hn)

theorem Inv.foreign (h : Inv s) {o : Option (Option ℕ)} (hx : ∀ n, s.names x ≠ some (some n))
    (ho : ∀ n, o ≠ some (some n)) : Inv { s with names := Function.update s.names x o } := by
  have hfree : x ∉ s.held := h.notMem_of_name hx
  have hname : ∀ {y n}, Function.update s.names x o y = some (some n) →
      s.names y = some (some n) := by
    intro y n hy
    exact ((update_cases hy).resolve_left fun he => ho n he.2).2
  refine ⟨fun n hn => ?_, fun y hy => h.backed_update hfree hy o,
    fun y n hy => h.taken_of_name y n (hname hy), h.known,
    fun y z n hy hz => h.named y z n (hname hy) (hname hz)⟩
  rw [holders, map_update_of_notMem hfree]
  exact h.balance n hn

theorem Inv.step (h : Inv s) {op : Op ν} (hs : s.step op = some t) : Inv t := by
  cases op with
  | acquire x => exact h.acquire hs
  | release x => exact h.release hs
  | lose x => exact h.lose hs
  | lend x | reclaim x =>
    simp only [Custody.step] at hs
    split_ifs at hs with hx
    cases hs
    exact h.foreign (by simp [hx]) (by simp)

end Steps

def start (used : ν → Bool) : Custody ν :=
  ⟨fun x => if used x then some none else none, 0, 0, 0, 0⟩

theorem start_inv (used : ν → Bool) : Inv (start used) := by
  have hnone : ∀ x n, (start used).names x ≠ some (some n) := by
    intro x n
    simp only [start]
    split_ifs <;> simp
  exact ⟨fun n hn => absurd hn (Nat.not_lt_zero n), by simp [start],
    fun x n hx => absurd hx (hnone x n), by simp [start], fun x _ n hx => absurd hx (hnone x n)⟩

section Leads
variable [DecidableEq ν] {c c' c'' : Custody ν} {x : ν}

/-- The rules take `c`, if it is in balance, to `c'`. -/
def Leads (c c' : Custody ν) : Prop := Inv c → ∃ ops, Transition.run step c ops = some c'

theorem Leads.refl (c : Custody ν) : Leads c c := fun _ => ⟨[], rfl⟩

theorem Leads.inv (h : Leads c c') (hc : Inv c) : Inv c' := by
  obtain ⟨ops, hops⟩ := h hc
  exact Transition.invariant Inv (fun hs hi => hi.step hs) hc hops

theorem Leads.trans (h : Leads c c') (h' : Leads c' c'') : Leads c c'' := by
  intro hc
  obtain ⟨ops, hops⟩ := h hc
  obtain ⟨ops', hops'⟩ := h' (h.inv hc)
  exact ⟨ops ++ ops', Transition.run_append_eq_some.mpr ⟨c', hops, hops'⟩⟩

theorem Leads.of_step (op : Op ν) (h : Inv c → c.step op = some c') : Leads c c' :=
  fun hc => ⟨[op], Transition.run_cons_eq_some.mpr ⟨c', h hc, rfl⟩⟩

theorem leads_acquire (hx : c.names x = none) : Leads c { c with
    names := Function.update c.names x (some (some c.taken))
    held := x ::ₘ c.held
    taken := c.taken + 1 } :=
  .of_step (.acquire x) fun _ => if_pos hx

theorem leads_release (hx : x ∈ c.held) : Leads c { c with
    names := Function.update c.names x none
    held := c.held.erase x
    released := (c.names x).join.elim c.released (· ::ₘ c.released) } := by
  refine .of_step (.release x) fun hc => ?_
  obtain ⟨n, hn⟩ := hc.backed x hx
  simp only [step, hn, if_pos hx]
  rfl

theorem leads_lose (hx : x ∈ c.held) : Leads c { c with
    held := c.held.erase x
    lost := (c.names x).join.elim c.lost (· ::ₘ c.lost) } := by
  refine .of_step (.lose x) fun hc => ?_
  obtain ⟨n, hn⟩ := hc.backed x hx
  simp only [step, hn, if_pos hx]
  rfl

theorem leads_lend (hx : c.names x = none) :
    Leads c { c with names := Function.update c.names x (some none) } :=
  .of_step (.lend x) fun _ => if_pos hx

theorem leads_reclaim (hx : c.names x = some none) :
    Leads c { c with names := Function.update c.names x none } :=
  .of_step (.reclaim x) fun _ => if_pos hx

end Leads

end Custody
