import Mathlib.Data.Finset.Basic
import Mathlib.Data.List.Perm.Basic
import Mathlib.Data.Set.Finite.Basic
import RainRuntime.RearmFaults

/-!
# The simulation reactor

`SimReactor` is the reactor the deterministic tests run on: no kernel, a hash map of fds with
waiters, and two sets of fds that the test declares readable or writable for the next poll.
The order in which a poll walks the map is the map's own business, so a poll is given it.

The two reactors are run side by side as `Twins`.
-/

namespace RainRuntime

structure SimState where
  pending : ℤ → Option FdEntry
  readable : Finset ℤ
  writable : Finset ℤ
  ready : List Handle
  heap : Heap

namespace SimState

def busy : SystemError := ⟨.deviceOrResourceBusy, .text "SimReactor: direction already pending"⟩

def setEntry (s : SimState) (fd : ℤ) (e : Option FdEntry) : SimState :=
  { s with pending := Function.update s.pending fd e }

/-- `pending_[fd]`, which inserts an empty entry if there is none. -/
def entryAt (s : SimState) (fd : ℤ) : FdEntry := (s.pending fd).getD FdEntry.idle

def register (d : Direction) (s : SimState) (fd : ℤ) (p : PendingEntry) : Result Unit × SimState :=
  let e := s.entryAt fd
  let s := s.setEntry fd (some e)
  if (e.get d).isSome then (.error busy, s)
  else (.ok (), s.setEntry fd (some (e.set d (some p))))

def registerRead : SimState → ℤ → PendingEntry → Result Unit × SimState := register .read

def registerWrite : SimState → ℤ → PendingEntry → Result Unit × SimState := register .write

def deregisterDir (s : SimState) (fd : ℤ) (dir : IoEvent) : SimState :=
  match s.pending fd with
  | none => s
  | some e =>
    let e := if hasFlag dir IoEvent.read then e.set .read none else e
    let e := if hasFlag dir IoEvent.write then e.set .write none else e
    if e.isIdle then s.setEntry fd none else s.setEntry fd (some e)

def deregister (s : SimState) (fd : ℤ) : SimState := s.setEntry fd none

def remove (s : SimState) (fd : ℤ) : Result Unit × SimState := (.ok (), s.setEntry fd none)

def makeReadable (s : SimState) (fd : ℤ) : SimState := { s with readable := insert fd s.readable }

def makeWritable (s : SimState) (fd : ℤ) : SimState := { s with writable := insert fd s.writable }

def drainReady (s : SimState) : List Handle × SimState := (s.ready, { s with ready := [] })

def fire (s : SimState) (p : PendingEntry) : Bool × SimState :=
  let go (s : SimState) : Bool × SimState :=
    let s := match p.result with
      | some q => { s with heap := s.heap.setResult q (.ok 0) }
      | none => s
    match p.handle with
    | some h => (true, { s with ready := s.ready ++ [h] })
    | none => (false, s)
  match p.state with
  | none => go s
  | some q =>
    if s.heap.state q ≠ .pending then (false, s)
    else go { s with heap := s.heap.setState q p.completion }

def declared (s : SimState) : Direction → Finset ℤ
  | .read => s.readable
  | .write => s.writable

def dispatch (d : Direction) (fd : ℤ) (s : ℕ × SimState) : ℕ × SimState :=
  match (s.2.entryAt fd).get d with
  | none => s
  | some p =>
    if fd ∈ s.2.declared d then
      let r := s.2.fire p
      (if r.1 then s.1 + 1 else s.1, r.2.setEntry fd (some ((r.2.entryAt fd).set d none)))
    else s

def visit (s : ℕ × SimState) (fd : ℤ) : ℕ × SimState := dispatch .write fd (dispatch .read fd s)

/-- The order in which a poll walks the map. -/
def Enumerates (s : SimState) (order : List ℤ) : Prop :=
  order.Nodup ∧ ∀ fd, fd ∈ order ↔ (s.pending fd).isSome = true

def poll (s : SimState) (order : List ℤ) : Result ℕ × SimState :=
  let r := order.foldl visit (0, s)
  (.ok r.1, { r.2 with
    readable := ∅
    writable := ∅
    -- `std::erase_if` of the entries without waiters
    pending := fun fd => (r.2.pending fd).filter fun e => !e.isIdle })

def fresh (m : Heap) : SimState := ⟨fun _ => none, ∅, ∅, [], m⟩

/-! ## What a poll of the map does -/

theorem fire_eq (s : SimState) (p : PendingEntry) :
    s.fire p = (!(PendingEntry.woken s.heap p).isEmpty,
      { s with
        heap := PendingEntry.settle s.heap p
        ready := s.ready ++ PendingEntry.woken s.heap p }) := by
  obtain ⟨handle, result, state, completion⟩ := p
  cases state with
  | none =>
    cases result <;> cases handle <;>
      simp [fire, PendingEntry.woken, PendingEntry.settle, PendingEntry.complete,
        PendingEntry.awake]
  | some q =>
    by_cases hq : s.heap.state q = .pending
    · cases result <;> cases handle <;>
        simp [fire, PendingEntry.woken, PendingEntry.settle, PendingEntry.complete,
          PendingEntry.awake, hq]
    · simp [fire, PendingEntry.woken, PendingEntry.settle, PendingEntry.awake, hq]

def view (r : ℕ × SimState) : DispatchView (ℕ × Direction) where
  waiter k := (r.2.entryAt k.1).get k.2
  heap := r.2.heap
  ready := r.2.ready
  count := r.1

/-- The sets and the keys of the map stay as they are while a poll walks it. -/
structure SameShape (s t : SimState) : Prop where
  readable : t.readable = s.readable
  writable : t.writable = s.writable
  keys : ∀ fd, (t.pending fd).isSome = (s.pending fd).isSome

theorem SameShape.declared {s t : SimState} (h : SameShape s t) (d : Direction) :
    t.declared d = s.declared d := by
  cases d with
  | read => exact h.readable
  | write => exact h.writable

theorem SameShape.trans {s t u : SimState} (h : SameShape s t) (h' : SameShape t u) :
    SameShape s u :=
  ⟨h'.readable.trans h.readable, h'.writable.trans h.writable,
    fun fd => (h'.keys fd).trans (h.keys fd)⟩

theorem entryAt_setEntry (s : SimState) (fd : ℤ) (e : FdEntry) (j : ℤ) :
    (s.setEntry fd (some e)).entryAt j = if j = fd then e else s.entryAt j := by
  by_cases hj : j = fd
  · subst hj
    simp [entryAt, setEntry]
  · simp [entryAt, setEntry, hj]

theorem dispatch_delivers (d : Direction) (i : ℕ) (r : ℕ × SimState) :
    SameShape r.2 (dispatch d i r).2 ∧
    ∃ ds, Delivers ds (view r) (view (dispatch d i r)) ∧
      (∀ x ∈ ds, x.1 = (i, d) ∧ (i : ℤ) ∈ r.2.declared d) ∧
      ((i : ℤ) ∈ r.2.declared d → (view (dispatch d i r)).waiter (i, d) = none) := by
  unfold dispatch
  cases hp : (r.2.entryAt i).get d with
  | none =>
    refine ⟨⟨rfl, rfl, fun _ => rfl⟩, [], Delivers.refl _, ?_, fun _ => hp⟩
    intro x hx
    cases hx
  | some p =>
    dsimp only
    by_cases hev : (i : ℤ) ∈ r.2.declared d
    swap
    · rw [if_neg hev]
      refine ⟨⟨rfl, rfl, fun _ => rfl⟩, [], Delivers.refl _, ?_, fun hhit => absurd hhit hev⟩
      intro x hx
      cases hx
    rw [if_pos hev, fire_eq]
    dsimp only
    set u : SimState := { r.2 with
      heap := PendingEntry.settle r.2.heap p
      ready := r.2.ready ++ PendingEntry.woken r.2.heap p } with hu
    have hget : ∀ k : ℕ × Direction,
        ((u.setEntry i (some ((u.entryAt i).set d none))).entryAt k.1).get k.2 =
          if k = (i, d) then none else (view r).waiter k := by
      intro k
      rw [entryAt_setEntry]
      by_cases hj : k.1 = i
      · rw [if_pos (congrArg Nat.cast hj), FdEntry.get_set]
        by_cases hd : k.2 = d
        · rw [if_pos hd, if_pos (Prod.ext hj hd)]
        · rw [if_neg hd, if_neg (fun h => hd (congrArg Prod.snd h)), ← hj]
          rfl
      · rw [if_neg (fun h => hj (Int.ofNat_inj.mp h)), if_neg (fun h => hj (congrArg Prod.fst h))]
        rfl
    have hkey : (r.2.pending i).isSome = true := by
      cases hsome : r.2.pending i with
      | some e => rfl
      | none =>
        rw [entryAt, hsome, Option.getD_none, FdEntry.get_idle] at hp
        cases hp
    refine ⟨⟨rfl, rfl, fun fd => ?_⟩, [((i, d), p)], Delivers.single hp hget rfl rfl rfl, ?_,
      fun _ => ?_⟩
    · by_cases hfd : fd = i
      · rw [hfd, hkey]
        simp [setEntry]
      · simp [setEntry, hfd, hu]
    · intro x hx
      rw [List.mem_singleton.mp hx]
      exact ⟨rfl, hev⟩
    · exact (hget (i, d)).trans (if_pos rfl)

theorem visit_delivers (i : ℕ) (r : ℕ × SimState) :
    SameShape r.2 (visit r i).2 ∧
    ∃ ds, Delivers ds (view r) (view (visit r i)) ∧
      (∀ x ∈ ds, x.1.1 = i ∧ (i : ℤ) ∈ r.2.declared x.1.2) ∧
      ∀ d, (i : ℤ) ∈ r.2.declared d → (view (visit r i)).waiter (i, d) = none := by
  obtain ⟨hshape, ds, hread, hds, hreadNone⟩ := dispatch_delivers .read i r
  obtain ⟨hshape', es, hwrite, hes, hwriteNone⟩ := dispatch_delivers .write i (dispatch .read i r)
  refine ⟨hshape.trans hshape', ds ++ es, hread.trans hwrite, ?_, ?_⟩
  · intro x hx
    rcases List.mem_append.mp hx with hx | hx
    · obtain ⟨hplace, hhit⟩ := hds x hx
      rw [hplace]
      exact ⟨rfl, hhit⟩
    · obtain ⟨hplace, hhit⟩ := hes x hx
      rw [hshape.declared] at hhit
      rw [hplace]
      exact ⟨rfl, hhit⟩
  · intro d hhit
    cases d with
    | write =>
      rw [← hshape.declared] at hhit
      exact hwriteNone hhit
    | read =>
      by_cases hmem : (i, Direction.read) ∈ es.map Prod.fst
      · exact hwrite.emptied_place hmem
      · exact (hwrite.kept _ hmem).trans (hreadNone hhit)

theorem visits_deliver (order : List ℕ) (r : ℕ × SimState) :
    SameShape r.2 ((order.map Nat.cast).foldl visit r).2 ∧
    ∃ ds, Delivers ds (view r) (view ((order.map Nat.cast).foldl visit r)) ∧
      (∀ x ∈ ds, x.1.1 ∈ order ∧ (x.1.1 : ℤ) ∈ r.2.declared x.1.2) ∧
      ∀ i d, i ∈ order → (i : ℤ) ∈ r.2.declared d →
        (view ((order.map Nat.cast).foldl visit r)).waiter (i, d) = none := by
  induction order generalizing r with
  | nil =>
    refine ⟨⟨rfl, rfl, fun _ => rfl⟩, [], Delivers.refl _, ?_, ?_⟩
    · intro x hx
      cases hx
    · intro i d hi
      cases hi
  | cons j order ih =>
    obtain ⟨hshape, ds, hfirst, hds, hnone⟩ := visit_delivers j r
    obtain ⟨hshape', es, hrest, hes, hnones⟩ := ih (visit r j)
    rw [List.map_cons, List.foldl_cons]
    refine ⟨hshape.trans hshape', ds ++ es, hfirst.trans hrest, ?_, ?_⟩
    · intro x hx
      rcases List.mem_append.mp hx with hx | hx
      · obtain ⟨hi, hhit⟩ := hds x hx
        exact ⟨hi ▸ List.mem_cons_self .., hi ▸ hhit⟩
      · obtain ⟨hi, hhit⟩ := hes x hx
        rw [hshape.declared] at hhit
        exact ⟨List.mem_cons_of_mem j hi, hhit⟩
    · intro i d hi hhit
      by_cases hmem : (i, d) ∈ es.map Prod.fst
      · exact hrest.emptied_place hmem
      rcases List.mem_cons.mp hi with rfl | hi
      · exact (hrest.kept (i, d) hmem).trans (hnone d hhit)
      · exact hnones i d hi (by rw [hshape.declared]; exact hhit)

theorem filter_getD (o : Option FdEntry) (d : Direction) :
    ((o.filter fun e => !e.isIdle).getD FdEntry.idle).get d = (o.getD FdEntry.idle).get d := by
  cases o with
  | none => rfl
  | some e =>
    rw [Option.filter_some, Option.getD_some]
    cases hidle : e.isIdle with
    | false => rfl
    | true =>
      rw [(FdEntry.isIdle_iff e).mp hidle d]
      exact FdEntry.get_idle d

theorem register_eq (d : Direction) (s : SimState) (fd : ℤ) (p : PendingEntry) :
    ∃ t, register d s fd p =
        (if ((s.entryAt fd).get d).isSome then .error busy else .ok (), t) ∧
      t.heap = s.heap ∧ t.ready = s.ready ∧
      (∀ j c, (t.entryAt j).get c = if ((s.entryAt fd).get d).isSome = false ∧ j = fd ∧ c = d
        then some p else (s.entryAt j).get c) ∧
      ∀ j, (t.pending j).isSome = true → j = fd ∨ (s.pending j).isSome = true := by
  have hkey : ∀ (u : SimState) e j, ((u.setEntry fd (some e)).pending j).isSome = true →
      j = fd ∨ (u.pending j).isSome = true := by
    intro u e j hj
    by_cases hfd : j = fd
    · exact Or.inl hfd
    · right
      simpa [setEntry, hfd] using hj
  have hsame : ∀ j, (s.setEntry fd (some (s.entryAt fd))).entryAt j = s.entryAt j := by
    intro j
    rw [entryAt_setEntry]
    split_ifs with hj
    · rw [hj]
    · rfl
  unfold register
  dsimp only
  cases hbusy : ((s.entryAt fd).get d).isSome with
  | true =>
    refine ⟨_, rfl, rfl, rfl, fun j c => ?_, hkey s _⟩
    rw [hsame, if_neg (fun h => Bool.false_ne_true h.1.symm)]
  | false =>
    refine ⟨_, rfl, rfl, rfl, fun j c => ?_, fun j hj => ?_⟩
    · rw [entryAt_setEntry, hsame]
      by_cases hj : j = fd
      · rw [if_pos hj, FdEntry.get_set, hj]
        simp only [true_and]
      · rw [if_neg hj, if_neg (fun h => hj h.2.1)]
    · rcases hkey _ _ j hj with hfd | hj
      · exact Or.inl hfd
      · exact hkey s _ j hj

theorem entryAt_erase (s : SimState) (fd j : ℤ) :
    (s.setEntry fd none).entryAt j = if j = fd then FdEntry.idle else s.entryAt j := by
  by_cases hj : j = fd
  · subst hj
    simp [entryAt, setEntry]
  · simp [entryAt, setEntry, hj]

theorem erase_keys (s : SimState) (fd j : ℤ) (h : ((s.setEntry fd none).pending j).isSome = true) :
    (s.pending j).isSome = true := by
  by_cases hj : j = fd
  · subst hj
    simp [setEntry] at h
  · simpa [setEntry, hj] using h

theorem deregisterDir_eq (s : SimState) (fd : ℤ) (dir : IoEvent) :
    (s.pending fd = none ∧ s.deregisterDir fd dir = s) ∨
    ∃ e, s.pending fd = some e ∧ s.deregisterDir fd dir =
      if (IoState.withdrawn dir e).isIdle then s.setEntry fd none
      else s.setEntry fd (some (IoState.withdrawn dir e)) := by
  unfold deregisterDir
  cases s.pending fd with
  | none => exact Or.inl ⟨rfl, rfl⟩
  | some e => exact Or.inr ⟨e, rfl, rfl⟩

theorem deregisterDir_get (s : SimState) (fd : ℤ) (dir : IoEvent) :
    ((s.deregisterDir fd dir).heap = s.heap ∧ (s.deregisterDir fd dir).ready = s.ready) ∧
    (∀ j c, ((s.deregisterDir fd dir).entryAt j).get c =
      if j = fd ∧ hasFlag dir c.flag = true then none else (s.entryAt j).get c) ∧
    ∀ j, ((s.deregisterDir fd dir).pending j).isSome = true → (s.pending j).isSome = true := by
  rcases deregisterDir_eq s fd dir with ⟨hnone, heq⟩ | ⟨e, he, heq⟩
  · rw [heq]
    refine ⟨⟨rfl, rfl⟩, fun j c => ?_, fun _ hj => hj⟩
    split_ifs with hj
    · rw [hj.1, entryAt, hnone]
      exact FdEntry.get_idle c
    · rfl
  · have hentry : s.entryAt fd = e := by rw [entryAt, he, Option.getD_some]
    have hget : ∀ c, (if hasFlag dir c.flag = true then none else (s.entryAt fd).get c) =
        (IoState.withdrawn dir e).get c := by
      intro c
      rw [IoState.get_withdrawn, hentry]
    rw [heq]
    split_ifs with hidle
    · refine ⟨⟨rfl, rfl⟩, fun j c => ?_, erase_keys s fd⟩
      rw [entryAt_erase]
      by_cases hj : j = fd
      · simp only [hj, true_and, if_true, hget]
        rw [(FdEntry.isIdle_iff _).mp hidle c]
        exact FdEntry.get_idle c
      · rw [if_neg hj, if_neg (fun h => hj h.1)]
    · refine ⟨⟨rfl, rfl⟩, fun j c => ?_, fun j hj => ?_⟩
      · rw [entryAt_setEntry]
        by_cases hj : j = fd
        · simp only [hj, true_and, if_true, hget]
        · rw [if_neg hj, if_neg (fun h => hj h.1)]
      · by_cases hfd : j = fd
        · rw [hfd, he]
          rfl
        · simpa [setEntry, hfd] using hj

def NonNegative (s : SimState) : Prop := ∀ fd, (s.pending fd).isSome = true → 0 ≤ fd

theorem poll_delivers {s : SimState} {order : List ℤ} (hneg : s.NonNegative)
    (horder : s.Enumerates order) :
    ∃ ds n t, s.poll order = (.ok n, t) ∧ Delivers ds (view (0, s)) (view (n, t)) ∧
      (∀ i d p, ((i, d), p) ∈ ds ↔ (s.entryAt i).get d = some p ∧ (i : ℤ) ∈ s.declared d) ∧
      (∀ (i : ℕ) d, (t.entryAt i).get d =
        if (i : ℤ) ∈ s.declared d then none else (s.entryAt i).get d) ∧
      ∀ fd, (t.pending fd).isSome = true → (s.pending fd).isSome = true := by
  obtain ⟨hnodup, hkeys⟩ := horder
  have hcast : (order.map Int.toNat).map Nat.cast = order := by
    rw [List.map_map]
    refine (List.map_congr_left fun fd hfd => ?_).trans (List.map_id order)
    exact Int.toNat_of_nonneg (hneg fd ((hkeys fd).mp hfd))
  obtain ⟨hshape, ds, hd, hds, hnone⟩ := visits_deliver (order.map Int.toNat) (0, s)
  rw [hcast] at hshape hd hnone
  set r := order.foldl visit (0, s) with hr
  have hview : ∀ i d, (view (r.1, (s.poll order).2)).waiter (i, d) = (view r).waiter (i, d) :=
    fun i d => filter_getD (r.2.pending i) d
  have hdel : Delivers ds (view (0, s)) (view (r.1, (s.poll order).2)) :=
    ⟨hd.here, hd.once, fun x hx => (hview x.1.1 x.1.2).trans (hd.emptied x hx),
      fun k hk => (hview k.1 k.2).trans (hd.kept k hk), hd.heap, hd.ready, hd.count⟩
  have hwalked : ∀ (i : ℕ) d, (s.entryAt i).get d ≠ none → i ∈ order.map Int.toNat := by
    intro i d hp
    refine List.mem_map.mpr ⟨i, (hkeys i).mpr ?_, Int.toNat_natCast i⟩
    cases hsome : s.pending i with
    | some e => rfl
    | none =>
      rw [entryAt, hsome, Option.getD_none, FdEntry.get_idle] at hp
      exact absurd rfl hp
  have hend : ∀ (i : ℕ) d, ((s.poll order).2.entryAt i).get d =
      if (i : ℤ) ∈ s.declared d then none else (s.entryAt i).get d := by
    intro i d
    have hwaiter : ((s.poll order).2.entryAt i).get d = (view r).waiter (i, d) := hview i d
    rw [hwaiter]
    split_ifs with hhit
    · by_cases hp : (s.entryAt i).get d = none
      · by_cases hmem : (i, d) ∈ ds.map Prod.fst
        · exact hd.emptied_place hmem
        · exact (hd.kept (i, d) hmem).trans hp
      · exact hnone i d (hwalked i d hp) hhit
    · refine hd.kept (i, d) fun hmem => ?_
      obtain ⟨x, hx, hplace⟩ := List.mem_map.mp hmem
      have hx' := (hds x hx).2
      rw [hplace] at hx'
      exact hhit hx'
  refine ⟨ds, r.1, (s.poll order).2, rfl, hdel, fun i d p => ?_, hend, fun fd hfd => ?_⟩
  swap
  · have hkey : ((r.2.pending fd).filter fun e => !e.isIdle).isSome = true := hfd
    rw [← hshape.keys fd]
    exact Option.isSome_of_isSome_filter _ _ hkey
  refine hdel.mem_iff (P := fun k => ((k.1 : ℕ) : ℤ) ∈ s.declared k.2) (fun x hx => (hds x hx).2)
    (fun k hk => ?_) (i, d) p
  exact (hend k.1 k.2).trans (if_pos hk)

end SimState

namespace PendingEntry

/-- The two waiters have no wait state in common. -/
def Unshared (p q : PendingEntry) : Prop := ∀ x, p.state = some x → q.state ≠ some x

theorem Unshared.symm {p q : PendingEntry} (h : Unshared p q) : Unshared q p :=
  fun x hq hp => h x hp hq

theorem settle_state_of_ne {p : PendingEntry} {x : StatePtr} (h : p.state ≠ some x) (m : Heap) :
    (settle m p).state x = m.state x := by
  unfold settle complete
  split_ifs
  · cases hs : p.state with
    | none => cases p.result <;> rfl
    | some y =>
      have hxy : x ≠ y := by
        rintro rfl
        exact h hs
      cases p.result <;> simp [Heap.setState, Heap.setResult, hxy]
  · rfl

theorem awake_settle {p q : PendingEntry} (h : Unshared p q) (m : Heap) :
    q.awake (settle m p) = q.awake m := by
  unfold awake
  cases hq : q.state with
  | none => rfl
  | some x =>
    have hp : p.state ≠ some x := fun hp => h x hp hq
    simp only [settle_state_of_ne hp]

theorem woken_settle {p q : PendingEntry} (h : Unshared p q) (m : Heap) :
    woken (settle m p) q = woken m q := by
  unfold woken
  rw [awake_settle h]

theorem complete_comm {p q : PendingEntry} (h : Unshared p q) (m : Heap) :
    complete (complete m p) q = complete (complete m q) p := by
  have hstate : ∀ x y, p.state = some x → q.state = some y → x ≠ y := by
    rintro x y hx hy rfl
    exact h x hx hy
  have hresult : ∀ (f : StatePtr → Result ℕ) (x y : StatePtr),
      Function.update (Function.update f x (.ok 0)) y (.ok 0) =
        Function.update (Function.update f y (.ok 0)) x (.ok 0) := by
    intro f x y
    funext z
    simp only [Function.update_apply]
    split_ifs <;> rfl
  unfold complete
  cases hp : p.state <;> cases hq : q.state <;> cases p.result <;> cases q.result <;>
    simp only [Heap.setState, Heap.setResult, hresult]
  all_goals rw [Function.update_comm (hstate _ _ hp hq)]

theorem settle_comm {p q : PendingEntry} (h : Unshared p q) (m : Heap) :
    settle (settle m p) q = settle (settle m q) p := by
  rw [settle.eq_1 (settle m p) q, settle.eq_1 (settle m q) p, awake_settle h, awake_settle h.symm]
  unfold settle
  cases p.awake m <;> cases q.awake m
  · rfl
  · rfl
  · rfl
  · exact complete_comm h m

/-- The order in which waiters with wait states of their own are fired makes no difference to
the cells, nor to which handles are queued. -/
theorem settleAll_perm {ps qs : List PendingEntry} (hperm : ps.Perm qs)
    (hps : ps.Pairwise Unshared) (m : Heap) :
    settleAll m ps = settleAll m qs ∧ (wokenAll m ps).Perm (wokenAll m qs) := by
  induction hperm generalizing m with
  | nil => exact ⟨rfl, List.Perm.refl _⟩
  | cons p _ ih =>
    obtain ⟨hheap, hwoken⟩ := ih (List.pairwise_cons.mp hps).2 (settle m p)
    exact ⟨hheap, hwoken.append_left _⟩
  | swap p q ps =>
    have hqp : Unshared q p := (List.pairwise_cons.mp hps).1 p (List.mem_cons_self ..)
    refine ⟨congrArg (settleAll · ps) (settle_comm hqp m), ?_⟩
    simp only [wokenAll]
    rw [woken_settle hqp, woken_settle hqp.symm, settle_comm hqp, ← List.append_assoc,
      ← List.append_assoc]
    exact List.perm_append_comm.append_right _
  | trans hpq _ ih ih' =>
    obtain ⟨hheap, hwoken⟩ := ih hps m
    obtain ⟨hheap', hwoken'⟩ := ih' (hpq.pairwise hps fun h => Unshared.symm h) m
    exact ⟨hheap.trans hheap', hwoken.trans hwoken'⟩

end PendingEntry

/-! ## Both reactors side by side -/

structure Twins where
  epoll : IoState
  sim : SimState

/-- The calls both reactors get. `heap` is what other parties write into the cells, and the fds
declared with `makeReadable` and `makeWritable` are those the next poll reports to `epoll`. -/
inductive TwinOp where
  | registerRead (fd : ℕ) (p : PendingEntry)
  | registerWrite (fd : ℕ) (p : PendingEntry)
  | deregister (fd : ℕ)
  | deregisterDir (fd : ℕ) (dir : IoEvent)
  | remove (fd : ℕ)
  | makeReadable (fd : ℤ)
  | makeWritable (fd : ℤ)
  | poll (events : List (ℤ × BitVec 32)) (order : List ℤ)
  | drainReady
  | heap (m : Heap)

namespace Twins
variable {t t' : Twins} {k : Kernel}

def step (t : Twins) : TwinOp → Option Twins
  | .registerRead fd p => some ⟨(t.epoll.registerRead fd p).2, (t.sim.registerRead fd p).2⟩
  | .registerWrite fd p => some ⟨(t.epoll.registerWrite fd p).2, (t.sim.registerWrite fd p).2⟩
  | .deregister fd => some ⟨t.epoll.deregister fd, t.sim.deregister fd⟩
  | .deregisterDir fd dir => some ⟨t.epoll.deregisterDir fd dir, t.sim.deregisterDir fd dir⟩
  | .remove fd => some ⟨(t.epoll.remove fd).2, (t.sim.remove fd).2⟩
  | .makeReadable fd => some { t with sim := t.sim.makeReadable fd }
  | .makeWritable fd => some { t with sim := t.sim.makeWritable fd }
  | .poll events order => some ⟨(t.epoll.poll (.reported events)).2, (t.sim.poll order).2⟩
  | .drainReady =>
    some ⟨{ t.epoll with reactor := t.epoll.reactor.drainReady.2 }, t.sim.drainReady.2⟩
  | .heap m => some ⟨{ t.epoll with heap := m }, { t.sim with heap := m }⟩

def start (k : Kernel) (m : Heap) : Twins := ⟨IoState.fresh k m, SimState.fresh m⟩

structure Presents (events : List (ℤ × BitVec 32)) (s : SimState) : Prop where
  declared : ∀ fd d, fd ∈ s.declared d ↔ ∃ ev ∈ events, ev.1 = fd ∧ ev.2 &&& d.epollBit ≠ 0
  quiet : ∀ ev ∈ events, ev.2 &&& (epollErr ||| epollHup) = 0

/-- A poll presents the same fds to both, and no two waiters it reports share a wait state. -/
def Fair (t : Twins) : TwinOp → Prop
  | .poll events order => Presents events t.sim ∧ t.sim.Enumerates order ∧
    ∀ i d p j c q, (t.epoll.reactor.slotAt i).get d = some p →
      (t.epoll.reactor.slotAt j).get c = some q → IoState.Reported events i d →
      IoState.Reported events j c → (i, d) ≠ (j, c) → p.Unshared q
  | _ => True

def verdict : Result Unit → Option ErrorCode
  | .ok _ => none
  | .error e => some e.code

/-- Both hold the same waiters and cells, and their ready lists differ in order at most. -/
structure Agree (t : Twins) : Prop where
  waiters : ∀ (i : ℕ) d, (t.epoll.reactor.slotAt i).get d = (t.sim.entryAt i).get d
  heap : t.epoll.heap = t.sim.heap
  ready : t.epoll.reactor.ready.Perm t.sim.ready

def SameAnswer (t : Twins) : TwinOp → Prop
  | .registerRead fd p =>
    verdict (t.epoll.registerRead fd p).1 = verdict (t.sim.registerRead fd p).1
  | .registerWrite fd p =>
    verdict (t.epoll.registerWrite fd p).1 = verdict (t.sim.registerWrite fd p).1
  | .remove fd => (t.epoll.remove fd).1 = (t.sim.remove fd).1
  | .poll events order => (t.epoll.poll (.reported events)).1 = (t.sim.poll order).1
  | .drainReady => t.epoll.reactor.drainReady.1.Perm t.sim.drainReady.1
  | _ => True

structure Inv (t : Twins) : Prop where
  agree : Agree t
  sound : t.epoll.Sound
  isOpen : ∀ fd, t.epoll.kernel.isOpen fd = true
  nonNegative : t.sim.NonNegative
  finite : {fd | (t.sim.pending fd).isSome = true}.Finite

theorem register_verdict {s : IoState} (hopen : ∀ fd, s.kernel.isOpen fd = true)
    (hfault : s.kernel.NoFault) (d : Direction) (negative busy : String) (i : ℕ)
    (p : PendingEntry) :
    verdict (IoState.register d negative busy s i p).1 =
      if ((s.reactor.slotAt i).get d).isSome then some .deviceOrResourceBusy else none := by
  unfold IoState.register
  rw [if_neg (by omega)]
  dsimp only
  rw [Int.toNat_natCast, EpollReactor.slotAt_ensureSlot]
  split_ifs with hbusy
  · rfl
  · set u : IoState := ({ s with reactor := s.reactor.ensureSlot i } : IoState).withSlot i
      ((s.reactor.slotAt i).set d (some p)) with hu
    rw [IoState.ensure_of_open (s := u) (hopen i) hfault]
    rfl

theorem remove_ok {s : IoState} (hopen : ∀ fd, s.kernel.isOpen fd = true)
    (hfault : s.kernel.NoFault) {fd : ℤ} : (s.remove fd).1 = .ok () := by
  unfold IoState.remove
  split_ifs with hneg
  · rfl
  cases htable : s.kernel.table fd <;> simp [Kernel.epollCtl, hopen fd, hfault fd, htable]

theorem Inv.keys {u : Twins} (h : Inv t) (extra : ℕ)
    (hkeys : ∀ fd, (u.sim.pending fd).isSome = true → fd = extra ∨
      (t.sim.pending fd).isSome = true) :
    u.sim.NonNegative ∧ {fd | (u.sim.pending fd).isSome = true}.Finite := by
  refine ⟨fun fd hfd => ?_, (Set.Finite.insert (extra : ℤ) h.finite).subset fun fd hfd => ?_⟩
  · rcases hkeys fd hfd with rfl | hold
    · exact Int.natCast_nonneg extra
    · exact h.nonNegative fd hold
  · exact hkeys fd hfd

theorem Inv.register (h : Inv t) (d : Direction) (negative busy : String) (fd : ℕ)
    (p : PendingEntry) :
    verdict (IoState.register d negative busy t.epoll fd p).1 =
      verdict (SimState.register d t.sim fd p).1 ∧
    Inv ⟨(IoState.register d negative busy t.epoll fd p).2,
      (SimState.register d t.sim fd p).2⟩ := by
  obtain ⟨u, hu, hheap, hready, hwaiters, hkeys⟩ := SimState.register_eq d t.sim fd p
  have hverdict := register_verdict h.isOpen h.sound.noFault d negative busy fd p
  have hsound := h.sound.register d negative busy fd p
  have hopen := (IoState.register_frame d negative busy t.epoll fd p).isOpen
  rw [h.agree.waiters] at hverdict
  rw [hu]
  generalize hreg : IoState.register d negative busy t.epoll fd p = r at hverdict hsound hopen ⊢
  obtain ⟨res, e⟩ := r
  obtain ⟨hnonneg, hfin⟩ := h.keys (u := ⟨e, u⟩) fd hkeys
  have hopen' : ∀ j, e.kernel.isOpen j = true := fun j => (congrFun hopen j).trans (h.isOpen j)
  cases res with
  | error err =>
    obtain ⟨hheap', hready', -⟩ := IoState.register_error hreg
    obtain ⟨-, hcases⟩ := IoState.register_cases d negative busy t.epoll fd p hreg
    obtain ⟨-, hslots⟩ | ⟨hok, -⟩ := hcases
    swap
    · cases hok
    have hbusy : ((t.sim.entryAt fd).get d).isSome = true := by
      by_contra hfree
      rw [if_neg hfree] at hverdict
      cases hverdict
    rw [if_pos hbusy] at hverdict ⊢
    refine ⟨hverdict, ⟨fun i c => ?_, ?_, ?_⟩, hsound, hopen', hnonneg, hfin⟩
    · rw [hslots, hwaiters, if_neg (fun hfree => Bool.false_ne_true (hfree.1.symm.trans hbusy))]
      exact h.agree.waiters i c
    · exact hheap'.trans (h.agree.heap.trans hheap.symm)
    · dsimp only
      rw [hready', hready]
      exact h.agree.ready
  | ok _ =>
    obtain ⟨hheap', hready', j, hj, hnone, hslots⟩ := IoState.register_ok hreg
    have hji : j = fd := Int.ofNat_inj.mp hj
    subst hji
    have hfree : ((t.sim.entryAt j).get d).isSome = false := by
      rw [← h.agree.waiters, hnone]
      rfl
    rw [hfree] at hwaiters ⊢
    refine ⟨rfl, ⟨fun i c => ?_, ?_, ?_⟩, hsound, hopen', hnonneg, hfin⟩
    · rw [hslots, hwaiters, h.agree.waiters]
      simp only [true_and, Nat.cast_inj]
    · exact hheap'.trans (h.agree.heap.trans hheap.symm)
    · dsimp only
      rw [hready', hready]
      exact h.agree.ready

theorem Inv.erase (h : Inv t) {e : IoState} (fd : ℕ) (hsound : e.Sound)
    (hopen : e.kernel.isOpen = t.epoll.kernel.isOpen) (hheap : e.heap = t.epoll.heap)
    (hready : e.reactor.ready = t.epoll.reactor.ready)
    (hslots : ∀ j : ℕ, e.reactor.slotAt j =
      if (j : ℤ) = fd then FdEntry.idle else t.epoll.reactor.slotAt j) :
    Inv ⟨e, t.sim.setEntry fd none⟩ := by
  obtain ⟨hnonneg, hfin⟩ := h.keys (u := ⟨e, t.sim.setEntry fd none⟩) fd
    fun j hj => Or.inr (SimState.erase_keys t.sim fd j hj)
  refine ⟨⟨fun i c => ?_, ?_, ?_⟩, hsound, fun j => (congrFun hopen j).trans (h.isOpen j),
    hnonneg, hfin⟩
  · rw [hslots, SimState.entryAt_erase]
    split_ifs
    · rfl
    · exact h.agree.waiters i c
  · exact hheap.trans h.agree.heap
  · dsimp only
    rw [hready]
    exact h.agree.ready

theorem Inv.deregisterDir (h : Inv t) (fd : ℕ) (dir : IoEvent) :
    Inv ⟨t.epoll.deregisterDir fd dir, t.sim.deregisterDir fd dir⟩ := by
  obtain ⟨⟨hheap, hready⟩, hslots⟩ := IoState.deregisterDir_cases t.epoll fd dir
  obtain ⟨⟨hheap', hready'⟩, hwaiters, hkeys⟩ := SimState.deregisterDir_get t.sim fd dir
  have hopen := (IoState.deregisterDir_frame t.epoll fd dir).isOpen
  obtain ⟨hnonneg, hfin⟩ := h.keys
    (u := ⟨t.epoll.deregisterDir fd dir, t.sim.deregisterDir fd dir⟩) fd fun j hj => Or.inr
    (hkeys j hj)
  refine ⟨⟨fun i c => ?_, ?_, ?_⟩, h.sound.deregisterDir fd dir,
    fun j => (congrFun hopen j).trans (h.isOpen j), hnonneg, hfin⟩
  · rw [hslots, hwaiters, h.agree.waiters]
  · exact hheap.trans (h.agree.heap.trans hheap'.symm)
  · dsimp only
    rw [hready, hready']
    exact h.agree.ready

theorem reported_iff {events : List (ℤ × BitVec 32)} {s : SimState} (h : Presents events s) (i : ℕ)
    (d : Direction) : IoState.Reported events i d ↔ (i : ℤ) ∈ s.declared d := by
  rw [h.declared]
  constructor
  · rintro ⟨ev, hev, hi, hbit | herr⟩
    · exact ⟨ev, hev, hi, hbit⟩
    · exact absurd (h.quiet ev hev) herr
  · rintro ⟨ev, hev, hi, hbit⟩
    exact ⟨ev, hev, hi, Or.inl hbit⟩

theorem Inv.poll (h : Inv t) {events : List (ℤ × BitVec 32)} {order : List ℤ}
    (hfair : Fair t (.poll events order)) :
    (t.epoll.poll (.reported events)).1 = (t.sim.poll order).1 ∧
    Inv ⟨(t.epoll.poll (.reported events)).2, (t.sim.poll order).2⟩ := by
  obtain ⟨hpresents, horder, hunshared⟩ := hfair
  have hsound := h.sound.poll (.reported events)
  have hopen := (IoState.poll_frame t.epoll (.reported events)).1
  obtain ⟨ds, n, e, he, hd, hmem, hslots⟩ := IoState.poll_delivers t.epoll events
  obtain ⟨es, l, u, hu, hd', hmem', hwaiters, hkeys⟩ := SimState.poll_delivers h.nonNegative horder
  rw [he] at hsound hopen
  rw [he, hu]
  have hperm : ds.Perm es := by
    refine (List.perm_ext_iff_of_nodup hd.once.of_map hd'.once.of_map).mpr ?_
    rintro ⟨⟨i, d⟩, p⟩
    rw [hmem, hmem', h.agree.waiters, reported_iff hpresents]
  have hpair : (ds.map Prod.snd).Pairwise PendingEntry.Unshared := by
    rw [List.pairwise_map]
    refine (List.pairwise_map.mp hd.once).imp_of_mem ?_
    rintro ⟨⟨i, d⟩, p⟩ ⟨⟨j, c⟩, q⟩ hp hq hne
    obtain ⟨hp, hreport⟩ := (hmem i d p).mp hp
    obtain ⟨hq, hreport'⟩ := (hmem j c q).mp hq
    exact hunshared i d p j c q hp hq hreport hreport' hne
  obtain ⟨hsettle, hwoken⟩ := PendingEntry.settleAll_perm (hperm.map Prod.snd) hpair t.epoll.heap
  obtain ⟨hnonneg, hfin⟩ := h.keys (u := ⟨e, u⟩) 0 fun j hj => Or.inr (hkeys j hj)
  have hcount : n = 0 + (PendingEntry.wokenAll t.epoll.heap (ds.map Prod.snd)).length := hd.count
  have hcount' : l = 0 + (PendingEntry.wokenAll t.sim.heap (es.map Prod.snd)).length := hd'.count
  refine ⟨?_, ⟨fun i c => ?_, ?_, ?_⟩, hsound, fun j => (congrFun hopen j).trans (h.isOpen j),
    hnonneg, hfin⟩
  · rw [hcount, hcount', ← h.agree.heap, hwoken.length_eq]
  · rw [hslots, hwaiters, h.agree.waiters]
    simp only [reported_iff hpresents]
  · have hheap : e.heap = PendingEntry.settleAll t.epoll.heap (ds.map Prod.snd) := hd.heap
    have hheap' : u.heap = PendingEntry.settleAll t.sim.heap (es.map Prod.snd) := hd'.heap
    rw [hheap, hheap', hsettle, h.agree.heap]
  · have hready : e.reactor.ready = t.epoll.reactor.ready ++ _ := hd.ready
    have hready' : u.ready = t.sim.ready ++ _ := hd'.ready
    dsimp only
    rw [hready, hready']
    refine h.agree.ready.append ?_
    change (PendingEntry.wokenAll t.epoll.heap _).Perm (PendingEntry.wokenAll t.sim.heap _)
    rw [← h.agree.heap]
    exact hwoken

theorem Inv.of_sim (h : Inv t) {u : SimState} (hpending : u.pending = t.sim.pending)
    (hheap : u.heap = t.sim.heap) (hready : u.ready = t.sim.ready) : Inv { t with sim := u } := by
  have hentry : ∀ fd, u.entryAt fd = t.sim.entryAt fd := by
    intro fd
    rw [SimState.entryAt, hpending]
    rfl
  refine ⟨⟨fun i c => ?_, ?_, ?_⟩, h.sound, h.isOpen, ?_, ?_⟩
  · rw [hentry]
    exact h.agree.waiters i c
  · rw [hheap]
    exact h.agree.heap
  · rw [hready]
    exact h.agree.ready
  · intro fd
    rw [hpending]
    exact h.nonNegative fd
  · rw [hpending]
    exact h.finite

theorem Inv.step {op : TwinOp} (hfair : Fair t op) (hs : t.step op = some t') (h : Inv t) :
    Inv t' := by
  cases op <;> simp only [Twins.step, Option.some.injEq] at hs
  case registerRead fd p => exact hs ▸ (h.register .read _ _ fd p).2
  case registerWrite fd p => exact hs ▸ (h.register .write _ _ fd p).2
  case deregister fd =>
    exact hs ▸ h.erase fd (h.sound.deregister fd) rfl rfl (IoState.clearSlot_ready _ _)
      (t.epoll.reactor.slotAt_clearSlot fd)
  case deregisterDir fd dir => exact hs ▸ h.deregisterDir fd dir
  case remove fd =>
    obtain ⟨⟨hheap, hready⟩, hcases⟩ := IoState.remove_cases t.epoll fd
    have hopen := (IoState.remove_frame t.epoll fd).isOpen
    rcases hcases with ⟨⟨e, he⟩, -⟩ | ⟨-, hslots⟩
    · rw [remove_ok h.isOpen h.sound.noFault] at he
      cases he
    · exact hs ▸ h.erase fd (h.sound.remove fd) hopen hheap hready hslots
  case makeReadable fd => exact hs ▸ h.of_sim rfl rfl rfl
  case makeWritable fd => exact hs ▸ h.of_sim rfl rfl rfl
  case poll events order => exact hs ▸ (h.poll hfair).2
  case drainReady =>
    exact hs ▸ ⟨⟨h.agree.waiters, h.agree.heap, List.Perm.refl _⟩, ⟨h.sound.noFault, h.sound.armed⟩,
      h.isOpen, h.nonNegative, h.finite⟩
  case heap m =>
    exact hs ▸ ⟨⟨h.agree.waiters, rfl, h.agree.ready⟩, ⟨h.sound.noFault, h.sound.armed⟩, h.isOpen,
      h.nonNegative, h.finite⟩

theorem start_inv (hopen : ∀ fd, k.isOpen fd = true) (hfault : k.NoFault) (m : Heap) :
    Inv (start k m) where
  agree := ⟨fun i d => by simp [start, IoState.fresh, SimState.fresh, EpollReactor.slotAt,
    SimState.entryAt], rfl, List.Perm.refl _⟩
  sound := IoState.fresh_sound hfault m
  isOpen := hopen
  nonNegative fd hfd := by cases hfd
  finite := by
    have hempty : {fd | ((start k m).sim.pending fd).isSome = true} = ∅ := by
      ext fd
      simp [start, SimState.fresh]
    rw [hempty]
    exact Set.finite_empty

/-- As long as no poll reports two waiters that share a wait state, the two reactors agree after
every call and give the same answers, in whatever order the map is walked and the events come. -/
theorem sim_reactor_agrees {m : Heap} {ops : List TwinOp} (hopen : ∀ fd, k.isOpen fd = true)
    (hfault : k.NoFault) (hfair : Transition.Guarded step Fair (start k m) ops)
    (h : Transition.run step (start k m) ops = some t) :
    Agree t ∧ (∃ order, t.sim.Enumerates order) ∧ ∀ op, Fair t op → SameAnswer t op := by
  have hinv : Inv t := Transition.invariant_of_guarded Fair Inv Inv.step (start_inv hopen hfault m)
    hfair h
  refine ⟨hinv.agree, ⟨hinv.finite.toFinset.toList, Finset.nodup_toList _, fun fd => ?_⟩, ?_⟩
  · rw [Finset.mem_toList, Set.Finite.mem_toFinset]
    rfl
  · intro op hop
    cases op
    case registerRead fd p => exact (hinv.register .read _ _ fd p).1
    case registerWrite fd p => exact (hinv.register .write _ _ fd p).1
    case remove fd => exact remove_ok hinv.isOpen hinv.sound.noFault
    case poll events order => exact (hinv.poll hop).1
    case drainReady => exact hinv.agree.ready
    all_goals trivial

open ReactorCore (quietKernel quietHeap)

def twoReaders : List TwinOp :=
  [.registerRead 0 ⟨some 7, some 0, some 0, .ready⟩,
    .registerRead 1 ⟨some 8, some 1, some 1, .ready⟩,
    .makeReadable 0, .makeReadable 1, .poll [(1, epollIn), (0, epollIn)] [0, 1]]

theorem twoReaders_fair :
    Transition.Guarded step Fair (start quietKernel quietHeap) twoReaders := by
  refine ⟨trivial, fun t₁ h₁ => ⟨trivial, fun t₂ h₂ => ⟨trivial, fun t₃ h₃ => ⟨trivial, fun t₄ h₄ =>
    ⟨?_, fun _ _ => trivial⟩⟩⟩⟩⟩
  cases h₁
  cases h₂
  cases h₃
  cases h₄
  refine ⟨⟨fun fd d => ?_, fun ev hev => ?_⟩, ⟨by decide, fun fd => ?_⟩, ?_⟩
  · cases d with
    | read =>
      change fd ∈ ({1, 0} : Finset ℤ) ↔ _
      simp [Direction.epollBit, epollIn, eq_comm]
    | write =>
      refine ⟨fun h => absurd h (Finset.notMem_empty fd), ?_⟩
      rintro ⟨ev, hev, -, hbit⟩
      simp only [List.mem_cons, List.not_mem_nil, or_false] at hev
      rcases hev with rfl | rfl <;> exact absurd rfl hbit
  · simp only [List.mem_cons, List.not_mem_nil, or_false] at hev
    rcases hev with rfl | rfl <;> decide
  · by_cases h0 : fd = 0
    · subst h0
      exact iff_of_true (by decide) (by decide)
    · by_cases h1 : fd = 1
      · subst h1
        exact iff_of_true (by decide) (by decide)
      · refine iff_of_false (by simp [h0, h1]) ?_
        simp [SimState.makeReadable, SimState.registerRead, SimState.register, SimState.setEntry,
          start, SimState.fresh, SimState.entryAt, h0, h1]
  · have honly : ∀ (i : ℕ) (d : Direction) (p : PendingEntry),
        (([⟨some ⟨some 7, some 0, some 0, .ready⟩, none⟩,
            ⟨some ⟨some 8, some 1, some 1, .ready⟩, none⟩] : List FdEntry).getD i
              FdEntry.idle).get d = some p →
          d = .read ∧ (i = 0 ∧ p = ⟨some 7, some 0, some 0, .ready⟩ ∨
            i = 1 ∧ p = ⟨some 8, some 1, some 1, .ready⟩) := by
      intro i d p hp
      rcases i with _ | _ | i
      · cases d <;> cases hp
        exact ⟨rfl, Or.inl ⟨rfl, rfl⟩⟩
      · cases d <;> cases hp
        exact ⟨rfl, Or.inr ⟨rfl, rfl⟩⟩
      · cases d <;> cases hp
    intro i d p j c q hp hq _ _ hne
    obtain ⟨rfl, hi⟩ := honly i d p hp
    obtain ⟨rfl, hj⟩ := honly j c q hq
    rcases hi with ⟨rfl, rfl⟩ | ⟨rfl, rfl⟩ <;> rcases hj with ⟨rfl, rfl⟩ | ⟨rfl, rfl⟩
    · exact absurd rfl hne
    · simp [PendingEntry.Unshared]
    · simp [PendingEntry.Unshared]
    · exact absurd rfl hne

/-- The map is walked in the opposite order to the events. -/
theorem sim_reactor_agrees_on_two_readers :
    ∃ t, Transition.run step (start quietKernel quietHeap) twoReaders = some t ∧
      t.epoll.reactor.ready = [8, 7] ∧ t.sim.ready = [7, 8] ∧ Agree t := by
  obtain ⟨t, ht, hready, hsim⟩ : ∃ t,
      Transition.run step (start quietKernel quietHeap) twoReaders = some t ∧
      t.epoll.reactor.ready = [8, 7] ∧ t.sim.ready = [7, 8] := ⟨_, rfl, by decide, by decide⟩
  exact ⟨t, ht, hready, hsim,
    (sim_reactor_agrees (fun _ => rfl) (fun _ => rfl) twoReaders_fair ht).1⟩

def sharedReaders : List TwinOp :=
  [.registerRead 3 ⟨some 0, none, some 9, .ready⟩, .registerRead 5 ⟨some 1, none, some 9, .ready⟩,
    .makeReadable 3, .makeReadable 5]

/-- Each reactor wakes the reader it comes to first. Whichever way the map is walked, the events
can come the other way round. -/
theorem shared_wait_state_tells_reactors_apart :
    ∃ t u v, Transition.run step (start quietKernel quietHeap) sharedReaders = some t ∧
      (t.sim.readable = {3, 5} ∧ t.sim.writable = ∅) ∧
      (t.sim.pending 3).isSome = true ∧ (t.sim.pending 5).isSome = true ∧
      t.step (.poll [(5, epollIn), (3, epollIn)] [3, 5]) = some u ∧
      ¬u.epoll.reactor.ready.Perm u.sim.ready ∧
      t.step (.poll [(3, epollIn), (5, epollIn)] [5, 3]) = some v ∧
      ¬v.epoll.reactor.ready.Perm v.sim.ready :=
  ⟨_, _, _, rfl, ⟨by decide, by decide⟩, by decide, by decide, rfl, by decide, rfl, by decide⟩

end Twins
end RainRuntime
