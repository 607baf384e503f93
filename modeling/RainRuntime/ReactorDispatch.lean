import RainRuntime.ReactorFrames

/-!
# What a poll does with the waiters

A poll dispatches a waiter when the kernel reports its direction, an error or a hang-up on
its fd. `Delivers ds` says what dispatching the waiters `ds`, in this order, amounts to:
their slots are emptied, every other slot keeps its waiters, and each of them is settled
against the cells as the ones before it left them.

`ReactorOp` adds to the operations of the reactor the moments at which `epoll_ctl` starts
or stops failing.
-/

namespace RainRuntime

/-! ## Firing one waiter -/

namespace PendingEntry

/-- The test at the head of `fire`: there is no `WaitState`, or it is pending. -/
def awake (p : PendingEntry) (m : Heap) : Bool :=
  match p.state with
  | none => true
  | some q => m.state q = .pending

def complete (m : Heap) (p : PendingEntry) : Heap :=
  let m := match p.state with
    | some q => m.setState q p.completion
    | none => m
  match p.result with
    | some q => m.setResult q (.ok 0)
    | none => m

def settle (m : Heap) (p : PendingEntry) : Heap := if p.awake m then complete m p else m

def woken (m : Heap) (p : PendingEntry) : List Handle := if p.awake m then p.handle.toList else []

def settleAll (m : Heap) (ps : List PendingEntry) : Heap := ps.foldl settle m

def wokenAll : Heap → List PendingEntry → List Handle
  | _, [] => []
  | m, p :: ps => woken m p ++ wokenAll (settle m p) ps

theorem settleAll_append (m : Heap) (ps qs : List PendingEntry) :
    settleAll m (ps ++ qs) = settleAll (settleAll m ps) qs := List.foldl_append

theorem wokenAll_append (m : Heap) (ps qs : List PendingEntry) :
    wokenAll m (ps ++ qs) = wokenAll m ps ++ wokenAll (settleAll m ps) qs := by
  induction ps generalizing m with
  | nil => rfl
  | cons p ps ih =>
    rw [List.cons_append, wokenAll, wokenAll, ih, List.append_assoc]
    rfl

end PendingEntry

/-! ## Dispatching a list of waiters -/

open PendingEntry (settle settleAll woken wokenAll)

/-- What dispatching works on: the waiter of each place, the cells, the ready list and the
number of handles queued so far. -/
structure DispatchView (κ : Type*) where
  waiter : κ → Option PendingEntry
  heap : Heap
  ready : List Handle
  count : ℕ

/-- From `v` to `w` exactly the waiters `ds` were dispatched, in this order. -/
structure Delivers {κ : Type*} (ds : List (κ × PendingEntry)) (v w : DispatchView κ) : Prop where
  here : ∀ x ∈ ds, v.waiter x.1 = some x.2
  once : (ds.map Prod.fst).Nodup
  emptied : ∀ x ∈ ds, w.waiter x.1 = none
  kept : ∀ k, k ∉ ds.map Prod.fst → w.waiter k = v.waiter k
  heap : w.heap = settleAll v.heap (ds.map Prod.snd)
  ready : w.ready = v.ready ++ wokenAll v.heap (ds.map Prod.snd)
  count : w.count = v.count + (wokenAll v.heap (ds.map Prod.snd)).length

namespace Delivers
variable {κ : Type*} {ds es : List (κ × PendingEntry)} {u v w : DispatchView κ}

theorem refl (v : DispatchView κ) : Delivers [] v v where
  here x hx := by cases hx
  once := List.nodup_nil
  emptied x hx := by cases hx
  kept _ _ := rfl
  heap := rfl
  ready := (List.append_nil _).symm
  count := rfl

theorem emptied_place (h : Delivers ds v w) {k : κ} (hk : k ∈ ds.map Prod.fst) :
    w.waiter k = none := by
  obtain ⟨x, hx, rfl⟩ := List.mem_map.mp hk
  exact h.emptied x hx

theorem trans (h : Delivers ds u v) (h' : Delivers es v w) : Delivers (ds ++ es) u w := by
  have hnew : ∀ x ∈ es, x.1 ∉ ds.map Prod.fst := by
    intro x hx hmem
    have hnone := h.emptied_place hmem
    rw [h'.here x hx] at hnone
    cases hnone
  refine ⟨?_, ?_, ?_, ?_, ?_, ?_, ?_⟩
  · intro x hx
    rcases List.mem_append.mp hx with hx | hx
    · exact h.here x hx
    · rw [← h.kept x.1 (hnew x hx)]
      exact h'.here x hx
  · rw [List.map_append]
    refine List.nodup_append.mpr ⟨h.once, h'.once, ?_⟩
    intro a ha b hb hab
    obtain ⟨x, hx, rfl⟩ := List.mem_map.mp hb
    exact hnew x hx (hab ▸ ha)
  · intro x hx
    rcases List.mem_append.mp hx with hx | hx
    · by_cases hes : x.1 ∈ es.map Prod.fst
      · exact h'.emptied_place hes
      · rw [h'.kept x.1 hes]
        exact h.emptied x hx
    · exact h'.emptied x hx
  · intro k hk
    rw [List.map_append, List.mem_append, not_or] at hk
    exact (h'.kept k hk.2).trans (h.kept k hk.1)
  · rw [List.map_append, PendingEntry.settleAll_append, ← h.heap]
    exact h'.heap
  · rw [List.map_append, PendingEntry.wokenAll_append, ← List.append_assoc, ← h.ready, ← h.heap]
    exact h'.ready
  · rw [List.map_append, PendingEntry.wokenAll_append, List.length_append, ← h.heap,
      ← Nat.add_assoc, ← h.count]
    exact h'.count

theorem single [DecidableEq κ] {k : κ} {p : PendingEntry} (hp : v.waiter k = some p)
    (hwaiter : ∀ j, w.waiter j = if j = k then none else v.waiter j)
    (hheap : w.heap = settle v.heap p) (hready : w.ready = v.ready ++ woken v.heap p)
    (hcount : w.count = if (!(woken v.heap p).isEmpty) = true then v.count + 1 else v.count) :
    Delivers [(k, p)] v w := by
  refine ⟨?_, List.nodup_singleton _, ?_, ?_, hheap, ?_, ?_⟩
  · intro x hx
    rw [List.mem_singleton.mp hx]
    exact hp
  · intro x hx
    rw [List.mem_singleton.mp hx, hwaiter, if_pos rfl]
  · intro j hj
    rw [hwaiter, if_neg]
    rintro rfl
    exact hj (List.mem_singleton.mpr rfl)
  · rw [hready, List.map_singleton, wokenAll, wokenAll, List.append_nil]
  · have hlen : (woken v.heap p).length = if (!(woken v.heap p).isEmpty) = true then 1 else 0 := by
      unfold PendingEntry.woken
      cases p.awake v.heap <;> cases p.handle <;> rfl
    rw [hcount, List.map_singleton, wokenAll, wokenAll, List.append_nil, hlen]
    split_ifs <;> rfl

theorem mem_iff (h : Delivers ds v w) {P : κ → Prop} (hsome : ∀ x ∈ ds, P x.1)
    (hnone : ∀ k, P k → w.waiter k = none) (k : κ) (p : PendingEntry) :
    (k, p) ∈ ds ↔ v.waiter k = some p ∧ P k := by
  refine ⟨fun hx => ⟨h.here _ hx, hsome _ hx⟩, fun ⟨hp, hk⟩ => ?_⟩
  by_cases hmem : k ∈ ds.map Prod.fst
  · obtain ⟨x, hx, rfl⟩ := List.mem_map.mp hmem
    rw [h.here x hx] at hp
    cases hp
    exact hx
  · rw [← h.kept k hmem, hnone k hk] at hp
    cases hp

end Delivers

namespace IoState

theorem fire_eq (s : IoState) (p : PendingEntry) :
    s.fire p = (!(woken s.heap p).isEmpty,
      { s with
        heap := settle s.heap p
        reactor := { s.reactor with ready := s.reactor.ready ++ woken s.heap p } }) := by
  obtain ⟨handle, result, state, completion⟩ := p
  cases state with
  | none =>
    cases result <;> cases handle <;>
      simp [fire, woken, settle, PendingEntry.complete, PendingEntry.awake]
  | some q =>
    by_cases hq : s.heap.state q = .pending
    · cases result <;> cases handle <;>
        simp [fire, woken, settle, PendingEntry.complete, PendingEntry.awake, hq]
    · simp [fire, woken, settle, PendingEntry.awake, hq]

def view (r : ℕ × IoState) : DispatchView (ℕ × Direction) where
  waiter k := (r.2.reactor.slotAt k.1).get k.2
  heap := r.2.heap
  ready := r.2.reactor.ready
  count := r.1

/-! ## The events of one poll -/

def Hits (ep : BitVec 32) (d : Direction) : Prop :=
  ep &&& d.epollBit ≠ 0 ∨ ep &&& (epollErr ||| epollHup) ≠ 0

instance (ep : BitVec 32) (d : Direction) : Decidable (Hits ep d) :=
  inferInstanceAs (Decidable (_ ∨ _))

theorem dispatch_delivers (d : Direction) {i : ℕ} (ep : BitVec 32) {r : ℕ × IoState}
    (hi : i < r.2.reactor.slots.length) :
    ∃ ds, Delivers ds (view r) (view (dispatch d i ep r)) ∧ (∀ x ∈ ds, x.1 = (i, d) ∧ Hits ep d) ∧
      (Hits ep d → (view (dispatch d i ep r)).waiter (i, d) = none) := by
  unfold dispatch
  cases hp : (r.2.reactor.slotAt i).get d with
  | none =>
    refine ⟨[], Delivers.refl _, ?_, fun _ => hp⟩
    intro x hx
    cases hx
  | some p =>
    dsimp only
    by_cases hev : ep &&& d.epollBit ≠ 0 ∨ ep &&& (epollErr ||| epollHup) ≠ 0
    swap
    · rw [if_neg hev]
      refine ⟨[], Delivers.refl _, ?_, fun hhit => absurd hhit hev⟩
      intro x hx
      cases hx
    rw [if_pos hev, fire_eq]
    dsimp only
    set u : IoState := { r.2 with
      heap := settle r.2.heap p
      reactor := { r.2.reactor with ready := r.2.reactor.ready ++ woken r.2.heap p } } with hu
    have hlen : i < u.reactor.slots.length := hi
    have hget : ∀ k : ℕ × Direction,
        ((u.withSlot i ((u.reactor.slotAt i).set d none)).reactor.slotAt k.1).get k.2 =
          if k = (i, d) then none else (view r).waiter k := by
      intro k
      rw [slotAt_withSlot hlen]
      by_cases hj : k.1 = i
      · rw [if_pos hj, FdEntry.get_set]
        by_cases hd : k.2 = d
        · rw [if_pos hd, if_pos (Prod.ext hj hd)]
        · rw [if_neg hd, if_neg (fun h => hd (congrArg Prod.snd h)), ← hj]
          rfl
      · rw [if_neg hj, if_neg (fun h => hj (congrArg Prod.fst h))]
        rfl
    refine ⟨[((i, d), p)], Delivers.single hp hget rfl rfl rfl, ?_, fun _ => ?_⟩
    · intro x hx
      rw [List.mem_singleton.mp hx]
      exact ⟨rfl, hev⟩
    · exact (hget (i, d)).trans (if_pos rfl)

theorem handleEvent_delivers (r : ℕ × IoState) (ev : ℤ × BitVec 32) :
    ∃ ds, Delivers ds (view r) (view (handleEvent r ev)) ∧
      (∀ x ∈ ds, (x.1.1 : ℤ) = ev.1 ∧ Hits ev.2 x.1.2) ∧
      ∀ (i : ℕ) d, (i : ℤ) = ev.1 → Hits ev.2 d →
        (view (handleEvent r ev)).waiter (i, d) = none := by
  unfold handleEvent
  by_cases hfd : ev.1 < 0 ∨ r.2.reactor.slots.length ≤ ev.1.toNat
  · rw [if_pos hfd]
    refine ⟨[], Delivers.refl _, ?_, fun i d hi _ => idle_of_out_of_range hfd i hi d⟩
    intro x hx
    cases hx
  rw [if_neg hfd]
  have hslot : ∀ i : ℕ, (i : ℤ) = ev.1 → i = ev.1.toNat := by
    intro i hi
    omega
  by_cases hidle : (r.2.reactor.slotAt ev.1.toNat).isIdle = true
  · rw [if_pos hidle]
    refine ⟨[], Delivers.refl _, ?_, fun i d hi _ => ?_⟩
    · intro x hx
      cases hx
    · rw [hslot i hi]
      exact (FdEntry.isIdle_iff _).mp hidle d
  rw [if_neg hidle]
  dsimp only
  set r₁ := dispatch .read ev.1.toNat ev.2 r with hr₁
  obtain ⟨ds, hread, hds, hreadNone⟩ :=
    dispatch_delivers .read (i := ev.1.toNat) ev.2 (r := r) (by omega)
  obtain ⟨es, hwrite, hes, hwriteNone⟩ :=
    dispatch_delivers .write (i := ev.1.toNat) ev.2 (r := r₁)
      (by rw [(dispatch_shrinks .read ev.2 (by omega)).length]; omega)
  rw [rearmOrErase_eq]
  refine ⟨ds ++ es, hread.trans hwrite, ?_, ?_⟩
  · intro x hx
    rcases List.mem_append.mp hx with hx | hx
    · obtain ⟨hplace, hhit⟩ := hds x hx
      rw [hplace]
      exact ⟨by omega, hhit⟩
    · obtain ⟨hplace, hhit⟩ := hes x hx
      rw [hplace]
      exact ⟨by omega, hhit⟩
  · intro i d hi hhit
    rw [hslot i hi]
    cases d with
    | write => exact hwriteNone hhit
    | read =>
      by_cases hmem : (ev.1.toNat, Direction.read) ∈ es.map Prod.fst
      · exact hwrite.emptied_place hmem
      · exact (hwrite.kept _ hmem).trans (hreadNone hhit)

def Reported (events : List (ℤ × BitVec 32)) (i : ℕ) (d : Direction) : Prop :=
  ∃ ev ∈ events, ev.1 = i ∧ Hits ev.2 d

instance (events : List (ℤ × BitVec 32)) (i : ℕ) (d : Direction) :
    Decidable (Reported events i d) :=
  inferInstanceAs (Decidable (∃ ev ∈ events, ev.1 = i ∧ Hits ev.2 d))

theorem handleEvents_delivers (events : List (ℤ × BitVec 32)) (r : ℕ × IoState) :
    ∃ ds, Delivers ds (view r) (view (events.foldl handleEvent r)) ∧
      (∀ x ∈ ds, Reported events x.1.1 x.1.2) ∧
      ∀ i d, Reported events i d → (view (events.foldl handleEvent r)).waiter (i, d) = none := by
  induction events generalizing r with
  | nil =>
    refine ⟨[], Delivers.refl _, ?_, ?_⟩
    · intro x hx
      cases hx
    · rintro i d ⟨ev, hev, -⟩
      cases hev
  | cons ev events ih =>
    obtain ⟨ds, hfirst, hds, hnone⟩ := handleEvent_delivers r ev
    obtain ⟨es, hrest, hes, hnones⟩ := ih (handleEvent r ev)
    rw [List.foldl_cons]
    refine ⟨ds ++ es, hfirst.trans hrest, ?_, ?_⟩
    · intro x hx
      rcases List.mem_append.mp hx with hx | hx
      · obtain ⟨hi, hhit⟩ := hds x hx
        exact ⟨ev, List.mem_cons_self .., hi.symm, hhit⟩
      · obtain ⟨ev', hev', hreport⟩ := hes x hx
        exact ⟨ev', List.mem_cons_of_mem ev hev', hreport⟩
    · intro i d hreport
      by_cases hmem : (i, d) ∈ es.map Prod.fst
      · exact hrest.emptied_place hmem
      rcases hreport with ⟨ev', hev', hi, hhit⟩
      rcases List.mem_cons.mp hev' with rfl | hev'
      · exact (hrest.kept (i, d) hmem).trans (hnone i d hi.symm hhit)
      · exact hnones i d ⟨ev', hev', hi, hhit⟩

/-- A poll dispatches the waiters whose direction is reported, each of them once, and leaves
the others where they are. -/
theorem poll_delivers (s : IoState) (events : List (ℤ × BitVec 32)) :
    ∃ ds n t, s.poll (.reported events) = (.ok n, t) ∧ Delivers ds (view (0, s)) (view (n, t)) ∧
      (∀ i d p, ((i, d), p) ∈ ds ↔ (s.reactor.slotAt i).get d = some p ∧ Reported events i d) ∧
      ∀ i d, (t.reactor.slotAt i).get d =
        if Reported events i d then none else (s.reactor.slotAt i).get d := by
  set k := events.foldl (fun k ev => k.report ev.1) s.kernel with hk
  obtain ⟨ds, hd, hds, hnone⟩ := handleEvents_delivers events (0, { s with kernel := k })
  refine ⟨ds, _, _, rfl, hd, ?_, ?_⟩
  · intro i d p
    exact hd.mem_iff (P := fun k => Reported events k.1 k.2) hds
      (fun k hk => hnone k.1 k.2 hk) (i, d) p
  · intro i d
    split_ifs with hreport
    · exact hnone i d hreport
    · refine hd.kept (i, d) fun hmem => ?_
      obtain ⟨x, hx, hplace⟩ := List.mem_map.mp hmem
      have hx' := hds x hx
      rw [hplace] at hx'
      exact hreport hx'

end IoState

/-! ## Runs of the reactor -/

inductive ReactorOp where
  | io (op : IoOp)
  | fault (f : ℤ → Option Errno)

/-- The operation takes the waiter from the place `(i, d)`: a poll that reports it, or a
withdrawal. A `remove` that fails takes nothing. -/
def ReactorOp.Takes (s : IoState) (i : ℕ) (d : Direction) : ReactorOp → Prop
  | .io (.poll (.reported events)) => IoState.Reported events i d
  | .io (.deregister fd) => fd = i
  | .io (.deregisterDir fd dir) => fd = i ∧ hasFlag dir d.flag = true
  | .io (.remove fd) => fd = i ∧ (s.remove fd).1 = .ok ()
  | _ => False

namespace IoState
variable {s t : IoState} {i : ℕ} {d : Direction} {p : PendingEntry}

def stepFaulty (s : IoState) : ReactorOp → Option IoState
  | .io op => s.step op
  | .fault f => some { s with kernel := { s.kernel with fault := f } }

def registerDir (s : IoState) : Direction → ℤ → PendingEntry → Result Unit × IoState
  | .read => s.registerRead
  | .write => s.registerWrite

def withdrawn (dir : IoEvent) (e : FdEntry) : FdEntry :=
  let e := if hasFlag dir IoEvent.read then e.set .read none else e
  if hasFlag dir IoEvent.write then e.set .write none else e

theorem get_withdrawn (dir : IoEvent) (e : FdEntry) (d : Direction) :
    (withdrawn dir e).get d = if hasFlag dir d.flag = true then none else e.get d := by
  unfold withdrawn
  cases d with
  | read =>
    change _ = if hasFlag dir IoEvent.read = true then none else _
    cases hasFlag dir IoEvent.read <;> cases hasFlag dir IoEvent.write <;> rfl
  | write =>
    change _ = if hasFlag dir IoEvent.write = true then none else _
    cases hasFlag dir IoEvent.read <;> cases hasFlag dir IoEvent.write <;> rfl

theorem deregisterDir_cases (s : IoState) (fd : ℤ) (dir : IoEvent) :
    ((s.deregisterDir fd dir).heap = s.heap ∧
      (s.deregisterDir fd dir).reactor.ready = s.reactor.ready) ∧
    ∀ (j : ℕ) c, ((s.deregisterDir fd dir).reactor.slotAt j).get c =
      if (j : ℤ) = fd ∧ hasFlag dir c.flag = true then none else (s.reactor.slotAt j).get c := by
  unfold deregisterDir
  by_cases hfd : fd < 0 ∨ s.reactor.slots.length ≤ fd.toNat
  · rw [if_pos hfd]
    refine ⟨⟨rfl, rfl⟩, fun j c => ?_⟩
    split_ifs with hj
    · exact idle_of_out_of_range hfd j hj.1 c
    · rfl
  rw [if_neg hfd]
  dsimp only
  by_cases hidle : (s.reactor.slotAt fd.toNat).isIdle = true
  · rw [if_pos hidle]
    refine ⟨⟨rfl, rfl⟩, fun j c => ?_⟩
    split_ifs with hj
    · have hn : fd.toNat = j := by omega
      rw [hn, FdEntry.isIdle_iff] at hidle
      exact hidle c
    · rfl
  rw [if_neg hidle, rearmOrErase_eq]
  refine ⟨⟨rfl, rfl⟩, fun j c => ?_⟩
  have hslot := slotAt_withSlot (s := s) (i := fd.toNat) (by omega)
    (withdrawn dir (s.reactor.slotAt fd.toNat)) j
  change ((s.withSlot fd.toNat (withdrawn dir (s.reactor.slotAt fd.toNat))).reactor.slotAt j).get
    c = _
  rw [hslot]
  by_cases hj : j = fd.toNat
  · have hcast : (j : ℤ) = fd := by omega
    rw [if_pos hj, get_withdrawn, hj]
    rw [hj] at hcast
    simp only [hcast, true_and]
  · have hcast : (j : ℤ) ≠ fd := by omega
    rw [if_neg hj, if_neg (fun h => hcast h.1)]

theorem remove_cases (s : IoState) (fd : ℤ) :
    ((s.remove fd).2.heap = s.heap ∧ (s.remove fd).2.reactor.ready = s.reactor.ready) ∧
    (((∃ e, (s.remove fd).1 = .error e) ∧ (s.remove fd).2 = s) ∨
      ((s.remove fd).1 = .ok () ∧ ∀ j : ℕ, (s.remove fd).2.reactor.slotAt j =
        if (j : ℤ) = fd then FdEntry.idle else s.reactor.slotAt j)) := by
  have hclear : ∀ j : ℕ, (s.reactor.clearSlot fd).slotAt j =
      if (j : ℤ) = fd then FdEntry.idle else s.reactor.slotAt j := s.reactor.slotAt_clearSlot fd
  unfold remove
  by_cases hneg : fd < 0
  · rw [if_pos hneg]
    refine ⟨⟨rfl, rfl⟩, Or.inr ⟨rfl, fun j => ?_⟩⟩
    rw [if_neg (by omega)]
  rw [if_neg hneg]
  cases s.kernel.epollCtl .del fd 0 with
  | ok k => exact ⟨⟨rfl, clearSlot_ready _ fd⟩, Or.inr ⟨rfl, hclear⟩⟩
  | error e =>
    dsimp only
    split_ifs
    · exact ⟨⟨rfl, rfl⟩, Or.inl ⟨⟨_, rfl⟩, rfl⟩⟩
    · exact ⟨⟨rfl, clearSlot_ready _ fd⟩, Or.inr ⟨rfl, hclear⟩⟩

theorem ensureSlot_slots (r : EpollReactor) (i : ℕ) :
    ∃ n, (r.ensureSlot i).slots = r.slots ++ List.replicate n FdEntry.idle := by
  unfold EpollReactor.ensureSlot
  split_ifs
  · exact ⟨_, rfl⟩
  · exact ⟨0, (List.append_nil _).symm⟩

theorem register_error {negative busy : String} {fd : ℤ} {e : SystemError}
    (h : register d negative busy s fd p = (.error e, t)) :
    t.heap = s.heap ∧ t.reactor.ready = s.reactor.ready ∧
      ∃ n, t.reactor.slots = s.reactor.slots ++ List.replicate n FdEntry.idle := by
  obtain ⟨⟨hheap, hready, -⟩, -⟩ := register_cases d negative busy s fd p h
  refine ⟨hheap, hready, ?_⟩
  obtain ⟨n, hn⟩ := ensureSlot_slots s.reactor fd.toNat
  unfold register at h
  by_cases hneg : fd < 0
  · rw [if_pos hneg] at h
    obtain ⟨-, rfl⟩ := Prod.mk.inj h
    exact ⟨0, (List.append_nil _).symm⟩
  rw [if_neg hneg] at h
  dsimp only at h
  set v : IoState := { s with reactor := s.reactor.ensureSlot fd.toNat } with hv
  by_cases hbusy : ((v.reactor.slotAt fd.toNat).get d).isSome = true
  · rw [if_pos hbusy] at h
    obtain ⟨-, rfl⟩ := Prod.mk.inj h
    exact ⟨n, hn⟩
  rw [if_neg hbusy] at h
  set u := v.withSlot fd.toNat ((v.reactor.slotAt fd.toNat).set d (some p)) with hu
  obtain ⟨-, hreactor⟩ := ensure_heap u fd (registerInterest d (v.reactor.slotAt fd.toNat))
  have hlen : fd.toNat < v.reactor.slots.length := s.reactor.lt_length_ensureSlot fd.toNat
  have hslot : u.reactor.slotAt fd.toNat = (v.reactor.slotAt fd.toNat).set d (some p) := by
    rw [hu, slotAt_withSlot hlen, if_pos rfl]
  cases hres : u.ensure fd (registerInterest d (v.reactor.slotAt fd.toNat)) with
  | mk res w =>
    rw [hres] at h hreactor
    dsimp only at h hreactor
    cases res with
    | ok _ => cases (Prod.mk.inj h).1
    | error err =>
      obtain ⟨-, rfl⟩ := Prod.mk.inj h
      refine ⟨n, ?_⟩
      rw [Option.not_isSome_iff_eq_none] at hbusy
      have hback : v.reactor.slots.set fd.toNat (v.reactor.slotAt fd.toNat) = v.reactor.slots := by
        rw [EpollReactor.slotAt, List.getD_eq_getElem _ _ hlen, List.set_getElem_self]
      rw [withSlot, hreactor, hslot, set_set_none hbusy, EpollReactor.setSlot, hu, withSlot,
        EpollReactor.setSlot, List.set_set, hback]
      exact hn

theorem register_ok {negative busy : String} {fd : ℤ}
    (h : register d negative busy s fd p = (.ok (), t)) :
    t.heap = s.heap ∧ t.reactor.ready = s.reactor.ready ∧
      ∃ i : ℕ, (i : ℤ) = fd ∧ (s.reactor.slotAt i).get d = none ∧
        ∀ j c, (t.reactor.slotAt j).get c =
          if j = i ∧ c = d then some p else (s.reactor.slotAt j).get c := by
  obtain ⟨⟨hheap, hready, -⟩, hcases⟩ := register_cases d negative busy s fd p h
  obtain ⟨⟨e, he⟩, -⟩ | ⟨-, hfd, -, hslots⟩ := hcases
  · cases he
  have hcast : ((fd.toNat : ℕ) : ℤ) = fd := by omega
  refine ⟨hheap, hready, fd.toNat, hcast, ?_, fun j c => ?_⟩
  · unfold register at h
    rw [if_neg (by omega)] at h
    dsimp only at h
    rw [EpollReactor.slotAt_ensureSlot] at h
    by_contra hbusy
    rw [if_pos (Option.isSome_iff_ne_none.mpr hbusy)] at h
    cases (Prod.mk.inj h).1
  · rw [hslots]
    by_cases hj : j = fd.toNat
    · have hjcast : (j : ℤ) = fd := by omega
      rw [if_pos hjcast, FdEntry.get_set]
      simp only [hj, true_and]
    · have hjcast : (j : ℤ) ≠ fd := by omega
      rw [if_neg hjcast, if_neg (fun h => hj h.1)]

theorem register_keeps (d' : Direction) (negative busy : String) (s : IoState) (fd : ℤ)
    (p' : PendingEntry) (hp : (s.reactor.slotAt i).get d = some p) :
    ((register d' negative busy s fd p').2.reactor.slotAt i).get d = some p := by
  cases hreg : register d' negative busy s fd p' with
  | mk res t =>
    cases res with
    | ok _ =>
      obtain ⟨-, -, j, -, hnone, hslots⟩ := register_ok hreg
      dsimp only
      rw [hslots, if_neg, hp]
      rintro ⟨rfl, rfl⟩
      rw [hp] at hnone
      cases hnone
    | error e =>
      obtain ⟨-, hcases⟩ := register_cases d' negative busy s fd p' hreg
      obtain ⟨-, hslots⟩ | ⟨hok, -⟩ := hcases
      · dsimp only
        rw [hslots, hp]
      · cases hok

/-- A waiter stays in its place as long as no operation names that place. -/
theorem stepFaulty_keeps {op : ReactorOp} (hstep : s.stepFaulty op = some t)
    (hp : (s.reactor.slotAt i).get d = some p) (hop : ¬op.Takes s i d) :
    (t.reactor.slotAt i).get d = some p := by
  cases op with
  | fault f => exact Option.some.inj hstep ▸ hp
  | io op =>
    cases op <;> simp only [stepFaulty, IoState.step, Option.some.injEq] at hstep
    case registerRead fd p' => exact hstep ▸ register_keeps _ _ _ s fd p' hp
    case registerWrite fd p' => exact hstep ▸ register_keeps _ _ _ s fd p' hp
    case deregister fd =>
      rw [← hstep, IoState.deregister, EpollReactor.slotAt_clearSlot, if_neg (Ne.symm hop), hp]
    case deregisterDir fd dir =>
      rw [← hstep, (deregisterDir_cases s fd dir).2, if_neg, hp]
      exact fun h => hop ⟨h.1.symm, h.2⟩
    case remove fd =>
      rw [← hstep]
      rcases (remove_cases s fd).2 with ⟨-, hsame⟩ | ⟨hok, hslots⟩
      · rw [hsame, hp]
      · rw [hslots, if_neg (fun h => hop ⟨h.symm, hok⟩), hp]
    case poll report =>
      rw [← hstep]
      cases report with
      | failed e => cases e <;> exact hp
      | reported events =>
        obtain ⟨ds, n, t, ht, -, -, hslots⟩ := poll_delivers s events
        have hreport : ¬Reported events i d := hop
        rw [ht, hslots, if_neg hreport, hp]
    case drainReady => exact hstep ▸ hp
    case heap m => exact hstep ▸ hp
    case openFd fd => exact hstep ▸ hp
    case closeFd fd =>
      split_ifs at hstep
      exact Option.some.inj hstep ▸ hp

theorem run_keeps {ops : List ReactorOp} (hr : Transition.run stepFaulty s ops = some t)
    (hp : (s.reactor.slotAt i).get d = some p)
    (hops : Transition.Guarded stepFaulty (fun u op => ¬op.Takes u i d) s ops) :
    (t.reactor.slotAt i).get d = some p := by
  refine Transition.invariant_of_guarded (fun u op => ¬op.Takes u i d)
    (fun u => (u.reactor.slotAt i).get d = some p) ?_ hp hops hr
  intro u op v hop hstep hu
  exact stepFaulty_keeps hstep hu hop

theorem stepFaulty_ready {op : ReactorOp} (hstep : s.stepFaulty op = some t)
    (hpoll : ∀ report, op ≠ .io (.poll report)) (hdrain : op ≠ .io .drainReady) :
    t.reactor.ready = s.reactor.ready := by
  cases op with
  | fault f => exact Option.some.inj hstep ▸ rfl
  | io op =>
    cases op <;> simp only [stepFaulty, IoState.step, Option.some.injEq] at hstep
    case registerRead fd p => exact hstep ▸ (register_frame _ _ _ s fd p).ready
    case registerWrite fd p => exact hstep ▸ (register_frame _ _ _ s fd p).ready
    case deregister fd => exact hstep ▸ (deregister_frame s fd).ready
    case deregisterDir fd dir => exact hstep ▸ (deregisterDir_frame s fd dir).ready
    case remove fd => exact hstep ▸ (remove_frame s fd).ready
    case poll report => exact absurd rfl (hpoll report)
    case drainReady => exact absurd rfl hdrain
    case heap m => exact hstep ▸ rfl
    case openFd fd => exact hstep ▸ rfl
    case closeFd fd =>
      split_ifs at hstep
      exact Option.some.inj hstep ▸ rfl

theorem registerDir_eq (s : IoState) (d : Direction) :
    ∃ negative busy, s.registerDir d = register d negative busy s := by
  cases d with
  | read => exact ⟨_, _, rfl⟩
  | write => exact ⟨_, _, rfl⟩

/-- What holds of the waiters in a state and in everything that follows it. A place is a
direction of an fd, and its type leaves room for one waiter only. -/
structure Conserves (s : IoState) : Prop where
  accepted : ∀ d fd p t, s.registerDir d fd p = (.ok (), t) →
    ∃ i : ℕ, (i : ℤ) = fd ∧ (s.reactor.slotAt i).get d = none ∧
      ∀ j c, (t.reactor.slotAt j).get c =
        if j = i ∧ c = d then some p else (s.reactor.slotAt j).get c
  refused : ∀ d fd p e t, s.registerDir d fd p = (.error e, t) →
    t.heap = s.heap ∧ t.reactor.ready = s.reactor.ready ∧
      ∃ n, t.reactor.slots = s.reactor.slots ++ List.replicate n FdEntry.idle
  stays : ∀ ops t i d p, Transition.run stepFaulty s ops = some t →
    (s.reactor.slotAt i).get d = some p →
    Transition.Guarded stepFaulty (fun u op => ¬op.Takes u i d) s ops →
    (t.reactor.slotAt i).get d = some p
  deregistered : ∀ fd (j : ℕ) c, ((s.deregister fd).reactor.slotAt j).get c =
    if (j : ℤ) = fd then none else (s.reactor.slotAt j).get c
  deregisteredDir : ∀ fd dir (j : ℕ) c, ((s.deregisterDir fd dir).reactor.slotAt j).get c =
    if (j : ℤ) = fd ∧ hasFlag dir c.flag = true then none else (s.reactor.slotAt j).get c
  removed : ∀ fd, ((∃ e, (s.remove fd).1 = .error e) ∧ (s.remove fd).2 = s) ∨
    ((s.remove fd).1 = .ok () ∧ ∀ (j : ℕ) c, ((s.remove fd).2.reactor.slotAt j).get c =
      if (j : ℤ) = fd then none else (s.reactor.slotAt j).get c)
  silent : ∀ op t, s.stepFaulty op = some t → (∀ report, op ≠ .io (.poll report)) →
    op ≠ .io .drainReady → t.reactor.ready = s.reactor.ready
  dispatched : ∀ events, ∃ ds n t, s.poll (.reported events) = (.ok n, t) ∧
    (ds.map Prod.fst).Nodup ∧
    (∀ i d p, ((i, d), p) ∈ ds ↔ (s.reactor.slotAt i).get d = some p ∧ Reported events i d) ∧
    (∀ i d, (t.reactor.slotAt i).get d =
      if Reported events i d then none else (s.reactor.slotAt i).get d) ∧
    t.reactor.ready = s.reactor.ready ++ wokenAll s.heap (ds.map Prod.snd) ∧
    n = (wokenAll s.heap (ds.map Prod.snd)).length ∧
    ∀ pre x post, ds = pre ++ x :: post →
      wokenAll s.heap (ds.map Prod.snd) = wokenAll s.heap (pre.map Prod.snd) ++
        (if x.2.awake (settleAll s.heap (pre.map Prod.snd)) then x.2.handle.toList else []) ++
        wokenAll (settleAll s.heap ((pre ++ [x]).map Prod.snd)) (post.map Prod.snd)

theorem wokenAll_cut (m : Heap) (pre : List PendingEntry) (p : PendingEntry)
    (post : List PendingEntry) : wokenAll m (pre ++ p :: post) =
      wokenAll m pre ++ (if p.awake (settleAll m pre) then p.handle.toList else []) ++
        wokenAll (settleAll m (pre ++ [p])) post := by
  rw [PendingEntry.wokenAll_append, wokenAll, ← List.append_assoc, PendingEntry.settleAll_append]
  rfl

/-- From every state, whatever the kernel reports and wherever `epoll_ctl` fails, waiters are
neither lost, doubled nor dispatched without a report of their place, and a withdrawal takes the
waiters it names and no others. -/
theorem waiters_conserved (s : IoState) : Conserves s where
  accepted d fd p t hreg := by
    obtain ⟨negative, busy, heq⟩ := s.registerDir_eq d
    rw [heq] at hreg
    exact (register_ok hreg).2.2
  refused d fd p e t hreg := by
    obtain ⟨negative, busy, heq⟩ := s.registerDir_eq d
    rw [heq] at hreg
    exact register_error hreg
  stays _ _ _ _ _ hr hp hops := run_keeps hr hp hops
  deregistered fd j c := by
    rw [IoState.deregister, EpollReactor.slotAt_clearSlot]
    split_ifs
    · exact FdEntry.get_idle c
    · rfl
  deregisteredDir fd dir := (deregisterDir_cases s fd dir).2
  removed fd := by
    refine (remove_cases s fd).2.imp_right fun h => ⟨h.1, fun j c => ?_⟩
    rw [h.2]
    split_ifs
    · exact FdEntry.get_idle c
    · rfl
  silent _ _ hstep hpoll hdrain := stepFaulty_ready hstep hpoll hdrain
  dispatched events := by
    obtain ⟨ds, n, t, ht, hd, hmem, hslots⟩ := poll_delivers s events
    have hcount : n = 0 + (wokenAll s.heap (ds.map Prod.snd)).length := hd.count
    rw [Nat.zero_add] at hcount
    refine ⟨ds, n, t, ht, hd.once, hmem, hslots, hd.ready, hcount, ?_⟩
    intro pre x post hcut
    rw [hcut, List.map_append, List.map_cons, List.map_append, List.map_cons, List.map_nil]
    exact wokenAll_cut s.heap _ x.2 _

/-- Two readers on different fds share a wait state: the first event wakes its reader, the
second one finds the state moved. -/
example : ((fresh ⟨fun _ => true, fun _ => none, fun _ => none⟩
      ⟨fun _ => .pending, fun _ => .ok 0, fun _ => false⟩).registerRead 3
        ⟨some 0, none, some 9, .ready⟩).2.registerRead 5 ⟨some 1, none, some 9, .ready⟩ |>.2.poll
          (.reported [(5, epollIn), (3, epollErr), (5, epollIn), (-1, epollIn)])
          |>.2.reactor.ready =
    [1] := by decide

end IoState
end RainRuntime
