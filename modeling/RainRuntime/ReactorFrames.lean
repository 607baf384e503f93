import RainRuntime.ArmedInterest

/-!
# What an operation of the reactor leaves alone

A registration, a withdrawal and the processing of a report each touch the slot of one fd
and nothing else; the ready list grows only by the handles that fire. `Tracked` follows one
handle through all of this.
-/

namespace RainRuntime
namespace IoState
variable {s t : IoState} {fd : ℤ}

theorem get_withSlot_clear {i : ℕ} (hi : i < s.reactor.slots.length) (d : Direction)
    {j : ℕ} {c : Direction} {e : PendingEntry}
    (h : ((s.withSlot i ((s.reactor.slotAt i).set d none)).reactor.slotAt j).get c = some e) :
    (s.reactor.slotAt j).get c = some e ∧ ¬(j = i ∧ c = d) := by
  rw [slotAt_withSlot hi] at h
  split_ifs at h with hj
  · rw [FdEntry.get_set] at h
    split_ifs at h with hc
    exact ⟨by rw [hj]; exact h, fun hjc => hc hjc.2⟩
  · exact ⟨h, fun hjc => hj hjc.1⟩

theorem ensure_heap (s : IoState) (fd : ℤ) (events : IoEvent) :
    (s.ensure fd events).2.heap = s.heap ∧ (s.ensure fd events).2.reactor = s.reactor := by
  rw [ensure_eq]
  exact ⟨rfl, rfl⟩

theorem open_of_ensure {events : IoEvent} {u : IoState} (h : s.ensure fd events = (.ok (), u)) :
    s.kernel.isOpen fd = true := by
  cases hopen : s.kernel.isOpen fd with
  | true => rfl
  | false =>
    rw [ensure_of_closed hopen] at h
    cases h

theorem ensureSlot_ready (r : EpollReactor) (i : ℕ) : (r.ensureSlot i).ready = r.ready := by
  unfold EpollReactor.ensureSlot
  split_ifs <;> rfl

theorem clearSlot_ready (r : EpollReactor) (fd : ℤ) : (r.clearSlot fd).ready = r.ready := by
  unfold EpollReactor.clearSlot
  split_ifs <;> rfl

theorem set_set_none {e : FdEntry} {d : Direction} (h : e.get d = none) (p : PendingEntry) :
    (e.set d (some p)).set d none = e := by
  cases d with
  | read =>
    cases e
    simp only [FdEntry.get] at h
    subst h
    rfl
  | write =>
    cases e
    simp only [FdEntry.get] at h
    subst h
    rfl

theorem register_cases (d : Direction) (negative busy : String) (s : IoState) (fd : ℤ)
    (p : PendingEntry) {r : Result Unit} {t : IoState}
    (h : register d negative busy s fd p = (r, t)) :
    (t.heap = s.heap ∧ t.reactor.ready = s.reactor.ready ∧ t.kernel.isOpen = s.kernel.isOpen) ∧
      (((∃ e, r = .error e) ∧ ∀ j, t.reactor.slotAt j = s.reactor.slotAt j) ∨
        (r = .ok () ∧ 0 ≤ fd ∧ s.kernel.isOpen fd = true ∧ ∀ j : ℕ, t.reactor.slotAt j =
          if (j : ℤ) = fd then (s.reactor.slotAt j).set d (some p) else s.reactor.slotAt j)) := by
  unfold register at h
  by_cases hneg : fd < 0
  · rw [if_pos hneg] at h
    obtain ⟨rfl, rfl⟩ := Prod.mk.inj h
    exact ⟨⟨rfl, rfl, rfl⟩, Or.inl ⟨⟨_, rfl⟩, fun _ => rfl⟩⟩
  rw [if_neg hneg] at h
  dsimp only at h
  set v : IoState := { s with reactor := s.reactor.ensureSlot fd.toNat } with hv
  have hslot : ∀ j, v.reactor.slotAt j = s.reactor.slotAt j :=
    s.reactor.slotAt_ensureSlot fd.toNat
  have hready : v.reactor.ready = s.reactor.ready := ensureSlot_ready _ _
  have hlen : fd.toNat < v.reactor.slots.length := s.reactor.lt_length_ensureSlot fd.toNat
  by_cases hbusy : ((v.reactor.slotAt fd.toNat).get d).isSome = true
  · rw [if_pos hbusy] at h
    obtain ⟨rfl, rfl⟩ := Prod.mk.inj h
    exact ⟨⟨rfl, hready, rfl⟩, Or.inl ⟨⟨_, rfl⟩, hslot⟩⟩
  rw [if_neg hbusy] at h
  set u := v.withSlot fd.toNat ((v.reactor.slotAt fd.toNat).set d (some p)) with hu
  obtain ⟨hheap, hreactor⟩ := ensure_heap u fd (registerInterest d (v.reactor.slotAt fd.toNat))
  have hfds := (ensure_sameFds u fd (registerInterest d (v.reactor.slotAt fd.toNat))).1
  have huslot : ∀ j : ℕ, u.reactor.slotAt j =
      if (j : ℤ) = fd then (s.reactor.slotAt j).set d (some p) else s.reactor.slotAt j := by
    intro j
    rw [hu, slotAt_withSlot hlen, hslot, hslot]
    by_cases hj : j = fd.toNat
    · rw [if_pos hj, if_pos (by omega), hj]
    · rw [if_neg hj, if_neg (by omega)]
  cases hres : u.ensure fd (registerInterest d (v.reactor.slotAt fd.toNat)) with
  | mk res w =>
    rw [hres] at h hheap hreactor hfds
    dsimp only at h hheap hreactor hfds
    cases res with
    | ok _ =>
      obtain ⟨rfl, rfl⟩ := Prod.mk.inj h
      refine ⟨⟨hheap, by rw [hreactor]; exact hready, hfds⟩, Or.inr ⟨rfl, by omega, ?_, ?_⟩⟩
      · exact open_of_ensure (s := u) hres
      · rw [hreactor]
        exact huslot
    | error err =>
      obtain ⟨rfl, rfl⟩ := Prod.mk.inj h
      have hlen' : fd.toNat < w.reactor.slots.length := by
        rw [hreactor, hu, withSlot, EpollReactor.setSlot, List.length_set]
        exact hlen
      refine ⟨⟨hheap, ?_, hfds⟩, Or.inl ⟨⟨_, rfl⟩, fun j => ?_⟩⟩
      · rw [withSlot, EpollReactor.setSlot, hreactor]
        exact hready
      · rw [slotAt_withSlot hlen', hreactor, huslot, huslot]
        rw [Option.not_isSome_iff_eq_none, hslot] at hbusy
        by_cases hj : j = fd.toNat
        · rw [if_pos hj, if_pos (by omega), set_set_none hbusy, hj]
        · rw [if_neg hj, if_neg (by omega)]

theorem register_spec (d : Direction) (negative busy : String) (s : IoState) (fd : ℤ)
    (p : PendingEntry) :
    (register d negative busy s fd p).2.heap = s.heap ∧
    (register d negative busy s fd p).2.reactor.ready = s.reactor.ready ∧
    ∀ j c e, ((register d negative busy s fd p).2.reactor.slotAt j).get c = some e →
      (s.reactor.slotAt j).get c = some e ∨
      ((register d negative busy s fd p).1 = .ok () ∧ e = p ∧ c = d ∧ fd = j) := by
  generalize hreg : register d negative busy s fd p = q
  obtain ⟨r, t⟩ := q
  obtain ⟨⟨hheap, hready, -⟩, hcases⟩ := register_cases d negative busy s fd p hreg
  refine ⟨hheap, hready, fun j c e he => ?_⟩
  dsimp only at he
  rcases hcases with ⟨-, hslots⟩ | ⟨hok, -, -, hslots⟩
  · rw [hslots] at he
    exact Or.inl he
  · rw [hslots] at he
    split_ifs at he with hj
    · rw [FdEntry.get_set] at he
      split_ifs at he with hc
      · exact Or.inr ⟨hok, (Option.some.inj he).symm, hc, hj.symm⟩
      · exact Or.inl he
    · exact Or.inl he

theorem flag_eq (d c : Direction) : hasFlag d.flag c.flag = decide (c = d) := by
  cases d <;> cases c <;> decide

theorem deregisterDir_spec (s : IoState) (fd : ℤ) (d : Direction) :
    (s.deregisterDir fd d.flag).heap = s.heap ∧
    (s.deregisterDir fd d.flag).reactor.ready = s.reactor.ready ∧
    ∀ j c e, ((s.deregisterDir fd d.flag).reactor.slotAt j).get c = some e →
      (s.reactor.slotAt j).get c = some e ∧ ¬((j : ℤ) = fd ∧ c = d) := by
  unfold deregisterDir
  by_cases hfd : fd < 0 ∨ s.reactor.slots.length ≤ fd.toNat
  · rw [if_pos hfd]
    refine ⟨rfl, rfl, fun j c e he => ⟨he, fun hj => ?_⟩⟩
    rw [idle_of_out_of_range hfd j hj.1 c] at he
    cases he
  rw [if_neg hfd]
  dsimp only
  by_cases hidle : (s.reactor.slotAt fd.toNat).isIdle = true
  · rw [if_pos hidle]
    refine ⟨rfl, rfl, fun j c e he => ⟨he, fun hj => ?_⟩⟩
    have hn : fd.toNat = j := by omega
    rw [hn, FdEntry.isIdle_iff] at hidle
    rw [hidle c] at he
    cases he
  rw [if_neg hidle, rearmOrErase_eq]
  have hset : (if hasFlag d.flag IoEvent.write = true then
      (if hasFlag d.flag IoEvent.read = true then (s.reactor.slotAt fd.toNat).set .read none
        else s.reactor.slotAt fd.toNat).set .write none
      else if hasFlag d.flag IoEvent.read = true then (s.reactor.slotAt fd.toNat).set .read none
        else s.reactor.slotAt fd.toNat) = (s.reactor.slotAt fd.toNat).set d none := by
    have hr : hasFlag d.flag IoEvent.read = decide (.read = d) := flag_eq d .read
    have hw : hasFlag d.flag IoEvent.write = decide (.write = d) := flag_eq d .write
    rw [hr, hw]
    cases d <;> rfl
  rw [hset]
  refine ⟨rfl, rfl, fun j c e he => ?_⟩
  obtain ⟨he', hne⟩ := get_withSlot_clear (s := s) (i := fd.toNat) (by omega) d he
  exact ⟨he', fun hj => hne ⟨by omega, hj.2⟩⟩

/-! ## One fd in the reactor -/

structure Frame (fd : ℤ) (p : Option PendingEntry) (s t : IoState) : Prop where
  ready : t.reactor.ready = s.reactor.ready
  isOpen : t.kernel.isOpen = s.kernel.isOpen
  slots : ∀ j : ℕ, (j : ℤ) ≠ fd → t.reactor.slotAt j = s.reactor.slotAt j
  entries : ∀ j c q, (t.reactor.slotAt j).get c = some q →
    (s.reactor.slotAt j).get c = some q ∨ (p = some q ∧ s.kernel.isOpen fd = true)

theorem Frame.refl (fd : ℤ) (p : Option PendingEntry) (s : IoState) : Frame fd p s s :=
  ⟨rfl, rfl, fun _ _ => rfl, fun _ _ _ hq => Or.inl hq⟩

theorem register_frame (d : Direction) (negative busy : String) (s : IoState) (fd : ℤ)
    (p : PendingEntry) : Frame fd (some p) s (register d negative busy s fd p).2 := by
  generalize hreg : register d negative busy s fd p = r
  obtain ⟨res, t⟩ := r
  obtain ⟨⟨-, hready, hopen⟩, hcases⟩ := register_cases d negative busy s fd p hreg
  refine ⟨hready, hopen, fun j hj => ?_, fun j c q hq => ?_⟩
  · rcases hcases with ⟨-, hslots⟩ | ⟨-, -, -, hslots⟩
    · exact hslots j
    · rw [hslots, if_neg hj]
  · rcases hcases with ⟨-, hslots⟩ | ⟨-, -, hfd, hslots⟩
    · rw [hslots] at hq
      exact Or.inl hq
    · rw [hslots] at hq
      split_ifs at hq
      · rw [FdEntry.get_set] at hq
        split_ifs at hq
        · exact Or.inr ⟨hq, hfd⟩
        · exact Or.inl hq
      · exact Or.inl hq

theorem clearSlot_frame (s : IoState) {k : Kernel} (hk : k.isOpen = s.kernel.isOpen) (fd : ℤ) :
    Frame fd none s { s with kernel := k, reactor := s.reactor.clearSlot fd } := by
  refine ⟨clearSlot_ready _ fd, hk, fun j hj => ?_, fun j c q hq => Or.inl ?_⟩
  · exact (s.reactor.slotAt_clearSlot fd j).trans (if_neg hj)
  · rw [EpollReactor.slotAt_clearSlot] at hq
    split_ifs at hq
    · rw [FdEntry.get_idle] at hq
      cases hq
    · exact hq

theorem deregister_frame (s : IoState) (fd : ℤ) : Frame fd none s (s.deregister fd) :=
  clearSlot_frame s rfl fd

theorem remove_frame (s : IoState) (fd : ℤ) : Frame fd none s (s.remove fd).2 := by
  unfold remove
  split_ifs with hneg
  · exact Frame.refl fd none s
  cases hctl : s.kernel.epollCtl .del fd 0 with
  | ok k => exact clearSlot_frame s (epollCtl_sameFds hctl).1 fd
  | error e =>
    dsimp only
    split_ifs
    · exact Frame.refl fd none s
    · exact clearSlot_frame s rfl fd

theorem deregisterDir_frame (s : IoState) (fd : ℤ) (dir : IoEvent) :
    Frame fd none s (s.deregisterDir fd dir) := by
  unfold deregisterDir
  by_cases hfd : fd < 0 ∨ s.reactor.slots.length ≤ fd.toNat
  · rw [if_pos hfd]
    exact Frame.refl fd none s
  rw [if_neg hfd]
  dsimp only
  by_cases hidle : (s.reactor.slotAt fd.toNat).isIdle = true
  · rw [if_pos hidle]
    exact Frame.refl fd none s
  rw [if_neg hidle]
  set e := s.reactor.slotAt fd.toNat with he
  set e₁ := if hasFlag dir IoEvent.read = true then e.set .read none else e with he₁
  set e₂ := if hasFlag dir IoEvent.write = true then e₁.set .write none else e₁ with he₂
  have hless : ∀ c q, e₂.get c = some q → e.get c = some q := by
    have hset : ∀ (a : FdEntry) (d c : Direction) (q : PendingEntry),
        (a.set d none).get c = some q → a.get c = some q := by
      intro a d c q hq
      rcases get_set_none a d c with hsame | hnone
      · rw [← hsame]
        exact hq
      · rw [hnone] at hq
        cases hq
    intro c q hq
    rw [he₂] at hq
    have hq₁ : e₁.get c = some q := by
      split_ifs at hq
      · exact hset _ _ _ _ hq
      · exact hq
    rw [he₁] at hq₁
    split_ifs at hq₁
    · exact hset _ _ _ _ hq₁
    · exact hq₁
  have hlen : fd.toNat < s.reactor.slots.length := by omega
  have hfds := (rearmOrErase_sameFds (s.withSlot fd.toNat e₂) fd).1
  rw [rearmOrErase_eq]
  refine ⟨rfl, hfds, fun j hj => ?_, fun j c q hq => Or.inl ?_⟩
  · exact (slotAt_withSlot hlen e₂ j).trans (if_neg (by omega))
  · have hslot : ((s.withSlot fd.toNat e₂).reactor.slotAt j).get c = some q := hq
    rw [slotAt_withSlot hlen] at hslot
    split_ifs at hslot with hj
    · rw [hj]
      exact hless c q hslot
    · exact hslot

theorem handleEvent_entries {r : ℕ × IoState} {ev : ℤ × BitVec 32} {j : ℕ} {c : Direction}
    {q : PendingEntry} (hq : ((handleEvent r ev).2.reactor.slotAt j).get c = some q) :
    (r.2.reactor.slotAt j).get c = some q := by
  unfold handleEvent at hq
  by_cases hfd : ev.1 < 0 ∨ r.2.reactor.slots.length ≤ ev.1.toNat
  · rw [if_pos hfd] at hq
    exact hq
  rw [if_neg hfd] at hq
  by_cases hidle : (r.2.reactor.slotAt ev.1.toNat).isIdle = true
  · rw [if_pos hidle] at hq
    exact hq
  rw [if_neg hidle] at hq
  dsimp only at hq
  rw [rearmOrErase_eq] at hq
  have hread := dispatch_shrinks .read ev.2 (i := ev.1.toNat) (r := r) (by omega)
  have hwrite := dispatch_shrinks .write ev.2 (i := ev.1.toNat)
    (r := dispatch .read ev.1.toNat ev.2 r) (by rw [hread.length]; omega)
  rcases (hread.trans hwrite).slots j c with hsame | hnone
  · rw [← hsame]
    exact hq
  · rw [hnone] at hq
    cases hq

theorem poll_frame (s : IoState) (report : PollReport) :
    (s.poll report).2.kernel.isOpen = s.kernel.isOpen ∧
      ∀ j c q, ((s.poll report).2.reactor.slotAt j).get c = some q →
        (s.reactor.slotAt j).get c = some q := by
  cases report with
  | failed e => cases e <;> exact ⟨rfl, fun _ _ _ hq => hq⟩
  | reported events =>
    have hevents : ∀ (l : List (ℤ × BitVec 32)) (r : ℕ × IoState),
        (l.foldl handleEvent r).2.kernel.isOpen = r.2.kernel.isOpen ∧
          ∀ j c q, ((l.foldl handleEvent r).2.reactor.slotAt j).get c = some q →
            (r.2.reactor.slotAt j).get c = some q := by
      intro l
      induction l with
      | nil => exact fun r => ⟨rfl, fun _ _ _ hq => hq⟩
      | cons ev l ih =>
        intro r
        obtain ⟨hopen, hslots⟩ := ih (handleEvent r ev)
        refine ⟨hopen.trans (handleEvent_sameFds r ev).1, fun j c q hq => ?_⟩
        exact handleEvent_entries (hslots j c q hq)
    set k := events.foldl (fun k ev => k.report ev.1) s.kernel with hk
    obtain ⟨hopen, hslots⟩ := hevents events (0, { s with kernel := k })
    exact ⟨hopen.trans (Kernel.reports_frame events s.kernel).1, hslots⟩

/-! ## One handle in the reactor -/

theorem fire_count_of_ne {q : PendingEntry} {h : Handle} (hq : q.handle ≠ some h) :
    (s.fire q).2.reactor.ready.count h = s.reactor.ready.count h := by
  have hadd : ∀ l : List Handle, ∀ k, q.handle = some k → (l ++ [k]).count h = l.count h := by
    intro l k hk
    rw [List.count_append, List.count_singleton, if_neg, Nat.add_zero]
    simp only [beq_iff_eq]
    rintro rfl
    exact hq hk
  simp only [fire]
  cases hk : q.handle with
  | none =>
    cases q.state with
    | none => cases q.result <;> rfl
    | some c =>
      dsimp only
      split_ifs
      · rfl
      · cases q.result <;> rfl
  | some k =>
    cases q.state with
    | none => cases q.result <;> exact hadd _ k hk
    | some c =>
      dsimp only
      split_ifs
      · rfl
      · cases q.result <;> exact hadd _ k hk

theorem fire_ready_of_stateless {q : PendingEntry} {h : Handle} (hq : q.handle = some h)
    (hstate : q.state = none) : (s.fire q).2.reactor.ready = s.reactor.ready ++ [h] := by
  simp only [fire, hstate, hq]
  cases q.result <;> rfl

/-- `p` is the entry that holds `h`, if there is one, and stands in the read place of slot `i`;
the ready list has `h` `n` times. -/
structure Tracked (h : Handle) (i : ℕ) (p : Option PendingEntry) (n : ℕ) (s : IoState) : Prop where
  here : ∀ q, p = some q → (s.reactor.slotAt i).get .read = some q
  only : ∀ j c q, (s.reactor.slotAt j).get c = some q → q.handle = some h →
    p = some q ∧ j = i ∧ c = .read
  count : s.reactor.ready.count h = n

section Track
variable {h : Handle} {i : ℕ} {p : Option PendingEntry} {n : ℕ}

theorem Tracked.of_slots (ht : Tracked h i p n s) (hslot : t.reactor.slotAt i = s.reactor.slotAt i)
    (hentries : ∀ j c q, (t.reactor.slotAt j).get c = some q → q.handle = some h →
      (s.reactor.slotAt j).get c = some q)
    (hready : t.reactor.ready = s.reactor.ready) : Tracked h i p n t where
  here q hq := by
    rw [hslot]
    exact ht.here q hq
  only j c q hq hh := ht.only j c q (hentries j c q hq hh) hh
  count := by
    rw [hready]
    exact ht.count

theorem Tracked.of_reactor (ht : Tracked h i p n s) (hreactor : t.reactor = s.reactor) :
    Tracked h i p n t :=
  ht.of_slots (by rw [hreactor]) (fun j c q hq _ => by rw [hreactor] at hq; exact hq)
    (by rw [hreactor])

theorem Tracked.dispatch {r : ℕ × IoState} (ht : Tracked h i p n r.2)
    (hp : ∀ q, p = some q → q.handle = some h ∧ q.state = none) (d : Direction) {j : ℕ}
    (hj : j < r.2.reactor.slots.length) (ep : BitVec 32) :
    Tracked h i p n (IoState.dispatch d j ep r).2 ∨
      (p.isSome = true ∧ j = i ∧ Tracked h i none (n + 1) (IoState.dispatch d j ep r).2) := by
  unfold IoState.dispatch
  cases hq : (r.2.reactor.slotAt j).get d with
  | none => exact Or.inl ht
  | some q =>
    dsimp only
    by_cases hev : ep &&& d.epollBit ≠ 0 ∨ ep &&& (epollErr ||| epollHup) ≠ 0
    swap
    · rw [if_neg hev]
      exact Or.inl ht
    rw [if_pos hev]
    set u := (r.2.fire q).2 with hu
    have hslots : ∀ k, u.reactor.slotAt k = r.2.reactor.slotAt k := slotAt_fire r.2 q
    have hlen : j < u.reactor.slots.length := by rwa [hu, fire_slots]
    by_cases hh : q.handle = some h
    · obtain ⟨hpq, rfl, rfl⟩ := ht.only j d q hq hh
      refine Or.inr ⟨by rw [hpq]; rfl, rfl, nofun, ?_, ?_⟩
      · intro k c e he heh
        obtain ⟨hold, hne⟩ := get_withSlot_clear hlen .read he
        rw [hslots] at hold
        obtain ⟨-, hk, hc⟩ := ht.only k c e hold heh
        exact absurd ⟨hk, hc⟩ hne
      · have hready := fire_ready_of_stateless (s := r.2) hh (hp q hpq).2
        have hcount := ht.count
        rw [withSlot, EpollReactor.setSlot, hu, hready, List.count_append, hcount]
        simp
    · refine Or.inl ⟨?_, ?_, ?_⟩
      · intro e he
        have hhere := ht.here e he
        rw [slotAt_withSlot hlen, hslots, hslots]
        split_ifs with hij
        · rw [FdEntry.get_set]
          split_ifs with hd
          · rw [hij, hd, hq] at hhere
            cases hhere
            exact absurd (hp q he).1 hh
          · rw [← hij]
            exact hhere
        · exact hhere
      · intro k c e he heh
        obtain ⟨hold, -⟩ := get_withSlot_clear hlen d he
        rw [hslots] at hold
        exact ht.only k c e hold heh
      · have hcount := fire_count_of_ne (s := r.2) hh
        rw [ht.count] at hcount
        exact hcount

theorem Tracked.handleEvent {r : ℕ × IoState} (ht : Tracked h i p n r.2)
    (hp : ∀ q, p = some q → q.handle = some h ∧ q.state = none) (ev : ℤ × BitVec 32) :
    Tracked h i p n (IoState.handleEvent r ev).2 ∨
      (p.isSome = true ∧ ev.1 = i ∧ Tracked h i none (n + 1) (IoState.handleEvent r ev).2) := by
  unfold IoState.handleEvent
  by_cases hfd : ev.1 < 0 ∨ r.2.reactor.slots.length ≤ ev.1.toNat
  · rw [if_pos hfd]
    exact Or.inl ht
  rw [if_neg hfd]
  by_cases hidle : (r.2.reactor.slotAt ev.1.toNat).isIdle = true
  · rw [if_pos hidle]
    exact Or.inl ht
  rw [if_neg hidle]
  dsimp only
  have hlen : ev.1.toNat < r.2.reactor.slots.length := by omega
  have hlen' : ev.1.toNat < (IoState.dispatch .read ev.1.toNat ev.2 r).2.reactor.slots.length := by
    rw [(dispatch_shrinks .read ev.2 hlen).length]
    exact hlen
  have hrearm : ∀ u : IoState, (u.rearmOrErase ev.1).reactor = u.reactor := by
    intro u
    rw [rearmOrErase_eq]
  rcases ht.dispatch hp .read hlen ev.2 with hread | ⟨hsome, hi, hread⟩
  · rcases hread.dispatch hp .write hlen' ev.2 with hwrite | ⟨hsome, hi, hwrite⟩
    · exact Or.inl (hwrite.of_reactor (hrearm _))
    · exact Or.inr ⟨hsome, by omega, hwrite.of_reactor (hrearm _)⟩
  · rcases hread.dispatch nofun .write hlen' ev.2 with hwrite | ⟨hnone, -, -⟩
    · exact Or.inr ⟨hsome, by omega, hwrite.of_reactor (hrearm _)⟩
    · cases hnone

theorem Tracked.handleEvents (events : List (ℤ × BitVec 32)) {r : ℕ × IoState}
    (ht : Tracked h i p n r.2) (hp : ∀ q, p = some q → q.handle = some h ∧ q.state = none) :
    Tracked h i p n (events.foldl IoState.handleEvent r).2 ∨
      (p.isSome = true ∧ (∃ ev ∈ events, ev.1 = i) ∧
        Tracked h i none (n + 1) (events.foldl IoState.handleEvent r).2) := by
  induction events generalizing r p n with
  | nil => exact Or.inl ht
  | cons ev events ih =>
    rw [List.foldl_cons]
    rcases ht.handleEvent hp ev with hsame | ⟨hsome, hev, hmoved⟩
    · rcases ih hsame hp with hlast | ⟨hsome, ⟨ev', hmem, hev'⟩, hlast⟩
      · exact Or.inl hlast
      · exact Or.inr ⟨hsome, ⟨ev', List.mem_cons_of_mem ev hmem, hev'⟩, hlast⟩
    · rcases ih hmoved nofun with hlast | ⟨hnone, -, -⟩
      · exact Or.inr ⟨hsome, ⟨ev, List.mem_cons_self .., hev⟩, hlast⟩
      · cases hnone

theorem Tracked.poll (ht : Tracked h i p n s)
    (hp : ∀ q, p = some q → q.handle = some h ∧ q.state = none) (report : PollReport) :
    Tracked h i p n (s.poll report).2 ∨
      (p.isSome = true ∧ (∃ events, report = .reported events ∧ ∃ ev ∈ events, ev.1 = i) ∧
        Tracked h i none (n + 1) (s.poll report).2) := by
  cases report with
  | failed e =>
    cases e <;> exact Or.inl ht
  | reported events =>
    set k := events.foldl (fun k ev => k.report ev.1) s.kernel with hk
    have hstart : Tracked h i p n { s with kernel := k } := ht.of_reactor rfl
    rcases hstart.handleEvents (r := (0, { s with kernel := k })) events hp with
      hsame | ⟨hsome, hev, hmoved⟩
    · exact Or.inl hsame
    · exact Or.inr ⟨hsome, ⟨events, rfl, hev⟩, hmoved⟩

end Track
end IoState
end RainRuntime
