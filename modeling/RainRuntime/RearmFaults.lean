import RainRuntime.ReactorDispatch

/-!
# When re-arming fails

`rearm_or_erase` drops the result of `ensure`, and nothing in the reactor counts in
`CoreMetrics::reactor_rearm_failed`. A reported fd is disarmed, so a waiter that stays behind
on it is reached again only if `epoll_ctl` succeeds.
-/

namespace RainRuntime

namespace Kernel

theorem armedFor_congr {k k' : Kernel} {fd : ℤ} (h : k'.table fd = k.table fd) (d : Direction) :
    k'.ArmedFor fd d ↔ k.ArmedFor fd d := by
  unfold ArmedFor
  rw [h]

end Kernel

namespace IoState
variable {s t : IoState} {fd : ℤ} {i : ℕ} {d : Direction}

theorem ensure_cases (s : IoState) (fd : ℤ) (events : IoEvent) :
    (s.kernel.isOpen fd = true ∧ s.kernel.fault fd = none ∧ s.ensure fd events =
      (.ok (), { s with kernel := s.kernel.setTable fd (some ⟨toEpollEvents events, true⟩) })) ∨
    (¬(s.kernel.isOpen fd = true ∧ s.kernel.fault fd = none) ∧
      ∃ e, s.ensure fd events = (.error e, s)) := by
  cases hopen : s.kernel.isOpen fd with
  | false => exact Or.inr ⟨fun h => Bool.false_ne_true h.1, _, ensure_of_closed hopen events⟩
  | true =>
    cases hf : s.kernel.fault fd with
    | none =>
      refine Or.inl ⟨rfl, rfl, ?_⟩
      cases ht : s.kernel.table fd <;> simp [ensure, Kernel.epollCtl, hopen, hf, ht]
    | some e =>
      refine Or.inr ⟨fun h => Option.some_ne_none _ h.2, SystemError.fromErrno e, ?_⟩
      cases e <;> simp [ensure, Kernel.epollCtl, hopen, hf]

theorem registerInterest_oneShot (d : Direction) (e : FdEntry) :
    toEpollEvents (registerInterest d e) &&& epollOneShot ≠ 0 := by
  unfold registerInterest
  cases (e.get d.other).isSome <;> cases d <;> decide

theorem rearmInterest_oneShot (e : FdEntry) :
    toEpollEvents (rearmInterest e) &&& epollOneShot ≠ 0 := by
  unfold rearmInterest
  cases e.read.isSome <;> cases e.write.isSome <;> decide

/-- Everything epoll holds was installed by the reactor, and it holds something for every fd
with a waiter. -/
structure Registered (s : IoState) : Prop where
  oneShot : ∀ fd r, s.kernel.table fd = some r → r.mask &&& epollOneShot ≠ 0
  known : ∀ (i : ℕ) d, ((s.reactor.slotAt i).get d).isSome →
    s.kernel.isOpen i = true ∧ ∃ r, s.kernel.table i = some r

theorem Registered.of_kernel (h : Registered s) (htable : t.kernel.table = s.kernel.table)
    (hopen : t.kernel.isOpen = s.kernel.isOpen)
    (hslots : ∀ i d, ((t.reactor.slotAt i).get d).isSome → ((s.reactor.slotAt i).get d).isSome) :
    Registered t where
  oneShot := htable ▸ h.oneShot
  known i d hd := by
    rw [htable, hopen]
    exact h.known i d (hslots i d hd)

theorem Registered.install (h : Registered s) {mask : BitVec 32} (hmask : mask &&& epollOneShot ≠ 0)
    (hkernel : t.kernel = s.kernel.setTable fd (some ⟨mask, true⟩))
    (hslots : ∀ (i : ℕ) d, ((t.reactor.slotAt i).get d).isSome →
      ((s.reactor.slotAt i).get d).isSome ∨ ((i : ℤ) = fd ∧ s.kernel.isOpen fd = true)) :
    Registered t where
  oneShot j r hr := by
    rw [hkernel, Kernel.table_setTable] at hr
    split_ifs at hr
    · cases hr
      exact hmask
    · exact h.oneShot j r hr
  known i d hd := by
    rw [hkernel, Kernel.table_setTable]
    rcases hslots i d hd with hold | ⟨hi, hopen⟩
    · obtain ⟨hopen, r, hr⟩ := h.known i d hold
      refine ⟨hopen, ?_⟩
      split_ifs
      · exact ⟨_, rfl⟩
      · exact ⟨r, hr⟩
    · exact ⟨hi ▸ hopen, ⟨mask, true⟩, if_pos hi⟩

theorem Registered.rearmOrErase (h : Registered s) (fd : ℤ) : Registered (s.rearmOrErase fd) := by
  unfold IoState.rearmOrErase
  split_ifs with hfd
  · exact h
  dsimp only
  split_ifs with hidle
  · exact h
  rcases ensure_cases s fd (rearmInterest (s.reactor.slotAt fd.toNat)) with
    ⟨-, -, heq⟩ | ⟨-, e, heq⟩
  · rw [heq]
    exact h.install (rearmInterest_oneShot _) rfl fun _ _ hd => Or.inl hd
  · rw [heq]
    exact h

theorem rearmOrErase_armedFor (h : Registered s) (hd : ((s.reactor.slotAt i).get d).isSome) :
    (s.rearmOrErase fd).kernel.ArmedFor i d ↔
      s.kernel.ArmedFor i d ∨ ((i : ℤ) = fd ∧ s.kernel.fault i = none) := by
  by_cases hi : (i : ℤ) = fd
  · have hn : fd.toNat = i := by omega
    have hlen : i < s.reactor.slots.length := by
      by_contra hlen
      rw [s.reactor.slotAt_of_length_le (Nat.le_of_not_lt hlen), FdEntry.get_idle] at hd
      cases hd
    have hidle : ¬(s.reactor.slotAt i).isIdle = true := by
      intro hidle
      rw [(FdEntry.isIdle_iff _).mp hidle d] at hd
      cases hd
    have heq : s.rearmOrErase fd = (s.ensure fd (rearmInterest (s.reactor.slotAt i))).2 := by
      unfold IoState.rearmOrErase
      rw [if_neg (by omega), hn]
      exact if_neg hidle
    have hopen := (h.known i d hd).1
    rw [heq]
    rcases ensure_cases s fd (rearmInterest (s.reactor.slotAt i)) with
      ⟨-, hfault, hens⟩ | ⟨hfail, e, hens⟩
    · rw [hens]
      refine iff_of_true ⟨⟨toEpollEvents (rearmInterest (s.reactor.slotAt i)), true⟩, ?_, rfl,
        rearmInterest_bit hd⟩ (Or.inr ⟨hi, hi ▸ hfault⟩)
      rw [Kernel.table_setTable, if_pos hi]
    · rw [hens]
      refine ⟨Or.inl, fun hor => hor.elim id fun hfault => ?_⟩
      exact absurd ⟨hi ▸ hopen, hi ▸ hfault.2⟩ hfail
  · have htable : (s.rearmOrErase fd).kernel.table i = s.kernel.table i := by
      unfold IoState.rearmOrErase
      split_ifs
      · rfl
      dsimp only
      split_ifs
      · rfl
      rcases ensure_cases s fd (rearmInterest (s.reactor.slotAt fd.toNat)) with
        ⟨-, -, heq⟩ | ⟨-, e, heq⟩
      · rw [heq]
        exact (Kernel.table_setTable _ _ _ _).trans (if_neg hi)
      · rw [heq]
    rw [Kernel.armedFor_congr htable]
    exact ⟨Or.inl, fun hor => hor.elim id fun hfault => absurd hfault.1 hi⟩

theorem Registered.handleEvent {r : ℕ × IoState} (h : Registered r.2) (ev : ℤ × BitVec 32) :
    Registered (handleEvent r ev).2 := by
  unfold IoState.handleEvent
  split_ifs with hfd hidle
  · exact h
  · exact h
  · have hread := dispatch_shrinks .read ev.2 (i := ev.1.toNat) (r := r) (by omega)
    have hwrite := dispatch_shrinks .write ev.2 (i := ev.1.toNat)
      (r := dispatch .read ev.1.toNat ev.2 r) (by rw [hread.length]; omega)
    have hboth := hread.trans hwrite
    refine Registered.rearmOrErase (h.of_kernel ?_ ?_ ?_) ev.1
    · rw [hboth.kernel]
    · rw [hboth.kernel]
    · intro i d hd
      rcases hboth.slots i d with hsame | hnone
      · rwa [← hsame]
      · rw [hnone] at hd
        cases hd

theorem handleEvent_armedFor {r : ℕ × IoState} (h : Registered r.2) (ev : ℤ × BitVec 32)
    (hd : (((IoState.handleEvent r ev).2.reactor.slotAt i).get d).isSome) :
    (IoState.handleEvent r ev).2.kernel.ArmedFor i d ↔
      r.2.kernel.ArmedFor i d ∨ ((i : ℤ) = ev.1 ∧ r.2.kernel.fault i = none) := by
  unfold IoState.handleEvent at hd ⊢
  by_cases hfd : ev.1 < 0 ∨ r.2.reactor.slots.length ≤ ev.1.toNat
  · rw [if_pos hfd] at hd ⊢
    refine ⟨Or.inl, fun hor => hor.elim id fun hi => ?_⟩
    rw [idle_of_out_of_range hfd i hi.1 d] at hd
    cases hd
  rw [if_neg hfd] at hd ⊢
  by_cases hidle : (r.2.reactor.slotAt ev.1.toNat).isIdle = true
  · rw [if_pos hidle] at hd ⊢
    refine ⟨Or.inl, fun hor => hor.elim id fun hi => ?_⟩
    have hn : ev.1.toNat = i := by omega
    rw [hn, FdEntry.isIdle_iff] at hidle
    rw [hidle d] at hd
    cases hd
  rw [if_neg hidle] at hd ⊢
  dsimp only at hd ⊢
  have hread := dispatch_shrinks .read ev.2 (i := ev.1.toNat) (r := r) (by omega)
  have hwrite := dispatch_shrinks .write ev.2 (i := ev.1.toNat)
    (r := dispatch .read ev.1.toNat ev.2 r) (by rw [hread.length]; omega)
  have hboth := hread.trans hwrite
  set u := (dispatch .write ev.1.toNat ev.2 (dispatch .read ev.1.toNat ev.2 r)).2 with hu
  have hreg : Registered u := by
    refine h.of_kernel (by rw [hboth.kernel]) (by rw [hboth.kernel]) fun j c hc => ?_
    rcases hboth.slots j c with hsame | hnone
    · rwa [← hsame]
    · rw [hnone] at hc
      cases hc
  have hd' : ((u.reactor.slotAt i).get d).isSome := by
    rw [rearmOrErase_eq] at hd
    exact hd
  rw [rearmOrErase_armedFor hreg hd', hboth.kernel]

theorem Registered.handleEvents (events : List (ℤ × BitVec 32)) {r : ℕ × IoState}
    (h : Registered r.2) : Registered (events.foldl IoState.handleEvent r).2 := by
  induction events generalizing r with
  | nil => exact h
  | cons ev events ih => exact ih (h.handleEvent ev)

theorem handleEvents_armedFor (events : List (ℤ × BitVec 32)) {r : ℕ × IoState}
    (h : Registered r.2)
    (hd : (((events.foldl IoState.handleEvent r).2.reactor.slotAt i).get d).isSome) :
    (events.foldl IoState.handleEvent r).2.kernel.ArmedFor i d ↔
      r.2.kernel.ArmedFor i d ∨ ((i : ℤ) ∈ events.map Prod.fst ∧ r.2.kernel.fault i = none) := by
  induction events generalizing r with
  | nil =>
    refine ⟨Or.inl, fun hor => hor.elim id fun hi => ?_⟩
    cases hi.1
  | cons ev events ih =>
    rw [List.foldl_cons] at hd ⊢
    have harmed := ih (h.handleEvent ev) hd
    have hslot : (((IoState.handleEvent r ev).2.reactor.slotAt i).get d).isSome := by
      obtain ⟨ds, hdel, -, -⟩ := handleEvents_delivers events (IoState.handleEvent r ev)
      change ((view (events.foldl IoState.handleEvent (IoState.handleEvent r ev))).waiter
        (i, d)).isSome at hd
      by_cases hmem : (i, d) ∈ ds.map Prod.fst
      · rw [hdel.emptied_place hmem] at hd
        cases hd
      · rwa [hdel.kept (i, d) hmem] at hd
    rw [harmed, handleEvent_armedFor h ev hslot, (handleEvent_sameFds r ev).2, List.map_cons,
      List.mem_cons, or_assoc, or_and_right]

theorem report_registered (h : Registered s) (fd : ℤ) :
    Registered { s with kernel := s.kernel.report fd } ∧
      ∀ d, ((s.kernel.report fd).ArmedFor fd d → False) := by
  unfold Kernel.report
  cases ht : s.kernel.table fd with
  | none =>
    refine ⟨h, fun d hd => ?_⟩
    obtain ⟨r, hr, -⟩ := hd
    rw [ht] at hr
    cases hr
  | some r =>
    dsimp only
    rw [if_neg (h.oneShot fd r ht)]
    refine ⟨⟨fun j r' hr' => ?_, fun i d hd => ?_⟩, fun d hd => ?_⟩
    · rw [Kernel.table_setTable] at hr'
      split_ifs at hr' with hj
      · cases hr'
        exact h.oneShot fd r ht
      · exact h.oneShot j r' hr'
    · obtain ⟨hopen, r', hr'⟩ := h.known i d hd
      refine ⟨hopen, ?_⟩
      rw [Kernel.table_setTable]
      split_ifs
      · exact ⟨_, rfl⟩
      · exact ⟨r', hr'⟩
    · obtain ⟨r', hr', harmed, -⟩ := hd
      rw [Kernel.table_setTable, if_pos rfl] at hr'
      cases hr'
      cases harmed

theorem report_armedFor (h : Registered s) (fd : ℤ) :
    (s.kernel.report fd).ArmedFor i d ↔ s.kernel.ArmedFor i d ∧ (i : ℤ) ≠ fd := by
  by_cases hi : (i : ℤ) = fd
  · rw [hi]
    exact ⟨fun hd => ((report_registered h fd).2 d hd).elim, fun hd => absurd rfl hd.2⟩
  · rw [Kernel.armedFor_congr ((s.kernel.report_frame fd).2.2 i hi)]
    exact ⟨fun hd => ⟨hd, hi⟩, And.left⟩

theorem reports_armedFor (events : List (ℤ × BitVec 32)) (h : Registered s) :
    Registered { s with kernel := events.foldl (fun k ev => k.report ev.1) s.kernel } ∧
      ((events.foldl (fun k ev => k.report ev.1) s.kernel).ArmedFor i d ↔
        s.kernel.ArmedFor i d ∧ (i : ℤ) ∉ events.map Prod.fst) := by
  induction events generalizing s with
  | nil => exact ⟨h, fun hd => ⟨hd, List.not_mem_nil⟩, And.left⟩
  | cons ev events ih =>
    obtain ⟨hreg, harmed⟩ := ih (s := { s with kernel := s.kernel.report ev.1 })
      (report_registered h ev.1).1
    refine ⟨hreg, ?_⟩
    rw [List.foldl_cons, harmed, report_armedFor h, List.map_cons, List.mem_cons, not_or, and_assoc]

/-- A poll disarms what it reports, and arms it again for the waiters that are left. -/
theorem poll_armedFor (h : Registered s) (events : List (ℤ × BitVec 32))
    (hd : (((s.poll (.reported events)).2.reactor.slotAt i).get d).isSome) :
    (s.poll (.reported events)).2.kernel.ArmedFor i d ↔
      (s.kernel.ArmedFor i d ∧ (i : ℤ) ∉ events.map Prod.fst) ∨
        ((i : ℤ) ∈ events.map Prod.fst ∧ s.kernel.fault i = none) := by
  obtain ⟨hreg, hstart⟩ := reports_armedFor events h (i := i) (d := d)
  set k := events.foldl (fun k ev => k.report ev.1) s.kernel with hk
  have hfault : k.fault = s.kernel.fault := (s.kernel.reports_frame events).2.1
  have harmed := handleEvents_armedFor events (r := (0, { s with kernel := k })) hreg hd
  dsimp only at harmed
  rw [hstart, hfault] at harmed
  exact harmed

theorem deregisterDir_eq (s : IoState) (fd : ℤ) (dir : IoEvent) :
    (s.deregisterDir fd dir = s ∧ ∀ (i : ℕ) d, (i : ℤ) = fd → (s.reactor.slotAt i).get d = none) ∨
    (0 ≤ fd ∧ fd.toNat < s.reactor.slots.length ∧ s.deregisterDir fd dir =
      (s.withSlot fd.toNat (withdrawn dir (s.reactor.slotAt fd.toNat))).rearmOrErase fd) := by
  unfold deregisterDir
  by_cases hfd : fd < 0 ∨ s.reactor.slots.length ≤ fd.toNat
  · exact Or.inl ⟨if_pos hfd, fun i d hi => idle_of_out_of_range hfd i hi d⟩
  rw [if_neg hfd]
  dsimp only
  by_cases hidle : (s.reactor.slotAt fd.toNat).isIdle = true
  · refine Or.inl ⟨if_pos hidle, fun i d hi => ?_⟩
    have hn : fd.toNat = i := by omega
    rw [hn, FdEntry.isIdle_iff] at hidle
    exact hidle d
  · exact Or.inr ⟨by omega, by omega, if_neg hidle⟩

theorem withdrawn_isSome {e : FdEntry} {dir : IoEvent}
    (h : ((withdrawn dir e).get d).isSome) : (e.get d).isSome := by
  rw [get_withdrawn] at h
  split_ifs at h
  · cases h
  · exact h

theorem Registered.withSlot (h : Registered s) {e : FdEntry} (hi : i < s.reactor.slots.length)
    (he : ∀ d, (e.get d).isSome → ((s.reactor.slotAt i).get d).isSome) :
    Registered (s.withSlot i e) := by
  refine h.of_kernel rfl rfl fun j d hd => ?_
  rw [slotAt_withSlot hi] at hd
  split_ifs at hd with hj
  · rw [hj]
    exact he d hd
  · exact hd

theorem deregisterDir_armedFor (h : Registered s) (fd : ℤ) (dir : IoEvent)
    (hd : (((s.deregisterDir fd dir).reactor.slotAt i).get d).isSome) :
    (s.deregisterDir fd dir).kernel.ArmedFor i d ↔
      s.kernel.ArmedFor i d ∨ ((i : ℤ) = fd ∧ s.kernel.fault i = none) := by
  rcases deregisterDir_eq s fd dir with ⟨heq, hnone⟩ | ⟨-, hlen, heq⟩
  · rw [heq] at hd ⊢
    refine ⟨Or.inl, fun hor => hor.elim id fun hi => ?_⟩
    rw [hnone i d hi.1] at hd
    cases hd
  · rw [heq, rearmOrErase_eq] at hd
    rw [heq]
    exact rearmOrErase_armedFor (h.withSlot hlen fun _ => withdrawn_isSome) hd

theorem Registered.deregisterDir (h : Registered s) (fd : ℤ) (dir : IoEvent) :
    Registered (s.deregisterDir fd dir) := by
  rcases deregisterDir_eq s fd dir with ⟨heq, -⟩ | ⟨-, hlen, heq⟩
  · rw [heq]
    exact h
  · rw [heq]
    exact (h.withSlot hlen fun _ => withdrawn_isSome).rearmOrErase fd

theorem Registered.clearSlot (h : Registered s) (fd : ℤ) : Registered (s.deregister fd) := by
  refine h.of_kernel rfl rfl fun i d hd => ?_
  rw [IoState.deregister, EpollReactor.slotAt_clearSlot] at hd
  split_ifs at hd
  · rw [FdEntry.get_idle] at hd
    cases hd
  · exact hd

theorem epollCtl_del {k k' : Kernel} (h : k.epollCtl .del fd 0 = .ok k') :
    k' = k.setTable fd none := by
  unfold Kernel.epollCtl at h
  split_ifs at h
  cases hf : k.fault fd <;> cases ht : k.table fd <;> simp only [hf, ht] at h <;> cases h
  rfl

theorem Registered.remove (h : Registered s) (fd : ℤ) : Registered (s.remove fd).2 := by
  unfold IoState.remove
  split_ifs with hneg
  · exact h
  have hclear := h.clearSlot fd
  cases hctl : s.kernel.epollCtl .del fd 0 with
  | error e =>
    dsimp only
    split_ifs
    · exact h
    · exact hclear
  | ok k =>
    rw [epollCtl_del hctl]
    refine ⟨fun j r hr => ?_, fun i d hd => ?_⟩
    · rw [Kernel.table_setTable] at hr
      split_ifs at hr
      exact h.oneShot j r hr
    · obtain ⟨hopen, r, hr⟩ := hclear.known i d hd
      refine ⟨hopen, r, ?_⟩
      have hne : (i : ℤ) ≠ fd := by
        intro hi
        rw [EpollReactor.slotAt_clearSlot, if_pos hi, FdEntry.get_idle] at hd
        cases hd
      rw [Kernel.table_setTable, if_neg hne]
      exact hr

theorem Registered.poll (h : Registered s) (report : PollReport) :
    Registered (s.poll report).2 := by
  cases report with
  | failed e => cases e <;> exact h
  | reported events =>
    exact (reports_armedFor events h (i := 0) (d := .read)).1.handleEvents events (r := (0, _))

theorem register_kernel (d : Direction) (negative busy : String) (s : IoState) (fd : ℤ)
    (p : PendingEntry) {r : Result Unit} (h : register d negative busy s fd p = (r, t)) :
    (t.kernel = s.kernel ∧ ∀ j, t.reactor.slotAt j = s.reactor.slotAt j) ∨
    (s.kernel.isOpen fd = true ∧ ∃ i : ℕ, (i : ℤ) = fd ∧
      t.kernel = s.kernel.setTable fd
        (some ⟨toEpollEvents (registerInterest d (s.reactor.slotAt i)), true⟩) ∧
      ∀ j, t.reactor.slotAt j =
        if j = i then (s.reactor.slotAt j).set d (some p) else s.reactor.slotAt j) := by
  obtain ⟨-, hcases⟩ := register_cases d negative busy s fd p h
  unfold register at h
  by_cases hneg : fd < 0
  · rw [if_pos hneg] at h
    obtain ⟨-, rfl⟩ := Prod.mk.inj h
    exact Or.inl ⟨rfl, fun _ => rfl⟩
  rw [if_neg hneg] at h
  dsimp only at h
  rw [EpollReactor.slotAt_ensureSlot] at h
  have hcast : ((fd.toNat : ℕ) : ℤ) = fd := by omega
  split_ifs at h with hbusy
  · obtain ⟨rfl, rfl⟩ := Prod.mk.inj h
    obtain ⟨-, hslots⟩ | ⟨hok, -⟩ := hcases
    · exact Or.inl ⟨rfl, hslots⟩
    · cases hok
  set u : IoState := ({ s with reactor := s.reactor.ensureSlot fd.toNat } : IoState).withSlot
    fd.toNat ((s.reactor.slotAt fd.toNat).set d (some p)) with hu
  rcases ensure_cases u fd (registerInterest d (s.reactor.slotAt fd.toNat)) with
    ⟨hopen, -, hens⟩ | ⟨-, e, hens⟩
  · rw [hens] at h
    obtain ⟨rfl, rfl⟩ := Prod.mk.inj h
    obtain ⟨⟨e, he⟩, -⟩ | ⟨-, -, -, hslots⟩ := hcases
    · cases he
    refine Or.inr ⟨hopen, fd.toNat, hcast, rfl, fun j => ?_⟩
    rw [hslots]
    by_cases hj : j = fd.toNat
    · rw [if_pos hj, if_pos (by omega)]
    · rw [if_neg hj, if_neg (by omega)]
  · rw [hens] at h
    obtain ⟨rfl, rfl⟩ := Prod.mk.inj h
    obtain ⟨-, hslots⟩ | ⟨hok, -⟩ := hcases
    · exact Or.inl ⟨rfl, hslots⟩
    · cases hok

theorem Registered.register (h : Registered s) (d : Direction) (negative busy : String) (fd : ℤ)
    (p : PendingEntry) : Registered (IoState.register d negative busy s fd p).2 := by
  generalize hreg : IoState.register d negative busy s fd p = r
  obtain ⟨r, t⟩ := r
  rcases register_kernel d negative busy s fd p hreg with
    ⟨hkernel, hslots⟩ | ⟨hopen, i, hi, hkernel, hslots⟩
  · refine h.of_kernel (by rw [hkernel]) (by rw [hkernel]) fun j c hc => ?_
    rwa [← hslots]
  · refine h.install (registerInterest_oneShot _ _) hkernel fun j c hc => ?_
    rw [hslots] at hc
    split_ifs at hc with hj
    · exact Or.inr ⟨by rw [hj]; exact hi, hopen⟩
    · exact Or.inl hc

theorem Registered.step (h : Registered s) {op : ReactorOp} (hs : s.stepFaulty op = some t) :
    Registered t := by
  cases op with
  | fault f => exact Option.some.inj hs ▸ h.of_kernel rfl rfl fun _ _ hd => hd
  | io op =>
    cases op <;> simp only [stepFaulty, IoState.step, Option.some.injEq] at hs
    case registerRead fd p => exact hs ▸ h.register _ _ _ fd p
    case registerWrite fd p => exact hs ▸ h.register _ _ _ fd p
    case deregister fd => exact hs ▸ h.clearSlot fd
    case deregisterDir fd dir => exact hs ▸ h.deregisterDir fd dir
    case remove fd => exact hs ▸ h.remove fd
    case poll report => exact hs ▸ h.poll report
    case drainReady => exact hs ▸ h.of_kernel rfl rfl fun _ _ hd => hd
    case heap m => exact hs ▸ h.of_kernel rfl rfl fun _ _ hd => hd
    case openFd fd =>
      refine hs ▸ ⟨h.oneShot, fun i d hd => ?_⟩
      obtain ⟨hopen, hr⟩ := h.known i d hd
      refine ⟨?_, hr⟩
      by_cases hi : (i : ℤ) = fd
      · simp [hi]
      · simpa [hi] using hopen
    case closeFd fd =>
      split_ifs at hs with htable
      rw [Option.some.injEq] at hs
      refine hs ▸ ⟨h.oneShot, fun i d hd => ?_⟩
      obtain ⟨hopen, r, hr⟩ := h.known i d hd
      have hi : (i : ℤ) ≠ fd := by
        intro hi
        rw [hi, htable] at hr
        cases hr
      refine ⟨?_, r, hr⟩
      simpa [hi] using hopen

/-! ## Waiters that stay armed -/

def AllArmed (s : IoState) : Prop :=
  ∀ (i : ℕ) d, ((s.reactor.slotAt i).get d).isSome → s.kernel.ArmedFor i d

theorem AllArmed.of_kernel (h : AllArmed s) (hkernel : t.kernel.table = s.kernel.table)
    (hslots : ∀ i d, ((t.reactor.slotAt i).get d).isSome → ((s.reactor.slotAt i).get d).isSome) :
    AllArmed t := by
  intro i d hd
  rw [Kernel.armedFor_congr (congrFun hkernel i)]
  exact h i d (hslots i d hd)

theorem AllArmed.register (h : AllArmed s) (d : Direction) (negative busy : String) (fd : ℤ)
    (p : PendingEntry) : AllArmed (IoState.register d negative busy s fd p).2 := by
  generalize hreg : IoState.register d negative busy s fd p = r
  obtain ⟨r, t⟩ := r
  rcases register_kernel d negative busy s fd p hreg with
    ⟨hkernel, hslots⟩ | ⟨-, i, hi, hkernel, hslots⟩
  · refine h.of_kernel (by rw [hkernel]) fun j c hc => ?_
    rwa [← hslots]
  · intro j c hc
    dsimp only at hc ⊢
    rw [hslots] at hc
    split_ifs at hc with hj
    · refine ⟨⟨toEpollEvents (registerInterest d (s.reactor.slotAt i)), true⟩, ?_, rfl, ?_⟩
      · rw [hkernel, Kernel.table_setTable, if_pos (by rw [hj]; exact hi)]
      · rw [FdEntry.get_set] at hc
        split_ifs at hc with hcd
        · rw [hcd]
          exact registerInterest_self d _
        · rw [other_of_ne hcd] at hc ⊢
          exact registerInterest_other (hj ▸ hc)
    · have hne : (j : ℤ) ≠ fd := by omega
      rw [hkernel, Kernel.armedFor_setTable_of_ne hne]
      exact h j c hc

theorem AllArmed.remove (h : AllArmed s) (fd : ℤ) : AllArmed (s.remove fd).2 := by
  have hclear : ∀ i d, (((s.reactor.clearSlot fd).slotAt i).get d).isSome →
      ((s.reactor.slotAt i).get d).isSome ∧ (i : ℤ) ≠ fd := by
    intro i d hd
    rw [EpollReactor.slotAt_clearSlot] at hd
    split_ifs at hd with hi
    · rw [FdEntry.get_idle] at hd
      cases hd
    · exact ⟨hd, hi⟩
  unfold IoState.remove
  split_ifs with hneg
  · exact h
  cases hctl : s.kernel.epollCtl .del fd 0 with
  | error e =>
    dsimp only
    split_ifs
    · exact h
    · exact h.of_kernel rfl fun i d hd => (hclear i d hd).1
  | ok k =>
    intro i d hd
    obtain ⟨hold, hi⟩ := hclear i d hd
    rw [epollCtl_del hctl, Kernel.armedFor_setTable_of_ne hi]
    exact h i d hold

end IoState

/-! ## Who is stranded -/

structure CoreMetrics where
  reactorRearmFailed : ℕ

structure ReactorCore where
  io : IoState
  metrics : CoreMetrics

namespace ReactorOp

def Disarms (i : ℕ) : ReactorOp → Prop
  | .io (.poll (.reported events)) => (i : ℤ) ∈ events.map Prod.fst
  | _ => False

def Rearms (i : ℕ) : ReactorOp → Prop
  | .io (.poll (.reported events)) => (i : ℤ) ∈ events.map Prod.fst
  | .io (.deregisterDir fd _) => (i : ℤ) = fd
  | _ => False

def MayRearm : ReactorOp → Prop
  | .io (.poll _) => True
  | .io (.deregisterDir _ _) => True
  | _ => False

end ReactorOp

namespace ReactorCore
open IoState
variable {c c' : ReactorCore} {op : ReactorOp}

def step (c : ReactorCore) (op : ReactorOp) : Option ReactorCore :=
  (c.io.stepFaulty op).map fun io => { c with io := io }

def start (k : Kernel) (m : Heap) : ReactorCore := ⟨IoState.fresh k m, ⟨0⟩⟩

/-- The step wrote an error into the waiter's result and queued its handle. -/
def WokenWithError (s t : IoState) (p : PendingEntry) : Prop :=
  ∃ q e h, p.result = some q ∧ t.heap.result q = .error e ∧ s.heap.result q ≠ .error e ∧
    p.handle = some h ∧ h ∈ t.reactor.ready

/-- Every waiter that is still pending is armed, or was woken with an error, or a failure has
been counted. -/
def StrandsNobody (c c' : ReactorCore) : Prop :=
  ∀ i d p, (c'.io.reactor.slotAt i).get d = some p →
    c'.io.kernel.ArmedFor i d ∨ WokenWithError c.io c'.io p ∨ 0 < c'.metrics.reactorRearmFailed

/-- A waiter the operation leaves behind is armed and stays so, or `epoll_ctl` does not fail
when its fd is armed again. -/
def Recovers (s : IoState) (op : ReactorOp) : Prop :=
  ∀ i d, ((s.reactor.slotAt i).get d).isSome → ¬op.Takes s i d →
    (s.kernel.ArmedFor i d ∧ ¬op.Disarms i) ∨ (op.Rearms i ∧ s.kernel.fault i = none)

theorem settle_result (m : Heap) (p : PendingEntry) (q : StatePtr) :
    (PendingEntry.settle m p).result q = m.result q ∨
      (PendingEntry.settle m p).result q = .ok 0 := by
  unfold PendingEntry.settle PendingEntry.complete
  split_ifs
  · cases p.state <;> cases p.result <;> simp only [Heap.setState_result, true_or]
    all_goals
      simp only [Heap.setResult, Heap.setState, Function.update_apply]
      split_ifs <;> simp
  · exact Or.inl rfl

theorem settleAll_result (m : Heap) (ps : List PendingEntry) (q : StatePtr) :
    (PendingEntry.settleAll m ps).result q = m.result q ∨
      (PendingEntry.settleAll m ps).result q = .ok 0 := by
  induction ps generalizing m with
  | nil => exact Or.inl rfl
  | cons p ps ih =>
    rcases ih (PendingEntry.settle m p) with hsame | hok
    · rcases settle_result m p q with hold | hok
      · exact Or.inl (hsame.trans hold)
      · exact Or.inr (hsame.trans hok)
    · exact Or.inr hok

theorem not_wokenWithError (hop : op.MayRearm) {t : IoState} (hs : c.io.stepFaulty op = some t)
    (p : PendingEntry) : ¬WokenWithError c.io t p := by
  rintro ⟨q, e, h, -, herr, hne, -⟩
  have hresult : t.heap.result q = c.io.heap.result q ∨ t.heap.result q = .ok 0 := by
    cases op with
    | fault f => cases hop
    | io op =>
      cases op <;> first
        | exact False.elim hop
        | simp only [stepFaulty, IoState.step, Option.some.injEq] at hs
      case deregisterDir fd dir =>
        rw [← hs, (deregisterDir_cases c.io fd dir).1.1]
        exact Or.inl rfl
      case poll report =>
        cases report with
        | failed err => cases err <;> exact Or.inl (hs ▸ rfl)
        | reported events =>
          obtain ⟨ds, n, u, hu, hd, -⟩ := poll_delivers c.io events
          rw [hu] at hs
          have hheap : t.heap = PendingEntry.settleAll c.io.heap (ds.map Prod.snd) := hs ▸ hd.heap
          rw [hheap]
          exact settleAll_result _ _ q
  rcases hresult with hsame | hok
  · exact hne (hsame ▸ herr)
  · rw [herr] at hok
    cases hok

/-- The waiters a `poll` or `deregister(fd, dir)` leaves, and which of them are armed then. -/
theorem armedFor_iff (hreg : Registered c.io) (hop : op.MayRearm) {t : IoState}
    (hs : c.io.stepFaulty op = some t) (i : ℕ) (d : Direction) :
    (((t.reactor.slotAt i).get d).isSome ↔
      ((c.io.reactor.slotAt i).get d).isSome ∧ ¬op.Takes c.io i d) ∧
    (((t.reactor.slotAt i).get d).isSome → (t.kernel.ArmedFor i d ↔
      (c.io.kernel.ArmedFor i d ∧ ¬op.Disarms i) ∨
      (op.Rearms i ∧ c.io.kernel.fault i = none))) := by
  cases op with
  | fault f => cases hop
  | io op =>
    cases op <;> first
      | exact False.elim hop
      | simp only [stepFaulty, IoState.step, Option.some.injEq] at hs
    case deregisterDir fd dir =>
      subst hs
      constructor
      · rw [(deregisterDir_cases c.io fd dir).2]
        simp only [ReactorOp.Takes]
        split_ifs with h
        · exact ⟨fun hd => (by cases hd), fun hd => absurd ⟨h.1.symm, h.2⟩ hd.2⟩
        · exact ⟨fun hd => ⟨hd, fun hc => h ⟨hc.1.symm, hc.2⟩⟩, And.left⟩
      · intro hd
        rw [deregisterDir_armedFor hreg fd dir hd]
        simp only [ReactorOp.Disarms, ReactorOp.Rearms, not_false_eq_true, and_true]
    case poll report =>
      subst hs
      cases report with
      | failed e =>
        have hsame : (c.io.poll (.failed e)).2 = c.io := by cases e <;> rfl
        rw [hsame]
        simp [ReactorOp.Takes, ReactorOp.Disarms, ReactorOp.Rearms]
      | reported events =>
        constructor
        · obtain ⟨ds, n, u, hu, -, -, hslots⟩ := poll_delivers c.io events
          rw [hu, hslots]
          change _ ↔ _ ∧ ¬Reported events i d
          split_ifs with h
          · exact ⟨fun hd => (by cases hd), fun hd => absurd h hd.2⟩
          · exact ⟨fun hd => ⟨hd, h⟩, And.left⟩
        · intro hd
          exact poll_armedFor hreg events hd

theorem strandsNobody_iff (hreg : Registered c.io) (hcount : c.metrics.reactorRearmFailed = 0)
    (hop : op.MayRearm) (hs : c.step op = some c') : StrandsNobody c c' ↔ Recovers c.io op := by
  obtain ⟨t, ht, rfl⟩ := Option.map_eq_some_iff.mp hs
  have hplace := armedFor_iff hreg hop ht
  constructor
  · intro h i d hd hkeep
    have hpending := (hplace i d).1.mpr ⟨hd, hkeep⟩
    obtain ⟨p, hp⟩ := Option.isSome_iff_exists.mp hpending
    refine ((hplace i d).2 hpending).mp ?_
    rcases h i d p hp with harmed | hwoken | hcounted
    · exact harmed
    · exact absurd hwoken (not_wokenWithError hop ht p)
    · rw [hcount] at hcounted
      cases hcounted
  · intro h i d p hp
    have hpending : ((t.reactor.slotAt i).get d).isSome := Option.isSome_of_mem hp
    obtain ⟨hd, hkeep⟩ := (hplace i d).1.mp hpending
    exact Or.inl (((hplace i d).2 hpending).mpr (h i d hd hkeep))

def RearmSucceeds (c : ReactorCore) (op : ReactorOp) : Prop :=
  ∀ i d, ((c.io.reactor.slotAt i).get d).isSome → ¬op.Takes c.io i d → op.Rearms i →
    c.io.kernel.fault i = none

structure Inv (c : ReactorCore) : Prop where
  registered : Registered c.io
  uncounted : c.metrics.reactorRearmFailed = 0

theorem Inv.step (h : Inv c) (hs : c.step op = some c') : Inv c' := by
  obtain ⟨t, ht, rfl⟩ := Option.map_eq_some_iff.mp hs
  exact ⟨h.registered.step ht, h.uncounted⟩

theorem start_inv {k : Kernel} (hk : ∀ fd, k.table fd = none) (m : Heap) : Inv (start k m) where
  registered := by
    refine ⟨fun fd r hr => ?_, fun i d hd => ?_⟩
    · have hnone : k.table fd = some r := hr
      rw [hk] at hnone
      cases hnone
    · simp [start, IoState.fresh, EpollReactor.slotAt] at hd
  uncounted := rfl

theorem allArmed_step (hreg : Registered c.io) (h : AllArmed c.io) (hgood : RearmSucceeds c op)
    {t : IoState} (hs : c.io.stepFaulty op = some t) : AllArmed t := by
  by_cases hop : op.MayRearm
  · intro i d hd
    obtain ⟨hpending, harmed⟩ := armedFor_iff hreg hop hs i d
    obtain ⟨hold, hkeep⟩ := hpending.mp hd
    refine (harmed hd).mpr ?_
    by_cases hrearm : op.Rearms i
    · exact Or.inr ⟨hrearm, hgood i d hold hkeep hrearm⟩
    · refine Or.inl ⟨h i d hold, fun hdis => hrearm ?_⟩
      cases op with
      | fault f => cases hdis
      | io op =>
        cases op <;> first | cases hdis | skip
        case poll report =>
          cases report <;> exact hdis
  · cases op with
    | fault f => exact Option.some.inj hs ▸ h.of_kernel rfl fun _ _ hd => hd
    | io op =>
      cases op <;> simp only [stepFaulty, IoState.step, Option.some.injEq] at hs
      case registerRead fd p => exact hs ▸ h.register _ _ _ fd p
      case registerWrite fd p => exact hs ▸ h.register _ _ _ fd p
      case deregister fd =>
        refine hs ▸ h.of_kernel rfl fun i d hd => ?_
        rw [IoState.deregister, EpollReactor.slotAt_clearSlot] at hd
        split_ifs at hd
        · rw [FdEntry.get_idle] at hd
          cases hd
        · exact hd
      case deregisterDir fd dir => exact absurd trivial hop
      case remove fd => exact hs ▸ h.remove fd
      case poll report => exact absurd trivial hop
      case drainReady => exact hs ▸ h.of_kernel rfl fun _ _ hd => hd
      case heap m => exact hs ▸ h.of_kernel rfl fun _ _ hd => hd
      case openFd fd => exact hs ▸ h.of_kernel rfl fun _ _ hd => hd
      case closeFd fd =>
        split_ifs at hs
        exact Option.some.inj hs ▸ h.of_kernel rfl fun _ _ hd => hd

/-- In every state reached, a `poll` or `deregister(fd, dir)` strands nobody exactly when the
waiters it leaves stay armed or can be armed again; and in a run in which re-arming never fails
for an fd with a waiter left on it, every waiter is armed. -/
theorem rearm_strands_nobody_iff {k : Kernel} {m : Heap} {ops : List ReactorOp}
    (hk : ∀ fd, k.table fd = none) (h : Transition.run step (start k m) ops = some c) :
    (∀ op c', op.MayRearm → c.step op = some c' →
      (StrandsNobody c c' ↔ Recovers c.io op)) ∧
    (Transition.Guarded step RearmSucceeds (start k m) ops →
      ∀ i d, ((c.io.reactor.slotAt i).get d).isSome → c.io.kernel.ArmedFor i d) := by
  constructor
  · intro op c' hop hs
    have hinv := Transition.invariant Inv (fun hs hi => hi.step hs) (start_inv hk m) h
    exact strandsNobody_iff hinv.registered hinv.uncounted hop hs
  · intro hguard
    have hboth : Inv c ∧ AllArmed c.io := by
      refine Transition.invariant_of_guarded RearmSucceeds (fun c => Inv c ∧ AllArmed c.io) ?_
        ⟨start_inv hk m, fun i d hd => ?_⟩ hguard h
      · intro b op b' hgood hs hb
        obtain ⟨t, ht, rfl⟩ := Option.map_eq_some_iff.mp hs
        exact ⟨hb.1.step hs, allArmed_step hb.1.registered hb.2 hgood ht⟩
      · simp [start, IoState.fresh, EpollReactor.slotAt] at hd
    exact hboth.2

def quietKernel : Kernel := ⟨fun _ => true, fun _ => none, fun _ => none⟩

def quietHeap : Heap := ⟨fun _ => .pending, fun _ => .ok 0, fun _ => false⟩

def duplex : List ReactorOp :=
  [.io (.registerRead 3 ⟨some 0, some 0, some 0, .ready⟩),
    .io (.registerWrite 3 ⟨some 1, some 1, some 1, .ready⟩)]

/-- The poll reports the reader, and the writer's fd is armed again. -/
theorem rearm_strands_nobody_iff_on_duplex :
    ∃ c c', Transition.run step (start quietKernel quietHeap) duplex = some c ∧
      c.step (.io (.poll (.reported [(3, epollIn)]))) = some c' ∧ c'.io.reactor.ready = [0] ∧
      c.io.kernel.ArmedFor 3 .read ∧ StrandsNobody c c' := by
  obtain ⟨c, c', hc, hs, hready, hread, hfault, hslots⟩ : ∃ c c',
      Transition.run step (start quietKernel quietHeap) duplex = some c ∧
      c.step (.io (.poll (.reported [(3, epollIn)]))) = some c' ∧ c'.io.reactor.ready = [0] ∧
      ((c.io.reactor.slotAt 3).get .read).isSome = true ∧ c.io.kernel.fault 3 = none ∧
      c.io.reactor.slots = [FdEntry.idle, FdEntry.idle, FdEntry.idle,
        ⟨some ⟨some 0, some 0, some 0, .ready⟩, some ⟨some 1, some 1, some 1, .ready⟩⟩] :=
    ⟨_, _, rfl, rfl, by decide, by decide, rfl, by decide⟩
  obtain ⟨hiff, harmed⟩ := rearm_strands_nobody_iff (fun _ => rfl) hc
  have hguard : Transition.Guarded step RearmSucceeds (start quietKernel quietHeap) duplex := by
    refine Transition.guarded_of_forall fun op hop t i d _ _ hrearm => ?_
    rw [duplex, List.mem_cons, List.mem_singleton] at hop
    rcases hop with rfl | rfl <;> exact False.elim hrearm
  refine ⟨c, c', hc, hs, hready, harmed hguard 3 .read hread, ?_⟩
  refine (hiff (.io (.poll (.reported [(3, epollIn)]))) c' trivial hs).mpr ?_
  intro i d hd _
  have hi : i = 3 := by
    rw [EpollReactor.slotAt, hslots] at hd
    rcases i with _ | _ | _ | _ | n
    · cases d <;> cases hd
    · cases d <;> cases hd
    · cases d <;> cases hd
    · rfl
    · cases d <;> cases hd
  subst hi
  exact Or.inr ⟨List.mem_singleton.mpr rfl, hfault⟩

/-- The same poll while `epoll_ctl` fails with `ENOMEM`: the writer stays in its slot, its fd is
disarmed, it was not woken and nothing was counted. -/
theorem failed_rearm_strands_writer :
    ∃ c c', Transition.run step (start quietKernel quietHeap)
        (duplex ++ [.fault fun _ => some (.other 12)]) = some c ∧
      c.step (.io (.poll (.reported [(3, epollIn)]))) = some c' ∧ ¬StrandsNobody c c' := by
  obtain ⟨c, c', hc, hs, hslot, htable, hready, hcount⟩ : ∃ c c',
      Transition.run step (start quietKernel quietHeap)
        (duplex ++ [.fault fun _ => some (.other 12)]) = some c ∧
      c.step (.io (.poll (.reported [(3, epollIn)]))) = some c' ∧
      (c'.io.reactor.slotAt 3).get .write = some ⟨some 1, some 1, some 1, .ready⟩ ∧
      (c'.io.kernel.table 3).map Registration.armed = some false ∧
      c'.io.reactor.ready = [0] ∧ c'.metrics.reactorRearmFailed = 0 :=
    ⟨_, _, rfl, rfl, by decide, by decide, by decide, rfl⟩
  refine ⟨c, c', hc, hs, fun h => ?_⟩
  rcases h 3 .write _ hslot with ⟨r, hr, harmed, -⟩ | ⟨q, e, h, -, -, -, hh, hmem⟩ | hcounted
  · have hr' : c'.io.kernel.table 3 = some r := hr
    rw [hr', Option.map_some, harmed] at htable
    cases htable
  · rw [hready, List.mem_singleton] at hmem
    rw [hmem] at hh
    cases hh
  · rw [hcount] at hcounted
    cases hcounted

end ReactorCore
end RainRuntime
