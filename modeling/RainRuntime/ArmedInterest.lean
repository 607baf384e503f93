import RainRuntime.IoReactor

/-!
# Every pending waiter is armed

`ArmedExcept L` allows the fds in `L` to be disarmed. A poll starts by disarming what
it reports, and its loop takes the reported fds off the list one by one: whatever an
event did to the slot, the fd leaves the loop with the interest of the waiters that
remain. Between operations the list is empty.
-/

namespace RainRuntime

namespace Kernel

def ArmedFor (k : Kernel) (fd : ℤ) (d : Direction) : Prop :=
  ∃ r, k.table fd = some r ∧ r.armed = true ∧ r.mask &&& d.epollBit = d.epollBit

def NoFault (k : Kernel) : Prop := ∀ fd, k.fault fd = none

theorem table_setTable (k : Kernel) (fd : ℤ) (r : Option Registration) (j : ℤ) :
    (k.setTable fd r).table j = if j = fd then r else k.table j := by
  by_cases h : j = fd
  · subst h
    simp [setTable]
  · simp [setTable, h]

theorem armedFor_setTable_of_ne {k : Kernel} {fd j : ℤ} (h : j ≠ fd) (r : Option Registration)
    (d : Direction) : (k.setTable fd r).ArmedFor j d ↔ k.ArmedFor j d := by
  simp only [ArmedFor, table_setTable, if_neg h]

theorem report_frame (k : Kernel) (fd : ℤ) :
    (k.report fd).isOpen = k.isOpen ∧ (k.report fd).fault = k.fault ∧
      ∀ j, j ≠ fd → (k.report fd).table j = k.table j := by
  unfold report
  cases k.table fd with
  | none => exact ⟨rfl, rfl, fun _ _ => rfl⟩
  | some r =>
    dsimp only
    split_ifs
    · exact ⟨rfl, rfl, fun _ _ => rfl⟩
    · refine ⟨rfl, rfl, fun j hj => ?_⟩
      rw [table_setTable, if_neg hj]

theorem reports_frame (events : List (ℤ × BitVec 32)) (k : Kernel) :
    (events.foldl (fun k ev => k.report ev.1) k).isOpen = k.isOpen ∧
      (events.foldl (fun k ev => k.report ev.1) k).fault = k.fault ∧
      ∀ j, j ∉ events.map Prod.fst →
        (events.foldl (fun k ev => k.report ev.1) k).table j = k.table j := by
  induction events generalizing k with
  | nil => exact ⟨rfl, rfl, fun _ _ => rfl⟩
  | cons ev events ih =>
    obtain ⟨hopen, hfault, htable⟩ := ih (k.report ev.1)
    obtain ⟨hopen', hfault', htable'⟩ := k.report_frame ev.1
    refine ⟨hopen.trans hopen', hfault.trans hfault', fun j hj => ?_⟩
    rw [List.map_cons, List.mem_cons, not_or] at hj
    exact (htable j hj.2).trans (htable' j hj.1)

end Kernel

namespace IoState

theorem registerInterest_self (d : Direction) (e : FdEntry) :
    toEpollEvents (registerInterest d e) &&& d.epollBit = d.epollBit := by
  unfold registerInterest
  cases (e.get d.other).isSome <;> cases d <;> decide

theorem registerInterest_other {d : Direction} {e : FdEntry} (h : (e.get d.other).isSome) :
    toEpollEvents (registerInterest d e) &&& d.other.epollBit = d.other.epollBit := by
  unfold registerInterest
  rw [h]
  cases d <;> decide

theorem rearmInterest_bit {c : Direction} {e : FdEntry} (h : (e.get c).isSome) :
    toEpollEvents (rearmInterest e) &&& c.epollBit = c.epollBit := by
  unfold rearmInterest
  cases c with
  | read =>
    rw [show e.read.isSome = true from h]
    cases e.write.isSome <;> decide
  | write =>
    rw [show e.write.isSome = true from h]
    cases e.read.isSome <;> decide

theorem ensure_of_open {s : IoState} {fd : ℤ} (hopen : s.kernel.isOpen fd = true)
    (hfault : s.kernel.NoFault) (events : IoEvent) :
    s.ensure fd events =
      (.ok (), { s with kernel := s.kernel.setTable fd (some ⟨toEpollEvents events, true⟩) }) := by
  have hf := hfault fd
  cases ht : s.kernel.table fd with
  | none => simp [ensure, Kernel.epollCtl, hopen, hf, ht]
  | some r => simp [ensure, Kernel.epollCtl, hopen, hf, ht]

theorem ensure_of_closed {s : IoState} {fd : ℤ} (hopen : s.kernel.isOpen fd = false)
    (events : IoEvent) : s.ensure fd events = (.error (SystemError.fromErrno .badf), s) := by
  simp [ensure, Kernel.epollCtl, hopen]

def ArmedExcept (L : List ℤ) (s : IoState) : Prop :=
  ∀ (i : ℕ) (d : Direction), ((s.reactor.slotAt i).get d).isSome →
    s.kernel.isOpen i = true ∧ ((i : ℤ) ∈ L ∨ s.kernel.ArmedFor i d)

variable {s t : IoState} {L : List ℤ} {fd : ℤ}

theorem ArmedExcept.of_slots (h : ArmedExcept L s) (hk : t.kernel = s.kernel)
    (hslots : ∀ i d, (t.reactor.slotAt i).get d = (s.reactor.slotAt i).get d ∨
      (t.reactor.slotAt i).get d = none) : ArmedExcept L t := by
  intro i d hd
  rw [hk]
  rcases hslots i d with heq | hnone
  · rw [heq] at hd
    exact h i d hd
  · rw [hnone] at hd
    simp at hd

theorem ArmedExcept.tail_of_idle (h : ArmedExcept (fd :: L) s)
    (hidle : ∀ i : ℕ, (i : ℤ) = fd → ∀ d, (s.reactor.slotAt i).get d = none) :
    ArmedExcept L s := by
  intro i d hd
  obtain ⟨hopen, harmed⟩ := h i d hd
  refine ⟨hopen, ?_⟩
  rcases harmed with hmem | harmed
  · rcases List.mem_cons.mp hmem with hfd | hmem
    · rw [hidle i hfd d] at hd
      simp at hd
    · exact Or.inl hmem
  · exact Or.inr harmed

theorem idle_of_out_of_range (hfd : fd < 0 ∨ s.reactor.slots.length ≤ fd.toNat) (i : ℕ)
    (hi : (i : ℤ) = fd) (d : Direction) : (s.reactor.slotAt i).get d = none := by
  rw [s.reactor.slotAt_of_length_le (by omega), FdEntry.get_idle]

theorem ArmedExcept.install (h : ArmedExcept (fd :: L) s) {mask : BitVec 32}
    (hbits : ∀ i : ℕ, (i : ℤ) = fd → ∀ d, ((s.reactor.slotAt i).get d).isSome →
      mask &&& d.epollBit = d.epollBit) :
    ArmedExcept L { s with kernel := s.kernel.setTable fd (some ⟨mask, true⟩) } := by
  intro i d hd
  obtain ⟨hopen, harmed⟩ := h i d hd
  refine ⟨hopen, ?_⟩
  by_cases hi : (i : ℤ) = fd
  · right
    refine ⟨⟨mask, true⟩, ?_, rfl, hbits i hi d hd⟩
    rw [Kernel.table_setTable, if_pos hi]
  · rcases harmed with hmem | harmed
    · rcases List.mem_cons.mp hmem with hfd | hmem
      · exact absurd hfd hi
      · exact Or.inl hmem
    · exact Or.inr ((Kernel.armedFor_setTable_of_ne hi _ d).mpr harmed)

theorem ArmedExcept.rearmOrErase (h : ArmedExcept (fd :: L) s) (hfault : s.kernel.NoFault) :
    ArmedExcept L (s.rearmOrErase fd) := by
  unfold IoState.rearmOrErase
  by_cases hfd : fd < 0 ∨ s.reactor.slots.length ≤ fd.toNat
  · rw [if_pos hfd]
    exact h.tail_of_idle (idle_of_out_of_range hfd)
  rw [if_neg hfd]
  dsimp only
  by_cases hidle : (s.reactor.slotAt fd.toNat).isIdle = true
  · rw [if_pos hidle]
    refine h.tail_of_idle fun i hi d => ?_
    have hn : fd.toNat = i := by omega
    rw [← hn]
    exact (FdEntry.isIdle_iff _).mp hidle d
  rw [if_neg hidle]
  rw [FdEntry.isIdle_iff, not_forall] at hidle
  obtain ⟨d, hd⟩ := hidle
  have hcast : ((fd.toNat : ℕ) : ℤ) = fd := by omega
  have hopen := (h fd.toNat d (Option.isSome_iff_ne_none.mpr hd)).1
  rw [hcast] at hopen
  rw [ensure_of_open hopen hfault]
  refine h.install fun i hi c hc => ?_
  have hn : fd.toNat = i := by omega
  rw [hn]
  exact rearmInterest_bit hc

theorem fire_kernel (s : IoState) (p : PendingEntry) : (s.fire p).2.kernel = s.kernel := by
  simp only [fire]
  cases p.state with
  | none => cases p.result <;> cases p.handle <;> rfl
  | some q =>
    dsimp only
    split_ifs
    · rfl
    · cases p.result <;> cases p.handle <;> rfl

theorem fire_slots (s : IoState) (p : PendingEntry) :
    (s.fire p).2.reactor.slots = s.reactor.slots := by
  simp only [fire]
  cases p.state with
  | none => cases p.result <;> cases p.handle <;> rfl
  | some q =>
    dsimp only
    split_ifs
    · rfl
    · cases p.result <;> cases p.handle <;> rfl

theorem slotAt_fire (s : IoState) (p : PendingEntry) (i : ℕ) :
    (s.fire p).2.reactor.slotAt i = s.reactor.slotAt i := by
  rw [EpollReactor.slotAt, fire_slots]
  rfl

structure Shrinks (s t : IoState) : Prop where
  kernel : t.kernel = s.kernel
  length : t.reactor.slots.length = s.reactor.slots.length
  slots : ∀ i d, (t.reactor.slotAt i).get d = (s.reactor.slotAt i).get d ∨
    (t.reactor.slotAt i).get d = none

theorem Shrinks.refl (s : IoState) : Shrinks s s := ⟨rfl, rfl, fun _ _ => Or.inl rfl⟩

theorem Shrinks.trans {u : IoState} (h : Shrinks s t) (h' : Shrinks t u) : Shrinks s u where
  kernel := h'.kernel.trans h.kernel
  length := h'.length.trans h.length
  slots i d := by
    rcases h'.slots i d with heq | hnone
    · rw [heq]
      exact h.slots i d
    · exact Or.inr hnone

theorem shrinks_withSlot {i : ℕ} (hi : i < s.reactor.slots.length) {e : FdEntry}
    (he : ∀ d, e.get d = (s.reactor.slotAt i).get d ∨ e.get d = none) :
    Shrinks s (s.withSlot i e) where
  kernel := rfl
  length := List.length_set
  slots j d := by
    rw [withSlot, EpollReactor.slotAt_setSlot _ hi]
    split_ifs with hj
    · rw [hj]
      exact he d
    · exact Or.inl rfl

theorem get_set_none (e : FdEntry) (d c : Direction) :
    (e.set d none).get c = e.get c ∨ (e.set d none).get c = none := by
  rw [FdEntry.get_set]
  split_ifs
  · exact Or.inr rfl
  · exact Or.inl rfl

theorem dispatch_shrinks (d : Direction) {i : ℕ} (ep : BitVec 32) {r : ℕ × IoState}
    (hi : i < r.2.reactor.slots.length) : Shrinks r.2 (dispatch d i ep r).2 := by
  unfold dispatch
  cases (r.2.reactor.slotAt i).get d with
  | none => exact Shrinks.refl _
  | some p =>
    dsimp only
    by_cases hev : ep &&& d.epollBit ≠ 0 ∨ ep &&& (epollErr ||| epollHup) ≠ 0
    · rw [if_pos hev]
      have hfire : Shrinks r.2 (r.2.fire p).2 :=
        ⟨fire_kernel _ _, by rw [fire_slots], fun j c => Or.inl (by rw [slotAt_fire])⟩
      refine hfire.trans (shrinks_withSlot (by rwa [fire_slots]) fun c => ?_)
      exact get_set_none _ d c
    · rw [if_neg hev]
      exact Shrinks.refl _

theorem ArmedExcept.handleEvent {r : ℕ × IoState} {ev : ℤ × BitVec 32}
    (h : ArmedExcept (ev.1 :: L) r.2) (hfault : r.2.kernel.NoFault) :
    ArmedExcept L (handleEvent r ev).2 := by
  unfold IoState.handleEvent
  by_cases hfd : ev.1 < 0 ∨ r.2.reactor.slots.length ≤ ev.1.toNat
  · rw [if_pos hfd]
    exact h.tail_of_idle (idle_of_out_of_range hfd)
  rw [if_neg hfd]
  by_cases hidle : (r.2.reactor.slotAt ev.1.toNat).isIdle = true
  · rw [if_pos hidle]
    refine h.tail_of_idle fun i hi d => ?_
    have hn : ev.1.toNat = i := by omega
    rw [← hn]
    exact (FdEntry.isIdle_iff _).mp hidle d
  rw [if_neg hidle]
  have hread := dispatch_shrinks .read ev.2 (i := ev.1.toNat) (r := r) (by omega)
  have hwrite := dispatch_shrinks .write ev.2 (i := ev.1.toNat)
    (r := dispatch .read ev.1.toNat ev.2 r) (by rw [hread.length]; omega)
  have hboth := hread.trans hwrite
  refine (h.of_slots hboth.kernel hboth.slots).rearmOrErase ?_
  rw [hboth.kernel]
  exact hfault

def SameFds (k k' : Kernel) : Prop := k'.isOpen = k.isOpen ∧ k'.fault = k.fault

theorem epollCtl_sameFds {k k' : Kernel} {op : CtlOp} {mask : BitVec 32}
    (h : k.epollCtl op fd mask = .ok k') : SameFds k k' := by
  unfold Kernel.epollCtl at h
  by_cases hopen : k.isOpen fd = false
  · rw [if_pos hopen] at h
    cases h
  rw [if_neg hopen] at h
  cases hf : k.fault fd with
  | some e =>
    rw [hf] at h
    cases h
  | none =>
    rw [hf] at h
    cases op <;> cases ht : k.table fd <;> rw [ht] at h <;> cases h <;> exact ⟨rfl, rfl⟩

theorem ensure_sameFds (s : IoState) (fd : ℤ) (events : IoEvent) :
    SameFds s.kernel (s.ensure fd events).2.kernel := by
  unfold ensure
  cases hmod : s.kernel.epollCtl .mod fd (toEpollEvents events) with
  | ok k => exact epollCtl_sameFds hmod
  | error e =>
    cases e with
    | noent =>
      dsimp only
      cases hadd : s.kernel.epollCtl .add fd (toEpollEvents events) with
      | ok k => exact epollCtl_sameFds hadd
      | error e => exact ⟨rfl, rfl⟩
    | _ => exact ⟨rfl, rfl⟩

theorem ensure_eq (s : IoState) (fd : ℤ) (events : IoEvent) :
    (s.ensure fd events).2 = { s with kernel := (s.ensure fd events).2.kernel } := by
  unfold ensure
  cases hmod : s.kernel.epollCtl .mod fd (toEpollEvents events) with
  | ok k => rfl
  | error e =>
    cases e with
    | noent =>
      dsimp only
      cases hadd : s.kernel.epollCtl .add fd (toEpollEvents events) <;> rfl
    | _ => rfl

theorem rearmOrErase_eq (s : IoState) (fd : ℤ) :
    s.rearmOrErase fd = { s with kernel := (s.rearmOrErase fd).kernel } := by
  unfold IoState.rearmOrErase
  split_ifs
  · rfl
  · dsimp only
    split_ifs
    · rfl
    · exact ensure_eq s fd _

theorem rearmOrErase_sameFds (s : IoState) (fd : ℤ) :
    SameFds s.kernel (s.rearmOrErase fd).kernel := by
  unfold IoState.rearmOrErase
  split_ifs
  · exact ⟨rfl, rfl⟩
  · dsimp only
    split_ifs
    · exact ⟨rfl, rfl⟩
    · exact ensure_sameFds s fd _

theorem handleEvent_sameFds (r : ℕ × IoState) (ev : ℤ × BitVec 32) :
    SameFds r.2.kernel (handleEvent r ev).2.kernel := by
  unfold IoState.handleEvent
  by_cases hfd : ev.1 < 0 ∨ r.2.reactor.slots.length ≤ ev.1.toNat
  · rw [if_pos hfd]
    exact ⟨rfl, rfl⟩
  rw [if_neg hfd]
  by_cases hidle : (r.2.reactor.slotAt ev.1.toNat).isIdle = true
  · rw [if_pos hidle]
    exact ⟨rfl, rfl⟩
  rw [if_neg hidle]
  have hread := dispatch_shrinks .read ev.2 (i := ev.1.toNat) (r := r) (by omega)
  have hwrite := dispatch_shrinks .write ev.2 (i := ev.1.toNat)
    (r := dispatch .read ev.1.toNat ev.2 r) (by rw [hread.length]; omega)
  have hrearm := rearmOrErase_sameFds (dispatch .write ev.1.toNat ev.2
    (dispatch .read ev.1.toNat ev.2 r)).2 ev.1
  rw [(hread.trans hwrite).kernel] at hrearm
  exact hrearm

theorem ArmedExcept.handleEvents (events : List (ℤ × BitVec 32)) {r : ℕ × IoState}
    (h : ArmedExcept (events.map Prod.fst) r.2) (hfault : r.2.kernel.NoFault) :
    ArmedExcept [] (events.foldl IoState.handleEvent r).2 ∧
      (events.foldl IoState.handleEvent r).2.kernel.NoFault := by
  induction events generalizing r with
  | nil => exact ⟨h, hfault⟩
  | cons ev events ih =>
    refine ih (ArmedExcept.handleEvent h hfault) ?_
    intro fd
    rw [(handleEvent_sameFds r ev).2]
    exact hfault fd

structure Sound (s : IoState) : Prop where
  noFault : s.kernel.NoFault
  armed : ArmedExcept [] s

theorem Sound.poll (h : Sound s) (report : PollReport) : Sound (s.poll report).2 := by
  cases report with
  | failed e => cases e <;> exact h
  | reported events =>
    obtain ⟨hopen, hfault, htable⟩ := s.kernel.reports_frame events
    have hstart : ArmedExcept (events.map Prod.fst)
        { s with kernel := events.foldl (fun k ev => k.report ev.1) s.kernel } := by
      intro i d hd
      obtain ⟨ho, ha⟩ := h.armed i d hd
      refine ⟨by rw [hopen]; exact ho, ?_⟩
      by_cases hi : (i : ℤ) ∈ events.map Prod.fst
      · exact Or.inl hi
      · right
        obtain ⟨r, hr, harmed⟩ := ha.resolve_left (by simp)
        exact ⟨r, by rw [htable _ hi]; exact hr, harmed⟩
    have hend := ArmedExcept.handleEvents events (r := (0, _)) hstart
      (fun fd => by rw [hfault]; exact h.noFault fd)
    exact ⟨hend.2, hend.1⟩

theorem ArmedExcept.of_nil (h : ArmedExcept [] s) (L : List ℤ) : ArmedExcept L s := by
  intro i d hd
  obtain ⟨hopen, harmed⟩ := h i d hd
  exact ⟨hopen, Or.inr (harmed.resolve_left (by simp))⟩

theorem Sound.deregister (h : Sound s) (fd : ℤ) : Sound (s.deregister fd) := by
  refine ⟨h.noFault, h.armed.of_slots rfl fun i d => ?_⟩
  rw [IoState.deregister, EpollReactor.slotAt_clearSlot]
  split_ifs
  · exact Or.inr (FdEntry.get_idle d)
  · exact Or.inl rfl

theorem Sound.deregisterDir (h : Sound s) (fd : ℤ) (dir : IoEvent) :
    Sound (s.deregisterDir fd dir) := by
  unfold IoState.deregisterDir
  by_cases hfd : fd < 0 ∨ s.reactor.slots.length ≤ fd.toNat
  · rw [if_pos hfd]
    exact h
  rw [if_neg hfd]
  dsimp only
  by_cases hidle : (s.reactor.slotAt fd.toNat).isIdle = true
  · rw [if_pos hidle]
    exact h
  rw [if_neg hidle]
  set e := s.reactor.slotAt fd.toNat with he
  set e₁ := if hasFlag dir IoEvent.read = true then e.set .read none else e with he₁
  set e₂ := if hasFlag dir IoEvent.write = true then e₁.set .write none else e₁ with he₂
  have hget : ∀ d, e₂.get d = e.get d ∨ e₂.get d = none := by
    intro d
    rw [he₂, he₁]
    cases hasFlag dir IoEvent.read <;> cases hasFlag dir IoEvent.write <;> cases d <;>
      simp [FdEntry.set, FdEntry.get]
  have hshrink := shrinks_withSlot (s := s) (i := fd.toNat) (by omega) hget
  have harmed := (h.armed.of_nil [fd]).of_slots hshrink.kernel hshrink.slots
  refine ⟨fun j => ?_, harmed.rearmOrErase h.noFault⟩
  rw [(rearmOrErase_sameFds (s.withSlot fd.toNat e₂) fd).2]
  exact h.noFault j

theorem Sound.remove (h : Sound s) (fd : ℤ) : Sound (s.remove fd).2 := by
  unfold IoState.remove
  by_cases hneg : fd < 0
  · rw [if_pos hneg]
    exact h
  rw [if_neg hneg]
  have hcleared := h.deregister fd
  have hf := h.noFault fd
  unfold Kernel.epollCtl
  by_cases hopen : s.kernel.isOpen fd = false
  · rw [if_pos hopen]
    exact hcleared
  rw [if_neg hopen, hf]
  cases s.kernel.table fd with
  | none => exact hcleared
  | some r =>
    refine ⟨h.noFault, fun i d hd => ?_⟩
    obtain ⟨ho, ha⟩ := hcleared.armed i d hd
    refine ⟨ho, Or.inr ?_⟩
    have hne : (i : ℤ) ≠ fd := by
      intro hi
      have hidle : (s.reactor.clearSlot fd).slotAt i = FdEntry.idle := by
        rw [EpollReactor.slotAt_clearSlot, if_pos hi]
      rw [hidle, FdEntry.get_idle] at hd
      simp at hd
    exact (Kernel.armedFor_setTable_of_ne hne none d).mpr (ha.resolve_left (by simp))

theorem slotAt_withSlot {i : ℕ} (hi : i < s.reactor.slots.length) (e : FdEntry) (j : ℕ) :
    (s.withSlot i e).reactor.slotAt j = if j = i then e else s.reactor.slotAt j :=
  s.reactor.slotAt_setSlot hi e j

theorem other_of_ne {c d : Direction} (h : c ≠ d) : c = d.other := by
  cases c <;> cases d <;> first | rfl | exact absurd rfl h

theorem Sound.register (h : Sound s) (d : Direction) (negative busy : String) (fd : ℤ)
    (p : PendingEntry) : Sound (register d negative busy s fd p).2 := by
  unfold IoState.register
  by_cases hneg : fd < 0
  · rw [if_pos hneg]
    exact h
  rw [if_neg hneg]
  dsimp only
  set t : IoState := { s with reactor := s.reactor.ensureSlot fd.toNat } with ht
  have hslot : ∀ i, t.reactor.slotAt i = s.reactor.slotAt i :=
    s.reactor.slotAt_ensureSlot fd.toNat
  have hlen : fd.toNat < t.reactor.slots.length := s.reactor.lt_length_ensureSlot fd.toNat
  have htsound : Sound t :=
    ⟨h.noFault, h.armed.of_slots rfl fun i c => Or.inl (by rw [hslot])⟩
  set e := t.reactor.slotAt fd.toNat with he
  by_cases hbusy : (e.get d).isSome = true
  · rw [if_pos hbusy]
    exact htsound
  rw [if_neg hbusy]
  cases hopen : t.kernel.isOpen fd with
  | false =>
    rw [ensure_of_closed (s := t.withSlot fd.toNat (e.set d (some p))) hopen]
    refine ⟨h.noFault, htsound.armed.of_slots rfl fun i c => ?_⟩
    have hlen' : fd.toNat < (t.withSlot fd.toNat (e.set d (some p))).reactor.slots.length := by
      rwa [withSlot, EpollReactor.setSlot, List.length_set]
    rw [slotAt_withSlot hlen', slotAt_withSlot hlen, slotAt_withSlot hlen, if_pos rfl]
    split_ifs with hi
    · rw [hi, FdEntry.get_set, FdEntry.get_set]
      split_ifs
      · exact Or.inr rfl
      · exact Or.inl rfl
    · exact Or.inl rfl
  | true =>
    rw [ensure_of_open (s := t.withSlot fd.toNat (e.set d (some p))) hopen h.noFault]
    refine ⟨h.noFault, ArmedExcept.install (s := t.withSlot fd.toNat (e.set d (some p))) ?_ ?_⟩
    · intro i c hc
      rw [slotAt_withSlot hlen] at hc
      by_cases hi : i = fd.toNat
      · have hcast : (i : ℤ) = fd := by omega
        exact ⟨hcast ▸ hopen, Or.inl (List.mem_singleton.mpr hcast)⟩
      · rw [if_neg hi] at hc
        exact (htsound.armed.of_nil [fd]) i c hc
    · intro i hi c hc
      have hn : i = fd.toNat := by omega
      rw [slotAt_withSlot hlen, if_pos hn, FdEntry.get_set] at hc
      by_cases hcd : c = d
      · rw [hcd]
        exact registerInterest_self d e
      · rw [if_neg hcd, other_of_ne hcd] at hc
        rw [other_of_ne hcd]
        exact registerInterest_other hc

theorem Sound.step (h : Sound s) {op : IoOp} (hs : s.step op = some t) : Sound t := by
  cases op <;> simp only [IoState.step, Option.some.injEq] at hs
  case registerRead fd p => exact hs ▸ h.register _ _ _ fd p
  case registerWrite fd p => exact hs ▸ h.register _ _ _ fd p
  case deregister fd => exact hs ▸ h.deregister fd
  case deregisterDir fd dir => exact hs ▸ h.deregisterDir fd dir
  case remove fd => exact hs ▸ h.remove fd
  case poll report => exact hs ▸ h.poll report
  case drainReady => exact hs ▸ ⟨h.noFault, h.armed⟩
  case heap m => exact hs ▸ ⟨h.noFault, h.armed⟩
  case openFd fd =>
    refine hs ▸ ⟨h.noFault, fun i d hd => ?_⟩
    obtain ⟨hopen, harmed⟩ := h.armed i d hd
    refine ⟨?_, harmed⟩
    by_cases hi : (i : ℤ) = fd
    · simp [hi]
    · simpa [hi] using hopen
  case closeFd fd =>
    split_ifs at hs with htable
    rw [Option.some.injEq] at hs
    refine hs ▸ ⟨h.noFault, fun i d hd => ?_⟩
    obtain ⟨hopen, harmed⟩ := h.armed i d hd
    obtain ⟨r, hr, -⟩ := harmed.resolve_left (by simp)
    have hi : (i : ℤ) ≠ fd := by
      intro hi
      rw [hi, htable] at hr
      cases hr
    refine ⟨?_, harmed⟩
    simpa [hi] using hopen

theorem fresh_sound {k : Kernel} (hk : k.NoFault) (m : Heap) : Sound (fresh k m) :=
  ⟨hk, fun i d hd => by simp [fresh, EpollReactor.slotAt] at hd⟩

/-- After any operations, whatever the polls reported, an fd with a pending waiter is
registered and armed for it. -/
theorem pending_waiters_armed {k : Kernel} {m : Heap} {ops : List IoOp} (hk : k.NoFault)
    (h : Reaches k m ops s) (i : ℕ) (d : Direction)
    (hd : ((s.reactor.slotAt i).get d).isSome) :
    ∃ r, s.kernel.table i = some r ∧ r.armed = true ∧ r.mask &&& d.epollBit = d.epollBit := by
  have hsound : Sound s :=
    Transition.invariant Sound (fun hs hi => hi.step hs) (fresh_sound hk m) h
  exact (hsound.armed i d hd).2.resolve_left (by simp)

/-- Both directions of one fd wait, and the poll reports the readable one. -/
theorem pending_waiters_armed_after_poll :
    ∃ s, Reaches ⟨fun _ => true, fun _ => none, fun _ => none⟩
        ⟨fun _ => .pending, fun _ => .ok 0, fun _ => false⟩
        [.registerRead 3 ⟨some 0, some 0, some 0, .ready⟩,
          .registerWrite 3 ⟨some 1, some 1, some 1, .ready⟩,
          .poll (.reported [(3, epollIn)])] s ∧
      s.reactor.ready = [0] ∧
      ∃ r, s.kernel.table 3 = some r ∧ r.armed = true ∧ r.mask &&& epollOut = epollOut := by
  obtain ⟨s, hr, hready, hw⟩ : ∃ s,
      Reaches ⟨fun _ => true, fun _ => none, fun _ => none⟩
        ⟨fun _ => .pending, fun _ => .ok 0, fun _ => false⟩
        [.registerRead 3 ⟨some 0, some 0, some 0, .ready⟩,
          .registerWrite 3 ⟨some 1, some 1, some 1, .ready⟩,
          .poll (.reported [(3, epollIn)])] s ∧
      s.reactor.ready = [0] ∧ ((s.reactor.slotAt 3).get .write).isSome = true :=
    ⟨_, rfl, by decide, by decide⟩
  exact ⟨s, hr, hready, pending_waiters_armed (fun _ => rfl) hr 3 .write hw⟩

end IoState
end RainRuntime
