import RainRuntime.BridgeInvariant

/-!
# Blocking work is delivered once

The steps of a call itself, from the creation of its eventfd to the end of its
`BlockingState`, and the run of all calls together. In the pool such a run is a run of the
pool, so what is known about accepted tasks holds for the work of the calls.
-/

namespace RainRuntime
namespace Bridge
variable {V : Type*}
open IoState BlockingCall

section Rules
variable {capacity : ℕ} {s : Bridge V}

theorem tracked_of_unreferenced {b : ℕ} (h : s.unreferenced b = true) (i : ℕ) :
    Tracked b i none 0 s.io ∧ s.drained.count b = 0 := by
  simp only [unreferenced, Bool.and_eq_true, List.all_eq_true, decide_eq_true_eq] at h
  obtain ⟨⟨hslots, hready⟩, hdrained⟩ := h
  refine ⟨⟨nofun, ?_, List.count_eq_zero.mpr hready⟩, List.count_eq_zero.mpr hdrained⟩
  intro j d q hq hh
  exfalso
  by_cases hj : j < s.io.reactor.slots.length
  · have hmem : s.io.reactor.slotAt j ∈ s.io.reactor.slots := by
      rw [EpollReactor.slotAt, List.getD_eq_getElem _ _ hj]
      exact List.getElem_mem hj
    obtain ⟨hread, hwrite⟩ := hslots _ hmem
    cases d with
    | read =>
      rw [show (s.io.reactor.slotAt j).read = some q from hq, Option.all_some,
        decide_eq_true_eq] at hread
      exact hread hh
    | write =>
      rw [show (s.io.reactor.slotAt j).write = some q from hq, Option.all_some,
        decide_eq_true_eq] at hwrite
      exact hwrite hh
  · rw [s.io.reactor.slotAt_of_length_le (by omega), FdEntry.get_idle] at hq
    cases hq

theorem data_of_idle {ran : List ℕ} {b : ℕ} {c : BlockingCall V} (hidle : c.work = .idle)
    (hphase : c.phase.hasReturned = false)
    (hresult : c.result = match c.phase.rejection with
      | some e => .error e
      | none => if c.work = .idle then .error notCompleted else c.outcome)
    (hcounter : 0 < c.counter → c.work = .notified)
    (hran : ran.count b = if c.work = .idle then 0 else 1) : Data ran b c := by
  refine ⟨fun h => absurd hidle h, hresult, hcounter, hran, ?_, ?_⟩
  · intro r hr
    rw [hr] at hphase
    cases hphase
  · intro e r hr
    rw [hr] at hphase
    cases hphase

theorem Inv.create (hs : Inv capacity s) {b : ℕ} {fd : ℤ} {fn : Option V} (hfd : 0 ≤ fd)
    (hclosed : s.io.kernel.isOpen fd = false) (hfree : s.eventfd fd = none)
    (hb : s.call b = none) (hunref : s.unreferenced b = true) :
    Inv capacity { s.setCall b (.create fd fn) with
      io := setOpen s.io fd
      eventfd := Function.update s.eventfd fd (some b) } := by
  obtain ⟨hran, hnowork⟩ := hs.uncalled b hb
  have hkernel := hs.openFd fd
  refine ⟨hs.pool, ?_, ?_, ?_, hkernel.clean⟩
  · intro b' c hc
    by_cases hbb : b' = b
    · subst hbb
      have hc' : Function.update s.call b' (some (BlockingCall.create fd fn)) b' = some c := hc
      rw [Function.update_self] at hc'
      cases hc'
      obtain ⟨htracked, hdrained⟩ := tracked_of_unreferenced hunref fd.toNat
      refine ⟨hfd, ?_, ?_, ⟨⟨none, 0, htracked.of_reactor rfl, ?_⟩, ?_⟩, ?_, nofun⟩
      · exact data_of_idle rfl rfl rfl (fun h => absurd h (Nat.lt_irrefl 0)) hran
      · refine ⟨⟨fun h => absurd h hnowork, nofun⟩, fun w x hmem hx => ?_⟩
        exact absurd ⟨x, hs.pool.accepted_of_started (hs.pool.finished_sub _ hmem), hx⟩ hnowork
      · exact ⟨rfl, hdrained⟩
      · intro _ d q hq
        have hnone := hs.clean fd.toNat (by rw [Int.toNat_of_nonneg hfd]; exact hclosed) d
        rw [show (s.io.reactor.slotAt fd.toNat).get d = some q from hq] at hnone
        cases hnone
      · exact fun _ => Function.update_self ..
    · have hc' : s.call b' = some c := (Function.update_of_ne hbb ..).symm.trans hc
      have hold := hs.calls b' c hc'
      refine ⟨hold.nonneg, hold.data, hold.handed, hold.watched.of_reactor rfl, ?_, hold.gone⟩
      intro hopen
      have hlive := hold.live hopen
      refine (Function.update_of_ne ?_ ..).trans hlive
      rintro rfl
      rw [hfree] at hlive
      cases hlive
  · intro b' hb'
    have hbb : b' ≠ b := by
      rintro rfl
      have hsome : Function.update s.call b' (some (BlockingCall.create fd fn)) b' = none := hb'
      rw [Function.update_self] at hsome
      cases hsome
    exact hs.uncalled b' ((Function.update_of_ne hbb ..).symm.trans hb')
  · intro fd' b' hfd'
    by_cases heq : fd' = fd
    · subst heq
      have hb' : Function.update s.eventfd fd' (some b) fd' = some b' := hfd'
      rw [Function.update_self] at hb'
      cases hb'
      exact ⟨Function.update_self .., _, Function.update_self .., rfl, rfl⟩
    · have hold : s.eventfd fd' = some b' := (Function.update_of_ne heq ..).symm.trans hfd'
      obtain ⟨ho, c, hc, hrest⟩ := hkernel.eventfds fd' b' hold
      have hbb : b' ≠ b := by
        rintro rfl
        rw [show s.call b' = some c from hc] at hb
        cases hb
      exact ⟨ho, c, (Function.update_of_ne hbb ..).trans hc, hrest⟩

theorem CallInv.open_of_phase {b : ℕ} {c : BlockingCall V} (h : CallInv s b c)
    (hphase : c.phase.hasReturned = false) : c.closed = false := by
  cases hclosed : c.closed with
  | false => rfl
  | true =>
    have hreturned := h.gone hclosed
    rw [hphase] at hreturned
    cases hreturned

theorem Data.idle_of_unaccepted {ran : List ℕ} {b : ℕ} {c : BlockingCall V} (h : Data ran b c)
    (hphase : c.phase.isAccepted = false) : c.work = .idle := by
  by_contra hne
  have haccepted := h.work hne
  rw [hphase] at haccepted
  cases haccepted

theorem Inv.register (hs : Inv capacity s) {b : ℕ} {c : BlockingCall V} (hb : s.call b = some c)
    (hphase : c.phase = .created) : Inv capacity (s.register b c) := by
  have hold := hs.calls b c hb
  have hopen : c.closed = false := hold.open_of_phase (by rw [hphase]; rfl)
  have hidle : c.work = .idle := hold.data.idle_of_unaccepted (by rw [hphase]; rfl)
  have hframe : Frame c.fd (some (entry b)) s.io (s.io.registerRead c.fd (entry b)).2 :=
    register_frame ..
  obtain ⟨p, n, ht, hplace⟩ := hold.watched.place
  rw [Place, hphase] at hplace
  obtain ⟨rfl, hm⟩ := hplace
  have hwork := hold.handed.accepted
  rw [hphase] at hwork
  have hran := hold.data.ran
  have hcounter := hold.data.counter
  have hfin := hold.handed.finished
  generalize hreg : s.io.registerRead c.fd (entry b) = r at hframe
  obtain ⟨res, io⟩ := r
  obtain ⟨⟨-, hready, -⟩, hcases⟩ := register_cases _ _ _ s.io c.fd (entry b) hreg
  have hown : ∀ d q, (io.reactor.slotAt c.fd.toNat).get d = some q → q.handle = some b := by
    intro d q hq
    rcases hframe.entries _ d q hq with hq | ⟨hnew, -⟩
    · exact hold.watched.own hopen d q hq
    · rw [← Option.some.inj hnew]
      rfl
  rcases hcases with ⟨⟨e, rfl⟩, hslots⟩ | ⟨rfl, -, -, hslots⟩
  · have heq : s.register b c = { s.setCall b { c with result := .error e, phase := .rejected e }
        with io := io } := by simp only [Bridge.register, hreg]
    rw [heq]
    refine hs.update _ _ hb hopen rfl rfl rfl hopen hs.pool (fun _ _ => Iff.rfl) (fun _ h => h)
      (fun _ _ => rfl) rfl hframe (fun q hq => by cases hq; rfl) ?_
    refine ⟨hold.nonneg, ?_, ⟨hwork, hfin⟩, ⟨⟨none, n, ?_, rfl, hm⟩, fun _ => hown⟩, hold.live,
      fun h => by rw [show c.closed = true from h] at hopen; cases hopen⟩
    · exact data_of_idle hidle rfl rfl hcounter hran
    · exact ht.of_slots (hslots _) (fun j d q hq _ => by rw [hslots] at hq; exact hq) hready
  · have heq : s.register b c = { s.setCall b { c with phase := .registered } with io := io } := by
      simp only [Bridge.register, hreg]
    rw [heq]
    refine hs.update _ _ hb hopen rfl rfl rfl hopen hs.pool (fun _ _ => Iff.rfl) (fun _ h => h)
      (fun _ _ => rfl) rfl hframe (fun q hq => by cases hq; rfl) ?_
    have hresult := hold.data.result
    rw [hphase] at hresult
    refine ⟨hold.nonneg, ?_, ⟨hwork, hfin⟩, ⟨⟨some (entry b), n, ⟨?_, ?_, ?_⟩, rfl, hm⟩,
      fun _ => hown⟩, hold.live, fun h => by rw [show c.closed = true from h] at hopen; cases hopen⟩
    · exact data_of_idle hidle rfl hresult hcounter hran
    · intro q hq
      cases hq
      rw [hslots, if_pos (Int.toNat_of_nonneg hold.nonneg), FdEntry.get_set, if_pos rfl]
    · intro j d q hq hh
      rw [hslots] at hq
      split_ifs at hq with hj
      · rw [FdEntry.get_set] at hq
        split_ifs at hq with hd
        · refine ⟨hq, ?_, hd⟩
          change j = c.fd.toNat
          omega
        · obtain ⟨hnone, -, -⟩ := ht.only j d q hq hh
          cases hnone
      · obtain ⟨hnone, -, -⟩ := ht.only j d q hq hh
        cases hnone
    · rw [hready]
      exact ht.count

theorem tracked_deregister {b : ℕ} {fd : ℤ} {p : Option PendingEntry} {n : ℕ} {io : IoState}
    (hfd : 0 ≤ fd) (ht : Tracked b fd.toNat p n io) :
    Tracked b fd.toNat none n (io.deregister fd) := by
  have hframe := deregister_frame io fd
  refine ⟨nofun, ?_, ?_⟩
  · intro j d q hq hh
    rcases hframe.entries j d q hq with hold | ⟨hnone, -⟩
    · obtain ⟨-, rfl, rfl⟩ := ht.only j d q hold hh
      rw [deregister, EpollReactor.slotAt_clearSlot, if_pos (Int.toNat_of_nonneg hfd),
        FdEntry.get_idle] at hq
      cases hq
    · cases hnone
  · rw [hframe.ready]
    exact ht.count

theorem own_deregister {b : ℕ} {fd : ℤ} {i : ℕ} {io : IoState}
    (h : ∀ d q, (io.reactor.slotAt i).get d = some q → q.handle = some b) (d : Direction)
    (q : PendingEntry) (hq : ((io.deregister fd).reactor.slotAt i).get d = some q) :
    q.handle = some b := by
  rcases (deregister_frame io fd).entries i d q hq with hold | ⟨hnone, -⟩
  · exact h d q hold
  · cases hnone

theorem Inv.spawn (hs : Inv capacity s) {t : Bridge V} {b : ℕ} {c : BlockingCall V}
    (hb : s.call b = some c) (hphase : c.phase = .registered) (h : s.spawn b c = some t) :
    Inv capacity t := by
  have hold := hs.calls b c hb
  have hopen : c.closed = false := hold.open_of_phase (by rw [hphase]; rfl)
  have hidle : c.work = .idle := hold.data.idle_of_unaccepted (by rw [hphase]; rfl)
  have hnotgone : c.closed = true → ∀ {phase : BlockingPhase V}, phase.hasReturned = true :=
    fun hc => by rw [hopen] at hc; cases hc
  obtain ⟨p, n, ht, hplace⟩ := hold.watched.place
  rw [Place, hphase] at hplace
  obtain ⟨rfl, hm⟩ := hplace
  have hnowork : ¬HasWork s.pool b := by
    rw [hold.handed.accepted, hphase]
    intro haccepted
    cases haccepted
  obtain ⟨pool, hstep, rfl⟩ := Option.map_eq_some_iff.mp h
  have haccepted := ThreadPool.step_spawn hstep
  have hfin : ∀ q ∈ pool.finished, q ∈ s.pool.finished := by
    rcases ThreadPool.step_finished hstep with hsame | ⟨w, x, threw, hop, -, -⟩
    · rw [hsame]
      exact fun _ hq => hq
    · cases hop
  cases hres : s.pool.spawnResult (.blocking b) with
  | ok u =>
    rw [hres] at haccepted
    have hwork : ∀ b', HasWork pool b' ↔
        HasWork s.pool b' ∨
          PoolTask.spawned (BlockingJob.blocking b) = .spawned (BlockingJob.blocking b') :=
      fun b' => hasWork_append haccepted
    refine hs.update { c with phase := .suspended } none hb hopen rfl rfl rfl
      hopen (hs.pool.step hstep) ?_ hfin (fun _ _ => rfl) rfl (Frame.refl ..) (by simp) ?_
    · intro b' hbb
      change HasWork pool b' ↔ HasWork s.pool b'
      rw [hwork b', or_iff_left]
      intro heq
      cases heq
      exact hbb rfl
    · have hresult := hold.data.result
      rw [hphase] at hresult
      refine ⟨hold.nonneg, ?_, ⟨?_, ?_⟩, ⟨⟨some (entry b), n, ht, ?_⟩, hold.watched.own⟩, hold.live,
        fun hc => hnotgone hc⟩
      · exact data_of_idle hidle rfl hresult hold.data.counter hold.data.ran
      · exact ⟨fun _ => rfl, fun _ => (hwork b).mpr (Or.inr rfl)⟩
      · exact fun w x hmem hx => hold.handed.finished w x (hfin _ hmem) hx
      · exact (place_suspended rfl).mpr (Or.inl ⟨rfl, hm⟩)
  | error e =>
    rw [hres, List.append_nil] at haccepted
    refine hs.update { c with result := .error e, phase := .rejected e } _ hb hopen rfl rfl
      rfl hopen (hs.pool.step hstep) (fun b' _ => hasWork_congr haccepted) hfin (fun _ _ => rfl) rfl
      (deregister_frame ..) (by simp) ?_
    refine ⟨hold.nonneg, ?_, ⟨?_, ?_⟩, ⟨⟨none, n, ?_, rfl, hm⟩, ?_⟩, hold.live,
      fun hc => hnotgone hc⟩
    · exact data_of_idle hidle rfl rfl hold.data.counter hold.data.ran
    · exact ⟨fun hwork => absurd ((hasWork_congr haccepted).mp hwork) hnowork,
        fun h => (by cases h)⟩
    · exact fun w x hmem hx => hold.handed.finished w x (hfin _ hmem) hx
    · exact tracked_deregister hold.nonneg ht
    · exact fun _ => own_deregister (hold.watched.own hopen)

theorem count_append_of_ne {ran : List ℕ} {b b' : ℕ} (h : b' ≠ b) :
    (ran ++ [b]).count b' = ran.count b' := by
  rw [List.count_append, List.count_singleton, if_neg, Nat.add_zero]
  simpa using h.symm

theorem rejection_of_accepted {phase : BlockingPhase V} (h : phase.isAccepted = true) :
    phase.rejection = none := by
  cases phase <;> first | rfl | cases h

theorem Place.suspended_of_accepted {b : ℕ} {c : BlockingCall V} {p : Option PendingEntry} {m : ℕ}
    (h : Place b c p m) (haccepted : c.phase.isAccepted = true) (hwork : c.work ≠ .notified) :
    c.phase = .suspended := by
  cases hphase : c.phase with
  | suspended => rfl
  | resumed r =>
    rw [Place, hphase] at h
    exact absurd h.2.2 hwork
  | created => rw [hphase] at haccepted; cases haccepted
  | registered => rw [hphase] at haccepted; cases haccepted
  | rejected e => rw [hphase] at haccepted; cases haccepted
  | continued e r => rw [hphase] at haccepted; cases haccepted

theorem Inv.store (hs : Inv capacity s) {w b : ℕ} {c : BlockingCall V}
    (hworking : s.working w = some b) (hb : s.call b = some c) (hidle : c.work = .idle) :
    Inv capacity { s.setCall b { c with result := c.outcome, work := .stored } with
      ran := s.ran ++ [b] } := by
  have hold := hs.calls b c hb
  have haccepted := hold.handed.accepted.mp (hasWork_of_running hs hworking)
  have hrejection := rejection_of_accepted haccepted
  obtain ⟨p, n, ht, hplace⟩ := hold.watched.place
  have hsuspended := hplace.suspended_of_accepted haccepted (by rw [hidle]; nofun)
  have hopen : c.closed = false := hold.open_of_phase (by rw [hsuspended]; rfl)
  refine hs.update { c with result := c.outcome, work := .stored } none hb hopen
    rfl rfl rfl hopen hs.pool (fun _ _ => Iff.rfl) (fun _ hq => hq)
    (fun b' hbb => count_append_of_ne hbb) rfl (Frame.refl ..) nofun ?_
  refine ⟨hold.nonneg, ⟨fun _ => haccepted, ?_, ?_, ?_, ?_, ?_⟩, ⟨hold.handed.accepted, ?_⟩,
    ⟨⟨p, n, ht, ?_⟩, hold.watched.own⟩, hold.live, hold.gone⟩
  · simp only [hrejection]
    rfl
  · intro hpos
    have hnotified := hold.data.counter hpos
    rw [hidle] at hnotified
    cases hnotified
  · have hran := hold.data.ran
    rw [hidle] at hran
    rw [List.count_append, hran, List.count_singleton_self]
    rfl
  · intro r hr
    rw [hsuspended] at hr
    cases hr
  · intro e r hr
    rw [hsuspended] at hr
    cases hr
  · intro w' x hmem hx
    have hnotified := hold.handed.finished w' x hmem hx
    rw [hidle] at hnotified
    cases hnotified
  · rw [place_suspended hsuspended] at hplace
    refine (place_suspended (c := { c with result := c.outcome, work := .stored })
      hsuspended).mpr (Or.inl ?_)
    rcases hplace with hwaiting | ⟨-, -, hnotified⟩
    · exact hwaiting
    · rw [hidle] at hnotified
      cases hnotified

theorem Inv.notify (hs : Inv capacity s) {b : ℕ} {c : BlockingCall V}
    (hb : s.call b = some c) (hstored : c.work = .stored) :
    Inv capacity (s.setCall b { c with counter := c.counter + 1, work := .notified }) := by
  have hold := hs.calls b c hb
  have haccepted := hold.data.work (by rw [hstored]; nofun)
  obtain ⟨p, n, ht, hplace⟩ := hold.watched.place
  have hsuspended := hplace.suspended_of_accepted haccepted (by rw [hstored]; nofun)
  have hopen : c.closed = false := hold.open_of_phase (by rw [hsuspended]; rfl)
  refine hs.update { c with counter := c.counter + 1, work := .notified } none hb
    hopen rfl rfl rfl hopen hs.pool (fun _ _ => Iff.rfl) (fun _ hq => hq) (fun _ _ => rfl) rfl
    (Frame.refl ..) nofun ?_
  refine ⟨hold.nonneg, ⟨fun _ => haccepted, ?_, fun _ => rfl, ?_, hold.data.resumed,
    hold.data.continued⟩, ⟨hold.handed.accepted, fun _ _ _ _ => rfl⟩,
    ⟨⟨p, n, ht, ?_⟩, hold.watched.own⟩, hold.live, hold.gone⟩
  · have hresult := hold.data.result
    rw [rejection_of_accepted haccepted, hstored] at hresult
    simp only [rejection_of_accepted haccepted]
    exact hresult
  · have hran := hold.data.ran
    rw [hstored] at hran
    exact hran
  · rw [place_suspended hsuspended] at hplace
    refine (place_suspended (c := { c with counter := c.counter + 1, work := .notified })
      hsuspended).mpr ?_
    rcases hplace with hwaiting | ⟨hp, hm, -⟩
    · exact Or.inl hwaiting
    · exact Or.inr ⟨hp, hm, rfl⟩

theorem Inv.resumeSuspended (hs : Inv capacity s) {b : ℕ} {c : BlockingCall V}
    (hb : s.call b = some c) (hphase : c.phase = .suspended) (hdrained : b ∈ s.drained) :
    Inv capacity (s.awaitResume b c .resumed) := by
  have hold := hs.calls b c hb
  have hopen : c.closed = false := hold.open_of_phase (by rw [hphase]; rfl)
  obtain ⟨p, n, ht, hplace⟩ := hold.watched.place
  rw [place_suspended hphase] at hplace
  obtain ⟨rfl, hm, hnotified⟩ : p = none ∧ s.drained.count b + n = 1 ∧ c.work = .notified := by
    rcases hplace with ⟨-, hzero⟩ | hqueued
    · have hpos := List.count_pos_iff.mpr hdrained
      omega
    · exact hqueued
  have hresult : c.result = c.outcome := by
    have hdata := hold.data.result
    rw [hphase, hnotified] at hdata
    exact hdata
  have hran := hold.data.ran
  have haccepted := hold.handed.accepted
  rw [hphase] at haccepted
  refine hs.update { c with counter := 0, phase := .resumed c.result } _ hb hopen rfl rfl rfl
    hopen hs.pool (fun _ _ => Iff.rfl) (fun _ hq => hq) (fun _ _ => rfl) rfl (deregister_frame ..)
    nofun ?_
  refine ⟨hold.nonneg, ⟨fun _ => rfl, ?_, fun hpos => absurd hpos (Nat.lt_irrefl 0), hran, ?_,
    ?_⟩, ⟨haccepted, hold.handed.finished⟩, ⟨⟨none, n, ?_, rfl, hm, hnotified⟩, ?_⟩, hold.live,
    fun _ => rfl⟩
  · simp only [BlockingPhase.rejection, hnotified]
    exact hresult
  · intro r hr
    cases hr
    exact hresult
  · intro e r hr
    cases hr
  · exact tracked_deregister hold.nonneg ht
  · exact fun _ => own_deregister (hold.watched.own hopen)

theorem Inv.resumeRejected (hs : Inv capacity s) {b : ℕ} {c : BlockingCall V} {e : SystemError}
    (hb : s.call b = some c) (hphase : c.phase = .rejected e) :
    Inv capacity (s.awaitResume b c (.continued e)) := by
  have hold := hs.calls b c hb
  have hopen : c.closed = false := hold.open_of_phase (by rw [hphase]; rfl)
  have hidle : c.work = .idle := hold.data.idle_of_unaccepted (by rw [hphase]; rfl)
  obtain ⟨p, n, ht, hplace⟩ := hold.watched.place
  rw [Place, hphase] at hplace
  have hresult : c.result = .error e := by
    have hdata := hold.data.result
    rw [hphase] at hdata
    exact hdata
  have hran := hold.data.ran
  have haccepted := hold.handed.accepted
  rw [hphase] at haccepted
  refine hs.update { c with counter := 0, phase := .continued e c.result } _ hb hopen rfl rfl
    rfl hopen hs.pool (fun _ _ => Iff.rfl) (fun _ hq => hq) (fun _ _ => rfl) rfl
    (deregister_frame ..) (by simp) ?_
  refine ⟨hold.nonneg, ⟨fun hne => absurd hidle hne, hresult,
    fun hpos => absurd hpos (Nat.lt_irrefl 0), hran, ?_, ?_⟩, ⟨haccepted, hold.handed.finished⟩,
    ⟨⟨none, n, ?_, rfl, hplace.2⟩, ?_⟩, hold.live, fun _ => rfl⟩
  · intro r hr
    cases hr
  · intro e' r hr
    cases hr
    exact hresult
  · exact tracked_deregister hold.nonneg ht
  · exact fun _ => own_deregister (hold.watched.own hopen)

theorem Place.eq_none {b : ℕ} {c : BlockingCall V} {p : Option PendingEntry} {m : ℕ}
    (h : Place b c p m) (hphase : c.phase.hasReturned = true) : p = none := by
  cases p with
  | none => rfl
  | some q =>
    rw [(h.entry_of_some rfl).2] at hphase
    cases hphase

theorem Inv.close (hs : Inv capacity s) {b : ℕ} {c : BlockingCall V} (hb : s.call b = some c)
    (hopen : c.closed = false) (hphase : c.phase.hasReturned = true) :
    Inv capacity { s.setCall b { c with closed := true } with
      io := closeIn s.io c.fd
      eventfd := Function.update s.eventfd c.fd none } := by
  have hthis := hs.calls b c hb
  refine ⟨hs.pool, ?_, ?_, ?_, ?_⟩
  · intro b' d hd
    by_cases hbb : b' = b
    · subst hbb
      have hd' : Function.update s.call b' (some { c with closed := true }) b' = some d := hd
      rw [Function.update_self] at hd'
      cases hd'
      have hdata := hthis.data
      refine ⟨hthis.nonneg, ⟨hdata.work, hdata.result, hdata.counter, hdata.ran, hdata.resumed,
        hdata.continued⟩, ⟨hthis.handed.accepted, hthis.handed.finished⟩, ⟨?_, nofun⟩, nofun,
        fun _ => hphase⟩
      obtain ⟨p, n, ht, hplace⟩ := hthis.watched.place
      exact ⟨p, n, ht.of_reactor rfl, hplace⟩
    · have hd' : s.call b' = some d := (Function.update_of_ne hbb ..).symm.trans hd
      have hold := hs.calls b' d hd'
      refine ⟨hold.nonneg, hold.data, hold.handed, hold.watched.of_reactor rfl, ?_, hold.gone⟩
      intro hdopen
      have hne := hs.fd_ne hb hd' hbb hopen hdopen
      exact (Function.update_of_ne hne.symm ..).trans (hold.live hdopen)
  · intro b' hb'
    have hbb : b' ≠ b := by
      rintro rfl
      have hsome : Function.update s.call b' (some { c with closed := true }) b' = none := hb'
      rw [Function.update_self] at hsome
      cases hsome
    exact hs.uncalled b' ((Function.update_of_ne hbb ..).symm.trans hb')
  · intro fd b' hfd
    have hne : fd ≠ c.fd := by
      rintro rfl
      have hnone : Function.update s.eventfd c.fd none c.fd = some b' := hfd
      rw [Function.update_self] at hnone
      cases hnone
    obtain ⟨ho, d, hd, hdfd, hdopen⟩ :=
      hs.eventfds fd b' ((Function.update_of_ne hne ..).symm.trans hfd)
    refine ⟨(Function.update_of_ne hne ..).trans ho, d, ?_, hdfd, hdopen⟩
    have hbb : b' ≠ b := by
      rintro rfl
      rw [hb] at hd
      cases hd
      exact hne hdfd.symm
    exact (Function.update_of_ne hbb ..).trans hd
  · intro i hi d
    by_cases heq : (i : ℤ) = c.fd
    · obtain ⟨p, n, ht, hplace⟩ := hthis.watched.place
      obtain rfl := hplace.eq_none hphase
      have hidle := idle_of_untracked ht (hthis.watched.own hopen) d
      rw [show c.fd.toNat = i by omega] at hidle
      exact hidle
    · exact hs.clean i ((Function.update_of_ne heq ..).symm.trans hi) d

end Rules

theorem inv_start (k : Kernel) (m : Heap) (size capacity : ℕ) :
    Inv capacity (start k m size capacity : Bridge V) where
  pool := ThreadPool.inv_create size capacity
  calls := fun _ _ h => by cases h
  uncalled := fun b _ => ⟨rfl, by rintro ⟨x, hx, -⟩; cases hx⟩
  eventfds := fun _ _ h => by cases h
  clean := fun i _ d => by
    rw [show (start k m size capacity : Bridge V).io.reactor.slotAt i = FdEntry.idle from rfl,
      FdEntry.get_idle]

theorem foreign_spec {s : Bridge V} {fd : ℤ} {p : PendingEntry} (h : s.foreign fd p = true) :
    s.eventfd fd = none ∧
      ∀ q, some p = some q → ∀ h, q.handle = some h → s.call h = none := by
  simp only [Bridge.foreign, Bool.and_eq_true, Option.isNone_iff_eq_none] at h
  refine ⟨h.1, fun q hq k hk => ?_⟩
  cases hq
  have hall := h.2
  rw [hk, Option.all_some, Option.isNone_iff_eq_none] at hall
  exact hall

theorem Inv.step {capacity : ℕ} {s t : Bridge V} {op : BridgeOp V} (h : s.step op = some t)
    (hs : Inv capacity s) : Inv capacity t := by
  cases op with
  | create b fd fn =>
    simp only [Bridge.step] at h
    split_ifs at h with hguard
    cases h
    obtain ⟨hfd, hclosed, hfree, hb, hunref⟩ := hguard
    rw [Option.isNone_iff_eq_none] at hfree hb
    exact hs.create hfd hclosed hfree hb hunref
  | register b =>
    obtain ⟨c, hb, hstep⟩ := Option.bind_eq_some_iff.mp h
    split at hstep
    · next hphase =>
      cases hstep
      exact hs.register hb hphase
    · cases hstep
  | spawn b =>
    obtain ⟨c, hb, hstep⟩ := Option.bind_eq_some_iff.mp h
    split at hstep
    · next hphase => exact hs.spawn hb hphase hstep
    · cases hstep
  | store w =>
    obtain ⟨b, hworking, hstep⟩ := Option.bind_eq_some_iff.mp h
    obtain ⟨c, hb, hstep⟩ := Option.bind_eq_some_iff.mp hstep
    split at hstep
    · next hidle =>
      cases hstep
      exact hs.store hworking hb hidle
    · cases hstep
  | notify w =>
    obtain ⟨b, hworking, hstep⟩ := Option.bind_eq_some_iff.mp h
    obtain ⟨c, hb, hstep⟩ := Option.bind_eq_some_iff.mp hstep
    split at hstep
    · next hstored =>
      cases hstep
      exact hs.notify hb hstored
    · cases hstep
  | resume b =>
    obtain ⟨c, hb, hstep⟩ := Option.bind_eq_some_iff.mp h
    split at hstep
    · next hphase =>
      split_ifs at hstep with hdrained
      cases hstep
      exact hs.resumeSuspended hb hphase hdrained
    · next e hphase =>
      cases hstep
      exact hs.resumeRejected hb hphase
    · cases hstep
  | close b =>
    obtain ⟨c, hb, hstep⟩ := Option.bind_eq_some_iff.mp h
    split_ifs at hstep with hguard
    cases hstep
    exact hs.close hb hguard.1 hguard.2.1
  | poll report =>
    simp only [Bridge.step] at h
    split_ifs at h with hrep
    cases h
    exact hs.poll hrep
  | drain =>
    cases h
    exact hs.drain
  | pool op =>
    simp only [Bridge.step] at h
    split_ifs at h with hallows
    obtain ⟨pool, hstep, rfl⟩ := Option.map_eq_some_iff.mp h
    exact hs.poolStep hallows hstep
  | registerRead fd p =>
    simp only [Bridge.step] at h
    split_ifs at h with hguard
    cases h
    exact hs.foreign (register_frame ..) (foreign_spec hguard).1 (foreign_spec hguard).2
  | registerWrite fd p =>
    simp only [Bridge.step] at h
    split_ifs at h with hguard
    cases h
    exact hs.foreign (register_frame ..) (foreign_spec hguard).1 (foreign_spec hguard).2
  | deregister fd =>
    simp only [Bridge.step] at h
    split_ifs at h with hguard
    cases h
    exact hs.foreign (deregister_frame ..) (Option.isNone_iff_eq_none.mp hguard) nofun
  | deregisterDir fd dir =>
    simp only [Bridge.step] at h
    split_ifs at h with hguard
    cases h
    exact hs.foreign (deregisterDir_frame ..) (Option.isNone_iff_eq_none.mp hguard) nofun
  | remove fd =>
    simp only [Bridge.step] at h
    split_ifs at h with hguard
    cases h
    exact hs.foreign (remove_frame ..) (Option.isNone_iff_eq_none.mp hguard) nofun
  | openFd fd =>
    simp only [Bridge.step] at h
    split_ifs at h
    cases h
    exact hs.openFd fd
  | closeFd fd =>
    simp only [Bridge.step] at h
    split_ifs at h with hguard
    cases h
    exact hs.closeFd (Option.isNone_iff_eq_none.mp hguard.1) hguard.2

theorem step_pool {s t : Bridge V} {op : BridgeOp V} (h : s.step op = some t) :
    t.pool = s.pool ∨ ∃ op, s.pool.step op = some t.pool := by
  cases op with
  | spawn b =>
    obtain ⟨c, hb, hstep⟩ := Option.bind_eq_some_iff.mp h
    split at hstep
    · obtain ⟨pool, hpool, rfl⟩ := Option.map_eq_some_iff.mp hstep
      cases s.pool.spawnResult (.blocking b) <;> exact Or.inr ⟨_, hpool⟩
    · cases hstep
  | pool op =>
    simp only [Bridge.step] at h
    split_ifs at h
    obtain ⟨pool, hpool, rfl⟩ := Option.map_eq_some_iff.mp h
    exact Or.inr ⟨op, hpool⟩
  | register b =>
    obtain ⟨c, hb, hstep⟩ := Option.bind_eq_some_iff.mp h
    split at hstep
    · cases hstep
      simp only [Bridge.register]
      cases (s.io.registerRead c.fd (entry b)).1 <;> exact Or.inl rfl
    · cases hstep
  | store w =>
    obtain ⟨b, -, hstep⟩ := Option.bind_eq_some_iff.mp h
    obtain ⟨c, -, hstep⟩ := Option.bind_eq_some_iff.mp hstep
    split at hstep <;> cases hstep
    exact Or.inl rfl
  | notify w =>
    obtain ⟨b, -, hstep⟩ := Option.bind_eq_some_iff.mp h
    obtain ⟨c, -, hstep⟩ := Option.bind_eq_some_iff.mp hstep
    split at hstep <;> cases hstep
    exact Or.inl rfl
  | resume b =>
    obtain ⟨c, -, hstep⟩ := Option.bind_eq_some_iff.mp h
    split at hstep
    · split_ifs at hstep
      cases hstep
      exact Or.inl rfl
    · cases hstep
      exact Or.inl rfl
    · cases hstep
  | close b =>
    obtain ⟨c, -, hstep⟩ := Option.bind_eq_some_iff.mp h
    split_ifs at hstep
    cases hstep
    exact Or.inl rfl
  | drain =>
    cases h
    exact Or.inl rfl
  | create _ _ _ | poll _ | registerRead _ _ | registerWrite _ _ | deregister _
  | deregisterDir _ _ | remove _ | openFd _ | closeFd _ =>
    simp only [Bridge.step] at h
    split_ifs at h
    cases h
    exact Or.inl rfl

theorem pool_inRange {k : Kernel} {m : Heap} {size capacity : ℕ} {s : Bridge V}
    {ops : List (BridgeOp V)} (hr : Transition.run step (start k m size capacity) ops = some s) :
    s.pool.size = size ∧ ∀ p ∈ s.pool.started, p.1 < size := by
  refine Transition.invariant
    (fun s : Bridge V => s.pool.size = size ∧ ∀ p ∈ s.pool.started, p.1 < size) ?_
    ⟨rfl, fun p hp => by cases hp⟩ hr
  intro t op u hstep ht
  rcases step_pool hstep with hsame | ⟨op, hpool⟩
  · rw [hsame]
    exact ht
  · exact ThreadPool.step_inRange hpool ht

section Results
variable {capacity : ℕ} {s : Bridge V} {b : ℕ} {c : BlockingCall V}

theorem eq_idle {e : FdEntry} (h : ∀ d, e.get d = none) : e = FdEntry.idle := by
  obtain ⟨r, w⟩ := e
  have hr : r = none := h .read
  have hw : w = none := h .write
  rw [hr, hw]
  rfl

theorem CallInv.ran_once (h : CallInv s b c) : s.ran.count b ≤ 1 := by
  rw [h.data.ran]
  split_ifs
  · exact Nat.zero_le 1
  · exact Nat.le_refl 1

theorem Inv.ran_of_drained (hs : Inv capacity s) (hb : s.call b = some c)
    (haccepted : c.phase.isAccepted = true) (hdrained : s.pool.Drained) : s.ran.count b = 1 := by
  have hcall := hs.calls b c hb
  obtain ⟨x, hx, hvalue⟩ := hcall.handed.accepted.mpr haccepted
  obtain ⟨w, hfinished⟩ := hs.pool.finished_of_drained hdrained hx
  rw [hcall.data.ran, hcall.handed.finished w x hfinished hvalue]
  rfl

theorem CallInv.queued (h : CallInv s b c) (haccepted : c.phase.isAccepted = true) :
    (s.drained ++ s.io.reactor.ready).count b ≤ 1 ∧
      (b ∈ s.drained ++ s.io.reactor.ready → c.work = .notified) ∧
      (c.phase = .suspended → b ∉ s.drained ++ s.io.reactor.ready →
        (s.io.reactor.slotAt c.fd.toNat).get .read = some (entry b)) := by
  obtain ⟨p, n, ht, hplace⟩ := h.watched.place
  have hcount : (s.drained ++ s.io.reactor.ready).count b = s.drained.count b + n := by
    rw [List.count_append, ht.count]
  rw [← List.count_pos_iff, hcount]
  cases hphase : c.phase with
  | suspended =>
    rw [place_suspended hphase] at hplace
    rcases hplace with ⟨hp, hm⟩ | ⟨-, hm, hnotified⟩
    · rw [hm]
      exact ⟨Nat.zero_le 1, fun hpos => absurd hpos (Nat.lt_irrefl 0), fun _ _ => ht.here _ hp⟩
    · rw [hm]
      exact ⟨Nat.le_refl 1, fun _ => hnotified, fun _ hnot => absurd Nat.zero_lt_one hnot⟩
  | resumed r =>
    rw [Place, hphase] at hplace
    rw [hplace.2.1]
    exact ⟨Nat.le_refl 1, fun _ => hplace.2.2, fun h => (by cases h)⟩
  | created => rw [hphase] at haccepted; cases haccepted
  | registered => rw [hphase] at haccepted; cases haccepted
  | rejected e => rw [hphase] at haccepted; cases haccepted
  | continued e r => rw [hphase] at haccepted; cases haccepted

theorem CallInv.result_of_notified (h : CallInv s b c) (haccepted : c.phase.isAccepted = true)
    (hnotified : c.work = .notified) : c.result = c.outcome := by
  have hresult := h.data.result
  rw [rejection_of_accepted haccepted, hnotified] at hresult
  exact hresult

theorem outcome_ne_notCompleted (c : BlockingCall V) : c.outcome ≠ .error notCompleted := by
  unfold outcome
  cases c.fn with
  | some v => nofun
  | none =>
    intro heq
    have hne : threw ≠ notCompleted := by decide
    exact hne (Except.error.inj heq)

theorem CallInv.unqueued (h : CallInv s b c) (hunaccepted : c.phase.isAccepted = false) :
    b ∉ s.drained ++ s.io.reactor.ready ∧
      (∀ e, c.phase.rejection = some e → c.closed = false →
        s.io.reactor.slotAt c.fd.toNat = FdEntry.idle) := by
  obtain ⟨p, n, ht, hplace⟩ := h.watched.place
  have hcount : (s.drained ++ s.io.reactor.ready).count b = s.drained.count b + n := by
    rw [List.count_append, ht.count]
  have hidle : p = none → c.closed = false → s.io.reactor.slotAt c.fd.toNat = FdEntry.idle := by
    rintro rfl hopen
    exact eq_idle (idle_of_untracked ht (h.watched.own hopen))
  rw [← List.count_pos_iff, hcount]
  cases hphase : c.phase with
  | created =>
    rw [Place, hphase] at hplace
    exact ⟨by omega, fun _ h => (by cases h)⟩
  | registered =>
    rw [Place, hphase] at hplace
    exact ⟨by omega, fun _ h => (by cases h)⟩
  | rejected e =>
    rw [Place, hphase] at hplace
    exact ⟨by omega, fun _ _ => hidle hplace.1⟩
  | continued e r =>
    rw [Place, hphase] at hplace
    exact ⟨by omega, fun _ _ => hidle hplace.1⟩
  | suspended => rw [hphase] at hunaccepted; cases hunaccepted
  | resumed r => rw [hphase] at hunaccepted; cases hunaccepted

end Results

/-- An accepted call runs its function once, and its coroutine is enqueued once, after the
result is there; a refused call leaves nothing behind and returns the refusal. -/
theorem spawn_blocking_delivers_once {size capacity : ℕ} (hsize : 0 < size) {k : Kernel} {m : Heap}
    {s : Bridge V} {ops : List (BridgeOp V)}
    (hr : Transition.run step (start k m size capacity) ops = some s) {b : ℕ} {c : BlockingCall V}
    (hb : s.call b = some c) :
    (HasWork s.pool b ∧ (c.phase = .suspended ∨ ∃ r, c.phase = .resumed r) ∧
        s.ran.count b ≤ 1 ∧ (s.pool.Drained → s.ran.count b = 1) ∧
        (s.pool.closer = .returned → s.pool.Drained) ∧
        (s.drained ++ s.io.reactor.ready).count b ≤ 1 ∧
        (b ∈ s.drained ++ s.io.reactor.ready → b ∈ s.ran ∧ c.result = c.outcome) ∧
        (c.phase = .suspended → b ∉ s.drained ++ s.io.reactor.ready →
          (s.io.reactor.slotAt c.fd.toNat).get .read = some (entry b)) ∧
        (∀ r, c.phase = .resumed r → r = c.outcome ∧ r ≠ .error notCompleted)) ∨
      (¬HasWork s.pool b ∧ s.ran.count b = 0 ∧ b ∉ s.drained ++ s.io.reactor.ready ∧
        (c.phase = .created ∨ c.phase = .registered ∨
          ∃ e, (c.phase = .rejected e ∨ c.phase = .continued e (.error e)) ∧ c.result = .error e ∧
            (c.closed = false → s.io.reactor.slotAt c.fd.toNat = FdEntry.idle))) := by
  have hs : Inv capacity s :=
    Transition.invariant (Inv capacity) (fun h hs => hs.step h) (inv_start k m size capacity) hr
  have hcall := hs.calls b c hb
  cases haccepted : c.phase.isAccepted with
  | true =>
    obtain ⟨honce, hnotified, hwaiting⟩ := hcall.queued haccepted
    refine Or.inl ⟨hcall.handed.accepted.mpr haccepted, ?_, hcall.ran_once,
      hs.ran_of_drained hb haccepted, ?_, honce, ?_, hwaiting, ?_⟩
    · cases hphase : c.phase with
      | suspended => exact Or.inl rfl
      | resumed r => exact Or.inr ⟨r, rfl⟩
      | created => rw [hphase] at haccepted; cases haccepted
      | registered => rw [hphase] at haccepted; cases haccepted
      | rejected e => rw [hphase] at haccepted; cases haccepted
      | continued e r => rw [hphase] at haccepted; cases haccepted
    · intro hreturned
      obtain ⟨hsz, hrange⟩ := pool_inRange hr
      subst hsz
      exact hs.pool.drained_of_returned hsize hrange hreturned
    · intro hqueued
      have hwork := hnotified hqueued
      refine ⟨?_, hcall.result_of_notified haccepted hwork⟩
      rw [← List.count_pos_iff, hcall.data.ran, hwork]
      exact Nat.zero_lt_one
    · intro r hr
      have houtcome := hcall.data.resumed r hr
      exact ⟨houtcome, houtcome ▸ outcome_ne_notCompleted c⟩
  | false =>
    have hidle := hcall.data.idle_of_unaccepted haccepted
    obtain ⟨hunqueued, hslot⟩ := hcall.unqueued haccepted
    refine Or.inr ⟨?_, ?_, hunqueued, ?_⟩
    · rw [hcall.handed.accepted, haccepted]
      nofun
    · rw [hcall.data.ran, hidle]
      rfl
    · have hresult := hcall.data.result
      cases hphase : c.phase with
      | created => exact Or.inl rfl
      | registered => exact Or.inr (Or.inl rfl)
      | rejected e =>
        rw [hphase] at hresult hslot
        exact Or.inr (Or.inr ⟨e, Or.inl rfl, hresult, hslot e rfl⟩)
      | continued e r =>
        have hr := hcall.data.continued e r hphase
        rw [hphase] at hresult hslot
        exact Or.inr (Or.inr ⟨e, Or.inr (by rw [hr]), hresult, hslot e rfl⟩)
      | suspended => rw [hphase] at haccepted; cases haccepted
      | resumed r => rw [hphase] at haccepted; cases haccepted

/-- Call 0 returns 42 through the pool; call 1 comes after the pool was closed. -/
theorem spawn_blocking_delivers_once_on_two_calls :
    ∃ s : Bridge ℕ, Transition.run step
        (start ⟨fun _ => false, fun _ => none, fun _ => none⟩
          ⟨fun _ => .pending, fun _ => .ok 0, fun _ => false⟩ 1 4)
        [.create 0 0 (some 42), .register 0, .spawn 0, .pool (.take 0), .create 1 1 none,
          .register 1, .store 0, .notify 0, .pool .shutdown, .pool .close, .spawn 1, .resume 1,
          .poll (.reported [(0, epollIn)]), .drain, .resume 0] = some s ∧
      (∃ c, s.call 0 = some c ∧ c.phase = .resumed (.ok 42) ∧ s.ran.count 0 = 1) ∧
      (∃ c, s.call 1 = some c ∧ c.phase = .continued Channel.closedError
          (.error Channel.closedError) ∧ s.ran.count 1 = 0 ∧ ¬HasWork s.pool 1) := by
  obtain ⟨s, hrun, ⟨c₀, h₀, hp₀, hran⟩, ⟨c₁, h₁, hp₁⟩⟩ : ∃ s : Bridge ℕ, Transition.run step
        (start ⟨fun _ => false, fun _ => none, fun _ => none⟩
          ⟨fun _ => .pending, fun _ => .ok 0, fun _ => false⟩ 1 4)
        [.create 0 0 (some 42), .register 0, .spawn 0, .pool (.take 0), .create 1 1 none,
          .register 1, .store 0, .notify 0, .pool .shutdown, .pool .close, .spawn 1, .resume 1,
          .poll (.reported [(0, epollIn)]), .drain, .resume 0] = some s ∧
      (∃ c, s.call 0 = some c ∧ c.phase = .resumed (.ok 42) ∧ s.ran.count 0 = 1) ∧
      (∃ c, s.call 1 = some c ∧ c.phase = .continued Channel.closedError
          (.error Channel.closedError)) :=
    ⟨_, rfl, ⟨_, rfl, rfl, rfl⟩, ⟨_, rfl, rfl⟩⟩
  refine ⟨s, hrun, ⟨c₀, h₀, hp₀, hran⟩, ⟨c₁, h₁, hp₁, ?_⟩⟩
  rcases spawn_blocking_delivers_once Nat.zero_lt_one hrun h₁ with
    ⟨-, hphase | ⟨r, hphase⟩, -⟩ | ⟨hwork, hzero, -⟩
  · rw [hp₁] at hphase
    cases hphase
  · rw [hp₁] at hphase
    cases hphase
  · exact ⟨hzero, hwork⟩

end Bridge
end RainRuntime
