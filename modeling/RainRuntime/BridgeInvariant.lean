import RainRuntime.Bridge

/-!
# The state of a blocking call

For each call there are three views that hardly depend on each other: what the
`BlockingState` holds (`Data`), what the pool has of the work (`Handed`), and where the
coroutine's handle is (`Watched`). A handle is in the read place of its eventfd's slot, or
in a queue, and gets from the one to the other by a poll that has seen the worker's
notification.
-/

namespace RainRuntime
namespace Bridge
variable {V : Type*}
open IoState BlockingCall

structure Data (ran : List ℕ) (b : ℕ) (c : BlockingCall V) : Prop where
  work : c.work ≠ .idle → c.phase.isAccepted = true
  result : c.result = match c.phase.rejection with
    | some e => .error e
    | none => if c.work = .idle then .error notCompleted else c.outcome
  counter : 0 < c.counter → c.work = .notified
  ran : ran.count b = if c.work = .idle then 0 else 1
  resumed : ∀ r, c.phase = .resumed r → r = c.outcome
  continued : ∀ e r, c.phase = .continued e r → r = .error e

def HasWork (pool : ThreadPool BlockingJob) (b : ℕ) : Prop :=
  ∃ x ∈ ChannelRun.accepted pool.tasks.log, x.value = .spawned (.blocking b)

structure Handed (pool : ThreadPool BlockingJob) (b : ℕ) (c : BlockingCall V) : Prop where
  accepted : HasWork pool b ↔ c.phase.isAccepted = true
  finished : ∀ w x, (w, x) ∈ pool.finished → x.value = .spawned (.blocking b) →
    c.work = .notified

def Place (b : ℕ) (c : BlockingCall V) (p : Option PendingEntry) (m : ℕ) : Prop :=
  match c.phase with
  | .created | .rejected _ | .continued _ _ => p = none ∧ m = 0
  | .registered => p = some (entry b) ∧ m = 0
  | .suspended => (p = some (entry b) ∧ m = 0) ∨ (p = none ∧ m = 1 ∧ c.work = .notified)
  | .resumed _ => p = none ∧ m = 1 ∧ c.work = .notified

structure Watched (io : IoState) (drained : List Handle) (b : ℕ) (c : BlockingCall V) : Prop where
  place : ∃ p n, Tracked b c.fd.toNat p n io ∧ Place b c p (drained.count b + n)
  own : c.closed = false → ∀ d q, (io.reactor.slotAt c.fd.toNat).get d = some q →
    q.handle = some b

structure CallInv (s : Bridge V) (b : ℕ) (c : BlockingCall V) : Prop where
  nonneg : 0 ≤ c.fd
  data : Data s.ran b c
  handed : Handed s.pool b c
  watched : Watched s.io s.drained b c
  live : c.closed = false → s.eventfd c.fd = some b
  gone : c.closed = true → c.phase.hasReturned = true

structure Inv (capacity : ℕ) (s : Bridge V) : Prop where
  pool : ThreadPool.Inv capacity s.pool
  calls : ∀ b c, s.call b = some c → CallInv s b c
  uncalled : ∀ b, s.call b = none → s.ran.count b = 0 ∧ ¬HasWork s.pool b
  eventfds : ∀ fd b, s.eventfd fd = some b → s.io.kernel.isOpen fd = true ∧
    ∃ c, s.call b = some c ∧ c.fd = fd ∧ c.closed = false
  clean : ∀ i : ℕ, s.io.kernel.isOpen i = false → ∀ d, (s.io.reactor.slotAt i).get d = none

section Views
variable {io io' : IoState} {drained : List Handle} {b : ℕ} {c : BlockingCall V}
  {p : Option PendingEntry} {m : ℕ}

theorem place_suspended (h : c.phase = .suspended) : Place b c p m ↔
    (p = some (entry b) ∧ m = 0) ∨ (p = none ∧ m = 1 ∧ c.work = .notified) := by
  rw [Place, h]

theorem Place.entry_of_some (h : Place b c p m) {q : PendingEntry} (hq : p = some q) :
    q = entry b ∧ c.phase.hasReturned = false := by
  unfold Place at h
  split at h
  · rw [h.1] at hq; cases hq
  · rw [h.1] at hq; cases hq
  · rw [h.1] at hq; cases hq
  · next hphase =>
    rw [h.1] at hq
    cases hq
    exact ⟨rfl, by rw [hphase]; rfl⟩
  · next hphase =>
    rcases h with ⟨hp, -⟩ | ⟨hp, -, -⟩
    · rw [hp] at hq
      cases hq
      exact ⟨rfl, by rw [hphase]; rfl⟩
    · rw [hp] at hq
      cases hq
  · rw [h.1] at hq; cases hq

theorem Watched.of_reactor (h : Watched io drained b c) (hr : io'.reactor = io.reactor) :
    Watched io' drained b c := by
  obtain ⟨p, n, ht, hplace⟩ := h.place
  refine ⟨⟨p, n, ht.of_reactor hr, hplace⟩, ?_⟩
  rw [hr]
  exact h.own

theorem Watched.frame {fd : ℤ} {new : Option PendingEntry} (h : Watched io drained b c)
    (hf : Frame fd new io io') (hnonneg : 0 ≤ c.fd)
    (hgone : c.closed = true → c.phase.hasReturned = true)
    (hnew : ∀ q, new = some q → q.handle ≠ some b) (hfd : c.closed = false → fd ≠ c.fd) :
    Watched io' drained b c := by
  have hslot : c.closed = false →
      io'.reactor.slotAt c.fd.toNat = io.reactor.slotAt c.fd.toNat := by
    intro hclosed
    refine hf.slots _ ?_
    have hne := hfd hclosed
    omega
  obtain ⟨p, n, ht, hplace⟩ := h.place
  constructor
  · refine ⟨p, n, ⟨?_, ?_, ?_⟩, hplace⟩
    · intro q hq
      -- a returned call has no entry left
      have hopen : c.closed = false := by
        cases hc : c.closed with
        | false => rfl
        | true =>
          have hreturned := hgone hc
          rw [(hplace.entry_of_some hq).2] at hreturned
          cases hreturned
      rw [hslot hopen]
      exact ht.here q hq
    · intro j d q hq hh
      rcases hf.entries j d q hq with hold | ⟨hnq, -⟩
      · exact ht.only j d q hold hh
      · exact absurd hh (hnew q hnq)
    · rw [hf.ready]
      exact ht.count
  · intro hclosed
    rw [hslot hclosed]
    exact h.own hclosed

theorem Handed.congr {pool pool' : ThreadPool BlockingJob} (h : Handed pool b c)
    (hwork : HasWork pool' b ↔ HasWork pool b)
    (hfin : ∀ q ∈ pool'.finished, q ∈ pool.finished) : Handed pool' b c where
  accepted := hwork.trans h.accepted
  finished := fun w x hmem hx => h.finished w x (hfin _ hmem) hx

theorem idle_of_untracked {n : ℕ} (ht : Tracked b c.fd.toNat none n io)
    (hown : ∀ d q, (io.reactor.slotAt c.fd.toNat).get d = some q → q.handle = some b)
    (d : Direction) : (io.reactor.slotAt c.fd.toNat).get d = none := by
  cases hq : (io.reactor.slotAt c.fd.toNat).get d with
  | none => rfl
  | some q =>
    obtain ⟨hnone, -, -⟩ := ht.only _ d q hq (hown d q hq)
    cases hnone

end Views

section Rules
variable {capacity : ℕ} {s : Bridge V}

theorem Inv.fd_ne (hs : Inv capacity s) {b b' : ℕ} {c c' : BlockingCall V}
    (hb : s.call b = some c) (hb' : s.call b' = some c') (hne : b' ≠ b) (hc : c.closed = false)
    (hc' : c'.closed = false) : c.fd ≠ c'.fd := by
  intro heq
  have hlive := (hs.calls b c hb).live hc
  have hlive' := (hs.calls b' c' hb').live hc'
  rw [heq, hlive'] at hlive
  exact hne (Option.some.inj hlive)

theorem Inv.clean_frame (hs : Inv capacity s) {fd : ℤ} {new : Option PendingEntry} {io : IoState}
    (hf : Frame fd new s.io io) :
    ∀ i : ℕ, io.kernel.isOpen i = false → ∀ d, (io.reactor.slotAt i).get d = none := by
  intro i hi d
  rw [hf.isOpen] at hi
  cases hq : (io.reactor.slotAt i).get d with
  | none => rfl
  | some q =>
    by_cases hfd : (i : ℤ) = fd
    · rcases hf.entries i d q hq with hold | ⟨-, hopen⟩
      · rw [hs.clean i hi d] at hold
        cases hold
      · rw [← hfd, hi] at hopen
        cases hopen
    · rw [hf.slots i hfd, hs.clean i hi d] at hq
      cases hq

theorem Inv.update (hs : Inv capacity s) {t : Bridge V} {b : ℕ} {c : BlockingCall V}
    (c' : BlockingCall V) (new : Option PendingEntry) (hb : s.call b = some c)
    (hopen : c.closed = false)
    (hcall : t.call = Function.update s.call b (some c')) (heventfd : t.eventfd = s.eventfd)
    (hfd : c'.fd = c.fd) (hclosed : c'.closed = false) (hpool : ThreadPool.Inv capacity t.pool)
    (hwork : ∀ b' ≠ b, (HasWork t.pool b' ↔ HasWork s.pool b'))
    (hfin : ∀ q ∈ t.pool.finished, q ∈ s.pool.finished)
    (hran : ∀ b' ≠ b, t.ran.count b' = s.ran.count b') (hdrained : t.drained = s.drained)
    (hf : Frame c.fd new s.io t.io) (hnew : ∀ q, new = some q → q.handle = some b)
    (hthis : CallInv t b c') : Inv capacity t := by
  refine ⟨hpool, ?_, ?_, ?_, hs.clean_frame hf⟩
  · intro b' d hd
    rw [hcall] at hd
    by_cases hbb : b' = b
    · subst hbb
      rw [Function.update_self] at hd
      cases hd
      exact hthis
    · rw [Function.update_of_ne hbb] at hd
      have hold := hs.calls b' d hd
      refine ⟨hold.nonneg, ?_, hold.handed.congr (hwork b' hbb) hfin, ?_, ?_, hold.gone⟩
      · obtain ⟨h₁, h₂, h₃, h₄, h₅, h₆⟩ := hold.data
        exact ⟨h₁, h₂, h₃, (hran b' hbb).trans h₄, h₅, h₆⟩
      · rw [hdrained]
        refine hold.watched.frame hf hold.nonneg hold.gone ?_ ?_
        · intro q hq hh
          rw [hnew q hq] at hh
          exact hbb (Option.some.inj hh).symm
        · intro hd'
          exact hs.fd_ne hb hd hbb hopen hd'
      · rw [heventfd]
        exact hold.live
  · intro b' hb'
    have hbb : b' ≠ b := by
      rintro rfl
      rw [hcall, Function.update_self] at hb'
      cases hb'
    rw [hcall, Function.update_of_ne hbb] at hb'
    rw [hran b' hbb, hwork b' hbb]
    exact hs.uncalled b' hb'
  · intro fd b' hfd'
    rw [heventfd] at hfd'
    obtain ⟨ho, d, hd, hdfd, hdc⟩ := hs.eventfds fd b' hfd'
    refine ⟨by rw [hf.isOpen]; exact ho, ?_⟩
    rw [hcall]
    by_cases hbb : b' = b
    · subst hbb
      rw [hb] at hd
      cases hd
      exact ⟨c', Function.update_self .., hfd.trans hdfd, hclosed⟩
    · exact ⟨d, by rw [Function.update_of_ne hbb]; exact hd, hdfd, hdc⟩

theorem Inv.foreign (hs : Inv capacity s) {fd : ℤ} {new : Option PendingEntry} {io : IoState}
    (hf : Frame fd new s.io io) (hfd : s.eventfd fd = none)
    (hnew : ∀ q, new = some q → ∀ h, q.handle = some h → s.call h = none) :
    Inv capacity { s with io := io } := by
  refine ⟨hs.pool, ?_, hs.uncalled, ?_, hs.clean_frame hf⟩
  · intro b c hc
    have hold := hs.calls b c hc
    refine ⟨hold.nonneg, hold.data, hold.handed, ?_, hold.live, hold.gone⟩
    refine hold.watched.frame hf hold.nonneg hold.gone ?_ ?_
    · intro q hq hh
      have hnone := hnew q hq b hh
      rw [show s.call b = some c from hc] at hnone
      cases hnone
    · rintro hopen rfl
      rw [hold.live hopen] at hfd
      cases hfd
  · intro fd' b hfd'
    obtain ⟨ho, hrest⟩ := hs.eventfds fd' b hfd'
    exact ⟨by rw [hf.isOpen]; exact ho, hrest⟩

/-! ## The reactor's own steps -/

theorem Place.fire {b : ℕ} {c : BlockingCall V} {q : PendingEntry} {m : ℕ}
    (h : Place b c (some q) m) (hnotified : c.work = .notified)
    (haccepted : c.phase.isAccepted = true) : Place b c none (m + 1) := by
  cases hphase : c.phase with
  | suspended =>
    rw [place_suspended hphase] at h ⊢
    rcases h with ⟨-, rfl⟩ | ⟨hnone, -, -⟩
    · exact Or.inr ⟨rfl, rfl, hnotified⟩
    · cases hnone
  | resumed r =>
    rw [Place, hphase] at h
    cases h.1
  | created => rw [hphase] at haccepted; cases haccepted
  | registered => rw [hphase] at haccepted; cases haccepted
  | rejected e => rw [hphase] at haccepted; cases haccepted
  | continued e r => rw [hphase] at haccepted; cases haccepted

theorem notified_of_report {ran : List ℕ} {b : ℕ} {c : BlockingCall V} {ev : ℤ × BitVec 32}
    {events : List (ℤ × BitVec 32)} (hrep : s.reportAllows (.reported events) = true)
    (hev : ev ∈ events) (hfd : s.eventfd ev.1 = some b) (hb : s.call b = some c)
    (hdata : Data ran b c) : c.work = .notified := by
  have hall := List.all_eq_true.mp hrep ev hev
  rw [hfd, Option.all_some, hb, Option.any_some, decide_eq_true_eq] at hall
  exact hdata.counter hall

theorem Inv.poll (hs : Inv capacity s) {report : PollReport}
    (hrep : s.reportAllows report = true) :
    Inv capacity { s with io := (s.io.poll report).2 } := by
  obtain ⟨hopen, hentries⟩ := poll_frame s.io report
  refine ⟨hs.pool, ?_, hs.uncalled, ?_, ?_⟩
  · intro b c hc
    have hold := hs.calls b c hc
    refine ⟨hold.nonneg, hold.data, hold.handed, ⟨?_, ?_⟩, hold.live, hold.gone⟩
    · obtain ⟨p, n, ht, hplace⟩ := hold.watched.place
      have hp : ∀ q, p = some q → q.handle = some b ∧ q.state = none := by
        intro q hq
        rw [(hplace.entry_of_some hq).1]
        exact ⟨rfl, rfl⟩
      rcases ht.poll hp report with hsame | ⟨hsome, ⟨events, rfl, ev, hev, hevfd⟩, hmoved⟩
      · exact ⟨p, n, hsame, hplace⟩
      · obtain ⟨q, rfl⟩ := Option.isSome_iff_exists.mp hsome
        have hlive : s.eventfd c.fd = some b := by
          refine hold.live ?_
          cases hclosed : c.closed with
          | false => rfl
          | true =>
            have hreturned := hold.gone hclosed
            rw [(hplace.entry_of_some rfl).2] at hreturned
            cases hreturned
        have hfd : s.eventfd ev.1 = some b := by
          rw [hevfd, Int.toNat_of_nonneg hold.nonneg]
          exact hlive
        have hnotified := notified_of_report hrep hev hfd hc hold.data
        have haccepted := hold.data.work (by rw [hnotified]; nofun)
        exact ⟨none, n + 1, hmoved, hplace.fire hnotified haccepted⟩
    · intro hclosed d q hq
      exact hold.watched.own hclosed d q (hentries _ d q hq)
  · intro fd b hfd
    obtain ⟨ho, hrest⟩ := hs.eventfds fd b hfd
    exact ⟨by rw [hopen]; exact ho, hrest⟩
  · intro i hi d
    rw [hopen] at hi
    cases hq : ((s.io.poll report).2.reactor.slotAt i).get d with
    | none => rfl
    | some q =>
      have hold := hentries i d q hq
      rw [hs.clean i hi d] at hold
      cases hold

theorem Inv.drain (hs : Inv capacity s) :
    Inv capacity { s with
      io := { s.io with reactor := s.io.reactor.drainReady.2 }
      drained := s.drained ++ s.io.reactor.drainReady.1 } := by
  refine ⟨hs.pool, ?_, hs.uncalled, hs.eventfds, hs.clean⟩
  intro b c hc
  have hold := hs.calls b c hc
  refine ⟨hold.nonneg, hold.data, hold.handed, ⟨?_, hold.watched.own⟩, hold.live, hold.gone⟩
  obtain ⟨p, n, ht, hplace⟩ := hold.watched.place
  refine ⟨p, 0, ⟨ht.here, ht.only, rfl⟩, ?_⟩
  rw [EpollReactor.drainReady, List.count_append, ht.count, Nat.add_zero]
  exact hplace

theorem Inv.setKernel (hs : Inv capacity s) {k : Kernel}
    (hopen : ∀ fd b, s.eventfd fd = some b → s.io.kernel.isOpen fd = true → k.isOpen fd = true)
    (hclean : ∀ i : ℕ, k.isOpen i = false → ∀ d, (s.io.reactor.slotAt i).get d = none) :
    Inv capacity { s with io := { s.io with kernel := k } } := by
  refine ⟨hs.pool, ?_, hs.uncalled, ?_, hclean⟩
  · intro b c hc
    have hold := hs.calls b c hc
    exact ⟨hold.nonneg, hold.data, hold.handed, hold.watched.of_reactor rfl, hold.live, hold.gone⟩
  · intro fd b hfd
    obtain ⟨ho, hrest⟩ := hs.eventfds fd b hfd
    exact ⟨hopen fd b hfd ho, hrest⟩

theorem Inv.openFd (hs : Inv capacity s) (fd : ℤ) :
    Inv capacity { s with io := setOpen s.io fd } := by
  refine hs.setKernel ?_ ?_
  · intro fd' b _ ho
    by_cases heq : fd' = fd
    · subst heq
      exact Function.update_self ..
    · exact (Function.update_of_ne heq ..).trans ho
  · intro i hi d
    refine hs.clean i ?_ d
    by_cases heq : (i : ℤ) = fd
    · have hopen : Function.update s.io.kernel.isOpen fd true i = false := hi
      rw [heq, Function.update_self] at hopen
      cases hopen
    · exact (Function.update_of_ne heq ..).symm.trans hi

theorem Inv.closeFd (hs : Inv capacity s) {fd : ℤ} (hfd : s.eventfd fd = none)
    (hidle : fd < 0 ∨ (s.io.reactor.slotAt fd.toNat).isIdle = true) :
    Inv capacity { s with io := closeIn s.io fd } := by
  refine hs.setKernel ?_ ?_
  · intro fd' b hlive ho
    have hne : fd' ≠ fd := by
      rintro rfl
      rw [hfd] at hlive
      cases hlive
    exact (Function.update_of_ne hne ..).trans ho
  · intro i hi d
    by_cases heq : (i : ℤ) = fd
    · rcases hidle with hneg | hidle
      · omega
      · rw [FdEntry.isIdle_iff] at hidle
        rw [← hidle d, show fd.toNat = i by omega]
    · exact hs.clean i ((Function.update_of_ne heq ..).symm.trans hi) d

/-! ## The pool's steps -/

theorem hasWork_append {pool pool' : ThreadPool BlockingJob} {b : ℕ}
    {x : Item (PoolTask BlockingJob)}
    (h : ChannelRun.accepted pool'.tasks.log = ChannelRun.accepted pool.tasks.log ++ [x]) :
    HasWork pool' b ↔ HasWork pool b ∨ x.value = .spawned (.blocking b) := by
  simp only [HasWork, h, List.mem_append, List.mem_singleton]
  constructor
  · rintro ⟨y, hy | rfl, hyb⟩
    · exact Or.inl ⟨y, hy, hyb⟩
    · exact Or.inr hyb
  · rintro (⟨y, hy, hyb⟩ | hxb)
    · exact ⟨y, Or.inl hy, hyb⟩
    · exact ⟨x, Or.inr rfl, hxb⟩

theorem hasWork_congr {pool pool' : ThreadPool BlockingJob} {b : ℕ}
    (h : ChannelRun.accepted pool'.tasks.log = ChannelRun.accepted pool.tasks.log) :
    HasWork pool' b ↔ HasWork pool b := by
  simp only [HasWork, h]

theorem hasWork_of_running (hs : Inv capacity s) {w b : ℕ} (h : s.working w = some b) :
    HasWork s.pool b := by
  unfold working at h
  split at h
  · next x hrunning =>
    split at h
    · next b' hvalue =>
      cases h
      have hstarted := (hs.pool.running w x hrunning).1
      exact ⟨x, hs.pool.accepted_of_started hstarted, hvalue⟩
    · cases h
  · cases h

theorem Inv.poolStep (hs : Inv capacity s) {op : PoolOp BlockingJob}
    {pool : ThreadPool BlockingJob} (hallows : s.poolAllows op = true)
    (h : s.pool.step op = some pool) : Inv capacity { s with pool := pool } := by
  have hwork : ∀ b, HasWork pool b ↔ HasWork s.pool b := by
    intro b
    rcases ThreadPool.step_accepted h with hsame | ⟨x, htask, happend⟩
    · exact hasWork_congr hsame
    · rw [hasWork_append happend, or_iff_left]
      intro hx
      rw [hx] at htask
      cases op with
      | spawn f =>
        cases htask
        cases hallows
      | submit f => cases htask
      | _ => cases htask
  refine ⟨hs.pool.step h, ?_, ?_, hs.eventfds, hs.clean⟩
  · intro b c hc
    have hold := hs.calls b c hc
    refine ⟨hold.nonneg, hold.data, ⟨?_, ?_⟩, hold.watched, hold.live, hold.gone⟩
    · exact (hwork b).trans hold.handed.accepted
    · intro w x hmem hx
      rcases ThreadPool.step_finished h with hsame | ⟨w', x', threw, rfl, hrunning, happend⟩
      · rw [hsame] at hmem
        exact hold.handed.finished w x hmem hx
      · rw [happend] at hmem
        rcases List.mem_append.mp hmem with hmem | hnew
        · exact hold.handed.finished w x hmem hx
        · obtain ⟨rfl, rfl⟩ := Prod.mk.inj (List.mem_singleton.mp hnew)
          have hworking : s.working w = some b := by
            simp only [working, hrunning, hx]
          simp only [poolAllows, hworking, show s.call b = some c from hc, Option.any_some,
            Bool.and_eq_true, decide_eq_true_eq] at hallows
          exact hallows.1
  · intro b hb
    rw [hwork b]
    exact hs.uncalled b hb

end Rules
end Bridge
end RainRuntime
