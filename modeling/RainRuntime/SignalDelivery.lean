import RainRuntime.Signals
import RainRuntime.StreamIo

/-!
# Which thread takes a signal

A signal sent to the process stays pending until some thread that does not block it takes it, or
until a `SignalAwaiter` reads it from a signalfd. A new thread starts with the mask of its
creator, so it blocks the signals of the sets that were open then. `Executor::run` calls every
setup before it starts a worker; the threads of the blocking pool are older, since
`Runtime::Builder::build` starts them. All sets are opened and closed by the thread that builds
the runtime and runs the setups.

A standard signal that is pending already is not queued again; those from 32 on are.
-/

namespace RainRuntime

def Errno.messageSize : Errno := .other 90

structure SignalInfo where
  signo : ℤ
  pid : ℤ
  uid : ℤ
  deriving DecidableEq

inductive SignalTarget where
  | main
  | pool (i : ℕ)
  | worker (i : ℕ)

inductive SignalEvent where
  | queued (info : SignalInfo)
  | merged (info : SignalInfo)
  | delivered (t : SignalTarget) (info : SignalInfo)
  | returned (o : SetOwner) (result : Result SignalInfo)

inductive SignalRead where
  | got (signo : ℤ)
  | failed (e : Errno)
  | short

/-- For every thread but the main one, the state that the main one was in when it was created;
nobody changes its mask after that. -/
structure SignalProcess where
  main : SignalThread
  pool : List SignalThread
  workers : List SignalThread
  pending : List SignalInfo
  log : List SignalEvent

inductive ProcessOp where
  | build (blockers : ℕ)
  | main (op : SignalOp)
  | start (cores : ℕ)
  | send (info : SignalInfo)
  | deliver (t : SignalTarget) (info : SignalInfo)
  | resume (o : SetOwner) (call : SignalRead)

namespace SignalEvent

def queuedInfo : SignalEvent → Option SignalInfo
  | .queued info => some info
  | _ => none

def takenInfo : SignalEvent → Option SignalInfo
  | .delivered _ info => some info
  | .returned _ (.ok info) => some info
  | _ => none

end SignalEvent

namespace SignalProcess

def thread (s : SignalProcess) : SignalTarget → Option SignalThread
  | .main => some s.main
  | .pool i => s.pool[i]?
  | .worker i => s.workers[i]?

def next (s : SignalProcess) (signo : ℤ) : Option SignalInfo :=
  s.pending.find? fun info => info.signo = signo

def send (s : SignalProcess) (info : SignalInfo) : SignalProcess :=
  if info.signo < 32 ∧ (s.next info.signo).isSome then { s with log := s.log ++ [.merged info] }
  else { s with pending := s.pending ++ [info], log := s.log ++ [.queued info] }

def take (s : SignalProcess) (info : SignalInfo) (ev : SignalEvent) : SignalProcess :=
  { s with pending := s.pending.erase info, log := s.log ++ [ev] }

def readResult (s : SignalProcess) : SignalRead → Option (Result SignalInfo)
  | .got signo => (s.next signo).map .ok
  | .failed e => some (.error (.fromErrno e))
  | .short => some (.error ⟨.system .messageSize, .text "signalfd short read"⟩)

/-- The kernel hands out a pending signal of the set if there is one. -/
def reads (s : SignalProcess) (set : SignalSet) : SignalRead → Bool
  | .got signo => signo ∈ set.mask
  | .failed e => e = .again → ∀ info ∈ s.pending, info.signo ∉ set.mask
  | .short => true

/-- `SignalSet::read_signal`, called by the `SignalAwaiter` that was resumed. -/
def readSignal (s : SignalProcess) (o : SetOwner) : Result SignalInfo → SignalProcess
  | .ok info => s.take info (.returned o (.ok info))
  | .error e => { s with log := s.log ++ [.returned o (.error e)] }

def step (s : SignalProcess) : ProcessOp → Option SignalProcess
  | .build blockers => some { s with pool := s.pool ++ List.replicate blockers s.main }
  | .main op => (s.main.step op).map fun m => { s with main := m }
  | .start cores => some { s with workers := s.workers ++ List.replicate cores s.main }
  | .send info => some (s.send info)
  | .deliver t info =>
    match s.thread t with
    | some m =>
      if info.signo ∉ m.blocked ∧ s.next info.signo = some info then
        some (s.take info (.delivered t info))
      else none
    | none => none
  | .resume o call =>
    match s.main.sets o with
    | some set => if s.reads set call then (s.readResult call).map (s.readSignal o) else none
    | none => none

def init (mask : Finset ℤ) : SignalProcess := ⟨.start mask, [], [], [], []⟩

def Tidy (s : SignalProcess) : ProcessOp → Prop
  | .main op => s.main.InOrder op
  | _ => True

def Reaches (mask : Finset ℤ) (ops : List ProcessOp) (s : SignalProcess) : Prop :=
  Transition.run step (init mask) ops = some s

def queued (s : SignalProcess) (signo : ℤ) : List SignalInfo :=
  (s.log.filterMap SignalEvent.queuedInfo).filter fun info => info.signo = signo

def taken (s : SignalProcess) (signo : ℤ) : List SignalInfo :=
  (s.log.filterMap SignalEvent.takenInfo).filter fun info => info.signo = signo

def waiting (s : SignalProcess) (signo : ℤ) : List SignalInfo :=
  s.pending.filter fun info => info.signo = signo

variable {mask : Finset ℤ} {ops : List ProcessOp} {s t : SignalProcess} {op : ProcessOp}
  {info : SignalInfo} {signo : ℤ}

theorem next_eq_some (h : s.next signo = some info) : info.signo = signo := by
  simpa using List.find?_some h

theorem deliver_eq_some {target : SignalTarget} : s.step (.deliver target info) = some t ↔
    ∃ m, s.thread target = some m ∧ (info.signo ∉ m.blocked ∧ s.next info.signo = some info) ∧
      s.take info (.delivered target info) = t := by
  simp only [step]
  cases s.thread target with
  | none => simp
  | some m => simp

theorem take_or_note_of_resume {o : SetOwner} {call : SignalRead}
    (h : s.step (.resume o call) = some t) :
    (∃ info, s.next info.signo = some info ∧ s.take info (.returned o (.ok info)) = t) ∨
      ∃ e, { s with log := s.log ++ [.returned o (.error e)] } = t := by
  simp only [step] at h
  split at h
  · split_ifs at h
    obtain ⟨result, hresult, rfl⟩ := Option.map_eq_some_iff.mp h
    cases call with
    | got signo =>
      obtain ⟨info, hnext, rfl⟩ := Option.map_eq_some_iff.mp hresult
      exact Or.inl ⟨info, next_eq_some hnext ▸ hnext, rfl⟩
    | failed e =>
      cases hresult
      exact Or.inr ⟨_, rfl⟩
    | short =>
      cases hresult
      exact Or.inr ⟨_, rfl⟩
  · cases h

def Queues (s : SignalProcess) : Prop :=
  ∀ signo, s.taken signo ++ s.waiting signo = s.queued signo

theorem filter_of_find? {α : Type*} [DecidableEq α] {p : α → Bool} {a : α} {l : List α}
    (h : l.find? p = some a) : l.filter p = a :: (l.erase a).filter p := by
  rw [← List.head?_filter] at h
  obtain ⟨rest, hrest⟩ := List.head?_eq_some_iff.mp h
  rw [← List.erase_filter, hrest, List.erase_cons_head]

theorem Queues.take (hs : Queues s) {ev : SignalEvent} (hnext : s.next info.signo = some info)
    (hev : ev.takenInfo = some info) (hqueued : ev.queuedInfo = none) :
    Queues (s.take info ev) := by
  intro signo
  have hsame : (s.take info ev).queued signo = s.queued signo := by
    simp [queued, SignalProcess.take, hqueued]
  rw [hsame, ← hs signo]
  by_cases hsig : info.signo = signo
  · subst hsig
    have hwaiting : s.waiting info.signo = info :: (s.take info ev).waiting info.signo :=
      filter_of_find? hnext
    have htaken : (s.take info ev).taken info.signo = s.taken info.signo ++ [info] := by
      simp [SignalProcess.taken, SignalProcess.take, hev]
    rw [htaken, hwaiting, List.append_assoc, List.singleton_append]
  · have hwaiting : (s.take info ev).waiting signo = s.waiting signo := by
      rw [waiting, SignalProcess.take, ← List.erase_filter]
      exact List.erase_of_not_mem (by simp [hsig])
    have htaken : (s.take info ev).taken signo = s.taken signo := by
      simp [SignalProcess.taken, SignalProcess.take, hev, hsig]
    rw [htaken, hwaiting]

theorem Queues.note (hs : Queues s) {ev : SignalEvent} (htaken : ev.takenInfo = none)
    (hqueued : ev.queuedInfo = none) : Queues { s with log := s.log ++ [ev] } := by
  intro signo
  have hold := hs signo
  simp only [taken, waiting, queued, List.filterMap_append, List.filterMap_cons, htaken, hqueued,
    List.filterMap_nil, List.append_nil] at hold ⊢
  exact hold

theorem Queues.send (hs : Queues s) (info : SignalInfo) : Queues (s.send info) := by
  rw [SignalProcess.send]
  split_ifs
  · exact hs.note rfl rfl
  · intro signo
    have hold := hs signo
    simp only [taken, waiting, queued, List.filterMap_append, List.filter_append] at hold ⊢
    rw [← hold]
    simp [SignalEvent.takenInfo, SignalEvent.queuedInfo, List.filterMap_cons]

theorem Queues.step (hs : Queues s) (hstep : s.step op = some t) : Queues t := by
  cases op with
  | build => cases hstep; exact hs
  | start => cases hstep; exact hs
  | send info => cases hstep; exact hs.send info
  | main op =>
    obtain ⟨m, -, rfl⟩ := Option.map_eq_some_iff.mp hstep
    exact hs
  | deliver target info =>
    obtain ⟨m, -, hc, rfl⟩ := deliver_eq_some.mp hstep
    exact hs.take hc.2 rfl rfl
  | resume o call =>
    obtain ⟨info, hnext, rfl⟩ | ⟨e, rfl⟩ := take_or_note_of_resume hstep
    · exact hs.take hnext rfl rfl
    · exact hs.note rfl rfl

theorem Reaches.queues (h : Reaches mask ops s) : Queues s :=
  Transition.invariant Queues (fun hstep hs => hs.step hstep) (fun _ => rfl) h

structure Masked (mask : Finset ℤ) (s : SignalProcess) : Prop where
  main : SignalThread.Inv mask s.main
  pool : ∀ m ∈ s.pool, SignalThread.Inv mask m
  workers : ∀ m ∈ s.workers, SignalThread.Inv mask m

theorem Masked.step (hs : Masked mask s) (hop : s.Tidy op) (hstep : s.step op = some t) :
    Masked mask t := by
  have hcopies : ∀ {l : List SignalThread} {n : ℕ}, (∀ m ∈ l, SignalThread.Inv mask m) →
      ∀ m ∈ l ++ List.replicate n s.main, SignalThread.Inv mask m := by
    intro l n hl m hm
    rcases List.mem_append.mp hm with hm | hm
    · exact hl m hm
    · rw [List.eq_of_mem_replicate hm]
      exact hs.main
  cases op with
  | build =>
    cases hstep
    exact ⟨hs.main, hcopies hs.pool, hs.workers⟩
  | start =>
    cases hstep
    exact ⟨hs.main, hs.pool, hcopies hs.workers⟩
  | main op =>
    obtain ⟨m, hm, rfl⟩ := Option.map_eq_some_iff.mp hstep
    exact ⟨hs.main.step hop hm, hs.pool, hs.workers⟩
  | send info =>
    cases hstep
    rw [SignalProcess.send]
    split_ifs <;> exact ⟨hs.main, hs.pool, hs.workers⟩
  | deliver target info =>
    obtain ⟨m, -, -, rfl⟩ := deliver_eq_some.mp hstep
    exact ⟨hs.main, hs.pool, hs.workers⟩
  | resume o call =>
    obtain ⟨info, -, rfl⟩ | ⟨e, rfl⟩ := take_or_note_of_resume hstep
    · exact ⟨hs.main, hs.pool, hs.workers⟩
    · exact ⟨hs.main, hs.pool, hs.workers⟩

theorem Reaches.masked (h : Reaches mask ops s)
    (hops : Transition.Guarded step Tidy (init mask) ops) : Masked mask s :=
  Transition.invariant_of_guarded Tidy (Masked mask) (fun hop hstep hs => hs.step hop hstep)
    ⟨SignalThread.inv_start mask, by simp [init], by simp [init]⟩ hops h

theorem deliver_isSome_iff {target : SignalTarget} :
    (s.step (.deliver target info)).isSome ↔
      ∃ m, s.thread target = some m ∧ info.signo ∉ m.blocked ∧ s.next info.signo = some info := by
  simp [Option.isSome_iff_exists, deliver_eq_some]

/-- If sets are closed newest first and no loop is given two, then a signal of a set that was open
before the workers were started can reach no thread but those of the blocking pool that were
created when no open set had it and the process did not block it; until one of them takes it, it
waits for the signalfd. What is taken, and what waits, is what was queued, in order. -/
theorem signals_bypass_only_by_pool (h : Reaches mask ops s)
    (hops : Transition.Guarded step Tidy (init mask) ops) :
    (∀ o set, s.main.sets o = some set → (∀ m ∈ s.workers, m.sets o = some set) →
      ∀ info ∈ s.pending, info.signo ∈ set.given → ∀ target,
        (s.step (.deliver target info)).isSome ↔
          s.next info.signo = some info ∧ info.signo ∉ (SignalThread.start mask).blocked ∧
          ∃ i m, target = .pool i ∧ s.pool[i]? = some m ∧
            ∀ o' set', m.sets o' = some set' → info.signo ∉ set'.given) ∧
    ∀ signo, s.taken signo ++ s.waiting signo = s.queued signo := by
  have hmasked := h.masked hops
  refine ⟨fun o set ho hworkers info _ hsig target => ?_, h.queues⟩
  rw [deliver_isSome_iff]
  constructor
  · rintro ⟨m, hm, hfree, hnext⟩
    cases target with
    | main =>
      cases hm
      exact absurd ((hmasked.main.disciplined _).mpr (Or.inr ⟨o, set, ho, hsig⟩)) hfree
    | worker i =>
      have hmem := List.mem_of_getElem? hm
      have hset := hworkers m hmem
      exact absurd (((hmasked.workers m hmem).disciplined _).mpr (Or.inr ⟨o, set, hset, hsig⟩))
        hfree
    | pool i =>
      have hdisc := (hmasked.pool m (List.mem_of_getElem? hm)).disciplined info.signo
      rw [hdisc, not_or] at hfree
      exact ⟨hnext, hfree.1, i, m, rfl, hm, fun o' set' hset hin => hfree.2 ⟨o', set', hset, hin⟩⟩
  · rintro ⟨hnext, hbase, i, m, rfl, hm, hsets⟩
    have hdisc := (hmasked.pool m (List.mem_of_getElem? hm)).disciplined info.signo
    refine ⟨m, hm, ?_, hnext⟩
    rw [hdisc, not_or]
    refine ⟨hbase, ?_⟩
    rintro ⟨o', set', hset, hin⟩
    exact hsets o' set' hset hin

def signalAfterStart : List ProcessOp :=
  [.build 1, .main (.addSignals 1 [10] true), .start 2, .send ⟨10, 7, 0⟩]

theorem signals_bypass_only_by_pool_of_one : ∃ s, Reaches ∅ signalAfterStart s ∧
    s.waiting 10 = [⟨10, 7, 0⟩] ∧
    (∀ target, (s.step (.deliver target ⟨10, 7, 0⟩)).isSome → target = .pool 0) ∧
    (s.step (.deliver (.pool 0) ⟨10, 7, 0⟩)).isSome := by
  have hops : Transition.Guarded step Tidy (init ∅) signalAfterStart := by
    refine ⟨trivial, fun t ht => ?_⟩
    cases ht
    refine ⟨⟨by simp [SignalThread.Blockable, unblockable], rfl⟩, fun t ht => ?_⟩
    cases ht
    exact ⟨trivial, fun _ _ => ⟨trivial, fun _ _ => trivial⟩⟩
  obtain ⟨s, hs, ho, hworkers, hpending, hpool⟩ : ∃ s, Reaches ∅ signalAfterStart s ∧
      s.main.sets (.loop 1) = some ⟨{10}, ∅, [10]⟩ ∧ s.workers = [s.main, s.main] ∧
      s.pending = [⟨10, 7, 0⟩] ∧ s.pool = [.start ∅] := ⟨_, rfl, rfl, rfl, rfl, rfl⟩
  have hiff := (signals_bypass_only_by_pool hs hops).1 (.loop 1) ⟨{10}, ∅, [10]⟩ ho
    (by simp [hworkers, ho]) ⟨10, 7, 0⟩ (by simp [hpending]) (by decide)
  refine ⟨s, hs, by simp [waiting, hpending], fun target hdeliver => ?_, ?_⟩
  · obtain ⟨-, -, i, m, htarget, hm, -⟩ := (hiff target).mp hdeliver
    have hi : i = 0 := by
      have hlt := (List.getElem?_eq_some_iff.mp hm).1
      rw [hpool] at hlt
      simpa using hlt
    rw [htarget, hi]
  · refine (hiff _).mpr ⟨by simp [next, hpending], by simp [SignalThread.start], 0, .start ∅, rfl,
      by rw [hpool]; rfl, ?_⟩
    simp [SignalThread.start]

end SignalProcess
end RainRuntime
