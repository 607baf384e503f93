import RainRuntime.Channel

/-!
# The thread pool

The pool's tasks go through one channel. `spawn` refuses when the queue is full, `submit`
waits for room; a worker repeats `recv` and runs what it got until `recv` reports the end.
`shutdown` closes the channel and joins the workers one after the other; only the first
call does so, the others return at once.

A task may throw. What `submit` put into the channel is a packaged task, whose exception
goes to the future; the exception of a spawned task reaches the worker's loop, which gives
it to `on_error_` and goes on. The exception handler itself does not throw.
-/

namespace RainRuntime

inductive PoolTask (F : Type*) where
  | spawned (f : F)
  | submitted (f : F)

/-- `waiting` is the head of the loop, at `recv`. -/
inductive Worker (F : Type*) where
  | waiting
  | running (x : Item (PoolTask F))
  | exited

/-- Where the shutdown that closes the channel is. -/
inductive Closer where
  | notCalled
  | closing
  | joining (joined : ℕ)
  | returned

def Closer.HasJoined (size w : ℕ) : Closer → Prop
  | .joining k => w < k
  | .returned => w < size
  | _ => False

/-- `started` and `finished` say which worker ran what; `handled` are the tasks whose exception
was given to `on_error_`, `failed` those whose future has one. -/
structure ThreadPool (F : Type*) where
  tasks : ChannelRun (PoolTask F)
  size : ℕ
  worker : ℕ → Worker F
  shutdown : Bool
  closer : Closer
  started : List (ℕ × Item (PoolTask F))
  finished : List (ℕ × Item (PoolTask F))
  handled : List (Item (PoolTask F))
  failed : List (Item (PoolTask F))

inductive PoolOp (F : Type*) where
  | spawn (f : F)
  | submit (f : F)
  | take (w : ℕ)
  | finish (w : ℕ) (threw : Bool)
  | shutdown
  | close
  | join
  | finishShutdown

def PoolOp.task {F : Type*} : PoolOp F → Option (PoolTask F)
  | .spawn f => some (.spawned f)
  | .submit f => some (.submitted f)
  | _ => none

namespace ThreadPool
variable {F : Type*}

def create (size capacity : ℕ) : ThreadPool F where
  tasks := .start capacity
  size := size
  worker := fun _ => .waiting
  shutdown := false
  closer := .notCalled
  started := []
  finished := []
  handled := []
  failed := []

def setWorker (s : ThreadPool F) (w : ℕ) (st : Worker F) : ThreadPool F :=
  { s with worker := Function.update s.worker w st }

def setTasks (s : ThreadPool F) (tasks : ChannelRun (PoolTask F)) : ThreadPool F :=
  { s with tasks := tasks }

def received (s : ThreadPool F) (w : ℕ) : Option (Item (PoolTask F)) → ThreadPool F
  | some x => { s.setWorker w (.running x) with started := s.started ++ [(w, x)] }
  | none => s.setWorker w .exited

def ended (s : ThreadPool F) (w : ℕ) (x : Item (PoolTask F)) (threw : Bool) : ThreadPool F :=
  let s' := { s.setWorker w .waiting with finished := s.finished ++ [(w, x)] }
  match x.value, threw with
  | .spawned _, true => { s' with handled := s.handled ++ [x] }
  | .submitted _, true => { s' with failed := s.failed ++ [x] }
  | _, false => s'

def step (s : ThreadPool F) : PoolOp F → Option (ThreadPool F)
  | .spawn f => (s.tasks.step (.trySend (.spawned f))).map s.setTasks
  | .submit f => (s.tasks.step (.send (.submitted f))).map s.setTasks
  | .take w =>
    match s.worker w with
    | .waiting =>
      if w < s.size then
        (s.tasks.step .recv).map fun tasks => (s.setTasks tasks).received w s.tasks.chan.recv.1
      else none
    | _ => none
  | .finish w threw =>
    match s.worker w with
    | .running x => some (s.ended w x threw)
    | _ => none
  | .shutdown =>
    if s.shutdown then some s else some { s with shutdown := true, closer := .closing }
  | .close =>
    match s.closer with
    | .closing =>
      (s.tasks.step .close).map fun tasks => { s.setTasks tasks with closer := .joining 0 }
    | _ => none
  | .join =>
    match s.closer with
    | .joining k =>
      match s.worker k with
      | .exited => if k < s.size then some { s with closer := .joining (k + 1) } else none
      | _ => none
    | _ => none
  | .finishShutdown =>
    match s.closer with
    | .joining k => if k = s.size then some { s with closer := .returned } else none
    | _ => none

def spawnResult (s : ThreadPool F) (f : F) : Result Unit :=
  (s.tasks.chan.trySend ⟨s.tasks.log.length, .spawned f⟩).1

/-! ## What a step can do -/

inductive Effect (s : ThreadPool F) : PoolOp F → ThreadPool F → Prop
  | call {op : PoolOp F} {call : ChannelOp (PoolTask F)} {tasks : ChannelRun (PoolTask F)}
      (takes : call.takes = false) (task : call.value = op.task)
      (step : s.tasks.step call = some tasks) (shutdown : Bool) (closer : Closer)
      (closed : closer = s.closer ∨ closer = .joining 0) :
      Effect s op { s.setTasks tasks with shutdown := shutdown, closer := closer }
  | start {w : ℕ} {x : Item (PoolTask F)} {tasks : ChannelRun (PoolTask F)} (lt : w < s.size)
      (waiting : s.worker w = .waiting) (step : s.tasks.step .recv = some tasks)
      (got : s.tasks.chan.recv.1 = some x) :
      Effect s (.take w) ((s.setTasks tasks).received w (some x))
  | exit {w : ℕ} {tasks : ChannelRun (PoolTask F)} (lt : w < s.size)
      (waiting : s.worker w = .waiting) (step : s.tasks.step .recv = some tasks)
      (got : s.tasks.chan.recv.1 = none) :
      Effect s (.take w) ((s.setTasks tasks).received w none)
  | finish {w : ℕ} {x : Item (PoolTask F)} (running : s.worker w = .running x) (threw : Bool) :
      Effect s (.finish w threw) (s.ended w x threw)
  | shutdown {op : PoolOp F} (flag : Bool) (closer : Closer)
      (phase : closer = s.closer ∨ closer = .closing ∨
        (∃ k, s.closer = .joining k ∧ s.worker k = .exited ∧ closer = .joining (k + 1)) ∨
        (s.closer = .joining s.size ∧ closer = .returned)) :
      Effect s op { s with shutdown := flag, closer := closer }

theorem step_effect {s t : ThreadPool F} {op : PoolOp F} (h : s.step op = some t) :
    Effect s op t := by
  cases op with
  | spawn f =>
    simp only [step] at h
    obtain ⟨tasks, hstep, rfl⟩ := Option.map_eq_some_iff.mp h
    exact .call rfl rfl hstep s.shutdown s.closer (Or.inl rfl)
  | submit f =>
    simp only [step] at h
    obtain ⟨tasks, hstep, rfl⟩ := Option.map_eq_some_iff.mp h
    exact .call rfl rfl hstep s.shutdown s.closer (Or.inl rfl)
  | take w =>
    simp only [step] at h
    split at h
    · next hwaiting =>
      split_ifs at h with hlt
      obtain ⟨tasks, hstep, rfl⟩ := Option.map_eq_some_iff.mp h
      cases hgot : s.tasks.chan.recv.1 with
      | some x => exact .start hlt hwaiting hstep hgot
      | none => exact .exit hlt hwaiting hstep hgot
    · cases h
  | finish w threw =>
    simp only [step] at h
    split at h
    · next x hrunning =>
      cases h
      exact .finish hrunning threw
    · cases h
  | shutdown =>
    simp only [step] at h
    split_ifs at h
    · cases h
      exact .shutdown s.shutdown s.closer (Or.inl rfl)
    · cases h
      exact .shutdown true .closing (Or.inr (Or.inl rfl))
  | close =>
    simp only [step] at h
    split at h
    · obtain ⟨tasks, hstep, rfl⟩ := Option.map_eq_some_iff.mp h
      exact .call rfl rfl hstep s.shutdown (.joining 0) (Or.inr rfl)
    · cases h
  | join =>
    simp only [step] at h
    split at h
    · next k hcloser =>
      split at h
      · next hexited =>
        split_ifs at h
        cases h
        exact .shutdown s.shutdown _ (Or.inr (Or.inr (Or.inl ⟨k, hcloser, hexited, rfl⟩)))
      · cases h
    · cases h
  | finishShutdown =>
    simp only [step] at h
    split at h
    · next k hcloser =>
      split_ifs at h with hk
      subst hk
      cases h
      exact .shutdown s.shutdown _ (Or.inr (Or.inr (Or.inr ⟨hcloser, rfl⟩)))
    · cases h

/-! ## Every accepted task runs once -/

structure Inv (capacity : ℕ) (s : ThreadPool F) : Prop where
  channel : ChannelRun.Inv capacity s.tasks
  started_eq : s.started.map Prod.snd = ChannelRun.received s.tasks.log
  running : ∀ w x, s.worker w = .running x → (w, x) ∈ s.started ∧ (w, x) ∉ s.finished
  place : ∀ w x, (w, x) ∈ s.started → (w, x) ∈ s.finished ∨ s.worker w = .running x
  finished_sub : ∀ p ∈ s.finished, p ∈ s.started
  finished_nodup : s.finished.Nodup
  exited : ∀ w, s.worker w = .exited → s.tasks.chan.closed = true ∧ s.tasks.chan.queue = []
  joined : ∀ w, s.closer.HasJoined s.size w → s.worker w = .exited

theorem inv_create (size capacity : ℕ) : Inv capacity (create size capacity : ThreadPool F) where
  channel := ChannelRun.inv_start capacity
  started_eq := rfl
  running := fun _ _ h => by cases h
  place := fun _ _ h => by cases h
  finished_sub := fun _ h => by cases h
  finished_nodup := List.nodup_nil
  exited := fun _ h => by cases h
  joined := fun _ h => False.elim h

section Step
variable {capacity : ℕ} {s : ThreadPool F}

theorem recv_log {tasks : ChannelRun (PoolTask F)} (h : s.tasks.step .recv = some tasks) :
    ChannelRun.received tasks.log =
      ChannelRun.received s.tasks.log ++ s.tasks.chan.recv.1.toList := by
  obtain ⟨-, rfl⟩ := ChannelRun.step_recv h
  exact ChannelRun.received_concat _ _

theorem recv_none {tasks : ChannelRun (PoolTask F)} (h : s.tasks.step .recv = some tasks)
    (hnone : s.tasks.chan.recv.1 = none) :
    tasks.chan.closed = true ∧ tasks.chan.queue = [] := by
  obtain ⟨hready, rfl⟩ := ChannelRun.step_recv h
  rcases s.tasks.chan.tryRecv_cases with ⟨hq, hr⟩ | ⟨x, rest, hq, hr⟩
  · simp only [Channel.recv, hr]
    exact ⟨by simpa [Channel.notEmpty, hq] using hready, hq⟩
  · rw [Channel.recv, hr] at hnone
    cases hnone

theorem call_log {op : ChannelOp (PoolTask F)} {tasks : ChannelRun (PoolTask F)}
    (htakes : op.takes = false) (h : s.tasks.step op = some tasks) :
    ChannelRun.received tasks.log = ChannelRun.received s.tasks.log := by
  obtain ⟨e, hlog, heff⟩ := ChannelRun.step_effect h
  have hnone : e.received = none := by
    obtain ⟨c, log⟩ := tasks
    cases heff with
    | pushed _ _ _ _ _ hreceived _ _ => exact hreceived
    | refused _ _ _ _ _ hreceived _ => exact hreceived
    | popped _ _ htook _ _ _ _ => rw [htakes] at htook; cases htook
    | missed _ _ _ _ hreceived _ _ => exact hreceived
    | closed _ => rfl
  rw [hlog, ChannelRun.received_concat, hnone]
  exact List.append_nil _

theorem Inv.fresh (hs : Inv capacity s) {tasks : ChannelRun (PoolTask F)} {x : Item (PoolTask F)}
    (h : s.tasks.step .recv = some tasks) (hgot : s.tasks.chan.recv.1 = some x) (w : ℕ) :
    (w, x) ∉ s.started := by
  have hnodup := (hs.channel.step h).received_nodup
  rw [recv_log h, hgot, ← hs.started_eq] at hnodup
  intro hmem
  have hold : x.call ∈ (s.started.map Prod.snd).map Item.call :=
    List.mem_map_of_mem (List.mem_map_of_mem (f := Prod.snd) hmem)
  rw [List.map_append] at hnodup
  exact (List.nodup_append.mp hnodup).2.2 _ hold x.call (by simp) rfl

theorem Inv.call (hs : Inv capacity s) {op : ChannelOp (PoolTask F)}
    {tasks : ChannelRun (PoolTask F)} (htakes : op.takes = false)
    (h : s.tasks.step op = some tasks) (flag : Bool) {closer : Closer}
    (hcloser : closer = s.closer ∨ closer = .joining 0) :
    Inv capacity { s.setTasks tasks with shutdown := flag, closer := closer } where
  channel := hs.channel.step h
  started_eq := hs.started_eq.trans (call_log htakes h).symm
  running := hs.running
  place := hs.place
  finished_sub := hs.finished_sub
  finished_nodup := hs.finished_nodup
  exited := fun w hw => ChannelRun.step_drained h (hs.exited w hw)
  joined := by
    intro w hw
    rcases hcloser with rfl | rfl
    · exact hs.joined w hw
    · exact absurd hw (Nat.not_lt_zero w)

theorem setWorker_of_ne {u w : ℕ} (h : u ≠ w) (st : Worker F) :
    (s.setWorker w st).worker u = s.worker u := Function.update_of_ne h _ _

theorem setWorker_self (w : ℕ) (st : Worker F) : (s.setWorker w st).worker w = st :=
  Function.update_self ..

theorem setWorker_exited {u w : ℕ} (hw : s.worker w ≠ .exited) (hu : s.worker u = .exited)
    (st : Worker F) : (s.setWorker w st).worker u = .exited := by
  rw [setWorker_of_ne, hu]
  rintro rfl
  exact hw hu

theorem Inv.start (hs : Inv capacity s) {tasks : ChannelRun (PoolTask F)} {w : ℕ}
    {x : Item (PoolTask F)} (hwaiting : s.worker w = .waiting)
    (h : s.tasks.step .recv = some tasks) (hgot : s.tasks.chan.recv.1 = some x) :
    Inv capacity ((s.setTasks tasks).received w (some x)) := by
  have hfresh := hs.fresh h hgot w
  have hworker : ∀ u, u ≠ w →
      ((s.setTasks tasks).received w (some x)).worker u = s.worker u :=
    fun u hu => setWorker_of_ne hu _
  have hself : ((s.setTasks tasks).received w (some x)).worker w = .running x :=
    setWorker_self w _
  refine ⟨hs.channel.step h, ?_, ?_, ?_, ?_, hs.finished_nodup, ?_, ?_⟩
  · have hlog := recv_log h
    rw [hgot, ← hs.started_eq] at hlog
    simp [received, setTasks, setWorker, hlog]
  · intro u y hu
    by_cases huw : u = w
    · subst huw
      rw [hself, Worker.running.injEq] at hu
      subst hu
      exact ⟨List.mem_append_right _ (List.mem_singleton_self _),
        fun hfin => hfresh (hs.finished_sub _ hfin)⟩
    · rw [hworker u huw] at hu
      obtain ⟨hstarted, hfinished⟩ := hs.running u y hu
      exact ⟨List.mem_append_left _ hstarted, hfinished⟩
  · intro u y hmem
    rcases List.mem_append.mp hmem with hold | hnew
    · rcases hs.place u y hold with hfinished | hrunning
      · exact Or.inl hfinished
      · have huw : u ≠ w := by
          rintro rfl
          rw [hwaiting] at hrunning
          cases hrunning
        exact Or.inr ((hworker u huw).trans hrunning)
    · obtain ⟨rfl, rfl⟩ := Prod.mk.inj (List.mem_singleton.mp hnew)
      exact Or.inr hself
  · exact fun p hp => List.mem_append_left _ (hs.finished_sub p hp)
  · intro u hu
    refine ChannelRun.step_drained h (hs.exited u ?_)
    by_cases huw : u = w
    · subst huw
      rw [hself] at hu
      cases hu
    · rwa [hworker u huw] at hu
  · intro u hu
    exact setWorker_exited (s := s.setTasks tasks) (by rw [setTasks, hwaiting]; nofun)
      (hs.joined u hu) _

theorem Inv.exit (hs : Inv capacity s) {tasks : ChannelRun (PoolTask F)} {w : ℕ}
    (hwaiting : s.worker w = .waiting) (h : s.tasks.step .recv = some tasks)
    (hgot : s.tasks.chan.recv.1 = none) :
    Inv capacity ((s.setTasks tasks).received w none) := by
  have hworker : ∀ u, u ≠ w → ((s.setTasks tasks).received w none).worker u = s.worker u :=
    fun u hu => setWorker_of_ne hu _
  have hself : ((s.setTasks tasks).received w none).worker w = .exited := setWorker_self w _
  refine ⟨hs.channel.step h, ?_, ?_, ?_, hs.finished_sub, hs.finished_nodup, ?_, ?_⟩
  · have hlog := recv_log h
    rw [hgot, ← hs.started_eq] at hlog
    simp [received, setTasks, setWorker, hlog]
  · intro u y hu
    by_cases huw : u = w
    · subst huw
      rw [hself] at hu
      cases hu
    · rw [hworker u huw] at hu
      exact hs.running u y hu
  · intro u y hmem
    rcases hs.place u y hmem with hfinished | hrunning
    · exact Or.inl hfinished
    · have huw : u ≠ w := by
        rintro rfl
        rw [hwaiting] at hrunning
        cases hrunning
      exact Or.inr ((hworker u huw).trans hrunning)
  · intro u hu
    exact recv_none h hgot
  · intro u hu
    exact setWorker_exited (s := s.setTasks tasks) (by rw [setTasks, hwaiting]; nofun)
      (hs.joined u hu) _

theorem ended_frame (s : ThreadPool F) (w : ℕ) (x : Item (PoolTask F)) (threw : Bool) :
    (s.ended w x threw).tasks = s.tasks ∧ (s.ended w x threw).size = s.size ∧
      (s.ended w x threw).closer = s.closer ∧ (s.ended w x threw).started = s.started ∧
      (s.ended w x threw).finished = s.finished ++ [(w, x)] ∧
      (s.ended w x threw).worker = (s.setWorker w .waiting).worker := by
  unfold ended
  cases x.value <;> cases threw <;> exact ⟨rfl, rfl, rfl, rfl, rfl, rfl⟩

theorem Inv.finish (hs : Inv capacity s) {w : ℕ} {x : Item (PoolTask F)}
    (hrunning : s.worker w = .running x) (threw : Bool) : Inv capacity (s.ended w x threw) := by
  obtain ⟨htasks, hsize, hcloser, hstarted, hfinished, hworkers⟩ := s.ended_frame w x threw
  obtain ⟨hmem, hnotfin⟩ := hs.running w x hrunning
  have hne : s.worker w ≠ .exited := by rw [hrunning]; nofun
  refine ⟨?_, ?_, ?_, ?_, ?_, ?_, ?_, ?_⟩
  · rw [htasks]
    exact hs.channel
  · rw [htasks, hstarted]
    exact hs.started_eq
  · intro u y hu
    rw [hworkers] at hu
    rw [hstarted, hfinished]
    by_cases huw : u = w
    · subst huw
      rw [setWorker_self] at hu
      cases hu
    · rw [setWorker_of_ne huw] at hu
      obtain ⟨hold, hnot⟩ := hs.running u y hu
      refine ⟨hold, fun hfin => ?_⟩
      rcases List.mem_append.mp hfin with hfin | hfin
      · exact hnot hfin
      · exact huw (Prod.mk.inj (List.mem_singleton.mp hfin)).1
  · intro u y hu
    rw [hstarted] at hu
    rw [hfinished, hworkers]
    rcases hs.place u y hu with hfin | hrun
    · exact Or.inl (List.mem_append_left _ hfin)
    · by_cases huw : u = w
      · subst huw
        rw [hrunning, Worker.running.injEq] at hrun
        subst hrun
        exact Or.inl (List.mem_append_right _ (List.mem_singleton_self _))
      · right
        rw [setWorker_of_ne huw]
        exact hrun
  · intro p hp
    rw [hfinished] at hp
    rw [hstarted]
    rcases List.mem_append.mp hp with hold | hnew
    · exact hs.finished_sub p hold
    · rw [List.mem_singleton.mp hnew]
      exact hmem
  · rw [hfinished, List.nodup_append]
    refine ⟨hs.finished_nodup, List.nodup_singleton _, ?_⟩
    intro p hp q hq
    rw [List.mem_singleton.mp hq]
    rintro rfl
    exact hnotfin hp
  · intro u hu
    rw [hworkers] at hu
    rw [htasks]
    by_cases huw : u = w
    · subst huw
      rw [setWorker_self] at hu
      cases hu
    · rw [setWorker_of_ne huw] at hu
      exact hs.exited u hu
  · intro u hu
    rw [hcloser, hsize] at hu
    rw [hworkers]
    exact setWorker_exited hne (hs.joined u hu) _

theorem Inv.shutdown (hs : Inv capacity s) (flag : Bool) {closer : Closer}
    (hphase : closer = s.closer ∨ closer = .closing ∨
      (∃ k, s.closer = .joining k ∧ s.worker k = .exited ∧ closer = .joining (k + 1)) ∨
      (s.closer = .joining s.size ∧ closer = .returned)) :
    Inv capacity { s with shutdown := flag, closer := closer } := by
  refine ⟨hs.channel, hs.started_eq, hs.running, hs.place, hs.finished_sub, hs.finished_nodup,
    hs.exited, ?_⟩
  intro w hw
  rcases hphase with rfl | rfl | ⟨k, hk, hexited, rfl⟩ | ⟨hall, rfl⟩
  · exact hs.joined w hw
  · exact False.elim hw
  · rcases Nat.lt_succ_iff_lt_or_eq.mp hw with hlt | rfl
    · exact hs.joined w (by rw [hk]; exact hlt)
    · exact hexited
  · exact hs.joined w (by rw [hall]; exact hw)

end Step

theorem Inv.step {capacity : ℕ} {s t : ThreadPool F} {op : PoolOp F} (h : s.step op = some t)
    (hs : Inv capacity s) : Inv capacity t := by
  cases step_effect h with
  | call htakes _ hstep flag closer hcloser => exact hs.call htakes hstep flag hcloser
  | start hlt hwaiting hstep hgot => exact hs.start hwaiting hstep hgot
  | exit hlt hwaiting hstep hgot => exact hs.exit hwaiting hstep hgot
  | finish hrunning threw => exact hs.finish hrunning threw
  | shutdown flag closer hphase => exact hs.shutdown flag hphase

theorem step_inRange {size : ℕ} {s t : ThreadPool F} {op : PoolOp F} (h : s.step op = some t)
    (hs : s.size = size ∧ ∀ p ∈ s.started, p.1 < size) :
    t.size = size ∧ ∀ p ∈ t.started, p.1 < size := by
  cases step_effect h with
  | call _ _ _ _ _ _ => exact hs
  | start hlt _ _ _ =>
    refine ⟨hs.1, fun p hp => ?_⟩
    rcases List.mem_append.mp hp with hold | hnew
    · exact hs.2 p hold
    · rw [List.mem_singleton.mp hnew, ← hs.1]
      exact hlt
  | exit _ _ _ _ => exact hs
  | @finish w x _ threw =>
    obtain ⟨-, hsize, -, hstarted, -, -⟩ := s.ended_frame w x threw
    rw [hsize, hstarted]
    exact hs
  | shutdown _ _ _ => exact hs

theorem step_accepted {s t : ThreadPool F} {op : PoolOp F} (h : s.step op = some t) :
    ChannelRun.accepted t.tasks.log = ChannelRun.accepted s.tasks.log ∨
      ∃ x, op.task = some x.value ∧
        ChannelRun.accepted t.tasks.log = ChannelRun.accepted s.tasks.log ++ [x] := by
  have hrecv : ∀ {tasks}, s.tasks.step .recv = some tasks →
      ChannelRun.accepted tasks.log = ChannelRun.accepted s.tasks.log := by
    intro tasks hstep
    rcases ChannelRun.step_accepted hstep with hsame | ⟨x, hx, -⟩
    · exact hsame
    · cases hx
  cases step_effect h with
  | call _ htask hstep _ _ _ =>
    rw [← htask]
    exact ChannelRun.step_accepted hstep
  | start _ _ hstep _ => exact Or.inl (hrecv hstep)
  | exit _ _ hstep _ => exact Or.inl (hrecv hstep)
  | @finish w x _ threw =>
    rw [(s.ended_frame w x threw).1]
    exact Or.inl rfl
  | shutdown _ _ _ => exact Or.inl rfl

theorem step_spawn {s t : ThreadPool F} {f : F} (h : s.step (.spawn f) = some t) :
    ChannelRun.accepted t.tasks.log = ChannelRun.accepted s.tasks.log ++
      (match s.spawnResult f with
        | .ok _ => [⟨s.tasks.log.length, .spawned f⟩]
        | .error _ => []) := by
  simp only [step] at h
  obtain ⟨tasks, hstep, rfl⟩ := Option.map_eq_some_iff.mp h
  simp only [ChannelRun.step, Channel.exec] at hstep
  obtain rfl := Option.some.inj hstep
  rw [spawnResult, setTasks, ChannelRun.accepted_concat]
  cases (s.tasks.chan.trySend ⟨s.tasks.log.length, .spawned f⟩).1 <;> rfl

theorem step_finished {s t : ThreadPool F} {op : PoolOp F} (h : s.step op = some t) :
    t.finished = s.finished ∨ ∃ w x threw, op = .finish w threw ∧ s.worker w = .running x ∧
      t.finished = s.finished ++ [(w, x)] := by
  cases step_effect h with
  | call _ _ _ _ _ _ => exact Or.inl rfl
  | start _ _ _ _ => exact Or.inl rfl
  | exit _ _ _ _ => exact Or.inl rfl
  | @finish w x hrunning threw =>
    obtain ⟨-, -, -, -, hfinished, -⟩ := s.ended_frame w x threw
    exact Or.inr ⟨w, x, threw, rfl, hrunning, hfinished⟩
  | shutdown _ _ _ => exact Or.inl rfl

section Results
variable {capacity : ℕ} {s : ThreadPool F}

theorem Inv.started_nodup (hs : Inv capacity s) :
    (s.started.map fun p => p.2.call).Nodup := by
  have hnodup := hs.channel.received_nodup
  rw [← hs.started_eq, List.map_map] at hnodup
  exact hnodup

theorem Inv.accepted_of_started (hs : Inv capacity s) {w : ℕ} {x : Item (PoolTask F)}
    (h : (w, x) ∈ s.started) : x ∈ ChannelRun.accepted s.tasks.log := by
  rw [← hs.channel.fifo, ← hs.started_eq]
  exact List.mem_append_left _ (List.mem_map.mpr ⟨_, h, rfl⟩)

theorem Inv.finished_calls_nodup (hs : Inv capacity s) :
    (s.finished.map fun p => p.2.call).Nodup := by
  refine List.Nodup.map_on ?_ hs.finished_nodup
  intro p hp q hq heq
  exact List.inj_on_of_nodup_map hs.started_nodup (hs.finished_sub p hp) (hs.finished_sub q hq) heq

/-- An accepted task is waiting in the channel, running, or done. -/
theorem Inv.accepted_cases (hs : Inv capacity s) {x : Item (PoolTask F)}
    (h : x ∈ ChannelRun.accepted s.tasks.log) :
    x ∈ s.tasks.chan.queue ∨ ∃ w, s.worker w = .running x ∨ (w, x) ∈ s.finished := by
  rw [← hs.channel.fifo, ← hs.started_eq] at h
  rcases List.mem_append.mp h with hstarted | hqueued
  · obtain ⟨⟨w, y⟩, hmem, rfl⟩ := List.mem_map.mp hstarted
    exact Or.inr ⟨w, (hs.place w y hmem).symm⟩
  · exact Or.inl hqueued

def Drained (s : ThreadPool F) : Prop :=
  s.tasks.chan.queue = [] ∧ ∀ w x, s.worker w ≠ .running x

theorem Inv.finished_of_drained (hs : Inv capacity s) (h : s.Drained) {x : Item (PoolTask F)}
    (hx : x ∈ ChannelRun.accepted s.tasks.log) : ∃ w, (w, x) ∈ s.finished := by
  rcases hs.accepted_cases hx with hqueued | ⟨w, hrunning | hfinished⟩
  · rw [h.1] at hqueued
    cases hqueued
  · exact absurd hrunning (h.2 w x)
  · exact ⟨w, hfinished⟩

theorem Inv.drained_of_returned (hs : Inv capacity s) (hsize : 0 < s.size)
    (hrange : ∀ p ∈ s.started, p.1 < s.size) (h : s.closer = .returned) : s.Drained := by
  have hexited : ∀ w < s.size, s.worker w = .exited := by
    intro w hw
    refine hs.joined w ?_
    rw [h]
    exact hw
  refine ⟨(hs.exited 0 (hexited 0 hsize)).2, fun w x hrunning => ?_⟩
  have hmem := (hs.running w x hrunning).1
  rw [hexited w (hrange _ hmem)] at hrunning
  cases hrunning

theorem step_finish {w : ℕ} {x : Item (PoolTask F)} (h : s.worker w = .running x) (threw : Bool) :
    s.step (.finish w threw) = some (s.ended w x threw) := by
  simp only [step, h]

theorem step_take {w : ℕ} (hlt : w < s.size) (h : s.worker w = .waiting)
    (hqueue : s.tasks.chan.queue ≠ []) : ∃ t, s.step (.take w) = some t := by
  have hready : s.tasks.chan.notEmpty = true := by simp [Channel.notEmpty, hqueue]
  simp only [step, h, hlt, if_true, ChannelRun.step, Channel.exec, hready]
  exact ⟨_, rfl⟩

/-- While a task is queued no worker has left, so one of them can go on. -/
theorem Inv.progress (hs : Inv capacity s) {w : ℕ} (hlt : w < s.size)
    (hqueue : s.tasks.chan.queue ≠ []) :
    ∃ op t, (op = .take w ∨ op = .finish w false) ∧ s.step op = some t := by
  cases hw : s.worker w with
  | waiting =>
    obtain ⟨t, ht⟩ := step_take hlt hw hqueue
    exact ⟨_, t, Or.inl rfl, ht⟩
  | running x => exact ⟨_, _, Or.inr rfl, step_finish hw false⟩
  | exited => exact absurd (hs.exited w hw).2 hqueue

end Results

/-- Tasks that were accepted run once, on one worker; tasks that were refused never run; no task
stops its worker; and the shutdown that closed the channel returns after the last of them. -/
theorem accepted_tasks_run_once {size capacity : ℕ} (hsize : 0 < size) {s : ThreadPool F}
    {ops : List (PoolOp F)} (hr : Transition.run step (create size capacity) ops = some s) :
    ((s.started.map fun p => p.2.call).Nodup ∧ (s.finished.map fun p => p.2.call).Nodup) ∧
      (∀ w x, (w, x) ∈ s.started → w < size ∧ x ∈ ChannelRun.accepted s.tasks.log) ∧
      (∀ x ∈ ChannelRun.rejected s.tasks.log, ∀ w, (w, x) ∉ s.started) ∧
      (∀ w x threw, s.worker w = .running x →
        ∃ t, s.step (.finish w threw) = some t ∧ t.worker w = .waiting) ∧
      (∀ w, s.worker w = .exited → s.tasks.chan.closed = true ∧ s.tasks.chan.queue = []) ∧
      (∀ x ∈ ChannelRun.accepted s.tasks.log, (∀ w, (w, x) ∉ s.finished) →
        ∃ w op t, w < size ∧ (op = .take w ∨ op = .finish w false) ∧ s.step op = some t) ∧
      (s.closer = .returned →
        ∀ x ∈ ChannelRun.accepted s.tasks.log, ∃ w, (w, x) ∈ s.finished) := by
  have hs : Inv capacity s :=
    Transition.invariant (Inv capacity) (fun h hs => hs.step h) (inv_create size capacity) hr
  obtain ⟨hsz, hrange⟩ : s.size = size ∧ ∀ p ∈ s.started, p.1 < size :=
    Transition.invariant (fun s : ThreadPool F => s.size = size ∧ ∀ p ∈ s.started, p.1 < size)
      step_inRange ⟨rfl, fun p hp => by cases hp⟩ hr
  refine ⟨⟨hs.started_nodup, hs.finished_calls_nodup⟩, ?_, ?_, ?_, hs.exited, ?_, ?_⟩
  · intro w x hmem
    exact ⟨hrange _ hmem, hs.accepted_of_started hmem⟩
  · intro x hrejected w hmem
    exact hs.channel.apart x hrejected x (hs.accepted_of_started hmem) rfl
  · intro w x threw hrunning
    refine ⟨_, step_finish hrunning threw, ?_⟩
    obtain ⟨-, -, -, -, -, hworkers⟩ := s.ended_frame w x threw
    rw [hworkers, setWorker_self]
  · intro x haccepted hunfinished
    rcases hs.accepted_cases haccepted with hqueued | ⟨w, hrunning | hfinished⟩
    · obtain ⟨op, t, hop, ht⟩ := hs.progress (hsz.symm ▸ hsize) (List.ne_nil_of_mem hqueued)
      exact ⟨0, op, t, hsize, hop, ht⟩
    · have hmem := (hs.running w x hrunning).1
      exact ⟨w, _, _, hrange _ hmem, Or.inr rfl, step_finish hrunning false⟩
    · exact absurd hfinished (hunfinished w)
  · intro hreturned x haccepted
    subst hsz
    exact hs.finished_of_drained (hs.drained_of_returned hsize hrange hreturned) haccepted

/-- A pool of two workers with room for one task: the third task is refused, the first throws,
and all is done when the shutdown returns. -/
theorem accepted_tasks_run_once_on_two_workers :
    ∃ s : ThreadPool ℕ, Transition.run step (create 2 1)
        [.spawn 10, .take 0, .spawn 20, .spawn 30, .shutdown, .finish 0 true, .close, .spawn 40,
          .take 1, .take 0, .finish 1 false, .take 1, .join, .join, .finishShutdown] = some s ∧
      s.closer = .returned ∧
      s.finished = [(0, ⟨0, .spawned 10⟩), (1, ⟨2, .spawned 20⟩)] ∧
      ∀ x ∈ ChannelRun.accepted s.tasks.log, ∃ w, (w, x) ∈ s.finished := by
  obtain ⟨s, hrun, hreturned, hfinished⟩ : ∃ s : ThreadPool ℕ, Transition.run step (create 2 1)
        [.spawn 10, .take 0, .spawn 20, .spawn 30, .shutdown, .finish 0 true, .close, .spawn 40,
          .take 1, .take 0, .finish 1 false, .take 1, .join, .join, .finishShutdown] = some s ∧
      s.closer = .returned ∧ s.finished = [(0, ⟨0, .spawned 10⟩), (1, ⟨2, .spawned 20⟩)] :=
    ⟨_, rfl, rfl, rfl⟩
  have hall := accepted_tasks_run_once (Nat.succ_pos 1) hrun
  exact ⟨s, hrun, hreturned, hfinished, hall.2.2.2.2.2.2 hreturned⟩

end ThreadPool
end RainRuntime
