import RainRuntime.Custody
import RainRuntime.ReactorDispatch
import RainRuntime.Sockets

/-!
# Every socket has one holder

The numbers in the variables and in the frames of `connect` are the holders of a `Custody`, whose
rules every step obeys: the code opens a descriptor into one place, hands it on from one to
another, and closes what it holds and nothing else. The numbers in the local variables of a
function under way stand in a list of their own beside the state.
-/

namespace RainRuntime.Sockets

def Event.closedSocket : Event → Option ℕ
  | .closed _ target => target.join
  | _ => none

def Event.leakedSocket : Event → Option ℕ
  | .leaked _ target => target.join
  | _ => none

def Event.Sound : Event → Prop
  | .closed _ target => ∃ n, target = some (some n)
  | _ => True

def number (v : Option ℤ) : Option ℤ := v.filter (0 ≤ ·)

def Frame.number : Frame → Option ℤ
  | .connecting fd => some fd
  | _ => none

theorem filterMap_set_perm {α β : Type*} (f : α → Option β) {l : List α} {i : ℕ} {a : α}
    (h : l[i]? = some a) (b : α) :
    ((f b).toList ++ l.filterMap f).Perm ((f a).toList ++ (l.set i b).filterMap f) := by
  have hcons : ∀ c k, (c :: k).filterMap f = (f c).toList ++ k.filterMap f := by
    intro c k
    rw [List.filterMap_cons]
    cases f c <;> rfl
  induction l generalizing i with
  | nil => simp at h
  | cons c l ih =>
    cases i with
    | zero =>
      simp only [List.getElem?_cons_zero, Option.some.injEq] at h
      subst h
      rw [List.set_cons_zero, hcons, hcons]
      exact List.perm_append_comm_assoc ..
    | succ i =>
      rw [List.set_cons_succ, hcons, hcons]
      calc (f b).toList ++ ((f c).toList ++ l.filterMap f)
          |>.Perm ((f c).toList ++ ((f b).toList ++ l.filterMap f)) :=
          List.perm_append_comm_assoc ..
        _ |>.Perm ((f c).toList ++ ((f a).toList ++ (l.set i b).filterMap f)) :=
            (ih (by simpa using h)).append_left _
        _ |>.Perm ((f a).toList ++ ((f c).toList ++ (l.set i b).filterMap f)) :=
            List.perm_append_comm_assoc ..

theorem coe_filterMap_concat {α β : Type*} (f : α → Option β) (l : List α) (a : α) :
    (↑((l ++ [a]).filterMap f) : Multiset β) =
      (f a).elim ↑(l.filterMap f) (· ::ₘ ↑(l.filterMap f)) := by
  rw [List.filterMap_append]
  cases h : f a with
  | none => simp [h]
  | some b => simp [h]

namespace SocketWorld
variable {s t u : SocketWorld} {fd : ℤ} {e e' e'' : List ℤ}

def numbers (s : SocketWorld) : List ℤ :=
  s.vars.filterMap number ++ s.frames.filterMap Frame.number

def ledger (s : SocketWorld) (e : List ℤ) : Custody ℤ where
  names := s.files
  held := ↑(e ++ s.numbers)
  taken := s.opened
  released := ↑(s.log.filterMap Event.closedSocket)
  lost := ↑(s.log.filterMap Event.leakedSocket)

structure Moves (e : List ℤ) (s : SocketWorld) (e' : List ℤ) (t : SocketWorld) : Prop where
  leads : (s.ledger e).Leads (t.ledger e')
  sound : (s.ledger e).Inv → (∀ ev ∈ s.log, ev.Sound) → ∀ ev ∈ t.log, ev.Sound

theorem Moves.trans (h : Moves e s e' t) (h' : Moves e' t e'' u) : Moves e s e'' u where
  leads := h.leads.trans h'.leads
  sound hi hs := h'.sound (h.leads.inv hi) (h.sound hi hs)

theorem Moves.of_eq (h : t.ledger e' = s.ledger e)
    (hlog : ∀ ev ∈ t.log, ev ∈ s.log ∨ ev.Sound) : Moves e s e' t where
  leads := h ▸ .refl _
  sound _ hs ev hev := (hlog ev hev).elim (hs ev) id

theorem Moves.refl (e : List ℤ) (s : SocketWorld) : Moves e s e s :=
  .of_eq rfl fun _ => Or.inl

theorem withIo_moves (e : List ℤ) (s : SocketWorld) (io : IoState) :
    Moves e s e { s with io := io } :=
  .of_eq rfl fun _ => Or.inl

theorem mem_note {ev ev' : Event} (h : ev' ∈ (s.note ev).log) : ev' ∈ s.log ∨ ev' = ev := by
  simpa [note] using h

theorem note_moves (e : List ℤ) (s : SocketWorld) (ev : Event) (hc : ev.closedSocket = none)
    (hl : ev.leakedSocket = none) (hs : ev.Sound) : Moves e s e (s.note ev) := by
  refine .of_eq ?_ fun ev' hev => (mem_note hev).imp_right (by rintro rfl; exact hs)
  simp only [ledger, note, numbers, coe_filterMap_concat, hc, hl, Option.elim_none]

theorem sysOpen_moves (e : List ℤ) (hfd : s.files fd = none) :
    Moves e s (fd :: e) (s.sysOpen fd) where
  leads := Custody.leads_acquire (c := s.ledger e) (x := fd) hfd
  sound _ hs := hs

theorem sysClose_moves (e : List ℤ) (s : SocketWorld) (fd : ℤ) :
    Moves (fd :: e) s e (s.sysClose fd) := by
  have hmem : fd ∈ (s.ledger (fd :: e)).held := List.mem_cons_self
  refine ⟨?_, fun hi hs ev hev => ?_⟩
  · have hleads := Custody.leads_release hmem
    simp only [ledger, List.cons_append, ← Multiset.cons_coe, Multiset.erase_cons_head] at hleads
    simp only [ledger, sysClose, release, note, withOpen, numbers, coe_filterMap_concat,
      Event.closedSocket,
      Event.leakedSocket, Option.elim_none, List.cons_append, ← Multiset.cons_coe]
    exact hleads
  · rcases mem_note hev with hev | rfl
    · exact hs ev hev
    · exact hi.backed fd hmem

theorem ledger_congr (hfiles : t.files = s.files) (hopened : t.opened = s.opened)
    (hlog : t.log = s.log) (hnumbers : (e' ++ t.numbers).Perm (e ++ s.numbers)) :
    t.ledger e' = s.ledger e := by
  simp only [ledger, hfiles, hopened, hlog, Multiset.coe_eq_coe.mpr hnumbers]

theorem setVar_moves {v : ℕ} {o p : Option ℤ} (hv : s.vars[v]? = some o) (e : List ℤ) :
    Moves ((number p).toList ++ e) s ((number o).toList ++ e)
      { s with vars := s.vars.set v p } := by
  refine .of_eq (ledger_congr rfl rfl rfl (List.perm_iff_count.mpr fun x => ?_)) fun _ => Or.inl
  have hset := (filterMap_set_perm number hv p).count_eq x
  simp only [numbers, List.count_append] at hset ⊢
  omega

theorem setFrame_moves {f : ℕ} {a b : Frame} (hf : s.frames[f]? = some a) (e : List ℤ) :
    Moves (b.number.toList ++ e) s (a.number.toList ++ e)
      { s with frames := s.frames.set f b } := by
  refine .of_eq (ledger_congr rfl rfl rfl (List.perm_iff_count.mpr fun x => ?_)) fun _ => Or.inl
  have hset := (filterMap_set_perm Frame.number hf b).count_eq x
  simp only [numbers, List.count_append] at hset ⊢
  omega

theorem pushVar_moves (s : SocketWorld) (o : Option ℤ) (e : List ℤ) :
    Moves ((number o).toList ++ e) s e { s with vars := s.vars ++ [o] } := by
  refine .of_eq (ledger_congr rfl rfl rfl (List.perm_iff_count.mpr fun x => ?_)) fun _ => Or.inl
  have hlast : [o].filterMap number = (number o).toList := by
    cases h : number o <;> simp [h]
  simp only [numbers, List.filterMap_append, hlast, List.count_append]
  omega

theorem pushFrame_moves (s : SocketWorld) (a : Frame) (e : List ℤ) :
    Moves (a.number.toList ++ e) s e { s with frames := s.frames ++ [a] } := by
  refine .of_eq (ledger_congr rfl rfl rfl (List.perm_iff_count.mpr fun x => ?_)) fun _ => Or.inl
  have hlast : [a].filterMap Frame.number = a.number.toList := by
    cases h : a.number <;> simp [h]
  simp only [numbers, List.filterMap_append, hlast, List.count_append]
  omega

theorem number_of_neg (h : fd < 0) : number (some fd) = none := by
  rw [number, Option.filter_some, if_neg (by simpa using h)]

theorem number_of_nonneg (h : 0 ≤ fd) : number (some fd) = some fd := by
  rw [number, Option.filter_some, if_pos (decide_eq_true h)]

theorem hold_moves (s : SocketWorld) (hfd : 0 ≤ fd) (e : List ℤ) :
    Moves (fd :: e) s e (s.hold fd) := by
  have hpush := pushVar_moves s (some fd) e
  rwa [number_of_nonneg hfd] at hpush

theorem fromFd_moves (s : SocketWorld) (hfd : 0 ≤ fd) (a : FcntlCalls) (e : List ℤ) :
    Moves (fd :: e) s e (s.fromFd fd a).2 := by
  unfold fromFd
  cases ensureNonblocking a with
  | error err => exact sysClose_moves e s fd
  | ok _ => exact hold_moves s hfd e

theorem abandon_moves (s : SocketWorld) (fd : ℤ) (e : List ℤ) :
    Moves (fd :: e) s e (s.abandon fd) :=
  (withIo_moves _ s _).trans (sysClose_moves e _ fd)

theorem closeFd_of_neg (h : fd < 0) (answer : Option Errno) : (s.closeFd fd answer).2 = s := by
  rw [closeFd, if_pos h]

theorem closeFd_of_nonneg (h : ¬fd < 0) (answer : Option Errno) :
    (s.closeFd fd answer).2 = s.abandon fd := by
  rw [closeFd, if_neg h, abandon]

theorem closeFd_moves (s : SocketWorld) (fd : ℤ) (answer : Option Errno) (e : List ℤ) :
    Moves ((number (some fd)).toList ++ e) s e (s.closeFd fd answer).2 := by
  by_cases hfd : fd < 0
  · rw [closeFd_of_neg hfd, number_of_neg hfd]
    exact .refl e s
  · rw [closeFd_of_nonneg hfd, number_of_nonneg (by omega)]
    exact abandon_moves s fd e

theorem connect_moves {a : ConnectCalls} (ha : s.grants a.socket = true) (p : PendingEntry) :
    Moves [] s [] (s.connect a p).2 := by
  unfold connect
  cases hsock : a.socket with
  | error err => exact .refl [] s
  | ok fd =>
    rw [hsock, grants, decide_eq_true_iff] at ha
    refine (sysOpen_moves [] ha.2).trans ?_
    dsimp only
    cases a.connect with
    | none => exact fromFd_moves _ ha.1 a.fcntl []
    | some err =>
      dsimp only
      split_ifs with hprogress
      · exact sysClose_moves [] _ fd
      · split
        · exact (withIo_moves _ _ _).trans (pushFrame_moves _ (.connecting fd) [])
        · exact (withIo_moves _ _ _).trans (abandon_moves _ fd [])

theorem connectResumed_moves (s : SocketWorld) (hfd : 0 ≤ fd) (r : Result Unit) :
    Moves [fd] s [] (s.connectResumed fd r).2 := by
  cases r with
  | error err => exact abandon_moves s fd []
  | ok _ => exact hold_moves s hfd []

theorem bind_moves (opts : ListenOptions) {a : BindCalls} (ha : s.grants a.socket = true) :
    Moves [] s [] (s.bind opts a).2 := by
  unfold bind bindListenerSocket
  cases hsock : a.socket with
  | error err => exact .refl [] s
  | ok fd =>
    rw [hsock, grants, decide_eq_true_iff] at ha
    refine (sysOpen_moves [] ha.2).trans ?_
    dsimp only
    split
    · rename_i hcalls
      split at hcalls
      · cases hcalls
        exact sysClose_moves [] _ fd
      · cases hcalls
    · rename_i hcalls
      split at hcalls
      · cases hcalls
      · cases hcalls
        exact hold_moves _ ha.1 []

theorem takeConnection_moves (listener : ℕ) {conn : ℤ} (hconn : 0 ≤ conn ∧ s.files conn = none)
    (a : FcntlCalls) : Moves [] s [] (s.takeConnection listener conn a).2 := by
  refine (sysOpen_moves [] hconn.2).trans ?_
  unfold takeConnection
  dsimp only
  split_ifs
  · exact (note_moves _ _ (.dangling listener) rfl rfl trivial).trans (fromFd_moves _ hconn.1 a [])
  · exact fromFd_moves _ hconn.1 a []

theorem accept_moves (listener : ℕ) (fd : ℤ) {a : AcceptCalls} (ha : s.grants a.accept4 = true)
    (p : PendingEntry) : Moves [] s [] (s.accept listener fd a p).2 := by
  refine (note_moves [] s (.used fd (s.files fd) (s.files fd)) rfl rfl trivial).trans ?_
  unfold accept
  cases hacc : a.accept4 with
  | ok conn =>
    rw [hacc, grants, decide_eq_true_iff] at ha
    exact takeConnection_moves (s := s.note _) listener ha a.fcntl
  | error err =>
    dsimp only
    split
    · exact (withIo_moves _ _ _).trans (pushFrame_moves _ (.accepting listener fd _) [])
    · exact withIo_moves _ _ _

theorem acceptResumed_moves (listener : ℕ) (fd : ℤ) (started : File) (r : Result Unit)
    {a : AcceptCalls} (ha : s.grants a.accept4 = true) :
    Moves [] s [] (s.acceptResumed listener fd started r a).2 := by
  cases r with
  | error err => exact .refl [] s
  | ok _ =>
    refine (note_moves [] s (.used fd started (s.files fd)) rfl rfl trivial).trans ?_
    unfold acceptResumed
    cases hacc : a.accept4 with
    | error err => exact .refl _ _
    | ok conn =>
      rw [hacc, grants, decide_eq_true_iff] at ha
      exact takeConnection_moves (s := s.note _) listener ha a.fcntl

theorem endFrame_moves {f : ℕ} {a : Frame} (hf : s.frames[f]? = some a) (e : List ℤ) :
    Moves e s (a.number.toList ++ e) (s.endFrame f) :=
  setFrame_moves (b := .ended) hf e

theorem leak_moves (s : SocketWorld) (fd : ℤ) (e : List ℤ) :
    Moves (fd :: e) s e (s.note (.leaked fd (s.files fd))) := by
  have hmem : fd ∈ (s.ledger (fd :: e)).held := List.mem_cons_self
  refine ⟨?_, fun _ hs ev hev => (mem_note hev).elim (hs ev) (by rintro rfl; trivial)⟩
  have hleads := Custody.leads_lose hmem
  simp only [ledger, List.cons_append, ← Multiset.cons_coe, Multiset.erase_cons_head] at hleads
  simp only [ledger, note, numbers, coe_filterMap_concat, Event.closedSocket, Event.leakedSocket,
    Option.elim_none, List.cons_append, ← Multiset.cons_coe]
  exact hleads

theorem closeFd_withVars (s : SocketWorld) (vars : List (Option ℤ)) (fd : ℤ)
    (answer : Option Errno) : (({ s with vars := vars } : SocketWorld).closeFd fd answer).2 =
      { (s.closeFd fd answer).2 with vars := vars } := by
  by_cases hfd : fd < 0
  · rw [closeFd_of_neg hfd, closeFd_of_neg hfd]
  · rw [closeFd_of_nonneg hfd, closeFd_of_nonneg hfd]
    rfl

theorem closeFd_vars (s : SocketWorld) (fd : ℤ) (answer : Option Errno) :
    (s.closeFd fd answer).2.vars = s.vars := by
  by_cases hfd : fd < 0
  · rw [closeFd_of_neg hfd]
  · rw [closeFd_of_nonneg hfd]
    rfl

theorem shut_moves {v : ℕ} (hv : s.vars[v]? = some (some fd)) (answer : Option Errno)
    {o : Option ℤ} (ho : number o = none) :
    Moves [] s [] { (s.closeFd fd answer).2 with
      vars := (s.closeFd fd answer).2.vars.set v o } := by
  have hset := setVar_moves (p := o) hv []
  rw [ho] at hset
  have hclose := closeFd_moves { s with vars := s.vars.set v o } fd answer []
  rw [closeFd_withVars] at hclose
  rw [closeFd_vars]
  exact hset.trans hclose

theorem moveInto_moves {src dst : ℕ} {old : ℤ} (hsrc : s.vars[src]? = some (some fd))
    (hdst : s.vars[dst]? = some (some old)) (hne : src ≠ dst) (answer : Option Errno) :
    Moves [] s [] { (s.closeFd old answer).2 with
      vars := ((s.closeFd old answer).2.vars.set dst (some fd)).set src (some (-1)) } := by
  have hout := setVar_moves (p := some (-1)) hsrc []
  have hdst' : (s.vars.set src (some (-1)))[dst]? = some (some old) := by
    rw [List.getElem?_set_ne hne, hdst]
  have hin := setVar_moves (s := { s with vars := s.vars.set src (some (-1)) }) (p := some fd)
    hdst' []
  have hclose := closeFd_moves
    { s with vars := (s.vars.set src (some (-1))).set dst (some fd) } old answer []
  rw [closeFd_withVars] at hclose
  rw [closeFd_vars, List.set_comm _ _ hne.symm]
  exact (hout.trans hin).trans hclose

theorem mem_numbers_of_frame {f : ℕ} (hf : s.frames[f]? = some (.connecting fd)) :
    fd ∈ s.numbers :=
  List.mem_append_right _ (List.mem_filterMap.mpr ⟨_, List.mem_of_getElem? hf, rfl⟩)

/-- Every step obeys the rules of custody. Numbers that the kernel hands out are not negative. -/
theorem step_moves {op : SocketOp} (hneg : ∀ fd ∈ s.numbers, 0 ≤ fd) (h : s.step op = some t) :
    Moves [] s [] t := by
  cases op with
  | connect a p =>
    simp only [step] at h
    split_ifs at h with ha
    cases h
    exact connect_moves ha p
  | connectResumed f r =>
    simp only [step] at h
    split at h
    · rename_i fd hf
      cases h
      exact (endFrame_moves hf []).trans
        (connectResumed_moves _ (hneg fd (mem_numbers_of_frame hf)) r)
    · cases h
  | accept v a p =>
    simp only [step] at h
    split at h
    · split_ifs at h with ha
      cases h
      exact accept_moves v _ ha p
    · cases h
  | acceptResumed f r a =>
    simp only [step] at h
    split at h
    · rename_i v fd started hf
      split_ifs at h with ha
      cases h
      exact (endFrame_moves hf []).trans (acceptResumed_moves v fd started r ha)
    · cases h
  | start v =>
    simp only [step] at h
    split at h
    · cases h
      exact pushFrame_moves s (.transfer _ _) []
    · cases h
  | call f =>
    simp only [step] at h
    split at h
    · cases h
      exact note_moves [] s (.used _ _ _) rfl rfl trivial
    · cases h
  | wait f d p =>
    simp only [step] at h
    split at h
    · cases h
      cases d <;> exact withIo_moves [] s _
    · cases h
  | finish f =>
    simp only [step] at h
    split at h
    · rename_i hf
      cases h
      exact endFrame_moves hf []
    · cases h
  | destroyFrame f =>
    simp only [step] at h
    split at h
    · rename_i fd hf
      cases h
      exact (endFrame_moves hf []).trans (leak_moves _ fd [])
    · rename_i hf
      cases h
      exact endFrame_moves hf []
    · rename_i hf
      cases h
      exact endFrame_moves hf []
    · cases h
  | bind opts a =>
    simp only [step] at h
    split_ifs at h with ha
    cases h
    exact bind_moves opts ha
  | moveNew src =>
    simp only [step] at h
    split at h
    · rename_i fd hsrc
      cases h
      exact (setVar_moves (p := some (-1)) hsrc []).trans (pushVar_moves _ (some fd) [])
    · cases h
  | moveInto src dst answer =>
    simp only [step] at h
    split at h
    · rename_i fd old hsrc hdst
      split_ifs at h with hne
      · cases h
        exact .refl [] s
      · cases h
        exact moveInto_moves hsrc hdst hne answer
    · cases h
  | close v answer =>
    simp only [step] at h
    split at h
    · rename_i fd hv
      cases h
      exact shut_moves hv answer rfl
    · cases h
  | destroy v answer =>
    simp only [step] at h
    split at h
    · rename_i fd hv
      cases h
      exact shut_moves hv answer rfl
    · cases h
  | io op =>
    simp only [step] at h
    split_ifs at h
    obtain ⟨io, -, rfl⟩ := Option.map_eq_some_iff.mp h
    exact withIo_moves [] s io
  | otherOpens fd =>
    simp only [step] at h
    split_ifs at h with hfd
    cases h
    exact ⟨Custody.leads_lend (c := s.ledger []) hfd.2, fun _ hs => hs⟩
  | otherCloses fd =>
    simp only [step] at h
    split_ifs at h with hfd
    cases h
    exact ⟨Custody.leads_reclaim (c := s.ledger []) hfd, fun _ hs => hs⟩

/-! ## The kernel and the reactor -/

def Idle (fd : ℤ) (io : IoState) : Prop :=
  ∀ i : ℕ, (i : ℤ) = fd → ∀ d, (io.reactor.slotAt i).get d = none

/-- The numbers that stand for something are the open ones, and none of them is negative. If
`epoll_ctl` has no failures of its own, a waiter stands only on an open number. -/
structure Tidy (faultless : Prop) (s : SocketWorld) : Prop where
  isOpen : ∀ fd, s.io.kernel.isOpen fd = (s.files fd).isSome
  negative : ∀ fd < 0, s.files fd = none
  io : faultless → s.io.Sound

section Tidy
variable {nf : Prop}

theorem idle_of_closed {io : IoState} (h : io.Sound) (hfd : io.kernel.isOpen fd = false) :
    Idle fd io := by
  intro i hi d
  by_contra hne
  obtain ⟨hopen, -⟩ := h.armed i d (Option.isSome_iff_ne_none.mpr hne)
  rw [hi, hfd] at hopen
  cases hopen

theorem idle_remove {io : IoState} (h : io.Sound) (fd : ℤ) : Idle fd (io.remove fd).2 := by
  intro i hi d
  rcases (io.remove_cases fd).2 with ⟨⟨err, herr⟩, -⟩ | ⟨-, hslots⟩
  · exfalso
    revert herr
    unfold IoState.remove Kernel.epollCtl
    rw [h.noFault fd, if_neg (by omega)]
    split_ifs
    · simp
    · cases io.kernel.table fd <;> simp
  · rw [hslots, if_pos hi]
    exact FdEntry.get_idle d

theorem Tidy.congr (h : Tidy nf s) (hio : t.io = s.io) (hfiles : t.files = s.files) :
    Tidy nf t :=
  ⟨by rw [hio, hfiles]; exact h.isOpen, by rw [hfiles]; exact h.negative, by rw [hio]; exact h.io⟩

theorem Tidy.withIo (h : Tidy nf s) {io : IoState} (hopen : io.kernel.isOpen = s.io.kernel.isOpen)
    (hio : s.io.Sound → io.Sound) : Tidy nf { s with io := io } :=
  ⟨fun fd => by rw [hopen]; exact h.isOpen fd, h.negative, fun hnf => hio (h.io hnf)⟩

theorem Tidy.registerDir (h : Tidy nf s) (d : Direction) (fd : ℤ) (p : PendingEntry) :
    Tidy nf (s.registerDir d fd p) := by
  cases d with
  | read =>
    exact h.withIo (IoState.register_frame .read _ _ s.io fd p).isOpen
      fun hs => hs.register .read _ _ fd p
  | write =>
    exact h.withIo (IoState.register_frame .write _ _ s.io fd p).isOpen
      fun hs => hs.register .write _ _ fd p

theorem Tidy.withOpen (h : Tidy nf s) {f : File} (hneg : fd < 0 → f = none)
    (hidle : f = none → nf → Idle fd s.io) : Tidy nf (s.withOpen fd f) := by
  refine ⟨fun x => ?_, fun x hx => ?_, fun hnf => ⟨(h.io hnf).noFault, fun i d hd => ?_⟩⟩
  · by_cases hxf : x = fd
    · subst hxf
      simp [SocketWorld.withOpen]
    · simpa [SocketWorld.withOpen, hxf] using h.isOpen x
  · by_cases hxf : x = fd
    · subst hxf
      simpa [SocketWorld.withOpen] using hneg hx
    · simpa [SocketWorld.withOpen, hxf] using h.negative x hx
  · obtain ⟨hopen, harmed⟩ := (h.io hnf).armed i d hd
    refine ⟨?_, harmed⟩
    by_cases hi : (i : ℤ) = fd
    · have hsome : f ≠ none := by
        intro hf
        have hnone := hidle hf hnf i hi d
        have hd' : ((s.io.reactor.slotAt i).get d).isSome := hd
        rw [hnone] at hd'
        cases hd'
      simp [SocketWorld.withOpen, hi, Option.isSome_iff_ne_none, hsome]
    · simpa [SocketWorld.withOpen, hi] using hopen

theorem Tidy.sysOpen (h : Tidy nf s) (hfd : 0 ≤ fd) : Tidy nf (s.sysOpen fd) :=
  (h.withOpen (f := some (some s.opened)) (fun hneg => absurd hneg (by omega))
    (fun hf => by cases hf)).congr rfl rfl

theorem Tidy.idle (h : Tidy nf s) (hfd : s.files fd = none) (hnf : nf) : Idle fd s.io := by
  refine idle_of_closed (h.io hnf) ?_
  rw [h.isOpen, hfd]
  rfl

theorem Tidy.release (h : Tidy nf s) (hidle : nf → Idle fd s.io) : Tidy nf (s.release fd) := by
  have hclosed := h.withOpen (f := none) (fun _ => rfl) fun _ => hidle
  refine hclosed.withIo rfl fun hs => ⟨hs.noFault, fun i d hd => ?_⟩
  obtain ⟨hopen, harmed⟩ := hs.armed i d hd
  refine ⟨hopen, harmed.imp_right fun ha => ?_⟩
  have hne : (i : ℤ) ≠ fd := by
    intro hi
    rw [hi] at hopen
    simp [SocketWorld.withOpen] at hopen
  exact (Kernel.armedFor_setTable_of_ne hne none d).mpr ha

theorem Tidy.sysClose (h : Tidy nf s) (hidle : nf → Idle fd s.io) : Tidy nf (s.sysClose fd) :=
  (h.release hidle).congr rfl rfl

theorem Tidy.abandon (h : Tidy nf s) (fd : ℤ) : Tidy nf (s.abandon fd) :=
  (h.withIo (IoState.remove_frame s.io fd).isOpen fun hs => hs.remove fd).sysClose
    fun hnf => idle_remove (h.io hnf) fd

theorem Tidy.fromFd (h : Tidy nf s) (hidle : nf → Idle fd s.io) (a : FcntlCalls) :
    Tidy nf (s.fromFd fd a).2 := by
  unfold SocketWorld.fromFd
  cases ensureNonblocking a with
  | error err => exact h.sysClose hidle
  | ok _ => exact h.congr rfl rfl

theorem Tidy.connect (h : Tidy nf s) {a : ConnectCalls} (ha : s.grants a.socket = true)
    (p : PendingEntry) : Tidy nf (s.connect a p).2 := by
  unfold SocketWorld.connect
  cases hsock : a.socket with
  | error err => exact h
  | ok fd =>
    rw [hsock, grants, decide_eq_true_iff] at ha
    have hopen := h.sysOpen ha.1
    have hidle : nf → Idle fd (s.sysOpen fd).io := h.idle ha.2
    dsimp only
    cases a.connect with
    | none => exact hopen.fromFd hidle a.fcntl
    | some err =>
      dsimp only
      split_ifs with hprogress
      · exact hopen.sysClose hidle
      · have hreg := hopen.registerDir .write fd p
        split
        · exact hreg.congr rfl rfl
        · exact hreg.abandon fd

theorem Tidy.bind (h : Tidy nf s) (opts : ListenOptions) {a : BindCalls}
    (ha : s.grants a.socket = true) : Tidy nf (s.bind opts a).2 := by
  unfold SocketWorld.bind bindListenerSocket
  cases hsock : a.socket with
  | error err => exact h
  | ok fd =>
    rw [hsock, grants, decide_eq_true_iff] at ha
    have hopen := h.sysOpen ha.1
    dsimp only
    split
    · rename_i hcalls
      split at hcalls
      · cases hcalls
        exact hopen.sysClose (h.idle ha.2)
      · cases hcalls
    · rename_i hcalls
      split at hcalls
      · cases hcalls
      · cases hcalls
        exact hopen.congr rfl rfl

theorem Tidy.takeConnection (h : Tidy nf s) (listener : ℕ) {conn : ℤ}
    (hconn : 0 ≤ conn ∧ s.files conn = none) (a : FcntlCalls) :
    Tidy nf (s.takeConnection listener conn a).2 := by
  have hopen := h.sysOpen hconn.1
  unfold SocketWorld.takeConnection
  dsimp only
  split_ifs
  · have hnote : Tidy nf ((s.sysOpen conn).note (.dangling listener)) := hopen.congr rfl rfl
    exact hnote.fromFd (h.idle hconn.2) a
  · exact hopen.fromFd (h.idle hconn.2) a

theorem Tidy.accept (h : Tidy nf s) (listener : ℕ) (fd : ℤ) {a : AcceptCalls}
    (ha : s.grants a.accept4 = true) (p : PendingEntry) :
    Tidy nf (s.accept listener fd a p).2 := by
  have hnote : Tidy nf (s.note (.used fd (s.files fd) (s.files fd))) := h.congr rfl rfl
  unfold SocketWorld.accept
  cases hacc : a.accept4 with
  | ok conn =>
    rw [hacc, grants, decide_eq_true_iff] at ha
    exact hnote.takeConnection listener ha a.fcntl
  | error err =>
    have hreg := hnote.registerDir .read fd p
    dsimp only
    split
    · exact hreg.congr rfl rfl
    · exact hreg

theorem Tidy.acceptResumed (h : Tidy nf s) (listener : ℕ) (fd : ℤ) (started : File)
    (r : Result Unit) {a : AcceptCalls} (ha : s.grants a.accept4 = true) :
    Tidy nf (s.acceptResumed listener fd started r a).2 := by
  cases r with
  | error err => exact h
  | ok _ =>
    have hnote : Tidy nf (s.note (.used fd started (s.files fd))) := h.congr rfl rfl
    unfold SocketWorld.acceptResumed
    cases hacc : a.accept4 with
    | error err => exact hnote
    | ok conn =>
      rw [hacc, grants, decide_eq_true_iff] at ha
      exact hnote.takeConnection listener ha a.fcntl

theorem Tidy.closeFd (h : Tidy nf s) (fd : ℤ) (answer : Option Errno) :
    Tidy nf (s.closeFd fd answer).2 := by
  by_cases hfd : fd < 0
  · rw [closeFd_of_neg hfd]
    exact h
  · rw [closeFd_of_nonneg hfd]
    exact h.abandon fd

theorem ioStep_isOpen {io io' : IoState} {op : IoOp} (hop : s.admits op = true)
    (h : io.step op = some io') : io'.kernel.isOpen = io.kernel.isOpen := by
  cases op with
  | openFd fd | closeFd fd => cases hop
  | registerRead fd p =>
    cases h
    exact (IoState.register_frame .read _ _ io fd p).isOpen
  | registerWrite fd p =>
    cases h
    exact (IoState.register_frame .write _ _ io fd p).isOpen
  | deregister fd =>
    cases h
    rfl
  | deregisterDir fd dir =>
    cases h
    exact (IoState.deregisterDir_frame io fd dir).isOpen
  | remove fd =>
    cases h
    exact (IoState.remove_frame io fd).isOpen
  | poll report =>
    cases h
    exact (IoState.poll_frame io report).1
  | drainReady | heap m =>
    cases h
    rfl

/-- Another part of the process closes only numbers that epoll does not watch. -/
def Unwatched (s : SocketWorld) : SocketOp → Prop
  | .otherCloses fd => s.io.kernel.table fd = none
  | _ => True

theorem Tidy.step (h : Tidy nf s) {op : SocketOp} (hop : nf → s.Unwatched op)
    (hstep : s.step op = some t) : Tidy nf t := by
  cases op with
  | connect a p =>
    simp only [SocketWorld.step] at hstep
    split_ifs at hstep with ha
    cases hstep
    exact h.connect ha p
  | connectResumed f r =>
    simp only [SocketWorld.step] at hstep
    split at hstep
    · rename_i fd hf
      cases hstep
      have hend : Tidy nf (s.endFrame f) := h.congr rfl rfl
      cases r with
      | error err => exact hend.abandon fd
      | ok _ => exact hend.congr rfl rfl
    · cases hstep
  | accept v a p =>
    simp only [SocketWorld.step] at hstep
    split at hstep
    · split_ifs at hstep with ha
      cases hstep
      exact h.accept v _ ha p
    · cases hstep
  | acceptResumed f r a =>
    simp only [SocketWorld.step] at hstep
    split at hstep
    · rename_i v fd started hf
      split_ifs at hstep with ha
      cases hstep
      have hend : Tidy nf (s.endFrame f) := h.congr rfl rfl
      exact hend.acceptResumed v fd started r ha
    · cases hstep
  | wait f d p =>
    simp only [SocketWorld.step] at hstep
    split at hstep
    · cases hstep
      exact h.registerDir d _ p
    · cases hstep
  | bind opts a =>
    simp only [SocketWorld.step] at hstep
    split_ifs at hstep with ha
    cases hstep
    exact h.bind opts ha
  | start v | call f | finish f | moveNew src =>
    simp only [SocketWorld.step] at hstep
    split at hstep <;> cases hstep
    exact h.congr rfl rfl
  | destroyFrame f =>
    simp only [SocketWorld.step] at hstep
    split at hstep <;> cases hstep <;> exact h.congr rfl rfl
  | moveInto src dst answer =>
    simp only [SocketWorld.step] at hstep
    split at hstep
    · split_ifs at hstep <;> cases hstep
      · exact h
      · exact (h.closeFd _ answer).congr rfl rfl
    · cases hstep
  | close v answer | destroy v answer =>
    simp only [SocketWorld.step] at hstep
    split at hstep <;> cases hstep
    exact (h.closeFd _ answer).congr rfl rfl
  | io op =>
    simp only [SocketWorld.step] at hstep
    split_ifs at hstep with hadmits
    obtain ⟨io, hio, rfl⟩ := Option.map_eq_some_iff.mp hstep
    exact h.withIo (ioStep_isOpen hadmits hio) fun hs => hs.step hio
  | otherOpens fd =>
    simp only [SocketWorld.step] at hstep
    split_ifs at hstep with hfd
    cases hstep
    exact h.withOpen (fun hneg => absurd hneg (by omega)) (fun hf => by cases hf)
  | otherCloses fd =>
    simp only [SocketWorld.step] at hstep
    split_ifs at hstep with hfd
    cases hstep
    refine h.release fun hnf i hi d => ?_
    by_contra hne
    obtain ⟨-, harmed⟩ := (h.io hnf).armed i d (Option.isSome_iff_ne_none.mpr hne)
    obtain ⟨r, hr, -⟩ := harmed.resolve_left (by simp)
    rw [hi, show s.io.kernel.table fd = none from hop hnf] at hr
    cases hr

end Tidy

theorem init_tidy {k : Kernel} (hk : ∀ fd < 0, k.isOpen fd = false) (m : Heap) :
    Tidy k.NoFault (init k m) := by
  refine ⟨fun fd => ?_, fun fd hfd => ?_, fun hnf => IoState.fresh_sound hnf m⟩
  · simp only [init, IoState.fresh]
    cases k.isOpen fd <;> rfl
  · simp [init, hk fd hfd]

variable {k : Kernel} {m : Heap} {ops : List SocketOp}

theorem Reaches.tidy (h : Reaches k m ops s) (hk : ∀ fd < 0, k.isOpen fd = false)
    (hops : Transition.Guarded step Unwatched (init k m) ops) : Tidy k.NoFault s :=
  Transition.invariant_of_guarded Unwatched (Tidy k.NoFault)
    (fun hop hs ht => ht.step (fun _ => hop) hs) (init_tidy hk m) hops h

/-- The ledger of every reachable state, and the calls of `::close` so far. -/
structure Kept (s : SocketWorld) : Prop where
  inv : (s.ledger []).Inv
  sound : ∀ ev ∈ s.log, ev.Sound
  tidy : Tidy False s

theorem Kept.nonneg (h : Kept s) (hfd : fd ∈ s.numbers) : 0 ≤ fd := by
  obtain ⟨n, hn⟩ := h.inv.backed fd hfd
  by_contra hneg
  have hnone := h.tidy.negative fd (by omega)
  rw [show s.files fd = some (some n) from hn] at hnone
  cases hnone

theorem Kept.step (h : Kept s) {op : SocketOp} (hstep : s.step op = some t) : Kept t :=
  have hmoves := step_moves (fun _ => h.nonneg) hstep
  ⟨hmoves.leads.inv h.inv, hmoves.sound h.inv h.sound, h.tidy.step False.elim hstep⟩

theorem Reaches.kept (h : Reaches k m ops s) (hk : ∀ fd < 0, k.isOpen fd = false) : Kept s := by
  have htidy := init_tidy hk m
  have hinit : Kept (init k m) :=
    ⟨Custody.start_inv k.isOpen, by simp [init], ⟨htidy.isOpen, htidy.negative, False.elim⟩⟩
  exact Transition.invariant Kept (fun hs hi => hi.step hs) hinit h

def closes (s : SocketWorld) (n : ℕ) : ℕ := s.log.countP fun ev => ev.closedSocket = some n

def leaks (s : SocketWorld) (n : ℕ) : ℕ := s.log.countP fun ev => ev.leakedSocket = some n

def holders (s : SocketWorld) (n : ℕ) : ℕ := s.numbers.countP fun fd => s.files fd = some (some n)

theorem coe_filterMap_count {α : Type*} (f : α → Option ℕ) (l : List α) (n : ℕ) :
    (↑(l.filterMap f) : Multiset ℕ).count n = l.countP fun a => f a = some n := by
  rw [Multiset.coe_count, List.count_filterMap]
  exact List.countP_congr fun a _ => by simp

theorem Kept.balance (h : Kept s) {n : ℕ} (hn : n < s.opened) :
    s.closes n + s.leaks n + s.holders n = 1 := by
  have hbalance := h.inv.balance n hn
  have hholders : (s.ledger []).holders n = s.holders n := by
    rw [Custody.holders, ledger, List.nil_append, Multiset.count_map, holders,
      List.countP_eq_length_filter]
    simp only [Multiset.filter_coe, Multiset.coe_card, eq_comm]
  rw [hholders] at hbalance
  simp only [ledger, coe_filterMap_count] at hbalance
  exact hbalance

/-- At every moment each socket that was opened is held by one object or one frame of `connect`,
or it has been closed once, or it was lost with the frame that held it. What an object holds is an
open socket, and `::close` has never been called on anything else. Unless `epoll_ctl` fails or
another part of the process closes a number that epoll watches, nothing waits on a number that is
not open, so that the next socket with it starts afresh. -/
theorem sockets_have_one_holder (h : Reaches k m ops s) (hk : ∀ fd < 0, k.isOpen fd = false) :
    (∀ n < s.opened, s.closes n + s.leaks n + s.holders n = 1) ∧
    (∀ fd ∈ s.numbers, ∃ n < s.opened, s.files fd = some (some n)) ∧
    (∀ fd target, .closed fd target ∈ s.log → ∃ n, target = some (some n)) ∧
    (k.NoFault → Transition.Guarded step Unwatched (init k m) ops →
      ∀ i : ℕ, s.files i = none → s.io.reactor.slotAt i = FdEntry.idle) := by
  have hkept := h.kept hk
  refine ⟨fun n => hkept.balance, fun fd hfd => ?_,
    fun fd target hev => hkept.sound _ hev, fun hnf hops i hi => ?_⟩
  · obtain ⟨n, hn⟩ := hkept.inv.backed fd hfd
    exact ⟨n, (hkept.inv.taken_of_name fd n hn).1, hn⟩
  · have hidle := (h.tidy hk hops).idle hi hnf i rfl
    have hread : (s.io.reactor.slotAt i).read = none := hidle .read
    have hwrite : (s.io.reactor.slotAt i).write = none := hidle .write
    generalize s.io.reactor.slotAt i = entry at hread hwrite ⊢
    cases entry
    subst hread hwrite
    rfl

def closedKernel : Kernel := ⟨fun _ => false, fun _ => none, fun _ => none⟩

def idleHeap : Heap := ⟨fun _ => .pending, fun _ => .ok 0, fun _ => false⟩

def waiterOf (h : Handle) : PendingEntry := ⟨some h, none, none, .ready⟩

def nonblocking : FcntlCalls := ⟨.ok true, none⟩

def serveAndTearDown : List SocketOp :=
  [.bind {} ⟨.ok 3, none, none, none, none⟩,
    .accept 0 ⟨.error (.other 11), nonblocking⟩ (waiterOf 7),
    .acceptResumed 0 (.ok ()) ⟨.ok 4, nonblocking⟩,
    .connect ⟨.ok 5, some Errno.inProgress, nonblocking⟩ (waiterOf 8), .destroyFrame 1,
    .start 1, .wait 2 .read (waiterOf 9), .close 1 none]

theorem sockets_have_one_holder_on_teardown : ∃ s,
    Reaches closedKernel idleHeap serveAndTearDown s ∧ s.opened = 3 ∧
    (∀ n < 3, s.closes n + s.leaks n + s.holders n = 1) ∧ s.holders 0 = 1 ∧ s.closes 1 = 1 ∧
    s.leaks 2 = 1 ∧ s.io.reactor.slotAt 4 = FdEntry.idle := by
  obtain ⟨s, hs, hopened, hheld, hclosed, hleaked, hfile⟩ : ∃ s,
      Reaches closedKernel idleHeap serveAndTearDown s ∧ s.opened = 3 ∧ s.holders 0 = 1 ∧
      s.closes 1 = 1 ∧ s.leaks 2 = 1 ∧ s.files 4 = none := ⟨_, rfl, rfl, rfl, rfl, rfl, rfl⟩
  have hops : Transition.Guarded step Unwatched (init closedKernel idleHeap) serveAndTearDown :=
    Transition.guarded_of_forall (by simp [serveAndTearDown, Unwatched])
  obtain ⟨hbalance, -, -, hidle⟩ := sockets_have_one_holder hs fun _ _ => rfl
  rw [hopened] at hbalance
  exact ⟨s, hs, hopened, hbalance, hheld, hclosed, hleaked, hidle (fun _ => rfl) hops 4 hfile⟩

/-- Another part of the process closes a number that it has registered: the waiter stays. -/
example : ∃ s, Reaches closedKernel idleHeap
    [.otherOpens 6, .io (.registerRead 6 (waiterOf 7)), .otherCloses 6] s ∧ s.files 6 = none ∧
    (s.io.reactor.slotAt 6).read = some (waiterOf 7) := ⟨_, rfl, rfl, rfl⟩

end SocketWorld
end RainRuntime.Sockets
