import RainRuntime.SocketRuns

/-!
# Which socket an operation reaches

`accept` and the transfers copy the number of their object and go on using it after they have
suspended. As long as no object is closed while an operation on it is under way, each call they
make reaches the socket that they were started on. A call that comes later reaches whatever has
the number then.
-/

namespace RainRuntime.Sockets

def Frame.uses : Frame → Option (ℤ × File)
  | .accepting _ fd started => some (fd, started)
  | .transfer fd started => some (fd, started)
  | _ => none

def Frame.listener : Frame → Option ℕ
  | .accepting v _ _ => some v
  | _ => none

def Event.Proper : Event → Prop
  | .used _ started target => target = started
  | .dangling _ => False
  | _ => True

namespace SocketWorld
variable {s t u : SocketWorld} {fd : ℤ}

def Unused (s : SocketWorld) (v : ℕ) : Prop :=
  ∀ fd, s.vars[v]? = some (some fd) → 0 ≤ fd → ∀ f ∈ s.frames, ∀ started,
    f.uses ≠ some (fd, started)

/-- An object is closed, assigned to or destroyed only when no operation on it is under way. -/
def Undisturbed (s : SocketWorld) : SocketOp → Prop
  | .close v _ => s.Unused v
  | .destroy v _ => s.Unused v ∧ ∀ f ∈ s.frames, f.listener ≠ some v
  | .moveInto src dst _ => src ≠ dst → s.Unused dst
  | _ => True

structure InUse (s : SocketWorld) : Prop where
  files : ∀ f ∈ s.frames, ∀ fd started, f.uses = some (fd, started) →
    s.files fd = started ∧ (0 ≤ fd → some fd ∈ s.vars)
  listeners : ∀ f ∈ s.frames, ∀ v, f.listener = some v → s.vars[v]? ≠ some none
  log : ∀ ev ∈ s.log, ev.Proper

structure Beside (fd : ℤ) (s t : SocketWorld) : Prop where
  files : ∀ x ≠ fd, t.files x = s.files x
  vars : ∀ x, 0 ≤ x → x ≠ fd → some x ∈ s.vars → some x ∈ t.vars
  alive : ∀ v : ℕ, t.vars[v]? = some none → s.vars[v]? = some none
  frames : ∀ f ∈ t.frames, f ∈ s.frames ∨ f.uses = none ∧ f.listener = none
  log : ∀ ev ∈ t.log, ev ∈ s.log ∨ ev.Proper

theorem Beside.refl (fd : ℤ) (s : SocketWorld) : Beside fd s s :=
  ⟨fun _ _ => rfl, fun _ _ _ => id, fun _ => id, fun _ => Or.inl, fun _ => Or.inl⟩

theorem Beside.trans (h : Beside fd s t) (h' : Beside fd t u) : Beside fd s u where
  files x hx := (h'.files x hx).trans (h.files x hx)
  vars x h₀ hx hv := h'.vars x h₀ hx (h.vars x h₀ hx hv)
  alive v hv := h.alive v (h'.alive v hv)
  frames f hf := (h'.frames f hf).elim (h.frames f) Or.inr
  log ev hev := (h'.log ev hev).elim (h.log ev) Or.inr

theorem InUse.beside (h : InUse s) (hb : Beside fd s t)
    (hfree : ∀ f ∈ s.frames, ∀ started, f.uses ≠ some (fd, started)) : InUse t := by
  refine ⟨fun f hf x started hx => ?_, fun f hf v hv hnone => ?_,
    fun ev hev => (hb.log ev hev).elim (h.log ev) id⟩
  · rcases hb.frames f hf with hold | ⟨hnew, -⟩
    · obtain ⟨hfile, hvar⟩ := h.files f hold x started hx
      have hne : x ≠ fd := by
        rintro rfl
        exact hfree f hold started hx
      exact ⟨(hb.files x hne).trans hfile, fun h₀ => hb.vars x h₀ hne (hvar h₀)⟩
    · rw [hnew] at hx
      cases hx
  · rcases hb.frames f hf with hold | ⟨-, hnew⟩
    · exact h.listeners f hold v hv (hb.alive v hnone)
    · rw [hnew] at hv
      cases hv

theorem beside_withIo (fd : ℤ) (s : SocketWorld) (io : IoState) : Beside fd s { s with io := io } :=
  ⟨fun _ _ => rfl, fun _ _ _ => id, fun _ => id, fun _ => Or.inl, fun _ => Or.inl⟩

theorem beside_sysOpen (s : SocketWorld) (fd : ℤ) : Beside fd s (s.sysOpen fd) :=
  ⟨fun _ hx => Function.update_of_ne hx .., fun _ _ _ => id, fun _ => id, fun _ => Or.inl,
    fun _ => Or.inl⟩

theorem beside_sysClose (s : SocketWorld) (fd : ℤ) : Beside fd s (s.sysClose fd) :=
  ⟨fun _ hx => Function.update_of_ne hx .., fun _ _ _ => id, fun _ => id, fun _ => Or.inl,
    fun _ h => (mem_note h).imp_right (by rintro rfl; trivial)⟩

theorem beside_pushVar (fd : ℤ) (s : SocketWorld) (x : ℤ) :
    Beside fd s { s with vars := s.vars ++ [some x] } := by
  refine ⟨fun _ _ => rfl, fun _ _ _ => List.mem_append_left _, fun v hv => ?_, fun _ => Or.inl,
    fun _ => Or.inl⟩
  rw [List.getElem?_append] at hv
  split_ifs at hv
  · exact hv
  · rw [List.getElem?_singleton] at hv
    split_ifs at hv
    cases hv

theorem beside_abandon (s : SocketWorld) (fd : ℤ) : Beside fd s (s.abandon fd) :=
  (beside_withIo fd s _).trans (beside_sysClose _ fd)

theorem beside_fromFd (s : SocketWorld) (fd : ℤ) (a : FcntlCalls) :
    Beside fd s (s.fromFd fd a).2 := by
  unfold fromFd
  cases ensureNonblocking a with
  | error err => exact beside_sysClose s fd
  | ok _ => exact beside_pushVar fd s fd

theorem beside_connect (s : SocketWorld) {a : ConnectCalls} (hsock : a.socket = .ok fd)
    (p : PendingEntry) : Beside fd s (s.connect a p).2 := by
  unfold connect
  rw [hsock]
  refine (beside_sysOpen s fd).trans ?_
  dsimp only
  cases a.connect with
  | none => exact beside_fromFd _ fd a.fcntl
  | some err =>
    dsimp only
    split_ifs
    · exact beside_sysClose _ fd
    · have hreg := beside_withIo fd (s.sysOpen fd) ((s.sysOpen fd).io.registerWrite fd p).2
      split
      · refine hreg.trans ⟨fun _ _ => rfl, fun _ _ _ => id, fun _ => id, fun f hf => ?_,
          fun _ => Or.inl⟩
        rcases List.mem_append.mp hf with hf | hf
        · exact Or.inl hf
        · rw [List.mem_singleton] at hf
          subst hf
          exact Or.inr ⟨rfl, rfl⟩
      · exact hreg.trans (beside_abandon _ fd)

theorem beside_bind (s : SocketWorld) (opts : ListenOptions) {a : BindCalls}
    (hsock : a.socket = .ok fd) : Beside fd s (s.bind opts a).2 := by
  unfold bind bindListenerSocket
  rw [hsock]
  refine (beside_sysOpen s fd).trans ?_
  dsimp only
  split
  · rename_i hcalls
    split at hcalls
    · cases hcalls
      exact beside_sysClose _ fd
    · cases hcalls
  · rename_i hcalls
    split at hcalls
    · cases hcalls
    · cases hcalls
      exact beside_pushVar fd _ fd

theorem beside_takeConnection {listener : ℕ} (hlive : s.vars[listener]? ≠ some none) (conn : ℤ)
    (a : FcntlCalls) : Beside conn s (s.takeConnection listener conn a).2 := by
  refine (beside_sysOpen s conn).trans ?_
  unfold takeConnection
  dsimp only
  rw [if_neg (by exact hlive)]
  exact beside_fromFd _ conn a

theorem InUse.not_foreign (h : InUse s) (hkept : Kept s) {x : ℤ} (h₀ : 0 ≤ x)
    (hx : ∀ n, s.files x ≠ some (some n)) :
    ∀ f ∈ s.frames, ∀ started, f.uses ≠ some (x, started) := by
  intro f hf started huse
  obtain ⟨-, hvar⟩ := h.files f hf x started huse
  have hmem : x ∈ s.numbers := List.mem_append_left _
    (List.mem_filterMap.mpr ⟨some x, hvar h₀, number_of_nonneg h₀⟩)
  obtain ⟨n, hn⟩ := hkept.inv.backed x hmem
  exact hx n hn

theorem InUse.not_granted (h : InUse s) (hkept : Kept s) {x : ℤ} (hx : 0 ≤ x ∧ s.files x = none) :
    ∀ f ∈ s.frames, ∀ started, f.uses ≠ some (x, started) :=
  h.not_foreign hkept hx.1 (by simp [hx.2])

theorem InUse.not_connecting (h : InUse s) (hkept : Kept s) {i : ℕ}
    (hi : s.frames[i]? = some (.connecting fd)) :
    ∀ f ∈ s.frames, ∀ started, f.uses ≠ some (fd, started) := by
  intro f hf started huse
  have h₀ := hkept.nonneg (mem_numbers_of_frame hi)
  obtain ⟨-, hvar⟩ := h.files f hf fd started huse
  have hnodup : s.numbers.Nodup := hkept.inv.held_nodup
  refine (List.nodup_append.mp hnodup).2.2 fd ?_ fd ?_ rfl
  · exact List.mem_filterMap.mpr ⟨some fd, hvar h₀, number_of_nonneg h₀⟩
  · exact List.mem_filterMap.mpr ⟨_, List.mem_of_getElem? hi, rfl⟩

theorem InUse.endFrame (h : InUse s) (i : ℕ) : InUse (s.endFrame i) := by
  have hframe : ∀ f ∈ (s.endFrame i).frames, f ∈ s.frames ∨ f = .ended :=
    fun f hf => List.mem_or_eq_of_mem_set hf
  refine ⟨fun f hf fd started huse => ?_, fun f hf v hv => ?_, h.log⟩
  · rcases hframe f hf with hf | rfl
    · exact h.files f hf fd started huse
    · cases huse
  · rcases hframe f hf with hf | rfl
    · exact h.listeners f hf v hv
    · cases hv

theorem InUse.pushFrame (h : InUse s) {a : Frame} {v : ℕ} (hv : s.vars[v]? = some (some fd))
    (huse : a.uses = some (fd, s.files fd)) (hlistener : ∀ w, a.listener = some w → w = v) :
    InUse { s with frames := s.frames ++ [a] } := by
  refine ⟨fun f hf x started hx => ?_, fun f hf w hw => ?_, h.log⟩
  · rcases List.mem_append.mp hf with hf | hf
    · exact h.files f hf x started hx
    · rw [List.mem_singleton] at hf
      subst hf
      rw [huse] at hx
      cases hx
      exact ⟨rfl, fun _ => List.mem_of_getElem? hv⟩
  · rcases List.mem_append.mp hf with hf | hf
    · exact h.listeners f hf w hw
    · rw [List.mem_singleton] at hf
      subst hf
      rw [hlistener w hw, hv]
      simp

theorem InUse.withIo (h : InUse s) (io : IoState) : InUse { s with io := io } :=
  ⟨h.files, h.listeners, h.log⟩

theorem InUse.note (h : InUse s) (ev : Event) (hev : ev.Proper) : InUse (s.note ev) :=
  ⟨h.files, h.listeners, fun _ h' => (mem_note h').elim (h.log _) (by rintro rfl; exact hev)⟩

theorem InUse.accept (h : InUse s) (hkept : Kept s) {v : ℕ} (hv : s.vars[v]? = some (some fd))
    {a : AcceptCalls} (ha : s.grants a.accept4 = true) (p : PendingEntry) :
    InUse (s.accept v fd a p).2 := by
  have hnote := h.note (.used fd (s.files fd) (s.files fd)) rfl
  unfold SocketWorld.accept
  cases hacc : a.accept4 with
  | ok conn =>
    rw [hacc, grants, decide_eq_true_iff] at ha
    have hlive : (s.note (.used fd (s.files fd) (s.files fd))).vars[v]? ≠ some none := by
      rw [show (s.note _).vars[v]? = some (some fd) from hv]
      simp
    exact hnote.beside (beside_takeConnection hlive conn a.fcntl) (h.not_granted hkept ha)
  | error err =>
    dsimp only
    split
    · exact (hnote.withIo _).pushFrame hv rfl fun w hw => (Option.some.inj hw).symm
    · exact hnote.withIo _

theorem InUse.acceptResumed (h : InUse s) (hkept : Kept s) {i v : ℕ} {started : File}
    (hi : s.frames[i]? = some (.accepting v fd started)) (r : Result Unit) {a : AcceptCalls}
    (ha : s.grants a.accept4 = true) :
    InUse ((s.endFrame i).acceptResumed v fd started r a).2 := by
  have hmem := List.mem_of_getElem? hi
  have hend := h.endFrame i
  cases r with
  | error err => exact hend
  | ok _ =>
    have hfile := (h.files _ hmem fd started rfl).1
    have hnote := hend.note (.used fd started (s.files fd)) hfile
    unfold SocketWorld.acceptResumed
    cases hacc : a.accept4 with
    | error err => exact hnote
    | ok conn =>
      rw [hacc, grants, decide_eq_true_iff] at ha
      have hlive : (s.endFrame i).vars[v]? ≠ some none := h.listeners _ hmem v rfl
      refine hnote.beside (beside_takeConnection (s := (s.endFrame i).note _) hlive conn a.fcntl) ?_
      intro f hf started' huse
      rcases List.mem_or_eq_of_mem_set hf with hf | rfl
      · exact h.not_granted hkept ha f hf started' huse
      · cases huse

theorem InUse.connectResumed (h : InUse s) (hkept : Kept s) {i : ℕ}
    (hi : s.frames[i]? = some (.connecting fd)) (r : Result Unit) :
    InUse ((s.endFrame i).connectResumed fd r).2 := by
  have hbeside : Beside fd (s.endFrame i) ((s.endFrame i).connectResumed fd r).2 := by
    cases r with
    | error err => exact beside_abandon _ fd
    | ok _ => exact beside_pushVar fd _ fd
  refine (h.endFrame i).beside hbeside fun f hf started huse => ?_
  rcases List.mem_or_eq_of_mem_set hf with hf | rfl
  · exact h.not_connecting hkept hi f hf started huse
  · cases huse

theorem beside_closeFd (s : SocketWorld) (fd : ℤ) (answer : Option Errno) :
    Beside fd s (s.closeFd fd answer).2 := by
  by_cases hfd : fd < 0
  · rw [closeFd_of_neg hfd]
    exact .refl fd s
  · rw [closeFd_of_nonneg hfd]
    exact beside_abandon s fd

theorem InUse.withVars (h : InUse s) {vars : List (Option ℤ)}
    (hvars : ∀ f ∈ s.frames, ∀ fd started, f.uses = some (fd, started) → 0 ≤ fd →
      some fd ∈ s.vars → some fd ∈ vars)
    (halive : ∀ f ∈ s.frames, ∀ v, f.listener = some v → s.vars[v]? ≠ some none →
      vars[v]? ≠ some none) : InUse { s with vars := vars } where
  files f hf fd started huse :=
    have hold := h.files f hf fd started huse
    ⟨hold.1, fun h₀ => hvars f hf fd started huse h₀ (hold.2 h₀)⟩
  listeners f hf v hv := halive f hf v hv (h.listeners f hf v hv)
  log := h.log

theorem mem_set_of_ne {l : List (Option ℤ)} {v : ℕ} {o p : Option ℤ} {x : ℤ}
    (hv : l[v]? = some o) (hne : o ≠ some x) (hx : some x ∈ l) : some x ∈ l.set v p := by
  obtain ⟨w, hw⟩ := List.getElem?_of_mem hx
  have hwv : v ≠ w := by
    rintro rfl
    rw [hv] at hw
    exact hne (Option.some.inj hw)
  refine List.mem_of_getElem? (i := w) ?_
  rw [List.getElem?_set_ne hwv, hw]

theorem set_ne_none {l : List (Option ℤ)} {v w : ℕ} {x : ℤ} (h : l[w]? ≠ some none) :
    (l.set v (some x))[w]? ≠ some none := by
  rw [List.getElem?_set]
  split_ifs
  · simp
  · simp
  · exact h

theorem InUse.closeFd (h : InUse s) {v : ℕ} (hv : s.vars[v]? = some (some fd)) (hun : s.Unused v)
    (answer : Option Errno) : InUse (s.closeFd fd answer).2 := by
  by_cases hfd : fd < 0
  · rw [closeFd_of_neg hfd]
    exact h
  · exact h.beside (beside_closeFd s fd answer) (hun fd hv (by omega))

theorem closeFd_frames (s : SocketWorld) (fd : ℤ) (answer : Option Errno) :
    (s.closeFd fd answer).2.frames = s.frames := by
  by_cases hfd : fd < 0
  · rw [closeFd_of_neg hfd]
  · rw [closeFd_of_nonneg hfd]
    rfl

theorem Unused.ne {v : ℕ} (hun : s.Unused v) (hv : s.vars[v]? = some (some fd)) {f : Frame}
    (hf : f ∈ s.frames) {x : ℤ} {started : File} (huse : f.uses = some (x, started))
    (hx : 0 ≤ x) : (some fd : Option ℤ) ≠ some x := by
  rintro heq
  cases heq
  exact hun fd hv hx f hf started huse

theorem InUse.step (h : InUse s) (hkept : Kept s) {op : SocketOp} (hop : s.Undisturbed op)
    (hstep : s.step op = some t) : InUse t := by
  cases op with
  | connect a p =>
    simp only [SocketWorld.step] at hstep
    split_ifs at hstep with ha
    cases hstep
    cases hsock : a.socket with
    | error err =>
      rw [connect, hsock]
      exact h
    | ok fd =>
      rw [hsock, grants, decide_eq_true_iff] at ha
      exact h.beside (beside_connect s hsock p) (h.not_granted hkept ha)
  | bind opts a =>
    simp only [SocketWorld.step] at hstep
    split_ifs at hstep with ha
    cases hstep
    cases hsock : a.socket with
    | error err =>
      rw [bind, bindListenerSocket, hsock]
      exact h
    | ok fd =>
      rw [hsock, grants, decide_eq_true_iff] at ha
      exact h.beside (beside_bind s opts hsock) (h.not_granted hkept ha)
  | connectResumed f r =>
    simp only [SocketWorld.step] at hstep
    split at hstep <;> cases hstep
    exact h.connectResumed hkept ‹_› r
  | accept v a p =>
    simp only [SocketWorld.step] at hstep
    split at hstep
    · split_ifs at hstep with ha
      cases hstep
      exact h.accept hkept ‹_› ha p
    · cases hstep
  | acceptResumed f r a =>
    simp only [SocketWorld.step] at hstep
    split at hstep
    · split_ifs at hstep with ha
      cases hstep
      exact h.acceptResumed hkept ‹_› r ha
    · cases hstep
  | start v =>
    simp only [SocketWorld.step] at hstep
    split at hstep <;> cases hstep
    exact h.pushFrame ‹_› rfl fun w hw => (by cases hw)
  | call f =>
    simp only [SocketWorld.step] at hstep
    split at hstep <;> cases hstep
    rename_i fd started hf
    exact h.note _ (h.files _ (List.mem_of_getElem? hf) fd started rfl).1
  | wait f d p =>
    simp only [SocketWorld.step] at hstep
    split at hstep <;> cases hstep
    cases d <;> exact h.withIo _
  | finish f =>
    simp only [SocketWorld.step] at hstep
    split at hstep <;> cases hstep
    exact h.endFrame f
  | destroyFrame f =>
    simp only [SocketWorld.step] at hstep
    split at hstep <;> cases hstep
    · exact (h.endFrame f).note _ trivial
    · exact h.endFrame f
    · exact h.endFrame f
  | moveNew src =>
    simp only [SocketWorld.step] at hstep
    split at hstep <;> cases hstep
    rename_i fd hsrc
    refine h.withVars (fun f hf x started huse h₀ hx => ?_) fun f hf v hv halive => ?_
    · by_cases hxf : x = fd
      · exact List.mem_append_right _ (by rw [hxf]; exact List.mem_singleton_self _)
      · exact List.mem_append_left _ (mem_set_of_ne hsrc (by simpa [eq_comm] using hxf) hx)
    · rw [List.getElem?_append]
      split_ifs
      · exact set_ne_none halive
      · rw [List.getElem?_singleton]
        split_ifs <;> simp
  | moveInto src dst answer =>
    simp only [SocketWorld.step] at hstep
    split at hstep
    · rename_i fd old hsrc hdst
      split_ifs at hstep with hne
      · cases hstep
        exact h
      · cases hstep
        have hun := hop hne
        refine (h.closeFd hdst hun answer).withVars (fun f hf x started huse h₀ hx => ?_)
          fun f hf v hv halive => ?_
        · rw [closeFd_frames] at hf
          rw [closeFd_vars] at hx ⊢
          by_cases hxf : x = fd
          · subst hxf
            refine List.mem_of_getElem? (i := dst) ?_
            rw [List.getElem?_set_ne hne, List.getElem?_set_self]
            exact (List.getElem?_eq_some_iff.mp hdst).1
          · have hold := mem_set_of_ne (p := some fd) hdst (hun.ne hdst hf huse h₀) hx
            have hsrc' : (s.vars.set dst (some fd))[src]? = some (some fd) := by
              rw [List.getElem?_set_ne (Ne.symm hne), hsrc]
            exact mem_set_of_ne hsrc' (by simpa [eq_comm] using hxf) hold
        · exact set_ne_none (set_ne_none halive)
    · cases hstep
  | close v answer =>
    simp only [SocketWorld.step] at hstep
    split at hstep <;> cases hstep
    rename_i fd hv
    refine (h.closeFd hv hop answer).withVars (fun f hf x started huse h₀ hx => ?_)
      fun f hf w hw halive => set_ne_none halive
    rw [closeFd_frames] at hf
    rw [closeFd_vars] at hx ⊢
    exact mem_set_of_ne hv (hop.ne hv hf huse h₀) hx
  | destroy v answer =>
    simp only [SocketWorld.step] at hstep
    split at hstep <;> cases hstep
    rename_i fd hv
    refine (h.closeFd hv hop.1 answer).withVars (fun f hf x started huse h₀ hx => ?_)
      fun f hf w hw halive => ?_
    · rw [closeFd_frames] at hf
      rw [closeFd_vars] at hx ⊢
      exact mem_set_of_ne hv (hop.1.ne hv hf huse h₀) hx
    · rw [closeFd_frames] at hf
      have hwv : v ≠ w := by
        rintro rfl
        exact hop.2 f hf hw
      rw [List.getElem?_set_ne hwv]
      exact halive
  | io op =>
    simp only [SocketWorld.step] at hstep
    split_ifs at hstep
    obtain ⟨io, -, rfl⟩ := Option.map_eq_some_iff.mp hstep
    exact h.withIo io
  | otherOpens fd =>
    simp only [SocketWorld.step] at hstep
    split_ifs at hstep with hfd
    cases hstep
    refine h.beside ⟨fun _ hx => Function.update_of_ne hx .., fun _ _ _ => id,
      fun _ => id, fun _ => Or.inl, fun _ => Or.inl⟩ (h.not_granted hkept hfd)
  | otherCloses fd =>
    simp only [SocketWorld.step] at hstep
    split_ifs at hstep with hfd
    cases hstep
    refine h.beside ⟨fun _ hx => Function.update_of_ne hx .., fun _ _ _ => id,
      fun _ => id, fun _ => Or.inl, fun _ => Or.inl⟩ ?_
    have h₀ : 0 ≤ fd := by
      by_contra hneg
      rw [hkept.tidy.negative fd (by omega)] at hfd
      cases hfd
    exact h.not_foreign hkept h₀ (by simp [hfd])

variable {k : Kernel} {m : Heap} {ops : List SocketOp}

/-- If no object is closed, assigned to or destroyed while an operation on it is under way, then
every call of `accept` and of the transfers reaches the socket that the operation was started on,
and `accept` never reads a listener that is gone. -/
theorem calls_reach_own_socket (h : Reaches k m ops s) (hk : ∀ fd < 0, k.isOpen fd = false)
    (hops : Transition.Guarded step Undisturbed (init k m) ops) :
    (∀ fd started target, .used fd started target ∈ s.log → target = started) ∧
      ∀ v, .dangling v ∉ s.log := by
  have hstart : Reaches k m [] (init k m) := rfl
  have hinit : Kept (init k m) ∧ InUse (init k m) :=
    ⟨hstart.kept hk, by simp [init], by simp [init], by simp [init]⟩
  have hs := Transition.invariant_of_guarded Undisturbed (fun u => Kept u ∧ InUse u)
    (fun hop hstep hu => ⟨hu.1.step hstep, hu.2.step hu.1 hop hstep⟩) hinit hops h
  exact ⟨fun fd started target hev => hs.2.log _ hev, fun v hev => hs.2.log _ hev⟩

/-- The second connection gets the number of the first. -/
def readOnTwo : List SocketOp :=
  [.connect ⟨.ok 3, none, nonblocking⟩ (waiterOf 7), .start 0, .call 0, .finish 0, .close 0 none,
    .connect ⟨.ok 3, none, nonblocking⟩ (waiterOf 8), .start 1, .call 1]

theorem calls_reach_own_socket_on_two : ∃ s,
    Reaches closedKernel idleHeap readOnTwo s ∧
    .used 3 (some (some 0)) (some (some 0)) ∈ s.log ∧
    .used 3 (some (some 1)) (some (some 1)) ∈ s.log ∧
    ∀ fd started target, .used fd started target ∈ s.log → target = started := by
  obtain ⟨s, hs, hlog⟩ : ∃ s, Reaches closedKernel idleHeap readOnTwo s ∧
      s.log = [.used 3 (some (some 0)) (some (some 0)), .closed 3 (some (some 0)),
        .used 3 (some (some 1)) (some (some 1))] := ⟨_, rfl, rfl⟩
  have hops : Transition.Guarded step Undisturbed (init closedKernel idleHeap) readOnTwo := by
    refine ⟨trivial, fun t ht => ?_⟩
    cases ht
    refine ⟨trivial, fun t ht => ?_⟩
    cases ht
    refine ⟨trivial, fun t ht => ?_⟩
    cases ht
    refine ⟨trivial, fun t ht => ?_⟩
    cases ht
    refine ⟨fun fd _ _ f hf started => ?_, fun t _ =>
      Transition.guarded_of_forall (by simp [Undisturbed])⟩
    rw [List.mem_singleton.mp hf]
    simp [Frame.uses]
  exact ⟨s, hs, by simp [hlog], by simp [hlog], (calls_reach_own_socket hs (fun _ _ => rfl) hops).1⟩

def closeThenCall : List SocketOp :=
  [.connect ⟨.ok 3, none, nonblocking⟩ (waiterOf 7), .start 0, .close 0 none,
    .connect ⟨.ok 3, none, nonblocking⟩ (waiterOf 8), .call 0]

theorem late_call_reaches_next_socket : ∃ s,
    Reaches closedKernel idleHeap closeThenCall s ∧
    .used 3 (some (some 0)) (some (some 1)) ∈ s.log :=
  ⟨_, rfl, List.mem_cons_of_mem _ List.mem_cons_self⟩

end SocketWorld
end RainRuntime.Sockets
