import RainRuntime.Transition
import RainRuntime.Types

/-!
# The descriptor of a `File`

`File::open` hands the number it gets from the kernel through an `OwnedFd` to a `State` that the
`File` and its operations share. `files` are the variables of the program, `jobs` the operations
that were handed to the pool; a `State` is destroyed when neither holds it any more. The mutex of a
`State` makes each section one step. Other parts of the process open and close descriptors of their
own, so a number can be used again after its `close`.
-/

namespace RainRuntime.FileHandles

structure OwnedFd where
  fd : Option ℕ

namespace OwnedFd

def move (o : OwnedFd) : OwnedFd × OwnedFd := (⟨o.fd⟩, ⟨none⟩)

def release (o : OwnedFd) : Option ℕ × OwnedFd := (o.fd, ⟨none⟩)

def close (o : OwnedFd) : List ℕ × OwnedFd := (o.fd.toList, ⟨none⟩)

end OwnedFd

/-- From `open_fd` to the `State`: the number it gets, and those the destructors on the way
close. -/
def adopt (fd : ℕ) : Option ℕ × List ℕ :=
  let opened : OwnedFd := ⟨some fd⟩
  let moved := opened.move
  let released := moved.1.release
  (released.1, released.2.close.1 ++ moved.2.close.1)

inductive Owner where
  | file (sid : ℕ)
  | other
  deriving DecidableEq

inductive BlockingOp where
  | readAt
  | writeAt
  | writeStringAt
  | metadata
  deriving DecidableEq

/-- An operation with its copy of `state_`, which it holds until the closure is destroyed. -/
structure Job where
  op : BlockingOp
  state : Option ℕ
  held : Bool
  ran : Bool
  deriving DecidableEq

/-- `target` is whose descriptor the system call hits. -/
inductive Event where
  | opened (sid fd : ℕ)
  | closed (sid fd : ℕ) (target : Option Owner)
  | used (sid fd : ℕ) (target : Option Owner)
  | ran (state : Option ℕ) (result : Result ℕ)

/-- `fds` has the field `fd` of each `State`, by the order in which they were made. A variable
without a `File` is `none`, and one whose `File` was moved from is `some none`. -/
structure FileWorld where
  table : ℕ → Option Owner
  fds : List (Option ℕ)
  files : List (Option (Option ℕ))
  jobs : List Job
  log : List Event

def notOpen : SystemError := ⟨.badFileDescriptor, .text "file is not open"⟩

def isClosed : SystemError := ⟨.badFileDescriptor, .text "file is closed"⟩

namespace FileWorld

def init : FileWorld := ⟨fun _ => none, [], [], [], []⟩

def fdOf (s : FileWorld) (sid : ℕ) : Option ℕ := s.fds[sid]?.join

def Held (s : FileWorld) (sid : ℕ) : Prop :=
  some (some sid) ∈ s.files ∨ ∃ j ∈ s.jobs, j.held = true ∧ j.state = some sid

instance (s : FileWorld) (sid : ℕ) : Decidable (s.Held sid) :=
  inferInstanceAs (Decidable (_ ∨ _))

def sysClose (s : FileWorld) (sid fd : ℕ) : FileWorld :=
  { s with
    table := Function.update s.table fd none
    log := s.log ++ [.closed sid fd (s.table fd)] }

def closeState (s : FileWorld) (sid : ℕ) : FileWorld :=
  match s.fdOf sid with
  | none => s
  | some fd => { s with fds := s.fds.set sid none }.sysClose sid fd

def dropRef (s : FileWorld) (state : Option ℕ) : FileWorld :=
  match state with
  | none => s
  | some sid => if s.Held sid then s else s.closeState sid

def openFile (s : FileWorld) (fd : ℕ) : FileWorld :=
  let sid := s.fds.length
  let s := { s with
    table := Function.update s.table fd (some (.file sid))
    fds := s.fds ++ [(adopt fd).1]
    files := s.files ++ [some (some sid)]
    log := s.log ++ [.opened sid fd] }
  (adopt fd).2.foldl (fun s n => s.sysClose sid n) s

/-- The section of an operation, with the number of system calls it makes if it makes any and what
they lead to. -/
def runSection (s : FileWorld) (state : Option ℕ) (calls : ℕ) (answer : Result ℕ) : FileWorld :=
  match state with
  | none => { s with log := s.log ++ [.ran none (.error notOpen)] }
  | some sid =>
    match s.fdOf sid with
    | none => { s with log := s.log ++ [.ran state (.error isClosed)] }
    | some fd =>
      { s with
        log := s.log ++ List.replicate calls (.used sid fd (s.table fd)) ++ [.ran state answer] }

end FileWorld

inductive FileOp where
  | openFile (fd : ℕ)
  | start (op : BlockingOp) (f : ℕ)
  | runJob (j calls : ℕ) (answer : Result ℕ)
  | dropJob (j : ℕ)
  | close (f : ℕ)
  | valid (f : ℕ)
  | moveNew (src : ℕ)
  | moveInto (src dst : ℕ)
  | destroy (f : ℕ)
  | otherOpens (fd : ℕ)
  | otherCloses (fd : ℕ)

namespace FileWorld

def step (s : FileWorld) : FileOp → Option FileWorld
  | .openFile fd => if s.table fd = none then some (s.openFile fd) else none
  | .start op f =>
    match s.files[f]? with
    | some (some state) => some { s with jobs := s.jobs ++ [⟨op, state, true, false⟩] }
    | _ => none
  | .runJob j calls answer =>
    match s.jobs[j]? with
    | some job =>
      if job.held = true ∧ job.ran = false then
        some { s.runSection job.state calls answer with
          jobs := s.jobs.set j { job with ran := true } }
      else none
    | none => none
  | .dropJob j =>
    match s.jobs[j]? with
    | some job =>
      if job.held = true then
        some ({ s with jobs := s.jobs.set j { job with held := false } }.dropRef job.state)
      else none
    | none => none
  | .close f =>
    match s.files[f]? with
    | some (some (some sid)) => some (s.closeState sid)
    | some (some none) => some s
    | _ => none
  | .valid f =>
    match s.files[f]? with
    | some (some _) => some s
    | _ => none
  | .moveNew src =>
    match s.files[src]? with
    | some (some state) => some { s with files := s.files.set src (some none) ++ [some state] }
    | _ => none
  | .moveInto src dst =>
    match s.files[src]?, s.files[dst]? with
    | some (some state), some (some old) =>
      if src = dst then some s
      else some ({ s with
        files := (s.files.set src (some none)).set dst (some state) }.dropRef old)
    | _, _ => none
  | .destroy f =>
    match s.files[f]? with
    | some (some state) => some ({ s with files := s.files.set f none }.dropRef state)
    | _ => none
  | .otherOpens fd =>
    if s.table fd = none then some { s with table := Function.update s.table fd (some .other) }
    else none
  | .otherCloses fd =>
    if s.table fd = some .other then some { s with table := Function.update s.table fd none }
    else none

end FileWorld

/-! ## What the log says -/

def Then {ε : Type} (P Q : ε → Prop) (l : List ε) : Prop :=
  ∀ pre c post, l = pre ++ c :: post → P c → ∀ e ∈ post, Q e

theorem Then.concat {ε : Type} {P Q : ε → Prop} {l : List ε} (h : Then P Q l) {e : ε}
    (he : Q e ∨ ∀ c ∈ l, ¬P c) : Then P Q (l ++ [e]) := by
  intro pre c post hsplit hc d hd
  rcases List.eq_nil_or_concat post with rfl | ⟨post', x, rfl⟩
  · cases hd
  · rw [List.concat_eq_append, ← List.cons_append, ← List.append_assoc] at hsplit
    obtain ⟨hl, hx⟩ := List.append_inj' hsplit rfl
    rw [List.concat_eq_append, List.mem_append, List.mem_singleton] at hd
    rcases hd with hd | rfl
    · exact h pre c post' hl hc d hd
    · rcases he with he | he
      · rw [← List.singleton_inj.mp hx]
        exact he
      · exact absurd hc (he c (by simp [hl]))

def Event.closes (sid : ℕ) : Event → Bool
  | closed i _ _ => i = sid
  | _ => false

def Event.Quiet (sid : ℕ) : Event → Prop
  | used i _ _ => i ≠ sid
  | ran state result => state = some sid → ∃ m, result = .error ⟨.badFileDescriptor, m⟩
  | _ => True

def closeCount (sid : ℕ) (log : List Event) : ℕ := log.countP (Event.closes sid)

theorem not_closes_of_closeCount {sid : ℕ} {log : List Event} (h : closeCount sid log = 0) :
    ∀ c ∈ log, ¬c.closes sid :=
  List.countP_eq_zero.mp h

structure Ledger (s : FileWorld) : Prop where
  opened : ∀ sid fd, s.fdOf sid = some fd →
    s.table fd = some (.file sid) ∧ .opened sid fd ∈ s.log ∧ closeCount sid s.log = 0
  shut : ∀ sid < s.fds.length, s.fdOf sid = none →
    (∃ fd, .opened sid fd ∈ s.log) ∧ closeCount sid s.log = 1
  known : ∀ sid fd, .opened sid fd ∈ s.log → sid < s.fds.length
  hits : ∀ sid fd target, .used sid fd target ∈ s.log ∨ .closed sid fd target ∈ s.log →
    target = some (.file sid) ∧ .opened sid fd ∈ s.log
  unique : ∀ sid fd fd', .opened sid fd ∈ s.log → .opened sid fd' ∈ s.log → fd = fd'
  order : ∀ sid, Then (fun e => e.closes sid) (Event.Quiet sid) s.log

section Ledger
variable {s t : FileWorld}

theorem Ledger.congr (h : Ledger s) (htable : t.table = s.table) (hfds : t.fds = s.fds)
    (hlog : t.log = s.log) : Ledger t := by
  have hfd : ∀ sid, t.fdOf sid = s.fdOf sid := fun sid => by rw [FileWorld.fdOf, hfds]; rfl
  refine ⟨?_, ?_, ?_, ?_, ?_, ?_⟩
  · intro sid fd
    rw [hfd, htable, hlog]
    exact h.opened sid fd
  · intro sid
    rw [hfd, hfds, hlog]
    exact h.shut sid
  · rw [hfds, hlog]
    exact h.known
  · rw [hlog]
    exact h.hits
  · rw [hlog]
    exact h.unique
  · rw [hlog]
    exact h.order

theorem Ledger.retable (h : Ledger s) {fd : ℕ} {o : Option Owner}
    (hfree : ∀ sid, s.table fd ≠ some (.file sid)) :
    Ledger { s with table := Function.update s.table fd o } where
  opened sid n hn := by
    obtain ⟨htable, hrest⟩ := h.opened sid n hn
    refine ⟨?_, hrest⟩
    have hne : n ≠ fd := by
      rintro rfl
      exact hfree sid htable
    dsimp only
    rw [Function.update_of_ne hne]
    exact htable
  shut := h.shut
  known := h.known
  hits := h.hits
  unique := h.unique
  order := h.order

theorem Ledger.note (h : Ledger s) {e : Event} (hopen : ∀ sid fd, e ≠ .opened sid fd)
    (hclose : ∀ sid, ¬e.closes sid)
    (hused : ∀ sid fd target, e = .used sid fd target →
      s.fdOf sid = some fd ∧ target = some (.file sid))
    (hquiet : ∀ sid, e.Quiet sid ∨ closeCount sid s.log = 0) :
    Ledger { s with log := s.log ++ [e] } := by
  have hcount : ∀ sid, closeCount sid (s.log ++ [e]) = closeCount sid s.log := by
    intro sid
    rw [closeCount, List.countP_append, List.countP_singleton, if_neg (hclose sid)]
    rfl
  have hmem : ∀ sid fd, .opened sid fd ∈ s.log ++ [e] ↔ .opened sid fd ∈ s.log := by
    intro sid fd
    rw [List.mem_append, List.mem_singleton]
    exact ⟨fun h => h.resolve_right fun he => hopen sid fd he.symm, Or.inl⟩
  refine ⟨fun sid fd hfd => ?_, fun sid hlt hfd => ?_, fun sid fd ho => ?_,
    fun sid fd target hu => ?_, fun sid fd fd' h₁ h₂ => ?_, fun sid => ?_⟩
  · obtain ⟨htable, ho, hc⟩ := h.opened sid fd hfd
    exact ⟨htable, (hmem sid fd).mpr ho, (hcount sid).trans hc⟩
  · obtain ⟨⟨fd, ho⟩, hc⟩ := h.shut sid hlt hfd
    exact ⟨⟨fd, (hmem sid fd).mpr ho⟩, (hcount sid).trans hc⟩
  · exact h.known sid fd ((hmem sid fd).mp ho)
  · rw [hmem]
    simp only [List.mem_append, List.mem_singleton] at hu
    rcases hu with (hu | hu) | (hu | hu)
    · exact h.hits sid fd target (Or.inl hu)
    · obtain ⟨hfd, ht⟩ := hused sid fd target hu.symm
      exact ⟨ht, (h.opened sid fd hfd).2.1⟩
    · exact h.hits sid fd target (Or.inr hu)
    · exact absurd (by simp [← hu, Event.closes]) (hclose sid)
  · exact h.unique sid fd fd' ((hmem sid fd).mp h₁) ((hmem sid fd').mp h₂)
  · exact (h.order sid).concat ((hquiet sid).imp_right not_closes_of_closeCount)

theorem fdOf_set {fds : List (Option ℕ)} {i sid : ℕ} :
    (fds.set i none)[sid]?.join = if i = sid then none else fds[sid]?.join := by
  rw [List.getElem?_set]
  split
  · split <;> simp
  · rfl

theorem Ledger.closeState (h : Ledger s) (i : ℕ) : Ledger (s.closeState i) := by
  unfold FileWorld.closeState
  split
  · exact h
  · rename_i n hn
    obtain ⟨htable, hopened, hcount⟩ := h.opened i n hn
    have hlt : i < s.fds.length := h.known i n hopened
    have hfd : ∀ sid, (({ s with fds := s.fds.set i none }.sysClose i n).fdOf sid) =
        if i = sid then none else s.fdOf sid := fun sid => fdOf_set
    have hmem : ∀ sid fd, .opened sid fd ∈ s.log ++ [.closed i n (s.table n)] ↔
        .opened sid fd ∈ s.log := by simp
    have hcounts : ∀ sid, closeCount sid (s.log ++ [.closed i n (s.table n)]) =
        closeCount sid s.log + if i = sid then 1 else 0 := by
      intro sid
      rw [closeCount, List.countP_append, List.countP_singleton]
      simp [closeCount, Event.closes]
    refine ⟨fun sid fd hopen => ?_, fun sid hsid hnone => ?_, fun sid fd ho => ?_,
      fun sid fd target hu => ?_, fun sid fd fd' h₁ h₂ => ?_, fun sid => ?_⟩
    · rw [hfd] at hopen
      split at hopen
      · cases hopen
      · rename_i hne
        obtain ⟨ht, ho, hc⟩ := h.opened sid fd hopen
        have hfd : fd ≠ n := by
          rintro rfl
          rw [htable] at ht
          exact hne (Owner.file.inj (Option.some.inj ht))
        refine ⟨?_, (hmem sid fd).mpr ho, ?_⟩
        · exact (Function.update_of_ne hfd _ _).trans ht
        · exact (hcounts sid).trans (by rw [hc, if_neg hne])
    · have hlen : sid < s.fds.length := by
        simpa [FileWorld.sysClose] using hsid
      rw [hfd] at hnone
      by_cases hi : i = sid
      · subst hi
        exact ⟨⟨n, (hmem i n).mpr hopened⟩, (hcounts i).trans (by rw [hcount, if_pos rfl])⟩
      · rw [if_neg hi] at hnone
        obtain ⟨⟨fd, ho⟩, hc⟩ := h.shut sid hlen hnone
        exact ⟨⟨fd, (hmem sid fd).mpr ho⟩, (hcounts sid).trans (by rw [hc, if_neg hi])⟩
    · have := h.known sid fd ((hmem sid fd).mp ho)
      simpa [FileWorld.sysClose] using this
    · refine ⟨?_, (hmem sid fd).mpr ?_⟩
      all_goals
        simp only [FileWorld.sysClose, List.mem_append, List.mem_singleton, reduceCtorEq, or_false,
          Event.closed.injEq] at hu
        rcases hu with hu | hu | ⟨rfl, rfl, rfl⟩
      · exact (h.hits sid fd target (Or.inl hu)).1
      · exact (h.hits sid fd target (Or.inr hu)).1
      · exact htable
      · exact (h.hits sid fd target (Or.inl hu)).2
      · exact (h.hits sid fd target (Or.inr hu)).2
      · exact hopened
    · exact h.unique sid fd fd' ((hmem sid fd).mp h₁) ((hmem sid fd').mp h₂)
    · exact (h.order sid).concat (Or.inl trivial)

theorem Ledger.runSection (h : Ledger s) (state : Option ℕ) (calls : ℕ) (answer : Result ℕ) :
    Ledger (s.runSection state calls answer) := by
  unfold FileWorld.runSection
  split
  · refine h.note (fun _ _ he => by cases he) (fun _ he => by cases he)
      (fun _ _ _ he => by cases he) fun sid => ?_
    exact Or.inl fun he => by cases he
  · rename_i sid
    split
    · refine h.note (fun _ _ he => by cases he) (fun _ he => by cases he)
        (fun _ _ _ he => by cases he) fun _ => ?_
      exact Or.inl fun _ => ⟨_, rfl⟩
    · rename_i fd hfd
      have hopened := h.opened sid fd hfd
      have hused : Ledger { s with
          log := s.log ++ List.replicate calls (.used sid fd (s.table fd)) } := by
        induction calls with
        | zero => simpa using h
        | succ k ih =>
          rw [List.replicate_succ', ← List.append_assoc]
          refine ih.note (fun _ _ he => by cases he) (fun _ he => by cases he) (fun i n t he => ?_)
            fun i => ?_
          · cases he
            exact ⟨hfd, hopened.1⟩
          · by_cases hi : sid = i
            · subst hi
              exact Or.inr (ih.opened sid fd hfd).2.2
            · exact Or.inl hi
      refine hused.note (fun _ _ he => by cases he) (fun _ he => by cases he)
        (fun _ _ _ he => by cases he) fun i => ?_
      by_cases hi : sid = i
      · subst hi
        exact Or.inr (hused.opened sid fd hfd).2.2
      · exact Or.inl fun he => absurd (Option.some.inj he) hi

theorem Ledger.openFile (h : Ledger s) {fd : ℕ} (hfree : s.table fd = none) :
    Ledger (s.openFile fd) := by
  have hnew : ∀ n, .opened s.fds.length n ∉ s.log := fun n hn =>
    absurd (h.known _ n hn) (Nat.lt_irrefl _)
  have hnone : closeCount s.fds.length s.log = 0 := by
    refine List.countP_eq_zero.mpr fun e he hc => ?_
    cases e with
    | closed i n target =>
      have hi : i = s.fds.length := by simpa [Event.closes] using hc
      exact hnew n (hi ▸ (h.hits i n target (Or.inr he)).2)
    | _ => cases hc
  change Ledger ⟨Function.update s.table fd (some (.file s.fds.length)), s.fds ++ [some fd],
    s.files ++ [some (some s.fds.length)], s.jobs, s.log ++ [.opened s.fds.length fd]⟩
  have hfds : ∀ sid, (s.fds ++ [some fd])[sid]?.join =
      if sid = s.fds.length then some fd else s.fdOf sid := by
    intro sid
    rcases lt_trichotomy sid s.fds.length with hlt | rfl | hgt
    · rw [List.getElem?_append_left hlt, if_neg hlt.ne]
      rfl
    · rw [List.getElem?_concat_length, if_pos rfl]
      rfl
    · rw [if_neg hgt.ne', FileWorld.fdOf, List.getElem?_eq_none (by simp; omega),
        List.getElem?_eq_none hgt.le]
  have hcounts : ∀ sid, closeCount sid (s.log ++ [.opened s.fds.length fd]) =
      closeCount sid s.log := by
    intro sid
    rw [closeCount, List.countP_append]
    rfl
  have hmem : ∀ sid n, .opened sid n ∈ s.log ++ [.opened s.fds.length fd] ↔
      .opened sid n ∈ s.log ∨ (sid = s.fds.length ∧ n = fd) := by simp
  refine ⟨fun sid n hn => ?_, fun sid hlt hn => ?_, fun sid n ho => ?_, fun sid n target hu => ?_,
    fun sid n n' h₁ h₂ => ?_, fun sid => (h.order sid).concat (Or.inl trivial)⟩
  · rw [FileWorld.fdOf, hfds] at hn
    dsimp only
    rw [hmem, hcounts]
    split at hn
    · rename_i hsid
      subst hsid
      obtain rfl := Option.some.inj hn
      exact ⟨Function.update_self .., Or.inr ⟨rfl, rfl⟩, hnone⟩
    · obtain ⟨ht, ho, hc⟩ := h.opened sid n hn
      refine ⟨?_, Or.inl ho, hc⟩
      rw [Function.update_of_ne ?_]
      · exact ht
      · rintro rfl
        rw [hfree] at ht
        cases ht
  · rw [FileWorld.fdOf, hfds] at hn
    dsimp only at hlt ⊢
    rw [List.length_append, List.length_singleton] at hlt
    split at hn
    · cases hn
    · obtain ⟨⟨n, ho⟩, hc⟩ := h.shut sid (by omega) hn
      exact ⟨⟨n, (hmem sid n).mpr (Or.inl ho)⟩, (hcounts sid).trans hc⟩
  · dsimp only
    rw [List.length_append, List.length_singleton]
    rcases (hmem sid n).mp ho with ho | ⟨rfl, -⟩
    · exact Nat.lt_succ_of_lt (h.known sid n ho)
    · exact Nat.lt_succ_self _
  · simp only [List.mem_append, List.mem_singleton, reduceCtorEq, or_false] at hu
    obtain ⟨ht, ho⟩ := h.hits sid n target hu
    exact ⟨ht, (hmem sid n).mpr (Or.inl ho)⟩
  · rcases (hmem sid n).mp h₁ with hold | ⟨hsid, hn⟩ <;>
      rcases (hmem sid n').mp h₂ with hold' | ⟨hsid', hn'⟩
    · exact h.unique sid n n' hold hold'
    · exact absurd (hsid' ▸ hold) (hnew n)
    · exact absurd (hsid ▸ hold') (hnew n')
    · exact hn.trans hn'.symm

end Ledger

/-! ## Who holds a state -/

structure Holders (s : FileWorld) : Prop where
  known : ∀ sid, s.Held sid → sid < s.fds.length
  gone : ∀ sid, ¬s.Held sid → s.fdOf sid = none

section Holders
variable {s t : FileWorld}

theorem closeState_held (s : FileWorld) (i sid : ℕ) : (s.closeState i).Held sid ↔ s.Held sid := by
  unfold FileWorld.closeState
  split <;> exact Iff.rfl

theorem closeState_length (s : FileWorld) (i : ℕ) : (s.closeState i).fds.length = s.fds.length := by
  unfold FileWorld.closeState
  split
  · rfl
  · exact List.length_set

theorem closeState_fdOf (s : FileWorld) (i sid : ℕ) :
    (s.closeState i).fdOf sid = if i = sid then none else s.fdOf sid := by
  unfold FileWorld.closeState
  split
  · rename_i hnone
    split
    · rename_i hi
      rw [← hi, hnone]
    · rfl
  · exact fdOf_set

theorem Holders.closeState (h : Holders s) (i : ℕ) : Holders (s.closeState i) where
  known sid hsid := by
    rw [closeState_length]
    exact h.known sid ((closeState_held s i sid).mp hsid)
  gone sid hsid := by
    rw [closeState_fdOf]
    split
    · rfl
    · exact h.gone sid fun hheld => hsid ((closeState_held s i sid).mpr hheld)

theorem Holders.dropRef (h : Holders s) {state : Option ℕ} (hfds : t.fds = s.fds)
    (hless : ∀ sid, t.Held sid → s.Held sid)
    (hothers : ∀ sid, s.Held sid → t.Held sid ∨ state = some sid) : Holders (t.dropRef state) := by
  have hfd : ∀ sid, t.fdOf sid = s.fdOf sid := fun sid => by rw [FileWorld.fdOf, hfds]; rfl
  unfold FileWorld.dropRef
  split
  · refine ⟨fun sid hsid => hfds ▸ h.known sid (hless sid hsid), fun sid hsid => ?_⟩
    rw [hfd]
    exact h.gone sid fun hheld => (hothers sid hheld).elim hsid fun he => by cases he
  · rename_i i
    split
    · rename_i hheld
      refine ⟨fun sid hsid => hfds ▸ h.known sid (hless sid hsid), fun sid hsid => ?_⟩
      rw [hfd]
      refine h.gone sid fun hs => (hothers sid hs).elim hsid fun he => ?_
      exact hsid (Option.some.inj he ▸ hheld)
    · refine ⟨fun sid hsid => ?_, fun sid hsid => ?_⟩
      · rw [closeState_length, hfds]
        exact h.known sid (hless sid ((closeState_held t i sid).mp hsid))
      · rw [closeState_fdOf]
        split
        · rfl
        · rename_i hne
          rw [hfd]
          refine h.gone sid fun hs => (hothers sid hs).elim
            (fun ht => hsid ((closeState_held t i sid).mpr ht)) fun he => hne (Option.some.inj he)

theorem Holders.congr (h : Holders s) (hfds : t.fds = s.fds)
    (hheld : ∀ sid, t.Held sid ↔ s.Held sid) :
    Holders t where
  known sid hsid := hfds ▸ h.known sid ((hheld sid).mp hsid)
  gone sid hsid := by
    rw [FileWorld.fdOf, hfds]
    exact h.gone sid fun hs => hsid ((hheld sid).mpr hs)

end Holders

structure Inv (s : FileWorld) : Prop where
  ledger : Ledger s
  holders : Holders s

section Step
variable {s t : FileWorld}

theorem Ledger.dropRef (h : Ledger s) (state : Option ℕ) : Ledger (s.dropRef state) := by
  unfold FileWorld.dropRef
  split
  · exact h
  · split
    · exact h
    · exact h.closeState _

theorem held_iff (s : FileWorld) (sid : ℕ) :
    s.Held sid ↔ (∃ f : ℕ, s.files[f]? = some (some (some sid))) ∨
      ∃ (j : ℕ) (job : Job), s.jobs[j]? = some job ∧ job.held = true ∧ job.state = some sid := by
  refine or_congr List.mem_iff_getElem? ⟨?_, ?_⟩
  · rintro ⟨job, hmem, hjob⟩
    obtain ⟨j, hj⟩ := List.mem_iff_getElem?.mp hmem
    exact ⟨j, job, hj, hjob⟩
  · rintro ⟨j, job, hj, hjob⟩
    exact ⟨job, List.mem_of_getElem? hj, hjob⟩

theorem Inv.openFile (h : Inv s) {fd : ℕ} (hfree : s.table fd = none) : Inv (s.openFile fd) := by
  refine ⟨h.ledger.openFile hfree, ?_, ?_⟩
  · rintro sid (hfile | hjob)
    · change _ < (s.fds ++ [some fd]).length
      rw [List.length_append, List.length_singleton]
      rcases List.mem_append.mp hfile with hold | hnew
      · exact Nat.lt_succ_of_lt (h.holders.known sid (Or.inl hold))
      · cases List.mem_singleton.mp hnew
        exact Nat.lt_succ_self _
    · change _ < (s.fds ++ [some fd]).length
      rw [List.length_append]
      exact Nat.lt_add_right _ (h.holders.known sid (Or.inr hjob))
  · intro sid hsid
    have hold : ¬s.Held sid := by
      rintro (hfile | hjob)
      · exact hsid (Or.inl (List.mem_append_left _ hfile))
      · exact hsid (Or.inr hjob)
    have hne : sid ≠ s.fds.length := by
      rintro rfl
      exact hsid (Or.inl (List.mem_append_right _ (List.mem_singleton.mpr rfl)))
    change (s.fds ++ [some fd])[sid]?.join = none
    have hgone := h.holders.gone sid hold
    rw [FileWorld.fdOf] at hgone
    rcases lt_or_gt_of_ne hne with hlt | hgt
    · rw [List.getElem?_append_left hlt, hgone]
    · rw [List.getElem?_eq_none (by simp; omega)]
      rfl

theorem Inv.dropRef (h : Inv s) {state : Option ℕ} (htable : t.table = s.table)
    (hfds : t.fds = s.fds) (hlog : t.log = s.log) (hless : ∀ sid, t.Held sid → s.Held sid)
    (hothers : ∀ sid, s.Held sid → t.Held sid ∨ state = some sid) : Inv (t.dropRef state) :=
  ⟨(h.ledger.congr htable hfds hlog).dropRef state, h.holders.dropRef hfds hless hothers⟩

theorem Inv.dropJob (h : Inv s) {j : ℕ} {job : Job} (hj : s.jobs[j]? = some job) :
    Inv ({ s with jobs := s.jobs.set j { job with held := false } }.dropRef job.state) := by
  refine h.dropRef rfl rfl rfl ?_ ?_
  · intro sid hsid
    rw [held_iff] at hsid ⊢
    refine hsid.imp_right ?_
    rintro ⟨i, job', hi, hheld, hstate⟩
    dsimp only at hi
    rw [List.getElem?_set] at hi
    split at hi
    · split at hi
      · cases hi
        cases hheld
      · cases hi
    · exact ⟨i, job', hi, hheld, hstate⟩
  · intro sid hsid
    rw [held_iff] at hsid ⊢
    rcases hsid with hfile | ⟨i, job', hi, hheld, hstate⟩
    · exact Or.inl (Or.inl hfile)
    · by_cases hij : j = i
      · subst hij
        rw [hj] at hi
        cases hi
        exact Or.inr hstate
      · refine Or.inl (Or.inr ⟨i, job', ?_, hheld, hstate⟩)
        dsimp only
        rw [List.getElem?_set_ne hij]
        exact hi

theorem Inv.destroy (h : Inv s) {f : ℕ} {state : Option ℕ} (hf : s.files[f]? = some (some state)) :
    Inv ({ s with files := s.files.set f none }.dropRef state) := by
  refine h.dropRef rfl rfl rfl ?_ ?_
  · intro sid hsid
    rw [held_iff] at hsid ⊢
    refine hsid.imp_left ?_
    rintro ⟨i, hi⟩
    dsimp only at hi
    rw [List.getElem?_set] at hi
    split at hi
    · split at hi <;> cases hi
    · exact ⟨i, hi⟩
  · intro sid hsid
    rw [held_iff] at hsid ⊢
    rcases hsid with ⟨i, hi⟩ | hjob
    · by_cases hif : f = i
      · subst hif
        rw [hf] at hi
        cases hi
        exact Or.inr rfl
      · refine Or.inl (Or.inl ⟨i, ?_⟩)
        dsimp only
        rw [List.getElem?_set_ne hif]
        exact hi
    · exact Or.inl (Or.inr hjob)

theorem Inv.moveInto (h : Inv s) {src dst : ℕ} {state old : Option ℕ} (hne : src ≠ dst)
    (hsrc : s.files[src]? = some (some state)) (hdst : s.files[dst]? = some (some old)) :
    Inv ({ s with files := (s.files.set src (some none)).set dst (some state) }.dropRef old) := by
  have hlt : dst < s.files.length := (List.getElem?_eq_some_iff.mp hdst).1
  have hget : ∀ i, ((s.files.set src (some none)).set dst (some state))[i]? =
      if i = dst then some (some state) else if i = src then some (some none) else s.files[i]? := by
    intro i
    have hltsrc : src < s.files.length := (List.getElem?_eq_some_iff.mp hsrc).1
    by_cases hd : i = dst
    · subst hd
      rw [List.getElem?_set_self (by simpa using hlt), if_pos rfl]
    · rw [List.getElem?_set_ne (Ne.symm hd), if_neg hd]
      by_cases hs : i = src
      · subst hs
        rw [List.getElem?_set_self hltsrc, if_pos rfl]
      · rw [List.getElem?_set_ne (Ne.symm hs), if_neg hs]
  refine h.dropRef rfl rfl rfl ?_ ?_
  · intro sid hsid
    rw [held_iff] at hsid ⊢
    refine hsid.imp_left ?_
    rintro ⟨i, hi⟩
    dsimp only at hi
    rw [hget] at hi
    split at hi
    · cases hi
      exact ⟨src, hsrc⟩
    · split at hi
      · cases hi
      · exact ⟨i, hi⟩
  · intro sid hsid
    rw [held_iff] at hsid ⊢
    rcases hsid with ⟨i, hi⟩ | hjob
    · by_cases hd : i = dst
      · subst hd
        rw [hdst] at hi
        cases hi
        exact Or.inr rfl
      · by_cases hs : i = src
        · subst hs
          rw [hsrc] at hi
          cases hi
          refine Or.inl (Or.inl ⟨dst, ?_⟩)
          dsimp only
          rw [hget, if_pos rfl]
        · refine Or.inl (Or.inl ⟨i, ?_⟩)
          dsimp only
          rw [hget, if_neg hd, if_neg hs]
          exact hi
    · exact Or.inl (Or.inr hjob)

theorem Inv.moveNew (h : Inv s) {src : ℕ} {state : Option ℕ}
    (hsrc : s.files[src]? = some (some state)) :
    Inv { s with files := s.files.set src (some none) ++ [some state] } := by
  have hltsrc : src < s.files.length := (List.getElem?_eq_some_iff.mp hsrc).1
  refine ⟨h.ledger.congr rfl rfl rfl, h.holders.congr rfl fun sid => or_congr_left ?_⟩
  dsimp only
  rw [List.mem_append, List.mem_singleton, List.mem_iff_getElem?, List.mem_iff_getElem?]
  constructor
  · rintro (⟨i, hi⟩ | hnew)
    · rw [List.getElem?_set] at hi
      split at hi
      · cases hi
      · exact ⟨i, hi⟩
    · exact ⟨src, hnew ▸ hsrc⟩
  · rintro ⟨i, hi⟩
    by_cases hs : src = i
    · subst hs
      rw [hsrc] at hi
      exact Or.inr (Option.some.inj hi).symm
    · refine Or.inl ⟨i, ?_⟩
      rw [List.getElem?_set_ne hs]
      exact hi

theorem Inv.start (h : Inv s) {f : ℕ} {op : BlockingOp} {state : Option ℕ}
    (hf : s.files[f]? = some (some state)) :
    Inv { s with jobs := s.jobs ++ [⟨op, state, true, false⟩] } := by
  refine ⟨h.ledger.congr rfl rfl rfl, h.holders.congr rfl fun sid => ⟨?_, ?_⟩⟩
  · rintro (hfile | ⟨job, hmem, hheld, hstate⟩)
    · exact Or.inl hfile
    · rcases List.mem_append.mp hmem with hold | hnew
      · exact Or.inr ⟨job, hold, hheld, hstate⟩
      · cases List.mem_singleton.mp hnew
        dsimp only at hstate
        subst hstate
        exact Or.inl (List.mem_of_getElem? hf)
  · rintro (hfile | ⟨job, hmem, hjob⟩)
    · exact Or.inl hfile
    · exact Or.inr ⟨job, List.mem_append_left _ hmem, hjob⟩

theorem runSection_frame (s : FileWorld) (state : Option ℕ) (calls : ℕ) (answer : Result ℕ) :
    (s.runSection state calls answer).fds = s.fds ∧
      (s.runSection state calls answer).files = s.files := by
  unfold FileWorld.runSection
  split
  · exact ⟨rfl, rfl⟩
  · split <;> exact ⟨rfl, rfl⟩

theorem Inv.runJob (h : Inv s) {j calls : ℕ} {answer : Result ℕ} {job : Job}
    (hj : s.jobs[j]? = some job) :
    Inv { s.runSection job.state calls answer with
      jobs := s.jobs.set j { job with ran := true } } := by
  obtain ⟨hfds, hfiles⟩ := runSection_frame s job.state calls answer
  have hlt : j < s.jobs.length := (List.getElem?_eq_some_iff.mp hj).1
  refine ⟨(h.ledger.runSection job.state calls answer).congr rfl rfl rfl,
    h.holders.congr hfds fun sid => ?_⟩
  rw [held_iff, held_iff]
  refine or_congr (by rw [hfiles]) ⟨?_, ?_⟩
  · rintro ⟨i, job', hi, hjob⟩
    dsimp only at hi
    rw [List.getElem?_set] at hi
    split at hi
    · cases hi
      exact ⟨j, job, hj, hjob⟩
    · exact ⟨i, job', hi, hjob⟩
  · rintro ⟨i, job', hi, hjob⟩
    by_cases hij : j = i
    · subst hij
      rw [hj] at hi
      cases hi
      exact ⟨j, { job with ran := true }, List.getElem?_set_self hlt, hjob⟩
    · exact ⟨i, job', (List.getElem?_set_ne hij).trans hi, hjob⟩

theorem Inv.retable (h : Inv s) {fd : ℕ} {o : Option Owner}
    (hfree : ∀ sid, s.table fd ≠ some (.file sid)) :
    Inv { s with table := Function.update s.table fd o } :=
  ⟨h.ledger.retable hfree, h.holders.congr rfl fun _ => Iff.rfl⟩

theorem Inv.step (h : Inv s) {op : FileOp} (hstep : s.step op = some t) : Inv t := by
  cases op with
  | openFile fd =>
    rw [FileWorld.step, Option.ite_none_right_eq_some] at hstep
    obtain ⟨hfree, ht⟩ := hstep
    cases ht
    exact h.openFile hfree
  | start op f =>
    dsimp only [FileWorld.step] at hstep
    split at hstep
    · rename_i state hf
      cases hstep
      exact h.start hf
    · cases hstep
  | runJob j calls answer =>
    dsimp only [FileWorld.step] at hstep
    split at hstep
    · rename_i job hj
      rw [Option.ite_none_right_eq_some] at hstep
      cases hstep.2
      exact h.runJob hj
    · cases hstep
  | dropJob j =>
    dsimp only [FileWorld.step] at hstep
    split at hstep
    · rename_i job hj
      rw [Option.ite_none_right_eq_some] at hstep
      cases hstep.2
      exact h.dropJob hj
    · cases hstep
  | close f =>
    dsimp only [FileWorld.step] at hstep
    split at hstep
    · rename_i sid hf
      cases hstep
      exact ⟨h.ledger.closeState sid, h.holders.closeState sid⟩
    · cases hstep
      exact h
    · cases hstep
  | valid f =>
    dsimp only [FileWorld.step] at hstep
    split at hstep <;> cases hstep
    exact h
  | moveNew src =>
    dsimp only [FileWorld.step] at hstep
    split at hstep
    · rename_i state hsrc
      cases hstep
      exact h.moveNew hsrc
    · cases hstep
  | moveInto src dst =>
    dsimp only [FileWorld.step] at hstep
    split at hstep
    · rename_i state old hsrc hdst
      split at hstep
      · cases hstep
        exact h
      · rename_i hne
        cases hstep
        exact h.moveInto hne hsrc hdst
    · cases hstep
  | destroy f =>
    dsimp only [FileWorld.step] at hstep
    split at hstep
    · rename_i state hf
      cases hstep
      exact h.destroy hf
    · cases hstep
  | otherOpens fd =>
    rw [FileWorld.step, Option.ite_none_right_eq_some] at hstep
    obtain ⟨hfree, ht⟩ := hstep
    cases ht
    exact h.retable fun sid hs => by rw [hfree] at hs; cases hs
  | otherCloses fd =>
    rw [FileWorld.step, Option.ite_none_right_eq_some] at hstep
    obtain ⟨hother, ht⟩ := hstep
    cases ht
    exact h.retable fun sid hs => by rw [hother] at hs; cases hs

theorem inv_init : Inv FileWorld.init := by
  refine ⟨⟨fun sid fd hfd => ?_, fun sid hlt => ?_, fun sid fd ho => ?_, fun sid fd target hu => ?_,
    fun sid fd fd' ho => ?_, fun sid pre c post hsplit => ?_⟩, fun sid hsid => ?_, fun sid _ => ?_⟩
  · simp [FileWorld.fdOf, FileWorld.init] at hfd
  · cases hlt
  · cases ho
  · rcases hu with hu | hu <;> cases hu
  · cases ho
  · simp [FileWorld.init] at hsplit
  · simp [FileWorld.Held, FileWorld.init] at hsid
  · simp [FileWorld.fdOf, FileWorld.init]

end Step

/-- In every run, the number that a `State` got from `open` is closed at most once, and has been
closed once nobody holds the `State`. All its system calls hit the descriptor that was opened for
it. After the `close` there are none, and the operations that then get to run fail. -/
theorem descriptor_closed_once {ops : List FileOp} {s : FileWorld}
    (hrun : Transition.run FileWorld.step .init ops = some s) {sid : ℕ}
    (hsid : sid < s.fds.length) :
    ∃ fd, .opened sid fd ∈ s.log ∧ closeCount sid s.log ≤ 1 ∧
      (¬s.Held sid → closeCount sid s.log = 1) ∧
      (∀ n target, .used sid n target ∈ s.log ∨ .closed sid n target ∈ s.log →
        n = fd ∧ target = some (.file sid)) ∧
      ∀ pre n target post, s.log = pre ++ .closed sid n target :: post →
        (∀ m o, .used sid m o ∉ post) ∧
        ∀ result, .ran (some sid) result ∈ post → ∃ m, result = .error ⟨.badFileDescriptor, m⟩ := by
  have hinv : Inv s := Transition.invariant Inv (fun hstep h => h.step hstep) inv_init hrun
  have hopened : ∃ fd, .opened sid fd ∈ s.log ∧ closeCount sid s.log ≤ 1 := by
    cases hfd : s.fdOf sid with
    | some fd =>
      obtain ⟨-, ho, hc⟩ := hinv.ledger.opened sid fd hfd
      exact ⟨fd, ho, by omega⟩
    | none =>
      obtain ⟨⟨fd, ho⟩, hc⟩ := hinv.ledger.shut sid hsid hfd
      exact ⟨fd, ho, hc.le⟩
  obtain ⟨fd, ho, hc⟩ := hopened
  refine ⟨fd, ho, hc, fun hheld => ?_, fun n target hu => ?_, fun pre n target post hsplit => ?_⟩
  · exact (hinv.ledger.shut sid hsid (hinv.holders.gone sid hheld)).2
  · obtain ⟨ht, hn⟩ := hinv.ledger.hits sid n target hu
    exact ⟨hinv.ledger.unique sid n fd hn ho, ht⟩
  · have hthen := hinv.ledger.order sid pre (.closed sid n target) post hsplit
      (by simp [Event.closes])
    exact ⟨fun m o hmem => hthen _ hmem rfl, fun result hmem => hthen _ hmem rfl⟩

/-- The program closes a file while a read of it is queued, and the number is used again before the
read gets to run. -/
theorem descriptor_closed_once_on_late_read :
    ∃ s, Transition.run FileWorld.step .init
      [.openFile 3, .start .readAt 0, .close 0, .otherOpens 3,
        .runJob 0 1 (.ok 5), .destroy 0, .dropJob 0] = some s ∧
      s.log = [.opened 0 3, .closed 0 3 (some (.file 0)), .ran (some 0) (.error isClosed)] ∧
      closeCount 0 s.log ≤ 1 := by
  have hrun : Transition.run FileWorld.step .init
    [.openFile 3, .start .readAt 0, .close 0, .otherOpens 3,
      .runJob 0 1 (.ok 5), .destroy 0, .dropJob 0] = some _ := rfl
  refine ⟨_, hrun, rfl, ?_⟩
  obtain ⟨fd, -, hcount, -⟩ := descriptor_closed_once hrun (show 0 < _ by decide)
  exact hcount

end RainRuntime.FileHandles
