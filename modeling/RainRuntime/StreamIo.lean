import RainRuntime.Awaiters
import RainRuntime.Scripted

/-!
# The stream operations of the network layer

The operations run on a script. An entry of it answers the next system call or ends the next wait,
whichever the operation comes to. A count is cut to what the call can transfer. Clock readings
come from a sequence of their own, since the timed operations take more of them than the plain
ones. Time points and durations are 64-bit counts, and sums of them wrap.
-/

namespace RainRuntime
open Scripted

def Errno.again : Errno := .other 11

/-- What `await_resume` of the readiness awaiters makes of the state and the result it finds. -/
def WaitKind.settle (kind : WaitKind) (state : WaitState) (readiness : Result ℕ) : Result ℕ :=
  match kind, state with
  | kind, .cancelled => .error kind.cancelledError
  | .timedReady d _, .timedOut => .error (WaitKind.timeoutError d)
  | _, _ => readiness.map fun _ => 0

theorem World.awaitResume_settle (s : World) (a : Awaiter) (sys : Except Errno ℕ)
    (hkind : a.kind = .readReady ∨ a.kind = .writeReady ∨
      ∃ d timeout, a.kind = .timedReady d timeout) :
    (s.awaitResume a sys).1 = a.kind.settle (s.heap.state a.cell) (s.heap.result a.cell) := by
  rcases hkind with hk | hk | ⟨d, timeout, hk⟩ <;>
  cases hstate : s.heap.state a.cell <;> cases hres : s.heap.result a.cell <;>
  simp [World.awaitResume, WaitKind.settle, WaitKind.whenReady, hk, hstate, hres, Except.map]

namespace StreamIo

inductive Request where
  | read (fd : ℤ) (len : ℕ)
  | write (fd : ℤ) (bytes : List UInt8)
  | sendfile (fd inFd : ℤ) (offset count : ℕ)
  deriving DecidableEq

namespace Request

def bytes (file : List UInt8) : Request → List UInt8
  | read _ _ => []
  | write _ bytes => bytes
  | sendfile _ _ offset count => (file.drop offset).take count

def limit (file : List UInt8) : Request → ℕ
  | read _ len => len
  | r => (r.bytes file).length

end Request

structure Call where
  request : Request
  reply : Except Errno ℕ

/-- The entries of the log: a system call, a comparison with a deadline, the state found after a
wait, and the timeout that a timed operation is entered with. -/
inductive Entry where
  | called (c : Call)
  | checked (now deadline : ℤ)
  | woken (state : WaitState)
  | entered (timeout : ℤ)

def Entry.call? : Entry → Option Call
  | called c => some c
  | _ => none

/-- `offset` is the variable that `sendfile` gets by address. -/
structure Net where
  clock : ℕ → Fin (2 ^ 63)
  readings : ℕ
  timer : Bool
  file : List UInt8
  offset : ℕ
  log : List Entry

namespace Net

def note (s : Net) (e : Entry) : Net := { s with log := s.log ++ [e] }

def calls (s : Net) : List Call := s.log.filterMap Entry.call?

theorem calls_note (s : Net) (e : Entry) : (s.note e).calls = s.calls ++ e.call?.toList := by
  cases e <;> simp [calls, note, Entry.call?]

end Net

structure Event where
  reply : Except Errno ℕ
  state : WaitState
  readiness : Result ℕ

abbrev Io := Prog Net Event

def now : Io ℤ := do
  let t ← view fun s : Net => ((s.clock s.readings : ℕ) : ℤ)
  update fun s => { s with readings := s.readings + 1 }
  pure t

def perform (req : Request) : Io (Except Errno ℕ) := do
  let e ← ask
  let limit ← view fun s : Net => req.limit s.file
  let reply := e.reply.map fun n => min n limit
  update fun s => s.note (.called ⟨req, reply⟩)
  pure reply

def sendfile (fd inFd : ℤ) (count : ℕ) : Io (Except Errno ℕ) := do
  let offset ← view Net.offset
  match ← perform (.sendfile fd inFd offset count) with
  | .ok n => do
    update fun s => { s with offset := offset + n }
    pure (.ok n)
  | .error e => pure (.error e)

def awaitReady (kind : WaitKind) : Io (Result ℕ) := do
  let e ← ask
  update fun s => s.note (.woken e.state)
  pure (kind.settle e.state e.readiness)

def awaitTimed (d : Direction) (timeout : ℤ) : Io (Result ℕ) :=
  if timeout ≤ 0 then do
    -- `await_suspend` does not suspend
    update fun s => s.note (.woken .timedOut)
    pure (.error (WaitKind.timeoutError d))
  else awaitReady (.timedReady d timeout)

def within (deadline : ℤ) (expired : String) (inner : ℤ → Io (Result ℕ)) : Io (Result ℕ) := do
  let t ← now
  update fun s => s.note (.checked t deadline)
  if deadline ≤ t then pure (.error ⟨.timedOut, .text expired⟩)
  else inner (wrap64 (deadline - t))

/-- What the `some` operations do with the answer of a call: `EINTR` repeats it, `EAGAIN` waits
before that. -/
def onReply (wait : Io (Result ℕ)) : Except Errno ℕ → Io (Unit ⊕ Result ℕ)
  | .ok n => pure (.inr (.ok n))
  | .error e =>
    if e = .intr then pure (.inl ())
    else if e = .again then do
      match ← wait with
      | .error e => pure (.inr (.error e))
      | .ok _ => pure (.inl ())
    else pure (.inr (.error (SystemError.fromErrno e)))

def transferSome (issue : Io (Except Errno ℕ)) (wait : Io (Result ℕ)) : Io (Result ℕ) :=
  forever (fun _ : Unit => issue >>= onReply wait) ()

def transferSomeWithTimeout (plain : Io (Result ℕ)) (issue : Io (Except Errno ℕ)) (d : Direction)
    (noTimer expired : String) (timeout : ℤ) : Io (Result ℕ) := do
  update fun s => s.note (.entered timeout)
  if timeout ≤ 0 then plain
  else do
    let timer ← view Net.timer
    if timer then do
      let start ← now
      transferSome issue (within (wrap64 (start + timeout)) expired (awaitTimed d))
    else pure (.error ⟨.operationNotPermitted, .text noTimer⟩)

def readSome (fd : ℤ) (len : ℕ) : Io (Result ℕ) :=
  transferSome (perform (.read fd len)) (awaitReady .readReady)

def readSomeWithTimeout (fd : ℤ) (len : ℕ) (timeout : ℤ) : Io (Result ℕ) :=
  transferSomeWithTimeout (readSome fd len) (perform (.read fd len)) .read
    "read_with_timeout requires event loop timer" "read timeout" timeout

def writeSome (fd : ℤ) (bytes : List UInt8) : Io (Result ℕ) :=
  transferSome (perform (.write fd bytes)) (awaitReady .writeReady)

def writeSomeWithTimeout (fd : ℤ) (bytes : List UInt8) (timeout : ℤ) : Io (Result ℕ) :=
  transferSomeWithTimeout (writeSome fd bytes) (perform (.write fd bytes)) .write
    "write_with_timeout requires event loop timer" "write timeout" timeout

def sendFileSome (fd inFd : ℤ) (count : ℕ) : Io (Result ℕ) :=
  transferSome (sendfile fd inFd count) (awaitReady .writeReady)

def sendFileSomeWithTimeout (fd inFd : ℤ) (count : ℕ) (timeout : ℤ) : Io (Result ℕ) :=
  transferSomeWithTimeout (sendFileSome fd inFd count) (sendfile fd inFd count) .write
    "send_file_with_timeout requires event loop timer" "sendfile timeout" timeout

def onPiece (closed : SystemError) (total : ℕ) : Result ℕ → Io (ℕ ⊕ Result ℕ)
  | .error e => pure (.inr (.error e))
  | .ok n => if n = 0 then pure (.inr (.error closed)) else pure (.inl (total + n))

def transferAll (count : ℕ) (closed : SystemError) (piece : ℕ → Io (Result ℕ)) : Io (Result ℕ) :=
  forever (fun total =>
    if total < count then piece total >>= onPiece closed total else pure (.inr (.ok total))) 0

def writeAll (fd : ℤ) (data : List UInt8) : Io (Result ℕ) :=
  transferAll data.length ⟨.brokenPipe, .text "write_all: connection closed"⟩ fun total =>
    writeSome fd (data.drop total)

def writeAllWithTimeout (fd : ℤ) (data : List UInt8) (timeout : ℤ) : Io (Result ℕ) := do
  update fun s => s.note (.entered timeout)
  if timeout ≤ 0 then writeAll fd data
  else do
    let start ← now
    transferAll data.length ⟨.brokenPipe, .text "write_all_with_timeout: connection closed"⟩
      fun total => within (wrap64 (start + timeout)) "write_all timeout"
        (writeSomeWithTimeout fd (data.drop total))

def sendFileAllWithTimeout (fd inFd : ℤ) (offset count : ℕ) (timeout : ℤ) : Io (Result ℕ) := do
  -- the parameter is passed by value and lent to the calls
  update fun s => { s with offset := offset }
  let start ← now
  transferAll count ⟨.ioError, .text "sendfile reached EOF before requested byte count"⟩
    fun total =>
    if 0 < timeout then
      within (wrap64 (start + timeout)) "sendfile timeout"
        (sendFileSomeWithTimeout fd inFd (count - total))
    else sendFileSome fd inFd (count - total)

/-! ## Rules -/

/-- `P` does not depend on the entries in `quiet`, nor on how often the clock was read. -/
structure Frame (quiet : Entry → Prop) (P : Net → Prop) : Prop where
  note : ∀ s e, quiet e → P s → P (s.note e)
  tick : ∀ s, P s → P { s with readings := s.readings + 1 }

def Reading (P : Net → Prop) (t : ℤ) : Prop := ∃ s, P s ∧ t = ((s.clock s.readings : ℕ) : ℤ)

theorem Reading.nonneg {P : Net → Prop} {t : ℤ} (h : Reading P t) : 0 ≤ t := by
  obtain ⟨s, -, rfl⟩ := h
  omega

def After {ε : Type} (failed : ε → Net → Prop) (moved : ℕ → Net → Prop) :
    Except ε ℕ → Net → Prop
  | .error e => failed e
  | .ok n => moved n

section Rules
variable {quiet : Entry → Prop} {P R : Net → Prop} {Q : Result ℕ → Net → Prop}

theorem Frame.now (hP : Frame quiet P) : Triple P now (fun t s => P s ∧ Reading P t) R :=
  Triple.bind (M := fun t s => P s ∧ Reading P t) (.view fun s hs => ⟨hs, s, hs, rfl⟩) fun t =>
    Triple.bind (M := fun _ s => P s ∧ Reading P t) (.update fun s hs => ⟨hP.tick s hs.1, hs.2⟩)
      fun _ => .pure fun _ hs => hs

theorem Frame.awaitReady (hP : Frame quiet P) (hw : ∀ st, quiet (.woken st)) (kind : WaitKind) :
    Triple P (awaitReady kind) (fun _ => P) P :=
  .bind (M := fun _ => P) (.ask (fun _ _ hs => hs) fun _ hs => hs) fun _ =>
    .bind (M := fun _ => P) (.update fun s hs => hP.note s _ (hw _) hs) fun _ => .pure
      fun _ hs => hs

theorem Frame.awaitTimed (hP : Frame quiet P) (hw : ∀ st, quiet (.woken st)) (d : Direction)
    (timeout : ℤ) : Triple P (awaitTimed d timeout) (fun _ => P) P := by
  unfold StreamIo.awaitTimed
  split
  · exact .bind (M := fun _ => P) (.update fun s hs => hP.note s _ (hw _) hs)
      fun _ => .pure fun _ hs => hs
  · exact hP.awaitReady hw _

theorem Frame.within (hP : Frame quiet P) {deadline : ℤ} {expired : String}
    {inner : ℤ → Io (Result ℕ)} (hd : deadline < 2 ^ 63)
    (hc : ∀ t, Reading P t → quiet (.checked t deadline))
    (hexpired : ∀ s, P s → Q (.error ⟨.timedOut, .text expired⟩) s)
    (hinner : ∀ t, Reading P t → t < deadline → Triple P (inner (deadline - t)) Q R) :
    Triple P (within deadline expired inner) Q R := by
  refine hP.now.bind fun t => Triple.bind (M := fun _ s => P s ∧ Reading P t)
    (.update fun s hs => ⟨hP.note s _ (hc t hs.2) hs.1, hs.2⟩) fun _ => ?_
  split
  · exact .pure fun s hs => hexpired s hs.1
  · intro s es hs
    have ht := hs.2.nonneg
    rw [wrap64_of_lt (by omega) (by omega)]
    exact hinner t hs.2 (by omega) s es hs.1

theorem perform_keeps (hP : ∀ s c, P s → P (s.note (.called c))) (req : Request) :
    Triple P (perform req) (fun _ => P) P :=
  .bind (M := fun _ => P) (.ask (fun _ _ hs => hs) fun _ hs => hs) fun _ =>
    .bind (M := fun _ => P) (.view fun _ hs => hs) fun _ =>
      .bind (M := fun _ => P) (.update fun s hs => hP s _ hs) fun _ => .pure fun _ hs => hs

theorem transferSome_triple {issue : Io (Except Errno ℕ)} {wait : Io (Result ℕ)}
    (hissue : Triple P issue (After (fun _ => P) fun n => Q (.ok n)) P)
    (hwait : Triple P wait (fun _ => P) P) (herr : ∀ e s, P s → Q (.error e) s) :
    Triple P (transferSome issue wait) Q P := by
  refine Triple.forever (I := fun _ => P) (fun _ => hissue.bind fun r => ?_) (fun _ _ hs => hs) ()
  cases r with
  | ok n => exact .pure fun s hs => hs
  | error e =>
    dsimp only [onReply]
    split
    · exact .pure fun s hs => hs
    · split
      · refine hwait.bind fun w => ?_
        cases w with
        | error e => exact .pure fun s hs => herr e s hs
        | ok _ => exact .pure fun s hs => hs
      · exact .pure fun s hs => herr _ s hs

theorem Frame.transferSomeWithTimeout (hP : Frame quiet P) (hw : ∀ st, quiet (.woken st))
    {timeout : ℤ} (ht : quiet (.entered timeout))
    (hc : ∀ start t, Reading P start → Reading P t → quiet (.checked t (wrap64 (start + timeout))))
    {plain : Io (Result ℕ)} {issue : Io (Except Errno ℕ)} {d : Direction} {noTimer expired : String}
    (hplain : Triple P plain Q P)
    (hissue : Triple P issue (After (fun _ => P) fun n => Q (.ok n)) P)
    (herr : ∀ e s, P s → Q (.error e) s) :
    Triple P (transferSomeWithTimeout plain issue d noTimer expired timeout) Q P := by
  refine Triple.bind (M := fun _ => P) (.update fun s hs => hP.note s _ ht hs) fun _ => ?_
  split
  · exact hplain
  · refine Triple.bind (M := fun _ => P) (.view fun _ hs => hs) fun timer => ?_
    split
    · refine hP.now.bind fun start s es hs => transferSome_triple hissue ?_ herr s es hs.1
      exact hP.within (wrap64_lt _) (fun t => hc start t hs.2) (fun _ hs => hs)
        fun t _ _ => hP.awaitTimed hw d _
    · exact .pure fun s hs => herr _ s hs

theorem transferAll_triple {I : ℕ → Net → Prop} {count : ℕ} {closed : SystemError}
    {piece : ℕ → Io (Result ℕ)}
    (hpiece : ∀ total, total < count → Triple (I total) (piece total)
      (After (fun e => Q (.error e)) fun n => I (total + n)) R)
    (hclosed : ∀ total s, total < count → I total s → Q (.error closed) s)
    (hdone : ∀ total s, count ≤ total → I total s → Q (.ok total) s)
    (hstop : ∀ total s, I total s → R s) : Triple (I 0) (transferAll count closed piece) Q R := by
  refine Triple.forever (I := I) (fun total => ?_) hstop 0
  split
  · rename_i hlt
    refine (hpiece total hlt).bind fun r => ?_
    cases r with
    | error e => exact .pure fun s hs => hs
    | ok n =>
      dsimp only [onPiece]
      split
      · rename_i hn
        subst hn
        exact .pure fun s hs => hclosed total s hlt hs
      · exact .pure fun s hs => hs
  · rename_i hge
    exact .pure fun s hs => hdone total s (by omega) hs

theorem sendfile_keeps (hP : ∀ s c, P s → P (s.note (.called c)))
    (hmove : ∀ s o, P s → P { s with offset := o }) (fd inFd : ℤ) (count : ℕ) :
    Triple P (sendfile fd inFd count) (fun _ => P) P := by
  refine Triple.bind (M := fun _ => P) (.view fun _ h => h) fun o => ?_
  refine (perform_keeps hP _).bind fun r => ?_
  cases r with
  | error e => exact .pure fun _ h => h
  | ok n =>
    exact .bind (M := fun _ => P) (.update fun s h => hmove s _ h) fun _ => .pure fun _ h => h

end Rules

/-! ## The operations stop early only at the end of the script -/

section Reads
variable {issue : Io (Except Errno ℕ)} {wait plain : Io (Result ℕ)}

theorem perform_reads (req : Request) : Reads (perform req) fun _ => True :=
  Reads.ask.bind fun _ => Reads.view.bind fun _ => Reads.update.bind fun _ => .pure (by simp)

theorem sendfile_reads (fd inFd : ℤ) (count : ℕ) :
    Reads (sendfile fd inFd count) fun _ => True := by
  refine Reads.view.bind fun offset => (perform_reads _).bind fun r => ?_
  cases r with
  | ok n => exact Reads.update.bind fun _ => .pure (by simp)
  | error e => exact .pure (by simp)

theorem now_reads : Reads now fun _ => False :=
  Reads.view.bind fun _ => Reads.update.bind fun _ => .pure (by simp)

theorem awaitReady_reads (kind : WaitKind) : Reads (awaitReady kind) fun _ => False :=
  Reads.ask.bind fun _ => Reads.update.bind fun _ => .pure (by simp)

theorem awaitTimed_reads (d : Direction) (timeout : ℤ) :
    Reads (awaitTimed d timeout) fun _ => False := by
  unfold awaitTimed
  split
  · exact Reads.update.bind fun _ => .pure (by simp)
  · exact awaitReady_reads _

theorem within_reads {deadline : ℤ} {expired : String} {inner : ℤ → Io (Result ℕ)}
    {need : Result ℕ → Prop} (hneed : ∀ e, ¬need (.error e)) (h : ∀ left, Reads (inner left) need) :
    Reads (within deadline expired inner) need := by
  refine now_reads.bind fun t => Reads.update.bind fun _ => ?_
  split
  · exact .pure fun hn => hneed _ hn.1.1
  · exact (h _).imp fun _ hn => hn.1.1

theorem transferSome_reads (hissue : Reads issue fun _ => True)
    (hwait : Reads wait fun _ => False) :
    Reads (transferSome issue wait) fun _ => True := by
  refine Reads.forever (fun _ => hissue.bind fun r => ?_) ()
  cases r with
  | ok n => exact .pure (by simp)
  | error e =>
    dsimp only [onReply]
    split
    · exact .pure (by simp)
    · split
      · refine hwait.bind fun w => ?_
        cases w with
        | error e => exact .pure (by simp)
        | ok _ => exact .pure (by simp)
      · exact .pure (by simp)

theorem transferSomeWithTimeout_reads {d : Direction} {noTimer expired : String} {timeout : ℤ}
    (hplain : Reads plain fun _ => True) (hissue : Reads issue fun _ => True) :
    Reads (transferSomeWithTimeout plain issue d noTimer expired timeout) fun r =>
      Except.isOk r = true := by
  refine Reads.update.bind fun _ => ?_
  split
  · exact hplain.imp fun _ _ => trivial
  · refine Reads.view.bind fun timer => ?_
    split
    · refine now_reads.bind fun start => ?_
      refine Reads.imp (transferSome_reads hissue ?_) fun _ _ => trivial
      exact within_reads (fun _ h => h) fun left => awaitTimed_reads d left
    · exact .pure (by simp [Except.isOk, Except.toBool])

theorem transferAll_reads {count : ℕ} {closed : SystemError} {piece : ℕ → Io (Result ℕ)}
    (hpiece : ∀ total, Reads (piece total) fun r => Except.isOk r = true) :
    Reads (transferAll count closed piece) fun _ => False := by
  refine Reads.forever (fun total => ?_) 0
  split
  · refine (hpiece total).bind fun r => ?_
    cases r with
    | error e => exact .pure (by simp)
    | ok n =>
      dsimp only [onPiece]
      split
      · exact .pure (by simp)
      · exact .pure (by simp [Except.isOk, Except.toBool])
  · exact .pure (by simp)

end Reads

end StreamIo
end RainRuntime
