import RainRuntime.StreamIo

/-!
# The timed operations agree with the plain ones

As long as no clock reading reaches a deadline and no timer ends a wait, a timed operation makes
the calls of the plain one and comes to the same value or error code.
-/

namespace RainRuntime.StreamIo
open Scripted

def Entry.expired : Entry → Bool
  | checked now deadline => deadline ≤ now
  | woken state => state = .timedOut
  | _ => false

def Late (k : ℕ) (s : Net) : Prop := ∃ e ∈ s.log.drop k, e.expired

def Bounded (k : ℕ) (s : Net) : Prop := ∀ t, .entered t ∈ s.log.drop k → 0 < t

inductive SameVerdict : Result ℕ → Result ℕ → Prop
  | ok (n : ℕ) : SameVerdict (.ok n) (.ok n)
  | error {e e' : SystemError} (h : e.code = e'.code) : SameVerdict (.error e) (.error e')

theorem SameVerdict.refl (r : Result ℕ) : SameVerdict r r := by
  cases r with
  | ok n => exact .ok n
  | error e => exact .error rfl

inductive StreamOp where
  | readSome (fd : ℤ) (len : ℕ)
  | writeSome (fd : ℤ) (bytes : List UInt8)
  | writeAll (fd : ℤ) (data : List UInt8)
  | sendFileSome (fd inFd : ℤ) (count : ℕ)

namespace StreamOp

def plain : StreamOp → Io (Result ℕ)
  | readSome fd len => StreamIo.readSome fd len
  | writeSome fd bytes => StreamIo.writeSome fd bytes
  | writeAll fd data => StreamIo.writeAll fd data
  | sendFileSome fd inFd count => StreamIo.sendFileSome fd inFd count

def withTimeout (timeout : ℤ) : StreamOp → Io (Result ℕ)
  | readSome fd len => readSomeWithTimeout fd len timeout
  | writeSome fd bytes => writeSomeWithTimeout fd bytes timeout
  | writeAll fd data => writeAllWithTimeout fd data timeout
  | sendFileSome fd inFd count => sendFileSomeWithTimeout fd inFd count timeout

end StreamOp

section Log
variable {k : ℕ}

theorem Late.note {s : Net} (h : Late k s) (e : Entry) : Late k (s.note e) := by
  obtain ⟨d, hd, hexp⟩ := h
  refine ⟨d, ?_, hexp⟩
  rw [Net.note, List.drop_append]
  exact List.mem_append_left _ hd

theorem late_note {s : Net} {e : Entry} (hk : k ≤ s.log.length) (he : e.expired) :
    Late k (s.note e) := by
  refine ⟨e, ?_, he⟩
  rw [Net.note, List.drop_append_of_le_length hk]
  simp

structure Stable (E : Net → Prop) : Prop extends Frame (fun _ => True) E where
  move : ∀ s o, E s → E { s with offset := o }

theorem late_stable : Stable (Late k) where
  note _ e _ h := h.note e
  tick _ h := h
  move _ _ h := h

theorem never_stable : Stable fun _ => False where
  note _ _ _ h := h
  tick _ h := h
  move _ _ h := h

structure Budget (quiet : Entry → Prop) (P : Net → Prop) (T : ℤ → Prop) : Prop
    extends Frame quiet P where
  move : ∀ s o, P s → P { s with offset := o }
  called : ∀ c, quiet (.called c)
  woken : ∀ st, quiet (.woken st)
  entered : ∀ x, T x → quiet (.entered x)
  checked : ∀ x start t, T x → Reading P start → Reading P t →
    quiet (.checked t (wrap64 (start + x)))
  left : ∀ x start t, T x → Reading P start → Reading P t → t < wrap64 (start + x) →
    T (wrap64 (start + x) - t)

theorem Stable.budget {E : Net → Prop} (hE : Stable E) :
    Budget (fun _ => True) E fun _ => True where
  toFrame := hE.toFrame
  move := hE.move
  called _ := trivial
  woken _ := trivial
  entered _ _ := trivial
  checked _ _ _ _ _ _ := trivial
  left _ _ _ _ _ _ _ := trivial

theorem bounded_budget :
    Budget (fun e => ∀ t, e = .entered t → 0 < t) (Bounded k) fun x => 0 < x where
  note s e he h t ht := by
    rw [Net.note, List.drop_append, List.mem_append] at ht
    rcases ht with ht | ht
    · exact h t ht
    · have hmem := List.mem_of_mem_drop ht
      exact he t (List.mem_singleton.mp hmem).symm
  tick _ h := h
  move _ _ h := h
  called c t h := by cases h
  woken st t h := by cases h
  entered x hx t h := by
    cases h
    exact hx
  checked x start t _ _ _ t' h := by cases h
  left x start t _ _ _ hlt := by omega

end Log

/-! ## Both operations on one script -/

/-- Two runs that have made the same calls; the first has a timer if `timer` is true. -/
structure Alike (k : ℕ) (timer : Bool) (s u : Net) : Prop where
  calls : s.calls = u.calls
  file : s.file = u.file
  offset : s.offset = u.offset
  timer : s.timer = timer
  logged : k ≤ s.log.length

theorem Alike.note {k : ℕ} {b : Bool} {s u : Net} (h : Alike k b s u) (e : Entry) :
    Alike k b (s.note e) (u.note e) := by
  refine ⟨?_, h.file, h.offset, h.timer, ?_⟩
  · rw [Net.calls_note, Net.calls_note, h.calls]
  · rw [Net.note, List.length_append]
    exact Nat.le_add_right_of_le h.logged

theorem Alike.note_left {k : ℕ} {b : Bool} {s u : Net} {e : Entry} (h : Alike k b s u)
    (he : e.call? = none) : Alike k b (s.note e) u := by
  refine ⟨?_, h.file, h.offset, h.timer, ?_⟩
  · rw [Net.calls_note, he, h.calls]
    simp
  · rw [Net.note, List.length_append]
    exact Nat.le_add_right_of_le h.logged

theorem settle_sameVerdict (kind kind' : WaitKind) {st : WaitState} (hst : st ≠ .timedOut)
    (readiness : Result ℕ) : SameVerdict (kind.settle st readiness)
    (kind'.settle st readiness) := by
  have hcancel : ∀ kind : WaitKind, kind.cancelledError.code = .operationCanceled := by
    intro kind
    cases kind <;> rfl
  cases st with
  | timedOut => exact absurd rfl hst
  | cancelled => exact .error ((hcancel kind).trans (hcancel kind').symm)
  | pending => cases kind <;> cases kind' <;> exact .refl _
  | ready => cases kind <;> cases kind' <;> exact .refl _

section Tracks
variable {k : ℕ} {b : Bool} {E : Net → Prop}

theorem perform_tracks (hE : Stable E) (req : Request) :
    Tracks (Alike k b) E Eq (perform req) (perform req) := by
  have hnote : ∀ e s, E s → E (s.note e) := fun e s h => hE.note s e trivial h
  refine (Tracks.ask (S := Eq) fun _ => rfl).bind ?_ fun e => ?_
  · rintro e _ rfl
    refine (Tracks.view (S := Eq) fun s u h => by rw [h.file]).bind ?_ fun limit => ?_
    · rintro limit _ rfl
      exact (Tracks.update fun s u h => h.note _).bind (fun _ _ _ => .pure rfl)
        fun _ => .pure fun _ h => h
    · exact .bind (M := fun _ => E) (.update (hnote _)) fun _ => .pure fun _ h => h
  · exact .bind (M := fun _ => E) (.view fun _ h => h) fun _ =>
      .bind (M := fun _ => E) (.update (hnote _)) fun _ => .pure fun _ h => h

theorem sendfile_tracks (hE : Stable E) (fd inFd : ℤ) (count : ℕ) :
    Tracks (Alike k b) E Eq (sendfile fd inFd count) (sendfile fd inFd count) := by
  have hmoved : ∀ o (n : ℕ), Triple E
      (do update fun s => { s with offset := o + n }; pure (.ok n) : Io (Except Errno ℕ))
      (fun _ => E) E := fun o n =>
    .bind (M := fun _ => E) (.update fun s h => hE.move s _ h) fun _ => .pure fun _ h => h
  refine (Tracks.view (S := Eq) fun s u h => h.offset).bind ?_ fun o =>
    (perform_keeps (fun s c h => hE.note s _ trivial h) _).bind fun r => ?_
  · rintro o _ rfl
    refine (perform_tracks hE _).bind ?_ fun r => ?_
    · rintro r _ rfl
      cases r with
      | error e => exact .pure rfl
      | ok n =>
        exact (Tracks.update fun s u h => ⟨h.calls, h.file, rfl, h.timer, h.logged⟩).bind
          (fun _ _ _ => .pure rfl) fun _ => .pure fun _ h => h
    · cases r with
      | error e => exact .pure fun _ h => h
      | ok n => exact hmoved o n
  · cases r with
    | error e => exact .pure fun _ h => h
    | ok n => exact hmoved o n

theorem awaitReady_tracks (hE : Stable E) (kind kind' : WaitKind)
    (hend : ∀ e : Event, SameVerdict (kind.settle e.state e.readiness)
    (kind'.settle e.state e.readiness) ∨ ∀ s u, Alike k b s u → E (s.note (.woken e.state))) :
    Tracks (Alike k b) E SameVerdict (awaitReady kind) (awaitReady kind') := by
  refine (Tracks.ask (S := Eq) fun _ => rfl).bind ?_ fun e =>
    .bind (M := fun _ => E) (.update fun s h => hE.note s _ trivial h) fun _ => .pure fun _ h => h
  rintro e _ rfl
  rcases hend e with hsame | hspoilt
  · exact (Tracks.update fun s u h => h.note _).bind (fun _ _ _ => .pure hsame)
      fun _ => .pure fun _ h => h
  · exact fun s u es h => Or.inl (hspoilt s u h)

theorem awaitTimed_tracks (d : Direction) {left : ℤ} (hleft : 0 < left) (kind : WaitKind) :
    Tracks (Alike k b) (Late k) SameVerdict (awaitTimed d left) (awaitReady kind) := by
  rw [awaitTimed, if_neg (by omega)]
  refine awaitReady_tracks late_stable _ _ fun e => ?_
  by_cases hst : e.state = .timedOut
  · exact Or.inr fun s u h => late_note h.logged (by simp [Entry.expired, hst])
  · exact Or.inl (settle_sameVerdict _ _ hst _)

theorem note_tracks {e : Entry} {p : Unit → Io (Result ℕ)} {q : Io (Result ℕ)} (he : e.call? = none)
    (h : Tracks (Alike k b) E SameVerdict (p ()) q) :
    Tracks (Alike k b) E SameVerdict (update (fun s => s.note e) >>= p) q :=
  Tracks.left (fun _ => ()) (fun s => s.note e) (fun _ _ => rfl) (fun _ _ hl => hl.note_left he)
    fun _ _ _ => h

theorem now_tracks {f : ℤ → Io (Result ℕ)} {q : Io (Result ℕ)}
    (h : ∀ t : ℕ, Tracks (Alike k b) E SameVerdict (f t) q) :
    Tracks (Alike k b) E SameVerdict (now >>= f) q :=
  Tracks.left (fun s => ((s.clock s.readings : ℕ) : ℤ))
    (fun s => { s with readings := s.readings + 1 }) (fun _ _ => rfl)
    (fun _ _ hl => ⟨hl.calls, hl.file, hl.offset, hl.timer, hl.logged⟩) fun _ _ _ => h _

theorem within_tracks {deadline : ℤ} {expired : String} {inner : ℤ → Io (Result ℕ)}
    {q : Io (Result ℕ)} (hd : deadline < 2 ^ 63)
    (hinner : ∀ left, 0 < left → Tracks (Alike k b) (Late k) SameVerdict (inner left) q) :
    Tracks (Alike k b) (Late k) SameVerdict (within deadline expired inner) q := by
  refine now_tracks fun t => ?_
  by_cases hlate : deadline ≤ t
  · rw [if_pos hlate]
    exact fun s u es h => Or.inl (late_note h.logged (by simp [Entry.expired, hlate]))
  · rw [if_neg hlate]
    refine note_tracks rfl (hinner _ ?_)
    have hleft : wrap64 (deadline - t) = deadline - t := wrap64_of_lt (by omega) (by omega)
    omega

theorem onReply_keeps {P : Net → Prop} {wait : Io (Result ℕ)} (hwait : Triple P wait (fun _ => P) P)
    (r : Except Errno ℕ) : Triple P (onReply wait r) (fun _ => P) P := by
  cases r with
  | ok n => exact .pure fun _ h => h
  | error e =>
    dsimp only [onReply]
    split
    · exact .pure fun _ h => h
    · split
      · refine hwait.bind fun w => ?_
        cases w <;> exact .pure fun _ h => h
      · exact .pure fun _ h => h

theorem transferSome_tracks {issue : Io (Except Errno ℕ)} {wait wait' : Io (Result ℕ)}
    (hissue : Tracks (Alike k b) E Eq issue issue)
    (hwait : Tracks (Alike k b) E SameVerdict wait wait')
    (hkissue : Triple E issue (fun _ => E) E) (hkwait : Triple E wait (fun _ => E) E) :
    Tracks (Alike k b) E SameVerdict (transferSome issue wait) (transferSome issue wait') := by
  refine Tracks.forever (T := Eq) (fun _ _ _ => hissue.bind ?_ (onReply_keeps hkwait))
    (fun _ => hkissue.bind (onReply_keeps hkwait)) rfl
  rintro r _ rfl
  cases r with
  | ok n => exact .pure (.inr (.ok n))
  | error e =>
    dsimp only [onReply]
    split
    · exact .pure (.inl rfl)
    · split
      · refine hwait.bind (fun w w' hw => ?_) fun w => by cases w <;> exact .pure fun _ h => h
        cases hw with
        | ok n => exact .pure (.inl rfl)
        | error h => exact .pure (.inr (.error h))
      · exact .pure (.inr (.error rfl))

theorem onPiece_keeps {P : Net → Prop} (closed : SystemError) (total : ℕ) (r : Result ℕ) :
    Triple P (onPiece closed total r) (fun _ => P) P := by
  cases r with
  | error e => exact .pure fun _ h => h
  | ok n =>
    dsimp only [onPiece]
    split <;> exact .pure fun _ h => h

theorem transferAll_tracks {count : ℕ} {closed closed' : SystemError}
    {piece piece' : ℕ → Io (Result ℕ)} (hclosed : closed.code = closed'.code)
    (hpiece : ∀ total, Tracks (Alike k b) E SameVerdict (piece total) (piece' total))
    (hkeep : ∀ total, Triple E (piece total) (fun _ => E) E) :
    Tracks (Alike k b) E SameVerdict (transferAll count closed piece)
      (transferAll count closed' piece') := by
  refine Tracks.forever (T := Eq) ?_ (fun total => ?_) rfl
  · rintro total _ rfl
    split
    · refine (hpiece total).bind (fun r r' hr => ?_) (onPiece_keeps closed total)
      cases hr with
      | error h => exact .pure (.inr (.error h))
      | ok n =>
        dsimp only [onPiece]
        split
        · exact .pure (.inr (.error hclosed))
        · exact .pure (.inl rfl)
    · exact .pure (.inr (.ok total))
  · split
    · exact (hkeep total).bind (onPiece_keeps closed total)
    · exact .pure fun _ h => h

end Tracks

/-! ## The operations -/

section Ops
variable {k : ℕ} {b : Bool} {E : Net → Prop}

structure Steady (issue : Io (Except Errno ℕ)) : Prop where
  tracks : ∀ {E : Net → Prop}, Stable E → ∀ k b, Tracks (Alike k b) E Eq issue issue
  keeps : ∀ {P : Net → Prop}, (∀ s c, P s → P (s.note (.called c))) →
    (∀ s o, P s → P { s with offset := o }) → Triple P issue (fun _ => P) P

theorem perform_steady (req : Request) : Steady (perform req) where
  tracks hE _ _ := perform_tracks hE req
  keeps hcall _ := perform_keeps hcall req

theorem sendfile_steady (fd inFd : ℤ) (count : ℕ) : Steady (sendfile fd inFd count) where
  tracks hE _ _ := sendfile_tracks hE fd inFd count
  keeps hcall hmove := sendfile_keeps hcall hmove fd inFd count

variable {issue : Io (Except Errno ℕ)} (hissue : Steady issue) (kind : WaitKind)
include hissue

theorem Steady.plain_tracks (hE : Stable E) :
    Tracks (Alike k b) E SameVerdict (transferSome issue (awaitReady kind))
      (transferSome issue (awaitReady kind)) :=
  transferSome_tracks (hissue.tracks hE k b)
    (awaitReady_tracks hE kind kind fun _ => Or.inl (.refl _))
    (hissue.keeps (fun s _ h => hE.note s _ trivial h) hE.move)
    (hE.awaitReady (fun _ => trivial) kind)

theorem Steady.timed_tracks (d : Direction) {plain : Io (Result ℕ)} {noTimer expired : String}
    {timeout : ℤ} (ht : 0 < timeout) :
    Tracks (Alike k true) (Late k) SameVerdict
      (transferSomeWithTimeout plain issue d noTimer expired timeout)
      (transferSome issue (awaitReady kind)) := by
  refine note_tracks rfl ?_
  rw [if_neg (by omega)]
  refine Tracks.left Net.timer id (fun _ _ => rfl) (fun _ _ h => h) fun s u h => ?_
  rw [if_pos h.timer]
  refine now_tracks fun start => transferSome_tracks (hissue.tracks late_stable k true) ?_
    (hissue.keeps (fun s _ h => h.note _) late_stable.move) ?_
  · exact within_tracks (wrap64_lt _) fun left hleft => awaitTimed_tracks d hleft kind
  · exact late_stable.within (wrap64_lt _) (fun _ _ => trivial) (fun _ h => h)
      fun _ _ _ => late_stable.awaitTimed (fun _ => trivial) d _

variable {quiet : Entry → Prop} {P : Net → Prop} {T : ℤ → Prop}

theorem Steady.plain_keeps (hP : Budget quiet P T) :
    Triple P (transferSome issue (awaitReady kind)) (fun _ => P) P := by
  refine transferSome_triple ?_ (hP.awaitReady hP.woken kind) fun _ _ h => h
  refine (hissue.keeps (fun s c h => hP.note s _ (hP.called c) h) hP.move).imp (fun _ h => h)
    (fun r _ h => ?_) fun _ h => h
  cases r <;> exact h

theorem Steady.timed_keeps (hP : Budget quiet P T) (d : Direction) {noTimer expired : String}
    {timeout : ℤ} (ht : T timeout) :
    Triple P (transferSomeWithTimeout (transferSome issue (awaitReady kind)) issue d noTimer expired
      timeout) (fun _ => P) P := by
  refine hP.transferSomeWithTimeout hP.woken (hP.entered _ ht)
    (fun start t => hP.checked timeout start t ht) (hissue.plain_keeps kind hP) ?_ fun _ _ h => h
  refine (hissue.keeps (fun s c h => hP.note s _ (hP.called c) h) hP.move).imp (fun _ h => h)
    (fun r _ h => ?_) fun _ h => h
  cases r <;> exact h

omit hissue in
theorem transferAll_keeps {count : ℕ} {closed : SystemError} {piece : ℕ → Io (Result ℕ)}
    (hpiece : ∀ total, Triple P (piece total) (fun _ => P) P) :
    Triple P (transferAll count closed piece) (fun _ => P) P := by
  refine transferAll_triple (I := fun _ => P) (Q := fun _ => P) (fun total _ => ?_)
    (fun _ _ _ h => h) (fun _ _ _ h => h) fun _ _ h => h
  refine (hpiece total).imp (fun _ h => h) (fun r _ h => ?_) fun _ h => h
  cases r <;> exact h

end Ops

namespace StreamOp
variable {k : ℕ} {b : Bool} {timeout : ℤ}

theorem plain_tracks (op : StreamOp) {E : Net → Prop} (hE : Stable E) :
    Tracks (Alike k b) E SameVerdict op.plain op.plain := by
  cases op with
  | readSome fd len => exact (perform_steady _).plain_tracks _ hE
  | writeSome fd bytes => exact (perform_steady _).plain_tracks _ hE
  | sendFileSome fd inFd count => exact (sendfile_steady _ _ _).plain_tracks _ hE
  | writeAll fd data =>
    exact transferAll_tracks rfl (fun total => (perform_steady _).plain_tracks _ hE)
      fun total => (perform_steady _).plain_keeps _ hE.budget

theorem withTimeout_tracks (op : StreamOp) (ht : 0 < timeout) :
    Tracks (Alike k true) (Late k) SameVerdict (op.withTimeout timeout) op.plain := by
  cases op with
  | readSome fd len => exact (perform_steady _).timed_tracks _ _ ht
  | writeSome fd bytes => exact (perform_steady _).timed_tracks _ _ ht
  | sendFileSome fd inFd count => exact (sendfile_steady _ _ _).timed_tracks _ _ ht
  | writeAll fd data =>
    refine note_tracks rfl ?_
    rw [if_neg (by omega)]
    refine now_tracks fun start => transferAll_tracks rfl (fun total => ?_) fun total => ?_
    · exact within_tracks (wrap64_lt _) fun left hleft => (perform_steady _).timed_tracks _ _ hleft
    · exact late_stable.within (wrap64_lt _) (fun _ _ => trivial) (fun _ h => h) fun _ _ _ =>
        (perform_steady _).timed_keeps _ late_stable.budget _ trivial

theorem withTimeout_of_nonpos (op : StreamOp) (ht : timeout ≤ 0) :
    op.withTimeout timeout = update (fun s => s.note (.entered timeout)) >>= fun _ => op.plain := by
  cases op <;>
  simp only [withTimeout, plain, readSomeWithTimeout, writeSomeWithTimeout, writeAllWithTimeout,
    sendFileSomeWithTimeout, transferSomeWithTimeout, if_pos ht]

theorem withTimeout_keeps (op : StreamOp) {quiet : Entry → Prop} {P : Net → Prop} {T : ℤ → Prop}
    (hP : Budget quiet P T) (ht : T timeout) :
    Triple P (op.withTimeout timeout) (fun _ => P) P := by
  cases op with
  | readSome fd len => exact (perform_steady _).timed_keeps _ hP _ ht
  | writeSome fd bytes => exact (perform_steady _).timed_keeps _ hP _ ht
  | sendFileSome fd inFd count => exact (sendfile_steady _ _ _).timed_keeps _ hP _ ht
  | writeAll fd data =>
    refine Triple.bind (M := fun _ => P) (.update fun s h => hP.note s _ (hP.entered _ ht) h)
      fun _ => ?_
    split
    · exact transferAll_keeps fun total => (perform_steady _).plain_keeps _ hP
    · refine hP.now.bind fun start s es hs => transferAll_keeps (fun total => ?_) s es hs.1
      exact hP.within (wrap64_lt _) (fun t => hP.checked timeout start t ht hs.2) (fun _ h => h)
        fun t htime hlt => (perform_steady _).timed_keeps _ hP _
          (hP.left timeout start t ht hs.2 htime hlt)

/-- A timed operation makes the calls of the plain one and comes to the same value or error code,
if its timeout is not positive or if no time is ever up; and with a positive timeout it never
enters an operation without a time limit. -/
theorem withTimeout_agrees (op : StreamOp) (timeout : ℤ) (s : Net) (es : List Event) :
    let timed := op.withTimeout timeout s es
    let plain := op.plain s es
    ((timeout ≤ 0 ∨ s.timer = true ∧ ∀ e ∈ timed.env.log.drop s.log.length, ¬e.expired) →
      timed.env.calls = plain.env.calls ∧ timed.env.offset = plain.env.offset ∧
        timed.rest = plain.rest ∧ Option.Rel SameVerdict timed.result plain.result) ∧
    (0 < timeout → ∀ t, .entered t ∈ timed.env.log.drop s.log.length → 0 < t) := by
  have hself : ∀ b, s.timer = b → Alike s.log.length b s s :=
    fun b hb => ⟨rfl, rfl, rfl, hb, le_refl _⟩
  refine ⟨fun h => ?_, fun ht => ?_⟩
  · have htracks : Alike s.log.length s.timer (op.withTimeout timeout s es).env
      (op.plain s es).env ∧ (op.withTimeout timeout s es).rest = (op.plain s es).rest ∧
        Option.Rel SameVerdict (op.withTimeout timeout s es).result (op.plain s es).result := by
      by_cases ht : timeout ≤ 0
      · rw [withTimeout_of_nonpos op ht]
        have hplain := note_tracks (e := .entered timeout) (p := fun _ => op.plain) rfl
          (op.plain_tracks (k := s.log.length) (b := s.timer) never_stable)
        exact (hplain s s es (hself _ rfl)).resolve_left id
      · obtain ⟨htimer, hnever⟩ := h.resolve_left ht
        rw [htimer]
        refine (op.withTimeout_tracks (by omega) s s es (hself _ htimer)).resolve_left ?_
        rintro ⟨e, he, hexp⟩
        exact hnever e he hexp
    exact ⟨htracks.1.calls, htracks.1.offset, htracks.2⟩
  · have hfresh : Bounded s.log.length s := by
      intro t ht
      rw [List.drop_length] at ht
      cases ht
    exact (op.withTimeout_keeps bounded_budget ht).env hfresh es

/-- A read that has to wait once. -/
theorem withTimeout_agrees_on_wait :
    let s : Net := ⟨fun _ => 7, 0, true, [], 0, []⟩
    let es : List Event := [⟨.error .again, .pending, .ok 0⟩, ⟨.ok 0, .ready, .ok 0⟩,
      ⟨.ok 4, .ready, .ok 0⟩]
    (withTimeout 5 (readSome 3 10) s es).result = some (.ok 4) ∧
      (withTimeout 5 (readSome 3 10) s es).env.calls = (plain (readSome 3 10) s es).env.calls := by
  refine ⟨rfl, ((withTimeout_agrees (readSome 3 10) 5 _ _).1 (Or.inr ⟨rfl, ?_⟩)).1⟩
  decide

end StreamOp
end RainRuntime.StreamIo
