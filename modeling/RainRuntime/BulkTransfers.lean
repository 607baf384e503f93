import RainRuntime.StreamIo

/-!
# Bulk transfers send a prefix, piece by piece

Whatever the kernel answers, each call of a bulk transfer asks for all that the calls before it
have not delivered, from the place where they stopped.
-/

namespace RainRuntime.StreamIo
open Scripted

def Call.delivered (file : List UInt8) (c : Call) : List UInt8 :=
  match c.reply with
  | .ok n => (c.request.bytes file).take n
  | .error _ => []

def delivered (file : List UInt8) (cs : List Call) : List UInt8 := cs.flatMap (Call.delivered file)

@[simp] theorem delivered_append (file : List UInt8) (cs ds : List Call) :
    delivered file (cs ++ ds) = delivered file cs ++ delivered file ds :=
  List.flatMap_append

inductive BulkTransfer where
  | writeAll (fd : ℤ) (data : List UInt8)
  | writeAllWithTimeout (fd : ℤ) (data : List UInt8) (timeout : ℤ)
  | sendFileAllWithTimeout (fd inFd : ℤ) (offset count : ℕ) (timeout : ℤ)

namespace BulkTransfer

def run : BulkTransfer → Io (Result ℕ)
  | writeAll fd data => StreamIo.writeAll fd data
  | writeAllWithTimeout fd data timeout => StreamIo.writeAllWithTimeout fd data timeout
  | sendFileAllWithTimeout fd inFd offset count timeout =>
    StreamIo.sendFileAllWithTimeout fd inFd offset count timeout

def length : BulkTransfer → ℕ
  | writeAll _ data => data.length
  | writeAllWithTimeout _ data _ => data.length
  | sendFileAllWithTimeout _ _ _ count _ => count

/-- Where the bytes come from: the buffer, or the file from the given offset on. -/
def source (file : List UInt8) : BulkTransfer → List UInt8
  | writeAll _ data => data
  | writeAllWithTimeout _ data _ => data
  | sendFileAllWithTimeout _ _ offset _ _ => file.drop offset

def request (k : ℕ) : BulkTransfer → Request
  | writeAll fd data => .write fd (data.drop k)
  | writeAllWithTimeout fd data _ => .write fd (data.drop k)
  | sendFileAllWithTimeout fd inFd offset count _ => .sendfile fd inFd (offset + k) (count - k)

end BulkTransfer

/-- Since `s₀` the first `total` bytes of `source` were delivered, and each call had the `request`
for those that were missing. -/
structure Sent (s₀ : Net) (source : List UInt8) (request : ℕ → Request) (total : ℕ) (s : Net) :
    Prop where
  file : s.file = s₀.file
  le : total ≤ source.length
  calls : ∃ cs, s.calls = s₀.calls ++ cs ∧ delivered s₀.file cs = source.take total ∧
    ∀ i c, cs[i]? = some c → c.request = request (delivered s₀.file (cs.take i)).length

section Sent
variable {s₀ s : Net} {source : List UInt8} {request : ℕ → Request} {total count : ℕ}

theorem Sent.of_calls {t : Net} (h : Sent s₀ source request total s) (hfile : t.file = s.file)
    (hcalls : t.calls = s.calls) : Sent s₀ source request total t :=
  ⟨hfile.trans h.file, h.le, by rw [hcalls]; exact h.calls⟩

theorem Sent.frame : Frame (fun e => e.call? = none) (Sent s₀ source request total) where
  note s e he h := h.of_calls rfl (by rw [Net.calls_note, he]; simp)
  tick _ h := h.of_calls rfl rfl

theorem Sent.called {c : Call} (h : Sent s₀ source request total s)
    (hreq : c.request = request total)
    {n : ℕ} (hn : Call.delivered s₀.file c = (source.drop total).take n)
    (hle : total + n ≤ source.length) :
      Sent s₀ source request (total + n) (s.note (.called c)) := by
  obtain ⟨cs, hcs, hdel, hturn⟩ := h.calls
  have hlen : (delivered s₀.file cs).length = total := by
    rw [hdel, List.length_take]
    exact min_eq_left h.le
  refine ⟨h.file, hle, cs ++ [c], ?_, ?_, fun i d hd => ?_⟩
  · rw [Net.calls_note, hcs, List.append_assoc]
    rfl
  · rw [delivered_append, hdel, List.take_add]
    simp [delivered, hn]
  · rcases lt_trichotomy i cs.length with hi | rfl | hi
    · rw [List.getElem?_append_left hi] at hd
      rw [List.take_append_of_le_length hi.le]
      exact hturn i d hd
    · rw [List.getElem?_concat_length] at hd
      obtain rfl := Option.some.inj hd
      rw [List.take_left, hlen, hreq]
    · rw [List.getElem?_eq_none (by simp; omega)] at hd
      cases hd

theorem Sent.start (source : List UInt8) (request : ℕ → Request) (s : Net) :
    Sent s source request 0 s :=
  ⟨rfl, Nat.zero_le _, [], by simp, by simp [delivered], fun i c hc => by simp at hc⟩

theorem perform_sent {k : ℕ} (hbytes : (request total).bytes s₀.file = (source.drop total).take k)
    (hlimit : (request total).limit s₀.file = ((request total).bytes s₀.file).length) :
    Triple (Sent s₀ source request total) (perform (request total))
      (After (fun _ => Sent s₀ source request total)
        fun n s => Sent s₀ source request (total + n) s ∧ n ≤ k)
      (Sent s₀ source request total) := by
  refine Triple.bind (M := fun _ => Sent s₀ source request total)
    (.ask (fun _ _ hs => hs) fun _ hs => hs) fun e => ?_
  refine Triple.bind
    (M := fun limit s => limit = ((request total).bytes s₀.file).length ∧
    Sent s₀ source request total s)
    (.view fun s hs => ⟨by rw [hs.file, hlimit], hs⟩) fun limit => ?_
  refine Triple.bind (M := fun _ => After (fun _ => Sent s₀ source request total)
      (fun n s => Sent s₀ source request (total + n) s ∧ n ≤ k) (e.reply.map fun n => min n limit))
    (.update fun s hs => ?_) fun _ => .pure fun s hs => hs
  obtain ⟨rfl, h⟩ := hs
  cases e.reply with
  | error err => exact h.called rfl (n := 0) (by simp [Call.delivered, Except.map]) h.le
  | ok n =>
    dsimp only [Except.map]
    have hlen : min n ((request total).bytes s₀.file).length ≤ min k (source.length - total) := by
      rw [hbytes, List.length_take, List.length_drop]
      exact min_le_right _ _
    have hle := h.le
    refine ⟨h.called rfl ?_ (by omega), by omega⟩
    dsimp only [Call.delivered]
    rw [hbytes] at hlen ⊢
    rw [List.take_take]
    congr 1
    omega

end Sent

section Writes
variable {s₀ : Net} {fd : ℤ} {data : List UInt8} {total : ℕ}

def Wrote (s₀ : Net) (fd : ℤ) (data : List UInt8) : ℕ → Net → Prop :=
  Sent s₀ data fun k => .write fd (data.drop k)

theorem write_wrote :
    Triple (Wrote s₀ fd data total) (perform (.write fd (data.drop total)))
      (After (fun _ => Wrote s₀ fd data total) fun n => Wrote s₀ fd data (total + n))
      (Wrote s₀ fd data total) := by
  refine Triple.imp (@perform_sent s₀ data (fun k => .write fd (data.drop k)) total data.length
    ?_ rfl) (fun _ h => h) (fun r s h => ?_) fun _ h => h
  · simp [Request.bytes, List.take_of_length_le]
  · cases r with
    | error e => exact h
    | ok n => exact h.1

theorem writeSome_wrote :
    Triple (Wrote s₀ fd data total) (writeSome fd (data.drop total))
      (After (fun _ => Wrote s₀ fd data total) fun n => Wrote s₀ fd data (total + n))
      (Wrote s₀ fd data total) :=
  transferSome_triple write_wrote (Sent.frame.awaitReady (fun _ => rfl) _) fun _ _ h => h

theorem writeSomeWithTimeout_wrote (timeout : ℤ) :
    Triple (Wrote s₀ fd data total) (writeSomeWithTimeout fd (data.drop total) timeout)
      (After (fun _ => Wrote s₀ fd data total) fun n => Wrote s₀ fd data (total + n))
      (Wrote s₀ fd data total) :=
  Sent.frame.transferSomeWithTimeout (fun _ => rfl) rfl (fun _ _ _ _ => rfl) writeSome_wrote
    write_wrote fun _ _ h => h

end Writes

section SendFile
variable {s₀ : Net} {fd inFd : ℤ} {offset count total : ℕ}

structure Streamed (s₀ : Net) (fd inFd : ℤ) (offset count total : ℕ) (s : Net) : Prop where
  sent : Sent s₀ (s₀.file.drop offset) (fun k => .sendfile fd inFd (offset + k) (count - k)) total s
  position : s.offset = offset + total
  le : total ≤ count

theorem Streamed.frame :
    Frame (fun e => e.call? = none) (Streamed s₀ fd inFd offset count total) where
  note s e he h := ⟨Sent.frame.note s e he h.sent, h.position, h.le⟩
  tick s h := ⟨Sent.frame.tick s h.sent, h.position, h.le⟩

theorem sendfile_streamed :
    Triple (Streamed s₀ fd inFd offset count total) (sendfile fd inFd (count - total))
      (After (fun _ => Streamed s₀ fd inFd offset count total)
        fun n => Streamed s₀ fd inFd offset count (total + n))
      (Streamed s₀ fd inFd offset count total) := by
  refine Triple.bind
    (M := fun o s => o = offset + total ∧ Streamed s₀ fd inFd offset count total s)
    (.view fun s h => ⟨h.position, h⟩) fun o => ?_
  intro s es hs
  obtain ⟨rfl, h⟩ := hs
  have hle := h.le
  have hcall := (@perform_sent s₀ (s₀.file.drop offset)
    (fun k => .sendfile fd inFd (offset + k) (count - k)) total (count - total)
    (by simp [Request.bytes, List.drop_drop]) rfl).and
    (perform_keeps (P := fun s => s.offset = offset + total) (fun _ _ h => h) _)
  have hrule : Triple (Streamed s₀ fd inFd offset count total)
      (perform (.sendfile fd inFd (offset + total) (count - total)))
      (After (fun _ => Streamed s₀ fd inFd offset count total) fun n s =>
        Streamed s₀ fd inFd offset count (total + n) { s with offset := offset + total + n })
      (Streamed s₀ fd inFd offset count total) := by
    refine hcall.imp (fun s h => ⟨h.sent, h.position⟩) (fun r s h => ?_) fun s h => ⟨h.1, h.2, hle⟩
    cases r with
    | error e => exact ⟨h.1, h.2, hle⟩
    | ok n =>
      obtain ⟨⟨hsent, hn⟩, -⟩ := h
      exact ⟨hsent.of_calls rfl rfl, Nat.add_assoc _ _ _, by omega⟩
  refine hrule.bind (fun r => ?_) s es h
  cases r with
  | error e => exact .pure fun s h => h
  | ok n =>
    exact .bind (M := fun _ => Streamed s₀ fd inFd offset count (total + n)) (.update fun s h => h)
      fun _ => .pure fun s h => h

theorem sendFileSome_streamed :
    Triple (Streamed s₀ fd inFd offset count total) (sendFileSome fd inFd (count - total))
      (After (fun _ => Streamed s₀ fd inFd offset count total)
        fun n => Streamed s₀ fd inFd offset count (total + n))
      (Streamed s₀ fd inFd offset count total) :=
  transferSome_triple sendfile_streamed (Streamed.frame.awaitReady (fun _ => rfl) _) fun _ _ h => h

theorem sendFileSomeWithTimeout_streamed (timeout : ℤ) :
    Triple (Streamed s₀ fd inFd offset count total)
      (sendFileSomeWithTimeout fd inFd (count - total) timeout)
      (After (fun _ => Streamed s₀ fd inFd offset count total)
        fun n => Streamed s₀ fd inFd offset count (total + n))
      (Streamed s₀ fd inFd offset count total) :=
  Streamed.frame.transferSomeWithTimeout (fun _ => rfl) rfl (fun _ _ _ _ => rfl)
    sendFileSome_streamed sendfile_streamed fun _ _ h => h

end SendFile

namespace BulkTransfer
variable {s₀ : Net}

def Progress (op : BulkTransfer) (s₀ : Net) : ℕ → Net → Prop :=
  Sent s₀ (op.source s₀.file) fun k => op.request k

/-- All the bytes were sent if the result is their number, and not all of them if it is an error. -/
def Done (op : BulkTransfer) (s₀ : Net) : Result ℕ → Net → Prop :=
  After (fun _ s => ∃ total < op.length, op.Progress s₀ total s)
    fun n s => n = op.length ∧ op.Progress s₀ op.length s

theorem transferAll_done (op : BulkTransfer) {I : ℕ → Net → Prop} {closed : SystemError}
    {piece : ℕ → Io (Result ℕ)}
    (hI : ∀ total s, I total s → op.Progress s₀ total s ∧ total ≤ op.length)
    (hpiece : ∀ total, Triple (I total) (piece total)
      (After (fun _ => I total) fun n => I (total + n)) (I total)) :
    Triple (I 0) (transferAll op.length closed piece) (op.Done s₀)
      fun s => ∃ total ≤ op.length, op.Progress s₀ total s := by
  have hstop : ∀ total s, I total s → ∃ total ≤ op.length, op.Progress s₀ total s :=
    fun total s h => ⟨total, (hI total s h).2, (hI total s h).1⟩
  refine transferAll_triple (I := I) (fun total hlt => ?_) (fun total s hlt h => ?_)
    (fun total s hge h => ?_) hstop
  · refine (hpiece total).imp (fun _ h => h) (fun r s h => ?_) (hstop total)
    cases r with
    | error e => exact ⟨total, hlt, (hI total s h).1⟩
    | ok n => exact h
  · exact ⟨total, hlt, (hI total s h).1⟩
  · obtain ⟨hprogress, hle⟩ := hI total s h
    obtain rfl := le_antisymm hle hge
    exact ⟨rfl, hprogress⟩

theorem writeAll_done (fd : ℤ) (data : List UInt8) :
    Triple (Wrote s₀ fd data 0) (StreamIo.writeAll fd data) ((writeAll fd data).Done s₀)
      fun s => ∃ total ≤ data.length, Wrote s₀ fd data total s :=
  transferAll_done (writeAll fd data) (fun _ _ h => ⟨h, h.le⟩) fun _ => writeSome_wrote

theorem writeAllWithTimeout_done (fd : ℤ) (data : List UInt8) (timeout : ℤ) :
    Triple (Wrote s₀ fd data 0) (StreamIo.writeAllWithTimeout fd data timeout)
      ((writeAllWithTimeout fd data timeout).Done s₀)
      fun s => ∃ total ≤ data.length, Wrote s₀ fd data total s := by
  refine Triple.bind (M := fun _ => Wrote s₀ fd data 0)
    (.update fun s h => Sent.frame.note s _ rfl h) fun _ => ?_
  split
  · exact writeAll_done fd data
  · refine Sent.frame.now.bind fun start => Triple.imp (transferAll_done
      (writeAllWithTimeout fd data timeout) (fun _ _ h => ⟨h, h.le⟩) fun total => ?_)
      (fun _ h => h.1) (fun _ _ h => h) fun _ h => h
    exact Sent.frame.within (wrap64_lt _) (fun _ _ => rfl) (fun _ h => h)
      fun _ _ _ => writeSomeWithTimeout_wrote _

theorem sendFileAllWithTimeout_done (fd inFd : ℤ) (offset count : ℕ) (timeout : ℤ) :
    Triple (fun s => s = s₀) (StreamIo.sendFileAllWithTimeout fd inFd offset count timeout)
      ((sendFileAllWithTimeout fd inFd offset count timeout).Done s₀)
      fun s => ∃ total ≤ count,
        (sendFileAllWithTimeout fd inFd offset count timeout).Progress s₀ total s := by
  refine Triple.bind (M := fun _ => Streamed s₀ fd inFd offset count 0)
    (.update fun s h => ?_) fun _ => ?_
  · subst h
    exact ⟨(Sent.start _ _ s).of_calls rfl rfl, rfl, Nat.zero_le _⟩
  · refine Streamed.frame.now.bind fun start => Triple.imp (transferAll_done
      (sendFileAllWithTimeout fd inFd offset count timeout) (fun _ _ h => ⟨h.sent, h.le⟩)
      fun total => ?_) (fun _ h => h.1) (fun _ _ h => h) fun _ h => h
    split
    · exact Streamed.frame.within (wrap64_lt _) (fun _ _ => rfl) (fun _ h => h)
        fun _ _ _ => sendFileSomeWithTimeout_streamed _
    · exact sendFileSome_streamed

theorem run_done (op : BulkTransfer) (s : Net) (es : List Event) :
    (op.run s es).Meets (op.Done s) fun t => ∃ total ≤ op.length, op.Progress s total t := by
  cases op with
  | writeAll fd data => exact writeAll_done fd data s es (Sent.start _ _ s)
  | writeAllWithTimeout fd data timeout =>
    exact writeAllWithTimeout_done fd data timeout s es (Sent.start _ _ s)
  | sendFileAllWithTimeout fd inFd offset count timeout =>
    exact sendFileAllWithTimeout_done fd inFd offset count timeout s es rfl

theorem run_reads (op : BulkTransfer) : Reads op.run fun _ => False := by
  have hwrite : ∀ fd data, Reads (StreamIo.writeSome fd data) fun _ => True := fun fd data =>
    transferSome_reads (perform_reads _) (awaitReady_reads _)
  have hsend : ∀ fd inFd count, Reads (StreamIo.sendFileSome fd inFd count) fun _ => True :=
    fun fd inFd count => transferSome_reads (sendfile_reads _ _ _) (awaitReady_reads _)
  have hall : ∀ fd data, Reads (StreamIo.writeAll fd data) fun _ => False := fun fd data =>
    transferAll_reads fun total => (hwrite _ _).imp fun _ _ => trivial
  cases op with
  | writeAll fd data => exact hall fd data
  | writeAllWithTimeout fd data timeout =>
    refine Reads.update.bind fun _ => ?_
    split
    · exact (hall fd data).imp fun _ h => h.1
    · refine now_reads.bind fun start => Reads.imp (transferAll_reads fun total => ?_)
        fun _ h => h.1.1
      exact within_reads (by simp [Except.isOk, Except.toBool]) fun left =>
        transferSomeWithTimeout_reads (hwrite _ _) (perform_reads _)
  | sendFileAllWithTimeout fd inFd offset count timeout =>
    refine Reads.update.bind fun _ => now_reads.bind fun start =>
      Reads.imp (transferAll_reads fun total => ?_) fun _ h => h.1.1
    split
    · exact within_reads (by simp [Except.isOk, Except.toBool]) fun left =>
        transferSomeWithTimeout_reads (hsend _ _ _) (sendfile_reads _ _ _)
    · exact (hsend _ _ _).imp fun _ _ => trivial

theorem Progress.exact {op : BulkTransfer} {total : ℕ} {t : Net} (h : op.Progress s₀ total t)
    (hle : total ≤ op.length) :
    ∃ cs, t.calls = s₀.calls ++ cs ∧
      (∀ i c, cs[i]? = some c → c.request = op.request (delivered s₀.file (cs.take i)).length) ∧
      delivered s₀.file cs <+: (op.source s₀.file).take op.length ∧
      (delivered s₀.file cs).length = total := by
  obtain ⟨cs, hcs, hdel, hturn⟩ := h.calls
  refine ⟨cs, hcs, hturn, ?_, ?_⟩
  · rw [hdel]
    exact List.take_prefix_take_left hle
  · rw [hdel, List.length_take]
    exact min_eq_left h.le

/-- How far a run has come, by its result. -/
theorem run_progress (op : BulkTransfer) (s : Net) (es : List Event) :
    ∃ total ≤ op.length, op.Progress s total (op.run s es).env ∧
      (∀ n, (op.run s es).result = some (.ok n) → n = op.length ∧ total = op.length) ∧
      ∀ e, (op.run s es).result = some (.error e) → total < op.length := by
  have hdone := run_done op s es
  cases hres : (op.run s es).result with
  | none =>
    obtain ⟨total, hle, hsent⟩ := (Run.meets_none hres).mp hdone
    exact ⟨total, hle, hsent, by simp, by simp⟩
  | some r =>
    rw [Run.meets_some hres] at hdone
    cases r with
    | error err =>
      obtain ⟨total, hlt, hsent⟩ := hdone
      exact ⟨total, hlt.le, hsent, by simp, fun _ _ => hlt⟩
    | ok v =>
      obtain ⟨rfl, hsent⟩ := hdone
      refine ⟨op.length, le_refl _, hsent, fun n hn => ?_, by simp⟩
      cases hn
      exact ⟨rfl, rfl⟩

/-- A bulk transfer asks, call after call, for what the calls before have not delivered; what they
delivered is the beginning of its source. It returns the full length when all of it was delivered
and an error otherwise, and it returns unless the script ends first. -/
theorem bulk_transfer_exact (op : BulkTransfer) (s : Net) (es : List Event) :
    ∃ cs, (op.run s es).env.calls = s.calls ++ cs ∧
      (∀ i c, cs[i]? = some c → c.request = op.request (delivered s.file (cs.take i)).length) ∧
      delivered s.file cs <+: (op.source s.file).take op.length ∧
      (∀ n, (op.run s es).result = some (.ok n) →
        n = op.length ∧ (delivered s.file cs).length = op.length) ∧
      (∀ e, (op.run s es).result = some (.error e) → (delivered s.file cs).length < op.length) ∧
      ((op.run s es).result = none → (op.run s es).rest = []) := by
  obtain ⟨total, hle, hsent, hok, herr⟩ := run_progress op s es
  obtain ⟨cs, hcs, hturn, hprefix, hlen⟩ := Progress.exact hsent hle
  refine ⟨cs, hcs, hturn, hprefix, fun n hn => ?_, fun e he => ?_, (run_reads op).stops s es⟩
  · rw [hlen]
    exact hok n hn
  · rw [hlen]
    exact herr e he

end BulkTransfer
end RainRuntime.StreamIo
