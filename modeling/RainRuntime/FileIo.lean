import RainRuntime.Scripted
import RainRuntime.Types

/-!
# Positional reads and writes of a file

`pread` and `pwrite` transfer as much as the script says, cut to what can be transferred; a read
that is not at the end of the file gets at least one byte. Offsets are unsigned for the caller and
signed for the kernel. A file is never longer than the largest offset.
-/

namespace RainRuntime.FileIo
open Scripted

def padTo (file : List UInt8) (start : ℕ) : List UInt8 :=
  file.take start ++ List.replicate (start - file.length) 0

@[simp] theorem padTo_length (file : List UInt8) (start : ℕ) :
    (padTo file start).length = start := by
  simp only [padTo, List.length_append, List.length_take, List.length_replicate]
  omega

/-- The bytes from `start` on are replaced, and a gap before `start` is filled with zeros. -/
def splice (file : List UInt8) (start : ℕ) (bytes : List UInt8) : List UInt8 :=
  padTo file start ++ bytes ++ file.drop (start + bytes.length)

theorem splice_length (file : List UInt8) (start : ℕ) (bytes : List UInt8) :
    (splice file start bytes).length = max file.length (start + bytes.length) := by
  simp only [splice, List.length_append, padTo_length, List.length_drop]
  omega

theorem splice_read (file : List UInt8) (start : ℕ) (bytes : List UInt8) :
    ((splice file start bytes).drop start).take bytes.length = bytes := by
  rw [splice, List.append_assoc, List.drop_left' (padTo_length file start), List.take_left]

/-- Two pieces that follow each other are one. -/
theorem splice_splice (file : List UInt8) (start : ℕ) (a b : List UInt8) :
    splice (splice file start a) (start + a.length) b = splice file start (a ++ b) := by
  have hhead : (padTo file start ++ a).length = start + a.length := by simp
  have hpad : padTo (splice file start a) (start + a.length) = padTo file start ++ a := by
    rw [padTo, splice_length, splice, List.take_left' hhead,
      Nat.sub_eq_zero_of_le (Nat.le_max_right _ _)]
    simp
  rw [splice, hpad]
  nth_rewrite 1 [splice]
  rw [← List.drop_drop, List.drop_left' hhead, List.drop_drop, splice, List.length_append,
    ← Nat.add_assoc, List.append_assoc (padTo file start)]

/-- The effect of writing `bytes` at `start`; writing nothing fills no gap. -/
def written (file : List UInt8) (start : ℕ) (bytes : List UInt8) : List UInt8 :=
  if bytes = [] then file else splice file start bytes

theorem written_append (file : List UInt8) (start : ℕ) (a b : List UInt8) :
    written (written file start a) (start + a.length) b = written file start (a ++ b) := by
  by_cases ha : a = []
  · subst ha
    simp [written]
  · by_cases hb : b = []
    · subst hb
      simp [written]
    · simp only [written, ha, hb, List.append_eq_nil_iff, false_and, if_false]
      exact splice_splice file start a b

theorem written_read (file : List UInt8) (start : ℕ) (bytes : List UInt8) :
    ((written file start bytes).drop start).take bytes.length = bytes := by
  by_cases hb : bytes = []
  · subst hb
    simp
  · rw [written, if_neg hb]
    exact splice_read file start bytes

def maxOffset : ℕ := 2 ^ 63 - 1

theorem written_length_le {file : List UInt8} {start : ℕ} {bytes : List UInt8}
    (hfile : file.length ≤ maxOffset) (h : start + bytes.length ≤ maxOffset) :
    (written file start bytes).length ≤ maxOffset := by
  rw [written]
  split
  · exact hfile
  · rw [splice_length]
    exact max_le hfile h

/-- A file, and the offsets given to `pread` and `pwrite`. -/
structure Disk where
  file : List UInt8
  fits : file.length ≤ maxOffset
  offsets : List ℤ

namespace Disk

def note (s : Disk) (offset : ℤ) : Disk := { s with offsets := s.offsets ++ [offset] }

def write (s : Disk) (start : ℕ) (bytes : List UInt8) : Disk :=
  if h : start + bytes.length ≤ maxOffset then
    { s with file := written s.file start bytes, fits := written_length_le s.fits h }
  else s

end Disk

abbrev Fs := Prog Disk (Except Errno ℕ)

def einval : Errno := .other 22

def efbig : Errno := .other 27

def pread (len : ℕ) (offset : ℤ) : Fs (Except Errno (List UInt8)) := do
  let e ← ask
  update fun s => s.note offset
  let file ← view Disk.file
  match e with
  | .error e => pure (.error e)
  | .ok n =>
    if offset < 0 then pure (.error einval)
    else pure (.ok ((file.drop offset.toNat).take (min (max n 1) len)))

def pwrite (bytes : List UInt8) (offset : ℤ) : Fs (Except Errno ℕ) := do
  let e ← ask
  update fun s => s.note offset
  match e with
  | .error e => pure (.error e)
  | .ok n =>
    if offset < 0 then pure (.error einval)
    else if maxOffset ≤ offset.toNat then pure (.error efbig)
    else do
      let moved := bytes.take (min n (maxOffset - offset.toNat))
      update fun s => s.write offset.toNat moved
      pure (.ok moved.length)

def tooLarge : SystemError := ⟨.invalidArgument, .text "file offset is too large"⟩

def checkedOffset (offset : ℕ) : Result ℤ :=
  if offset > maxOffset then .error tooLarge else .ok (wrap64 offset)

/-- The sum is one of unsigned 64-bit numbers. -/
def checkedOffsetAdd (offset delta : ℕ) : Result ℤ :=
  if offset > maxOffset ∨ delta > maxOffset - offset then .error tooLarge
  else .ok (wrap64 ((offset + delta) % 2 ^ 64 : ℕ))

def fill (data : List UInt8) (total : ℕ) (bytes : List UInt8) : List UInt8 :=
  data.take total ++ bytes ++ data.drop (total + bytes.length)

def readAtFdSync (offset len : ℕ) : Fs (Result (List UInt8)) :=
  match checkedOffset offset with
  | .error e => pure (.error e)
  | .ok _ =>
    forever (fun (data, total) =>
      if total < len then
        match checkedOffsetAdd offset total with
        | .error e => pure (.inr (.error e))
        | .ok current => do
          match ← pread (len - total) current with
          | .ok bytes =>
            if 0 < bytes.length then pure (.inl (fill data total bytes, total + bytes.length))
            else pure (.inr (.ok (data.take total)))
          | .error e =>
            if e = .intr then pure (.inl (data, total))
            else pure (.inr (.error (SystemError.fromErrno e)))
      else pure (.inr (.ok (data.take total)))) (List.replicate len 0, 0)

def writeAtFdSync (offset : ℕ) (data : List UInt8) : Fs (Result ℕ) :=
  forever (fun total =>
    if total < data.length then
      match checkedOffsetAdd offset total with
      | .error e => pure (.inr (.error e))
      | .ok current => do
        match ← pwrite (data.drop total) current with
        | .ok n =>
          if 0 < n then pure (.inl (total + n))
          else pure (.inr (.error ⟨.ioError, .text "pwrite returned zero"⟩))
        | .error e =>
          if e = .intr then pure (.inl total)
          else pure (.inr (.error (SystemError.fromErrno e)))
    else pure (.inr (.ok total))) 0

/-! ## Offsets -/

theorem checkedOffset_ok {offset : ℕ} {current : ℤ} (h : checkedOffset offset = .ok current) :
    offset ≤ maxOffset := by
  unfold checkedOffset at h
  split at h
  · cases h
  · omega

theorem checkedOffset_error {offset : ℕ} {e : SystemError} (h : checkedOffset offset = .error e) :
    maxOffset < offset := by
  unfold checkedOffset at h
  split at h
  · assumption
  · cases h

theorem checkedOffsetAdd_ok {offset delta : ℕ} {current : ℤ}
    (h : checkedOffsetAdd offset delta = .ok current) :
    current = (offset + delta : ℕ) ∧ offset + delta ≤ maxOffset := by
  unfold checkedOffsetAdd at h
  split at h
  · cases h
  · rename_i hfits
    have hle : offset + delta ≤ maxOffset := by omega
    have hlt : offset + delta < 2 ^ 63 := Nat.lt_of_le_of_lt hle (by decide)
    refine ⟨?_, hle⟩
    rw [← Except.ok.inj h, Nat.mod_eq_of_lt (by omega)]
    exact wrap64_of_lt (by omega) (by omega)

theorem checkedOffsetAdd_error {offset delta : ℕ} {e : SystemError}
    (h : checkedOffsetAdd offset delta = .error e) : maxOffset < offset + delta := by
  unfold checkedOffsetAdd at h
  split at h
  · omega
  · cases h

def Asked (s₀ : Disk) (offset len : ℕ) (s : Disk) : Prop :=
  ∃ os, s.offsets = s₀.offsets ++ os ∧
    ∀ o ∈ os, ∃ total < len, o = (offset + total : ℕ) ∧ offset + total ≤ maxOffset

theorem Asked.start (s : Disk) (offset len : ℕ) : Asked s offset len s := ⟨[], by simp, by simp⟩

theorem Asked.note {s₀ s : Disk} {offset len total : ℕ} (h : Asked s₀ offset len s)
    (hlt : total < len) (hle : offset + total ≤ maxOffset) :
    Asked s₀ offset len (s.note (offset + total : ℕ)) := by
  obtain ⟨os, hos, hall⟩ := h
  refine ⟨os ++ [((offset + total : ℕ) : ℤ)], by rw [Disk.note, hos, List.append_assoc], ?_⟩
  intro o ho
  rcases List.mem_append.mp ho with ho | ho
  · exact hall o ho
  · exact ⟨total, hlt, List.mem_singleton.mp ho, hle⟩

/-! ## Reading -/

section Read
variable {s₀ : Disk} {offset len : ℕ}

structure Loaded (s₀ : Disk) (offset len : ℕ) (t : List UInt8 × ℕ) (s : Disk) : Prop where
  file : s.file = s₀.file
  asked : Asked s₀ offset len s
  size : t.1.length = len
  loaded : t.1.take t.2 = (s₀.file.drop offset).take t.2
  le : t.2 ≤ len
  inFile : t.2 ≤ s₀.file.length - offset

theorem pread_loaded {t : List UInt8 × ℕ} (hlt : t.2 < len) (hle : offset + t.2 ≤ maxOffset) :
    Triple (Loaded s₀ offset len t) (pread (len - t.2) (offset + t.2 : ℕ))
      (fun r s => Loaded s₀ offset len t s ∧ ∀ bytes, r = .ok bytes →
        ∃ n, 0 < n ∧ n ≤ len - t.2 ∧ bytes = (s₀.file.drop (offset + t.2)).take n)
      (Loaded s₀ offset len t) := by
  refine Triple.bind (M := fun _ => Loaded s₀ offset len t) (.ask (fun _ _ h => h) fun _ h => h)
    fun e => ?_
  refine Triple.bind (M := fun _ => Loaded s₀ offset len t) (.update fun s h =>
    ⟨h.file, h.asked.note hlt hle, h.size, h.loaded, h.le, h.inFile⟩) fun _ => ?_
  refine Triple.bind (M := fun file s => file = s₀.file ∧ Loaded s₀ offset len t s)
    (.view fun s h => ⟨h.file, h⟩) fun file => ?_
  cases e with
  | error e => exact .pure fun s h => ⟨h.2, fun bytes hb => by cases hb⟩
  | ok n =>
    dsimp only
    rw [if_neg (by omega)]
    refine .pure fun s h => ⟨h.2, fun bytes hb =>
      ⟨min (max n 1) (len - t.2), by omega, by omega, ?_⟩⟩
    rw [← Except.ok.inj hb, h.1, Int.toNat_natCast]

theorem Loaded.fill {t : List UInt8 × ℕ} {s : Disk} (h : Loaded s₀ offset len t s)
    {bytes : List UInt8} {n : ℕ} (hn : n ≤ len - t.2)
    (hbytes : bytes = (s₀.file.drop (offset + t.2)).take n) :
    Loaded s₀ offset len (fill t.1 t.2 bytes, t.2 + bytes.length) s := by
  have hsize := h.size
  have hle := h.le
  have hinFile := h.inFile
  have hlen : bytes.length = min n (s₀.file.length - (offset + t.2)) := by
    rw [hbytes, List.length_take, List.length_drop]
  have hhead : (t.1.take t.2).length = t.2 := by
    rw [List.length_take]
    omega
  refine ⟨h.file, h.asked, ?_, ?_, by dsimp only; omega, by dsimp only; omega⟩
  · simp only [FileIo.fill, List.length_append, List.length_take, List.length_drop]
    omega
  · dsimp only
    rw [FileIo.fill, List.take_left' (by rw [List.length_append, hhead]), h.loaded, List.take_add,
      List.drop_drop]
    congr 1
    rw [hbytes, List.length_take, List.take_eq_take_iff]
    omega

def ReadDone (s₀ : Disk) (offset len : ℕ) (r : Result (List UInt8)) (s : Disk) : Prop :=
  s.file = s₀.file ∧ Asked s₀ offset len s ∧
    (∀ bytes, r = .ok bytes → bytes = (s₀.file.drop offset).take len) ∧
    (r = .error tooLarge → maxOffset < offset)

theorem Loaded.done {t : List UInt8 × ℕ} {s : Disk} (h : Loaded s₀ offset len t s)
    (hend : len ≤ t.2 ∨ s₀.file.length ≤ offset + t.2) :
    ReadDone s₀ offset len (.ok (t.1.take t.2)) s := by
  refine ⟨h.file, h.asked, fun bytes hb => ?_, fun he => by cases he⟩
  have hle := h.le
  rw [← Except.ok.inj hb, h.loaded, List.take_eq_take_iff, List.length_drop]
  omega

theorem readAt_done :
    Triple (fun s => s = s₀) (readAtFdSync offset len) (ReadDone s₀ offset len)
      fun s => s.file = s₀.file ∧ Asked s₀ offset len s := by
  unfold readAtFdSync
  split
  · rename_i e hoffset
    refine .pure fun s hs => ?_
    subst hs
    exact ⟨rfl, .start _ _ _, fun bytes hb => (by cases hb),
      fun _ => checkedOffset_error hoffset⟩
  · rename_i hoffset
    refine Triple.imp (Triple.forever (I := Loaded s₀ offset len) ?_
      (fun t s h => ⟨h.file, h.asked⟩) (List.replicate len 0, 0)) (fun s hs => ?_) (fun _ _ h => h)
      fun _ h => h
    · rintro ⟨data, total⟩
      dsimp only
      split
      · rename_i hlt
        split
        · rename_i e he
          refine .pure fun s h => ?_
          -- the bytes read so far are in the file, which ends before the largest offset
          have hmax := checkedOffsetAdd_error he
          have hfits := s₀.fits
          have hin := h.inFile
          have hok := checkedOffset_ok hoffset
          dsimp only at hin
          omega
        · rename_i current hcurrent
          obtain ⟨rfl, hle⟩ := checkedOffsetAdd_ok hcurrent
          refine ((pread_loaded (t := (data, total)) hlt hle).imp (fun _ h => h) (fun _ _ h => h)
            fun s h => ⟨h.file, h.asked⟩).bind fun r => ?_
          cases r with
          | error e =>
            dsimp only
            split
            · exact .pure fun s h => h.1
            · exact .pure fun s h => ⟨h.1.file, h.1.asked, fun bytes hb => (by cases hb),
                fun he => (by cases he)⟩
          | ok bytes =>
            dsimp only
            split
            · refine .pure fun s h => ?_
              obtain ⟨hl, hbytes⟩ := h
              obtain ⟨n, -, hn, hb⟩ := hbytes bytes rfl
              exact hl.fill hn hb
            · rename_i hempty
              refine .pure fun s h => ?_
              obtain ⟨hl, hbytes⟩ := h
              obtain ⟨n, hpos, hn, hb⟩ := hbytes bytes rfl
              refine hl.done (Or.inr ?_)
              rw [hb, List.length_take, List.length_drop] at hempty
              dsimp only
              omega
      · rename_i hge
        refine .pure fun s h => h.done (Or.inl ?_)
        dsimp only
        omega
    · subst hs
      exact ⟨rfl, .start _ _ _, List.length_replicate, by simp, Nat.zero_le _, Nat.zero_le _⟩

end Read

/-! ## Writing -/

section Write
variable {s₀ : Disk} {offset : ℕ} {data : List UInt8}

structure Stored (s₀ : Disk) (offset : ℕ) (data : List UInt8) (total : ℕ) (s : Disk) : Prop where
  file : s.file = written s₀.file offset (data.take total)
  asked : Asked s₀ offset data.length s
  le : total ≤ data.length

theorem Stored.write {total n : ℕ} {s : Disk} (h : Stored s₀ offset data total s)
    (hle : offset + total ≤ maxOffset) (hn : n ≤ maxOffset - (offset + total)) :
    Stored s₀ offset data (total + ((data.drop total).take n).length)
      (s.write (offset + total) ((data.drop total).take n)) := by
  have htotal := h.le
  have hlen : ((data.drop total).take n).length = min n (data.length - total) := by
    rw [List.length_take, List.length_drop]
  have hhead : (data.take total).length = total := by
    rw [List.length_take]
    omega
  rw [Disk.write, dif_pos (by omega)]
  refine ⟨?_, h.asked, by omega⟩
  have happend := written_append s₀.file offset (data.take total) ((data.drop total).take n)
  rw [hhead] at happend
  have htake : (data.drop total).take n = (data.drop total).take (min n (data.length - total)) := by
    rw [List.take_eq_take_iff, List.length_drop]
    omega
  dsimp only
  rw [h.file, happend, hlen, List.take_add, htake]

theorem pwrite_stored {total : ℕ} (hlt : total < data.length) (hle : offset + total ≤ maxOffset) :
    Triple (Stored s₀ offset data total) (pwrite (data.drop total) (offset + total : ℕ))
      (fun r s => (∀ e, r = .error e → Stored s₀ offset data total s) ∧
        ∀ n, r = .ok n → Stored s₀ offset data (total + n) s)
      (Stored s₀ offset data total) := by
  refine Triple.bind (M := fun _ => Stored s₀ offset data total)
    (.ask (fun _ _ h => h) fun _ h => h) fun e => ?_
  refine Triple.bind (M := fun _ => Stored s₀ offset data total) (.update fun s h =>
    ⟨h.file, h.asked.note hlt hle, h.le⟩) fun _ => ?_
  cases e with
  | error e => exact .pure fun s h => ⟨fun _ _ => h, fun n hn => by cases hn⟩
  | ok n =>
    dsimp only
    rw [if_neg (by omega), Int.toNat_natCast]
    split
    · exact .pure fun s h => ⟨fun _ _ => h, fun n hn => by cases hn⟩
    · refine Triple.bind (M := fun _ => Stored s₀ offset data
        (total + ((data.drop total).take (min n (maxOffset - (offset + total)))).length))
        (.update fun s h => ?_) fun _ => .pure fun s h =>
          ⟨fun e he => (by cases he), fun k hk => ?_⟩
      · exact h.write hle (Nat.min_le_right _ _)
      · rw [← Except.ok.inj hk]
        exact h

def WriteDone (s₀ : Disk) (offset : ℕ) (data : List UInt8) (r : Result ℕ) (s : Disk) : Prop :=
  Asked s₀ offset data.length s ∧
    ∀ n, r = .ok n → n = data.length ∧ s.file = written s₀.file offset data

theorem writeAt_done :
    Triple (fun s => s = s₀) (writeAtFdSync offset data) (WriteDone s₀ offset data)
      (Asked s₀ offset data.length) := by
  refine Triple.imp (Triple.forever (I := Stored s₀ offset data) (fun total => ?_)
    (fun total s h => h.asked) 0) (fun s hs => ?_) (fun _ _ h => h) fun _ h => h
  · split
    · rename_i hlt
      split
      · exact .pure fun s h => ⟨h.asked, fun n hn => by cases hn⟩
      · rename_i current hcurrent
        obtain ⟨rfl, hle⟩ := checkedOffsetAdd_ok hcurrent
        refine ((pwrite_stored hlt hle).imp (fun _ h => h) (fun _ _ h => h)
          fun s h => h.asked).bind fun r => ?_
        cases r with
        | error e =>
          dsimp only
          split
          · exact .pure fun s h => h.1 e rfl
          · exact .pure fun s h => ⟨(h.1 e rfl).asked, fun n hn => by cases hn⟩
        | ok n =>
          dsimp only
          split
          · exact .pure fun s h => h.2 n rfl
          · exact .pure fun s h => ⟨(h.2 n rfl).asked, fun n hn => by cases hn⟩
    · rename_i hge
      refine .pure fun s h => ⟨h.asked, fun n hn => ?_⟩
      have htotal : total = data.length := le_antisymm h.le (by omega)
      have hfile := h.file
      rw [htotal, List.take_length] at hfile
      exact ⟨(Except.ok.inj hn).symm.trans htotal, hfile⟩
  · subst hs
    exact ⟨by simp [written], .start _ _ _, Nat.zero_le _⟩

end Write

theorem pread_reads (len : ℕ) (offset : ℤ) : Reads (pread len offset) fun _ => True := by
  refine Reads.ask.bind fun e => Reads.update.bind fun _ => Reads.view.bind fun file => ?_
  cases e with
  | error e => exact .pure (by simp)
  | ok n =>
    dsimp only
    split <;> exact .pure (by simp)

theorem pwrite_reads (bytes : List UInt8) (offset : ℤ) :
    Reads (pwrite bytes offset) fun _ => True := by
  refine Reads.ask.bind fun e => Reads.update.bind fun _ => ?_
  cases e with
  | error e => exact .pure (by simp)
  | ok n =>
    dsimp only
    split
    · exact .pure (by simp)
    · split
      · exact .pure (by simp)
      · exact Reads.update.bind fun _ => .pure (by simp)

theorem readAt_reads (offset len : ℕ) : Reads (readAtFdSync offset len) fun _ => False := by
  unfold readAtFdSync
  split
  · exact .pure id
  · refine Reads.forever (fun t => ?_) _
    obtain ⟨data, total⟩ := t
    dsimp only
    split
    · split
      · exact .pure id
      · refine (pread_reads _ _).bind fun r => ?_
        cases r with
        | error e =>
          dsimp only
          split <;> exact .pure (by simp)
        | ok bytes =>
          dsimp only
          split <;> exact .pure (by simp)
    · exact .pure id

theorem writeAt_reads (offset : ℕ) (data : List UInt8) :
    Reads (writeAtFdSync offset data) fun _ => False := by
  refine Reads.forever (fun total => ?_) 0
  split
  · split
    · exact .pure id
    · refine (pwrite_reads _ _).bind fun r => ?_
      cases r with
      | error e =>
        dsimp only
        split <;> exact .pure (by simp)
      | ok n =>
        dsimp only
        split <;> exact .pure (by simp)
  · exact .pure id

/-- A read that succeeds returns the bytes of the range that are in the file and changes nothing;
one that reports an offset error was asked for an offset beyond the largest. A write that succeeds
has put all the data in place, so that any read of the range gives it back. The kernel gets offsets
within the range, none of which has wrapped. Both return unless the script ends first. -/
theorem positional_io_exact (s : Disk) (offset len : ℕ) (data : List UInt8)
    (es : List (Except Errno ℕ)) :
    let r := readAtFdSync offset len s es
    let w := writeAtFdSync offset data s es
    ((∀ bytes, r.result = some (.ok bytes) → bytes = (s.file.drop offset).take len) ∧
      (r.result = some (.error tooLarge) → maxOffset < offset) ∧ r.env.file = s.file ∧
      Asked s offset len r.env ∧ (r.result = none → r.rest = [])) ∧
    (∀ n, w.result = some (.ok n) → n = data.length ∧ w.env.file = written s.file offset data ∧
      ∀ es' bytes, (readAtFdSync offset data.length w.env es').result = some (.ok bytes) →
        bytes = data) ∧
    Asked s offset data.length w.env ∧ (w.result = none → w.rest = []) := by
  have hread : ∀ (s : Disk) len es r, (readAtFdSync offset len s es).result = some r →
      ReadDone s offset len r (readAtFdSync offset len s es).env :=
    fun s len es r hr => (Run.meets_some hr).mp (readAt_done s es rfl)
  have hrest : (readAtFdSync offset len s es).env.file = s.file ∧
      Asked s offset len (readAtFdSync offset len s es).env :=
    (readAt_done.imp (fun _ h => h) (fun _ _ h => ⟨h.1, h.2.1⟩) fun _ h => h).env rfl es
  refine ⟨⟨fun bytes hr => (hread s len es _ hr).2.2.1 bytes rfl,
    fun hr => (hread s len es _ hr).2.2.2 rfl, hrest.1, hrest.2,
    (readAt_reads offset len).stops s es⟩,
    fun n hw => ?_, ?_, (writeAt_reads offset data).stops s es⟩
  · obtain ⟨hn, hfile⟩ := ((Run.meets_some hw).mp (writeAt_done s es rfl)).2 n rfl
    refine ⟨hn, hfile, fun es' bytes hr => ?_⟩
    rw [(hread _ _ es' _ hr).2.2.1 bytes rfl, hfile]
    exact written_read s.file offset data
  · exact (writeAt_done.imp (fun _ h => h) (fun _ _ h => h.1) fun _ h => h).env rfl es

end RainRuntime.FileIo
