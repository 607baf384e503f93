import RainRuntime.FileIo

/-!
# Writing and reading whole files

One path that nobody else uses, and the position of the descriptor that is open on it. The script
answers every system call: `open` and `close` succeed or fail, `write` takes any number of the
bytes, and `read` gets at least one byte unless it is at the end of the file.
-/

namespace RainRuntime.FileIo
open Scripted

/-- `content` is `none` while there is no file. -/
structure Path where
  content : Option (List UInt8)
  position : ℕ

abbrev PathIo := Prog Path (Except Errno ℕ)

inductive OpenMode where
  | readOnly
  | truncate
  | append
  deriving DecidableEq

def openFd (mode : OpenMode) : PathIo (Result Unit) := do
  match ← ask with
  | .error e => pure (.error (SystemError.fromErrno e))
  | .ok _ =>
    match mode, ← view Path.content with
    | .readOnly, none => pure (.error (SystemError.fromErrno .noent))
    | .readOnly, some file => do
      update fun _ => ⟨some file, 0⟩
      pure (.ok ())
    | .truncate, _ => do
      update fun _ => ⟨some [], 0⟩
      pure (.ok ())
    | .append, content => do
      update fun _ => ⟨some (content.getD []), 0⟩
      pure (.ok ())

def closeFd : PathIo (Result Unit) := do
  match ← ask with
  | .error e => pure (.error (SystemError.fromErrno e))
  | .ok _ => pure (.ok ())

def readFd (len : ℕ) : PathIo (Except Errno (List UInt8)) := do
  match ← ask with
  | .error e => pure (.error e)
  | .ok n => do
    let bytes ← view fun s : Path => ((s.content.getD []).drop s.position).take (min (max n 1) len)
    update fun s => { s with position := s.position + bytes.length }
    pure (.ok bytes)

/-- In append mode each write goes to the end of the file. -/
def Path.put (s : Path) (append : Bool) (bytes : List UInt8) : Path :=
  let file := s.content.getD []
  let start := if append then file.length else s.position
  ⟨some (written file start bytes), start + bytes.length⟩

def writeFd (append : Bool) (bytes : List UInt8) : PathIo (Except Errno ℕ) := do
  match ← ask with
  | .error e => pure (.error e)
  | .ok n => do
    update fun s => s.put append (bytes.take n)
    pure (.ok (bytes.take n).length)

def writeAllFd (append : Bool) (data : List UInt8) : PathIo (Result Unit) :=
  forever (fun total =>
    if total < data.length then do
      match ← writeFd append (data.drop total) with
      | .ok n =>
        if 0 < n then pure (.inl (total + n))
        else pure (.inr (.error ⟨.ioError, .text "write returned zero"⟩))
      | .error e =>
        if e = .intr then pure (.inl total) else pure (.inr (.error (SystemError.fromErrno e)))
    else pure (.inr (.ok ()))) 0

def kReadBuffer : ℕ := 8192

def readAllFd : PathIo (Result (List UInt8)) :=
  forever (fun data => do
    match ← readFd kReadBuffer with
    | .ok bytes =>
      if 0 < bytes.length then pure (.inl (data ++ bytes)) else pure (.inr (.ok data))
    | .error e =>
      if e = .intr then pure (.inl data) else pure (.inr (.error (SystemError.fromErrno e)))) []

def readFileSync : PathIo (Result (List UInt8)) := do
  match ← openFd .readOnly with
  | .error e => pure (.error e)
  | .ok _ => do
    match ← readAllFd with
    | .error e => pure (.error e)
    | .ok data => do
      match ← closeFd with
      | .error e => pure (.error e)
      | .ok _ => pure (.ok data)

def writeFileSync (data : List UInt8) (append : Bool) : PathIo (Result Unit) := do
  match ← openFd (if append then .append else .truncate) with
  | .error e => pure (.error e)
  | .ok _ => do
    match ← writeAllFd append data with
    | .error e => pure (.error e)
    | .ok _ => closeFd

/-! ## What the calls leave behind -/

theorem closeFd_keeps {P : Path → Prop} : Triple P closeFd (fun _ => P) fun _ => True :=
  .bind (M := fun _ => P) (.ask (fun _ _ h => h) fun _ _ => trivial) fun e => by
    cases e <;> exact .pure fun _ h => h

structure AtEnd (append : Bool) (file : List UInt8) (s : Path) : Prop where
  content : s.content = some file
  position : append = false → s.position = file.length

theorem written_end (file bytes : List UInt8) : written file file.length bytes = file ++ bytes := by
  rw [written]
  split
  · simp_all
  · simp [splice, padTo]

theorem AtEnd.put {append : Bool} {file : List UInt8} {s : Path} (h : AtEnd append file s)
    (bytes : List UInt8) : AtEnd append (file ++ bytes) (s.put append bytes) := by
  have hstart : (if append then file.length else s.position) = file.length := by
    cases append with
    | true => rfl
    | false => exact h.position rfl
  simp only [Path.put, h.content, Option.getD_some, hstart, written_end]
  exact ⟨rfl, fun _ => List.length_append.symm⟩

section Write
variable {append : Bool} {file data : List UInt8}

theorem writeFd_atEnd {bytes : List UInt8} :
    Triple (AtEnd append file) (writeFd append bytes)
      (fun r s => (∀ e, r = .error e → AtEnd append file s) ∧
        ∀ n, r = .ok n → n ≤ bytes.length ∧ AtEnd append (file ++ bytes.take n) s)
      fun _ => True := by
  refine Triple.bind (M := fun _ => AtEnd append file) (.ask (fun _ _ h => h) fun _ _ => trivial)
    fun e => ?_
  cases e with
  | error e => exact .pure fun s h => ⟨fun _ _ => h, fun n hn => by cases hn⟩
  | ok n =>
    refine Triple.bind (M := fun _ => AtEnd append (file ++ bytes.take n))
      (.update fun s h => h.put _) fun _ => .pure fun s h =>
      ⟨fun e he => (by cases he), fun k hk => ?_⟩
    obtain rfl := Except.ok.inj hk
    refine ⟨by simp, ?_⟩
    have htake : bytes.take (bytes.take n).length = bytes.take n := by
      rw [List.length_take, List.take_eq_take_iff]
      omega
    rw [htake]
    exact h

theorem writeAllFd_atEnd :
    Triple (AtEnd append file) (writeAllFd append data)
      (fun r s => r = .ok () → AtEnd append (file ++ data) s) fun _ => True := by
  refine Triple.imp (Triple.forever
    (I := fun total s => total ≤ data.length ∧ AtEnd append (file ++ data.take total) s)
    (fun total => ?_) (fun _ _ _ => trivial) 0) (fun s h => ⟨Nat.zero_le _, by simpa using h⟩)
    (fun _ _ h => h) fun _ h => h
  split
  · rename_i hlt
    intro s es hs
    refine (writeFd_atEnd.bind fun r => ?_) s es hs.2
    cases r with
    | error e =>
      dsimp only
      split
      · exact .pure fun s h => ⟨hs.1, h.1 e rfl⟩
      · exact .pure fun s h he => by cases he
    | ok n =>
      dsimp only
      split
      · refine .pure fun s h => ?_
        obtain ⟨hn, hend⟩ := h.2 n rfl
        rw [List.length_drop] at hn
        rw [List.append_assoc, ← List.take_add] at hend
        exact ⟨by omega, hend⟩
      · exact .pure fun s h he => by cases he
  · rename_i hge
    refine .pure fun s h _ => ?_
    rw [List.take_of_length_le (by omega)] at h
    exact h.2

end Write

structure FileWrite where
  data : List UInt8
  append : Bool

def FileWrite.apply (file : List UInt8) (w : FileWrite) : List UInt8 :=
  if w.append then file ++ w.data else w.data

theorem openFd_write (append : Bool) (file : List UInt8) :
    Triple (fun s => s.content.getD [] = file) (openFd (if append then .append else .truncate))
      (fun r s => r = .ok () → AtEnd append (if append then file else []) s) fun _ => True := by
  refine Triple.bind (M := fun _ s => s.content.getD [] = file)
    (.ask (fun _ _ h => h) fun _ _ => trivial) fun e => ?_
  cases e with
  | error e => exact .pure fun s _ he => by cases he
  | ok n =>
    refine Triple.bind (M := fun content _ => content.getD [] = file) (.view fun s h => h)
      fun content => ?_
    cases append with
    | true =>
      refine .bind (M := fun _ => AtEnd true file) (.update fun s h => ?_) fun _ => .pure
        fun s h _ => h
      exact ⟨congrArg some h, fun ht => by cases ht⟩
    | false =>
      refine .bind (M := fun _ => AtEnd false []) (.update fun s h => ?_) fun _ => .pure
        fun s h _ => h
      exact ⟨rfl, fun _ => rfl⟩

theorem writeFileSync_content (w : FileWrite) (file : List UInt8) :
    Triple (fun s => s.content.getD [] = file) (writeFileSync w.data w.append)
      (fun r s => r = .ok () → s.content = some (w.apply file)) fun _ => True := by
  refine (openFd_write w.append file).bind fun r => ?_
  cases r with
  | error e => exact .pure fun s _ he => by cases he
  | ok _ =>
    refine Triple.bind (M := fun r s => r = .ok () → s.content = some (w.apply file))
      (writeAllFd_atEnd.imp (fun s h => h rfl) (fun r s h hr => ?_) fun _ h => h) fun r => ?_
    · rw [(h hr).content, FileWrite.apply]
      cases w.append <;> rfl
    · cases r with
      | error e => exact .pure fun s _ he => by cases he
      | ok _ => exact closeFd_keeps.imp (fun s h => h rfl) (fun r s h _ => h) fun _ h => h

/-! ## Reading back -/

section Read
variable {file : List UInt8}

structure Passed (file data : List UInt8) (s : Path) : Prop where
  content : s.content = some file
  data : data = file.take s.position
  le : s.position ≤ file.length

theorem readFd_passed {data : List UInt8} {len : ℕ} (hlen : 0 < len) :
    Triple (Passed file data) (readFd len)
      (fun r s => (∀ e, r = .error e → Passed file data s) ∧
        ∀ bytes, r = .ok bytes → Passed file (data ++ bytes) s ∧ (bytes = [] → data = file))
      fun _ => True := by
  refine Triple.bind (M := fun _ => Passed file data) (.ask (fun _ _ h => h) fun _ _ => trivial)
    fun e => ?_
  cases e with
  | error e => exact .pure fun s h => ⟨fun _ _ => h, fun n hn => by cases hn⟩
  | ok n =>
    refine Triple.bind (M := fun bytes s => Passed file data s ∧
      bytes = (file.drop s.position).take (min (max n 1) len))
      (.view fun s h => ⟨h, by rw [h.content]; rfl⟩) fun bytes => ?_
    refine Triple.bind (M := fun _ s => Passed file (data ++ bytes) s ∧ (bytes = [] → data = file))
      (.update fun s h => ?_) fun _ => .pure fun s h => ⟨fun e he => (by cases he), fun b hb => ?_⟩
    · obtain ⟨hp, hbytes⟩ := h
      have hle := hp.le
      have hblen : bytes.length = min (min (max n 1) len) (file.length - s.position) := by
        rw [hbytes, List.length_take, List.length_drop]
      refine ⟨⟨hp.content, ?_, by dsimp only; omega⟩, fun hnil => ?_⟩
      · dsimp only
        rw [hp.data, List.take_add, hbytes]
        congr 1
        rw [List.take_eq_take_iff, List.length_take]
        omega
      · rw [hnil, List.length_nil] at hblen
        rw [hp.data]
        exact List.take_of_length_le (by omega)
    · rw [← Except.ok.inj hb]
      exact h

theorem readAllFd_passed :
    Triple (Passed file []) readAllFd (fun r _ => ∀ data, r = .ok data → data = file)
      fun _ => True := by
  refine Triple.forever (I := Passed file) (fun data => ?_) (fun _ _ _ => trivial) []
  refine (readFd_passed (by decide)).bind fun r => ?_
  cases r with
  | error e =>
    dsimp only
    split
    · exact .pure fun s h => h.1 e rfl
    · exact .pure fun s h d hd => by cases hd
  | ok bytes =>
    dsimp only
    split
    · exact .pure fun s h => (h.2 bytes rfl).1
    · rename_i hempty
      refine .pure fun s h d hd => ?_
      rw [← Except.ok.inj hd]
      exact (h.2 bytes rfl).2 (List.length_eq_zero_iff.mp (by omega))

theorem readFileSync_content :
    Triple (fun s => s.content.getD [] = file) readFileSync
      (fun r _ => ∀ data, r = .ok data → data = file) fun _ => True := by
  refine Triple.bind (M := fun r s => r = .ok () → Passed file [] s) ?_ fun r => ?_
  · refine Triple.bind (M := fun _ s => s.content.getD [] = file)
      (.ask (fun _ _ h => h) fun _ _ => trivial) fun e => ?_
    cases e with
    | error e => exact .pure fun s _ he => by cases he
    | ok n =>
      refine Triple.bind (M := fun content _ => content.getD [] = file) (.view fun s h => h)
        fun content => ?_
      cases content with
      | none => exact .pure fun s _ he => by cases he
      | some bytes =>
        refine .bind (M := fun _ => Passed file []) (.update fun s h => ?_) fun _ => .pure
          fun s h _ => h
        exact ⟨congrArg some h, rfl, Nat.zero_le _⟩
  · cases r with
    | error e => exact .pure fun s _ d hd => by cases hd
    | ok _ =>
      refine (readAllFd_passed.imp (fun s h => h rfl) (fun _ _ h => h) fun _ h => h).bind
        fun r => ?_
      cases r with
      | error e => exact .pure fun s _ d hd => by cases hd
      | ok data =>
        refine closeFd_keeps.bind fun c => ?_
        cases c with
        | error e => exact .pure fun s _ d hd => by cases hd
        | ok _ => exact .pure fun s h => h

end Read

def Wrote : Path → List FileWrite → Path → Prop
  | s, [], t => t = s
  | s, w :: ws, t => ∃ es, (writeFileSync w.data w.append s es).result = some (.ok ()) ∧
      Wrote (writeFileSync w.data w.append s es).env ws t

theorem Wrote.content {s t : Path} {ws : List FileWrite} (h : Wrote s ws t) :
    t.content.getD [] = ws.foldl FileWrite.apply (s.content.getD []) := by
  induction ws generalizing s with
  | nil => rw [show t = s from h, List.foldl_nil]
  | cons w ws ih =>
    obtain ⟨es, hok, hrest⟩ := h
    have hcontent := (Run.meets_some hok).mp (writeFileSync_content w _ s es rfl) rfl
    rw [ih hrest, hcontent, List.foldl_cons, Option.getD_some]

theorem foldl_apply_append {ws : List FileWrite} (h : ∀ w ∈ ws, w.append = true)
    (file : List UInt8) :
    ws.foldl FileWrite.apply file = file ++ ws.flatMap FileWrite.data := by
  induction ws generalizing file with
  | nil => simp
  | cons w ws ih =>
    rw [List.foldl_cons, ih fun v hv => h v (List.mem_cons_of_mem w hv), FileWrite.apply,
      if_pos (h w (List.mem_cons_self ..)), List.flatMap_cons, List.append_assoc]

/-- After writes that have all succeeded, a read that succeeds gives the data of the last write that
truncated, or the first content if none did, followed by the data of the later writes. -/
theorem whole_files_compose {s t : Path} {ws : List FileWrite} (hws : Wrote s ws t)
    {es : List (Except Errno ℕ)} {bytes : List UInt8}
    (hread : (readFileSync t es).result = some (.ok bytes)) :
    (∀ pre data post, ws = pre ++ ⟨data, false⟩ :: post → (∀ w ∈ post, w.append = true) →
      bytes = data ++ post.flatMap FileWrite.data) ∧
    ((∀ w ∈ ws, w.append = true) → bytes = s.content.getD [] ++ ws.flatMap FileWrite.data) := by
  have hbytes : bytes = ws.foldl FileWrite.apply (s.content.getD []) :=
    (Run.meets_some hread).mp (readFileSync_content t es hws.content) bytes rfl
  refine ⟨fun pre data post hsplit hpost => ?_, fun hall => ?_⟩
  · rw [hbytes, hsplit, List.foldl_append, List.foldl_cons, foldl_apply_append hpost]
    rfl
  · rw [hbytes, foldl_apply_append hall]

/-- A file that did not exist is written in pieces of two bytes, extended, and read. -/
theorem whole_files_compose_on_new_file :
    let es : List (Except Errno ℕ) := [.ok 2, .ok 2, .ok 2, .ok 2, .ok 2]
    Wrote ⟨none, 0⟩ [⟨[1, 2, 3], false⟩, ⟨[4], true⟩] ⟨some [1, 2, 3, 4], 4⟩ ∧
      (readFileSync ⟨some [1, 2, 3, 4], 4⟩ es).result = some (.ok [1, 2, 3, 4]) ∧
      [1, 2, 3, 4] = [1, 2, 3] ++ List.flatMap FileWrite.data [⟨[4], true⟩] := by
  intro es
  have hfirst : writeFileSync [1, 2, 3] false ⟨none, 0⟩ es =
      ⟨⟨some [1, 2, 3], 3⟩, [.ok 2], some (.ok ())⟩ := by
    simp [es, writeFileSync, openFd, writeAllFd, forever_bind_run, rounds, writeFd, Path.put,
      written, splice, padTo, closeFd]
  have hsecond : writeFileSync [4] true ⟨some [1, 2, 3], 3⟩ es =
      ⟨⟨some [1, 2, 3, 4], 4⟩, [.ok 2, .ok 2], some (.ok ())⟩ := by
    simp [es, writeFileSync, openFd, writeAllFd, forever_bind_run, rounds, writeFd, Path.put,
      written, splice, padTo, closeFd]
  have hread : (readFileSync ⟨some [1, 2, 3, 4], 4⟩ es).result = some (.ok [1, 2, 3, 4]) := by
    simp [es, readFileSync, openFd, readAllFd, forever_bind_run, rounds, readFd,
      kReadBuffer, closeFd]
  have hws : Wrote ⟨none, 0⟩ [⟨[1, 2, 3], false⟩, ⟨[4], true⟩] ⟨some [1, 2, 3, 4], 4⟩ := by
    refine ⟨es, by rw [hfirst], es, ?_, ?_⟩
    · rw [hfirst, hsecond]
    · rw [hfirst, hsecond]
      rfl
  exact ⟨hws, hread, (whole_files_compose hws hread).1 [] [1, 2, 3] [⟨[4], true⟩] rfl (by simp)⟩

end RainRuntime.FileIo
