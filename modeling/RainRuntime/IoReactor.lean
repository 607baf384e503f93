import Mathlib.Data.List.GetD
import RainRuntime.Types
import RainRuntime.Transition

/-!
# The epoll reactor

One kernel registration per fd serves a read waiter and a write waiter. Every
registration is `EPOLLONESHOT`, so a reported fd is disarmed until the reactor
installs the interest of the waiters that are left. Slots without waiters keep their
place in the table and their registration in the kernel.

The kernel is part of the state: which fds are open, what epoll has registered for
them, and for which of them `epoll_ctl` fails for reasons of its own (`fault`).
-/

namespace RainRuntime

abbrev IoEvent := BitVec 32

namespace IoEvent
def read : IoEvent := 1#32 <<< 0
def write : IoEvent := 1#32 <<< 1
def error : IoEvent := 1#32 <<< 2
def hangUp : IoEvent := 1#32 <<< 3
def edgeTrig : IoEvent := 1#32 <<< 4
def oneShot : IoEvent := 1#32 <<< 5
end IoEvent

def hasFlag (set flag : IoEvent) : Bool := set &&& flag == flag

def epollIn : BitVec 32 := 0x001#32
def epollOut : BitVec 32 := 0x004#32
def epollErr : BitVec 32 := 0x008#32
def epollHup : BitVec 32 := 0x010#32
def epollOneShot : BitVec 32 := 1#32 <<< 30
def epollEt : BitVec 32 := 1#32 <<< 31

def toEpollEvents (ev : IoEvent) : BitVec 32 :=
  (if hasFlag ev IoEvent.read then epollIn else 0) |||
  (if hasFlag ev IoEvent.write then epollOut else 0) |||
  (if hasFlag ev IoEvent.error then epollErr else 0) |||
  (if hasFlag ev IoEvent.hangUp then epollHup else 0) |||
  (if hasFlag ev IoEvent.edgeTrig then epollEt else 0) |||
  (if hasFlag ev IoEvent.oneShot then epollOneShot else 0)

structure Registration where
  mask : BitVec 32
  armed : Bool
  deriving DecidableEq

structure Kernel where
  isOpen : ℤ → Bool
  table : ℤ → Option Registration
  fault : ℤ → Option Errno

inductive CtlOp where
  | add
  | mod
  | del

namespace Kernel

def setTable (k : Kernel) (fd : ℤ) (r : Option Registration) : Kernel :=
  { k with table := Function.update k.table fd r }

def exist : Errno := .other 17

def epollCtl (k : Kernel) (op : CtlOp) (fd : ℤ) (mask : BitVec 32) : Except Errno Kernel :=
  if k.isOpen fd = false then .error .badf else
  match k.fault fd with
  | some e => .error e
  | none =>
    match op, k.table fd with
    | .add, none => .ok (k.setTable fd (some ⟨mask, true⟩))
    | .add, some _ => .error exist
    | .mod, none => .error .noent
    | .mod, some _ => .ok (k.setTable fd (some ⟨mask, true⟩))
    | .del, none => .error .noent
    | .del, some _ => .ok (k.setTable fd none)

/-- What `epoll_wait` does to a registration it reports. -/
def report (k : Kernel) (fd : ℤ) : Kernel :=
  match k.table fd with
  | none => k
  | some r =>
    if r.mask &&& epollOneShot = 0 then k else k.setTable fd (some { r with armed := false })

end Kernel

inductive Direction where
  | read
  | write
  deriving DecidableEq

namespace Direction

def other : Direction → Direction
  | .read => .write
  | .write => .read

def flag : Direction → IoEvent
  | .read => IoEvent.read
  | .write => IoEvent.write

def epollBit : Direction → BitVec 32
  | .read => epollIn
  | .write => epollOut

end Direction

structure PendingEntry where
  handle : Option Handle
  result : Option StatePtr
  state : Option StatePtr
  completion : WaitState
  deriving DecidableEq

structure FdEntry where
  read : Option PendingEntry
  write : Option PendingEntry
  deriving DecidableEq

namespace FdEntry

def idle : FdEntry := ⟨none, none⟩

def get (e : FdEntry) : Direction → Option PendingEntry
  | .read => e.read
  | .write => e.write

def set (e : FdEntry) (d : Direction) (p : Option PendingEntry) : FdEntry :=
  match d with
  | .read => { e with read := p }
  | .write => { e with write := p }

def isIdle (e : FdEntry) : Bool := e.read.isNone && e.write.isNone

@[simp] theorem get_idle (d : Direction) : idle.get d = none := by cases d <;> rfl

theorem get_set (e : FdEntry) (d : Direction) (p : Option PendingEntry) (c : Direction) :
    (e.set d p).get c = if c = d then p else e.get c := by
  cases d <;> cases c <;> rfl

theorem isIdle_iff (e : FdEntry) : e.isIdle = true ↔ ∀ d, e.get d = none := by
  constructor
  · intro h d
    simp only [isIdle, Bool.and_eq_true, Option.isNone_iff_eq_none] at h
    cases d with
    | read => exact h.1
    | write => exact h.2
  · intro h
    have hr : e.read = none := h .read
    have hw : e.write = none := h .write
    simp [isIdle, hr, hw]

end FdEntry

structure EpollReactor where
  slots : List FdEntry
  ready : List Handle

namespace EpollReactor

def slotAt (r : EpollReactor) (i : ℕ) : FdEntry := r.slots.getD i FdEntry.idle

def ensureSlot (r : EpollReactor) (i : ℕ) : EpollReactor :=
  if r.slots.length ≤ i then
    { r with slots := r.slots ++ List.replicate (i + 1 - r.slots.length) FdEntry.idle }
  else r

def setSlot (r : EpollReactor) (i : ℕ) (e : FdEntry) : EpollReactor :=
  { r with slots := r.slots.set i e }

def clearSlot (r : EpollReactor) (fd : ℤ) : EpollReactor :=
  if fd < 0 then r else
  if fd.toNat < r.slots.length then r.setSlot fd.toNat FdEntry.idle else r

def drainReady (r : EpollReactor) : List Handle × EpollReactor := (r.ready, { r with ready := [] })

theorem slotAt_ensureSlot (r : EpollReactor) (i j : ℕ) :
    (r.ensureSlot i).slotAt j = r.slotAt j := by
  unfold ensureSlot
  split_ifs with h
  · simp only [slotAt, List.getD_eq_getElem?_getD]
    by_cases hj : j < r.slots.length
    · rw [List.getElem?_append_left hj]
    · rw [List.getElem?_append_right (by omega), List.getElem?_replicate,
        List.getElem?_eq_none (l := r.slots) (by omega)]
      split_ifs <;> rfl
  · rfl

theorem lt_length_ensureSlot (r : EpollReactor) (i : ℕ) : i < (r.ensureSlot i).slots.length := by
  unfold ensureSlot
  split_ifs with h
  · simp only [List.length_append, List.length_replicate]
    omega
  · omega

theorem slotAt_setSlot (r : EpollReactor) {i : ℕ} (hi : i < r.slots.length) (e : FdEntry) (j : ℕ) :
    (r.setSlot i e).slotAt j = if j = i then e else r.slotAt j := by
  simp only [slotAt, setSlot, List.getD_eq_getElem?_getD]
  by_cases hj : j = i
  · subst hj
    rw [List.getElem?_set_self hi, if_pos rfl, Option.getD_some]
  · rw [List.getElem?_set_ne (Ne.symm hj), if_neg hj]

theorem slotAt_of_length_le (r : EpollReactor) {i : ℕ} (h : r.slots.length ≤ i) :
    r.slotAt i = FdEntry.idle := by
  simp [slotAt, List.getD_eq_getElem?_getD, List.getElem?_eq_none h]

theorem slotAt_clearSlot (r : EpollReactor) (fd : ℤ) (i : ℕ) :
    (r.clearSlot fd).slotAt i = if (i : ℤ) = fd then FdEntry.idle else r.slotAt i := by
  unfold clearSlot
  by_cases hneg : fd < 0
  · rw [if_pos hneg, if_neg (by omega)]
  rw [if_neg hneg]
  by_cases hlen : fd.toNat < r.slots.length
  · rw [if_pos hlen, r.slotAt_setSlot hlen]
    by_cases hi : (i : ℤ) = fd
    · rw [if_pos hi, if_pos (by omega)]
    · rw [if_neg hi, if_neg (by omega)]
  · rw [if_neg hlen]
    split_ifs with hi
    · exact r.slotAt_of_length_le (by omega)
    · rfl

end EpollReactor

structure IoState where
  kernel : Kernel
  reactor : EpollReactor
  heap : Heap

inductive PollReport where
  | failed (e : Errno)
  | reported (events : List (ℤ × BitVec 32))

namespace IoState

def withSlot (s : IoState) (i : ℕ) (e : FdEntry) : IoState :=
  { s with reactor := s.reactor.setSlot i e }

def add (s : IoState) (fd : ℤ) (events : IoEvent) : Result Unit × IoState :=
  match s.kernel.epollCtl .add fd (toEpollEvents events) with
  | .ok k => (.ok (), { s with kernel := k })
  | .error e => (.error (SystemError.fromErrno e), s)

def ensure (s : IoState) (fd : ℤ) (events : IoEvent) : Result Unit × IoState :=
  match s.kernel.epollCtl .mod fd (toEpollEvents events) with
  | .ok k => (.ok (), { s with kernel := k })
  | .error .noent =>
    match s.kernel.epollCtl .add fd (toEpollEvents events) with
    | .ok k => (.ok (), { s with kernel := k })
    | .error e => (.error (SystemError.fromErrno e), s)
  | .error e => (.error (SystemError.fromErrno e), s)

/-- The interest a registration installs; `e` is the slot before it. -/
def registerInterest (d : Direction) (e : FdEntry) : IoEvent :=
  let interest := d.flag ||| IoEvent.edgeTrig ||| IoEvent.oneShot
  if (e.get d.other).isSome then interest ||| d.other.flag else interest

def rearmInterest (e : FdEntry) : IoEvent :=
  let interest := IoEvent.edgeTrig ||| IoEvent.oneShot
  let interest := if e.read.isSome then interest ||| IoEvent.read else interest
  if e.write.isSome then interest ||| IoEvent.write else interest

def register (d : Direction) (negative busy : String) (s : IoState) (fd : ℤ) (p : PendingEntry) :
    Result Unit × IoState :=
  if fd < 0 then (.error ⟨.badFileDescriptor, .text negative⟩, s) else
  let i := fd.toNat
  let s := { s with reactor := s.reactor.ensureSlot i }
  let e := s.reactor.slotAt i
  if (e.get d).isSome then (.error ⟨.deviceOrResourceBusy, .text busy⟩, s) else
  let s := s.withSlot i (e.set d (some p))
  match s.ensure fd (registerInterest d e) with
  | (.ok (), s) => (.ok (), s)
  | (.error err, s) => (.error err, s.withSlot i ((s.reactor.slotAt i).set d none))

def registerRead : IoState → ℤ → PendingEntry → Result Unit × IoState :=
  register .read "register_read: negative fd" "register_read: read already pending on fd"

def registerWrite : IoState → ℤ → PendingEntry → Result Unit × IoState :=
  register .write "register_write: negative fd" "register_write: write already pending on fd"

def rearmOrErase (s : IoState) (fd : ℤ) : IoState :=
  if fd < 0 ∨ s.reactor.slots.length ≤ fd.toNat then s else
  let e := s.reactor.slotAt fd.toNat
  if e.isIdle then s else
  (s.ensure fd (rearmInterest e)).2

def deregister (s : IoState) (fd : ℤ) : IoState :=
  { s with reactor := s.reactor.clearSlot fd }

def deregisterDir (s : IoState) (fd : ℤ) (dir : IoEvent) : IoState :=
  if fd < 0 ∨ s.reactor.slots.length ≤ fd.toNat then s else
  let e := s.reactor.slotAt fd.toNat
  if e.isIdle then s else
  let e := if hasFlag dir IoEvent.read then e.set .read none else e
  let e := if hasFlag dir IoEvent.write then e.set .write none else e
  (s.withSlot fd.toNat e).rearmOrErase fd

def remove (s : IoState) (fd : ℤ) : Result Unit × IoState :=
  if fd < 0 then (.ok (), s) else
  match s.kernel.epollCtl .del fd 0 with
  | .ok k => (.ok (), { s with kernel := k, reactor := s.reactor.clearSlot fd })
  | .error e =>
    if e ≠ .noent ∧ e ≠ .badf then (.error (SystemError.fromErrno e), s)
    else (.ok (), { s with reactor := s.reactor.clearSlot fd })

def fire (s : IoState) (p : PendingEntry) : Bool × IoState :=
  let go (s : IoState) : Bool × IoState :=
    let s := match p.result with
      | some q => { s with heap := s.heap.setResult q (.ok 0) }
      | none => s
    match p.handle with
    | some h => (true, { s with reactor := { s.reactor with ready := s.reactor.ready ++ [h] } })
    | none => (false, s)
  match p.state with
  | none => go s
  | some q =>
    if s.heap.state q ≠ .pending then (false, s)
    else go { s with heap := s.heap.setState q p.completion }

/-- One direction of `poll`'s loop body: `i` is the slot, `ep` the reported bits. -/
def dispatch (d : Direction) (i : ℕ) (ep : BitVec 32) (s : ℕ × IoState) : ℕ × IoState :=
  match (s.2.reactor.slotAt i).get d with
  | none => s
  | some p =>
    if ep &&& d.epollBit ≠ 0 ∨ ep &&& (epollErr ||| epollHup) ≠ 0 then
      let r := s.2.fire p
      (if r.1 then s.1 + 1 else s.1,
        r.2.withSlot i ((r.2.reactor.slotAt i).set d none))
    else s

def handleEvent (s : ℕ × IoState) (ev : ℤ × BitVec 32) : ℕ × IoState :=
  if ev.1 < 0 ∨ s.2.reactor.slots.length ≤ ev.1.toNat then s else
  if (s.2.reactor.slotAt ev.1.toNat).isIdle then s else
  let r := dispatch .write ev.1.toNat ev.2 (dispatch .read ev.1.toNat ev.2 s)
  (r.1, r.2.rearmOrErase ev.1)

def poll (s : IoState) : PollReport → Result ℕ × IoState
  | .failed .intr => (.ok 0, s)
  | .failed e => (.error (SystemError.fromErrno e), s)
  | .reported events =>
    let k := events.foldl (fun k ev => k.report ev.1) s.kernel
    let r := events.foldl handleEvent (0, { s with kernel := k })
    (.ok r.1, r.2)

end IoState

/-- What the callers of the reactor and the kernel around it do. An fd is closed only when
epoll holds no registration for it, as after `remove`. -/
inductive IoOp where
  | registerRead (fd : ℤ) (p : PendingEntry)
  | registerWrite (fd : ℤ) (p : PendingEntry)
  | deregister (fd : ℤ)
  | deregisterDir (fd : ℤ) (dir : IoEvent)
  | remove (fd : ℤ)
  | poll (report : PollReport)
  | drainReady
  | heap (m : Heap)
  | openFd (fd : ℤ)
  | closeFd (fd : ℤ)

namespace IoState

def step (s : IoState) : IoOp → Option IoState
  | .registerRead fd p => some (s.registerRead fd p).2
  | .registerWrite fd p => some (s.registerWrite fd p).2
  | .deregister fd => some (s.deregister fd)
  | .deregisterDir fd dir => some (s.deregisterDir fd dir)
  | .remove fd => some (s.remove fd).2
  | .poll report => some (s.poll report).2
  | .drainReady => some { s with reactor := s.reactor.drainReady.2 }
  | .heap m => some { s with heap := m }
  | .openFd fd =>
    some { s with kernel := { s.kernel with isOpen := Function.update s.kernel.isOpen fd true } }
  | .closeFd fd =>
    if s.kernel.table fd = none then
      some { s with kernel := { s.kernel with isOpen := Function.update s.kernel.isOpen fd false } }
    else none

def fresh (k : Kernel) (m : Heap) : IoState := ⟨k, ⟨[], []⟩, m⟩

def Reaches (k : Kernel) (m : Heap) (ops : List IoOp) (s : IoState) : Prop :=
  Transition.run step (fresh k m) ops = some s

end IoState
end RainRuntime
