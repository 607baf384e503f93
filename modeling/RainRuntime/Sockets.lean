import RainRuntime.IoReactor

/-!
# Streams, listeners and the descriptors they own

`TcpStream` and `TcpListener` are an `fd_` each, given back by `close_fd`; `connect` keeps the
number of its socket in its frame until the connection stands, and `accept` and the transfers copy
a number and go on using it after they have suspended. `vars` are the objects of the program and
`frames` the coroutines. The answers of the kernel come with the operations; a new descriptor gets
any number that is free.

`files` is what a number stands for at the moment: the sockets opened here are counted, and
`some none` is a descriptor of some other part of the process. `log` records what the calls hit.
-/

namespace RainRuntime.Sockets

structure ListenOptions where
  reuseAddr : Bool := true
  reusePort : Bool := true

abbrev File := Option (Option ℕ)

def Errno.inProgress : Errno := .other 115

/-- `started` is what the number stood for when the operation was called. -/
inductive Frame where
  | connecting (fd : ℤ)
  | accepting (listener : ℕ) (fd : ℤ) (started : File)
  | transfer (fd : ℤ) (started : File)
  | ended

inductive Event where
  | closed (fd : ℤ) (target : File)
  | leaked (fd : ℤ) (target : File)
  | used (fd : ℤ) (started target : File)
  | dangling (listener : ℕ)

/-- A variable whose object has been destroyed is `none`. -/
structure SocketWorld where
  io : IoState
  files : ℤ → File
  opened : ℕ
  vars : List (Option ℤ)
  frames : List Frame
  log : List Event

/-- The answers to `F_GETFL` (is `O_NONBLOCK` set) and `F_SETFL`. -/
structure FcntlCalls where
  getFl : Except Errno Bool
  setFl : Option Errno

def ensureNonblocking (a : FcntlCalls) : Result Unit :=
  match a.getFl with
  | .error e => .error (SystemError.fromErrno e)
  | .ok true => .ok ()
  | .ok false =>
    match a.setFl with
    | some e => .error (SystemError.fromErrno e)
    | none => .ok ()

structure ConnectCalls where
  socket : Except Errno ℤ
  connect : Option Errno
  fcntl : FcntlCalls

structure BindCalls where
  socket : Except Errno ℤ
  reuseAddr : Option Errno
  reusePort : Option Errno
  bind : Option Errno
  listen : Option Errno

structure AcceptCalls where
  accept4 : Except Errno ℤ
  fcntl : FcntlCalls

namespace SocketWorld

def note (s : SocketWorld) (e : Event) : SocketWorld := { s with log := s.log ++ [e] }

def withOpen (s : SocketWorld) (fd : ℤ) (f : File) : SocketWorld :=
  { s with
    files := Function.update s.files fd f
    io := { s.io with
      kernel := { s.io.kernel with isOpen := Function.update s.io.kernel.isOpen fd f.isSome } } }

def sysOpen (s : SocketWorld) (fd : ℤ) : SocketWorld :=
  { s.withOpen fd (some (some s.opened)) with opened := s.opened + 1 }

/-- The number is free, and epoll forgets it; the reactor is not told. -/
def release (s : SocketWorld) (fd : ℤ) : SocketWorld :=
  let t := s.withOpen fd none
  { t with io := { t.io with kernel := t.io.kernel.setTable fd none } }

def sysClose (s : SocketWorld) (fd : ℤ) : SocketWorld :=
  (s.release fd).note (.closed fd (s.files fd))

/-- The result of `::close`, which releases the number even if it fails. -/
def closeAnswer (s : SocketWorld) (fd : ℤ) (answer : Option Errno) : Option Errno :=
  if s.files fd = none then some .badf else answer

def firstError : Result Unit → Option Errno → Result Unit
  | .error e, _ => .error e
  | .ok (), some e => .error (SystemError.fromErrno e)
  | .ok (), none => .ok ()

def closeFd (s : SocketWorld) (fd : ℤ) (answer : Option Errno) : Result Unit × SocketWorld :=
  if fd < 0 then (.ok (), s) else
  let removed := s.io.remove fd
  let s := { s with io := removed.2 }
  (firstError removed.1 (s.closeAnswer fd answer), s.sysClose fd)

def hold (s : SocketWorld) (fd : ℤ) : SocketWorld := { s with vars := s.vars ++ [some fd] }

/-- `TcpStream::from_fd` as `connect` and `accept` call it: if it fails they close the number. -/
def fromFd (s : SocketWorld) (fd : ℤ) (a : FcntlCalls) : Result Unit × SocketWorld :=
  match ensureNonblocking a with
  | .error e => (.error e, s.sysClose fd)
  | .ok () => (.ok (), s.hold fd)

def abandon (s : SocketWorld) (fd : ℤ) : SocketWorld :=
  ({ s with io := (s.io.remove fd).2 } : SocketWorld).sysClose fd

def connect (s : SocketWorld) (a : ConnectCalls) (p : PendingEntry) :
    Option (Result Unit) × SocketWorld :=
  match a.socket with
  | .error e => (some (.error (SystemError.fromErrno e)), s)
  | .ok fd =>
    let s := s.sysOpen fd
    match a.connect with
    | none => ((s.fromFd fd a.fcntl).1, (s.fromFd fd a.fcntl).2)
    | some e =>
      if e ≠ Errno.inProgress then (some (.error (SystemError.fromErrno e)), s.sysClose fd) else
      let registered := s.io.registerWrite fd p
      let s := { s with io := registered.2 }
      match registered.1 with
      | .ok () => (none, { s with frames := s.frames ++ [.connecting fd] })
      | .error e => (some (.error e), s.abandon fd)

def connectResumed (s : SocketWorld) (fd : ℤ) (r : Result Unit) : Result Unit × SocketWorld :=
  match r with
  | .error e => (.error e, s.abandon fd)
  | .ok () => (.ok (), s.hold fd)

/-- `bind_listener_socket`: each call is made if those before it succeeded. -/
def bindListenerSocket (s : SocketWorld) (opts : ListenOptions) (a : BindCalls) :
    Result ℤ × SocketWorld :=
  match a.socket with
  | .error e => (.error (SystemError.fromErrno e), s)
  | .ok fd =>
    let s := s.sysOpen fd
    let calls := [if opts.reuseAddr then a.reuseAddr else none,
      if opts.reusePort then a.reusePort else none, a.bind, a.listen]
    match calls.findSome? id with
    | some e => (.error (SystemError.fromErrno e), s.sysClose fd)
    | none => (.ok fd, s)

def bind (s : SocketWorld) (opts : ListenOptions) (a : BindCalls) : Result Unit × SocketWorld :=
  match s.bindListenerSocket opts a with
  | (.error e, s) => (.error e, s)
  | (.ok fd, s) => (.ok (), s.hold fd)

/-- What `accept` does with a connection; `*reactor_` is read through the listener. -/
def takeConnection (s : SocketWorld) (listener : ℕ) (conn : ℤ) (a : FcntlCalls) :
    Result Unit × SocketWorld :=
  let s := s.sysOpen conn
  let s := if s.vars[listener]? = some none then s.note (.dangling listener) else s
  s.fromFd conn a

def accept (s : SocketWorld) (listener : ℕ) (fd : ℤ) (a : AcceptCalls) (p : PendingEntry) :
    Option (Result Unit) × SocketWorld :=
  let s := s.note (.used fd (s.files fd) (s.files fd))
  match a.accept4 with
  | .ok conn =>
    ((s.takeConnection listener conn a.fcntl).1, (s.takeConnection listener conn a.fcntl).2)
  | .error _ =>
    let registered := s.io.registerRead fd p
    let s := { s with io := registered.2 }
    match registered.1 with
    | .ok () => (none, { s with frames := s.frames ++ [.accepting listener fd (s.files fd)] })
    | .error e => (some (.error e), s)

def acceptResumed (s : SocketWorld) (listener : ℕ) (fd : ℤ) (started : File) (r : Result Unit)
    (a : AcceptCalls) : Result Unit × SocketWorld :=
  match r with
  | .error e => (.error e, s)
  | .ok () =>
    let s := s.note (.used fd started (s.files fd))
    match a.accept4 with
    | .error e => (.error (SystemError.fromErrno e), s)
    | .ok conn => s.takeConnection listener conn a.fcntl

end SocketWorld

/-- `connect` to `finish` are the steps of coroutines, `moveNew` to `destroy` those of their
owners. A transfer makes any number of calls on its number and waits any number of times, as the
operations of `stream_io_ops` do. -/
inductive SocketOp where
  | connect (a : ConnectCalls) (p : PendingEntry)
  | connectResumed (f : ℕ) (r : Result Unit)
  | accept (v : ℕ) (a : AcceptCalls) (p : PendingEntry)
  | acceptResumed (f : ℕ) (r : Result Unit) (a : AcceptCalls)
  | start (v : ℕ)
  | call (f : ℕ)
  | wait (f : ℕ) (d : Direction) (p : PendingEntry)
  | finish (f : ℕ)
  | destroyFrame (f : ℕ)
  | bind (opts : ListenOptions) (a : BindCalls)
  | moveNew (src : ℕ)
  | moveInto (src dst : ℕ) (answer : Option Errno)
  | close (v : ℕ) (answer : Option Errno)
  | destroy (v : ℕ) (answer : Option Errno)
  | io (op : IoOp)
  | otherOpens (fd : ℤ)
  | otherCloses (fd : ℤ)

namespace SocketWorld

def grants (s : SocketWorld) : Except Errno ℤ → Bool
  | .ok fd => decide (0 ≤ fd ∧ s.files fd = none)
  | .error _ => true

/-- What other users of the reactor do to it: they remove descriptors of their own. -/
def admits (s : SocketWorld) : IoOp → Bool
  | .openFd _ | .closeFd _ => false
  | .remove fd => decide (s.files fd = some none)
  | _ => true

def endFrame (s : SocketWorld) (f : ℕ) : SocketWorld := { s with frames := s.frames.set f .ended }

def registerDir (s : SocketWorld) (d : Direction) (fd : ℤ) (p : PendingEntry) : SocketWorld :=
  match d with
  | .read => { s with io := (s.io.registerRead fd p).2 }
  | .write => { s with io := (s.io.registerWrite fd p).2 }

def step (s : SocketWorld) : SocketOp → Option SocketWorld
  | .connect a p => if s.grants a.socket then some (s.connect a p).2 else none
  | .connectResumed f r =>
    match s.frames[f]? with
    | some (.connecting fd) => some ((s.endFrame f).connectResumed fd r).2
    | _ => none
  | .accept v a p =>
    match s.vars[v]? with
    | some (some fd) => if s.grants a.accept4 then some (s.accept v fd a p).2 else none
    | _ => none
  | .acceptResumed f r a =>
    match s.frames[f]? with
    | some (.accepting v fd started) =>
      if s.grants a.accept4 then some ((s.endFrame f).acceptResumed v fd started r a).2 else none
    | _ => none
  | .start v =>
    match s.vars[v]? with
    | some (some fd) => some { s with frames := s.frames ++ [.transfer fd (s.files fd)] }
    | _ => none
  | .call f =>
    match s.frames[f]? with
    | some (.transfer fd started) => some (s.note (.used fd started (s.files fd)))
    | _ => none
  | .wait f d p =>
    match s.frames[f]? with
    | some (.transfer fd _) => some (s.registerDir d fd p)
    | _ => none
  | .finish f =>
    match s.frames[f]? with
    | some (.transfer _ _) => some (s.endFrame f)
    | _ => none
  | .destroyFrame f =>
    -- Nothing in the frame of `connect` gives the number back.
    match s.frames[f]? with
    | some (.connecting fd) => some ((s.endFrame f).note (.leaked fd (s.files fd)))
    | some (.accepting _ _ _) | some (.transfer _ _) => some (s.endFrame f)
    | _ => none
  | .bind opts a => if s.grants a.socket then some (s.bind opts a).2 else none
  | .moveNew src =>
    match s.vars[src]? with
    | some (some fd) => some { s with vars := s.vars.set src (some (-1)) ++ [some fd] }
    | _ => none
  | .moveInto src dst answer =>
    match s.vars[src]?, s.vars[dst]? with
    | some (some fd), some (some old) =>
      if src = dst then some s else
      let t := (s.closeFd old answer).2
      some { t with vars := (t.vars.set dst (some fd)).set src (some (-1)) }
    | _, _ => none
  | .close v answer =>
    match s.vars[v]? with
    | some (some fd) =>
      let t := (s.closeFd fd answer).2
      some { t with vars := t.vars.set v (some (-1)) }
    | _ => none
  | .destroy v answer =>
    match s.vars[v]? with
    | some (some fd) =>
      let t := (s.closeFd fd answer).2
      some { t with vars := t.vars.set v none }
    | _ => none
  | .io op => if s.admits op then (s.io.step op).map fun io => { s with io := io } else none
  | .otherOpens fd =>
    if 0 ≤ fd ∧ s.files fd = none then some (s.withOpen fd (some none)) else none
  | .otherCloses fd => if s.files fd = some none then some (s.release fd) else none

def init (k : Kernel) (m : Heap) : SocketWorld where
  io := IoState.fresh k m
  files fd := if k.isOpen fd then some none else none
  opened := 0
  vars := []
  frames := []
  log := []

def Reaches (k : Kernel) (m : Heap) (ops : List SocketOp) (s : SocketWorld) : Prop :=
  Transition.run step (init k m) ops = some s

end SocketWorld
end RainRuntime.Sockets
