import SimpleRedis.Connection
import SimpleRedis.TransitionRun
import Mathlib.Logic.Function.Basic

/-!
# The event loop

`EventLoopThread` is the state that only the loop's thread touches, with the
kernel's interest list beside it. Each handler is one step of the loop: it takes
what the kernel answered and gives the next state and the effects in order. The
results of `epoll_ctl` are ignored, as in the source.
-/
namespace SimpleRedis.Net

open TransitionRun

variable {F : Type*}

/-- The events of one descriptor in the interest list. -/
structure Interest where
  input : Bool := false
  output : Bool := false
  oneShot : Bool := false
  deriving DecidableEq, Repr

def epollIn : Interest := { input := true }
def epollOut : Interest := { output := true }
def epollInOut : Interest := { input := true, output := true }

abbrev InterestList := Fd → Option Interest

/-- `EPOLL_CTL_ADD` fails if the descriptor is present. -/
def ctlAdd (list : InterestList) (fd : Fd) (events : Interest) : InterestList :=
  if (list fd).isSome then list else Function.update list fd (some events)

/-- `EPOLL_CTL_MOD` fails if the descriptor is absent. -/
def ctlMod (list : InterestList) (fd : Fd) (events : Interest) : InterestList :=
  if (list fd).isSome then Function.update list fd (some events) else list

/-- `EPOLL_CTL_DEL`. -/
def ctlDel (list : InterestList) (fd : Fd) : InterestList := Function.update list fd none

structure AcceptContext (F : Type*) where
  socket : Socket
  acceptCb : Option F

structure EventLoopThread (F : Type*) where
  connections : Fd → Option (Connection F)
  acceptSocketSet : Fd → Option (AcceptContext F)
  timerFds : Fd → Option (Option F)
  epoll : InterestList

/-- What `socket->read` returned. -/
inductive ReadOutcome where
  | bytes (chunk : List CChar)
  | zero
  | again
  | error
  deriving DecidableEq, Repr

/-- What `writev` returned. -/
inductive WriteOutcome where
  | accepted (n : ℕ)
  | again
  | error
  deriving DecidableEq, Repr

namespace EventLoopThread

/-- A loop that has just started. -/
def fresh : EventLoopThread F where
  connections _ := none
  acceptSocketSet _ := none
  timerFds _ := none
  epoll _ := none

/-- The shared connection of a descriptor after an update. -/
def setConnection (s : EventLoopThread F) (fd : Fd) (conn : Connection F) : EventLoopThread F :=
  { s with connections := Function.update s.connections fd (some conn) }

def modifyEpollEvents (s : EventLoopThread F) (fd : Fd) (events : Interest) : EventLoopThread F :=
  { s with epoll := ctlMod s.epoll fd events }

def removeEpollEvents (s : EventLoopThread F) (fd : Fd) : EventLoopThread F :=
  { s with epoll := ctlDel s.epoll fd }

def addEpollEvents (s : EventLoopThread F) (fd : Fd) (events : Interest) : EventLoopThread F :=
  { s with epoll := ctlAdd s.epoll fd events }

def closeConnection (s : EventLoopThread F) (fd : Fd) : EventLoopThread F × List (Effect F) :=
  let s := s.removeEpollEvents fd
  if (s.acceptSocketSet fd).isSome then
    ({ s with acceptSocketSet := Function.update s.acceptSocketSet fd none }, [])
  else
    match s.connections fd with
    | none => (s, [])
    | some conn =>
        ({ s with connections := Function.update s.connections fd none },
          (conn.closingCallback.map (Effect.closing fd)).toList ++
            (conn.failAllPendingWrites fd).2 ++ [.closed fd])

/-- A new client is handed to the accept callback. -/
def handleAccept (s : EventLoopThread F) (fd : Fd) : EventLoopThread F × List (Effect F) :=
  match s.acceptSocketSet fd with
  | none => (s, [])
  | some ctx => (s, (ctx.acceptCb.map (Effect.accept fd)).toList)

/-- The callback runs, and closing the timer takes it out of the interest list. -/
def handleTimer (s : EventLoopThread F) (fd : Fd) : EventLoopThread F × List (Effect F) :=
  match s.timerFds fd with
  | none => (s, [])
  | some callback =>
      ({ s.removeEpollEvents fd with timerFds := Function.update s.timerFds fd none },
        (callback.map (Effect.timer fd)).toList)

/-- The branch of `handleRead` for a return value of zero. -/
def peerClosed (s : EventLoopThread F) (fd : Fd) (conn : Connection F) :
    EventLoopThread F × List (Effect F) :=
  let conn := { conn with peerClosed := true, readRegistered := false }
  let told := (conn.readCb.map (Effect.read fd · conn.readBuffer.buffer 0)).toList
  if conn.writeQueue ≠ [] then
    ((s.setConnection fd { conn with writeRegistered := true }).modifyEpollEvents fd epollOut, told)
  else
    ((s.setConnection fd { conn with writeRegistered := false }).removeEpollEvents fd, told)

/-- `handleRead`; `consumed` is what the read callback returns. -/
def handleRead (s : EventLoopThread F) (fd : Fd) (outcome : ReadOutcome) (consumed : ℕ) :
    EventLoopThread F × List (Effect F) :=
  if (s.acceptSocketSet fd).isSome then s.handleAccept fd
  else if (s.timerFds fd).isSome then s.handleTimer fd
  else
    match s.connections fd with
    | none => (s, [])
    | some conn =>
        match outcome with
        | .bytes chunk =>
            let received := conn.receive fd chunk consumed
            (s.setConnection fd received.1, received.2)
        | .zero => s.peerClosed fd conn
        | .again => (s, [])
        | .error => s.closeConnection fd

/-- The events that stay when the write queue has run empty. -/
def drained (s : EventLoopThread F) (fd : Fd) (conn : Connection F) : EventLoopThread F :=
  if conn.peerClosed then s.removeEpollEvents fd
  else if conn.readRegistered then s.modifyEpollEvents fd epollIn
  else s.removeEpollEvents fd

/-- The rest of `handleWrite` when `writev` has accepted `n` bytes. -/
def written (s : EventLoopThread F) (fd : Fd) (conn : Connection F) (n : ℕ) :
    EventLoopThread F × List (Effect F) :=
  let finished := Connection.finish n conn.writeQueue
  let sent := { conn with
    writeQueue := finished.1
    inQueueWriteBufferByteSize := conn.countSent n
    writeRegistered := conn.writeRegistered && finished.1 ≠ [] }
  let low := sent.checkLowLevel fd
  let s := s.setConnection fd low.1
  (if finished.1 = [] then s.drained fd sent else s,
    .accepted fd (conn.iovs.flatten.take n) ::
      (finished.2.map (Effect.wrote fd · true) ++ low.2))

def handleWrite (s : EventLoopThread F) (fd : Fd) (outcome : WriteOutcome) :
    EventLoopThread F × List (Effect F) :=
  match s.connections fd with
  | none => (s, [])
  | some conn =>
      if conn.iovs = [] then (s, [])
      else
        match outcome with
        | .again => (s, [])
        | .error =>
            let failed := conn.failAllPendingWrites fd
            let closed := (s.setConnection fd failed.1).closeConnection fd
            (closed.1, failed.2 ++ closed.2)
        | .accepted n => s.written fd conn n

def doRegisterAccept (s : EventLoopThread F) (fd : Fd) (socket : Socket) (callback : Option F) :
    EventLoopThread F :=
  match s.acceptSocketSet fd with
  | some ctx =>
      { s with
        acceptSocketSet :=
          Function.update s.acceptSocketSet fd (some { ctx with acceptCb := callback }) }
  | none =>
      ({ s with
        acceptSocketSet := Function.update s.acceptSocketSet fd (some ⟨socket, callback⟩) } :
        EventLoopThread F).addEpollEvents fd epollIn

def doRegisterRead (s : EventLoopThread F) (fd : Fd) (socket : Socket) (callback : Option F) :
    EventLoopThread F :=
  match s.connections fd with
  | some conn =>
      let conn := { conn with readCb := callback }
      if conn.peerClosed then s.setConnection fd conn
      else if conn.readRegistered then s.setConnection fd conn
      else
        let s := s.setConnection fd { conn with readRegistered := true }
        if conn.writeRegistered then s.modifyEpollEvents fd epollInOut
        else s.modifyEpollEvents fd epollIn
  | none =>
      let conn := { Connection.fresh socket callback with readRegistered := true }
      (s.setConnection fd conn).addEpollEvents fd epollIn

/-- The connection that a write goes to: a write-only one is made if there is none. -/
def findOrCreate (s : EventLoopThread F) (fd : Fd) (socket : Socket) :
    EventLoopThread F × Connection F :=
  match s.connections fd with
  | some conn => (s, conn)
  | none =>
      let conn := { Connection.fresh socket none with writeRegistered := true }
      ((s.setConnection fd conn).addEpollEvents fd epollOut, conn)

/-- The end of both write tasks: asking for `EPOLLOUT` if that is not done yet. -/
def requestOutput (s : EventLoopThread F) (fd : Fd) (conn : Connection F) : EventLoopThread F :=
  if conn.writeRegistered then s.setConnection fd conn
  else
    let s := s.setConnection fd { conn with writeRegistered := true }
    if conn.readRegistered then s.modifyEpollEvents fd epollInOut
    else s.modifyEpollEvents fd epollOut

def doAsyncWriteOnce (s : EventLoopThread F) (fd : Fd) (socket : Socket) (callback : Option F)
    (buf : List CChar) : EventLoopThread F × List (Effect F) :=
  let found := s.findOrCreate fd socket
  let queued := found.2.enqueue fd (callback.map .once) buf
  let high := queued.1.checkHighLevel fd
  (found.1.requestOutput fd high.1, queued.2 ++ high.2)

def doAsyncWriteBatch (s : EventLoopThread F) (fd : Fd) (socket : Socket) (callbacks : F)
    (bufs : List (List CChar)) : EventLoopThread F × List (Effect F) :=
  let found := s.findOrCreate fd socket
  let queued := found.2.enqueueBatch fd callbacks 0 bufs
  let high := queued.1.checkHighLevel fd
  (found.1.requestOutput fd high.1, queued.2 ++ high.2)

/-- The three functions that store a callback in an existing connection. -/
def updateConnection (s : EventLoopThread F) (fd : Fd) (f : Connection F → Connection F) :
    EventLoopThread F :=
  match s.connections fd with
  | none => s
  | some conn => s.setConnection fd (f conn)

def doRegisterHighLevelCallback (s : EventLoopThread F) (fd : Fd) (callback : Option F) :
    EventLoopThread F :=
  s.updateConnection fd fun conn => { conn with highLevelCallback := callback }

def doRegisterLowLevelCallback (s : EventLoopThread F) (fd : Fd) (callback : Option F) :
    EventLoopThread F :=
  s.updateConnection fd fun conn => { conn with lowLevelCallback := callback }

def doRegisterCloseCallback (s : EventLoopThread F) (fd : Fd) (callback : Option F) :
    EventLoopThread F :=
  s.updateConnection fd fun conn => { conn with closingCallback := callback }

def doClose (s : EventLoopThread F) (fd : Fd) : EventLoopThread F × List (Effect F) :=
  s.closeConnection fd

end EventLoopThread

/-- A step of the loop: a task it runs, or an event with the kernel's answer. -/
inductive Op (F : Type*) where
  | registerRead (fd : Fd) (socket : Socket) (callback : Option F)
  | writeOnce (fd : Fd) (socket : Socket) (callback : Option F) (buf : List CChar)
  | writeBatch (fd : Fd) (socket : Socket) (callbacks : F) (bufs : List (List CChar))
  | registerHighLevel (fd : Fd) (callback : Option F)
  | registerLowLevel (fd : Fd) (callback : Option F)
  | registerClose (fd : Fd) (callback : Option F)
  | handleRead (fd : Fd) (outcome : ReadOutcome) (consumed : ℕ)
  | handleWrite (fd : Fd) (outcome : WriteOutcome)
  | close (fd : Fd)
  deriving DecidableEq, Repr

namespace EventLoopThread

def exec (s : EventLoopThread F) : Op F → EventLoopThread F × List (Effect F)
  | .registerRead fd socket callback => (s.doRegisterRead fd socket callback, [])
  | .writeOnce fd socket callback buf => s.doAsyncWriteOnce fd socket callback buf
  | .writeBatch fd socket callbacks bufs => s.doAsyncWriteBatch fd socket callbacks bufs
  | .registerHighLevel fd callback => (s.doRegisterHighLevelCallback fd callback, [])
  | .registerLowLevel fd callback => (s.doRegisterLowLevelCallback fd callback, [])
  | .registerClose fd callback => (s.doRegisterCloseCallback fd callback, [])
  | .handleRead fd outcome consumed => s.handleRead fd outcome consumed
  | .handleWrite fd outcome => s.handleWrite fd outcome
  | .close fd => s.doClose fd

/-- The answers that a kernel can give: `read` gives at least one byte and no more
than it was asked for, `writev` accepts at least one byte of those it was offered. -/
def possible (s : EventLoopThread F) : Op F → Bool
  | .handleRead fd (.bytes chunk) _ =>
      match s.connections fd with
      | none => true
      | some conn => 0 < chunk.length && chunk.length ≤ conn.readBuffer.free
  | .handleWrite fd (.accepted n) =>
      match s.connections fd with
      | none => true
      | some conn => 0 < n && n ≤ conn.iovs.flatten.length
  | _ => true

section Possible

variable {s : EventLoopThread F} {fd : Fd} {conn : Connection F}

theorem possible_bytes_iff (h : s.connections fd = some conn) {chunk : List CChar}
    {consumed : ℕ} : s.possible (.handleRead fd (.bytes chunk) consumed) = true ↔
      0 < chunk.length ∧ chunk.length ≤ conn.readBuffer.free := by
  simp only [possible, h, Bool.and_eq_true, decide_eq_true_eq]

theorem possible_accepted_iff (h : s.connections fd = some conn) {n : ℕ} :
    s.possible (.handleWrite fd (.accepted n)) = true ↔
      0 < n ∧ n ≤ conn.iovs.flatten.length := by
  simp only [possible, h, Bool.and_eq_true, decide_eq_true_eq]

end Possible

end EventLoopThread

/-- The descriptor that a step is about. -/
def Op.fd : Op F → Fd
  | .registerRead fd _ _ | .writeOnce fd _ _ _ | .writeBatch fd _ _ _ | .registerHighLevel fd _
  | .registerLowLevel fd _ | .registerClose fd _ | .handleRead fd _ _ | .handleWrite fd _
  | .close fd => fd

namespace EventLoopThread

/-- The loop with the connection and the interest of one descriptor replaced. -/
def put (s : EventLoopThread F) (fd : Fd) (conn : Option (Connection F))
    (events : Option Interest) : EventLoopThread F :=
  { s with
    connections := Function.update s.connections fd conn
    epoll := Function.update s.epoll fd events }

section Put

variable (s : EventLoopThread F) (fd : Fd) (conn conn' : Option (Connection F))
  (events : Option Interest)

@[simp] theorem put_self : s.put fd (s.connections fd) (s.epoll fd) = s := by simp [put]

@[simp] theorem put_put (events' : Option Interest) :
    (s.put fd conn events).put fd conn' events' = s.put fd conn' events' := by simp [put]

@[simp] theorem connections_put : (s.put fd conn events).connections fd = conn := by simp [put]

@[simp] theorem epoll_put : (s.put fd conn events).epoll fd = events := by simp [put]

@[simp] theorem acceptSocketSet_put :
    (s.put fd conn events).acceptSocketSet = s.acceptSocketSet := rfl

theorem connections_put_of_ne {fd' : Fd} (h : fd' ≠ fd) :
    (s.put fd conn events).connections fd' = s.connections fd' := Function.update_of_ne h _ _

theorem epoll_put_of_ne {fd' : Fd} (h : fd' ≠ fd) :
    (s.put fd conn events).epoll fd' = s.epoll fd' := Function.update_of_ne h _ _

theorem setConnection_eq_put (c : Connection F) :
    s.setConnection fd c = s.put fd (some c) (s.epoll fd) := by simp [put, setConnection]

theorem removeEpollEvents_eq_put : s.removeEpollEvents fd = s.put fd (s.connections fd) none := by
  simp [put, removeEpollEvents, ctlDel]

theorem modifyEpollEvents_eq_put (ev : Interest) :
    s.modifyEpollEvents fd ev =
      s.put fd (s.connections fd) ((s.epoll fd).map fun _ => ev) := by
  cases h : s.epoll fd with
  | none =>
      have hmod : s.modifyEpollEvents fd ev = s := by simp [modifyEpollEvents, ctlMod, h]
      rw [hmod, Option.map_none, ← h, put_self]
  | some old => simp [put, modifyEpollEvents, ctlMod, h]

theorem addEpollEvents_eq_put (ev : Interest) :
    s.addEpollEvents fd ev = s.put fd (s.connections fd) (some ((s.epoll fd).getD ev)) := by
  cases h : s.epoll fd with
  | none => simp [put, addEpollEvents, ctlAdd, h]
  | some old =>
      have hadd : s.addEpollEvents fd ev = s := by simp [addEpollEvents, ctlAdd, h]
      rw [hadd, Option.getD_some, ← h, put_self]

end Put

/-- The sockets of the loop are not registered for accept and it has no timers. -/
structure Plain (s : EventLoopThread F) : Prop where
  accept : ∀ fd, s.acceptSocketSet fd = none
  timer : ∀ fd, s.timerFds fd = none

theorem Plain.put {s : EventLoopThread F} (h : s.Plain) (fd : Fd) (conn : Option (Connection F))
    (events : Option Interest) : (s.put fd conn events).Plain := ⟨h.accept, h.timer⟩

/-- The descriptor is not registered for accept and is not a timer. -/
structure PlainAt (s : EventLoopThread F) (fd : Fd) : Prop where
  accept : s.acceptSocketSet fd = none
  timer : s.timerFds fd = none

theorem Plain.plainAt {s : EventLoopThread F} (h : s.Plain) (fd : Fd) : s.PlainAt fd :=
  ⟨h.accept fd, h.timer fd⟩

theorem PlainAt.put {s : EventLoopThread F} {fd : Fd} (h : s.PlainAt fd) (fd' : Fd)
    (conn : Option (Connection F)) (events : Option Interest) :
    (s.put fd' conn events).PlainAt fd := ⟨h.accept, h.timer⟩

section Handlers

variable {s : EventLoopThread F} {fd : Fd}

theorem closeConnection_fst (hs : s.PlainAt fd) :
    (s.closeConnection fd).1 = s.put fd none none := by
  unfold closeConnection
  rw [removeEpollEvents_eq_put]
  simp only [acceptSocketSet_put, hs.accept, connections_put]
  cases h : s.connections fd <;> simp [put]

theorem peerClosed_fst (conn : Connection F) :
    (s.peerClosed fd conn).1 = s.put fd
      (some { conn with
        peerClosed := true
        readRegistered := false
        writeRegistered := decide (conn.writeQueue ≠ []) })
      (if conn.writeQueue ≠ [] then (s.epoll fd).map fun _ => epollOut else none) := by
  by_cases h : conn.writeQueue = [] <;>
    simp [peerClosed, h, setConnection_eq_put, modifyEpollEvents_eq_put,
      removeEpollEvents_eq_put]

/-- The interest that `drained` leaves. -/
def drainedEvents (conn : Connection F) (events : Option Interest) : Option Interest :=
  if conn.peerClosed then none
  else if conn.readRegistered then events.map fun _ => epollIn
  else none

theorem drained_put (c : Option (Connection F)) (events : Option Interest) (conn : Connection F) :
    (s.put fd c events).drained fd conn = s.put fd c (drainedEvents conn events) := by
  unfold drained drainedEvents
  split
  · simp only [removeEpollEvents_eq_put, connections_put, put_put]
  · split
    · simp only [modifyEpollEvents_eq_put, connections_put, epoll_put, put_put]
    · simp only [removeEpollEvents_eq_put, connections_put, put_put]

theorem requestOutput_put (c : Option (Connection F)) (events : Option Interest)
    (conn : Connection F) :
    (s.put fd c events).requestOutput fd conn =
      s.put fd (some { conn with writeRegistered := true })
        (if conn.writeRegistered then events
          else events.map fun _ => if conn.readRegistered then epollInOut else epollOut) := by
  unfold requestOutput
  split
  · rename_i h
    rw [setConnection_eq_put, epoll_put, put_put, ← h]
  · split <;>
      simp only [setConnection_eq_put, modifyEpollEvents_eq_put, connections_put, epoll_put,
        put_put]

theorem requestOutput_eq_put (conn : Connection F) :
    s.requestOutput fd conn =
      s.put fd (some { conn with writeRegistered := true })
        (if conn.writeRegistered then s.epoll fd
          else (s.epoll fd).map fun _ => if conn.readRegistered then epollInOut else epollOut) := by
  conv_lhs => rw [← s.put_self fd]
  exact requestOutput_put _ _ conn

theorem doRegisterRead_some {conn : Connection F} (socket : Socket) (callback : Option F)
    (h : s.connections fd = some conn) :
    s.doRegisterRead fd socket callback =
      s.put fd
        (some { conn with
          readCb := callback
          readRegistered := conn.readRegistered || !conn.peerClosed })
        (if conn.peerClosed || conn.readRegistered then s.epoll fd
          else (s.epoll fd).map fun _ => if conn.writeRegistered then epollInOut else epollIn) := by
  simp only [doRegisterRead, h, setConnection_eq_put, modifyEpollEvents_eq_put, connections_put,
    epoll_put, put_put]
  cases conn.peerClosed <;> cases conn.readRegistered <;> cases conn.writeRegistered <;> simp

theorem doRegisterRead_none (socket : Socket) (callback : Option F)
    (h : s.connections fd = none) :
    s.doRegisterRead fd socket callback =
      s.put fd (some { Connection.fresh socket callback with readRegistered := true })
        (some ((s.epoll fd).getD epollIn)) := by
  simp only [doRegisterRead, h, setConnection_eq_put, addEpollEvents_eq_put, connections_put,
    epoll_put, put_put]

theorem findOrCreate_some {conn : Connection F} (socket : Socket)
    (h : s.connections fd = some conn) : s.findOrCreate fd socket = (s, conn) := by
  simp only [findOrCreate, h]

theorem findOrCreate_none (socket : Socket) (h : s.connections fd = none) :
    s.findOrCreate fd socket =
      (s.put fd (some { Connection.fresh socket none with writeRegistered := true })
          (some ((s.epoll fd).getD epollOut)),
        { Connection.fresh socket none with writeRegistered := true }) := by
  simp only [findOrCreate, h, setConnection_eq_put, addEpollEvents_eq_put, connections_put,
    epoll_put, put_put]

theorem handleRead_plain (hs : s.PlainAt fd) (outcome : ReadOutcome) (consumed : ℕ) :
    s.handleRead fd outcome consumed =
      match s.connections fd with
      | none => (s, [])
      | some conn =>
          match outcome with
          | .bytes chunk =>
              let received := conn.receive fd chunk consumed
              (s.setConnection fd received.1, received.2)
          | .zero => s.peerClosed fd conn
          | .again => (s, [])
          | .error => s.closeConnection fd := by
  simp only [handleRead, hs.accept, hs.timer, Option.isSome_none, Bool.false_eq_true, if_false]

end Handlers

theorem plain_fresh : (fresh : EventLoopThread F).Plain := ⟨fun _ => rfl, fun _ => rfl⟩

end EventLoopThread

/-- A loop with everything it has done so far. -/
structure Execution (F : Type*) where
  loop : EventLoopThread F
  trace : List (Effect F)

namespace Execution

def fresh : Execution F := { loop := .fresh, trace := [] }

def step (e : Execution F) (op : Op F) : Option (Execution F) :=
  if e.loop.possible op then
    some { loop := (e.loop.exec op).1, trace := e.trace ++ (e.loop.exec op).2 }
  else none

theorem step_eq_some {e e' : Execution F} {op : Op F} (h : e.step op = some e') :
    e.loop.possible op = true ∧ e'.loop = (e.loop.exec op).1 ∧
      e'.trace = e.trace ++ (e.loop.exec op).2 := by
  unfold step at h
  split at h
  · rename_i hp
    cases h
    exact ⟨hp, rfl, rfl⟩
  · cases h

end Execution

end SimpleRedis.Net
