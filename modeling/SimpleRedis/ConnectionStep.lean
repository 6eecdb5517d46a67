import SimpleRedis.EpollInterest

/-!
# The loop seen from one descriptor

A step of the loop touches the connection and the events of its own descriptor only,
and what it does there depends on them only. `stepConnection` is the life of one
connection, without the maps and the interest list, and `stepEvents` is what happens
to its events beside it. The loop refines them.
-/
namespace SimpleRedis.Net

variable {F : Type*}

namespace Connection

/-- The effects of closing a connection. -/
def closeEffects (fd : Fd) (conn : Connection F) : List (Effect F) :=
  (conn.closingCallback.map (Effect.closing fd)).toList ++ (conn.failAllPendingWrites fd).2 ++
    [.closed fd]

/-- A connection that a write task makes. -/
def writeOnly (socket : Socket) : Connection F :=
  { fresh socket none with writeRegistered := true }

/-- A connection that a read registration makes. -/
def readOnly (socket : Socket) (callback : Option F) : Connection F :=
  { fresh socket callback with readRegistered := true }

/-- The connection after `writev` has accepted `n` bytes, before the low-water check. -/
def sent (conn : Connection F) (n : ℕ) : Connection F :=
  { conn with
    writeQueue := (finish n conn.writeQueue).1
    inQueueWriteBufferByteSize := conn.countSent n
    writeRegistered := conn.writeRegistered && (finish n conn.writeQueue).1 ≠ [] }

end Connection

open Connection

/-- A task that only stores something in a connection: a callback or buffers. -/
def Op.stores : Op F → Bool
  | .handleRead _ _ _ | .handleWrite _ _ | .close _ => false
  | _ => true

/-- A write task whose entries `enqueue` puts into the queue. -/
def stepWrite (fd : Fd) (old : Option (Connection F)) (socket : Socket)
    (enqueue : Connection F → Connection F × List (Effect F)) :
    Option (Connection F) × List (Effect F) :=
  let queued := enqueue (old.getD (writeOnly socket))
  let high := queued.1.checkHighLevel fd
  (some { high.1 with writeRegistered := true },
    queued.2 ++ high.2)

/-- What a step does to the connection of its descriptor. -/
def stepConnection (old : Option (Connection F)) :
    Op F → Option (Connection F) × List (Effect F)
  | .registerRead _ socket callback =>
      match old with
      | none => (some (readOnly socket callback), [])
      | some conn =>
          (some { conn with
            readCb := callback
            readRegistered := conn.readRegistered || !conn.peerClosed }, [])
  | .writeOnce fd socket callback buf =>
      stepWrite fd old socket fun conn => conn.enqueue fd (callback.map .once) buf
  | .writeBatch fd socket callbacks bufs =>
      stepWrite fd old socket fun conn => conn.enqueueBatch fd callbacks 0 bufs
  | .registerHighLevel _ callback =>
      (old.map fun conn => { conn with highLevelCallback := callback }, [])
  | .registerLowLevel _ callback =>
      (old.map fun conn => { conn with lowLevelCallback := callback }, [])
  | .registerClose _ callback =>
      (old.map fun conn => { conn with closingCallback := callback }, [])
  | .handleRead fd outcome consumed =>
      match old, outcome with
      | none, _ => (none, [])
      | some conn, .bytes chunk =>
          (some (conn.receive fd chunk consumed).1, (conn.receive fd chunk consumed).2)
      | some conn, .zero =>
          (some { conn with
            peerClosed := true
            readRegistered := false
            writeRegistered := decide (conn.writeQueue ≠ []) },
            (conn.readCb.map (Effect.read fd · conn.readBuffer.buffer 0)).toList)
      | some conn, .again => (some conn, [])
      | some conn, .error => (none, conn.closeEffects fd)
  | .handleWrite fd outcome =>
      match old with
      | none => (none, [])
      | some conn =>
          if conn.iovs = [] then (some conn, [])
          else
            match outcome with
            | .again => (some conn, [])
            | .error =>
                (none, (conn.failAllPendingWrites fd).2 ++
                  (conn.failAllPendingWrites fd).1.closeEffects fd)
            | .accepted n =>
                (some ((conn.sent n).checkLowLevel fd).1,
                  .accepted fd (conn.iovs.flatten.take n) ::
                    ((finish n conn.writeQueue).2.map (Effect.wrote fd · true) ++
                      ((conn.sent n).checkLowLevel fd).2))
  | .close fd =>
      match old with
      | none => (none, [])
      | some conn => (none, conn.closeEffects fd)

/-- What a write task does to the events: a new connection is added for output, an
existing one is modified unless it waits for output already. -/
def writeEvents (old : Option (Connection F)) (events : Option Interest) : Option Interest :=
  match old with
  | none => some (events.getD epollOut)
  | some conn =>
      if conn.writeRegistered then events
      else events.map fun _ => if conn.readRegistered then epollInOut else epollOut

/-- What a step does to the events of its descriptor. -/
def stepEvents (old : Option (Connection F)) (events : Option Interest) : Op F → Option Interest
  | .registerRead _ _ _ =>
      match old with
      | none => some (events.getD epollIn)
      | some conn =>
          if conn.peerClosed || conn.readRegistered then events
          else events.map fun _ => if conn.writeRegistered then epollInOut else epollIn
  | .writeOnce _ _ _ _ | .writeBatch _ _ _ _ => writeEvents old events
  | .registerHighLevel _ _ | .registerLowLevel _ _ | .registerClose _ _ => events
  | .handleRead _ outcome _ =>
      match old, outcome with
      | none, _ => events
      | some conn, .zero => if conn.writeQueue ≠ [] then events.map fun _ => epollOut else none
      | some _, .error => none
      | some _, .bytes _ | some _, .again => events
  | .handleWrite _ outcome =>
      match old with
      | none => events
      | some conn =>
          if conn.iovs = [] then events
          else
            match outcome with
            | .again => events
            | .error => none
            | .accepted n =>
                if (finish n conn.writeQueue).1 = [] then
                  EventLoopThread.drainedEvents (conn.sent n) events
                else events
  | .close _ => none

namespace EventLoopThread

/-- A step of the loop does to its descriptor what `stepConnection` says. -/
def Refines (s : EventLoopThread F) (fd : Fd) (out : EventLoopThread F × List (Effect F))
    (view : Option (Connection F) × List (Effect F)) : Prop :=
  (∃ events, out.1 = s.put fd view.1 events) ∧ out.2 = view.2

section Handlers

variable {s : EventLoopThread F} {fd : Fd}

theorem put_connections {old : Option (Connection F)} (h : s.connections fd = old) :
    s = s.put fd old (s.epoll fd) := by
  rw [← h, put_self]

theorem updateConnection_put (f : Connection F → Connection F) :
    s.updateConnection fd f = s.put fd ((s.connections fd).map f) (s.epoll fd) := by
  cases h : s.connections fd with
  | none =>
      simp only [updateConnection, h]
      exact put_connections h
  | some conn =>
      simp only [updateConnection, h]
      exact setConnection_eq_put s fd _

theorem handleRead_put (hs : s.PlainAt fd) (outcome : ReadOutcome) (consumed : ℕ) :
    (s.handleRead fd outcome consumed).1 =
      s.put fd (stepConnection (s.connections fd) (.handleRead fd outcome consumed)).1
        (stepEvents (s.connections fd) (s.epoll fd) (.handleRead fd outcome consumed)) := by
  rw [handleRead_plain hs]
  cases h : s.connections fd with
  | none => exact put_connections h
  | some conn =>
      cases outcome with
      | bytes chunk => exact setConnection_eq_put s fd _
      | zero => exact peerClosed_fst conn
      | again => exact put_connections h
      | error => exact closeConnection_fst hs

theorem written_put (conn : Connection F) (n : ℕ) :
    (s.written fd conn n).1 = s.put fd (some ((conn.sent n).checkLowLevel fd).1)
      (if (finish n conn.writeQueue).1 = [] then drainedEvents (conn.sent n) (s.epoll fd)
        else s.epoll fd) := by
  simp only [written, setConnection_eq_put]
  split
  · exact drained_put _ _ _
  · rfl

theorem handleWrite_put (hs : s.PlainAt fd) (outcome : WriteOutcome) :
    (s.handleWrite fd outcome).1 =
      s.put fd (stepConnection (s.connections fd) (.handleWrite fd outcome)).1
        (stepEvents (s.connections fd) (s.epoll fd) (.handleWrite fd outcome)) := by
  unfold handleWrite
  cases h : s.connections fd with
  | none => exact put_connections h
  | some conn =>
      by_cases hiovs : conn.iovs = []
      · simp only [stepConnection, stepEvents, hiovs, if_true]
        exact put_connections h
      · simp only [stepConnection, stepEvents, hiovs, if_false]
        cases outcome with
        | again => exact put_connections h
        | error =>
            simp only [setConnection_eq_put]
            rw [closeConnection_fst (hs.put _ _ _), put_put]
        | accepted n => exact written_put conn n

theorem doRegisterRead_put (socket : Socket) (callback : Option F) :
    s.doRegisterRead fd socket callback =
      s.put fd (stepConnection (s.connections fd) (.registerRead fd socket callback)).1
        (stepEvents (s.connections fd) (s.epoll fd) (.registerRead fd socket callback)) := by
  cases h : s.connections fd with
  | none => exact doRegisterRead_none socket callback h
  | some conn => exact doRegisterRead_some socket callback h

/-- Both write tasks; `enqueue` leaves the flags alone. -/
theorem write_put (socket : Socket) {enqueue : Connection F → Connection F × List (Effect F)}
    (hflags : ∀ conn, SameFlags conn (enqueue conn).1) :
    (s.findOrCreate fd socket).1.requestOutput fd
        ((enqueue (s.findOrCreate fd socket).2).1.checkHighLevel fd).1 =
      s.put fd (stepWrite fd (s.connections fd) socket enqueue).1
        (writeEvents (s.connections fd) (s.epoll fd)) := by
  have hsame := fun conn => (hflags conn).trans (sameFlags_checkHighLevel fd (enqueue conn).1)
  cases h : s.connections fd with
  | none =>
      rw [findOrCreate_none socket h, requestOutput_put, (hsame _).write]
      rfl
  | some conn =>
      rw [findOrCreate_some socket h, requestOutput_eq_put]
      refine congrArg (s.put fd _) ?_
      rw [(hsame conn).write, (hsame conn).read]
      rfl

/-- What a task that stores something does to its descriptor, whoever else has it. -/
theorem exec_put_of_stores (op : Op F) (h : op.stores = true) :
    (s.exec op).1 = s.put op.fd (stepConnection (s.connections op.fd) op).1
      (stepEvents (s.connections op.fd) (s.epoll op.fd) op) := by
  cases op with
  | registerRead fd socket callback => exact doRegisterRead_put socket callback
  | writeOnce fd socket callback buf =>
      exact write_put socket fun conn => sameFlags_enqueue fd conn (callback.map .once) buf
  | writeBatch fd socket callbacks bufs =>
      exact write_put socket fun conn => sameFlags_enqueueBatch fd conn callbacks 0 bufs
  | registerHighLevel fd callback => exact updateConnection_put _
  | registerLowLevel fd callback => exact updateConnection_put _
  | registerClose fd callback => exact updateConnection_put _
  | handleRead | handleWrite | close => cases h

/-- A step of the loop, completely. -/
theorem exec_put (op : Op F) (hs : s.PlainAt op.fd) :
    (s.exec op).1 = s.put op.fd (stepConnection (s.connections op.fd) op).1
      (stepEvents (s.connections op.fd) (s.epoll op.fd) op) := by
  cases op with
  | registerRead | writeOnce | writeBatch | registerHighLevel | registerLowLevel
  | registerClose => exact exec_put_of_stores _ rfl
  | handleRead fd outcome consumed => exact handleRead_put hs outcome consumed
  | handleWrite fd outcome => exact handleWrite_put hs outcome
  | close fd =>
      refine (closeConnection_fst hs).trans ?_
      cases h : s.connections fd <;> simp only [Op.fd, h, stepConnection, stepEvents]

theorem closeConnection_effects (hs : s.PlainAt fd) :
    (s.closeConnection fd).2 = (stepConnection (s.connections fd) (.close fd)).2 := by
  unfold closeConnection
  simp only [removeEpollEvents, hs.accept]
  cases s.connections fd <;> rfl

theorem handleRead_effects (hs : s.PlainAt fd) (outcome : ReadOutcome) (consumed : ℕ) :
    (s.handleRead fd outcome consumed).2 =
      (stepConnection (s.connections fd) (.handleRead fd outcome consumed)).2 := by
  rw [handleRead_plain hs]
  cases h : s.connections fd with
  | none => rfl
  | some conn =>
      cases outcome with
      | bytes chunk => rfl
      | zero => by_cases hqueue : conn.writeQueue = [] <;> simp [peerClosed, hqueue, stepConnection]
      | again => rfl
      | error =>
          have hclose := closeConnection_effects hs
          rw [h] at hclose
          exact hclose

theorem handleWrite_effects (hs : s.PlainAt fd) (outcome : WriteOutcome) :
    (s.handleWrite fd outcome).2 =
      (stepConnection (s.connections fd) (.handleWrite fd outcome)).2 := by
  unfold handleWrite
  cases h : s.connections fd with
  | none => rfl
  | some conn =>
      by_cases hiovs : conn.iovs = []
      · simp only [stepConnection, hiovs, if_true]
      · simp only [stepConnection, hiovs, if_false]
        cases outcome with
        | again => rfl
        | error =>
            -- the entries are gone already when the connection is closed
            have hclose := closeConnection_effects
              (hs.put fd (some (conn.failAllPendingWrites fd).1) (s.epoll fd))
            rw [connections_put, ← setConnection_eq_put] at hclose
            exact congrArg ((conn.failAllPendingWrites fd).2 ++ ·) hclose
        | accepted n => rfl

/-- Both write tasks have the effects of the entries and of the high-water check. -/
theorem write_effects (socket : Socket)
    (enqueue : Connection F → Connection F × List (Effect F)) :
    (enqueue (s.findOrCreate fd socket).2).2 ++
        ((enqueue (s.findOrCreate fd socket).2).1.checkHighLevel fd).2 =
      (stepWrite fd (s.connections fd) socket enqueue).2 := by
  cases h : s.connections fd with
  | none =>
      rw [findOrCreate_none socket h]
      rfl
  | some conn =>
      rw [findOrCreate_some socket h]
      rfl

theorem exec_effects_of_stores (op : Op F) (h : op.stores = true) :
    (s.exec op).2 = (stepConnection (s.connections op.fd) op).2 := by
  cases op with
  | writeOnce fd socket callback buf =>
      exact write_effects socket fun conn => conn.enqueue fd (callback.map .once) buf
  | writeBatch fd socket callbacks bufs =>
      exact write_effects socket fun conn => conn.enqueueBatch fd callbacks 0 bufs
  | registerRead => cases h : s.connections _ <;> rfl
  | registerHighLevel | registerLowLevel | registerClose => rfl
  | handleRead | handleWrite | close => cases h

theorem exec_effects (op : Op F) (hs : s.PlainAt op.fd) :
    (s.exec op).2 = (stepConnection (s.connections op.fd) op).2 := by
  cases op with
  | registerRead | writeOnce | writeBatch | registerHighLevel | registerLowLevel
  | registerClose => exact exec_effects_of_stores _ rfl
  | handleRead fd outcome consumed => exact handleRead_effects hs outcome consumed
  | handleWrite fd outcome => exact handleWrite_effects hs outcome
  | close fd => exact closeConnection_effects hs

theorem exec_refines (op : Op F) (hs : s.PlainAt op.fd) :
    Refines s op.fd (s.exec op) (stepConnection (s.connections op.fd) op) :=
  ⟨⟨_, exec_put op hs⟩, exec_effects op hs⟩

end Handlers

end EventLoopThread

end SimpleRedis.Net
