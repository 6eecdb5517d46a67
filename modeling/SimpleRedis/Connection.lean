import SimpleRedis.ReadBuffer

/-!
# Connections of an event loop

A `Connection` keeps everything a loop knows about a socket: its callbacks, the
read buffer, the write queue with its byte counter, and three flags that say
which events the loop has asked for. This file has the parts of the handlers
that touch one connection only.
-/
namespace SimpleRedis.Net

variable {F : Type*}

/-- A file descriptor. -/
abbrev Fd := ℕ

/-- The identity of an `ISocket` object. -/
abbrev Socket := ℕ

/-- What the loop stores to report the end of a write: the caller's function, or
the function of a batch with an index. -/
inductive WriteCallback (F : Type*) where
  | once (f : F)
  | batch (f : F) (index : ℕ)
  deriving DecidableEq, Repr

/-- A buffer that waits to be written. An empty `std::function` is `none`. -/
structure WriteMetaInfo (F : Type*) where
  buffer : List CChar
  offset : ℕ
  callback : Option (WriteCallback F)
  offset_le : offset ≤ buffer.length

namespace WriteMetaInfo

/-- The constructor of `WriteMetaInfo`. -/
def mk' (callback : Option (WriteCallback F)) (buffer : List CChar) : WriteMetaInfo F where
  buffer := buffer
  offset := 0
  callback := callback
  offset_le := Nat.zero_le _

/-- The bytes that are still to be written. -/
def unsent (m : WriteMetaInfo F) : List CChar := m.buffer.drop m.offset

/-- `meta.offset += remaining`. -/
def skip (m : WriteMetaInfo F) (n : ℕ) (h : n < m.unsent.length) : WriteMetaInfo F where
  buffer := m.buffer
  offset := m.offset + n
  callback := m.callback
  offset_le := by
    rw [unsent, List.length_drop] at h
    omega

end WriteMetaInfo

structure Connection (F : Type*) where
  socket : Socket
  readCb : Option F
  readBuffer : SimpleBuffer
  writeQueue : List (WriteMetaInfo F)
  inQueueWriteBufferByteSize : ℤ
  highLevelCallback : Option F
  lowLevelCallback : Option F
  closingCallback : Option F
  highLevelCallbackSet : Bool
  readRegistered : Bool
  writeRegistered : Bool
  peerClosed : Bool

/-- `Connection::DEFAULT_BUFFER_SIZE`. -/
def defaultBufferSize : ℕ := 4096

/-- `ISocket::DEFAULT_HIGH_LEVEL_SIZE`. -/
def defaultHighLevelSize : ℤ := 1024 * 512

/-- `ISocket::DEFAULT_LOW_LEVEL_SIZE`. -/
def defaultLowLevelSize : ℤ := 1024 * 8

/-- `IOV_MAX` of Linux. -/
def iovMax : ℕ := 1024

/-- A value stored in an `int`. -/
def toInt (n : ℤ) : ℤ := n.bmod (2 ^ 32)

/-- What the loop does that can be seen from outside: bytes that `writev` has
accepted, and calls of the callbacks it was given. `queued` marks what a task has
submitted and `closed` the end of a connection. -/
inductive Effect (F : Type*) where
  | queued (fd : Fd) (buffer : List CChar) (callback : Option (WriteCallback F))
  | accepted (fd : Fd) (bytes : List CChar)
  | wrote (fd : Fd) (callback : WriteCallback F) (success : Bool)
  | read (fd : Fd) (f : F) (buffer : List CChar) (size : ℕ)
  | highLevel (fd : Fd) (f : F)
  | lowLevel (fd : Fd) (f : F)
  | closing (fd : Fd) (f : F)
  | closed (fd : Fd)
  | accept (fd : Fd) (f : F)
  | timer (fd : Fd) (f : F)
  deriving Repr

namespace Connection

/-- The constructor of `Connection`. -/
def fresh (socket : Socket) (readCb : Option F) : Connection F where
  socket := socket
  readCb := readCb
  readBuffer := .ofSize defaultBufferSize
  writeQueue := []
  inQueueWriteBufferByteSize := 0
  highLevelCallback := none
  lowLevelCallback := none
  closingCallback := none
  highLevelCallbackSet := false
  readRegistered := false
  writeRegistered := false
  peerClosed := false

/-- `handleRead` when `socket->read` has given bytes; `consumed` is what the read
callback returns. Without a callback the bytes are dropped. -/
def receive (fd : Fd) (conn : Connection F) (chunk : List CChar) (consumed : ℕ) :
    Connection F × List (Effect F) :=
  match conn.readCb with
  | some f =>
      let filled := conn.readBuffer.fill chunk
      ({ conn with readBuffer := filled.consume consumed },
        [.read fd f filled.buffer filled.dataSize])
  | none => ({ conn with readBuffer := conn.readBuffer.clear }, [])

/-- The entries whose bytes one `writev` may offer. -/
def window (conn : Connection F) : List (WriteMetaInfo F) := conn.writeQueue.take iovMax

/-- The `iovec`s of one `writev`: no empty ones. -/
def iovs (conn : Connection F) : List (List CChar) :=
  (conn.window.map WriteMetaInfo.unsent).filter (· ≠ [])

/-- The loop of `handleWrite` that takes finished entries off the queue; it
reports the callbacks it invokes. -/
def finish (remaining : ℕ) : List (WriteMetaInfo F) →
    List (WriteMetaInfo F) × List (WriteCallback F)
  | [] => ([], [])
  | m :: queue =>
      if remaining = 0 then (m :: queue, [])
      else if h : m.unsent.length ≤ remaining then
        let rest := finish (remaining - m.unsent.length) queue
        (rest.1, m.callback.toList ++ rest.2)
      else (m.skip remaining (Nat.lt_of_not_le h) :: queue, [])

/-- The byte counter after `writev` has accepted `n` bytes. -/
def countSent (conn : Connection F) (n : ℕ) : ℤ :=
  let size := toInt (conn.inQueueWriteBufferByteSize - toInt n)
  if size < 0 then 0 else size

/-- `failAllPendingWrites`. -/
def failAllPendingWrites (fd : Fd) (conn : Connection F) : Connection F × List (Effect F) :=
  if conn.writeQueue = [] then (conn, [])
  else
    ({ conn with writeQueue := [], inQueueWriteBufferByteSize := 0 },
      conn.writeQueue.filterMap fun m => m.callback.map (.wrote fd · false))

/-- `emplace_back` of one entry and the update of the byte counter. -/
def enqueue (fd : Fd) (conn : Connection F) (callback : Option (WriteCallback F))
    (buf : List CChar) : Connection F × List (Effect F) :=
  ({ conn with
      writeQueue := conn.writeQueue ++ [.mk' callback buf]
      inQueueWriteBufferByteSize := toInt (conn.inQueueWriteBufferByteSize + toInt buf.length) },
    [.queued fd buf callback])

/-- The loop of `doAsyncWriteBatch` from index `i` on. -/
def enqueueBatch (fd : Fd) (conn : Connection F) (f : F) (i : ℕ) :
    List (List CChar) → Connection F × List (Effect F)
  | [] => (conn, [])
  | buf :: bufs =>
      let first := conn.enqueue fd (some (.batch f i)) buf
      let rest := first.1.enqueueBatch fd f (i + 1) bufs
      (rest.1, first.2 ++ rest.2)

/-- The high-water check behind a write. -/
def checkHighLevel (fd : Fd) (conn : Connection F) : Connection F × List (Effect F) :=
  if defaultHighLevelSize < conn.inQueueWriteBufferByteSize then
    match conn.highLevelCallback with
    | some f =>
        if conn.highLevelCallbackSet then (conn, [])
        else ({ conn with highLevelCallbackSet := true }, [.highLevel fd f])
    | none => (conn, [])
  else (conn, [])

/-- The low-water check at the end of `handleWrite`. -/
def checkLowLevel (fd : Fd) (conn : Connection F) : Connection F × List (Effect F) :=
  if conn.highLevelCallbackSet ∧ conn.inQueueWriteBufferByteSize < defaultLowLevelSize then
    match conn.lowLevelCallback with
    | some f => ({ conn with highLevelCallbackSet := false }, [.lowLevel fd f])
    | none => (conn, [])
  else (conn, [])

/-- The fields that a write or a water mark does not touch. -/
def readSide (conn : Connection F) : Option F × SimpleBuffer × Bool × Bool :=
  (conn.readCb, conn.readBuffer, conn.readRegistered, conn.peerClosed)

section Frame

variable (fd : Fd) (conn : Connection F)

theorem readSide_enqueueBatch (f : F) (i : ℕ) (bufs : List (List CChar)) :
    (conn.enqueueBatch fd f i bufs).1.readSide = conn.readSide := by
  induction bufs generalizing conn i with
  | nil => rfl
  | cons buf bufs ih => exact ih (conn.enqueue fd (some (.batch f i)) buf).1 (i + 1)

theorem readSide_checkHighLevel : (conn.checkHighLevel fd).1.readSide = conn.readSide := by
  unfold checkHighLevel
  split
  · split
    · split <;> rfl
    · rfl
  · rfl

theorem readSide_checkLowLevel : (conn.checkLowLevel fd).1.readSide = conn.readSide := by
  unfold checkLowLevel
  split
  · split <;> rfl
  · rfl

theorem writeQueue_checkHighLevel : (conn.checkHighLevel fd).1.writeQueue = conn.writeQueue := by
  unfold checkHighLevel
  split
  · split
    · split <;> rfl
    · rfl
  · rfl

theorem writeQueue_checkLowLevel : (conn.checkLowLevel fd).1.writeQueue = conn.writeQueue := by
  unfold checkLowLevel
  split
  · split <;> rfl
  · rfl

theorem writeQueue_receive (chunk : List CChar) (consumed : ℕ) :
    (conn.receive fd chunk consumed).1.writeQueue = conn.writeQueue := by
  unfold receive
  cases conn.readCb <;> rfl

theorem readCb_receive (chunk : List CChar) (consumed : ℕ) :
    (conn.receive fd chunk consumed).1.readCb = conn.readCb := by
  unfold receive
  split
  · rename_i f hcb
    rw [hcb]
  · rename_i hcb
    rw [hcb]

end Frame

end Connection

end SimpleRedis.Net
