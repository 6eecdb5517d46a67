import SimpleRedis.Backpressure

/-!
# A batch and its buffers one by one

`doAsyncWriteBatch` queues all of its buffers before it looks at the high-water mark, and
`doAsyncWriteOnce` looks at it behind every buffer. As the counter only grows on the way, the
callback is called in the same cases. The entries differ in the callback that they hold: the
function of the batch with an index, or a function of its own. `single` takes the first for
the second; up to `single` the two loops are the same, and stay so while they write.
-/
namespace SimpleRedis.Net

open Connection

variable {F : Type*}

/-- `closure f i` is the function `r -> f(r, i)`. -/
def WriteCallback.single (closure : F → ℕ → F) : WriteCallback F → WriteCallback F
  | .once f => .once f
  | .batch f i => .once (closure f i)

def WriteMetaInfo.single (closure : F → ℕ → F) (m : WriteMetaInfo F) : WriteMetaInfo F :=
  { m with callback := m.callback.map (·.single closure) }

def Submission.single (closure : F → ℕ → F) (s : Submission F) : Submission F :=
  { s with callback := s.callback.map (·.single closure) }

def Connection.single (closure : F → ℕ → F) (conn : Connection F) : Connection F :=
  { conn with writeQueue := conn.writeQueue.map (·.single closure) }

namespace Effect

def single (closure : F → ℕ → F) : Effect F → Effect F
  | .queued fd buffer callback => .queued fd buffer (callback.map (·.single closure))
  | .wrote fd callback success => .wrote fd (callback.single closure) success
  | effect => effect

def isHighLevel : Effect F → Bool
  | .highLevel _ _ => true
  | _ => false

end Effect

/-- How often the high-water callback is called. -/
def highCalls (effects : List (Effect F)) : ℕ := effects.countP Effect.isHighLevel

namespace EventLoopThread

def single (closure : F → ℕ → F) (s : EventLoopThread F) : EventLoopThread F :=
  { s with connections := fun fd => (s.connections fd).map (·.single closure) }

/-- The buffers of a batch, written one after the other from index `i` on. -/
def writeEach (closure : F → ℕ → F) (s : EventLoopThread F) (fd : Fd) (socket : Socket)
    (callbacks : F) (i : ℕ) : List (List CChar) → EventLoopThread F × List (Effect F)
  | [] => (s, [])
  | buf :: bufs =>
      let first := s.doAsyncWriteOnce fd socket (some (closure callbacks i)) buf
      let rest := first.1.writeEach closure fd socket callbacks (i + 1) bufs
      (rest.1, first.2 ++ rest.2)

/-- What later calls of `handleWrite` do. -/
def handleWrites (s : EventLoopThread F) :
    List (Fd × WriteOutcome) → EventLoopThread F × List (Effect F)
  | [] => (s, [])
  | (fd, outcome) :: later =>
      let first := s.handleWrite fd outcome
      let rest := first.1.handleWrites later
      (rest.1, first.2 ++ rest.2)

/-- A write task whose counter stays an `int`. -/
def submit (s : EventLoopThread F) (fd : Fd) (socket : Socket)
    (submissions : List (Submission F)) : EventLoopThread F × List (Effect F) :=
  (s.put fd (stepSubmit fd (s.connections fd) socket submissions).1
      (writeEvents (s.connections fd) (s.epoll fd)),
    (stepSubmit fd (s.connections fd) socket submissions).2)

end EventLoopThread

section Split

variable {fd : Fd} {conn : Connection F} {old : Option (Connection F)}

/-- The counter is over the high mark and there is a callback for it. -/
def Connection.overHigh (conn : Connection F) : Bool :=
  decide (defaultHighLevelSize < conn.inQueueWriteBufferByteSize) &&
    conn.highLevelCallback.isSome

theorem checkHighLevel_fst (fd : Fd) (conn : Connection F) :
    (conn.checkHighLevel fd).1 =
      { conn with highLevelCallbackSet := conn.highLevelCallbackSet || conn.overHigh } := by
  obtain ⟨socket, readCb, readBuffer, queue, counter, high, low, closing, set, readReg, writeReg,
    peer⟩ := conn
  unfold checkHighLevel overHigh
  by_cases hover : defaultHighLevelSize < counter <;> cases high <;> cases set <;> simp [hover]

theorem highCalls_checkHighLevel (fd : Fd) (conn : Connection F) :
    highCalls (conn.checkHighLevel fd).2 = (conn.overHigh && !conn.highLevelCallbackSet).toNat := by
  obtain ⟨socket, readCb, readBuffer, queue, counter, high, low, closing, set, readReg, writeReg,
    peer⟩ := conn
  unfold checkHighLevel overHigh highCalls
  by_cases hover : defaultHighLevelSize < counter <;> cases high <;> cases set <;>
    simp [hover, Effect.isHighLevel]

theorem highCalls_append (xs ys : List (Effect F)) :
    highCalls (xs ++ ys) = highCalls xs + highCalls ys := List.countP_append

theorem stepSubmit_fst (socket : Socket) (submissions : List (Submission F)) :
    (stepSubmit fd old socket submissions).1 =
      let conn := (old.getD (writeOnly socket)).submit submissions
      some { conn with
        highLevelCallbackSet := conn.highLevelCallbackSet || conn.overHigh
        writeRegistered := true } := by
  simp only [stepSubmit, stepWrite, checkHighLevel_fst]

theorem highCalls_stepSubmit (socket : Socket) (submissions : List (Submission F)) :
    highCalls (stepSubmit fd old socket submissions).2 =
      let conn := (old.getD (writeOnly socket)).submit submissions
      (conn.overHigh && !conn.highLevelCallbackSet).toNat := by
  have hqueued : highCalls (submissions.map (Effect.ofSubmission fd)) = 0 := by
    refine List.countP_eq_zero.mpr fun effect heffect => ?_
    obtain ⟨s, -, rfl⟩ := List.mem_map.mp heffect
    exact Bool.false_ne_true
  simp only [stepSubmit, stepWrite]
  rw [highCalls_append, hqueued, Nat.zero_add, highCalls_checkHighLevel]

theorem submit_append (conn : Connection F) (xs ys : List (Submission F)) :
    (conn.submit xs).submit ys = conn.submit (xs ++ ys) := by
  simp [Connection.submit, add_assoc]

/-- More bytes do not bring the counter below the mark. -/
theorem overHigh_submit (conn : Connection F) (xs ys : List (Submission F))
    (h : (conn.submit xs).overHigh = true) : (conn.submit (xs ++ ys)).overHigh = true := by
  simp only [overHigh, Connection.submit, Bool.and_eq_true, decide_eq_true_eq, bytesOf_append,
    List.length_append] at h ⊢
  obtain ⟨hover, hcallback⟩ := h
  have hover := of_decide_eq_true hover
  refine ⟨?_, hcallback⟩
  omega

/-- Submissions in two tasks. -/
theorem stepSubmit_append (fd : Fd) (old : Option (Connection F)) (socket : Socket)
    (xs ys : List (Submission F)) :
    (stepSubmit fd (stepSubmit fd old socket xs).1 socket ys).1 =
        (stepSubmit fd old socket (xs ++ ys)).1 ∧
      highCalls (stepSubmit fd old socket xs).2 +
          highCalls (stepSubmit fd (stepSubmit fd old socket xs).1 socket ys).2 =
        highCalls (stepSubmit fd old socket (xs ++ ys)).2 := by
  have hover := overHigh_submit (old.getD (writeOnly socket)) xs ys
  have hflag : (old.getD (writeOnly socket)).submit (xs ++ ys) =
      ((old.getD (writeOnly socket)).submit xs).submit ys := (submit_append _ xs ys).symm
  simp only [highCalls_stepSubmit, stepSubmit_fst, Option.getD_some]
  rw [hflag] at hover ⊢
  generalize (old.getD (writeOnly socket)).submit xs = conn at hover ⊢
  have hsame : ∀ set write : Bool, (Connection.submit { conn with
      highLevelCallbackSet := set
      writeRegistered := write } ys).overHigh = (conn.submit ys).overHigh := fun _ _ => rfl
  rw [hsame]
  have hset : (conn.submit ys).highLevelCallbackSet = conn.highLevelCallbackSet := rfl
  rw [hset]
  cases hfirst : conn.overHigh with
  | false =>
      constructor
      · simp only [Connection.submit, Bool.or_false]
      · simp only [Connection.submit, Bool.false_and, Bool.toNat_false, Bool.or_false,
          Nat.zero_add]
  | true =>
      rw [hover hfirst]
      constructor
      · simp only [Connection.submit, Bool.or_true]
      · simp only [Connection.submit, Bool.or_true, Bool.not_true, Bool.and_false,
          Bool.toNat_false, Nat.add_zero]

end Split

section Tasks

variable {s : EventLoopThread F} {fd : Fd} {socket : Socket}

namespace EventLoopThread

theorem doAsyncWriteOnce_eq {callback : Option F} {buf : List CChar}
    (h : ((s.connections fd).getD (writeOnly socket)).Fits [⟨buf, callback.map .once⟩]) :
    s.doAsyncWriteOnce fd socket callback buf =
      s.submit fd socket [⟨buf, callback.map .once⟩] := by
  have hstep := stepWrite_once fd h
  refine Prod.ext ?_ ?_
  · simp only [submit, ← hstep]
    exact write_put socket fun conn => sameFlags_enqueue fd conn (callback.map .once) buf
  · simp only [submit, ← hstep]
    exact write_effects socket fun conn => conn.enqueue fd (callback.map .once) buf

theorem doAsyncWriteBatch_eq {callbacks : F} {bufs : List (List CChar)}
    (h : ((s.connections fd).getD (writeOnly socket)).Fits (batch callbacks 0 bufs)) :
    s.doAsyncWriteBatch fd socket callbacks bufs =
      s.submit fd socket (batch callbacks 0 bufs) := by
  have hstep := stepWrite_batch fd h
  refine Prod.ext ?_ ?_
  · simp only [submit, ← hstep]
    exact write_put socket fun conn => sameFlags_enqueueBatch fd conn callbacks 0 bufs
  · simp only [submit, ← hstep]
    exact write_effects socket fun conn => conn.enqueueBatch fd callbacks 0 bufs

/-- Submissions in two tasks; the first one has asked for output already. -/
theorem submit_append (s : EventLoopThread F) (fd : Fd) (socket : Socket)
    (xs ys : List (Submission F)) :
    ((s.submit fd socket xs).1.submit fd socket ys).1 = (s.submit fd socket (xs ++ ys)).1 ∧
      highCalls (s.submit fd socket xs).2 +
          highCalls ((s.submit fd socket xs).1.submit fd socket ys).2 =
        highCalls (s.submit fd socket (xs ++ ys)).2 := by
  obtain ⟨hconn, hcalls⟩ := stepSubmit_append fd (s.connections fd) socket xs ys
  simp only [submit, connections_put, epoll_put, put_put, hconn]
  refine ⟨congrArg (s.put fd _) ?_, hcalls⟩
  rw [stepSubmit_fst]
  rfl

end EventLoopThread

theorem bytesOf_single (closure : F → ℕ → F) (submissions : List (Submission F)) :
    bytesOf (submissions.map (·.single closure)) = bytesOf submissions := by
  rw [bytesOf, List.map_map]
  rfl

theorem fits_single (closure : F → ℕ → F) {conn : Connection F}
    {submissions : List (Submission F)} :
    conn.Fits (submissions.map (·.single closure)) ↔ conn.Fits submissions := by
  rw [Fits, bytesOf_single, Fits]

/-- One by one the buffers are submitted with a function each. -/
theorem writeEach_eq (closure : F → ℕ → F) (callbacks : F) (i : ℕ) {bufs : List (List CChar)}
    (hbufs : bufs ≠ [])
    (hfits : ((s.connections fd).getD (writeOnly socket)).Fits (batch callbacks i bufs)) :
    (s.writeEach closure fd socket callbacks i bufs).1 =
        (s.submit fd socket ((batch callbacks i bufs).map (·.single closure))).1 ∧
      highCalls (s.writeEach closure fd socket callbacks i bufs).2 =
        highCalls (s.submit fd socket ((batch callbacks i bufs).map (·.single closure))).2 := by
  induction bufs generalizing s i with
  | nil => exact absurd rfl hbufs
  | cons buf bufs ih =>
      have hsingle := (fits_single closure).mpr hfits
      rw [batch, List.map_cons] at hsingle
      obtain ⟨hfirst, hrest⟩ := fits_cons hsingle
      have hstep : s.doAsyncWriteOnce fd socket (some (closure callbacks i)) buf =
          s.submit fd socket [⟨buf, some (.once (closure callbacks i))⟩] :=
        EventLoopThread.doAsyncWriteOnce_eq hfirst
      obtain ⟨hloop, hcalls⟩ := EventLoopThread.submit_append s fd socket
        [⟨buf, some (.once (closure callbacks i))⟩]
        ((batch callbacks (i + 1) bufs).map (·.single closure))
      simp only [EventLoopThread.writeEach, hstep, highCalls_append]
      cases bufs with
      | nil => exact ⟨rfl, rfl⟩
      | cons buf' bufs =>
          have hfits' : (((s.submit fd socket
              [⟨buf, some (.once (closure callbacks i))⟩]).1.connections fd).getD
                (writeOnly socket)).Fits (batch callbacks (i + 1) (buf' :: bufs)) := by
            rw [EventLoopThread.submit, EventLoopThread.connections_put, stepSubmit_fst]
            exact (fits_single closure).mp hrest
          obtain ⟨hloop', hcalls'⟩ := ih (i + 1) (List.cons_ne_nil _ _) hfits'
          exact ⟨hloop'.trans hloop, by rw [hcalls']; exact hcalls⟩

end Tasks

section Single

variable (closure : F → ℕ → F)

theorem single_single (s : Submission F) :
    (s.single closure).single closure = s.single closure := by
  obtain ⟨buf, callback⟩ := s
  cases callback with
  | none => rfl
  | some c => cases c <;> rfl

theorem single_submit (conn : Connection F) (submissions : List (Submission F)) :
    (conn.submit submissions).single closure =
      (conn.single closure).submit (submissions.map (·.single closure)) := by
  rw [Connection.submit, Connection.submit, bytesOf_single]
  simp only [Connection.single, List.map_append, List.map_map]
  rfl

theorem stepSubmit_single (fd : Fd) (old : Option (Connection F)) (socket : Socket)
    (submissions : List (Submission F)) :
    (stepSubmit fd old socket submissions).1.map (·.single closure) =
      (stepSubmit fd (old.map (·.single closure)) socket
        (submissions.map (·.single closure))).1 := by
  have hconn : (old.getD (writeOnly socket)).single closure =
      (old.map (·.single closure)).getD (writeOnly socket) := by
    cases old <;> rfl
  rw [stepSubmit_fst, stepSubmit_fst, ← hconn, ← single_submit]
  rfl

theorem highCalls_single (fd : Fd) (old : Option (Connection F)) (socket : Socket)
    (submissions : List (Submission F)) :
    highCalls (stepSubmit fd old socket (submissions.map (·.single closure))).2 =
      highCalls (stepSubmit fd old socket submissions).2 := by
  have hover : ∀ conn : Connection F, (conn.submit (submissions.map (·.single closure))).overHigh =
      (conn.submit submissions).overHigh := fun conn => by
    rw [overHigh, overHigh, Connection.submit, Connection.submit, bytesOf_single]
  rw [highCalls_stepSubmit, highCalls_stepSubmit]
  simp only [hover]
  rfl

theorem finish_single (n : ℕ) (queue : List (WriteMetaInfo F)) :
    finish n (queue.map (·.single closure)) =
      ((finish n queue).1.map (·.single closure), (finish n queue).2.map (·.single closure)) := by
  induction queue generalizing n with
  | nil => rfl
  | cons m queue ih =>
      have hunsent : (m.single closure).unsent = m.unsent := rfl
      rw [List.map_cons, finish, finish]
      by_cases hzero : n = 0
      · simp only [if_pos hzero, List.map_cons, List.map_nil]
      · simp only [if_neg hzero, hunsent]
        by_cases hwhole : m.unsent.length ≤ n
        · simp only [dif_pos hwhole, ih, List.map_append]
          cases h : m.callback <;> simp [WriteMetaInfo.single, h]
        · simp only [dif_neg hwhole, List.map_cons, List.map_nil]
          rfl

theorem iovs_single (conn : Connection F) : (conn.single closure).iovs = conn.iovs := by
  simp only [iovs, window, Connection.single, ← List.map_take, List.map_map]
  rfl

theorem checkLowLevel_single (fd : Fd) (conn : Connection F) :
    (conn.single closure).checkLowLevel fd =
      ((conn.checkLowLevel fd).1.single closure,
        (conn.checkLowLevel fd).2.map (·.single closure)) := by
  obtain ⟨socket, readCb, readBuffer, queue, counter, high, low, closing, set, readReg, writeReg,
    peer⟩ := conn
  unfold checkLowLevel Connection.single
  by_cases hunder : counter < defaultLowLevelSize <;> cases low <;> cases set <;>
    simp [hunder, Effect.single]

theorem failAllPendingWrites_single (fd : Fd) (conn : Connection F) :
    (conn.single closure).failAllPendingWrites fd =
      ((conn.failAllPendingWrites fd).1.single closure,
        (conn.failAllPendingWrites fd).2.map (·.single closure)) := by
  unfold failAllPendingWrites
  simp only [Connection.single, List.map_eq_nil_iff]
  split
  · rfl
  · refine Prod.ext rfl ?_
    simp only [List.filterMap_map, List.map_filterMap]
    congr 1
    funext m
    cases h : m.callback <;> simp [WriteMetaInfo.single, Effect.single, h]

namespace EventLoopThread

variable (s : EventLoopThread F) (fd : Fd)

theorem single_put (conn : Option (Connection F)) (events : Option Interest) :
    (s.put fd conn events).single closure =
      (s.single closure).put fd (conn.map (·.single closure)) events := by
  have hconnections := Function.comp_update (Option.map (Connection.single closure))
    s.connections fd conn
  exact congrArg (fun connections => ({ s with
    connections := connections
    epoll := Function.update s.epoll fd events } : EventLoopThread F)) hconnections

theorem submit_single (socket : Socket) (submissions : List (Submission F)) :
    (s.submit fd socket submissions).1.single closure =
      ((s.single closure).submit fd socket (submissions.map (·.single closure))).1 := by
  have hevents : writeEvents ((s.connections fd).map (·.single closure)) (s.epoll fd) =
      writeEvents (s.connections fd) (s.epoll fd) := by
    cases s.connections fd <;> rfl
  rw [submit, single_put, stepSubmit_single, ← hevents]
  rfl

theorem setConnection_single (conn : Connection F) :
    (s.single closure).setConnection fd (conn.single closure) =
      (s.setConnection fd conn).single closure := by
  rw [setConnection_eq_put, setConnection_eq_put, single_put]
  rfl

theorem drained_single (conn : Connection F) :
    (s.single closure).drained fd (conn.single closure) =
      (s.drained fd conn).single closure := by
  unfold drained Connection.single
  cases conn.peerClosed <;> cases conn.readRegistered <;> rfl

theorem closeConnection_single :
    (s.single closure).closeConnection fd =
      ((s.closeConnection fd).1.single closure,
        (s.closeConnection fd).2.map (·.single closure)) := by
  unfold closeConnection
  cases haccept : s.acceptSocketSet fd with
  | some ctx => simp [removeEpollEvents, single, haccept]
  | none =>
      cases hconn : s.connections fd with
      | none => simp [removeEpollEvents, single, haccept, hconn]
      | some conn =>
          have hgone := Function.comp_update (Option.map (Connection.single closure))
            s.connections fd none
          have hclosing : ((conn.closingCallback.map (Effect.closing fd)).toList).map
              (·.single closure) = (conn.closingCallback.map (Effect.closing fd)).toList := by
            cases conn.closingCallback <;> rfl
          simp only [removeEpollEvents, single, haccept, hconn, Option.isSome_none,
            Bool.false_eq_true, if_false, Option.map_some, failAllPendingWrites_single,
            List.map_append, hclosing]
          exact Prod.ext (congrArg (fun connections => ({ s with
            connections := connections
            epoll := ctlDel s.epoll fd } : EventLoopThread F)) hgone.symm) rfl

theorem written_single (conn : Connection F) (n : ℕ) :
    (s.single closure).written fd (conn.single closure) n =
      ((s.written fd conn n).1.single closure,
        (s.written fd conn n).2.map (·.single closure)) := by
  have hsent : (conn.single closure).sent n = (conn.sent n).single closure := by
    simp only [Connection.sent, Connection.single, finish_single, ne_eq, List.map_eq_nil_iff]
    rfl
  have hlow := checkLowLevel_single closure fd (conn.sent n)
  have hqueue : finish n (conn.single closure).writeQueue =
      ((finish n conn.writeQueue).1.map (·.single closure),
        (finish n conn.writeQueue).2.map (·.single closure)) := finish_single closure n _
  refine Prod.ext ?_ ?_
  · show (if (finish n (conn.single closure).writeQueue).1 = [] then
        ((s.single closure).setConnection fd
          (((conn.single closure).sent n).checkLowLevel fd).1).drained fd
            ((conn.single closure).sent n)
      else (s.single closure).setConnection fd
        (((conn.single closure).sent n).checkLowLevel fd).1) = _
    rw [hqueue, hsent, hlow, setConnection_single, drained_single]
    simp only [List.map_eq_nil_iff]
    exact (apply_ite (single closure) _ _ _).symm
  · show Effect.accepted fd ((conn.single closure).iovs.flatten.take n) ::
      ((finish n (conn.single closure).writeQueue).2.map (Effect.wrote fd · true) ++
        (((conn.single closure).sent n).checkLowLevel fd).2) = _
    rw [hqueue, hsent, hlow, iovs_single, List.map_map]
    simp only [written, List.map_cons, List.map_append, List.map_map]
    rfl

theorem handleWrite_single (outcome : WriteOutcome) :
    (s.single closure).handleWrite fd outcome =
      ((s.handleWrite fd outcome).1.single closure,
        (s.handleWrite fd outcome).2.map (·.single closure)) := by
  have hconnections : (s.single closure).connections fd =
      (s.connections fd).map (·.single closure) := rfl
  unfold handleWrite
  rw [hconnections]
  cases s.connections fd with
  | none => rfl
  | some conn =>
      simp only [Option.map_some, iovs_single]
      by_cases hiovs : conn.iovs = []
      · simp only [if_pos hiovs, List.map_nil]
      · simp only [if_neg hiovs]
        cases outcome with
        | again => rfl
        | error =>
            simp only [failAllPendingWrites_single, setConnection_single, closeConnection_single,
              List.map_append]
        | accepted n => exact written_single closure s fd conn n

theorem handleWrites_single (later : List (Fd × WriteOutcome)) :
    ((s.single closure).handleWrites later).2 =
      (s.handleWrites later).2.map (·.single closure) := by
  induction later generalizing s with
  | nil => rfl
  | cons w later ih =>
      obtain ⟨fd, outcome⟩ := w
      simp only [handleWrites, handleWrite_single, ih, List.map_append]

end EventLoopThread

end Single

/-- The bytes that wait on a descriptor, as the loop counts them. -/
def pendingBytes (old : Option (Connection F)) : ℤ :=
  (old.map (·.inQueueWriteBufferByteSize)).getD 0

theorem fits_of_pendingBytes {old : Option (Connection F)} (socket : Socket) (f : F) (i : ℕ)
    {bufs : List (List CChar)} (hint : -2 ^ 31 ≤ pendingBytes old)
    (hfits : pendingBytes old + bufs.flatten.length < 2 ^ 31) :
    (old.getD (writeOnly socket)).Fits (batch f i bufs) := by
  rw [Fits, bytesOf_batch]
  cases old <;> exact ⟨hint, hfits⟩

/-- Whatever the loop has and knows of the descriptor: a batch leaves the same loop as its
buffers one by one, calls the high-water callback as often, and later writes of the kernel
call the same functions with the same results. -/
theorem writeBatch_eq_writeEach (closure : F → ℕ → F) (s : EventLoopThread F) (fd : Fd)
    (socket : Socket) (callbacks : F) {bufs : List (List CChar)} (hbufs : bufs ≠ [])
    (hint : -2 ^ 31 ≤ pendingBytes (s.connections fd))
    (hfits : pendingBytes (s.connections fd) + bufs.flatten.length < 2 ^ 31) :
    let batched := s.doAsyncWriteBatch fd socket callbacks bufs
    let each := s.writeEach closure fd socket callbacks 0 bufs
    batched.1.single closure = each.1.single closure ∧
      highCalls batched.2 = highCalls each.2 ∧
      ∀ later, (batched.1.handleWrites later).2.map (·.single closure) =
        (each.1.handleWrites later).2.map (·.single closure) := by
  intro batched each
  have hfits := fits_of_pendingBytes socket callbacks 0 hint hfits
  obtain ⟨hloop, hcalls⟩ := writeEach_eq closure callbacks 0 hbufs hfits
  have hbatched : batched = s.submit fd socket (batch callbacks 0 bufs) :=
    EventLoopThread.doAsyncWriteBatch_eq hfits
  have hsame : batched.1.single closure = each.1.single closure := by
    have htwice : ((batch callbacks 0 bufs).map (·.single closure)).map (·.single closure) =
        (batch callbacks 0 bufs).map (·.single closure) := by
      rw [List.map_map]
      exact List.map_congr_left fun x _ => single_single closure x
    rw [hbatched, hloop, EventLoopThread.submit_single, EventLoopThread.submit_single, htwice]
  refine ⟨hsame, ?_, fun later => ?_⟩
  · rw [hcalls, hbatched]
    exact (highCalls_single closure fd (s.connections fd) socket _).symm
  · rw [← EventLoopThread.handleWrites_single, ← EventLoopThread.handleWrites_single, hsame]

/-- Two buffers to a descriptor that the loop does not know. -/
theorem writeBatch_eq_writeEach_two :
    let batched := (EventLoopThread.fresh : EventLoopThread ℕ).doAsyncWriteBatch 3 0 7 [[1], [2, 3]]
    let each := (EventLoopThread.fresh : EventLoopThread ℕ).writeEach (· + ·) 3 0 7 0 [[1], [2, 3]]
    batched.1.single (· + ·) = each.1.single (· + ·) ∧
      highCalls batched.2 = highCalls each.2 ∧
      ∀ later, (batched.1.handleWrites later).2.map (·.single (· + ·)) =
        (each.1.handleWrites later).2.map (·.single (· + ·)) :=
  writeBatch_eq_writeEach (· + ·) .fresh 3 0 7 (List.cons_ne_nil _ _) (by decide) (by decide)

end SimpleRedis.Net
